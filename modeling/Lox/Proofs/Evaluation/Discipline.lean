import Lox.Proofs.Evaluation.Action
import Lox.Proofs.Plan.Course

/-!
# The discipline of tasks

Whatever a task does to the current frame, to the frames put aside, to the temporaries and to the count
of calls, it undoes before it ends, however it ends (`Evaluation.balanced`).  Nothing is asked of the
state for that, and nothing of the tree.

Along with this the rules keep three more things, which are all in one contract
(`Evaluation.discipline`).  A task asks only for what it is made of (`Task.Asks`).  One more call is in
progress in what a call asks for, and only if there was room for it; in everything else there are as many
as before.  And what is printed stays printed (`Sink.Grows`).
-/

namespace Lox

open Evaluation

/-! ## What a task is made of -/

/-- The expressions that an expression is made of. -/
def Expr.operands : Expr → List Expr
  | .literal _ | .variable_ _ | .this _ _ | .super _ _ _ | .function _ => []
  | .group inner => [inner]
  | .unary _ operand => [operand]
  | .binary left _ right | .logical left _ right => [left, right]
  | .assign _ value => [value]
  | .call callee arguments _ => callee :: arguments
  | .get object _ => [object]
  | .set object _ value => [object, value]

/-- The expressions that a statement evaluates. -/
def Stmt.expressions : Stmt → List Expr
  | .expression value | .print _ value => [value]
  | .var _ initial => initial.toList
  | .branch condition _ _ => [condition]
  | .return_ _ value => value.toList
  | .class_ _ superclass _ => superclass.toList.map .variable_
  | .block _ | .loop _ _ | .function _ => []

/-- The statements that a statement executes; a loop does so in rounds. -/
def Stmt.parts : Stmt → List Stmt
  | .block body => body
  | .branch _ yes no => yes :: no.toList
  | _ => []

/-- What a task may ask for, or hand over to. -/
inductive Task.Asks : {sort sort' : TaskSort} → Task sort → Task sort' → Prop
  | operand {e e' : Expr} (mem : e' ∈ e.operands) : Asks (.evaluate e) (.evaluate e')
  | call {callee : Expr} {arguments : List Expr} {line : Nat} (v : Value) (vs : List Value) :
      Asks (.evaluate (.call callee arguments line)) (.call v vs line)
  | function (identity : Identity) (closure : Closure) (vs : List Value) (line : Nat) :
      Asks (.call (.function identity closure) vs line) (.invoke closure vs)
  | initializer {type : Class} {method bound : Closure} (vs : List Value) (line : Nat)
      (found : type.findMethod? initializerName = some method)
      (same : bound.declaration = method.declaration) :
      Asks (.call (.class_ type) vs line) (.invoke bound vs)
  | body {closure : Closure} {s : Stmt} (vs : List Value)
      (mem : s ∈ closure.declaration.body) : Asks (.invoke closure vs) (.execute s)
  | perform (s : Stmt) : Asks (.execute s) (.perform s)
  | expression {s : Stmt} {e : Expr} (mem : e ∈ s.expressions) : Asks (.perform s) (.evaluate e)
  | part {s s' : Stmt} (mem : s' ∈ s.parts) : Asks (.perform s) (.execute s')
  | loop (condition : Expr) (body : Stmt) :
      Asks (.perform (.loop condition body)) (.repeat_ condition body)
  | condition (condition : Expr) (body : Stmt) :
      Asks (.repeat_ condition body) (.evaluate condition)
  | round (condition : Expr) (body : Stmt) : Asks (.repeat_ condition body) (.execute body)
  | again (condition : Expr) (body : Stmt) :
      Asks (.repeat_ condition body) (.repeat_ condition body)
  | statement {program : List Stmt} {s : Stmt} (mem : s ∈ program) :
      Asks (.run program) (.execute s)

/-- How many calls a task is itself. -/
def Task.calls : {sort : TaskSort} → Task sort → Nat
  | _, .call _ _ _ => 1
  | _, _ => 0

/-! ## What becomes of a state -/

/-- What is printed stays printed, and what room there is for more gets smaller by that much. -/
structure Sink.Grows (before after : Sink) : Prop where
  printed : ∃ more, after.printed = before.printed ++ more
  room : after.capacity.map (· + after.printed.size) =
    before.capacity.map (· + before.printed.size)
  reason : after.reason = before.reason

namespace Sink.Grows

variable {sink sink' sink'' : Sink}

theorem refl (sink : Sink) : sink.Grows sink := ⟨⟨#[], by simp⟩, rfl, rfl⟩

theorem trans (h : sink.Grows sink') (h' : sink'.Grows sink'') : sink.Grows sink'' := by
  obtain ⟨more, printed⟩ := h.printed
  obtain ⟨more', printed'⟩ := h'.printed
  refine ⟨⟨more ++ more', ?_⟩, h'.room.trans h.room, h'.reason.trans h.reason⟩
  rw [printed', printed, Array.append_assoc]

theorem of_print {line : String} (h : sink.print line = .ok sink') : sink.Grows sink' := by
  obtain ⟨printed, capacity, reason⟩ := sink
  cases capacity with
  | none =>
    cases h
    exact ⟨⟨#[line], by simp⟩, rfl, rfl⟩
  | some n =>
    cases n with
    | zero => cases h
    | succ n =>
      cases h
      refine ⟨⟨#[line], by simp⟩, ?_, rfl⟩
      simp only [Option.map_some, Array.size_push]
      congr 1
      omega

end Sink.Grows

/-- Whatever the stacks of a state hold is what they held before. -/
structure State.Balanced (before after : State) : Prop where
  globals : after.globals = before.globals
  current : after.current = before.current
  saved : after.saved = before.saved
  temporaries : after.temporaries = before.temporaries
  callDepth : after.callDepth = before.callDepth
  settings : after.settings = before.settings

namespace State.Balanced

variable {st st' st'' : State}

theorem refl (st : State) : st.Balanced st := ⟨rfl, rfl, rfl, rfl, rfl, rfl⟩

theorem trans (h : st.Balanced st') (h' : st'.Balanced st'') : st.Balanced st'' :=
  ⟨h'.globals.trans h.globals, h'.current.trans h.current, h'.saved.trans h.saved,
    h'.temporaries.trans h.temporaries, h'.callDepth.trans h.callDepth,
    h'.settings.trans h.settings⟩

theorem collectIfDue (st : State) : st.Balanced st.collectIfDue := by
  rw [State.collectIfDue]
  split
  · exact ⟨rfl, rfl, rfl, rfl, rfl, rfl⟩
  · exact .refl st

end State.Balanced

/-! ## The contract -/

namespace Evaluation

/-- What a task is asked for in, by the rule for another one. -/
structure Within {sort sort' : TaskSort} (q : Question sort) (q' : Question sort') : Prop where
  task : q.task.Asks q'.task
  globals : q'.state.globals = q.state.globals
  settings : q'.state.settings = q.state.settings
  callDepth : q'.state.callDepth = q.state.callDepth + q.task.calls
  /-- There is room for a call. -/
  room : q.task.calls ≠ 0 → q.state.callDepth < q.state.settings.maxCallDepth

/-- What a task leaves behind.  A program that stops leaves everything that was in progress. -/
def Leaves : {sort : TaskSort} → Question sort → Answer sort → Prop
  | .program, q, ⟨.error _, after⟩ => q.state.reset.Balanced after
  | _, q, ⟨_, after⟩ => q.state.Balanced after

/-- The discipline that tasks keep. -/
def discipline : Contract Question Answer Sink where
  before _ q := q.state.sink
  after _ r := r.state.sink
  le := Sink.Grows
  le_refl := .refl
  le_trans := .trans
  Asked := Within
  Answered _ := Leaves

theorem Leaves.balanced {sort : TaskSort} {q : Question sort} {r : Answer sort}
    (part : sort ≠ .program) (h : Leaves q r) : q.state.Balanced r.state := by
  cases sort with
  | program => exact absurd rfl part
  | value | flow => exact h

end Evaluation

/-! ## Actions that keep it -/

/-- The same as `Balanced`, but more values may be held on to. -/
structure State.Above (before after : State) : Prop where
  globals : after.globals = before.globals
  current : after.current = before.current
  saved : after.saved = before.saved
  temporaries : ∃ more, after.temporaries = before.temporaries ++ more
  callDepth : after.callDepth = before.callDepth
  settings : after.settings = before.settings

namespace State

variable {st st' st'' : State}

theorem Balanced.above (h : st.Balanced st') : st.Above st' :=
  ⟨h.globals, h.current, h.saved, ⟨#[], by simp [h.temporaries]⟩, h.callDepth, h.settings⟩

theorem Above.trans (h : st.Above st') (h' : st'.Above st'') : st.Above st'' := by
  obtain ⟨more, temporaries⟩ := h.temporaries
  obtain ⟨more', temporaries'⟩ := h'.temporaries
  refine ⟨h'.globals.trans h.globals, h'.current.trans h.current, h'.saved.trans h.saved,
    ⟨more ++ more', ?_⟩, h'.callDepth.trans h.callDepth, h'.settings.trans h.settings⟩
  rw [temporaries', temporaries, Array.append_assoc]

theorem Above.push (st : State) (v : Value) : st.Above (st.push v) :=
  ⟨rfl, rfl, rfl, ⟨#[v], Array.push_eq_append⟩, rfl, rfl⟩

end State

namespace Eval

variable {α β : Type} {Asks Asks' : (sort : TaskSort) → Task sort → Prop} {n : Nat} {st st' : State}
  {s : Sink}

/-- A task that an action asks for, when the last answer has left the sink `s`: one that it may ask
for, with so many more calls in progress than when the action began. -/
structure Meanwhile (Asks : (sort : TaskSort) → Task sort → Prop) (n : Nat) (st : State) (s : Sink)
    (sort : TaskSort) (q : Question sort) : Prop where
  task : Asks sort q.task
  globals : q.state.globals = st.globals
  settings : q.state.settings = st.settings
  callDepth : q.state.callDepth = st.callDepth + n
  sink : s.Grows q.state.sink

theorem Meanwhile.of_above {sort : TaskSort} {q : Question sort} (h : Meanwhile Asks n st' s sort q)
    (above : st.Above st') : Meanwhile Asks n st s sort q :=
  ⟨h.task, h.globals.trans above.globals, h.settings.trans above.settings,
    h.callDepth.trans (by rw [above.callDepth]), h.sink⟩

/-- How an action ends that has begun in `st`, when the last answer has left the sink `s`: the state
is as `Post` says, and the result, if there is one, is `Good`. -/
structure Left (Post : State → State → Prop) (Good : α → Prop) (st : State) (s : Sink)
    (o : Except Stop α × State) : Prop where
  state : Post st o.2
  sink : s.Grows o.2.sink
  good : ∀ {a}, o.1 = .ok a → Good a

/-- The action asks for tasks as it may, and ends as it should. -/
def Leaving (Post : State → State → Prop) (Good : α → Prop)
    (Asks : (sort : TaskSort) → Task sort → Prop) (n : Nat) (action : Eval α) : Prop :=
  ∀ st s, Sink.Grows s st.sink → (action st).Proceeds discipline.after (Meanwhile Asks n st)
    discipline.Known (Left Post Good st) s

/-- The action keeps the discipline. -/
abbrev Keeps (Asks : (sort : TaskSort) → Task sort → Prop) (n : Nat) (action : Eval α) : Prop :=
  action.Leaving State.Balanced (fun _ => True) Asks n

theorem Left.done {Good : α → Prop} {result : Except Stop α} {heap : Heap} (grows : s.Grows st.sink)
    (good : ∀ {a}, result = .ok a → Good a) :
    Left State.Balanced Good st s (result, { st with heap := heap }) :=
  ⟨⟨rfl, rfl, rfl, rfl, rfl, rfl⟩, grows, good⟩

namespace Keeps

theorem of_local {action : Eval α} (h : action.Local) : action.Keeps Asks n := by
  intro st s grows
  obtain ⟨result, heap, done⟩ := h.exists_done st
  rw [done]
  exact .done grows fun _ => trivial

theorem pure {Good : α → Prop} {a : α} (good : Good a) :
    (Pure.pure a : Eval α).Leaving State.Balanced Good Asks n := by
  intro st s grows
  exact ⟨.refl st, grows, fun same => by cases same; exact good⟩

theorem fail {Good : α → Prop} (line : Nat) (cause : RuntimeError.Cause) :
    (Eval.fail line cause : Eval α).Leaving State.Balanced Good Asks n :=
  fun st _ grows => ⟨.refl st, grows, nofun⟩

theorem bind {Good : β → Prop} {action : Eval α} {next : α → Eval β} (h : action.Keeps Asks n)
    (h' : ∀ a, (next a).Leaving State.Balanced Good Asks n) :
    (action >>= next).Leaving State.Balanced Good Asks n := by
  intro st s grows
  rw [bind_apply]
  refine (h st s grows).bind fun s o left => ?_
  obtain ⟨result, st'⟩ := o
  have balanced : st.Balanced st' := left.state
  cases result with
  | ok a =>
    exact (h' a st' s left.sink).mono (fun _ _ _ asked => asked.of_above balanced.above)
      fun _ _ after => ⟨balanced.trans after.state, after.sink, after.good⟩
  | error stop => exact ⟨balanced, left.sink, nofun⟩

/-- What is made is known to come from a heap. -/
theorem make_bind {Good : β → Prop} {f : Heap → α × Heap} {next : α → Eval β}
    (h : ∀ heap, (next (f heap).1).Leaving State.Balanced Good Asks n) :
    (Eval.make f >>= next).Leaving State.Balanced Good Asks n := by
  intro st s grows
  have made : st.Balanced { st with heap := (f st.heap).2 } := ⟨rfl, rfl, rfl, rfl, rfl, rfl⟩
  exact (h st.heap { st with heap := (f st.heap).2 } s grows).mono
    (fun _ _ _ asked => asked.of_above made.above)
    fun _ _ after => ⟨made.trans after.state, after.sink, after.good⟩

theorem map {Good : β → Prop} {action : Eval α} (h : action.Keeps Asks n) (f : α → β)
    (good : ∀ a, Good (f a)) : (f <$> action).Leaving State.Balanced Good Asks n :=
  bind h fun a => pure (good a)

theorem ask {sort : TaskSort} {task : Task sort} (part : sort ≠ .program) (asks : Asks sort task) :
    (Eval.ask task).Keeps Asks 0 := by
  intro st s grows
  refine ⟨⟨asks, rfl, rfl, rfl, grows⟩, fun r known => ⟨?_, .refl _, fun _ => trivial⟩⟩
  exact known.1.balanced part

theorem print (line : Nat) (text : String) : (Eval.print line text).Keeps Asks n := by
  intro st s grows
  rw [Eval.print]
  split
  · rename_i sink printed
    exact ⟨⟨rfl, rfl, rfl, rfl, rfl, rfl⟩, grows.trans (.of_print printed), fun _ => trivial⟩
  · exact fail line _ st s grows

theorem readClock : Eval.readClock.Keeps Asks n :=
  fun _ _ grows => ⟨⟨rfl, rfl, rfl, rfl, rfl, rfl⟩, grows, fun _ => trivial⟩

theorem inFrame {action : Eval α} (frame : FrameRef) (h : action.Keeps Asks n) :
    (Eval.inFrame frame action).Keeps Asks n := by
  intro st s grows
  refine Plan.Proceeds.bind ((h (st.inside frame) s grows).mono ?_ fun _ _ left => left) ?_
  · exact fun _ _ _ asked => ⟨asked.task, asked.globals, asked.settings, asked.callDepth, asked.sink⟩
  · intro s o left
    have balanced : (st.inside frame).Balanced o.2 := left.state
    exact ⟨⟨balanced.globals, rfl, congrArg List.tail balanced.saved, balanced.temporaries,
      balanced.callDepth, balanced.settings⟩, left.sink, fun _ => trivial⟩

theorem inCall {action : Eval α} (h : action.Keeps Asks 0) : (Eval.inCall action).Keeps Asks 1 := by
  intro st s grows
  refine Plan.Proceeds.bind ((h st.called s grows).mono ?_ fun _ _ left => left) ?_
  · exact fun _ _ _ asked => ⟨asked.task, asked.globals, asked.settings, asked.callDepth, asked.sink⟩
  · intro s o left
    have balanced : st.called.Balanced o.2 := left.state
    refine ⟨⟨balanced.globals, balanced.current, balanced.saved, balanced.temporaries, ?_,
      balanced.settings⟩, left.sink, fun _ => trivial⟩
    change o.2.callDepth - 1 = st.callDepth
    rw [balanced.callDepth]
    rfl

/-- Whatever is held on to beside `v` is let go with it. -/
theorem holding {action : Eval α} (v : Value)
    (h : action.Leaving State.Above (fun _ => True) Asks n) : (Eval.holding v action).Keeps Asks n := by
  intro st s grows
  refine Plan.Proceeds.bind ((h (st.push v) s grows).mono ?_ fun _ _ left => left) ?_
  · exact fun _ _ _ asked => asked.of_above (.push st v)
  · intro s o left
    have above : (st.push v).Above o.2 := left.state
    obtain ⟨more, temporaries⟩ := above.temporaries
    refine ⟨⟨above.globals, above.current, above.saved, ?_, above.callDepth, above.settings⟩,
      left.sink, fun _ => trivial⟩
    change o.2.temporaries.shrink st.temporaries.size = st.temporaries
    rw [temporaries]
    exact shrink_push_append _ _ _

theorem above {action : Eval α} (h : action.Keeps Asks n) :
    action.Leaving State.Above (fun _ => True) Asks n :=
  fun st s grows => (h st s grows).mono (fun _ _ _ asked => asked) fun _ _ left =>
    ⟨left.state.above, left.sink, left.good⟩

/-! ## The parts of the rules -/

theorem sequence {body : List Stmt} (asks : ∀ s ∈ body, Asks .flow (.execute s)) :
    (Eval.sequence body).Keeps Asks 0 := by
  induction body with
  | nil => exact pure trivial
  | cons first rest ih =>
    refine bind (ask (by decide) (asks first List.mem_cons_self)) fun flow => ?_
    cases flow with
    | normal => exact ih fun s mem => asks s (List.mem_cons_of_mem _ mem)
    | returned value => exact pure trivial

/-- The values of arguments are held on to, also when one of them fails. -/
theorem arguments {es : List Expr} (asks : ∀ e ∈ es, Asks .value (.evaluate e)) :
    (Eval.arguments es).Leaving State.Above (fun _ => True) Asks 0 := by
  induction es with
  | nil => exact above (pure trivial)
  | cons e rest ih =>
    intro st s grows
    rw [Eval.arguments, bind_apply]
    refine (ask (by decide) (asks e List.mem_cons_self) st s grows).bind fun s o left => ?_
    obtain ⟨result, st'⟩ := o
    have balanced : st.Balanced st' := left.state
    cases result with
    | error stop => exact ⟨balanced.above, left.sink, nofun⟩
    | ok v =>
      have pushed : st.Above (st'.push v) := balanced.above.trans (.push st' v)
      have others := ih (fun e mem => asks e (List.mem_cons_of_mem _ mem)) (st'.push v) s left.sink
      change ((Eval.arguments rest >>= fun vs => Pure.pure (v :: vs)) (st'.push v)).Proceeds _ _ _ _ _
      refine Plan.Proceeds.bind (others.mono (fun _ _ _ asked => asked.of_above pushed)
        fun _ _ left => left) fun s o left => ?_
      obtain ⟨result, st''⟩ := o
      cases result <;> exact ⟨pushed.trans left.state, left.sink, fun _ => trivial⟩

/-- A call is asked for on top of its arguments. -/
theorem call_arguments {es : List Expr} {line : Nat} (v : Value)
    (asks : ∀ e ∈ es, Asks .value (.evaluate e)) (calls : ∀ vs, Asks .value (.call v vs line)) :
    (do let values ← Eval.arguments es; Eval.ask (.call v values line)).Leaving State.Above
      (fun _ => True) Asks 0 := by
  intro st s grows
  rw [bind_apply]
  refine (arguments asks st s grows).bind fun s o left => ?_
  obtain ⟨result, st'⟩ := o
  have above : st.Above st' := left.state
  cases result with
  | error stop => exact ⟨above, left.sink, nofun⟩
  | ok vs =>
    exact (ask (by decide) (calls vs) st' s left.sink).mono
      (fun _ _ _ asked => asked.of_above above)
      fun _ _ after => ⟨above.trans after.state.above, after.sink, after.good⟩

theorem enter (callee : Value) (vs : List Value) (line : Nat) :
    (Eval.enter callee vs line).Keeps (fun _ task => (Task.call callee vs line).Asks task) 0 := by
  cases callee with
  | function identity closure => exact ask (by decide) (.function identity closure vs line)
  | native _ native =>
    cases native with
    | clock => exact map readClock _ fun _ => trivial
  | class_ type =>
    refine bind (of_local (.make _)) fun fields => ?_
    simp only
    split
    · exact pure trivial
    · rename_i method found
      -- The bound method differs from the one that is found in its frame only.
      exact make_bind fun _ => bind (ask (by decide) (.initializer vs line found rfl)) fun _ =>
        pure trivial
  | _ => exact fail _ _

theorem invoke (closure : Closure) (vs : List Value) :
    (Eval.invoke closure vs).Keeps (fun _ task => (Task.invoke closure vs).Asks task) 0 := by
  refine bind (of_local (.make _)) fun frame => bind (of_local (.bindParameters _ _)) fun _ =>
    bind (inFrame _ (sequence fun s mem => .body vs mem)) fun flow => ?_
  split
  · exact bind (of_local (.inspect fun _ _ shares => by rw [shares.heap])) fun _ => pure trivial
  · cases flow <;> exact pure trivial

theorem superclass {parent : Option Reference}
    (asks : ∀ ref ∈ parent, Asks .value (.evaluate (.variable_ ref))) :
    (Eval.superclass parent).Keeps Asks 0 := by
  cases parent with
  | none => exact pure trivial
  | some ref =>
    refine bind (ask (by decide) (asks ref rfl)) fun v => ?_
    cases v with
    | class_ _ => exact pure trivial
    | _ => exact fail _ _

theorem declareClass (name : Ident) {parent : Option Reference} (methods : List Function)
    (asks : ∀ ref ∈ parent, Asks .value (.evaluate (.variable_ ref))) :
    (Eval.declareClass name parent methods).Keeps Asks 0 :=
  bind (superclass asks) fun _ => bind (of_local (.define _ _)) fun _ =>
    bind (of_local (.methodFrame _ _ _)) fun _ => bind (of_local (.make _)) fun _ =>
      of_local (.define _ _)

theorem program {statements : List Stmt} (asks : ∀ s ∈ statements, Asks .flow (.execute s)) :
    (Eval.program statements).Keeps Asks 0 := by
  induction statements with
  | nil => exact pure trivial
  | cons first rest ih =>
    exact bind (ask (by decide) (asks first List.mem_cons_self)) fun _ =>
      ih fun s mem => asks s (List.mem_cons_of_mem _ mem)

end Keeps

end Eval

/-! ## The rules -/

open Eval.Keeps

/-- How the rule for a task may end. -/
def Ending.Allowed {sort : TaskSort} (task : Task sort) : Ending sort → Prop
  | .result _ => True
  | .task task' => task.Asks task'

/-- The rule of a task keeps the discipline. -/
abbrev Task.Disciplined {sort : TaskSort} (task : Task sort) (rule : Eval (Ending sort)) : Prop :=
  rule.Leaving State.Balanced (Ending.Allowed task) (fun _ task' => task.Asks task') 0

theorem Expr.disciplined (e : Expr) : (Task.evaluate e).Disciplined e.rule := by
  have operand {e' : Expr} (mem : e' ∈ e.operands) :
      (Eval.ask (.evaluate e')).Keeps (fun _ task => (Task.evaluate e).Asks task) 0 :=
    ask (by decide) (.operand mem)
  cases e with
  | literal _ => exact pure trivial
  | group inner => exact pure (.operand (by simp [operands]))
  | unary op right =>
    exact bind (operand (by simp [operands])) fun _ => map (of_local (.ofResult _ _)) _ fun _ => trivial
  | binary left op right =>
    exact bind (operand (by simp [operands])) fun v =>
      bind (holding v (above (operand (by simp [operands])))) fun _ =>
        map (of_local (.ofResult _ _)) _ fun _ => trivial
  | logical left op right =>
    refine bind (operand (by simp [operands])) fun v => ?_
    split
    · exact pure trivial
    · exact pure (.operand (by simp [operands]))
  | variable_ ref => exact map (of_local (.lookUp _ _ _)) _ fun _ => trivial
  | assign target value =>
    exact bind (operand (by simp [operands])) fun _ => bind (of_local (.assign _ _)) fun _ =>
      pure trivial
  | call callee args line =>
    exact bind (operand (by simp [operands])) fun v =>
      map (holding v (call_arguments v (fun _ mem => .operand (List.mem_cons_of_mem _ mem))
        fun vs => .call v vs)) _ fun _ => trivial
  | get object name =>
    refine bind (operand (by simp [operands])) fun v => ?_
    cases v with
    | instance_ _ => exact map (of_local (.property _ _)) _ fun _ => trivial
    | _ => exact fail _ _
  | set object name value =>
    refine bind (operand (by simp [operands])) fun v => ?_
    cases v with
    | instance_ _ =>
      exact bind (holding _ (above (operand (by simp [operands])))) fun _ =>
        bind (of_local (.setField _ _ _)) fun _ => pure trivial
    | _ => exact fail _ _
  | this _ _ => exact map (of_local (.lookUp _ _ _)) _ fun _ => trivial
  | super _ _ _ => exact map (of_local (.superMethod _ _ _)) _ fun _ => trivial
  | function _ => exact map (of_local (.close _)) _ fun _ => trivial

theorem Stmt.disciplined (s : Stmt) : (Task.perform s).Disciplined s.rule := by
  have evaluates {e : Expr} (mem : e ∈ s.expressions) :
      (Eval.ask (.evaluate e)).Keeps (fun _ task => (Task.perform s).Asks task) 0 :=
    ask (by decide) (.expression mem)
  cases s with
  | expression _ => exact bind (evaluates (by simp [expressions])) fun _ => pure trivial
  | print _ _ =>
    exact bind (evaluates (by simp [expressions])) fun _ => bind (Eval.Keeps.print _ _) fun _ =>
      pure trivial
  | var _ initial =>
    cases initial with
    | none => exact bind (of_local (.define _ _)) fun _ => pure trivial
    | some _ =>
      exact bind (evaluates (by simp [expressions])) fun _ => bind (of_local (.define _ _)) fun _ =>
        pure trivial
  | block body =>
    exact bind (of_local (.look fun _ _ shares => shares.current)) fun _ =>
      bind (of_local (.make _)) fun _ =>
        map (inFrame _ (sequence fun _ mem => .part mem)) _ fun _ => trivial
  | branch _ yes no =>
    refine bind (evaluates (by simp [expressions])) fun _ => ?_
    split
    · exact pure (.part (by simp [parts]))
    · cases no with
      | none => exact pure trivial
      | some no => exact pure (.part (by simp [parts]))
  | loop condition body => exact pure (.loop condition body)
  | function _ =>
    exact bind (of_local (.close _)) fun _ => bind (of_local (.define _ _)) fun _ => pure trivial
  | return_ _ value =>
    cases value with
    | none => exact pure trivial
    | some _ => exact bind (evaluates (by simp [expressions])) fun _ => pure trivial
  | class_ name parent methods =>
    refine bind (declareClass name methods fun ref mem => .expression ?_) fun _ => pure trivial
    simpa [expressions] using mem

/-- A call asks for anything only if there is room for it. -/
theorem Eval.call_disciplined (callee : Value) (vs : List Value) (line : Nat) (st : State) :
    (Eval.call callee vs line st).Proceeds discipline.after
      (fun s _ q => Meanwhile (fun _ task => (Task.call callee vs line).Asks task) 1 st s _ q ∧
        st.callDepth < st.settings.maxCallDepth)
      discipline.Known (Left State.Balanced (fun _ => True) st) st.sink := by
  rcases Eval.call_fails_or_enters callee vs line st with ⟨cause, fails⟩ | ⟨-, room, enters⟩
  · rw [fails]
    exact .done (.refl _) nofun
  · rw [enters]
    exact (Keeps.inCall (Keeps.enter callee vs line) st _ (.refl _)).mono
      (fun _ _ _ asked => ⟨asked, room⟩) fun _ _ left => left

theorem Task.repeat_disciplined (condition : Expr) (body : Stmt) :
    (Task.repeat_ condition body).Disciplined ((Task.repeat_ condition body).rule State.collectIfDue) := by
  refine bind (ask (by decide) (.condition condition body)) fun v => ?_
  split
  · refine bind (ask (by decide) (.round condition body)) fun flow => ?_
    cases flow with
    | normal => exact pure (.again condition body)
    | returned _ => exact pure trivial
  · exact pure trivial

theorem Task.execute_disciplined (s : Stmt) :
    (Task.execute s).Disciplined ((Task.execute s).rule State.collectIfDue) := by
  intro st sink grows
  have same : st.collectIfDue.sink = st.sink := by
    rw [State.collectIfDue]
    split <;> rfl
  refine ⟨.collectIfDue st, same ▸ grows, fun ended => ?_⟩
  cases ended
  exact .perform s

namespace Evaluation

variable {sort : TaskSort}

/-- What the rule for a task in a state is expected to ask for, when the last answer has left the
sink `s`. -/
abbrev Expected (task : Task sort) (st : State) (s : Sink) (sort' : TaskSort) (q : Question sort') :
    Prop :=
  Within ⟨task, st⟩ q ∧ s.Grows q.state.sink

/-- A rule that is balanced meets the contract. -/
theorem proceeds_of_left {task : Task sort} {st : State} {Good : Ending sort → Prop}
    (part : sort ≠ .program)
    (allowed : ∀ task', Good (.task task') → task.Asks task' ∧ task.calls = 0)
    (ruled : (task.rule State.collectIfDue st).Proceeds discipline.after (Expected task st)
      discipline.Known (Eval.Left State.Balanced Good st) st.sink) :
    (evaluation sort ⟨task, st⟩).Proceeds discipline.after (Expected task st) discipline.Known
      (discipline.Ends ⟨task, st⟩) st.sink := by
  refine ruled.bind fun s o left => ?_
  obtain ⟨result, st'⟩ := o
  have balanced : st.Balanced st' := left.state
  have leaves {result : Except Stop sort.Result} {after : State} (h : st.Balanced after) :
      Leaves ⟨task, st⟩ ⟨result, after⟩ := by
    cases sort with
    | program => exact absurd rfl part
    | value | flow => exact h
  cases result with
  | error stop => exact ⟨leaves balanced, left.sink⟩
  | ok ending =>
    cases ending with
    | result a => exact ⟨leaves balanced, left.sink⟩
    | task task' =>
      obtain ⟨asks, room⟩ := allowed task' (left.good rfl)
      refine ⟨⟨⟨asks, balanced.globals, balanced.settings, ?_, fun calls => absurd room calls⟩,
        left.sink⟩, fun r answered => leaves (balanced.trans (answered.balanced part))⟩
      rw [room]
      exact balanced.callDepth

theorem proceeds_of_disciplined {task : Task sort} {st : State} (part : sort ≠ .program)
    (room : task.calls = 0) (disciplined : task.Disciplined (task.rule State.collectIfDue)) :
    (evaluation sort ⟨task, st⟩).Proceeds discipline.after (Expected task st) discipline.Known
      (discipline.Ends ⟨task, st⟩) st.sink := by
  refine proceeds_of_left part (fun task' asks => ⟨asks, room⟩)
    ((disciplined st st.sink (.refl _)).mono (fun _ _ _ asked => ?_) fun _ _ left => left)
  exact ⟨⟨asked.task, asked.globals, asked.settings, room ▸ asked.callDepth,
    fun calls => absurd room calls⟩, asked.sink⟩

theorem proceeds_call (callee : Value) (vs : List Value) (line : Nat) (st : State) :
    (evaluation .value ⟨.call callee vs line, st⟩).Proceeds discipline.after
      (Expected (.call callee vs line) st) discipline.Known
      (discipline.Ends ⟨.call callee vs line, st⟩) st.sink := by
  have ruled : ((Task.call callee vs line).rule State.collectIfDue st).Proceeds discipline.after
      (Expected (.call callee vs line) st) discipline.Known
      (Eval.Left State.Balanced (fun ending => ∃ v, ending = .result v) st) st.sink := by
    refine Plan.Proceeds.bind ((Eval.call_disciplined callee vs line st).mono ?_
      fun _ _ left => left) ?_
    · rintro s sort q ⟨asked, room⟩
      exact ⟨⟨asked.task, asked.globals, asked.settings, asked.callDepth, fun _ => room⟩, asked.sink⟩
    · rintro s ⟨result, st'⟩ left
      cases result with
      | ok v => exact ⟨left.state, left.sink, fun ended => by cases ended; exact ⟨v, rfl⟩⟩
      | error stop => exact ⟨left.state, left.sink, nofun⟩
  refine proceeds_of_left (by decide) (fun task' ended => ?_) ruled
  obtain ⟨v, ended⟩ := ended
  cases ended

theorem proceeds_run (program : List Stmt) (st : State) :
    (evaluation .program ⟨.run program, st⟩).Proceeds discipline.after (Expected (.run program) st)
      discipline.Known (discipline.Ends ⟨.run program, st⟩) st.sink := by
  have keeps : (Eval.program program).Keeps (fun _ task => (Task.run program).Asks task) 0 :=
    Eval.Keeps.program fun s mem => .statement mem
  rw [evaluation, evaluationWith_run]
  refine Plan.Proceeds.bind ((keeps st st.sink (.refl _)).mono (fun s sort q asked => ?_)
    fun _ _ left => left) fun s o left => ?_
  · exact ⟨⟨asked.task, asked.globals, asked.settings, asked.callDepth, fun calls => absurd rfl calls⟩,
      asked.sink⟩
  · obtain ⟨result, st'⟩ := o
    have balanced : st.Balanced st' := left.state
    cases result with
    | ok _ => exact ⟨balanced, left.sink⟩
    | error stop =>
      refine ⟨⟨balanced.globals, balanced.globals, rfl, rfl, rfl, balanced.settings⟩, left.sink⟩

/-- **The rules keep the discipline.** -/
theorem discipline_met : discipline.Met evaluation := by
  intro sort q
  obtain ⟨task, st⟩ := q
  cases task with
  | evaluate e => exact proceeds_of_disciplined (by decide) rfl e.disciplined
  | invoke closure vs =>
    exact proceeds_of_disciplined (by decide) rfl
      (map (Eval.Keeps.invoke closure vs) _ fun _ => trivial)
  | execute s => exact proceeds_of_disciplined (by decide) rfl (Task.execute_disciplined s)
  | perform s => exact proceeds_of_disciplined (by decide) rfl s.disciplined
  | repeat_ condition body =>
    exact proceeds_of_disciplined (by decide) rfl (Task.repeat_disciplined condition body)
  | call callee vs line => exact proceeds_call callee vs line st
  | run program => exact proceeds_run program st

end Evaluation

end Lox
