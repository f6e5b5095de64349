import Lox.Proofs.Lifting.Heap
import Lox.Proofs.Plan.Lockstep

/-!
# Actions in step, with additional frames

The contract of evaluation for a run and one that goes through additional scopes (`Lifting.Asked`,
`Lifting.Answered`): a task that is lifted over the gap of the current frames comes to the same result
in the second run.  However the frames are paired at the start, the pairing can be extended so that it
holds at the end.

`Eval.Lifts` is the judgement that two actions keep step.  It starts from states with the same variables,
and what it says is relative to them, so that judgements follow one another (`Eval.Lifts.bind`).
-/

namespace Lox

open Evaluation

/-! ## States -/

/-- What a program gets to see of the states is the same, but for additional frames. -/
structure State.Lifts (w : Pairing) (st st' : State) : Prop where
  heap : st.heap.Lifts w st'.heap
  globals : Heap.Lifts.Outermost w st.heap st.globals st'.globals
  callDepth : st'.callDepth = st.callDepth
  maxCallDepth : st'.settings.maxCallDepth = st.settings.maxCallDepth
  sink : st'.sink = st.sink
  clock : st'.clock = st.clock

namespace Heap.Lifts.Outermost

variable {w w' : Pairing} {heap : Heap} {globals globals' : FrameRef}

theorem bindVariable (h : Outermost w heap globals globals') (ref : FrameRef) (name : String)
    (a : Value) : Outermost w (heap.bindVariable ref name a) globals globals' := by
  obtain ⟨there, frame, found, last⟩ := h
  refine ⟨there, ?_⟩
  rw [Heap.get?_bindVariable, found]
  split
  · exact ⟨_, rfl, last⟩
  · exact ⟨frame, rfl, last⟩

theorem newFrame (h : Outermost w heap globals globals') (free : heap.frames.free = [])
    (grows : w.Grows w') (enclosing : FrameRef) (construct : Construct) :
    Outermost w' (heap.newFrame (some enclosing) construct).2 globals globals' := by
  obtain ⟨there, frame, found, last⟩ := h
  refine ⟨grows.at there, frame, ?_, last⟩
  rw [Heap.newFrame, Arena.get?_alloc free, if_neg (Nat.ne_of_lt (Arena.lt_size_of_get? found))]
  exact found

end Heap.Lifts.Outermost

namespace State.Lifts

variable {w w' : Pairing} {st st' : State}

/-- Both runs go on in other frames. -/
theorem inside (h : st.Lifts w st') (frame frame' : FrameRef) :
    (st.inside frame).Lifts w (st'.inside frame') :=
  { h with }

theorem called (h : st.Lifts w st') : st.called.Lifts w st'.called :=
  { h with callDepth := congrArg (· + 1) h.callDepth }

theorem push (h : st.Lifts w st') (a a' : Value) : (st.push a).Lifts w (st'.push a') := { h with }

theorem withHeap (h : st.Lifts w st') {heap heap' : Heap} (lifts : heap.Lifts w' heap')
    (globals : Heap.Lifts.Outermost w' heap st.globals st'.globals) :
    State.Lifts w' { st with heap := heap } { st' with heap := heap' } :=
  { h with heap := lifts, globals := globals }

end State.Lifts

/-! ## Tasks and what they come to -/

section

variable (w : Pairing)

/-- Statements end in the same way. -/
inductive Flow.Lifts : Flow → Flow → Prop
  | normal : Flow.Lifts .normal .normal
  | returned {a a' : Value} (lifts : a.Lifts w a') : Flow.Lifts (.returned a) (.returned a')

/-- Tasks that are lifted over the gap of the frames that are current. -/
inductive Task.Lifts (current current' : FrameRef) :
    {sort : TaskSort} → Task sort → Task sort → Prop
  | evaluate {gap : Gap} {e e' : Expr} (here : w.At gap current current') (lifts : e.Lifts gap e') :
      Task.Lifts current current' (.evaluate e) (.evaluate e')
  | call {callee callee' : Value} {arguments arguments' : List Value} (line : Nat)
      (lifts : callee.Lifts w callee') (all : List.Forall₂ (Value.Lifts w) arguments arguments') :
      Task.Lifts current current' (.call callee arguments line) (.call callee' arguments' line)
  | invoke {closure closure' : Closure} {arguments arguments' : List Value}
      (lifts : closure.LiftsBound w closure')
      (all : List.Forall₂ (Value.Lifts w) arguments arguments') :
      Task.Lifts current current' (.invoke closure arguments) (.invoke closure' arguments')
  | execute {gap : Gap} {s s' : Stmt} (here : w.At gap current current') (lifts : s.Lifts gap s') :
      Task.Lifts current current' (.execute s) (.execute s')
  | perform {gap : Gap} {s s' : Stmt} (here : w.At gap current current') (lifts : s.Lifts gap s') :
      Task.Lifts current current' (.perform s) (.perform s')
  | repeat_ {gap : Gap} {condition condition' : Expr} {body body' : Stmt}
      (here : w.At gap current current') (lifts : condition.Lifts gap condition')
      (lifts' : body.Lifts gap body') :
      Task.Lifts current current' (.repeat_ condition body) (.repeat_ condition' body')

/-- What tasks come to. -/
def Lifting.Came : {sort : TaskSort} → sort.Result → sort.Result → Prop
  | .value, a, a' => Value.Lifts w a a'
  | .flow, flow, flow' => Flow.Lifts w flow flow'
  | .program, _, _ => True

end

namespace Lifting

variable {α β : Type}

/-- Two runs have come from one pair of states to another. -/
structure Abreast (w : Pairing) (st st' : State) (w₁ : Pairing) (st₁ st₁' : State) : Prop where
  lifts : st₁.Lifts w₁ st₁'
  grows : w.Grows w₁
  current : st₁.current = st.current
  current' : st₁'.current = st'.current

/-- Two actions come to results that `Post` relates, or stop alike. -/
inductive Ends (w : Pairing) (st st' : State) (Post : Pairing → α → β → Prop) :
    Except Stop α × State → Except Stop β × State → Prop
  | ok {w₁ : Pairing} {st₁ st₁' : State} {a : α} {b : β} (abreast : Abreast w st st' w₁ st₁ st₁')
      (post : Post w₁ a b) : Ends w st st' Post (.ok a, st₁) (.ok b, st₁')
  | error {w₁ : Pairing} {st₁ st₁' : State} {stop : Stop} (abreast : Abreast w st st' w₁ st₁ st₁') :
      Ends w st st' Post (.error stop, st₁) (.error stop, st₁')

/-- A task and one that is lifted, from states that are alike if frames are paired like this. -/
structure AskedAt (w : Pairing) (sort : TaskSort) (q q' : Question sort) : Prop where
  states : q.state.Lifts w q'.state
  tasks : q.task.Lifts w q.state.current q'.state.current q'.task

/-- What the tasks come to, if frames are paired like this at the start. -/
def AnsweredAt (w : Pairing) (sort : TaskSort) (q q' : Question sort) (r r' : Answer sort) : Prop :=
  Ends w q.state q'.state (fun w => Came w) (r.result, r.state) (r'.result, r'.state)

/-- A task and one that is lifted, from states that are alike. -/
abbrev Asked (sort : TaskSort) (q q' : Question sort) : Prop := ∃ w, AskedAt w sort q q'

/-- What the tasks come to. -/
abbrev Answered (sort : TaskSort) (q q' : Question sort) (r r' : Answer sort) : Prop :=
  ∀ w, AskedAt w sort q q' → AnsweredAt w sort q q' r r'

end Lifting

open Lifting

variable {α β γ δ : Type} {w w₁ : Pairing} {st st' st₁ st₁' : State}

/-- The two actions are in step, from these states. -/
def Eval.Lifts (w : Pairing) (Post : Pairing → α → β → Prop) (action : Eval α) (action' : Eval β)
    (st st' : State) : Prop :=
  (action st).InStep Asked Answered (Lifting.Ends w st st' Post) (action' st')

theorem State.Lifts.abreast (h : st.Lifts w st') : Lifting.Abreast w st st' w st st' :=
  ⟨h, .refl w, rfl, rfl⟩

namespace Lifting

/-- The frames that were current belong together as they did. -/
theorem Abreast.here (h : Abreast w st st' w₁ st₁ st₁') {gap : Gap}
    (here : w.At gap st.current st'.current) : w₁.At gap st₁.current st₁'.current := by
  rw [h.current, h.current']
  exact h.grows.at here

theorem Abreast.trans {w₂ : Pairing} {st₂ st₂' : State} (h : Abreast w st st' w₁ st₁ st₁')
    (h' : Abreast w₁ st₁ st₁' w₂ st₂ st₂') : Abreast w st st' w₂ st₂ st₂' :=
  ⟨h'.lifts, h.grows.trans h'.grows, h'.current.trans h.current, h'.current'.trans h.current'⟩

/-- What has come of states that lie on the way has come of the start. -/
theorem Ends.after {Post : Pairing → α → β → Prop} (abreast : Abreast w st st' w₁ st₁ st₁')
    {o : Except Stop α × State} {o' : Except Stop β × State} (h : Ends w₁ st₁ st₁' Post o o') :
    Ends w st st' Post o o' := by
  cases h with
  | ok abreast' post => exact .ok (abreast.trans abreast') post
  | error abreast' => exact .error (abreast.trans abreast')

end Lifting

namespace Eval.Lifts

variable {Post Post' : Pairing → α → β → Prop} {After : Pairing → γ → δ → Prop} {action : Eval α}
  {action' : Eval β} {next : α → Eval γ} {next' : β → Eval δ} {a : α} {b : β}

/-! ## Sequences -/

theorem of_done (h : action st = .done (.ok a, st₁)) (h' : action' st' = .done (.ok b, st₁'))
    (abreast : Lifting.Abreast w st st' w₁ st₁ st₁') (post : Post w₁ a b) :
    Eval.Lifts w Post action action' st st' := by
  rw [Eval.Lifts, h, h']
  exact .done (.ok abreast post)

theorem pure (lifts : st.Lifts w st') (post : Post w a b) :
    Eval.Lifts w Post (Pure.pure a) (Pure.pure b) st st' :=
  of_done rfl rfl lifts.abreast post

theorem fail (lifts : st.Lifts w st') (line : Nat) (cause : RuntimeError.Cause) :
    Eval.Lifts w Post (Eval.fail line cause) (Eval.fail line cause) st st' :=
  .done (.error lifts.abreast)

theorem bind (h : Eval.Lifts w Post action action' st st')
    (rest : ∀ {w₁ st₁ st₁' a b}, Lifting.Abreast w st st' w₁ st₁ st₁' → Post w₁ a b →
      Eval.Lifts w₁ After (next a) (next' b) st₁ st₁') :
    Eval.Lifts w After (action >>= next) (action' >>= next') st st' := by
  rw [Eval.Lifts, bind_apply, bind_apply]
  refine Plan.InStep.bind h fun o o' ends => ?_
  cases ends with
  | ok abreast post => exact (rest abreast post).mono fun _ _ ends => ends.after abreast
  | error abreast => exact .done (.error abreast)

theorem map {f : α → γ} {g : β → δ} (h : Eval.Lifts w Post action action' st st')
    (imp : ∀ w a b, Post w a b → After w (f a) (g b)) :
    Eval.Lifts w After (f <$> action) (g <$> action') st st' :=
  bind h fun abreast post => pure abreast.lifts (imp _ _ _ post)

/-- An action that is over at once is left behind. -/
theorem bind_of_ok (h : action st = .done (.ok a, st₁)) (h' : action' st' = .done (.ok b, st₁'))
    (abreast : Lifting.Abreast w st st' w₁ st₁ st₁')
    (rest : Eval.Lifts w₁ After (next a) (next' b) st₁ st₁') :
    Eval.Lifts w After (action >>= next) (action' >>= next') st st' := by
  rw [Eval.Lifts, Eval.bind_of_ok h, Eval.bind_of_ok h']
  exact Plan.InStep.mono rest fun _ _ ends => ends.after abreast

/-- What would come behind a failure plays no part. -/
theorem fail_bind (lifts : st.Lifts w st') (line : Nat) (cause : RuntimeError.Cause) :
    Eval.Lifts w After (Eval.fail line cause >>= next) (Eval.fail line cause >>= next') st st' := by
  have fails : Eval.Lifts w (fun _ (_ : α) (_ : β) => False) (Eval.fail line cause)
      (Eval.fail line cause) st st' := fail lifts line cause
  exact bind fails fun _ => False.elim

/-- What is looked for on the heaps is found on both, or both runs stop. -/
theorem inspect_bind (lifts : st.Lifts w st') {R : α → β → Prop} {f : State → Except Dangling α}
    {g : State → Except Dangling β} (h : Accesses R (f st) (g st'))
    (rest : ∀ a b, R a b → Eval.Lifts w After (next a) (next' b) st st') :
    Eval.Lifts w After (inspect f >>= next) (inspect g >>= next') st st' := by
  generalize found : f st = x, found' : g st' = y at h
  cases h with
  | ok related =>
    exact bind_of_ok (inspect_of_ok found) (inspect_of_ok found') lifts.abreast (rest _ _ related)
  | error access =>
    have stops : inspect f st = .done (.error (.fault access), st) := by rw [inspect, found]
    have stops' : inspect g st' = .done (.error (.fault access), st') := by rw [inspect, found']
    rw [Eval.Lifts, bind_of_error stops, bind_of_error stops']
    exact .done (.error lifts.abreast)

theorem ofOption (lifts : st.Lifts w st') (line : Nat) (cause : RuntimeError.Cause)
    {R : Pairing → α → β → Prop} {found : Option α} {found' : Option β}
    (h : Option.Rel (R w) found found') :
    Eval.Lifts w R (Eval.ofOption line cause found) (Eval.ofOption line cause found') st st' := by
  cases h with
  | none => exact fail lifts line cause
  | some related => exact pure lifts related

/-! ## Tasks -/

theorem ask {sort : TaskSort} {task task' : Task sort} (lifts : st.Lifts w st')
    (tasks : task.Lifts w st.current st'.current task') :
    Eval.Lifts w (fun w => Came w) (Eval.ask task) (Eval.ask task') st st' :=
  Plan.InStep.ask ⟨w, lifts, tasks⟩ fun _ _ answered => .done (answered w ⟨lifts, tasks⟩)

theorem evaluate (lifts : st.Lifts w st') {gap : Gap} {e e' : Expr}
    (here : w.At gap st.current st'.current) (same : e.Lifts gap e') :
    Eval.Lifts w Value.Lifts (Eval.ask (.evaluate e)) (Eval.ask (.evaluate e')) st st' :=
  ask lifts (.evaluate here same)

theorem execute (lifts : st.Lifts w st') {gap : Gap} {s s' : Stmt}
    (here : w.At gap st.current st'.current) (same : s.Lifts gap s') :
    Eval.Lifts w Flow.Lifts (Eval.ask (.execute s)) (Eval.ask (.execute s')) st st' :=
  ask lifts (.execute here same)

/-! ## Actions around others -/

theorem inFrame {frame frame' : FrameRef}
    (h : Eval.Lifts w Post action action' (st.inside frame) (st'.inside frame')) :
    Eval.Lifts w Post (Eval.inFrame frame action) (Eval.inFrame frame' action') st st' := by
  refine Plan.InStep.bind h fun o o' ends => .done ?_
  cases ends with
  | ok abreast post => exact .ok ⟨{ abreast.lifts with }, abreast.grows, rfl, rfl⟩ post
  | error abreast => exact .error ⟨{ abreast.lifts with }, abreast.grows, rfl, rfl⟩

/-- Values are held on to for the collector, which makes no difference to a program. -/
theorem holding {value value' : Value}
    (h : Eval.Lifts w Post action action' (st.push value) (st'.push value')) :
    Eval.Lifts w Post (Eval.holding value action) (Eval.holding value' action') st st' := by
  refine Plan.InStep.bind h fun o o' ends => .done ?_
  cases ends with
  | ok abreast post =>
    exact .ok ⟨{ abreast.lifts with }, abreast.grows, abreast.current, abreast.current'⟩ post
  | error abreast =>
    exact .error ⟨{ abreast.lifts with }, abreast.grows, abreast.current, abreast.current'⟩

theorem inCall (h : Eval.Lifts w Post action action' st.called st'.called) :
    Eval.Lifts w Post (Eval.inCall action) (Eval.inCall action') st st' := by
  refine Plan.InStep.bind h fun o o' ends => .done ?_
  cases ends with
  | ok abreast post =>
    have less := congrArg (· - 1) abreast.lifts.callDepth
    exact .ok ⟨{ abreast.lifts with callDepth := less }, abreast.grows, abreast.current,
      abreast.current'⟩ post
  | error abreast =>
    have less := congrArg (· - 1) abreast.lifts.callDepth
    exact .error ⟨{ abreast.lifts with callDepth := less }, abreast.grows, abreast.current,
      abreast.current'⟩

/-! ## Variables -/

/-- A variable of a frame is changed, and that of its copy. -/
theorem changeVariable (lifts : st.Lifts w st') {owner owner' : FrameRef}
    (alike : Heap.Lifts.OwnedAlike w owner owner') (name : String) {a a' : Value}
    (same : a.Lifts w a') :
    Eval.Lifts w (fun _ _ _ => True) (changeHeap (·.bindVariable owner name a))
      (changeHeap (·.bindVariable owner' name a')) st st' := by
  obtain ⟨gap, inside, there⟩ := alike
  have bound := lifts.heap.bindVariable there inside name same
  exact of_done rfl rfl ⟨lifts.withHeap bound (lifts.globals.bindVariable owner name a), .refl w,
    rfl, rfl⟩ trivial

theorem defineIn (lifts : st.Lifts w st') {ref ref' : FrameRef}
    (alike : Heap.Lifts.OwnedAlike w ref ref') (name : String) {a a' : Value} (same : a.Lifts w a') :
    Eval.Lifts w (fun _ _ _ => True) (Eval.defineIn ref name a) (Eval.defineIn ref' name a') st st' := by
  obtain ⟨gap, inside, there⟩ := alike
  obtain ⟨frame, frame', access, access', -⟩ := lifts.heap.frame there
  exact bind_of_ok (inspect_of_ok access) (inspect_of_ok access') lifts.abreast
    (changeVariable lifts ⟨gap, inside, there⟩ name same)

/-- A name is bound in the current frame, which is no additional one. -/
theorem define (lifts : st.Lifts w st') {gap : Gap} (here : w.At gap st.current st'.current)
    (inside : gap ≠ .here) (name : String) {a a' : Value} (same : a.Lifts w a') :
    Eval.Lifts w (fun _ _ _ => True) (Eval.define name a) (Eval.define name a') st st' :=
  bind_of_ok rfl rfl lifts.abreast (defineIn lifts ⟨gap, inside, here⟩ name same)

theorem lookUp (lifts : st.Lifts w st') {gap : Gap} (here : w.At gap st.current st'.current)
    (name : String) (line : Nat) (depth : Option Nat) :
    Eval.Lifts w Value.Lifts (Eval.lookUp name line depth)
      (Eval.lookUp name line (depth.map gap.shift)) st st' := by
  refine inspect_bind lifts (R := Option.Rel (Value.Lifts w)) ?_ fun _ _ found =>
    ofOption lifts line _ found
  cases depth with
  | none => exact lifts.heap.lookup lifts.globals name
  | some distance => exact lifts.heap.lookupAt here distance name

theorem assign (lifts : st.Lifts w st') {gap : Gap} (here : w.At gap st.current st'.current)
    (target : Reference) {a a' : Value} (same : a.Lifts w a') :
    Eval.Lifts w (fun _ _ _ => True) (Eval.assign target a) (Eval.assign (target.lift gap) a')
      st st' := by
  obtain ⟨name, depth⟩ := target
  refine inspect_bind lifts (R := Option.Rel (Heap.Lifts.OwnedAlike w)) ?_ fun owner owner' alike => ?_
  · cases depth with
    | none => exact lifts.heap.owner lifts.globals name.lexeme
    | some distance => exact lifts.heap.ownerAt here distance name.lexeme
  · cases alike with
    | none => exact fail_bind lifts _ _
    | some alike =>
      exact bind_of_ok rfl rfl lifts.abreast (changeVariable lifts alike name.lexeme same)

end Eval.Lifts

end Lox
