import Lox.Proofs.Evaluation.Action
import Lox.Proofs.Plan.Course
import Lox.Session

/-!
# What a call sees of its caller

A call depends on what is called and on its arguments, on the heap and on what it shares with the rest of
the program: the globals, the number of calls in progress, the settings, the sink and the clock.  Where it
is made is of no consequence, neither the current frame nor what has been put aside, nor what is held on
to (`State.Coincides`).

Inside a call this is no longer so: each block and each body runs in a frame of its own, and what it does
depends on that frame.  But such a frame is made inside the call, so that two runs of one call make the same
one.  Hence the tasks of a call are compared from states that coincide in all of the above and, where the
task depends on the current frame (`Task.Situated`), in that as well.

The only other reader of what has been put aside is the collector.  `evaluationWith id` does not collect,
and it is the same procedure as `evaluation` as long as there is nothing to collect (`Evaluation.Quiet`).
-/

namespace Lox

open Evaluation

/-- Two states that differ at most in where the program stands: in the current frame, in the frames put
aside and in what expressions in progress hold on to. -/
structure State.Coincides (st st' : State) : Prop where
  heap : st'.heap = st.heap
  globals : st'.globals = st.globals
  callDepth : st'.callDepth = st.callDepth
  settings : st'.settings = st.settings
  sink : st'.sink = st.sink
  clock : st'.clock = st.clock

theorem State.Coincides.symm {st st' : State} (h : st.Coincides st') : st'.Coincides st :=
  ⟨h.heap.symm, h.globals.symm, h.callDepth.symm, h.settings.symm, h.sink.symm, h.clock.symm⟩

/-- From two states, something has ended in two others that coincide, each of them in the frame where it
began. -/
structure State.Returns (st st' left left' : State) : Prop where
  coincides : left.Coincides left'
  current : left.current = st.current
  current' : left'.current = st'.current

namespace State.Returns

variable {st st' mid mid' left left' : State}

theorem refl (h : st.Coincides st') : st.Returns st' st st' := ⟨h, rfl, rfl⟩

theorem trans (h : st.Returns st' mid mid') (h' : mid.Returns mid' left left') :
    st.Returns st' left left' :=
  ⟨h'.coincides, h'.current.trans h.current, h'.current'.trans h.current'⟩

end State.Returns

/-- Does a task depend on the frame that it is carried out in? -/
def Task.Situated : {sort : TaskSort} → Task sort → Prop
  | _, .call _ _ _ | _, .invoke _ _ => False
  | _, _ => True

namespace Evaluation

/-- One task from two states that coincide as far as it depends on them. -/
structure AskedApart (sort : TaskSort) (q q' : Question sort) : Prop where
  task : q'.task = q.task
  coincides : q.state.Coincides q'.state
  current : q.task.Situated → q'.state.current = q.state.current
  sort : sort ≠ .program

/-- It comes to the same, and returns to where it began. -/
structure AnsweredApart (sort : TaskSort) (q q' : Question sort) (r r' : Answer sort) : Prop where
  result : r'.result = r.result
  returns : q.state.Returns q'.state r.state r'.state

end Evaluation

/-! ## Actions -/

variable {α β : Type} {standing : Prop}

/-- Two plans that are begun in two states are in step, come to the same and return to where they
began. -/
abbrev Plan.InStepApart (st st' : State) :
    Plan Question Answer (Except Stop α × State) → Plan Question Answer (Except Stop α × State) → Prop :=
  Plan.InStep AskedApart AnsweredApart fun o o' => o'.1 = o.1 ∧ st.Returns st' o.2 o'.2

namespace Eval

/-- The action does the same in two states that coincide; if it is `standing`, it may depend on the frame
that it is carried out in. -/
def Lexical (standing : Prop) (action : Eval α) : Prop :=
  ∀ st st', st.Coincides st' → (standing → st'.current = st.current) →
    (action st).InStepApart st st' (action st')

namespace Lexical

theorem of_local {action : Eval α} (h : action.Local) (stands : standing) :
    action.Lexical standing := by
  intro st st' coincides current
  obtain ⟨result, heap, done, done'⟩ :=
    h st st' ⟨coincides.heap, coincides.globals, current stands⟩
  rw [done, done']
  exact .done ⟨rfl, { coincides with heap := rfl }, rfl, rfl⟩

theorem pure (a : α) : (Pure.pure a : Eval α).Lexical standing :=
  fun _ _ coincides _ => .done ⟨rfl, .refl coincides⟩

theorem fail (line : Nat) (cause : RuntimeError.Cause) :
    (Eval.fail line cause : Eval α).Lexical standing :=
  fun _ _ coincides _ => .done ⟨rfl, .refl coincides⟩

theorem bind {action : Eval α} {next : α → Eval β} (h : action.Lexical standing)
    (h' : ∀ a, (next a).Lexical standing) : (action >>= next).Lexical standing := by
  intro st st' coincides current
  rw [bind_apply, bind_apply]
  refine (h st st' coincides current).bind ?_
  rintro ⟨result, mid⟩ ⟨result', mid'⟩ ⟨same, returns⟩
  obtain rfl : result' = result := same
  cases result' with
  | error stop => exact .done ⟨rfl, returns⟩
  | ok a =>
    have current' (stands : standing) : mid'.current = mid.current := by
      rw [returns.current, returns.current', current stands]
    refine (h' a mid mid' returns.coincides current').mono fun o o' ends => ?_
    exact ⟨ends.1, returns.trans ends.2⟩

theorem map {action : Eval α} (h : action.Lexical standing) (f : α → β) :
    (f <$> action).Lexical standing :=
  bind h fun a => pure (f a)

theorem ask {sort : TaskSort} (task : Task sort) (sorted : sort ≠ .program)
    (stands : task.Situated → standing) : (Eval.ask task).Lexical standing := by
  intro st st' coincides current
  refine .ask ⟨rfl, coincides, fun situated => current (stands situated), sorted⟩ ?_
  rintro ⟨result, left⟩ ⟨_, left'⟩ ⟨rfl, returns⟩
  exact .done ⟨rfl, returns⟩

/-- A call is the same wherever it is made. -/
theorem invoked (closure : Closure) (vs : List Value) :
    (Eval.ask (.invoke closure vs)).Lexical standing :=
  ask _ nofun False.elim

theorem inspect {f : State → Except Dangling α}
    (same : ∀ st st', State.Coincides st st' → f st' = f st) : (Eval.inspect f).Lexical standing := by
  intro st st' coincides _
  rw [Eval.inspect, Eval.inspect, same st st' coincides]
  cases f st with
  | ok a => exact .done ⟨rfl, .refl coincides⟩
  | error access => exact .done ⟨rfl, .refl coincides⟩

theorem make (f : Heap → α × Heap) : (Eval.make f).Lexical standing := by
  intro st st' coincides _
  rw [Eval.make, Eval.make, coincides.heap]
  exact .done ⟨rfl, { coincides with heap := rfl }, rfl, rfl⟩

theorem changeHeap (f : Heap → Heap) : (Eval.changeHeap f).Lexical standing := by
  intro st st' coincides _
  refine .done ⟨rfl, { coincides with heap := ?_ }, rfl, rfl⟩
  exact congrArg f coincides.heap

theorem hold (v : Value) : (Eval.hold v).Lexical standing :=
  fun _ _ coincides _ => .done ⟨rfl, { coincides with }, rfl, rfl⟩

theorem print (line : Nat) (text : String) : (Eval.print line text).Lexical standing := by
  intro st st' coincides current
  rw [Eval.print, Eval.print, coincides.sink]
  cases st.sink.print text with
  | ok sink => exact .done ⟨rfl, { coincides with sink := rfl }, rfl, rfl⟩
  | error reason => exact fail line _ st st' coincides current

theorem readClock : Eval.readClock.Lexical standing := by
  intro st st' coincides _
  rw [Eval.readClock, Eval.readClock, coincides.clock]
  exact .done ⟨rfl, { coincides with clock := rfl }, rfl, rfl⟩

/-- What an action puts right again is put right in both states. -/
theorem between {κ : Type} {keep : State → κ} {before : State → State} {after : κ → State → State}
    {action : Eval α} {inside : Prop} (h : action.Lexical inside)
    (begins : ∀ st st', State.Coincides st st' → (before st).Coincides (before st'))
    (situated : ∀ st st', State.Coincides st st' → (standing → st'.current = st.current) → inside →
      (before st').current = (before st).current)
    (ends : ∀ k k' st st', State.Coincides st st' → (after k st).Coincides (after k' st'))
    (back : ∀ st left : State, left.current = (before st).current →
      (after (keep st) left).current = st.current) :
    (Eval.between keep before after action).Lexical standing := by
  intro st st' coincides current
  refine (h _ _ (begins st st' coincides) (situated st st' coincides current)).bind ?_
  rintro ⟨result, left⟩ ⟨_, left'⟩ ⟨rfl, returns⟩
  exact .done ⟨rfl, ends _ _ _ _ returns.coincides, back _ _ returns.current, back _ _ returns.current'⟩

/-- In a frame of its own, an action may depend on that frame. -/
theorem inFrame {action : Eval α} (frame : FrameRef) (h : action.Lexical True) :
    (Eval.inFrame frame action).Lexical standing :=
  between h (fun _ _ coincides => { coincides with }) (fun _ _ _ _ _ => rfl)
    (fun _ _ _ _ coincides => { coincides with }) fun _ _ _ => rfl

theorem holding {action : Eval α} (v : Value) (h : action.Lexical standing) :
    (Eval.holding v action).Lexical standing :=
  between h (fun _ _ coincides => { coincides with }) (fun _ _ _ current => current)
    (fun _ _ _ _ coincides => { coincides with }) fun _ _ current => current

theorem inCall {action : Eval α} (h : action.Lexical standing) :
    (Eval.inCall action).Lexical standing :=
  between h (fun _ _ coincides => { coincides with callDepth := congrArg (· + 1) coincides.callDepth })
    (fun _ _ _ current => current)
    (fun _ _ _ _ coincides =>
      { coincides with callDepth := congrArg (· - 1) coincides.callDepth })
    fun _ _ current => current

/-! ## The parts of the rules -/

theorem bindParameters (frame : FrameRef) (bindings : List (Ident × Value)) :
    (Eval.bindParameters frame bindings).Lexical standing := by
  induction bindings with
  | nil => exact pure ()
  | cons _ _ ih =>
    exact bind (bind (inspect fun _ _ coincides => by rw [coincides.heap]) fun _ => changeHeap _)
      fun _ => ih

theorem evaluated (e : Expr) : (Eval.ask (.evaluate e)).Lexical True :=
  ask _ nofun fun _ => trivial

theorem executed (s : Stmt) : (Eval.ask (.execute s)).Lexical True :=
  ask _ nofun fun _ => trivial

theorem sequence (body : List Stmt) : (Eval.sequence body).Lexical True := by
  induction body with
  | nil => exact pure _
  | cons first rest ih =>
    refine bind (executed first) fun flow => ?_
    cases flow with
    | normal => exact ih
    | returned _ => exact pure _

theorem arguments (es : List Expr) : (Eval.arguments es).Lexical True := by
  induction es with
  | nil => exact pure _
  | cons e rest ih =>
    exact bind (evaluated e) fun v => bind (hold v) fun _ => bind ih fun _ => pure _

theorem enter (callee : Value) (vs : List Value) (line : Nat) :
    (Eval.enter callee vs line).Lexical standing := by
  cases callee with
  | function _ closure => exact invoked closure vs
  | native _ native =>
    cases native with
    | clock => exact map readClock _
  | class_ type =>
    refine bind (make _) fun fields => ?_
    simp only
    split
    · exact pure _
    · exact bind (make _) fun bound => bind (invoked bound vs) fun _ => pure _
  | _ => exact fail _ _

theorem call (callee : Value) (vs : List Value) (line : Nat) :
    (Eval.call callee vs line).Lexical standing := by
  rcases Eval.call_cases callee vs line with ⟨cause, -, fails⟩ | checked
  · rw [fails]
    exact fail line cause
  · intro st st' coincides current
    rw [checked st, checked st', coincides.settings, coincides.callDepth]
    by_cases full : st.settings.maxCallDepth ≤ st.callDepth
    · rw [if_pos full, if_pos full]
      exact fail line _ st st' coincides current
    · rw [if_neg full, if_neg full]
      exact inCall (enter callee vs line) st st' coincides current

/-- The body runs in a frame that is made for it, and nothing before it or after it looks at the frame
that the call is made in. -/
theorem invoke (closure : Closure) (vs : List Value) : (Eval.invoke closure vs).Lexical standing := by
  refine bind (make _) fun frame => bind (bindParameters frame _) fun _ =>
    bind (inFrame frame (sequence _)) fun flow => ?_
  split
  · exact bind (inspect fun _ _ coincides => by rw [coincides.heap]) fun _ => pure _
  · cases flow <;> exact pure _

theorem superclass (parent : Option Reference) : (Eval.superclass parent).Lexical True := by
  cases parent with
  | none => exact pure _
  | some ref =>
    refine bind (evaluated _) fun v => ?_
    cases v with
    | class_ _ => exact pure _
    | _ => exact fail _ _

theorem declareClass (name : Ident) (parent : Option Reference) (methods : List Function) :
    (Eval.declareClass name parent methods).Lexical True :=
  bind (superclass parent) fun _ => bind (of_local (.define _ _) trivial) fun _ =>
    bind (of_local (.methodFrame _ _ _) trivial) fun _ => bind (make _) fun _ =>
      of_local (.define _ _) trivial

end Lexical

end Eval

/-! ## The rules -/

open Eval.Lexical

theorem Expr.lexical (e : Expr) : e.rule.Lexical True := by
  cases e with
  | literal _ | group _ => exact pure _
  | unary _ operand =>
    exact bind (evaluated operand) fun _ => map (of_local (.ofResult _ _) trivial) _
  | binary left _ right =>
    exact bind (evaluated left) fun v => bind (holding v (evaluated right)) fun _ =>
      map (of_local (.ofResult _ _) trivial) _
  | logical left _ _ =>
    refine bind (evaluated left) fun _ => ?_
    split <;> exact pure _
  | variable_ _ | this _ _ => exact map (of_local (.lookUp _ _ _) trivial) _
  | assign _ value =>
    exact bind (evaluated value) fun _ => bind (of_local (.assign _ _) trivial) fun _ => pure _
  | call callee es line =>
    exact bind (evaluated callee) fun v => map (holding v (bind (arguments es) fun vs =>
      ask (.call v vs line) nofun False.elim)) _
  | get object _ =>
    refine bind (evaluated object) fun v => ?_
    cases v with
    | instance_ _ => exact map (of_local (.property _ _) trivial) _
    | _ => exact fail _ _
  | set object _ value =>
    refine bind (evaluated object) fun v => ?_
    cases v with
    | instance_ _ =>
      exact bind (holding _ (evaluated value)) fun _ =>
        bind (of_local (.setField _ _ _) trivial) fun _ => pure _
    | _ => exact fail _ _
  | super _ _ _ => exact map (of_local (.superMethod _ _ _) trivial) _
  | function _ => exact map (of_local (.close _) trivial) _

theorem Stmt.lexical (s : Stmt) : s.rule.Lexical True := by
  cases s with
  | expression e => exact bind (evaluated e) fun _ => pure _
  | print line e => exact bind (evaluated e) fun _ => bind (Eval.Lexical.print line _) fun _ => pure _
  | var _ initial =>
    cases initial with
    | none => exact bind (of_local (.define _ _) trivial) fun _ => pure _
    | some e =>
      exact bind (evaluated e) fun _ => bind (of_local (.define _ _) trivial) fun _ => pure _
  | block body =>
    exact bind (of_local (.look fun _ _ shares => shares.current) trivial) fun _ =>
      bind (make _) fun frame => map (inFrame frame (sequence body)) _
  | branch condition _ no =>
    refine bind (evaluated condition) fun _ => ?_
    split
    · exact pure _
    · cases no <;> exact pure _
  | loop _ _ => exact pure _
  | function _ =>
    exact bind (of_local (.close _) trivial) fun _ => bind (of_local (.define _ _) trivial) fun _ => pure _
  | return_ _ value =>
    cases value with
    | none => exact pure _
    | some e => exact bind (evaluated e) fun _ => pure _
  | class_ name parent methods => exact bind (declareClass name parent methods) fun _ => pure _

theorem Task.lexical {sort : TaskSort} {task : Task sort} (situated : task.Situated)
    (sorted : sort ≠ .program) : (task.rule id).Lexical True := by
  cases task with
  | evaluate e => exact e.lexical
  | call _ _ _ | invoke _ _ => exact situated.elim
  | execute s => exact fun _ _ coincides _ => .done ⟨rfl, .refl coincides⟩
  | perform s => exact s.lexical
  | repeat_ condition body =>
    refine bind (evaluated condition) fun v => ?_
    split
    · refine bind (executed body) fun flow => ?_
      cases flow <;> exact pure _
    · exact pure _
  | run _ => exact absurd rfl sorted

namespace Evaluation

variable {sort : TaskSort} {st st' : State}

/-- A task that depends on the current frame may be handed over to another one that does. -/
theorem inStep_of_situated {task : Task sort} (situated : task.Situated)
    (asked : AskedApart sort ⟨task, st⟩ ⟨task, st'⟩) :
    (evaluationWith id sort ⟨task, st⟩).InStep AskedApart AnsweredApart
      (Rules.SettlesInStep AskedApart AnsweredApart ⟨task, st⟩ ⟨task, st'⟩)
      (evaluationWith id sort ⟨task, st'⟩) := by
  have current : st'.current = st.current := asked.current situated
  refine (task.lexical situated asked.sort st st' asked.coincides fun _ => current).bind ?_
  rintro ⟨result, left⟩ ⟨result', left'⟩ ⟨same, returns⟩
  obtain rfl : result' = result := same
  rcases result' with stop | a | task'
  · exact .done (.answer ⟨rfl, returns⟩)
  · exact .done (.answer ⟨rfl, returns⟩)
  · have current' : left'.current = left.current := by
      rw [returns.current, returns.current', current]
    refine .done (.become ⟨rfl, returns.coincides, fun _ => current', asked.sort⟩ ?_)
    exact fun r r' answered => ⟨answered.result, returns.trans answered.returns⟩

/-- A call is answered by the rule that it is carried out by. -/
theorem inStep_of_result {task : Task sort} {action : Eval sort.Result}
    (h : action.Lexical False) (rule : task.rule id = Ending.result <$> action)
    (coincides : st.Coincides st') :
    (evaluationWith id sort ⟨task, st⟩).InStep AskedApart AnsweredApart
      (Rules.SettlesInStep AskedApart AnsweredApart ⟨task, st⟩ ⟨task, st'⟩)
      (evaluationWith id sort ⟨task, st'⟩) := by
  have ended st : evaluationWith id sort ⟨task, st⟩ =
      action st >>= fun o => .done (.answer ⟨o.1, o.2⟩) := by
    change (task.rule id st >>= _) = _
    rw [rule, Eval.map_eq_bind, Eval.bind_apply, Plan.bind_assoc]
    congr 1
    funext o
    obtain ⟨result, left⟩ := o
    cases result <;> rfl
  rw [ended, ended]
  refine (h st st' coincides False.elim).bind ?_
  rintro ⟨result, left⟩ ⟨result', left'⟩ ⟨same, returns⟩
  exact .done (.answer ⟨same, returns⟩)

theorem inStepApart (sort : TaskSort) (q q' : Question sort) (asked : AskedApart sort q q') :
    (evaluationWith id sort q).InStep AskedApart AnsweredApart
      (Rules.SettlesInStep AskedApart AnsweredApart q q') (evaluationWith id sort q') := by
  obtain ⟨task, st⟩ := q
  obtain ⟨task', st'⟩ := q'
  obtain rfl : task' = task := asked.task
  cases task' with
  | call callee vs line => exact inStep_of_result (Eval.Lexical.call callee vs line) rfl asked.coincides
  | invoke closure vs => exact inStep_of_result (Eval.Lexical.invoke closure vs) rfl asked.coincides
  | _ => exact inStep_of_situated trivial asked

/-! ## Runs that collect nothing -/

/-- No collection takes place while a question is answered. -/
def Quiet (rules : Rules Question Answer) (q : Question sort) : Prop :=
  ∀ ⦃s : Stmt⦄ ⦃st : State⦄, rules.Arises q ⟨.execute s, st⟩ → st.heap.shouldCollect = false

/-- Where it is not time to collect, it makes no difference that it could be. -/
theorem evaluationWith_id {task : Task sort} {st : State}
    (idle : ∀ s : Stmt, (⟨sort, task⟩ : Sigma Task) = ⟨.flow, .execute s⟩ →
      st.heap.shouldCollect = false) :
    evaluationWith id sort ⟨task, st⟩ = evaluation sort ⟨task, st⟩ := by
  cases task with
  | execute s =>
    have tidied : st.collectIfDue = st := by
      rw [State.collectIfDue, idle s rfl]
      rfl
    change Plan.done (Next.become (Question.mk (.perform s) st)) =
      .done (.become ⟨.perform s, st.collectIfDue⟩)
    rw [tidied]
  | _ => rfl

namespace Quiet

variable {q q' : Question sort}

theorem agreeAlong (quiet : Quiet evaluation q) : evaluation.AgreeAlong (evaluationWith id) q := by
  rintro sort' ⟨task, st⟩ arises
  refine evaluationWith_id fun s same => ?_
  cases same
  exact quiet arises

theorem agreeAlong_symm (quiet : Quiet (evaluationWith id) q) :
    (evaluationWith id).AgreeAlong evaluation q := by
  rintro sort' ⟨task, st⟩ arises
  refine (evaluationWith_id fun s same => ?_).symm
  cases same
  exact quiet arises

/-- What comes up apart comes up with the same heap, so that there is as little to collect. -/
theorem apart (quiet : Quiet evaluation q) (asked : AskedApart sort q' q) : Quiet evaluation q' := by
  have idle : Quiet (evaluationWith id) q' := by
    intro s st' arises'
    obtain ⟨⟨task, st⟩, arises, asked₁⟩ := arises'.inStep inStepApart asked
    obtain rfl : task = .execute s := asked₁.task
    rw [← asked₁.coincides.heap]
    exact quiet (quiet.agreeAlong.of_arises arises)
  intro s st arises
  exact idle (idle.agreeAlong_symm.of_arises arises)

end Quiet

/-- Where nothing is collected, what is asked apart is answered apart. -/
theorem answers_apart {q q' : Question sort} {r : Answer sort} (quiet : Quiet evaluation q)
    (quiet' : Quiet evaluation q') (asked : AskedApart sort q q')
    (known : evaluation.Answers sort q r) :
    ∃ r', evaluation.Answers sort q' r' ∧ AnsweredApart sort q q' r r' := by
  obtain ⟨r', known', answered⟩ :=
    (quiet.agreeAlong.answers_iff.mp known).inStep inStepApart asked
  exact ⟨r', quiet'.agreeAlong.answers_iff.mpr known', answered⟩

/-- **A call sees nothing of its caller.**  Two states may differ in the current frame, in the frames put
aside and in the values held on to: a call that collects nothing in the one collects nothing in the other,
it has an answer in both of them or in neither, and it comes to the same result with the same heap and the
same output. -/
theorem call_same_of_coincides (callee : Value) (vs : List Value) (line : Nat) {st st' : State}
    (coincides : st.Coincides st') (quiet : Quiet evaluation ⟨.call callee vs line, st⟩) :
    Quiet evaluation ⟨.call callee vs line, st'⟩ ∧
      (∀ result left, evaluation.Answers .value ⟨.call callee vs line, st⟩ ⟨result, left⟩ →
        ∃ left', evaluation.Answers .value ⟨.call callee vs line, st'⟩ ⟨result, left'⟩ ∧
          left.Coincides left') ∧
      ∀ result left', evaluation.Answers .value ⟨.call callee vs line, st'⟩ ⟨result, left'⟩ →
        ∃ left, evaluation.Answers .value ⟨.call callee vs line, st⟩ ⟨result, left⟩ ∧
          left.Coincides left' := by
  have asked : AskedApart .value ⟨.call callee vs line, st⟩ ⟨.call callee vs line, st'⟩ :=
    ⟨rfl, coincides, False.elim, nofun⟩
  have asked' : AskedApart .value ⟨.call callee vs line, st'⟩ ⟨.call callee vs line, st⟩ :=
    ⟨rfl, coincides.symm, False.elim, nofun⟩
  have quiet' := quiet.apart asked'
  refine ⟨quiet', fun result left known => ?_, fun result left' known' => ?_⟩
  · obtain ⟨⟨result', left'⟩, known', same, returns⟩ := answers_apart quiet quiet' asked known
    obtain rfl : result' = result := same
    exact ⟨left', known', returns.coincides⟩
  · obtain ⟨⟨result', left⟩, known, same, returns⟩ := answers_apart quiet' quiet asked' known'
    obtain rfl : result' = result := same
    exact ⟨left, known, returns.coincides.symm⟩

/-- Is it not time to collect where a question begins? -/
def Question.isIdle (q : Question sort) : Bool := !q.state.heap.shouldCollect

/-- Whether a call is quiet shows in what comes up, if there is an answer. -/
theorem quiet_of_all {q : Question sort} {fuel : Nat} {r : Answer sort}
    (found : evaluation.solve fuel sort q = some r)
    (idle : (evaluation.arising fuel ⟨sort, q⟩).all (·.2.isIdle) = true) : Quiet evaluation q := by
  intro s st arises
  have mem := Rules.mem_arising_of_arises found arises
  have idle := List.all_eq_true.mp idle _ mem
  exact Bool.not_eq_true' _ ▸ idle

/-- The state of a program that has come to a block within the current frame, where a variable is bound,
and that holds on to the value of it; and the same heap seen from the current frame. -/
def besideBlock (st : State) (name : String) (v : Value) : State × State :=
  let (frame, heap) := st.heap.newFrame (some st.current)
  let st := { st with heap := heap.bindVariable frame name v }
  (st, (st.inside frame).push v)

theorem coincides_besideBlock (st : State) (name : String) (v : Value) :
    (besideBlock st name v).1.Coincides (besideBlock st name v).2 :=
  ⟨rfl, rfl, rfl, rfl, rfl, rfl⟩

/-- A class is called whose initializer mentions a variable that is bound anew where it is called. -/
theorem call_same_of_coincides_shadowed : ∃ (callee : Value) (st st' : State),
    st.Coincides st' ∧ st'.current ≠ st.current ∧ Quiet evaluation ⟨.call callee [.nil] 1, st⟩ ∧
      ∃ result left left', evaluation.Answers .value ⟨.call callee [.nil] 1, st⟩ ⟨result, left⟩ ∧
        evaluation.Answers .value ⟨.call callee [.nil] 1, st'⟩ ⟨result, left'⟩ ∧
        left.Coincides left' ∧ left.sink.printed = #["nil", "A"] := by
  have found : ((Session.start {} .unlimited (.ticking 0)).run 1000
      "class A { init(x) { { fun f() { print x; return A; } this.x = f(); }
        print this.x; } }").any (fun o => (o.2.global? "A").any fun callee =>
        decide ((besideBlock o.2.state "A" .nil).2.current ≠
          (besideBlock o.2.state "A" .nil).1.current) &&
        (evaluation.arising 40
          ⟨.value, .call callee [.nil] 1, (besideBlock o.2.state "A" .nil).1⟩).all (·.2.isIdle) &&
        (evaluation.solve 40 .value
          ⟨.call callee [.nil] 1, (besideBlock o.2.state "A" .nil).1⟩).any (fun r =>
            decide (r.state.sink.printed = #["nil", "A"]))) = true := by
    decide +kernel
  obtain ⟨⟨outcome, session⟩, -, found⟩ := (Option.any_eq_true _ _).mp found
  obtain ⟨callee, -, found⟩ := (Option.any_eq_true _ _).mp found
  simp only [Bool.and_eq_true, decide_eq_true_eq] at found
  obtain ⟨⟨apart, idle⟩, answered⟩ := found
  obtain ⟨⟨result, left⟩, solved, printed⟩ := (Option.any_eq_true _ _).mp answered
  have coincides := coincides_besideBlock session.state "A" .nil
  have quiet := quiet_of_all solved idle
  obtain ⟨-, same, -⟩ := call_same_of_coincides callee [.nil] 1 coincides quiet
  obtain ⟨left', known', alike⟩ := same result left ⟨40, solved⟩
  exact ⟨callee, _, _, coincides, apart, quiet, result, left, left', ⟨40, solved⟩, known', alike,
    of_decide_eq_true printed⟩

end Evaluation

end Lox
