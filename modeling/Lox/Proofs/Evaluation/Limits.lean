import Lox.Proofs.Evaluation.Action
import Lox.Proofs.Plan.Truncation

/-!
# Limits

Two limits can stop a program that would go on without them: there is no room for one more call, or the
sink is full.  Nothing else depends on them.  An action that does not meet its limits does the same if
they are **wider** (`Eval.Steady`), and the two rules that look at a limit are those of calls and of
`print` (`Evaluation.truncated`).
-/

namespace Lox

open Evaluation

/-- Wider limits, in place of those of a state. -/
structure Wider where
  settings : Settings → Settings
  sink : Sink → Sink
  room : ∀ s, s.maxCallDepth ≤ (settings s).maxCallDepth
  prints : ∀ {before : Sink} {line : String} {after : Sink}, before.print line = .ok after →
    (sink before).print line = .ok (sink after)
  /-- What is refused is refused for the same reason, or else it is printed. -/
  refuses : ∀ {before : Sink} {line reason : String}, before.print line = .error reason →
    (sink before).print line = .error reason ∨ ∃ after, (sink before).print line = .ok after

/-- A state left behind by whatever encloses the action that has stopped. -/
structure State.Abandoned (before after : State) : Prop where
  heap : after.heap = before.heap
  globals : after.globals = before.globals
  settings : after.settings = before.settings
  sink : after.sink = before.sink
  clock : after.clock = before.clock

namespace State.Abandoned

variable {st st' st'' : State}

theorem refl (st : State) : st.Abandoned st := ⟨rfl, rfl, rfl, rfl, rfl⟩

theorem trans (h : st.Abandoned st') (h' : st'.Abandoned st'') : st.Abandoned st'' :=
  ⟨h'.heap.trans h.heap, h'.globals.trans h.globals, h'.settings.trans h.settings,
    h'.sink.trans h.sink, h'.clock.trans h.clock⟩

end State.Abandoned

namespace Wider

/-- The state with wider limits. -/
def state (w : Wider) (st : State) : State :=
  { st with settings := w.settings st.settings, sink := w.sink st.sink }

theorem shares (w : Wider) (st : State) : st.Shares (w.state st) := ⟨rfl, rfl, rfl⟩

/-- The rule for a task meets a limit that the wider ones do not meet there. -/
inductive Halts (w : Wider) : {sort : TaskSort} → Question sort → Answer sort → Prop
  | call {callee : Value} {vs : List Value} {line : Nat} {st : State}
      (full : st.settings.maxCallDepth ≤ st.callDepth)
      (room : st.callDepth < (w.settings st.settings).maxCallDepth) :
      Halts w ⟨.call callee vs line, st⟩ ⟨.error (.error ⟨line, .tooManyCalls⟩), st⟩
  | print {line : Nat} {e : Expr} {before st : State} {v : Value} {reason : String} {after : Sink}
      (known : evaluation.Answers .value ⟨.evaluate e, w.state before⟩ ⟨.ok v, w.state st⟩)
      (full : st.sink.print v.text = .error reason)
      (room : (w.sink st.sink).print v.text = .ok after) :
      Halts w ⟨.perform (.print line e), before⟩
        ⟨.error (.error ⟨line, .outputFailed reason⟩), st⟩

/-- Tasks are the same, and begin and end in the same state but for the limits. -/
def loosening (w : Wider) : Loosening Question Answer where
  question q := ⟨q.task, w.state q.state⟩
  answer r := ⟨r.result, w.state r.state⟩
  Passed r r' := ∃ stop, r.result = .error stop ∧ r'.result = .error stop ∧
    r.state.Abandoned r'.state
  passed_trans := by
    rintro _ _ _ r₁ r₂ r₃ ⟨stop, stopped, stopped', abandoned⟩ ⟨stop', same, stopped'', abandoned'⟩
    obtain rfl := Except.error.inj (stopped'.symm.trans same)
    exact ⟨stop, stopped, stopped'', abandoned.trans abandoned'⟩
  passed_right := by
    rintro _ _ r₁ r₂ ⟨stop, -, stopped, -⟩
    exact ⟨stop, stopped, stopped, .refl _⟩
  Halts := w.Halts
  passed_of_halts := by
    rintro _ q r (_ | _) <;> exact ⟨_, rfl, rfl, .refl _⟩

end Wider

/-! ## Actions -/

variable {α β : Type} {w : Wider}

/-- Of two plans the one does, where the limits are wider, what the other one does; and either passes on
a stop. -/
inductive Plan.Steady (w : Wider) : Plan Question Answer (Except Stop α × State) →
    Plan Question Answer (Except Stop α × State) → Prop
  | done (result : Except Stop α) (st : State) : Steady w (.done (result, st)) (.done (result, w.state st))
  | ask {sort : TaskSort} {q : Question sort}
      {next next' : Answer sort → Plan Question Answer (Except Stop α × State)}
      (same : ∀ r, Steady w (next r) (next' (w.loosening.answer r)))
      (passes : ∀ {r : Answer sort} {stop : Stop}, r.result = .error stop →
        ∃ st, next r = .done (.error stop, st) ∧ r.state.Abandoned st) :
      Steady w (.ask q next) (.ask (w.loosening.question q) next')

theorem Plan.Steady.bind {plan plan' : Plan Question Answer (Except Stop α × State)}
    {after after' : Except Stop α × State → Plan Question Answer (Except Stop β × State)}
    (h : plan.Steady w plan')
    (rest : ∀ result st, (after (result, st)).Steady w (after' (result, w.state st)))
    (passes : ∀ stop st, ∃ st', after (.error stop, st) = .done (.error stop, st') ∧
      st.Abandoned st') : (plan >>= after).Steady w (plan' >>= after') := by
  induction h with
  | done result st => exact rest result st
  | ask same stops ih =>
    refine .ask ih fun stopped => ?_
    obtain ⟨st, ended, abandoned⟩ := stops stopped
    obtain ⟨st', passed, abandoned'⟩ := passes _ st
    refine ⟨st', ?_, abandoned.trans abandoned'⟩
    rw [ended]
    exact passed

namespace Eval

/-- The action does the same where the limits are wider. -/
def Steady (w : Wider) (action : Eval α) : Prop :=
  ∀ st, (action st).Steady w (action (w.state st))

namespace Steady

theorem of_local {action : Eval α} (h : action.Local) : action.Steady w := by
  intro st
  obtain ⟨result, heap, done, done'⟩ := h st _ (w.shares st)
  rw [done, done']
  exact .done result { st with heap := heap }

theorem pure (a : α) : (Pure.pure a : Eval α).Steady w := of_local (.pure a)

theorem fail (line : Nat) (cause : RuntimeError.Cause) : (Eval.fail line cause : Eval α).Steady w :=
  of_local (.fail line cause)

theorem bind_at {action : Eval α} {next : α → Eval β} {st : State}
    (h : (action st).Steady w (action (w.state st))) (h' : ∀ a, (next a).Steady w) :
    ((action >>= next) st).Steady w ((action >>= next) (w.state st)) := by
  rw [bind_apply, bind_apply]
  refine h.bind (fun result st => ?_) fun stop st => ⟨st, rfl, .refl st⟩
  cases result with
  | ok a => exact h' a st
  | error stop => exact .done _ st

theorem bind {action : Eval α} {next : α → Eval β} (h : action.Steady w)
    (h' : ∀ a, (next a).Steady w) : (action >>= next).Steady w :=
  fun st => bind_at (h st) h'

theorem map {action : Eval α} (h : action.Steady w) (f : α → β) : (f <$> action).Steady w :=
  bind h fun a => pure (f a)

theorem ask {sort : TaskSort} (task : Task sort) : (Eval.ask task).Steady w :=
  fun st => .ask (fun r => .done r.result r.state) fun {r} _ stopped =>
    ⟨r.state, by rw [stopped], .refl _⟩

theorem change {f : State → State} (same : ∀ st, f (w.state st) = w.state (f st)) :
    (Eval.change f).Steady w := by
  intro st
  rw [Eval.change, Eval.change, same]
  exact .done _ _

theorem readClock : Eval.readClock.Steady w := fun _ => .done _ _

/-- What an action puts right again does not depend on the limits. -/
theorem between {κ : Type} {keep : State → κ} {before : State → State} {after : κ → State → State}
    {action : Eval α} (h : action.Steady w) (kept : ∀ st, keep (w.state st) = keep st)
    (begins : ∀ st, before (w.state st) = w.state (before st))
    (ends : ∀ k st, after k (w.state st) = w.state (after k st))
    (abandoned : ∀ k st, State.Abandoned st (after k st)) :
    (Eval.between keep before after action).Steady w := by
  intro st
  rw [Eval.between, Eval.between]
  simp only [begins, kept]
  refine (h (before st)).bind (fun result st' => ?_) fun stop st' => ⟨_, rfl, abandoned _ st'⟩
  simp only [ends]
  exact .done _ _

theorem inFrame {action : Eval α} (frame : FrameRef) (h : action.Steady w) :
    (Eval.inFrame frame action).Steady w :=
  between h (fun _ => rfl) (fun _ => rfl) (fun _ _ => rfl) fun _ _ => ⟨rfl, rfl, rfl, rfl, rfl⟩

theorem holding {action : Eval α} (v : Value) (h : action.Steady w) :
    (Eval.holding v action).Steady w :=
  between h (fun _ => rfl) (fun _ => rfl) (fun _ _ => rfl) fun _ _ => ⟨rfl, rfl, rfl, rfl, rfl⟩

theorem inCall {action : Eval α} (h : action.Steady w) : (Eval.inCall action).Steady w :=
  between h (fun _ => rfl) (fun _ => rfl) (fun _ _ => rfl) fun _ _ => ⟨rfl, rfl, rfl, rfl, rfl⟩

/-! ## The parts of the rules -/

theorem sequence (body : List Stmt) : (Eval.sequence body).Steady w := by
  induction body with
  | nil => exact pure _
  | cons first rest ih =>
    refine bind (ask _) fun flow => ?_
    cases flow with
    | normal => exact ih
    | returned _ => exact pure _

theorem arguments (es : List Expr) : (Eval.arguments es).Steady w := by
  induction es with
  | nil => exact pure _
  | cons e rest ih =>
    exact bind (ask _) fun _ => bind (change fun _ => rfl) fun _ => bind ih fun _ => pure _

theorem enter (callee : Value) (vs : List Value) (line : Nat) :
    (Eval.enter callee vs line).Steady w := by
  cases callee with
  | function _ _ => exact ask _
  | native _ native =>
    cases native with
    | clock => exact map readClock _
  | class_ type =>
    refine bind (of_local (.make _)) fun fields => ?_
    simp only
    split
    · exact pure _
    · exact bind (of_local (.make _)) fun _ => bind (ask _) fun _ => pure _
  | _ => exact fail _ _

theorem invoke (closure : Closure) (vs : List Value) : (Eval.invoke closure vs).Steady w := by
  refine bind (of_local (.make _)) fun frame => bind (of_local (.bindParameters _ _)) fun _ =>
    bind (inFrame _ (sequence _)) fun flow => ?_
  split
  · exact bind (of_local (.inspect fun _ _ shares => by rw [shares.heap])) fun _ => pure _
  · cases flow <;> exact pure _

theorem superclass (parent : Option Reference) : (Eval.superclass parent).Steady w := by
  cases parent with
  | none => exact pure _
  | some ref =>
    refine bind (ask _) fun v => ?_
    cases v with
    | class_ _ => exact pure _
    | _ => exact fail _ _

theorem declareClass (name : Ident) (parent : Option Reference) (methods : List Function) :
    (Eval.declareClass name parent methods).Steady w :=
  bind (superclass parent) fun _ => bind (of_local (.define _ _)) fun _ =>
    bind (of_local (.methodFrame _ _ _)) fun _ => bind (of_local (.make _)) fun _ =>
      of_local (.define _ _)

theorem program (statements : List Stmt) : (Eval.program statements).Steady w := by
  induction statements with
  | nil => exact pure _
  | cons first rest ih => exact bind (ask _) fun _ => ih

end Steady

end Eval

/-! ## The rules -/

open Eval.Steady

theorem Expr.steady (e : Expr) : e.rule.Steady w := by
  cases e with
  | literal _ | group _ => exact pure _
  | unary _ _ => exact bind (ask _) fun _ => map (of_local (.ofResult _ _)) _
  | binary _ _ _ =>
    exact bind (ask _) fun _ => bind (holding _ (ask _)) fun _ => map (of_local (.ofResult _ _)) _
  | logical _ _ _ =>
    refine bind (ask _) fun _ => ?_
    split <;> exact pure _
  | variable_ _ | this _ _ => exact map (of_local (.lookUp _ _ _)) _
  | assign _ _ => exact bind (ask _) fun _ => bind (of_local (.assign _ _)) fun _ => pure _
  | call _ _ _ =>
    exact bind (ask _) fun _ => map (holding _ (bind (arguments _) fun _ => ask _)) _
  | get _ _ =>
    refine bind (ask _) fun v => ?_
    cases v with
    | instance_ _ => exact map (of_local (.property _ _)) _
    | _ => exact fail _ _
  | set _ _ _ =>
    refine bind (ask _) fun v => ?_
    cases v with
    | instance_ _ =>
      exact bind (holding _ (ask _)) fun _ => bind (of_local (.setField _ _ _)) fun _ => pure _
    | _ => exact fail _ _
  | super _ _ _ => exact map (of_local (.superMethod _ _ _)) _
  | function _ => exact map (of_local (.close _)) _

/-- Of all statements `print` alone looks at the sink. -/
theorem Stmt.steady {s : Stmt} (other : ∀ line e, s ≠ .print line e) : s.rule.Steady w := by
  cases s with
  | expression _ => exact bind (ask _) fun _ => pure _
  | print line e => exact absurd rfl (other line e)
  | var _ initial =>
    cases initial with
    | none => exact bind (of_local (.define _ _)) fun _ => pure _
    | some _ => exact bind (ask _) fun _ => bind (of_local (.define _ _)) fun _ => pure _
  | block _ =>
    exact bind (of_local (.look fun _ _ shares => shares.current)) fun _ =>
      bind (of_local (.make _)) fun _ => map (inFrame _ (sequence _)) _
  | branch _ _ no =>
    refine bind (ask _) fun _ => ?_
    split
    · exact pure _
    · cases no <;> exact pure _
  | loop _ _ => exact pure _
  | function _ => exact bind (of_local (.close _)) fun _ => bind (of_local (.define _ _)) fun _ => pure _
  | return_ _ value =>
    cases value with
    | none => exact pure _
    | some _ => exact bind (ask _) fun _ => pure _
  | class_ _ _ _ => exact bind (declareClass _ _ _) fun _ => pure _

theorem State.collectIfDue_wider (st : State) :
    (w.state st).collectIfDue = w.state st.collectIfDue := by
  rw [collectIfDue, collectIfDue]
  change (if st.heap.shouldCollect then _ else _) = _
  split <;> rfl

namespace Evaluation

variable {sort : TaskSort}

theorem truncated_answer {q : Question sort} (result : Except Stop sort.Result) (st : State) :
    Plan.Truncated w.loosening evaluation q (.done (.answer ⟨result, st⟩))
      (.done (.answer ⟨result, w.state st⟩)) :=
  Plan.Truncated.answer (Answer.mk result st)

theorem truncated_become {q : Question sort} (task : Task sort) (st : State) :
    Plan.Truncated w.loosening evaluation q (.done (.become ⟨task, st⟩))
      (.done (.become ⟨task, w.state st⟩)) :=
  Plan.Truncated.become (Question.mk task st)

/-- What a rule makes of an action that is the same where the limits are wider is the same there. -/
theorem truncated_bind {q : Question sort}
    {plan plan' : Plan Question Answer (Except Stop α × State)}
    {ending : Except Stop α × State → Plan Question Answer (Next Question Answer sort)}
    (h : plan.Steady w plan')
    (ends : ∀ result st, (ending (result, st)).Truncated w.loosening evaluation q
      (ending (result, w.state st)))
    (passes : ∀ stop st, ∃ st', ending (.error stop, st) = .done (.answer ⟨.error stop, st'⟩) ∧
      st.Abandoned st') :
    (plan >>= ending).Truncated w.loosening evaluation q (plan' >>= ending) := by
  induction h with
  | done result st => exact ends result st
  | ask same stops ih =>
    refine .ask (fun r _ => ih r) fun r stopped => ?_
    obtain ⟨stop, stopped, -, -⟩ := stopped
    obtain ⟨st, ended, abandoned⟩ := stops stopped
    obtain ⟨st', passed, abandoned'⟩ := passes stop st
    refine ⟨⟨.error stop, st'⟩, ?_, stop, stopped, rfl, abandoned.trans abandoned'⟩
    rw [ended]
    exact passed

/-- The rule for a task is truncated if what the task does is the same where the limits are wider. -/
theorem truncated_of_steady {task : Task sort} {st : State}
    (h : (task.rule State.collectIfDue st).Steady w (task.rule State.collectIfDue (w.state st))) :
    (evaluation sort ⟨task, st⟩).Truncated w.loosening evaluation ⟨task, st⟩
      (evaluation sort ⟨task, w.state st⟩) := by
  refine truncated_bind h (fun result st => ?_) fun stop st => ⟨st, rfl, .refl st⟩
  cases result with
  | error stop => exact truncated_answer _ st
  | ok ending =>
    cases ending with
    | result a => exact truncated_answer _ st
    | task task' => exact truncated_become task' st

theorem truncated_call (callee : Value) (vs : List Value) (line : Nat) (st : State) :
    (evaluation .value ⟨.call callee vs line, st⟩).Truncated w.loosening evaluation
      ⟨.call callee vs line, st⟩ (evaluation .value ⟨.call callee vs line, w.state st⟩) := by
  rcases Eval.call_cases callee vs line with ⟨cause, -, fails⟩ | checked
  · refine truncated_of_steady (map ?_ _ st)
    rw [fails]
    exact fail line cause
  · -- There is room for the call under neither limit, under the wider one alone, where the run halts, or
    -- under both.
    have room := w.room st.settings
    have wide := checked (w.state st)
    change _ = if (w.settings st.settings).maxCallDepth ≤ st.callDepth then _ else _ at wide
    by_cases full : st.settings.maxCallDepth ≤ st.callDepth
    · have fails : evaluation .value ⟨.call callee vs line, st⟩ =
          .done (.answer ⟨.error (.error ⟨line, .tooManyCalls⟩), st⟩) := by
        change ((Eval.call callee vs line st >>= _) >>= _) = _
        rw [checked, if_pos full]
        rfl
      rw [fails]
      by_cases full' : (w.settings st.settings).maxCallDepth ≤ st.callDepth
      · have fails' : evaluation .value ⟨.call callee vs line, w.state st⟩ =
            .done (.answer ⟨.error (.error ⟨line, .tooManyCalls⟩), w.state st⟩) := by
          change ((Eval.call callee vs line (w.state st) >>= _) >>= _) = _
          rw [wide, if_pos full']
          rfl
        rw [fails']
        exact truncated_answer _ st
      · exact .halted (Wider.Halts.call full (Nat.lt_of_not_le full')) _
    · have free : ¬(w.settings st.settings).maxCallDepth ≤ st.callDepth := by omega
      refine truncated_of_steady (bind_at ?_ fun _ => pure _)
      rw [checked, if_neg full, wide, if_neg free]
      exact inCall (enter callee vs line) st

theorem truncated_print (line : Nat) (e : Expr) (st : State) :
    (evaluation .flow ⟨.perform (.print line e), st⟩).Truncated w.loosening evaluation
      ⟨.perform (.print line e), st⟩ (evaluation .flow ⟨.perform (.print line e), w.state st⟩) := by
  rw [evaluation, evaluationWith_print, evaluationWith_print]
  refine .ask (fun r known => ?_) fun r stopped => ?_
  · obtain ⟨result, st'⟩ := r
    cases result with
    | error stop => exact truncated_answer _ st'
    | ok v =>
      change (Eval.afterOperand line v st').Truncated _ _ _ (Eval.afterOperand line v (w.state st'))
      cases printed : st'.sink.print v.text with
      | ok sink =>
        have printed' : (w.state st').sink.print v.text = .ok (w.sink sink) := w.prints printed
        rw [Eval.afterOperand_of_ok printed, Eval.afterOperand_of_ok printed']
        exact truncated_answer _ { st' with sink := sink }
      | error reason =>
        rw [Eval.afterOperand_of_error printed]
        -- The wider sink may take what the other one refuses.
        rcases w.refuses printed with refused | ⟨after, room⟩
        · have refused' : (w.state st').sink.print v.text = .error reason := refused
          rw [Eval.afterOperand_of_error refused']
          exact truncated_answer _ st'
        · exact .halted (Wider.Halts.print known printed room) _
  · obtain ⟨stop, stopped, -, -⟩ := stopped
    refine ⟨⟨.error stop, r.state⟩, ?_, stop, stopped, rfl, .refl _⟩
    simp only [stopped]

/-- **Limits only cut a run short.** -/
theorem truncated (w : Wider) : evaluation.Truncated w.loosening := by
  intro sort q
  obtain ⟨task, st⟩ := q
  cases task with
  | evaluate e => exact truncated_of_steady (e.steady st)
  | call callee vs line => exact truncated_call callee vs line st
  | invoke closure vs => exact truncated_of_steady (map (invoke closure vs) _ st)
  | execute s =>
    exact truncated_of_steady (bind (change State.collectIfDue_wider) (fun _ => pure _) st)
  | perform s =>
    by_cases prints : ∃ line e, s = .print line e
    · obtain ⟨line, e, rfl⟩ := prints
      exact truncated_print line e st
    · exact truncated_of_steady (Stmt.steady (fun line e same => prints ⟨line, e, same⟩) st)
  | repeat_ condition body =>
    refine truncated_of_steady (bind (ask _) (fun v => ?_) st)
    split
    · refine bind (ask _) fun flow => ?_
      cases flow <;> exact pure _
    · exact pure _
  | run statements =>
    change (evaluationWith _ _ _).Truncated _ _ _ (evaluationWith _ _ ⟨.run statements, w.state st⟩)
    rw [evaluationWith_run, evaluationWith_run]
    refine truncated_bind (program statements st) (fun result st => ?_) fun stop st =>
      ⟨st.reset, rfl, rfl, rfl, rfl, rfl, rfl⟩
    cases result with
    | ok _ => exact truncated_answer _ st
    | error stop => exact truncated_answer _ st.reset

end Evaluation

end Lox
