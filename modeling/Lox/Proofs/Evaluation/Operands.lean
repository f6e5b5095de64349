import Lox.Proofs.Evaluation.Action
import Lox.Proofs.Plan.Lockstep

/-!
# Operands are held on to

An expression is evaluated operand by operand.  Whenever the rule for it asks for another task, it
holds on to the values of all operands so far (`Expr.holds_operands`), among them what is called and
the arguments of a call.  That much the answers are expected to leave alone: none of them may let go
of what was held on to before (`Undisturbed`).
-/

namespace Lox

open Evaluation

namespace Evaluation

/-- The value that a task has come to, if it is one. -/
def Answer.value? : {sort : TaskSort} → Answer sort → Option Value
  | .value, ⟨.ok v, _⟩ => some v
  | .flow, ⟨.ok (.returned v), _⟩ => some v
  | _, _ => none

/-- The values that tasks have come to. -/
def values (given : List (Sigma Answer)) : List Value := given.filterMap fun r => r.2.value?

/-- Tasks leave alone what is held on to. -/
def Undisturbed (Answers : (sort : TaskSort) → Question sort → Answer sort → Prop) : Prop :=
  ∀ (q : Question .value) (r : Answer .value), Answers .value q r →
    r.state.temporaries = q.state.temporaries

end Evaluation

/-- The state holds on to these values. -/
def State.HoldsOn (st : State) (vs : List Value) : Prop := ∀ v ∈ vs, v ∈ st.temporaries.toList

namespace State.HoldsOn

variable {st st' : State} {vs ws : List Value} {v : Value}

theorem push (st : State) (v : Value) : (st.push v).HoldsOn (st.temporaries.toList ++ [v]) := by
  intro w mem
  rw [State.push, Array.toList_push]
  exact mem

/-- What is held on to beside `v` is held on to beside what `v` is among. -/
theorem of_push (h : st'.HoldsOn ((st.push v).temporaries.toList ++ ws)) :
    st'.HoldsOn (st.temporaries.toList ++ v :: ws) := by
  intro w mem
  refine h w ?_
  rw [State.push, Array.toList_push, List.append_assoc]
  exact mem

theorem right (h : st.HoldsOn (vs ++ ws)) : st.HoldsOn ws :=
  fun v mem => h v (List.mem_append_right _ mem)

end State.HoldsOn

namespace Eval

variable {Answers : (sort : TaskSort) → Question sort → Answer sort → Prop} {st : State}
  {given : List (Sigma Answer)} {kind : TaskSort} {q : Question kind}

/-- Arguments wait for the first of them or, once it is evaluated and held on to, as the others do. -/
theorem waits_arguments_cons {e : Expr} {rest : List Expr}
    (waits : (Eval.arguments (e :: rest) st).Waits Answers given q) :
    given = [] ∧ (⟨kind, q⟩ : Sigma Question) = ⟨.value, ⟨.evaluate e, st⟩⟩ ∨
      ∃ v st₁ others, Answers .value ⟨.evaluate e, st⟩ ⟨.ok v, st₁⟩ ∧
        given = ⟨.value, ⟨.ok v, st₁⟩⟩ :: others ∧
        (Eval.arguments rest (st₁.push v)).Waits Answers others q := by
  change Plan.Waits Answers (.ask ⟨.evaluate e, st⟩ _) _ _ at waits
  cases waits with
  | here => exact .inl ⟨rfl, rfl⟩
  | @later _ _ _ _ _ r others known waits =>
    obtain ⟨result, st₁⟩ := r
    cases result with
    | error stop => cases waits
    | ok v =>
      change Plan.Waits Answers (Eval.arguments rest (st₁.push v) >>= _) _ _ at waits
      rcases waits.of_bind with waits | ⟨⟨result, _⟩, _, _, -, waits, -⟩
      · exact .inr ⟨v, st₁, others, known, rfl, waits⟩
      · cases result <;> cases waits

/-- Arguments come to the value of the first of them and, once it is held on to, to those of the others. -/
theorem comes_arguments_cons {e : Expr} {rest : List Expr} {vs : List Value} {st' : State}
    (comes : (Eval.arguments (e :: rest) st).Comes Answers given (.ok vs, st')) :
    ∃ v st₁ ws others, Answers .value ⟨.evaluate e, st⟩ ⟨.ok v, st₁⟩ ∧ vs = v :: ws ∧
      given = ⟨.value, ⟨.ok v, st₁⟩⟩ :: others ∧
      (Eval.arguments rest (st₁.push v)).Comes Answers others (.ok ws, st') := by
  change Plan.Comes Answers (.ask ⟨.evaluate e, st⟩ _) _ _ at comes
  cases comes with
  | @answer _ _ _ r others _ known comes =>
    obtain ⟨result, st₁⟩ := r
    cases result with
    | error stop => cases comes
    | ok v =>
      change Plan.Comes Answers (Eval.arguments rest (st₁.push v) >>= _) _ _ at comes
      obtain ⟨⟨result, st₂⟩, before, _, first, last, rfl⟩ := comes.of_bind
      cases result with
      | error stop => cases last
      | ok ws =>
        cases last
        rw [List.append_nil]
        exact ⟨v, st₁, ws, before, known, rfl, rfl, first⟩

/-- Arguments are held on to while others are evaluated, beside what was held on to before. -/
theorem waits_arguments (undisturbed : Undisturbed Answers) {es : List Expr}
    (waits : (Eval.arguments es st).Waits Answers given q) :
    q.state.HoldsOn (st.temporaries.toList ++ values given) := by
  induction es generalizing st given with
  | nil => cases waits
  | cons e rest ih =>
    rcases waits_arguments_cons waits with ⟨rfl, same⟩ | ⟨v, st₁, others, known, rfl, waits'⟩
    · cases same
      exact fun v mem => by simpa [values] using mem
    · have same : st₁.temporaries = st.temporaries := undisturbed _ _ known
      rw [← same]
      exact (ih waits').of_push

/-- Arguments are held on to when all of them are evaluated. -/
theorem comes_arguments (undisturbed : Undisturbed Answers) {es : List Expr} {vs : List Value} {st' : State}
    (comes : (Eval.arguments es st).Comes Answers given (.ok vs, st')) :
    st'.HoldsOn (st.temporaries.toList ++ values given) := by
  induction es generalizing st given vs with
  | nil =>
    cases comes
    exact fun v mem => by simpa [values] using mem
  | cons e rest ih =>
    obtain ⟨v, st₁, ws, others, known, rfl, rfl, comes'⟩ := comes_arguments_cons comes
    have same : st₁.temporaries = st.temporaries := undisturbed _ _ known
    rw [← same]
    exact (ih comes').of_push

/-- A call waits for an argument or, once all of them are evaluated, to be made. -/
theorem waits_call_cases {callee : Value} {es : List Expr} {line : Nat}
    (waits : (Eval.holding callee (do ask (.call callee (← Eval.arguments es) line)) st).Waits
      Answers given q) : (Eval.arguments es (st.push callee)).Waits Answers given q ∨
      ∃ vs mid, (Eval.arguments es (st.push callee)).Comes Answers given (.ok vs, mid) ∧
        (⟨kind, q⟩ : Sigma Question) = ⟨.value, ⟨.call callee vs line, mid⟩⟩ := by
  change Plan.Waits Answers ((Eval.arguments es >>= _) (st.push callee) >>= _) _ _ at waits
  rcases waits.of_bind with waits | ⟨⟨result, st₁⟩, before, rest, -, waits, -⟩
  · rw [bind_apply] at waits
    rcases waits.of_bind with waits | ⟨⟨result, st₁⟩, before, rest, comes, waits, rfl⟩
    · exact .inl waits
    · cases result with
      | error stop => cases waits
      | ok vs =>
        change Plan.Waits Answers (.ask ⟨.call callee vs line, st₁⟩ _) _ _ at waits
        cases waits with
        | here =>
          rw [List.append_nil]
          exact .inr ⟨vs, st₁, comes, rfl⟩
        | later known waits => cases waits
  · cases waits

/-- What is called and its arguments are held on to. -/
theorem waits_call (undisturbed : Undisturbed Answers) {callee : Value} {es : List Expr} {line : Nat}
    (waits : (Eval.holding callee (do ask (.call callee (← Eval.arguments es) line)) st).Waits
      Answers given q) : q.state.HoldsOn (callee :: values given) := by
  rcases waits_call_cases waits with waits | ⟨vs, mid, comes, same⟩
  · exact (waits_arguments undisturbed waits).of_push.right
  · cases same
    exact (comes_arguments undisturbed comes).of_push.right

/-- An operand is held on to while another one is evaluated. -/
theorem waits_holding {v : Value} {e : Expr}
    (waits : (Eval.holding v (ask (.evaluate e)) st).Waits Answers given q) :
    q.state.HoldsOn (v :: values given) := by
  change Plan.Waits Answers (.ask ⟨.evaluate e, st.push v⟩ _) _ _ at waits
  cases waits with
  | here => exact (State.HoldsOn.push st v).right
  | later known waits => cases waits

theorem Local.not_waits {α : Type} {action : Eval α} (h : action.Local) :
    ¬(action st).Waits Answers given q := by
  obtain ⟨result, heap, done⟩ := h.exists_done st
  rw [done]
  intro waits
  cases waits

/-- An operand is evaluated first of all, when nothing is held on to as yet. -/
theorem waits_first {α : Type} {e : Expr} {next : Value → Eval α}
    (waits : ((ask (.evaluate e) >>= next) st).Waits Answers given q)
    (after : ∀ {v st' rest}, (next v st').Waits Answers rest q →
      q.state.HoldsOn (v :: values rest)) : q.state.HoldsOn (values given) := by
  change Plan.Waits Answers (.ask ⟨.evaluate e, st⟩ _) _ _ at waits
  cases waits with
  | here => exact fun v mem => (List.not_mem_nil mem).elim
  | @later _ _ _ _ _ r rest known waits =>
    obtain ⟨result, st'⟩ := r
    cases result with
    | error stop => cases waits
    | ok v => exact after waits

/-- After a last operand nothing else is asked for. -/
theorem waits_last {α β : Type} {action : Eval α} {next : α → Eval β}
    (waits : ((action >>= next) st).Waits Answers given q) (last : ∀ a, (next a).Local) :
    (action st).Waits Answers given q := by
  rw [bind_apply] at waits
  rcases waits.of_bind with waits | ⟨⟨result, st'⟩, before, rest, -, waits, -⟩
  · exact waits
  · cases result with
    | error stop => cases waits
    | ok a => exact ((last a).not_waits waits).elim

end Eval

/-- Once the rule for a task has come to an end, nothing else is asked for. -/
theorem Evaluation.waits_rule {Answers : (sort : TaskSort) → Question sort → Answer sort → Prop}
    {sort kind : TaskSort} {task : Task sort} {st : State} {given : List (Sigma Answer)}
    {q : Question kind} (waits : (evaluation sort ⟨task, st⟩).Waits Answers given q) :
    (task.rule State.collectIfDue st).Waits Answers given q := by
  change Plan.Waits Answers (task.rule State.collectIfDue st >>= _) _ _ at waits
  rcases waits.of_bind with ruled | ⟨⟨result, _⟩, _, _, -, ruled, -⟩
  · exact ruled
  · cases result with
    | ok ending => cases ending <;> cases ruled
    | error stop => cases ruled

open Eval

/-- **An expression holds on to the operands that are evaluated.** -/
theorem Expr.holds_operands {Answers : (sort : TaskSort) → Question sort → Answer sort → Prop}
    (undisturbed : Undisturbed Answers) {e : Expr} {st : State} {given : List (Sigma Answer)} {kind : TaskSort}
    {q : Question kind} (waits : (e.rule st).Waits Answers given q) :
    q.state.HoldsOn (values given) := by
  cases e with
  | literal _ | group _ | function _ => cases waits
  | variable_ _ | this _ _ => exact (((Local.lookUp _ _ _).map _).not_waits waits).elim
  | super _ _ _ => exact (((Local.superMethod _ _ _).map _).not_waits waits).elim
  | unary _ _ =>
    exact waits_first waits fun waits => (((Local.ofResult _ _).map _).not_waits waits).elim
  | binary _ _ _ =>
    exact waits_first waits fun waits =>
      waits_holding (waits_last waits fun _ => (Local.ofResult _ _).map _)
  | logical _ _ _ =>
    refine waits_first waits fun waits => ?_
    split at waits <;> cases waits
  | assign _ _ =>
    exact waits_first waits fun waits =>
      (((Local.assign _ _).bind fun _ => .pure _).not_waits waits).elim
  | call _ _ _ =>
    exact waits_first waits fun waits =>
      waits_call undisturbed (waits_last waits fun _ => .pure _)
  | get _ _ =>
    refine waits_first waits fun waits => ?_
    split at waits
    · exact (((Local.property _ _).map _).not_waits waits).elim
    · cases waits
  | set _ _ _ =>
    refine waits_first waits fun waits => ?_
    split at waits
    · refine waits_holding (waits_last waits fun _ => ?_)
      exact (Local.setField _ _ _).bind fun _ => .pure _
    · cases waits

end Lox
