import Lox.Proofs.Evaluation.Action
import Lox.Proofs.Plan.Course

/-!
# What actions come to

An action comes to a result if the tasks that it asks for do (`Eval.ComesTo`).  Two actions **match**
under a procedure if they come to the same, wherever they start (`Eval.Matches`).  An action that asks
for a task matches the one that takes the steps of the task's rule instead (`Eval.Matches.ask`), so that
a statement may be replaced by what it stands for, wherever it is executed.
-/

namespace Lox

open Evaluation

/-- A plan gets to its end if it gets to the end of its first part, and on from there. -/
theorem Plan.Reaches.bind_done {Kind : Type} {Question Answer : Kind → Type} {α β : Type}
    {Answers : (kind : Kind) → Question kind → Answer kind → Prop} {plan : Plan Question Answer α}
    {after : α → Plan Question Answer β} {a : α} {b : β} (h : plan.Reaches Answers (.done a))
    (h' : (after a).Reaches Answers (.done b)) : (plan >>= after).Reaches Answers (.done b) := by
  generalize same : Plan.done a = last at h
  induction h with
  | refl _ =>
    subst same
    exact h'
  | answer known _ ih => exact .answer known (ih same)

/-- What a rule ends with is carried on with. -/
def Ending.follow {sort : TaskSort} : Ending sort → Eval sort.Result
  | .result a => pure a
  | .task next => Eval.ask next

namespace Eval

variable {α β γ : Type} {rules : Rules Question Answer} {st left : State}

/-- From this state, the action comes to this result and leaves this state, if what it asks for is
answered as the procedure has it. -/
def ComesTo (rules : Rules Question Answer) (action : Eval α) (st : State)
    (o : Except Stop α × State) : Prop :=
  (action st).Reaches rules.Answers (.done o)

theorem comesTo_of_done {action : Eval α} {o o' : Except Stop α × State} (h : action st = .done o) :
    action.ComesTo rules st o' ↔ o' = o := by
  rw [ComesTo, h]
  constructor
  · rintro ⟨⟩
    rfl
  · rintro rfl
    exact .refl _

theorem comesTo_pure {a : α} {o : Except Stop α × State} :
    (Pure.pure a : Eval α).ComesTo rules st o ↔ o = (.ok a, st) :=
  comesTo_of_done rfl

theorem comesTo_ask {sort : TaskSort} {task : Task sort} {o : Except Stop sort.Result × State} :
    (ask task).ComesTo rules st o ↔ rules.Answers sort ⟨task, st⟩ ⟨o.1, o.2⟩ := by
  constructor
  · rintro (_ | ⟨known, rest⟩)
    cases rest
    exact known
  · exact fun known => .answer known (.refl _)

theorem comesTo_bind {action : Eval α} {next : α → Eval β} {o : Except Stop β × State} :
    (action >>= next).ComesTo rules st o ↔
      (∃ a mid, action.ComesTo rules st (.ok a, mid) ∧ (next a).ComesTo rules mid o) ∨
        ∃ stop mid, action.ComesTo rules st (.error stop, mid) ∧ o = (.error stop, mid) := by
  rw [ComesTo, bind_apply]
  constructor
  · intro h
    obtain ⟨⟨result, mid⟩, first, rest⟩ := h.done_of_bind
    cases result with
    | ok a => exact .inl ⟨a, mid, first, rest⟩
    | error stop =>
      cases rest
      exact .inr ⟨stop, mid, first, rfl⟩
  · rintro (⟨a, mid, first, rest⟩ | ⟨stop, mid, first, rfl⟩)
    · exact first.bind_done rest
    · exact first.bind_done (.refl _)

theorem comesTo_between {κ : Type} {keep : State → κ} {before : State → State}
    {after : κ → State → State} {action : Eval α} {o : Except Stop α × State} :
    (between keep before after action).ComesTo rules st o ↔
      ∃ mid, action.ComesTo rules (before st) (o.1, mid) ∧ o.2 = after (keep st) mid := by
  constructor
  · intro h
    obtain ⟨⟨result, mid⟩, inside, rest⟩ := Plan.Reaches.done_of_bind h
    cases rest
    exact ⟨mid, inside, rfl⟩
  · obtain ⟨result, left⟩ := o
    rintro ⟨mid, inside, rfl⟩
    exact Plan.Reaches.bind_done inside (.refl _)

/-- **A task comes to what its rule comes to.** -/
theorem answers_iff {tidy : State → State} {sort : TaskSort} {task : Task sort} {r : Answer sort} :
    (evaluationWith tidy).Answers sort ⟨task, st⟩ r ↔
      (task.rule tidy >>= Ending.follow).ComesTo (evaluationWith tidy) st (r.result, r.state) := by
  rw [comesTo_bind]
  -- A rule either answers by itself or hands on to a task, which answers in its place.
  constructor
  · intro known
    rcases known.exists_reaches with ends | ⟨q, ends, known⟩
    · obtain ⟨⟨result, mid⟩, ruled, last⟩ := Plan.Reaches.done_of_bind ends
      cases result with
      | error stop =>
        cases last
        exact .inr ⟨stop, mid, ruled, rfl⟩
      | ok ending =>
        cases ending with
        | task next => cases last
        | result a =>
          cases last
          exact .inl ⟨_, mid, ruled, .refl _⟩
    · obtain ⟨⟨result, mid⟩, ruled, last⟩ := Plan.Reaches.done_of_bind ends
      cases result with
      | error stop => cases last
      | ok ending =>
        cases ending with
        | result a => cases last
        | task next =>
          cases last
          exact .inl ⟨_, mid, ruled, comesTo_ask.mpr known⟩
  · rintro (⟨ending, mid, ruled, rest⟩ | ⟨stop, mid, ruled, same⟩)
    · cases ending with
      | result a =>
        obtain ⟨result, left⟩ := r
        cases comesTo_pure.mp rest
        exact Rules.answers_of_reaches (Plan.Reaches.bind_done ruled (.refl _))
      | task next =>
        exact Rules.answers_of_become (Plan.Reaches.bind_done ruled (.refl _)) (comesTo_ask.mp rest)
    · obtain ⟨result, left⟩ := r
      cases same
      exact Rules.answers_of_reaches (Plan.Reaches.bind_done ruled (.refl _))

/-! ## Actions that match -/

/-- Wherever they start, the actions come to the same. -/
def Matches (rules : Rules Question Answer) (action action' : Eval α) : Prop :=
  ∀ st o, action.ComesTo rules st o ↔ action'.ComesTo rules st o

namespace Matches

variable {action action' action'' : Eval α} {tidy : State → State}

theorem refl (action : Eval α) : action.Matches rules action := fun _ _ => .rfl

theorem trans (h : action.Matches rules action') (h' : action'.Matches rules action'') :
    action.Matches rules action'' :=
  fun st o => (h st o).trans (h' st o)

theorem bind {next next' : α → Eval β} (h : action.Matches rules action')
    (rest : ∀ a, (next a).Matches rules (next' a)) :
    (action >>= next).Matches rules (action' >>= next') := by
  intro st o
  simp only [comesTo_bind, h st _, rest _ _ _]

theorem inFrame (frame : FrameRef) (h : action.Matches rules action') :
    (Eval.inFrame frame action).Matches rules (Eval.inFrame frame action') := by
  intro st o
  simp only [Eval.inFrame, comesTo_between, h _ _]

/-- **A task may be replaced by its rule.** -/
theorem ask {sort : TaskSort} (task : Task sort) : (Eval.ask task).Matches (evaluationWith tidy)
    (task.rule tidy >>= Ending.follow) :=
  fun _ _ => comesTo_ask.trans answers_iff

end Matches

end Eval

end Lox
