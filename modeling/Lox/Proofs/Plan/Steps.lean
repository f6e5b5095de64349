import Lox.Proofs.Plan.Course

/-!
# The steps of a run

The machine that runs a procedure (`Rules.drive`) takes one step after the other.  After each it
**stands** at a moment: at a question that is about to be taken up, or at an answer that is about to be
handed back.  It is from moment to moment that things change.

A question comes up at one moment, and its rule may begin at another one, because something is done
before the rule has its turn.  If every rule goes on from where it begins as `le` allows, whatever it is
answered (`Rules.GoesBy`), then so does the machine: each step leads as `le` allows from where it began
to where it ends (`Rules.GoesBy.step`).  This is the form for facts about what happens in a run and in
which order, where the contracts of `Lox.Proofs.Plan.Course` are about a question and its answer.
-/

namespace Lox

variable {Kind : Type} {Question Answer : Kind → Type} {kind outer : Kind} {S : Type}

/-! ## Where a run stands -/

section Moment

variable (before : (kind : Kind) → Question kind → S) (after : (kind : Kind) → Answer kind → S)

/-- The moment at which a rule ends. -/
def Next.moment : Next Question Answer kind → S
  | .answer r => after kind r
  | .become q => before kind q

/-- The moment at which a plan stands. -/
def Plan.moment : Plan Question Answer (Next Question Answer kind) → S
  | .ask q _ => before _ q
  | .done next => next.moment before after

/-- The moment at which a run stands. -/
def Progress.moment : Progress Question Answer outer → S
  | .finished r => after outer r
  | .paused plan _ => plan.moment before after

end Moment

namespace Progress

/-- The question that is taken up by the next step, unless an answer is handed back. -/
def upcoming : Progress Question Answer outer → Option (Sigma Question)
  | .paused (.ask q _) _ => some ⟨_, q⟩
  | .paused (.done (.become q)) _ => some ⟨_, q⟩
  | .paused (.done (.answer _)) _ => none
  | .finished _ => none

theorem eq_finished_of_answer? {reached : Progress Question Answer outer} {r : Answer outer}
    (h : reached.answer? = some r) : reached = .finished r := by
  cases reached with
  | finished _ =>
    cases h
    rfl
  | paused _ _ => cases h

/-- Go on for so many more steps. -/
def onward (rules : Rules Question Answer) (fuel : Nat) :
    Progress Question Answer outer → Progress Question Answer outer
  | .finished r => .finished r
  | .paused plan waiting => rules.drive fuel plan waiting

end Progress

namespace Rules

variable (rules : Rules Question Answer)

/-- How far the run for a question has come after so many steps. -/
def progress (q : Question outer) (n : Nat) : Progress Question Answer outer :=
  rules.drive n (rules outer q) .nothing

theorem drive_add (n m : Nat) (plan : Plan Question Answer (Next Question Answer kind))
    (waiting : Waiting Question Answer outer kind) :
    rules.drive (n + m) plan waiting = (rules.drive n plan waiting).onward rules m := by
  induction n generalizing kind with
  | zero =>
    rw [Nat.zero_add]
    match plan, waiting with
    | .done (.answer r), .nothing => cases m <;> rfl
    | .done (.answer _), .plan _ _ => rfl
    | .done (.become _), _ => rfl
    | .ask _ _, _ => rfl
  | succ n ih =>
    rw [Nat.succ_add]
    match plan, waiting with
    | .done (.answer r), .nothing => rfl
    | .done (.answer r), .plan next rest => exact ih (next r) rest
    | .done (.become q), waiting => exact ih (rules _ q) waiting
    | .ask q next, waiting => exact ih (rules _ q) (.plan next waiting)

theorem progress_succ (q : Question outer) (n : Nat) :
    rules.progress q (n + 1) = (rules.progress q n).onward rules 1 :=
  rules.drive_add n 1 _ _

end Rules

/-! ## How a run goes on -/

section GoesBy

variable (before begins : (kind : Kind) → Question kind → S) (after : (kind : Kind) → Answer kind → S)
  (le : S → S → Prop)

/-- The plan goes on as `le` allows, from `s` and then from every answer, whatever it is. -/
abbrev Plan.GoesBy (s : S) (plan : Plan Question Answer (Next Question Answer kind)) : Prop :=
  plan.Proceeds after (fun s kind q => le s (before kind q)) (fun _ _ _ => True)
    (fun s next => le s (next.moment before after)) s

/-- Every rule goes on as `le` allows, from where it begins. -/
def Rules.GoesBy (rules : Rules Question Answer) : Prop :=
  ∀ kind (q : Question kind), (rules kind q).GoesBy before after le (begins kind q)

/-- The plans that wait go on as `le` allows from whatever they are answered. -/
def Waiting.GoBy : {kind : Kind} → Waiting Question Answer outer kind → Prop
  | _, .nothing => True
  | kind, .plan next rest => (∀ r, (next r).GoesBy before after le (after kind r)) ∧ rest.GoBy

/-- What is left of a run goes on as `le` allows. -/
def Progress.GoesBy : Progress Question Answer outer → Prop
  | .finished _ => True
  | .paused plan waiting => (∃ s, plan.GoesBy before after le s) ∧ waiting.GoBy before after le

end GoesBy

section GoesBy

variable {before begins : (kind : Kind) → Question kind → S} {after : (kind : Kind) → Answer kind → S}
  {le : S → S → Prop} {rules : Rules Question Answer} {s : S}
  {plan : Plan Question Answer (Next Question Answer kind)}
  {waiting : Waiting Question Answer outer kind} {reached : Progress Question Answer outer}

theorem Plan.GoesBy.le_moment (h : plan.GoesBy before after le s) :
    le s (plan.moment before after) := by
  cases plan with
  | done next => exact h
  | ask q next => exact h.1

theorem Rules.moment_drive_zero :
    (rules.drive 0 plan waiting).moment before after = plan.moment before after := by
  match plan, waiting with
  | .done (.answer _), .nothing => rfl
  | .done (.answer _), .plan _ _ => rfl
  | .done (.become _), _ => rfl
  | .ask _ _, _ => rfl

theorem Plan.GoesBy.drive_zero (h : plan.GoesBy before after le s)
    (h' : waiting.GoBy before after le) : (rules.drive 0 plan waiting).GoesBy before after le := by
  match plan, waiting with
  | .done (.answer _), .nothing => trivial
  | .done (.answer _), .plan _ _ => exact ⟨⟨s, h⟩, h'⟩
  | .done (.become _), _ => exact ⟨⟨s, h⟩, h'⟩
  | .ask _ _, _ => exact ⟨⟨s, h⟩, h'⟩

/-- Where a question comes up, the run stands there. -/
theorem Progress.moment_of_upcoming {q : Sigma Question} (upcoming : reached.upcoming = some q) :
    reached.moment before after = before q.1 q.2 := by
  match reached with
  | .paused (.ask _ _) _ => cases upcoming; rfl
  | .paused (.done (.become _)) _ => cases upcoming; rfl

/-- A question is taken up by its rule. -/
theorem Progress.moment_onward_of_upcoming {q : Sigma Question}
    (upcoming : reached.upcoming = some q) :
    (reached.onward rules 1).moment before after = (rules q.1 q.2).moment before after := by
  match reached with
  | .paused (.ask _ _) _ => cases upcoming; exact Rules.moment_drive_zero
  | .paused (.done (.become _)) _ => cases upcoming; exact Rules.moment_drive_zero

/-- An answer is handed back, and from there it goes on. -/
theorem Progress.GoesBy.le_moment_onward (refl : ∀ s, le s s)
    (h : reached.GoesBy before after le) (upcoming : reached.upcoming = none) :
    le (reached.moment before after) ((reached.onward rules 1).moment before after) := by
  match reached with
  | .finished _ => exact refl _
  | .paused (.done (.answer _)) .nothing => exact refl _
  | .paused (.done (.answer r)) (.plan next rest) =>
    change le _ ((rules.drive 0 (next r) rest).moment before after)
    rw [Rules.moment_drive_zero]
    exact (h.2.1 r).le_moment
  | .paused (.done (.become _)) _ => cases upcoming
  | .paused (.ask _ _) _ => cases upcoming

theorem Rules.GoesBy.onward (goes : rules.GoesBy before begins after le)
    (h : reached.GoesBy before after le) : (reached.onward rules 1).GoesBy before after le := by
  match reached with
  | .finished _ => trivial
  | .paused (.done (.answer _)) .nothing => trivial
  | .paused (.done (.answer r)) (.plan next rest) => exact (h.2.1 r).drive_zero h.2.2
  | .paused (.done (.become q)) waiting => exact (goes _ q).drive_zero h.2
  | .paused (.ask q next) waiting =>
    -- The plan that asks has to wait, and it goes on from whatever it will be answered.
    obtain ⟨⟨s, asks⟩, waits⟩ := h
    exact (goes _ q).drive_zero ⟨fun r => asks.2 r trivial, waits⟩

/-- Whatever a run has come to, it goes on as `le` allows. -/
theorem Rules.GoesBy.progress (goes : rules.GoesBy before begins after le) (q : Question outer)
    (n : Nat) : (rules.progress q n).GoesBy before after le := by
  induction n with
  | zero => exact (goes _ q).drive_zero trivial
  | succ n ih =>
    rw [rules.progress_succ]
    exact goes.onward ih

/-- **Each step goes on as `le` allows**: from where the rule begins if a question is taken up, and from
where the run stands if an answer is handed back. -/
theorem Rules.GoesBy.step (goes : rules.GoesBy before begins after le) (refl : ∀ s, le s s)
    (q : Question outer) (n : Nat) :
    le (match (rules.progress q n).upcoming with
        | some q' => begins q'.1 q'.2
        | none => (rules.progress q n).moment before after)
      ((rules.progress q (n + 1)).moment before after) := by
  rw [rules.progress_succ]
  split
  · rename_i q' upcoming
    rw [Progress.moment_onward_of_upcoming upcoming]
    exact (goes q'.1 q'.2).le_moment
  · rename_i upcoming
    exact (goes.progress q n).le_moment_onward refl upcoming

end GoesBy

end Lox
