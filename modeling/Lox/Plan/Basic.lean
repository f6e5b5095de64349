/-!
# Plans

A **plan** is a computation that may stop to ask a question and that goes on with the answer.
Nothing in it says how questions are answered, so a recursive procedure can be written as a
family of plans, one for each question (`Rules`): what would be a recursive call is a question.
The procedure itself is then a plain, non-recursive definition, and how it is run (`Lox.Plan.Run`)
is settled once, for every procedure of the library.

Questions come in kinds, and the kind of a question fixes the type of its answer.  A rule ends
either with its answer or by handing its question over to another one of the same kind (`Next`),
which is what a loop does to go round again.

`Plan.Ensures` is the rule of proof: a statement about what a plan does, given only what is asked
of the questions and what is known of their answers.
-/

namespace Lox

/-- A computation of an `α` that asks questions along the way. -/
inductive Plan {Kind : Type} (Question Answer : Kind → Type) (α : Type) : Type where
  /-- Nothing is left to ask. -/
  | done (result : α)
  /-- Ask `question`, and go on as `next` says once the answer is known. -/
  | ask {kind : Kind} (question : Question kind) (next : Answer kind → Plan Question Answer α)

/-- How a rule for a question ends. -/
inductive Next {Kind : Type} (Question Answer : Kind → Type) (kind : Kind) : Type where
  /-- The question is answered. -/
  | answer (answer : Answer kind)
  /-- The answer is whatever the answer to `question` is. -/
  | become (question : Question kind)

/-- A procedure: one plan for every question. -/
abbrev Rules {Kind : Type} (Question Answer : Kind → Type) : Type :=
  (kind : Kind) → Question kind → Plan Question Answer (Next Question Answer kind)

namespace Plan

variable {Kind : Type} {Question Answer : Kind → Type} {α β γ : Type}

/-- Carry on with `after` once the plan is done. -/
def bind (plan : Plan Question Answer α) (after : α → Plan Question Answer β) :
    Plan Question Answer β :=
  match plan with
  | .done result => after result
  | .ask question next => .ask question fun answer => (next answer).bind after

instance : Monad (Plan Question Answer) where
  pure := .done
  bind := bind

@[simp] theorem pure_eq_done (result : α) :
    (pure result : Plan Question Answer α) = .done result := rfl

@[simp] theorem done_bind (result : α) (after : α → Plan Question Answer β) :
    (Plan.done result : Plan Question Answer α) >>= after = after result := rfl

@[simp] theorem ask_bind {kind : Kind} (question : Question kind)
    (next : Answer kind → Plan Question Answer α) (after : α → Plan Question Answer β) :
    Plan.ask question next >>= after = .ask question fun answer => next answer >>= after := rfl

theorem bind_done (plan : Plan Question Answer α) : plan >>= Plan.done = plan := by
  induction plan with
  | done result => rfl
  | ask question next ih => simp [ih]

theorem bind_assoc (plan : Plan Question Answer α) (f : α → Plan Question Answer β)
    (g : β → Plan Question Answer γ) : plan >>= f >>= g = plan >>= fun a => f a >>= g := by
  induction plan with
  | done result => rfl
  | ask question next ih => simp [ih]

theorem map_eq_bind (f : α → β) (plan : Plan Question Answer α) :
    f <$> plan = plan >>= fun a => .done (f a) := rfl

instance : LawfulMonad (Plan Question Answer) :=
  LawfulMonad.mk' _ bind_done (fun _ _ => rfl) bind_assoc

/-! ## What a plan ensures -/

/-- Whatever the plan does, each question it asks meets `Asked`, and its result meets `Goal`,
provided that every answer meets `Answered`. -/
def Ensures (Asked : (kind : Kind) → Question kind → Prop)
    (Answered : (kind : Kind) → Question kind → Answer kind → Prop) (Goal : α → Prop) :
    Plan Question Answer α → Prop
  | .done result => Goal result
  | .ask question next =>
      Asked _ question ∧
        ∀ answer, Answered _ question answer → (next answer).Ensures Asked Answered Goal

section Ensures

variable {Asked Asked' : (kind : Kind) → Question kind → Prop}
  {Answered : (kind : Kind) → Question kind → Answer kind → Prop} {Goal Goal' : α → Prop}

theorem Ensures.bind {Goal : α → Prop} {After : β → Prop} {plan : Plan Question Answer α}
    {after : α → Plan Question Answer β} (h : plan.Ensures Asked Answered Goal)
    (next : ∀ a, Goal a → (after a).Ensures Asked Answered After) :
    (plan >>= after).Ensures Asked Answered After := by
  induction plan with
  | done result => exact next _ h
  | ask question rest ih => exact ⟨h.1, fun answer known => ih answer (h.2 answer known)⟩

theorem Ensures.mono {plan : Plan Question Answer α} (h : plan.Ensures Asked Answered Goal)
    (asked : ∀ kind (question : Question kind), Asked kind question → Asked' kind question)
    (goal : ∀ a, Goal a → Goal' a) : plan.Ensures Asked' Answered Goal' := by
  induction plan with
  | done result => exact goal _ h
  | ask question rest ih =>
    exact ⟨asked _ _ h.1, fun answer known => ih answer (h.2 answer known)⟩

end Ensures

end Plan

end Lox
