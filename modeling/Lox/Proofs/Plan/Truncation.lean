import Lox.Proofs.Plan.Course

/-!
# Runs that are cut short

Two runs of one procedure may differ in a limit that nothing depends on but whether the run goes on.
Then the run with the narrower limit does the same as the other one for as long as it lasts, and when it
meets its limit it **halts**: it comes to a stop that every rule passes on.

`Plan.Truncated` compares what the rule for a question does in the two runs, `Rules.Cut` says that an
answer is a stop that was passed on from a moment of the freer run.  An answer in the narrower run is the
answer in the freer one, or else it is cut (`Rules.Answers.same_or_cut`); and if there is an answer in the
freer run, there is one in the narrower run, too (`Rules.Answers.exists_narrow`).
-/

namespace Lox

variable {Kind : Type} {Question Answer : Kind → Type}

/-- A limit that may be loosened: what becomes of questions and answers if it is. -/
structure Loosening (Question Answer : Kind → Type) where
  question : {kind : Kind} → Question kind → Question kind
  answer : {kind : Kind} → Answer kind → Answer kind
  /-- The one answer is a stop, and the other one is what a rule makes of it that passes it on. -/
  Passed : {kind kind' : Kind} → Answer kind → Answer kind' → Prop
  passed_trans : ∀ {kind₁ kind₂ kind₃ : Kind} {r₁ : Answer kind₁} {r₂ : Answer kind₂}
    {r₃ : Answer kind₃}, Passed r₁ r₂ → Passed r₂ r₃ → Passed r₁ r₃
  passed_right : ∀ {kind₁ kind₂ : Kind} {r₁ : Answer kind₁} {r₂ : Answer kind₂},
    Passed r₁ r₂ → Passed r₂ r₂
  /-- The rule for a question meets the limit, and stops with this answer. -/
  Halts : {kind : Kind} → Question kind → Answer kind → Prop
  passed_of_halts : ∀ {kind : Kind} {q : Question kind} {r : Answer kind}, Halts q r → Passed r r

/-- One plan is part of the rule for `q` where there is the limit, and the other plan is what it is
where the limit is looser: it is the same, up to the moment when the limit is met.  A stop is passed on. -/
inductive Plan.Truncated (loosening : Loosening Question Answer) (rules : Rules Question Answer)
    {kind : Kind} (q : Question kind) : Plan Question Answer (Next Question Answer kind) →
    Plan Question Answer (Next Question Answer kind) → Prop
  | answer (r : Answer kind) : Truncated loosening rules q (.done (.answer r))
      (.done (.answer (loosening.answer r)))
  | become (q' : Question kind) : Truncated loosening rules q (.done (.become q'))
      (.done (.become (loosening.question q')))
  | halted {r : Answer kind} (halts : loosening.Halts q r)
      (rest : Plan Question Answer (Next Question Answer kind)) :
      Truncated loosening rules q (.done (.answer r)) rest
  | ask {kind' : Kind} {q' : Question kind'}
      {next next' : Answer kind' → Plan Question Answer (Next Question Answer kind)}
      (same : ∀ r, rules.Answers kind' (loosening.question q') (loosening.answer r) →
        Truncated loosening rules q (next r) (next' (loosening.answer r)))
      (passes : ∀ r, loosening.Passed r r →
        ∃ r', next r = .done (.answer r') ∧ loosening.Passed r r') :
      Truncated loosening rules q (.ask q' next) (.ask (loosening.question q') next')

namespace Rules

variable {loosening : Loosening Question Answer} {rules : Rules Question Answer} {kind : Kind}
  {q : Question kind} {r : Answer kind}

/-- The answer to `q` is a stop that has been passed on from a question that comes up, where the limit
was met. -/
def Cut (loosening : Loosening Question Answer) (rules : Rules Question Answer) {kind : Kind}
    (q : Question kind) (r : Answer kind) : Prop :=
  ∃ (kind' : Kind) (q' : Question kind') (r' : Answer kind'),
    rules.Arises (loosening.question q) (loosening.question q') ∧ loosening.Halts q' r' ∧
      loosening.Passed r' r

theorem Cut.passed (cut : rules.Cut loosening q r) : loosening.Passed r r := by
  obtain ⟨_, _, _, -, -, passed⟩ := cut
  exact loosening.passed_right passed

/-- The rules do the same whatever the limit is, until it is met. -/
def Truncated (loosening : Loosening Question Answer) (rules : Rules Question Answer) : Prop :=
  ∀ kind (q : Question kind),
    (rules kind q).Truncated loosening rules q (rules kind (loosening.question q))

/-- How a rule has ended where there is the limit, when the other one has come as far as `rest`. -/
inductive EndsAlike (loosening : Loosening Question Answer) (rules : Rules Question Answer)
    (q : Question kind) : Next Question Answer kind → Prop
  | answer {r : Answer kind} (ends : (rules kind (loosening.question q)).Reaches rules.Answers
      (.done (.answer (loosening.answer r)))) : EndsAlike loosening rules q (.answer r)
  | become {q' : Question kind} (ends : (rules kind (loosening.question q)).Reaches rules.Answers
      (.done (.become (loosening.question q')))) : EndsAlike loosening rules q (.become q')
  | cut {r : Answer kind} (cut : rules.Cut loosening q r) : EndsAlike loosening rules q (.answer r)

/-- A rule whose questions are answered as they are in the freer run, or else are cut, ends as it does
there, or else it is cut. -/
theorem endsAlike_of_eval {answer? : (kind : Kind) → Question kind → Option (Answer kind)}
    (alike : ∀ kind (q : Question kind) (r : Answer kind), answer? kind q = some r →
      rules.Answers kind (loosening.question q) (loosening.answer r) ∨ rules.Cut loosening q r)
    {plan plan' : Plan Question Answer (Next Question Answer kind)}
    {next : Next Question Answer kind} (truncated : plan.Truncated loosening rules q plan')
    (reaches : (rules kind (loosening.question q)).Reaches rules.Answers plan')
    (evaluated : plan.eval answer? = some next) : EndsAlike loosening rules q next := by
  induction truncated with
  | answer r =>
    cases evaluated
    exact .answer reaches
  | become q' =>
    cases evaluated
    exact .become reaches
  | halted halts rest =>
    cases evaluated
    exact .cut ⟨kind, q, _, .start, halts, loosening.passed_of_halts halts⟩
  | @ask kind' q' next next' same passes ih =>
    rw [Plan.eval] at evaluated
    split at evaluated
    · cases evaluated
    · rename_i r found
      rcases alike _ q' r found with known | cut
      · exact ih r known (reaches.trans (.answer known (.refl _))) evaluated
      · -- The stop is passed on, and nothing else is asked.
        obtain ⟨r', ended, passed⟩ := passes r cut.passed
        rw [ended] at evaluated
        cases evaluated
        obtain ⟨kind₁, q₁, r₁, arises, halts, passed₁⟩ := cut
        have first : rules.Arises (loosening.question q) (loosening.question q') :=
          .asked .start reaches
        exact .cut ⟨kind₁, q₁, r₁, first.trans arises, halts, loosening.passed_trans passed₁ passed⟩

/-- **An answer is the same where the limit is looser, or else it is cut.** -/
theorem Answers.same_or_cut (truncated : rules.Truncated loosening) (known : rules.Answers kind q r) :
    rules.Answers kind (loosening.question q) (loosening.answer r) ∨ rules.Cut loosening q r := by
  obtain ⟨fuel, found⟩ := known
  induction fuel generalizing kind with
  | zero => cases found
  | succ fuel ih =>
    rw [solve_succ, Option.bind_eq_some_iff] at found
    obtain ⟨next, evaluated, settled⟩ := found
    have ends := endsAlike_of_eval (fun _ _ _ found => ih found) (truncated kind q) (.refl _) evaluated
    cases ends with
    | answer ends =>
      cases settled
      exact .inl (answers_of_reaches ends)
    | @become q' ends =>
      rcases ih settled with known | cut
      · exact .inl (answers_of_become ends known)
      · obtain ⟨kind₁, q₁, r₁, arises, halts, passed⟩ := cut
        have first : rules.Arises (loosening.question q) (loosening.question q') :=
          .handedOver .start ends
        exact .inr ⟨kind₁, q₁, r₁, first.trans arises, halts, passed⟩
    | cut cut =>
      cases settled
      exact .inr cut

/-- How a rule gets to its end where there is the limit, when the other one has got to `next`. -/
inductive GetsThere (loosening : Loosening Question Answer) (rules : Rules Question Answer)
    (plan : Plan Question Answer (Next Question Answer kind)) : Next Question Answer kind → Prop
  | answer {r : Answer kind} {next : Next Question Answer kind}
      (ends : plan.Reaches rules.Answers (.done (.answer r))) : GetsThere loosening rules plan next
  | become {q : Question kind} (ends : plan.Reaches rules.Answers (.done (.become q))) :
      GetsThere loosening rules plan (.become (loosening.question q))

theorem getsThere_of_eval {answer? : (kind : Kind) → Question kind → Option (Answer kind)}
    (loose : rules.Truncated loosening)
    (sound : ∀ kind (q : Question kind) (r : Answer kind), answer? kind q = some r →
      rules.Answers kind q r)
    (narrow : ∀ kind (q : Question kind) (r : Answer kind),
      answer? kind (loosening.question q) = some r → ∃ r, rules.Answers kind q r)
    {plan plan' : Plan Question Answer (Next Question Answer kind)}
    {next : Next Question Answer kind} (truncated : plan.Truncated loosening rules q plan')
    (evaluated : plan'.eval answer? = some next) : GetsThere loosening rules plan next := by
  induction truncated with
  | answer r => exact .answer (.refl _)
  | become q' =>
    cases evaluated
    exact .become (.refl _)
  | halted halts rest => exact .answer (.refl _)
  | @ask kind' q' next next' same passes ih =>
    rw [Plan.eval] at evaluated
    split at evaluated
    · cases evaluated
    · rename_i r' found
      obtain ⟨r, known⟩ := narrow _ q' r' found
      rcases known.same_or_cut loose with known' | cut
      · obtain rfl := (sound _ _ _ found).unique known'
        cases ih r known' evaluated with
        | answer ends => exact .answer (.answer known ends)
        | become ends => exact .become (.answer known ends)
      · obtain ⟨r₁, ended, -⟩ := passes r cut.passed
        have ends : (next r).Reaches rules.Answers (.done (.answer r₁)) := ended ▸ .refl _
        exact .answer (.answer known ends)

/-- **A question that is answered where the limit is looser is answered where it is not.** -/
theorem Answers.exists_narrow (truncated : rules.Truncated loosening)
    (known : rules.Answers kind (loosening.question q) r) : ∃ r, rules.Answers kind q r := by
  obtain ⟨fuel, found⟩ := known
  induction fuel generalizing kind with
  | zero => cases found
  | succ fuel ih =>
    rw [solve_succ, Option.bind_eq_some_iff] at found
    obtain ⟨next, evaluated, settled⟩ := found
    have gets := getsThere_of_eval truncated (fun _ _ _ found => ⟨fuel, found⟩)
      (fun _ _ _ found => ih found) (truncated kind q) evaluated
    cases gets with
    | answer ends => exact ⟨_, answers_of_reaches ends⟩
    | become ends =>
      obtain ⟨r, known⟩ := ih settled
      exact ⟨r, answers_of_become ends known⟩

end Rules

end Lox
