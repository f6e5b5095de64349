import Lox.Plan.Run

/-!
# Questions that come up, and plans in step

`Rules.Arises` says of which questions an answer is sought while one question is answered, whether or
not the answer is ever found.  A contract is kept by every question that arises
(`Arises.asked`), so that a property of questions is one of every moment of a run, also of a run that
does not end.

Two plans are **in step** (`Plan.InStep`) if they ask related questions at the same time and, given
related answers, go on in step to related ends.  Procedures whose rules are in step have answers to
related questions at the same fuel, and they are related (`Rules.solve_inStep`); and whatever question
arises in the one, a related question arises in the other (`Arises.inStep`).  What the ones come to
**corresponds** to what the others come to (`Plan.InStep.corresponds`): there is something related on the
other side, on either side.
-/

namespace Lox

variable {Kind : Type} {Question Answer : Kind → Type} {α β : Type}

namespace Plan

/-- What can be left of a plan after some of its questions are answered. -/
inductive Reaches (Answers : (kind : Kind) → Question kind → Answer kind → Prop) :
    Plan Question Answer α → Plan Question Answer α → Prop
  | refl (plan : Plan Question Answer α) : Reaches Answers plan plan
  | answer {kind : Kind} {q : Question kind} {next : Answer kind → Plan Question Answer α}
      {r : Answer kind} {left : Plan Question Answer α} (known : Answers kind q r)
      (rest : Reaches Answers (next r) left) : Reaches Answers (.ask q next) left

/-- The plan comes to ask a question when it has been given these answers, the first one first. -/
inductive Waits (Answers : (kind : Kind) → Question kind → Answer kind → Prop) :
    Plan Question Answer α → List (Sigma Answer) → {kind : Kind} → Question kind → Prop
  | here {kind : Kind} {q : Question kind} {next : Answer kind → Plan Question Answer α} :
      Waits Answers (.ask q next) [] q
  | later {kind kind' : Kind} {q : Question kind} {q' : Question kind'}
      {next : Answer kind → Plan Question Answer α} {r : Answer kind}
      {given : List (Sigma Answer)} (known : Answers kind q r)
      (rest : Waits Answers (next r) given q') : Waits Answers (.ask q next) (⟨kind, r⟩ :: given) q'

/-- The plan comes to an end when it has been given these answers, the first one first. -/
inductive Comes (Answers : (kind : Kind) → Question kind → Answer kind → Prop) :
    Plan Question Answer α → List (Sigma Answer) → α → Prop
  | done (a : α) : Comes Answers (.done a) [] a
  | answer {kind : Kind} {q : Question kind} {next : Answer kind → Plan Question Answer α}
      {r : Answer kind} {given : List (Sigma Answer)} {a : α} (known : Answers kind q r)
      (rest : Comes Answers (next r) given a) : Comes Answers (.ask q next) (⟨kind, r⟩ :: given) a

section

variable {Answers Answers' : (kind : Kind) → Question kind → Answer kind → Prop}
  {plan : Plan Question Answer α} {given : List (Sigma Answer)} {kind : Kind} {q : Question kind}

theorem Waits.reaches (h : plan.Waits Answers given q) :
    ∃ next, plan.Reaches Answers (.ask q next) := by
  induction h with
  | here => exact ⟨_, .refl _⟩
  | later known _ ih =>
    obtain ⟨next, reaches⟩ := ih
    exact ⟨next, .answer known reaches⟩

theorem Reaches.waits {next : Answer kind → Plan Question Answer α}
    (h : plan.Reaches Answers (.ask q next)) : ∃ given, plan.Waits Answers given q := by
  generalize same : Plan.ask q next = left at h
  induction h with
  | refl plan =>
    subst same
    exact ⟨[], .here⟩
  | answer known _ ih =>
    obtain ⟨given, waits⟩ := ih same
    exact ⟨_, .later known waits⟩

/-- A plan that goes on with another one waits in either of them. -/
theorem Waits.of_bind {after : α → Plan Question Answer β}
    (h : (plan >>= after).Waits Answers given q) : plan.Waits Answers given q ∨
      ∃ a before rest, plan.Comes Answers before a ∧ (after a).Waits Answers rest q ∧
        given = before ++ rest := by
  induction plan generalizing given with
  | done a => exact .inr ⟨a, [], given, .done a, h, rfl⟩
  | ask question next ih =>
    cases h with
    | here => exact .inl .here
    | later known rest =>
      rcases ih _ rest with waits | ⟨a, before, rest, comes, waits, rfl⟩
      · exact .inl (.later known waits)
      · exact .inr ⟨a, _, _, .answer known comes, waits, rfl⟩

theorem Comes.of_bind {after : α → Plan Question Answer β} {b : β}
    (h : (plan >>= after).Comes Answers given b) :
    ∃ a before rest, plan.Comes Answers before a ∧ (after a).Comes Answers rest b ∧
      given = before ++ rest := by
  induction plan generalizing given with
  | done a => exact ⟨a, [], given, .done a, h, rfl⟩
  | ask question next ih =>
    cases h with
    | answer known rest =>
      obtain ⟨a, before, rest, comes, comes', rfl⟩ := ih _ rest
      exact ⟨a, _, _, .answer known comes, comes', rfl⟩

end

end Plan

namespace Rules

variable (rules : Rules Question Answer)

/-- The answer to a question is found at last. -/
def Answers (kind : Kind) (q : Question kind) (r : Answer kind) : Prop :=
  ∃ fuel, rules.solve fuel kind q = some r

variable {rules} in
theorem Answers.unique {kind : Kind} {q : Question kind} {r r' : Answer kind}
    (h : rules.Answers kind q r) (h' : rules.Answers kind q r') : r = r' := by
  obtain ⟨fuel, found⟩ := h
  obtain ⟨fuel', found'⟩ := h'
  have found := rules.solve_mono (Nat.le_max_left fuel fuel') q found
  rw [rules.solve_mono (Nat.le_max_right fuel fuel') q found'] at found
  exact (Option.some.inj found).symm

/-- A plan that gets to its end with the answers to its questions is evaluated with enough fuel. -/
theorem exists_eval_of_reaches {plan : Plan Question Answer α} {a : α}
    (reaches : plan.Reaches rules.Answers (.done a)) : ∃ fuel, plan.eval (rules.solve fuel) = some a := by
  generalize same : Plan.done a = left at reaches
  induction reaches with
  | refl _ =>
    subst same
    exact ⟨0, rfl⟩
  | @answer _ q next r _ known _ ih =>
    obtain ⟨fuel, found⟩ := known
    obtain ⟨fuel', evaluated⟩ := ih same
    refine ⟨max fuel fuel', ?_⟩
    rw [Plan.eval, rules.solve_mono (Nat.le_max_left fuel fuel') q found]
    exact Plan.eval_mono (fun _ q _ => rules.solve_mono (Nat.le_max_right fuel fuel') q) _ evaluated

variable {rules} in
theorem answers_of_reaches {kind : Kind} {q : Question kind} {r : Answer kind}
    (reaches : (rules kind q).Reaches rules.Answers (.done (.answer r))) : rules.Answers kind q r := by
  obtain ⟨fuel, evaluated⟩ := exists_eval_of_reaches rules reaches
  exact ⟨fuel + 1, by rw [solve_succ, evaluated]; rfl⟩

/-- The questions that come up while `q` is answered. -/
inductive Arises {kind : Kind} (q : Question kind) : {kind' : Kind} → Question kind' → Prop
  | start : Arises q q
  /-- The rule for a question that came up asks another one. -/
  | asked {kind₁ kind₂ : Kind} {q₁ : Question kind₁} {q₂ : Question kind₂}
      {next : Answer kind₂ → Plan Question Answer (Next Question Answer kind₁)}
      (before : Arises q q₁) (reaches : (rules _ q₁).Reaches rules.Answers (.ask q₂ next)) :
      Arises q q₂
  /-- The rule for a question that came up hands it over. -/
  | handedOver {kind₁ : Kind} {q₁ q₂ : Question kind₁} (before : Arises q q₁)
      (reaches : (rules _ q₁).Reaches rules.Answers (.done (.become q₂))) : Arises q q₂

section

variable {rules} {kind kind₁ kind₂ : Kind} {q : Question kind} {q₁ : Question kind₁}
  {q₂ : Question kind₂}

theorem Arises.trans (h : rules.Arises q q₁) (h' : rules.Arises q₁ q₂) : rules.Arises q q₂ := by
  induction h' with
  | start => exact h
  | asked _ reaches ih => exact .asked ih reaches
  | handedOver _ reaches ih => exact .handedOver ih reaches

theorem Arises.waits {given : List (Sigma Answer)} (h : rules.Arises q q₁)
    (waits : (rules _ q₁).Waits rules.Answers given q₂) : rules.Arises q q₂ := by
  obtain ⟨next, reaches⟩ := waits.reaches
  exact .asked h reaches

/-- What comes up first: the question itself, or one that its rule asks or hands over to. -/
theorem Arises.first (h : rules.Arises q q₂) :
    (⟨kind₂, q₂⟩ : Sigma Question) = ⟨kind, q⟩ ∨
      (∃ (kind₁ : Kind) (q₁ : Question kind₁) (given : List (Sigma Answer)),
        (rules _ q).Waits rules.Answers given q₁ ∧ rules.Arises q₁ q₂) ∨
      ∃ q₁ : Question kind, (rules _ q).Reaches rules.Answers (.done (.become q₁)) ∧
        rules.Arises q₁ q₂ := by
  induction h with
  | start => exact .inl rfl
  | asked _ reaches ih =>
    rcases ih with same | ⟨_, q₁, given, waits, arises⟩ | ⟨q₁, handed, arises⟩
    · cases same
      obtain ⟨given, waits⟩ := reaches.waits
      exact .inr (.inl ⟨_, _, given, waits, .start⟩)
    · exact .inr (.inl ⟨_, q₁, given, waits, .asked arises reaches⟩)
    · exact .inr (.inr ⟨q₁, handed, .asked arises reaches⟩)
  | handedOver _ reaches ih =>
    rcases ih with same | ⟨_, q₁, given, waits, arises⟩ | ⟨q₁, handed, arises⟩
    · cases same
      exact .inr (.inr ⟨_, reaches, .start⟩)
    · exact .inr (.inl ⟨_, q₁, given, waits, .handedOver arises reaches⟩)
    · exact .inr (.inr ⟨q₁, handed, .handedOver arises reaches⟩)

end

end Rules

/-! ## One procedure -/

section Contract

variable {Asked : (kind : Kind) → Question kind → Prop}
  {Answered : (kind : Kind) → Question kind → Answer kind → Prop}

theorem Plan.Ensures.reaches {Answers : (kind : Kind) → Question kind → Answer kind → Prop}
    (sound : ∀ kind (q : Question kind) (r : Answer kind), Asked kind q → Answers kind q r →
      Answered kind q r)
    {Goal : α → Prop} {plan left : Plan Question Answer α} (reaches : plan.Reaches Answers left)
    (h : plan.Ensures Asked Answered Goal) : left.Ensures Asked Answered Goal := by
  induction reaches with
  | refl _ => exact h
  | answer known _ ih => exact ih (h.2 _ (sound _ _ _ h.1 known))

namespace Rules

variable {rules : Rules Question Answer}

/-- A contract is kept by every question that arises. -/
theorem Arises.asked_of_keeps
    (keeps : ∀ kind (q : Question kind), Asked kind q →
      (rules _ q).Ensures Asked Answered (Settles Asked Answered q))
    {kind kind' : Kind} {q : Question kind} {q' : Question kind'} (arises : rules.Arises q q')
    (asked : Asked kind q) : Asked kind' q' := by
  have sound kind (q : Question kind) (r : Answer kind) (asked : Asked kind q)
      (known : rules.Answers kind q r) : Answered kind q r := by
    obtain ⟨fuel, found⟩ := known
    exact rules.solve_ensures keeps fuel q asked found
  induction arises with
  | start => exact asked
  | asked _ reaches ih => exact (Plan.Ensures.reaches sound reaches (keeps _ _ ih)).1
  | handedOver _ reaches ih => exact (Plan.Ensures.reaches sound reaches (keeps _ _ ih)).1

end Rules

end Contract

/-! ## Two procedures -/

section InStep

variable {Asked : (kind : Kind) → Question kind → Question kind → Prop}
  {Answered : (kind : Kind) → Question kind → Question kind → Answer kind → Answer kind → Prop}

/-- Two plans ask related questions at the same time and come to related ends. -/
inductive Plan.InStep (Asked : (kind : Kind) → Question kind → Question kind → Prop)
    (Answered : (kind : Kind) → Question kind → Question kind → Answer kind → Answer kind → Prop)
    (Goal : α → β → Prop) : Plan Question Answer α → Plan Question Answer β → Prop
  | done {a : α} {b : β} (goal : Goal a b) : InStep Asked Answered Goal (.done a) (.done b)
  | ask {kind : Kind} {q q' : Question kind} {next : Answer kind → Plan Question Answer α}
      {next' : Answer kind → Plan Question Answer β} (asked : Asked kind q q')
      (rest : ∀ r r', Answered kind q q' r r' → InStep Asked Answered Goal (next r) (next' r')) :
      InStep Asked Answered Goal (.ask q next) (.ask q' next')

namespace Plan.InStep

variable {α' β' : Type} {Goal : α → β → Prop} {plan : Plan Question Answer α}
  {plan' : Plan Question Answer β}

theorem bind {After : α' → β' → Prop} {next : α → Plan Question Answer α'}
    {next' : β → Plan Question Answer β'} (h : InStep Asked Answered Goal plan plan')
    (rest : ∀ a b, Goal a b → InStep Asked Answered After (next a) (next' b)) :
    InStep Asked Answered After (plan >>= next) (plan' >>= next') := by
  induction h with
  | done goal => exact rest _ _ goal
  | ask asked _ ih => exact .ask asked ih

theorem mono {Goal' : α → β → Prop} (h : InStep Asked Answered Goal plan plan')
    (goal : ∀ a b, Goal a b → Goal' a b) : InStep Asked Answered Goal' plan plan' := by
  induction h with
  | done h => exact .done (goal _ _ h)
  | ask asked _ ih => exact .ask asked ih

/-- Plans that are in step in each of some ways, one at least, are so in all of them at once. -/
theorem all {ι : Type} (i : ι) {Goal : ι → α → β → Prop}
    (h : ∀ i, InStep Asked Answered (Goal i) plan plan') :
    InStep Asked Answered (fun a b => ∀ i, Goal i a b) plan plan' := by
  induction plan generalizing plan' with
  | done a =>
    cases h i with
    | done _ =>
      refine .done fun j => ?_
      cases h j with
      | done goal => exact goal
  | ask q next ih =>
    cases h i with
    | ask asked _ =>
      refine .ask asked fun r r' answered => ih r fun j => ?_
      cases h j with
      | ask _ rest => exact rest r r' answered

/-- Plans in step whose questions have related answers have related results. -/
theorem eval {answer? answer?' : (kind : Kind) → Question kind → Option (Answer kind)}
    (h : InStep Asked Answered Goal plan plan')
    (related : ∀ kind (q q' : Question kind), Asked kind q q' →
      Option.Rel (Answered kind q q') (answer? kind q) (answer?' kind q')) :
    Option.Rel Goal (plan.eval answer?) (plan'.eval answer?') := by
  induction h with
  | done goal => exact .some goal
  | @ask kind q q' next next' asked _ ih =>
    have answers := related kind q q' asked
    simp only [Plan.eval]
    generalize answer? kind q = found, answer?' kind q' = found' at answers
    cases answers with
    | none => exact .none
    | some known => exact ih _ _ known

/-- Wherever the one plan gets, the other one gets in step with it. -/
theorem reaches {Answers Answers' : (kind : Kind) → Question kind → Answer kind → Prop}
    (related : ∀ kind (q q' : Question kind) (r : Answer kind), Asked kind q q' →
      Answers kind q r → ∃ r', Answers' kind q' r' ∧ Answered kind q q' r r')
    {left : Plan Question Answer α} (reaches : plan.Reaches Answers left)
    (h : InStep Asked Answered Goal plan plan') :
    ∃ left', plan'.Reaches Answers' left' ∧ InStep Asked Answered Goal left left' := by
  induction reaches generalizing plan' with
  | refl plan => exact ⟨plan', .refl plan', h⟩
  | answer known _ ih =>
    cases h with
    | ask asked rest =>
      obtain ⟨r', known', answered⟩ := related _ _ _ _ asked known
      obtain ⟨left', reaches', inStep⟩ := ih (rest _ r' answered)
      exact ⟨left', .answer known' reaches', inStep⟩

/-- What the one plan asks after some answers, the other one asks in step with it. -/
theorem waits {Answers Answers' : (kind : Kind) → Question kind → Answer kind → Prop}
    (related : ∀ kind (q q' : Question kind) (r : Answer kind), Asked kind q q' →
      Answers kind q r → ∃ r', Answers' kind q' r' ∧ Answered kind q q' r r')
    {given : List (Sigma Answer)} {kind : Kind} {q : Question kind}
    (waits : plan.Waits Answers given q) (h : InStep Asked Answered Goal plan plan') :
    ∃ q', Asked kind q q' ∧
      plan.Waits (fun kind q r => ∃ q' r', Answered kind q q' r r') given q := by
  induction waits generalizing plan' with
  | here =>
    cases h with
    | ask asked _ => exact ⟨_, asked, .here⟩
  | later known _ ih =>
    cases h with
    | ask asked rest =>
      obtain ⟨r', known', answered⟩ := related _ _ _ _ asked known
      obtain ⟨q', asked', waits⟩ := ih (rest _ r' answered)
      exact ⟨q', asked', .later ⟨_, r', answered⟩ waits⟩

end Plan.InStep

namespace Rules

/-- How two rules for related questions have to end for the questions to have related answers. -/
inductive SettlesInStep
    (Asked : (kind : Kind) → Question kind → Question kind → Prop)
    (Answered : (kind : Kind) → Question kind → Question kind → Answer kind → Answer kind → Prop)
    {kind : Kind} (q q' : Question kind) :
    Next Question Answer kind → Next Question Answer kind → Prop
  | answer {r r' : Answer kind} (answered : Answered kind q q' r r') :
      SettlesInStep Asked Answered q q' (.answer r) (.answer r')
  | become {q₁ q₁' : Question kind} (asked : Asked kind q₁ q₁')
      (answered : ∀ r r', Answered kind q₁ q₁' r r' → Answered kind q q' r r') :
      SettlesInStep Asked Answered q q' (.become q₁) (.become q₁')

variable {rules rules' : Rules Question Answer}

/-- Related questions have related answers, and at the same fuel. -/
theorem solve_inStep
    (keeps : ∀ kind (q q' : Question kind), Asked kind q q' →
      (rules _ q).InStep Asked Answered (SettlesInStep Asked Answered q q') (rules' _ q'))
    (fuel : Nat) {kind : Kind} {q q' : Question kind} (asked : Asked kind q q') :
    Option.Rel (Answered kind q q') (rules.solve fuel kind q) (rules'.solve fuel kind q') := by
  induction fuel generalizing kind with
  | zero => exact .none
  | succ fuel ih =>
    have ends := (keeps kind q q' asked).eval fun _ _ _ asked => ih asked
    rw [solve_succ, solve_succ]
    generalize (rules kind q).eval (rules.solve fuel) = next,
      (rules' kind q').eval (rules'.solve fuel) = next' at ends
    cases ends with
    | none => exact .none
    | some settles =>
      cases settles with
      | answer answered => exact .some answered
      | @become q₁ q₁' asked answered =>
        have answers := ih asked
        simp only [Option.bind_some, settle]
        generalize rules.solve fuel kind q₁ = found, rules'.solve fuel kind q₁' = found' at answers
        cases answers with
        | none => exact .none
        | some known => exact .some (answered _ _ known)

theorem Answers.inStep
    (keeps : ∀ kind (q q' : Question kind), Asked kind q q' →
      (rules _ q).InStep Asked Answered (SettlesInStep Asked Answered q q') (rules' _ q'))
    {kind : Kind} {q q' : Question kind} {r : Answer kind} (asked : Asked kind q q')
    (known : rules.Answers kind q r) : ∃ r', rules'.Answers kind q' r' ∧ Answered kind q q' r r' := by
  obtain ⟨fuel, found⟩ := known
  have answers := solve_inStep keeps fuel asked
  rw [found] at answers
  generalize found' : rules'.solve fuel kind q' = answer at answers
  cases answers with
  | some answered => exact ⟨_, ⟨fuel, found'⟩, answered⟩

theorem Answers.inStep_symm
    (keeps : ∀ kind (q q' : Question kind), Asked kind q q' →
      (rules _ q).InStep Asked Answered (SettlesInStep Asked Answered q q') (rules' _ q'))
    {kind : Kind} {q q' : Question kind} {r' : Answer kind} (asked : Asked kind q q')
    (known : rules'.Answers kind q' r') : ∃ r, rules.Answers kind q r ∧ Answered kind q q' r r' := by
  obtain ⟨fuel, found'⟩ := known
  have answers := solve_inStep keeps fuel asked
  rw [found'] at answers
  generalize found : rules.solve fuel kind q = answer at answers
  cases answers with
  | some answered => exact ⟨_, ⟨fuel, found⟩, answered⟩

/-- For every question that arises in the one procedure, a related one arises in the other. -/
theorem Arises.inStep
    (keeps : ∀ kind (q q' : Question kind), Asked kind q q' →
      (rules _ q).InStep Asked Answered (SettlesInStep Asked Answered q q') (rules' _ q'))
    {kind kind₁ : Kind} {q q' : Question kind} {q₁ : Question kind₁} (arises : rules.Arises q q₁)
    (asked : Asked kind q q') : ∃ q₁', rules'.Arises q' q₁' ∧ Asked kind₁ q₁ q₁' := by
  induction arises with
  | start => exact ⟨q', .start, asked⟩
  | asked _ reaches ih =>
    obtain ⟨q₁', before, asked⟩ := ih
    obtain ⟨left, reaches', inStep⟩ :=
      (keeps _ _ _ asked).reaches (fun _ _ _ _ asked known => known.inStep keeps asked) reaches
    cases inStep with
    | ask asked _ => exact ⟨_, .asked before reaches', asked⟩
  | handedOver _ reaches ih =>
    obtain ⟨q₁', before, asked⟩ := ih
    obtain ⟨left, reaches', inStep⟩ :=
      (keeps _ _ _ asked).reaches (fun _ _ _ _ asked known => known.inStep keeps asked) reaches
    cases inStep with
    | done settles =>
      cases settles with
      | become asked _ => exact ⟨_, .handedOver before reaches', asked⟩

/-- How two rules have to end for the answers to their questions to be as `Good` says. -/
inductive EndsInStep
    (Asked : (kind : Kind) → Question kind → Question kind → Prop)
    (Answered : (kind : Kind) → Question kind → Question kind → Answer kind → Answer kind → Prop)
    {kind : Kind} (Good : Answer kind → Answer kind → Prop) :
    Next Question Answer kind → Next Question Answer kind → Prop
  | answer {r r' : Answer kind} (good : Good r r') :
      EndsInStep Asked Answered Good (.answer r) (.answer r')
  | become {q₁ q₁' : Question kind} (asked : Asked kind q₁ q₁')
      (good : ∀ r r', Answered kind q₁ q₁' r r' → Good r r') :
      EndsInStep Asked Answered Good (.become q₁) (.become q₁')

/-- A contract that speaks of something besides the questions is kept if it is kept whatever that may
be: the questions are related in one way at least, and the answers are in each of these ways. -/
theorem keeps_of_each {ι : Type} {AskedAt : ι → (kind : Kind) → Question kind → Question kind → Prop}
    {AnsweredAt : ι → (kind : Kind) → Question kind → Question kind → Answer kind → Answer kind → Prop}
    (each : ∀ i kind (q q' : Question kind), AskedAt i kind q q' →
      (rules _ q).InStep (fun kind q q' => ∃ i, AskedAt i kind q q')
        (fun kind q q' r r' => ∀ i, AskedAt i kind q q' → AnsweredAt i kind q q' r r')
        (EndsInStep (fun kind q q' => ∃ i, AskedAt i kind q q')
          (fun kind q q' r r' => ∀ i, AskedAt i kind q q' → AnsweredAt i kind q q' r r')
          (AnsweredAt i kind q q')) (rules' _ q'))
    (kind : Kind) (q q' : Question kind) (asked : ∃ i, AskedAt i kind q q') :
    (rules _ q).InStep (fun kind q q' => ∃ i, AskedAt i kind q q')
      (fun kind q q' r r' => ∀ i, AskedAt i kind q q' → AnsweredAt i kind q q' r r')
      (SettlesInStep (fun kind q q' => ∃ i, AskedAt i kind q q')
        (fun kind q q' r r' => ∀ i, AskedAt i kind q q' → AnsweredAt i kind q q' r r') q q')
      (rules' _ q') := by
  obtain ⟨i, asked⟩ := asked
  -- The answers are related in every way that the questions are, so all the ways are walked at once.
  let ways := { i : ι // AskedAt i kind q q' }
  have way : ways := ⟨i, asked⟩
  refine (Plan.InStep.all way fun j : ways => each j.1 kind q q' j.2).mono fun next next' ends => ?_
  cases ends way with
  | answer _ =>
    refine .answer fun j asked => ?_
    cases ends ⟨j, asked⟩ with
    | answer good => exact good
  | become asked _ =>
    refine .become asked fun r r' answered j asked => ?_
    cases ends ⟨j, asked⟩ with
    | become _ good => exact good r r' answered

end Rules

end InStep

/-! ## Correspondence -/

/-- Whatever meets the one condition is related to something that meets the other one, and the other way
round. -/
structure Corresponds {α β : Type} (E : α → β → Prop) (P : α → Prop) (P' : β → Prop) : Prop where
  forth : ∀ {a : α}, P a → ∃ b, P' b ∧ E a b
  back : ∀ {b : β}, P' b → ∃ a, P a ∧ E a b

namespace Corresponds

variable {γ : Type} {E : α → β → Prop} {P : α → Prop} {P' : β → Prop}

theorem mono {E' : α → β → Prop} (h : Corresponds E P P') (imp : ∀ a b, E a b → E' a b) :
    Corresponds E' P P' where
  forth meets :=
    have ⟨b, meets', related⟩ := h.forth meets
    ⟨b, meets', imp _ _ related⟩
  back meets' :=
    have ⟨a, meets, related⟩ := h.back meets'
    ⟨a, meets, imp _ _ related⟩

theorem symm (h : Corresponds E P P') : Corresponds (fun b a => E a b) P' P := ⟨h.back, h.forth⟩

theorem trans {E' : β → γ → Prop} {P'' : γ → Prop} (h : Corresponds E P P')
    (h' : Corresponds E' P' P'') : Corresponds (fun a c => ∃ b, E a b ∧ E' b c) P P'' where
  forth meets :=
    have ⟨b, meets', related⟩ := h.forth meets
    have ⟨c, meets'', related'⟩ := h'.forth meets'
    ⟨c, meets'', b, related, related'⟩
  back meets'' :=
    have ⟨b, meets', related'⟩ := h'.back meets''
    have ⟨a, meets, related⟩ := h.back meets'
    ⟨a, meets, b, related, related'⟩

end Corresponds

section InStep

variable {Asked : (kind : Kind) → Question kind → Question kind → Prop}
  {Answered : (kind : Kind) → Question kind → Question kind → Answer kind → Answer kind → Prop}
  {rules rules' : Rules Question Answer}

/-- What related questions come to corresponds, as the answers do. -/
theorem Rules.corresponds
    (keeps : ∀ kind (q q' : Question kind), Asked kind q q' →
      (rules _ q).InStep Asked Answered (SettlesInStep Asked Answered q q') (rules' _ q'))
    {kind : Kind} {q q' : Question kind} (asked : Asked kind q q') :
    Corresponds (Answered kind q q') (rules.Answers kind q) (rules'.Answers kind q') :=
  ⟨fun known => known.inStep keeps asked, fun known => known.inStep_symm keeps asked⟩

/-- **What plans in step come to corresponds.** -/
theorem Plan.InStep.corresponds
    (keeps : ∀ kind (q q' : Question kind), Asked kind q q' →
      (rules _ q).InStep Asked Answered (Rules.SettlesInStep Asked Answered q q') (rules' _ q'))
    {Goal : α → β → Prop} {plan : Plan Question Answer α} {plan' : Plan Question Answer β}
    (h : InStep Asked Answered Goal plan plan') :
    Corresponds Goal (fun a => plan.Reaches rules.Answers (.done a))
      (fun b => plan'.Reaches rules'.Answers (.done b)) := by
  induction h with
  | @done a b goal =>
    refine ⟨fun ends => ?_, fun ends => ?_⟩
    · cases ends
      exact ⟨b, .refl _, goal⟩
    · cases ends
      exact ⟨a, .refl _, goal⟩
  | ask asked _ ih =>
    refine ⟨fun ends => ?_, fun ends => ?_⟩
    · cases ends with
      | answer known rest =>
        obtain ⟨r', known', answered⟩ := known.inStep keeps asked
        obtain ⟨b, ends, goal⟩ := (ih _ r' answered).forth rest
        exact ⟨b, .answer known' ends, goal⟩
    · cases ends with
      | answer known' rest =>
        obtain ⟨r, known, answered⟩ := known'.inStep_symm keeps asked
        obtain ⟨a, ends, goal⟩ := (ih r _ answered).back rest
        exact ⟨a, .answer known ends, goal⟩

end InStep

end Lox
