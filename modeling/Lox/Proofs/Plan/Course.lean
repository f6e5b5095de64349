import Lox.Proofs.Plan.Lockstep

/-!
# The course of a run

What a plan asks may depend on how far things have come, that is, on what the last answer left behind.
A plan **proceeds** (`Plan.Proceeds`) if each of its questions and its end are as they should be after
the answer before.  It is the form for facts about time: that something only ever grows, from any
moment of a run to any later one.

If a question is answered, then so is every question that comes up on the way, and each of them before
the plan that asked it goes on (`Rules.Arises.exists_answer`).  Conversely, a question is answered if
what comes up on the way gets smaller and smaller (`Rules.exists_answer`).

A rule may keep a contract only because of how its question came up.  It is enough that it does so for
the questions that do come up (`Rules.kept_along`).  In the same way two procedures are the same for a
question if they agree on what comes up (`Rules.AgreeAlong`).
-/

namespace Lox

variable {Kind : Type} {Question Answer : Kind → Type} {α β : Type}

namespace Plan

/-- Each question that the plan asks meets `Asked`, and its result meets `Goal`, where both may depend
on what the last answer left behind, as `left` has it; before the first answer, that is `s`. -/
def Proceeds {S : Type} (left : (kind : Kind) → Answer kind → S)
    (Asked : S → (kind : Kind) → Question kind → Prop)
    (Answered : (kind : Kind) → Question kind → Answer kind → Prop) (Goal : S → α → Prop) :
    S → Plan Question Answer α → Prop
  | s, .done result => Goal s result
  | s, .ask question next =>
      Asked s _ question ∧ ∀ answer, Answered _ question answer →
        (next answer).Proceeds left Asked Answered Goal (left _ answer)

section Proceeds

variable {S : Type} {left : (kind : Kind) → Answer kind → S}
  {Asked Asked' : S → (kind : Kind) → Question kind → Prop}
  {Answered : (kind : Kind) → Question kind → Answer kind → Prop} {Goal : S → α → Prop}
  {plan rest : Plan Question Answer α} {s : S}

theorem Proceeds.bind {After : S → β → Prop} {after : α → Plan Question Answer β}
    (h : plan.Proceeds left Asked Answered Goal s)
    (next : ∀ s a, Goal s a → (after a).Proceeds left Asked Answered After s) :
    (plan >>= after).Proceeds left Asked Answered After s := by
  induction plan generalizing s with
  | done result => exact next s _ h
  | ask question rest ih => exact ⟨h.1, fun answer known => ih answer (h.2 answer known)⟩

theorem Proceeds.mono {Goal' : S → α → Prop} (h : plan.Proceeds left Asked Answered Goal s)
    (asked : ∀ s kind (question : Question kind), Asked s kind question → Asked' s kind question)
    (goal : ∀ s a, Goal s a → Goal' s a) : plan.Proceeds left Asked' Answered Goal' s := by
  induction plan generalizing s with
  | done result => exact goal s _ h
  | ask question rest ih =>
    exact ⟨asked s _ _ h.1, fun answer known => ih answer (h.2 answer known)⟩

/-- What a plan does at any time, it does. -/
theorem Proceeds.ensures (h : plan.Proceeds left Asked Answered Goal s) :
    plan.Ensures (fun kind question => ∃ s, Asked s kind question) Answered
      fun a => ∃ s, Goal s a := by
  induction plan generalizing s with
  | done result => exact ⟨s, h⟩
  | ask question rest ih =>
    exact ⟨⟨s, h.1⟩, fun answer known => ih answer (h.2 answer known)⟩

/-- What is left of a plan goes on from what the last answer left behind. -/
theorem Proceeds.reaches {Answers : (kind : Kind) → Question kind → Answer kind → Prop}
    (sound : ∀ kind (q : Question kind) (r : Answer kind), Answers kind q r → Answered kind q r)
    (reaches : plan.Reaches Answers rest) (h : plan.Proceeds left Asked Answered Goal s) :
    ∃ s', rest.Proceeds left Asked Answered Goal s' := by
  induction reaches generalizing s with
  | refl _ => exact ⟨s, h⟩
  | answer known _ ih => exact ih (h.2 _ (sound _ _ _ known))

end Proceeds

variable {Answers : (kind : Kind) → Question kind → Answer kind → Prop}
  {plan middle : Plan Question Answer α} {a : α}

theorem Reaches.trans {rest : Plan Question Answer α} (h : plan.Reaches Answers middle)
    (h' : middle.Reaches Answers rest) : plan.Reaches Answers rest := by
  induction h with
  | refl _ => exact h'
  | answer known _ ih => exact .answer known (ih h')

/-- Where answers are unique, whatever is reached is on the way to the end. -/
theorem Reaches.to_end
    (unique : ∀ {kind : Kind} {q : Question kind} {r r' : Answer kind}, Answers kind q r →
      Answers kind q r' → r = r')
    (h : plan.Reaches Answers middle) (ends : plan.Reaches Answers (.done a)) :
    middle.Reaches Answers (.done a) := by
  induction h with
  | refl _ => exact ends
  | answer known _ ih =>
    cases ends with
    | answer known' rest =>
      obtain rfl := unique known known'
      exact ih rest

/-- A plan that goes on with another one gets to its end by way of the end of the first one. -/
theorem Reaches.done_of_bind {after : α → Plan Question Answer β} {b : β}
    (h : (plan >>= after).Reaches Answers (.done b)) :
    ∃ a, plan.Reaches Answers (.done a) ∧ (after a).Reaches Answers (.done b) := by
  induction plan with
  | done a => exact ⟨a, .refl _, h⟩
  | ask q next ih =>
    cases h with
    | answer known rest =>
      obtain ⟨a, reaches, reaches'⟩ := ih _ rest
      exact ⟨a, .answer known reaches, reaches'⟩

end Plan

namespace Rules

variable {rules : Rules Question Answer} {kind kind' : Kind} {q : Question kind} {r : Answer kind}

theorem exists_reaches_of_eval {plan : Plan Question Answer α} {a : α} {fuel : Nat}
    (evaluated : plan.eval (rules.solve fuel) = some a) :
    plan.Reaches rules.Answers (.done a) := by
  induction plan with
  | done result =>
    cases evaluated
    exact .refl _
  | ask question next ih =>
    rw [Plan.eval] at evaluated
    split at evaluated
    · cases evaluated
    · rename_i answer known
      exact .answer ⟨fuel, known⟩ (ih answer evaluated)

/-- A question that is answered has a rule that gets to its end: to the answer, or to a question that
has the same answer. -/
theorem Answers.exists_reaches (known : rules.Answers kind q r) :
    (rules kind q).Reaches rules.Answers (.done (.answer r)) ∨
      ∃ q', (rules kind q).Reaches rules.Answers (.done (.become q')) ∧ rules.Answers kind q' r := by
  obtain ⟨fuel, found⟩ := known
  cases fuel with
  | zero => cases found
  | succ fuel =>
    rw [solve_succ, Option.bind_eq_some_iff] at found
    obtain ⟨next, evaluated, settled⟩ := found
    cases next with
    | answer answer =>
      cases settled
      exact .inl (exists_reaches_of_eval evaluated)
    | become q' => exact .inr ⟨q', exists_reaches_of_eval evaluated, fuel, settled⟩

theorem answers_of_become {q' : Question kind}
    (reaches : (rules kind q).Reaches rules.Answers (.done (.become q')))
    (known : rules.Answers kind q' r) : rules.Answers kind q r := by
  obtain ⟨fuel, evaluated⟩ := exists_eval_of_reaches rules reaches
  obtain ⟨fuel', found⟩ := known
  refine ⟨max fuel fuel' + 1, ?_⟩
  have more kind (question : Question kind) (answer : Answer kind)
      (h : rules.solve fuel kind question = some answer) :=
    rules.solve_mono (Nat.le_max_left fuel fuel') question h
  rw [solve_succ, Plan.eval_mono more _ evaluated]
  exact rules.solve_mono (Nat.le_max_right fuel fuel') q' found

end Rules

/-- What a plan ensures, it ensures of the questions and the end that it gets to. -/
theorem Plan.Ensures.along {Asked : (kind : Kind) → Question kind → Prop}
    {Answers Answered : (kind : Kind) → Question kind → Answer kind → Prop} {Goal : α → Prop}
    {plan : Plan Question Answer α}
    (h : plan.Ensures Asked (fun kind q r => Answers kind q r ∧ Answered kind q r) Goal) :
    plan.Ensures (fun kind q => Asked kind q ∧ ∃ next, plan.Reaches Answers (.ask q next))
      (fun kind q r => Answers kind q r ∧ Answered kind q r)
      fun a => Goal a ∧ plan.Reaches Answers (.done a) := by
  induction plan with
  | done a => exact ⟨h, .refl _⟩
  | ask q next ih =>
    refine ⟨⟨h.1, next, .refl _⟩, fun r known => (ih r (h.2 r known)).mono ?_ ?_⟩
    · rintro kind q' ⟨asked, next', reaches⟩
      exact ⟨asked, next', .answer known.1 reaches⟩
    · rintro a ⟨goal, reaches⟩
      exact ⟨goal, .answer known.1 reaches⟩

/-- A question that is asked is answered before the plan gets to its end. -/
theorem Plan.Reaches.exists_answer {rules : Rules Question Answer} {kind : Kind}
    {q : Question kind} {next : Answer kind → Plan Question Answer α} {plan : Plan Question Answer α}
    {a : α} (asks : plan.Reaches rules.Answers (.ask q next))
    (ends : plan.Reaches rules.Answers (.done a)) :
    ∃ r, rules.Answers kind q r ∧ (next r).Reaches rules.Answers (.done a) := by
  have rest := asks.to_end Rules.Answers.unique ends
  cases rest with
  | answer known rest => exact ⟨_, known, rest⟩

namespace Rules

variable {rules : Rules Question Answer} {kind kind' : Kind} {q : Question kind} {r : Answer kind}
  {q' : Question kind'}

/-- What comes up while a question is answered is answered itself. -/
theorem Arises.exists_answer (arises : rules.Arises q q') (known : rules.Answers kind q r) :
    ∃ r', rules.Answers kind' q' r' := by
  induction arises with
  | start => exact ⟨r, known⟩
  | asked _ reaches ih =>
    obtain ⟨r₁, known₁⟩ := ih
    rcases known₁.exists_reaches with ends | ⟨_, ends, -⟩
    · obtain ⟨r₂, known₂, -⟩ := reaches.exists_answer ends
      exact ⟨r₂, known₂⟩
    · obtain ⟨r₂, known₂, -⟩ := reaches.exists_answer ends
      exact ⟨r₂, known₂⟩
  | handedOver _ reaches ih =>
    obtain ⟨r₁, known₁⟩ := ih
    rcases known₁.exists_reaches with ends | ⟨q₂, ends, known₂⟩
    · cases reaches.to_end Answers.unique ends
    · cases reaches.to_end Answers.unique ends
      exact ⟨r₁, known₂⟩

/-- **What each rule keeps whose question comes up is kept by all that come up**, and by their
answers. -/
theorem kept_along {Before : (kind : Kind) → Question kind → Prop}
    {After : (kind : Kind) → Question kind → Answer kind → Prop}
    (keeps : ∀ {kind₁ : Kind} {q₁ : Question kind₁}, rules.Arises q q₁ → Before kind₁ q₁ →
      (rules kind₁ q₁).Ensures Before (fun kind q r => rules.Answers kind q r ∧ After kind q r)
        (Settles Before After q₁))
    (before : Before kind q) (arises : rules.Arises q q') :
    Before kind' q' ∧ ∀ r', rules.Answers kind' q' r' → After kind' q' r' := by
  have all kind₁ (q₁ : Question kind₁) (asked : rules.Arises q q₁ ∧ Before kind₁ q₁) :
      (rules kind₁ q₁).Ensures (fun kind q₂ => rules.Arises q q₂ ∧ Before kind q₂)
        (fun kind q r => rules.Answers kind q r ∧ After kind q r)
        (Settles (fun kind q₂ => rules.Arises q q₂ ∧ Before kind q₂)
          (fun kind q r => rules.Answers kind q r ∧ After kind q r) q₁) := by
    refine (keeps asked.1 asked.2).along.mono (fun kind q₂ ⟨before, next, reaches⟩ => ?_)
      fun next ⟨settles, reaches⟩ => ?_
    · exact ⟨.asked asked.1 reaches, before⟩
    · cases next with
      | answer r => exact ⟨answers_of_reaches reaches, settles⟩
      | become q₂ =>
        exact ⟨⟨.handedOver asked.1 reaches, settles.1⟩,
          fun r known => ⟨answers_of_become reaches known.1, settles.2 r known.2⟩⟩
  have asked := arises.asked_of_keeps all ⟨.start, before⟩
  refine ⟨asked.2, fun r' known => ?_⟩
  obtain ⟨fuel, found⟩ := known
  exact (rules.solve_ensures all fuel q' asked found).2

/-- **A question is answered if what comes up on the way gets smaller and smaller.** -/
theorem exists_answer {M : Type} {lt : M → M → Prop} (wellFounded : WellFounded lt)
    (measure : (kind : Kind) → Question kind → M)
    (asked : ∀ {kind₁ kind₂ : Kind} {q₁ : Question kind₁} {q₂ : Question kind₂}
      {next : Answer kind₂ → Plan Question Answer (Next Question Answer kind₁)},
      rules.Arises q q₁ → (rules kind₁ q₁).Reaches rules.Answers (.ask q₂ next) →
        lt (measure kind₂ q₂) (measure kind₁ q₁))
    (handedOver : ∀ {kind₁ : Kind} {q₁ q₂ : Question kind₁},
      rules.Arises q q₁ → (rules kind₁ q₁).Reaches rules.Answers (.done (.become q₂)) →
        lt (measure kind₁ q₂) (measure kind₁ q₁)) : ∃ r, rules.Answers kind q r := by
  suffices below : ∀ (m : M) {kind₁ : Kind} (q₁ : Question kind₁), measure kind₁ q₁ = m →
      rules.Arises q q₁ → ∃ r, rules.Answers kind₁ q₁ r from below _ q rfl .start
  intro m
  induction m using wellFounded.induction with
  | h m ih =>
    rintro kind₁ q₁ rfl arises
    -- Whatever is left of the rule, its next question is smaller, so that it is answered.
    have gets : ∀ rest, (rules kind₁ q₁).Reaches rules.Answers rest →
        ∃ next, (rules kind₁ q₁).Reaches rules.Answers (.done next) := by
      intro rest reaches
      induction rest with
      | done next => exact ⟨next, reaches⟩
      | ask q₂ next ihNext =>
        obtain ⟨r₂, known⟩ := ih _ (asked arises reaches) q₂ rfl (.asked arises reaches)
        exact ihNext r₂ (reaches.trans (.answer known (.refl _)))
    obtain ⟨next, ends⟩ := gets _ (.refl _)
    cases next with
    | answer r => exact ⟨r, answers_of_reaches ends⟩
    | become q₂ =>
      obtain ⟨r, known⟩ := ih _ (handedOver arises ends) q₂ rfl (.handedOver arises ends)
      exact ⟨r, answers_of_become ends known⟩

end Rules

/-! ## What comes up, computed -/

/-- The questions that a plan asks, for as long as they are answered. -/
def Plan.questions (answer? : (kind : Kind) → Question kind → Option (Answer kind)) :
    Plan Question Answer α → List (Sigma Question)
  | .done _ => []
  | .ask question next =>
      ⟨_, question⟩ :: match answer? _ question with
        | none => []
        | some answer => (next answer).questions answer?

namespace Rules

/-- What comes up while a question is answered, as far as questions nest no deeper than `fuel`. -/
def arising (rules : Rules Question Answer) : (fuel : Nat) → Sigma Question → List (Sigma Question)
  | 0, _ => []
  | fuel + 1, question =>
      let plan := rules _ question.2
      let handedOver := match plan.eval (rules.solve fuel) with
        | some (.become next) => rules.arising fuel ⟨_, next⟩
        | _ => []
      question :: (plan.questions (rules.solve fuel)).flatMap (rules.arising fuel) ++ handedOver

variable {rules : Rules Question Answer}

theorem reaches_of_mem_questions {plan : Plan Question Answer α} {fuel : Nat} {q : Sigma Question}
    (mem : q ∈ plan.questions (rules.solve fuel)) :
    ∃ next, plan.Reaches rules.Answers (.ask q.2 next) := by
  induction plan with
  | done a => cases mem
  | ask question next ih =>
    rw [Plan.questions, List.mem_cons] at mem
    rcases mem with rfl | mem
    · exact ⟨next, .refl _⟩
    · split at mem
      · cases mem
      · rename_i answer known
        obtain ⟨next', reaches⟩ := ih answer mem
        exact ⟨next', .answer ⟨fuel, known⟩ reaches⟩

theorem arises_of_mem_arising {fuel : Nat} {question q : Sigma Question}
    (mem : q ∈ rules.arising fuel question) : rules.Arises question.2 q.2 := by
  induction fuel generalizing question with
  | zero => cases mem
  | succ fuel ih =>
    rw [arising, List.cons_append, List.mem_cons, List.mem_append] at mem
    rcases mem with rfl | asked | handedOver
    · exact .start
    · obtain ⟨q₁, mem₁, mem⟩ := List.mem_flatMap.mp asked
      obtain ⟨next, reaches⟩ := reaches_of_mem_questions mem₁
      exact Arises.trans (.asked .start reaches) (ih mem)
    · split at handedOver
      · rename_i next evaluated
        exact Arises.trans (.handedOver .start (exists_reaches_of_eval evaluated)) (ih handedOver)
      · cases handedOver

theorem mem_questions_of_waits {kind : Kind} {q : Question kind} {plan : Plan Question Answer α}
    {fuel : Nat} {a : α} {given : List (Sigma Answer)} (waits : plan.Waits rules.Answers given q)
    (evaluated : plan.eval (rules.solve fuel) = some a) :
    (⟨kind, q⟩ : Sigma Question) ∈ plan.questions (rules.solve fuel) ∧
      ∃ r, rules.solve fuel kind q = some r := by
  induction waits with
  | here =>
    rw [Plan.eval] at evaluated
    split at evaluated
    · cases evaluated
    · rename_i r found
      rw [Plan.questions]
      exact ⟨List.mem_cons_self, r, found⟩
  | later known _ ih =>
    rw [Plan.eval] at evaluated
    split at evaluated
    · cases evaluated
    · rename_i r found
      obtain rfl := Answers.unique known ⟨fuel, found⟩
      obtain ⟨mem, answered⟩ := ih evaluated
      refine ⟨?_, answered⟩
      rw [Plan.questions, found]
      exact List.mem_cons_of_mem _ mem

/-- With fuel enough to answer the question, all is computed that comes up. -/
theorem mem_arising_of_arises {kind kind' : Kind} {q : Question kind} {r : Answer kind}
    {q' : Question kind'} {fuel : Nat} (found : rules.solve fuel kind q = some r)
    (arises : rules.Arises q q') :
    (⟨kind', q'⟩ : Sigma Question) ∈ rules.arising fuel ⟨kind, q⟩ := by
  induction fuel generalizing kind with
  | zero => cases found
  | succ fuel ih =>
    rw [solve_succ, Option.bind_eq_some_iff] at found
    obtain ⟨next, evaluated, settled⟩ := found
    rw [arising, List.cons_append, List.mem_cons, List.mem_append]
    rcases arises.first with same | ⟨_, q₁, given, waits, later⟩ | ⟨q₁, handed, later⟩
    · exact .inl same
    · obtain ⟨mem, r₁, found₁⟩ := mem_questions_of_waits waits evaluated
      exact .inr (.inl (List.mem_flatMap.mpr ⟨_, mem, ih found₁ later⟩))
    · cases handed.to_end Answers.unique (exists_reaches_of_eval evaluated)
      refine .inr (.inr ?_)
      simp only [evaluated]
      exact ih settled later

end Rules

/-! ## Procedures that agree -/

namespace Rules

variable {rules rules' : Rules Question Answer} {kind kind' : Kind} {q : Question kind}
  {r : Answer kind} {q' : Question kind'}

/-- Two procedures have the same rule for each question that comes up in the first one. -/
def AgreeAlong (rules rules' : Rules Question Answer) {kind : Kind} (q : Question kind) : Prop :=
  ∀ ⦃kind' : Kind⦄ ⦃q' : Question kind'⦄, rules.Arises q q' → rules' kind' q' = rules kind' q'

namespace AgreeAlong

/-- The same question, which comes up. -/
def Asked (rules : Rules Question Answer) {kind : Kind} (q : Question kind) (kind' : Kind)
    (q₁ q₂ : Question kind') : Prop :=
  q₁ = q₂ ∧ rules.Arises q q₁

/-- The same answer, which is the one that is found. -/
def Answered (rules : Rules Question Answer) (kind : Kind) (q₁ _ : Question kind)
    (r₁ r₂ : Answer kind) : Prop :=
  r₁ = r₂ ∧ rules.Answers kind q₁ r₁

/-- What is left of a rule is in step with itself, as far as it asks what comes up. -/
theorem inStep (left : Plan Question Answer (Next Question Answer kind'))
    (arises : rules.Arises q q') (reaches : (rules kind' q').Reaches rules.Answers left) :
    left.InStep (Asked rules q) (Answered rules)
      (SettlesInStep (Asked rules q) (Answered rules) q' q') left := by
  induction left with
  | done next =>
    refine .done ?_
    cases next with
    | answer r => exact .answer ⟨rfl, answers_of_reaches reaches⟩
    | become q₁ =>
      exact .become ⟨rfl, .handedOver arises reaches⟩
        fun r r' answered => ⟨answered.1, answers_of_become reaches answered.2⟩
  | ask q₁ next ih =>
    refine .ask ⟨rfl, .asked arises reaches⟩ fun r r' answered => ?_
    obtain ⟨rfl, known⟩ := answered
    exact ih r (reaches.trans (.answer known (.refl _)))

theorem keeps (agree : rules.AgreeAlong rules' q) (kind' : Kind) (q₁ q₂ : Question kind')
    (asked : Asked rules q kind' q₁ q₂) :
    (rules kind' q₁).InStep (Asked rules q) (Answered rules)
      (SettlesInStep (Asked rules q) (Answered rules) q₁ q₂) (rules' kind' q₂) := by
  obtain ⟨rfl, arises⟩ := asked
  rw [agree arises]
  exact inStep _ arises (.refl _)

/-- Procedures that agree on what comes up have the same answer. -/
theorem answers_iff (agree : rules.AgreeAlong rules' q) :
    rules.Answers kind q r ↔ rules'.Answers kind q r := by
  constructor
  · intro known
    obtain ⟨_, known', rfl, -⟩ := known.inStep agree.keeps ⟨rfl, .start⟩
    exact known'
  · intro known
    obtain ⟨_, known', rfl, -⟩ := known.inStep_symm agree.keeps ⟨rfl, .start⟩
    exact known'

/-- What comes up in the second procedure comes up in the first one. -/
theorem of_arises (agree : rules.AgreeAlong rules' q) (arises : rules'.Arises q q') :
    rules.Arises q q' := by
  have keeps kind (q₁ q₂ : Question kind) (asked : Asked rules q kind q₁ q₂) :
      (rules' kind q₁).InStep (Asked rules q) (Answered rules)
        (SettlesInStep (Asked rules q) (Answered rules) q₁ q₂) (rules kind q₂) := by
    obtain ⟨rfl, arises⟩ := asked
    rw [agree arises]
    exact inStep _ arises (.refl _)
  obtain ⟨_, -, -, arises⟩ := arises.inStep keeps ⟨rfl, .start⟩
  exact arises

end AgreeAlong

end Rules

/-! ## Contracts about time -/

/-- What is expected of a procedure whose questions and answers are taken at moments of time, with the
order in which moments come. -/
structure Contract (Question Answer : Kind → Type) (Moment : Type) where
  before : (kind : Kind) → Question kind → Moment
  after : (kind : Kind) → Answer kind → Moment
  le : Moment → Moment → Prop
  le_refl : ∀ s, le s s
  le_trans : ∀ {s t u}, le s t → le t u → le s u
  /-- May the rule for a question ask another one, or hand over to it? -/
  Asked : {kind kind' : Kind} → Question kind → Question kind' → Prop
  Answered : (kind : Kind) → Question kind → Answer kind → Prop

namespace Contract

variable {Moment : Type} (contract : Contract Question Answer Moment)

/-- What is known of an answer: it is as it should be, and it comes no earlier than its question. -/
def Known (kind : Kind) (q : Question kind) (r : Answer kind) : Prop :=
  contract.Answered kind q r ∧ contract.le (contract.before kind q) (contract.after kind r)

/-- How the rule for a question is expected to end, when its last answer came at `s`. -/
def Ends {kind : Kind} (q : Question kind) (s : Moment) : Next Question Answer kind → Prop
  | .answer r => contract.Answered kind q r ∧ contract.le s (contract.after kind r)
  | .become q' => (contract.Asked q q' ∧ contract.le s (contract.before kind q')) ∧
      ∀ r, contract.Answered kind q' r → contract.Answered kind q r

/-- The rules meet the contract: whatever they ask, they ask no earlier than the last answer came. -/
def Met (rules : Rules Question Answer) : Prop :=
  ∀ kind (q : Question kind), (rules kind q).Proceeds contract.after
    (fun s kind' q' => contract.Asked q q' ∧ contract.le s (contract.before kind' q'))
    contract.Known (contract.Ends q) (contract.before kind q)

/-- All that a plan comes to comes after it has begun. -/
theorem ensures_of_proceeds {plan : Plan Question Answer α} {s t : Moment}
    {Asked : Moment → (kind : Kind) → Question kind → Prop} {Goal : Moment → α → Prop}
    (later : ∀ {s kind q}, Asked s kind q → contract.le s (contract.before kind q))
    (proceeds : plan.Proceeds contract.after Asked contract.Known Goal t) (le : contract.le s t) :
    plan.Ensures (fun _ _ => True) contract.Known fun a => ∃ t, contract.le s t ∧ Goal t a := by
  induction plan generalizing t with
  | done a => exact ⟨t, le, proceeds⟩
  | ask q next ih =>
    refine ⟨trivial, fun r known => ih r (proceeds.2 r known) ?_⟩
    exact contract.le_trans le (contract.le_trans (later proceeds.1) known.2)

end Contract

namespace Contract.Met

variable {Moment : Type} {contract : Contract Question Answer Moment} {rules : Rules Question Answer}
  {kind kind' : Kind} {q : Question kind} {r : Answer kind} {q' : Question kind'}

/-- A contract that the rules meet is kept by every answer. -/
theorem known (met : contract.Met rules) (answers : rules.Answers kind q r) :
    contract.Known kind q r := by
  have keeps kind (q : Question kind) (_ : True) : (rules kind q).Ensures (fun _ _ => True)
      contract.Known (Rules.Settles (fun _ _ => True) contract.Known q) := by
    refine (contract.ensures_of_proceeds And.right (met kind q) (contract.le_refl _)).mono
      (fun _ _ _ => trivial) fun next ends => ?_
    obtain ⟨t, le, ends⟩ := ends
    cases next with
    | answer r => exact ⟨ends.1, contract.le_trans le ends.2⟩
    | become q' =>
      refine ⟨trivial, fun r known => ⟨ends.2 r known.1, ?_⟩⟩
      exact contract.le_trans le (contract.le_trans ends.1.2 known.2)
  obtain ⟨fuel, found⟩ := answers
  exact rules.solve_ensures keeps fuel q trivial found

theorem asked (met : contract.Met rules) {next : Answer kind' → Plan Question Answer _}
    (reaches : (rules kind q).Reaches rules.Answers (.ask q' next)) : contract.Asked q q' := by
  obtain ⟨s, rest⟩ := (met kind q).reaches (fun _ _ _ => met.known) reaches
  exact rest.1.1

theorem handedOver (met : contract.Met rules) {q' : Question kind}
    (reaches : (rules kind q).Reaches rules.Answers (.done (.become q'))) : contract.Asked q q' := by
  obtain ⟨s, ends⟩ := (met kind q).reaches (fun _ _ _ => met.known) reaches
  exact ends.1.1

/-- What is left of a plan comes after the answers that it has been given. -/
theorem le_reaches (met : contract.Met rules) {plan rest : Plan Question Answer α} {s : Moment}
    {Asked : Moment → (kind : Kind) → Question kind → Prop} {Goal : Moment → α → Prop}
    (later : ∀ {s kind q}, Asked s kind q → contract.le s (contract.before kind q))
    (proceeds : plan.Proceeds contract.after Asked contract.Known Goal s)
    (reaches : plan.Reaches rules.Answers rest) :
    ∃ t, contract.le s t ∧ rest.Proceeds contract.after Asked contract.Known Goal t := by
  induction reaches generalizing s with
  | refl _ => exact ⟨s, contract.le_refl s, proceeds⟩
  | answer answers _ ih =>
    have known := met.known answers
    obtain ⟨t, le, rest⟩ := ih (proceeds.2 _ known)
    exact ⟨t, contract.le_trans (contract.le_trans (later proceeds.1) known.2) le, rest⟩

/-- **What comes up while a question is answered is answered no later than the question.** -/
theorem le_answers (met : contract.Met rules) (arises : rules.Arises q q')
    (answers : rules.Answers kind q r) {r' : Answer kind'} (answers' : rules.Answers kind' q' r') :
    contract.le (contract.after kind' r') (contract.after kind r) := by
  induction arises with
  | start =>
    obtain rfl := answers.unique answers'
    exact contract.le_refl _
  | @asked kind₁ kind₂ q₁ q₂ next before reaches ih =>
    obtain ⟨r₁, answers₁⟩ := before.exists_answer answers
    refine contract.le_trans ?_ (ih answers₁)
    obtain ⟨t, -, rest⟩ := met.le_reaches And.right (met _ _) reaches
    -- The rule that asked goes on from the answer to its own end.
    have goes_on := rest.2 r' (met.known answers')
    rcases answers₁.exists_reaches with ends | ⟨q₃, ends, answers₃⟩
    · obtain ⟨r₂, answers₂, left⟩ := reaches.exists_answer ends
      obtain rfl := answers₂.unique answers'
      obtain ⟨u, le, ends⟩ := met.le_reaches And.right goes_on left
      exact contract.le_trans le ends.2
    · obtain ⟨r₂, answers₂, left⟩ := reaches.exists_answer ends
      obtain rfl := answers₂.unique answers'
      obtain ⟨u, le, ends⟩ := met.le_reaches And.right goes_on left
      have last := (met.known answers₃).2
      exact contract.le_trans le (contract.le_trans ends.1.2 last)
  | handedOver before reaches ih =>
    exact ih (Rules.answers_of_become reaches answers')

end Contract.Met

end Lox
