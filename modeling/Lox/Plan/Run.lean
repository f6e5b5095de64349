import Lox.Plan.Basic

/-!
# Running plans

There are two ways to run a procedure given by `Rules`.

* `Rules.solve` answers a question by answering the questions that its plan asks.  Its fuel bounds
  the depth to which questions nest.  This is the form to reason about: `solve_mono` says that more
  fuel keeps an answer, `solve_ensures` carries a contract from the rules to every answer, and
  `solve_isSome` says that a procedure whose questions get smaller is answered.
* `Rules.drive` keeps the plans that wait for an answer on a stack of its own and goes round in a
  loop, so a deep nest of questions costs memory and not native stack.  Its fuel bounds the number
  of steps.  `exists_run_iff` says that the two give the same answers.
-/

namespace Lox

variable {Kind : Type} {Question Answer : Kind → Type} {α : Type}

namespace Plan

/-- The result of a plan whose questions `answer?` answers; none if it leaves one unanswered. -/
def eval (answer? : (kind : Kind) → Question kind → Option (Answer kind)) :
    Plan Question Answer α → Option α
  | .done result => some result
  | .ask question next =>
      match answer? _ question with
      | none => none
      | some answer => (next answer).eval answer?

theorem eval_mono {answer? answer?' : (kind : Kind) → Question kind → Option (Answer kind)}
    (more : ∀ kind (question : Question kind) (answer : Answer kind),
      answer? _ question = some answer → answer?' _ question = some answer)
    (plan : Plan Question Answer α) {result : α} (h : plan.eval answer? = some result) :
    plan.eval answer?' = some result := by
  induction plan with
  | done a => exact h
  | ask question next ih =>
    simp only [eval] at h ⊢
    split at h
    · contradiction
    · rename_i answer known
      rw [more _ _ _ known]
      exact ih answer h

theorem eval_bind {β : Type} (answer? : (kind : Kind) → Question kind → Option (Answer kind))
    (plan : Plan Question Answer α) (after : α → Plan Question Answer β) :
    (plan >>= after).eval answer? =
      (plan.eval answer?).bind fun a => (after a).eval answer? := by
  induction plan with
  | done a => rfl
  | ask question next ih =>
    simp only [ask_bind, eval]
    split
    · rfl
    · exact ih _

end Plan

namespace Rules

/-- The answer to a question, if questions nest no deeper than `fuel`. -/
def solve (rules : Rules Question Answer) :
    (fuel : Nat) → (kind : Kind) → Question kind → Option (Answer kind)
  | 0, _, _ => none
  | fuel + 1, _, question =>
      match (rules _ question).eval (rules.solve fuel) with
      | none => none
      | some (.answer answer) => some answer
      | some (.become question) => rules.solve fuel _ question

variable (rules : Rules Question Answer)

/-- The answer at the end of a rule, where `answer?` answers what is handed over. -/
def settle (answer? : (kind : Kind) → Question kind → Option (Answer kind)) {kind : Kind} :
    Next Question Answer kind → Option (Answer kind)
  | .answer answer => some answer
  | .become question => answer? _ question

theorem solve_succ (fuel : Nat) {kind : Kind} (question : Question kind) :
    rules.solve (fuel + 1) _ question =
      ((rules _ question).eval (rules.solve fuel)).bind (settle (rules.solve fuel)) := by
  rw [solve]
  split <;> simp_all [settle]

theorem solve_mono_succ (fuel : Nat) {kind : Kind} (question : Question kind)
    {answer : Answer kind} (h : rules.solve fuel _ question = some answer) :
    rules.solve (fuel + 1) _ question = some answer := by
  induction fuel generalizing kind with
  | zero => simp [solve] at h
  | succ fuel ih =>
    rw [solve_succ, Option.bind_eq_some_iff] at h
    obtain ⟨next, evaluated, settled⟩ := h
    rw [solve_succ, Plan.eval_mono (fun _ question _ => ih question) _ evaluated]
    cases next with
    | answer a => exact settled
    | become q => exact ih q settled

/-- More fuel keeps an answer. -/
theorem solve_mono {fuel fuel' : Nat} (le : fuel ≤ fuel') {kind : Kind} (question : Question kind)
    {answer : Answer kind} (h : rules.solve fuel _ question = some answer) :
    rules.solve fuel' _ question = some answer := by
  induction le with
  | refl => exact h
  | step _ ih => exact rules.solve_mono_succ _ _ ih

/-! ## Contracts -/

section Ensures

variable {Asked : (kind : Kind) → Question kind → Prop}
  {Answered : (kind : Kind) → Question kind → Answer kind → Prop}

/-- What the end of a rule for `question` has to meet for `question` to be answered as
`Answered` says. -/
def Settles (Asked : (kind : Kind) → Question kind → Prop)
    (Answered : (kind : Kind) → Question kind → Answer kind → Prop) {kind : Kind}
    (question : Question kind) : Next Question Answer kind → Prop
  | .answer answer => Answered _ question answer
  | .become question' =>
      Asked _ question' ∧ ∀ answer, Answered _ question' answer → Answered _ question answer

end Ensures

end Rules

theorem Plan.Ensures.eval {Asked : (kind : Kind) → Question kind → Prop}
    {Answered : (kind : Kind) → Question kind → Answer kind → Prop} {Goal : α → Prop}
    {answer? : (kind : Kind) → Question kind → Option (Answer kind)}
    (sound : ∀ kind (question : Question kind) (answer : Answer kind), Asked kind question →
      answer? _ question = some answer → Answered _ question answer)
    {plan : Plan Question Answer α} (h : plan.Ensures Asked Answered Goal) {result : α}
    (evaluated : plan.eval answer? = some result) : Goal result := by
  induction plan with
  | done a => simp only [Plan.eval, Option.some.injEq] at evaluated; exact evaluated ▸ h
  | ask question next ih =>
    simp only [Plan.eval] at evaluated
    split at evaluated
    · contradiction
    · rename_i answer known
      exact ih answer (h.2 answer (sound _ _ _ h.1 known)) evaluated

theorem Plan.Ensures.exists_eval {Asked : (kind : Kind) → Question kind → Prop}
    {Answered : (kind : Kind) → Question kind → Answer kind → Prop} {Goal : α → Prop}
    {answer? : (kind : Kind) → Question kind → Option (Answer kind)}
    (total : ∀ kind (question : Question kind), Asked kind question →
      ∃ answer, answer? _ question = some answer ∧ Answered _ question answer)
    {plan : Plan Question Answer α} (h : plan.Ensures Asked Answered Goal) :
    ∃ result, plan.eval answer? = some result ∧ Goal result := by
  induction plan with
  | done a => exact ⟨a, rfl, h⟩
  | ask question next ih =>
    obtain ⟨answer, known, meets⟩ := total _ question h.1
    simp only [Plan.eval, known]
    exact ih answer (h.2 answer meets)

namespace Rules

variable (rules : Rules Question Answer)

/-- A contract that every rule keeps, given that the questions it asks keep it, is kept by every
answer. -/
theorem solve_ensures {Asked : (kind : Kind) → Question kind → Prop}
    {Answered : (kind : Kind) → Question kind → Answer kind → Prop}
    (keeps : ∀ kind (question : Question kind), Asked kind question →
      (rules _ question).Ensures Asked Answered (Settles Asked Answered question))
    (fuel : Nat) {kind : Kind} (question : Question kind) (asked : Asked kind question)
    {answer : Answer kind} (h : rules.solve fuel _ question = some answer) :
    Answered _ question answer := by
  induction fuel generalizing kind with
  | zero => simp [solve] at h
  | succ fuel ih =>
    rw [solve_succ, Option.bind_eq_some_iff] at h
    obtain ⟨next, evaluated, settled⟩ := h
    have ends := (keeps _ question asked).eval (fun _ q _ asked known => ih q asked known) evaluated
    cases next with
    | answer a =>
      simp only [settle, Option.some.injEq] at settled
      exact settled ▸ ends
    | become q => exact ends.2 _ (ih q ends.1 settled)

/-- A procedure whose rules ask only questions of smaller measure has an answer to every
question. -/
theorem solve_isSome (measure : (kind : Kind) → Question kind → Nat)
    {Answered : (kind : Kind) → Question kind → Answer kind → Prop}
    (keeps : ∀ kind (question : Question kind),
      (rules _ question).Ensures (fun _ q => measure _ q < measure _ question) Answered
        (Settles (fun _ q => measure _ q < measure _ question) Answered question))
    {fuel : Nat} {kind : Kind} (question : Question kind) (enough : measure _ question < fuel) :
    ∃ answer, rules.solve fuel _ question = some answer ∧ Answered _ question answer := by
  induction fuel generalizing kind with
  | zero => omega
  | succ fuel ih =>
    obtain ⟨next, evaluated, ends⟩ :=
      (keeps _ question).exists_eval fun _ q smaller => ih q (by omega)
    rw [solve_succ, evaluated]
    cases next with
    | answer a => exact ⟨a, rfl, ends⟩
    | become q =>
      obtain ⟨answer, known, meets⟩ := ih q (by have := ends.1; omega)
      exact ⟨answer, known, ends.2 _ meets⟩

end Rules

/-! ## The stack of waiting plans -/

/-- Plans that wait for an answer of kind `kind`, innermost first; the outermost question is of
kind `outer`. -/
inductive Waiting {Kind : Type} (Question Answer : Kind → Type) (outer : Kind) : Kind → Type where
  /-- Nothing waits: the answer is the final one. -/
  | nothing : Waiting Question Answer outer outer
  /-- The rule of a question of kind `kind'` waits for an answer of kind `kind`. -/
  | plan {kind kind' : Kind}
      (next : Answer kind → Plan Question Answer (Next Question Answer kind'))
      (rest : Waiting Question Answer outer kind') : Waiting Question Answer outer kind

/-- How far a run has come. -/
inductive Progress {Kind : Type} (Question Answer : Kind → Type) (outer : Kind) : Type where
  /-- The outermost question is answered. -/
  | finished (answer : Answer outer)
  /-- The fuel gave out; `plan` is what is left of the innermost rule. -/
  | paused {kind : Kind} (plan : Plan Question Answer (Next Question Answer kind))
      (waiting : Waiting Question Answer outer kind)

namespace Progress

variable {outer : Kind}

/-- The answer of a finished run. -/
def answer? : Progress Question Answer outer → Option (Answer outer)
  | .finished answer => some answer
  | .paused _ _ => none

end Progress

namespace Rules

/-- Take at most `fuel` steps. -/
def drive (rules : Rules Question Answer) {outer : Kind} :
    (fuel : Nat) → {kind : Kind} → Plan Question Answer (Next Question Answer kind) →
    Waiting Question Answer outer kind → Progress Question Answer outer
  | _, _, .done (.answer answer), .nothing => .finished answer
  | 0, _, plan, waiting => .paused plan waiting
  | fuel + 1, _, .done (.answer answer), .plan next rest => rules.drive fuel (next answer) rest
  | fuel + 1, _, .done (.become question), waiting => rules.drive fuel (rules _ question) waiting
  | fuel + 1, _, .ask question next, waiting =>
      rules.drive fuel (rules _ question) (.plan next waiting)

/-- The answer to a question, if it takes no more than `fuel` steps to find it. -/
def run (rules : Rules Question Answer) (fuel : Nat) {kind : Kind} (question : Question kind) :
    Option (Answer kind) :=
  (rules.drive fuel (rules _ question) .nothing).answer?

/-! ## The stack computes the answers of the recursion -/

variable (rules : Rules Question Answer)

/-- What a plan comes to, its end included, where `answer?` answers the questions. -/
def conclude (answer? : (kind : Kind) → Question kind → Option (Answer kind)) {kind : Kind}
    (plan : Plan Question Answer (Next Question Answer kind)) : Option (Answer kind) :=
  (plan.eval answer?).bind (settle answer?)

theorem solve_succ_eq_conclude (fuel : Nat) {kind : Kind} (question : Question kind) :
    rules.solve (fuel + 1) _ question = conclude (rules.solve fuel) (rules _ question) :=
  rules.solve_succ fuel question

theorem conclude_ask (answer? : (kind : Kind) → Question kind → Option (Answer kind))
    {kind kind' : Kind} (question : Question kind)
    (next : Answer kind → Plan Question Answer (Next Question Answer kind')) :
    conclude answer? (.ask question next) =
      (answer? _ question).bind fun answer => conclude answer? (next answer) := by
  simp only [conclude, Plan.eval]
  split <;> simp_all

theorem conclude_mono {fuel fuel' : Nat} (le : fuel ≤ fuel') {kind : Kind}
    {plan : Plan Question Answer (Next Question Answer kind)} {answer : Answer kind}
    (h : conclude (rules.solve fuel) plan = some answer) :
    conclude (rules.solve fuel') plan = some answer := by
  rw [conclude, Option.bind_eq_some_iff] at h
  obtain ⟨next, evaluated, settled⟩ := h
  have lifted : plan.eval (rules.solve fuel') = some next :=
    Plan.eval_mono (fun _ question _ known => rules.solve_mono le question known) plan evaluated
  rw [conclude, lifted]
  cases next with
  | answer a => exact settled
  | become q => exact rules.solve_mono le q settled

/-- What the waiting plans make of an answer. -/
def resume (answer? : (kind : Kind) → Question kind → Option (Answer kind)) {outer : Kind} :
    {kind : Kind} → Waiting Question Answer outer kind → Answer kind → Option (Answer outer)
  | _, .nothing, answer => some answer
  | _, .plan next rest, answer => (conclude answer? (next answer)).bind (resume answer? rest)

theorem resume_mono {fuel fuel' : Nat} (le : fuel ≤ fuel') {outer kind : Kind}
    {waiting : Waiting Question Answer outer kind} {answer : Answer kind} {final : Answer outer}
    (h : resume (rules.solve fuel) waiting answer = some final) :
    resume (rules.solve fuel') waiting answer = some final := by
  induction waiting with
  | nothing => exact h
  | plan next rest ih =>
    rw [resume, Option.bind_eq_some_iff] at h ⊢
    obtain ⟨a, concluded, resumed⟩ := h
    exact ⟨a, rules.conclude_mono le concluded, ih resumed⟩

theorem exists_solve_of_drive (fuel : Nat) {outer kind : Kind}
    (plan : Plan Question Answer (Next Question Answer kind))
    (waiting : Waiting Question Answer outer kind) {final : Answer outer}
    (h : (rules.drive fuel plan waiting).answer? = some final) :
    ∃ depth, (conclude (rules.solve depth) plan).bind (resume (rules.solve depth) waiting) =
      some final := by
  induction fuel generalizing kind with
  | zero =>
    match plan, waiting with
    | .done (.answer answer), .nothing =>
      exact ⟨0, by simpa [drive, Progress.answer?, conclude, Plan.eval, settle, resume] using h⟩
    | .done (.answer _), .plan _ _ => simp [drive, Progress.answer?] at h
    | .done (.become _), _ => simp [drive, Progress.answer?] at h
    | .ask _ _, _ => simp [drive, Progress.answer?] at h
  | succ fuel ih =>
    match plan, waiting with
    | .done (.answer answer), .nothing =>
      exact ⟨0, by simpa [drive, Progress.answer?, conclude, Plan.eval, settle, resume] using h⟩
    | .done (.answer answer), .plan next rest =>
      obtain ⟨depth, found⟩ := ih _ _ h
      exact ⟨depth, by simpa [conclude, Plan.eval, settle, resume] using found⟩
    | .done (.become question), waiting =>
      obtain ⟨depth, found⟩ := ih _ _ h
      rw [Option.bind_eq_some_iff] at found
      obtain ⟨a, concluded, resumed⟩ := found
      refine ⟨depth + 1, ?_⟩
      rw [← solve_succ_eq_conclude] at concluded
      simp only [conclude, Plan.eval, settle, Option.bind_some, concluded]
      exact rules.resume_mono (by omega) resumed
    | .ask question next, waiting =>
      obtain ⟨depth, found⟩ := ih _ _ h
      rw [Option.bind_eq_some_iff] at found
      obtain ⟨a, concluded, resumed⟩ := found
      rw [resume, Option.bind_eq_some_iff] at resumed
      obtain ⟨b, concluded', resumed⟩ := resumed
      refine ⟨depth + 1, ?_⟩
      rw [← solve_succ_eq_conclude] at concluded
      rw [conclude_ask, concluded, Option.bind_some,
        rules.conclude_mono (Nat.le_succ depth) concluded']
      exact rules.resume_mono (by omega) resumed

theorem exists_drive_of_conclude (depth : Nat) {kind : Kind}
    (plan : Plan Question Answer (Next Question Answer kind)) {answer : Answer kind}
    (h : conclude (rules.solve depth) plan = some answer) :
    ∃ steps, ∀ (fuel : Nat) (outer : Kind) (waiting : Waiting Question Answer outer kind),
      rules.drive (steps + fuel) plan waiting =
        rules.drive fuel (.done (.answer answer)) waiting := by
  induction depth generalizing kind with
  | zero =>
    match plan with
    | .done (.answer a) =>
      simp only [conclude, Plan.eval, settle, Option.bind_some, Option.some.injEq] at h
      exact ⟨0, fun fuel _ _ => by rw [h, Nat.zero_add]⟩
    | .done (.become _) => simp [conclude, Plan.eval, settle, solve] at h
    | .ask _ _ => simp [conclude, Plan.eval, solve] at h
  | succ depth ih =>
    -- A question is answered one level deeper; the rest of the plan stays on this level.
    have asked {kind : Kind} (question : Question kind) {a : Answer kind}
        (known : rules.solve (depth + 1) _ question = some a) := by
      rw [solve_succ_eq_conclude] at known
      exact ih _ known
    induction plan with
    | done next =>
      cases next with
      | answer a =>
        simp only [conclude, Plan.eval, settle, Option.bind_some, Option.some.injEq] at h
        exact ⟨0, fun fuel _ _ => by rw [h, Nat.zero_add]⟩
      | become question =>
        obtain ⟨steps, drives⟩ := asked question h
        refine ⟨steps + 1, fun fuel _ waiting => ?_⟩
        rw [show steps + 1 + fuel = steps + fuel + 1 by omega, drive]
        exact drives fuel _ waiting
    | ask question next ihNext =>
      rw [conclude_ask, Option.bind_eq_some_iff] at h
      obtain ⟨a, known, concluded⟩ := h
      obtain ⟨steps, drives⟩ := asked question known
      obtain ⟨steps', drives'⟩ := ihNext a concluded
      refine ⟨steps + (steps' + 1) + 1, fun fuel _ waiting => ?_⟩
      rw [show steps + (steps' + 1) + 1 + fuel = steps + (steps' + fuel + 1) + 1 by omega, drive,
        drives, drive]
      exact drives' fuel _ waiting

/-- The stack finds an answer exactly if the recursion does, and then the same one. -/
theorem exists_run_iff {kind : Kind} (question : Question kind) (answer : Answer kind) :
    (∃ fuel, rules.run fuel question = some answer) ↔
      ∃ depth, rules.solve depth _ question = some answer := by
  constructor
  · rintro ⟨fuel, h⟩
    obtain ⟨depth, found⟩ := rules.exists_solve_of_drive fuel _ _ h
    refine ⟨depth + 1, ?_⟩
    rw [solve_succ_eq_conclude]
    rw [Option.bind_eq_some_iff] at found
    obtain ⟨a, concluded, resumed⟩ := found
    simp only [resume, Option.some.injEq] at resumed
    exact resumed ▸ concluded
  · rintro ⟨depth, h⟩
    have h := rules.solve_mono (Nat.le_succ depth) _ h
    rw [Nat.succ_eq_add_one, solve_succ_eq_conclude] at h
    obtain ⟨steps, drives⟩ := rules.exists_drive_of_conclude depth (rules _ question) h
    exact ⟨steps, by rw [run, ← Nat.add_zero steps, drives]; simp [drive, Progress.answer?]⟩

end Rules

end Lox
