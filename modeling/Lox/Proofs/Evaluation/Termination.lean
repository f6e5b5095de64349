import Mathlib.Data.Prod.Lex
import Lox.Proofs.Evaluation.Discipline

/-!
# Without loops tasks come to an end

Function bodies are reached through values, so that no task is a part of the tree that it comes from.
But what a task asks for is either part of a call, and there is room for so many of them only, or smaller
than the task itself (`Task.Asks.size_lt`), loops aside.  So a task in which no loop comes up comes to an
end (`exists_answer_of_loopless`), whatever is called on the way.
-/

namespace Lox

/-- Is the task a loop, or a round of one? -/
def Task.IsLoop : {sort : TaskSort} → Task sort → Prop
  | _, .perform (.loop _ _) => True
  | _, .repeat_ _ _ => True
  | _, _ => False

/-- How much of a tree there is to a task.  A statement counts twice, for it is executed first and
performed then; what is called is not part of the tree. -/
noncomputable def Task.size : {sort : TaskSort} → Task sort → Nat
  | _, .evaluate e => 2 * sizeOf e
  | _, .call _ _ _ => 0
  | _, .invoke closure _ => 2 * sizeOf closure.declaration
  | _, .execute s => 2 * sizeOf s + 1
  | _, .perform s => 2 * sizeOf s
  | _, .repeat_ _ _ => 0
  | _, .run program => 2 * sizeOf program

theorem Expr.sizeOf_operand {e e' : Expr} (mem : e' ∈ e.operands) : sizeOf e' < sizeOf e := by
  cases e with
  | literal _ | variable_ _ | this _ _ | super _ _ _ | function _ => cases mem
  | group _ | unary _ _ | assign _ _ | get _ _ =>
    obtain rfl := List.mem_singleton.mp mem
    simp +arith
  | binary _ _ _ | logical _ _ _ | set _ _ _ =>
    rcases List.mem_cons.mp mem with rfl | mem
    · simp +arith
    · obtain rfl := List.mem_singleton.mp mem
      simp +arith
  | call callee arguments line =>
    rcases List.mem_cons.mp mem with rfl | mem
    · simp +arith
    · have less := List.sizeOf_lt_of_mem mem
      simp only [Expr.call.sizeOf_spec]
      omega

theorem Stmt.sizeOf_expression {s : Stmt} {e : Expr} (mem : e ∈ s.expressions) :
    sizeOf e < sizeOf s := by
  cases s with
  | expression _ | print _ _ | branch _ _ _ =>
    obtain rfl := List.mem_singleton.mp mem
    simp +arith
  | var name initial =>
    obtain rfl := Option.mem_toList.mp mem
    simp +arith
  | return_ keyword value =>
    obtain rfl := Option.mem_toList.mp mem
    simp +arith
  | class_ name superclass methods =>
    obtain ⟨ref, present, rfl⟩ := List.mem_map.mp mem
    obtain rfl := Option.mem_toList.mp present
    simp +arith
  | block _ | loop _ _ | function _ => cases mem

theorem Stmt.sizeOf_part {s s' : Stmt} (mem : s' ∈ s.parts) : sizeOf s' < sizeOf s := by
  cases s with
  | block body =>
    have less : sizeOf s' < sizeOf body := List.sizeOf_lt_of_mem mem
    simp only [Stmt.block.sizeOf_spec]
    omega
  | branch condition yes no =>
    rcases List.mem_cons.mp mem with rfl | mem
    · simp +arith
    · obtain rfl := Option.mem_toList.mp mem
      simp +arith
  | _ => cases mem

theorem Function.sizeOf_body {f : Function} {s : Stmt} (mem : s ∈ f.body) : sizeOf s < sizeOf f := by
  obtain ⟨name, parameters, body⟩ := f
  have less : sizeOf s < sizeOf body := List.sizeOf_lt_of_mem mem
  simp only [Function.mk.sizeOf_spec]
  omega

/-- What a task asks for is smaller, unless the task is a call or a loop. -/
theorem Task.Asks.size_lt {sort sort' : TaskSort} {task : Task sort} {task' : Task sort'}
    (asks : task.Asks task') (call : task.calls = 0) (loop : ¬task.IsLoop) :
    task'.size < task.size := by
  cases asks with
  | operand mem =>
    have := Expr.sizeOf_operand mem
    simp only [Task.size]
    omega
  | call =>
    simp only [Task.size, Expr.call.sizeOf_spec]
    omega
  | function => cases call
  | initializer => cases call
  | body _ mem =>
    have := Function.sizeOf_body mem
    simp only [Task.size]
    omega
  | perform => exact Nat.lt_succ_self _
  | expression mem =>
    have := Stmt.sizeOf_expression mem
    simp only [Task.size]
    omega
  | part mem =>
    have := Stmt.sizeOf_part mem
    simp only [Task.size]
    omega
  | loop => exact absurd trivial loop
  | condition => exact absurd trivial loop
  | round => exact absurd trivial loop
  | again => exact absurd trivial loop
  | statement mem =>
    have := List.sizeOf_lt_of_mem mem
    simp only [Task.size]
    omega

/-- A task asks for a round of a loop only if it is one itself. -/
theorem Task.Asks.isLoop {sort : TaskSort} {task : Task sort} {condition : Expr} {body : Stmt}
    (asks : task.Asks (.repeat_ condition body)) : task.IsLoop := by
  cases asks <;> trivial

namespace Evaluation

variable {sort sort' : TaskSort} {q : Question sort} {q' : Question sort'}

/-- For how many more calls there is room, and how much of a tree there is to the task. -/
noncomputable def Question.measure (q : Question sort) : Nat ×ₗ Nat :=
  toLex (q.state.settings.maxCallDepth - q.state.callDepth, q.task.size)

/-- What a task is asked for takes room for one call less, or is smaller. -/
theorem Within.measure_lt (within : Within q q') (loop : ¬q.task.IsLoop) : q'.measure < q.measure := by
  rw [Question.measure, Question.measure, Prod.Lex.toLex_lt_toLex, within.settings, within.callDepth]
  by_cases call : q.task.calls = 0
  · rw [call]
    exact .inr ⟨rfl, within.task.size_lt call loop⟩
  · have room := within.room call
    left
    simp only
    omega

/-- **A task in which no loop comes up comes to an end.** -/
theorem exists_answer_of_loopless
    (loopless : ∀ {sort'} {q' : Question sort'}, evaluation.Arises q q' → ¬q'.task.IsLoop) :
    ∃ r, evaluation.Answers sort q r := by
  refine Rules.exists_answer wellFounded_lt (fun _ => Question.measure) ?_ ?_
  · intro _ _ _ _ _ arises reaches
    exact (discipline_met.asked reaches).measure_lt (loopless arises)
  · intro _ _ _ arises reaches
    exact (discipline_met.handedOver reaches).measure_lt (loopless arises)

/-- The rounds of a loop come up behind the loop only. -/
theorem not_isLoop_of_arises (first : ¬q.task.IsLoop)
    (loopless : ∀ {condition body st},
      ¬evaluation.Arises q (⟨.perform (.loop condition body), st⟩ : Question .flow))
    (arises : evaluation.Arises q q') : ¬q'.task.IsLoop := by
  -- A task that is a loop is performed, which is excluded, or it is a round of the task before.
  have step {sort₁ sort₂ : TaskSort} {q₁ : Question sort₁} {q₂ : Question sort₂}
      (within : Within q₁ q₂) (before : ¬q₁.task.IsLoop) (arises : evaluation.Arises q q₂) :
      ¬q₂.task.IsLoop := by
    obtain ⟨task, st⟩ := q₂
    intro loop
    cases task with
    | perform s =>
      cases s with
      | loop condition body => exact loopless arises
      | _ => exact loop
    | repeat_ condition body => exact before within.task.isLoop
    | _ => exact loop
  induction arises with
  | start => exact first
  | asked before reaches ih => exact step (discipline_met.asked reaches) ih (.asked before reaches)
  | handedOver before reaches ih =>
    exact step (discipline_met.handedOver reaches) ih (.handedOver before reaches)

end Evaluation

end Lox
