import Lox.Proofs.Heap.Collect

/-!
# Marking one object at a time

`Heap.trace` marks what can be reached in rounds.  `Heap.drain` does it with a stack: the object on
top is taken off, and if it is on the heap and not marked yet, it is marked and what it refers to is
put on the stack.

Around a cycle an object comes up again and again, and the stack may grow for long.  That it is empty
in the end is due to the marks: either there is one more of them, or the stack is shorter.  What is
marked then depends neither on the order of the stack nor on its being a stack
(`drain_eq_markFrom`).
-/

namespace Lox.Heap

variable {original heap : Heap} {roots stack rest : List HeapObject} {object : HeapObject}

/-- Mark what is on a stack and whatever can be reached from it, the top of the stack first. -/
def drain (heap : Heap) : (stack : List HeapObject) → Heap
  | [] => heap
  | object :: rest =>
      if heap.isUnmarked object then
        (heap.mark object).drain (((heap.mark object).referents object).reverse ++ rest)
      else
        heap.drain rest
termination_by stack => (heap.unmarkedCount, stack.length)
decreasing_by
  · exact Prod.Lex.left _ _ (unmarkedCount_mark_lt ‹_›)
  · exact Prod.Lex.right _ (Nat.lt_succ_self _)

/-- An object that is marked already, or not there, is taken off the stack and that is all. -/
theorem Tracing.pop (tracing : original.Tracing roots (object :: rest) heap)
    (passed : heap.isUnmarked object ≠ true) : original.Tracing roots rest heap := by
  have settled {place : Place} (there : original.Occupies place)
      (h : heap.IsMarked place ∨ place ∈ (object :: rest).map HeapObject.place) :
      heap.IsMarked place ∨ place ∈ rest.map HeapObject.place := by
    rcases h with marked | mem
    · exact .inl marked
    · rcases List.mem_cons.mp (List.map_cons ▸ mem) with rfl | mem
      · left
        by_contra new
        exact passed (isUnmarked_iff.mpr ⟨tracing.remarked.occupies.mpr there, new⟩)
      · exact .inr mem
  exact ⟨tracing.remarked, tracing.reaches,
    fun object mem => tracing.reachableNext object (List.mem_cons_of_mem _ mem),
    fun object mem there => settled there (tracing.roots object mem there),
    fun {_} marked object' mem there => settled there (tracing.referents marked object' mem there)⟩

/-- An object that is marked now makes way for what it refers to. -/
theorem Tracing.push (tracing : original.Tracing roots (object :: rest) heap)
    (unmarked : heap.isUnmarked object = true) : original.Tracing roots
      (((heap.mark object).referents object).reverse ++ rest) (heap.mark object) := by
  have marks := Remarked.mark unmarked
  have remarked := tracing.remarked.trans marks
  have isMarked {place : Place} (there : original.Occupies place) :
      (heap.mark object).IsMarked place ↔ place = object.place ∨ heap.IsMarked place :=
    isMarked_mark (tracing.remarked.occupies.mpr there)
  -- The object leaves the stack, but it is marked now: nothing that was settled is lost.
  have settled {place : Place} (there : original.Occupies place)
      (h : heap.IsMarked place ∨ place ∈ (object :: rest).map HeapObject.place) :
      (heap.mark object).IsMarked place ∨
        place ∈ (((heap.mark object).referents object).reverse ++ rest).map HeapObject.place := by
    rcases h with marked | mem
    · exact .inl ((isMarked there).mpr (.inr marked))
    · rcases List.mem_cons.mp (List.map_cons ▸ mem) with same | mem
      · exact .inl ((isMarked there).mpr (.inl same))
      · rw [List.map_append]
        exact .inr (List.mem_append_right _ mem)
  rw [remarked.referents]
  rw [remarked.referents] at settled
  refine ⟨remarked, fun {place} there marked => ?_, fun other mem => ?_,
    fun other mem there => settled there (tracing.roots other mem there),
    fun {parent} marked other mem there => ?_⟩
  · rcases (isMarked there).mp marked with rfl | marked
    · exact ⟨object, tracing.reachableNext object List.mem_cons_self, rfl⟩
    · exact tracing.reaches there marked
  · rcases List.mem_append.mp mem with mem | mem
    · exact .step (tracing.reachableNext object List.mem_cons_self) (List.mem_reverse.mp mem)
    · exact tracing.reachableNext other (List.mem_cons_of_mem _ mem)
  · rcases (isMarked (occupies_of_mem_referents mem)).mp marked with same | marked
    · -- The parent is the object marked now, so `other` was just put on the stack.
      rw [referents_eq_of_place same] at mem
      exact .inr (List.mem_map_of_mem (List.mem_append_left _ (List.mem_reverse.mpr mem)))
    · exact settled there (tracing.referents marked other mem there)

theorem tracing_drain (tracing : original.Tracing roots stack heap) :
    original.Tracing roots [] (heap.drain stack) := by
  induction heap, stack using drain.induct with
  | case1 heap =>
    rw [drain]
    exact tracing
  | case2 heap object rest unmarked ih =>
    rw [drain, if_pos unmarked]
    exact ih (tracing.push unmarked)
  | case3 heap object rest passed ih =>
    rw [drain, if_neg passed]
    exact ih (tracing.pop passed)

/-- **One object at a time or in rounds, the same is marked.** -/
theorem drain_eq_markFrom (cleanFrames : heap.frames.Clean) (cleanInstances : heap.instances.Clean)
    (same : ∀ object, object ∈ stack ↔ object ∈ roots) : heap.drain stack = heap.markFrom roots := by
  have drained := tracing_drain (tracing_start cleanFrames cleanInstances same)
  have marked : heap.Tracing roots [] (heap.markFrom roots) :=
    tracing_markFrom cleanFrames cleanInstances
  refine drained.remarked.eq_of_isMarked_iff marked.remarked fun {place} there => ?_
  rw [drained.isMarked_iff there, marked.isMarked_iff there]

end Lox.Heap
