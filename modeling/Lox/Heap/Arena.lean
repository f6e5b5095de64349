/-!
# Arenas

An arena holds objects in numbered slots.  A slot that is emptied is used again by a later
allocation, the one emptied last before all others; only if no slot is empty a new one is added.

A slot can be marked.  `sweep` empties the slots that are not marked and clears the marks of the
others.

Allocations are numbered, and a slot keeps the **serial** number of the last one that it was used
for.
-/

namespace Lox

/-- A slot of an arena. -/
structure Slot (α : Type) where
  content : Option α
  marked : Bool
  /-- The number of the allocation that it was last used for. -/
  serial : Nat

/-- Objects in numbered slots. -/
structure Arena (α : Type) where
  slots : Array (Slot α)
  /-- The empty slots; the next to be used comes first. -/
  free : List Nat
  /-- How many slots are occupied. -/
  live : Nat
  /-- How many allocations there have been. -/
  allocated : Nat

namespace Arena

variable {α : Type}

/-- No slots. -/
def empty : Arena α := ⟨#[], [], 0, 0⟩

/-- The object in a slot, unless the slot is empty or there is none of this number. -/
def get? (arena : Arena α) (index : Nat) : Option α :=
  arena.slots[index]?.bind Slot.content

/-- Put an object into an empty slot, or into a new one: which is it? -/
def alloc (arena : Arena α) (object : α) : Nat × Arena α :=
  match arena.free with
  | index :: free =>
      (index,
        { slots := arena.slots.modify index fun slot =>
            { slot with content := some object, serial := arena.allocated }
          free := free
          live := arena.live + 1
          allocated := arena.allocated + 1 })
  | [] =>
      (arena.slots.size,
        { slots := arena.slots.push ⟨some object, false, arena.allocated⟩
          free := []
          live := arena.live + 1
          allocated := arena.allocated + 1 })

/-- Change the object in a slot, if there is one. -/
def modify (arena : Arena α) (index : Nat) (f : α → α) : Arena α :=
  { arena with
    slots := arena.slots.modify index fun slot => { slot with content := slot.content.map f } }

/-- Is the slot occupied and not marked? -/
def isUnmarked (arena : Arena α) (index : Nat) : Bool :=
  match arena.slots[index]? with
  | some slot => slot.content.isSome && !slot.marked
  | none => false

/-- Mark a slot. -/
def mark (arena : Arena α) (index : Nat) : Arena α :=
  { arena with slots := arena.slots.modify index fun slot => { slot with marked := true } }

/-- The slots that are occupied and not marked, in ascending order. -/
def unmarked (arena : Arena α) : List Nat :=
  (List.range arena.slots.size).filter arena.isUnmarked

/-- Empty the slots that are not marked, and clear the marks: how many are emptied? -/
def sweep (arena : Arena α) : Nat × Arena α :=
  let emptied := arena.unmarked
  (emptied.length,
    { slots := arena.slots.map fun slot =>
        if slot.marked then { slot with marked := false }
        else { slot with content := none, marked := false }
      free := emptied.reverse ++ arena.free
      live := arena.live - emptied.length
      allocated := arena.allocated })

end Arena

end Lox
