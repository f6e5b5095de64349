import Lox.Proofs.Variation.World

/-!
# Heaps in step

The heaps of two runs hold, place by place, objects that vary from each other (`Heap.Varies`).  What
is looked for is found on both or on neither, and what is made or changed on both leaves them so.

Neither heap has empty places: these are the heaps of runs that never collect garbage.
-/

namespace Lox

/-! ## Arenas -/

namespace Arena

variable {α β : Type} {R R' : Nat → α → β → Prop} {arena : Arena α} {arena' : Arena β}

/-- Place by place, the arenas hold related objects; and they will hand out the same places. -/
structure Vary (R : Nat → α → β → Prop) (arena : Arena α) (arena' : Arena β) : Prop where
  get : ∀ index, Option.Rel (R index) (arena.get? index) (arena'.get? index)
  free : arena.free = []
  free' : arena'.free = []
  size : arena'.slots.size = arena.slots.size
  allocated : arena'.allocated = arena.allocated

theorem lt_size_of_get? {index : Nat} {a : α} (found : arena.get? index = some a) :
    index < arena.slots.size := by
  obtain ⟨serial, holds⟩ := get?_eq_some_iff.mp found
  exact holds.lt_size

theorem alloc_fst (free : arena.free = []) (a : α) : (arena.alloc a).1 = arena.slots.size := by
  unfold alloc
  split
  · rename_i found
    rw [free] at found
    cases found
  · rfl

theorem free_alloc (free : arena.free = []) (a : α) : (arena.alloc a).2.free = [] := by
  unfold alloc
  split
  · rename_i found
    rw [free] at found
    cases found
  · rfl

theorem size_alloc (free : arena.free = []) (a : α) :
    (arena.alloc a).2.slots.size = arena.slots.size + 1 := by
  unfold alloc
  split
  · rename_i found
    rw [free] at found
    cases found
  · exact Array.size_push _

namespace Vary

theorem mono (h : arena.Vary R arena')
    (imp : ∀ index a b, arena.get? index = some a → R index a b → R' index a b) :
    arena.Vary R' arena' := by
  refine { h with get := fun index => ?_ }
  have related := h.get index
  cases found : arena.get? index with
  | none =>
    rw [found] at related
    generalize arena'.get? index = b at related ⊢
    cases related
    exact .none
  | some a =>
    rw [found] at related
    generalize arena'.get? index = b at related ⊢
    cases related with
    | some related => exact .some (imp index a _ found related)

theorem alloc (h : arena.Vary R arena') {a : α} {b : β} (new : R arena.slots.size a b) :
    (arena'.alloc b).1 = (arena.alloc a).1 ∧ (arena.alloc a).2.Vary R (arena'.alloc b).2 := by
  refine ⟨by rw [alloc_fst h.free, alloc_fst h.free', h.size], fun index => ?_,
    free_alloc h.free a, free_alloc h.free' b, ?_, ?_⟩
  · rw [get?_alloc h.free, get?_alloc h.free', h.size]
    by_cases same : index = arena.slots.size
    · rw [if_pos same, if_pos same, same]
      exact .some new
    · rw [if_neg same, if_neg same]
      exact h.get index
  · rw [size_alloc h.free, size_alloc h.free', h.size]
  · rw [allocated_alloc, allocated_alloc, h.allocated]

theorem modify (h : arena.Vary R arena') (index : Nat) {f : α → α} {g : β → β}
    (keeps : ∀ a b, R index a b → R index (f a) (g b)) :
    (arena.modify index f).Vary R (arena'.modify index g) := by
  refine ⟨fun index' => ?_, h.free, h.free', ?_, h.allocated⟩
  · rw [get?_modify, get?_modify]
    have related := h.get index'
    by_cases same : index' = index
    · subst same
      rw [if_pos rfl, if_pos rfl]
      generalize arena.get? index' = a, arena'.get? index' = b at related
      cases related with
      | none => exact .none
      | some related => exact .some (keeps _ _ related)
    · rw [if_neg same, if_neg same]
      exact related
  · rw [Arena.modify, Arena.modify, Array.size_modify, Array.size_modify, h.size]

end Vary

end Arena

/-! ## Heaps -/

section Heaps

variable (v : Variation)

/-- Frames inside the same one that bind values which vary. -/
structure Frame.Varies (w : World) (mark : Bool) (frame frame' : Frame) : Prop where
  enclosing : frame'.enclosing = frame.enclosing
  bindings : frame.bindings.Vary v w mark frame'.bindings
  suit : frame.bindings.Suit

/-- The second heap holds, place by place, what varies from what the first one holds. -/
structure Heap.Varies (w : World) (heap' : Heap) : Prop where
  frames : w.heap.frames.Vary (fun index => Frame.Varies v w (w.marked index)) heap'.frames
  instances : w.heap.instances.Vary (fun _ => Bindings.Vary v w false) heap'.instances
  nextIdentity : heap'.nextIdentity = w.heap.nextIdentity
  outermost : ∃ frame, w.heap.frames.get? w.globals.index = some frame ∧ frame.enclosing = none
  unmarked : w.marked w.globals.index = false

/-- What is looked for is found on both heaps, or the same reference dangles. -/
inductive Accesses {α β : Type} (R : α → β → Prop) : Except Dangling α → Except Dangling β → Prop
  | ok {a : α} {b : β} (related : R a b) : Accesses R (.ok a) (.ok b)
  | error (access : Dangling) : Accesses R (.error access) (.error access)

end Heaps

/-- What is found on both heaps is related. -/
theorem Accesses.found {α β : Type} {R : α → β → Prop} {x : Except Dangling α} {y : Except Dangling β}
    (h : Accesses R x y) : Accesses (fun a b => x = .ok a ∧ y = .ok b ∧ R a b) x y := by
  cases h with
  | ok related => exact .ok ⟨rfl, rfl, related⟩
  | error access => exact .error access

/-- A depth leads to the frame that activates the scope there. -/
theorem World.Stands.activates {w : World} {p : Site} {ref : FrameRef} (h : w.Stands p ref)
    {distance : Nat} {scope : LexicalScope} (there : p.context[distance]? = some scope) :
    ∃ target frame outer, w.heap.ancestor distance ref = .ok target ∧
      w.heap.frames.get? target.index = some frame ∧ frame.Activates scope outer := by
  obtain ⟨ctx, marks⟩ := p
  induction ctx generalizing marks ref distance with
  | nil => cases there
  | cons inner ctx ih =>
    cases marks with
    | nil => exact h.elim
    | cons mark marks =>
      obtain ⟨frame, outer, found, activates, -, chain⟩ := h
      cases distance with
      | zero =>
        cases there
        exact ⟨ref, frame, outer, rfl, found, activates⟩
      | succ distance =>
        obtain ⟨target, frame', outer', leads, rest⟩ := ih marks chain there
        refine ⟨target, frame', outer', ?_, rest⟩
        have access : w.heap.frame ref = .ok frame := by rw [Heap.frame, found]
        simp only [Heap.ancestor, access, activates.enclosing, bind, Except.bind]
        exact leads

namespace Heap

variable {v : Variation} {w : World} {heap' : Heap}

/-- The frame of the outermost level is the only one that is looked at for a global name. -/
theorem owner_outermost {heap : Heap} {ref : FrameRef} {frame : Frame}
    (found : heap.frames.get? ref.index = some frame) (outermost : frame.enclosing = none)
    (name : String) :
    heap.owner ref name = .ok (if frame.bindings.contains name then some ref else none) := by
  have access : heap.frame ref = .ok frame := by rw [Heap.frame, found]
  simp only [owner, ownerWithin, access, outermost, bind, Except.bind]
  split <;> rfl

namespace Varies

/-! ### Looking for something -/

theorem frame (h : Heap.Varies v w heap') (ref : FrameRef) :
    Accesses (Frame.Varies v w (w.marked ref.index)) (w.heap.frame ref) (heap'.frame ref) := by
  have related := h.frames.get ref.index
  unfold Heap.frame
  generalize w.heap.frames.get? ref.index = a, heap'.frames.get? ref.index = b at related
  cases related with
  | none => exact .error _
  | some related => exact .ok related

theorem fields (h : Heap.Varies v w heap') (ref : InstanceRef) :
    Accesses (Bindings.Vary v w false) (w.heap.fields ref) (heap'.fields ref) := by
  have related := h.instances.get ref.index
  unfold Heap.fields
  generalize w.heap.instances.get? ref.index = a, heap'.instances.get? ref.index = b at related
  cases related with
  | none => exact .error _
  | some related => exact .ok related

/-- What is on the heap of the one run is on that of the other. -/
theorem frame_of_get? (h : Heap.Varies v w heap') {ref : FrameRef} {frame : Lox.Frame}
    (found : w.heap.frames.get? ref.index = some frame) :
    ∃ frame', w.heap.frame ref = .ok frame ∧ heap'.frame ref = .ok frame' ∧
      frame.Varies v w (w.marked ref.index) frame' := by
  have access : w.heap.frame ref = .ok frame := by rw [Heap.frame, found]
  have related := h.frame ref
  rw [access] at related
  generalize heap'.frame ref = found' at related
  cases related with
  | ok related => exact ⟨_, access, rfl, related⟩

/-- A depth leads to the same frame on both heaps, and the mark of the scope is that of the frame. -/
theorem ancestor (h : Heap.Varies v w heap') {p : Site} {ref : FrameRef} (stands : w.Stands p ref)
    (distance : Nat) : ∃ target, w.heap.ancestor distance ref = .ok target ∧
      heap'.ancestor distance ref = .ok target ∧
      w.marked target.index = p.isMarked (some distance) := by
  obtain ⟨ctx, marks⟩ := p
  induction ctx generalizing marks ref distance with
  | nil =>
    cases marks with
    | cons _ _ => exact stands.elim
    | nil =>
      obtain rfl : ref = w.globals := stands
      -- There is nothing around the globals, so every depth leads to them.
      obtain ⟨frame, found, outermost⟩ := h.outermost
      obtain ⟨frame', access, access', varies⟩ := h.frame_of_get? found
      have outermost' := varies.enclosing.trans outermost
      refine ⟨w.globals, ?_, ?_, h.unmarked⟩
      · cases distance with
        | zero => rfl
        | succ _ =>
          simp only [Heap.ancestor, access, outermost, bind, Except.bind]
          rfl
      · cases distance with
        | zero => rfl
        | succ _ =>
          simp only [Heap.ancestor, access', outermost', bind, Except.bind]
          rfl
  | cons scope ctx ih =>
    cases marks with
    | nil => exact stands.elim
    | cons mark marks =>
      obtain ⟨frame, outer, found, activates, marked, chain⟩ := stands
      cases distance with
      | zero => exact ⟨ref, rfl, rfl, marked⟩
      | succ distance =>
        obtain ⟨frame', access, access', varies⟩ := h.frame_of_get? found
        have encloses := activates.enclosing
        have encloses' := varies.enclosing.trans encloses
        obtain ⟨target, leads, leads', marked⟩ := ih distance marks chain
        refine ⟨target, ?_, ?_, marked⟩
        · simp only [Heap.ancestor, access, encloses, bind, Except.bind]
          exact leads
        · simp only [Heap.ancestor, access', encloses', bind, Except.bind]
          exact leads'

/-- What a reserved name is bound to is found, and it suits the name. -/
theorem lookupReserved (h : Heap.Varies v w heap') {p : Site} {ref : FrameRef}
    (stands : w.Stands p ref) {name : String} (reserved : Reserved name) {distance : Nat}
    (found : Resolver.distance p.context.scopes name = some distance) :
    ∃ a a', w.heap.lookupAt ref distance name = .ok (some a) ∧
      heap'.lookupAt ref distance name = .ok (some a') ∧ a.Varies v w a' ∧ a.Suits name := by
  obtain ⟨scope, finds⟩ := Context.exists_finds found
  obtain ⟨target, frame, outer, leads, found, activates⟩ := stands.activates finds.there
  obtain ⟨target', leads', leads'', -⟩ := h.ancestor stands distance
  obtain rfl : target = target' := Except.ok.inj (leads.symm.trans leads')
  obtain ⟨frame', access, access', varies⟩ := h.frame_of_get? found
  have bound := activates.reserved name reserved finds.declares
  have value := varies.bindings name
  rw [v.rename_reserved _ reserved] at value
  simp only [Heap.lookupAt, leads, leads'', access, access', bind, Except.bind]
  rw [Bindings.contains, Option.isSome_iff_exists] at bound
  obtain ⟨a, bound⟩ := bound
  rw [bound] at value ⊢
  generalize frame'.bindings.find? name = found' at value
  cases value with
  | some same => exact ⟨a, _, rfl, rfl, same, varies.suit name a bound⟩

theorem lookupAt (h : Heap.Varies v w heap') {p : Site} {ref : FrameRef} (stands : w.Stands p ref)
    (distance : Nat) (name : String) :
    Accesses (Option.Rel (Value.Varies v w)) (w.heap.lookupAt ref distance name)
      (heap'.lookupAt ref distance (v.rename (p.isMarked (some distance)) name)) := by
  obtain ⟨target, leads, leads', marked⟩ := h.ancestor stands distance
  have related := h.frame target
  simp only [Heap.lookupAt, leads, leads', bind, Except.bind]
  generalize w.heap.frame target = found, heap'.frame target = found' at related
  cases related with
  | error access => exact .error access
  | ok varies => exact .ok (marked ▸ varies.bindings name)

theorem ownerAt (h : Heap.Varies v w heap') {p : Site} {ref : FrameRef} (stands : w.Stands p ref)
    (distance : Nat) (name : String) :
    Accesses (fun owner owner' => owner' = owner ∧
        ∀ target ∈ owner, w.marked target.index = p.isMarked (some distance))
      (w.heap.ownerAt ref distance name)
      (heap'.ownerAt ref distance (v.rename (p.isMarked (some distance)) name)) := by
  obtain ⟨target, leads, leads', marked⟩ := h.ancestor stands distance
  have related := h.frame target
  simp only [Heap.ownerAt, leads, leads', bind, Except.bind]
  generalize w.heap.frame target = found, heap'.frame target = found' at related
  cases related with
  | error access => exact .error access
  | ok varies =>
    refine .ok ⟨?_, fun owner same => ?_⟩
    · rw [← marked, varies.bindings.contains]
    · split at same
      · cases same
        exact marked
      · cases same

theorem owner (h : Heap.Varies v w heap') (name : String) :
    Accesses (fun owner owner' => owner' = owner ∧ ∀ target ∈ owner, w.marked target.index = false)
      (w.heap.owner w.globals name) (heap'.owner w.globals name) := by
  obtain ⟨frame, found, outermost⟩ := h.outermost
  have related := h.frames.get w.globals.index
  rw [found] at related
  generalize found' : heap'.frames.get? w.globals.index = frame' at related
  cases related with
  | some varies =>
    rw [owner_outermost found outermost, owner_outermost found' (varies.enclosing.trans outermost)]
    have contains := varies.bindings.contains name
    rw [h.unmarked, Variation.rename_false] at contains
    refine .ok ⟨by rw [contains], fun owner same => ?_⟩
    split at same
    · cases same
      exact h.unmarked
    · cases same

theorem lookup (h : Heap.Varies v w heap') (name : String) :
    Accesses (Option.Rel (Value.Varies v w)) (w.heap.lookup w.globals name)
      (heap'.lookup w.globals name) := by
  have owners := h.owner name
  unfold Heap.lookup
  generalize w.heap.owner w.globals name = owner, heap'.owner w.globals name = owner' at owners
  cases owners with
  | error access => exact .error access
  | @ok owner owner' related =>
    obtain ⟨rfl, unmarked⟩ := related
    cases owner' with
    | none => exact .ok .none
    | some target =>
      have related := h.frame target
      simp only [bind, Except.bind]
      generalize w.heap.frame target = found, heap'.frame target = found' at related
      cases related with
      | error access => exact .error access
      | ok varies =>
        have value := varies.bindings name
        rw [unmarked target rfl, Variation.rename_false] at value
        exact .ok value

/-- Properties that are the same but for the texts of functions. -/
inductive PropertyVaries (v : Variation) (w : World) : Property → Property → Prop
  | field {a a' : Value} (varies : a.Varies v w a') : PropertyVaries v w (.field a) (.field a')
  | method {c c' : Closure} (varies : c.VariesUnbound v w c') :
      PropertyVaries v w (.method c) (.method c')

theorem findProperty (h : Heap.Varies v w heap') (fields : InstanceRef) {c c' : Class}
    (varies : c.Varies v w c') (name : String) :
    Accesses (Option.Rel (PropertyVaries v w)) (w.heap.findProperty ⟨fields, c⟩ name)
      (heap'.findProperty ⟨fields, c'⟩ name) := by
  have related := h.fields fields
  simp only [Heap.findProperty, bind, Except.bind]
  generalize w.heap.fields fields = found, heap'.fields fields = found' at related
  cases related with
  | error access => exact .error access
  | @ok bindings bindings' bound =>
    have value := bound name
    rw [Variation.rename_false] at value
    simp only
    generalize bindings.find? name = a, bindings'.find? name = a' at value
    cases value with
    | some value => exact .ok (.some (.field value))
    | none =>
      refine .ok ?_
      have method := varies.findMethod? name
      generalize c.findMethod? name = m, c'.findMethod? name = m' at method
      cases method with
      | none => exact .none
      | some method => exact .some (.method method)

end Varies

end Heap

end Lox
