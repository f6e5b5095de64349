import Lox.Proofs.Evaluation.Action
import Lox.Proofs.Heap.Objects

/-!
# Names and distances

A variable is found by its name, in the nearest frame of the chain that binds it, or at a distance
that was worked out beforehand.  On a chain that comes to an end (`Heap.Chain`) the two are the same
wherever the distance is that of the nearest frame that binds the name (`Heap.Nearest`): the same value
is read, and the same variable of the same frame is changed, and nothing else (`Heap.Rebinds`).

The search by name counts slots so as not to go round in a circle.  A chain that comes to an end passes
no slot twice (`Heap.Chain.nodup`), so the count never cuts a search short.
-/

namespace Lox.Heap

variable {heap heap' : Heap} {ref ref' owner : FrameRef} {frame frame' : Frame}
  {chain chain' : List (FrameRef × Frame)} {name other : String} {value : Value} {k : Nat}

/-- The frames from `ref` outwards, all of them there, up to one that has no frame around it. -/
inductive Chain (heap : Heap) : FrameRef → List (FrameRef × Frame) → Prop
  | outermost {ref : FrameRef} {frame : Frame} (access : heap.frame ref = .ok frame)
      (enclosing : frame.enclosing = none) : Chain heap ref [(ref, frame)]
  | inside {ref outer : FrameRef} {frame : Frame} {chain : List (FrameRef × Frame)}
      (access : heap.frame ref = .ok frame) (enclosing : frame.enclosing = some outer)
      (rest : Chain heap outer chain) : Chain heap ref ((ref, frame) :: chain)

/-- The first frame of a chain that binds a name is `k` links out. -/
structure Nearest (chain : List (FrameRef × Frame)) (name : String) (k : Nat) (owner : FrameRef)
    (frame : Frame) : Prop where
  at_ : chain[k]? = some (owner, frame)
  binds : frame.bindings.contains name = true
  /-- No frame before it binds the name. -/
  least : ∀ j < k, ∀ entry, chain[j]? = some entry → entry.2.bindings.contains name = false

/-- One variable of one frame has a new value, and everything else on the heap is what it was. -/
structure Rebinds (heap : Heap) (owner : FrameRef) (frame : Frame) (name : String) (value : Value)
    (heap' : Heap) : Prop where
  /-- The frame is as before, but for its bindings. -/
  access : heap'.frame owner = .ok { frame with bindings := frame.bindings.insert name value }
  new : (frame.bindings.insert name value).find? name = some value
  others : ∀ other ≠ name,
    (frame.bindings.insert name value).find? other = frame.bindings.find? other
  /-- No name is bound that was not, and their order is the same. -/
  names : (frame.bindings.insert name value).names = frame.bindings.names
  elsewhere : ∀ ref : FrameRef, ref.index ≠ owner.index → heap'.frame ref = heap.frame ref
  /-- The slots of frames keep their marks and serial numbers. -/
  slots : heap'.frames.slots.map (fun slot => (slot.marked, slot.serial)) =
    heap.frames.slots.map fun slot => (slot.marked, slot.serial)
  /-- Nothing but the slots of frames has changed. -/
  rest : heap' = { heap with frames := { heap.frames with slots := heap'.frames.slots } }

/-! ## The frames of a chain -/

namespace Chain

theorem length_pos (h : heap.Chain ref chain) : 0 < chain.length := by
  cases h <;> simp

theorem access (h : heap.Chain ref chain) :
    ∀ entry ∈ chain, heap.frame entry.1 = .ok entry.2 := by
  induction h with
  | outermost access _ => simpa using access
  | inside access _ _ ih => simpa using ⟨access, fun a b mem => ih (a, b) mem⟩

/-- Each frame of a chain begins what is left of it. -/
theorem drop (h : heap.Chain ref chain) (at_ : chain[k]? = some (ref', frame)) :
    heap.Chain ref' (chain.drop k) := by
  induction h generalizing k with
  | outermost access enclosing =>
    cases k with
    | zero => cases at_; exact .outermost access enclosing
    | succ k => cases at_
  | inside access enclosing rest ih =>
    cases k with
    | zero => cases at_; exact .inside access enclosing rest
    | succ k => exact ih at_

/-- References to one slot begin chains of the same length. -/
theorem length_eq (h : heap.Chain ref chain) (h' : heap.Chain ref' chain')
    (same : ref.index = ref'.index) : chain.length = chain'.length := by
  induction h generalizing ref' chain' with
  | outermost access enclosing =>
    cases h' with
    | outermost => rfl
    | inside access' enclosing' _ =>
      cases (get?_of_frame access).symm.trans (same ▸ get?_of_frame access')
      exact absurd (enclosing.symm.trans enclosing') (by simp)
  | inside access enclosing rest ih =>
    cases h' with
    | outermost access' enclosing' =>
      cases (get?_of_frame access).symm.trans (same ▸ get?_of_frame access')
      exact absurd (enclosing.symm.trans enclosing') (by simp)
    | inside access' enclosing' rest' =>
      cases (get?_of_frame access).symm.trans (same ▸ get?_of_frame access')
      cases enclosing.symm.trans enclosing'
      exact congrArg (· + 1) (ih rest' rfl)

/-- No slot is passed twice. -/
theorem nodup (h : heap.Chain ref chain) : (chain.map fun entry => entry.1.index).Nodup := by
  induction h with
  | outermost => simp
  | @inside ref outer frame chain access enclosing rest ih =>
    refine List.nodup_cons.mpr ⟨fun mem => ?_, ih⟩
    obtain ⟨⟨again, frame'⟩, mem, same⟩ := List.mem_map.mp mem
    obtain ⟨k, at_⟩ := List.mem_iff_getElem?.mp mem
    -- Coming back to the first slot, the chain would be as long as what is left of it.
    have := (Chain.inside access enclosing rest).length_eq (rest.drop at_) same.symm
    simp only [List.length_cons, List.length_drop] at this
    omega

theorem length_le (h : heap.Chain ref chain) : chain.length ≤ heap.frames.slots.size := by
  have within : (chain.map fun entry => entry.1.index) ⊆ List.range heap.frames.slots.size := by
    intro index passed
    obtain ⟨entry, mem, rfl⟩ := List.mem_map.mp passed
    obtain ⟨_, holds⟩ := Arena.get?_eq_some_iff.mp (get?_of_frame (h.access entry mem))
    exact List.mem_range.mpr holds.lt_size
  simpa using (h.nodup.subperm within).length_le

/-! ## Looking along a chain -/

/-- Fuel that is enough for the whole chain finds the first frame that binds the name. -/
theorem ownerWithin_eq (h : heap.Chain ref chain) (name : String) {fuel : Nat}
    (enough : chain.length ≤ fuel) : heap.ownerWithin name fuel ref =
      .ok ((chain.find? fun entry => entry.2.bindings.contains name).map Prod.fst) := by
  induction h generalizing fuel with
  | @outermost ref frame access enclosing =>
    obtain ⟨fuel, rfl⟩ := Nat.exists_eq_add_of_lt enough
    simp only [ownerWithin, access, enclosing, bind, Except.bind, List.find?]
    cases frame.bindings.contains name <;> rfl
  | @inside ref outer frame chain access enclosing _ ih =>
    obtain ⟨fuel, rfl⟩ := Nat.exists_eq_add_of_lt enough
    simp only [ownerWithin, access, enclosing, bind, Except.bind, List.find?]
    cases frame.bindings.contains name with
    | true => rfl
    | false => exact ih (by simp)

theorem owner_eq (h : heap.Chain ref chain) (name : String) : heap.owner ref name =
    .ok ((chain.find? fun entry => entry.2.bindings.contains name).map Prod.fst) :=
  h.ownerWithin_eq name (Nat.le_succ_of_le h.length_le)

theorem ancestor_eq (h : heap.Chain ref chain) (at_ : chain[k]? = some (ref', frame)) :
    heap.ancestor k ref = .ok ref' := by
  induction h generalizing k with
  | outermost access enclosing =>
    cases k with
    | zero => cases at_; rfl
    | succ k => cases at_
  | inside access enclosing rest ih =>
    cases k with
    | zero => cases at_; rfl
    | succ k =>
      simp only [ancestor, access, enclosing, bind, Except.bind]
      exact ih at_

theorem owner_of_nearest (h : heap.Chain ref chain) (nearest : Nearest chain name k owner frame) :
    heap.owner ref name = .ok (some owner) := by
  have found : chain.find? (fun entry => entry.2.bindings.contains name) = some (owner, frame) := by
    obtain ⟨lt, at_⟩ := List.getElem?_eq_some_iff.mp nearest.at_
    refine List.find?_eq_some_iff_getElem.mpr ⟨nearest.binds, k, lt, at_, fun j before => ?_⟩
    rw [nearest.least j before _ (List.getElem?_eq_getElem (before.trans lt))]
    rfl
  rw [h.owner_eq, found]
  rfl

theorem owner_of_unbound (h : heap.Chain ref chain)
    (unbound : ∀ entry ∈ chain, entry.2.bindings.contains name = false) :
    heap.owner ref name = .ok none := by
  have missing : chain.find? (fun entry => entry.2.bindings.contains name) = none :=
    List.find?_eq_none.mpr fun entry mem => by simp [unbound entry mem]
  rw [h.owner_eq, missing]
  rfl

theorem ownerAt_of_nearest (h : heap.Chain ref chain)
    (nearest : Nearest chain name k owner frame) : heap.ownerAt ref k name = .ok (some owner) := by
  have access := h.access _ (List.mem_of_getElem? nearest.at_)
  simp only [ownerAt, h.ancestor_eq nearest.at_, access, nearest.binds, bind, Except.bind, if_true]
  rfl

end Chain

/-! ## What is looked up after a variable has changed -/

theorem frame_bindVariable (heap : Heap) (owner : FrameRef) (name : String) (value : Value)
    (ref : FrameRef) : (heap.bindVariable owner name value).frame ref =
      (heap.frame ref).map fun frame =>
        if ref.index = owner.index then
          { frame with bindings := frame.bindings.insert name value } else frame := by
  simp only [Heap.frame, get?_bindVariable]
  cases heap.frames.get? ref.index <;> by_cases same : ref.index = owner.index <;>
    simp [same, Except.map]

/-- A change after which the same frames bind `other` does not change where `other` is found. -/
theorem owner_bindVariable (same : ∀ frame, heap.frame owner = .ok frame →
      (frame.bindings.insert name value).contains other = frame.bindings.contains other)
    (ref : FrameRef) : (heap.bindVariable owner name value).owner ref other = heap.owner ref other := by
  have size : (heap.bindVariable owner name value).frames.slots.size = heap.frames.slots.size := by
    simp [bindVariable, Arena.modify]
  rw [Heap.owner, Heap.owner, size]
  generalize heap.frames.slots.size + 1 = fuel
  induction fuel generalizing ref with
  | zero => rfl
  | succ fuel ih =>
    simp only [ownerWithin, frame_bindVariable]
    cases access : heap.frame ref with
    | error dangling => rfl
    | ok frame =>
      simp only [Except.map, bind, Except.bind]
      split
      · next index =>
        rw [same frame (by rw [Heap.frame, ← index, get?_of_frame access])]
        simp only [ih]
      · simp only [ih]

/-- Binding a variable of a frame changes what is found under no other name, from nowhere. -/
theorem lookup_bindVariable_of_ne (ne : other ≠ name) (ref : FrameRef) :
    (heap.bindVariable owner name value).lookup ref other = heap.lookup ref other := by
  have same (frame : Frame) : (frame.bindings.insert name value).find? other =
      frame.bindings.find? other := Bindings.find?_insert_of_ne _ ne.symm _
  rw [lookup, lookup, owner_bindVariable fun frame _ => by
    rw [Bindings.contains, Bindings.contains, same]]
  cases heap.owner ref other with
  | error dangling => rfl
  | ok found =>
    cases found with
    | none => rfl
    | some found =>
      simp only [bind, Except.bind, frame_bindVariable]
      cases heap.frame found with
      | error dangling => rfl
      | ok frame =>
        simp only [Except.map]
        split
        · rw [same]
        · rfl

/-- The nearest variable of a name has the value that it was given. -/
theorem lookup_bindVariable_owner (access : heap.frame owner = .ok frame)
    (binds : frame.bindings.contains name = true) (found : heap.owner ref name = .ok (some owner)) :
    (heap.bindVariable owner name value).lookup ref name = .ok (some value) := by
  have kept : (heap.bindVariable owner name value).owner ref name = heap.owner ref name := by
    refine owner_bindVariable (fun frame' access' => ?_) ref
    obtain rfl := Except.ok.inj (access.symm.trans access')
    rw [Bindings.contains_insert, binds, Bool.or_true]
  rw [lookup, kept, found]
  simp [bind, Except.bind, frame_bindVariable, access, Except.map, pure, Except.pure]

theorem rebinds_bindVariable (access : heap.frame owner = .ok frame)
    (binds : frame.bindings.contains name = true) (value : Value) :
    heap.Rebinds owner frame name value (heap.bindVariable owner name value) where
  access := by simp [frame_bindVariable, access, Except.map]
  new := Bindings.find?_insert_self ..
  others other ne := Bindings.find?_insert_of_ne _ ne.symm _
  names := by rw [Bindings.names_insert, if_pos binds]
  elsewhere ref ne := by
    rw [frame_bindVariable]
    cases heap.frame ref <;> simp [Except.map, ne]
  slots := by
    apply Array.ext_getElem?
    intro index
    simp only [bindVariable, Arena.modify, Array.getElem?_map, Array.getElem?_modify]
    split
    · cases heap.frames.slots[index]? <;> rfl
    · rfl
  rest := rfl

/-! ## Distances add up -/

/-- A distance that leads out of the chain leads to its last frame. -/
theorem Chain.ancestor_eq_min (h : heap.Chain ref chain) (distance : Nat) : ∃ target frame,
    chain[min distance (chain.length - 1)]? = some (target, frame) ∧
      heap.ancestor distance ref = .ok target := by
  induction h generalizing distance with
  | @outermost ref frame access enclosing =>
    refine ⟨ref, frame, by simp, ?_⟩
    cases distance with
    | zero => rfl
    | succ distance => simp [ancestor, access, enclosing, bind, Except.bind, pure, Except.pure]
  | @inside ref outer frame chain access enclosing rest ih =>
    cases distance with
    | zero => exact ⟨ref, frame, by simp, rfl⟩
    | succ distance =>
      obtain ⟨target, frame', at_, reached⟩ := ih distance
      have index : min (distance + 1) (((ref, frame) :: chain).length - 1) =
          min distance (chain.length - 1) + 1 := by
        have := rest.length_pos
        simp only [List.length_cons]
        omega
      refine ⟨target, frame', by rw [index]; exact at_, ?_⟩
      simp only [ancestor, access, enclosing, bind, Except.bind]
      exact reached

/-- Distances add up on any heap, also where a chain is too short, goes round in a circle or is
broken. -/
theorem ancestor_add (heap : Heap) (m n : Nat) (ref : FrameRef) :
    heap.ancestor (m + n) ref = heap.ancestor m ref >>= heap.ancestor n := by
  induction m generalizing ref with
  | zero => rw [Nat.zero_add]; rfl
  | succ m ih =>
    rw [Nat.add_right_comm, ancestor, ancestor]
    cases access : heap.frame ref with
    | error dangling => rfl
    | ok frame =>
      obtain ⟨bindings, enclosing, construct⟩ := frame
      cases enclosing with
      | some outer => exact ih outer
      | none =>
        cases n with
        | zero => rfl
        | succ n => simp [bind, Except.bind, pure, Except.pure, ancestor, access]

/-! ## Reading and changing a variable either way -/

/-- Reading and changing a variable of the chain of `env`, by its name and at distance `k`, comes to the
same: the value is `current`, and a change of it leads to `heap'`. -/
structure Agrees (heap : Heap) (env : FrameRef) (k : Nat) (name : Ident) (current value : Value)
    (heap' : Heap) : Prop where
  lookup : heap.lookup env name.lexeme = .ok (some current)
  lookupAt : heap.lookupAt env k name.lexeme = .ok (some current)
  assign : heap.assign env name.lexeme value = .ok (some heap')
  assignAt : heap.assignAt env k name.lexeme value = .ok (some heap')
  /-- So do actions of a program, whichever way its text has been resolved. -/
  actions : ∀ st : State, st.heap = heap →
    (st.globals = env →
      Eval.lookUp name.lexeme name.line none st = .done (.ok current, st) ∧
      Eval.assign ⟨name, none⟩ value st = .done (.ok (), { st with heap := heap' })) ∧
    (st.current = env →
      Eval.lookUp name.lexeme name.line (some k) st = .done (.ok current, st) ∧
      Eval.assign ⟨name, some k⟩ value st = .done (.ok (), { st with heap := heap' }))

/-- A variable is not to be found from `env`: reading and changing it fail, with one and the same
error, and change nothing. -/
structure Fails (heap : Heap) (env : FrameRef) (name : Ident) (value : Value) : Prop where
  lookup : heap.lookup env name.lexeme = .ok none
  assign : heap.assign env name.lexeme value = .ok none
  actions : ∀ st : State, st.heap = heap → st.globals = env →
    let error : RuntimeError := ⟨name.line, .undefinedVariable name.lexeme⟩
    Eval.lookUp name.lexeme name.line none st = .done (.error (.error error), st) ∧
    Eval.assign ⟨name, none⟩ value st = .done (.error (.error error), st)

theorem Chain.agrees (h : heap.Chain ref chain) {name : Ident}
    (nearest : Nearest chain name.lexeme k owner frame) (value : Value) :
    ∃ current, frame.bindings.find? name.lexeme = some current ∧
      heap.Agrees ref k name current value (heap.bindVariable owner name.lexeme value) := by
  obtain ⟨current, bound⟩ := Option.isSome_iff_exists.mp nearest.binds
  have access := h.access _ (List.mem_of_getElem? nearest.at_)
  have byName := h.owner_of_nearest nearest
  have atDistance := h.ownerAt_of_nearest nearest
  have read : heap.lookup ref name.lexeme = .ok (some current) := by
    rw [Heap.lookup, byName]
    simp [bind, Except.bind, access, bound, pure, Except.pure]
  have readAt : heap.lookupAt ref k name.lexeme = .ok (some current) := by
    rw [Heap.lookupAt, h.ancestor_eq nearest.at_]
    simp [bind, Except.bind, access, bound, pure, Except.pure]
  refine ⟨current, bound, read, readAt, by rw [Heap.assign, byName]; rfl,
    by rw [Heap.assignAt, atDistance]; rfl, ?_⟩
  rintro st rfl
  constructor
  · rintro rfl
    exact ⟨Eval.lookUp_global read, Eval.assign_global byName⟩
  · rintro rfl
    exact ⟨Eval.lookUp_local readAt, Eval.assign_local atDistance⟩

theorem Chain.fails (h : heap.Chain ref chain) {name : Ident}
    (unbound : ∀ entry ∈ chain, entry.2.bindings.contains name.lexeme = false) (value : Value) :
    heap.Fails ref name value := by
  have missing := h.owner_of_unbound unbound
  have read : heap.lookup ref name.lexeme = .ok none := by rw [Heap.lookup, missing]; rfl
  refine ⟨read, by rw [Heap.assign, missing]; rfl, ?_⟩
  rintro st rfl rfl
  exact ⟨Eval.lookUp_global read, Eval.assign_global missing⟩

/-- **A distance leads to the same variable as a name.** Take any frame whose chain comes to an end, and
any name.  If the nearest frame of the chain that binds the name is `k` links out, then the variable is
read and changed by its name as it is at distance `k`; a change concerns that one binding of that one
frame, so that it is read back from there on and nothing else is, under any other name and from any
frame.  If no frame of the chain binds the name, then reading and changing it fail alike and leave the
heap as it is.  And distances along the chain add up, where those that lead out of it stop at its last
frame. -/
theorem distance_agrees_with_name (h : heap.Chain ref chain) (name : Ident) (value : Value) :
    (∀ k owner frame, Nearest chain name.lexeme k owner frame →
      ∃ current heap', frame.bindings.find? name.lexeme = some current ∧
        heap.Agrees ref k name current value heap' ∧
        heap.Rebinds owner frame name.lexeme value heap' ∧
        heap'.lookup ref name.lexeme = .ok (some value) ∧
        ∀ from_ other, other ≠ name.lexeme → heap'.lookup from_ other = heap.lookup from_ other) ∧
    ((∀ entry ∈ chain, entry.2.bindings.contains name.lexeme = false) →
      heap.Fails ref name value) ∧
    ∀ m n, ∃ nearer farther frame, heap.ancestor m ref = .ok nearer ∧
      heap.ancestor n nearer = .ok farther ∧ heap.ancestor (m + n) ref = .ok farther ∧
      chain[min (m + n) (chain.length - 1)]? = some (farther, frame) := by
  refine ⟨fun k owner frame nearest => ?_, fun unbound => h.fails unbound value, fun m n => ?_⟩
  · obtain ⟨current, bound, agrees⟩ := h.agrees nearest value
    have access := h.access _ (List.mem_of_getElem? nearest.at_)
    exact ⟨current, _, bound, agrees, rebinds_bindVariable access nearest.binds value,
      lookup_bindVariable_owner access nearest.binds (h.owner_of_nearest nearest),
      fun from_ other ne => lookup_bindVariable_of_ne ne from_⟩
  · obtain ⟨nearer, _, -, reached⟩ := h.ancestor_eq_min m
    obtain ⟨farther, frame, at_, reached'⟩ := h.ancestor_eq_min (m + n)
    refine ⟨nearer, farther, frame, reached, ?_, reached', at_⟩
    rw [ancestor_add, reached] at reached'
    exact reached'

/-- Three scopes, of which the outermost and the middle one bind `x` and the outermost also `y`. -/
def threeScopes : Heap :=
  let (outermost, heap) := (Heap.new ⟨1, 1, 1, Nat.one_pos, Nat.one_pos⟩).newFrame none
  let (middle, heap) := heap.newFrame (some outermost)
  let (_, heap) := heap.newFrame (some middle)
  ((heap.bindVariable outermost "x" (.string "outer")).bindVariable outermost "y" .nil).bindVariable
    middle "x" (.string "inner")

/-- From the innermost of three scopes, the nearest `x` is one link out, and there is no `z`. -/
theorem distance_agrees_with_name_threeScopes :
    (∃ current heap', threeScopes.Agrees ⟨2, 2⟩ 1 ⟨"x", "x", 1⟩ current (.boolean true) heap' ∧
      heap'.lookup ⟨2, 2⟩ "x" = .ok (some (.boolean true)) ∧
      heap'.lookup ⟨0, 0⟩ "y" = threeScopes.lookup ⟨0, 0⟩ "y") ∧
    threeScopes.Fails ⟨2, 2⟩ ⟨"z", "z", 1⟩ .nil := by
  have chain : threeScopes.Chain ⟨2, 2⟩ [(⟨2, 2⟩, ⟨⟨[]⟩, some ⟨1, 1⟩, .program⟩),
      (⟨1, 1⟩, ⟨⟨[("x", .string "inner")]⟩, some ⟨0, 0⟩, .program⟩),
      (⟨0, 0⟩, ⟨⟨[("x", .string "outer"), ("y", .nil)]⟩, none, .program⟩)] :=
    .inside rfl rfl (.inside rfl rfl (.outermost rfl rfl))
  have nearest := (distance_agrees_with_name chain ⟨"x", "x", 1⟩ (.boolean true)).1 1 _ _
    ⟨rfl, by decide +kernel, by
      intro j before entry at_
      obtain rfl : j = 0 := by omega
      cases at_
      rfl⟩
  obtain ⟨current, heap', -, agrees, -, read, others⟩ := nearest
  exact ⟨⟨current, heap', agrees, read, others _ _ (by decide)⟩,
    (distance_agrees_with_name chain ⟨"z", "z", 1⟩ .nil).2.1 (by decide +kernel)⟩

end Lox.Heap
