import Lox.Proofs.Heap.Collect
import Lox.Proofs.Ideal.Value
import Lox.Proofs.Syntax.Every

/-!
# The heap of a run that never collects garbage

A heap **represents** another one, its ideal, if every object on it is on the ideal heap too, at the
place that is its serial number.  The ideal heap may hold more than that: whatever was collected.

On a **valid** heap every access succeeds, and finds what is found on the ideal heap.  That is all
that a program gets to see of either of them.
-/

namespace Lox

namespace Arena

variable {α : Type} {arena arena' ideal : Arena α} {f : α → α} {index serial : Nat} {a : α}

/-- What the arena holds is held by the ideal one, at the place that is its serial number. -/
structure Represents (f : α → α) (arena ideal : Arena α) : Prop where
  get : ∀ {index serial a}, arena.Holds index serial a → ideal.get? serial = some (f a)
  free : ideal.free = []
  size : ideal.slots.size = arena.allocated
  allocated : ideal.allocated = arena.allocated

theorem get?_alloc (free : arena.free = []) (a : α) (index : Nat) :
    (arena.alloc a).2.get? index = if index = arena.slots.size then some a else arena.get? index := by
  unfold alloc
  split
  · rename_i found
    rw [free] at found
    cases found
  · simp only [get?, Array.getElem?_push]
    split <;> rfl

namespace Represents

theorem alloc_fst (rep : Represents f arena ideal) (a : α) :
    (ideal.alloc a).1 = arena.allocated := by
  unfold Arena.alloc
  split
  · rename_i found
    rw [rep.free] at found
    cases found
  · exact rep.size

theorem alloc (sound : arena.Sound) (rep : Represents f arena ideal) (a : α) :
    Represents f (arena.alloc a).2 (ideal.alloc (f a)).2 where
  get := by
    intro index serial b holds
    rw [get?_alloc rep.free, rep.size]
    rcases (holds_alloc sound).mp holds with ⟨-, rfl, rfl⟩ | holds
    · rw [if_pos rfl]
    · rw [if_neg (Nat.ne_of_lt (sound.serial_lt holds)), rep.get holds]
  free := by
    unfold Arena.alloc
    split
    · rename_i found
      rw [rep.free] at found
      cases found
    · rfl
  size := by
    rw [allocated_alloc]
    unfold Arena.alloc
    split
    · rename_i found
      rw [rep.free] at found
      cases found
    · rw [Array.size_push, rep.size]
  allocated := by rw [allocated_alloc, allocated_alloc, rep.allocated]

theorem modify (sound : arena.Sound) (rep : Represents f arena ideal)
    (there : arena.Holds index serial a) {g g' : α → α} (same : f (g a) = g' (f a)) :
    Represents f (arena.modify index g) (ideal.modify serial g') where
  get := by
    intro index' serial' b holds
    obtain ⟨b, held, rfl⟩ := holds_modify.mp holds
    rw [get?_modify, rep.get held]
    by_cases here : index' = index
    · subst here
      obtain ⟨rfl, rfl⟩ := held.unique there
      rw [if_pos rfl, if_pos rfl, same]
      rfl
    · have ne : serial' ≠ serial := by
        rintro rfl
        exact here (sound.serial_inj held there)
      rw [if_neg ne, if_neg here]
  free := rep.free
  size := by
    rw [Arena.modify, Array.size_modify]
    exact rep.size
  allocated := rep.allocated

/-- An arena that holds less is represented too. -/
theorem of_le (rep : Represents f arena ideal) (allocated : arena'.allocated = arena.allocated)
    (le : ∀ {index serial a}, arena'.Holds index serial a → arena.Holds index serial a) :
    Represents f arena' ideal :=
  ⟨fun holds => rep.get (le holds), rep.free, rep.size.trans allocated.symm,
    rep.allocated.trans allocated.symm⟩

end Represents

end Arena

/-! ## Plain programs -/

/-- No variable is called `this`. -/
def Node.Plain (n : Node) : Prop := n.Names (.names fun name => name.lexeme ≠ thisName)

/-- No variable of the function is called `this`. -/
def Closure.IsPlain (c : Closure) : Prop := c.declaration.Every Node.Plain

/-- No variable of a function in the value is called `this`. -/
def Value.IsPlain (v : Value) : Prop := ∀ c ∈ v.closures, c.IsPlain

theorem Value.IsSimple.isPlain {v : Value} (h : v.IsSimple) : v.IsPlain := by
  intro c mem
  rw [h.closures] at mem
  cases mem

namespace Heap

/-- A property where no place is used twice. -/
def Property.ideal : Property → Property
  | .field v => .field v.ideal
  | .method m => .method m.ideal

variable {heap ideal : Heap} {globals ref : FrameRef} {frame : Frame} {value : Value} {name : String}

/-- A value may be put on the heap. -/
structure Fits (heap : Heap) (v : Value) : Prop where
  bears : heap.Bears v
  plain : v.IsPlain

theorem Fits.of_isSimple (heap : Heap) {v : Value} (h : v.IsSimple) : heap.Fits v := by
  refine ⟨fun object mem => ?_, h.isPlain⟩
  rw [h.referents] at mem
  cases mem

theorem Fits.mono {later : Heap} (h : heap.Fits value)
    (stays : ∀ object, heap.Has object → later.Has object) : later.Fits value :=
  ⟨h.bears.mono stays, h.plain⟩

/-- A closure may be put on the heap. -/
structure FitsClosure (heap : Heap) (c : Closure) : Prop where
  there : heap.Has (.frame c.frame)
  plain : c.IsPlain

theorem FitsClosure.mono {later : Heap} {c : Closure} (h : heap.FitsClosure c)
    (stays : ∀ object, heap.Has object → later.Has object) : later.FitsClosure c :=
  ⟨stays _ h.there, h.plain⟩

theorem fits_function {identity : Identity} {c : Closure} :
    heap.Fits (.function identity c) ↔ heap.FitsClosure c := by
  constructor
  · exact fun fits => ⟨fits.bears _ List.mem_cons_self, fits.plain _ List.mem_cons_self⟩
  · refine fun fits => ⟨fun object mem => ?_, fun c mem => ?_⟩
    · rw [List.mem_singleton.mp mem]
      exact fits.there
    · rw [List.mem_singleton.mp mem]
      exact fits.plain

theorem fits_class {type : Class} :
    heap.Fits (.class_ type) ↔ ∀ c ∈ type.closures, heap.FitsClosure c := by
  constructor
  · refine fun fits c mem => ⟨fits.bears _ ?_, fits.plain c mem⟩
    change HeapObject.frame c.frame ∈ type.referents
    rw [type.referents_eq]
    exact List.mem_map_of_mem mem
  · refine fun fits => ⟨fun object mem => ?_, fun c inClass => (fits c inClass).plain⟩
    change object ∈ type.referents at mem
    rw [type.referents_eq] at mem
    obtain ⟨c, inClass, rfl⟩ := List.mem_map.mp mem
    exact (fits c inClass).there

theorem fits_instance {object : Instance} :
    heap.Fits (.instance_ object) ↔
      heap.Has (.instance_ object.fields) ∧ heap.Fits (.class_ object.type) := by
  constructor
  · exact fun fits => ⟨fits.bears _ List.mem_cons_self,
      fun o mem => fits.bears o (List.mem_cons_of_mem _ mem), fits.plain⟩
  · rintro ⟨there, fits⟩
    refine ⟨fun o mem => ?_, fits.plain⟩
    rcases List.mem_cons.mp mem with rfl | mem
    · exact there
    · exact fits.bears o mem

theorem FitsClosure.of_findMethod? {type : Class} {method : Closure}
    (fits : heap.Fits (.class_ type)) (found : type.findMethod? name = some method) :
    heap.FitsClosure method :=
  fits_class.mp fits method (Class.mem_closures_of_findMethod? found)

/-! ## Valid heaps -/

/-- The heap is sound, all functions on it are plain, and every chain of frames leads, always to
frames made earlier, to the globals. -/
structure Valid (heap : Heap) (globals : FrameRef) : Prop where
  sound : heap.Sound
  hasGlobals : heap.Has (.frame globals)
  plainVariables : ∀ {ref frame}, heap.HoldsFrame ref frame → ∀ v ∈ frame.bindings.values, v.IsPlain
  plainFields : ∀ {ref fields}, heap.HoldsFields ref fields → ∀ v ∈ fields.values, v.IsPlain
  outermost : ∀ {ref frame}, heap.HoldsFrame ref frame → (frame.enclosing = none ↔ ref = globals)
  older : ∀ {ref frame enclosing}, heap.HoldsFrame ref frame → frame.enclosing = some enclosing →
    enclosing.serial < ref.serial

namespace Valid

theorem fits_variable (valid : heap.Valid globals) (holds : heap.HoldsFrame ref frame)
    (found : frame.bindings.find? name = some value) : heap.Fits value :=
  ⟨valid.sound.bears_variable holds found,
    valid.plainVariables holds value (Bindings.mem_values_of_find? found)⟩

theorem fits_field {fieldsRef : InstanceRef} {fields : Bindings Value} (valid : heap.Valid globals)
    (holds : heap.HoldsFields fieldsRef fields) (found : fields.find? name = some value) :
    heap.Fits value :=
  ⟨valid.sound.bears_field holds found,
    valid.plainFields holds value (Bindings.mem_values_of_find? found)⟩

theorem newFrame (valid : heap.Valid globals) {enclosing : FrameRef}
    (there : heap.Has (.frame enclosing)) (construct : Construct) :
    (heap.newFrame (some enclosing) construct).2.Valid globals where
  sound := valid.sound.newFrame (fun ref mem => by cases mem; exact there) construct
  hasGlobals := valid.hasGlobals.newFrame valid.sound.frames _ _
  plainVariables := by
    intro ref frame holds v mem
    rcases (holdsFrame_newFrame valid.sound.frames).mp holds with ⟨-, rfl⟩ | holds
    · cases mem
    · exact valid.plainVariables holds v mem
  plainFields := valid.plainFields
  outermost := by
    intro ref frame holds
    rcases (holdsFrame_newFrame valid.sound.frames).mp holds with ⟨rfl, rfl⟩ | holds
    · simp only [reduceCtorEq, false_iff]
      intro same
      obtain ⟨frame, held⟩ := valid.hasGlobals
      rw [← same] at held
      exact Nat.lt_irrefl _ (valid.sound.frames.serial_lt held)
    · exact valid.outermost holds
  older := by
    intro ref frame e holds encloses
    rcases (holdsFrame_newFrame valid.sound.frames).mp holds with ⟨rfl, rfl⟩ | holds
    · cases encloses
      obtain ⟨frame, held⟩ := there
      exact valid.sound.frames.serial_lt held
    · exact valid.older holds encloses

theorem newInstance (valid : heap.Valid globals) : heap.newInstance.2.Valid globals where
  sound := valid.sound.newInstance
  hasGlobals := valid.hasGlobals.newInstance valid.sound.instances
  plainVariables := valid.plainVariables
  plainFields := by
    intro ref fields holds v mem
    rcases (holdsFields_newInstance valid.sound.instances).mp holds with ⟨-, rfl⟩ | holds
    · cases mem
    · exact valid.plainFields holds v mem
  outermost := valid.outermost
  older := valid.older

theorem newIdentity (valid : heap.Valid globals) : heap.newIdentity.2.Valid globals :=
  ⟨valid.sound.newIdentity, valid.hasGlobals, valid.plainVariables, valid.plainFields, valid.outermost, valid.older⟩

theorem bindVariable (valid : heap.Valid globals) (there : heap.HoldsFrame ref frame)
    (fits : heap.Fits value) (name : String) : (heap.bindVariable ref name value).Valid globals where
  sound := valid.sound.bindVariable there fits.bears name
  hasGlobals := valid.hasGlobals.bindVariable there name value
  plainVariables := by
    intro ref frame holds v mem
    rcases (holdsFrame_bindVariable there).mp holds with ⟨-, rfl⟩ | ⟨-, holds⟩
    · rcases Bindings.mem_values_insert mem with rfl | mem
      · exact fits.plain
      · exact valid.plainVariables there v mem
    · exact valid.plainVariables holds v mem
  plainFields := valid.plainFields
  outermost := by
    intro ref frame holds
    rcases (holdsFrame_bindVariable there).mp holds with ⟨rfl, rfl⟩ | ⟨-, holds⟩
    · simpa using valid.outermost there
    · exact valid.outermost holds
  older := by
    intro ref frame enclosing holds encloses
    rcases (holdsFrame_bindVariable there).mp holds with ⟨rfl, rfl⟩ | ⟨-, holds⟩
    · exact valid.older there encloses
    · exact valid.older holds encloses

theorem bindField {fieldsRef : InstanceRef} {fields : Bindings Value} (valid : heap.Valid globals)
    (there : heap.HoldsFields fieldsRef fields) (fits : heap.Fits value) (name : String) :
    (heap.bindField fieldsRef name value).Valid globals where
  sound := valid.sound.bindField there fits.bears name
  hasGlobals := valid.hasGlobals.bindField there name value
  plainVariables := valid.plainVariables
  plainFields := by
    intro ref fields holds v mem
    rcases (holdsFields_bindField there).mp holds with ⟨-, rfl⟩ | ⟨-, holds⟩
    · rcases Bindings.mem_values_insert mem with rfl | mem
      · exact fits.plain
      · exact valid.plainFields there v mem
    · exact valid.plainFields holds v mem
  outermost := valid.outermost
  older := valid.older

theorem collect {roots : List HeapObject} (valid : heap.Valid globals)
    (there : ∀ object ∈ roots, heap.Has object) (mem : HeapObject.frame globals ∈ roots) :
    (heap.collect roots).2.Valid globals where
  sound := Sound.collect valid.sound there
  hasGlobals := (has_collect valid.sound there).mpr ⟨valid.hasGlobals, .root mem⟩
  plainVariables := fun holds => valid.plainVariables ((holdsFrame_collect valid.sound there).mp holds).1
  plainFields := fun holds => valid.plainFields ((holdsFields_collect valid.sound there).mp holds).1
  outermost := fun holds => valid.outermost ((holdsFrame_collect valid.sound there).mp holds).1
  older := fun holds => valid.older ((holdsFrame_collect valid.sound there).mp holds).1

end Valid

/-! ## Ideal heaps -/

/-- What is on the heap is on the ideal one, at the place that is its serial number. -/
structure Represents (heap ideal : Heap) : Prop where
  frames : Arena.Represents Frame.ideal heap.frames ideal.frames
  instances : Arena.Represents (Bindings.map Value.ideal) heap.instances ideal.instances
  nextIdentity : ideal.nextIdentity = heap.nextIdentity

namespace Represents

theorem access (rep : heap.Represents ideal) (holds : heap.HoldsFrame ref frame) :
    ideal.frame ref.ideal = .ok frame.ideal := by
  have found : ideal.frames.get? ref.ideal.index = some frame.ideal := rep.frames.get holds
  rw [Heap.frame, found]

theorem accessFields {fieldsRef : InstanceRef} {fields : Bindings Value} (rep : heap.Represents ideal)
    (holds : heap.HoldsFields fieldsRef fields) :
    ideal.fields fieldsRef.ideal = .ok (fields.map Value.ideal) := by
  have found : ideal.instances.get? fieldsRef.ideal.index = some (fields.map Value.ideal) :=
    rep.instances.get holds
  rw [Heap.fields, found]

/-! ### Operations on both heaps -/

theorem newFrame_fst (rep : heap.Represents ideal) (enclosing : Option FrameRef)
    (construct : Construct) :
    (ideal.newFrame (enclosing.map FrameRef.ideal) construct).1 =
      (heap.newFrame enclosing construct).1.ideal := by
  simp only [Heap.newFrame, FrameRef.ideal, rep.frames.alloc_fst, rep.frames.allocated]

theorem newFrame (sound : heap.Sound) (rep : heap.Represents ideal) (enclosing : Option FrameRef)
    (construct : Construct) : (heap.newFrame enclosing construct).2.Represents
      (ideal.newFrame (enclosing.map FrameRef.ideal) construct).2 :=
  ⟨rep.frames.alloc sound.frames ⟨.empty, enclosing, construct⟩, rep.instances, rep.nextIdentity⟩

theorem newInstance_fst (rep : heap.Represents ideal) :
    ideal.newInstance.1 = heap.newInstance.1.ideal := by
  simp only [Heap.newInstance, InstanceRef.ideal, rep.instances.alloc_fst, rep.instances.allocated]

theorem newInstance (sound : heap.Sound) (rep : heap.Represents ideal) :
    heap.newInstance.2.Represents ideal.newInstance.2 :=
  ⟨rep.frames, rep.instances.alloc sound.instances .empty, rep.nextIdentity⟩

theorem newIdentity_fst (rep : heap.Represents ideal) : ideal.newIdentity.1 = heap.newIdentity.1 :=
  congrArg Identity.mk rep.nextIdentity

theorem newIdentity (rep : heap.Represents ideal) :
    heap.newIdentity.2.Represents ideal.newIdentity.2 :=
  ⟨rep.frames, rep.instances, congrArg (· + 1) rep.nextIdentity⟩

theorem bindVariable (sound : heap.Sound) (rep : heap.Represents ideal)
    (there : heap.HoldsFrame ref frame) (name : String) (value : Value) :
    (heap.bindVariable ref name value).Represents (ideal.bindVariable ref.ideal name value.ideal) := by
  refine ⟨rep.frames.modify sound.frames there ?_, rep.instances, rep.nextIdentity⟩
  simp only [Frame.ideal, Bindings.map_insert]

theorem bindField {fieldsRef : InstanceRef} {fields : Bindings Value} (sound : heap.Sound)
    (rep : heap.Represents ideal) (there : heap.HoldsFields fieldsRef fields) (name : String)
    (value : Value) : (heap.bindField fieldsRef name value).Represents
      (ideal.bindField fieldsRef.ideal name value.ideal) :=
  ⟨rep.frames, rep.instances.modify sound.instances there (Bindings.map_insert ..), rep.nextIdentity⟩

theorem collect {roots : List HeapObject} (sound : heap.Sound) (rep : heap.Represents ideal)
    (there : ∀ object ∈ roots, heap.Has object) : (heap.collect roots).2.Represents ideal := by
  have remarked := remarked_markFrom sound.cleanFrames sound.cleanInstances roots
  have frames {ref : FrameRef} {frame : Frame}
      (holds : (heap.collect roots).2.HoldsFrame ref frame) : heap.HoldsFrame ref frame :=
    ((holdsFrame_collect sound there).mp holds).1
  have fields {ref : InstanceRef} {fields : Bindings Value}
      (holds : (heap.collect roots).2.HoldsFields ref fields) : heap.HoldsFields ref fields :=
    ((holdsFields_collect sound there).mp holds).1
  exact ⟨rep.frames.of_le remarked.frames.allocated fun {index serial _} => @frames ⟨index, serial⟩ _,
    rep.instances.of_le remarked.instances.allocated fun {index serial _} => @fields ⟨index, serial⟩ _,
    rep.nextIdentity.trans (congrArg Heap.nextIdentity remarked.rest).symm⟩

/-! ### What is found on both heaps -/

theorem ancestor (valid : heap.Valid globals) (rep : heap.Represents ideal)
    (there : heap.Has (.frame ref)) (distance : Nat) :
    ∃ target, heap.ancestor distance ref = .ok target ∧ heap.Has (.frame target) ∧
      ideal.ancestor distance ref.ideal = .ok target.ideal := by
  induction distance generalizing ref with
  | zero => exact ⟨ref, rfl, there, rfl⟩
  | succ distance ih =>
    obtain ⟨frame, holds⟩ := there
    rw [Heap.ancestor, Heap.ancestor, holds.access, rep.access holds]
    obtain ⟨bindings, enclosing, construct⟩ := frame
    cases enclosing with
    | none => exact ⟨ref, rfl, ⟨_, holds⟩, rfl⟩
    | some enclosing => exact ih (valid.sound.has_enclosing holds rfl)

theorem lookupAt (valid : heap.Valid globals) (rep : heap.Represents ideal)
    (there : heap.Has (.frame ref)) (distance : Nat) (name : String) :
    ∃ found, heap.lookupAt ref distance name = .ok found ∧
      ideal.lookupAt ref.ideal distance name = .ok (found.map Value.ideal) ∧
      ∀ v ∈ found, heap.Fits v := by
  obtain ⟨target, reached, ⟨frame, holds⟩, reached'⟩ := rep.ancestor valid there distance
  refine ⟨frame.bindings.find? name, ?_, ?_, fun v found => valid.fits_variable holds found⟩
  · rw [Heap.lookupAt, reached]
    exact congrArg (Except.map fun frame : Frame => frame.bindings.find? name) holds.access
  · rw [Heap.lookupAt, reached']
    refine (congrArg (Except.map fun frame : Frame => frame.bindings.find? name) (rep.access holds)).trans ?_
    exact congrArg Except.ok (Bindings.find?_map ..)

theorem ownerAt (valid : heap.Valid globals) (rep : heap.Represents ideal)
    (there : heap.Has (.frame ref)) (distance : Nat) (name : String) :
    ∃ found, heap.ownerAt ref distance name = .ok found ∧
      ideal.ownerAt ref.ideal distance name = .ok (found.map FrameRef.ideal) ∧
      ∀ owner ∈ found, heap.Has (.frame owner) := by
  obtain ⟨target, reached, ⟨frame, holds⟩, reached'⟩ := rep.ancestor valid there distance
  refine ⟨if frame.bindings.contains name then some target else none, ?_, ?_, ?_⟩
  · rw [Heap.ownerAt, reached]
    exact congrArg (Except.map fun frame : Frame =>
      if frame.bindings.contains name then some target else none) holds.access
  · rw [Heap.ownerAt, reached']
    refine (congrArg (Except.map fun frame : Frame =>
      if frame.bindings.contains name then some target.ideal else none) (rep.access holds)).trans ?_
    simp only [Except.map, Frame.ideal, Bindings.contains_map]
    split <;> rfl
  · intro owner mem
    split at mem
    · cases mem
      exact ⟨frame, holds⟩
    · cases mem

/-- The globals have no frame around them, so that a search from there is over at once. -/
theorem owner (valid : heap.Valid globals) (rep : heap.Represents ideal) (name : String) :
    ∃ found, heap.owner globals name = .ok found ∧
      ideal.owner globals.ideal name = .ok (found.map FrameRef.ideal) ∧
      ∀ owner ∈ found, owner = globals := by
  obtain ⟨frame, holds⟩ := valid.hasGlobals
  have outermost := (valid.outermost holds).mpr rfl
  have found := rep.access holds
  obtain ⟨bindings, enclosing, construct⟩ := frame
  obtain rfl : enclosing = none := outermost
  refine ⟨if bindings.contains name then some globals else none, ?_, ?_, ?_⟩
  · simp only [Heap.owner, ownerWithin, holds.access, bind, Except.bind]
    split <;> rfl
  · simp only [Heap.owner, ownerWithin, found, bind, Except.bind, Frame.ideal, Bindings.contains_map]
    split <;> rfl
  · intro owner mem
    split at mem <;> cases mem
    rfl

theorem lookup (valid : heap.Valid globals) (rep : heap.Represents ideal) (name : String) :
    ∃ found, heap.lookup globals name = .ok found ∧
      ideal.lookup globals.ideal name = .ok (found.map Value.ideal) ∧
      ∀ v ∈ found, heap.Fits v := by
  obtain ⟨owner, here, there, only⟩ := rep.owner valid name
  rw [Heap.lookup, Heap.lookup, here, there]
  cases owner with
  | none => exact ⟨none, rfl, rfl, fun v mem => by cases mem⟩
  | some owner =>
    obtain rfl := only owner rfl
    obtain ⟨frame, holds⟩ := valid.hasGlobals
    refine ⟨frame.bindings.find? name, ?_, ?_, fun v found => valid.fits_variable holds found⟩
    · exact congrArg (Except.map fun frame : Frame => frame.bindings.find? name) holds.access
    · refine (congrArg (Except.map fun frame : Frame => frame.bindings.find? name) (rep.access holds)).trans ?_
      exact congrArg Except.ok (Bindings.find?_map ..)

end Represents

theorem Represents.findProperty {object : Instance} (valid : heap.Valid globals)
    (rep : heap.Represents ideal) (fits : heap.Fits (.instance_ object)) (name : String) :
    ∃ found, heap.findProperty object name = .ok found ∧
      ideal.findProperty object.ideal name = .ok (found.map Property.ideal) ∧
      (∀ v, found = some (.field v) → heap.Fits v) ∧
      ∀ method, found = some (.method method) → heap.FitsClosure method := by
  obtain ⟨⟨fields, holds⟩, type⟩ := fits_instance.mp fits
  have found' := rep.accessFields holds
  simp only [Heap.findProperty, holds.access, Instance.ideal, found', bind, Except.bind,
    Bindings.find?_map, Class.findMethod?_ideal]
  cases found : fields.find? name with
  | some v =>
    refine ⟨some (.field v), rfl, rfl, fun w same => ?_, fun method same => by cases same⟩
    cases same
    exact valid.fits_field holds found
  | none =>
    refine ⟨(object.type.findMethod? name).map .method, rfl, ?_, fun v same => ?_,
      fun method same => ?_⟩
    · simp only [Option.map_none, Option.map_map]
      rfl
    · obtain ⟨_, _, same⟩ := Option.map_eq_some_iff.mp same
      cases same
    · obtain ⟨method', found, same⟩ := Option.map_eq_some_iff.mp same
      cases same
      exact .of_findMethod? type found

end Heap

end Lox
