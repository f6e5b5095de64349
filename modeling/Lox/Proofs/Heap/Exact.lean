import Lox.Proofs.Heap.Worklist

/-!
# Collections are exact

What a collection is to keep is said here without the collector: `Heap.Reached` follows, from some
frames and some values, the enclosing links and the bindings of frames, the fields of instances, the
frames of functions, and the frames of the methods of a class and of its superclasses.

`Heap.Built` is a heap that any operations have made, in any order and with any arguments.  Nothing is
asked of the references in it: they may be to slots that are empty, or that are used for something else
by now.  On such a heap a collection keeps the slots that are reached, as they were, and no others, and
it reports how many (`Heap.exact_of_built`).
-/

namespace Lox

/-- A class has a method, of its own or from a superclass. -/
inductive Class.Offers : Class → Closure → Prop
  | own {type : Class} {method : Closure} (mem : method ∈ type.own.methods.values) :
      type.Offers method
  | inherited {type parent : Class} {method : Closure} (link : type.superclass? = some parent)
      (offers : parent.Offers method) : type.Offers method

/-- A value refers to a slot of the heap. -/
inductive Value.RefersTo : Value → Place → Prop
  | closure (identity : Identity) (closure : Closure) :
      (Value.function identity closure).RefersTo (.frame closure.frame.index)
  | method {type : Class} {method : Closure} (offers : type.Offers method) :
      (Value.class_ type).RefersTo (.frame method.frame.index)
  | fields (object : Instance) :
      (Value.instance_ object).RefersTo (.instance_ object.fields.index)
  | methodOf {object : Instance} {method : Closure} (offers : object.type.Offers method) :
      (Value.instance_ object).RefersTo (.frame method.frame.index)

theorem Class.offers_iff {type : Class} {method : Closure} :
    type.Offers method ↔ ∃ body ∈ type.lineage, method ∈ body.methods.values := by
  constructor
  · intro offers
    induction offers with
    | own mem => exact ⟨_, List.mem_cons_self, mem⟩
    | @inherited type parent method link _ ih =>
      obtain ⟨body, isParents, mem⟩ := ih
      obtain ⟨own, inherited⟩ := type
      cases inherited with
      | nil => cases link
      | cons first rest =>
        cases link
        exact ⟨body, List.mem_cons_of_mem _ isParents, mem⟩
  · rintro ⟨body, isOf, mem⟩
    obtain ⟨own, inherited⟩ := type
    -- Each body of the lineage is the own one of a superclass further up.
    induction inherited generalizing own with
    | nil =>
      obtain rfl := List.mem_singleton.mp isOf
      exact .own mem
    | cons first rest ih =>
      rcases List.mem_cons.mp isOf with rfl | isParents
      · exact .own mem
      · exact .inherited rfl (ih first isParents)

theorem Class.mem_referents {type : Class} {place : Place} :
    place ∈ type.referents.map HeapObject.place ↔
      ∃ method, type.Offers method ∧ place = .frame method.frame.index := by
  simp only [Class.offers_iff, Class.referents, List.map_flatMap, List.mem_flatMap, List.map_map,
    List.mem_map, Function.comp_apply, HeapObject.place]
  constructor
  · rintro ⟨body, isOf, method, mem, rfl⟩
    exact ⟨method, ⟨body, isOf, mem⟩, rfl⟩
  · rintro ⟨method, ⟨body, isOf, mem⟩, rfl⟩
    exact ⟨body, isOf, method, mem, rfl⟩

theorem Value.refersTo_iff {value : Value} {place : Place} :
    value.RefersTo place ↔ place ∈ value.referents.map HeapObject.place := by
  constructor
  · intro refers
    cases refers with
    | closure identity closure => exact List.mem_singleton_self _
    | method offers => exact Class.mem_referents.mpr ⟨_, offers, rfl⟩
    | fields object => exact List.mem_cons_self
    | methodOf offers => exact List.mem_cons_of_mem _ (Class.mem_referents.mpr ⟨_, offers, rfl⟩)
  · intro mem
    cases value with
    | function identity closure =>
      obtain rfl := List.mem_singleton.mp mem
      exact .closure identity closure
    | class_ type =>
      obtain ⟨method, offers, rfl⟩ := Class.mem_referents.mp mem
      exact .method offers
    | instance_ object =>
      rcases List.mem_cons.mp mem with rfl | mem
      · exact .fields object
      · obtain ⟨method, offers, rfl⟩ := Class.mem_referents.mp mem
        exact .methodOf offers
    | _ => cases mem

namespace Heap

variable {heap heap' : Heap} {frames : List FrameRef} {values : List Value} {place : Place}

/-- A slot is reached from some frames and values. -/
inductive Reached (heap : Heap) (frames : List FrameRef) (values : List Value) : Place → Prop
  | root {ref : FrameRef} (mem : ref ∈ frames) : heap.Reached frames values (.frame ref.index)
  | value {value : Value} {place : Place} (mem : value ∈ values) (refers : value.RefersTo place) :
      heap.Reached frames values place
  | enclosing {index : Nat} {frame : Frame} {ref : FrameRef}
      (before : heap.Reached frames values (.frame index))
      (found : heap.frames.get? index = some frame) (link : frame.enclosing = some ref) :
      heap.Reached frames values (.frame ref.index)
  | binding {index : Nat} {frame : Frame} {value : Value} {place : Place}
      (before : heap.Reached frames values (.frame index))
      (found : heap.frames.get? index = some frame) (mem : value ∈ frame.bindings.values)
      (refers : value.RefersTo place) : heap.Reached frames values place
  | field {index : Nat} {fields : Bindings Value} {value : Value} {place : Place}
      (before : heap.Reached frames values (.instance_ index))
      (found : heap.instances.get? index = some fields) (mem : value ∈ fields.values)
      (refers : value.RefersTo place) : heap.Reached frames values place

/-- What a collection starts from, for these frames and values. -/
def rootsOf (frames : List FrameRef) (values : List Value) : List HeapObject :=
  frames.map HeapObject.frame ++ values.flatMap Value.referents

/-- What is reached from some frames is reached from more. -/
theorem Reached.mono {frames' : List FrameRef} (more : ∀ ref ∈ frames, ref ∈ frames')
    (reached : heap.Reached frames values place) : heap.Reached frames' values place := by
  induction reached with
  | root mem => exact .root (more _ mem)
  | value mem refers => exact .value mem refers
  | enclosing _ found link ih => exact .enclosing ih found link
  | binding _ found mem refers ih => exact .binding ih found mem refers
  | field _ found mem refers ih => exact .field ih found mem refers

/-- What a place on the heap leads to by one reference. -/
theorem Reached.next {object object' : HeapObject}
    (before : heap.Reached frames values object.place) (mem : object' ∈ heap.referents object) :
    heap.Reached frames values object'.place := by
  cases object with
  | frame ref =>
    simp only [referents] at mem
    split at mem
    · rename_i frame found
      rcases List.mem_append.mp mem with mem | mem
      · obtain ⟨target, link, rfl⟩ := List.mem_map.mp mem
        exact .enclosing before found (Option.mem_toList.mp link)
      · obtain ⟨value, bound, mem⟩ := List.mem_flatMap.mp mem
        exact .binding before found bound (Value.refersTo_iff.mpr (List.mem_map_of_mem mem))
    · cases mem
  | instance_ ref =>
    simp only [referents] at mem
    split at mem
    · rename_i fields found
      obtain ⟨value, bound, mem⟩ := List.mem_flatMap.mp mem
      exact .field before found bound (Value.refersTo_iff.mpr (List.mem_map_of_mem mem))
    · cases mem

/-- What the collector goes by is what it should go by. -/
theorem reaches_iff_reached : heap.Reaches (rootsOf frames values) place ↔
    heap.Reached frames values place := by
  have refers {value : Value} {place : Place} (h : value.RefersTo place) :
      ∃ object ∈ value.referents, object.place = place :=
    List.mem_map.mp (Value.refersTo_iff.mp h)
  constructor
  · rintro ⟨object, reachable, rfl⟩
    induction reachable with
    | root mem =>
      rcases List.mem_append.mp mem with mem | mem
      · obtain ⟨ref, isRoot, rfl⟩ := List.mem_map.mp mem
        exact .root isRoot
      · obtain ⟨value, mem, isOf⟩ := List.mem_flatMap.mp mem
        exact .value mem (Value.refersTo_iff.mpr (List.mem_map_of_mem isOf))
    | step _ mem ih => exact ih.next mem
  · intro reached
    -- The collector goes by objects and `Reached` by places; what an object refers to depends on its
    -- place alone.
    induction reached with
    | root mem =>
      exact ⟨_, .root (List.mem_append_left _ (List.mem_map_of_mem mem)), rfl⟩
    | value mem h =>
      obtain ⟨object, isOf, rfl⟩ := refers h
      exact ⟨object, .root (List.mem_append_right _ (List.mem_flatMap.mpr ⟨_, mem, isOf⟩)), rfl⟩
    | @enclosing index frame ref _ found link ih =>
      obtain ⟨object, reachable, same⟩ := ih
      refine ⟨_, .step reachable (?_ : HeapObject.frame ref ∈ _), rfl⟩
      rw [referents_eq_of_place (show object.place = HeapObject.place (.frame ⟨index, 0⟩) from same)]
      simp [referents, found, Frame.referents, link]
    | @binding index frame value _ _ found mem h ih =>
      obtain ⟨object, reachable, same⟩ := ih
      obtain ⟨object', isOf, rfl⟩ := refers h
      refine ⟨object', .step reachable ?_, rfl⟩
      rw [referents_eq_of_place (show object.place = HeapObject.place (.frame ⟨index, 0⟩) from same)]
      simp only [referents, found]
      exact List.mem_append_right _ (List.mem_flatMap.mpr ⟨value, mem, isOf⟩)
    | @field index fields value _ _ found mem h ih =>
      obtain ⟨object, reachable, same⟩ := ih
      obtain ⟨object', isOf, rfl⟩ := refers h
      refine ⟨object', .step reachable ?_, rfl⟩
      rw [referents_eq_of_place
        (show object.place = HeapObject.place (.instance_ ⟨index, 0⟩) from same)]
      simp only [referents, found]
      exact List.mem_flatMap.mpr ⟨value, mem, isOf⟩

/-! ## Heaps that are made by operations -/

/-- A heap that operations have made, whatever their arguments are. -/
inductive Built : Heap → Prop
  | new (settings : Settings) : Built (.new settings)
  | newFrame {heap : Heap} (built : Built heap) (enclosing : Option FrameRef)
      (construct : Construct) : Built (heap.newFrame enclosing construct).2
  | newInstance {heap : Heap} (built : Built heap) : Built heap.newInstance.2
  | newIdentity {heap : Heap} (built : Built heap) : Built heap.newIdentity.2
  | define {heap heap' : Heap} (built : Built heap) {ref : FrameRef} {name : String} {value : Value}
      (done : heap.define ref name value = .ok heap') : Built heap'
  | assign {heap heap' : Heap} (built : Built heap) {ref : FrameRef} {name : String} {value : Value}
      (done : heap.assign ref name value = .ok (some heap')) : Built heap'
  | assignAt {heap heap' : Heap} (built : Built heap) {ref : FrameRef} {distance : Nat}
      {name : String} {value : Value}
      (done : heap.assignAt ref distance name value = .ok (some heap')) : Built heap'
  | setField {heap heap' : Heap} (built : Built heap) {ref : InstanceRef} {name : String}
      {value : Value} (done : heap.setField ref name value = .ok heap') : Built heap'
  | collect {heap : Heap} (built : Built heap) (roots : List HeapObject) :
      Built (heap.collect roots).2

theorem Built.bindVariable (built : heap.Built) (ref : FrameRef) (name : String) (value : Value)
    (there : (heap.frame ref).isOk = true) : (heap.bindVariable ref name value).Built := by
  have done : heap.define ref name value = .ok (heap.bindVariable ref name value) := by
    rw [Heap.define]
    cases access : heap.frame ref with
    | ok frame => rfl
    | error dangling => rw [access] at there; cases there
  exact .define built done

/-- What all operations keep, whatever their arguments are. -/
structure Tidy (heap : Heap) : Prop where
  frames : heap.frames.Sound
  instances : heap.instances.Sound
  cleanFrames : heap.frames.Clean
  cleanInstances : heap.instances.Clean

namespace Tidy

theorem new (settings : Settings) : (Heap.new settings).Tidy :=
  ⟨Arena.sound_empty, Arena.sound_empty, Arena.clean_empty, Arena.clean_empty⟩

theorem newFrame (tidy : heap.Tidy) (enclosing : Option FrameRef) (construct : Construct) :
    (heap.newFrame enclosing construct).2.Tidy :=
  ⟨tidy.frames.alloc _, tidy.instances, tidy.cleanFrames.alloc _, tidy.cleanInstances⟩

theorem newInstance (tidy : heap.Tidy) : heap.newInstance.2.Tidy :=
  ⟨tidy.frames, tidy.instances.alloc _, tidy.cleanFrames, tidy.cleanInstances.alloc _⟩

theorem newIdentity (tidy : heap.Tidy) : heap.newIdentity.2.Tidy :=
  ⟨tidy.frames, tidy.instances, tidy.cleanFrames, tidy.cleanInstances⟩

theorem bindVariable (tidy : heap.Tidy) (ref : FrameRef) (name : String) (value : Value) :
    (heap.bindVariable ref name value).Tidy :=
  ⟨tidy.frames.modify _ _, tidy.instances, tidy.cleanFrames.modify _ _, tidy.cleanInstances⟩

theorem bindField (tidy : heap.Tidy) (ref : InstanceRef) (name : String) (value : Value) :
    (heap.bindField ref name value).Tidy :=
  ⟨tidy.frames, tidy.instances.modify _ _, tidy.cleanFrames, tidy.cleanInstances.modify _ _⟩

theorem collect (tidy : heap.Tidy) (roots : List HeapObject) : (heap.collect roots).2.Tidy :=
  have remarked := remarked_markFrom tidy.cleanFrames tidy.cleanInstances roots
  ⟨(remarked.frames.sound tidy.frames).sweep, (remarked.instances.sound tidy.instances).sweep,
    Arena.clean_sweep, Arena.clean_sweep⟩

end Tidy

/-- A change that is made once an access has been granted. -/
theorem eq_of_access {α : Type} {access : Except Dangling α} {changed : Heap}
    (done : (do let _ ← access; return changed) = Except.ok heap') : heap' = changed := by
  cases access with
  | error dangling => cases done
  | ok object => exact (Except.ok.inj done).symm

/-- An assignment binds a variable, wherever its owner is found. -/
theorem eq_bindVariable_of_owner {owner : Except Dangling (Option FrameRef)} {name : String}
    {value : Value}
    (done : (do return (← owner).map (heap.bindVariable · name value)) = .ok (some heap')) :
    ∃ ref, heap' = heap.bindVariable ref name value := by
  cases owner with
  | error dangling => cases done
  | ok found =>
    obtain ⟨ref, -, rfl⟩ := Option.map_eq_some_iff.mp (Except.ok.inj done)
    exact ⟨ref, rfl⟩

theorem Built.tidy (built : heap.Built) : heap.Tidy := by
  induction built with
  | new settings => exact .new settings
  | newFrame _ enclosing construct ih => exact ih.newFrame enclosing construct
  | newInstance _ ih => exact ih.newInstance
  | newIdentity _ ih => exact ih.newIdentity
  | define _ done ih =>
    obtain rfl := eq_of_access done
    exact ih.bindVariable _ _ _
  | assign _ done ih =>
    obtain ⟨owner, rfl⟩ := eq_bindVariable_of_owner done
    exact ih.bindVariable owner _ _
  | assignAt _ done ih =>
    obtain ⟨owner, rfl⟩ := eq_bindVariable_of_owner done
    exact ih.bindVariable owner _ _
  | setField _ done ih =>
    obtain rfl := eq_of_access done
    exact ih.bindField _ _ _
  | collect _ roots ih => exact ih.collect roots

/-! ## What a collection comes to -/

/-- A collection with this report has led from one heap to another, and was exact: it has kept what is
reached from some frames and values, and nothing else. -/
structure Exact (heap : Heap) (frames : List FrameRef) (values : List Value) (report : Collection)
    (later : Heap) : Prop where
  culledFrames : heap.frames.Culled (fun index => heap.Reached frames values (.frame index))
    report.liveFrames report.freedFrames later.frames
  culledInstances : heap.instances.Culled (fun index => heap.Reached frames values (.instance_ index))
    report.liveInstances report.freedInstances later.instances

theorem Tidy.exact_collect (tidy : heap.Tidy) (frames : List FrameRef) (values : List Value) :
    Exact heap frames values (heap.collect (rootsOf frames values)).1
      (heap.collect (rootsOf frames values)).2 := by
  have tracing : heap.Tracing (rootsOf frames values) [] (heap.markFrom (rootsOf frames values)) :=
    tracing_markFrom tidy.cleanFrames tidy.cleanInstances
  have isMarked {place : Place} (there : heap.Occupies place) :=
    (tracing.isMarked_iff there).trans reaches_iff_reached
  constructor
  · exact tidy.frames.culled tracing.remarked.frames fun {index} mem =>
      isMarked (show heap.Occupies (.frame index) from Arena.mem_occupied.mp mem)
  · exact tidy.instances.culled tracing.remarked.instances fun {index} mem =>
      isMarked (show heap.Occupies (.instance_ index) from Arena.mem_occupied.mp mem)

section Again

variable {report report' : Collection} {later latest : Heap}

/-- What is reached is reached in the same ways afterwards. -/
theorem Exact.reached (first : Exact heap frames values report later)
    (reached : heap.Reached frames values place) : later.Reached frames values place := by
  have frameStays {index : Nat} {frame : Frame} (reached : heap.Reached frames values (.frame index))
      (found : heap.frames.get? index = some frame) : later.frames.get? index = some frame := by
    have there := Arena.mem_occupied_of_get? found
    rw [first.culledFrames.get? (first.culledFrames.occupied.mpr ⟨there, reached⟩), found]
  have fieldsStay {index : Nat} {fields : Bindings Value}
      (reached : heap.Reached frames values (.instance_ index))
      (found : heap.instances.get? index = some fields) :
      later.instances.get? index = some fields := by
    have there := Arena.mem_occupied_of_get? found
    rw [first.culledInstances.get? (first.culledInstances.occupied.mpr ⟨there, reached⟩), found]
  induction reached with
  | root mem => exact .root mem
  | value mem refers => exact .value mem refers
  | enclosing before found link ih => exact .enclosing ih (frameStays before found) link
  | binding before found mem refers ih => exact .binding ih (frameStays before found) mem refers
  | field before found mem refers ih => exact .field ih (fieldsStay before found) mem refers

/-- A second collection from the same frames and values finds nothing to free. -/
theorem Exact.report_again (first : Exact heap frames values report later)
    (second : Exact later frames values report' latest) :
    report' = ⟨report.liveFrames, report.liveInstances, 0, 0⟩ := by
  have freedFrames : report'.freedFrames = 0 := by
    rw [second.culledFrames.freed_eq, Finset.card_eq_zero, Finset.sdiff_eq_empty_iff_subset]
    intro index mem
    have reached := (first.culledFrames.occupied.mp mem).2
    exact second.culledFrames.occupied.mpr ⟨mem, first.reached reached⟩
  have freedInstances : report'.freedInstances = 0 := by
    rw [second.culledInstances.freed_eq, Finset.card_eq_zero, Finset.sdiff_eq_empty_iff_subset]
    intro index mem
    have reached := (first.culledInstances.occupied.mp mem).2
    exact second.culledInstances.occupied.mpr ⟨mem, first.reached reached⟩
  have liveFrames : report'.liveFrames = report.liveFrames := by
    have all := second.culledFrames.live_add_freed
    rwa [freedFrames, ← first.culledFrames.live_eq] at all
  have liveInstances : report'.liveInstances = report.liveInstances := by
    have all := second.culledInstances.live_add_freed
    rwa [freedInstances, ← first.culledInstances.live_eq] at all
  obtain ⟨_, _, _, _⟩ := report'
  exact Collection.mk.injEq .. ▸ ⟨liveFrames, liveInstances, freedFrames, freedInstances⟩

end Again

/-- **Collections are exact.**  Marking comes to an end: in rounds, however many there might be, or one
object at a time, whichever comes first.  What is kept is what is reached, as it was; the report is
right; no mark is left; and to collect once more frees nothing. -/
theorem exact_of_built (built : heap.Built) (frames : List FrameRef) (values : List Value) :
    (∀ rounds, heap.frames.slots.size + heap.instances.slots.size < rounds →
      trace rounds (rootsOf frames values) heap = heap.markFrom (rootsOf frames values)) ∧
    (∀ stack, (∀ object, object ∈ stack ↔ object ∈ rootsOf frames values) →
      heap.drain stack = heap.markFrom (rootsOf frames values)) ∧
    ∃ report later latest, heap.collect (rootsOf frames values) = (report, later) ∧
      Exact heap frames values report later ∧
      later.collect (rootsOf frames values) =
        (⟨report.liveFrames, report.liveInstances, 0, 0⟩, latest) := by
  have tidy := built.tidy
  have later := tidy.collect (rootsOf frames values)
  refine ⟨fun rounds enough => ?_, fun stack same =>
    drain_eq_markFrom tidy.cleanFrames tidy.cleanInstances same, ?_⟩
  · obtain ⟨more, rfl⟩ := Nat.exists_eq_add_of_lt enough
    rw [show heap.frames.slots.size + heap.instances.slots.size + more + 1 =
      heap.frames.slots.size + heap.instances.slots.size + 1 + more by omega]
    exact trace_add heap _ heap.unmarkedCount_lt more
  · have first := tidy.exact_collect frames values
    have second := later.exact_collect frames values
    exact ⟨_, _, _, rfl, first, Prod.ext (first.report_again second) rfl⟩

/-- A heap whose first slot is used for the second time.  The frame there binds a function that is
made in a frame of a slot that does not exist, and a function that is made in itself, and its enclosing
link is to the frame that it has taken the place of.  Another frame is enclosed by it. -/
def reusedSlot : Heap :=
  let emptied := (((new settings).newFrame none).2.collect []).2
  let inUse := (emptied.newFrame (some ⟨0, 0⟩)).2
  let lost := inUse.bindVariable ⟨0, 1⟩ "lost" (closed ⟨7, 7⟩)
  let loop := lost.bindVariable ⟨0, 1⟩ "loop" (closed ⟨0, 1⟩)
  (loop.newFrame (some ⟨0, 1⟩)).2
where
  /-- To collect garbage after every allocation. -/
  settings : Settings := ⟨1, 1, 1, Nat.one_pos, Nat.one_pos⟩
  /-- A function without parameters and statements. -/
  closed (frame : FrameRef) : Value := .function ⟨0⟩ ⟨⟨.anonymous 1, [], []⟩, frame, false⟩

theorem exact_reusedSlot : reusedSlot.Built ∧
    ∃ later, reusedSlot.collect (rootsOf [⟨0, 1⟩] []) = (⟨1, 0, 1, 0⟩, later) ∧
      Exact reusedSlot [⟨0, 1⟩] [] ⟨1, 0, 1, 0⟩ later := by
  have emptied := ((Built.new reusedSlot.settings).newFrame none .program).collect []
  have inUse := emptied.newFrame (some ⟨0, 0⟩) .program
  have lost := inUse.bindVariable ⟨0, 1⟩ "lost" (reusedSlot.closed ⟨7, 7⟩) (by decide +kernel)
  have loop := lost.bindVariable ⟨0, 1⟩ "loop" (reusedSlot.closed ⟨0, 1⟩) (by decide +kernel)
  have built : reusedSlot.Built := loop.newFrame (some ⟨0, 1⟩) .program
  obtain ⟨-, -, report, later, -, ran, exactly, -⟩ := exact_of_built built [⟨0, 1⟩] []
  have counts : report = ⟨1, 0, 1, 0⟩ := by
    rw [show report = (reusedSlot.collect (rootsOf [⟨0, 1⟩] [])).1 by rw [ran]]
    decide +kernel
  subst counts
  exact ⟨built, later, ran, exactly⟩

end Heap

end Lox
