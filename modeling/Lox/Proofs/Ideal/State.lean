import Lox.Proofs.Evaluation.Action
import Lox.Proofs.Ideal.Heap

/-!
# A run and the run that never collects garbage

A state **represents** an ideal one if it is valid and what a program can get at is the same in both,
up to the places of objects.  While a task is carried out, the state it started from is **kept**: the
frames and values that are held on to stay where they are, and the heap leads on from the one that was
there (`State.Keeps`).  `Along` is both: how far a run has come from `base`, beside its ideal.

A collection of garbage leaves the ideal as it is (`Along.collectIfDue`).  Everything else that
happens to a state happens to the ideal one too.
-/

namespace Lox

namespace State

/-- The heap is valid and has everything that the program can get at. -/
structure Valid (st : State) : Prop where
  heap : st.heap.Valid st.globals
  roots : ∀ object ∈ st.roots, st.heap.Has object

/-- What a program can get at is the same in both states, up to the places of objects. -/
structure Represents (st ideal : State) : Prop where
  valid : st.Valid
  heap : st.heap.Represents ideal.heap
  globals : ideal.globals = st.globals.ideal
  current : ideal.current = st.current.ideal
  saved : ideal.saved = st.saved.map FrameRef.ideal
  temporaries : ideal.temporaries = st.temporaries.map Value.ideal
  callDepth : ideal.callDepth = st.callDepth
  maxCallDepth : ideal.settings.maxCallDepth = st.settings.maxCallDepth
  sink : ideal.sink = st.sink
  clock : ideal.clock = st.clock

/-- What an action leaves as it is, except that it may hold on to more values. -/
structure Extends (before after : State) : Prop where
  globals : after.globals = before.globals
  current : after.current = before.current
  saved : after.saved = before.saved
  temporaries : ∃ more, after.temporaries = before.temporaries ++ more
  callDepth : after.callDepth = before.callDepth
  settings : after.settings = before.settings
  heap : before.heap.Leads after.heap

/-- What a task leaves as it is. -/
structure Keeps (before after : State) : Prop extends Extends before after where
  exact : after.temporaries = before.temporaries

/-- What is at hand in a state is at hand in a later one: nothing is let go. -/
structure Since (before after : State) : Prop where
  globals : after.globals = before.globals
  frames : ∀ ref ∈ before.current :: before.saved, ref ∈ after.current :: after.saved
  temporaries : ∀ v ∈ before.temporaries.toList, v ∈ after.temporaries.toList
  heap : before.heap.Leads after.heap

variable {before between after st : State}

theorem Extends.refl (st : State) : st.Extends st :=
  ⟨rfl, rfl, rfl, ⟨#[], by simp⟩, rfl, rfl, .refl _⟩

theorem Extends.trans (h : before.Extends between) (h' : between.Extends after) :
    before.Extends after where
  globals := h'.globals.trans h.globals
  current := h'.current.trans h.current
  saved := h'.saved.trans h.saved
  temporaries := by
    obtain ⟨more, temporaries⟩ := h.temporaries
    obtain ⟨more', temporaries'⟩ := h'.temporaries
    exact ⟨more ++ more', by rw [temporaries', temporaries, Array.append_assoc]⟩
  callDepth := h'.callDepth.trans h.callDepth
  settings := h'.settings.trans h.settings
  heap := h.heap.trans h'.heap

theorem Keeps.refl (st : State) : st.Keeps st := ⟨.refl st, rfl⟩

theorem Keeps.trans (h : before.Keeps between) (h' : between.Keeps after) : before.Keeps after :=
  ⟨h.toExtends.trans h'.toExtends, h'.exact.trans h.exact⟩

theorem Since.refl (st : State) : st.Since st :=
  ⟨rfl, fun _ mem => mem, fun _ mem => mem, .refl _⟩

theorem Since.trans (h : before.Since between) (h' : between.Since after) : before.Since after where
  globals := h'.globals.trans h.globals
  frames := fun ref mem => h'.frames ref (h.frames ref mem)
  temporaries := fun v mem => h'.temporaries v (h.temporaries v mem)
  heap := h.heap.trans h'.heap

theorem Extends.since (h : before.Extends after) : before.Since after where
  globals := h.globals
  frames := by
    intro ref mem
    rw [h.current, h.saved]
    exact mem
  temporaries := by
    intro v mem
    obtain ⟨more, temporaries⟩ := h.temporaries
    rw [temporaries, Array.toList_append]
    exact List.mem_append_left _ mem
  heap := h.heap

theorem mem_roots_globals (st : State) : HeapObject.frame st.globals ∈ st.roots :=
  List.mem_cons_self

theorem mem_roots_current (st : State) : HeapObject.frame st.current ∈ st.roots :=
  List.mem_cons_of_mem _ List.mem_cons_self

theorem mem_roots_of_mem_temporaries {v : Value} {object : HeapObject}
    (mem : v ∈ st.temporaries.toList) (mem' : object ∈ v.referents) : object ∈ st.roots :=
  List.mem_append_right _ (List.mem_flatMap.mpr ⟨v, mem, mem'⟩)

theorem mem_roots_iff {object : HeapObject} : object ∈ st.roots ↔
    object = .frame st.globals ∨ object = .frame st.current ∨
      (∃ frame ∈ st.saved, object = .frame frame) ∨
      ∃ v ∈ st.temporaries.toList, object ∈ v.referents := by
  simp only [roots, List.mem_cons, List.mem_append, List.mem_map, List.mem_flatMap, List.cons_append]
  constructor
  · rintro (rfl | rfl | ⟨frame, mem, rfl⟩ | held)
    · exact .inl rfl
    · exact .inr (.inl rfl)
    · exact .inr (.inr (.inl ⟨frame, mem, rfl⟩))
    · exact .inr (.inr (.inr held))
  · rintro (rfl | rfl | ⟨frame, mem, rfl⟩ | held)
    · exact .inl rfl
    · exact .inr (.inl rfl)
    · exact .inr (.inr (.inl ⟨frame, mem, rfl⟩))
    · exact .inr (.inr (.inr held))

theorem Since.roots (h : before.Since after) : ∀ object ∈ before.roots, object ∈ after.roots := by
  intro object mem
  rw [mem_roots_iff] at mem ⊢
  have frame {ref : FrameRef} (mem : ref ∈ before.current :: before.saved) :
      HeapObject.frame ref = .frame after.current ∨
        ∃ frame ∈ after.saved, HeapObject.frame ref = .frame frame := by
    rcases List.mem_cons.mp (h.frames ref mem) with same | saved
    · exact .inl (congrArg _ same)
    · exact .inr ⟨ref, saved, rfl⟩
  rcases mem with rfl | rfl | ⟨ref, saved, rfl⟩ | ⟨v, held, mem⟩
  · exact .inl (congrArg _ h.globals.symm)
  · exact .inr ((frame List.mem_cons_self).imp_right .inl)
  · exact .inr ((frame (List.mem_cons_of_mem _ saved)).imp_right .inl)
  · exact .inr (.inr (.inr ⟨v, h.temporaries v held, mem⟩))

namespace Valid

theorem hasCurrent (valid : st.Valid) : st.heap.Has (.frame st.current) :=
  valid.roots _ st.mem_roots_current

/-- What is held on to is on the heap. -/
theorem bears (valid : st.Valid) {v : Value} (mem : v ∈ st.temporaries.toList) :
    st.heap.Bears v :=
  fun _ mem' => valid.roots _ (mem_roots_of_mem_temporaries mem mem')

/-- A state is valid if what is held on to in it was held on to in a valid one. -/
theorem of_roots {st' : State} (valid : st.Valid) (heap : st'.heap = st.heap)
    (globals : st'.globals = st.globals) (roots : ∀ object ∈ st'.roots, st.heap.Has object) :
    st'.Valid := by
  refine ⟨?_, ?_⟩
  · rw [heap, globals]
    exact valid.heap
  · rw [heap]
    exact roots

end Valid

end State

/-- Something about states that, once it is true, is true until something is let go. -/
structure Lasting where
  holds : State → Prop
  stays : ∀ {before after : State}, before.Since after → holds before → holds after

namespace Lasting

/-- Nothing in particular. -/
def any : Lasting := ⟨fun _ => True, fun _ _ => trivial⟩

/-- What is at hand in a state stays at hand. -/
def since (st : State) : Lasting := ⟨st.Since, fun later h => h.trans later⟩

end Lasting

open State

/-- How far a run has come from `base`, beside its ideal. -/
structure Along (base st ideal : State) : Prop where
  represents : st.Represents ideal
  keeps : base.Keeps st

/-- How far a run has come from `base`, beside its ideal, when it holds on to more values. -/
structure Holding (base st ideal : State) : Prop where
  represents : st.Represents ideal
  extends_ : base.Extends st

variable {base st ideal : State}

theorem State.Represents.along (h : st.Represents ideal) : Along st st ideal := ⟨h, .refl st⟩

theorem Along.holding (h : Along base st ideal) : Holding base st ideal :=
  ⟨h.represents, h.keeps.toExtends⟩

theorem Along.trans {st' ideal' : State} (h : Along base st ideal) (h' : Along st st' ideal') :
    Along base st' ideal' :=
  ⟨h'.represents, h.keeps.trans h'.keeps⟩

theorem Holding.trans {st' ideal' : State} (h : Holding base st ideal)
    (h' : Holding st st' ideal') : Holding base st' ideal' :=
  ⟨h'.represents, h.extends_.trans h'.extends_⟩

namespace Along

/-- The heap changes, and nothing is lost from it. -/
theorem withHeap (h : Along base st ideal) {heap ideal' : Heap} (valid : heap.Valid st.globals)
    (represents : heap.Represents ideal') (leads : base.heap.Leads heap)
    (stays : ∀ object, st.heap.Has object → heap.Has object) :
    Along base { st with heap := heap } { ideal with heap := ideal' } :=
  ⟨{ h.represents with
      valid := ⟨valid, fun object mem => stays object (h.represents.valid.roots object mem)⟩
      heap := represents },
    { h.keeps with heap := leads }⟩

theorem newFrame (h : Along base st ideal) {enclosing : FrameRef}
    (there : st.heap.Has (.frame enclosing)) (construct : Construct) :
    Along base { st with heap := (st.heap.newFrame (some enclosing) construct).2 }
      { ideal with heap := (ideal.heap.newFrame (some enclosing.ideal) construct).2 } :=
  have valid := h.represents.valid.heap
  h.withHeap (valid.newFrame there construct) (h.represents.heap.newFrame valid.sound _ _)
    (h.keeps.heap.trans (.newFrame valid.sound.frames _ _))
    fun _ has => has.newFrame valid.sound.frames _ _

theorem newInstance (h : Along base st ideal) :
    Along base { st with heap := st.heap.newInstance.2 }
      { ideal with heap := ideal.heap.newInstance.2 } :=
  have valid := h.represents.valid.heap
  h.withHeap valid.newInstance (h.represents.heap.newInstance valid.sound)
    (h.keeps.heap.trans (.newInstance _)) fun _ has => has.newInstance valid.sound.instances

theorem newIdentity (h : Along base st ideal) :
    Along base { st with heap := st.heap.newIdentity.2 }
      { ideal with heap := ideal.heap.newIdentity.2 } :=
  have valid := h.represents.valid.heap
  h.withHeap valid.newIdentity h.represents.heap.newIdentity
    (h.keeps.heap.trans ⟨Nat.le_refl _, fun holds _ => ⟨_, holds, rfl, fun _ found => found⟩⟩)
    fun _ has => has

theorem bindVariable (h : Along base st ideal) {ref : FrameRef} {frame : Frame} {name : String}
    {value : Value} (there : st.heap.HoldsFrame ref frame) (fits : st.heap.Fits value)
    (ne : name ≠ thisName) : Along base { st with heap := st.heap.bindVariable ref name value }
      { ideal with heap := ideal.heap.bindVariable ref.ideal name value.ideal } :=
  have valid := h.represents.valid.heap
  h.withHeap (valid.bindVariable there fits name)
    (h.represents.heap.bindVariable valid.sound there name value)
    (h.keeps.heap.trans (.bindVariable _ ref ne value)) fun _ has => has.bindVariable there name value

/-- In a frame made since `base`, any name may be bound. -/
theorem bindVariable_new (h : Along base st ideal) {ref : FrameRef} {frame : Frame}
    {value : Value} (there : st.heap.HoldsFrame ref frame) (fits : st.heap.Fits value)
    (new : base.heap.frames.allocated ≤ ref.serial) (name : String) :
    Along base { st with heap := st.heap.bindVariable ref name value }
      { ideal with heap := ideal.heap.bindVariable ref.ideal name value.ideal } :=
  have valid := h.represents.valid.heap
  h.withHeap (valid.bindVariable there fits name)
    (h.represents.heap.bindVariable valid.sound there name value)
    (.bindVariable_new h.keeps.heap there new name value)
    fun _ has => has.bindVariable there name value

theorem bindField (h : Along base st ideal) {ref : InstanceRef} {fields : Bindings Value}
    {value : Value} (there : st.heap.HoldsFields ref fields) (fits : st.heap.Fits value)
    (name : String) : Along base { st with heap := st.heap.bindField ref name value }
      { ideal with heap := ideal.heap.bindField ref.ideal name value.ideal } :=
  have valid := h.represents.valid.heap
  h.withHeap (valid.bindField there fits name)
    (h.represents.heap.bindField valid.sound there name value)
    (h.keeps.heap.trans (.bindField _ _ _ _)) fun _ has => has.bindField there name value

/-- **Collecting garbage leaves the ideal as it is.** -/
theorem collect (h : Along base st ideal) : Along base st.collect.2 ideal := by
  have valid := h.represents.valid.heap
  have there := h.represents.valid.roots
  refine ⟨{ h.represents with
      valid := ⟨valid.collect there st.mem_roots_globals, fun object mem => ?_⟩
      heap := h.represents.heap.collect valid.sound there },
    { h.keeps with heap := h.keeps.heap.trans (.collect valid.sound there) }⟩
  exact (Heap.has_collect valid.sound there).mpr ⟨there object mem, .root mem⟩

theorem collectIfDue (h : Along base st ideal) : Along base st.collectIfDue ideal := by
  rw [State.collectIfDue]
  split
  · exact h.collect
  · exact h

theorem withSink (h : Along base st ideal) (sink : Sink) :
    Along base { st with sink := sink } { ideal with sink := sink } :=
  ⟨{ h.represents with valid := ⟨h.represents.valid.heap, h.represents.valid.roots⟩, sink := rfl },
    { h.keeps with }⟩

theorem withClock (h : Along base st ideal) (clock : Clock) :
    Along base { st with clock := clock } { ideal with clock := clock } :=
  ⟨{ h.represents with valid := ⟨h.represents.valid.heap, h.represents.valid.roots⟩, clock := rfl },
    { h.keeps with }⟩

end Along

/-! ## Actions around others -/

theorem map_shrink {α β : Type} (f : α → β) (xs : Array α) (n : Nat) :
    (xs.shrink n).map f = (xs.map f).shrink n := by
  apply Array.ext'
  simp

namespace State.Represents

theorem push (h : st.Represents ideal) {v : Value} (bears : st.heap.Bears v) :
    (st.push v).Represents (ideal.push v.ideal) := by
  refine { h with
    valid := h.valid.of_roots rfl rfl fun object mem => ?_
    temporaries := ?_ }
  · rcases mem_roots_iff.mp mem with rfl | rfl | held | ⟨w, held, mem'⟩
    · exact h.valid.heap.hasGlobals
    · exact h.valid.hasCurrent
    · exact h.valid.roots _ (mem_roots_iff.mpr (.inr (.inr (.inl held))))
    · simp only [State.push, Array.toList_push, List.mem_append, List.mem_singleton] at held
      rcases held with held | rfl
      · exact h.valid.bears held _ mem'
      · exact bears _ mem'
  · simp only [State.push, h.temporaries, Array.map_push]

theorem inside (h : st.Represents ideal) {frame : FrameRef} (there : st.heap.Has (.frame frame)) :
    (st.inside frame).Represents (ideal.inside frame.ideal) := by
  refine { h with
    valid := h.valid.of_roots rfl rfl fun object mem => ?_
    current := rfl
    saved := ?_ }
  · rcases mem_roots_iff.mp mem with rfl | rfl | ⟨saved, held, rfl⟩ | held
    · exact h.valid.heap.hasGlobals
    · exact there
    · rcases List.mem_cons.mp held with rfl | held
      · exact h.valid.hasCurrent
      · exact h.valid.roots _ (mem_roots_iff.mpr (.inr (.inr (.inl ⟨saved, held, rfl⟩))))
    · exact h.valid.roots _ (mem_roots_iff.mpr (.inr (.inr (.inr held))))
  · simp only [State.inside, h.current, h.saved, List.map_cons]

theorem called (h : st.Represents ideal) : st.called.Represents ideal.called :=
  { h with
    valid := ⟨h.valid.heap, h.valid.roots⟩
    callDepth := congrArg (· + 1) h.callDepth }

/-- **Nothing is lost by a reset.** -/
theorem reset (h : st.Represents ideal) : st.reset.Represents ideal.reset := by
  refine { h with
    valid := h.valid.of_roots rfl rfl fun object mem => ?_
    current := h.globals
    saved := rfl
    temporaries := by simp [State.reset]
    callDepth := rfl }
  rcases mem_roots_iff.mp mem with rfl | rfl | ⟨saved, held, rfl⟩ | ⟨w, held, -⟩
  · exact h.valid.heap.hasGlobals
  · exact h.valid.heap.hasGlobals
  · cases held
  · simp [State.reset] at held

end State.Represents

theorem State.since_inside (st : State) (frame : FrameRef) : st.Since (st.inside frame) :=
  { State.Since.refl st with frames := fun _ mem => List.mem_cons_of_mem _ mem }

theorem State.since_called (st : State) : st.Since st.called := { State.Since.refl st with }

theorem State.extends_push (st : State) (v : Value) : st.Extends (st.push v) :=
  { State.Extends.refl st with temporaries := ⟨#[v], by simp [State.push]⟩ }

/-- What is held on to stays on the heap. -/
theorem Holding.bears {v : Value} (h : Holding (base.push v) st ideal) : st.heap.Bears v := by
  obtain ⟨more, held⟩ := h.extends_.temporaries
  refine h.represents.valid.bears ?_
  rw [held, State.push, Array.toList_append, Array.toList_push]
  exact List.mem_append_left _ (List.mem_append_right _ (List.mem_singleton.mpr rfl))

/-- Letting go of what was held on to since `st`, when `v` was. -/
theorem Holding.letGo {v : Value} {st' ideal' : State} (along : Along base st ideal)
    (h : Holding (st.push v) st' ideal') :
    Along base { st' with temporaries := st'.temporaries.shrink st.temporaries.size }
      { ideal' with temporaries := ideal'.temporaries.shrink ideal.temporaries.size } := by
  obtain ⟨more, held⟩ := h.extends_.temporaries
  have shrunk : st'.temporaries.shrink st.temporaries.size = st.temporaries := by
    rw [held]
    exact shrink_push_append _ _ _
  have size : ideal.temporaries.size = st.temporaries.size := by
    rw [along.represents.temporaries, Array.size_map]
  have shrunk' : ideal'.temporaries.shrink ideal.temporaries.size =
      st.temporaries.map Value.ideal := by
    rw [h.represents.temporaries, size, ← map_shrink, shrunk]
  -- The heap stays as it was, and letting go adds no root.
  refine ⟨{ h.represents with
      valid := h.represents.valid.of_roots rfl rfl fun object mem => ?_
      temporaries := ?_ }, ?_⟩
  · refine h.represents.valid.roots _ (mem_roots_iff.mpr ?_)
    rcases mem_roots_iff.mp mem with same | same | saved | ⟨w, kept, mem'⟩
    · exact .inl same
    · exact .inr (.inl same)
    · exact .inr (.inr (.inl saved))
    · refine .inr (.inr (.inr ⟨w, ?_, mem'⟩))
      simp only [shrunk] at kept
      rw [held, State.push, Array.toList_append, Array.toList_push]
      exact List.mem_append_left _ (List.mem_append_left _ kept)
  · simp only [shrunk, shrunk']
  · refine ⟨⟨h.extends_.globals.trans along.keeps.globals,
      h.extends_.current.trans along.keeps.current, h.extends_.saved.trans along.keeps.saved,
      ⟨#[], ?_⟩, h.extends_.callDepth.trans along.keeps.callDepth,
      h.extends_.settings.trans along.keeps.settings, along.keeps.heap.trans h.extends_.heap⟩, ?_⟩
    · exact (shrunk.trans along.keeps.exact).trans (Array.append_empty ..).symm
    · exact shrunk.trans along.keeps.exact

/-- Going back to the frame that was put aside. -/
theorem Along.goBack {frame : FrameRef} {st' ideal' : State} (along : Along base st ideal)
    (h : Along (st.inside frame) st' ideal') :
    Along base { st' with current := st.current, saved := st'.saved.tail }
        { ideal' with current := ideal.current, saved := ideal'.saved.tail } ∧
      st'.heap.Has (.frame frame) := by
  have saved : st'.saved = st.current :: st.saved := h.keeps.saved
  have current : st'.current = frame := h.keeps.current
  -- The frame that is current again was saved until now, so it is no new root either.
  refine ⟨⟨{ h.represents with
      valid := h.represents.valid.of_roots rfl rfl fun object mem => ?_
      current := along.represents.current
      saved := ?_ }, ?_⟩, ?_⟩
  · refine h.represents.valid.roots _ (mem_roots_iff.mpr ?_)
    rcases mem_roots_iff.mp mem with same | same | ⟨ref, held, same⟩ | held
    · exact .inl same
    · exact .inr (.inr (.inl ⟨st.current, by rw [saved]; exact List.mem_cons_self, same⟩))
    · exact .inr (.inr (.inl ⟨ref, List.mem_of_mem_tail held, same⟩))
    · exact .inr (.inr (.inr held))
  · simp only [h.represents.saved, List.map_tail]
  · refine ⟨⟨h.keeps.globals.trans along.keeps.globals, along.keeps.current, ?_, ⟨#[], ?_⟩,
      h.keeps.callDepth.trans along.keeps.callDepth, h.keeps.settings.trans along.keeps.settings,
      along.keeps.heap.trans h.keeps.heap⟩, h.keeps.exact.trans along.keeps.exact⟩
    · simp only [saved, List.tail_cons, along.keeps.saved]
    · exact (h.keeps.exact.trans along.keeps.exact).trans (Array.append_empty ..).symm
  · rw [← current]
    exact h.represents.valid.hasCurrent

/-- Coming back from a call. -/
theorem Along.comeBack {st' ideal' : State} (along : Along base st ideal)
    (h : Along st.called st' ideal') : Along base { st' with callDepth := st'.callDepth - 1 }
      { ideal' with callDepth := ideal'.callDepth - 1 } := by
  have depth : st'.callDepth = st.callDepth + 1 := h.keeps.callDepth
  refine ⟨{ h.represents with
      valid := ⟨h.represents.valid.heap, h.represents.valid.roots⟩
      callDepth := congrArg (· - 1) h.represents.callDepth }, ?_⟩
  refine ⟨⟨h.keeps.globals.trans along.keeps.globals, h.keeps.current.trans along.keeps.current,
    h.keeps.saved.trans along.keeps.saved, ⟨#[], ?_⟩, ?_,
    h.keeps.settings.trans along.keeps.settings, along.keeps.heap.trans h.keeps.heap⟩,
    h.keeps.exact.trans along.keeps.exact⟩
  · exact (h.keeps.exact.trans along.keeps.exact).trans (Array.append_empty ..).symm
  · simp only [depth, Nat.add_sub_cancel, along.keeps.callDepth]

end Lox
