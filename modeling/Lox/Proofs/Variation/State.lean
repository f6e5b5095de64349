import Lox.Proofs.Variation.Heap
import Lox.Proofs.Evaluation.Action

/-!
# States in step

Two states **vary** if their heaps do and everything else that a program gets to see is the same in
both (`State.Varies`).  What is only there for the collector may differ.

`Abreast` says how far two runs have come from a world and a frame: their states vary, the world has
grown, and the frame is current again.
-/

namespace Lox

/-! ## Worlds that grow -/

/-- A new frame is at the place where the next frame is made. -/
theorem Heap.index_newFrame {heap : Heap} (free : heap.frames.free = []) (enclosing : Option FrameRef)
    (construct : Construct) : (heap.newFrame enclosing construct).1.index = heap.frames.slots.size :=
  Arena.alloc_fst free _

namespace World

variable {w : World}

/-- The world with another heap. -/
def on (w : World) (heap : Heap) : World := { w with heap := heap }

theorem grows_of_frames {heap : Heap} (same : heap.frames = w.heap.frames) : w.Grows (w.on heap) where
  globals := rfl
  frame := fun {_ frame} found =>
    ⟨frame, show heap.frames.get? _ = _ by rw [same]; exact found, ⟨rfl, rfl, fun _ bound => bound⟩,
      rfl⟩

theorem grows_bindVariable (ref : FrameRef) (name : String) (a : Value) :
    w.Grows (w.on (w.heap.bindVariable ref name a)) where
  globals := rfl
  frame := by
    intro index frame found
    change ∃ frame', (w.heap.bindVariable ref name a).frames.get? index = some frame' ∧ _
    rw [Heap.get?_bindVariable, found]
    split
    · refine ⟨_, rfl, ⟨rfl, rfl, fun name' bound => ?_⟩, rfl⟩
      rw [Bindings.contains_insert, bound, Bool.or_true]
    · exact ⟨frame, rfl, ⟨rfl, rfl, fun _ bound => bound⟩, rfl⟩

/-- A frame that is there binds a name once it is bound. -/
theorem binds_bindVariable {ref : FrameRef} {frame : Frame}
    (found : w.heap.frames.get? ref.index = some frame) (name : String) (a : Value) :
    (w.on (w.heap.bindVariable ref name a)).Binds ref name := by
  refine ⟨{ frame with bindings := frame.bindings.insert name a }, ?_, ?_⟩
  · change (w.heap.bindVariable ref name a).frames.get? ref.index = _
    rw [Heap.get?_bindVariable, if_pos rfl, found]
    rfl
  · rw [Bindings.contains_insert, decide_eq_true rfl, Bool.true_or]

/-- The world with a new frame, which has a mark. -/
def withFrame (w : World) (enclosing : FrameRef) (construct : Construct) (mark : Bool) : World where
  heap := (w.heap.newFrame (some enclosing) construct).2
  globals := w.globals
  marked := Function.update w.marked w.heap.frames.slots.size mark

theorem get?_withFrame (free : w.heap.frames.free = []) (enclosing : FrameRef) (construct : Construct)
    (mark : Bool) (index : Nat) :
    (w.withFrame enclosing construct mark).heap.frames.get? index =
      if index = w.heap.frames.slots.size then some ⟨.empty, some enclosing, construct⟩
      else w.heap.frames.get? index :=
  Arena.get?_alloc free ..

theorem grows_withFrame (free : w.heap.frames.free = []) (enclosing : FrameRef)
    (construct : Construct) (mark : Bool) : w.Grows (w.withFrame enclosing construct mark) where
  globals := rfl
  frame := by
    intro index frame found
    have ne := Nat.ne_of_lt (Arena.lt_size_of_get? found)
    rw [get?_withFrame free, if_neg ne]
    exact ⟨frame, found, ⟨rfl, rfl, fun _ bound => bound⟩, Function.update_of_ne ne _ _⟩

/-- A frame was made for a construct, inside another frame. -/
def Made (w : World) (ref outer : FrameRef) (construct : Construct) (mark : Bool) : Prop :=
  ∃ frame, w.heap.frames.get? ref.index = some frame ∧ frame.construct = construct ∧
    frame.enclosing = some outer ∧ w.marked ref.index = mark

theorem Grows.made {w' : World} (h : w.Grows w') {ref outer : FrameRef} {construct : Construct}
    {mark : Bool} (made : w.Made ref outer construct mark) : w'.Made ref outer construct mark := by
  obtain ⟨frame, found, same, encloses, marked⟩ := made
  obtain ⟨frame', found', persists, marked'⟩ := h.frame found
  exact ⟨frame', found', persists.construct.trans same, persists.enclosing.trans encloses,
    marked'.trans marked⟩

theorem made_withFrame (free : w.heap.frames.free = []) (enclosing : FrameRef) (construct : Construct)
    (mark : Bool) : (w.withFrame enclosing construct mark).Made
      (w.heap.newFrame (some enclosing) construct).1 enclosing construct mark := by
  have index := Heap.index_newFrame free (some enclosing) construct
  refine ⟨⟨.empty, some enclosing, construct⟩, ?_, rfl, rfl, ?_⟩
  · rw [get?_withFrame free, index, if_pos rfl]
  · rw [index]
    exact Function.update_self ..

end World

/-! ## Heaps that change -/

section

variable {v : Variation} {w w' : World}

theorem Frame.Varies.mono (grows : w.Grows w') {mark : Bool} {frame frame' : Frame}
    (h : frame.Varies v w mark frame') : frame.Varies v w' mark frame' :=
  ⟨h.enclosing, h.bindings.mono grows, h.suit⟩

namespace Heap.Varies

variable {heap' : Heap}

/-- What is known of two heaps is still known of them in a world that has grown. -/
theorem outlives (h : Heap.Varies v w heap') (grows : w.Grows w') {heap'' : Heap}
    (frames : w'.heap.frames.Vary (fun index => Frame.Varies v w' (w'.marked index)) heap''.frames)
    (instances : w'.heap.instances.Vary (fun _ => Bindings.Vary v w' false) heap''.instances)
    (nextIdentity : heap''.nextIdentity = w'.heap.nextIdentity) : Heap.Varies v w' heap'' := by
  obtain ⟨frame, found, outermost⟩ := h.outermost
  obtain ⟨frame', found', persists, marked⟩ := grows.frame found
  rw [← grows.globals] at found' marked
  exact ⟨frames, instances, nextIdentity, ⟨frame', found', persists.enclosing.trans outermost⟩,
    marked.trans (grows.globals ▸ h.unmarked)⟩

theorem instances_mono (h : Heap.Varies v w heap') (grows : w.Grows w') :
    w.heap.instances.Vary (fun _ => Bindings.Vary v w' false) heap'.instances :=
  h.instances.mono fun _ _ _ _ vary => vary.mono grows

theorem frames_mono (h : Heap.Varies v w heap') (grows : w.Grows w') :
    w.heap.frames.Vary (fun index => Frame.Varies v w' (w'.marked index)) heap'.frames := by
  refine h.frames.mono fun index frame frame' found varies => ?_
  obtain ⟨_, -, -, marked⟩ := grows.frame found
  rw [marked]
  exact varies.mono grows

/-- What is bound may depend on being bound, like a function that calls itself. -/
theorem bindVariable (h : Heap.Varies v w heap') (ref : FrameRef) {name : String} {a a' : Value}
    (suits : a.Suits name) (varies : a.Varies v (w.on (w.heap.bindVariable ref name a)) a') :
    Heap.Varies v (w.on (w.heap.bindVariable ref name a))
      (heap'.bindVariable ref (v.rename (w.marked ref.index) name) a') := by
  have grows := w.grows_bindVariable ref name a
  refine h.outlives grows ?_ (h.instances_mono grows) h.nextIdentity
  refine (h.frames_mono grows).modify ref.index fun frame frame' same => ?_
  exact ⟨same.enclosing, same.bindings.insert name varies, same.suit.insert suits⟩

theorem bindField (h : Heap.Varies v w heap') (ref : InstanceRef) (name : String) {a a' : Value}
    (varies : a.Varies v w a') :
    Heap.Varies v (w.on (w.heap.bindField ref name a)) (heap'.bindField ref name a') := by
  have grows : w.Grows (w.on (w.heap.bindField ref name a)) := World.grows_of_frames rfl
  refine h.outlives grows (h.frames_mono grows) ?_ h.nextIdentity
  exact (h.instances_mono grows).modify ref.index fun _ _ same =>
    same.insert name (varies.mono grows)

theorem newIdentity (h : Heap.Varies v w heap') :
    heap'.newIdentity.1 = w.heap.newIdentity.1 ∧
      Heap.Varies v (w.on w.heap.newIdentity.2) heap'.newIdentity.2 := by
  have grows : w.Grows (w.on w.heap.newIdentity.2) := World.grows_of_frames rfl
  refine ⟨congrArg Identity.mk h.nextIdentity, ?_⟩
  exact h.outlives grows (h.frames_mono grows) (h.instances_mono grows)
    (congrArg (· + 1) h.nextIdentity)

theorem newInstance (h : Heap.Varies v w heap') :
    heap'.newInstance.1 = w.heap.newInstance.1 ∧
      Heap.Varies v (w.on w.heap.newInstance.2) heap'.newInstance.2 := by
  have grows : w.Grows (w.on w.heap.newInstance.2) := World.grows_of_frames rfl
  have vary : Bindings.Vary v (w.on w.heap.newInstance.2) false .empty .empty := fun _ => .none
  obtain ⟨same, instances⟩ := (h.instances_mono grows).alloc vary
  refine ⟨?_, h.outlives grows (h.frames_mono grows) instances h.nextIdentity⟩
  rw [Heap.newInstance, Heap.newInstance, h.instances.allocated]
  exact congrArg (InstanceRef.mk · _) same

theorem newFrame (h : Heap.Varies v w heap') (enclosing : FrameRef) (construct construct' : Construct)
    (mark : Bool) :
    (heap'.newFrame (some enclosing) construct').1 = (w.heap.newFrame (some enclosing) construct).1 ∧
      Heap.Varies v (w.withFrame enclosing construct mark)
        (heap'.newFrame (some enclosing) construct').2 := by
  have grows := w.grows_withFrame h.frames.free enclosing construct mark
  have new : Frame.Varies v (w.withFrame enclosing construct mark)
      ((w.withFrame enclosing construct mark).marked w.heap.frames.slots.size)
      ⟨.empty, some enclosing, construct⟩ ⟨.empty, some enclosing, construct'⟩ :=
    ⟨rfl, fun _ => .none, Bindings.suit_empty⟩
  obtain ⟨same, frames⟩ := (h.frames_mono grows).alloc new
  refine ⟨?_, h.outlives grows frames (h.instances_mono grows) h.nextIdentity⟩
  rw [Heap.newFrame, Heap.newFrame, h.frames.allocated]
  exact congrArg (FrameRef.mk · _) same

end Heap.Varies

end

/-! ## States -/

/-- The world that a state belongs to. -/
def State.world (st : State) (marked : Nat → Bool) : World := ⟨st.heap, st.globals, marked⟩

/-- What a program gets to see of the states is the same, but for the texts of functions and the names
in marked frames. -/
structure State.Varies (v : Variation) (marked : Nat → Bool) (st st' : State) : Prop where
  heap : Heap.Varies v (st.world marked) st'.heap
  globals : st'.globals = st.globals
  current : st'.current = st.current
  callDepth : st'.callDepth = st.callDepth
  maxCallDepth : st'.settings.maxCallDepth = st.settings.maxCallDepth
  sink : st'.sink = st.sink
  clock : st'.clock = st.clock

/-- Two runs have come from a world, and a frame that was current, to these states. -/
structure Abreast (v : Variation) (base : World) (current : FrameRef) (marked : Nat → Bool)
    (st st' : State) : Prop where
  varies : st.Varies v marked st'
  grows : base.Grows (st.world marked)
  current : st.current = current

namespace State.Varies

variable {v : Variation} {marked : Nat → Bool} {st st' : State}

theorem abreast (h : st.Varies v marked st') : Abreast v (st.world marked) st.current marked st st' :=
  ⟨h, .refl _, rfl⟩

theorem withHeap (h : st.Varies v marked st') {heap heap' : Heap} {marked' : Nat → Bool}
    (varies : Heap.Varies v ⟨heap, st.globals, marked'⟩ heap') :
    State.Varies v marked' { st with heap := heap } { st' with heap := heap' } :=
  { h with heap := varies }

/-- Both runs go on in another frame. -/
theorem inside (h : st.Varies v marked st') (frame : FrameRef) :
    (st.inside frame).Varies v marked (st'.inside frame) :=
  { h with current := rfl }

theorem called (h : st.Varies v marked st') : st.called.Varies v marked st'.called :=
  { h with callDepth := congrArg (· + 1) h.callDepth }

theorem reset (h : st.Varies v marked st') : st.reset.Varies v marked st'.reset :=
  { h with current := h.globals, callDepth := rfl }

theorem withTemporaries (h : st.Varies v marked st') (values values' : Array Value) :
    State.Varies v marked { st with temporaries := values } { st' with temporaries := values' } :=
  { h with }

end State.Varies

namespace Abreast

variable {v : Variation} {base : World} {current : FrameRef} {marked : Nat → Bool} {st st' : State}

theorem withHeap (h : Abreast v base current marked st st') {heap heap' : Heap}
    {marked' : Nat → Bool} (varies : Heap.Varies v ⟨heap, st.globals, marked'⟩ heap')
    (grows : (st.world marked).Grows ⟨heap, st.globals, marked'⟩) :
    Abreast v base current marked' { st with heap := heap } { st' with heap := heap' } :=
  ⟨h.varies.withHeap varies, h.grows.trans grows, h.current⟩

theorem trans {marked' : Nat → Bool} {st₁ st₁' : State} (h : Abreast v base current marked st st')
    (h' : Abreast v (st.world marked) st.current marked' st₁ st₁') :
    Abreast v base current marked' st₁ st₁' :=
  ⟨h'.varies, h.grows.trans h'.grows, h'.current.trans h.current⟩

end Abreast

end Lox
