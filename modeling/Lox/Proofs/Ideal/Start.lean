import Lox.Proofs.Ideal.Rules

/-!
# The state before anything has run

The state before anything has run has an ideal, which is the same for all settings of the collector.
-/

namespace Lox

namespace Heap

variable {settings : Settings}

theorem not_holdsFrame_new (settings : Settings) (ref : FrameRef) (frame : Frame) :
    ¬(Heap.new settings).HoldsFrame ref frame := by
  rintro ⟨slot, found, -, -⟩
  simp [Heap.new, Arena.empty] at found

theorem not_holdsFields_new (settings : Settings) (ref : InstanceRef) (fields : Bindings Value) :
    ¬(Heap.new settings).HoldsFields ref fields := by
  rintro ⟨slot, found, -, -⟩
  simp [Heap.new, Arena.empty] at found

/-- The only frame on a heap with globals and nothing else. -/
theorem holdsFrame_globals {ref : FrameRef} {frame : Frame} :
    ((Heap.new settings).newFrame none).2.HoldsFrame ref frame ↔
      ref = ((Heap.new settings).newFrame none).1 ∧ frame = ⟨.empty, none, .program⟩ := by
  rw [holdsFrame_newFrame Arena.sound_empty, or_iff_left (not_holdsFrame_new _ _ _)]

theorem valid_globals (settings : Settings) :
    ((Heap.new settings).newFrame none).2.Valid ((Heap.new settings).newFrame none).1 where
  sound := (Sound.new settings).newFrame (fun ref mem => by cases mem) .program
  hasGlobals := ⟨_, holdsFrame_globals.mpr ⟨rfl, rfl⟩⟩
  plainVariables := by
    intro ref frame holds v mem
    obtain ⟨-, rfl⟩ := holdsFrame_globals.mp holds
    cases mem
  plainFields := fun holds => (not_holdsFields_new settings _ _ holds).elim
  outermost := by
    intro ref frame holds
    obtain ⟨rfl, rfl⟩ := holdsFrame_globals.mp holds
    simp
  older := by
    intro ref frame enclosing holds encloses
    obtain ⟨-, rfl⟩ := holdsFrame_globals.mp holds
    cases encloses

theorem represents_new (settings settings' : Settings) :
    (Heap.new settings).Represents (Heap.new settings') where
  frames := ⟨fun holds => (not_holdsFrame_new settings ⟨_, _⟩ _ holds).elim, rfl, rfl, rfl⟩
  instances := ⟨fun holds => (not_holdsFields_new settings ⟨_, _⟩ _ holds).elim, rfl, rfl, rfl⟩
  nextIdentity := rfl

theorem fits_native (heap : Heap) (identity : Identity) (native : Native) :
    heap.Fits (.native identity native) :=
  ⟨fun _ mem => (List.not_mem_nil mem).elim, fun _ mem => (List.not_mem_nil mem).elim⟩

end Heap

theorem Native.name_ne_this (native : Native) : native.name ≠ thisName := by
  cases native
  decide

namespace State.Represents

variable {st ideal : State}

theorem defineNatives (h : st.Represents ideal) (natives : List Native) :
    (st.defineNatives natives).Represents (ideal.defineNatives natives) := by
  induction natives generalizing st ideal with
  | nil => exact h
  | cons native rest ih =>
    obtain ⟨frame, holds⟩ := h.valid.heap.hasGlobals
    have fits := Heap.fits_native st.heap.newIdentity.2 st.heap.newIdentity.1 native
    have bound := (h.along.newIdentity.bindVariable holds fits native.name_ne_this).represents
    have same : (Value.native st.heap.newIdentity.1 native).ideal =
        .native ideal.heap.newIdentity.1 native :=
      congrArg (Value.native · native) h.heap.newIdentity_fst.symm
    rw [← h.globals, same] at bound
    exact ih bound

end State.Represents

/-- The state before the native functions are bound. -/
def State.bare (settings : Settings) (sink : Sink) (clock : Clock) : State where
  heap := ((Heap.new settings).newFrame none).2
  globals := ((Heap.new settings).newFrame none).1
  current := ((Heap.new settings).newFrame none).1
  saved := []
  temporaries := #[]
  callDepth := 0
  settings := settings
  sink := sink
  clock := clock

theorem State.start_eq (settings : Settings) (sink : Sink) (clock : Clock) :
    State.start settings sink clock = (State.bare settings sink clock).defineNatives Native.all :=
  rfl

theorem State.valid_bare (settings : Settings) (sink : Sink) (clock : Clock) :
    (State.bare settings sink clock).Valid where
  heap := Heap.valid_globals settings
  roots := by
    intro object mem
    obtain rfl : object = .frame (State.bare settings sink clock).globals := by
      simpa [State.roots, State.bare] using mem
    exact (Heap.valid_globals settings).hasGlobals

/-- **Before anything has run, the settings of the collector make no difference to the ideal.** -/
theorem State.represents_start {settings settings' : Settings}
    (same : settings'.maxCallDepth = settings.maxCallDepth) (sink : Sink) (clock : Clock) :
    (State.start settings sink clock).Represents (State.start settings' sink clock) := by
  have bare : (State.bare settings sink clock).Represents (State.bare settings' sink clock) :=
    { valid := State.valid_bare settings sink clock
      heap := (Heap.represents_new settings settings').newFrame (.new settings) none .program
      globals := rfl
      current := rfl
      saved := rfl
      temporaries := Array.map_empty.symm
      callDepth := rfl
      maxCallDepth := same
      sink := rfl
      clock := rfl }
  rw [State.start_eq, State.start_eq]
  exact bare.defineNatives Native.all

end Lox
