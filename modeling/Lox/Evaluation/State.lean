import Lox.Evaluation.Error
import Lox.Heap.Chain
import Lox.Heap.Collect
import Lox.Heap.Property

/-!
# The state of a running program

Beside the heap, the state holds what the garbage collector must know of a program in the midst of a
run: the current frame, the frames that blocks and calls in progress have put aside, and the values
that half-evaluated expressions are holding on to.  Together with the globals these are the
**roots**.

The state also holds the two things through which a program touches the world: the sink that takes
what is printed, and the clock.
-/

namespace Lox

/-- Where printed lines go. -/
structure Sink where
  /-- The lines printed so far. -/
  printed : Array String
  /-- How many more lines are taken, if there is a limit. -/
  capacity : Option Nat
  /-- Why no more lines are taken, in words. -/
  reason : String

namespace Sink

/-- A sink that takes every line. -/
def unlimited : Sink := ⟨#[], none, ""⟩

/-- A sink that takes `n` lines and fails from then on. -/
def limited (n : Nat) (reason : String) : Sink := ⟨#[], some n, reason⟩

/-- Print a line, unless the sink is full. -/
def print (sink : Sink) (line : String) : Except String Sink :=
  match sink.capacity with
  | none => .ok { sink with printed := sink.printed.push line }
  | some (n + 1) => .ok { sink with printed := sink.printed.push line, capacity := some n }
  | some 0 => .error sink.reason

end Sink

/-- A clock: what it shows when it is read for the first time, the second time, and so on. -/
structure Clock where
  shows : Nat → Float
  /-- How often it has been read. -/
  readings : Nat

namespace Clock

/-- Read the clock. -/
def read (clock : Clock) : Float × Clock :=
  (clock.shows clock.readings, { clock with readings := clock.readings + 1 })

/-- A clock that starts at a number of seconds and goes on by a microsecond at each reading. -/
def ticking (start : Float) : Clock :=
  ⟨fun n => start + Float.ofNat n / 1000000.0, 0⟩

end Clock

/-- The state of a running program. -/
structure State where
  heap : Heap
  globals : FrameRef
  /-- The frame of the innermost scope. -/
  current : FrameRef
  /-- The frames put aside by blocks and calls in progress, the last one first. -/
  saved : List FrameRef
  /-- The values that expressions in progress hold on to, the last one last. -/
  temporaries : Array Value
  /-- How many calls are in progress. -/
  callDepth : Nat
  settings : Settings
  sink : Sink
  clock : Clock

namespace State

/-- What the program can get at from where it stands. -/
def roots (st : State) : List HeapObject :=
  .frame st.globals :: .frame st.current :: st.saved.map .frame ++
    st.temporaries.toList.flatMap Value.referents

/-- Collect garbage. -/
def collect (st : State) : Collection × State :=
  let roots := st.roots
  let (collection, heap) := st.heap.collect roots
  (collection, { st with heap := heap })

/-- Collect garbage if it is time to. -/
def collectIfDue (st : State) : State := if st.heap.shouldCollect then st.collect.2 else st

/-- Leave everything that is in progress. -/
def reset (st : State) : State :=
  { st with current := st.globals, saved := [], temporaries := #[], callDepth := 0 }

/-- Bind the native functions in the globals. -/
def defineNatives (st : State) : List Native → State
  | [] => st
  | native :: rest =>
      let (identity, heap) := st.heap.newIdentity
      let heap := heap.bindVariable st.globals native.name (.native identity native)
      { st with heap := heap }.defineNatives rest

/-- The state before anything has run. -/
def start (settings : Settings) (sink : Sink) (clock : Clock) : State :=
  let (globals, heap) := (Heap.new settings).newFrame none
  let st : State :=
    { heap := heap, globals := globals, current := globals, saved := [], temporaries := #[]
      callDepth := 0, settings := settings, sink := sink, clock := clock }
  st.defineNatives Native.all

end State

end Lox
