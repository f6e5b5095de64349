import Lox.Evaluation.Operator
import Lox.Evaluation.State
import Lox.Plan.Run

/-!
# Tasks

Running a program is a matter of **tasks**: to evaluate an expression, to call a value, to execute a
statement.  What a task does is an action (`Eval`) on the state, which may ask for other tasks to be
carried out on the way; it is a plan (`Lox.Plan`) whose questions are tasks together with the state
to start from.

An action ends with a result or with a `Stop`, and with the state it then leaves.  Some actions
enclose others, such as the one that runs a block in a frame of its own, and put the state right
again however the enclosed action ends.
-/

namespace Lox

/-- The sorts of tasks. -/
inductive TaskSort where
  | value | flow | program
  deriving DecidableEq, Repr

/-- How a statement ends. -/
inductive Flow where
  | normal
  /-- A `return` with this value. -/
  | returned (value : Value)

/-- What the tasks of a sort come to. -/
abbrev TaskSort.Result : TaskSort → Type
  | value => Value
  | flow => Flow
  | program => Unit

/-- What there is to do. -/
inductive Task : TaskSort → Type where
  /-- Evaluate an expression. -/
  | evaluate (e : Expr) : Task .value
  /-- Call a value, in an expression whose closing parenthesis is on this line. -/
  | call (callee : Value) (arguments : List Value) (line : Nat) : Task .value
  /-- Run the body of a function with as many arguments as it takes. -/
  | invoke (closure : Closure) (arguments : List Value) : Task .value
  /-- Execute a statement, after garbage is collected if it is time to. -/
  | execute (s : Stmt) : Task .flow
  /-- Execute a statement. -/
  | perform (s : Stmt) : Task .flow
  /-- Go round a loop for as long as its condition is true. -/
  | repeat_ (condition : Expr) (body : Stmt) : Task .flow
  /-- Run the statements of a program. -/
  | run (program : List Stmt) : Task .program

namespace Evaluation

/-- A task, and the state to start from. -/
structure Question (sort : TaskSort) where
  task : Task sort
  state : State

/-- What a task comes to, and the state that it leaves. -/
structure Answer (sort : TaskSort) where
  result : Except Stop sort.Result
  state : State

end Evaluation

/-- An action on the state that may ask for tasks to be carried out. -/
def Eval (α : Type) : Type :=
  State → Plan Evaluation.Question Evaluation.Answer (Except Stop α × State)

namespace Eval

variable {α β : Type}

/-- Do nothing. -/
def succeed (a : α) : Eval α := fun st => .done (.ok a, st)

/-- Go on as `next` says, unless the action stops. -/
def andThen (action : Eval α) (next : α → Eval β) : Eval β := fun st => do
  let (result, st) ← action st
  match result with
  | .ok a => next a st
  | .error stop => .done (.error stop, st)

instance : Monad Eval where
  pure := succeed
  bind := andThen

/-- Come to a stop. -/
def halt (stop : Stop) : Eval α := fun st => .done (.error stop, st)

/-- Fail at a line. -/
def fail (line : Nat) (cause : RuntimeError.Cause) : Eval α := halt (.error ⟨line, cause⟩)

/-- Carry out a task. -/
def ask {sort : TaskSort} (task : Task sort) : Eval sort.Result := fun st =>
  .ask ⟨task, st⟩ fun answer => .done (answer.result, answer.state)

/-- Look at the state. -/
def look (f : State → α) : Eval α := fun st => .done (.ok (f st), st)

/-- Change the state. -/
def change (f : State → State) : Eval Unit := fun st => .done (.ok (), f st)

/-- Look at the heap, where nothing may be missing. -/
def inspect (f : State → Except Dangling α) : Eval α := fun st =>
  match f st with
  | .ok a => .done (.ok a, st)
  | .error access => .done (.error (.fault access), st)

/-- Make something on the heap. -/
def make (f : Heap → α × Heap) : Eval α := fun st =>
  let (a, heap) := f st.heap
  .done (.ok a, { st with heap := heap })

/-- What `result` holds, where failures are those of the line. -/
def ofResult (line : Nat) : Except RuntimeError.Cause α → Eval α
  | .ok a => pure a
  | .error cause => fail line cause

/-- What `result` holds, where its absence is a failure of the line. -/
def ofOption (line : Nat) (cause : RuntimeError.Cause) : Option α → Eval α
  | some a => pure a
  | none => fail line cause

/-- Change the heap. -/
def changeHeap (f : Heap → Heap) : Eval Unit := change fun st => { st with heap := f st.heap }

/-! ## Variables -/

/-- Bind a variable of a frame. -/
def defineIn (frame : FrameRef) (name : String) (value : Value) : Eval Unit := do
  let _ ← inspect fun st => st.heap.frame frame
  changeHeap (·.bindVariable frame name value)

/-- Bind a variable of the current frame. -/
def define (name : String) (value : Value) : Eval Unit := do
  defineIn (← look State.current) name value

/-- The value of a variable, on a line: of a local one if the depth is known, else of a global
one. -/
def lookUp (name : String) (line : Nat) (depth : Option Nat) : Eval Value := do
  let value ← inspect fun st =>
    match depth with
    | some distance => st.heap.lookupAt st.current distance name
    | none => st.heap.lookup st.globals name
  ofOption line (.undefinedVariable name) value

/-- Change a variable, found like one that is looked up. -/
def assign (target : Reference) (value : Value) : Eval Unit := do
  let name := target.name.lexeme
  let owner ← inspect fun st =>
    match target.depth with
    | some distance => st.heap.ownerAt st.current distance name
    | none => st.heap.owner st.globals name
  let frame ← ofOption target.name.line (.undefinedVariable name) owner
  changeHeap (·.bindVariable frame name value)

/-! ## Properties -/

/-- The value of a property of an instance. -/
def property (object : Instance) (name : Ident) : Eval Value := do
  match ← inspect fun st => st.heap.findProperty object name.lexeme with
  | some (.field value) => return value
  | some (.method method) => make (·.boundMethod method object)
  | none => fail name.line (.undefinedProperty name.lexeme)

/-- Set a field of an instance. -/
def setField (object : Instance) (name : String) (value : Value) : Eval Unit := do
  let _ ← inspect fun st => st.heap.fields object.fields
  changeHeap (·.bindField object.fields name value)

/-! ## The world -/

/-- Print a line, for a `print` on this line of the source. -/
def print (line : Nat) (text : String) : Eval Unit := fun st =>
  match st.sink.print text with
  | .ok sink => .done (.ok (), { st with sink := sink })
  | .error reason => fail line (.outputFailed reason) st

/-- Read the clock. -/
def readClock : Eval Float := fun st =>
  let (time, clock) := st.clock.read
  .done (.ok time, { st with clock := clock })

/-! ## Actions around others -/

/-- Carry out an action between two changes of the state.  The second one, which may depend on what
is kept from before the first, takes place however the action ends. -/
def between {κ : Type} (keep : State → κ) (before : State → State) (after : κ → State → State)
    (action : Eval α) : Eval α := fun st => do
  let kept := keep st
  let (result, st) ← action (before st)
  .done (result, after kept st)

/-- Run an action in another frame; the current one is put aside for so long. -/
def inFrame (frame : FrameRef) (action : Eval α) : Eval α :=
  between State.current
    (fun st => { st with current := frame, saved := st.current :: st.saved })
    (fun previous st => { st with current := previous, saved := st.saved.tail })
    action

/-- Hold on to a value, for the collector, while an action runs.  Other values that the action holds
on to are let go with it. -/
def holding (value : Value) (action : Eval α) : Eval α :=
  between (fun st => st.temporaries.size)
    (fun st => { st with temporaries := st.temporaries.push value })
    (fun mark st => { st with temporaries := st.temporaries.shrink mark })
    action

/-- Hold on to a value until the enclosing `holding` ends. -/
def hold (value : Value) : Eval Unit :=
  change fun st => { st with temporaries := st.temporaries.push value }

/-- Count a call as in progress while an action runs. -/
def inCall (action : Eval α) : Eval α :=
  between (fun _ => ()) (fun st => { st with callDepth := st.callDepth + 1 })
    (fun _ st => { st with callDepth := st.callDepth - 1 })
    action

end Eval

end Lox
