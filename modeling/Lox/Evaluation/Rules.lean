import Lox.Evaluation.Task

/-!
# Evaluation

One rule for each task (`Task.rule`), and with them the procedure `evaluation` that carries out any
task.

Operands and arguments are evaluated from left to right, and whatever is already evaluated is held
on to meanwhile.  Garbage is collected only when a statement begins.  A call is checked, in this
order, for being a call of something that can be called, for the number of its arguments, and for
the number of calls in progress.
-/

namespace Lox

/-- How the rule for a task ends: with a result, or with another task that takes its place. -/
inductive Ending (sort : TaskSort) where
  | result (result : sort.Result)
  | task (task : Task sort)

namespace Eval

/-- Execute statements one after the other, up to the first that returns. -/
def sequence : List Stmt → Eval Flow
  | [] => return .normal
  | s :: rest => do
      match ← ask (.execute s) with
      | .normal => sequence rest
      | .returned value => return .returned value

/-- Evaluate arguments, and hold on to their values. -/
def arguments : List Expr → Eval (List Value)
  | [] => return []
  | e :: rest => do
      let value ← ask (.evaluate e)
      hold value
      return value :: (← arguments rest)

/-- Bind parameters to arguments in a frame. -/
def bindParameters (frame : FrameRef) : List (Ident × Value) → Eval Unit
  | [] => return ()
  | (parameter, value) :: rest => do
      defineIn frame parameter.lexeme value
      bindParameters frame rest

/-- The function that a declaration makes in the current frame. -/
def close (decl : Function) : Eval Value := do
  let frame ← look State.current
  let identity ← make Heap.newIdentity
  return .function identity ⟨decl, frame, false⟩

/-- The number of arguments that a value takes when it is called, on a line. -/
def arityOf (callee : Value) (line : Nat) : Eval Nat :=
  match callee with
  | .function _ closure => return closure.arity
  | .native _ native => return native.arity
  | .class_ type => return type.arity
  | _ => fail line .notCallable

/-- Make an instance of a class and run its initializer, if there is one. -/
def instantiate (type : Class) (arguments : List Value) : Eval Value := do
  let fields ← make Heap.newInstance
  let object : Instance := ⟨fields, type⟩
  match type.findMethod? initializerName with
  | none => return .instance_ object
  | some initializer =>
      let bound ← make (·.bindMethod initializer object)
      let _ ← ask (.invoke bound arguments)
      return .instance_ object

/-- Call a value that takes so many arguments. -/
def enter (callee : Value) (arguments : List Value) (line : Nat) : Eval Value :=
  match callee with
  | .function _ closure => ask (.invoke closure arguments)
  | .native _ .clock => .number <$> readClock
  | .class_ type => instantiate type arguments
  | _ => fail line .notCallable

/-- Call a value, on a line. -/
def call (callee : Value) (arguments : List Value) (line : Nat) : Eval Value := do
  let arity ← arityOf callee line
  if arguments.length ≠ arity then
    fail line (.wrongArgumentCount arity arguments.length)
  else if ← look fun st => decide (st.settings.maxCallDepth ≤ st.callDepth) then
    fail line .tooManyCalls
  else
    inCall (enter callee arguments line)

/-- Run the body of a function.  An initializer always comes to its instance. -/
def invoke (closure : Closure) (arguments : List Value) : Eval Value := do
  let frame ← make (·.newFrame (some closure.frame) (.function closure.declaration))
  bindParameters frame (closure.declaration.parameters.zip arguments)
  let flow ← inFrame frame (sequence closure.declaration.body)
  if closure.isInitializer then
    return (← inspect fun st => st.heap.lookupAt closure.frame 0 thisName).getD .nil
  else
    match flow with
    | .returned value => return value
    | .normal => return .nil

/-- The method of the superclass that a method refers to, bound to its own object.  The frame that
binds `this` lies within the one that binds `super`. -/
def superMethod (line : Nat) (method : Ident) (depth : Option Nat) : Eval Value := do
  let distance ← ofOption line .unresolvedSuper depth
  let parent ← inspect fun st => st.heap.lookupAt st.current distance superName
  match parent with
  | some (.class_ parent) =>
      let this ← inspect fun st => st.heap.lookupAt st.current (distance - 1) thisName
      match this with
      | some (.instance_ object) =>
          let found ← ofOption method.line (.undefinedProperty method.lexeme)
            (parent.findMethod? method.lexeme)
          make (·.boundMethod found object)
      | _ => fail line .unresolvedThis
  | _ => fail line .unresolvedSuper

/-- The class that a declaration extends. -/
def superclass : Option Reference → Eval (Option Class)
  | none => return none
  | some ref => do
      match ← ask (.evaluate (.variable_ ref)) with
      | .class_ parent => return some parent
      | _ => fail ref.name.line .superclassNotAClass

/-- The frame that the methods of a class refer to: one that binds `super`, if there is a
superclass. -/
def methodFrame (name : Ident) (methods : List Function) : Option Class → Eval FrameRef
  | none => look State.current
  | some parent => do
      let current ← look State.current
      let frame ← make (·.newFrame (some current) (.parent name methods))
      defineIn frame superName (.class_ parent)
      return frame

/-- The methods of a class; of two with one name the later one counts. -/
def methodsIn (frame : FrameRef) (methods : List Function) : Bindings Closure :=
  .ofList (methods.map fun decl => (decl.name.lexeme, ⟨decl, frame, decl.namedInit⟩))

/-- Declare a class. -/
def declareClass (name : Ident) (parent : Option Reference) (methods : List Function) :
    Eval Unit := do
  let parent ← superclass parent
  define name.lexeme .nil
  let frame ← methodFrame name methods parent
  let identity ← make Heap.newIdentity
  define name.lexeme (.class_ (.extend ⟨identity, name.lexeme, methodsIn frame methods⟩ parent))

/-- Run the statements of a program, up to the first that fails.  A failure leaves nothing in
progress. -/
def program : List Stmt → Eval Unit
  | [] => return ()
  | s :: rest => do
      let _ ← ask (.execute s)
      program rest

/-- Run an action; if it stops, leave everything that is in progress. -/
def resetting {α : Type} (action : Eval α) : Eval α := fun st => do
  let (result, st) ← action st
  match result with
  | .ok a => .done (.ok a, st)
  | .error stop => .done (.error stop, st.reset)

end Eval

open Eval

/-- Evaluate an expression. -/
def Expr.rule : Expr → Eval (Ending .value)
  | .literal value => return .result (.ofLiteral value)
  | .group inner => return .task (.evaluate inner)
  | .unary op operand => do
      let value ← ask (.evaluate operand)
      .result <$> ofResult op.line (op.op.apply value)
  | .binary left op right => do
      let left ← ask (.evaluate left)
      let right ← holding left (ask (.evaluate right))
      .result <$> ofResult op.line (op.op.apply left right)
  | .logical left op right => do
      let left ← ask (.evaluate left)
      if op.op.isSettledBy left then return .result left else return .task (.evaluate right)
  | .variable_ ref => .result <$> lookUp ref.name.lexeme ref.name.line ref.depth
  | .assign target value => do
      let value ← ask (.evaluate value)
      Eval.assign target value
      return .result value
  | .call callee arguments line => do
      let callee ← ask (.evaluate callee)
      .result <$> holding callee (do
        let values ← Eval.arguments arguments
        ask (.call callee values line))
  | .get object name => do
      match ← ask (.evaluate object) with
      | .instance_ object => .result <$> property object name
      | _ => fail name.line .propertyOfNonInstance
  | .set object name value => do
      match ← ask (.evaluate object) with
      | .instance_ object =>
          let value ← holding (.instance_ object) (ask (.evaluate value))
          setField object name.lexeme value
          return .result value
      | _ => fail name.line .fieldOfNonInstance
  | .this keyword depth => .result <$> lookUp keyword.lexeme keyword.line depth
  | .super keyword method depth => .result <$> superMethod keyword.line method depth
  | .function decl => .result <$> close decl

/-- Execute a statement. -/
def Stmt.rule : Stmt → Eval (Ending .flow)
  | .expression value => do
      let _ ← ask (.evaluate value)
      return .result .normal
  | .print line value => do
      let value ← ask (.evaluate value)
      Eval.print line value.text
      return .result .normal
  | .var name none => do
      define name.lexeme .nil
      return .result .normal
  | .var name (some initial) => do
      let value ← ask (.evaluate initial)
      define name.lexeme value
      return .result .normal
  | .block body => do
      let current ← look State.current
      let frame ← make (·.newFrame (some current) (.block body))
      .result <$> inFrame frame (sequence body)
  | .branch condition yes no => do
      let value ← ask (.evaluate condition)
      if value.isTruthy then
        return .task (.execute yes)
      else
        match no with
        | some no => return .task (.execute no)
        | none => return .result .normal
  | .loop condition body => return .task (.repeat_ condition body)
  | .function decl => do
      let value ← close decl
      define decl.name.lexeme value
      return .result .normal
  | .return_ _ none => return .result (.returned .nil)
  | .return_ _ (some value) => do
      let value ← ask (.evaluate value)
      return .result (.returned value)
  | .class_ name parent methods => do
      declareClass name parent methods
      return .result .normal

/-- The rule for each task; `tidy` takes place before each statement. -/
def Task.rule (tidy : State → State) : {sort : TaskSort} → Task sort → Eval (Ending sort)
  | _, .evaluate e => e.rule
  | _, .call callee arguments line => .result <$> Eval.call callee arguments line
  | _, .invoke closure arguments => .result <$> Eval.invoke closure arguments
  | _, .execute s => do
      change tidy
      return .task (.perform s)
  | _, .perform s => s.rule
  | _, .repeat_ condition body => do
      let value ← ask (.evaluate condition)
      if value.isTruthy then
        match ← ask (.execute body) with
        | .normal => return .task (.repeat_ condition body)
        | .returned value => return .result (.returned value)
      else
        return .result .normal
  | _, .run statements => .result <$> resetting (program statements)

/-- The procedure that carries out any task, where `tidy` takes place before each statement. -/
def evaluationWith (tidy : State → State) : Rules Evaluation.Question Evaluation.Answer :=
  fun _ question => do
    let (result, st) ← question.task.rule tidy question.state
    match result with
    | .ok (.result a) => return .answer ⟨.ok a, st⟩
    | .ok (.task task) => return .become ⟨task, st⟩
    | .error stop => return .answer ⟨.error stop, st⟩

/-- The procedure that carries out any task; garbage is collected before a statement if it is time
to. -/
def evaluation : Rules Evaluation.Question Evaluation.Answer := evaluationWith State.collectIfDue

end Lox
