import Lox.Evaluation.Rules
import Lox.Scope.Resolve
import Lox.Syntax.Program
import Lox.Token.Scan

/-!
# Sessions

A session runs sources one after the other, and what one of them binds globally the next one sees.
A source with an error that shows before it runs does not run at all.  One that fails while it runs
keeps what it has done up to then.

Runs have fuel, the number of steps that they may take; a run that is not over by then has no
outcome.
-/

namespace Lox

/-- Why a source did not run to its end. -/
inductive Failure where
  /-- The source is not well formed. -/
  | malformed (scan : List ScanError) (parse : List ParseError)
  /-- Names or keywords in it are misused. -/
  | unresolved (errors : List ResolveError)
  /-- It failed while it ran. -/
  | stopped (stop : Stop)

namespace Failure

/-- The texts of the errors in a source that is not well formed, by line.  On one line, those of
scanning come first, and otherwise they keep their order. -/
def malformedTexts (scan : List ScanError) (parse : List ParseError) : List String :=
  let texts :=
    scan.map (fun e => (e.line, e.text)) ++ parse.map (fun e => (e.line, e.text))
  (texts.mergeSort fun a b => a.1 ≤ b.1).map Prod.snd

/-- What is reported of a failure, one text for each error. -/
def diagnostics : Failure → List String
  | malformed scan parse => malformedTexts scan parse
  | unresolved errors => errors.map ResolveError.text
  | stopped (.error e) => [e.text]
  | stopped (.fault access) => [access.message]

/-- The report of a failure. -/
def text (failure : Failure) : String := "\n".intercalate failure.diagnostics

/-- The exit code of a program whose source is faulty. -/
def staticExitCode : Nat := 65

/-- The exit code of a program that fails while it runs. -/
def runtimeExitCode : Nat := 70

/-- The exit code of a program that comes to such an end. -/
def exitCode : Failure → Nat
  | malformed _ _ | unresolved _ => staticExitCode
  | stopped _ => runtimeExitCode

end Failure

/-- A session. -/
structure Session where
  state : State

namespace Session

/-- A session in which nothing has run. -/
def start (settings : Settings) (sink : Sink) (clock : Clock) : Session :=
  ⟨.start settings sink clock⟩

/-- Run a program that is parsed already. -/
def interpret (session : Session) (fuel : Nat) (program : List Stmt) :
    Option (Except Stop Unit × Session) :=
  (evaluation.run fuel ⟨.run program, session.state⟩).map fun answer =>
    (answer.result, ⟨answer.state⟩)

/-- What a source is before it runs: a program, unless there are errors in it. -/
def prepare (source : String) : Except Failure (List Stmt) :=
  let scanned := scan source
  let parsed := parseProgram scanned.tokens
  if scanned.errors = [] ∧ parsed.errors = [] then
    let resolved := resolveProgram parsed.statements
    if resolved.errors = [] then .ok resolved.program else .error (.unresolved resolved.errors)
  else .error (.malformed scanned.errors parsed.errors)

/-- Run a source. -/
def run (session : Session) (fuel : Nat) (source : String) :
    Option (Except Failure Unit × Session) :=
  match prepare source with
  | .error failure => some (.error failure, session)
  | .ok program =>
      (session.interpret fuel program).map fun (result, session) =>
        (result.mapError .stopped, session)

/-- The value of a global variable. -/
def global? (session : Session) (name : String) : Option Value :=
  match session.state.heap.frame session.state.globals with
  | .ok frame => frame.bindings.find? name
  | .error _ => none

/-- Collect garbage. -/
def collect (session : Session) : Collection × Session :=
  let (collection, st) := session.state.collect
  (collection, ⟨st⟩)

/-- The lines printed so far. -/
def printed (session : Session) : Array String := session.state.sink.printed

end Session

end Lox
