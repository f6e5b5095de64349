import Lox.Session
import Lox.Syntax.Form

/-!
# The command line

What the arguments of the program ask for (`Request`), and what it then does, short of talking to
the world: what it writes, line by line, and the code it exits with (`Exit`).

Arguments are read from left to right.  An option that takes a value, and the script, are checked
when the next argument that is not a value turns up or the arguments end; asking for help or for the
version ends the reading there and then.
-/

namespace Lox.CommandLine

/-! ## What is asked for -/

/-- The options of a run. -/
structure Options where
  script : Option String := none
  /-- List the tokens, and do not run. -/
  showTokens : Bool := false
  /-- Show the tree, and do not run. -/
  showTree : Bool := false
  maxCallDepth : Option Nat := none
  deriving DecidableEq, Repr

/-- What is asked for. -/
inductive Request where
  | run (options : Options)
  | help
  | version
  /-- The arguments make no sense. -/
  | misuse
  deriving DecidableEq, Repr

/-- What is read but not checked yet. -/
inductive Pending where
  | nothing
  | script (path : String)
  /-- The limit on nested calls, which may lack its value still. -/
  | maxCallDepth (value : Option String)
  deriving DecidableEq, Repr

/-- How far the arguments are read. -/
structure Reading where
  options : Options := {}
  pending : Pending := .nothing
  /-- Was there a script? -/
  hasScript : Bool := false
  /-- Was there a double dash, behind which there are no more options? -/
  onlyScript : Bool := false
  deriving DecidableEq, Repr

/-- A whole number of at most 64 bits, in digits that may have a plus in front. -/
def readNumber (s : String) : Option Nat :=
  let digits :=
    match s.toList with
    | '+' :: rest => rest
    | cs => cs
  if digits ≠ [] ∧ digits.all Char.isDigit then
    let n := Number.digitsValue 0 digits
    if n < Nat.pow 2 64 then some n else none
  else none

namespace Reading

/-- Check what is pending. -/
def settle (r : Reading) : Option Reading :=
  match r.pending with
  | .nothing => some r
  | .script path =>
      if path = "" then none
      else some { r with options := { r.options with script := some path }, pending := .nothing }
  | .maxCallDepth none => none
  | .maxCallDepth (some value) =>
      match r.options.maxCallDepth, readNumber value with
      | none, some n =>
          some { r with options := { r.options with maxCallDepth := some n }, pending := .nothing }
      | _, _ => none

/-- Read an argument that is not an option: it is the script, of which there is one only. -/
def operand (r : Reading) (path : String) : Option Reading := do
  if r.hasScript then none
  else return { ← r.settle with pending := .script path, hasScript := true }

/-- Read an option that takes no value.  It may be given once. -/
def flag (r : Reading) (get : Options → Bool) (set : Options → Options) : Option Reading := do
  let r ← r.settle
  if get r.options then none else return { r with options := set r.options }

end Reading

/-- What one argument leads to: more reading, or a request. -/
abbrev Step : Type := Reading ⊕ Request

/-- Go on with what is read, unless it makes no sense. -/
def Step.ofReading? : Option Reading → Step
  | some r => .inl r
  | none => .inr .misuse

/-- End with a request, unless what is read so far makes no sense. -/
def Step.finish (r : Reading) (request : Request) : Step :=
  .inr (if r.settle.isSome then request else .misuse)

/-- Read an option that is written out, with the value that an equals sign attaches to it. -/
def readLong (r : Reading) (name : String) (value : Option String) : Step :=
  match name, value with
  | "tokens", none =>
      .ofReading? (r.flag Options.showTokens fun o => { o with showTokens := true })
  | "ast", none => .ofReading? (r.flag Options.showTree fun o => { o with showTree := true })
  | "max-call-depth", none =>
      .ofReading? (r.settle.map fun r => { r with pending := .maxCallDepth none })
  | "max-call-depth", some value =>
      .ofReading? do
        let r ← r.settle
        { r with pending := .maxCallDepth (some value) }.settle
  | "help", none => .finish r .help
  | "version", none => .finish r .version
  | _, _ => .inr .misuse

/-- Read an argument. -/
def readArgument (r : Reading) (argument : String) : Step :=
  let cs := argument.toList
  if r.onlyScript then .ofReading? (r.operand argument)
  else
    match cs with
    | ['-', '-'] => .inl { r with onlyScript := true }
    | '-' :: '-' :: long =>
        let value :=
          match long.dropWhile (· != '=') with
          | [] => none
          | _ :: value => some (String.ofList value)
        readLong r (String.ofList (long.takeWhile (· != '='))) value
    | '-' :: 'h' :: _ => .finish r .help
    | '-' :: 'V' :: _ => .finish r .version
    | '-' :: _ :: _ => .inr .misuse
    | _ =>
        match r.pending with
        | .maxCallDepth none => .inl { r with pending := .maxCallDepth (some argument) }
        | _ => .ofReading? (r.operand argument)

/-- Read the arguments that are left. -/
def Request.read (r : Reading) : List String → Request
  | [] =>
      match r.settle with
      | some r => .run r.options
      | none => .misuse
  | argument :: rest =>
      match readArgument r argument with
      | .inl r => Request.read r rest
      | .inr request => request

/-- What arguments ask for. -/
def Request.ofArguments (arguments : List String) : Request := Request.read {} arguments

/-! ## What is done -/

/-- The end of the program. -/
structure Exit where
  code : Nat
  /-- The lines of its output. -/
  output : List String
  /-- The lines of its diagnostics. -/
  diagnostics : List String
  deriving DecidableEq, Repr

/-- Lines as they are written. -/
def written (lines : List String) : String := String.join (lines.map (· ++ "\n"))

/-- The exit code for arguments that make no sense. -/
def misuseExitCode : Nat := 64

/-- The exit code for a script that cannot be read. -/
def unreadableExitCode : Nat := 74

/-- Why a script cannot be read. -/
inductive Unreadable where
  | missing
  | directory
  /-- Its path leads through something that is not a directory. -/
  | behindFile
  /-- It is not a text. -/
  | notText
  | other (reason : String)
  deriving DecidableEq, Repr

/-- A reason in words. -/
def Unreadable.message : Unreadable → String
  | missing => "No such file or directory (os error 2)"
  | directory => "Is a directory (os error 21)"
  | behindFile => "Not a directory (os error 20)"
  | notText => "stream did not contain valid UTF-8"
  | other reason => reason

/-- The end of the program if the script cannot be read. -/
def unreadable (path : String) (reason : Unreadable) : Exit :=
  ⟨unreadableExitCode, [], ["Could not read " ++ path ++ ": " ++ reason.message]⟩

/-- How the program is to be called. -/
def usage : String := "Usage: treelox [OPTIONS] [SCRIPT]"

/-- The answer to a request for help. -/
def help : Exit where
  code := 0
  output :=
    ["A tree-walking Lox interpreter", "", usage, "",
      "Arguments:",
      "  [SCRIPT]  Script to run. Starts a REPL when omitted", "",
      "Options:",
      "      --tokens              Print the scanned tokens instead of running",
      "      --ast                 Print the parsed syntax tree instead of running",
      "      --max-call-depth <N>  Maximum depth of nested calls",
      "  -h, --help                Print help",
      "  -V, --version             Print version"]
  diagnostics := []

/-- The answer to a request for the version. -/
def version : Exit := ⟨0, ["treelox 0.1.0"], []⟩

/-- The end of the program if its arguments make no sense. -/
def misuse : Exit := ⟨misuseExitCode, [], ["error: invalid arguments", "", usage]⟩

/-- The settings that options ask for. -/
def Options.settings (options : Options) : Settings :=
  match options.maxCallDepth with
  | some n => Settings.withMaxCallDepth {} n
  | none => {}

/-- The session in which a program with these options runs. -/
def Options.session (options : Options) (clock : Clock) : Session :=
  .start options.settings .unlimited clock

/-- Show the tokens or the tree of a source, or both, with the errors in it. -/
def dump (options : Options) (source : String) : Exit :=
  let scanned := scan source
  let tokens := if options.showTokens then scanned.tokens.map Token.text else []
  let scanErrors := scanned.errors.map ScanError.text
  let (tree, parseErrors) :=
    if options.showTree then
      let parsed := parseProgram scanned.tokens
      ([programText parsed.statements], parsed.errors.map ParseError.text)
    else ([], [])
  let diagnostics := scanErrors ++ parseErrors
  ⟨if diagnostics = [] then 0 else Failure.staticExitCode, tokens ++ tree, diagnostics⟩

/-- What is reported of the outcome of a run. -/
def reported : Except Failure Unit → List String
  | .ok _ => []
  | .error failure => failure.diagnostics

/-- Run a script. -/
def runScript (session : Session) (fuel : Nat) (source : String) : Option Exit :=
  (session.run fuel source).map fun (result, session) =>
    let code :=
      match result with
      | .ok _ => 0
      | .error failure => failure.exitCode
    ⟨code, session.printed.toList, reported result⟩

/-- Run one line at the prompt: the session afterwards, and what is reported. -/
def runLine (session : Session) (fuel : Nat) (line : String) : Option (Session × List String) :=
  (session.run fuel line).map fun (result, session) => (session, reported result)

/-- Run lines at the prompt. -/
def runLines (session : Session) (fuel : Nat) : List String → Option Exit
  | [] => some ⟨0, session.printed.toList, []⟩
  | line :: rest => do
      let (session, reports) ← runLine session fuel line
      let exit ← runLines session fuel rest
      return { exit with diagnostics := reports ++ exit.diagnostics }

/-- A line whose characters are given backwards, without a carriage return at its end. -/
def chomp : List Char → String
  | '\r' :: rest => String.ofList rest.reverse
  | line => String.ofList line.reverse

/-- The lines of an input, where `current` are the characters of the first one that are read
already, backwards.  What stands behind the last newline is a line too, unless it is empty. -/
def inputLines (current : List Char) : List Char → List String
  | [] => if current = [] then [] else [String.ofList current.reverse]
  | '\n' :: rest => chomp current :: inputLines [] rest
  | c :: rest => inputLines (c :: current) rest

/-- Show or run a script. -/
def withScript (options : Options) (clock : Clock) (fuel : Nat) (source : String) :
    Option Exit :=
  if options.showTokens ∨ options.showTree then some (dump options source)
  else runScript (options.session clock) fuel source

/-- The program as a whole, where `readScript` reads a script and `input` is what is typed at the
prompt. -/
def run (readScript : String → Except Unreadable String) (input : String) (clock : Clock)
    (fuel : Nat) (arguments : List String) : Option Exit :=
  match Request.ofArguments arguments with
  | .help => some help
  | .version => some version
  | .misuse => some misuse
  | .run options =>
      match options.script with
      | none => runLines (options.session clock) fuel (inputLines [] input.toList)
      | some path =>
          match readScript path with
          | .error reason => some (unreadable path reason)
          | .ok source => withScript options clock fuel source

end Lox.CommandLine
