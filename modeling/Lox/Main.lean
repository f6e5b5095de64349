import Lox.CommandLine
import Std.Time.DateTime.Timestamp

/-!
# The program

The outermost layer: it reads the clock, the script or the lines typed at the prompt, has
`Lox.CommandLine` decide what comes of them, and writes that down.
-/

open Lox Lox.CommandLine

/-- More steps than any run takes. -/
def Lox.CommandLine.unbounded : Nat := Nat.pow 2 62

/-- A clock that starts now. -/
def Lox.CommandLine.currentClock : IO Clock := do
  let now ← Std.Time.Timestamp.now
  return .ticking (Float.ofInt now.toNanosecondsSinceUnixEpoch.val / 1000000000.0)

/-- Read the script at a path. -/
def Lox.CommandLine.readScript (path : String) : IO (Except Unreadable String) := do
  try
    if ← (System.mkFilePath [path]).isDir then
      return .error .directory
    match String.fromUTF8? (← IO.FS.readBinFile path) with
    | some source => return .ok source
    | none => return .error .notText
  catch
    | .noFileOrDirectory _ _ _ => return .error .missing
    | .inappropriateType _ _ _ => return .error .behindFile
    | e => return .error (.other (toString e))

/-- Run the lines typed at the prompt, one by one. -/
partial def Lox.CommandLine.prompt (session : Session) : IO Unit := do
  let input ← IO.getStdin
  if ← input.isTty then
    IO.print "> "
    (← IO.getStdout).flush
  match inputLines [] (← input.getLine).toList with
  | [] => return ()
  | line :: _ =>
      match runLine session unbounded line with
      | none => return ()
      | some (after, reports) => do
          IO.print (written (after.printed.toList.drop session.printed.size))
          (← IO.getStdout).flush
          IO.eprint (written reports)
          prompt after

/-- The program. -/
def main (arguments : List String) : IO UInt32 := do
  let clock ← currentClock
  let script ←
    match Request.ofArguments arguments with
    | .run options =>
        match options.script with
        | some path => readScript path
        | none => do
            prompt (options.session clock)
            return 0
    | _ => pure (.ok "")
  match CommandLine.run (fun _ => script) "" clock unbounded arguments with
  | none => return 1
  | some exit => do
      IO.print (written exit.output)
      IO.eprint (written exit.diagnostics)
      return exit.code.toUInt32
