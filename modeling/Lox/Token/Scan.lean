import Lox.Token.Segment

/-!
# Scanning

`scan` turns source text into its tokens and into the errors in it, each with the line it stands on,
counted from one.  An error never hides what follows it: scanning goes on with the next segment.
The tokens end with a mark for the end of the input.
-/

namespace Lox

/-- What can be wrong with a piece of source text. -/
inductive ScanError.Cause where
  | unexpectedCharacter (c : Char)
  | unterminatedString
  deriving DecidableEq, Repr

/-- An error in the source text. -/
structure ScanError where
  line : Nat
  cause : ScanError.Cause
  deriving DecidableEq, Repr

namespace ScanError

/-- The cause of an error in words. -/
def Cause.message : Cause → String
  | unexpectedCharacter c => "Unexpected character '" ++ String.singleton c ++ "'."
  | unterminatedString => "Unterminated string."

/-- An error as it is reported. -/
def text (e : ScanError) : String := "[line " ++ e.line.repr ++ "] Error: " ++ e.cause.message

end ScanError

/-- What scanning makes of a text. -/
structure Scan where
  tokens : List Token
  errors : List ScanError

/-- The tokens and errors of segments, the first of which stands on line `line`. -/
def Scan.ofSegments (line : Nat) : List Segment → Scan
  | [] => ⟨[⟨.endOfInput, "", line⟩], []⟩
  | .newline :: rest => ofSegments (line + 1) rest
  | .token kind lexeme :: rest =>
      let scan := ofSegments line rest
      { scan with tokens := ⟨kind, String.ofList lexeme, line⟩ :: scan.tokens }
  | .unexpected c :: rest =>
      let scan := ofSegments line rest
      { scan with errors := ⟨line, .unexpectedCharacter c⟩ :: scan.errors }
  | .unterminated _ :: rest =>
      let scan := ofSegments line rest
      { scan with errors := ⟨line, .unterminatedString⟩ :: scan.errors }
  | .blank _ :: rest => ofSegments line rest
  | .comment _ :: rest => ofSegments line rest

/-- Scan a source text. -/
def scan (source : String) : Scan := .ofSegments 1 (segments source.toList)

end Lox
