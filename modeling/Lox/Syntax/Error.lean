import Lox.Syntax.Basic

/-!
# Errors in the grammar

An error points at the token where the program stops being well formed and says what is expected
there, or which limit is exceeded.
-/

namespace Lox

namespace ParseError

/-- What a name is for. -/
inductive NameRole where
  | ofClass | ofSuperclass | ofFunction (sort : FunctionSort) | ofParameter | ofVariable
  | ofProperty | ofSuperclassMethod
  deriving DecidableEq, Repr

/-- The name that is expected, in words. -/
def NameRole.text : NameRole → String
  | ofClass => "class name"
  | ofSuperclass => "superclass name"
  | ofFunction sort => sort.text ++ " name"
  | ofParameter => "parameter name"
  | ofVariable => "variable name"
  | ofProperty => "property name after '.'"
  | ofSuperclassMethod => "superclass method name"

/-- A spot in the grammar at which a certain symbol has to stand. -/
inductive Spot where
  | beforeClassBody | afterClassBody
  | afterFunctionName (sort : FunctionSort) | beforeFunctionBody (sort : FunctionSort)
  | afterParameters | afterVariableDeclaration
  | afterFor | afterLoopCondition | afterForClauses
  | afterWhile | afterCondition | afterIf | afterIfCondition
  | afterReturnValue | afterBlock | afterValue | afterExpression | afterArguments
  | afterSuper | afterFun
  deriving DecidableEq, Repr

/-- A spot in words. -/
def Spot.text : Spot → String
  | beforeClassBody => "before class body"
  | afterClassBody => "after class body"
  | afterFunctionName sort => "after " ++ sort.text ++ " name"
  | beforeFunctionBody sort => "before " ++ sort.text ++ " body"
  | afterParameters => "after parameters"
  | afterVariableDeclaration => "after variable declaration"
  | afterFor => "after 'for'"
  | afterLoopCondition => "after loop condition"
  | afterForClauses => "after for clauses"
  | afterWhile => "after 'while'"
  | afterCondition => "after condition"
  | afterIf => "after 'if'"
  | afterIfCondition => "after if condition"
  | afterReturnValue => "after return value"
  | afterBlock => "after block"
  | afterValue => "after value"
  | afterExpression => "after expression"
  | afterArguments => "after arguments"
  | afterSuper => "after 'super'"
  | afterFun => "after 'fun'"

/-- What is wrong at a token. -/
inductive Cause where
  | expectedName (role : NameRole)
  | expectedSymbol (symbol : Symbol) (spot : Spot)
  | expectedExpression
  | tooManyParameters
  | tooManyArguments
  | invalidAssignmentTarget
  deriving DecidableEq, Repr

/-- A cause in words. -/
def Cause.message : Cause → String
  | expectedName role => "Expect " ++ role.text ++ "."
  | expectedSymbol symbol spot =>
      "Expect '" ++ String.ofList symbol.text ++ "' " ++ spot.text ++ "."
  | expectedExpression => "Expect expression."
  | tooManyParameters => "Can't have more than 255 parameters."
  | tooManyArguments => "Can't have more than 255 arguments."
  | invalidAssignmentTarget => "Invalid assignment target."

/-- The place that an error points at. -/
inductive Place where
  | atEnd
  | atLexeme (lexeme : String)
  deriving DecidableEq, Repr

/-- A place in words, with a blank in front. -/
def Place.text : Place → String
  | atEnd => " at end"
  | atLexeme lexeme => " at '" ++ lexeme ++ "'"

end ParseError

/-- An error in the grammar. -/
structure ParseError where
  line : Nat
  place : ParseError.Place
  cause : ParseError.Cause
  deriving DecidableEq, Repr

namespace ParseError

/-- The error that points at a token. -/
def atToken (t : Token) (cause : Cause) : ParseError :=
  ⟨t.line, if t.isEnd then .atEnd else .atLexeme t.lexeme, cause⟩

/-- An error as it is reported. -/
def text (e : ParseError) : String :=
  "[line " ++ e.line.repr ++ "] Error" ++ e.place.text ++ ": " ++ e.cause.message

end ParseError

end Lox
