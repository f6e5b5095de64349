import Lox.Syntax.Parser

/-!
# The grammar

One rule for each phrase (`Phrase.parser`), and with them the procedure `grammar` that parses any
phrase.

Binary operators are left-associative and come on six levels, from `or`, which binds least, to `*`,
`/` and `%`.  Assignment binds less than all of them and associates to the right; its left side is
parsed as an expression first and reinterpreted as a target when `=` follows.

There is no `for` in the trees: a `for` loop is written down as the `while` loop it stands for, in a
block of its own if it has an initializer.

A declaration with an error in it is skipped up to the next place where a statement seems to begin
(`afterMistake`), so that one mistake does not hide the next.
-/

namespace Lox

/-- The most parameters or arguments that a function or a call may have. -/
def maxArguments : Nat := 255

namespace Level

/-- The level of `or`, the least of the binary operators. -/
def or : Nat := 1

/-- The level above the tightest binary operators, that of unary ones. -/
def unary : Nat := 7

end Level

/-- The level of an operator. -/
def BinaryOp.level : BinaryOp → Nat
  | equal | notEqual => 3
  | greater | greaterEqual | less | lessEqual => 4
  | add | subtract => 5
  | multiply | divide | remainder => 6

/-- The level of an operator. -/
def LogicalOp.level : LogicalOp → Nat
  | or => Level.or
  | and => 2

/-- An operator between two operands. -/
inductive Connective where
  | binary (op : BinaryOp)
  | logical (op : LogicalOp)
  deriving DecidableEq, Repr

namespace Connective

/-- The level of an operator. -/
def level : Connective → Nat
  | binary op => op.level
  | logical op => op.level

/-- The operator that a kind of token stands for between two operands. -/
def ofKind? : Kind → Option Connective
  | .keyword .or_ => some (.logical .or)
  | .keyword .and_ => some (.logical .and)
  | .symbol .equalEqual => some (.binary .equal)
  | .symbol .bangEqual => some (.binary .notEqual)
  | .symbol .greater => some (.binary .greater)
  | .symbol .greaterEqual => some (.binary .greaterEqual)
  | .symbol .less => some (.binary .less)
  | .symbol .lessEqual => some (.binary .lessEqual)
  | .symbol .plus => some (.binary .add)
  | .symbol .minus => some (.binary .subtract)
  | .symbol .star => some (.binary .multiply)
  | .symbol .slash => some (.binary .divide)
  | .symbol .percent => some (.binary .remainder)
  | _ => none

/-- Two operands with the operator that the token `t` stands for between them. -/
def combine (c : Connective) (t : Token) (left right : Expr) : Expr :=
  match c with
  | binary op => .binary left ⟨op, t.lexeme, t.line⟩ right
  | logical op => .logical left ⟨op, t.lexeme, t.line⟩ right

end Connective

/-- The operator that a kind of token stands for in front of an operand. -/
def UnaryOp.ofKind? : Kind → Option UnaryOp
  | .symbol .bang => some .not
  | .symbol .minus => some .negate
  | _ => none

/-- Does a statement begin with a token of this kind, as far as can be told from it alone? -/
def Kind.startsStatement : Kind → Bool
  | .keyword k =>
      match k with
      | .class_ | .fun_ | .var_ | .for_ | .if_ | .while_ | .print_ | .return_ => true
      | _ => false
  | _ => false

/-- The place to go on from after a mistake at the next token: the token is dropped, and so is what
follows up to a semicolon, or up to a token that begins a statement, or up to the end. -/
def afterMistake : List Token → List Token
  | [] => []
  | t :: rest =>
      let next := Parser.front rest
      if t.isEnd then t :: rest
      else if next.isEnd ∨ t.isSymbol .semicolon ∨ next.kind.startsStatement then rest
      else afterMistake rest

namespace Parser

/-- Note an error at the next token if it would begin a parameter or argument too many. -/
def limitTo (count : Nat) (cause : ParseError.Cause) : Parser Unit := do
  let t ← look
  if maxArguments ≤ count then note t cause else return ()

/-- The parameters of a function, its opening parenthesis being taken. -/
def parameters : Parser (List Ident) := do
  let names ← unlessAt .rightParen (phrase (.parameters 0))
  let _ ← expect .rightParen .afterParameters
  return names.getD []

/-- A block, its opening brace being taken. -/
def block : Parser (List Stmt) := do
  let body ← phrase (.declarations true)
  let _ ← expect .rightBrace .afterBlock
  return body

/-- The parameters and the body of a function, its opening parenthesis being taken. -/
def functionFrom (sort : FunctionSort) (name : FunctionName) : Parser Function := do
  let names ← parameters
  let _ ← expect .leftBrace (.beforeFunctionBody sort)
  return ⟨name, names, ← block⟩

/-- A function that has a name. -/
def namedFunction (sort : FunctionSort) : Parser Function := do
  let name ← expectName (.ofFunction sort)
  let _ ← expect .leftParen (.afterFunctionName sort)
  functionFrom sort (.named name)

/-- A class, its keyword being taken. -/
def classDeclaration : Parser Stmt := do
  let name ← expectName .ofClass
  let superclass ← optional (accept .less) (expectName .ofSuperclass)
  let _ ← expect .leftBrace .beforeClassBody
  let methods ← phrase .methods
  let _ ← expect .rightBrace .afterClassBody
  return .class_ name (superclass.map (⟨·, none⟩)) methods

/-- A variable, its keyword being taken. -/
def varDeclaration : Parser Stmt := do
  let name ← expectName .ofVariable
  let initial ← optional (accept .equal) (phrase .expression)
  let _ ← expect .semicolon .afterVariableDeclaration
  return .var name initial

/-- An expression for its effects. -/
def expressionStatement : Parser Stmt := do
  let value ← phrase .expression
  let _ ← expect .semicolon .afterExpression
  return .expression value

/-- An `if`, its keyword being taken. -/
def ifStatement : Parser Stmt := do
  let _ ← expect .leftParen .afterIf
  let condition ← phrase .expression
  let _ ← expect .rightParen .afterIfCondition
  let yes ← phrase .statement
  let no ← optional (acceptWord .else_) (phrase .statement)
  return .branch condition yes no

/-- A `while`, its keyword being taken. -/
def whileStatement : Parser Stmt := do
  let _ ← expect .leftParen .afterWhile
  let condition ← phrase .expression
  let _ ← expect .rightParen .afterCondition
  return .loop condition (← phrase .statement)

/-- The loop that `for` stands for. -/
def forLoop (initial : Option Stmt) (condition : Option Expr) (increment : Option Expr)
    (body : Stmt) : Stmt :=
  let body :=
    match increment with
    | none => body
    | some step => .block [body, .expression step]
  let loop := Stmt.loop (condition.getD (.literal (.boolean true))) body
  match initial with
  | none => loop
  | some first => .block [first, loop]

/-- The first of the three clauses of a `for`, with its semicolon. -/
def forInitializer : Parser (Option Stmt) := do
  if ← accept .semicolon then
    return none
  else if ← acceptWord .var_ then
    some <$> varDeclaration
  else
    some <$> expressionStatement

/-- A `for`, its keyword being taken. -/
def forStatement : Parser Stmt := do
  let _ ← expect .leftParen .afterFor
  let initial ← forInitializer
  let condition ← unlessAt .semicolon (phrase .expression)
  let _ ← expect .semicolon .afterLoopCondition
  let increment ← unlessAt .rightParen (phrase .expression)
  let _ ← expect .rightParen .afterForClauses
  return forLoop initial condition increment (← phrase .statement)

/-- A `return`, its keyword being taken. -/
def returnStatement (keyword : Word) : Parser Stmt := do
  let value ← unlessAt .semicolon (phrase .expression)
  let _ ← expect .semicolon .afterReturnValue
  return .return_ keyword value

/-- A `print`, the keyword on line `line` being taken. -/
def printStatement (line : Nat) : Parser Stmt := do
  let value ← phrase .expression
  let _ ← expect .semicolon .afterValue
  return .print line value

/-- Any statement that declares nothing. -/
def statement : Parser Stmt := do
  let t ← look
  match t.kind with
  | .keyword .if_ => skip; ifStatement
  | .keyword .print_ => skip; printStatement t.line
  | .keyword .return_ => skip; returnStatement t.word
  | .symbol .leftBrace => skip; return .block (← block)
  | .keyword .while_ => skip; whileStatement
  | .keyword .for_ => skip; forStatement
  | _ => expressionStatement

/-- Any declaration or other statement.  Without a name, `fun` begins an expression. -/
def declare : Parser Stmt := do
  match (← look).kind with
  | .keyword .class_ => skip; classDeclaration
  | .keyword .fun_ =>
      if ← seesNameSecond then
        skip
        .function <$> namedFunction .function
      else
        phrase .statement
  | .keyword .var_ => skip; varDeclaration
  | _ => phrase .statement

/-- An assignment to `left`, its equals sign being the token `equals`.  What cannot be assigned to
is an error, but the parser is not lost. -/
def assignTo (left : Expr) (equals : Token) (value : Expr) : Parser Expr :=
  match left with
  | .variable_ ref => return .assign ⟨ref.name, none⟩ value
  | .get object name => return .set object name value
  | _ => do
      note equals .invalidAssignmentTarget
      return left

/-- An expression without operators. -/
def primary : Parser Expr := do
  let t ← look
  match t.kind with
  | .keyword .false_ => skip; return .literal (.boolean false)
  | .keyword .true_ => skip; return .literal (.boolean true)
  | .keyword .nil_ => skip; return .literal .nil
  | .number x => skip; return .literal (.number x)
  | .string s => skip; return .literal (.string s)
  | .identifier name => skip; return .variable_ ⟨⟨name, t.lexeme, t.line⟩, none⟩
  | .keyword .this_ => skip; return .this t.word none
  | .keyword .super_ =>
      skip
      let _ ← expect .dot .afterSuper
      return .super t.word (← expectName .ofSuperclassMethod) none
  | .keyword .fun_ =>
      skip
      let _ ← expect .leftParen .afterFun
      .function <$> functionFrom .function (.anonymous t.line)
  | .symbol .leftParen =>
      skip
      let inner ← phrase .expression
      let _ ← expect .rightParen .afterExpression
      return .group inner
  | _ => fail .expectedExpression

/-- The arguments of a call of `callee`, the opening parenthesis being taken. -/
def callOf (callee : Expr) : Parser Expr := do
  let arguments ← unlessAt .rightParen (phrase (.arguments 0))
  let paren ← expect .rightParen .afterArguments
  return .call callee (arguments.getD []) paren.line

end Parser

namespace Phrase

open Lox.Parser

/-- The rule for each phrase. -/
def parser : {sort : PhraseSort} → Phrase sort → Parser sort.Tree
  | _, .expression => do
      let left ← phrase (.operation Level.or)
      let t ← look
      if ← accept .equal then
        assignTo left t (← phrase .expression)
      else
        return left
  | _, .operation level => do
      let left ← phrase .unary
      phrase (.operators level left)
  | _, .operators level left => do
      let t ← look
      match Connective.ofKind? t.kind with
      | none => return left
      | some c =>
          if level ≤ c.level then
            skip
            let right ← phrase (.operation (c.level + 1))
            phrase (.operators level (c.combine t left right))
          else
            return left
  | _, .unary => do
      let t ← look
      match UnaryOp.ofKind? t.kind with
      | some op =>
          skip
          return .unary ⟨op, t.lexeme, t.line⟩ (← phrase .unary)
      | none => do
          let object ← phrase .primary
          phrase (.accesses object)
  | _, .accesses object => do
      if ← accept .leftParen then
        let call ← callOf object
        phrase (.accesses call)
      else if ← accept .dot then
        let name ← expectName .ofProperty
        phrase (.accesses (.get object name))
      else
        return object
  | _, .primary => Parser.primary
  | _, .arguments count => do
      limitTo count .tooManyArguments
      let argument ← phrase .expression
      if ← accept .comma then
        return argument :: (← phrase (.arguments (count + 1)))
      else
        return [argument]
  | _, .parameters count => do
      limitTo count .tooManyParameters
      let name ← expectName .ofParameter
      if ← accept .comma then
        return name :: (← phrase (.parameters (count + 1)))
      else
        return [name]
  | _, .statement => Parser.statement
  | _, .declaration => declare.orResume afterMistake
  | _, .declarations inBlock => do
      let closing ← sees .rightBrace
      if ← atEnd then
        return []
      else if inBlock && closing then
        return []
      else
        let first ← phrase .declaration
        return first.toList ++ (← phrase (.declarations inBlock))
  | _, .methods => do
      if ← atEnd then
        return []
      else if ← sees .rightBrace then
        return []
      else
        let first ← namedFunction .method
        return first :: (← phrase .methods)

end Phrase

/-- The procedure that parses any phrase. -/
def grammar : Rules Grammar.Question Grammar.Answer := fun _ question =>
  .answer <$> question.phrase.parser question.tokens

end Lox
