import Lox.Proofs.Syntax.Reading

/-!
# Parsing loses nothing

What is parsed from tokens without an error, written as tokens again, is the tokens: none is lost,
doubled, moved or regrouped.  And whatever is parsed, with errors or without, is a tree that respects
the levels of the grammar.

Both are proved at once, phrase by phrase (`Grammar.promised`): every phrase builds what
`Grammar.Tree` says and reads what `Grammar.Read` says, if the phrases it asks for do.
-/

namespace Lox

open Grammar

variable {V : Vocabulary}

namespace Parser

variable {tokens : List Token}

/-! ## Bodies and functions -/

theorem yields_parameters :
    Yields V parameters tokens (fun names _ => ∀ name ∈ names, V.name name)
      fun names kinds => kinds = Ident.written names ++ [.symbol .rightParen] := by
  refine (Yields.unlessAt _ fun rest => .phrase (p := .parameters 0) trivial).bind
    fun found rest tree => ?_
  refine (Yields.expect _ _).bind fun _ rest' _ => .pure ?_ ?_
  · intro name mem
    cases found with
    | none => cases mem
    | some names =>
      obtain ⟨_, named, _⟩ := tree names rfl
      exact named name mem
  · rintro _ rfl kinds read
    cases found with
    | none => subst read; rfl
    | some names => simpa [Read] using read.symm

theorem yields_block :
    Yields V block tokens (fun ss _ => Stmt.EveryAll (Node.Parsed V) ss)
      fun ss kinds => kinds = Stmt.writtenAll ss ++ [.symbol .rightBrace] := by
  refine (Yields.phrase (p := .declarations true) trivial).bind fun ss rest tree => ?_
  refine (Yields.expect _ _).bind fun _ rest' _ => .pure tree.1 ?_
  rintro _ rfl kinds read
  simpa [Read] using read.symm

theorem yields_functionFrom (sort : FunctionSort) {name : FunctionName}
    (named : ∀ n, name = .named n → V.name n) :
    Yields V (functionFrom sort name) tokens
      (fun f _ => f.Every (Node.Parsed V) ∧ f.name = name)
      fun f kinds => f.written = name.written ++ .symbol .leftParen :: kinds := by
  refine yields_parameters.bind fun names rest isNames => ?_
  refine (Yields.expect _ _).bind fun _ rest' _ => ?_
  refine yields_block.bind fun body rest'' isBody => .pure ⟨⟨?_, isBody⟩, rfl⟩ ?_
  · exact ⟨trivial, trivial, trivial, named, isNames⟩
  · rintro _ rfl _ rfl _ rfl
    simp [Function.written]

theorem yields_namedFunction (sort : FunctionSort) :
    Yields V (namedFunction sort) tokens
      (fun f _ => f.Every (Node.Parsed V) ∧ f.isNamed = true) fun f kinds => f.written = kinds := by
  refine (Yields.expectName _).bind fun name rest isName => ?_
  refine (Yields.expect _ _).bind fun _ rest' _ => ?_
  refine (yields_functionFrom sort fun n same => ?_).mono (fun f _ tree => ?_)
    fun f _ kinds _ read => ?_
  · cases same; exact isName
  · exact ⟨tree.1, by rw [Function.isNamed, tree.2]⟩
  · rintro _ rfl _ rfl
    simp [read, FunctionName.written]

/-! ## Statements -/

theorem yields_classDeclaration :
    Yields V classDeclaration tokens (fun s _ => s.Every (Node.Parsed V))
      fun s kinds => s.written = .keyword .class_ :: kinds := by
  refine (Yields.expectName _).bind fun name rest isName => ?_
  refine (Yields.optional (Yields.accept _) fun rest => .expectName _).bind
    fun parent rest' isParent => ?_
  refine (Yields.expect _ _).bind fun _ rest' _ => ?_
  refine (Yields.phrase (p := .methods) trivial).bind fun methods rest'' isMethods => ?_
  refine (Yields.expect _ _).bind fun _ rest''' _ => .pure ⟨?_, isMethods.1⟩ ?_
  · refine ⟨trivial, isMethods.2, ?_, isName, ?_⟩
    · intro ref mem
      obtain ⟨n, _, rfl⟩ := Option.map_eq_some_iff.mp mem
      rfl
    · intro ref mem
      obtain ⟨n, present, rfl⟩ := Option.map_eq_some_iff.mp mem
      obtain ⟨_, isN⟩ := isParent n present
      exact isN
  · rintro _ rfl _ rfl _ rfl kinds read _ rfl
    cases parent with
    | none =>
      subst read
      simp [Reference.writtenParent]
    | some n =>
      obtain ⟨_, rfl, rfl⟩ := read
      simp [Reference.writtenParent]

theorem yields_varDeclaration :
    Yields V varDeclaration tokens (fun s _ => s.Every (Node.Parsed V))
      fun s kinds => s.written = .keyword .var_ :: kinds := by
  refine (Yields.expectName _).bind fun name rest isName => ?_
  refine (Yields.optional (Yields.accept _) fun rest => .phrase (p := .expression) trivial).bind
    fun initial rest' isInitial => ?_
  refine (Yields.expect _ _).bind fun _ rest'' _ => .pure ?_ ?_
  · cases initial with
    | none => exact ⟨trivial, trivial, trivial, isName⟩
    | some e =>
      obtain ⟨_, every⟩ := isInitial e rfl
      exact ⟨⟨trivial, trivial, trivial, isName⟩, every⟩
  · rintro _ rfl kinds read _ rfl
    cases initial with
    | none =>
      subst read
      simp
    | some e =>
      obtain ⟨_, rfl, rfl⟩ := read
      simp

theorem yields_expressionStatement :
    Yields V expressionStatement tokens
      (fun s _ => s.Every (Node.Parsed V) ∧ s.isDeclaration = false)
      fun s kinds => s.written = kinds := by
  refine (Yields.phrase (p := .expression) trivial).bind fun value rest every => ?_
  refine (Yields.expect _ _).bind fun _ rest' _ => .pure ⟨⟨?_, every⟩, rfl⟩ ?_
  · exact ⟨trivial, trivial, trivial, trivial⟩
  · rintro _ rfl _ rfl
    rfl

theorem yields_ifStatement :
    Yields V ifStatement tokens (fun s _ => s.Every (Node.Parsed V) ∧ s.isDeclaration = false)
      fun s kinds => s.written = .keyword .if_ :: kinds := by
  refine (Yields.expect _ _).bind fun _ rest _ => ?_
  refine (Yields.phrase (p := .expression) trivial).bind fun condition rest isCondition => ?_
  refine (Yields.expect _ _).bind fun _ rest _ => ?_
  refine (Yields.phrase (p := .statement) trivial).bind fun yes rest isYes => ?_
  refine (Yields.optional (Yields.acceptWord _) fun rest => .phrase (p := .statement) trivial).bind
    fun no rest isNo => .pure ⟨?_, rfl⟩ ?_
  · cases no with
    | none => exact ⟨⟨trivial, ⟨isYes.2, nofun⟩, trivial, trivial⟩, isCondition, isYes.1⟩
    | some s =>
      obtain ⟨_, isNo⟩ := isNo s rfl
      refine ⟨⟨trivial, ⟨isYes.2, ?_⟩, trivial, trivial⟩, isCondition, isYes.1, isNo.1⟩
      intro s' same
      cases same
      exact isNo.2
  · rintro kinds read _ rfl _ rfl _ rfl _ rfl
    cases no with
    | none =>
      subst read
      simp
    | some s =>
      obtain ⟨_, rfl, rfl⟩ := read
      simp

theorem yields_whileStatement :
    Yields V whileStatement tokens (fun s _ => s.Every (Node.Parsed V) ∧ s.isDeclaration = false)
      fun s kinds => s.written = .keyword .while_ :: kinds := by
  refine (Yields.expect _ _).bind fun _ rest _ => ?_
  refine (Yields.phrase (p := .expression) trivial).bind fun condition rest isCondition => ?_
  refine (Yields.expect _ _).bind fun _ rest _ => ?_
  refine (Yields.phrase (p := .statement) trivial).bind fun body rest isBody =>
    .pure ⟨⟨?_, isCondition, isBody.1⟩, rfl⟩ ?_
  · exact ⟨trivial, isBody.2, trivial, trivial⟩
  · rintro _ rfl _ rfl _ rfl _ rfl
    simp

theorem yields_returnStatement {keyword : Word} (isWord : V.keyword .return_ keyword) :
    Yields V (returnStatement keyword) tokens
      (fun s _ => s.Every (Node.Parsed V) ∧ s.isDeclaration = false)
      fun s kinds => s.written = .keyword .return_ :: kinds := by
  refine (Yields.unlessAt _ fun rest => .phrase (p := .expression) trivial).bind
    fun value rest isValue => ?_
  refine (Yields.expect _ _).bind fun _ rest _ => .pure ⟨?_, rfl⟩ ?_
  · cases value with
    | none => exact ⟨trivial, trivial, trivial, isWord⟩
    | some e =>
      obtain ⟨_, every⟩ := isValue e rfl
      exact ⟨⟨trivial, trivial, trivial, isWord⟩, every⟩
  · rintro _ rfl kinds read
    cases value with
    | none =>
      subst read
      simp
    | some e =>
      obtain rfl : e.written = kinds := read
      simp

theorem yields_printStatement (line : Nat) :
    Yields V (printStatement line) tokens
      (fun s _ => s.Every (Node.Parsed V) ∧ s.isDeclaration = false)
      fun s kinds => s.written = .keyword .print_ :: kinds := by
  refine (Yields.phrase (p := .expression) trivial).bind fun value rest every => ?_
  refine (Yields.expect _ _).bind fun _ rest' _ => .pure ⟨⟨?_, every⟩, rfl⟩ ?_
  · exact ⟨trivial, trivial, trivial, trivial⟩
  · rintro _ rfl _ rfl
    simp

/-- The clauses of a `for` are all kept; how they are written plays no part, for a `for` is not
written as one. -/
theorem yields_forInitializer :
    Yields V forInitializer tokens (fun first _ => ∀ s ∈ first, s.Every (Node.Parsed V))
      fun _ _ => True := by
  refine (Yields.accept _).bind fun found rest _ => .ite (fun _ => ?_) fun _ => ?_
  · exact .pure (fun s mem => by cases mem) fun _ _ => trivial
  · refine (Yields.acceptWord _).bind fun found rest _ => .ite (fun _ => ?_) fun _ => ?_
    · refine yields_varDeclaration.map (fun s _ every s' same => ?_)
        fun _ _ _ _ _ _ _ _ _ => trivial
      cases same
      exact every
    · refine yields_expressionStatement.map (fun s _ every s' same => ?_)
        fun _ _ _ _ _ _ _ _ _ => trivial
      cases same
      exact every.1

theorem every_forLoop {initial : Option Stmt} {condition increment : Option Expr} {body : Stmt}
    (isInitial : ∀ s ∈ initial, s.Every (Node.Parsed V))
    (isCondition : ∀ e ∈ condition, e.Every (Node.Parsed V))
    (isIncrement : ∀ e ∈ increment, e.Every (Node.Parsed V))
    (isBody : body.Every (Node.Parsed V)) (isPlain : body.isDeclaration = false) :
    (forLoop initial condition increment body).Every (Node.Parsed V) ∧
      (forLoop initial condition increment body).isDeclaration = false := by
  have plain {s : Stmt} (h : s.Every (Node.Parsed V)) (h' : s.isDeclaration = false) :
      (Stmt.loop (condition.getD (.literal (.boolean true))) s).Every (Node.Parsed V) := by
    refine ⟨⟨trivial, h', trivial, trivial⟩, ?_, h⟩
    cases condition with
    | none => exact ⟨trivial, trivial, trivial, trivial⟩
    | some e => exact isCondition e rfl
  have loop : (forLoop none condition increment body).Every (Node.Parsed V) := by
    cases increment with
    | none => exact plain isBody isPlain
    | some e =>
      refine plain ⟨⟨trivial, trivial, trivial, trivial⟩, isBody, ⟨?_, isIncrement e rfl⟩, ?_⟩ rfl
      · exact ⟨trivial, trivial, trivial, trivial⟩
      · trivial
  cases initial with
  | none => exact ⟨loop, rfl⟩
  | some s =>
    exact ⟨⟨⟨trivial, trivial, trivial, trivial⟩, isInitial s rfl, loop, trivial⟩, rfl⟩

/-- A `for` is put together from what is read as its clauses and its body. -/
theorem yields_forClauses :
    Yields V forStatement tokens
      (fun s _ => ∃ initial condition increment body, forLoop initial condition increment body = s ∧
        (∀ s ∈ initial, s.Every (Node.Parsed V)) ∧ (∀ e ∈ condition, e.Every (Node.Parsed V)) ∧
        (∀ e ∈ increment, e.Every (Node.Parsed V)) ∧ body.Every (Node.Parsed V) ∧
        body.isDeclaration = false)
      fun _ _ => True := by
  refine (Yields.expect _ _).bind fun _ rest _ => ?_
  refine yields_forInitializer.bind fun initial rest isInitial => ?_
  refine (Yields.unlessAt _ fun rest => .phrase (p := .expression) trivial).bind
    fun condition rest isCondition => ?_
  refine (Yields.expect _ _).bind fun _ rest _ => ?_
  refine (Yields.unlessAt _ fun rest => .phrase (p := .expression) trivial).bind
    fun increment rest isIncrement => ?_
  refine (Yields.expect _ _).bind fun _ rest _ => ?_
  refine (Yields.phrase (p := .statement) trivial).bind fun body rest isBody => .pure ?_ ?_
  · exact ⟨initial, condition, increment, body, rfl, isInitial,
      fun e mem => (isCondition e mem).choose_spec, fun e mem => (isIncrement e mem).choose_spec,
      isBody⟩
  · exact fun _ _ _ _ _ _ _ _ _ _ _ _ _ _ => trivial

theorem yields_forStatement :
    Yields V forStatement tokens (fun s _ => s.Every (Node.Parsed V) ∧ s.isDeclaration = false)
      fun _ _ => True := by
  refine yields_forClauses.mono ?_ fun _ _ _ _ _ => trivial
  rintro _ _ ⟨initial, condition, increment, body, rfl, isInitial, isCondition, isIncrement, isBody,
    isPlain⟩
  exact every_forLoop isInitial isCondition isIncrement isBody isPlain

theorem yields_statement : Yields V statement tokens (Tree V .statement) (Read .statement) := by
  refine Yields.look_bind ?_
  split
  · rename_i kind
    exact .skip_kind kind nofun fun _ => yields_ifStatement
  · rename_i kind
    exact .skip_kind kind nofun fun _ => yields_printStatement _
  · rename_i kind
    exact .skip_keyword kind fun isWord _ => yields_returnStatement isWord
  · rename_i kind
    refine .skip_kind kind nofun fun _ => yields_block.bind fun body _ every => .pure ?_ ?_
    · exact ⟨⟨⟨trivial, trivial, trivial, trivial⟩, every⟩, rfl⟩
    · rintro _ rfl
      simp [Read, Stmt.written]
  · rename_i kind
    exact .skip_kind kind nofun fun _ => yields_whileStatement
  · rename_i kind
    exact .skip_for kind fun _ => yields_forStatement
  · exact yields_expressionStatement

theorem yields_declare :
    Yields V declare tokens (fun s _ => s.Every (Node.Parsed V))
      fun s kinds => s.written = kinds := by
  have plain : Yields V (phrase .statement) tokens (fun s _ => s.Every (Node.Parsed V))
      fun s kinds => s.written = kinds :=
    (Yields.phrase (p := .statement) trivial).mono (fun _ _ tree => tree.1)
      fun _ _ _ _ read => read
  refine Yields.look_bind ?_
  split
  · rename_i kind
    exact .skip_kind kind nofun fun _ => yields_classDeclaration
  · rename_i kind
    refine Yields.seesNameSecond_bind fun second => .ite (fun _ => ?_) fun _ => plain
    refine .skip_kind kind nofun fun _ => (yields_namedFunction _).map ?_ ?_
    · rintro f _ ⟨every, named⟩
      exact ⟨⟨trivial, named, trivial, trivial⟩, every⟩
    · rintro f _ kinds _ rfl
      rfl
  · rename_i kind
    exact .skip_kind kind nofun fun _ => yields_varDeclaration
  · exact plain

/-! ## Expressions -/

theorem yields_assignTo {left value : Expr} (t : Token) (isLeft : left.Every (Node.Parsed V))
    (isValue : value.Every (Node.Parsed V)) :
    Yields V (assignTo left t value) tokens (fun e _ => e.Every (Node.Parsed V))
      fun e kinds => e.written = left.written ++ .symbol .equal :: value.written ++ kinds := by
  unfold assignTo
  split
  · refine .pure ⟨?_, isValue⟩ (by simp [Expr.written])
    exact ⟨trivial, trivial, rfl, isLeft.names⟩
  · refine .pure ⟨?_, isLeft.2, isValue⟩ (by simp [Expr.written])
    exact ⟨isLeft.1.leveled, trivial, trivial, isLeft.1.names⟩
  · refine Yields.note.bind fun _ rest _ => .pure isLeft ?_
    exact fun kinds never => never.elim

theorem yields_primary : Yields V primary tokens (Tree V .primary) (Read .primary) := by
  refine Yields.look_bind ?_
  have plain {e : Expr} {kind : Kind} (same : (front tokens).kind = kind) (ne : kind ≠ .endOfInput)
      (parsed : e.Every (Node.Parsed V)) (level : Level.call ≤ e.level)
      (written : e.written = [kind]) :
      Yields V (do skip; return e) tokens (Tree V .primary) (Read .primary) :=
    .skip_kind same ne fun _ => .pure ⟨parsed, level⟩ written
  split
  · rename_i kind
    exact plain kind (by simp) ⟨trivial, trivial, trivial, trivial⟩ Level.call_le_primary rfl
  · rename_i kind
    exact plain kind (by simp) ⟨trivial, trivial, trivial, trivial⟩ Level.call_le_primary rfl
  · rename_i kind
    exact plain kind (by simp) ⟨trivial, trivial, trivial, trivial⟩ Level.call_le_primary rfl
  · rename_i kind
    exact plain kind (by simp) ⟨trivial, trivial, trivial, trivial⟩ Level.call_le_primary rfl
  · rename_i kind
    exact plain kind (by simp) ⟨trivial, trivial, trivial, trivial⟩ Level.call_le_primary rfl
  · rename_i name kind
    intro names
    obtain ⟨t, rest, rfl, same⟩ := Yields.cons_of_kind kind (by simp)
    have named := (names t List.mem_cons_self).name name same
    exact plain kind (by simp) ⟨trivial, trivial, rfl, named⟩ Level.call_le_primary rfl names
  · rename_i kind
    refine .skip_keyword kind fun isWord _ => .pure ⟨?_, Level.call_le_primary⟩ rfl
    exact ⟨trivial, trivial, rfl, isWord⟩
  · rename_i kind
    refine .skip_keyword kind fun isWord _ => ?_
    refine (Yields.expect _ _).bind fun _ _ _ => ?_
    refine (Yields.expectName _).bind fun name _ isName => .pure ⟨?_, Level.call_le_primary⟩ ?_
    · exact ⟨trivial, trivial, rfl, isWord, isName⟩
    · rintro _ rfl _ rfl
      rfl
  · rename_i kind
    refine .skip_kind kind (by simp) fun _ => ?_
    refine (Yields.expect _ _).bind fun _ _ _ => ?_
    refine (yields_functionFrom _ (fun _ same => by cases same)).map ?_ ?_
    · rintro f _ ⟨every, anonymous⟩
      refine ⟨⟨⟨trivial, ?_, trivial, trivial⟩, every⟩, Level.call_le_primary⟩
      simp [Node.Placed, Function.isNamed, anonymous]
    · rintro f _ kinds _ read _ rfl
      simp [Read, Expr.written, read, FunctionName.written]
  · rename_i kind
    refine .skip_kind kind (by simp) fun _ => ?_
    refine (Yields.phrase (p := .expression) trivial).bind fun inner _ every => ?_
    refine (Yields.expect _ _).bind fun _ _ _ => .pure ⟨⟨?_, every⟩, Level.call_le_primary⟩ ?_
    · exact ⟨trivial, trivial, trivial, trivial⟩
    · rintro _ rfl _ rfl
      rfl
  · exact .fail

theorem yields_callOf {callee : Expr} (isCallee : callee.Every (Node.Parsed V))
    (level : Level.call ≤ callee.level) :
    Yields V (callOf callee) tokens
      (fun e _ => e.Every (Node.Parsed V) ∧ Level.call ≤ e.level)
      fun e kinds => e.written = callee.written ++ .symbol .leftParen :: kinds := by
  refine (Yields.unlessAt _ fun _ => .phrase (p := .arguments 0) trivial).bind
    fun arguments _ isArguments => ?_
  refine (Yields.expect _ _).bind fun paren _ _ => .pure ⟨⟨?_, isCallee, ?_⟩, Nat.le_refl _⟩ ?_
  · exact ⟨level, trivial, trivial, trivial⟩
  · cases arguments with
    | none => trivial
    | some es =>
      obtain ⟨_, every, _⟩ := isArguments es rfl
      exact every
  · rintro _ rfl kinds read
    cases arguments with
    | none =>
      subst read
      simp [Expr.written, Expr.writtenAll]
    | some es =>
      obtain rfl : Expr.writtenAll es = kinds := read
      simp [Expr.written]

end Parser

namespace Connective

theorem level_lt_unary (c : Connective) : c.level < Level.unary := by
  cases c with
  | binary op => cases op <;> decide
  | logical op => cases op <;> decide

theorem level_combine (c : Connective) (t : Token) (left right : Expr) :
    (c.combine t left right).level = c.level := by
  cases c <;> rfl

theorem every_combine {c : Connective} (t : Token) {left right : Expr}
    (isLeft : left.Every (Node.Parsed V)) (isRight : right.Every (Node.Parsed V))
    (atLeast : c.level ≤ left.level) (above : c.level < right.level) :
    (c.combine t left right).Every (Node.Parsed V) := by
  cases c with
  | binary op =>
    have leveled : (Node.expr (.binary left ⟨op, t.lexeme, t.line⟩ right)).Leveled :=
      ⟨Level.symbol_mem_operators op, atLeast, above⟩
    exact ⟨⟨leveled, trivial, trivial, trivial⟩, isLeft, isRight⟩
  | logical op =>
    have leveled : (Node.expr (.logical left ⟨op, t.lexeme, t.line⟩ right)).Leveled :=
      ⟨Level.keyword_mem_operators op, atLeast, above⟩
    exact ⟨⟨leveled, trivial, trivial, trivial⟩, isLeft, isRight⟩

end Connective

theorem StopsBelow.of_unary_le {level : Nat} (tokens : List Token) (h : Level.unary ≤ level) :
    StopsBelow level tokens :=
  fun c _ => Nat.lt_of_lt_of_le c.level_lt_unary h

namespace Phrase

open Lox.Parser

variable {tokens : List Token}

/-! ## Every phrase builds and reads what is promised -/

theorem yields_expression :
    Yields V (parser .expression) tokens (Tree V .expression) (Read .expression) := by
  refine (Yields.phrase (p := .operation Level.or) Level.or_le_unary).bind fun left _ isLeft => ?_
  refine Yields.look_bind ?_
  refine (Yields.accept _).bind fun found _ _ => .ite (fun yes => ?_) fun no => ?_
  · refine (Yields.phrase (p := .expression) trivial).bind fun value _ isValue => ?_
    refine (yields_assignTo _ isLeft.1 isValue).mono (fun _ _ tree => tree) ?_
    rintro e _ kinds _ read _ rfl _ rfl _ rfl
    simpa [Read, yes] using read
  · refine .pure isLeft.1 ?_
    rintro _ rfl _ rfl
    simp [Read, no]

theorem yields_operation {level : Nat} (fits : level ≤ Level.unary) :
    Yields V (parser (.operation level)) tokens (Tree V (.operation level))
      (Read (.operation level)) := by
  refine (Yields.phrase (p := .unary) trivial).bind fun left rest isLeft => ?_
  have fitsLeft : Fits V (.operators level left) rest :=
    ⟨isLeft.1, Nat.le_trans fits isLeft.2, .of_unary_le _ (Nat.le_succ_of_le isLeft.2)⟩
  refine (Yields.phrase fitsLeft).mono (fun _ _ tree => tree) ?_
  rintro e _ kinds _ read _ rfl
  exact read

/-- The loop over the operators of a level.  What is to the left of the next operator ends above it,
or at it, since the parser went on to the right of an operator only as far as higher levels reach. -/
theorem yields_operators {level : Nat} {left : Expr}
    (fits : Fits V (.operators level left) tokens) :
    Yields V (parser (.operators level left)) tokens (Tree V (.operators level left))
      (Read (.operators level left)) := by
  obtain ⟨isLeft, atLeast, stops⟩ := fits
  refine Yields.look_bind ?_
  split
  · rename_i none
    refine .pure ⟨isLeft, atLeast, fun c some => ?_⟩ (by simp [Read])
    rw [none] at some
    cases some
  · rename_i c some
    refine .ite (fun higher => ?_) fun lower => ?_
    · have kind : (front tokens).kind = c.kind := (Connective.kind_of_ofKind? some).symm
      refine .skip_kind kind (by cases c <;> nofun) fun _ => ?_
      have fits (tokens : List Token) : Fits V (.operation (c.level + 1)) tokens := c.level_lt_unary
      refine (Yields.phrase (fits _)).bind fun right rest isRight => ?_
      have atMost : c.level ≤ left.level := Nat.le_of_lt_succ (stops c some)
      have combined : Fits V (.operators level (c.combine (front tokens) left right)) rest := by
        refine ⟨Connective.every_combine _ isLeft isRight.1 atMost isRight.2.1, ?_, ?_⟩
        · rw [Connective.level_combine]; exact higher
        · rw [Connective.level_combine]; exact isRight.2.2
      refine (Yields.phrase combined).mono (fun _ _ tree => tree) ?_
      rintro e _ kinds _ read _ rfl
      simpa [Read, Connective.written_combine] using read
    · refine .pure ⟨isLeft, atLeast, fun c' same => ?_⟩ (by simp [Read])
      rw [some, Option.some.injEq] at same
      exact same ▸ Nat.lt_of_not_le lower

theorem yields_unary : Yields V (parser .unary) tokens (Tree V .unary) (Read .unary) := by
  refine Yields.look_bind ?_
  split
  · rename_i op some
    have kind := (UnaryOp.symbol_of_ofKind? some).symm
    refine .skip_kind kind nofun fun _ => ?_
    refine (Yields.phrase (p := .unary) trivial).bind fun operand _ isOperand => .pure ?_ ?_
    · refine ⟨⟨⟨?_, trivial, trivial, trivial⟩, isOperand.1⟩, Nat.le_refl _⟩
      exact ⟨Level.unary_mem_operators op, isOperand.2⟩
    · rintro _ rfl
      simp [Read, Expr.written]
  · refine (Yields.phrase (p := .primary) trivial).bind fun object rest isObject => ?_
    refine (Yields.phrase (p := .accesses object) isObject).mono ?_ ?_
    · exact fun e _ tree => ⟨tree.1, Nat.le_of_succ_le tree.2⟩
    · rintro e _ kinds _ read _ rfl
      exact read

theorem yields_accesses {object : Expr} (fits : Fits V (.accesses object) tokens) :
    Yields V (parser (.accesses object)) tokens (Tree V (.accesses object))
      (Read (.accesses object)) := by
  obtain ⟨isObject, level⟩ := fits
  refine (Yields.accept _).bind fun found _ _ => .ite (fun yes => ?_) fun no => ?_
  · refine (yields_callOf isObject level).bind fun call _ isCall => ?_
    refine (Yields.phrase (p := .accesses call) isCall).mono (fun _ _ tree => tree) ?_
    rintro e _ kinds _ read kinds' written _ rfl
    simpa [Read, yes, written] using read
  · refine (Yields.accept _).bind fun found' _ _ => .ite (fun yes => ?_) fun no' => ?_
    · refine (Yields.expectName _).bind fun name rest isName => ?_
      have access : Fits V (.accesses (.get object name)) rest :=
        ⟨⟨⟨level, trivial, trivial, isName⟩, isObject⟩, Nat.le_refl _⟩
      refine (Yields.phrase access).mono (fun _ _ tree => tree) ?_
      rintro e _ kinds _ read _ rfl _ rfl _ rfl
      simpa [Read, no, yes, Expr.written] using read
    · refine .pure ⟨isObject, level⟩ ?_
      rintro _ rfl _ rfl
      simp [Read, no, no']

theorem yields_arguments (count : Nat) :
    Yields V (parser (.arguments count)) tokens (Tree V (.arguments count))
      (Read (.arguments count)) := by
  have more (tokens : List Token) : Fits V (.arguments (count + 1)) tokens := trivial
  refine Yields.limitTo_bind ?_
  refine (Yields.phrase (p := .expression) trivial).bind fun argument _ isArgument => ?_
  refine (Yields.accept _).bind fun found _ _ => .ite (fun yes => ?_) fun no => ?_
  · refine (Yields.phrase (more _)).bind fun more _ isMore => ?_
    refine .pure ⟨⟨isArgument, isMore.1⟩, List.cons_ne_nil _ _⟩ ?_
    rintro _ rfl _ rfl _ rfl
    simp [Read, yes, Expr.writtenAll_cons _ isMore.2]
  · refine .pure ⟨⟨isArgument, trivial⟩, List.cons_ne_nil _ _⟩ ?_
    rintro _ rfl _ rfl
    simp [Read, no, Expr.writtenAll]

theorem yields_parameters (count : Nat) :
    Yields V (parser (.parameters count)) tokens (Tree V (.parameters count))
      (Read (.parameters count)) := by
  have more (tokens : List Token) : Fits V (.parameters (count + 1)) tokens := trivial
  refine Yields.limitTo_bind ?_
  refine (Yields.expectName _).bind fun name _ isName => ?_
  refine (Yields.accept _).bind fun found _ _ => .ite (fun yes => ?_) fun no => ?_
  · refine (Yields.phrase (more _)).bind fun more _ isMore => ?_
    refine .pure ⟨List.forall_mem_cons.mpr ⟨isName, isMore.1⟩, List.cons_ne_nil _ _⟩ ?_
    rintro _ rfl _ rfl _ rfl
    simp [Read, yes, Ident.written_cons _ isMore.2]
  · refine .pure ⟨List.forall_mem_singleton.mpr isName, List.cons_ne_nil _ _⟩ ?_
    rintro _ rfl _ rfl
    simp [Read, no, Ident.written]

/-- The end of the input is not dropped after a mistake. -/
theorem exists_skipped_of_afterMistake (tokens : List Token) :
    ∃ skipped, skipped ++ afterMistake tokens = tokens ∧ NoEnd skipped := by
  induction tokens with
  | nil => exact ⟨[], rfl, .nil⟩
  | cons t rest ih =>
    by_cases ends : t.isEnd = true
    · exact ⟨[], by rw [afterMistake, if_pos ends]; rfl, .nil⟩
    · have single : NoEnd [t] := fun t' mem => by
        rw [List.mem_singleton.mp mem]; exact eq_false_of_ne_true ends
      rw [afterMistake]
      simp only [if_neg ends]
      split
      · exact ⟨[t], rfl, single⟩
      · obtain ⟨skipped, resumes, noEnd⟩ := ih
        exact ⟨t :: skipped, by rw [List.cons_append, resumes], NoEnd.append.mpr ⟨single, noEnd⟩⟩

/-- An error is noted when it is resumed from, so that nothing need be read then. -/
theorem yields_declaration :
    Yields V (parser .declaration) tokens (Tree V .declaration) (Read .declaration) := by
  intro names
  refine Plan.Ensures.bind (yields_declare names) fun outcome ⟨taken, split, noEnd, built⟩ => ?_
  split
  · rename_i s ok
    obtain ⟨every, read⟩ := built s ok
    refine ⟨taken, split, noEnd, fun a same => ?_⟩
    cases same
    refine ⟨fun s' same => ?_, fun clean noFor => ⟨s, rfl, read clean noFor⟩⟩
    cases same
    exact every
  · obtain ⟨skipped, resumes, noEnd'⟩ := exists_skipped_of_afterMistake outcome.rest
    refine ⟨taken ++ skipped, ?_, NoEnd.append.mpr ⟨noEnd, noEnd'⟩, fun a same => ?_⟩
    · rw [List.append_assoc, resumes, split]
    · cases same
      exact ⟨nofun, fun clean _ => by simp at clean⟩

theorem yields_declarations (inBlock : Bool) :
    Yields V (parser (.declarations inBlock)) tokens (Tree V (.declarations inBlock))
      (Read (.declarations inBlock)) := by
  refine Yields.sees.bind fun closing _ _ => ?_
  refine Yields.atEnd.bind fun ends rest atEnd =>
    .ite (fun yes => ?_) fun _ => .ite (fun yes => ?_) fun _ => ?_
  · refine .pure ⟨trivial, fun _ => ?_⟩ ?_
    · rw [atEnd.1]; exact atEnd.2 yes
    · rintro _ rfl _ rfl
      rfl
  · refine .pure ⟨trivial, fun outside => ?_⟩ ?_
    · simp [outside] at yes
    · rintro _ rfl _ rfl
      rfl
  · refine (Yields.phrase (p := .declaration) trivial).bind fun first _ isFirst => ?_
    refine (Yields.phrase (p := .declarations inBlock) trivial).bind
      fun more _ isMore => .pure ⟨?_, isMore.2⟩ ?_
    · rw [Stmt.everyAll_iff, List.forall_mem_append, ← Stmt.everyAll_iff more]
      exact ⟨fun s mem => isFirst s (Option.mem_toList.mp mem), isMore.1⟩
    · rintro _ rfl _ ⟨s, rfl, rfl⟩ _ rfl _ rfl
      simp [Read, Stmt.writtenAll]

theorem yields_methods :
    Yields V (parser .methods) tokens (Tree V .methods) (Read .methods) := by
  refine Yields.atEnd.bind fun ends _ _ => .ite (fun _ => ?_) fun _ => ?_
  · refine .pure ⟨trivial, fun f mem => by cases mem⟩ ?_
    rintro _ rfl
    rfl
  · refine Yields.sees.bind fun closing _ _ => .ite (fun _ => ?_) fun _ => ?_
    · refine .pure ⟨trivial, fun f mem => by cases mem⟩ ?_
      rintro _ rfl _ rfl
      rfl
    · refine (yields_namedFunction _).bind fun first _ isFirst => ?_
      refine (Yields.phrase (p := .methods) trivial).bind fun more _ isMore => .pure ⟨?_, ?_⟩ ?_
      · exact ⟨isFirst.1, isMore.1⟩
      · exact List.forall_mem_cons.mpr ⟨isFirst.2, isMore.2⟩
      · rintro _ rfl _ rfl _ rfl _ rfl
        simp [Read, Function.writtenAll]

theorem yields {sort : PhraseSort} {p : Phrase sort} (fits : Fits V p tokens) :
    Yields V p.parser tokens (Tree V p) (Read p) := by
  cases p with
  | expression => exact yields_expression
  | operation _ => exact yields_operation fits
  | operators _ _ => exact yields_operators fits
  | unary => exact yields_unary
  | accesses _ => exact yields_accesses fits
  | primary => exact yields_primary
  | arguments count => exact yields_arguments count
  | parameters count => exact yields_parameters count
  | statement => exact yields_statement
  | declaration => exact yields_declaration
  | declarations inBlock => exact yields_declarations inBlock
  | methods => exact yields_methods

/-- **The grammar keeps its promises.** -/
theorem promised {sort : PhraseSort} {p : Phrase sort} (names : ∀ t ∈ tokens, t.Names V)
    (fits : Fits V p tokens) : Promised V ⟨p, tokens⟩ (p.parse tokens) := by
  let asked (sort : PhraseSort) (q : Question sort) : Prop := Proper V q
  let answered (sort : PhraseSort) (q : Question sort) (outcome : Answer sort) : Prop :=
    Promised V q outcome
  have keeps (sort : PhraseSort) (q : Question sort) (proper : asked sort q) :
      (grammar _ q).Ensures asked answered (Rules.Settles asked answered q) := by
    refine Plan.Ensures.bind (yields proper.fits proper.names) fun _ promised => ?_
    exact promised
  exact grammar.solve_ensures keeps _ _ ⟨names, fits⟩ (p.solve_eq_parse tokens)

end Phrase

/-! ## Programs -/

section Program

variable {tokens body : List Token} {last : Token}

/-- Nothing is asked of names and keywords. -/
theorem promised_parseProgram (tokens : List Token) :
    Promised (.names fun _ => True) ⟨.declarations false, tokens⟩
      ((Phrase.declarations false).parse tokens) :=
  Phrase.promised (fun _ _ => ⟨fun _ _ => trivial, fun _ _ => trivial⟩) trivial

/-- What stands in front of the only mark for the end of the input. -/
theorem eq_of_append_eq_append_end {taken rest : List Token}
    (split : body ++ [last] = taken ++ rest) (plain : NoEnd body) (noEnd : NoEnd taken) (ends : last.isEnd = true)
    (atEnd : (Parser.front rest).isEnd = true) : taken = body := by
  rcases List.append_eq_append_iff.mp split with ⟨more, rfl, same⟩ | ⟨more, rfl, same⟩
  · cases more with
    | nil => simp
    | cons t more =>
      have mem : last ∈ body ++ t :: more := by
        rw [List.cons_append, List.cons.injEq] at same
        simp [same.1]
      rw [noEnd last mem] at ends
      cases ends
  · cases more with
    | nil => simp
    | cons t more =>
      subst same
      have := plain t (by simp)
      rw [List.cons_append, Parser.front, this] at atEnd
      cases atEnd

/-- **Soundness of the parser.**  No token is lost, doubled, moved or regrouped: what is parsed
without an error from tokens without `for`, written as tokens again, is the tokens in front of the
end.  And every tree that is parsed, with errors or without, respects the levels of the grammar. -/
theorem parseProgram_sound (tokens : List Token) :
    (∀ body last, tokens = body ++ [last] → last.isEnd = true → NoEnd body → NoFor body →
      (parseProgram tokens).errors = [] →
        Stmt.writtenAll (parseProgram tokens).statements = body.map Token.kind) ∧
    ∀ s ∈ (parseProgram tokens).statements, s.Every Node.Leveled := by
  obtain ⟨taken, split, noEnd, built⟩ := promised_parseProgram tokens
  unfold parseProgram
  constructor
  · rintro body last rfl ends plain noFor clean
    simp only at clean ⊢
    split at clean
    · rename_i statements ok
      obtain ⟨⟨-, atEnd⟩, read⟩ := built statements ok
      obtain rfl := eq_of_append_eq_append_end split plain noEnd ends (atEnd rfl)
      exact read clean noFor
    · simp at clean
  · intro s mem
    simp only at mem
    split at mem
    · rename_i statements ok
      obtain ⟨⟨every, -⟩, -⟩ := built statements ok
      exact ((Stmt.everyAll_iff _).mp every s mem).mono fun _ parsed => parsed.leveled
    · cases mem

/-- `print a - b * c;` is parsed without an error, and is what is read back. -/
theorem written_difference :
    let body : List Token :=
      [⟨.keyword .print_, "print", 1⟩, ⟨.identifier "a", "a", 1⟩, ⟨.symbol .minus, "-", 1⟩,
        ⟨.identifier "b", "b", 1⟩, ⟨.symbol .star, "*", 1⟩, ⟨.identifier "c", "c", 1⟩,
        ⟨.symbol .semicolon, ";", 1⟩]
    let tokens := body ++ [⟨.endOfInput, "", 1⟩]
    Stmt.writtenAll (parseProgram tokens).statements = body.map Token.kind ∧
      ∀ s ∈ (parseProgram tokens).statements, s.Every Node.Leveled := by
  intro body tokens
  have plain : NoEnd body := by simp [body, NoEnd, Token.isEnd]
  have noFor : NoFor body := by simp [body, NoFor]
  obtain ⟨same, leveled⟩ := parseProgram_sound tokens
  exact ⟨same body _ rfl rfl plain noFor rfl, leveled⟩

end Program

end Lox
