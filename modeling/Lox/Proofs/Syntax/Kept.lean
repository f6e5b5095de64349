import Lox.Proofs.Syntax.Soundness

/-!
# What a tree keeps of its tokens

Names, operators, keywords and the values of literals are in a tree as they are in the tokens: the
parser makes up none (`Node.Keeps`).  This holds of whatever is parsed, with errors or without, and of
the parts of a `for` loop, which is not written down as it was read, too; the only literal that no token
stands for is the `true` of a `for` without a condition.

`Parser.Draws` is a judgement about a parser run from tokens all of which meet a condition: what it
makes is made of such tokens, and what it leaves are such tokens.
-/

namespace Lox

/-- The name is that of a token that meets `T`. -/
def Ident.Keeps (T : Token → Prop) (name : Ident) : Prop :=
  ∃ t, T t ∧ t.kind = .identifier name.name ∧ t.lexeme = name.lexeme

/-- The keyword is that of a token that meets `T`. -/
def Word.Keeps (T : Token → Prop) (k : Keyword) (keyword : Word) : Prop :=
  ∃ t, T t ∧ t.kind = .keyword k ∧ t.lexeme = keyword.lexeme

/-- The words of tokens that meet `T`. -/
def Vocabulary.kept (T : Token → Prop) : Vocabulary := ⟨Ident.Keeps T, Word.Keeps T⟩

/-- The operator or the words of the node, or the number or string that it is, are those of tokens that
meet `T`. -/
def Node.Keeps (T : Token → Prop) : Node → Prop
  | .expr (.literal (.number x)) => ∃ t, T t ∧ t.kind = .number x
  | .expr (.literal (.string s)) => ∃ t, T t ∧ t.kind = .string s
  | .expr (.unary op _) => ∃ t, T t ∧ t.kind = .symbol op.op.symbol ∧ t.lexeme = op.lexeme
  | .expr (.binary _ op _) => ∃ t, T t ∧ t.kind = .symbol op.op.symbol ∧ t.lexeme = op.lexeme
  | .expr (.logical _ op _) => ∃ t, T t ∧ t.kind = .keyword op.op.keyword ∧ t.lexeme = op.lexeme
  | n => n.Names (.kept T)

/-- Every part of what is parsed for a phrase keeps what it is made of. -/
def PhraseSort.Keeps (T : Token → Prop) : {sort : PhraseSort} → sort.Tree → Prop
  | expression, e => e.Every (Node.Keeps T)
  | expressions, es => Expr.EveryAll (Node.Keeps T) es
  | names, parsed => ∀ name ∈ parsed, Ident.Keeps T name
  | statement, s => s.Every (Node.Keeps T)
  | declaration, s => ∀ s' ∈ s, s'.Every (Node.Keeps T)
  | statements, ss => Stmt.EveryAll (Node.Keeps T) ss
  | functions, fs => Function.EveryAll (Node.Keeps T) fs

/-- Every part of what a phrase begins with keeps what it is made of. -/
def Phrase.BeginsKept (T : Token → Prop) : {sort : PhraseSort} → Phrase sort → Prop
  | _, .operators _ left => left.Every (Node.Keeps T)
  | _, .accesses object => object.Every (Node.Keeps T)
  | _, _ => True

namespace Parser

variable {T : Token → Prop} {α β : Type}

/-- What is asked about the tokens left by an outcome, and about what it makes. -/
def Drawn (T : Token → Prop) (Made : α → Prop) (outcome : Outcome α) : Prop :=
  (∀ t ∈ outcome.rest, T t) ∧ ∀ a, outcome.result = .ok a → Made a

/-- From tokens that meet `T`, the parser makes what meets `Made` and leaves tokens that meet `T`. -/
def Draws (T : Token → Prop) (parser : Parser α) (Made : α → Prop) : Prop :=
  ∀ tokens, (∀ t ∈ tokens, T t) →
    (parser tokens).Ensures
      (fun _ q => q.phrase.BeginsKept T ∧ ∀ t ∈ q.tokens, T t)
      (fun _ _ => Drawn T (PhraseSort.Keeps T)) (Drawn T Made)

namespace Draws

variable {parser : Parser α} {Made : α → Prop} {After : β → Prop}

theorem pure {a : α} (made : Made a) : Draws T (Pure.pure a) Made := by
  refine fun tokens meet => ⟨meet, fun a' ok => ?_⟩
  cases ok
  exact made

theorem fail (cause : ParseError.Cause) : Draws T (Parser.fail cause : Parser α) Made :=
  fun _ meet => ⟨meet, nofun⟩

theorem bind {next : α → Parser β} (h : Draws T parser Made)
    (h' : ∀ a, Made a → Draws T (next a) After) : Draws T (parser >>= next) After := by
  intro tokens meet
  refine Plan.Ensures.bind (h tokens meet) fun outcome ⟨left, made⟩ => ?_
  split
  · exact ⟨left, nofun⟩
  · rename_i a ok
    exact Plan.Ensures.bind (h' a (made a ok) outcome.rest left) fun _ drawn => drawn

theorem map {f : α → β} (h : Draws T parser Made) (made : ∀ a, Made a → After (f a)) :
    Draws T (f <$> parser) After :=
  h.bind fun a isMade => pure (made a isMade)

theorem ite {p : Prop} [Decidable p] {yes no : Parser α} (h : Draws T yes Made)
    (h' : Draws T no Made) : Draws T (if p then yes else no) Made := by
  split
  · exact h
  · exact h'

theorem phrase {sort : PhraseSort} {p : Phrase sort} (begins : p.BeginsKept T) :
    Draws T (Parser.phrase p) (PhraseSort.Keeps T) :=
  fun _ meet => ⟨⟨begins, meet⟩, fun _ drawn => drawn⟩

/-! ### Single tokens -/

/-- A parser that takes none of the tokens, or the first one. -/
theorem of_done {a : List Token → α} {rest : List Token → List Token}
    (done : ∀ tokens, parser tokens = .done ⟨.ok (a tokens), [], rest tokens⟩)
    (kept : ∀ tokens, rest tokens ⊆ tokens) (made : ∀ tokens, (∀ t ∈ tokens, T t) → Made (a tokens)) :
    Draws T parser Made := by
  intro tokens meet
  rw [done]
  refine ⟨fun t mem => meet t (kept tokens mem), fun a' ok => ?_⟩
  cases ok
  exact made tokens meet

theorem look : Draws T Parser.look fun t => t.kind ≠ .endOfInput → T t :=
  of_done (fun _ => rfl) (fun _ => List.Subset.refl _) fun tokens meet more => by
    cases tokens with
    | nil => exact absurd rfl more
    | cons t rest => exact meet t List.mem_cons_self

theorem skip : Draws T Parser.skip fun _ => True :=
  of_done (fun _ => rfl) (fun _ => List.drop_subset ..) fun _ _ => trivial

theorem note (t : Token) (cause : ParseError.Cause) : Draws T (Parser.note t cause) fun _ => True :=
  fun _ meet => ⟨meet, fun _ _ => trivial⟩

theorem sees (s : Symbol) : Draws T (Parser.sees s) fun _ => True :=
  of_done (fun _ => rfl) (fun _ => List.Subset.refl _) fun _ _ => trivial

theorem seesNameSecond : Draws T Parser.seesNameSecond fun _ => True :=
  of_done (fun _ => rfl) (fun _ => List.Subset.refl _) fun _ _ => trivial

theorem atEnd : Draws T Parser.atEnd fun _ => True :=
  of_done (fun _ => rfl) (fun _ => List.Subset.refl _) fun _ _ => trivial

/-- What is left behind the next token, taken or not. -/
theorem drawn_drop {tokens : List Token} (meet : ∀ t ∈ tokens, T t) (n : Nat) (a : α)
    (made : Made a) : Drawn T Made ⟨.ok a, [], tokens.drop n⟩ := by
  refine ⟨fun t mem => meet t (List.mem_of_mem_drop mem), fun a' ok => ?_⟩
  cases ok
  exact made

theorem accept (s : Symbol) : Draws T (Parser.accept s) fun _ => True := by
  intro tokens meet
  unfold Parser.accept
  split
  · exact drawn_drop meet 1 _ trivial
  · exact drawn_drop meet 0 _ trivial

theorem acceptWord (k : Keyword) : Draws T (Parser.acceptWord k) fun _ => True := by
  intro tokens meet
  unfold Parser.acceptWord
  split
  · exact drawn_drop meet 1 _ trivial
  · exact drawn_drop meet 0 _ trivial

theorem expect (s : Symbol) (spot : ParseError.Spot) :
    Draws T (Parser.expect s spot) fun _ => True := by
  intro tokens meet
  unfold Parser.expect
  split
  · exact drawn_drop meet 1 _ trivial
  · exact fail _ tokens meet

theorem expectName (role : ParseError.NameRole) :
    Draws T (Parser.expectName role) (Ident.Keeps T) := by
  intro tokens meet
  unfold Parser.expectName
  simp only
  split
  · rename_i name kind
    obtain ⟨t, rest, rfl, same⟩ := Yields.cons_of_kind kind nofun
    exact drawn_drop meet 1 _ ⟨t, meet t List.mem_cons_self, same, rfl⟩
  · exact fail _ tokens meet

/-! ### What may be missing -/

theorem optional {present : Parser Bool} (h : Draws T present fun _ => True)
    (h' : Draws T parser Made) :
    Draws T (Parser.optional present parser) fun found => ∀ a ∈ found, Made a :=
  h.bind fun _ _ => ite (h'.map fun _ made _ same => Option.some.inj same ▸ made) (pure nofun)

theorem unlessAt (s : Symbol) (h : Draws T parser Made) :
    Draws T (Parser.unlessAt s parser) fun found => ∀ a ∈ found, Made a :=
  (sees s).bind fun _ _ => ite (pure nofun) (h.map fun _ made _ same => Option.some.inj same ▸ made)

theorem limitTo (count : Nat) (cause : ParseError.Cause) :
    Draws T (Parser.limitTo count cause) fun _ => True :=
  look.bind fun _ _ => ite (note _ _) (pure trivial)

/-- After a mistake the parser goes on among the tokens that are left. -/
theorem orResume (h : Draws T parser Made) :
    Draws T (parser.orResume afterMistake) fun found => ∀ a ∈ found, Made a := by
  intro tokens meet
  refine Plan.Ensures.bind (h tokens meet) fun outcome ⟨left, made⟩ => ?_
  split
  · rename_i a ok
    refine ⟨left, fun found same a' present => ?_⟩
    cases same
    cases present
    exact made a ok
  · obtain ⟨skipped, resumes, -⟩ := Phrase.exists_skipped_of_afterMistake outcome.rest
    refine ⟨fun t mem => left t (resumes ▸ List.mem_append_right skipped mem), fun found same => ?_⟩
    cases same
    exact nofun

/-! ### Functions -/

theorem parameters : Draws T Parser.parameters fun names => ∀ name ∈ names, name.Keeps T := by
  refine (unlessAt _ (phrase (p := .parameters 0) trivial)).bind fun names areKept => ?_
  refine (expect _ _).bind fun _ _ => .pure ?_
  cases names with
  | none => exact nofun
  | some names => exact areKept names rfl

theorem block : Draws T Parser.block (Stmt.EveryAll (Node.Keeps T)) :=
  (phrase (p := .declarations true) trivial).bind fun _ isBody =>
    (expect _ _).bind fun _ _ => .pure isBody

theorem functionFrom (sort : FunctionSort) {name : FunctionName}
    (isNamed : ∀ n, name = .named n → n.Keeps T) :
    Draws T (Parser.functionFrom sort name) (Function.Every (Node.Keeps T)) :=
  parameters.bind fun _ areNames => (expect _ _).bind fun _ _ =>
    block.bind fun _ isBody => .pure ⟨⟨isNamed, areNames⟩, isBody⟩

theorem namedFunction (sort : FunctionSort) :
    Draws T (Parser.namedFunction sort) (Function.Every (Node.Keeps T)) :=
  (expectName _).bind fun _ isName => (expect _ _).bind fun _ _ =>
    functionFrom sort fun _ same => FunctionName.named.inj same ▸ isName

/-! ### Statements -/

theorem classDeclaration : Draws T Parser.classDeclaration (Stmt.Every (Node.Keeps T)) := by
  refine (expectName _).bind fun _ isName => ?_
  refine (optional (accept _) (expectName _)).bind fun parent isParent => ?_
  refine (expect _ _).bind fun _ _ => (phrase (p := .methods) trivial).bind fun _ isMethods => ?_
  refine (expect _ _).bind fun _ _ => .pure ⟨⟨isName, fun ref mem => ?_⟩, isMethods⟩
  obtain ⟨name, present, rfl⟩ := Option.map_eq_some_iff.mp mem
  exact isParent name present

theorem varDeclaration : Draws T Parser.varDeclaration (Stmt.Every (Node.Keeps T)) := by
  refine (expectName _).bind fun _ isName => ?_
  refine (optional (accept _) (phrase (p := .expression) trivial)).bind fun initial isInitial => ?_
  refine (expect _ _).bind fun _ _ => .pure ?_
  cases initial with
  | none => exact isName
  | some e => exact ⟨isName, isInitial e rfl⟩

theorem expressionStatement : Draws T Parser.expressionStatement (Stmt.Every (Node.Keeps T)) :=
  (phrase (p := .expression) trivial).bind fun _ isValue =>
    (expect _ _).bind fun _ _ => .pure ⟨trivial, isValue⟩

theorem ifStatement : Draws T Parser.ifStatement (Stmt.Every (Node.Keeps T)) := by
  refine (expect _ _).bind fun _ _ => (phrase (p := .expression) trivial).bind fun _ isCondition => ?_
  refine (expect _ _).bind fun _ _ => (phrase (p := .statement) trivial).bind fun _ isYes => ?_
  refine (optional (acceptWord _) (phrase (p := .statement) trivial)).bind fun no isNo => .pure ?_
  cases no with
  | none => exact ⟨trivial, isCondition, isYes⟩
  | some s => exact ⟨trivial, isCondition, isYes, isNo s rfl⟩

theorem whileStatement : Draws T Parser.whileStatement (Stmt.Every (Node.Keeps T)) := by
  refine (expect _ _).bind fun _ _ => (phrase (p := .expression) trivial).bind fun _ isCondition => ?_
  refine (expect _ _).bind fun _ _ => ?_
  exact (phrase (p := .statement) trivial).bind fun _ isBody =>
    .pure ⟨trivial, isCondition, isBody⟩

theorem forInitializer :
    Draws T Parser.forInitializer fun first => ∀ s ∈ first, s.Every (Node.Keeps T) :=
  (accept _).bind fun _ _ => ite (.pure nofun) <| (acceptWord _).bind fun _ _ =>
    ite (varDeclaration.map fun _ every _ same => Option.some.inj same ▸ every)
      (expressionStatement.map fun _ every _ same => Option.some.inj same ▸ every)

/-- The loop that a `for` stands for is made of its parts. -/
theorem every_forLoop {initial : Option Stmt} {condition increment : Option Expr} {body : Stmt}
    (isInitial : ∀ s ∈ initial, s.Every (Node.Keeps T))
    (isCondition : ∀ e ∈ condition, e.Every (Node.Keeps T))
    (isIncrement : ∀ e ∈ increment, e.Every (Node.Keeps T)) (isBody : body.Every (Node.Keeps T)) :
    (forLoop initial condition increment body).Every (Node.Keeps T) := by
  have test : (condition.getD (.literal (.boolean true))).Every (Node.Keeps T) := by
    cases condition with
    | none => trivial
    | some e => exact isCondition e rfl
  have loop : (forLoop none condition increment body).Every (Node.Keeps T) := by
    cases increment with
    | none => exact ⟨trivial, test, isBody⟩
    | some e => exact ⟨trivial, test, trivial, isBody, ⟨trivial, isIncrement e rfl⟩, trivial⟩
  cases initial with
  | none => exact loop
  | some s => exact ⟨trivial, isInitial s rfl, loop, trivial⟩

theorem forStatement : Draws T Parser.forStatement (Stmt.Every (Node.Keeps T)) := by
  refine (expect _ _).bind fun _ _ => forInitializer.bind fun _ isInitial => ?_
  refine (unlessAt _ (phrase (p := .expression) trivial)).bind fun _ isCondition => ?_
  refine (expect _ _).bind fun _ _ => ?_
  refine (unlessAt _ (phrase (p := .expression) trivial)).bind fun _ isIncrement => ?_
  refine (expect _ _).bind fun _ _ => (phrase (p := .statement) trivial).bind fun _ isBody => ?_
  exact .pure (every_forLoop isInitial isCondition isIncrement isBody)

theorem returnStatement {keyword : Word} (isKeyword : keyword.Keeps T .return_) :
    Draws T (Parser.returnStatement keyword) (Stmt.Every (Node.Keeps T)) := by
  refine (unlessAt _ (phrase (p := .expression) trivial)).bind fun value isValue => ?_
  refine (expect _ _).bind fun _ _ => .pure ?_
  cases value with
  | none => exact isKeyword
  | some e => exact ⟨isKeyword, isValue e rfl⟩

theorem printStatement (line : Nat) :
    Draws T (Parser.printStatement line) (Stmt.Every (Node.Keeps T)) :=
  (phrase (p := .expression) trivial).bind fun _ isValue =>
    (expect _ _).bind fun _ _ => .pure ⟨trivial, isValue⟩

theorem statement : Draws T Parser.statement (Stmt.Every (Node.Keeps T)) := by
  refine look.bind fun t meets => ?_
  split
  · exact skip.bind fun _ _ => ifStatement
  · exact skip.bind fun _ _ => printStatement _
  · rename_i kind
    exact skip.bind fun _ _ => returnStatement ⟨t, meets (kind ▸ nofun), kind, rfl⟩
  · exact skip.bind fun _ _ => block.bind fun _ isBody => .pure ⟨trivial, isBody⟩
  · exact skip.bind fun _ _ => whileStatement
  · exact skip.bind fun _ _ => forStatement
  · exact expressionStatement

theorem declare : Draws T Parser.declare (Stmt.Every (Node.Keeps T)) := by
  refine look.bind fun t _ => ?_
  split
  · exact skip.bind fun _ _ => classDeclaration
  · refine seesNameSecond.bind fun _ _ => ite ?_ (phrase (p := .statement) trivial)
    exact skip.bind fun _ _ => (namedFunction _).map fun _ every => ⟨trivial, every⟩
  · exact skip.bind fun _ _ => varDeclaration
  · exact .phrase (p := .statement) trivial

/-! ### Expressions -/

theorem assignTo {left value : Expr} (t : Token) (isLeft : left.Every (Node.Keeps T))
    (isValue : value.Every (Node.Keeps T)) :
    Draws T (Parser.assignTo left t value) (Expr.Every (Node.Keeps T)) := by
  unfold Parser.assignTo
  split
  · exact .pure ⟨isLeft, isValue⟩
  · exact .pure ⟨isLeft.1, isLeft.2, isValue⟩
  · exact (note _ _).bind fun _ _ => .pure isLeft

theorem primary : Draws T Parser.primary (Expr.Every (Node.Keeps T)) := by
  refine look.bind fun t meets => ?_
  split
  · exact skip.bind fun _ _ => .pure trivial
  · exact skip.bind fun _ _ => .pure trivial
  · exact skip.bind fun _ _ => .pure trivial
  · rename_i x kind
    exact skip.bind fun _ _ => .pure ⟨t, meets (kind ▸ nofun), kind⟩
  · rename_i s kind
    exact skip.bind fun _ _ => .pure ⟨t, meets (kind ▸ nofun), kind⟩
  · rename_i name kind
    exact skip.bind fun _ _ => .pure ⟨t, meets (kind ▸ nofun), kind, rfl⟩
  · rename_i kind
    exact skip.bind fun _ _ => .pure ⟨t, meets (kind ▸ nofun), kind, rfl⟩
  · rename_i kind
    exact skip.bind fun _ _ => (expect _ _).bind fun _ _ => (expectName _).bind fun _ isName =>
      .pure ⟨⟨t, meets (kind ▸ nofun), kind, rfl⟩, isName⟩
  · exact skip.bind fun _ _ => (expect _ _).bind fun _ _ =>
      (functionFrom _ fun _ same => by cases same).map fun _ every => ⟨trivial, every⟩
  · exact skip.bind fun _ _ => (phrase (p := .expression) trivial).bind fun _ isInner =>
      (expect _ _).bind fun _ _ => .pure ⟨trivial, isInner⟩
  · exact .fail _

theorem callOf {callee : Expr} (isCallee : callee.Every (Node.Keeps T)) :
    Draws T (Parser.callOf callee) (Expr.Every (Node.Keeps T)) := by
  refine (unlessAt _ (phrase (p := .arguments 0) trivial)).bind fun arguments isArguments => ?_
  refine (expect _ _).bind fun _ _ => .pure ⟨trivial, isCallee, ?_⟩
  cases arguments with
  | none => trivial
  | some es => exact isArguments es rfl

/-- Two operands with the operator of a token between them. -/
theorem every_combine {c : Connective} {t : Token} {left right : Expr} (meets : T t)
    (kind : t.kind = c.kind) (isLeft : left.Every (Node.Keeps T))
    (isRight : right.Every (Node.Keeps T)) : (c.combine t left right).Every (Node.Keeps T) := by
  cases c <;> exact ⟨⟨t, meets, kind, rfl⟩, isLeft, isRight⟩

theorem operators {level : Nat} {left : Expr} (isLeft : left.Every (Node.Keeps T)) :
    Draws T (Phrase.operators level left).parser (Expr.Every (Node.Keeps T)) := by
  refine look.bind fun t meets => ?_
  split
  · exact .pure isLeft
  · rename_i c known
    have kind : t.kind = c.kind := (Connective.kind_of_ofKind? known).symm
    have met : T t := meets (kind ▸ by cases c <;> nofun)
    refine ite (skip.bind fun _ _ => ?_) (.pure isLeft)
    refine (phrase (p := .operation (c.level + 1)) (by trivial)).bind fun right isRight => ?_
    exact .phrase (p := .operators level _) (every_combine met kind isLeft isRight)

theorem unary : Draws T Phrase.unary.parser (Expr.Every (Node.Keeps T)) := by
  refine look.bind fun t meets => ?_
  split
  · rename_i op known
    have kind := (UnaryOp.symbol_of_ofKind? known).symm
    refine skip.bind fun _ _ => (phrase (p := .unary) trivial).bind fun _ isOperand => ?_
    exact .pure ⟨⟨t, meets (kind ▸ nofun), kind, rfl⟩, isOperand⟩
  · exact (phrase (p := .primary) trivial).bind fun object isObject =>
      .phrase (p := .accesses object) isObject

theorem accesses {object : Expr} (isObject : object.Every (Node.Keeps T)) :
    Draws T (Phrase.accesses object).parser (Expr.Every (Node.Keeps T)) := by
  refine (accept _).bind fun _ _ => ite ?_ ((accept _).bind fun _ _ => ite ?_ (.pure isObject))
  · exact (callOf isObject).bind fun call isCall => .phrase (p := .accesses call) isCall
  · exact (expectName _).bind fun name isName =>
      .phrase (p := .accesses (.get object name)) ⟨isName, isObject⟩

theorem arguments (count : Nat) :
    Draws T (Phrase.arguments count).parser (Expr.EveryAll (Node.Keeps T)) := by
  refine (limitTo _ _).bind fun _ _ => (phrase (p := .expression) trivial).bind fun _ isFirst => ?_
  refine (accept _).bind fun _ _ => ite ?_ (.pure ⟨isFirst, trivial⟩)
  exact (phrase (p := .arguments (count + 1)) (by trivial)).bind fun _ isMore =>
    .pure ⟨isFirst, isMore⟩

/-! ### Every phrase -/

theorem declarations (inBlock : Bool) :
    Draws T (Phrase.declarations inBlock).parser (Stmt.EveryAll (Node.Keeps T)) := by
  refine (sees _).bind fun _ _ => atEnd.bind fun _ _ => ite (.pure trivial) (ite (.pure trivial) ?_)
  refine (phrase (p := .declaration) trivial).bind fun first isFirst => ?_
  refine (phrase (p := .declarations inBlock) trivial).bind fun more isMore => .pure ?_
  rw [Stmt.everyAll_iff, List.forall_mem_append, ← Stmt.everyAll_iff more]
  exact ⟨fun s mem => isFirst s (Option.mem_toList.mp mem), isMore⟩

theorem methods : Draws T Phrase.methods.parser (Function.EveryAll (Node.Keeps T)) := by
  refine atEnd.bind fun _ _ => ite (.pure trivial) ((sees _).bind fun _ _ => ite (.pure trivial) ?_)
  refine (namedFunction _).bind fun _ isFirst => ?_
  exact (phrase (p := .methods) trivial).bind fun _ isMore => .pure ⟨isFirst, isMore⟩

theorem rule {sort : PhraseSort} {p : Phrase sort} (begins : p.BeginsKept T) :
    Draws T p.parser (PhraseSort.Keeps T) := by
  cases p with
  | expression =>
    refine (phrase (p := .operation Level.or) trivial).bind fun _ isLeft => look.bind fun _ _ => ?_
    refine (accept _).bind fun _ _ => ite ?_ (.pure isLeft)
    exact (phrase (p := .expression) trivial).bind fun _ isValue => assignTo _ isLeft isValue
  | operation level =>
    exact (phrase (p := .unary) trivial).bind fun left isLeft =>
      .phrase (p := .operators level left) isLeft
  | operators => exact operators begins
  | unary => exact unary
  | accesses => exact accesses begins
  | primary => exact primary
  | arguments count => exact arguments count
  | parameters count =>
    refine (limitTo _ _).bind fun _ _ => (expectName _).bind fun _ isFirst => ?_
    refine (accept _).bind fun _ _ => ite ?_ (.pure (List.forall_mem_singleton.mpr isFirst))
    exact (phrase (p := .parameters (count + 1)) (by trivial)).bind fun _ areMore =>
      .pure (List.forall_mem_cons.mpr ⟨isFirst, areMore⟩)
  | statement => exact statement
  | declaration => exact orResume declare
  | declarations inBlock => exact declarations inBlock
  | methods => exact methods

end Draws

end Parser

/-- **Whatever is parsed keeps the words, operators and values of its tokens.** -/
theorem keeps_parseProgram {T : Token → Prop} {tokens : List Token} (meet : ∀ t ∈ tokens, T t) :
    ∀ s ∈ (parseProgram tokens).statements, s.Every (Node.Keeps T) := by
  let asked (sort : PhraseSort) (q : Grammar.Question sort) : Prop :=
    q.phrase.BeginsKept T ∧ ∀ t ∈ q.tokens, T t
  let answered (sort : PhraseSort) (_ : Grammar.Question sort) (outcome : Grammar.Answer sort) : Prop :=
    Parser.Drawn T (PhraseSort.Keeps T) outcome
  have keeps (sort : PhraseSort) (q : Grammar.Question sort) (proper : asked sort q) :
      (grammar _ q).Ensures asked answered (Rules.Settles asked answered q) :=
    Plan.Ensures.bind (Parser.Draws.rule proper.1 _ proper.2) fun _ drawn => drawn
  have drawn := grammar.solve_ensures keeps _ ⟨.declarations false, tokens⟩ ⟨trivial, meet⟩
    ((Phrase.declarations false).solve_eq_parse tokens)
  intro s mem
  unfold parseProgram at mem
  simp only at mem
  split at mem
  · rename_i statements ok
    exact (Stmt.everyAll_iff _).mp (drawn.2 statements ok) s mem
  · cases mem

end Lox
