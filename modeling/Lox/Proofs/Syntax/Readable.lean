import Lox.Proofs.Syntax.Reading
import Lox.Proofs.Syntax.Spelling
import Lox.Proofs.Syntax.Takes

/-!
# Expressions that can be written can be read

What is written as tokens is parsed into itself, without an error.  For an expression this is said on
each level of the grammar at which it may be asked for (`Expr.Readable`).  Binary operators and
accesses are read by loops, which carry on with what they have read so far; so there it is said that
the phrase reads the expression and carries on.

A function is read if its body is (`Function.Readable.of_body`).
-/

namespace Lox

open Lox.Parser

/-! ## Where an expression ends -/

/-- No call and no property access can go on from here. -/
structure EndsAccesses (tokens : List Token) : Prop where
  paren : (front tokens).isSymbol .leftParen = false
  dot : (front tokens).isSymbol .dot = false

/-- No expression can go on from here. -/
structure EndsExpression (tokens : List Token) : Prop extends EndsAccesses tokens where
  connective : Connective.ofKind? (front tokens).kind = none
  equal : (front tokens).isSymbol .equal = false

theorem EndsExpression.stopsBelow {tokens : List Token} (h : EndsExpression tokens) (level : Nat) :
    StopsBelow level tokens := by
  intro c known
  rw [h.connective] at known
  cases known

theorem EndsExpression.of_kind {t : Token} {s : Symbol} (kind : t.kind = .symbol s)
    (isEnd : s = .rightParen ∨ s = .comma ∨ s = .semicolon) (rest : List Token) :
    EndsExpression (t :: rest) := by
  obtain ⟨_, lexeme, line⟩ := t
  subst kind
  rcases isEnd with rfl | rfl | rfl <;> exact ⟨⟨rfl, rfl⟩, rfl, rfl⟩

theorem EndsAccesses.of_ofKind? {t : Token} {c : Connective} (known : Connective.ofKind? t.kind = some c)
    (rest : List Token) : EndsAccesses (t :: rest) := by
  obtain ⟨kind, lexeme, line⟩ := t
  constructor
  · by_contra paren
    rw [show kind = _ from Token.kind_of_isSymbol (eq_true_of_ne_false paren)] at known
    cases known
  · by_contra dot
    rw [show kind = _ from Token.kind_of_isSymbol (eq_true_of_ne_false dot)] at known
    cases known

namespace Parser

variable {tokens rest rest' : List Token} {level : Nat} {e v : Expr}

theorem takes_accesses_end (ends : EndsAccesses rest) :
    (phrase (.accesses e)).Takes rest e rest :=
  .phrase (.bind (.not_accept ends.paren) (.bind (.not_accept ends.dot) (.pure e)))

theorem takes_operators_end (stops : StopsBelow level rest) :
    (phrase (.operators level e)).Takes rest e rest := by
  refine .phrase (.look_bind ?_)
  cases known : Connective.ofKind? (front rest).kind with
  | none => exact .pure e
  | some c =>
    simp only
    rw [if_neg (Nat.not_le_of_lt (stops c known))]
    exact .pure e

theorem takes_operation (unary : (phrase .unary).Takes tokens e rest)
    (operators : (phrase (.operators level e)).Takes rest v rest') :
    (phrase (.operation level)).Takes tokens v rest' :=
  .phrase (.bind unary operators)

theorem takes_expression (operation : (phrase (.operation Level.or)).Takes tokens e rest)
    (equal : (front rest).isSymbol .equal = false) : (phrase .expression).Takes tokens e rest :=
  .phrase (.bind operation (.look_bind (.bind (.not_accept equal) (.pure e))))

/-- What is without unary operators: something, and the calls and accesses that follow it. -/
def operand : Parser Expr := do
  let object ← phrase .primary
  phrase (.accesses object)

theorem takes_unary (plain : UnaryOp.ofKind? (front tokens).kind = none)
    (h : operand.Takes tokens e rest) : (phrase .unary).Takes tokens e rest := by
  refine .phrase (.look_bind ?_)
  rw [plain]
  exact h

end Parser

/-! ## Expressions -/

/-- An expression is read where it is written, on each level where it can be asked for. -/
structure Expr.Readable (e : Expr) : Prop where
  plain : Level.call ≤ e.level → ∀ rest, UnaryOp.ofKind? (front (e.tokens ++ rest)).kind = none
  accesses : Level.call ≤ e.level → ∀ {rest v rest'},
    (phrase (.accesses (e.relabel .unresolved))).Takes rest v rest' →
      operand.Takes (e.tokens ++ rest) v rest'
  unary : Level.unary ≤ e.level → ∀ {rest}, EndsAccesses rest →
    (phrase .unary).Takes (e.tokens ++ rest) (e.relabel .unresolved) rest
  operation : Level.or ≤ e.level → ∀ {level rest v rest'}, level ≤ e.level → EndsAccesses rest →
    StopsBelow (e.level + 1) rest →
    (phrase (.operators level (e.relabel .unresolved))).Takes rest v rest' →
      (phrase (.operation level)).Takes (e.tokens ++ rest) v rest'
  expression : ∀ {rest}, EndsExpression rest →
    (phrase .expression).Takes (e.tokens ++ rest) (e.relabel .unresolved) rest

namespace Expr.Readable

variable {e : Expr}

/-- An expression on a lower level is not asked for on a higher one. -/
theorem of_levels {level level' : Nat} {P : Prop} (low : e.level < level) (le : level ≤ level')
    (high : level' ≤ e.level) : P :=
  absurd low (Nat.not_lt_of_le (Nat.le_trans le high))

/-- What stands on no level of operators is read as a whole only. -/
theorem of_expression (low : e.level < Level.or)
    (h : ∀ {rest}, EndsExpression rest →
      (phrase .expression).Takes (e.tokens ++ rest) (e.relabel .unresolved) rest) : e.Readable where
  plain := of_levels low (by decide)
  accesses := of_levels low (by decide)
  unary := of_levels low (by decide)
  operation := of_levels low (Nat.le_refl _)
  expression := h

theorem of_operation (high : Level.or ≤ e.level) (low : e.level < Level.unary)
    (h : ∀ {level rest v rest'}, level ≤ e.level → EndsAccesses rest →
      StopsBelow (e.level + 1) rest →
      (phrase (.operators level (e.relabel .unresolved))).Takes rest v rest' →
        (phrase (.operation level)).Takes (e.tokens ++ rest) v rest') : e.Readable where
  plain := of_levels low (by decide)
  accesses := of_levels low (by decide)
  unary := of_levels low (Nat.le_refl _)
  operation := fun _ => h
  expression := fun ends => takes_expression (h high ends.toEndsAccesses (ends.stopsBelow _)
    (takes_operators_end (ends.stopsBelow _))) ends.equal

theorem of_unary (low : e.level < Level.call)
    (h : ∀ {rest}, EndsAccesses rest →
      (phrase .unary).Takes (e.tokens ++ rest) (e.relabel .unresolved) rest) : e.Readable where
  plain := of_levels low (Nat.le_refl _)
  accesses := of_levels low (Nat.le_refl _)
  unary := fun _ => h
  operation := fun _ _ _ _ _ _ ends _ operators => takes_operation (h ends) operators
  expression := fun ends => takes_expression (takes_operation (h ends.toEndsAccesses)
    (takes_operators_end (ends.stopsBelow _))) ends.equal

theorem of_accesses (plain : ∀ rest, UnaryOp.ofKind? (front (e.tokens ++ rest)).kind = none)
    (h : ∀ {rest v rest'}, (phrase (.accesses (e.relabel .unresolved))).Takes rest v rest' →
      operand.Takes (e.tokens ++ rest) v rest') : e.Readable :=
  have unary {rest : List Token} (ends : EndsAccesses rest) :
      (phrase .unary).Takes (e.tokens ++ rest) (e.relabel .unresolved) rest :=
    takes_unary (plain rest) (h (takes_accesses_end ends))
  { plain := fun _ => plain
    accesses := fun _ => h
    unary := fun _ => unary
    operation := fun _ _ _ _ _ _ ends _ operators => takes_operation (unary ends) operators
    expression := fun ends => takes_expression (takes_operation (unary ends.toEndsAccesses)
      (takes_operators_end (ends.stopsBelow _))) ends.equal }

theorem of_primary (plain : ∀ rest, UnaryOp.ofKind? (front (e.tokens ++ rest)).kind = none)
    (h : ∀ rest, (Parser.primary).Takes (e.tokens ++ rest) (e.relabel .unresolved) rest) :
    e.Readable :=
  of_accesses plain fun accesses => .bind (.phrase (h _)) accesses

/-! ### Without operators -/

theorem literal (value : Literal) : (Expr.literal value).Readable := by
  cases value with
  | boolean b =>
    cases b <;> exact of_primary (fun _ => rfl) fun _ => .look_bind (.skip_bind (.pure _))
  | _ => exact of_primary (fun _ => rfl) fun _ => .look_bind (.skip_bind (.pure _))

theorem variable_ (ref : Reference) : (Expr.variable_ ref).Readable :=
  of_primary (fun _ => rfl) fun _ => .look_bind (.skip_bind (.pure _))

theorem this (keyword : Word) (depth : Option Nat) : (Expr.this keyword depth).Readable :=
  of_primary (fun _ => rfl) fun _ => .look_bind (.skip_bind (.pure _))

theorem super (keyword : Word) (method : Ident) (depth : Option Nat) :
    (Expr.super keyword method depth).Readable :=
  of_primary (fun _ => rfl) fun _ => .look_bind <| .skip_bind <| .bind (.expect _ rfl) <|
    .bind (.expectName _ _ _ _) (.pure _)

theorem group {inner : Expr} (readable : inner.Readable) : (Expr.group inner).Readable := by
  refine of_primary (fun _ => rfl) fun rest => ?_
  simp only [Expr.tokens, List.cons_append, List.append_assoc, List.nil_append]
  have ends := EndsExpression.of_kind (t := Symbol.token .rightParen) rfl (.inl rfl) rest
  exact .look_bind (.skip_bind (.bind (readable.expression ends) (.bind (.expect _ rfl) (.pure _))))

/-! ### Calls and accesses -/

theorem get {object : Expr} (readable : object.Readable) (level : Level.call ≤ object.level)
    (name : Ident) : (Expr.get object name).Readable := by
  refine of_accesses (fun rest => ?_) fun {rest v rest'} accesses => ?_
  · rw [Expr.tokens, List.append_assoc]
    exact readable.plain level _
  · rw [Expr.tokens, List.append_assoc]
    refine readable.accesses level (.phrase (.bind (.not_accept rfl) ?_))
    exact .bind (.accept rfl) (.bind (.expectName _ _ _ _) accesses)

/-- Arguments are read up to the closing parenthesis. -/
theorem arguments {es : List Expr} (some : es ≠ []) (readable : ∀ e ∈ es, e.Readable) {count : Nat}
    (few : count + es.length ≤ maxArguments) {t : Token} (paren : t.kind = .symbol .rightParen)
    (rest : List Token) : (phrase (.arguments count)).Takes (Expr.tokensAll es ++ t :: rest)
      (Expr.relabelAll .unresolved es) (t :: rest) := by
  induction es generalizing count with
  | nil => contradiction
  | cons e es ih =>
    rw [List.forall_mem_cons] at readable
    rw [List.length_cons] at few
    refine .phrase (.bind (.limitTo _ (by omega)) ?_)
    cases es with
    | nil =>
      have ends := EndsExpression.of_kind paren (.inl rfl) rest
      have other : (front (t :: rest)).isSymbol .comma = false := by
        simp [front, Token.isSymbol, paren]
      exact .bind (readable.1.expression ends) (.bind (.not_accept other) (.pure _))
    | cons e' es =>
      rw [Expr.tokensAll_cons e (List.cons_ne_nil _ _), List.append_assoc]
      have ends := EndsExpression.of_kind (t := Symbol.token .comma) rfl (.inr (.inl rfl))
        (Expr.tokensAll (e' :: es) ++ t :: rest)
      refine .bind (readable.1.expression ends) (.bind (.accept rfl) ?_)
      exact .bind (ih (List.cons_ne_nil _ _) readable.2 (by omega)) (.pure _)

theorem call {callee : Expr} {es : List Expr} (readable : callee.Readable)
    (level : Level.call ≤ callee.level) (all : ∀ e ∈ es, e.Readable)
    (few : es.length ≤ maxArguments) (line : Nat) : (Expr.call callee es line).Readable := by
  refine of_accesses (fun rest => ?_) fun {rest v rest'} accesses => ?_
  · simp only [Expr.tokens, List.append_assoc]
    exact readable.plain level _
  · simp only [Expr.tokens, List.append_assoc, List.cons_append, List.nil_append]
    refine readable.accesses level (.phrase (.bind (.accept rfl) (.bind ?_ accesses)))
    -- The parser asks for arguments unless the parenthesis is closed at once.
    cases es with
    | nil => exact .bind (.not_unlessAt rfl) (.bind (.expect _ rfl) rfl)
    | cons e es =>
      obtain ⟨first, more, same, begins⟩ := e.begins
      obtain ⟨more', same'⟩ := Begins.tokensAll same es
      have read := arguments (List.cons_ne_nil e es) all
        (show 0 + (e :: es).length ≤ maxArguments by omega)
        (t := Symbol.tokenAt .rightParen line) rfl rest
      rw [same'] at read ⊢
      exact .bind (.unlessAt (begins.isSymbol rfl) read)
        (.bind (.expect _ rfl) (a := Symbol.tokenAt .rightParen line) (.pure _))

/-! ### Operators -/

theorem unaryOperation (op : Operator UnaryOp) {inner : Expr} (readable : inner.Readable)
    (level : Level.unary ≤ inner.level) : (Expr.unary op inner).Readable := by
  refine of_unary (show Level.unary < Level.call by decide) fun {rest} ends => .phrase (.look_bind ?_)
  have known : UnaryOp.ofKind? (UnaryOp.token op).kind = some op.op := by
    obtain ⟨op, lexeme, line⟩ := op
    cases op <;> rfl
  rw [show UnaryOp.ofKind? (front (Expr.tokens (.unary op inner) ++ rest)).kind = some op.op
    from known]
  exact .skip_bind (.bind (readable.unary level ends) (.pure _))

/-- An operator between two operands: the left one, and the loop goes on with the operator. -/
theorem connective {left right e : Expr} {t : Token} {c : Connective} (readable : left.Readable)
    (readable' : right.Readable) (known : Connective.ofKind? t.kind = some c)
    (tokens : e.tokens = left.tokens ++ t :: right.tokens) (atLevel : e.level = c.level)
    (above : Level.or ≤ c.level) (below : c.level < Level.unary)
    (combined : e.relabel .unresolved =
      c.combine t (left.relabel .unresolved) (right.relabel .unresolved))
    (level : c.level ≤ left.level) (level' : c.level < right.level) : e.Readable := by
  refine of_operation (atLevel ▸ above) (atLevel ▸ below) fun {least rest v rest'} le ends stops ops => ?_
  rw [tokens, List.append_assoc]
  rw [atLevel] at le stops
  have stopsLeft : StopsBelow (left.level + 1) (t :: right.tokens ++ rest) := by
    intro c' known'
    rw [show Connective.ofKind? (front (t :: right.tokens ++ rest)).kind = some c from known,
      Option.some.injEq] at known'
    subst known'
    exact Nat.lt_succ_of_le level
  have stopsRight : StopsBelow (right.level + 1) rest := fun c' known' =>
    Nat.lt_of_lt_of_le (stops c' known') (Nat.succ_le_succ (Nat.le_of_lt level'))
  refine readable.operation (Nat.le_trans above level) (Nat.le_trans le level) (.of_ofKind? known _)
    stopsLeft (.phrase (.look_bind ?_))
  rw [show Connective.ofKind? (front (t :: right.tokens ++ rest)).kind = some c from known]
  simp only
  rw [if_pos le]
  have operand : (phrase (.operation (c.level + 1))).Takes (right.tokens ++ rest) _ rest :=
    readable'.operation (Nat.le_trans above (Nat.le_of_lt level')) level' ends stopsRight
      (takes_operators_end stops)
  exact .skip_bind (.bind operand (combined ▸ ops))

theorem binary {left right : Expr} (op : Operator BinaryOp) (readable : left.Readable)
    (readable' : right.Readable) (level : op.op.level ≤ left.level) (level' : op.op.level < right.level) :
    (Expr.binary left op right).Readable := by
  have known : Connective.ofKind? (BinaryOp.token op).kind = some (.binary op.op) := by
    obtain ⟨op, lexeme, line⟩ := op
    cases op <;> rfl
  have levels : Level.or ≤ op.op.level ∧ op.op.level < Level.unary := by
    cases op.op <;> decide
  exact connective readable readable' known rfl rfl levels.1 levels.2 rfl level level'

theorem logical {left right : Expr} (op : Operator LogicalOp) (readable : left.Readable)
    (readable' : right.Readable) (level : op.op.level ≤ left.level) (level' : op.op.level < right.level) :
    (Expr.logical left op right).Readable := by
  have known : Connective.ofKind? (LogicalOp.token op).kind = some (.logical op.op) := by
    obtain ⟨op, lexeme, line⟩ := op
    cases op <;> rfl
  have levels : Level.or ≤ op.op.level ∧ op.op.level < Level.unary := by
    cases op.op <;> decide
  exact connective readable readable' known rfl rfl levels.1 levels.2 rfl level level'

/-! ### Assignments -/

/-- In front of `=` no operand goes on. -/
theorem takes_target {e : Expr} (readable : e.Readable) (level : Level.call ≤ e.level)
    (rest : List Token) : (phrase (.operation Level.or)).Takes (e.tokens ++ Symbol.token .equal :: rest)
      (e.relabel .unresolved) (Symbol.token .equal :: rest) := by
  have low : Level.or ≤ e.level := Nat.le_trans (by decide) level
  have stops (level : Nat) : StopsBelow level (Symbol.token .equal :: rest) := fun _ known => by
    cases known
  exact readable.operation low low ⟨rfl, rfl⟩ (stops _) (takes_operators_end (stops _))

theorem assign (target : Reference) {value : Expr} (readable : value.Readable) :
    (Expr.assign target value).Readable := by
  refine of_expression (show Level.assignment < Level.or by decide) fun {rest} ends => ?_
  have left := takes_target (variable_ target) Level.call_le_primary (value.tokens ++ rest)
  exact .phrase (.bind left (.look_bind (.bind (.accept rfl) (.bind (readable.expression ends)
    (.pure _)))))

theorem set {object value : Expr} (readable : object.Readable) (level : Level.call ≤ object.level)
    (name : Ident) (readable' : value.Readable) : (Expr.set object name value).Readable := by
  refine of_expression (show Level.assignment < Level.or by decide) fun {rest} ends => ?_
  have left := takes_target (readable.get level name) (Nat.le_refl _) (value.tokens ++ rest)
  simp only [Expr.tokens, List.append_assoc, List.cons_append, List.nil_append] at left ⊢
  exact .phrase (.bind left (.look_bind (.bind (.accept rfl) (.bind (readable'.expression ends)
    (.pure _)))))

end Expr.Readable

/-! ## Functions -/

/-- A function is read from behind its opening parenthesis on. -/
def Function.Readable (f : Function) : Prop :=
  ∀ (sort : FunctionSort) (rest : List Token),
    (functionFrom sort f.name).Takes (f.tokens ++ rest) (f.relabel .unresolved) rest

theorem Expr.Readable.function {decl : Function} (readable : decl.Readable)
    (anonymous : decl.isNamed = false) : (Expr.function decl).Readable := by
  refine of_primary (fun _ => rfl) fun rest => .look_bind (.skip_bind (.bind (.expect _ rfl) ?_))
  obtain ⟨name, parameters, body⟩ := decl
  cases name with
  | named name => cases anonymous
  | anonymous line => exact .map _ (readable .function rest)

namespace Parser

variable {names : List Ident} {t : Token} {rest rest' tokens : List Token} {s : Stmt}

/-- Parameters are read up to the closing parenthesis. -/
theorem takes_names (some : names ≠ []) {count : Nat} (few : count + names.length ≤ maxArguments)
    (paren : t.kind = .symbol .rightParen) (rest : List Token) :
    (phrase (.parameters count)).Takes (Ident.tokens names ++ t :: rest) names (t :: rest) := by
  induction names generalizing count with
  | nil => contradiction
  | cons name names ih =>
    rw [List.length_cons] at few
    refine .phrase (.bind (.limitTo _ (by omega)) ?_)
    cases names with
    | nil =>
      have other : (front (t :: rest)).isSymbol .comma = false := by
        simp [front, Token.isSymbol, paren]
      exact .bind (.expectName _ _ _ _) (.bind (.not_accept other) (.pure _))
    | cons name' names =>
      rw [Ident.tokens_cons name (List.cons_ne_nil _ _)]
      refine .bind (.expectName _ _ _ _) (.bind (.accept rfl) ?_)
      exact .bind (ih (List.cons_ne_nil _ _) (by omega)) (.pure _)

theorem takes_parameters (few : names.length ≤ maxArguments) (rest : List Token) :
    parameters.Takes (Ident.tokens names ++ Symbol.token .rightParen :: rest) names rest := by
  cases names with
  | nil => exact .bind (.not_unlessAt rfl) (.bind (.expect _ rfl) (.pure _))
  | cons name names =>
    have read := takes_names (List.cons_ne_nil name names)
      (show 0 + (name :: names).length ≤ maxArguments by omega)
      (t := Symbol.token .rightParen) rfl rest
    have other : (front (Ident.tokens (name :: names) ++ Symbol.token .rightParen :: rest)).isSymbol
        .rightParen = false := by
      cases names <;> rfl
    exact .bind (.unlessAt other read) (.bind (.expect _ rfl) (.pure _))

end Parser

/-- A function is read if its body is. -/
theorem Function.Readable.of_body {f : Function} (few : f.parameters.length ≤ maxArguments)
    (isBody : ∀ rest, (phrase (.declarations true)).Takes
      (Stmt.tokensAll f.body ++ Symbol.token .rightBrace :: rest)
      (Stmt.relabelAll .unresolved f.body) (Symbol.token .rightBrace :: rest)) : f.Readable := by
  intro sort rest
  obtain ⟨name, names, body⟩ := f
  have same : names.map (Ident.relabel .unresolved) = names := List.map_id names
  simp only [Function.tokens, Function.relabel, FunctionName.relabel_unresolved, same,
    List.append_assoc, List.cons_append, List.nil_append]
  refine .bind (takes_parameters few _) (.bind (.expect _ rfl) ?_)
  exact .bind (.bind (isBody _) (.bind (.expect _ rfl) (.pure _))) (.pure _)

theorem Parser.takes_namedFunction {f : Function} (readable : f.Readable) (named : f.isNamed = true)
    (sort : FunctionSort) (rest : List Token) :
    (namedFunction sort).Takes (f.name.tokens ++ Symbol.token .leftParen :: f.tokens ++ rest)
      (f.relabel .unresolved) rest := by
  obtain ⟨name, names, body⟩ := f
  cases name with
  | named name => exact .bind (.expectName _ _ _ _) (.bind (.expect _ rfl) (readable sort rest))
  | anonymous line => cases named

end Lox
