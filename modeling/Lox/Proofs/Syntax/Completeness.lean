import Lox.Proofs.Syntax.Readable
import Lox.Proofs.Syntax.Soundness

/-!
# Programs that can be written can be read

The parser is complete: a well-formed program, written as tokens on any lines, is parsed into itself,
without an error (`parseProgram_complete`).  So what is written determines the program.

A statement is read as a statement and as a declaration (`Stmt.Readable`).  Behind a statement that
ends in an `if` without an `else` there must be no `else`: that `if` would take it
(`Stmt.attachElse`).
-/

namespace Lox

open Lox.Parser

/-! ## Statements -/

/-- A statement is read where it is written, as a statement and as a declaration.  One that ends in an
`if` without an `else` is not if there is an `else` next. -/
structure Stmt.Readable (s : Stmt) : Prop where
  statement : s.isDeclaration = false → ∀ {rest},
    (s.isOpen = true → (front rest).isKeyword .else_ = false) →
      (phrase .statement).Takes (s.tokens ++ rest) (s.relabel .unresolved) rest
  declaration : ∀ {rest}, (s.isOpen = true → (front rest).isKeyword .else_ = false) →
    (phrase .declaration).Takes (s.tokens ++ rest) (some (s.relabel .unresolved)) rest

/-- What begins with these tokens is no declaration. -/
structure DeclaresNothing (tokens : List Token) : Prop where
  noClass : (front tokens).kind ≠ .keyword .class_
  noVar : (front tokens).kind ≠ .keyword .var_
  unnamed : (front tokens).kind = .keyword .fun_ → (front (tokens.drop 1)).isName = false

theorem Parser.takes_declaration {tokens rest : List Token} {s : Stmt} (h : declare.Takes tokens s rest) :
    (phrase .declaration).Takes tokens (some s) rest :=
  .phrase (.orResume h)

theorem Parser.takes_declare {tokens rest : List Token} {s : Stmt} (nothing : DeclaresNothing tokens)
    (h : (phrase .statement).Takes tokens s rest) : declare.Takes tokens s rest := by
  refine .look_bind ?_
  split
  · rename_i isClass
    exact absurd isClass nothing.noClass
  · rename_i isFun
    refine .seesNameSecond_bind ?_
    rw [nothing.unnamed isFun]
    exact h
  · rename_i isVar
    exact absurd isVar nothing.noVar
  · exact h

namespace Stmt.Readable

theorem of_statement {s : Stmt} (nothing : ∀ rest, DeclaresNothing (s.tokens ++ rest))
    (h : ∀ {rest}, (s.isOpen = true → (front rest).isKeyword .else_ = false) →
      (phrase .statement).Takes (s.tokens ++ rest) (s.relabel .unresolved) rest) : s.Readable where
  statement := fun _ _ next => h next
  declaration := fun next => takes_declaration (takes_declare (nothing _) (h next))

theorem of_declaration {s : Stmt} (declares : s.isDeclaration = true)
    (h : ∀ rest, declare.Takes (s.tokens ++ rest) (s.relabel .unresolved) rest) : s.Readable where
  statement := fun no => by rw [declares] at no; cases no
  declaration := fun _ => takes_declaration (h _)

/-- A semicolon ends an expression. -/
theorem ends_semicolon (rest : List Token) : EndsExpression (Symbol.token .semicolon :: rest) :=
  .of_kind rfl (.inr (.inr rfl)) rest

/-- A closing parenthesis ends an expression. -/
theorem ends_rightParen (rest : List Token) : EndsExpression (Symbol.token .rightParen :: rest) :=
  .of_kind rfl (.inl rfl) rest

theorem expression {value : Expr} (readable : value.Readable) : (Stmt.expression value).Readable := by
  obtain ⟨first, more, same, begins⟩ := value.begins
  have starts := begins.starts
  refine of_statement (fun rest => ?_) fun {rest} _ => .phrase (.look_bind ?_)
  · simp only [Stmt.tokens, same, List.cons_append]
    refine ⟨fun is => ?_, fun is => ?_, fun is => ?_⟩
    · rw [show first.kind = _ from is] at starts; cases starts
    · rw [show first.kind = _ from is] at starts; cases starts
    · obtain ⟨second, rest', rfl, isParen⟩ := begins.unnamed is
      simp [front, Token.isName, isParen]
  · have read : expressionStatement.Takes (Stmt.tokens (.expression value) ++ rest)
        (Stmt.relabel .unresolved (.expression value)) rest := by
      rw [Stmt.tokens, List.append_assoc]
      exact .bind (readable.expression (ends_semicolon rest)) (.bind (.expect _ rfl) (.pure _))
    have kind : (front (Stmt.tokens (.expression value) ++ rest)).kind = first.kind := by
      rw [Stmt.tokens, same]
      rfl
    rw [kind]
    -- Statements that begin otherwise begin with what no expression begins with.
    split <;> first | exact read | (rename_i is; rw [is] at starts; cases starts)

/-- A statement that begins with a reserved word, or with a brace. -/
theorem of_front {s : Stmt} {kind : Kind} (starts : ∀ rest, (front (s.tokens ++ rest)).kind = kind)
    (plain : kind ≠ .keyword .class_ ∧ kind ≠ .keyword .var_ ∧ kind ≠ .keyword .fun_)
    (h : ∀ {rest}, (s.isOpen = true → (front rest).isKeyword .else_ = false) →
      (phrase .statement).Takes (s.tokens ++ rest) (s.relabel .unresolved) rest) : s.Readable :=
  of_statement (fun rest => by
    rw [← starts rest] at plain
    exact ⟨plain.1, plain.2.1, fun isFun => absurd isFun plain.2.2⟩) h

theorem print (line : Nat) {value : Expr} (readable : value.Readable) :
    (Stmt.print line value).Readable := by
  refine of_front (fun _ => rfl) (by simp) fun {rest} _ => ?_
  simp only [Stmt.tokens, List.cons_append, List.append_assoc, List.nil_append]
  exact .phrase (.look_bind (.skip_bind (.bind (readable.expression (ends_semicolon rest))
    (.bind (.expect _ rfl) (.pure _)))))

theorem return_ (keyword : Word) {value : Option Expr} (readable : ∀ e ∈ value, e.Readable) :
    (Stmt.return_ keyword value).Readable := by
  have starts (rest : List Token) :
      (front (tokens (.return_ keyword value) ++ rest)).kind = .keyword .return_ := by
    cases value <;> rfl
  refine of_front starts (by simp) fun {rest} _ => ?_
  cases value with
  | none =>
    exact .phrase (.look_bind (.skip_bind (.bind (.not_unlessAt rfl) (.bind (.expect _ rfl)
      (.pure _)))))
  | some value =>
    obtain ⟨first, more, same, begins⟩ := value.begins
    have read := (readable value rfl).expression (ends_semicolon rest)
    simp only [Stmt.tokens, List.cons_append, List.append_assoc, List.nil_append]
    refine .phrase (.look_bind (.skip_bind (.bind (.unlessAt ?_ read) (.bind (.expect _ rfl)
      (.pure _)))))
    rw [same]
    exact begins.isSymbol rfl

/-! ### Statements with statements in them -/

theorem block {body : List Stmt}
    (isBody : ∀ rest, (phrase (.declarations true)).Takes
      (Stmt.tokensAll body ++ Symbol.token .rightBrace :: rest)
      (Stmt.relabelAll .unresolved body) (Symbol.token .rightBrace :: rest)) :
    (Stmt.block body).Readable := by
  refine of_front (fun _ => rfl) (by simp) fun {rest} _ => ?_
  simp only [Stmt.tokens, List.cons_append, List.append_assoc, List.nil_append]
  exact .phrase (.look_bind (.skip_bind (.bind (.bind (isBody rest) (.bind (.expect _ rfl)
    (.pure _))) (.pure _))))

theorem loop {condition : Expr} {body : Stmt} (readable : condition.Readable)
    (readable' : body.Readable) (plain : body.isDeclaration = false) :
    (Stmt.loop condition body).Readable := by
  refine of_front (fun _ => rfl) (by simp) fun {rest} next => ?_
  simp only [Stmt.tokens, List.cons_append, List.append_assoc]
  exact .phrase (.look_bind (.skip_bind (.bind (.expect _ rfl)
    (.bind (readable.expression (ends_rightParen _)) (.bind (.expect _ rfl)
      (.bind (readable'.statement plain next) (.pure _)))))))

/-- Without an `else` of its own, an `if` takes the next one. -/
theorem branch_none {condition : Expr} {yes : Stmt} (readable : condition.Readable)
    (readable' : yes.Readable) (plain : yes.isDeclaration = false) :
    (Stmt.branch condition yes none).Readable := by
  refine of_front (fun _ => rfl) (by simp) fun {rest} next => ?_
  simp only [Stmt.tokens, List.cons_append, List.append_assoc]
  exact .phrase (.look_bind (.skip_bind (.bind (.expect _ rfl)
    (.bind (readable.expression (ends_rightParen _)) (.bind (.expect _ rfl)
      (.bind (readable'.statement plain fun _ => next rfl)
        (.bind (.not_optional (.not_acceptWord (next rfl))) (.pure _))))))))

theorem branch_some {condition : Expr} {yes no : Stmt} (readable : condition.Readable)
    (readable' : yes.Readable) (readable'' : no.Readable) (plain : yes.isDeclaration = false)
    (plain' : no.isDeclaration = false) (closed : yes.isOpen = false) :
    (Stmt.branch condition yes (some no)).Readable := by
  refine of_front (fun _ => rfl) (by simp) fun {rest} next => ?_
  simp only [Stmt.tokens, List.cons_append, List.append_assoc]
  have first : (phrase .statement).Takes (yes.tokens ++ Keyword.token .else_ 0 :: (no.tokens ++ rest))
      (yes.relabel .unresolved) (Keyword.token .else_ 0 :: (no.tokens ++ rest)) :=
    readable'.statement plain fun isOpen => by rw [closed] at isOpen; cases isOpen
  exact .phrase (.look_bind (.skip_bind (.bind (.expect _ rfl)
    (.bind (readable.expression (ends_rightParen _)) (.bind (.expect _ rfl)
      (.bind first (.bind (.optional (.acceptWord rfl) (readable''.statement plain' next))
        (.pure _))))))))

/-! ### Declarations -/

theorem var (name : Ident) {initial : Option Expr} (readable : ∀ e ∈ initial, e.Readable) :
    (Stmt.var name initial).Readable := by
  refine of_declaration rfl fun rest => ?_
  cases initial with
  | none =>
    exact .look_bind (.skip_bind (.bind (.expectName _ _ _ _) (.bind (.not_optional (.not_accept rfl))
      (.bind (.expect _ rfl) (.pure _)))))
  | some initial =>
    have read := (readable initial rfl).expression (ends_semicolon rest)
    simp only [Stmt.tokens, List.cons_append, List.append_assoc, List.nil_append]
    exact .look_bind (.skip_bind (.bind (.expectName _ _ _ _) (.bind (.optional (.accept rfl) read)
      (.bind (.expect _ rfl) (.pure _)))))

theorem function {decl : Function} (readable : decl.Readable) (named : decl.isNamed = true) :
    (Stmt.function decl).Readable := by
  refine of_declaration rfl fun rest => ?_
  have read := takes_namedFunction readable named .function rest
  obtain ⟨name, parameters, body⟩ := decl
  cases name with
  | named name =>
    exact .look_bind (.bind (.seesNameSecond) (.skip_bind (.map _ read)))
  | anonymous line => cases named

theorem class_ (name : Ident) (superclass : Option Reference) {methods : List Function}
    (areMethods : ∀ rest, (phrase .methods).Takes
      (Function.tokensAll methods ++ Symbol.token .rightBrace :: rest)
      (Function.relabelAll .unresolved methods) (Symbol.token .rightBrace :: rest)) :
    (Stmt.class_ name superclass methods).Readable := by
  refine of_declaration rfl fun rest => ?_
  simp only [Stmt.tokens, List.cons_append, List.append_assoc, List.nil_append]
  refine .look_bind (.skip_bind (.bind (.expectName _ _ _ _) ?_))
  have behind := areMethods rest
  cases superclass with
  | none =>
    exact .bind (.not_optional (.not_accept rfl)) (.bind (.expect _ rfl) (.bind behind
      (.bind (.expect _ rfl) (.pure _))))
  | some ref =>
    exact .bind (.optional (.accept rfl) (.expectName _ _ _ _)) (.bind (.expect _ rfl) (.bind behind
      (.bind (.expect _ rfl) (.pure _))))

end Stmt.Readable

/-! ## Lists of statements and methods -/

/-- Can a statement begin with a token of this kind? -/
def Kind.opensStatement (kind : Kind) : Bool :=
  kind.startsExpression || kind.startsStatement || kind matches .symbol .leftBrace

theorem Stmt.begins (s : Stmt) :
    ∃ first rest, s.tokens = first :: rest ∧ first.kind.opensStatement = true := by
  cases s with
  | expression value =>
    obtain ⟨first, rest, same, begins⟩ := value.begins
    exact ⟨first, rest ++ [Symbol.token .semicolon], by rw [tokens, same]; rfl,
      by simp [Kind.opensStatement, begins.starts]⟩
  | var name initial => cases initial <;> exact ⟨_, _, rfl, rfl⟩
  | branch condition yes no => cases no <;> exact ⟨_, _, rfl, rfl⟩
  | return_ keyword value => cases value <;> exact ⟨_, _, rfl, rfl⟩
  | _ => exact ⟨_, _, rfl, rfl⟩

/-- Here a list of statements ends. -/
structure EndsStatements (inBlock : Bool) (tokens : List Token) : Prop where
  ends : (front tokens).isEnd = true ∨ inBlock = true ∧ (front tokens).isSymbol .rightBrace = true

theorem EndsStatements.isKeyword {inBlock : Bool} {tokens : List Token}
    (h : EndsStatements inBlock tokens) (k : Keyword) : (front tokens).isKeyword k = false := by
  by_contra word
  have kind := Token.kind_of_isKeyword (eq_true_of_ne_false word)
  rcases h.ends with ends | ⟨-, brace⟩
  · simp [Token.isEnd, kind] at ends
  · simp [Token.isSymbol, kind] at brace

/-- No statement begins with `else`. -/
theorem Stmt.front_tokensAll {ss : List Stmt} {rest : List Token}
    (h : (front rest).isKeyword .else_ = false) :
    (front (Stmt.tokensAll ss ++ rest)).isKeyword .else_ = false := by
  cases ss with
  | nil => exact h
  | cons s ss =>
    obtain ⟨first, more, same, opens⟩ := s.begins
    rw [tokensAll, same]
    by_contra word
    rw [show first.kind = _ from Token.kind_of_isKeyword (eq_true_of_ne_false word)] at opens
    cases opens

namespace Parser

theorem takes_declarations {inBlock : Bool} {ss : List Stmt} (readable : ∀ s ∈ ss, s.Readable)
    {rest : List Token} (stops : EndsStatements inBlock rest) :
    (phrase (.declarations inBlock)).Takes (Stmt.tokensAll ss ++ rest)
      (Stmt.relabelAll .unresolved ss) rest := by
  induction ss with
  | nil =>
    refine .phrase (.sees_bind (.atEnd_bind ?_))
    change Takes (if (front rest).isEnd = true then _ else _) rest [] rest
    split
    · exact .pure _
    · rename_i more
      obtain ⟨inside, brace⟩ := stops.ends.resolve_left more
      rw [inside, show (front (Stmt.tokensAll [] ++ rest)).isSymbol .rightBrace = true from brace]
      exact .pure _
  | cons s ss ih =>
    rw [List.forall_mem_cons] at readable
    obtain ⟨first, more, same, opens⟩ := s.begins
    -- No statement begins with a token at which the loop over the declarations stops.
    have goesOn : first.isEnd = false ∧ first.isSymbol .rightBrace = false := by
      refine ⟨isEnd_of_kind rfl fun is => ?_, ?_⟩
      · rw [is] at opens
        cases opens
      · by_contra is
        rw [Token.kind_of_isSymbol (eq_true_of_ne_false is)] at opens
        cases opens
    have head : (phrase .declaration).Takes (s.tokens ++ (Stmt.tokensAll ss ++ rest))
        (some (s.relabel .unresolved)) (Stmt.tokensAll ss ++ rest) :=
      readable.1.declaration fun _ => Stmt.front_tokensAll (stops.isKeyword .else_)
    rw [Stmt.tokensAll, List.append_assoc]
    have atFront : front (s.tokens ++ (Stmt.tokensAll ss ++ rest)) = first := by
      rw [same]
      rfl
    refine .phrase (.sees_bind (.atEnd_bind ?_))
    rw [atFront, goesOn.1, goesOn.2, Bool.and_false]
    exact .bind head (.bind (ih readable.2) (.pure _))

theorem takes_methods {fs : List Function} (readable : ∀ f ∈ fs, f.Readable)
    (named : ∀ f ∈ fs, f.isNamed = true) (rest : List Token) :
    (phrase .methods).Takes (Function.tokensAll fs ++ Symbol.token .rightBrace :: rest)
      (Function.relabelAll .unresolved fs) (Symbol.token .rightBrace :: rest) := by
  induction fs with
  | nil => exact .phrase (.atEnd_bind (.sees_bind (.pure _)))
  | cons f fs ih =>
    rw [List.forall_mem_cons] at readable named
    have head := takes_namedFunction readable.1 named.1 .method
      (Function.tokensAll fs ++ Symbol.token .rightBrace :: rest)
    have more := ih readable.2 named.2
    obtain ⟨name, parameters, body⟩ := f
    cases name with
    | named name =>
      simp only [Function.tokensAll, List.append_assoc, List.cons_append] at head more ⊢
      exact .phrase (.atEnd_bind (.sees_bind (.bind head (.bind more (.pure _)))))
    | anonymous line => cases named.1

end Parser

/-! ## Everything that is well formed -/

section WellFormed

open Node

theorem Stmt.takes_block {body : List Stmt} (readable : ∀ s ∈ body, s.Readable) (rest : List Token) :
    (phrase (.declarations true)).Takes (Stmt.tokensAll body ++ Symbol.token .rightBrace :: rest)
      (Stmt.relabelAll .unresolved body) (Symbol.token .rightBrace :: rest) :=
  takes_declarations readable ⟨.inr ⟨rfl, rfl⟩⟩

mutual

theorem Expr.readable {e : Expr} (h : e.Every WellFormed) : e.Readable := by
  cases e with
  | literal value => exact .literal value
  | group inner => exact .group (Expr.readable h.2)
  | unary op operand => exact .unaryOperation op (Expr.readable h.2) h.1.leveled.2
  | binary left op right =>
    exact .binary op (Expr.readable h.2.1) (Expr.readable h.2.2) h.1.leveled.2.1 h.1.leveled.2.2
  | logical left op right =>
    exact .logical op (Expr.readable h.2.1) (Expr.readable h.2.2) h.1.leveled.2.1 h.1.leveled.2.2
  | variable_ ref => exact .variable_ ref
  | assign target value => exact .assign target (Expr.readable h.2)
  | call callee arguments line =>
    exact .call (Expr.readable h.2.1) h.1.leveled (Expr.readable_all h.2.2) h.1.limited line
  | get object name => exact .get (Expr.readable h.2) h.1.leveled name
  | set object name value =>
    exact .set (Expr.readable h.2.1) h.1.leveled name (Expr.readable h.2.2)
  | this keyword depth => exact .this keyword depth
  | super keyword method depth => exact .super keyword method depth
  | function decl => exact .function (Function.readable h.2) h.1.placed

theorem Expr.readable_all {es : List Expr} (h : Expr.EveryAll WellFormed es) :
    ∀ e ∈ es, e.Readable := by
  cases es with
  | nil => exact fun _ mem => by cases mem
  | cons e rest => exact List.forall_mem_cons.mpr ⟨Expr.readable h.1, Expr.readable_all h.2⟩

theorem Stmt.readable {s : Stmt} (h : s.Every WellFormed) : s.Readable := by
  cases s with
  | expression value => exact .expression (Expr.readable h.2)
  | print line value => exact .print line (Expr.readable h.2)
  | var name initial =>
    cases initial with
    | none => exact .var name fun _ none => by cases none
    | some initial => exact .var name fun _ same => by cases same; exact Expr.readable h.2
  | block body => exact .block (Stmt.takes_block (Stmt.readable_all h.2))
  | branch condition yes no =>
    cases no with
    | none => exact .branch_none (Expr.readable h.2.1) (Stmt.readable h.2.2) h.1.placed.1
    | some no =>
      exact .branch_some (Expr.readable h.2.1) (Stmt.readable h.2.2.1) (Stmt.readable h.2.2.2)
        h.1.placed.1 (h.1.placed.2 no rfl) h.1.closed
  | loop condition body =>
    exact .loop (Expr.readable h.2.1) (Stmt.readable h.2.2) h.1.placed
  | function decl => exact .function (Function.readable h.2) h.1.placed
  | return_ keyword value =>
    cases value with
    | none => exact .return_ keyword fun _ none => by cases none
    | some value => exact .return_ keyword fun _ same => by cases same; exact Expr.readable h.2
  | class_ name superclass methods =>
    exact .class_ name superclass (takes_methods (Function.readable_all h.2) h.1.placed)

theorem Stmt.readable_all {ss : List Stmt} (h : Stmt.EveryAll WellFormed ss) :
    ∀ s ∈ ss, s.Readable := by
  cases ss with
  | nil => exact fun _ mem => by cases mem
  | cons s rest => exact List.forall_mem_cons.mpr ⟨Stmt.readable h.1, Stmt.readable_all h.2⟩

theorem Function.readable {f : Function} (h : f.Every WellFormed) : f.Readable := by
  cases f with
  | mk name parameters body =>
    exact .of_body h.1.limited (Stmt.takes_block (Stmt.readable_all h.2))

theorem Function.readable_all {fs : List Function} (h : Function.EveryAll WellFormed fs) :
    ∀ f ∈ fs, f.Readable := by
  cases fs with
  | nil => exact fun _ mem => by cases mem
  | cons f rest => exact List.forall_mem_cons.mpr ⟨Function.readable h.1, Function.readable_all h.2⟩

end

end WellFormed

/-! ## An `else` behind an open statement -/

/-- The statement, with `no` as the `else` of the last `if` in it that has none. -/
def Stmt.attachElse : Stmt → Stmt → Stmt
  | .branch condition yes none, no =>
      if yes.isOpen then .branch condition (yes.attachElse no) none
      else .branch condition yes (some no)
  | .branch condition yes (some no'), no => .branch condition yes (some (no'.attachElse no))
  | .loop condition body, no => .loop condition (body.attachElse no)
  | s, _ => s

section AttachElse

variable {no : Stmt}

theorem Stmt.isDeclaration_attachElse (s : Stmt) : (s.attachElse no).isDeclaration = s.isDeclaration := by
  unfold attachElse
  split
  · split <;> rfl
  all_goals rfl

theorem Stmt.tokens_attachElse {s : Stmt} (isOpen : s.isOpen = true) :
    (s.attachElse no).tokens = s.tokens ++ Keyword.token .else_ 0 :: no.tokens := by
  cases s with
  | branch condition yes no' =>
    cases no' with
    | none =>
      unfold attachElse
      split
      · rename_i deeper
        simp [Stmt.tokens_attachElse deeper]
      · simp
    | some no' =>
      have ih : (no'.attachElse no).tokens = _ := Stmt.tokens_attachElse isOpen
      simp [attachElse, ih]
  | loop condition body =>
    have ih : (body.attachElse no).tokens = _ := Stmt.tokens_attachElse isOpen
    simp [attachElse, ih]
  | expression _ | print _ _ | var _ _ | block _ | function _ | return_ _ _ | class_ _ _ _ =>
    cases isOpen

theorem Stmt.every_attachElse {s : Stmt} (wellFormed : s.Every Node.WellFormed)
    (wellFormed' : no.Every Node.WellFormed) (plain : no.isDeclaration = false) :
    (s.attachElse no).Every Node.WellFormed := by
  cases s with
  | branch condition yes no' =>
    cases no' with
    | none =>
      obtain ⟨self, ofCondition, ofYes⟩ := wellFormed
      unfold attachElse
      split
      · refine ⟨⟨trivial, ⟨?_, self.placed.2⟩, trivial, trivial⟩, ofCondition,
          Stmt.every_attachElse ofYes wellFormed' plain⟩
        rw [isDeclaration_attachElse]
        exact self.placed.1
      · rename_i closed
        refine ⟨⟨trivial, ⟨self.placed.1, ?_⟩, trivial, eq_false_of_ne_true closed⟩, ofCondition,
          ofYes, wellFormed'⟩
        rintro _ ⟨⟩
        exact plain
    | some no' =>
      obtain ⟨self, ofCondition, ofYes, ofNo⟩ := wellFormed
      refine ⟨⟨trivial, ⟨self.placed.1, ?_⟩, trivial, self.closed⟩, ofCondition, ofYes,
        Stmt.every_attachElse ofNo wellFormed' plain⟩
      rintro _ ⟨⟩
      rw [isDeclaration_attachElse]
      exact self.placed.2 no' rfl
  | loop condition body =>
    obtain ⟨self, ofCondition, ofBody⟩ := wellFormed
    refine ⟨⟨trivial, ?_, trivial, trivial⟩, ofCondition,
      Stmt.every_attachElse ofBody wellFormed' plain⟩
    exact (isDeclaration_attachElse body).trans self.placed
  | expression _ | print _ _ | var _ _ | block _ | function _ | return_ _ _ | class_ _ _ _ =>
    exact wellFormed

end AttachElse

/-! ## `fun` without a name -/

namespace Parser

variable {α : Type} {tokens rest : List Token} {first second : Token}
  {answer? : (sort : PhraseSort) → Grammar.Question sort → Option (Grammar.Answer sort)}

/-- What only looks makes no difference to what comes after it. -/
theorem eval_bind_of_done {β : Type} {parser : Parser β} {b : β} {next : β → Parser α}
    (done : parser tokens = .done ⟨.ok b, [], tokens⟩) :
    ((parser >>= next) tokens).eval answer? = (next b tokens).eval answer? := by
  change (andThen parser next tokens).eval answer? = _
  rw [andThen, done, Plan.done_bind]
  change ((next b tokens) >>= fun second =>
    Plan.done { second with noted := [] ++ second.noted }).eval answer? = _
  rw [Plan.eval_bind]
  cases (next b tokens).eval answer? <;> rfl

/-- A statement that begins with `fun` is an expression. -/
theorem statement_of_fun (isFun : first.kind = .keyword .fun_) {s : Stmt}
    (parsed : (Phrase.statement.parse (first :: tokens)).result = .ok s) :
    ∃ value, s = .expression value := by
  have yields : Yields (.names fun _ => True) statement (first :: tokens)
      (fun s _ => ∃ value, s = .expression value) fun _ _ => True := by
    refine .look_bind ?_
    rw [show (front (first :: tokens)).kind = .keyword .fun_ from isFun]
    refine (Yields.phrase (p := .expression) trivial).bind fun value _ _ => ?_
    exact (Yields.expect _ _).bind fun _ _ _ => .pure ⟨value, rfl⟩ fun _ _ _ _ => trivial
  obtain ⟨_, -, -, built⟩ := Plan.Ensures.eval
    (fun _ q outcome proper found => by
      rw [Option.some.injEq] at found
      exact found ▸ Phrase.promised proper.names proper.fits)
    (yields fun _ _ => ⟨fun _ _ => trivial, fun _ _ => trivial⟩) (Phrase.statement.eval_parse (first :: tokens))
  exact (built s parsed).1

/-- It is no declaration, unless a name follows. -/
theorem declaration_of_fun (isFun : first.kind = .keyword .fun_) (unnamed : second.isName = false)
    {s : Stmt} (parsed : (Phrase.declaration.parse (first :: second :: rest)).result = .ok (some s)) :
    ∃ value, s = .expression value := by
  suffices known : (Phrase.statement.parse (first :: second :: rest)).result = .ok s from
    statement_of_fun isFun known
  have evaluated := Phrase.declaration.eval_parse (first :: second :: rest)
  change ((declare.orResume afterMistake) (first :: second :: rest)).eval _ = _ at evaluated
  have declares : (declare (first :: second :: rest)).eval
      (fun _ q => some (q.phrase.parse q.tokens)) = some (Phrase.statement.parse (first :: second :: rest)) := by
    rw [declare, eval_bind_of_done rfl, show (front (first :: second :: rest)).kind = .keyword .fun_ from isFun]
    simp only
    rw [eval_bind_of_done rfl,
      show (front ((first :: second :: rest).drop 1)).isName = false from unnamed]
    rfl
  rw [orResume, Plan.eval_bind, declares, Option.bind_some] at evaluated
  generalize Phrase.statement.parse (first :: second :: rest) = outcome at evaluated ⊢
  obtain ⟨result, noted, rest'⟩ := outcome
  cases result with
  | ok s' =>
    rw [← Option.some.inj evaluated] at parsed
    cases parsed
    rfl
  | error e =>
    rw [← Option.some.inj evaluated] at parsed
    cases parsed

end Parser

/-! ## Programs -/

/-- What the parser is given of a token besides its line. -/
def Token.bare (t : Token) : Token := ⟨t.kind, if t.kind.isKept then t.lexeme else "", 0⟩

theorem Token.alike_bare (t : Token) : t.Alike .bare t.bare :=
  ⟨rfl, fun kept => if_pos kept, fun _ => rfl⟩

theorem tokensAlike_bare (tokens : List Token) : TokensAlike .bare tokens (tokens.map Token.bare) :=
  tokensAlike_map fun t _ => t.alike_bare

section Program

variable {program : List Stmt} {tokens : List Token} {last : Token}

/-- A well-formed program is parsed into itself where it is written on its own lines. -/
theorem parseProgram_tokensAll (wellFormed : Stmt.EveryAll Node.WellFormed program)
    (ends : last.isEnd = true) :
    parseProgram (Stmt.tokensAll program ++ [last]) = ⟨Stmt.relabelAll .unresolved program, []⟩ := by
  have taken : (phrase (.declarations false)).Takes (Stmt.tokensAll program ++ [last]) _ [last] :=
    takes_declarations (Stmt.readable_all wellFormed) ⟨.inl ends⟩
  rw [takes_phrase_iff] at taken
  rw [parseProgram, taken]

/-- Tokens that are the same besides their lines are parsed into the same trees besides theirs. -/
theorem parseProgram_of_bare {tokens' : List Token} (same : tokens.map Token.bare = tokens'.map Token.bare) :
    Stmt.relabelAll .bare (parseProgram tokens).statements =
        Stmt.relabelAll .bare (parseProgram tokens').statements ∧
      (parseProgram tokens).errors.length = (parseProgram tokens').errors.length := by
  have first := parseProgram_alike rfl (tokensAlike_bare tokens)
  have second := parseProgram_alike rfl (tokensAlike_bare tokens')
  rw [same] at first
  exact ⟨first.1.symm.trans second.1, first.2.symm.trans second.2⟩

/-- A well-formed program is parsed into itself where it is written, on whatever lines. -/
theorem parseProgram_of_tokensAll (wellFormed : Stmt.EveryAll Node.WellFormed program)
    (written : tokens.map Token.bare = (Stmt.tokensAll program).map Token.bare)
    (ends : last.isEnd = true) :
    (parseProgram (tokens ++ [last])).errors = [] ∧
      Stmt.relabelAll .bare (parseProgram (tokens ++ [last])).statements =
        Stmt.relabelAll .bare program := by
  have same : (tokens ++ [last]).map Token.bare = (Stmt.tokensAll program ++ [last]).map Token.bare := by
    rw [List.map_append, List.map_append, written]
  obtain ⟨statements, errors⟩ := parseProgram_of_bare same
  rw [parseProgram_tokensAll wellFormed ends] at statements errors
  exact ⟨List.length_eq_zero_iff.mp errors, statements.trans (Stmt.relabelAll_relabelAll program)⟩

end Program

/-- **Completeness of the parser.**  Whatever well-formed program is written as tokens, on whatever
lines, is what the tokens are parsed into, but for lines and depths, and without an error.

So an `else` belongs to the last `if` in front of it that has none, and a statement that begins with
`fun (` is an expression. -/
theorem parseProgram_complete :
    (∀ program, Stmt.EveryAll Node.WellFormed program → ∀ tokens last,
      tokens.map Token.bare = (Stmt.tokensAll program).map Token.bare → last.isEnd = true →
        (parseProgram (tokens ++ [last])).errors = [] ∧
          Stmt.relabelAll .bare (parseProgram (tokens ++ [last])).statements =
            Stmt.relabelAll .bare program) ∧
    (∀ s no : Stmt, s.Every Node.WellFormed → s.isOpen = true → no.Every Node.WellFormed →
      no.isDeclaration = false → ∀ tokens last,
      tokens.map Token.bare = (s.tokens ++ Keyword.token .else_ 0 :: no.tokens).map Token.bare →
        last.isEnd = true → (parseProgram (tokens ++ [last])).errors = [] ∧
          Stmt.relabelAll .bare (parseProgram (tokens ++ [last])).statements =
            [(s.attachElse no).relabel .bare]) ∧
    ∀ first second rest s, first.kind = .keyword .fun_ → second.kind = .symbol .leftParen →
      ((Phrase.declaration).parse (first :: second :: rest)).result = .ok (some s) →
        ∃ value, s = .expression value := by
  refine ⟨fun program wellFormed tokens last written ends =>
    parseProgram_of_tokensAll wellFormed written ends, ?_, ?_⟩
  · intro s no wellFormed isOpen wellFormed' plain tokens last written ends
    have every : Stmt.EveryAll Node.WellFormed [s.attachElse no] :=
      ⟨Stmt.every_attachElse wellFormed wellFormed' plain, trivial⟩
    refine parseProgram_of_tokensAll every ?_ ends
    rw [written, Stmt.tokensAll, Stmt.tokensAll, List.append_nil, Stmt.tokens_attachElse isOpen]
  · intro first second rest s isFun isParen
    exact declaration_of_fun isFun (by simp [Token.isName, isParen])

/-- `print nil;` is read back, in `if (nil) print nil; else print nil;` the `else` goes to the `if`, and
`fun () { };` is an expression. -/
theorem parseProgram_print_nil :
    let value : Expr := .literal .nil
    let print : Stmt := .print 1 value
    let choice : Stmt := .branch value print none
    let word := Keyword.token .fun_ 1
    let paren := Symbol.token .leftParen
    let last : Token := ⟨.endOfInput, "", 1⟩
    let function : Stmt := .expression (.function ⟨.anonymous 1, [], []⟩)
    let rest := [Symbol.token .rightParen, Symbol.token .leftBrace, Symbol.token .rightBrace,
      Symbol.token .semicolon, last]
    Stmt.relabelAll .bare (parseProgram (print.tokens ++ [last])).statements = [print.relabel .bare] ∧
      Stmt.relabelAll .bare (parseProgram
          (choice.tokens ++ Keyword.token .else_ 0 :: print.tokens ++ [last])).statements =
        [(choice.attachElse print).relabel .bare] ∧
      (Phrase.declaration.parse (word :: paren :: rest)).result = .ok (some function) ∧
      ∃ value, function = .expression value := by
  intro value print choice word paren last function rest
  have plain (n : Node) (leveled : n.Leveled) (placed : n.Placed) (limited : n.Limited)
      (closed : n.Closed) : n.WellFormed := ⟨leveled, placed, limited, closed⟩
  have isPrint : print.Every Node.WellFormed :=
    ⟨plain _ trivial trivial trivial trivial, plain _ trivial trivial trivial trivial⟩
  have isChoice : choice.Every Node.WellFormed :=
    ⟨plain _ trivial ⟨rfl, nofun⟩ trivial trivial, plain _ trivial trivial trivial trivial, isPrint⟩
  have isFunction : function.Every Node.WellFormed :=
    ⟨plain _ trivial trivial trivial trivial, plain _ trivial rfl trivial trivial,
      plain _ trivial trivial (Nat.zero_le _) trivial, trivial⟩
  have parsed : (Phrase.declaration.parse (word :: paren :: rest)).result = .ok (some function) := by
    have taken : (phrase .declaration).Takes (word :: paren :: rest) (some function) [last] :=
      (Stmt.readable isFunction).declaration fun isOpen => by cases isOpen
    rw [takes_phrase_iff.mp taken]
  obtain ⟨complete, nearest, expression⟩ := parseProgram_complete
  exact ⟨(complete [print] ⟨isPrint, trivial⟩ print.tokens last (by simp) rfl).2,
    (nearest choice print isChoice rfl isPrint rfl _ last rfl rfl).2,
    parsed, expression word paren rest function rfl rfl parsed⟩

end Lox
