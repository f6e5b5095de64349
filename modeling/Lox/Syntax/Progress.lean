import Lox.Syntax.Grammar

/-!
# Parsing makes progress

Every phrase is parsed from a finite number of tokens, because what a rule asks for is either
shorter or lower: its tokens are fewer, or they are as many and the phrase comes earlier in the
grammar (`Question.measure`).  For this the rules rely on what phrases take (`Taken`): what is left
is always the end of what there was, and phrases that stand for at least one token take at least
one.

`exists_taken_of_grammar` puts this together: the grammar has an outcome for every phrase and all
tokens, and it takes what it should.
-/

namespace Lox

/-- The place of a phrase in the grammar: a rule asks for a phrase with the same tokens only if its
rank is smaller. -/
def Phrase.rank : {sort : PhraseSort} → Phrase sort → Nat
  | _, .primary => 0
  | _, .operators _ _ => 0
  | _, .accesses _ => 0
  | _, .parameters _ => 0
  | _, .methods => 0
  | _, .unary => 1
  | _, .operation _ => 2
  | _, .expression => 3
  | _, .arguments _ => 4
  | _, .statement => 4
  | _, .declaration => 5
  | _, .declarations _ => 6

theorem Phrase.rank_le {sort : PhraseSort} (p : Phrase sort) : p.rank ≤ 6 := by
  cases p <;> simp [Phrase.rank]

/-- Does a phrase stand for at least one token? -/
def Phrase.isSolid : {sort : PhraseSort} → Phrase sort → Bool
  | _, .operators _ _ => false
  | _, .accesses _ => false
  | _, .methods => false
  | _, .declarations _ => false
  | _, .declaration => false
  | _, _ => true

/-- Is this the phrase that goes on after a mistake? -/
def Phrase.isDeclaration : {sort : PhraseSort} → Phrase sort → Bool
  | _, .declaration => true
  | _, _ => false

namespace Grammar

/-- The measure of a question.  Fewer tokens count for more than the rank. -/
def Question.measure {sort : PhraseSort} (q : Question sort) : Nat :=
  8 * q.tokens.length + q.phrase.rank

/-- What a phrase takes of its tokens. -/
structure Taken {sort : PhraseSort} (q : Question sort) (outcome : Answer sort) : Prop where
  /-- What is left is the end of what there was. -/
  suffix : outcome.rest <:+ q.tokens
  /-- A solid phrase takes a token if it is parsed. -/
  solid : q.phrase.isSolid = true → ∀ tree, outcome.result = .ok tree →
    outcome.rest.length < q.tokens.length
  /-- A declaration takes a token unless none is left, even if it has an error in it. -/
  declaration : q.phrase.isDeclaration = true → (Parser.front q.tokens).isEnd = false →
    outcome.rest.length < q.tokens.length

end Grammar

namespace Parser

open Grammar

variable {α β : Type}

/-- Run from `tokens`, the parser asks only questions of measure below `limit` and leaves an end of
`whole`, with fewer than `left` tokens if it succeeds. -/
def Within (limit : Nat) (parser : Parser α) (tokens whole : List Token) (left : Nat) : Prop :=
  (parser tokens).Ensures (fun _ q => q.measure < limit) (fun _ q outcome => Taken q outcome)
    fun outcome => outcome.rest <:+ whole ∧
      ∀ a, outcome.result = .ok a → outcome.rest.length < left

/-- Behind a token that does not end the input, one token fewer is left. -/
theorem length_drop_one {tokens : List Token} (h : (front tokens).isEnd = false) :
    (tokens.drop 1).length < tokens.length := by
  cases tokens with
  | nil => simp [front, Token.isEnd] at h
  | cons t rest => simp

theorem isEnd_of_kind {t : Token} {kind : Kind} (h : t.kind = kind) (ne : kind ≠ .endOfInput) :
    t.isEnd = false := by
  unfold Token.isEnd
  split
  · rename_i ends; exact absurd (h.symm.trans ends) ne
  · rfl

namespace Within

variable {limit left left' : Nat} {tokens whole : List Token}

theorem pure {a : α} (h : tokens <:+ whole) (h' : tokens.length < left) :
    Within limit (Pure.pure a : Parser α) tokens whole left :=
  ⟨h, fun _ _ => h'⟩

theorem fail {cause : ParseError.Cause} (h : tokens <:+ whole) :
    Within limit (Parser.fail cause : Parser α) tokens whole left :=
  ⟨h, fun _ ok => by cases ok⟩

theorem note {t : Token} {cause : ParseError.Cause} (h : tokens <:+ whole)
    (h' : tokens.length < left) : Within limit (Parser.note t cause) tokens whole left :=
  ⟨h, fun _ _ => h'⟩

theorem mono {parser : Parser α} {whole' : List Token}
    (h : Within limit parser tokens whole left) (suffix : whole <:+ whole') (le : left ≤ left') :
    Within limit parser tokens whole' left' :=
  Plan.Ensures.mono h (fun _ _ below => below) fun _ goal =>
    ⟨goal.1.trans suffix, fun a ok => Nat.lt_of_lt_of_le (goal.2 a ok) le⟩

theorem bind {parser : Parser α} {next : α → Parser β}
    (h : Within limit parser tokens whole left)
    (h' : ∀ a rest, rest.length < left → rest <:+ whole →
      Within limit (next a) rest whole left') :
    Within limit (parser >>= next) tokens whole left' := by
  refine Plan.Ensures.bind h fun outcome goal => ?_
  split
  · exact ⟨goal.1, fun _ ok => by cases ok⟩
  · rename_i a result
    refine Plan.Ensures.bind (h' a outcome.rest (goal.2 a result) goal.1) fun second goal => ?_
    exact goal

theorem map {f : α → β} {parser : Parser α} (h : Within limit parser tokens whole left) :
    Within limit (f <$> parser) tokens whole left :=
  bind h fun _ _ h h' => pure h' h

/-- Where the first parser is done at once, the second one goes on. -/
theorem of_done {parser : Parser α} {next : α → Parser β} {a : α} {noted : List ParseError}
    {rest : List Token} (done : parser tokens = .done ⟨.ok a, noted, rest⟩)
    (h : Within limit (next a) rest whole left) :
    Within limit (parser >>= next) tokens whole left := by
  show Plan.Ensures _ _ _ (parser tokens >>= _)
  rw [done]
  show Plan.Ensures _ _ _ (next a rest >>= fun second =>
    .done { second with noted := noted ++ second.noted })
  exact Plan.Ensures.bind h fun second goal => goal

/-- A parser that looks at the next token goes on as that token says. -/
theorem look_bind {next : Token → Parser β}
    (h : Within limit (next (front tokens)) tokens whole left) :
    Within limit (Parser.look >>= next) tokens whole left :=
  of_done rfl h

theorem sees_bind {s : Symbol} {next : Bool → Parser β}
    (h : ∀ seen, Within limit (next seen) tokens whole left) :
    Within limit (Parser.sees s >>= next) tokens whole left :=
  of_done rfl (h _)

theorem skip_bind {next : Unit → Parser β} (some : (front tokens).isEnd = false)
    (h : ∀ rest : List Token, rest.length < tokens.length → rest <:+ tokens →
      Within limit (next ()) rest whole left) :
    Within limit (Parser.skip >>= next) tokens whole left :=
  of_done rfl (h _ (length_drop_one some) (List.drop_suffix 1 tokens))

theorem accept_bind {s : Symbol} {next : Bool → Parser β}
    (yes : ∀ rest : List Token, rest.length < tokens.length → rest <:+ tokens →
      Within limit (next true) rest whole left)
    (no : Within limit (next false) tokens whole left) :
    Within limit (Parser.accept s >>= next) tokens whole left := by
  by_cases seen : (front tokens).isSymbol s = true
  · exact of_done (by rw [accept, if_pos seen])
      (yes _ (length_drop_one (isEnd_of_kind (Token.kind_of_isSymbol seen) nofun))
        (List.drop_suffix 1 tokens))
  · exact of_done (by rw [accept, if_neg seen]) no

theorem expect {s : Symbol} {spot : ParseError.Spot} (h : tokens <:+ whole)
    (h' : tokens.length ≤ left) : Within limit (Parser.expect s spot) tokens whole left := by
  unfold Within Parser.expect
  split
  · rename_i seen
    have := length_drop_one (isEnd_of_kind (Token.kind_of_isSymbol seen) nofun)
    exact ⟨(List.drop_suffix 1 tokens).trans h, fun _ _ => Nat.lt_of_lt_of_le this h'⟩
  · exact fail h

theorem expectName {role : ParseError.NameRole} (h : tokens <:+ whole)
    (h' : tokens.length ≤ left) :
    Within limit (Parser.expectName role) tokens whole left := by
  unfold Within Parser.expectName
  simp only
  split
  · rename_i name
    have := length_drop_one (isEnd_of_kind name nofun)
    exact ⟨(List.drop_suffix 1 tokens).trans h, fun _ _ => Nat.lt_of_lt_of_le this h'⟩
  · exact fail h

theorem phrase {sort : PhraseSort} {p : Phrase sort}
    (smaller : 8 * tokens.length + p.rank < limit) (h : tokens <:+ whole)
    (h' : tokens.length < left + (if p.isSolid then 1 else 0)) :
    Within limit (Parser.phrase p) tokens whole left := by
  refine ⟨smaller, fun outcome taken => ⟨taken.suffix.trans h, fun a ok => ?_⟩⟩
  split at h'
  · rename_i solid
    have := taken.solid solid a ok
    simp only at this
    omega
  · have := taken.suffix.length_le
    simp only at this
    omega

theorem limitTo_bind {count : Nat} {cause : ParseError.Cause} {next : Unit → Parser β}
    (h : Within limit (next ()) tokens whole left) :
    Within limit (Parser.limitTo count cause >>= next) tokens whole left := by
  have done : ∃ noted, Parser.limitTo count cause tokens = .done ⟨.ok (), noted, tokens⟩ := by
    by_cases beyond : maxArguments ≤ count
    · exact ⟨[.atToken (front tokens) cause], by simp [Parser.limitTo, beyond]; rfl⟩
    · exact ⟨[], by simp [Parser.limitTo, beyond]; rfl⟩
  obtain ⟨noted, done⟩ := done
  exact of_done done h

end Within

/-! ## Parsers behind a first token -/

/-- The parser may run wherever any phrase may be asked for, which is so once a token is taken. -/
def Modest (parser : Parser α) : Prop :=
  ∀ (limit : Nat) (tokens : List Token), 8 * tokens.length + 8 ≤ limit →
    Within limit parser tokens tokens (tokens.length + 1)

namespace Modest

theorem pure (a : α) : Modest (Pure.pure a : Parser α) :=
  fun _ _ _ => .pure (List.suffix_refl _) (Nat.lt_succ_self _)

theorem note (t : Token) (cause : ParseError.Cause) : Modest (Parser.note t cause) :=
  fun _ _ _ => .note (List.suffix_refl _) (Nat.lt_succ_self _)

theorem sees (s : Symbol) : Modest (Parser.sees s) :=
  fun _ _ _ => ⟨List.suffix_refl _, fun _ _ => Nat.lt_succ_self _⟩

theorem accept (s : Symbol) : Modest (Parser.accept s) := fun _ tokens _ => by
  have suffix := List.drop_suffix 1 tokens
  unfold Within Parser.accept
  split
  · exact ⟨suffix, fun _ _ => Nat.lt_succ_of_le suffix.length_le⟩
  · exact ⟨List.suffix_refl _, fun _ _ => Nat.lt_succ_self _⟩

theorem acceptWord (k : Keyword) : Modest (Parser.acceptWord k) := fun _ tokens _ => by
  have suffix := List.drop_suffix 1 tokens
  unfold Within Parser.acceptWord
  split
  · exact ⟨suffix, fun _ _ => Nat.lt_succ_of_le suffix.length_le⟩
  · exact ⟨List.suffix_refl _, fun _ _ => Nat.lt_succ_self _⟩

theorem expect (s : Symbol) (spot : ParseError.Spot) : Modest (Parser.expect s spot) :=
  fun _ _ _ => .expect (List.suffix_refl _) (by omega)

theorem expectName (role : ParseError.NameRole) : Modest (Parser.expectName role) :=
  fun _ _ _ => .expectName (List.suffix_refl _) (by omega)

theorem phrase {sort : PhraseSort} (p : Phrase sort) : Modest (Parser.phrase p) :=
  fun _ _ room => .phrase (by have := p.rank_le; omega) (List.suffix_refl _) (by omega)

theorem bind {parser : Parser α} {next : α → Parser β} (h : Modest parser)
    (h' : ∀ a, Modest (next a)) : Modest (parser >>= next) := fun limit tokens room =>
  (h limit tokens room).bind fun a rest _ suffix =>
    have le := suffix.length_le
    (h' a limit rest (by omega)).mono suffix (Nat.succ_le_succ le)

theorem map {parser : Parser α} (f : α → β) (h : Modest parser) : Modest (f <$> parser) :=
  fun limit tokens room => (h limit tokens room).map

theorem ite {p : Prop} [Decidable p] {yes no : Parser α} (h : Modest yes) (h' : Modest no) :
    Modest (if p then yes else no) := by
  split
  · exact h
  · exact h'

theorem optional {present : Parser Bool} {parser : Parser α} (h : Modest present)
    (h' : Modest parser) : Modest (Parser.optional present parser) :=
  .bind h fun _ => .ite (.map _ h') (.pure _)

theorem unlessAt (s : Symbol) {parser : Parser α} (h : Modest parser) :
    Modest (Parser.unlessAt s parser) :=
  .bind (.sees s) fun _ => .ite (.pure _) (.map _ h)

theorem parameters : Modest Parser.parameters :=
  .bind (.unlessAt _ (.phrase _)) fun _ => .bind (.expect _ _) fun _ => .pure _

theorem block : Modest Parser.block :=
  .bind (.phrase _) fun _ => .bind (.expect _ _) fun _ => .pure _

theorem functionFrom (sort : FunctionSort) (name : FunctionName) :
    Modest (Parser.functionFrom sort name) :=
  .bind .parameters fun _ => .bind (.expect _ _) fun _ => .bind .block fun _ => .pure _

theorem namedFunction (sort : FunctionSort) : Modest (Parser.namedFunction sort) :=
  .bind (.expectName _) fun _ => .bind (.expect _ _) fun _ => .functionFrom _ _

theorem classDeclaration : Modest Parser.classDeclaration :=
  .bind (.expectName _) fun _ => .bind (.optional (.accept _) (.expectName _)) fun _ =>
    .bind (.expect _ _) fun _ => .bind (.phrase _) fun _ => .bind (.expect _ _) fun _ => .pure _

theorem varDeclaration : Modest Parser.varDeclaration :=
  .bind (.expectName _) fun _ => .bind (.optional (.accept _) (.phrase _)) fun _ =>
    .bind (.expect _ _) fun _ => .pure _

theorem expressionStatement : Modest Parser.expressionStatement :=
  .bind (.phrase _) fun _ => .bind (.expect _ _) fun _ => .pure _

theorem ifStatement : Modest Parser.ifStatement :=
  .bind (.expect _ _) fun _ => .bind (.phrase _) fun _ => .bind (.expect _ _) fun _ =>
    .bind (.phrase _) fun _ => .bind (.optional (.acceptWord _) (.phrase _)) fun _ => .pure _

theorem whileStatement : Modest Parser.whileStatement :=
  .bind (.expect _ _) fun _ => .bind (.phrase _) fun _ => .bind (.expect _ _) fun _ =>
    .bind (.phrase _) fun _ => .pure _

theorem forInitializer : Modest Parser.forInitializer :=
  .bind (.accept _) fun _ => .ite (.pure _) (.bind (.acceptWord _) fun _ =>
    .ite (.map _ .varDeclaration) (.map _ .expressionStatement))

theorem forStatement : Modest Parser.forStatement :=
  .bind (.expect _ _) fun _ => .bind .forInitializer fun _ =>
    .bind (.unlessAt _ (.phrase _)) fun _ => .bind (.expect _ _) fun _ =>
      .bind (.unlessAt _ (.phrase _)) fun _ => .bind (.expect _ _) fun _ =>
        .bind (.phrase _) fun _ => .pure _

theorem returnStatement (keyword : Word) : Modest (Parser.returnStatement keyword) :=
  .bind (.unlessAt _ (.phrase _)) fun _ => .bind (.expect _ _) fun _ => .pure _

theorem printStatement (line : Nat) : Modest (Parser.printStatement line) :=
  .bind (.phrase _) fun _ => .bind (.expect _ _) fun _ => .pure _

theorem assignTo (left : Expr) (equals : Token) (value : Expr) :
    Modest (Parser.assignTo left equals value) := by
  unfold Parser.assignTo
  split
  · exact .pure _
  · exact .pure _
  · exact .bind (.note _ _) fun _ => .pure _

theorem callOf (callee : Expr) : Modest (Parser.callOf callee) :=
  .bind (.unlessAt _ (.phrase _)) fun _ => .bind (.expect _ _) fun _ => .pure _

/-- A parser that has room runs from fewer tokens than a question has. -/
theorem behind {parser : Parser α} (h : Modest parser) {limit left count : Nat}
    {tokens whole : List Token} (fewer : tokens.length < count) (room : 8 * count ≤ limit)
    (suffix : tokens <:+ whole) (lt : tokens.length < left) :
    Within limit parser tokens whole left :=
  (h limit tokens (by omega)).mono suffix lt

/-- A parser that has room runs behind a first token. -/
theorem skipped {parser : Parser α} (h : Modest parser) {limit left : Nat}
    {tokens : List Token} (some : (front tokens).isEnd = false) (room : 8 * tokens.length ≤ limit)
    (le : tokens.length ≤ left) :
    Within limit (Parser.skip >>= fun _ => parser) tokens tokens left :=
  .skip_bind some fun _ fewer suffix => h.behind fewer room suffix (by omega)

end Modest

/-! ## The rules -/

namespace Within

variable {limit : Nat} {tokens : List Token}

theorem expression :
    Within (8 * tokens.length + 3) Phrase.expression.parser tokens tokens tokens.length :=
  .bind (.phrase (by simp [Phrase.rank]) (List.suffix_refl _) (by simp [Phrase.isSolid]))
    fun _ rest lt suffix => look_bind <| accept_bind
      (fun rest' lt' suffix' => Modest.behind (.bind (.phrase _) fun _ => .assignTo _ _ _)
        (Nat.lt_trans lt' lt) (by omega) (suffix'.trans suffix) (by omega))
      (.pure suffix lt)

theorem operation (level : Nat) :
    Within (8 * tokens.length + 2) (Phrase.operation level).parser tokens tokens tokens.length :=
  .bind (.phrase (by simp [Phrase.rank]) (List.suffix_refl _) (by simp [Phrase.isSolid]))
    fun _ _ lt suffix => Modest.behind (.phrase _) lt (by omega) suffix lt

theorem isEnd_of_connective {t : Token} {c : Connective}
    (h : Connective.ofKind? t.kind = some c) : t.isEnd = false := by
  unfold Token.isEnd
  split
  · rename_i ends; rw [ends] at h; cases h
  · rfl

theorem operators (level : Nat) (left : Expr) :
    Within (8 * tokens.length) (Phrase.operators level left).parser tokens tokens
      (tokens.length + 1) := by
  refine look_bind ?_
  split
  · exact .pure (List.suffix_refl _) (Nat.lt_succ_self _)
  · rename_i c known
    split
    · exact Modest.skipped (.bind (.phrase _) fun _ => .phrase _) (isEnd_of_connective known)
        (Nat.le_refl _) (Nat.le_succ _)
    · exact .pure (List.suffix_refl _) (Nat.lt_succ_self _)

theorem isEnd_of_unary {t : Token} {op : UnaryOp} (h : UnaryOp.ofKind? t.kind = some op) :
    t.isEnd = false := by
  unfold Token.isEnd
  split
  · rename_i ends; rw [ends] at h; cases h
  · rfl

theorem unary :
    Within (8 * tokens.length + 1) Phrase.unary.parser tokens tokens tokens.length := by
  refine look_bind ?_
  split
  · rename_i op known
    exact Modest.skipped (.bind (.phrase _) fun _ => .pure _) (isEnd_of_unary known) (by omega)
      (Nat.le_refl _)
  · exact .bind (.phrase (by simp [Phrase.rank]) (List.suffix_refl _) (by simp [Phrase.isSolid]))
      fun _ _ lt suffix => Modest.behind (.phrase _) lt (by omega) suffix lt

theorem accesses (object : Expr) :
    Within (8 * tokens.length) (Phrase.accesses object).parser tokens tokens
      (tokens.length + 1) :=
  accept_bind
    (fun _ fewer suffix => Modest.behind (.bind (.callOf _) fun _ => .phrase _) fewer
      (Nat.le_refl _) suffix (by omega))
    (accept_bind
      (fun _ fewer suffix => Modest.behind (.bind (.expectName _) fun _ => .phrase _) fewer
        (Nat.le_refl _) suffix (by omega))
      (.pure (List.suffix_refl _) (Nat.lt_succ_self _)))

theorem primary :
    Within (8 * tokens.length) Phrase.primary.parser tokens tokens tokens.length := by
  refine look_bind ?_
  split
  all_goals first
    | exact fail (List.suffix_refl _)
    | rename_i kind
      refine Modest.skipped ?_ (isEnd_of_kind kind nofun) (Nat.le_refl _) (Nat.le_refl _)
  all_goals first
    | exact .pure _
    | exact .bind (.expect _ _) fun _ => .bind (.expectName _) fun _ => .pure _
    | exact .bind (.expect _ _) fun _ => .map _ (.functionFrom _ _)
    | exact .bind (.phrase _) fun _ => .bind (.expect _ _) fun _ => .pure _

theorem arguments (count : Nat) :
    Within (8 * tokens.length + 4) (Phrase.arguments count).parser tokens tokens
      tokens.length :=
  limitTo_bind <|
    .bind (.phrase (by simp [Phrase.rank]) (List.suffix_refl _) (by simp [Phrase.isSolid]))
      fun _ _ lt suffix => accept_bind
        (fun _ fewer suffix' => Modest.behind (.bind (.phrase _) fun _ => .pure _)
          (Nat.lt_trans fewer lt) (by omega) (suffix'.trans suffix) (by omega))
        (.pure suffix lt)

theorem parameters (count : Nat) :
    Within (8 * tokens.length) (Phrase.parameters count).parser tokens tokens
      tokens.length :=
  limitTo_bind <|
    .bind (.expectName (List.suffix_refl _) (Nat.le_refl _))
      fun _ _ lt suffix => accept_bind
        (fun _ fewer suffix' => Modest.behind (.bind (.phrase _) fun _ => .pure _)
          (Nat.lt_trans fewer lt) (by omega) (suffix'.trans suffix) (by omega))
        (.pure suffix lt)

theorem statement :
    Within (8 * tokens.length + 4) Phrase.statement.parser tokens tokens tokens.length := by
  refine look_bind ?_
  split
  all_goals first
    | rename_i kind
      refine Modest.skipped ?_ (isEnd_of_kind kind nofun) (Nat.le_add_right _ _) (Nat.le_refl _)
    | skip
  · exact .ifStatement
  · exact .printStatement _
  · exact .returnStatement _
  · exact .bind .block fun _ => .pure _
  · exact .whileStatement
  · exact .forStatement
  · exact .bind
      (.phrase (by simp [Phrase.rank]) (List.suffix_refl _) (by simp [Phrase.isSolid]))
      fun _ _ lt suffix => Modest.behind (.bind (.expect _ _) fun _ => .pure _) lt (by omega)
        suffix lt

theorem declare :
    Within (8 * tokens.length + 5) Parser.declare tokens tokens tokens.length := by
  have asStatement : Within (8 * tokens.length + 5) (Parser.phrase .statement) tokens tokens
      tokens.length :=
    .phrase (by simp [Phrase.rank]) (List.suffix_refl _) (by simp [Phrase.isSolid])
  refine look_bind ?_
  split
  · rename_i kind
    exact Modest.skipped .classDeclaration (isEnd_of_kind kind nofun) (by omega) (Nat.le_refl _)
  · rename_i kind
    refine of_done rfl ?_
    split
    · exact Modest.skipped (.map _ (.namedFunction _)) (isEnd_of_kind kind nofun) (by omega)
        (Nat.le_refl _)
    · exact asStatement
  · rename_i kind
    exact Modest.skipped .varDeclaration (isEnd_of_kind kind nofun) (by omega) (Nat.le_refl _)
  · exact asStatement

end Within

end Parser

/-! ## What is dropped after a mistake -/

theorem afterMistake_suffix (tokens : List Token) : afterMistake tokens <:+ tokens := by
  induction tokens with
  | nil => exact List.suffix_refl _
  | cons t rest ih =>
    rw [afterMistake]
    split
    · exact List.suffix_refl _
    split
    · exact List.suffix_cons t rest
    · exact ih.trans (List.suffix_cons t rest)

theorem length_afterMistake_lt {tokens : List Token} (h : (Parser.front tokens).isEnd = false) :
    (afterMistake tokens).length < tokens.length := by
  cases tokens with
  | nil => simp [Parser.front, Token.isEnd] at h
  | cons t rest =>
    rw [Parser.front] at h
    rw [afterMistake]
    simp only [h, Bool.false_eq_true, if_false]
    split
    · simp
    · have := (afterMistake_suffix rest).length_le
      simp only [List.length_cons]
      omega

namespace Parser

open Grammar

theorem Within.declaration {tokens : List Token} :
    (Phrase.declaration.parser tokens).Ensures
      (fun _ q => q.measure < 8 * tokens.length + 5) (fun _ q outcome => Taken q outcome)
      fun outcome => outcome.rest <:+ tokens ∧
        ((front tokens).isEnd = false → outcome.rest.length < tokens.length) := by
  refine Plan.Ensures.bind Within.declare fun outcome goal => ?_
  split
  · rename_i a ok
    exact ⟨goal.1, fun _ => goal.2 a ok⟩
  · refine ⟨(afterMistake_suffix _).trans goal.1, fun some => ?_⟩
    simp only
    have le := (afterMistake_suffix outcome.rest).length_le
    by_cases same : outcome.rest.length = tokens.length
    · rw [goal.1.eq_of_length same]
      exact length_afterMistake_lt some
    · have := goal.1.length_le
      omega

namespace Within

theorem declarations (inBlock : Bool) {tokens : List Token} :
    Within (8 * tokens.length + 6) (Phrase.declarations inBlock).parser tokens tokens
      (tokens.length + 1) := by
  have none : Within (8 * tokens.length + 6) (Pure.pure [] : Parser (List Stmt)) tokens tokens
      (tokens.length + 1) := .pure (List.suffix_refl _) (Nat.lt_succ_self _)
  refine sees_bind fun closing => of_done rfl ?_
  split
  · exact none
  · rename_i ends
    split
    · exact none
    · have first : Within (8 * tokens.length + 6) (Parser.phrase .declaration) tokens tokens
          tokens.length := by
        refine ⟨by simp [Question.measure, Phrase.rank], fun outcome taken =>
          ⟨taken.suffix, fun _ _ => taken.declaration rfl (by simpa using ends)⟩⟩
      exact first.bind fun _ _ lt suffix => Modest.behind (.bind (.phrase _) fun _ => .pure _) lt
        (by omega) suffix (by omega)

theorem methods {tokens : List Token} :
    Within (8 * tokens.length) Phrase.methods.parser tokens tokens (tokens.length + 1) := by
  have none : Within (8 * tokens.length) (Pure.pure [] : Parser (List Function)) tokens tokens
      (tokens.length + 1) := .pure (List.suffix_refl _) (Nat.lt_succ_self _)
  refine of_done rfl ?_
  split
  · exact none
  · refine sees_bind fun closing => ?_
    split
    · exact none
    · have first : Within (8 * tokens.length) (namedFunction .method) tokens tokens
          tokens.length :=
        .bind (.expectName (List.suffix_refl _) (Nat.le_refl _)) fun _ _ lt suffix =>
          Modest.behind (.bind (.expect _ _) fun _ => .functionFrom _ _) lt (Nat.le_refl _) suffix
            lt
      exact first.bind fun _ _ lt suffix => Modest.behind (.bind (.phrase _) fun _ => .pure _) lt
        (Nat.le_refl _) suffix (by omega)

end Within

end Parser

/-! ## The grammar as a whole -/

namespace Grammar

open Lox.Parser

theorem ensures_of_within {sort : PhraseSort} {p : Phrase sort} {tokens : List Token} {left : Nat}
    (h : Within (8 * tokens.length + p.rank) p.parser tokens tokens left)
    (plain : p.isDeclaration = false) (solid : p.isSolid = true → left ≤ tokens.length) :
    (p.parser tokens).Ensures (fun _ q => q.measure < (Question.mk p tokens).measure)
      (fun _ q outcome => Taken q outcome) fun outcome => Taken ⟨p, tokens⟩ outcome :=
  Plan.Ensures.mono h (fun _ _ below => below) fun _ goal =>
    { suffix := goal.1
      solid := fun isSolid tree ok => Nat.lt_of_lt_of_le (goal.2 tree ok) (solid isSolid)
      declaration := fun isDeclaration => by rw [plain] at isDeclaration; contradiction }

theorem ensures {sort : PhraseSort} (p : Phrase sort) (tokens : List Token) :
    (p.parser tokens).Ensures (fun _ q => q.measure < (Question.mk p tokens).measure)
      (fun _ q outcome => Taken q outcome) fun outcome => Taken ⟨p, tokens⟩ outcome := by
  cases p with
  | expression => exact ensures_of_within .expression rfl fun _ => Nat.le_refl _
  | operation level => exact ensures_of_within (.operation level) rfl fun _ => Nat.le_refl _
  | operators level left => exact ensures_of_within (.operators level left) rfl nofun
  | unary => exact ensures_of_within .unary rfl fun _ => Nat.le_refl _
  | accesses object => exact ensures_of_within (.accesses object) rfl nofun
  | primary => exact ensures_of_within .primary rfl fun _ => Nat.le_refl _
  | arguments count => exact ensures_of_within (.arguments count) rfl fun _ => Nat.le_refl _
  | parameters count => exact ensures_of_within (.parameters count) rfl fun _ => Nat.le_refl _
  | statement => exact ensures_of_within .statement rfl fun _ => Nat.le_refl _
  | declarations inBlock => exact ensures_of_within (.declarations inBlock) rfl nofun
  | methods => exact ensures_of_within .methods rfl nofun
  | declaration =>
    exact Plan.Ensures.mono Within.declaration (fun _ _ below => below) fun _ goal =>
      { suffix := goal.1
        solid := nofun
        declaration := fun _ some => goal.2 some }

end Grammar

/-- The grammar has an outcome for every phrase, and what the phrase takes is as it should be. -/
theorem exists_taken_of_grammar {sort : PhraseSort} (q : Grammar.Question sort) {fuel : Nat}
    (enough : q.measure < fuel) :
    ∃ outcome, grammar.solve fuel _ q = some outcome ∧ Grammar.Taken q outcome :=
  grammar.solve_isSome (fun _ q => q.measure)
    (fun _ question => Plan.Ensures.bind (Grammar.ensures question.phrase question.tokens)
      fun _ taken => taken) q enough

end Lox
