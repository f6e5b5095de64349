import Lox.Proofs.Syntax.Every
import Lox.Syntax.Program

/-!
# What parsers read

`Parser.Yields` is a judgement about a parser run from given tokens: whatever it builds is as `Tree`
says, the tokens it takes are the front of what there was, and if it notes no error and takes no
`for`, the kinds of the tokens taken are as `Read` says.  It relies on what is promised about the
phrases that the parser asks for (`Grammar.Promised`), provided that they are asked for properly
(`Grammar.Proper`).

There is one rule for each way of making a parser.  `Yields.bind` is the rule for sequences: what the
second parser reads is joined to what the first one read.
-/

namespace Lox

/-- What is asked of the words in a program holds of the token, if it stands for a name or is a
keyword. -/
structure Token.Names (V : Vocabulary) (t : Token) : Prop where
  name : ∀ name, t.kind = .identifier name → V.name ⟨name, t.lexeme, t.line⟩
  keyword : ∀ k, t.kind = .keyword k → V.keyword k t.word

/-- No token is a `for`. -/
def NoFor (tokens : List Token) : Prop := ∀ t ∈ tokens, t.kind ≠ .keyword .for_

theorem NoFor.append {first second : List Token} :
    NoFor (first ++ second) ↔ NoFor first ∧ NoFor second := by
  simp only [NoFor, List.mem_append, or_imp, forall_and]

/-- No token ends the input. -/
def NoEnd (tokens : List Token) : Prop := ∀ t ∈ tokens, t.isEnd = false

theorem NoEnd.append {first second : List Token} :
    NoEnd (first ++ second) ↔ NoEnd first ∧ NoEnd second := by
  simp only [NoEnd, List.mem_append, or_imp, forall_and]

theorem NoEnd.nil : NoEnd [] := fun _ mem => by cases mem

theorem NoEnd.singleton {t : Token} (ne : t.kind ≠ .endOfInput) : NoEnd [t] := by
  intro t' mem
  rw [List.mem_singleton.mp mem]
  exact Parser.isEnd_of_kind rfl ne

/-- The next token is no operator of this level or a higher one. -/
def StopsBelow (level : Nat) (tokens : List Token) : Prop :=
  ∀ c, Connective.ofKind? (Parser.front tokens).kind = some c → c.level < level

namespace Grammar

variable (V : Vocabulary)

/-- The part of the tree that a phrase begins with is one that it can go on from. -/
def Fits : {sort : PhraseSort} → Phrase sort → List Token → Prop
  | _, .operation level, _ => level ≤ Level.unary
  | _, .operators level left, tokens =>
      left.Every (Node.Parsed V) ∧ level ≤ left.level ∧ StopsBelow (left.level + 1) tokens
  | _, .accesses object, _ => object.Every (Node.Parsed V) ∧ Level.call ≤ object.level
  | _, _, _ => True

/-- A question that may be asked. -/
structure Proper {sort : PhraseSort} (q : Question sort) : Prop where
  names : ∀ t ∈ q.tokens, t.Names V
  fits : Fits V q.phrase q.tokens

/-- What is built for a phrase, with what is left behind it. -/
def Tree : {sort : PhraseSort} → Phrase sort → sort.Tree → List Token → Prop
  | _, .expression, e, _ => e.Every (Node.Parsed V)
  | _, .operation level, e, rest =>
      e.Every (Node.Parsed V) ∧ level ≤ e.level ∧ StopsBelow level rest
  | _, .operators level _, e, rest =>
      e.Every (Node.Parsed V) ∧ level ≤ e.level ∧ StopsBelow level rest
  | _, .unary, e, _ => e.Every (Node.Parsed V) ∧ Level.unary ≤ e.level
  | _, .accesses _, e, _ => e.Every (Node.Parsed V) ∧ Level.call ≤ e.level
  | _, .primary, e, _ => e.Every (Node.Parsed V) ∧ Level.call ≤ e.level
  | _, .arguments _, es, _ => Expr.EveryAll (Node.Parsed V) es ∧ es ≠ []
  | _, .parameters _, names, _ => (∀ name ∈ names, V.name name) ∧ names ≠ []
  | _, .statement, s, _ => s.Every (Node.Parsed V) ∧ s.isDeclaration = false
  | _, .declaration, s, _ => ∀ s' ∈ s, s'.Every (Node.Parsed V)
  | _, .declarations inBlock, ss, rest =>
      Stmt.EveryAll (Node.Parsed V) ss ∧ (inBlock = false → (Parser.front rest).isEnd = true)
  | _, .methods, fs, _ =>
      Function.EveryAll (Node.Parsed V) fs ∧ ∀ f ∈ fs, f.isNamed = true

/-- What is read for a phrase, if nothing is wrong with it. -/
def Read : {sort : PhraseSort} → Phrase sort → sort.Tree → List Kind → Prop
  | _, .expression, e, kinds => e.written = kinds
  | _, .operation _, e, kinds => e.written = kinds
  | _, .operators _ left, e, kinds => e.written = left.written ++ kinds
  | _, .unary, e, kinds => e.written = kinds
  | _, .accesses object, e, kinds => e.written = object.written ++ kinds
  | _, .primary, e, kinds => e.written = kinds
  | _, .arguments _, es, kinds => Expr.writtenAll es = kinds
  | _, .parameters _, names, kinds => Ident.written names = kinds
  | _, .statement, s, kinds => s.written = kinds
  | _, .declaration, s, kinds => ∃ s', s = some s' ∧ s'.written = kinds
  | _, .declarations _, ss, kinds => Stmt.writtenAll ss = kinds
  | _, .methods, fs, kinds => Function.writtenAll fs = kinds

/-- What an outcome builds and reads.  The mark at the end of the input is never taken. -/
def Builds {α : Type} (Tree : α → List Token → Prop) (Read : α → List Kind → Prop)
    (tokens : List Token) (outcome : Outcome α) : Prop :=
  ∃ taken, tokens = taken ++ outcome.rest ∧ NoEnd taken ∧ ∀ a, outcome.result = .ok a →
    Tree a outcome.rest ∧ (outcome.noted = [] → NoFor taken → Read a (taken.map Token.kind))

/-- What is promised about the outcome of a question. -/
def Promised {sort : PhraseSort} (q : Question sort) (outcome : Answer sort) : Prop :=
  Builds (Tree V q.phrase) (Read q.phrase) q.tokens outcome

end Grammar

namespace Parser

open Grammar

variable {V : Vocabulary} {α β : Type}

/-- Run from `tokens`, whose words are such as `V` asks for, the parser builds what meets `Tree` and reads
what meets `Read`. -/
def Yields (V : Vocabulary) (parser : Parser α) (tokens : List Token)
    (Tree : α → List Token → Prop) (Read : α → List Kind → Prop) : Prop :=
  (∀ t ∈ tokens, t.Names V) →
    (parser tokens).Ensures (fun _ q => Proper V q) (fun _ q outcome => Promised V q outcome)
      (Builds Tree Read tokens)

namespace Yields

variable {tokens : List Token} {Tree Tree' : α → List Token → Prop}
  {Read Read' : α → List Kind → Prop} {After : β → List Token → Prop} {Behind : β → List Kind → Prop}

/-- A parser that is done at once, without an error. -/
theorem of_done {parser : Parser α} {a : α} {rest : List Token} (taken : List Token)
    (done : parser tokens = .done ⟨.ok a, [], rest⟩) (split : tokens = taken ++ rest)
    (noEnd : NoEnd taken) (tree : Tree a rest) (read : Read a (taken.map Token.kind)) :
    Yields V parser tokens Tree Read := by
  intro _
  rw [done]
  refine ⟨taken, split, noEnd, fun a' ok => ?_⟩
  cases ok
  exact ⟨tree, fun _ _ => read⟩

theorem pure {a : α} (tree : Tree a tokens) (read : Read a []) :
    Yields V (Pure.pure a : Parser α) tokens Tree Read :=
  of_done [] rfl rfl .nil tree read

theorem fail {cause : ParseError.Cause} :
    Yields V (Parser.fail cause : Parser α) tokens Tree Read := by
  intro _
  exact ⟨[], rfl, .nil, fun _ ok => by cases ok⟩

theorem look :
    Yields V Parser.look tokens (fun t rest => t = front tokens ∧ rest = tokens)
      (fun _ kinds => kinds = []) :=
  of_done [] rfl rfl .nil ⟨rfl, rfl⟩ rfl

/-- What is noted is an error, so that nothing need be read. -/
theorem note {t : Token} {cause : ParseError.Cause} :
    Yields V (Parser.note t cause) tokens (fun _ rest => rest = tokens) fun _ _ => False := by
  intro _
  exact ⟨[], rfl, .nil, fun _ _ => ⟨rfl, fun none => by cases none⟩⟩

theorem mono {parser : Parser α} (h : Yields V parser tokens Tree Read)
    (tree : ∀ a rest, Tree a rest → Tree' a rest)
    (read : ∀ a rest kinds, Tree a rest → Read a kinds → Read' a kinds) :
    Yields V parser tokens Tree' Read' := by
  intro names
  refine (h names).mono (fun _ _ proper => proper) fun outcome ⟨taken, split, noEnd, built⟩ => ?_
  refine ⟨taken, split, noEnd, fun a ok => ?_⟩
  obtain ⟨isTree, isRead⟩ := built a ok
  exact ⟨tree _ _ isTree, fun clean noFor => read _ _ _ isTree (isRead clean noFor)⟩

/-- **Sequences.**  The second parser runs from what the first one leaves, and the kinds of all
tokens taken are those of the first followed by those of the second. -/
theorem bind {parser : Parser α} {next : α → Parser β} (h : Yields V parser tokens Tree Read)
    (h' : ∀ a rest, Tree a rest → Yields V (next a) rest After
      fun b kinds => ∀ kinds', Read a kinds' → Behind b (kinds' ++ kinds)) :
    Yields V (parser >>= next) tokens After Behind := by
  intro names
  refine Plan.Ensures.bind (h names) fun outcome ⟨taken, split, noEnd, built⟩ => ?_
  split
  · exact ⟨taken, split, noEnd, fun _ ok => by cases ok⟩
  · rename_i a ok
    obtain ⟨isTree, isRead⟩ := built a ok
    have names' : ∀ t ∈ outcome.rest, t.Names V := fun t mem =>
      names t (split ▸ List.mem_append_right taken mem)
    refine Plan.Ensures.bind (h' a outcome.rest isTree names')
      fun second ⟨taken', split', noEnd', built'⟩ => ?_
    refine ⟨taken ++ taken', by simp [split, split'], NoEnd.append.mpr ⟨noEnd, noEnd'⟩, ?_⟩
    intro b ok'
    obtain ⟨isAfter, isBehind⟩ := built' b ok'
    refine ⟨isAfter, fun clean noFor => ?_⟩
    obtain ⟨clean, clean'⟩ := List.append_eq_nil_iff.mp clean
    obtain ⟨noFor, noFor'⟩ := NoFor.append.mp noFor
    rw [List.map_append]
    exact isBehind clean' noFor' _ (isRead clean noFor)

theorem map {f : α → β} {parser : Parser α} (h : Yields V parser tokens Tree Read)
    (tree : ∀ a rest, Tree a rest → After (f a) rest)
    (read : ∀ a rest kinds, Tree a rest → Read a kinds → Behind (f a) kinds) :
    Yields V (f <$> parser) tokens After Behind :=
  bind h fun a rest isTree => pure (tree a rest isTree) fun kinds isRead => by
    simpa using read a rest kinds isTree isRead

theorem ite {p : Prop} [Decidable p] {yes no : Parser α} (h : p → Yields V yes tokens Tree Read)
    (h' : ¬p → Yields V no tokens Tree Read) :
    Yields V (if p then yes else no) tokens Tree Read := by
  split
  · rename_i holds; exact h holds
  · rename_i fails; exact h' fails

/-! ### Single tokens -/

theorem cons_of_kind {kind : Kind} (h : (front tokens).kind = kind) (ne : kind ≠ .endOfInput) :
    ∃ t rest, tokens = t :: rest ∧ t.kind = kind := by
  cases tokens with
  | nil => exact absurd h.symm ne
  | cons t rest => exact ⟨t, rest, rfl, h⟩

/-- A token of a known kind is taken, and a parser runs from the next one on. -/
theorem skip_kind {next : Unit → Parser β} {kind : Kind} (same : (front tokens).kind = kind)
    (ne : kind ≠ .endOfInput)
    (h : ∀ rest, Yields V (next ()) rest After fun b kinds => Behind b (kind :: kinds)) :
    Yields V (Parser.skip >>= next) tokens After Behind := by
  obtain ⟨t, rest, rfl, rfl⟩ := cons_of_kind same ne
  have first : Yields V Parser.skip (t :: rest) (fun _ _ => True) fun _ kinds => kinds = [t.kind] :=
    of_done [t] rfl rfl (.singleton ne) trivial rfl
  refine first.bind fun _ rest' _ => (h rest').mono (fun _ _ isAfter => isAfter) ?_
  rintro b _ kinds _ isBehind _ rfl
  exact isBehind

/-- A keyword is taken, which is as `V` asks for. -/
theorem skip_keyword {next : Unit → Parser β} {k : Keyword} (same : (front tokens).kind = .keyword k)
    (h : V.keyword k (front tokens).word → ∀ rest,
      Yields V (next ()) rest After fun b kinds => Behind b (.keyword k :: kinds)) :
    Yields V (Parser.skip >>= next) tokens After Behind := by
  intro names
  obtain ⟨t, rest, rfl, kind⟩ := cons_of_kind same nofun
  exact skip_kind same nofun (h ((names t List.mem_cons_self).keyword k kind)) names

/-- Once a `for` is taken, it plays no part what is read. -/
theorem skip_for {next : Unit → Parser β} (same : (front tokens).kind = .keyword .for_)
    (h : ∀ rest, Yields V (next ()) rest After fun _ _ => True) :
    Yields V (Parser.skip >>= next) tokens After Behind := by
  obtain ⟨t, rest, rfl, isFor⟩ := cons_of_kind same nofun
  have first : Yields V Parser.skip (t :: rest) (fun _ _ => True) fun _ _ => False := by
    intro _
    refine ⟨[t], rfl, .singleton (isFor ▸ nofun), fun _ _ => ⟨trivial, fun _ noFor => ?_⟩⟩
    exact noFor t List.mem_cons_self isFor
  refine first.bind fun _ rest' _ => (h rest').mono (fun _ _ isAfter => isAfter) ?_
  exact fun _ _ _ _ _ _ never => never.elim

theorem look_bind {next : Token → Parser β}
    (h : Yields V (next (front tokens)) tokens After Behind) :
    Yields V (Parser.look >>= next) tokens After Behind := by
  refine look.bind fun t rest same => ?_
  obtain ⟨rfl, rfl⟩ := same
  exact h.mono (fun _ _ isAfter => isAfter) fun b _ kinds _ isBehind kinds' same => by
    subst same
    exact isBehind

theorem sees {s : Symbol} :
    Yields V (Parser.sees s) tokens (fun _ rest => rest = tokens) fun _ kinds => kinds = [] :=
  of_done [] rfl rfl .nil rfl rfl

theorem seesNameSecond_bind {next : Bool → Parser β}
    (h : ∀ second, Yields V (next second) tokens After Behind) :
    Yields V (Parser.seesNameSecond >>= next) tokens After Behind := by
  have first : Yields V Parser.seesNameSecond tokens (fun _ rest => rest = tokens)
      fun _ kinds => kinds = [] :=
    of_done [] rfl rfl .nil rfl rfl
  refine first.bind fun second rest same => ?_
  subst same
  exact (h second).mono (fun _ _ isAfter => isAfter) fun b _ kinds _ isBehind kinds' same => by
    subst same
    exact isBehind

theorem atEnd :
    Yields V Parser.atEnd tokens
      (fun ends rest => rest = tokens ∧ (ends = true → (front tokens).isEnd = true))
      fun _ kinds => kinds = [] :=
  of_done [] rfl rfl .nil ⟨rfl, fun h => h⟩ rfl

/-- A symbol that may be missing. -/
theorem accept (s : Symbol) :
    Yields V (Parser.accept s) tokens (fun found rest => found = false → rest = tokens)
      fun found kinds => kinds = if found then [.symbol s] else [] := by
  by_cases seen : (front tokens).isSymbol s = true
  · obtain ⟨t, rest, rfl, kind⟩ := cons_of_kind (Token.kind_of_isSymbol seen) nofun
    exact of_done (a := true) [t] (by rw [Parser.accept, if_pos seen]; rfl) rfl
      (.singleton (kind ▸ nofun)) nofun (by simp [kind])
  · exact of_done [] (by rw [Parser.accept, if_neg seen]) rfl .nil (fun _ => rfl) rfl

/-- A reserved word that may be missing. -/
theorem acceptWord (k : Keyword) :
    Yields V (Parser.acceptWord k) tokens (fun found rest => found = false → rest = tokens)
      fun found kinds => kinds = if found then [.keyword k] else [] := by
  by_cases seen : (front tokens).isKeyword k = true
  · obtain ⟨t, rest, rfl, kind⟩ := cons_of_kind (Token.kind_of_isKeyword seen) nofun
    exact of_done (a := true) [t] (by rw [Parser.acceptWord, if_pos seen]; rfl) rfl
      (.singleton (kind ▸ nofun)) nofun (by simp [kind])
  · exact of_done [] (by rw [Parser.acceptWord, if_neg seen]) rfl .nil (fun _ => rfl) rfl

/-- A symbol that has to be there. -/
theorem expect (s : Symbol) (spot : ParseError.Spot) :
    Yields V (Parser.expect s spot) tokens (fun _ _ => True) fun _ kinds => kinds = [.symbol s] := by
  by_cases seen : (front tokens).isSymbol s = true
  · obtain ⟨t, rest, rfl, kind⟩ := cons_of_kind (Token.kind_of_isSymbol seen) nofun
    exact of_done [t] (by rw [Parser.expect, if_pos seen]; rfl) rfl
      (.singleton (kind ▸ nofun)) trivial (by simp [kind])
  · have failed : Parser.expect s spot tokens = Parser.fail (.expectedSymbol s spot) tokens := by
      rw [Parser.expect, if_neg seen]
    intro names
    rw [failed]
    exact fail names

/-- A name that has to be there. -/
theorem expectName (role : ParseError.NameRole) :
    Yields V (Parser.expectName role) tokens (fun name _ => V.name name)
      fun name kinds => kinds = [name.kind] := by
  intro names
  unfold Parser.expectName
  simp only
  split
  · rename_i name kind
    obtain ⟨t, rest, rfl, same⟩ := cons_of_kind kind nofun
    refine ⟨[t], rfl, .singleton (same ▸ nofun), fun a ok => ?_⟩
    cases ok
    exact ⟨(names t List.mem_cons_self).name name same, fun _ _ => by simp [Ident.kind, same]⟩
  · exact fail names

/-! ### Phrases and what may be missing -/

theorem phrase {sort : PhraseSort} {p : Phrase sort} (fits : Fits V p tokens) :
    Yields V (Parser.phrase p) tokens (Grammar.Tree V p) (Grammar.Read p) := by
  intro names
  exact ⟨⟨names, fits⟩, fun _ promised => promised⟩

/-- What is parsed only if something is present. -/
theorem optional {present : Parser Bool} {parser : Parser α} {mark : List Kind}
    (first : Yields V present tokens (fun found rest => found = false → rest = tokens)
      fun found kinds => kinds = if found then mark else [])
    (h : ∀ rest, Yields V parser rest Tree Read) :
    Yields V (Parser.optional present parser) tokens
      (fun found _ => ∀ a ∈ found, ∃ rest, Tree a rest)
      fun found kinds => match found with
        | some a => ∃ kinds', Read a kinds' ∧ kinds = mark ++ kinds'
        | none => kinds = [] := by
  refine first.bind fun found rest _ => ite (fun yes => ?_) fun no => ?_
  · refine (h rest).map (fun a rest' isTree a' same => ?_) fun a _ kinds isTree isRead => ?_
    · cases same
      exact ⟨rest', isTree⟩
    · intro kinds' same
      subst same
      simp only [yes, if_true]
      exact ⟨kinds, isRead, rfl⟩
  · refine pure (fun a same => by cases same) fun kinds same => ?_
    simpa [no] using same

/-- What is parsed only if a symbol is not there. -/
theorem unlessAt (s : Symbol) {parser : Parser α} (h : ∀ rest, Yields V parser rest Tree Read) :
    Yields V (Parser.unlessAt s parser) tokens
      (fun found _ => ∀ a ∈ found, ∃ rest, Tree a rest)
      fun found kinds => match found with
        | some a => Read a kinds
        | none => kinds = [] := by
  refine sees.bind fun found rest _ => ite (fun _ => ?_) fun _ => ?_
  · refine pure (fun a same => by cases same) fun kinds same => ?_
    simpa using same
  · refine (h rest).map (fun a rest' isTree a' same => ?_) fun a _ kinds isTree isRead => ?_
    · cases same
      exact ⟨rest', isTree⟩
    · intro kinds' same
      subst same
      exact isRead

/-- Parts of which there may be too many are read as they are. -/
theorem limitTo_bind {count : Nat} {cause : ParseError.Cause} {next : Unit → Parser β}
    (h : Yields V (next ()) tokens After Behind) :
    Yields V (Parser.limitTo count cause >>= next) tokens After Behind := by
  have limit : Yields V (Parser.limitTo count cause) tokens (fun _ rest => rest = tokens)
      fun _ kinds => kinds = [] :=
    look_bind (ite (fun _ => note.mono (fun _ _ same => same) fun _ _ _ _ never => never.elim)
      fun _ => pure rfl rfl)
  refine limit.bind fun _ rest same => ?_
  subst same
  exact h.mono (fun _ _ isAfter => isAfter) fun b _ kinds _ isBehind kinds' same => by
    subst same
    exact isBehind

end Yields

end Parser

end Lox
