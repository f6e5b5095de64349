import Mathlib
import Lox.Proofs.Scope.Violations
import Lox.Proofs.Token.Longest

/-!
# The order of the errors of resolution

The errors of resolution point at tokens of the source.  Mostly they come in the order in which these
stand there, each with a token of its own (`InOrder`), because the places of a tree are visited in the
order in which the parser has read them.

There are two exceptions.  Of an assignment to a property the value is visited before the object, and the
increment of a `for` stands behind the body in the loop that it is parsed into.  Where both parts are at
fault, their errors come in the wrong order (`object_behind_value`, `increment_behind_body`).  A program
without such a place is `Calm`, and its errors come in order (`errors_inOrder`).

What a parser **gathers** (`Parser.Gathers`) are tokens from among those that it takes: the ones that
errors in what it has built may point at.
-/

namespace Lox

/-! ## Spots -/

/-- A line, and what stands there. -/
abbrev Spot : Type := Nat × String

def Token.spot (t : Token) : Spot := (t.line, t.lexeme)

def Ident.spot (name : Ident) : Spot := (name.line, name.lexeme)

def ResolveError.spot (e : ResolveError) : Spot := (e.line, e.lexeme)

/-- The errors point at some of the tokens, no two of them at the same one, and come in their order. -/
def InOrder (errors : List ResolveError) (tokens : List Token) : Prop :=
  (errors.map ResolveError.spot).Sublist (tokens.map Token.spot)

namespace InOrder

variable {errors errors' : List ResolveError} {tokens tokens' : List Token}

theorem nil (tokens : List Token) : InOrder [] tokens := List.nil_sublist _

theorem append (h : InOrder errors tokens) (h' : InOrder errors' tokens') :
    InOrder (errors ++ errors') (tokens ++ tokens') := by
  unfold InOrder
  rw [List.map_append, List.map_append]
  exact List.Sublist.append h h'

theorem mono (h : InOrder errors tokens) (sub : tokens.Sublist tokens') : InOrder errors tokens' :=
  List.Sublist.trans h (sub.map Token.spot)

theorem single {e : ResolveError} (same : tokens.map Token.spot = [e.spot]) : InOrder [e] tokens := by
  rw [InOrder, same]
  exact List.Sublist.refl _

theorem ite {p : Prop} [Decidable p] {e : ResolveError} (same : tokens.map Token.spot = [e.spot]) :
    InOrder (if p then [e] else []) tokens := by
  split
  · exact single same
  · exact nil tokens

/-- A name is declared again where its token stands. -/
theorem redeclared {name : Ident} (declared : List String) (same : tokens.map Token.spot = [name.spot]) :
    InOrder (redeclared declared name) tokens :=
  ite same

/-- Two parts, at most one of which is at fault, may be visited in any order. -/
theorem swap (h : InOrder errors tokens)
    (h' : InOrder errors' tokens') (one : errors' = [] ∨ errors = []) :
    InOrder (errors' ++ errors) (tokens ++ tokens') := by
  rcases one with rfl | rfl
  · exact h.mono (List.sublist_append_left tokens tokens')
  · rw [List.append_nil]
    exact h'.mono (List.sublist_append_right tokens tokens')

/-- What is on no line further up than what stands in front of it. -/
theorem pairwise (h : InOrder errors tokens)
    (sorted : (tokens.map Token.line).Pairwise (· ≤ ·)) :
    (errors.map ResolveError.line).Pairwise (· ≤ ·) := by
  have lines := List.Sublist.map Prod.fst h
  rw [List.map_map, List.map_map] at lines
  exact List.Pairwise.sublist lines sorted

end InOrder

/-! ## Places without an exception -/

/-- No assignment to a property is at fault in both its object and its value, and no loop that may have
been a `for` in both its increment and its body.  That there is no `for` among the tokens is `noFor`. -/
def Node.Calm (noFor : Prop) (path : Path) : Node → Prop
  | .expr (.set object _ value) =>
      Lox.faults (value.places path) = [] ∨ Lox.faults (object.places path) = []
  | .stmt (.loop _ (.block [body, .expression step])) =>
      noFor ∨ Lox.faults (body.places (.block [] :: path)) = [] ∨
        Lox.faults (step.places (.block [body] :: path)) = []
  | _ => True

/-- The faults of the places are in the order of the tokens, if there is no exception among them. -/
def Follows (noFor : Prop) (places : List Node.Place) (tokens : List Token) : Prop :=
  (∀ place ∈ places, place.2.Calm noFor place.1) → InOrder (faults places) tokens

/-- No name is being initialized. -/
def Path.Settled (path : Path) : Prop := ∀ name, path.initializes name = false

theorem Path.Settled.behind {path : Path} (h : path.Settled) (s : Stmt) : (path.behind s).Settled := by
  cases path with
  | nil => exact h
  | cons layer outer =>
    intro name
    rw [← h name]
    cases layer <;> rfl

namespace Follows

variable {noFor : Prop} {places places' : List Node.Place} {tokens tokens' : List Token} {path : Path}
  {n : Node}

theorem nil (tokens : List Token) : Follows noFor [] tokens := fun _ => .nil tokens

theorem mono (h : Follows noFor places tokens) (sub : tokens.Sublist tokens') :
    Follows noFor places tokens' :=
  fun calm => (h calm).mono sub

theorem append (h : Follows noFor places tokens) (h' : Follows noFor places' tokens') :
    Follows noFor (places ++ places') (tokens ++ tokens') := by
  intro calm
  obtain ⟨calm, calm'⟩ := List.forall_mem_append.mp calm
  rw [faults_append]
  exact (h calm).append (h' calm')

/-- A node in front of its parts. -/
theorem cons (first : InOrder (n.faults path) tokens) (h : Follows noFor places tokens') :
    Follows noFor ((path, n) :: places) (tokens ++ tokens') := by
  intro calm
  rw [faults_cons]
  exact first.append (h (List.forall_mem_cons.mp calm).2)

/-- A node without parts. -/
theorem leaf (h : InOrder (n.faults path) tokens) : Follows noFor [(path, n)] tokens := by
  have whole : Follows noFor [(path, n)] (tokens ++ []) := cons h (.nil [])
  rwa [List.append_nil] at whole

/-- A node with which nothing is wrong by itself. -/
theorem quiet (none : n.faults path = []) (h : Follows noFor places tokens) :
    Follows noFor ((path, n) :: places) tokens := by
  have first : InOrder (n.faults path) [] := none ▸ .nil []
  exact cons first h

/-- The parts of a node are in order if the node is. -/
theorem tail (h : Follows noFor ((path, n) :: places) tokens) (none : n.faults path = [])
    (calm : n.Calm noFor path) : Follows noFor places tokens := by
  intro rest
  have whole := h (List.forall_mem_cons.mpr ⟨calm, rest⟩)
  rwa [faults_cons, none, List.nil_append] at whole

theorem set {object value : Expr} (name : Ident) (h : Follows noFor (object.places path) tokens)
    (h' : Follows noFor (value.places path) tokens') :
    Follows noFor ((Expr.set object name value).places path) (tokens ++ tokens') := by
  intro calm
  rw [Expr.places] at calm ⊢
  obtain ⟨one, parts⟩ := List.forall_mem_cons.mp calm
  obtain ⟨calm', calm⟩ := List.forall_mem_append.mp parts
  rw [faults_cons, faults_append]
  exact (h calm).swap (h' calm') one

theorem assign {target : Reference} {value : Expr} (h : Follows noFor (value.places path) tokens) :
    Follows noFor ((Expr.assign target value).places path) tokens := by
  rw [Expr.places]
  exact quiet rfl h

theorem combine {c : Connective} {t : Token} {left right : Expr}
    (h : Follows noFor (left.places path) tokens) (h' : Follows noFor (right.places path) tokens') :
    Follows noFor ((c.combine t left right).places path) (tokens ++ tokens') := by
  cases c with
  | binary op =>
    rw [Connective.combine, Expr.places]
    exact quiet rfl (h.append h')
  | logical op =>
    rw [Connective.combine, Expr.places]
    exact quiet rfl (h.append h')

theorem call {callee : Expr} {arguments : List Expr} {line : Nat}
    (h : Follows noFor (callee.places path) tokens)
    (h' : Follows noFor (Expr.placesAll path arguments) tokens') :
    Follows noFor ((Expr.call callee arguments line).places path) (tokens ++ tokens') := by
  rw [Expr.places]
  exact quiet rfl (h.append h')

theorem get {object : Expr} {name : Ident} :
    Follows noFor ((Expr.get object name).places path) tokens ↔
      Follows noFor (object.places path) tokens := by
  rw [Expr.places]
  exact ⟨fun h => h.tail rfl trivial, quiet rfl⟩

end Follows

section

variable {noFor : Prop} {tokens tokens' : List Token}

/-- Wherever the statement stands, its places are in the order of the tokens. -/
def Stmt.Orderly (noFor : Prop) (s : Stmt) (tokens : List Token) : Prop :=
  ∀ path : Path, path.Settled → Follows noFor (s.places path) tokens

theorem Stmt.Orderly.loop {condition : Expr} {body : Stmt}
    (h : ∀ path, Follows noFor (condition.places path) tokens)
    (h' : ∀ path : Path, path.Settled → Node.Calm noFor path (.stmt (.loop condition body)) →
      Follows noFor (body.places path) tokens') :
    (Stmt.loop condition body).Orderly noFor (tokens ++ tokens') := by
  intro path settled all
  rw [Stmt.places] at all ⊢
  exact ((h path).append (h' path settled (List.forall_mem_cons.mp all).1)).quiet rfl all

/-- Statements in a block of their own. -/
theorem Stmt.Orderly.block {first second : Stmt} (h : first.Orderly noFor tokens)
    (h' : second.Orderly noFor tokens') :
    (Stmt.block [first, second]).Orderly noFor (tokens ++ tokens') := by
  intro path settled
  rw [Stmt.places, Stmt.placesAll, Stmt.placesAll, Stmt.placesAll, List.append_nil]
  have inside : Path.Settled (.block [] :: path) := settled
  exact .quiet rfl ((h _ inside).append (h' _ (inside.behind first)))

/-- The body of a loop with an increment behind it, which stands in front of it in the source. -/
theorem Follows.stepped {body : Stmt} {step : Expr} {path : Path} (settled : path.Settled)
    (one : faults (body.places (.block [] :: path)) = [] ∨
      faults (step.places (.block [body] :: path)) = [])
    (h : ∀ path, Follows noFor (step.places path) tokens) (h' : body.Orderly noFor tokens') :
    Follows noFor ((Stmt.block [body, .expression step]).places path) (tokens ++ tokens') := by
  rw [Stmt.places, Stmt.placesAll, Stmt.placesAll, Stmt.placesAll, List.append_nil, Stmt.places]
  -- The body is visited first, and its tokens stand behind those of the increment.
  intro all
  obtain ⟨inBody, inStep⟩ := List.forall_mem_append.mp (List.forall_mem_cons.mp all).2
  rw [faults_cons, faults_append, faults_cons]
  exact (h _ (List.forall_mem_cons.mp inStep).2).swap (h' _ settled inBody) one

theorem Stmt.Orderly.forLoop (isFor : ¬noFor) {initial : Option Stmt} {condition increment : Option Expr}
    {body : Stmt} {used used₁ used₂ used₃ : List Token} (keeps : ∀ s ∈ initial, s.Orderly noFor used)
    (follows : ∀ e ∈ condition, ∀ path, Follows noFor (e.places path) used₁)
    (follows' : ∀ e ∈ increment, ∀ path, Follows noFor (e.places path) used₂)
    (keeps' : body.Orderly noFor used₃) :
    (Parser.forLoop initial condition increment body).Orderly noFor
      (used ++ (used₁ ++ (used₂ ++ used₃))) := by
  have test path : Follows noFor ((condition.getD (.literal (.boolean true))).places path) used₁ := by
    cases condition with
    | none =>
      rw [Option.getD_none, Expr.places]
      exact .quiet rfl (.nil used₁)
    | some condition => exact follows condition rfl path
  have loop : (Parser.forLoop none condition increment body).Orderly noFor (used₁ ++ (used₂ ++ used₃)) := by
    refine .loop test fun path settled calm => ?_
    cases increment with
    | none => exact (keeps' path settled).mono (List.sublist_append_right used₂ used₃)
    | some step => exact .stepped settled (calm.resolve_left isFor) (follows' step rfl) keeps'
  cases initial with
  | none => exact fun path settled => (loop path settled).mono (List.sublist_append_right used _)
  | some first => exact (keeps first rfl).block loop

end

/-! ## Parsers that keep the order -/

/-- The token is no `for` if there should be none. -/
def Token.Regular (noFor : Prop) (t : Token) : Prop := noFor → t.kind ≠ .keyword .for_

namespace Grammar

variable (noFor : Prop)

/-- What is built for a phrase from the tokens gathered is in their order.  What a phrase begins with has
been gathered before. -/
def Shows : {sort : PhraseSort} → Phrase sort → sort.Tree → List Token → Prop
  | _, .expression, e, used => ∀ path, Follows noFor (e.places path) used
  | _, .operation _, e, used => ∀ path, Follows noFor (e.places path) used
  | _, .operators _ left, e, used => ∀ path before, Follows noFor (left.places path) before →
      Follows noFor (e.places path) (before ++ used)
  | _, .unary, e, used => ∀ path, Follows noFor (e.places path) used
  | _, .accesses object, e, used => ∀ path before, Follows noFor (object.places path) before →
      Follows noFor (e.places path) (before ++ used)
  | _, .primary, e, used => ∀ path, Follows noFor (e.places path) used
  | _, .arguments _, es, used => ∀ path, Follows noFor (Expr.placesAll path es) used
  | _, .parameters _, names, used => ∀ declared, InOrder (repeated declared names) used
  | _, .statement, s, used => s.Orderly noFor used
  | _, .declaration, s, used =>
      ∀ path, path.Settled → Follows noFor (Stmt.placesAll path s.toList) used
  | _, .declarations _, ss, used => ∀ path, path.Settled → Follows noFor (Stmt.placesAll path ss) used
  | _, .methods, fs, used => ∀ path, Follows noFor (Function.placesAll path fs) used

end Grammar

namespace Parser

open Grammar

variable {noFor : Prop} {α β : Type}

/-- An outcome leaves an end of the tokens, and what it builds shows some of those in front of it. -/
def Gathered (Read : α → List Token → Prop) (tokens : List Token) (outcome : Outcome α) : Prop :=
  ∃ taken, tokens = taken ++ outcome.rest ∧
    ∀ a, outcome.result = .ok a → ∃ used, used.Sublist taken ∧ Read a used

/-- Run from `tokens`, the parser gathers tokens from among those that it takes, of which `Read` holds. -/
def Gathers (noFor : Prop) (parser : Parser α) (tokens : List Token) (Read : α → List Token → Prop) :
    Prop :=
  (∀ t ∈ tokens, t.Regular noFor) →
    (parser tokens).Ensures (fun _ q => ∀ t ∈ q.tokens, t.Regular noFor)
      (fun _ q outcome => Gathered (Shows noFor q.phrase) q.tokens outcome) (Gathered Read tokens)

namespace Gathers

variable {tokens : List Token} {Read Read' : α → List Token → Prop} {After : β → List Token → Prop}

/-- A parser that is done at once. -/
theorem of_done {parser : Parser α} {a : α} {noted : List ParseError} {rest : List Token}
    (taken used : List Token) (done : parser tokens = .done ⟨.ok a, noted, rest⟩)
    (split : tokens = taken ++ rest) (sub : used.Sublist taken) (read : Read a used) :
    Gathers noFor parser tokens Read := by
  intro _
  rw [done]
  refine ⟨taken, split, fun a' ok => ?_⟩
  cases ok
  exact ⟨used, sub, read⟩

theorem pure {a : α} (read : Read a []) : Gathers noFor (Pure.pure a : Parser α) tokens Read :=
  of_done [] [] rfl rfl (List.Sublist.refl _) read

theorem fail (cause : ParseError.Cause) :
    Gathers noFor (Parser.fail cause : Parser α) tokens Read := by
  intro _
  exact ⟨[], rfl, nofun⟩

theorem mono {parser : Parser α} (h : Gathers noFor parser tokens Read)
    (imp : ∀ a used, Read a used → Read' a used) : Gathers noFor parser tokens Read' := by
  intro regular
  refine (h regular).mono (fun _ _ asked => asked) fun outcome ⟨taken, split, built⟩ => ?_
  refine ⟨taken, split, fun a ok => ?_⟩
  obtain ⟨used, sub, read⟩ := built a ok
  exact ⟨used, sub, imp a used read⟩

/-- **Sequences.**  What the second parser gathers stands behind what the first one has gathered. -/
theorem bind {parser : Parser α} {next : α → Parser β} (h : Gathers noFor parser tokens Read)
    (h' : ∀ a used rest, Read a used →
      Gathers noFor (next a) rest fun b more => After b (used ++ more)) :
    Gathers noFor (parser >>= next) tokens After := by
  intro regular
  refine Plan.Ensures.bind (h regular) fun outcome ⟨taken, split, built⟩ => ?_
  split
  · exact ⟨taken, split, nofun⟩
  · rename_i a ok
    obtain ⟨used, sub, read⟩ := built a ok
    have regular' : ∀ t ∈ outcome.rest, t.Regular noFor := fun t mem =>
      regular t (split ▸ List.mem_append_right taken mem)
    refine Plan.Ensures.bind (h' a used outcome.rest read regular')
      fun second ⟨taken', split', built'⟩ => ?_
    refine ⟨taken ++ taken', by rw [split, split', List.append_assoc], fun b ok' => ?_⟩
    obtain ⟨more, sub', after⟩ := built' b ok'
    exact ⟨used ++ more, List.Sublist.append sub sub', after⟩

/-- A parser of which no token is needed. -/
theorem quiet_bind {parser : Parser α} {next : α → Parser β}
    (h : Gathers noFor parser tokens fun _ used => used = [])
    (h' : ∀ a rest, Gathers noFor (next a) rest After) :
    Gathers noFor (parser >>= next) tokens After :=
  h.bind fun a used rest none => by
    subst none
    exact h' a rest

theorem map {f : α → β} {parser : Parser α} (h : Gathers noFor parser tokens Read)
    (imp : ∀ a used, Read a used → After (f a) used) : Gathers noFor (f <$> parser) tokens After :=
  h.bind fun a used _ read => pure (by rw [List.append_nil]; exact imp a used read)

theorem ite {p : Prop} [Decidable p] {yes no : Parser α} (h : p → Gathers noFor yes tokens Read)
    (h' : ¬p → Gathers noFor no tokens Read) : Gathers noFor (if p then yes else no) tokens Read := by
  split
  · rename_i holds; exact h holds
  · rename_i fails; exact h' fails

/-! ### Single tokens -/

theorem look_bind {next : Token → Parser β} (h : Gathers noFor (next (front tokens)) tokens After) :
    Gathers noFor (Parser.look >>= next) tokens After := by
  have looked : (Parser.look >>= next) tokens = next (front tokens) tokens := Plan.bind_done _
  unfold Gathers
  rw [looked]
  exact h

theorem note (t : Token) (cause : ParseError.Cause) :
    Gathers noFor (Parser.note t cause) tokens fun _ used => used = [] :=
  of_done [] [] rfl rfl (List.Sublist.refl _) rfl

theorem sees (s : Symbol) : Gathers noFor (Parser.sees s) tokens fun _ used => used = [] :=
  of_done [] [] rfl rfl (List.Sublist.refl _) rfl

theorem seesNameSecond : Gathers noFor Parser.seesNameSecond tokens fun _ used => used = [] :=
  of_done [] [] rfl rfl (List.Sublist.refl _) rfl

theorem atEnd : Gathers noFor Parser.atEnd tokens fun _ used => used = [] :=
  of_done [] [] rfl rfl (List.Sublist.refl _) rfl

/-- A token is dropped, if there is one. -/
theorem of_dropped {parser : Parser α} {a : α}
    (done : parser tokens = .done ⟨.ok a, [], tokens.drop 1⟩) :
    Gathers noFor parser tokens fun _ used => used = [] :=
  of_done (tokens.take 1) [] done (List.take_append_drop 1 tokens).symm (List.nil_sublist _) rfl

theorem skip : Gathers noFor Parser.skip tokens fun _ used => used = [] := of_dropped rfl

/-- A token of which the spot matters is taken. -/
theorem skip_front {next : Unit → Parser β} {kind : Kind} (same : (front tokens).kind = kind)
    (ne : kind ≠ .endOfInput)
    (h : ∀ rest, (front tokens).Regular noFor →
      Gathers noFor (next ()) rest fun b more => After b (front tokens :: more)) :
    Gathers noFor (Parser.skip >>= next) tokens After := by
  intro regular
  cases tokens with
  | nil => exact absurd same.symm ne
  | cons t rest =>
    have first : Gathers noFor Parser.skip (t :: rest) fun _ used => used = [t] :=
      of_done [t] [t] rfl rfl (List.Sublist.refl _) rfl
    refine first.bind (fun _ used rest' isFirst => ?_) regular
    subst isFirst
    exact h rest' (regular t List.mem_cons_self)

theorem accept (s : Symbol) : Gathers noFor (Parser.accept s) tokens fun _ used => used = [] := by
  by_cases seen : (front tokens).isSymbol s = true
  · exact of_dropped (by rw [Parser.accept, if_pos seen])
  · exact of_done [] [] (by rw [Parser.accept, if_neg seen]) rfl (List.Sublist.refl _) rfl

theorem acceptWord (k : Keyword) :
    Gathers noFor (Parser.acceptWord k) tokens fun _ used => used = [] := by
  by_cases seen : (front tokens).isKeyword k = true
  · exact of_dropped (by rw [Parser.acceptWord, if_pos seen])
  · exact of_done [] [] (by rw [Parser.acceptWord, if_neg seen]) rfl (List.Sublist.refl _) rfl

theorem expect (s : Symbol) (spot : ParseError.Spot) :
    Gathers noFor (Parser.expect s spot) tokens fun _ used => used = [] := by
  by_cases seen : (front tokens).isSymbol s = true
  · exact of_dropped (by rw [Parser.expect, if_pos seen])
  · have failed : Parser.expect s spot tokens = Parser.fail (.expectedSymbol s spot) tokens := by
      rw [Parser.expect, if_neg seen]
    intro regular
    rw [failed]
    exact fail _ regular

/-- The spot of a name is that of its token. -/
theorem expectName (role : ParseError.NameRole) :
    Gathers noFor (Parser.expectName role) tokens
      fun name used => used.map Token.spot = [name.spot] := by
  intro regular
  unfold Parser.expectName
  simp only
  split
  · rename_i name kind
    obtain ⟨t, rest, rfl, same⟩ := Yields.cons_of_kind kind nofun
    refine ⟨[t], rfl, fun a ok => ⟨[t], List.Sublist.refl _, ?_⟩⟩
    cases ok
    rfl
  · exact fail _ regular

/-! ### Phrases and what may be missing -/

theorem phrase {sort : PhraseSort} (p : Phrase sort) :
    Gathers noFor (Parser.phrase p) tokens (Shows noFor p) :=
  fun regular => ⟨regular, fun _ gathered => gathered⟩

theorem optional {present : Parser Bool} {parser : Parser α}
    (first : Gathers noFor present tokens fun _ used => used = [])
    (h : ∀ rest, Gathers noFor parser rest Read) :
    Gathers noFor (Parser.optional present parser) tokens fun found used => ∀ a ∈ found, Read a used := by
  refine first.quiet_bind fun found rest => ite (fun _ => ?_) fun _ => pure nofun
  exact (h rest).map fun a used read a' same => by
    cases same
    exact read

theorem unlessAt (s : Symbol) {parser : Parser α} (h : ∀ rest, Gathers noFor parser rest Read) :
    Gathers noFor (Parser.unlessAt s parser) tokens fun found used => ∀ a ∈ found, Read a used := by
  refine (sees s).quiet_bind fun found rest => ite (fun _ => pure nofun) fun _ => ?_
  exact (h rest).map fun a used read a' same => by
    cases same
    exact read

theorem limitTo (count : Nat) (cause : ParseError.Cause) :
    Gathers noFor (Parser.limitTo count cause) tokens fun _ used => used = [] :=
  look_bind (ite (fun _ => note _ _) fun _ => pure rfl)

/-! ### Functions -/

theorem parameters : Gathers noFor Parser.parameters tokens
    fun names used => ∀ declared, InOrder (repeated declared names) used := by
  refine (unlessAt _ fun _ => phrase (.parameters 0)).bind fun names used rest shows => ?_
  refine (expect _ _).quiet_bind fun _ rest => pure fun declared => ?_
  rw [List.append_nil]
  cases names with
  | none => exact .nil used
  | some names => exact shows names rfl declared

theorem block : Gathers noFor Parser.block tokens
    fun body used => ∀ path : Path, path.Settled → Follows noFor (Stmt.placesAll path body) used := by
  refine (phrase (.declarations true)).bind fun body used rest shows => ?_
  refine (expect _ _).quiet_bind fun _ rest => pure ?_
  rw [List.append_nil]
  exact shows

theorem functionFrom (sort : FunctionSort) (name : FunctionName) :
    Gathers noFor (Parser.functionFrom sort name) tokens fun f used =>
      f.name = name ∧ ∀ path isMethod, Follows noFor (f.places path isMethod) used := by
  refine parameters.bind fun names used rest inOrder => ?_
  refine (expect _ _).quiet_bind fun _ rest => ?_
  refine block.bind fun body used' rest follows => pure ⟨rfl, fun path isMethod => ?_⟩
  rw [List.append_nil, Function.places]
  exact .cons (inOrder []) (follows _ fun _ => by rw [Path.initializes])

/-- The name of a function stands in front of the rest of it. -/
theorem namedFunction (sort : FunctionSort) :
    Gathers noFor (Parser.namedFunction sort) tokens fun f used =>
      ∃ name first rest, used = first ++ rest ∧ f.name = .named name ∧
        first.map Token.spot = [name.spot] ∧
        ∀ path isMethod, Follows noFor (f.places path isMethod) rest := by
  refine (expectName _).bind fun name used rest spot => ?_
  refine (expect _ _).quiet_bind fun _ rest => ?_
  exact (functionFrom _ _).mono fun f used' ⟨named, follows⟩ =>
    ⟨name, used, used', rfl, named, spot, follows⟩

/-! ### Statements -/

theorem classDeclaration :
    Gathers noFor Parser.classDeclaration tokens fun s used => s.Orderly noFor used := by
  refine (expectName _).bind fun name used rest spot => ?_
  refine (optional (accept _) fun _ => expectName _).bind fun superclass used' rest spot' => ?_
  refine (expect _ _).quiet_bind fun _ rest => ?_
  refine (phrase .methods).bind fun methods more rest follows => ?_
  refine (expect _ _).quiet_bind fun _ rest => pure fun path settled => ?_
  rw [List.append_nil, Stmt.places, ← List.append_assoc]
  refine .cons ((InOrder.redeclared _ spot).append ?_) ?_
  · cases superclass with
    | none => exact .nil used'
    | some superclass =>
      exact .ite (spot' superclass rfl)
  · cases superclass with
    | none => exact follows _
    | some superclass =>
      have ready : path.initializes superclass.lexeme = false := settled _
      exact .quiet (by simp [Node.faults, ready]) (follows _)

theorem varDeclaration :
    Gathers noFor Parser.varDeclaration tokens fun s used => s.Orderly noFor used := by
  refine (expectName _).bind fun name used rest spot => ?_
  refine (optional (accept _) fun _ => phrase .expression).bind fun initial used' rest follows => ?_
  refine (expect _ _).quiet_bind fun _ rest => pure fun path _ => ?_
  rw [List.append_nil]
  cases initial with
  | none =>
    rw [Stmt.places]
    exact .cons (.redeclared _ spot) (.nil used')
  | some initial =>
    rw [Stmt.places]
    exact .cons (.redeclared _ spot) (follows initial rfl _)

theorem expressionStatement :
    Gathers noFor Parser.expressionStatement tokens fun s used => s.Orderly noFor used := by
  refine (phrase .expression).bind fun value used rest follows => ?_
  refine (expect _ _).quiet_bind fun _ rest => pure fun path _ => ?_
  rw [List.append_nil, Stmt.places]
  exact .quiet rfl (follows path)

theorem ifStatement : Gathers noFor Parser.ifStatement tokens fun s used => s.Orderly noFor used := by
  refine (expect _ _).quiet_bind fun _ rest => ?_
  refine (phrase .expression).bind fun condition used rest follows => ?_
  refine (expect _ _).quiet_bind fun _ rest => ?_
  refine (phrase .statement).bind fun yes used' rest keeps => ?_
  refine (optional (acceptWord _) fun _ => phrase .statement).bind fun no more rest keeps' =>
    pure fun path settled => ?_
  rw [List.append_nil]
  cases no with
  | none =>
    rw [Stmt.places]
    refine .quiet rfl ((follows path).append ((keeps path settled).mono ?_))
    exact List.sublist_append_left used' more
  | some no =>
    rw [Stmt.places]
    exact .quiet rfl ((follows path).append ((keeps path settled).append (keeps' no rfl path settled)))

theorem whileStatement :
    Gathers noFor Parser.whileStatement tokens fun s used => s.Orderly noFor used := by
  refine (expect _ _).quiet_bind fun _ rest => ?_
  refine (phrase .expression).bind fun condition used rest follows => ?_
  refine (expect _ _).quiet_bind fun _ rest => ?_
  refine (phrase .statement).bind fun body used' rest keeps => pure fun path settled => ?_
  rw [List.append_nil, Stmt.places]
  exact .quiet rfl ((follows path).append (keeps path settled))

theorem forInitializer :
    Gathers noFor Parser.forInitializer tokens fun first used => ∀ s ∈ first, s.Orderly noFor used := by
  refine (accept _).quiet_bind fun none rest => ite (fun _ => pure nofun) fun _ => ?_
  refine (acceptWord _).quiet_bind fun declares rest => ite (fun _ => ?_) fun _ => ?_
  · exact varDeclaration.map fun s used keeps s' same => by
      cases same
      exact keeps
  · exact expressionStatement.map fun s used keeps s' same => by
      cases same
      exact keeps

theorem forStatement (isFor : ¬noFor) :
    Gathers noFor Parser.forStatement tokens fun s used => s.Orderly noFor used := by
  refine (expect _ _).quiet_bind fun _ rest => ?_
  refine forInitializer.bind fun initial used rest keeps => ?_
  refine (unlessAt _ fun _ => phrase .expression).bind fun condition used₁ rest follows => ?_
  refine (expect _ _).quiet_bind fun _ rest => ?_
  refine (unlessAt _ fun _ => phrase .expression).bind fun increment used₂ rest follows' => ?_
  refine (expect _ _).quiet_bind fun _ rest => ?_
  refine (phrase .statement).bind fun body used₃ rest keeps' => pure ?_
  rw [List.append_nil]
  exact Stmt.Orderly.forLoop isFor keeps follows follows' keeps'

theorem returnStatement (t : Token) :
    Gathers noFor (Parser.returnStatement t.word) tokens
      fun s used => s.Orderly noFor (t :: used) := by
  refine (unlessAt _ fun _ => phrase .expression).bind fun value used rest follows => ?_
  refine (expect _ _).quiet_bind fun _ rest => pure fun path settled => ?_
  rw [List.append_nil]
  have first : InOrder (Node.faults path (.stmt (.return_ t.word value))) [t] := by
    rw [Node.faults]
    cases path.function with
    | none => exact .single rfl
    | some around => exact .ite rfl
  cases value with
  | none =>
    rw [Stmt.places]
    exact .cons first (.nil used)
  | some value =>
    rw [Stmt.places]
    exact .cons first (follows value rfl path)

theorem printStatement (line : Nat) :
    Gathers noFor (Parser.printStatement line) tokens fun s used => s.Orderly noFor used := by
  refine (phrase .expression).bind fun value used rest follows => ?_
  refine (expect _ _).quiet_bind fun _ rest => pure fun path _ => ?_
  rw [List.append_nil, Stmt.places]
  exact .quiet rfl (follows path)

theorem statement : Gathers noFor Parser.statement tokens fun s used => s.Orderly noFor used := by
  refine look_bind ?_
  split
  · exact skip.quiet_bind fun _ _ => ifStatement
  · exact skip.quiet_bind fun _ _ => printStatement _
  · rename_i kind
    exact skip_front kind (by simp) fun _ _ => returnStatement _
  · refine skip.quiet_bind fun _ rest => ?_
    refine block.bind fun body used rest follows => pure fun path settled => ?_
    rw [List.append_nil, Stmt.places]
    exact .quiet rfl (follows _ settled)
  · exact skip.quiet_bind fun _ _ => whileStatement
  · rename_i kind
    refine skip_front kind (by simp) fun _ regular => ?_
    exact (forStatement fun noFor => regular noFor kind).mono fun s used keeps path settled =>
      (keeps path settled).mono (List.sublist_cons_self _ _)
  · exact expressionStatement

theorem declare : Gathers noFor Parser.declare tokens fun s used => s.Orderly noFor used := by
  refine look_bind ?_
  split
  · exact skip.quiet_bind fun _ _ => classDeclaration
  · refine seesNameSecond.quiet_bind fun named rest => ite (fun _ => ?_) fun _ => phrase .statement
    refine skip.quiet_bind fun _ rest => (namedFunction _).map fun f used shows path _ => ?_
    obtain ⟨name, first, rest, rfl, named, spot, follows⟩ := shows
    rw [Stmt.places]
    refine .cons ?_ (follows path false)
    rw [Node.faults, named]
    exact .redeclared _ spot
  · exact skip.quiet_bind fun _ _ => varDeclaration
  · exact phrase .statement

/-! ### Expressions -/

/-- What is parsed is a target and a value, or it is no target and the value is dropped. -/
theorem assignTo {target value : Expr} (equals : Token) {used used' : List Token}
    (h : ∀ path, Follows noFor (target.places path) used)
    (h' : ∀ path, Follows noFor (value.places path) used') :
    Gathers noFor (Parser.assignTo target equals value) tokens
      fun e more => ∀ path, Follows noFor (e.places path) (used ++ (used' ++ more)) := by
  have dropped : (used ++ used').Sublist (used ++ (used' ++ [])) := by rw [List.append_nil]
  unfold Parser.assignTo
  split
  · refine pure fun path => ?_
    exact ((h' path).mono (List.sublist_append_right used used')).assign.mono dropped
  · exact pure fun path => (Follows.set _ (Follows.get.mp (h path)) (h' path)).mono dropped
  · refine (note _ _).quiet_bind fun _ rest => pure fun path => ?_
    exact ((h path).mono (List.sublist_append_left used used')).mono dropped

theorem primary : Gathers noFor Parser.primary tokens
    fun e used => ∀ path, Follows noFor (e.places path) used := by
  have literal (value : Literal) path : Follows noFor ((Expr.literal value).places path) [] := by
    rw [Expr.places]
    exact .quiet rfl (.nil [])
  refine look_bind ?_
  split
  · exact skip.quiet_bind fun _ _ => pure (literal _)
  · exact skip.quiet_bind fun _ _ => pure (literal _)
  · exact skip.quiet_bind fun _ _ => pure (literal _)
  · exact skip.quiet_bind fun _ _ => pure (literal _)
  · exact skip.quiet_bind fun _ _ => pure (literal _)
  · rename_i kind
    refine skip_front kind (by simp) fun rest _ => pure fun path => ?_
    rw [Expr.places]
    refine .leaf ?_
    rw [Node.faults]
    exact .ite rfl
  · rename_i kind
    refine skip_front kind (by simp) fun rest _ => pure fun path => ?_
    rw [Expr.places]
    refine .leaf ?_
    rw [Node.faults]
    cases path.superclass with
    | none => exact .single rfl
    | some _ => exact .nil _
  · rename_i kind
    refine skip_front kind (by simp) fun rest _ => ?_
    refine (expect _ _).quiet_bind fun _ rest => ?_
    refine (expectName _).bind fun name used rest _ => pure fun path => ?_
    rw [Expr.places]
    refine .mono (.leaf ?_) (List.sublist_append_left [front tokens] _)
    rw [Node.faults]
    cases path.superclass with
    | none => exact .single rfl
    | some superclass =>
      cases superclass with
      | none => exact .single rfl
      | some _ => exact .nil _
  · refine skip.quiet_bind fun _ rest => ?_
    refine (expect _ _).quiet_bind fun _ rest => ?_
    refine (functionFrom _ _).map fun f used shows path => ?_
    rw [Expr.places]
    exact .quiet rfl (shows.2 path false)
  · refine skip.quiet_bind fun _ rest => ?_
    refine (phrase .expression).bind fun inner used rest follows => ?_
    refine (expect _ _).quiet_bind fun _ rest => pure fun path => ?_
    rw [List.append_nil, Expr.places]
    exact .quiet rfl (follows path)
  · exact fail _

theorem callOf (callee : Expr) : Gathers noFor (Parser.callOf callee) tokens fun e used =>
    ∀ path before, Follows noFor (callee.places path) before →
      Follows noFor (e.places path) (before ++ used) := by
  refine (unlessAt _ fun _ => phrase (.arguments 0)).bind fun arguments used rest follows => ?_
  refine (expect _ _).quiet_bind fun paren rest => pure fun path before callee => ?_
  rw [List.append_nil]
  refine callee.call ?_
  cases arguments with
  | none => exact .nil used
  | some arguments => exact follows arguments rfl path

/-! ### Phrases -/

theorem expression : Gathers noFor Phrase.expression.parser tokens (Shows noFor .expression) := by
  refine (phrase (.operation Level.or)).bind fun target used rest follows => ?_
  refine look_bind ((accept _).quiet_bind fun assigns rest => ite (fun _ => ?_) fun _ => ?_)
  · exact (phrase .expression).bind fun value used' rest follows' => assignTo _ follows follows'
  · exact pure (by rw [List.append_nil]; exact follows)

theorem operation (level : Nat) :
    Gathers noFor (Phrase.operation level).parser tokens (Shows noFor (.operation level)) := by
  refine (phrase .unary).bind fun left used rest follows => ?_
  exact (phrase (.operators level left)).mono fun e more continues path =>
    continues path used (follows path)

theorem operators (level : Nat) (left : Expr) :
    Gathers noFor (Phrase.operators level left).parser tokens (Shows noFor (.operators level left)) := by
  have stays : Shows noFor (.operators level left) left [] := fun path before follows => by
    rwa [List.append_nil]
  refine look_bind ?_
  split
  · exact pure stays
  · refine ite (fun _ => ?_) fun _ => pure stays
    refine skip.quiet_bind fun _ rest => ?_
    refine (phrase _).bind fun right used rest follows => ?_
    refine (phrase (.operators level _)).mono fun e more continues path before followsLeft => ?_
    rw [← List.append_assoc]
    exact continues path (before ++ used) (followsLeft.combine (follows path))

theorem unary : Gathers noFor Phrase.unary.parser tokens (Shows noFor .unary) := by
  refine look_bind ?_
  split
  · refine skip.quiet_bind fun _ rest => ?_
    refine (phrase .unary).bind fun operand used rest follows => pure fun path => ?_
    rw [List.append_nil, Expr.places]
    exact .quiet rfl (follows path)
  · refine (phrase .primary).bind fun object used rest follows => ?_
    exact (phrase (.accesses object)).mono fun e more continues path =>
      continues path used (follows path)

theorem accesses (object : Expr) :
    Gathers noFor (Phrase.accesses object).parser tokens (Shows noFor (.accesses object)) := by
  refine (accept _).quiet_bind fun calls rest => ite (fun _ => ?_) fun _ => ?_
  · refine (callOf object).bind fun call used rest callee => ?_
    refine (phrase (.accesses call)).mono fun e more continues path before follows => ?_
    rw [← List.append_assoc]
    exact continues path (before ++ used) (callee path before follows)
  · refine (accept _).quiet_bind fun gets rest => ite (fun _ => ?_) fun _ => pure fun path before h => ?_
    · refine (expectName _).bind fun name used rest _ => ?_
      refine (phrase (.accesses (.get object name))).mono fun e more continues path before follows => ?_
      have whole := continues path before (Follows.get.mpr follows)
      exact whole.mono ((List.Sublist.refl before).append (List.sublist_append_right used more))
    · rwa [List.append_nil]

theorem arguments (count : Nat) :
    Gathers noFor (Phrase.arguments count).parser tokens (Shows noFor (.arguments count)) := by
  refine (limitTo _ _).quiet_bind fun _ rest => ?_
  refine (phrase .expression).bind fun argument used rest follows => ?_
  refine (accept _).quiet_bind fun more rest => ite (fun _ => ?_) fun _ => ?_
  · refine (phrase (.arguments (count + 1))).bind fun others used' rest follows' => pure fun path => ?_
    rw [List.append_nil, Expr.placesAll]
    exact (follows path).append (follows' path)
  · refine pure fun path => ?_
    rw [Expr.placesAll]
    exact (follows path).append (.nil [])

/-- Parameters are declared one after the other. -/
theorem parametersFrom (count : Nat) :
    Gathers noFor (Phrase.parameters count).parser tokens (Shows noFor (.parameters count)) := by
  refine (limitTo _ _).quiet_bind fun _ rest => ?_
  refine (expectName _).bind fun name used rest spot => ?_
  refine (accept _).quiet_bind fun more rest => ite (fun _ => ?_) fun _ => ?_
  · refine (phrase (.parameters (count + 1))).bind fun names used' rest inOrder =>
      pure fun declared => ?_
    rw [List.append_nil]
    exact (InOrder.redeclared declared spot).append (inOrder _)
  · exact pure fun declared => (InOrder.redeclared declared spot).append (.nil [])

/-- Nothing is gathered from a declaration with a mistake in it. -/
theorem declaration : Gathers noFor Phrase.declaration.parser tokens (Shows noFor .declaration) := by
  intro regular
  refine Plan.Ensures.bind (declare regular) fun outcome ⟨taken, split, built⟩ => ?_
  split
  · rename_i s ok
    obtain ⟨used, sub, keeps⟩ := built s ok
    refine ⟨taken, split, fun found same => ⟨used, sub, fun path settled => ?_⟩⟩
    cases same
    show Follows noFor (Stmt.placesAll path [s]) used
    rw [Stmt.placesAll, Stmt.placesAll, List.append_nil]
    exact keeps path settled
  · obtain ⟨skipped, resumes, -⟩ := Phrase.exists_skipped_of_afterMistake outcome.rest
    refine ⟨taken ++ skipped, ?_, fun found same => ⟨[], List.nil_sublist _, ?_⟩⟩
    · rw [List.append_assoc, resumes, split]
    · cases same
      exact fun _ _ => .nil []

theorem declarations (inBlock : Bool) :
    Gathers noFor (Phrase.declarations inBlock).parser tokens (Shows noFor (.declarations inBlock)) := by
  have none : Shows noFor (.declarations inBlock) [] [] := fun _ _ => .nil []
  refine (sees _).quiet_bind fun closing rest => ?_
  refine atEnd.quiet_bind fun ends rest => ite (fun _ => pure none) fun _ => ?_
  refine ite (fun _ => pure none) fun _ => ?_
  refine (phrase .declaration).bind fun first used rest keeps => ?_
  refine (phrase (.declarations inBlock)).bind fun others used' rest keeps' =>
    pure fun path settled => ?_
  rw [List.append_nil]
  cases first with
  | none => exact (keeps' path settled).mono (List.sublist_append_right used used')
  | some first =>
    have keeps : Follows noFor (Stmt.placesAll path [first]) used := keeps path settled
    rw [Stmt.placesAll, Stmt.placesAll, List.append_nil] at keeps
    show Follows noFor (Stmt.placesAll path (first :: others)) (used ++ used')
    rw [Stmt.placesAll]
    exact keeps.append (keeps' _ (settled.behind first))

theorem methods : Gathers noFor Phrase.methods.parser tokens (Shows noFor .methods) := by
  have none : Shows noFor .methods [] [] := fun _ => .nil []
  refine atEnd.quiet_bind fun ends rest => ite (fun _ => pure none) fun _ => ?_
  refine (sees _).quiet_bind fun closing rest => ite (fun _ => pure none) fun _ => ?_
  refine (namedFunction _).bind fun first used rest shows => ?_
  refine (phrase .methods).bind fun others used' rest follows => pure fun path => ?_
  obtain ⟨name, ofName, behind, rfl, -, -, first⟩ := shows
  rw [List.append_nil, Function.placesAll]
  exact ((first path true).mono (List.sublist_append_right ofName behind)).append (follows path)

/-- **What is parsed keeps the order of the tokens.** -/
theorem rule {sort : PhraseSort} (p : Phrase sort) (tokens : List Token) :
    Gathers noFor p.parser tokens (Shows noFor p) := by
  cases p with
  | expression => exact expression
  | operation level => exact operation level
  | operators level left => exact operators level left
  | unary => exact unary
  | accesses object => exact accesses object
  | primary => exact primary
  | arguments count => exact arguments count
  | parameters count => exact parametersFrom count
  | statement => exact statement
  | declaration => exact declaration
  | declarations inBlock => exact declarations inBlock
  | methods => exact methods

end Gathers

end Parser

/-! ## Sources -/

/-- A parser gathers what it shows from any phrase. -/
theorem Phrase.gathered_parse {noFor : Prop} {sort : PhraseSort} (p : Phrase sort) {tokens : List Token}
    (regular : ∀ t ∈ tokens, t.Regular noFor) :
    Parser.Gathered (Grammar.Shows noFor p) tokens (p.parse tokens) := by
  let asked (sort : PhraseSort) (q : Grammar.Question sort) : Prop := ∀ t ∈ q.tokens, t.Regular noFor
  let answered (sort : PhraseSort) (q : Grammar.Question sort) (outcome : Grammar.Answer sort) : Prop :=
    Parser.Gathered (Grammar.Shows noFor q.phrase) q.tokens outcome
  have keeps (sort : PhraseSort) (q : Grammar.Question sort) (regular : asked sort q) :
      (grammar _ q).Ensures asked answered (Rules.Settles asked answered q) := by
    refine Plan.Ensures.bind (Parser.Gathers.rule q.phrase q.tokens regular) fun _ gathered => ?_
    exact gathered
  exact grammar.solve_ensures keeps _ ⟨p, tokens⟩ regular (p.solve_eq_parse tokens)

theorem regular_scan (source : String) :
    ∀ t ∈ (scan source).tokens, t.Regular (NoFor (scan source).tokens) :=
  fun t mem noFor => noFor t mem

/-- Tokens are on no line above those in front of them. -/
theorem Scan.sorted_ofSegments (all : List Segment) (line : Nat) :
    ((Scan.ofSegments line all).tokens.map Token.line).Pairwise (· ≤ ·) ∧
      ∀ t ∈ (Scan.ofSegments line all).tokens, line ≤ t.line := by
  induction all generalizing line with
  | nil =>
    refine ⟨List.pairwise_singleton _ _, List.forall_mem_singleton.mpr (Nat.le_refl line)⟩
  | cons first rest ih =>
    obtain ⟨sorted, below⟩ := ih line
    cases first with
    | token kind lexeme =>
      refine ⟨List.pairwise_cons.mpr ⟨?_, sorted⟩, List.forall_mem_cons.mpr ⟨Nat.le_refl line, below⟩⟩
      simpa using below
    | newline =>
      obtain ⟨sorted, below⟩ := ih (line + 1)
      exact ⟨sorted, fun t mem => Nat.le_of_succ_le (below t mem)⟩
    | blank _ | comment _ | unexpected _ | unterminated _ => exact ⟨sorted, below⟩

/-- **The errors of a calm program come in the order of the source**, each at a token of its own; so their
lines never decrease. -/
theorem errors_inOrder (source : String)
    (calm : ∀ place ∈ Stmt.placesAll [] (parseProgram (scan source).tokens).statements,
      place.2.Calm (NoFor (scan source).tokens) place.1) :
    let errors := (resolveProgram (parseProgram (scan source).tokens).statements).errors
    InOrder errors (scan source).tokens ∧ (errors.map ResolveError.line).Pairwise (· ≤ ·) := by
  intro errors
  have same : errors = faults (Stmt.placesAll [] (parseProgram (scan source).tokens).statements) :=
    errors_resolveProgram (placed_parseProgram _)
  have inOrder : InOrder errors (scan source).tokens := by
    rw [same]
    obtain ⟨taken, split, built⟩ := Phrase.gathered_parse (.declarations false) (regular_scan source)
    unfold parseProgram at calm ⊢
    generalize (Phrase.declarations false).parse (scan source).tokens = outcome at calm split built ⊢
    obtain ⟨result, noted, rest⟩ := outcome
    cases result with
    | error e => exact .nil _
    | ok statements =>
      obtain ⟨used, sub, follows⟩ := built statements rfl
      refine (follows [] (fun _ => rfl) calm).mono (sub.trans ?_)
      rw [split]
      exact List.sublist_append_left taken rest
  exact ⟨inOrder, inOrder.pairwise (Scan.sorted_ofSegments _ 1).1⟩

/-- The three errors in `{ var a = a; return this; }`, on two lines, come in the order of the source. -/
theorem errors_inOrder_return :
    let source := "\x7b var a = a;\nreturn this; \x7d"
    let errors := (resolveProgram (parseProgram (scan source).tokens).statements).errors
    (∀ place ∈ Stmt.placesAll [] (parseProgram (scan source).tokens).statements,
        place.2.Calm (NoFor (scan source).tokens) place.1) ∧
      errors = [⟨1, "a", .readInOwnInitializer⟩, ⟨2, "return", .returnOutsideFunction⟩,
        ⟨2, "this", .thisOutsideClass⟩] ∧
      InOrder errors (scan source).tokens := by
  have scanned : scan "\x7b var a = a;\nreturn this; \x7d" = ⟨[⟨.symbol .leftBrace, "\x7b", 1⟩,
    ⟨.keyword .var_, "var", 1⟩, ⟨.identifier "a", "a", 1⟩, ⟨.symbol .equal, "=", 1⟩,
    ⟨.identifier "a", "a", 1⟩, ⟨.symbol .semicolon, ";", 1⟩, ⟨.keyword .return_, "return", 2⟩,
    ⟨.keyword .this_, "this", 2⟩, ⟨.symbol .semicolon, ";", 2⟩, ⟨.symbol .rightBrace, "\x7d", 2⟩,
    ⟨.endOfInput, "", 2⟩], []⟩ := by cbv
  have parsed : (parseProgram (scan "\x7b var a = a;\nreturn this; \x7d").tokens).statements =
      [.block [.var ⟨"a", "a", 1⟩ (some (.variable_ ⟨⟨"a", "a", 1⟩, none⟩)),
        .return_ ⟨"return", 2⟩ (some (.this ⟨"this", 2⟩ none))]] := by
    rw [scanned]
    rfl
  intro source errors
  have calm : ∀ place ∈ Stmt.placesAll [] (parseProgram (scan source).tokens).statements,
      place.2.Calm (NoFor (scan source).tokens) place.1 := by
    rw [parsed]
    simp [Stmt.placesAll, Stmt.places, Expr.places, Node.Calm]
  refine ⟨calm, ?_, (errors_inOrder source calm).1⟩
  show (resolveProgram (parseProgram (scan source).tokens).statements).errors = _
  rw [parsed]
  rfl

/-- The errors of `this.x = this;`, on two lines, come in the wrong order: that in the value is the first. -/
theorem object_behind_value :
    let source := "this.x =\nthis;"
    let errors := (resolveProgram (parseProgram (scan source).tokens).statements).errors
    (scan source).errors = [] ∧ (parseProgram (scan source).tokens).errors = [] ∧
      errors = [⟨2, "this", .thisOutsideClass⟩, ⟨1, "this", .thisOutsideClass⟩] ∧
      ¬ InOrder errors (scan source).tokens ∧ ¬ (errors.map ResolveError.line).Pairwise (· ≤ ·) := by
  have scanned : scan "this.x =\nthis;" = ⟨[⟨.keyword .this_, "this", 1⟩, ⟨.symbol .dot, ".", 1⟩,
    ⟨.identifier "x", "x", 1⟩, ⟨.symbol .equal, "=", 1⟩, ⟨.keyword .this_, "this", 2⟩,
    ⟨.symbol .semicolon, ";", 2⟩, ⟨.endOfInput, "", 2⟩], []⟩ := by cbv
  have parsed : parseProgram (scan "this.x =\nthis;").tokens =
      ⟨[.expression (.set (.this ⟨"this", 1⟩ none) ⟨"x", "x", 1⟩ (.this ⟨"this", 2⟩ none))], []⟩ := by
    rw [scanned]
    rfl
  have found : (resolveProgram (parseProgram (scan "this.x =\nthis;").tokens).statements).errors =
      [⟨2, "this", .thisOutsideClass⟩, ⟨1, "this", .thisOutsideClass⟩] := by
    rw [parsed]
    rfl
  intro source errors
  refine ⟨congrArg Scan.errors scanned, congrArg Parse.errors parsed, found, ?_, ?_⟩
  · show ¬ InOrder (resolveProgram (parseProgram (scan source).tokens).statements).errors _
    rw [found, scanned]
    unfold InOrder
    decide
  · show ¬ ((resolveProgram (parseProgram (scan source).tokens).statements).errors.map _).Pairwise _
    rw [found]
    decide

/-- So do those of `for (;; this) this;`, as the increment stands behind the body in the loop. -/
theorem increment_behind_body :
    let source := "for (;; this)\nthis;"
    let errors := (resolveProgram (parseProgram (scan source).tokens).statements).errors
    (scan source).errors = [] ∧ (parseProgram (scan source).tokens).errors = [] ∧
      errors = [⟨2, "this", .thisOutsideClass⟩, ⟨1, "this", .thisOutsideClass⟩] ∧
      ¬ InOrder errors (scan source).tokens := by
  have scanned : scan "for (;; this)\nthis;" = ⟨[⟨.keyword .for_, "for", 1⟩,
    ⟨.symbol .leftParen, "(", 1⟩, ⟨.symbol .semicolon, ";", 1⟩, ⟨.symbol .semicolon, ";", 1⟩,
    ⟨.keyword .this_, "this", 1⟩, ⟨.symbol .rightParen, ")", 1⟩, ⟨.keyword .this_, "this", 2⟩,
    ⟨.symbol .semicolon, ";", 2⟩, ⟨.endOfInput, "", 2⟩], []⟩ := by cbv
  have parsed : parseProgram (scan "for (;; this)\nthis;").tokens =
      ⟨[.loop (.literal (.boolean true)) (.block [.expression (.this ⟨"this", 2⟩ none),
        .expression (.this ⟨"this", 1⟩ none)])], []⟩ := by
    rw [scanned]
    rfl
  have found : (resolveProgram (parseProgram (scan "for (;; this)\nthis;").tokens).statements).errors =
      [⟨2, "this", .thisOutsideClass⟩, ⟨1, "this", .thisOutsideClass⟩] := by
    rw [parsed]
    rfl
  intro source errors
  refine ⟨congrArg Scan.errors scanned, congrArg Parse.errors parsed, found, ?_⟩
  show ¬ InOrder (resolveProgram (parseProgram (scan source).tokens).statements).errors _
  rw [found, scanned]
  unfold InOrder
  decide

end Lox
