import Lox.Proofs.Variation.Resolution
import Lox.Scope.Mention

/-!
# Renaming local variables

A local variable belongs to a scope of the text: the one of a block, or the one of a function, which
declares the parameters too.  A **path** leads to a scope, down the tree, and says at each node which of
its parts to go to.  Scopes are selected by their paths.

A variable is renamed in a scope (`Stmt.renameAll`) where it is declared and at the references that
resolution has bound to it: those with the depth at which the scope is found.  All other occurrences of
the name are other variables, and they stay.  Where a scope is selected, it is a `var` or a parameter
that declares the name there, so that no function or class of the name is (`Stmt.keeps_of_declares`), and
the new name occurs nowhere (`Node.Spares`), the renamed program varies from the program
(`Stmt.allVary_rename`).
-/

namespace Lox

/-- A scope of the text: the parameters of the function that it belongs to, if it belongs to one, and
the statements in it. -/
structure LocalScope where
  parameters : List Ident
  body : List Stmt

/-- A parameter or a `var` declares the name in the scope. -/
def LocalScope.Declares (scope : LocalScope) (name : String) : Prop :=
  (∃ parameter ∈ scope.parameters, parameter.lexeme = name) ∨
    ∃ declared initial, .var declared initial ∈ scope.body ∧ declared.lexeme = name

/-! ## Paths -/

mutual

/-- The scope in an expression that a path leads to. -/
def Expr.scopeAt? : Expr → List Nat → Option LocalScope
  | .group inner, 0 :: path => inner.scopeAt? path
  | .unary _ operand, 0 :: path => operand.scopeAt? path
  | .binary left _ _, 0 :: path => left.scopeAt? path
  | .binary _ _ right, 1 :: path => right.scopeAt? path
  | .logical left _ _, 0 :: path => left.scopeAt? path
  | .logical _ _ right, 1 :: path => right.scopeAt? path
  | .assign _ value, 0 :: path => value.scopeAt? path
  | .call callee _ _, 0 :: path => callee.scopeAt? path
  | .call _ arguments _, (n + 1) :: path => Expr.scopeAmong? arguments (n :: path)
  | .get object _, 0 :: path => object.scopeAt? path
  | .set object _ _, 0 :: path => object.scopeAt? path
  | .set _ _ value, 1 :: path => value.scopeAt? path
  | .function decl, 0 :: path => decl.scopeAt? path
  | _, _ => none

/-- The scope in one of the expressions that a path leads to. -/
def Expr.scopeAmong? : List Expr → List Nat → Option LocalScope
  | e :: _, 0 :: path => e.scopeAt? path
  | _ :: rest, (n + 1) :: path => Expr.scopeAmong? rest (n :: path)
  | _, _ => none

/-- The scope in a statement that a path leads to. -/
def Stmt.scopeAt? : Stmt → List Nat → Option LocalScope
  | .expression value, 0 :: path => value.scopeAt? path
  | .print _ value, 0 :: path => value.scopeAt? path
  | .var _ (some initial), 0 :: path => initial.scopeAt? path
  | .block body, [] => some ⟨[], body⟩
  | .block body, path => Stmt.scopeAmong? body path
  | .branch condition _ _, 0 :: path => condition.scopeAt? path
  | .branch _ yes _, 1 :: path => yes.scopeAt? path
  | .branch _ _ (some no), 2 :: path => no.scopeAt? path
  | .loop condition _, 0 :: path => condition.scopeAt? path
  | .loop _ body, 1 :: path => body.scopeAt? path
  | .function decl, 0 :: path => decl.scopeAt? path
  | .return_ _ (some value), 0 :: path => value.scopeAt? path
  | .class_ _ _ methods, path => Function.scopeAmong? methods path
  | _, _ => none

/-- The scope in one of the statements that a path leads to. -/
def Stmt.scopeAmong? : List Stmt → List Nat → Option LocalScope
  | s :: _, 0 :: path => s.scopeAt? path
  | _ :: rest, (n + 1) :: path => Stmt.scopeAmong? rest (n :: path)
  | _, _ => none

/-- The scope in a function that a path leads to. -/
def Function.scopeAt? : Function → List Nat → Option LocalScope
  | ⟨_, parameters, body⟩, [] => some ⟨parameters, body⟩
  | ⟨_, _, body⟩, path => Stmt.scopeAmong? body path

/-- The scope in one of the functions that a path leads to. -/
def Function.scopeAmong? : List Function → List Nat → Option LocalScope
  | f :: _, 0 :: path => f.scopeAt? path
  | _ :: rest, (n + 1) :: path => Function.scopeAmong? rest (n :: path)
  | _, _ => none

end

section Names

variable {V : Vocabulary} {scope : LocalScope}

/-- The parameters and the words in the body are such as `V` asks for. -/
structure LocalScope.Names (V : Vocabulary) (scope : LocalScope) : Prop where
  parameters : ∀ parameter ∈ scope.parameters, V.name parameter
  body : Stmt.EveryAll (Node.Names V) scope.body

theorem LocalScope.Names.exists_of_declares (h : scope.Names V) {name : String}
    (declares : scope.Declares name) : ∃ declared, V.name declared ∧ declared.lexeme = name := by
  rcases declares with ⟨parameter, mem, same⟩ | ⟨declared, initial, mem, same⟩
  · exact ⟨parameter, h.parameters parameter mem, same⟩
  · have names := (Stmt.everyAll_iff _).mp h.body _ mem
    exact ⟨declared, Stmt.Every.self names, same⟩

mutual

theorem Expr.names_of_scopeAt? {e : Expr} {path : List Nat} (h : e.Every (Node.Names V))
    (there : e.scopeAt? path = some scope) : scope.Names V := by
  revert there
  fun_cases Expr.scopeAt? e path
  case case1 | case2 | case7 | case10 => exact Expr.names_of_scopeAt? h.2
  case case3 | case5 | case8 | case11 => exact Expr.names_of_scopeAt? h.2.1
  case case4 | case6 | case12 => exact Expr.names_of_scopeAt? h.2.2
  case case9 => exact Expr.names_of_scopeAmong? h.2.2
  case case13 => exact Function.names_of_scopeAt? h.2
  case case14 => exact nofun
termination_by sizeOf e
decreasing_by all_goals (subst_vars; simp +arith)

theorem Expr.names_of_scopeAmong? {es : List Expr} {path : List Nat}
    (h : Expr.EveryAll (Node.Names V) es) (there : Expr.scopeAmong? es path = some scope) :
    scope.Names V := by
  revert there
  fun_cases Expr.scopeAmong? es path
  case case1 => exact Expr.names_of_scopeAt? h.1
  case case2 => exact Expr.names_of_scopeAmong? h.2
  case case3 => exact nofun
termination_by sizeOf es
decreasing_by all_goals (subst_vars; simp +arith)

theorem Stmt.names_of_scopeAt? {s : Stmt} {path : List Nat} (h : s.Every (Node.Names V))
    (there : s.scopeAt? path = some scope) : scope.Names V := by
  revert there
  fun_cases Stmt.scopeAt? s path
  case case1 | case2 | case3 | case12 => exact Expr.names_of_scopeAt? h.2
  case case4 =>
    rintro ⟨⟩
    exact ⟨List.forall_mem_nil _, h.2⟩
  case case5 => exact Stmt.names_of_scopeAmong? h.2
  case case6 no _ => cases no <;> exact Expr.names_of_scopeAt? h.2.1
  case case7 no _ =>
    cases no with
    | none => exact Stmt.names_of_scopeAt? h.2.2
    | some _ => exact Stmt.names_of_scopeAt? h.2.2.1
  case case8 => exact Stmt.names_of_scopeAt? h.2.2.2
  case case9 => exact Expr.names_of_scopeAt? h.2.1
  case case10 => exact Stmt.names_of_scopeAt? h.2.2
  case case11 => exact Function.names_of_scopeAt? h.2
  case case13 => exact Function.names_of_scopeAmong? h.2
  case case14 => exact nofun
termination_by sizeOf s
decreasing_by all_goals (subst_vars; simp +arith)

theorem Stmt.names_of_scopeAmong? {ss : List Stmt} {path : List Nat}
    (h : Stmt.EveryAll (Node.Names V) ss) (there : Stmt.scopeAmong? ss path = some scope) :
    scope.Names V := by
  revert there
  fun_cases Stmt.scopeAmong? ss path
  case case1 => exact Stmt.names_of_scopeAt? h.1
  case case2 => exact Stmt.names_of_scopeAmong? h.2
  case case3 => exact nofun
termination_by sizeOf ss
decreasing_by all_goals (subst_vars; simp +arith)

theorem Function.names_of_scopeAt? {f : Function} {path : List Nat} (h : f.Every (Node.Names V))
    (there : f.scopeAt? path = some scope) : scope.Names V := by
  revert there
  fun_cases Function.scopeAt? f path
  case case1 =>
    rintro ⟨⟩
    exact ⟨h.1.2, h.2⟩
  case case2 => exact Stmt.names_of_scopeAmong? h.2
termination_by sizeOf f
decreasing_by all_goals (subst_vars; simp +arith)

theorem Function.names_of_scopeAmong? {fs : List Function} {path : List Nat}
    (h : Function.EveryAll (Node.Names V) fs) (there : Function.scopeAmong? fs path = some scope) :
    scope.Names V := by
  revert there
  fun_cases Function.scopeAmong? fs path
  case case1 => exact Function.names_of_scopeAt? h.1
  case case2 => exact Function.names_of_scopeAmong? h.2
  case case3 => exact nofun
termination_by sizeOf fs
decreasing_by all_goals (subst_vars; simp +arith)

end

end Names

/-- Scopes, by the paths that lead to them. -/
abbrev Selection : Type := List Nat → Bool

namespace Selection

/-- The scope that this path leads to. -/
def only (path : List Nat) : Selection := (· == path)

/-- The scopes in one part. -/
def part (sel : Selection) (n : Nat) : Selection := fun path => sel (n :: path)

/-- The scopes in the parts behind the first one. -/
def behind (sel : Selection) : Selection
  | [] => false
  | n :: path => sel ((n + 1) :: path)

end Selection

/-! ## Renaming -/

/-- A name, and what to put in its place. -/
structure Renaming where
  old : String
  new : String

namespace Renaming

variable (r : Renaming)

/-- A text that is the name of a variable, which may be one of those that are renamed. -/
def text (renamed : Bool) (s : String) : String := if renamed = true ∧ s = r.old then r.new else s

def ident (renamed : Bool) (name : Ident) : Ident :=
  ⟨r.text renamed name.name, r.text renamed name.lexeme, name.line⟩

/-- A reference, where these scopes around are selected, the innermost first. -/
def reference (marks : List Bool) (ref : Reference) : Reference :=
  ⟨r.ident (ref.depth.any (marks.getD · false)) ref.name, ref.depth⟩

end Renaming

section Rename

variable (r : Renaming)

mutual

/-- An expression, with the variable renamed in the selected scopes. -/
def Expr.rename (sel : Selection) (marks : List Bool) : Expr → Expr
  | .literal value => .literal value
  | .group inner => .group (inner.rename (sel.part 0) marks)
  | .unary op operand => .unary op (operand.rename (sel.part 0) marks)
  | .binary left op right =>
      .binary (left.rename (sel.part 0) marks) op (right.rename (sel.part 1) marks)
  | .logical left op right =>
      .logical (left.rename (sel.part 0) marks) op (right.rename (sel.part 1) marks)
  | .variable_ ref => .variable_ (r.reference marks ref)
  | .assign target value => .assign (r.reference marks target) (value.rename (sel.part 0) marks)
  | .call callee arguments line =>
      .call (callee.rename (sel.part 0) marks) (Expr.renameAll sel.behind marks arguments) line
  | .get object name => .get (object.rename (sel.part 0) marks) name
  | .set object name value =>
      .set (object.rename (sel.part 0) marks) name (value.rename (sel.part 1) marks)
  | .this line depth => .this line depth
  | .super line method depth => .super line method depth
  | .function decl => .function (decl.rename (sel.part 0) marks)

def Expr.renameAll (sel : Selection) (marks : List Bool) : List Expr → List Expr
  | [] => []
  | e :: rest => e.rename (sel.part 0) marks :: Expr.renameAll sel.behind marks rest

/-- A statement, with the variable renamed in the selected scopes. -/
def Stmt.rename (sel : Selection) (marks : List Bool) : Stmt → Stmt
  | .expression value => .expression (value.rename (sel.part 0) marks)
  | .print line value => .print line (value.rename (sel.part 0) marks)
  | .var name none => .var (r.ident (marks.headD false) name) none
  | .var name (some initial) =>
      .var (r.ident (marks.headD false) name) (some (initial.rename (sel.part 0) marks))
  | .block body => .block (Stmt.renameAll sel (sel [] :: marks) body)
  | .branch condition yes none =>
      .branch (condition.rename (sel.part 0) marks) (yes.rename (sel.part 1) marks) none
  | .branch condition yes (some no) =>
      .branch (condition.rename (sel.part 0) marks) (yes.rename (sel.part 1) marks)
        (some (no.rename (sel.part 2) marks))
  | .loop condition body =>
      .loop (condition.rename (sel.part 0) marks) (body.rename (sel.part 1) marks)
  | .function decl => .function (decl.rename (sel.part 0) marks)
  | .return_ line none => .return_ line none
  | .return_ line (some value) => .return_ line (some (value.rename (sel.part 0) marks))
  | .class_ name none methods => .class_ name none (Function.renameAll sel (false :: marks) methods)
  | .class_ name (some ref) methods =>
      .class_ name (some (r.reference marks ref))
        (Function.renameAll sel (false :: false :: marks) methods)

def Stmt.renameAll (sel : Selection) (marks : List Bool) : List Stmt → List Stmt
  | [] => []
  | s :: rest => s.rename (sel.part 0) marks :: Stmt.renameAll sel.behind marks rest

/-- A function, with the variable renamed in the selected scopes. -/
def Function.rename (sel : Selection) (marks : List Bool) : Function → Function
  | ⟨name, parameters, body⟩ =>
      ⟨name, parameters.map (r.ident (sel [])), Stmt.renameAll sel (sel [] :: marks) body⟩

/-- Functions, with the variable renamed in the selected scopes.  A method stands in a scope of its own. -/
def Function.renameAll (sel : Selection) (marks : List Bool) : List Function → List Function
  | [] => []
  | f :: rest => f.rename (sel.part 0) marks :: Function.renameAll sel.behind marks rest

end

end Rename

/-! ## Renaming changes no depths -/

/-- A mention without the name of its variable. -/
def Mention.unnamed : Mention → Mention
  | .reference role _ line depth => .reference role "" line depth
  | mention => mention

section Mentions

variable {r : Renaming}

mutual

theorem Expr.mentions_rename (sel : Selection) (marks : List Bool) (e : Expr) :
    (e.rename r sel marks).mentions.map Mention.unnamed = e.mentions.map Mention.unnamed := by
  cases e with
  | literal _ | variable_ _ | this _ _ | super _ _ _ => rfl
  | group inner => exact Expr.mentions_rename _ marks inner
  | unary _ operand => exact Expr.mentions_rename _ marks operand
  | binary left _ right =>
    simp only [Expr.rename, Expr.mentions, List.map_append, Expr.mentions_rename _ marks left,
      Expr.mentions_rename _ marks right]
  | logical left _ right =>
    simp only [Expr.rename, Expr.mentions, List.map_append, Expr.mentions_rename _ marks left,
      Expr.mentions_rename _ marks right]
  | assign _ value => exact congrArg (_ :: ·) (Expr.mentions_rename _ marks value)
  | call callee arguments _ =>
    simp only [Expr.rename, Expr.mentions, List.map_append, Expr.mentions_rename _ marks callee,
      Expr.mentionsAll_renameAll _ marks arguments]
  | get object _ => exact Expr.mentions_rename _ marks object
  | set object _ value =>
    simp only [Expr.rename, Expr.mentions, List.map_append, Expr.mentions_rename _ marks object,
      Expr.mentions_rename _ marks value]
  | function decl => exact Function.mentions_rename _ marks decl .function

theorem Expr.mentionsAll_renameAll (sel : Selection) (marks : List Bool) (es : List Expr) :
    (Expr.mentionsAll (Expr.renameAll r sel marks es)).map Mention.unnamed =
      (Expr.mentionsAll es).map Mention.unnamed := by
  cases es with
  | nil => rfl
  | cons e rest =>
    simp only [Expr.renameAll, Expr.mentionsAll, List.map_append, Expr.mentions_rename _ marks e,
      Expr.mentionsAll_renameAll _ marks rest]

theorem Stmt.mentions_rename (sel : Selection) (marks : List Bool) (s : Stmt) :
    (s.rename r sel marks).mentions.map Mention.unnamed = s.mentions.map Mention.unnamed := by
  cases s with
  | expression value => exact Expr.mentions_rename _ marks value
  | print _ value => exact Expr.mentions_rename _ marks value
  | var _ initial =>
    cases initial with
    | none => rfl
    | some initial => exact Expr.mentions_rename _ marks initial
  | block body => exact Stmt.mentionsAll_renameAll sel _ body
  | branch condition yes no =>
    cases no with
    | none =>
      simp only [Stmt.rename, Stmt.mentions, List.map_append, Expr.mentions_rename _ marks condition,
        Stmt.mentions_rename _ marks yes]
    | some no =>
      simp only [Stmt.rename, Stmt.mentions, List.map_append, Expr.mentions_rename _ marks condition,
        Stmt.mentions_rename _ marks yes, Stmt.mentions_rename _ marks no]
  | loop condition body =>
    simp only [Stmt.rename, Stmt.mentions, List.map_append, Expr.mentions_rename _ marks condition,
      Stmt.mentions_rename _ marks body]
  | function decl => exact Function.mentions_rename _ marks decl .function
  | return_ _ value =>
    cases value with
    | none => rfl
    | some value => exact Expr.mentions_rename _ marks value
  | class_ _ superclass methods =>
    cases superclass with
    | none => exact Function.mentionsAll_renameAll sel _ methods
    | some _ => exact congrArg (_ :: ·) (Function.mentionsAll_renameAll sel _ methods)

theorem Stmt.mentionsAll_renameAll (sel : Selection) (marks : List Bool) (ss : List Stmt) :
    (Stmt.mentionsAll (Stmt.renameAll r sel marks ss)).map Mention.unnamed =
      (Stmt.mentionsAll ss).map Mention.unnamed := by
  cases ss with
  | nil => rfl
  | cons s rest =>
    simp only [Stmt.renameAll, Stmt.mentionsAll, List.map_append, Stmt.mentions_rename _ marks s,
      Stmt.mentionsAll_renameAll _ marks rest]

theorem Function.mentions_rename (sel : Selection) (marks : List Bool) (f : Function)
    (sort : FunctionSort) : ((f.rename r sel marks).mentions sort).map Mention.unnamed =
      (f.mentions sort).map Mention.unnamed := by
  cases f with
  | mk name parameters body =>
    simp only [Function.rename, Function.mentions, List.map_append, List.map_cons, List.length_map,
      Stmt.mentionsAll_renameAll sel _ body, List.cons_append]

theorem Function.mentionsAll_renameAll (sel : Selection) (marks : List Bool) (fs : List Function) :
    (Function.mentionsAll (Function.renameAll r sel marks fs)).map Mention.unnamed =
      (Function.mentionsAll fs).map Mention.unnamed := by
  cases fs with
  | nil => rfl
  | cons f rest =>
    simp only [Function.renameAll, Function.mentionsAll, List.map_append,
      Function.mentions_rename _ marks f .method, Function.mentionsAll_renameAll _ marks rest]

end

end Mentions

/-! ## The renamed program varies from the program -/

/-- The selected ones of these scopes declare the name, and by a parameter or a `var`. -/
def Selection.Declare (sel : Selection) (name : String)
    (scopeAt? : List Nat → Option LocalScope) : Prop :=
  ∀ path scope, sel path = true → scopeAt? path = some scope → scope.Declares name

/-- No name in the node is this one. -/
def Node.Spares (name : String) (n : Node) : Prop :=
  n.Names (.names fun other => other.name ≠ name ∧ other.lexeme ≠ name)

/-- The statement does not declare the name, unless it is a `var`. -/
def Stmt.Keeps (name : String) : Stmt → Prop
  | .var _ _ => True
  | s => s.declares ≠ some name

theorem Stmt.keeps_of_ne {name : String} {s : Stmt} (h : s.declares ≠ some name) : s.Keeps name := by
  cases s with
  | var _ _ => trivial
  | _ => exact h

theorem Stmt.keeps_of_not_isDeclaration {s : Stmt} (h : s.isDeclaration = false) (name : String) :
    s.Keeps name := by
  cases s with
  | var _ _ | function _ | class_ _ _ _ => cases h
  | _ => exact nofun

section Keeps

variable {scope : LexicalScope} {ctx : Context} {name : String}

/-- A declaration is the first one of its name in its scope. -/
theorem Stmt.isNew_of_declares {s : Stmt} (right : ∀ part ∈ s.nodes ctx, part.2.Right part.1)
    (declares : s.declares = some name) : ctx.IsNew name := by
  cases s with
  | var declared initial =>
    cases declares
    cases initial <;> exact (right _ List.mem_cons_self).agrees
  | class_ declared _ _ =>
    cases declares
    exact (right _ List.mem_cons_self).agrees
  | function decl =>
    obtain ⟨declared, _, _⟩ := decl
    cases declared with
    | named declared =>
      cases declares
      exact (right _ List.mem_cons_self).agrees declared rfl
    | anonymous _ => cases declares
  | _ => cases declares

/-- Behind a statement, what has been declared is declared, and what it declares. -/
theorem Stmt.exists_after (s : Stmt) (scope : LexicalScope) (ctx : Context) :
    ∃ scope', s.after (scope :: ctx) = scope' :: ctx ∧
      (∀ name, scope.names.contains name = true → scope'.names.contains name = true) ∧
      ∀ name, s.declares = some name → scope'.names.contains name = true := by
  have declared (name : String) : ∃ scope', Context.declare name .ready (scope :: ctx) = scope' :: ctx ∧
      (∀ name, scope.names.contains name = true → scope'.names.contains name = true) ∧
      ∀ name', some name = some name' → scope'.names.contains name' = true := by
    refine ⟨_, rfl, fun other contains => ?_, fun other same => ?_⟩
    · rw [Bindings.contains_insert, contains, Bool.or_true]
    · cases same
      rw [Bindings.contains_insert, decide_eq_true rfl, Bool.true_or]
  have plain : ∃ scope', scope :: ctx = scope' :: ctx ∧
      (∀ name, scope.names.contains name = true → scope'.names.contains name = true) ∧
      ∀ name', none = some name' → scope'.names.contains name' = true :=
    ⟨scope, rfl, fun _ contains => contains, fun _ same => by cases same⟩
  cases s with
  | var name _ | class_ name _ _ => exact declared name.lexeme
  | function decl =>
    obtain ⟨name, _, _⟩ := decl
    cases name with
    | named name => exact declared name.lexeme
    | anonymous _ => exact plain
  | _ => exact plain

theorem Stmt.ne_of_contains {ss : List Stmt}
    (right : ∀ part ∈ Stmt.nodesAll (scope :: ctx) ss, part.2.Right part.1)
    (contains : scope.names.contains name = true) : ∀ s ∈ ss, s.declares ≠ some name := by
  induction ss generalizing scope with
  | nil => exact List.forall_mem_nil _
  | cons s rest ih =>
    rw [Stmt.nodesAll, List.forall_mem_append] at right
    refine List.forall_mem_cons.mpr ⟨fun declares => ?_, ?_⟩
    · have new := Stmt.isNew_of_declares right.1 declares scope rfl
      rw [contains] at new
      cases new
    · obtain ⟨scope', behind, still, -⟩ := s.exists_after scope ctx
      rw [behind] at right
      exact ih right.2 (still name contains)

/-- **Where a `var` declares a name, no function and no class of that name is declared.** -/
theorem Stmt.keeps_of_mem {ss : List Stmt} {declared : Ident} {initial : Option Expr}
    (right : ∀ part ∈ Stmt.nodesAll (scope :: ctx) ss, part.2.Right part.1)
    (mem : .var declared initial ∈ ss) : ∀ s ∈ ss, s.Keeps declared.lexeme := by
  induction ss generalizing scope with
  | nil => cases mem
  | cons s rest ih =>
    rw [Stmt.nodesAll, List.forall_mem_append] at right
    obtain ⟨scope', behind, -, declares⟩ := s.exists_after scope ctx
    rw [behind] at right
    rw [List.forall_mem_cons]
    cases mem with
    | head =>
      have others := Stmt.ne_of_contains right.2 (declares _ rfl)
      exact ⟨trivial, fun s mem => Stmt.keeps_of_ne (others s mem)⟩
    | tail _ mem =>
      refine ⟨Stmt.keeps_of_ne fun same => ?_, ih right.2 mem⟩
      exact Stmt.ne_of_contains right.2 (declares _ same) _ mem rfl

theorem Context.contains_parameters_of_mem {parameters : List Ident} {parameter : Ident}
    (mem : parameter ∈ parameters) :
    (Context.parameters parameters).contains parameter.lexeme = true := by
  have fold (names : List Ident) (bindings : Bindings Readiness)
      (h : bindings.contains parameter.lexeme = true ∨ parameter ∈ names) :
      (names.foldl (fun bindings name => bindings.insert name.lexeme .ready) bindings).contains
        parameter.lexeme = true := by
    induction names generalizing bindings with
    | nil => exact h.resolve_right List.not_mem_nil
    | cons name rest ih =>
      refine ih _ ?_
      rw [Bindings.contains_insert]
      rcases h with contains | mem
      · exact .inl (by rw [contains, Bool.or_true])
      · cases mem with
        | head => exact .inl (by rw [decide_eq_true rfl, Bool.true_or])
        | tail _ mem => exact .inr mem
  exact fold parameters .empty (.inr mem)

/-- **Where a parameter or a `var` declares a name, no function and no class of that name is
declared.** -/
theorem Stmt.keeps_of_declares {parameters : List Ident} {body : List Stmt}
    (right : ∀ part ∈ Stmt.nodesAll (scope :: ctx) body, part.2.Right part.1)
    (declared : ∀ parameter ∈ parameters, scope.names.contains parameter.lexeme = true)
    (h : LocalScope.Declares ⟨parameters, body⟩ name) : ∀ s ∈ body, s.Keeps name := by
  rcases h with ⟨parameter, mem, rfl⟩ | ⟨declared, initial, mem, rfl⟩
  · have others := Stmt.ne_of_contains right (declared parameter mem)
    exact fun s mem => Stmt.keeps_of_ne (others s mem)
  · exact Stmt.keeps_of_mem right mem

end Keeps

namespace Variation

variable {v : Variation}

/-- The names that the variation changes, as a renaming. -/
def renames (v : Variation) : Renaming := ⟨v.old, v.new⟩

theorem rename_eq_text {name : String} (other : name ≠ v.new) (mark : Bool) :
    v.rename mark name = v.renames.text mark name := by
  rw [rename, Renaming.text]
  cases mark with
  | false => rfl
  | true =>
    by_cases same : name = v.old
    · rw [if_pos rfl, if_pos ⟨rfl, same⟩, same]
      exact Equiv.swap_apply_left _ _
    · rw [if_pos rfl, if_neg fun h => same h.2]
      exact Equiv.swap_apply_of_ne_of_ne same other

theorem ident_eq {name : Ident} (other : name.name ≠ v.new ∧ name.lexeme ≠ v.new) (mark : Bool) :
    v.ident id mark name = v.renames.ident mark name := by
  rw [ident, Renaming.ident, rename_eq_text other.1, rename_eq_text other.2]
  rfl

theorem reference_eq {ref : Reference} (other : ref.name.name ≠ v.new ∧ ref.name.lexeme ≠ v.new)
    (p : Site) : v.reference id p ref = v.renames.reference p.marks ref := by
  rw [reference, Renaming.reference, ident_eq other]
  cases ref.depth <;> rfl

theorem ident_mark_eq {name : Ident} (other : name.name ≠ v.new ∧ name.lexeme ≠ v.new) (p : Site) :
    v.ident id p.mark name = v.renames.ident (p.marks.headD false) name := by
  rw [ident_eq other]
  obtain ⟨context, marks⟩ := p
  cases marks <;> rfl

/-- A name that is not to be changed. -/
theorem fixed {name : String} (mark : Bool) (keeps : mark = true → name ≠ v.old)
    (other : name ≠ v.new) : v.rename mark name = name := by
  cases mark with
  | false => rfl
  | true => exact Equiv.swap_apply_of_ne_of_ne (keeps rfl) other

end Variation

section Varies

variable {v : Variation}

mutual

/-- An expression in which variables are renamed varies from what it was. -/
theorem Expr.varies_rename {p : Site} {e : Expr} {sel : Selection}
    (parts : ∀ part ∈ e.nodes p.context, v.Part part.1 part.2 ∧ part.2.Spares v.new)
    (placed : (e.relabel .unresolved).Every Node.Placed) (declare : sel.Declare v.old e.scopeAt?) :
    e.Varies v id p (e.rename v.renames sel p.marks) := by
  cases e with
  | literal value => exact .literal value
  | group inner =>
    rw [Expr.nodes, List.forall_mem_cons] at parts
    exact .group (Expr.varies_rename parts.2 placed.2 fun path => declare (0 :: path))
  | unary op operand =>
    rw [Expr.nodes, List.forall_mem_cons] at parts
    exact .unary (Expr.varies_rename parts.2 placed.2 fun path => declare (0 :: path))
  | binary left op right =>
    rw [Expr.nodes, List.cons_append, List.forall_mem_cons, List.forall_mem_append] at parts
    exact .binary (Expr.varies_rename parts.2.1 placed.2.1 fun path => declare (0 :: path))
      (Expr.varies_rename parts.2.2 placed.2.2 fun path => declare (1 :: path))
  | logical left op right =>
    rw [Expr.nodes, List.cons_append, List.forall_mem_cons, List.forall_mem_append] at parts
    exact .logical (Expr.varies_rename parts.2.1 placed.2.1 fun path => declare (0 :: path))
      (Expr.varies_rename parts.2.2 placed.2.2 fun path => declare (1 :: path))
  | variable_ ref =>
    obtain ⟨part, spares⟩ := parts _ List.mem_cons_self
    rw [Expr.rename, ← Variation.reference_eq spares]
    exact .variable_ part fun _ => spares.2
  | assign target value =>
    rw [Expr.nodes, List.forall_mem_cons] at parts
    obtain ⟨part, spares⟩ := parts.1
    rw [Expr.rename, ← Variation.reference_eq spares]
    exact .assign part (fun _ => spares.2)
      (Expr.varies_rename parts.2 placed.2 fun path => declare (0 :: path))
  | call callee arguments line =>
    rw [Expr.nodes, List.cons_append, List.forall_mem_cons, List.forall_mem_append] at parts
    refine .call (Expr.varies_rename parts.2.1 placed.2.1 fun path => declare (0 :: path))
      (Expr.allVary_rename parts.2.2 placed.2.2 fun path => ?_)
    cases path with
    | nil => exact fun _ selected => by cases selected
    | cons n path => exact declare ((n + 1) :: path)
  | get object name =>
    rw [Expr.nodes, List.forall_mem_cons] at parts
    exact .get (Expr.varies_rename parts.2 placed.2 fun path => declare (0 :: path))
  | set object name value =>
    rw [Expr.nodes, List.cons_append, List.forall_mem_cons, List.forall_mem_append] at parts
    exact .set (Expr.varies_rename parts.2.1 placed.2.1 fun path => declare (0 :: path))
      (Expr.varies_rename parts.2.2 placed.2.2 fun path => declare (1 :: path))
  | this keyword depth => exact .this (parts _ List.mem_cons_self).1
  | super keyword method depth => exact .super (parts _ List.mem_cons_self).1
  | function decl =>
    rw [Expr.nodes, List.forall_mem_cons] at parts
    exact .function (Function.varies_rename parts.2 placed.2 fun path => declare (0 :: path))

theorem Expr.allVary_rename {p : Site} {es : List Expr} {sel : Selection}
    (parts : ∀ part ∈ Expr.nodesAll p.context es, v.Part part.1 part.2 ∧ part.2.Spares v.new)
    (placed : Expr.EveryAll Node.Placed (Expr.relabelAll .unresolved es))
    (declare : sel.Declare v.old (Expr.scopeAmong? es)) :
    Expr.AllVary v id p es (Expr.renameAll v.renames sel p.marks es) := by
  cases es with
  | nil => exact .nil
  | cons e rest =>
    rw [Expr.nodesAll, List.forall_mem_append] at parts
    refine .cons (Expr.varies_rename parts.1 placed.1 fun path => declare (0 :: path))
      (Expr.allVary_rename parts.2 placed.2 fun path => ?_)
    cases path with
    | nil => exact fun _ selected => by cases selected
    | cons n path => exact declare ((n + 1) :: path)

/-- A statement in which variables are renamed varies from what it was. -/
theorem Stmt.varies_rename {p : Site} {s : Stmt} {sel : Selection}
    (parts : ∀ part ∈ s.nodes p.context, v.Part part.1 part.2 ∧ part.2.Spares v.new)
    (placed : (s.relabel .unresolved).Every Node.Placed)
    (declare : sel.Declare v.old s.scopeAt?) (keeps : p.mark = true → s.Keeps v.old) :
    s.Varies v id p (s.rename v.renames sel p.marks) := by
  cases s with
  | expression value =>
    rw [Stmt.nodes, List.forall_mem_cons] at parts
    exact .expression (Expr.varies_rename parts.2 placed.2 fun path => declare (0 :: path))
  | print line value =>
    rw [Stmt.nodes, List.forall_mem_cons] at parts
    exact .print (Expr.varies_rename parts.2 placed.2 fun path => declare (0 :: path))
  | var name initial =>
    cases initial with
    | none =>
      obtain ⟨part, spares⟩ := parts _ List.mem_cons_self
      rw [Stmt.rename, ← Variation.ident_mark_eq spares]
      exact .var part
    | some initial =>
      rw [Stmt.nodes, List.forall_mem_cons] at parts
      obtain ⟨part, spares⟩ := parts.1
      rw [Stmt.rename, ← Variation.ident_mark_eq spares]
      exact .initialized part (Expr.varies_rename parts.2 placed.2 fun path => declare (0 :: path))
  | block body =>
    rw [Stmt.nodes, List.forall_mem_cons] at parts
    -- Whether a variable of this scope is renamed is what the selection says at the block itself.
    refine .block (sel []) (Stmt.allVary_rename parts.2 placed.2 (fun path => ?_) fun selected => ?_)
    · cases path with
      | nil => cases body <;> exact fun _ _ none => by cases none
      | cons n path => exact declare (n :: path)
    · exact Stmt.keeps_of_declares (fun part mem => v.right _ _ (parts.2 part mem).1)
        (List.forall_mem_nil _) (declare [] _ selected rfl)
  | branch condition yes no =>
    cases no with
    | none =>
      rw [Stmt.nodes, List.cons_append, List.forall_mem_cons, List.forall_mem_append] at parts
      have plain := (Stmt.isDeclaration_relabel _ _).symm.trans placed.1.1
      exact .branch (Expr.varies_rename parts.2.1 placed.2.1 fun path => declare (0 :: path))
        (Stmt.varies_rename parts.2.2 placed.2.2 (fun path => declare (1 :: path))
          fun _ => Stmt.keeps_of_not_isDeclaration plain _)
    | some no =>
      rw [Stmt.nodes, List.cons_append, List.cons_append, List.forall_mem_cons,
        List.forall_mem_append, List.forall_mem_append] at parts
      have plain := (Stmt.isDeclaration_relabel _ _).symm.trans placed.1.1
      have plain' := (Stmt.isDeclaration_relabel _ _).symm.trans (placed.1.2 _ rfl)
      exact .choice (Expr.varies_rename parts.2.1.1 placed.2.1 fun path => declare (0 :: path))
        (Stmt.varies_rename parts.2.1.2 placed.2.2.1 (fun path => declare (1 :: path))
          fun _ => Stmt.keeps_of_not_isDeclaration plain _)
        (Stmt.varies_rename parts.2.2 placed.2.2.2 (fun path => declare (2 :: path))
          fun _ => Stmt.keeps_of_not_isDeclaration plain' _)
  | loop condition body =>
    rw [Stmt.nodes, List.cons_append, List.forall_mem_cons, List.forall_mem_append] at parts
    have plain := (Stmt.isDeclaration_relabel _ _).symm.trans placed.1
    exact .loop parts.1.1 (Expr.varies_rename parts.2.1 placed.2.1 fun path => declare (0 :: path))
      (Stmt.varies_rename parts.2.2 placed.2.2 (fun path => declare (1 :: path))
        fun _ => Stmt.keeps_of_not_isDeclaration plain _)
  | function decl =>
    rw [Stmt.nodes, List.forall_mem_cons] at parts
    refine .function ?_
      (Function.varies_rename (p := p.after (.function decl)) parts.2 placed.2
        fun path => declare (0 :: path))
    obtain ⟨name, parameters, body⟩ := decl
    cases name with
    | named name =>
      have spares := (parts.2 _ List.mem_cons_self).2.1 name rfl
      exact Variation.fixed _ (fun marked same => keeps marked (congrArg some same)) spares.2
    | anonymous line => exact absurd placed.1 Bool.false_ne_true
  | return_ keyword value =>
    cases value with
    | none => exact .return_
    | some value =>
      rw [Stmt.nodes, List.forall_mem_cons] at parts
      exact .returned (Expr.varies_rename parts.2 placed.2 fun path => declare (0 :: path))
  | class_ name superclass methods =>
    rw [Stmt.nodes, List.cons_append, List.forall_mem_cons, List.forall_mem_append] at parts
    obtain ⟨part, spares⟩ := parts.1
    have fixed : v.rename p.mark name.lexeme = name.lexeme :=
      Variation.fixed _ (fun marked same => keeps marked (congrArg some same)) spares.1.2
    have inside : sel.Declare v.old (Function.scopeAmong? methods) := fun path => declare path
    cases superclass with
    | none =>
      exact .class_ part fixed
        (Function.allVary_rename (p := p.declare name.lexeme .ready) parts.2.2 placed.2 inside)
    | some ref =>
      have spares' := spares.2 ref rfl
      rw [Stmt.rename, ← Variation.reference_eq spares']
      have around := Function.allVary_rename
        (p := (p.declare name.lexeme .ready).aroundMethods name (some ref) methods) parts.2.2 placed.2
        inside
      exact .subclass part fixed
        (.variable_ (parts.2.1 _ List.mem_cons_self).1 fun _ => spares'.2) around

theorem Stmt.allVary_rename {p : Site} {ss : List Stmt} {sel : Selection}
    (parts : ∀ part ∈ Stmt.nodesAll p.context ss, v.Part part.1 part.2 ∧ part.2.Spares v.new)
    (placed : Stmt.EveryAll Node.Placed (Stmt.relabelAll .unresolved ss))
    (declare : sel.Declare v.old (Stmt.scopeAmong? ss))
    (keeps : p.mark = true → ∀ s ∈ ss, s.Keeps v.old) :
    Stmt.AllVary v id p ss (Stmt.renameAll v.renames sel p.marks ss) := by
  cases ss with
  | nil => exact .nil
  | cons s rest =>
    rw [Stmt.nodesAll, List.forall_mem_append] at parts
    refine .cons (Stmt.varies_rename parts.1 placed.1 (fun path => declare (0 :: path))
        fun marked => keeps marked s List.mem_cons_self)
      (Stmt.allVary_rename (p := p.after s) parts.2 placed.2 (fun path => ?_)
        fun marked s mem => keeps marked s (List.mem_cons_of_mem _ mem))
    cases path with
    | nil => exact fun _ selected => by cases selected
    | cons n path => exact declare ((n + 1) :: path)

/-- A function in which variables are renamed varies from what it was. -/
theorem Function.varies_rename {p : Site} {f : Function} {sel : Selection}
    (parts : ∀ part ∈ f.nodes p.context, v.Part part.1 part.2 ∧ part.2.Spares v.new)
    (placed : (f.relabel .unresolved).Every Node.Placed) (declare : sel.Declare v.old f.scopeAt?) :
    f.Varies v id p (f.rename v.renames sel p.marks) := by
  cases f with
  | mk name parameters body =>
    rw [Function.nodes, List.forall_mem_cons] at parts
    obtain ⟨part, spares⟩ := parts.1
    have same : parameters.map (v.renames.ident (sel [])) = parameters.map (v.ident id (sel [])) :=
      List.map_congr_left fun name mem => (Variation.ident_eq (spares.2 name mem) _).symm
    rw [Function.rename, same]
    have named : name.relabel (.lines id) = name := by cases name <;> rfl
    have inside : sel.Declare v.old (Stmt.scopeAmong? body) := fun path => by
      cases path with
      | nil => cases body <;> exact fun _ _ none => by cases none
      | cons n path => exact declare (n :: path)
    have keeps (selected : sel [] = true) : ∀ s ∈ body, s.Keeps v.old :=
      Stmt.keeps_of_declares (fun part mem => v.right _ _ (parts.2 part mem).1)
        (fun parameter mem => Context.contains_parameters_of_mem mem) (declare [] _ selected rfl)
    have varies := Function.Varies.mk part (sel []) (Stmt.allVary_rename
      (p := p.inFunction ⟨name, parameters, body⟩ (sel [])) parts.2 placed.2 inside keeps)
    rwa [named] at varies

theorem Function.allVary_rename {p : Site} {fs : List Function} {sel : Selection}
    (parts : ∀ part ∈ Function.nodesAll p.context fs, v.Part part.1 part.2 ∧ part.2.Spares v.new)
    (placed : Function.EveryAll Node.Placed (Function.relabelAll .unresolved fs))
    (declare : sel.Declare v.old (Function.scopeAmong? fs)) :
    Function.AllVary v id p fs (Function.renameAll v.renames sel (false :: p.marks) fs) := by
  cases fs with
  | nil => exact .nil
  | cons f rest =>
    rw [Function.nodesAll, List.forall_mem_append] at parts
    refine .cons
      (Function.varies_rename (p := p.aroundMethod f) parts.1 placed.1 fun path => declare (0 :: path))
      (Function.allVary_rename parts.2 placed.2 fun path => ?_)
    cases path with
    | nil => exact fun _ selected => by cases selected
    | cons n path => exact declare ((n + 1) :: path)

end

end Varies

end Lox
