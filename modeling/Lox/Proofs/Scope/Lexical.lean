import Mathlib.Logic.Relation
import Lox.Proofs.Scope.Prepare
import Lox.Scope.Mention

/-!
# Depths are lexical distances

Which scopes a part of a program stands in can be read off its text: what is written in a block, or in
the body of a function, stands behind the declarations in front of it there, and the methods of a class
stand in the scopes of the class.  `Stands` says so, from the program down to each of its parts, and
`Node.Located` says what the depth of a reference has to be in the scopes that it stands in.

Resolution gets to that depth whether it reports anything or not (`located_resolveProgram`).  `Arrives`
is the judgement for walks: other than `Walks` it does not ask whether the walk has reported anything, so
that a name may be declared again in its scope, be read in its own initializer, or be the name of a
class that inherits from itself.
-/

namespace Lox

open Resolver

/-! ## Scopes of the text -/

/-- A scope of the text, as it is for a place inside of it. -/
inductive TextScope where
  /-- A block or a function, with the names declared in it so far, its parameters among them. -/
  | names (declared : List String)
  /-- The scope around the methods of a class. -/
  | this
  /-- The scope around that one if the class has a superclass. -/
  | super
  deriving DecidableEq, Repr

namespace TextScope

/-- Does the scope declare the name? -/
def declares : TextScope → String → Bool
  | names declared, name => declared.contains name
  | this, _ | super, _ => false

/-- What the innermost class is whose methods stand in these scopes. -/
def innermostClass : List TextScope → Surrounding
  | [] => .noClass
  | this :: super :: _ => .subclass
  | this :: _ => .baseClass
  | _ :: outer => innermostClass outer

end TextScope

/-- The names that statements declare in the scope that they stand in. -/
def Stmt.declaredAll (statements : List Stmt) : List String := statements.filterMap Stmt.declares

/-- The parts of a node that stand in the scopes that it stands in itself. -/
def Node.operands : Node → List Node
  | .expr (.group inner) => [.expr inner]
  | .expr (.unary _ operand) => [.expr operand]
  | .expr (.binary left _ right) => [.expr left, .expr right]
  | .expr (.logical left _ right) => [.expr left, .expr right]
  | .expr (.assign _ value) => [.expr value]
  | .expr (.call callee arguments _) => .expr callee :: arguments.map .expr
  | .expr (.get object _) => [.expr object]
  | .expr (.set object _ value) => [.expr object, .expr value]
  | .expr (.function decl) => [.function decl]
  | .stmt (.expression value) => [.expr value]
  | .stmt (.print _ value) => [.expr value]
  | .stmt (.var _ initial) => initial.toList.map .expr
  | .stmt (.branch condition yes no) => .expr condition :: .stmt yes :: no.toList.map .stmt
  | .stmt (.loop condition body) => [.expr condition, .stmt body]
  | .stmt (.function decl) => [.function decl]
  | .stmt (.return_ _ value) => value.toList.map .expr
  | .stmt (.class_ _ superclass _) => superclass.toList.map fun ref => .expr (.variable_ ref)
  | _ => []

/-- A node, and the scopes that it stands in, the innermost first. -/
structure Position where
  scopes : List TextScope
  node : Node

/-- At the second position stands a part of what stands at the first one, with nothing in between.  A
statement stands behind its own declaration. -/
inductive Position.Part : Position → Position → Prop
  | operand {scopes : List TextScope} {n part : Node} (mem : part ∈ n.operands) :
      Part ⟨scopes, n⟩ ⟨scopes, part⟩
  | block {scopes : List TextScope} {before after : List Stmt} {s : Stmt} :
      Part ⟨scopes, .stmt (.block (before ++ s :: after))⟩
        ⟨.names (Stmt.declaredAll (before ++ [s])) :: scopes, .stmt s⟩
  | body {scopes : List TextScope} {name : FunctionName} {parameters : List Ident}
      {before after : List Stmt} {s : Stmt} :
      Part ⟨scopes, .function ⟨name, parameters, before ++ s :: after⟩⟩
        ⟨.names (parameters.map Ident.lexeme ++ Stmt.declaredAll (before ++ [s])) :: scopes, .stmt s⟩
  | method {scopes : List TextScope} {name : Ident} {methods : List Function} {f : Function}
      (mem : f ∈ methods) :
      Part ⟨scopes, .stmt (.class_ name none methods)⟩ ⟨.this :: scopes, .function f⟩
  | inheriting {scopes : List TextScope} {name : Ident} {superclass : Reference}
      {methods : List Function} {f : Function} (mem : f ∈ methods) :
      Part ⟨scopes, .stmt (.class_ name (some superclass) methods)⟩
        ⟨.this :: .super :: scopes, .function f⟩

/-- In the program, the node stands in these scopes.  What is outermost stands in none. -/
def Stands (program : List Stmt) (scopes : List TextScope) (n : Node) : Prop :=
  ∃ s ∈ program, Relation.ReflTransGen Position.Part ⟨[], .stmt s⟩ ⟨scopes, n⟩

/-- The depth of a reference is the number of scopes between it and the innermost one that declares its
name, that of `this` leads to the innermost class, and that of `super` to the scope around it, if that
class has a superclass. -/
def Node.Located (scopes : List TextScope) : Node → Prop
  | .expr (.variable_ ref) => ref.depth = scopes.findIdx? (·.declares ref.name.lexeme)
  | .expr (.assign target _) => target.depth = scopes.findIdx? (·.declares target.name.lexeme)
  | .expr (.this _ depth) => depth = scopes.findIdx? (· = .this)
  | .expr (.super _ _ depth) =>
      match TextScope.innermostClass scopes with
      | .subclass => ∃ distance, scopes.findIdx? (· = .this) = some distance ∧
          scopes.findIdx? (· = .super) = some (distance + 1) ∧ depth = some (distance + 1)
      | _ => depth = none
  | _ => True

/-! ## Walks, whatever they report -/

/-- A walk leads from one standing to another, and its result is good. -/
def Arrives {α : Type} (before after : Standing) (walk : StateM Resolver α) (Good : α → Prop) : Prop :=
  ∀ r : Resolver, r.standing = before → (walk.run r).2.standing = after ∧ Good (walk.run r).1

/-- Where a walk leads to does not depend on what it reports. -/
theorem Walks.arrives {α : Type} {p p₁ : Standing} {walk : StateM Resolver α} {Good : α → Prop}
    (h : Walks p p₁ walk Good) : Arrives p p₁ walk fun _ => True :=
  fun r same => ⟨(h r same).1, trivial⟩

namespace Arrives

variable {α β : Type} {p p₁ p₂ : Standing} {walk : StateM Resolver α} {Good Good' : α → Prop}

theorem pure {a : α} (good : Good a) : Arrives p p (Pure.pure a) Good := fun _ same => ⟨same, good⟩

theorem bind {Good' : β → Prop} {next : α → StateM Resolver β} (h : Arrives p p₁ walk Good)
    (rest : ∀ a, Good a → Arrives p₁ p₂ (next a) Good') : Arrives p p₂ (walk >>= next) Good' :=
  fun r same => rest _ (h r same).2 _ (h r same).1

theorem get_bind {next : Resolver → StateM Resolver α}
    (h : ∀ r, r.standing = p → Arrives p p₁ (next r) Good) : Arrives p p₁ (get >>= next) Good :=
  fun r same => h r same r same

theorem locate (name : String) :
    Arrives p p (Resolver.locate name none) fun depth => depth = distance p.scopes name := by
  rintro r rfl
  exact ⟨rfl, Option.or_none⟩

theorem reportIf {condition : Prop} [Decidable condition] {line : Nat} {lexeme : String}
    {cause : ResolveError.Cause} {rest : Unit → StateM Resolver α} (h : Arrives p p₁ (rest ()) Good) :
    Arrives p p₁ (if condition then Resolver.report line lexeme cause >>= rest else rest ()) Good := by
  split
  · exact (Walks.report _ _ _).arrives.bind fun _ _ => h
  · exact h

theorem reference {ref : Reference} (new : ref.depth = none) :
    Arrives p p (Resolver.reference ref) fun ref' =>
      ref'.name = ref.name ∧ ref'.depth = distance p.scopes ref.name.lexeme := by
  rw [Resolver.reference]
  refine get_bind fun r same => reportIf ?_
  rw [new]
  exact bind (locate _) fun depth found => pure ⟨rfl, found⟩

theorem this {keyword : Word} (spells : keyword.Spells .this_) :
    Arrives p p (Resolver.this keyword none) fun depth =>
      depth = if p.surrounding = .noClass then none else distance p.scopes thisName := by
  rw [Resolver.this, show keyword.lexeme = thisName from spells]
  refine get_bind fun r same => ?_
  subst same
  obtain ⟨scopes, body, surrounding, errors⟩ := r
  cases surrounding with
  | noClass => exact (Walks.report _ _ _).arrives.bind fun _ _ => pure rfl
  | baseClass => exact locate _
  | subclass => exact locate _

theorem super {keyword : Word} (spells : keyword.Spells .super_) :
    Arrives p p (Resolver.super keyword none) fun depth =>
      depth = if p.surrounding = .subclass then distance p.scopes superName else none := by
  rw [Resolver.super, show keyword.lexeme = superName from spells]
  refine get_bind fun r same => ?_
  subst same
  obtain ⟨scopes, body, surrounding, errors⟩ := r
  cases surrounding with
  | noClass => exact (Walks.report _ _ _).arrives.bind fun _ _ => pure rfl
  | baseClass => exact (Walks.report _ _ _).arrives.bind fun _ _ => pure rfl
  | subclass => exact locate _

theorem superclass (name : Ident) {ref : Reference} (new : ref.depth = none) :
    Arrives p ({ p with surrounding := .subclass }.within (keywordScope superName))
      (Resolver.superclass name ref) fun ref' =>
        ref'.name = ref.name ∧ ref'.depth = distance p.scopes ref.name.lexeme := by
  rw [Resolver.superclass]
  refine reportIf ?_
  exact (Walks.modifySurrounding _).arrives.bind fun _ _ => bind (reference new) fun ref' found =>
    (Walks.openScope _).arrives.bind fun _ _ => pure found

end Arrives

/-! ## The scopes of a walk and of the text -/

namespace TextScope

variable {scopes : List TextScope}

/-- The names that are found in the scope, `this` and `super` included. -/
def holds : TextScope → String → Bool
  | names declared, name => declared.contains name && decide (name ≠ thisName ∧ name ≠ superName)
  | this, name => name = thisName
  | super, name => name = superName

/-- Some names are declared in the innermost scope, if there is one. -/
def behind (more : List String) : List TextScope → List TextScope
  | names declared :: outer => names (declared ++ more) :: outer
  | scopes => scopes

theorem behind_nil (scopes : List TextScope) : behind [] scopes = scopes := by
  unfold behind
  split
  · rw [List.append_nil]
  · rfl

theorem behind_behind (more rest : List String) (scopes : List TextScope) :
    behind rest (behind more scopes) = behind (more ++ rest) scopes := by
  cases scopes with
  | nil => rfl
  | cons scope outer =>
    cases scope with
    | names declared => rw [behind, behind, behind, List.append_assoc]
    | _ => rfl

/-- A declaration can stand here: outside all scopes, or in a block or function. -/
def Open (scopes : List TextScope) : Prop :=
  ∀ scope ∈ scopes.head?, ∃ declared, scope = names declared

theorem isOpen_names (declared : List String) (outer : List TextScope) :
    Open (names declared :: outer) := by
  rintro _ ⟨rfl⟩
  exact ⟨_, rfl⟩

theorem Open.behind (h : Open scopes) (more : List String) : Open (behind more scopes) := by
  cases scopes with
  | nil => exact h
  | cons scope outer =>
    obtain ⟨declared, rfl⟩ := h scope rfl
    rintro _ ⟨rfl⟩
    exact ⟨_, rfl⟩

/-- The scopes of a class stand together. -/
inductive Nested : List TextScope → Prop
  | outermost : Nested []
  | names {declared : List String} {outer : List TextScope} (nested : Nested outer) :
      Nested (names declared :: outer)
  | this {outer : List TextScope} (nested : Nested outer) (isOpen : Open outer) : Nested (this :: outer)
  | inheriting {outer : List TextScope} (nested : Nested outer) : Nested (this :: super :: outer)

theorem Nested.behind (h : Nested scopes) (more : List String) : Nested (behind more scopes) := by
  cases h with
  | outermost => exact .outermost
  | names outer => exact .names outer
  | this outer isOpen => exact .this outer isOpen
  | inheriting outer => exact .inheriting outer

theorem innermostClass_behind (more : List String) (scopes : List TextScope) :
    innermostClass (behind more scopes) = innermostClass scopes := by
  cases scopes with
  | nil => rfl
  | cons scope outer => cases scope <;> rfl

theorem innermostClass_this (isOpen : Open scopes) : innermostClass (this :: scopes) = .baseClass := by
  cases scopes with
  | nil => rfl
  | cons scope outer =>
    obtain ⟨declared, rfl⟩ := isOpen scope rfl
    rfl

/-- Outside all classes no scope is one of a class. -/
theorem Nested.this_eq_none (h : Nested scopes) (none : innermostClass scopes = .noClass) :
    scopes.findIdx? (· = TextScope.this) = Option.none := by
  induction h with
  | outermost => rfl
  | names outer ih => 
    rw [List.findIdx?_cons, ih none]
    rfl
  | this _ isOpen =>
    rw [innermostClass_this isOpen] at none
    cases none
  | inheriting => cases none

/-- In a class with a superclass, the scope of the superclass is the one around that of `this`. -/
theorem Nested.exists_super (h : Nested scopes) (inherits : innermostClass scopes = .subclass) :
    ∃ distance, scopes.findIdx? (· = TextScope.this) = some distance ∧
      scopes.findIdx? (· = TextScope.super) = some (distance + 1) := by
  induction h with
  | outermost => cases inherits
  | names outer ih =>
    obtain ⟨distance, found, found'⟩ := ih inherits
    refine ⟨distance + 1, ?_, ?_⟩
    · rw [List.findIdx?_cons, found]
      rfl
    · rw [List.findIdx?_cons, found']
      rfl
  | this _ isOpen =>
    rw [innermostClass_this isOpen] at inherits
    cases inherits
  | inheriting => exact ⟨0, rfl, rfl⟩

end TextScope

open TextScope

/-- The walk stands in these scopes of the text. -/
structure Standing.InScopes (p : Standing) (scopes : List TextScope) : Prop where
  holds : p.scopes.map Bindings.contains = scopes.map TextScope.holds
  surrounding : p.surrounding = innermostClass scopes
  nested : Nested scopes

namespace Standing.InScopes

variable {p : Standing} {scopes : List TextScope}

theorem behind_nil (h : p.InScopes scopes) : p.InScopes (behind [] scopes) := by
  rwa [TextScope.behind_nil]

theorem distance_eq (h : p.InScopes scopes) (name : String) :
    distance p.scopes name = scopes.findIdx? (·.holds name) := by
  have same := congrArg (List.findIdx? fun declares => declares name) h.holds
  rwa [List.findIdx?_map, List.findIdx?_map] at same

theorem distance_user (h : p.InScopes scopes) {name : Ident} (user : UserName name) :
    distance p.scopes name.lexeme = scopes.findIdx? (·.declares name.lexeme) := by
  rw [h.distance_eq]
  congr 1
  funext scope
  cases scope with
  | names declared => simp [TextScope.holds, TextScope.declares, user.1, user.2]
  | this => simp [TextScope.holds, TextScope.declares, user.1]
  | super => simp [TextScope.holds, TextScope.declares, user.2]

theorem distance_this (h : p.InScopes scopes) :
    distance p.scopes thisName = scopes.findIdx? (· = .this) := by
  have other : thisName ≠ superName := by decide
  rw [h.distance_eq]
  congr 1
  funext scope
  cases scope <;> simp [TextScope.holds, other]

theorem distance_super (h : p.InScopes scopes) :
    distance p.scopes superName = scopes.findIdx? (· = .super) := by
  have other : superName ≠ thisName := by decide
  rw [h.distance_eq]
  congr 1
  funext scope
  cases scope <;> simp [TextScope.holds, other]

theorem declare (h : p.InScopes scopes) (isOpen : Open scopes) {name : Ident} (user : UserName name)
    (ready : Bool) : (p.declare name ready).InScopes (behind [name.lexeme] scopes) := by
  refine ⟨?_, h.surrounding.trans (innermostClass_behind _ _).symm, h.nested.behind _⟩
  have holds := h.holds
  obtain ⟨walked, body, surrounding⟩ := p
  cases scopes with
  | nil =>
    cases walked with
    | nil => rfl
    | cons scope outer => cases holds
  | cons scope outer =>
    obtain ⟨declared, rfl⟩ := isOpen scope rfl
    cases walked with
    | nil => cases holds
    | cons scope' outer' =>
      obtain ⟨inner, rest⟩ := List.cons.inj holds
      refine congrArg₂ List.cons ?_ rest
      funext name'
      rw [Bindings.contains_insert, congrFun inner name']
      by_cases same : name.lexeme = name'
      · subst same
        simp [TextScope.holds, user.1, user.2]
      · simp [TextScope.holds, same, Ne.symm same]

theorem inBlock (h : p.InScopes scopes) : (p.within .empty).InScopes (.names [] :: scopes) :=
  ⟨congrArg (_ :: ·) h.holds, h.surrounding, .names h.nested⟩

/-- Behind parameters. -/
theorem foldl_declare (h : p.InScopes scopes) (isOpen : Open scopes) {names : List Ident}
    (users : ∀ name ∈ names, UserName name) :
    (names.foldl (fun p name => p.declare name true) p).InScopes
      (behind (names.map Ident.lexeme) scopes) := by
  induction names generalizing p scopes with
  | nil => exact h.behind_nil
  | cons name rest ih =>
    rw [List.forall_mem_cons] at users
    have first := h.declare isOpen users.1 true
    have all := ih first (isOpen.behind _) users.2
    rwa [behind_behind] at all

theorem contains_keywordScope (name : String) :
    (keywordScope name).contains = fun name' => decide (name' = name) := by
  funext name'
  rw [keywordScope, Bindings.contains_insert]
  exact (Bool.or_false _).trans (decide_eq_decide.mpr eq_comm)

/-- Around the methods of a class without a superclass. -/
theorem aroundMethods (h : p.InScopes scopes) (isOpen : Open scopes) :
    ({ p with surrounding := .baseClass }.within (keywordScope thisName)).InScopes
      (.this :: scopes) :=
  ⟨congrArg₂ List.cons (contains_keywordScope _) h.holds, (innermostClass_this isOpen).symm,
    .this h.nested isOpen⟩

/-- Around the methods of a class with a superclass. -/
theorem aroundInheriting (h : p.InScopes scopes) :
    (({ p with surrounding := .subclass }.within (keywordScope superName)).within
      (keywordScope thisName)).InScopes (.this :: .super :: scopes) :=
  ⟨congrArg₂ List.cons (contains_keywordScope _)
    (congrArg₂ List.cons (contains_keywordScope _) h.holds), rfl, .inheriting h.nested⟩

/-- Behind a statement. -/
theorem leads (h : p.InScopes scopes) (isOpen : Open scopes) {s : Stmt}
    (names : s.Every (Node.Parsed .scanned)) :
    (s.leads p).InScopes (behind s.declares.toList scopes) := by
  cases s with
  | var name initial => exact h.declare isOpen (Stmt.Every.self names).names true
  | class_ name superclass methods => exact h.declare isOpen names.1.names.1 true
  | function decl =>
    obtain ⟨name, parameters, body⟩ := decl
    cases name with
    | named name => exact h.declare isOpen ((Function.Every.self names.2).names.1 name rfl) true
    | anonymous line => exact h.behind_nil
  | _ => exact h.behind_nil

end Standing.InScopes

/-! ## The walk -/

/-- Everything in the node is located, if the node stands in these scopes. -/
def Node.AllLocated (scopes : List TextScope) (n : Node) : Prop :=
  ∀ position, Relation.ReflTransGen Position.Part ⟨scopes, n⟩ position →
    position.node.Located position.scopes

/-- The parts of the node stand in other scopes than it does itself. -/
def Node.opens : Node → Bool
  | .stmt (.block _) | .stmt (.class_ _ _ _) | .function _ => true
  | _ => false

namespace Node.AllLocated

variable {scopes : List TextScope} {n : Node}

theorem intro (here : n.Located scopes)
    (parts : ∀ position, Position.Part ⟨scopes, n⟩ position → position.node.AllLocated position.scopes) :
    n.AllLocated scopes := by
  intro position path
  rcases path.cases_head with rfl | ⟨next, part, rest⟩
  · exact here
  · exact parts next part position rest

/-- A node that opens no scopes is its operands. -/
theorem of_operands (plain : n.opens = false) (here : n.Located scopes)
    (operands : ∀ part ∈ n.operands, part.AllLocated scopes) : n.AllLocated scopes := by
  refine intro here fun position part => ?_
  cases part with
  | operand mem => exact operands _ mem
  | _ => cases plain

end Node.AllLocated

theorem Stmt.declares_of_not_isDeclaration {s : Stmt} (h : s.isDeclaration = false) :
    s.declares = none := by
  cases s <;> first | rfl | cases h

mutual

theorem Expr.arrives {p : Standing} {e : Expr} (h : e.Every (Node.Parsed .scanned)) :
    Arrives p p e.resolve fun e' =>
      ∀ scopes, p.InScopes scopes → (Node.expr e').AllLocated scopes := by
  cases e with
  | literal value =>
    rw [Expr.resolve]
    exact .pure fun scopes _ => .of_operands rfl trivial nofun
  | group inner =>
    rw [Expr.resolve]
    exact (Expr.arrives h.2).bind fun inner' inside => .pure fun scopes here =>
      .of_operands rfl trivial (List.forall_mem_singleton.mpr (inside scopes here))
  | unary op operand =>
    rw [Expr.resolve]
    exact (Expr.arrives h.2).bind fun operand' inside => .pure fun scopes here =>
      .of_operands rfl trivial (List.forall_mem_singleton.mpr (inside scopes here))
  | binary left op right =>
    rw [Expr.resolve]
    exact (Expr.arrives h.2.1).bind fun left' inLeft => (Expr.arrives h.2.2).bind
      fun right' inRight => .pure fun scopes here => .of_operands rfl trivial
        (List.forall_mem_cons.mpr ⟨inLeft scopes here,
          List.forall_mem_singleton.mpr (inRight scopes here)⟩)
  | logical left op right =>
    rw [Expr.resolve]
    exact (Expr.arrives h.2.1).bind fun left' inLeft => (Expr.arrives h.2.2).bind
      fun right' inRight => .pure fun scopes here => .of_operands rfl trivial
        (List.forall_mem_cons.mpr ⟨inLeft scopes here,
          List.forall_mem_singleton.mpr (inRight scopes here)⟩)
  | variable_ ref =>
    rw [Expr.resolve]
    refine (Arrives.reference h.unresolved).bind fun ref' ⟨name, depth⟩ =>
      .pure fun scopes here => .of_operands rfl ?_ nofun
    rw [Node.Located, depth, name]
    exact here.distance_user h.names
  | assign target value =>
    rw [Expr.resolve]
    have new : target.depth = none := h.1.unresolved
    rw [new]
    refine (Expr.arrives h.2).bind fun value' inside => (Arrives.locate _).bind fun depth found =>
      .pure fun scopes here => .of_operands rfl ?_ (List.forall_mem_singleton.mpr (inside scopes here))
    exact found.trans (here.distance_user h.1.names)
  | call callee arguments line =>
    rw [Expr.resolve]
    exact (Expr.arrives h.2.1).bind fun callee' inCallee => (Expr.arrivesAll h.2.2).bind
      fun arguments' inArguments => .pure fun scopes here => .of_operands rfl trivial
        (List.forall_mem_cons.mpr ⟨inCallee scopes here,
          List.forall_mem_map.mpr fun e mem => inArguments scopes here e mem⟩)
  | get object name =>
    rw [Expr.resolve]
    exact (Expr.arrives h.2).bind fun object' inside => .pure fun scopes here =>
      .of_operands rfl trivial (List.forall_mem_singleton.mpr (inside scopes here))
  | set object name value =>
    rw [Expr.resolve]
    exact (Expr.arrives h.2.2).bind fun value' inValue => (Expr.arrives h.2.1).bind
      fun object' inObject => .pure fun scopes here => .of_operands rfl trivial
        (List.forall_mem_cons.mpr ⟨inObject scopes here,
          List.forall_mem_singleton.mpr (inValue scopes here)⟩)
  | this keyword depth =>
    rw [Expr.resolve]
    have new : depth = none := h.unresolved
    rw [new]
    refine (Arrives.this h.names).bind fun depth' found => .pure fun scopes here =>
      .of_operands rfl ?_ nofun
    rw [Node.Located, found]
    split
    · rename_i outside
      rw [here.surrounding] at outside
      exact (here.nested.this_eq_none outside).symm
    · exact here.distance_this
  | super keyword method depth =>
    rw [Expr.resolve]
    have new : depth = none := h.unresolved
    rw [new]
    refine (Arrives.super h.names.1).bind fun depth' found => .pure fun scopes here =>
      .of_operands rfl ?_ nofun
    rw [here.surrounding, here.distance_super] at found
    rw [Node.Located]
    split
    · rename_i inherits
      obtain ⟨distance, atThis, atSuper⟩ := here.nested.exists_super inherits
      rw [if_pos inherits, atSuper] at found
      exact ⟨distance, atThis, atSuper, found⟩
    · rename_i other
      rwa [if_neg other] at found
  | function decl =>
    rw [Expr.resolve]
    exact (Function.arrives h.2).bind fun decl' inside => .pure fun scopes here =>
      .of_operands rfl trivial (List.forall_mem_singleton.mpr (inside.2 scopes here))

theorem Expr.arrivesAll {p : Standing} {es : List Expr}
    (h : Expr.EveryAll (Node.Parsed .scanned) es) :
    Arrives p p (Expr.resolveAll es) fun es' =>
      ∀ scopes, p.InScopes scopes → ∀ e ∈ es', (Node.expr e).AllLocated scopes := by
  cases es with
  | nil =>
    rw [Expr.resolveAll]
    exact .pure fun scopes _ => List.forall_mem_nil _
  | cons e rest =>
    rw [Expr.resolveAll]
    exact (Expr.arrives h.1).bind fun e' inFirst => (Expr.arrivesAll h.2).bind fun rest' inRest =>
      .pure fun scopes here => List.forall_mem_cons.mpr ⟨inFirst scopes here, inRest scopes here⟩

theorem Stmt.arrives {p : Standing} {s : Stmt} (h : s.Every (Node.Parsed .scanned)) :
    Arrives p (s.leads p) s.resolve fun s' => s'.declares = s.declares ∧
      ∀ scopes, p.InScopes scopes → Open scopes →
        (Node.stmt s').AllLocated (behind s.declares.toList scopes) := by
  cases s with
  | expression value =>
    rw [Stmt.resolve]
    exact (Expr.arrives h.2).bind fun value' inside => .pure ⟨rfl, fun scopes here _ =>
      .of_operands rfl trivial (List.forall_mem_singleton.mpr (inside _ here.behind_nil))⟩
  | print line value =>
    rw [Stmt.resolve]
    exact (Expr.arrives h.2).bind fun value' inside => .pure ⟨rfl, fun scopes here _ =>
      .of_operands rfl trivial (List.forall_mem_singleton.mpr (inside _ here.behind_nil))⟩
  | var name initial =>
    cases initial with
    | none =>
      rw [Stmt.resolve]
      refine (Walks.declare name).arrives.bind fun _ _ => (Walks.define name).arrives.bind
        fun _ _ => ?_
      rw [p.declare_declare]
      exact .pure ⟨rfl, fun scopes _ _ => .of_operands rfl trivial nofun⟩
    | some initial =>
      rw [Stmt.resolve]
      have user : UserName name := h.1.names
      refine (Walks.declare name).arrives.bind fun _ _ => (Expr.arrives h.2).bind
        fun initial' inside => (Walks.define name).arrives.bind fun _ _ => ?_
      rw [p.declare_declare]
      exact .pure ⟨rfl, fun scopes here isOpen => .of_operands rfl trivial
        (List.forall_mem_singleton.mpr (inside _ (here.declare isOpen user false)))⟩
  | block body =>
    rw [Stmt.resolve]
    obtain ⟨scope, within⟩ := Stmt.leadsAll_within body p .empty
    have walks := Stmt.arrivesAll (p := p.within .empty) h.2
    rw [within] at walks
    refine (Walks.openScope .empty).arrives.bind fun _ _ => walks.bind fun body' inside =>
      (Walks.closeScope scope).arrives.bind fun _ _ => .pure ⟨rfl, fun scopes here _ =>
        .intro trivial fun position part => ?_⟩
    cases part with
    | operand mem => cases mem
    | block => exact inside _ here.behind_nil.inBlock (isOpen_names _ _) _ _ _ rfl
  | branch condition yes no =>
    have placed := Stmt.Every.self h |>.placed
    -- A branch is no declaration, so nothing is added to the scope around it.
    have same : yes.leads p = p := Stmt.leads_of_not_isDeclaration placed.1 p
    have none : yes.declares = none := Stmt.declares_of_not_isDeclaration placed.1
    have walks := Stmt.arrives (p := p) (s := yes) (by cases no; exacts [h.2.2, h.2.2.1])
    rw [same, none] at walks
    cases no with
    | none =>
      rw [Stmt.resolve]
      exact (Expr.arrives h.2.1).bind fun condition' inCondition => walks.bind fun yes' inYes =>
        .pure ⟨rfl, fun scopes here isOpen => .of_operands rfl trivial
          (List.forall_mem_cons.mpr ⟨inCondition _ here.behind_nil,
            List.forall_mem_singleton.mpr (inYes.2 _ here isOpen)⟩)⟩
    | some no =>
      rw [Stmt.resolve]
      have same' : no.leads p = p := Stmt.leads_of_not_isDeclaration (placed.2 no rfl) p
      have none' : no.declares = Option.none := Stmt.declares_of_not_isDeclaration (placed.2 no rfl)
      have walks' := Stmt.arrives (p := p) h.2.2.2
      rw [same', none'] at walks'
      exact (Expr.arrives h.2.1).bind fun condition' inCondition => walks.bind fun yes' inYes =>
        walks'.bind fun no' inNo => .pure ⟨rfl, fun scopes here isOpen => .of_operands rfl trivial
          (List.forall_mem_cons.mpr ⟨inCondition _ here.behind_nil,
            List.forall_mem_cons.mpr ⟨inYes.2 _ here isOpen,
              List.forall_mem_singleton.mpr (inNo.2 _ here isOpen)⟩⟩)⟩
  | loop condition body =>
    rw [Stmt.resolve]
    have same : body.leads p = p := Stmt.leads_of_not_isDeclaration h.1.placed p
    have none : body.declares = none := Stmt.declares_of_not_isDeclaration h.1.placed
    have walks := Stmt.arrives (p := p) h.2.2
    rw [same, none] at walks
    exact (Expr.arrives h.2.1).bind fun condition' inCondition => walks.bind fun body' inBody =>
      .pure ⟨rfl, fun scopes here isOpen => .of_operands rfl trivial
        (List.forall_mem_cons.mpr ⟨inCondition _ here.behind_nil,
          List.forall_mem_singleton.mpr (inBody.2 _ here isOpen)⟩)⟩
  | function decl =>
    rw [Stmt.resolve]
    obtain ⟨name, parameters, body⟩ := decl
    cases name with
    | named name =>
      have user : UserName name := (Function.Every.self h.2).names.1 name rfl
      refine (Walks.declare name).arrives.bind fun _ _ => (Walks.define name).arrives.bind
        fun _ _ => ?_
      rw [p.declare_declare]
      refine (Function.arrives h.2).bind fun decl' inside => .pure ?_
      obtain ⟨name', parameters', body'⟩ := decl'
      obtain ⟨rfl, inside⟩ := inside
      exact ⟨rfl, fun scopes here isOpen => .of_operands rfl trivial
        (List.forall_mem_singleton.mpr (inside _ (here.declare isOpen user true)))⟩
    | anonymous line =>
      refine (Function.arrives h.2).bind fun decl' inside => .pure ?_
      obtain ⟨name', parameters', body'⟩ := decl'
      obtain ⟨rfl, inside⟩ := inside
      exact ⟨rfl, fun scopes here isOpen => .of_operands rfl trivial
        (List.forall_mem_singleton.mpr (inside _ here.behind_nil))⟩
  | return_ keyword value =>
    cases value with
    | none =>
      rw [Stmt.resolve]
      exact (Walks.checkReturn _ _).arrives.bind fun _ _ => .pure ⟨rfl, fun scopes here _ =>
        .of_operands rfl trivial nofun⟩
    | some value =>
      rw [Stmt.resolve]
      exact (Walks.checkReturn _ _).arrives.bind fun _ _ => (Expr.arrives h.2).bind
        fun value' inside => .pure ⟨rfl, fun scopes here _ => .of_operands rfl trivial
          (List.forall_mem_singleton.mpr (inside _ here.behind_nil))⟩
  | class_ name superclass methods =>
    rw [Stmt.resolve]
    have user : UserName name := h.1.names.1
    cases superclass with
    | none =>
      refine Arrives.get_bind fun r same => (Walks.beginClass name).arrives.bind fun _ _ =>
        (Walks.openScope _).arrives.bind fun _ _ => (Function.arrivesAll h.2).bind
        fun methods' inside => (Walks.closeScope _).arrives.bind fun _ _ =>
        (Walks.modifySurrounding _).arrives.bind fun _ _ => ?_
      rw [show r.surrounding = p.surrounding from congrArg Standing.surrounding same]
      refine .pure ⟨rfl, fun scopes here isOpen => .intro trivial fun position part => ?_⟩
      have declared := here.declare isOpen user true
      cases part with
      | operand mem => cases mem
      | method mem => exact inside _ (declared.aroundMethods (isOpen.behind _)) _ mem
    | some ref =>
      -- The superclass is looked up behind the name of the class, outside of the scopes of `super` and `this`.
      have user' : UserName ref.name := h.1.names.2 ref rfl
      have new : ref.depth = none := h.1.unresolved ref rfl
      refine Arrives.get_bind fun r same => (Walks.beginClass name).arrives.bind fun _ _ =>
        (Arrives.superclass name new).bind fun ref' found =>
        (Walks.openScope _).arrives.bind fun _ _ => (Function.arrivesAll h.2).bind
        fun methods' inside => (Walks.closeScope _).arrives.bind fun _ _ =>
        (Walks.closeScope _).arrives.bind fun _ _ =>
        (Walks.modifySurrounding _).arrives.bind fun _ _ => ?_
      rw [show r.surrounding = p.surrounding from congrArg Standing.surrounding same]
      refine .pure ⟨rfl, fun scopes here isOpen => .intro trivial fun position part => ?_⟩
      have declared := here.declare isOpen user true
      obtain ⟨sameName, depth⟩ := found
      cases part with
      | operand mem =>
        cases List.mem_singleton.mp mem
        refine .of_operands rfl ?_ nofun
        rw [Node.Located, depth, sameName]
        exact declared.distance_user user'
      | inheriting mem => exact inside _ declared.aroundInheriting _ mem

theorem Stmt.arrivesAll {p : Standing} {ss : List Stmt}
    (h : Stmt.EveryAll (Node.Parsed .scanned) ss) :
    Arrives p (Stmt.leadsAll ss p) (Stmt.resolveAll ss) fun ss' =>
      ∀ scopes, p.InScopes scopes → Open scopes → ∀ before s after, ss' = before ++ s :: after →
        (Node.stmt s).AllLocated (behind (Stmt.declaredAll (before ++ [s])) scopes) := by
  cases ss with
  | nil =>
    rw [Stmt.resolveAll]
    refine .pure fun scopes _ _ before s after none => ?_
    cases before <;> cases none
  | cons first rest =>
    rw [Stmt.resolveAll]
    refine (Stmt.arrives h.1).bind fun first' inFirst => (Stmt.arrivesAll h.2).bind
      fun rest' inRest => .pure fun scopes here isOpen before s after split => ?_
    have declared (ss : List Stmt) :
        Stmt.declaredAll (first' :: ss) = first.declares.toList ++ Stmt.declaredAll ss := by
      rw [← inFirst.1, Stmt.declaredAll, List.filterMap_cons]
      cases first'.declares <;> rfl
    cases before with
    | nil =>
      cases split
      rw [List.nil_append, declared]
      simpa [Stmt.declaredAll] using inFirst.2 scopes here isOpen
    | cons _ before =>
      cases split
      rw [List.cons_append, declared, ← behind_behind]
      exact inRest _ (here.leads isOpen h.1) (isOpen.behind _) before s after rfl

theorem Function.arrives {p : Standing} {f : Function} {body : Body}
    (h : f.Every (Node.Parsed .scanned)) :
    Arrives p p (f.resolve body) fun f' => f'.name = f.name ∧
      ∀ scopes, p.InScopes scopes → (Node.function f').AllLocated scopes := by
  obtain ⟨name, parameters, statements⟩ := f
  rw [Function.resolve]
  let inside : Standing := { p with body := body }
  have users : ∀ n ∈ parameters, UserName n := h.1.names.2
  obtain ⟨scope, within⟩ := Stmt.leadsAll_within statements inside
    ((Context.parameters parameters).map Readiness.isReady)
  have walks := Stmt.arrivesAll (p := inside.within ((Context.parameters parameters).map
    Readiness.isReady)) h.2
  rw [within] at walks
  have entered := inside.foldl_declare parameters .empty
  have declared := (Walks.declareAll (p := inside.within .empty) parameters).arrives
  rw [← Bindings.map_empty Readiness.isReady, entered] at declared
  refine Arrives.get_bind fun r same => (Walks.modifyBody body).arrives.bind fun _ _ =>
    (Walks.openScope .empty).arrives.bind fun _ _ => declared.bind fun _ _ =>
    walks.bind fun statements' good => (Walks.closeScope scope).arrives.bind fun _ _ =>
    (Walks.modifyBody r.body).arrives.bind fun _ _ => ?_
  rw [show r.body = p.body from congrArg Standing.body same]
  refine .pure ⟨rfl, fun scopes here => .intro trivial fun position part => ?_⟩
  have here : inside.InScopes scopes := ⟨here.holds, here.surrounding, here.nested⟩
  have behindParameters := here.inBlock.foldl_declare (isOpen_names _ _) users
  rw [← Bindings.map_empty Readiness.isReady, entered] at behindParameters
  cases part with
  | operand mem => cases mem
  | body =>
    have located := good _ behindParameters ((isOpen_names _ _).behind _) _ _ _ rfl
    rwa [behind_behind] at located

theorem Function.arrivesAll {p : Standing} {fs : List Function}
    (h : Function.EveryAll (Node.Parsed .scanned) fs) :
    Arrives p p (Function.resolveAll fs) fun fs' =>
      ∀ scopes, p.InScopes scopes → ∀ f ∈ fs', (Node.function f).AllLocated scopes := by
  cases fs with
  | nil =>
    rw [Function.resolveAll]
    exact .pure fun scopes _ => List.forall_mem_nil _
  | cons f rest =>
    rw [Function.resolveAll]
    exact (Function.arrives h.1).bind fun f' inFirst => (Function.arrivesAll h.2).bind
      fun rest' inRest => .pure fun scopes here =>
        List.forall_mem_cons.mpr ⟨inFirst.2 scopes here, inRest scopes here⟩

end

/-! ## Every part stands somewhere -/

section Stands

variable {program : List Stmt}

theorem Stands.part {scopes scopes' : List TextScope} {n n' : Node} (h : Stands program scopes n)
    (step : Position.Part ⟨scopes, n⟩ ⟨scopes', n'⟩) : Stands program scopes' n' := by
  obtain ⟨s, mem, path⟩ := h
  exact ⟨s, mem, path.tail step⟩

theorem Stands.operand {scopes : List TextScope} {n n' : Node} (h : Stands program scopes n)
    (mem : n' ∈ n.operands) : Stands program scopes n' :=
  h.part (.operand mem)

/-- The node stands somewhere in the program. -/
def Node.StandsIn (program : List Stmt) (n : Node) : Prop := ∃ scopes, Stands program scopes n

mutual

theorem Expr.every_standsIn {scopes : List TextScope} {e : Expr} (h : Stands program scopes (.expr e)) :
    e.Every (Node.StandsIn program) := by
  cases e with
  | literal _ | variable_ _ | this _ _ | super _ _ _ => exact ⟨_, h⟩
  | group _ | unary _ _ | assign _ _ | get _ _ =>
    exact ⟨⟨_, h⟩, Expr.every_standsIn (h.operand (.head _))⟩
  | binary _ _ _ | logical _ _ _ | set _ _ _ =>
    exact ⟨⟨_, h⟩, Expr.every_standsIn (h.operand (.head _)),
      Expr.every_standsIn (h.operand (.tail _ (.head _)))⟩
  | call _ arguments _ =>
    exact ⟨⟨_, h⟩, Expr.every_standsIn (h.operand (.head _)), Expr.everyAll_standsIn
      fun _ mem => h.operand (.tail _ (List.mem_map_of_mem mem))⟩
  | function _ => exact ⟨⟨_, h⟩, Function.every_standsIn (h.operand (.head _))⟩

theorem Expr.everyAll_standsIn {scopes : List TextScope} {es : List Expr}
    (h : ∀ e ∈ es, Stands program scopes (.expr e)) :
    Expr.EveryAll (Node.StandsIn program) es := by
  cases es with
  | nil => trivial
  | cons _ _ =>
    rw [List.forall_mem_cons] at h
    exact ⟨Expr.every_standsIn h.1, Expr.everyAll_standsIn h.2⟩

theorem Stmt.every_standsIn {scopes : List TextScope} {s : Stmt} (h : Stands program scopes (.stmt s)) :
    s.Every (Node.StandsIn program) := by
  cases s with
  | expression _ | print _ _ => exact ⟨⟨_, h⟩, Expr.every_standsIn (h.operand (.head _))⟩
  | var _ initial =>
    cases initial with
    | none => exact ⟨_, h⟩
    | some _ => exact ⟨⟨_, h⟩, Expr.every_standsIn (h.operand (.head _))⟩
  | block _ =>
    refine ⟨⟨_, h⟩, Stmt.everyAll_standsIn fun s mem => ?_⟩
    obtain ⟨before, after, rfl⟩ := List.append_of_mem mem
    exact ⟨_, h.part .block⟩
  | branch _ _ no =>
    cases no with
    | none =>
      exact ⟨⟨_, h⟩, Expr.every_standsIn (h.operand (.head _)),
        Stmt.every_standsIn (h.operand (.tail _ (.head _)))⟩
    | some _ =>
      exact ⟨⟨_, h⟩, Expr.every_standsIn (h.operand (.head _)),
        Stmt.every_standsIn (h.operand (.tail _ (.head _))),
        Stmt.every_standsIn (h.operand (.tail _ (.tail _ (.head _))))⟩
  | loop _ _ =>
    exact ⟨⟨_, h⟩, Expr.every_standsIn (h.operand (.head _)),
      Stmt.every_standsIn (h.operand (.tail _ (.head _)))⟩
  | function _ => exact ⟨⟨_, h⟩, Function.every_standsIn (h.operand (.head _))⟩
  | return_ _ value =>
    cases value with
    | none => exact ⟨_, h⟩
    | some _ => exact ⟨⟨_, h⟩, Expr.every_standsIn (h.operand (.head _))⟩
  | class_ _ superclass methods =>
    refine ⟨⟨_, h⟩, Function.everyAll_standsIn fun f mem => ?_⟩
    cases superclass with
    | none => exact ⟨_, h.part (.method mem)⟩
    | some _ => exact ⟨_, h.part (.inheriting mem)⟩

theorem Stmt.everyAll_standsIn {ss : List Stmt} (h : ∀ s ∈ ss, (Node.stmt s).StandsIn program) :
    Stmt.EveryAll (Node.StandsIn program) ss := by
  cases ss with
  | nil => trivial
  | cons _ _ =>
    rw [List.forall_mem_cons] at h
    exact ⟨h.1.elim fun _ => Stmt.every_standsIn, Stmt.everyAll_standsIn h.2⟩

theorem Function.every_standsIn {scopes : List TextScope} {f : Function}
    (h : Stands program scopes (.function f)) : f.Every (Node.StandsIn program) := by
  cases f with
  | mk _ _ body =>
    refine ⟨⟨_, h⟩, Stmt.everyAll_standsIn fun s mem => ?_⟩
    obtain ⟨before, after, rfl⟩ := List.append_of_mem mem
    exact ⟨_, h.part .body⟩

theorem Function.everyAll_standsIn {fs : List Function}
    (h : ∀ f ∈ fs, (Node.function f).StandsIn program) :
    Function.EveryAll (Node.StandsIn program) fs := by
  cases fs with
  | nil => trivial
  | cons _ _ =>
    rw [List.forall_mem_cons] at h
    exact ⟨h.1.elim fun _ => Function.every_standsIn, Function.everyAll_standsIn h.2⟩

end

end Stands

/-- **Every reference has the lexical distance of its name as its depth.**  What resolution makes of the
statements that are parsed from tokens, with errors in them or not, is these statements again, but for
the depths in them.  Each of their parts stands in scopes of the text, and the depths in it are those
that these scopes ask for.  All that is asked of the tokens is that no name among them is a reserved
word and that keywords are spelled as such, which is true of all that are scanned (`names_scan`). -/
theorem located_resolveProgram {tokens : List Token} (names : ∀ t ∈ tokens, t.Names .scanned) :
    let program := (parseProgram tokens).statements
    let resolved := (resolveProgram program).program
    Stmt.relabelAll .unresolved resolved = program ∧
      Stmt.EveryAll (Node.StandsIn resolved) resolved ∧
      ∀ scopes n, Stands resolved scopes n → n.Located scopes := by
  refine ⟨?_, Stmt.everyAll_standsIn fun s mem => ⟨[], s, mem, .refl⟩, ?_⟩
  · rw [relabelAll_resolveProgram, relabelAll_parseProgram]
  · rintro scopes n ⟨s, mem, path⟩
    obtain ⟨before, after, split⟩ := List.append_of_mem mem
    have arrives := Stmt.arrivesAll (p := Resolver.start.standing) (parsed_parseProgram names)
      Resolver.start rfl
    exact arrives.2 [] ⟨rfl, rfl, .outermost⟩ nofun before s after split ⟨scopes, n⟩ path

/-- A name that is read in its own initializer and declared again, and a class that inherits from
itself. -/
def faultySource : String := "{ var b = b; var b; class A < A { m() { super.m(this, b); } } }"

/-- In spite of three errors the depths are the lexical distances. -/
theorem located_faultySource :
    let resolution := resolveProgram (parseProgram (scan faultySource).tokens).statements
    (∀ t ∈ (scan faultySource).tokens, t.Names .scanned) ∧
    resolution.errors.map ResolveError.cause =
      [.readInOwnInitializer, .declaredTwice, .inheritsFromItself] ∧
    Stmt.mentionsAll resolution.program =
      [.reference .variable_ "b" 1 (some 0), .reference .variable_ "A" 1 (some 0),
        .enter .method "m" 1 0, .reference .super "super" 1 (some 2),
        .reference .this "this" 1 (some 1), .reference .variable_ "b" 1 (some 3), .leave] ∧
    ∀ scopes n, Stands resolution.program scopes n → n.Located scopes :=
  ⟨names_scan _, by decide +kernel, by decide +kernel, (located_resolveProgram (names_scan _)).2.2⟩

end Lox
