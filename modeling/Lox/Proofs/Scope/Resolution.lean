import Lox.Proofs.Scope.Context

/-!
# Resolution finds the scopes of names

A walk that reports nothing gives every reference the number of scopes between it and the nearest one
that declares its name (`Node.Agrees`), as its context has it.  Around `this` and `super` the scopes
found are those that belong to the method and to the class around it: no program can declare these
names (`UserName`), so that nothing comes in between.

`Walks` is the judgement that is carried through the tree.  Where a walk gets to does not depend on
what it reports, and only the result does.
-/

namespace Lox

open Resolver

/-! ## Contexts -/

/-- A name that a program can declare. -/
def UserName (name : Ident) : Prop := name.lexeme ≠ thisName ∧ name.lexeme ≠ superName

/-- The words of a source: no name is a keyword that scopes are made for, and keywords are spelled as
such. -/
def Vocabulary.scanned : Vocabulary := ⟨UserName, fun k keyword => keyword.Spells k⟩

theorem Resolver.distance_cons (scope : Scope) (scopes : List Scope) (name : String) :
    distance (scope :: scopes) name =
      if scope.contains name then some 0 else (distance scopes name).map (· + 1) := by
  rw [distance, List.findIdx?_cons]
  rfl

/-- Change the innermost scope, if there is one. -/
def Scope.mapInnermost (f : Scope → Scope) : List Scope → List Scope
  | [] => []
  | scope :: outer => f scope :: outer

/-- Declaring one name makes no difference to another. -/
theorem Resolver.distance_insert_of_ne {name name' : String} (ne : name ≠ name') (ready : Bool)
    (scopes : List Scope) : distance (Scope.mapInnermost (·.insert name ready) scopes) name' =
      distance scopes name' := by
  cases scopes with
  | nil => rfl
  | cons scope outer =>
    simp only [Scope.mapInnermost, distance_cons, Bindings.contains_insert, ne, decide_false,
      Bool.false_or]

namespace Context

variable {ctx : Context} {scope : LexicalScope} {name : String} {distance : Nat}

theorem scopes_cons (scope : LexicalScope) (ctx : Context) :
    scopes (scope :: ctx) = scope.names.map Readiness.isReady :: ctx.scopes := rfl

theorem scopes_declare (ctx : Context) (name : String) (readiness : Readiness) :
    (ctx.declare name readiness).scopes =
      Scope.mapInnermost (·.insert name readiness.isReady) ctx.scopes := by
  cases ctx with
  | nil => rfl
  | cons scope outer =>
    rw [declare, scopes_cons, scopes_cons, Scope.mapInnermost, Bindings.map_insert]

/-- The scope so many links out is the nearest one that declares a name. -/
structure Finds (ctx : Context) (name : String) (distance : Nat) (scope : LexicalScope) : Prop where
  there : ctx[distance]? = some scope
  declares : scope.names.contains name = true
  nearest : ∀ n < distance, ∀ inner, ctx[n]? = some inner → inner.names.contains name = false

/-- The distance of a name is that of the nearest scope that declares it. -/
theorem exists_finds (h : Resolver.distance ctx.scopes name = some distance) :
    ∃ scope, ctx.Finds name distance scope := by
  induction ctx generalizing distance with
  | nil => cases h
  | cons scope ctx ih =>
    rw [scopes_cons, distance_cons, Bindings.contains_map] at h
    split at h
    · rename_i here
      cases h
      exact ⟨scope, rfl, here, fun n lt => absurd lt (Nat.not_lt_zero n)⟩
    · rename_i other
      obtain ⟨inner, found, rfl⟩ := Option.map_eq_some_iff.mp h
      obtain ⟨scope', there, declares, nearest⟩ := ih found
      refine ⟨scope', there, declares, fun n lt between same => ?_⟩
      cases n with
      | zero =>
        cases same
        exact Bool.eq_false_iff.mpr other
      | succ n => exact nearest n (Nat.lt_of_succ_lt_succ lt) between same

/-- The construct that the scope so many links out belongs to. -/
def constructAt (ctx : Context) (distance : Nat) : Option Construct :=
  ctx[distance]?.map LexicalScope.construct

theorem constructAt_declare (ctx : Context) (name : String) (readiness : Readiness)
    (distance : Nat) : (ctx.declare name readiness).constructAt distance =
      ctx.constructAt distance := by
  cases ctx with
  | nil => rfl
  | cons scope outer => cases distance <;> rfl

/-- The nearest scope that declares `this` is one around a method. -/
def FindsThis (ctx : Context) (distance : Nat) : Prop :=
  Resolver.distance ctx.scopes thisName = some distance ∧
    ∃ method, ctx.constructAt distance = some (.self method)

/-- The nearest scope that declares `super` is around the nearest one that declares `this`. -/
def FindsSuper (ctx : Context) (distance : Nat) : Prop :=
  ctx.FindsThis distance ∧ Resolver.distance ctx.scopes superName = some (distance + 1) ∧
    ∃ name methods, ctx.constructAt (distance + 1) = some (.parent name methods)

/-- What is found of a class around here. -/
def Surrounds (ctx : Context) : Surrounding → Prop
  | .noClass => True
  | .baseClass => ∃ distance, ctx.FindsThis distance
  | .subclass => ∃ distance, ctx.FindsSuper distance

theorem FindsThis.cons (h : ctx.FindsThis distance) (new : scope.names.contains thisName = false) :
    FindsThis (scope :: ctx) (distance + 1) := by
  refine ⟨?_, h.2⟩
  rw [scopes_cons, distance_cons, Bindings.contains_map, new, h.1]
  rfl

theorem FindsSuper.cons (h : ctx.FindsSuper distance)
    (new : scope.names.contains thisName = false)
    (new' : scope.names.contains superName = false) : FindsSuper (scope :: ctx) (distance + 1) := by
  refine ⟨h.1.cons new, ?_, h.2.2⟩
  rw [scopes_cons, distance_cons, Bindings.contains_map, new', h.2.1]
  rfl

/-- An inner scope without these names hides nothing. -/
theorem Surrounds.cons {surrounding : Surrounding} (h : ctx.Surrounds surrounding)
    (new : scope.names.contains thisName = false)
    (new' : scope.names.contains superName = false) : Surrounds (scope :: ctx) surrounding := by
  cases surrounding with
  | noClass => trivial
  | baseClass =>
    obtain ⟨distance, found⟩ := h
    exact ⟨_, found.cons new⟩
  | subclass =>
    obtain ⟨distance, found⟩ := h
    exact ⟨_, found.cons new new'⟩

/-- Declaring a name that a program can declare hides nothing. -/
theorem Surrounds.declare {surrounding : Surrounding} {name : Ident}
    (h : ctx.Surrounds surrounding) (user : UserName name) (readiness : Readiness) :
    (ctx.declare name.lexeme readiness).Surrounds surrounding := by
  cases surrounding with
  | noClass => trivial
  | baseClass =>
    obtain ⟨distance, found, there⟩ := h
    refine ⟨distance, ?_, ?_⟩
    · rw [scopes_declare, distance_insert_of_ne user.1]
      exact found
    · rw [constructAt_declare]
      exact there
  | subclass =>
    obtain ⟨distance, ⟨found, there⟩, found', there'⟩ := h
    refine ⟨distance, ⟨?_, ?_⟩, ?_, ?_⟩
    · rw [scopes_declare, distance_insert_of_ne user.1]
      exact found
    · rw [constructAt_declare]
      exact there
    · rw [scopes_declare, distance_insert_of_ne user.2]
      exact found'
    · rw [constructAt_declare]
      exact there'

theorem Surrounds.findsThis {surrounding : Surrounding} (h : ctx.Surrounds surrounding)
    (inClass : surrounding ≠ .noClass) : ∃ distance, ctx.FindsThis distance := by
  cases surrounding with
  | noClass => exact absurd rfl inClass
  | baseClass => exact h
  | subclass =>
    obtain ⟨distance, found⟩ := h
    exact ⟨distance, found.1⟩

theorem findsThis_aroundMethod (ctx : Context) (method : Function) :
    (ctx.aroundMethod method).FindsThis 0 := by
  refine ⟨?_, method, rfl⟩
  rw [aroundMethod, scopes_cons, distance_cons, if_pos]
  rw [Bindings.contains_map, Bindings.contains_insert, decide_eq_true rfl, Bool.true_or]

theorem findsSuper_aroundMethod (ctx : Context) (name : Ident) (superclass : Reference)
    (methods : List Function) (method : Function) :
    ((ctx.aroundMethods name (some superclass) methods).aroundMethod method).FindsSuper 0 := by
  refine ⟨findsThis_aroundMethod _ method, ?_, name, methods, rfl⟩
  have other : (Bindings.empty.insert thisName Readiness.ready).contains superName = false := by
    rw [Bindings.contains_insert, decide_eq_false (by decide)]
    rfl
  have here : (Bindings.empty.insert superName Readiness.ready).contains superName = true := by
    rw [Bindings.contains_insert, decide_eq_true rfl, Bool.true_or]
  rw [aroundMethod, aroundMethods, scopes_cons, scopes_cons, distance_cons, distance_cons,
    Bindings.contains_map, Bindings.contains_map, other, here]
  rfl

theorem contains_parameters {name : String} {parameters : List Ident}
    (ne : ∀ p ∈ parameters, p.lexeme ≠ name) :
    (Context.parameters parameters).contains name = false := by
  have fold (bindings : Bindings Readiness) (new : bindings.contains name = false) :
      (parameters.foldl (fun bindings p => bindings.insert p.lexeme .ready) bindings).contains
        name = false := by
    induction parameters generalizing bindings with
    | nil => exact new
    | cons p rest ih =>
      refine ih (fun q mem => ne q (List.mem_cons_of_mem _ mem)) _ ?_
      rw [Bindings.contains_insert, new, decide_eq_false (ne p List.mem_cons_self)]
      rfl
  exact fold .empty rfl

theorem Surrounds.inBlock {surrounding : Surrounding} (h : ctx.Surrounds surrounding)
    (body : List Stmt) : (ctx.inBlock body).Surrounds surrounding := h.cons rfl rfl

theorem Surrounds.inFunction {surrounding : Surrounding} (h : ctx.Surrounds surrounding)
    {decl : Function} (users : ∀ p ∈ decl.parameters, UserName p) :
    (ctx.inFunction decl).Surrounds surrounding :=
  h.cons (contains_parameters fun p mem => (users p mem).1)
    (contains_parameters fun p mem => (users p mem).2)

end Context

/-! ## What a walk makes of a program -/

/-- The innermost scope has not declared the name before. -/
def Context.IsNew (ctx : Context) (name : String) : Prop :=
  ∀ scope ∈ ctx.head?, scope.names.contains name = false

/-- The depth of a reference is the distance of the scope that its name is found in, and a declaration
is the first one of its name in its scope. -/
def Node.Agrees (ctx : Context) : Node → Prop
  | .expr (.variable_ ref) => ref.depth = distance ctx.scopes ref.name.lexeme
  | .expr (.assign target _) => target.depth = distance ctx.scopes target.name.lexeme
  | .expr (.this _ depth) => ∃ distance, depth = some distance ∧ ctx.FindsThis distance
  | .expr (.super _ _ depth) => ∃ distance, depth = some (distance + 1) ∧ ctx.FindsSuper distance
  | .stmt (.var name _) | .stmt (.class_ name _ _) => ctx.IsNew name.lexeme
  | .stmt (.function decl) => ∀ name, decl.name = .named name → ctx.IsNew name.lexeme
  | _ => True

/-- What holds of every part of a resolved program in its context. -/
structure Node.Right (ctx : Context) (n : Node) : Prop where
  agrees : n.Agrees ctx
  names : n.Names .scanned

/-- Where a walk stands. -/
structure Standing where
  scopes : List Scope
  body : Body
  surrounding : Surrounding

/-- Where the walk stands. -/
def Resolver.standing (r : Resolver) : Standing := ⟨r.scopes, r.body, r.surrounding⟩

namespace Standing

variable {p p₁ p₂ : Standing}

/-- The walk stands where this is the context. -/
structure Admits (p : Standing) (ctx : Context) : Prop where
  scopes : ctx.scopes = p.scopes
  surrounds : ctx.Surrounds p.surrounding

/-- All these parts are right, wherever in the text the walk may stand. -/
def Everywhere (p : Standing) (nodes : Context → List (Context × Node)) : Prop :=
  ∀ ctx, p.Admits ctx → ∀ part ∈ nodes ctx, part.2.Right part.1

/-- Behind the declaration of a name. -/
def declare (p : Standing) (name : Ident) (ready : Bool) : Standing :=
  { p with scopes := Scope.mapInnermost (·.insert name.lexeme ready) p.scopes }

theorem declare_declare (p : Standing) (name : Ident) (ready ready' : Bool) :
    (p.declare name ready).declare name ready' = p.declare name ready' := by
  obtain ⟨scopes, body, surrounding⟩ := p
  cases scopes with
  | nil => rfl
  | cons scope outer => simp only [declare, Scope.mapInnermost, Bindings.insert_insert]

/-- Inside a scope. -/
def within (p : Standing) (scope : Scope) : Standing := { p with scopes := scope :: p.scopes }

/-- The innermost scope has not declared the name. -/
def Lacks (p : Standing) (name : Ident) : Prop :=
  ∀ scope ∈ p.scopes.head?, scope.contains name.lexeme = false

theorem Admits.isNew {ctx : Context} (h : p.Admits ctx) {name : Ident} (lacks : p.Lacks name) :
    ctx.IsNew name.lexeme := by
  intro scope mem
  have here := lacks (scope.names.map Readiness.isReady) (by
    rw [← h.scopes, Context.scopes, List.head?_map, mem]
    rfl)
  rwa [Bindings.contains_map] at here

theorem Admits.declare {ctx : Context} (h : p.Admits ctx) {name : Ident} (user : UserName name)
    (readiness : Readiness) :
    (p.declare name readiness.isReady).Admits (ctx.declare name.lexeme readiness) := by
  refine ⟨?_, h.surrounds.declare user readiness⟩
  rw [Context.scopes_declare, h.scopes]
  rfl

end Standing

/-- Where a walk gets to behind a statement. -/
def Stmt.leads : Stmt → Standing → Standing
  | .var name _, p => p.declare name true
  | .class_ name _ _, p => p.declare name true
  | .function ⟨.named name, _, _⟩, p => p.declare name true
  | _, p => p

/-- Where a walk gets to behind statements. -/
def Stmt.leadsAll (statements : List Stmt) (p : Standing) : Standing :=
  statements.foldl (fun p s => s.leads p) p

theorem Stmt.leads_of_not_isDeclaration {s : Stmt} (h : s.isDeclaration = false) (p : Standing) :
    s.leads p = p := by
  cases s <;> first | rfl | cases h

theorem Stmt.leads_within (s : Stmt) (p : Standing) (scope : Scope) :
    ∃ scope', s.leads (p.within scope) = p.within scope' := by
  unfold Stmt.leads
  split
  · exact ⟨_, rfl⟩
  · exact ⟨_, rfl⟩
  · exact ⟨_, rfl⟩
  · exact ⟨scope, rfl⟩

/-- Statements leave the scopes around them as they are. -/
theorem Stmt.leadsAll_within (statements : List Stmt) (p : Standing) (scope : Scope) :
    ∃ scope', Stmt.leadsAll statements (p.within scope) = p.within scope' := by
  induction statements generalizing scope with
  | nil => exact ⟨scope, rfl⟩
  | cons s rest ih =>
    obtain ⟨scope', same⟩ := s.leads_within p scope
    rw [leadsAll, List.foldl_cons, same]
    exact ih scope'

/-- Inside the body of a function the parameters are declared. -/
theorem Standing.foldl_declare (p : Standing) (names : List Ident) (bindings : Bindings Readiness) :
    names.foldl (fun p name => p.declare name true) (p.within (bindings.map Readiness.isReady)) =
      p.within ((names.foldl (fun bindings name => bindings.insert name.lexeme .ready)
        bindings).map Readiness.isReady) := by
  induction names generalizing bindings with
  | nil => rfl
  | cons name rest ih =>
    rw [List.foldl_cons, List.foldl_cons, ← ih, Bindings.map_insert]
    rfl

/-- A walk leads from one standing to another.  If it reports nothing, its result is good. -/
def Walks {α : Type} (before after : Standing) (walk : StateM Resolver α) (Good : α → Prop) : Prop :=
  ∀ r : Resolver, r.standing = before →
    (walk.run r).2.standing = after ∧ ((walk.run r).2.errors = [] → r.errors = [] ∧ Good (walk.run r).1)

namespace Walks

variable {α β : Type} {p p₁ p₂ : Standing} {walk : StateM Resolver α} {Good Good' : α → Prop}

theorem pure {a : α} (good : Good a) : Walks p p (Pure.pure a) Good :=
  fun _ same => ⟨same, fun none => ⟨none, good⟩⟩

theorem bind {Good' : β → Prop} {next : α → StateM Resolver β} (h : Walks p p₁ walk Good)
    (rest : ∀ a, Walks p₁ p₂ (next a) fun b => Good a → Good' b) :
    Walks p p₂ (walk >>= next) Good' := by
  intro r same
  obtain ⟨same₁, h⟩ := h r same
  obtain ⟨same₂, rest⟩ := rest _ _ same₁
  refine ⟨same₂, fun none => ?_⟩
  obtain ⟨none₁, good'⟩ := rest none
  obtain ⟨none₀, good⟩ := h none₁
  exact ⟨none₀, good' good⟩

theorem mono (h : Walks p p₁ walk Good) (imp : ∀ a, Good a → Good' a) : Walks p p₁ walk Good' :=
  fun r same => ⟨(h r same).1, fun none => ⟨((h r same).2 none).1, imp _ ((h r same).2 none).2⟩⟩

/-! ### The steps of a walk -/

theorem report (line : Nat) (lexeme : String) (cause : ResolveError.Cause) :
    Walks p p (Resolver.report line lexeme cause) fun _ => False := by
  refine fun r same => ⟨same, fun none => ?_⟩
  have none : r.errors ++ [⟨line, lexeme, cause⟩] = [] := none
  cases (List.append_eq_nil_iff.mp none).2

theorem define (name : Ident) : Walks p (p.declare name true) (Resolver.define name)
    fun _ => True := by
  intro r same
  subst same
  obtain ⟨scopes, body, surrounding, errors⟩ := r
  cases scopes <;> exact ⟨rfl, fun none => ⟨none, trivial⟩⟩

theorem ite {condition : Prop} [Decidable condition] {walk' : StateM Resolver α}
    (yes : condition → Walks p p₁ walk Good) (no : ¬condition → Walks p p₁ walk' Good) :
    Walks p p₁ (if condition then walk else walk') Good := by
  split
  · exact yes ‹_›
  · exact no ‹_›

theorem declare (name : Ident) : Walks p (p.declare name false) (Resolver.declare name)
    fun _ => p.Lacks name := by
  intro r same
  subst same
  obtain ⟨scopes, body, surrounding, errors⟩ := r
  cases scopes with
  | nil => exact ⟨rfl, fun none => ⟨none, fun _ mem => by cases mem⟩⟩
  | cons scope outer =>
    have rest (p : Standing) : Walks p p
        (if scope.contains name.lexeme then Resolver.report name.line name.lexeme .declaredTwice
          else return ()) fun _ => scope.contains name.lexeme = false :=
      ite (fun _ => (report _ _ _).mono fun _ => False.elim) fun new =>
        pure (Bool.eq_false_iff.mpr new)
    obtain ⟨leads, good⟩ :=
      rest _ ⟨scope.insert name.lexeme false :: outer, body, surrounding, errors⟩ rfl
    refine ⟨leads, fun none => ⟨(good none).1, fun _ mem => ?_⟩⟩
    cases mem
    exact (good none).2

theorem openScope (scope : Scope) : Walks p (p.within scope) (Resolver.openScope scope)
    fun _ => True := by
  rintro r rfl
  exact ⟨rfl, fun none => ⟨none, trivial⟩⟩

theorem closeScope (scope : Scope) : Walks (p.within scope) p Resolver.closeScope
    fun _ => True := by
  intro r same
  obtain ⟨scopes, body, surrounding, errors⟩ := r
  cases same
  exact ⟨rfl, fun none => ⟨none, trivial⟩⟩

theorem modifyBody (body : Body) :
    Walks p { p with body := body } (modify fun r => { r with body := body }) fun _ => True := by
  rintro r rfl
  exact ⟨rfl, fun none => ⟨none, trivial⟩⟩

theorem modifySurrounding (surrounding : Surrounding) :
    Walks p { p with surrounding := surrounding }
      (modify fun r => { r with surrounding := surrounding }) fun _ => True := by
  rintro r rfl
  exact ⟨rfl, fun none => ⟨none, trivial⟩⟩

theorem get_bind {next : Resolver → StateM Resolver α}
    (h : ∀ r, r.standing = p → Walks p p₁ (next r) Good) : Walks p p₁ (get >>= next) Good :=
  fun r same => h r same r same

theorem locate (name : String) :
    Walks p p (Resolver.locate name none) fun depth => depth = distance p.scopes name := by
  rintro r rfl
  exact ⟨rfl, fun none => ⟨none, Option.or_none⟩⟩

/-- What is reported on a condition makes no difference otherwise. -/
theorem reportIf {condition : Prop} [Decidable condition] {line : Nat} {lexeme : String}
    {cause : ResolveError.Cause} {rest : Unit → StateM Resolver α}
    (h : Walks p p₁ (rest ()) fun a => ¬condition → Good a) :
    Walks p p₁ (if condition then Resolver.report line lexeme cause >>= rest else rest ()) Good :=
  ite (fun _ => bind (report _ _ _) fun _ => h.mono fun _ _ => False.elim)
    fun no => h.mono fun _ good => good no

theorem checkReturn (keyword : Word) (hasValue : Bool) :
    Walks p p (Resolver.checkReturn keyword hasValue) fun _ => True := by
  rw [Resolver.checkReturn]
  refine get_bind fun r same => reportIf ?_
  exact ite (fun _ => (report _ _ _).mono fun _ => False.elim) fun _ => pure fun _ => trivial

theorem reference {ref : Reference} (new : ref.depth = none) :
    Walks p p (Resolver.reference ref) fun ref' =>
      ref'.name = ref.name ∧ ref'.depth = distance p.scopes ref.name.lexeme := by
  rw [Resolver.reference]
  refine get_bind fun r same => reportIf ?_
  rw [new]
  exact bind (locate _) fun depth => pure fun found _ => ⟨rfl, found⟩

theorem this {keyword : Word} (spells : keyword.Spells .this_) :
    Walks p p (Resolver.this keyword none) fun depth =>
      p.surrounding ≠ .noClass ∧ depth = distance p.scopes thisName := by
  rw [Resolver.this, show keyword.lexeme = thisName from spells]
  refine get_bind fun r same => ?_
  subst same
  obtain ⟨scopes, body, surrounding, errors⟩ := r
  cases surrounding with
  | noClass => exact bind (report _ _ _) fun _ => pure False.elim
  | baseClass => exact (locate _).mono fun _ found => ⟨nofun, found⟩
  | subclass => exact (locate _).mono fun _ found => ⟨nofun, found⟩

theorem super {keyword : Word} (spells : keyword.Spells .super_) :
    Walks p p (Resolver.super keyword none) fun depth =>
      p.surrounding = .subclass ∧ depth = distance p.scopes superName := by
  rw [Resolver.super, show keyword.lexeme = superName from spells]
  refine get_bind fun r same => ?_
  subst same
  obtain ⟨scopes, body, surrounding, errors⟩ := r
  cases surrounding with
  | noClass => exact bind (report _ _ _) fun _ => pure False.elim
  | baseClass => exact bind (report _ _ _) fun _ => pure False.elim
  | subclass => exact (locate _).mono fun _ found => ⟨rfl, found⟩

/-- A name is declared and may be read at once. -/
theorem declareAndDefine (name : Ident) :
    Walks p (p.declare name true) (do Resolver.declare name; Resolver.define name)
      fun _ => p.Lacks name := by
  have walks := bind (declare (p := p) name) fun _ => (define name).mono fun _ _ lacks => lacks
  rw [p.declare_declare] at walks
  exact walks

/-- Behind the declarations of parameters. -/
theorem declareAll (names : List Ident) :
    Walks p (names.foldl (fun p name => p.declare name true) p) (Resolver.declareAll names)
      fun _ => True := by
  rw [Resolver.declareAll]
  induction names generalizing p with
  | nil => exact pure trivial
  | cons name rest ih =>
    exact bind (declareAndDefine name) fun _ => ih.mono fun _ _ _ => trivial

theorem beginClass (name : Ident) :
    Walks p { p.declare name true with surrounding := .baseClass } (Resolver.beginClass name)
      fun _ => p.Lacks name := by
  rw [Resolver.beginClass]
  exact bind (modifySurrounding _) fun _ => (declareAndDefine name).mono fun _ lacks _ => lacks

/-- A superclass has another name than the class. -/
theorem superclass (name : Ident) {ref : Reference} (new : ref.depth = none) :
    Walks p ({ p with surrounding := .subclass }.within (keywordScope superName))
      (Resolver.superclass name ref) fun ref' =>
        ref.name.lexeme ≠ name.lexeme ∧ ref'.name = ref.name ∧
          ref'.depth = distance p.scopes ref.name.lexeme := by
  rw [Resolver.superclass]
  refine reportIf ?_
  exact bind (modifySurrounding _) fun _ => bind (reference new) fun ref' =>
    bind (openScope _) fun _ => pure fun _ found _ other => ⟨other, found⟩

/-! ### Declarations of functions and classes -/

theorem namedFunction {name : Ident} {parameters : List Ident} {body : List Stmt}
    {Good : Function → Prop}
    (walk : Walks (p.declare name true) (p.declare name true)
      (Function.resolve ⟨.named name, parameters, body⟩ .function) Good) :
    Walks p (p.declare name true) (Stmt.function ⟨.named name, parameters, body⟩).resolve fun s' =>
      p.Lacks name ∧ ∃ decl', s' = .function decl' ∧ Good decl' := by
  rw [Stmt.resolve]
  refine bind (declare name) fun _ => bind (define name) fun _ => ?_
  rw [p.declare_declare]
  exact bind walk fun decl' => pure fun good _ lacks => ⟨lacks, decl', rfl, good⟩

/-- The methods are walked in the scope of `this`, and behind the class things are as around it. -/
theorem baseClass {q : Standing} {name : Ident} {methods : List Function}
    {Good : List Function → Prop}
    (inner : q = ({ p.declare name true with surrounding := .baseClass } : Standing).within
      (keywordScope thisName))
    (walk : Walks q q (Function.resolveAll methods) Good) :
    Walks p (p.declare name true) (Stmt.class_ name none methods).resolve fun s' =>
      p.Lacks name ∧ ∃ methods', s' = .class_ name none methods' ∧ Good methods' := by
  subst inner
  rw [Stmt.resolve]
  refine get_bind fun r same => bind (beginClass name) fun _ => bind (openScope _) fun _ =>
    bind walk fun methods' => bind (closeScope _) fun _ => bind (modifySurrounding _) fun _ => ?_
  rw [show r.surrounding = p.surrounding from congrArg Standing.surrounding same]
  exact pure fun _ _ good _ lacks => ⟨lacks, methods', rfl, good⟩

/-- With a superclass, the scope of `super` is around that of `this`. -/
theorem subclass {q : Standing} {name : Ident} {ref : Reference} {methods : List Function}
    {Good : List Function → Prop} (new : ref.depth = none)
    (inner : q = (({ p.declare name true with surrounding := .subclass } : Standing).within
      (keywordScope superName)).within (keywordScope thisName))
    (walk : Walks q q (Function.resolveAll methods) Good) :
    Walks p (p.declare name true) (Stmt.class_ name (some ref) methods).resolve fun s' =>
      p.Lacks name ∧ ∃ ref' methods', s' = .class_ name (some ref') methods' ∧
        ref.name.lexeme ≠ name.lexeme ∧ ref'.name = ref.name ∧
        ref'.depth = distance (p.declare name true).scopes ref.name.lexeme ∧ Good methods' := by
  subst inner
  rw [Stmt.resolve]
  refine get_bind fun r same => bind (beginClass name) fun _ => bind (superclass name new) fun ref' =>
    bind (openScope _) fun _ => bind walk fun methods' => bind (closeScope _) fun _ =>
    bind (closeScope _) fun _ => bind (modifySurrounding _) fun _ => ?_
  rw [show r.surrounding = p.surrounding from congrArg Standing.surrounding same]
  exact pure fun _ _ _ good _ found lacks =>
    ⟨lacks, ref', methods', rfl, found.1, found.2.1, found.2.2, good⟩

end Walks

/-! ## The walk -/

namespace Standing

variable {p : Standing}

theorem Admits.inBlock {ctx : Context} (h : p.Admits ctx) (body : List Stmt) :
    (p.within .empty).Admits (ctx.inBlock body) :=
  ⟨congrArg (Bindings.empty :: ·) h.scopes, h.surrounds.inBlock body⟩

theorem Admits.inFunction {ctx : Context} (h : p.Admits ctx) {decl : Function}
    (users : ∀ name ∈ decl.parameters, UserName name) :
    (p.within ((Context.parameters decl.parameters).map Readiness.isReady)).Admits
      (ctx.inFunction decl) :=
  ⟨congrArg (_ :: ·) h.scopes, h.surrounds.inFunction users⟩

end Standing

open Standing

mutual

theorem Expr.walks {p : Standing} {e : Expr} (h : e.Every (Node.Parsed .scanned)) :
    Walks p p e.resolve fun e' => Everywhere p (Expr.nodes · e') := by
  cases e with
  | literal value =>
    rw [Expr.resolve]
    refine .pure fun ctx admits => ?_
    simp only [Expr.nodes, List.forall_mem_singleton]
    exact ⟨trivial, trivial⟩
  | group inner =>
    rw [Expr.resolve]
    refine (Expr.walks h.2).bind fun inner' => .pure fun inside ctx admits => ?_
    simp only [Expr.nodes, List.forall_mem_cons]
    exact ⟨⟨trivial, trivial⟩, inside ctx admits⟩
  | unary op operand =>
    rw [Expr.resolve]
    refine (Expr.walks h.2).bind fun operand' => .pure fun inside ctx admits => ?_
    simp only [Expr.nodes, List.forall_mem_cons]
    exact ⟨⟨trivial, trivial⟩, inside ctx admits⟩
  | binary left op right =>
    rw [Expr.resolve]
    refine (Expr.walks h.2.1).bind fun left' => (Expr.walks h.2.2).bind fun right' =>
      .pure fun inRight inLeft ctx admits => ?_
    simp only [Expr.nodes, List.cons_append, List.forall_mem_cons, List.forall_mem_append]
    exact ⟨⟨trivial, trivial⟩, inLeft ctx admits, inRight ctx admits⟩
  | logical left op right =>
    rw [Expr.resolve]
    refine (Expr.walks h.2.1).bind fun left' => (Expr.walks h.2.2).bind fun right' =>
      .pure fun inRight inLeft ctx admits => ?_
    simp only [Expr.nodes, List.cons_append, List.forall_mem_cons, List.forall_mem_append]
    exact ⟨⟨trivial, trivial⟩, inLeft ctx admits, inRight ctx admits⟩
  | variable_ ref =>
    rw [Expr.resolve]
    refine (Walks.reference h.unresolved).bind fun ref' => .pure fun ⟨name, depth⟩ ctx admits => ?_
    simp only [Expr.nodes, List.forall_mem_singleton]
    refine ⟨?_, ?_⟩
    · rw [Node.Agrees, depth, name, admits.scopes]
    · rw [Node.Names, name]
      exact h.names
  | assign target value =>
    rw [Expr.resolve]
    have new : target.depth = none := h.1.unresolved
    rw [new]
    refine (Expr.walks h.2).bind fun value' => (Walks.locate _).bind fun depth =>
      .pure fun found inside ctx admits => ?_
    simp only [Expr.nodes, List.forall_mem_cons]
    refine ⟨⟨?_, h.1.names⟩, inside ctx admits⟩
    rw [Node.Agrees, found, admits.scopes]
  | call callee arguments line =>
    rw [Expr.resolve]
    refine (Expr.walks h.2.1).bind fun callee' => (Expr.walksAll h.2.2).bind fun arguments' =>
      .pure fun inArguments inCallee ctx admits => ?_
    simp only [Expr.nodes, List.cons_append, List.forall_mem_cons, List.forall_mem_append]
    exact ⟨⟨trivial, trivial⟩, inCallee ctx admits, inArguments ctx admits⟩
  | get object name =>
    rw [Expr.resolve]
    refine (Expr.walks h.2).bind fun object' => .pure fun inside ctx admits => ?_
    simp only [Expr.nodes, List.forall_mem_cons]
    exact ⟨⟨trivial, h.1.names⟩, inside ctx admits⟩
  | set object name value =>
    rw [Expr.resolve]
    refine (Expr.walks h.2.2).bind fun value' => (Expr.walks h.2.1).bind fun object' =>
      .pure fun inObject inValue ctx admits => ?_
    simp only [Expr.nodes, List.cons_append, List.forall_mem_cons, List.forall_mem_append]
    exact ⟨⟨trivial, h.1.names⟩, inObject ctx admits, inValue ctx admits⟩
  | this keyword depth =>
    rw [Expr.resolve]
    have new : depth = none := h.unresolved
    rw [new]
    refine (Walks.this h.names).bind fun depth' => .pure fun ⟨inClass, found⟩ ctx admits => ?_
    simp only [Expr.nodes, List.forall_mem_singleton]
    refine ⟨?_, h.names⟩
    obtain ⟨distance, here⟩ := admits.surrounds.findsThis inClass
    exact ⟨distance, by rw [found, ← admits.scopes, here.1], here⟩
  | super keyword method depth =>
    rw [Expr.resolve]
    have new : depth = none := h.unresolved
    rw [new]
    refine (Walks.super h.names.1).bind fun depth' => .pure fun ⟨inSubclass, found⟩ ctx admits => ?_
    simp only [Expr.nodes, List.forall_mem_singleton]
    refine ⟨?_, h.names⟩
    have surrounds := admits.surrounds
    rw [inSubclass] at surrounds
    obtain ⟨distance, here⟩ := surrounds
    exact ⟨distance, by rw [found, ← admits.scopes, here.2.1], here⟩
  | function decl =>
    rw [Expr.resolve]
    refine (Function.walks h.2).bind fun decl' => .pure fun inside ctx admits => ?_
    simp only [Expr.nodes, List.forall_mem_cons]
    exact ⟨⟨trivial, trivial⟩, inside.2 ctx admits⟩

theorem Expr.walksAll {p : Standing} {es : List Expr}
    (h : Expr.EveryAll (Node.Parsed .scanned) es) :
    Walks p p (Expr.resolveAll es) fun es' => Everywhere p (Expr.nodesAll · es') := by
  cases es with
  | nil =>
    rw [Expr.resolveAll]
    exact .pure fun ctx _ => List.forall_mem_nil _
  | cons e rest =>
    rw [Expr.resolveAll]
    refine (Expr.walks h.1).bind fun e' => (Expr.walksAll h.2).bind fun rest' =>
      .pure fun inRest inFirst ctx admits => ?_
    simp only [Expr.nodesAll, List.forall_mem_append]
    exact ⟨inFirst ctx admits, inRest ctx admits⟩

theorem Stmt.walks {p : Standing} {s : Stmt} (h : s.Every (Node.Parsed .scanned)) :
    Walks p (s.leads p) s.resolve fun s' =>
      Everywhere p (Stmt.nodes · s') ∧ ∀ ctx, p.Admits ctx → (s.leads p).Admits (s'.after ctx) := by
  cases s with
  | expression value =>
    rw [Stmt.resolve]
    refine (Expr.walks h.2).bind fun value' => .pure fun inside =>
      ⟨fun ctx admits => ?_, fun ctx admits => admits⟩
    simp only [Stmt.nodes, List.forall_mem_cons]
    exact ⟨⟨trivial, trivial⟩, inside ctx admits⟩
  | print line value =>
    rw [Stmt.resolve]
    refine (Expr.walks h.2).bind fun value' => .pure fun inside =>
      ⟨fun ctx admits => ?_, fun ctx admits => admits⟩
    simp only [Stmt.nodes, List.forall_mem_cons]
    exact ⟨⟨trivial, trivial⟩, inside ctx admits⟩
  | var name initial =>
    cases initial with
    | none =>
      rw [Stmt.resolve]
      have user : UserName name := h.names
      refine (Walks.declare name).bind fun _ => (Walks.define name).bind fun _ => ?_
      rw [p.declare_declare]
      refine .pure fun _ lacks => ⟨fun ctx admits => ?_, fun ctx admits =>
        admits.declare user .ready⟩
      simp only [Stmt.nodes, List.forall_mem_singleton]
      exact ⟨admits.isNew lacks, user⟩
    | some initial =>
      rw [Stmt.resolve]
      have user : UserName name := h.1.names
      refine (Walks.declare name).bind fun _ => (Expr.walks h.2).bind fun initial' =>
        (Walks.define name).bind fun _ => ?_
      rw [p.declare_declare]
      refine .pure fun _ inside lacks => ⟨fun ctx admits => ?_, fun ctx admits =>
        admits.declare user .ready⟩
      simp only [Stmt.nodes, List.forall_mem_cons]
      exact ⟨⟨admits.isNew lacks, user⟩, inside _ (admits.declare user (.initializing initial'))⟩
  | block body =>
    rw [Stmt.resolve]
    obtain ⟨scope, within⟩ := Stmt.leadsAll_within body p .empty
    have walks := Stmt.walksAll (p := p.within .empty) h.2
    rw [within] at walks
    refine (Walks.openScope .empty).bind fun _ => walks.bind fun body' =>
      (Walks.closeScope scope).bind fun _ => .pure fun _ inside _ =>
        ⟨fun ctx admits => ?_, fun ctx admits => admits⟩
    simp only [Stmt.nodes, List.forall_mem_cons]
    exact ⟨⟨trivial, trivial⟩, inside _ (admits.inBlock body')⟩
  | branch condition yes no =>
    have placed := Stmt.Every.self h |>.placed
    have same : yes.leads p = p := Stmt.leads_of_not_isDeclaration placed.1 p
    cases no with
    | none =>
      rw [Stmt.resolve]
      have walks := Stmt.walks (p := p) h.2.2
      rw [same] at walks
      refine (Expr.walks h.2.1).bind fun condition' => walks.bind fun yes' =>
        .pure fun inYes inCondition => ⟨fun ctx admits => ?_, fun ctx admits => admits⟩
      simp only [Stmt.nodes, List.cons_append, List.forall_mem_cons, List.forall_mem_append]
      exact ⟨⟨trivial, trivial⟩, inCondition ctx admits, inYes.1 ctx admits⟩
    | some no =>
      rw [Stmt.resolve]
      have same' : no.leads p = p := Stmt.leads_of_not_isDeclaration (placed.2 no rfl) p
      have walks := Stmt.walks (p := p) h.2.2.1
      have walks' := Stmt.walks (p := p) h.2.2.2
      rw [same] at walks
      rw [same'] at walks'
      refine (Expr.walks h.2.1).bind fun condition' => walks.bind fun yes' =>
        walks'.bind fun no' => .pure fun inNo inYes inCondition =>
          ⟨fun ctx admits => ?_, fun ctx admits => admits⟩
      simp only [Stmt.nodes, List.cons_append, List.forall_mem_cons, List.forall_mem_append]
      exact ⟨⟨trivial, trivial⟩, ⟨inCondition ctx admits, inYes.1 ctx admits⟩, inNo.1 ctx admits⟩
  | loop condition body =>
    rw [Stmt.resolve]
    have same : body.leads p = p := Stmt.leads_of_not_isDeclaration h.1.placed p
    have walks := Stmt.walks (p := p) h.2.2
    rw [same] at walks
    refine (Expr.walks h.2.1).bind fun condition' => walks.bind fun body' =>
      .pure fun inBody inCondition => ⟨fun ctx admits => ?_, fun ctx admits => admits⟩
    simp only [Stmt.nodes, List.cons_append, List.forall_mem_cons, List.forall_mem_append]
    exact ⟨⟨trivial, trivial⟩, inCondition ctx admits, inBody.1 ctx admits⟩
  | function decl =>
    obtain ⟨name, parameters, body⟩ := decl
    cases name with
    | named name =>
      have user : UserName name := (Function.Every.self h.2).names.1 name rfl
      refine (Walks.namedFunction (Function.walks h.2)).mono ?_
      rintro _ ⟨lacks, ⟨_, parameters', body'⟩, rfl, rfl, inside⟩
      refine ⟨fun ctx admits => ?_, fun ctx admits => admits.declare user .ready⟩
      simp only [Stmt.nodes, List.forall_mem_cons]
      refine ⟨⟨fun name' same => ?_, trivial⟩, inside _ (admits.declare user .ready)⟩
      cases same
      exact admits.isNew lacks
    | anonymous line =>
      rw [Stmt.resolve]
      refine (Function.walks h.2).bind fun decl' => .pure fun inside => ?_
      obtain ⟨name', parameters', body'⟩ := decl'
      obtain ⟨rfl, inside⟩ := inside
      refine ⟨fun ctx admits => ?_, fun ctx admits => admits⟩
      simp only [Stmt.nodes, List.forall_mem_cons]
      exact ⟨⟨fun _ same => (by cases same), trivial⟩, inside _ admits⟩
  | return_ keyword value =>
    cases value with
    | none =>
      rw [Stmt.resolve]
      refine (Walks.checkReturn _ _).bind fun _ => .pure fun _ =>
        ⟨fun ctx admits => ?_, fun ctx admits => admits⟩
      simp only [Stmt.nodes, List.forall_mem_singleton]
      exact ⟨trivial, h.names⟩
    | some value =>
      rw [Stmt.resolve]
      refine (Walks.checkReturn _ _).bind fun _ => (Expr.walks h.2).bind fun value' =>
        .pure fun inside _ => ⟨fun ctx admits => ?_, fun ctx admits => admits⟩
      simp only [Stmt.nodes, List.forall_mem_cons]
      exact ⟨⟨trivial, h.1.names⟩, inside ctx admits⟩
  | class_ name superclass methods =>
    have user : UserName name := h.1.names.1
    cases superclass with
    | none =>
      refine (Walks.baseClass rfl (Function.walksAll h.2)).mono ?_
      rintro _ ⟨lacks, methods', rfl, inside⟩
      refine ⟨fun ctx admits => ?_, fun ctx admits => admits.declare user .ready⟩
      have declared := admits.declare user .ready
      simp only [Stmt.nodes, Option.toList, List.map_nil, List.nil_append, List.cons_append,
        List.forall_mem_cons]
      refine ⟨⟨admits.isNew lacks, h.1.names⟩, inside _ fun f => ⟨?_, ?_⟩⟩
      · exact congrArg (_ :: ·) declared.scopes
      · exact ⟨0, Context.findsThis_aroundMethod _ f⟩
    | some ref =>
      have user' : UserName ref.name := h.1.names.2 ref rfl
      refine (Walks.subclass (h.1.unresolved ref rfl) rfl (Function.walksAll h.2)).mono ?_
      rintro _ ⟨lacks, ref', methods', rfl, other, sameName, depth, inside⟩
      refine ⟨fun ctx admits => ?_, fun ctx admits => admits.declare user .ready⟩
      have declared := admits.declare user .ready
      simp only [Stmt.nodes, Option.toList, List.map_cons, List.map_nil, List.cons_append,
        List.nil_append, List.forall_mem_cons]
      refine ⟨⟨admits.isNew lacks, user, ?_⟩, ⟨?_, ?_⟩, inside _ fun f => ⟨?_, ?_⟩⟩
      · rintro _ ⟨rfl⟩
        rw [sameName]
        exact user'
      · -- The class itself has another name, so its declaration does not come in between.
        rw [Node.Agrees, depth, sameName, admits.scopes]
        exact distance_insert_of_ne other.symm _ _
      · rw [Node.Names, sameName]
        exact user'
      · exact congrArg (_ :: _ :: ·) declared.scopes
      · exact ⟨0, Context.findsSuper_aroundMethod _ name ref' methods' f⟩

theorem Stmt.walksAll {p : Standing} {ss : List Stmt}
    (h : Stmt.EveryAll (Node.Parsed .scanned) ss) :
    Walks p (Stmt.leadsAll ss p) (Stmt.resolveAll ss) fun ss' =>
      Everywhere p (Stmt.nodesAll · ss') := by
  cases ss with
  | nil =>
    rw [Stmt.resolveAll]
    exact .pure fun ctx _ => List.forall_mem_nil _
  | cons s rest =>
    rw [Stmt.resolveAll]
    refine (Stmt.walks h.1).bind fun s' => (Stmt.walksAll h.2).bind fun rest' =>
      .pure fun inRest inFirst ctx admits => ?_
    simp only [Stmt.nodesAll, List.forall_mem_append]
    exact ⟨inFirst.1 ctx admits, inRest _ (inFirst.2 ctx admits)⟩

theorem Function.walks {p : Standing} {f : Function} {body : Body}
    (h : f.Every (Node.Parsed .scanned)) :
    Walks p p (f.resolve body) fun f' => f'.name = f.name ∧ Everywhere p (Function.nodes · f') := by
  cases f with
  | mk name parameters statements =>
    rw [Function.resolve]
    let inside : Standing := { p with body := body }
    obtain ⟨scope, within⟩ := Stmt.leadsAll_within statements inside
      ((Context.parameters parameters).map Readiness.isReady)
    have walks := Stmt.walksAll (p := inside.within ((Context.parameters parameters).map
      Readiness.isReady)) h.2
    rw [within] at walks
    have declared := Walks.declareAll (p := inside.within .empty) parameters
    rw [← Bindings.map_empty Readiness.isReady, inside.foldl_declare] at declared
    refine Walks.get_bind fun r same => (Walks.modifyBody body).bind fun _ =>
      (Walks.openScope .empty).bind fun _ => declared.bind fun _ => walks.bind fun statements' =>
      (Walks.closeScope scope).bind fun _ => (Walks.modifyBody r.body).bind fun _ => ?_
    rw [show r.body = p.body from congrArg Standing.body same]
    refine .pure fun _ _ good _ _ _ => ⟨rfl, fun ctx admits => ?_⟩
    have admits : inside.Admits ctx := ⟨admits.scopes, admits.surrounds⟩
    have users : ∀ n ∈ (Function.mk name parameters statements').parameters, UserName n :=
      h.1.names.2
    simp only [Function.nodes, List.forall_mem_cons]
    exact ⟨⟨trivial, h.1.names⟩, good _ (admits.inFunction users)⟩

/-- Every method stands in a scope of its own, which declares `this`. -/
theorem Function.walksAll {p : Standing} {fs : List Function}
    (h : Function.EveryAll (Node.Parsed .scanned) fs) :
    Walks p p (Function.resolveAll fs) fun fs' =>
      ∀ ctx, (∀ f, p.Admits (ctx.aroundMethod f)) →
        ∀ part ∈ Function.nodesAll ctx fs', part.2.Right part.1 := by
  cases fs with
  | nil =>
    rw [Function.resolveAll]
    exact .pure fun ctx _ => List.forall_mem_nil _
  | cons f rest =>
    rw [Function.resolveAll]
    refine (Function.walks h.1).bind fun f' => (Function.walksAll h.2).bind fun rest' =>
      .pure fun inRest inFirst ctx admits => ?_
    simp only [Function.nodesAll, List.forall_mem_append]
    exact ⟨inFirst.2 _ (admits f'), inRest ctx admits⟩

end

/-- **In a program that is resolved without errors, every part is right in its context.** -/
theorem right_resolveProgram {program : List Stmt}
    (h : Stmt.EveryAll (Node.Parsed .scanned) program)
    (none : (resolveProgram program).errors = []) :
    ∀ part ∈ Stmt.nodesAll [] (resolveProgram program).program, part.2.Right part.1 := by
  have walks := Stmt.walksAll (p := Resolver.start.standing) h Resolver.start rfl
  exact (walks.2 none).2 [] ⟨rfl, trivial⟩

/-! ## Programs behind one another -/

/-- Outside all scopes nothing is left of a statement. -/
theorem Stmt.leadsAll_start (statements : List Stmt) :
    Stmt.leadsAll statements Resolver.start.standing = Resolver.start.standing := by
  induction statements with
  | nil => rfl
  | cons s rest ih =>
    have here : s.leads Resolver.start.standing = Resolver.start.standing := by
      unfold Stmt.leads
      split <;> rfl
    rw [leadsAll, List.foldl_cons, here]
    exact ih

/-- Statements are resolved from where those in front of them have led. -/
theorem Stmt.resolveAll_append (first second : List Stmt) (r : Resolver) :
    (Stmt.resolveAll (first ++ second)).run r =
      let left := (Stmt.resolveAll first).run r
      let right := (Stmt.resolveAll second).run left.2
      (left.1 ++ right.1, right.2) := by
  induction first generalizing r with
  | nil =>
    rw [List.nil_append, Stmt.resolveAll]
    rfl
  | cons s rest ih =>
    rw [List.cons_append, Stmt.resolveAll, Stmt.resolveAll]
    change (let tail := (Stmt.resolveAll (rest ++ second)).run (s.resolve.run r).2
      ((s.resolve.run r).1 :: tail.1, tail.2)) = _
    rw [ih]
    rfl

/-- **Nothing is carried over from one program to the next.**  Two programs that are resolved without
errors can be resolved as one. -/
theorem resolveProgram_append {first second program program' : List Stmt}
    (h : Stmt.EveryAll (Node.Parsed .scanned) first)
    (resolved : resolveProgram first = ⟨program, []⟩)
    (resolved' : resolveProgram second = ⟨program', []⟩) :
    resolveProgram (first ++ second) = ⟨program ++ program', []⟩ := by
  have walks := Stmt.walksAll (p := Resolver.start.standing) h Resolver.start rfl
  rw [Stmt.leadsAll_start] at walks
  have back : ((Stmt.resolveAll first).run Resolver.start).2 = Resolver.start := by
    have errors : ((Stmt.resolveAll first).run Resolver.start).2.errors = [] :=
      congrArg Resolution.errors resolved
    generalize ((Stmt.resolveAll first).run Resolver.start).2 = r at walks errors
    obtain ⟨scopes, body, surrounding, _⟩ := r
    cases walks.1
    cases errors
    rfl
  have joined := Stmt.resolveAll_append first second Resolver.start
  simp only [back] at joined
  change Resolution.mk ((Stmt.resolveAll (first ++ second)).run Resolver.start).1
    ((Stmt.resolveAll (first ++ second)).run Resolver.start).2.errors = _
  rw [joined]
  change Resolution.mk ((resolveProgram first).program ++ (resolveProgram second).program)
    (resolveProgram second).errors = _
  rw [resolved, resolved']

end Lox
