import Lox.Proofs.Scope.Lexical

/-!
# The errors of resolution are the faults of the text

What is wrong with a place in a program can be told from what is written around it: the blocks and
function bodies it stands in, each with the statements in front of it, the classes, and the initializers
of variables (`Path`).  `Node.faults` says what is wrong with each node, and `Stmt.placesAll` lists the
places of a program.

Resolution carries scopes with flags and the innermost function and class along instead.
`errors_resolveProgram` says that it comes to the same: it reports the faults of every place, each of them
once, whatever else it has reported.
-/

namespace Lox

open Resolver

/-! ## Places in the text -/

/-- Something that is written around a place. -/
inductive Layer where
  /-- A block, with the statements in it that stand in front of the place. -/
  | block (before : List Stmt)
  /-- The body of a function, which is a method or none, with the statements in front of the place. -/
  | body (decl : Function) (isMethod : Bool) (before : List Stmt)
  /-- The methods of a class. -/
  | methods (superclass : Option Reference)
  /-- The initializer of a variable. -/
  | initializer (name : Ident)

/-- What is written around a place, the innermost first. -/
abbrev Path : Type := List Layer

/-- The names that are declared in front of the place, if this is a scope for declarations.  The parameters
of a function are declared in its body. -/
def Layer.declared : Layer → Option (List String)
  | block before => some (Stmt.declaredAll before)
  | body decl _ before => some (decl.parameters.map Ident.lexeme ++ Stmt.declaredAll before)
  | methods _ | initializer _ => none

/-- The same for the place behind a statement. -/
def Layer.behind (s : Stmt) : Layer → Layer
  | block before => block (before ++ [s])
  | body decl isMethod before => body decl isMethod (before ++ [s])
  | methods superclass => methods superclass
  | initializer name => initializer name

namespace Path

/-- The names declared so far in the innermost scope; none if that is the global one. -/
def declared (path : Path) : List String := (path.findSome? Layer.declared).getD []

/-- Does the place stand in a scope that is not global? -/
def isLocal (path : Path) : Bool := path.any fun layer => layer.declared.isSome

/-- Does the place stand in the initializer of a local variable of this name, with no body of a function
in between? -/
def initializes (name : String) : Path → Bool
  | [] => false
  | .body _ _ _ :: _ => false
  | .initializer name' :: outer =>
      (name'.lexeme == name && isLocal outer) || initializes name outer
  | .block _ :: outer | .methods _ :: outer => initializes name outer

/-- The innermost function around the place, and whether it is a method. -/
def function : Path → Option (Function × Bool)
  | [] => none
  | .body decl isMethod _ :: _ => some (decl, isMethod)
  | _ :: outer => function outer

/-- The superclass of the innermost class around the place, if there is a class. -/
def superclass : Path → Option (Option Reference)
  | [] => none
  | .methods superclass :: _ => some superclass
  | _ :: outer => superclass outer

/-- The path of the place behind a statement. -/
def behind (s : Stmt) : Path → Path
  | [] => []
  | layer :: outer => layer.behind s :: outer

end Path

/-- A node, and what is written around it. -/
abbrev Node.Place : Type := Path × Node

mutual

/-- The places of an expression, in the order in which they are visited.  Of an assignment to a property
the value is visited first. -/
def Expr.places (path : Path) : Expr → List Node.Place
  | .literal value => [(path, .expr (.literal value))]
  | .group inner => (path, .expr (.group inner)) :: inner.places path
  | .unary op operand => (path, .expr (.unary op operand)) :: operand.places path
  | .binary left op right =>
      (path, .expr (.binary left op right)) :: (left.places path ++ right.places path)
  | .logical left op right =>
      (path, .expr (.logical left op right)) :: (left.places path ++ right.places path)
  | .variable_ ref => [(path, .expr (.variable_ ref))]
  | .assign target value => (path, .expr (.assign target value)) :: value.places path
  | .call callee arguments line =>
      (path, .expr (.call callee arguments line)) ::
        (callee.places path ++ Expr.placesAll path arguments)
  | .get object name => (path, .expr (.get object name)) :: object.places path
  | .set object name value =>
      (path, .expr (.set object name value)) :: (value.places path ++ object.places path)
  | .this keyword depth => [(path, .expr (.this keyword depth))]
  | .super keyword method depth => [(path, .expr (.super keyword method depth))]
  | .function decl => (path, .expr (.function decl)) :: decl.places path false

/-- The places of expressions. -/
def Expr.placesAll (path : Path) : List Expr → List Node.Place
  | [] => []
  | e :: rest => e.places path ++ Expr.placesAll path rest

/-- The places of a statement. -/
def Stmt.places (path : Path) : Stmt → List Node.Place
  | .expression value => (path, .stmt (.expression value)) :: value.places path
  | .print line value => (path, .stmt (.print line value)) :: value.places path
  | .var name none => [(path, .stmt (.var name none))]
  | .var name (some initial) =>
      (path, .stmt (.var name (some initial))) :: initial.places (.initializer name :: path)
  | .block body => (path, .stmt (.block body)) :: Stmt.placesAll (.block [] :: path) body
  | .branch condition yes none =>
      (path, .stmt (.branch condition yes none)) :: (condition.places path ++ yes.places path)
  | .branch condition yes (some no) =>
      (path, .stmt (.branch condition yes (some no))) ::
        (condition.places path ++ (yes.places path ++ no.places path))
  | .loop condition body =>
      (path, .stmt (.loop condition body)) :: (condition.places path ++ body.places path)
  | .function decl => (path, .stmt (.function decl)) :: decl.places path false
  | .return_ keyword none => [(path, .stmt (.return_ keyword none))]
  | .return_ keyword (some value) =>
      (path, .stmt (.return_ keyword (some value))) :: value.places path
  | .class_ name superclass methods =>
      (path, .stmt (.class_ name superclass methods)) ::
        (superclass.toList.map (fun ref => (path, .expr (.variable_ ref))) ++
          Function.placesAll (.methods superclass :: path) methods)

/-- The places of statements that stand behind one another. -/
def Stmt.placesAll (path : Path) : List Stmt → List Node.Place
  | [] => []
  | s :: rest => s.places path ++ Stmt.placesAll (path.behind s) rest

/-- The places of a function. -/
def Function.places (path : Path) (isMethod : Bool) : Function → List Node.Place
  | ⟨name, parameters, body⟩ =>
      (path, .function ⟨name, parameters, body⟩) ::
        Stmt.placesAll (.body ⟨name, parameters, body⟩ isMethod [] :: path) body

/-- The places of the methods of a class. -/
def Function.placesAll (path : Path) : List Function → List Node.Place
  | [] => []
  | f :: rest => f.places path true ++ Function.placesAll path rest

end

/-! ## Faults -/

/-- A name is declared in a scope that has declared it before. -/
def redeclared (declared : List String) (name : Ident) : List ResolveError :=
  if declared.contains name.lexeme then [⟨name.line, name.lexeme, .declaredTwice⟩] else []

/-- Parameters are declared one after the other. -/
def repeated (declared : List String) : List Ident → List ResolveError
  | [] => []
  | name :: rest => redeclared declared name ++ repeated (declared ++ [name.lexeme]) rest

/-- What is wrong with a node at a place. -/
def Node.faults (path : Path) : Node → List ResolveError
  | .stmt (.var name _) => redeclared path.declared name
  | .stmt (.function decl) =>
      match decl.name with
      | .named name => redeclared path.declared name
      | .anonymous _ => []
  | .stmt (.class_ name superclass _) =>
      redeclared path.declared name ++
        match superclass with
        | some ref =>
            if ref.name.lexeme = name.lexeme then
              [⟨ref.name.line, ref.name.lexeme, .inheritsFromItself⟩]
            else []
        | none => []
  | .function decl => repeated [] decl.parameters
  | .expr (.variable_ ref) =>
      if path.initializes ref.name.lexeme then
        [⟨ref.name.line, ref.name.lexeme, .readInOwnInitializer⟩]
      else []
  | .stmt (.return_ keyword value) =>
      match path.function with
      | none => [⟨keyword.line, keyword.lexeme, .returnOutsideFunction⟩]
      | some (decl, isMethod) =>
          if value.isSome ∧ isMethod ∧ decl.namedInit then
            [⟨keyword.line, keyword.lexeme, .valueReturnedFromInitializer⟩]
          else []
  | .expr (.this keyword _) =>
      match path.superclass with
      | none => [⟨keyword.line, keyword.lexeme, .thisOutsideClass⟩]
      | some _ => []
  | .expr (.super keyword _ _) =>
      match path.superclass with
      | none => [⟨keyword.line, keyword.lexeme, .superOutsideClass⟩]
      | some none => [⟨keyword.line, keyword.lexeme, .superWithoutSuperclass⟩]
      | some (some _) => []
  | _ => []

/-- What is wrong with some places. -/
def faults (places : List Node.Place) : List ResolveError :=
  places.flatMap fun place => place.2.faults place.1

@[simp] theorem faults_nil : faults [] = [] := rfl

@[simp] theorem faults_cons (place : Node.Place) (places : List Node.Place) :
    faults (place :: places) = place.2.faults place.1 ++ faults places := rfl

@[simp] theorem faults_append (places places' : List Node.Place) :
    faults (places ++ places') = faults places ++ faults places' := List.flatMap_append

/-! ## Where a walk stands in the text -/

/-- Where a walk gets to behind a statement depends on the name that it declares. -/
theorem Stmt.leads_eq (s : Stmt) (p : Standing) :
    s.leads p = { p with scopes := match s.declares with
      | none => p.scopes
      | some name => Scope.mapInnermost (·.insert name true) p.scopes } := by
  cases s with
  | function decl =>
    obtain ⟨name, parameters, body⟩ := decl
    cases name <;> rfl
  | _ => rfl

theorem Stmt.declaredAll_concat (before : List Stmt) (s : Stmt) :
    Stmt.declaredAll (before ++ [s]) = Stmt.declaredAll before ++ s.declares.toList := by
  rw [declaredAll, List.filterMap_append]
  cases known : s.declares <;> simp [declaredAll, known]

theorem Layer.declared_behind (layer : Layer) (s : Stmt) :
    (layer.behind s).declared = layer.declared.map (· ++ s.declares.toList) := by
  cases layer with
  | block before => exact congrArg some (Stmt.declaredAll_concat before s)
  | body decl isMethod before =>
    rw [behind, declared, Stmt.declaredAll_concat, ← List.append_assoc]
    rfl
  | methods _ | initializer _ => rfl

namespace Path

/-- The sort of the innermost function. -/
def body (path : Path) : Body :=
  match path.function with
  | none => .program
  | some (decl, isMethod) =>
      if isMethod then (if decl.namedInit then .initializer else .method) else .function

/-- The sort of the innermost class. -/
def surrounding (path : Path) : Surrounding :=
  match path.superclass with
  | none => .noClass
  | some none => .baseClass
  | some (some _) => .subclass

end Path

namespace Standing

variable {p : Standing} {path : Path}

/-- Has the innermost scope, if one is open, declared the name? -/
def hasDeclared (p : Standing) (name : String) : Bool :=
  p.scopes.head?.any fun scope => scope.contains name

/-- Inside an expression: a name that may not be read yet is one that is being initialized. -/
structure Inside (p : Standing) (path : Path) : Prop where
  initializes : ∀ name, isUninitialized p.scopes name = path.initializes name
  surrounding : p.surrounding = path.surrounding

/-- In the innermost scope exactly these names are declared, and they are ready; if there are no names,
no scope is open. -/
def Declares (p : Standing) (names : Option (List String)) : Prop :=
  match names with
  | none => p.scopes = []
  | some names => ∃ scope outer, p.scopes = scope :: outer ∧
      ∀ name, scope.find? name = if names.contains name then some true else none

/-- Where a statement may stand: right inside a scope for declarations, or outside of all. -/
structure At (p : Standing) (path : Path) : Prop where
  declares : p.Declares (path.head?.bind Layer.declared)
  isOpen : ∀ layer ∈ path.head?, layer.declared.isSome = true
  settled : ∀ name, path.initializes name = false
  body : p.body = path.body
  surrounding : p.surrounding = path.surrounding

theorem At.declared_eq (h : p.At path) : path.declared = (path.head?.bind Layer.declared).getD [] := by
  cases path with
  | nil => rfl
  | cons layer outer =>
    obtain ⟨names, known⟩ := Option.isSome_iff_exists.mp (h.isOpen layer rfl)
    simp [Path.declared, known]

theorem At.isLocal_eq (h : p.At path) : path.isLocal = !p.scopes.isEmpty := by
  have declares := h.declares
  cases path with
  | nil =>
    rw [show p.scopes = [] from declares]
    rfl
  | cons layer outer =>
    obtain ⟨names, known⟩ := Option.isSome_iff_exists.mp (h.isOpen layer rfl)
    rw [List.head?_cons, Option.bind_some, known] at declares
    obtain ⟨scope, outer, scopes, -⟩ := declares
    simp [Path.isLocal, known, scopes]

/-- A name is declared in the innermost scope of the walk exactly if it is in that of the text. -/
theorem At.contains (h : p.At path) (name : String) :
    p.hasDeclared name = path.declared.contains name := by
  have declares := h.declares
  rw [h.declared_eq, Standing.hasDeclared]
  generalize path.head?.bind Layer.declared = declared at declares
  cases declared with
  | none =>
    rw [show p.scopes = [] from declares]
    rfl
  | some names =>
    obtain ⟨scope, outer, scopes, found⟩ := declares
    rw [scopes]
    show (scope.find? name).isSome = names.contains name
    rw [found]
    cases names.contains name <;> rfl

/-- Between statements every name that is declared is ready. -/
theorem At.ready (h : p.At path) (name : String) : isUninitialized p.scopes name = false := by
  have declares := h.declares
  generalize path.head?.bind Layer.declared = declared at declares
  cases declared with
  | none =>
    rw [show p.scopes = [] from declares]
    rfl
  | some names =>
    obtain ⟨scope, outer, scopes, found⟩ := declares
    rw [scopes, isUninitialized, found]
    cases names.contains name <;> rfl

theorem At.inside (h : p.At path) : p.Inside path :=
  ⟨fun name => by rw [h.ready, h.settled], h.surrounding⟩

/-- In an initializer just the name of the variable is not ready, unless it is global. -/
theorem At.initializer (h : p.At path) (name : Ident) :
    (p.declare name false).Inside (.initializer name :: path) := by
  refine ⟨fun name' => ?_, h.surrounding⟩
  have ready := h.ready name'
  rw [Path.initializes, h.settled, Bool.or_false, h.isLocal_eq]
  obtain ⟨scopes, body, surrounding⟩ := p
  cases scopes with
  | nil =>
    rw [List.isEmpty_nil, Bool.not_true, Bool.and_false]
    rfl
  | cons scope outer =>
    rw [List.isEmpty_cons, Bool.not_false, Bool.and_true]
    show ((scope.insert name.lexeme false).find? name' == some false) = _
    rw [Bindings.find?_insert]
    by_cases same : name.lexeme = name'
    · simp [same]
    · rw [if_neg same, beq_eq_false_iff_ne.mpr same]
      exact ready

theorem At.block (h : p.At path) : (p.within .empty).At (.block [] :: path) where
  declares := ⟨.empty, p.scopes, rfl, fun _ => rfl⟩
  isOpen := by rintro _ ⟨rfl⟩; rfl
  settled := h.settled
  body := h.body
  surrounding := h.surrounding

/-- Names are declared one after the other, and each may be read at once. -/
def declareAll (scope : Scope) (names : List Ident) : Scope :=
  names.foldl (fun scope name => scope.insert name.lexeme true) scope

theorem find?_declareAll (names : List Ident) (scope : Scope) (name : String) :
    (declareAll scope names).find? name =
      if (names.map Ident.lexeme).contains name then some true else scope.find? name := by
  induction names generalizing scope with
  | nil => rfl
  | cons first rest ih =>
    rw [declareAll, List.foldl_cons]
    refine (ih _).trans ?_
    rw [Bindings.find?_insert, List.map_cons, List.contains_cons]
    by_cases later : (rest.map Ident.lexeme).contains name = true
    · rw [later, Bool.or_true]
      rfl
    · by_cases same : first.lexeme = name
      · simp [same]
      · simp [same, Ne.symm same]

/-- Inside the body of a function its parameters are declared. -/
theorem at_body (surrounding : p.surrounding = path.surrounding) (decl : Function) (isMethod : Bool) :
    ({ p with body := Path.body [.body decl isMethod []] }.within
      (declareAll .empty decl.parameters)).At (.body decl isMethod [] :: path) where
  declares := by
    refine ⟨_, p.scopes, rfl, fun name => ?_⟩
    rw [find?_declareAll, Stmt.declaredAll, List.filterMap_nil, List.append_nil]
    rfl
  isOpen := by rintro _ ⟨rfl⟩; rfl
  settled _ := by rw [Path.initializes]
  body := rfl
  surrounding := surrounding

/-- Behind a statement its name is declared. -/
theorem At.behind (h : p.At path) (s : Stmt) : (s.leads p).At (path.behind s) := by
  have leads := s.leads_eq p
  cases path with
  | nil =>
    -- No scope is open, so nothing is declared in one.
    have same : s.leads p = p := by
      obtain ⟨scopes, body, surrounding⟩ := p
      obtain rfl : scopes = [] := h.declares
      rw [leads]
      cases s.declares <;> rfl
    rw [same]
    exact h
  | cons layer outer =>
    have isOpen := h.isOpen layer rfl
    obtain ⟨names, known⟩ := Option.isSome_iff_exists.mp isOpen
    have declares := h.declares
    rw [List.head?_cons, Option.bind_some, known] at declares
    obtain ⟨scope, rest, scopes, found⟩ := declares
    have declared : (layer.behind s).declared = some (names ++ s.declares.toList) := by
      rw [layer.declared_behind, known]
      rfl
    refine ⟨?_, ?_, fun name => ?_, ?_, ?_⟩
    · show (s.leads p).Declares (layer.behind s).declared
      rw [declared, leads]
      cases s.declares with
      | none => exact ⟨scope, rest, scopes, by simpa using found⟩
      | some name =>
        refine ⟨scope.insert name true, rest, ?_, fun name' => ?_⟩
        · rw [scopes]
          rfl
        · rw [Bindings.find?_insert, found]
          by_cases same : name = name'
          · simp [same]
          · simp [same, Ne.symm same]
    · rintro _ ⟨rfl⟩
      rw [declared]
      rfl
    · rw [← h.settled name]
      cases layer <;> rfl
    · rw [leads]
      cases layer <;> exact h.body
    · rw [leads]
      cases layer <;> exact h.surrounding

end Standing

/-! ## What a walk reports -/

/-- A walk leads from one standing to another and reports these errors, in this order. -/
def Reports {α : Type} (before after : Standing) (walk : StateM Resolver α) (errors : List ResolveError) :
    Prop :=
  ∀ r : Resolver, r.standing = before →
    (walk.run r).2.standing = after ∧ (walk.run r).2.errors = r.errors ++ errors

namespace Reports

variable {α β : Type} {p p₁ p₂ : Standing} {walk : StateM Resolver α} {es es' : List ResolveError}

theorem pure (a : α) : Reports p p (Pure.pure a) [] :=
  fun _ same => ⟨same, (List.append_nil _).symm⟩

theorem bind {next : α → StateM Resolver β} (h : Reports p p₁ walk es)
    (rest : ∀ a, Reports p₁ p₂ (next a) es') : Reports p p₂ (walk >>= next) (es ++ es') := by
  intro r same
  obtain ⟨same₁, errors⟩ := h r same
  obtain ⟨same₂, errors'⟩ := rest (walk.run r).1 _ same₁
  refine ⟨same₂, errors'.trans ?_⟩
  rw [errors, List.append_assoc]

/-- A step that reports nothing. -/
theorem quiet_bind {next : α → StateM Resolver β} (h : Reports p p₁ walk [])
    (rest : ∀ a, Reports p₁ p₂ (next a) es) : Reports p p₂ (walk >>= next) es :=
  bind h rest

theorem bind_quiet {next : α → StateM Resolver β} (h : Reports p p₁ walk es)
    (rest : ∀ a, Reports p₁ p₂ (next a) []) : Reports p p₂ (walk >>= next) es := by
  have walks := bind h rest
  rwa [List.append_nil] at walks

/-- At the end of a walk its result is put together. -/
theorem bind_pure {next : α → β} (h : Reports p p₁ walk es) :
    Reports p p₁ (walk >>= fun a => Pure.pure (next a)) es :=
  h.bind_quiet fun _ => pure _

theorem get_bind {next : Resolver → StateM Resolver α}
    (h : ∀ r, r.standing = p → Reports p p₁ (next r) es) : Reports p p₁ (get >>= next) es :=
  fun r same => h r same r same

theorem report (line : Nat) (lexeme : String) (cause : ResolveError.Cause) :
    Reports p p (Resolver.report line lexeme cause) [⟨line, lexeme, cause⟩] :=
  fun _ same => ⟨same, rfl⟩

/-- What is reported on a condition comes first. -/
theorem reportIf {condition : Prop} [Decidable condition] {line : Nat} {lexeme : String}
    {cause : ResolveError.Cause} {rest : Unit → StateM Resolver α} (h : Reports p p₁ (rest ()) es) :
    Reports p p₁ (if condition then Resolver.report line lexeme cause >>= rest else rest ())
      ((if condition then [⟨line, lexeme, cause⟩] else []) ++ es) := by
  split
  · exact bind (report _ _ _) fun _ => h
  · exact h

/-- Nothing else is reported besides. -/
theorem reportOnlyIf {condition : Prop} [Decidable condition] {line : Nat} {lexeme : String}
    {cause : ResolveError.Cause} {rest : Unit → StateM Resolver α} (h : Reports p p₁ (rest ()) []) :
    Reports p p₁ (if condition then Resolver.report line lexeme cause >>= rest else rest ())
      (if condition then [⟨line, lexeme, cause⟩] else []) := by
  have walks : Reports p p₁ (if condition then Resolver.report line lexeme cause >>= rest else rest ())
    ((if condition then [⟨line, lexeme, cause⟩] else []) ++ []) := reportIf h
  rwa [List.append_nil] at walks

theorem define (name : Ident) : Reports p (p.declare name true) (Resolver.define name) [] := by
  intro r same
  subst same
  obtain ⟨scopes, body, surrounding, errors⟩ := r
  cases scopes <;> exact ⟨rfl, (List.append_nil _).symm⟩

/-- A name that is declared may be read from now on. -/
theorem define_declared (name : Ident) :
    Reports (p.declare name false) (p.declare name true) (Resolver.define name) [] := by
  have walks := define (p := p.declare name false) name
  rwa [p.declare_declare] at walks

theorem openScope (scope : Scope) : Reports p (p.within scope) (Resolver.openScope scope) [] := by
  rintro r rfl
  exact ⟨rfl, (List.append_nil _).symm⟩

theorem closeScope (scope : Scope) : Reports (p.within scope) p Resolver.closeScope [] := by
  intro r same
  obtain ⟨scopes, body, surrounding, errors⟩ := r
  cases same
  exact ⟨rfl, (List.append_nil _).symm⟩

theorem modifyBody (body : Body) :
    Reports p { p with body := body } (modify fun r => { r with body := body }) [] := by
  rintro r rfl
  exact ⟨rfl, (List.append_nil _).symm⟩

theorem modifySurrounding (surrounding : Surrounding) :
    Reports p { p with surrounding := surrounding }
      (modify fun r => { r with surrounding := surrounding }) [] := by
  rintro r rfl
  exact ⟨rfl, (List.append_nil _).symm⟩

theorem locate (name : String) (depth : Option Nat) : Reports p p (Resolver.locate name depth) [] := by
  rintro r rfl
  exact ⟨rfl, (List.append_nil _).symm⟩

/-- A name that the innermost scope has declared is declared again. -/
theorem declare (name : Ident) {names : List String}
    (declared : p.hasDeclared name.lexeme = names.contains name.lexeme) :
    Reports p (p.declare name false) (Resolver.declare name) (redeclared names name) := by
  intro r same
  subst same
  obtain ⟨scopes, body, surrounding, errors⟩ := r
  unfold redeclared
  rw [← declared]
  cases scopes with
  | nil => exact ⟨rfl, (List.append_nil _).symm⟩
  | cons scope outer =>
    have rest (p : Standing) : Reports p p
        (if scope.contains name.lexeme then Resolver.report name.line name.lexeme .declaredTwice
          else return ())
        (if scope.contains name.lexeme then [⟨name.line, name.lexeme, .declaredTwice⟩] else []) := by
      split
      · exact report _ _ _
      · exact pure _
    exact rest _ ⟨scope.insert name.lexeme false :: outer, body, surrounding, errors⟩ rfl

theorem declareAndDefine (name : Ident) {names : List String}
    (declared : p.hasDeclared name.lexeme = names.contains name.lexeme) :
    Reports p (p.declare name true) (do Resolver.declare name; Resolver.define name)
      (redeclared names name) :=
  (declare name declared).bind_quiet fun _ => define_declared name

/-- Parameters are declared in a scope of their own. -/
theorem declareAll {names : List String} {scope : Scope}
    (declared : ∀ name, scope.contains name = names.contains name) (parameters : List Ident) :
    Reports (p.within scope) (p.within (Standing.declareAll scope parameters))
      (Resolver.declareAll parameters) (repeated names parameters) := by
  rw [Resolver.declareAll]
  induction parameters generalizing names scope with
  | nil => exact pure _
  | cons name rest ih =>
    refine bind (declareAndDefine name (declared name.lexeme)) fun _ => ih fun name' => ?_
    rw [Bindings.contains_insert, declared, List.contains_append, List.contains_cons,
      List.contains_nil, Bool.or_false, Bool.or_comm]
    by_cases same : name.lexeme = name' <;> simp [same, Ne.symm]

variable {path : Path}

theorem reference (ref : Reference) (inside : p.Inside path) :
    Reports p p (Resolver.reference ref) (Node.faults path (.expr (.variable_ ref))) := by
  rw [Resolver.reference]
  refine get_bind fun r same => ?_
  rw [show r.scopes = p.scopes from congrArg Standing.scopes same, inside.initializes]
  exact reportOnlyIf (bind_pure (locate _ _))

theorem this (keyword : Word) (depth : Option Nat) (inside : p.Inside path) :
    Reports p p (Resolver.this keyword depth) (Node.faults path (.expr (.this keyword depth))) := by
  rw [Resolver.this]
  refine get_bind fun r same => ?_
  rw [show r.surrounding = p.surrounding from congrArg Standing.surrounding same, inside.surrounding,
    Path.surrounding, Node.faults]
  cases path.superclass with
  | none => exact (report _ _ _).bind_pure
  | some superclass => cases superclass <;> exact locate _ _

theorem super (keyword : Word) (method : Ident) (depth : Option Nat) (inside : p.Inside path) :
    Reports p p (Resolver.super keyword depth)
      (Node.faults path (.expr (.super keyword method depth))) := by
  rw [Resolver.super]
  refine get_bind fun r same => ?_
  rw [show r.surrounding = p.surrounding from congrArg Standing.surrounding same, inside.surrounding,
    Path.surrounding, Node.faults]
  cases path.superclass with
  | none => exact (report _ _ _).bind_pure
  | some superclass =>
    cases superclass with
    | none => exact (report _ _ _).bind_pure
    | some _ => exact locate _ _

theorem checkReturn (keyword : Word) (value : Option Expr) (body : p.body = path.body) :
    Reports p p (Resolver.checkReturn keyword value.isSome)
      (Node.faults path (.stmt (.return_ keyword value))) := by
  rw [Resolver.checkReturn]
  refine get_bind fun r same => ?_
  rw [show r.body = p.body from congrArg Standing.body same, body, Path.body, Node.faults]
  cases path.function with
  | none =>
    have other : ¬(value.isSome = true ∧ Body.program = .initializer) := by simp
    simp only [if_true, if_neg other]
    exact (report _ _ _).bind_pure
  | some around =>
    obtain ⟨decl, isMethod⟩ := around
    simp only
    have initializes : (if isMethod = true then if decl.namedInit = true then Body.initializer else .method
        else .function) = .initializer ↔ isMethod = true ∧ decl.namedInit = true := by
      cases isMethod <;> cases decl.namedInit <;> simp
    have inFunction : (if isMethod = true then if decl.namedInit = true then Body.initializer else .method
        else .function) ≠ .program := by
      cases isMethod <;> cases decl.namedInit <;> simp
    simp only [if_neg inFunction, initializes]
    split
    · exact report _ _ _
    · exact pure _

theorem beginClass (name : Ident) {names : List String}
    (declared : p.hasDeclared name.lexeme = names.contains name.lexeme) :
    Reports p { p.declare name true with surrounding := .baseClass } (Resolver.beginClass name)
      (redeclared names name) := by
  rw [Resolver.beginClass]
  exact quiet_bind (modifySurrounding _) fun _ => declareAndDefine name declared

/-- The superclass is looked up while no variable is being initialized. -/
theorem superclass (name : Ident) (ref : Reference)
    (ready : isUninitialized p.scopes ref.name.lexeme = false) :
    Reports p ({ p with surrounding := .subclass }.within (keywordScope superName))
      (Resolver.superclass name ref)
      (if ref.name.lexeme = name.lexeme then
        [⟨ref.name.line, ref.name.lexeme, .inheritsFromItself⟩] else []) := by
  rw [Resolver.superclass]
  refine reportOnlyIf (quiet_bind (modifySurrounding _) fun _ => ?_)
  have quiet : Reports { p with surrounding := .subclass } { p with surrounding := .subclass }
      (Resolver.reference ref) [] := by
    rw [Resolver.reference]
    refine get_bind fun r same => ?_
    rw [show r.scopes = p.scopes from congrArg Standing.scopes same, ready]
    exact bind_pure (locate _ _)
  exact quiet_bind quiet fun _ => bind_pure (openScope _)

end Reports

/-! ## The walk -/

open Standing

mutual

theorem Expr.reports {p : Standing} {path : Path} {e : Expr} (h : e.Every Node.Placed)
    (inside : p.Inside path) : Reports p p e.resolve (faults (e.places path)) := by
  cases e with
  | literal value =>
    rw [Expr.resolve]
    exact .pure _
  | group inner =>
    rw [Expr.resolve]
    exact (Expr.reports h.2 inside).bind_pure
  | unary op operand =>
    rw [Expr.resolve]
    exact (Expr.reports h.2 inside).bind_pure
  | binary left op right =>
    rw [Expr.resolve, Expr.places, faults_cons, faults_append]
    exact (Expr.reports h.2.1 inside).bind fun _ => (Expr.reports h.2.2 inside).bind_pure
  | logical left op right =>
    rw [Expr.resolve, Expr.places, faults_cons, faults_append]
    exact (Expr.reports h.2.1 inside).bind fun _ => (Expr.reports h.2.2 inside).bind_pure
  | variable_ ref =>
    rw [Expr.resolve, Expr.places, faults_cons, faults_nil, List.append_nil]
    exact (Reports.reference ref inside).bind_pure
  | assign target value =>
    rw [Expr.resolve]
    exact (Expr.reports h.2 inside).bind_quiet fun _ => (Reports.locate _ _).bind_pure
  | call callee arguments line =>
    rw [Expr.resolve, Expr.places, faults_cons, faults_append]
    exact (Expr.reports h.2.1 inside).bind fun _ => (Expr.reportsAll h.2.2 inside).bind_pure
  | get object name =>
    rw [Expr.resolve]
    exact (Expr.reports h.2 inside).bind_pure
  | set object name value =>
    rw [Expr.resolve, Expr.places, faults_cons, faults_append]
    exact (Expr.reports h.2.2 inside).bind fun _ => (Expr.reports h.2.1 inside).bind_pure
  | this keyword depth =>
    rw [Expr.resolve, Expr.places, faults_cons, faults_nil, List.append_nil]
    exact (Reports.this keyword depth inside).bind_pure
  | super keyword method depth =>
    rw [Expr.resolve, Expr.places, faults_cons, faults_nil, List.append_nil]
    exact (Reports.super keyword method depth inside).bind_pure
  | function decl =>
    rw [Expr.resolve]
    exact (Function.reports false h.2 inside.surrounding).bind_pure

theorem Expr.reportsAll {p : Standing} {path : Path} {es : List Expr}
    (h : Expr.EveryAll Node.Placed es) (inside : p.Inside path) :
    Reports p p (Expr.resolveAll es) (faults (Expr.placesAll path es)) := by
  cases es with
  | nil =>
    rw [Expr.resolveAll]
    exact .pure _
  | cons e rest =>
    rw [Expr.resolveAll, Expr.placesAll, faults_append]
    exact (Expr.reports h.1 inside).bind fun _ => (Expr.reportsAll h.2 inside).bind_pure

theorem Stmt.reports {p : Standing} {path : Path} {s : Stmt} (h : s.Every Node.Placed)
    (here : p.At path) : Reports p (s.leads p) s.resolve (faults (s.places path)) := by
  cases s with
  | expression value =>
    rw [Stmt.resolve]
    exact (Expr.reports h.2 here.inside).bind_pure
  | print line value =>
    rw [Stmt.resolve]
    exact (Expr.reports h.2 here.inside).bind_pure
  | var name initial =>
    cases initial with
    | none =>
      rw [Stmt.resolve, Stmt.places, faults_cons, faults_nil]
      exact (Reports.declare name (here.contains _)).bind fun _ =>
        (Reports.define_declared name).bind_pure
    | some initial =>
      rw [Stmt.resolve, Stmt.places, faults_cons]
      exact (Reports.declare name (here.contains _)).bind fun _ =>
        (Expr.reports h.2 (here.initializer name)).bind_quiet fun _ =>
          (Reports.define_declared name).bind_pure
  | block body =>
    rw [Stmt.resolve]
    obtain ⟨scope, within⟩ := Stmt.leadsAll_within body p .empty
    have walks := Stmt.reportsAll h.2 here.block
    rw [within] at walks
    exact (Reports.openScope .empty).quiet_bind fun _ => walks.bind_quiet fun _ =>
      (Reports.closeScope scope).bind_pure
  | branch condition yes no =>
    have placed := Stmt.Every.self h
    have same : yes.leads p = p := Stmt.leads_of_not_isDeclaration placed.1 p
    cases no with
    | none =>
      rw [Stmt.resolve, Stmt.places, faults_cons, faults_append]
      have walks := Stmt.reports h.2.2 here
      rw [same] at walks
      exact (Expr.reports h.2.1 here.inside).bind fun _ => walks.bind_pure
    | some no =>
      rw [Stmt.resolve, Stmt.places, faults_cons, faults_append, faults_append]
      have same' : no.leads p = p := Stmt.leads_of_not_isDeclaration (placed.2 no rfl) p
      have walks := Stmt.reports h.2.2.1 here
      have walks' := Stmt.reports h.2.2.2 here
      rw [same] at walks
      rw [same'] at walks'
      exact (Expr.reports h.2.1 here.inside).bind fun _ => walks.bind fun _ => walks'.bind_pure
  | loop condition body =>
    rw [Stmt.resolve, Stmt.places, faults_cons, faults_append]
    have same : body.leads p = p := Stmt.leads_of_not_isDeclaration h.1 p
    have walks := Stmt.reports h.2.2 here
    rw [same] at walks
    exact (Expr.reports h.2.1 here.inside).bind fun _ => walks.bind_pure
  | function decl =>
    rw [Stmt.resolve, Stmt.places, faults_cons]
    cases decl with
    | mk name parameters body =>
      cases name with
      | named name =>
        have walks := Function.reports (p := p.declare name true) false h.2 here.surrounding
        exact (Reports.declare name (here.contains _)).bind fun _ =>
          (Reports.define_declared name).quiet_bind fun _ => walks.bind_pure
      | anonymous line => exact (Function.reports false h.2 here.surrounding).bind_pure
  | return_ keyword value =>
    cases value with
    | none =>
      rw [Stmt.resolve, Stmt.places, faults_cons, faults_nil, List.append_nil]
      exact (Reports.checkReturn keyword none here.body).bind_pure
    | some value =>
      rw [Stmt.resolve, Stmt.places, faults_cons]
      exact (Reports.checkReturn keyword (some value) here.body).bind fun _ =>
        (Expr.reports h.2 here.inside).bind_pure
  | class_ name superclass methods =>
    rw [Stmt.resolve, Stmt.places, faults_cons, faults_append]
    refine Reports.get_bind fun r same => ?_
    -- What is put back behind the class is what surrounds it.
    have back : r.surrounding = p.surrounding := congrArg Standing.surrounding same
    have begins := Reports.beginClass name (here.contains name.lexeme)
    cases superclass with
    | none =>
      let around : Standing := { p.declare name true with surrounding := .baseClass }
      let inside : Standing := around.within (keywordScope thisName)
      have walks : Reports inside inside (Function.resolveAll methods)
          (faults (Function.placesAll (.methods none :: path) methods)) := Function.reportsAll h.2 rfl
      rw [Node.faults, List.append_nil]
      refine begins.bind fun _ => (Reports.openScope _).quiet_bind fun _ => walks.bind_quiet fun _ =>
        (Reports.closeScope _).quiet_bind fun _ => ?_
      rw [back]
      exact (Reports.modifySurrounding p.surrounding).bind_pure
    | some ref =>
      let around : Standing := { p.declare name true with surrounding := .subclass }
      let inside : Standing := (around.within (keywordScope superName)).within (keywordScope thisName)
      have walks : Reports inside inside (Function.resolveAll methods)
          (faults (Function.placesAll (.methods (some ref) :: path) methods)) :=
        Function.reportsAll h.2 rfl
      have inherits := Reports.superclass (p := { p.declare name true with surrounding := .baseClass })
        name ref ((here.behind (.class_ name (some ref) methods)).ready _)
      -- The superclass is named outside of every initializer, so that place has no fault.
      have settled : faults ((some ref).toList.map fun ref => (path, Node.expr (.variable_ ref))) = [] := by
        simp [Node.faults, here.settled]
      rw [settled, List.nil_append, Node.faults, List.append_assoc]
      refine begins.bind fun _ => inherits.bind fun _ => (Reports.openScope _).quiet_bind fun _ =>
        walks.bind_quiet fun _ => (Reports.closeScope _).quiet_bind fun _ =>
        (Reports.closeScope _).quiet_bind fun _ => ?_
      rw [back]
      exact (Reports.modifySurrounding p.surrounding).bind_pure

theorem Stmt.reportsAll {p : Standing} {path : Path} {ss : List Stmt}
    (h : Stmt.EveryAll Node.Placed ss) (here : p.At path) :
    Reports p (Stmt.leadsAll ss p) (Stmt.resolveAll ss) (faults (Stmt.placesAll path ss)) := by
  cases ss with
  | nil =>
    rw [Stmt.resolveAll]
    exact .pure _
  | cons s rest =>
    rw [Stmt.resolveAll, Stmt.placesAll, faults_append]
    exact (Stmt.reports h.1 here).bind fun _ => (Stmt.reportsAll h.2 (here.behind s)).bind_pure

theorem Function.reports {p : Standing} {path : Path} {f : Function} (isMethod : Bool)
    (h : f.Every Node.Placed) (surrounding : p.surrounding = path.surrounding) :
    Reports p p (f.resolve (Path.body [.body f isMethod []])) (faults (f.places path isMethod)) := by
  cases f with
  | mk name parameters statements =>
    rw [Function.resolve, Function.places, faults_cons]
    let inside : Standing :=
      { p with body := Path.body [.body ⟨name, parameters, statements⟩ isMethod []] }
    have here := at_body surrounding ⟨name, parameters, statements⟩ isMethod
    obtain ⟨scope, within⟩ := Stmt.leadsAll_within statements inside (declareAll .empty parameters)
    have walks := Stmt.reportsAll h.2 here
    rw [within] at walks
    refine Reports.get_bind fun r same => (Reports.modifyBody _).quiet_bind fun _ =>
      (Reports.openScope .empty).quiet_bind fun _ =>
      (Reports.declareAll (fun _ => rfl) parameters).bind fun _ => walks.bind_quiet fun _ =>
      (Reports.closeScope scope).quiet_bind fun _ => ?_
    rw [show r.body = p.body from congrArg Standing.body same]
    exact (Reports.modifyBody p.body).bind_pure

/-- The methods of a class are resolved one after the other. -/
theorem Function.reportsAll {p : Standing} {path : Path} {fs : List Function}
    (h : Function.EveryAll Node.Placed fs) (surrounding : p.surrounding = path.surrounding) :
    Reports p p (Function.resolveAll fs) (faults (Function.placesAll path fs)) := by
  cases fs with
  | nil =>
    rw [Function.resolveAll]
    exact .pure _
  | cons f rest =>
    rw [Function.resolveAll, Function.placesAll, faults_append]
    exact (Function.reports true h.1 surrounding).bind fun _ =>
      (Function.reportsAll h.2 surrounding).bind_pure

end

/-! ## Programs -/

/-- Outside of everything. -/
theorem Standing.at_start : Resolver.start.standing.At [] where
  declares := rfl
  isOpen := nofun
  settled _ := rfl
  body := rfl
  surrounding := rfl

theorem errors_resolveProgram {program : List Stmt} (h : Stmt.EveryAll Node.Placed program) :
    (resolveProgram program).errors = faults (Stmt.placesAll [] program) :=
  (Stmt.reportsAll h Standing.at_start Resolver.start rfl).2

/-- Declarations are parsed only where they may stand. -/
theorem placed_parseProgram (tokens : List Token) :
    Stmt.EveryAll Node.Placed (parseProgram tokens).statements := by
  obtain ⟨taken, split, noEnd, built⟩ := promised_parseProgram tokens
  unfold parseProgram
  simp only
  split
  · rename_i statements ok
    exact (built statements ok).1.1.mono fun _ parsed => parsed.placed
  · trivial

/-- **Resolution reports exactly the faults of a program**, those of every place once, in the order in which
the places are visited; so it succeeds exactly if there is nothing wrong with any place. -/
theorem errors_eq_faults (tokens : List Token) :
    let program := (parseProgram tokens).statements
    (resolveProgram program).errors = faults (Stmt.placesAll [] program) ∧
      ((resolveProgram program).errors = [] ↔
        ∀ place ∈ Stmt.placesAll [] program, place.2.faults place.1 = []) := by
  intro program
  have same : (resolveProgram program).errors = faults (Stmt.placesAll [] program) :=
    errors_resolveProgram (placed_parseProgram tokens)
  refine ⟨same, ?_⟩
  rw [same, faults, List.flatMap_eq_nil_iff]

/-- In `{ var a; var a = a; }` the name is declared twice, and read in its own initializer. -/
example :
    let a (line : Nat) : Ident := ⟨"a", "a", line⟩
    faults (Stmt.placesAll [] [.block [.var (a 1) none, .var (a 2) (some (.variable_ ⟨a 3, none⟩))]]) =
      [⟨2, "a", .declaredTwice⟩, ⟨3, "a", .readInOwnInitializer⟩] := by
  decide

end Lox
