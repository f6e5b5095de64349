import Lox.Proofs.Scope.Depths

/-!
# Resolution repeated

Wherever a walk over a program starts, it ends on the same level: in the same function and class, with
as many scopes open, and with all of them but the innermost as they were (`Stmt.levels_resolveAll`).
Outside all scopes that leaves nothing, so a resolver that has handed over its errors is as good as a
new one, whatever it has resolved (`Resolver.after_eq_start`).

What a walk decides hangs on the scopes, on the names of references and on the depths that they have
already.  Of these only the depths change, and each of them to what it is set to again the next time.
So a program that is resolved is resolved to itself, with the errors that it had the first time
(`Stmt.resolveAll_resolveAll`).
-/

namespace Lox

namespace Resolver

/-! ## Levels -/

/-- Two walks are on the same level: they differ in the innermost scope and in their errors at most. -/
structure Level (r r' : Resolver) : Prop where
  body : r'.body = r.body
  surrounding : r'.surrounding = r.surrounding
  count : r'.scopes.length = r.scopes.length
  outer : r'.scopes.tail = r.scopes.tail

namespace Level

variable {r r' r'' : Resolver}

theorem refl (r : Resolver) : Level r r := ⟨rfl, rfl, rfl, rfl⟩

theorem trans (h : Level r r') (h' : Level r' r'') : Level r r'' where
  body := h'.body.trans h.body
  surrounding := h'.surrounding.trans h.surrounding
  count := h'.count.trans h.count
  outer := h'.outer.trans h.outer

/-- The same level in another function. -/
theorem inBody (h : Level r r') (body : Body) :
    Level { r with body := body } { r' with body := body } :=
  ⟨rfl, h.surrounding, h.count, h.outer⟩

/-- The same level in another class. -/
theorem inClass (h : Level r r') (surrounding : Surrounding) :
    Level { r with surrounding := surrounding } { r' with surrounding := surrounding } :=
  ⟨h.body, rfl, h.count, h.outer⟩

/-- Once a scope is closed again, nothing is left of what was declared in it. -/
theorem close {scope : Scope} (h : Level { r with scopes := scope :: r.scopes } r') :
    Level r { r' with scopes := r'.scopes.tail } where
  body := h.body
  surrounding := h.surrounding
  count := congrArg List.length h.outer
  outer := congrArg List.tail h.outer

/-- Outside all scopes, only errors can have been added. -/
theorem eq_of_start (h : Level start r) : r = { start with errors := r.errors } := by
  obtain ⟨scopes, body, surrounding, errors⟩ := r
  obtain ⟨rfl, rfl, count, -⟩ := h
  cases List.eq_nil_of_length_eq_zero count
  rfl

end Level

/-- A walk ends on the level on which it started. -/
def Levels {α : Type} (walk : StateM Resolver α) : Prop := ∀ r, Level r (walk.run r).2

namespace Levels

variable {α β : Type} {walk : StateM Resolver α}

theorem pure (a : α) : Levels (Pure.pure a) := Level.refl

theorem bind {next : α → StateM Resolver β} (h : Levels walk) (rest : ∀ a, Levels (next a)) :
    Levels (walk >>= next) :=
  fun r => (h r).trans (rest _ _)

/-- A walk that begins with a look at where it stands. -/
theorem get_bind {next : Resolver → StateM Resolver β} (rest : ∀ r, Levels (next r)) :
    Levels (get >>= next) :=
  fun r => rest r r

theorem report (line : Nat) (lexeme : String) (cause : ResolveError.Cause) :
    Levels (Resolver.report line lexeme cause) := fun _ => ⟨rfl, rfl, rfl, rfl⟩

theorem mapInnermost (f : Scope → Scope) : Levels (Resolver.mapInnermost f) := by
  rintro ⟨_ | ⟨scope, outer⟩, body, surrounding, errors⟩ <;> exact ⟨rfl, rfl, rfl, rfl⟩

theorem declare (name : Ident) : Levels (Resolver.declare name) := by
  refine get_bind fun r => (mapInnermost _).bind fun _ => ?_
  split
  · exact pure ()
  · split
    · exact report _ _ _
    · exact pure ()

theorem define (name : Ident) : Levels (Resolver.define name) := mapInnermost _

theorem declareAll (names : List Ident) : Levels (Resolver.declareAll names) := by
  induction names with
  | nil => exact pure ()
  | cons name rest ih => exact ((declare name).bind fun _ => define name).bind fun _ => ih

theorem locate (name : String) (depth : Option Nat) : Levels (Resolver.locate name depth) :=
  fun r => .refl r

theorem reference (ref : Reference) : Levels (Resolver.reference ref) := by
  refine get_bind fun r => ?_
  split
  · exact (report _ _ _).bind fun _ => (locate _ _).bind fun _ => pure _
  · exact (locate _ _).bind fun _ => pure _

theorem this (keyword : Word) (depth : Option Nat) : Levels (Resolver.this keyword depth) := by
  refine get_bind fun r => ?_
  split
  · exact (report _ _ _).bind fun _ => pure _
  · exact locate _ _
  · exact locate _ _

theorem super (keyword : Word) (depth : Option Nat) : Levels (Resolver.super keyword depth) := by
  refine get_bind fun r => ?_
  split
  · exact (report _ _ _).bind fun _ => pure _
  · exact (report _ _ _).bind fun _ => pure _
  · exact locate _ _

theorem checkReturn (keyword : Word) (hasValue : Bool) :
    Levels (Resolver.checkReturn keyword hasValue) := by
  refine get_bind fun r => ?_
  have rest : Levels (if hasValue ∧ r.body = .initializer then
      Resolver.report keyword.line keyword.lexeme .valueReturnedFromInitializer else Pure.pure ()) := by
    split
    · exact report _ _ _
    · exact pure ()
  simp only
  split
  · exact (report _ _ _).bind fun _ => rest
  · exact rest

/-- What is walked through in a scope of its own. -/
theorem inScope (scope : Scope) (h : Levels walk) (result : α → β) :
    Levels (do openScope scope; let a ← walk; closeScope; return result a) :=
  fun _ => (h _).close

/-- What stands in a class with a superclass is walked through in the scope that declares `super`. -/
theorem superclass (name : Ident) (ref : Reference) (h : Levels walk) (r : Resolver) :
    Level { r with surrounding := .subclass } ((do
      let ref ← Resolver.superclass name ref
      let a ← walk
      closeScope
      return (ref, a)).run r).2 := by
  have rest (r' : Resolver) (same : Level r r') : Level { r with surrounding := .subclass } ((do
      modify fun r => { r with surrounding := .subclass }
      let ref ← Resolver.reference ref
      openScope (keywordScope superName)
      let a ← walk
      closeScope
      return (ref, a) : StateM Resolver (Reference × α)).run r').2 :=
    (same.inClass .subclass).trans ((reference ref _).trans (inScope (keywordScope superName) h id _))
  rw [Resolver.superclass]
  split
  · exact rest _ (report _ _ _ r)
  · exact rest r (.refl r)

end Levels

end Resolver

open Resolver

mutual

/-- An expression opens no scope that it does not close again. -/
theorem Expr.levels_resolve (e : Expr) : Levels e.resolve := by
  cases e with
  | literal value =>
    rw [Expr.resolve]
    exact .pure _
  | group inner | unary _ inner =>
    rw [Expr.resolve]
    exact inner.levels_resolve.bind fun _ => .pure _
  | get object name =>
    rw [Expr.resolve]
    exact object.levels_resolve.bind fun _ => .pure _
  | binary left _ right | logical left _ right =>
    rw [Expr.resolve]
    exact left.levels_resolve.bind fun _ => right.levels_resolve.bind fun _ => .pure _
  | variable_ ref =>
    rw [Expr.resolve]
    exact (Levels.reference ref).bind fun _ => .pure _
  | assign target value =>
    rw [Expr.resolve]
    exact value.levels_resolve.bind fun _ => (Levels.locate _ _).bind fun _ => .pure _
  | call callee arguments line =>
    rw [Expr.resolve]
    exact callee.levels_resolve.bind fun _ => (Expr.levels_resolveAll arguments).bind fun _ => .pure _
  | set object name value =>
    rw [Expr.resolve]
    exact value.levels_resolve.bind fun _ => object.levels_resolve.bind fun _ => .pure _
  | this keyword depth =>
    rw [Expr.resolve]
    exact (Levels.this keyword depth).bind fun _ => .pure _
  | super keyword method depth =>
    rw [Expr.resolve]
    exact (Levels.super keyword depth).bind fun _ => .pure _
  | function decl =>
    rw [Expr.resolve]
    exact (decl.levels_resolve _).bind fun _ => .pure _

theorem Expr.levels_resolveAll (es : List Expr) : Levels (Expr.resolveAll es) := by
  cases es with
  | nil =>
    rw [Expr.resolveAll]
    exact .pure _
  | cons e rest =>
    rw [Expr.resolveAll]
    exact e.levels_resolve.bind fun _ => (Expr.levels_resolveAll rest).bind fun _ => .pure _

/-- A statement may declare names in the innermost scope, and nothing more is left of it. -/
theorem Stmt.levels_resolve (s : Stmt) : Levels s.resolve := by
  cases s with
  | expression value | print _ value =>
    rw [Stmt.resolve]
    exact value.levels_resolve.bind fun _ => .pure _
  | var name initial =>
    cases initial with
    | none =>
      rw [Stmt.resolve]
      exact (Levels.declare name).bind fun _ => (Levels.define name).bind fun _ => .pure _
    | some initial =>
      rw [Stmt.resolve]
      exact (Levels.declare name).bind fun _ => initial.levels_resolve.bind fun _ =>
        (Levels.define name).bind fun _ => .pure _
  | block body =>
    rw [Stmt.resolve]
    exact .inScope .empty (Stmt.levels_resolveAll body) _
  | branch condition yes no =>
    cases no with
    | none =>
      rw [Stmt.resolve]
      exact condition.levels_resolve.bind fun _ => yes.levels_resolve.bind fun _ => .pure _
    | some no =>
      rw [Stmt.resolve]
      exact condition.levels_resolve.bind fun _ => yes.levels_resolve.bind fun _ =>
        no.levels_resolve.bind fun _ => .pure _
  | loop condition body =>
    rw [Stmt.resolve]
    exact condition.levels_resolve.bind fun _ => body.levels_resolve.bind fun _ => .pure _
  | function decl =>
    have rest : Levels (do return Stmt.function (← decl.resolve .function)) :=
      (decl.levels_resolve _).bind fun _ => .pure _
    rw [Stmt.resolve]
    split
    · rename_i name _
      exact (Levels.declare name).bind fun _ => (Levels.define name).bind fun _ => rest
    · exact rest
  | return_ keyword value =>
    cases value with
    | none =>
      rw [Stmt.resolve]
      exact (Levels.checkReturn _ _).bind fun _ => .pure _
    | some value =>
      rw [Stmt.resolve]
      exact (Levels.checkReturn _ _).bind fun _ => value.levels_resolve.bind fun _ => .pure _
  | class_ name superclass methods =>
    have named : Levels (do declare name; define name) :=
      (Levels.declare name).bind fun _ => Levels.define name
    have inThis := Levels.inScope (keywordScope thisName) (Function.levels_resolveAll methods) id
    -- In the class the level is another one, so its steps come together before it is left again.
    rw [Stmt.resolve]
    cases superclass with
    | none =>
      exact fun r => ((named { r with surrounding := .baseClass }).trans (inThis _)).inClass r.surrounding
    | some ref =>
      exact fun r => (((named { r with surrounding := .baseClass }).inClass .subclass).trans
        (Levels.superclass name ref inThis _)).inClass r.surrounding

theorem Stmt.levels_resolveAll (ss : List Stmt) : Levels (Stmt.resolveAll ss) := by
  cases ss with
  | nil =>
    rw [Stmt.resolveAll]
    exact .pure _
  | cons s rest =>
    rw [Stmt.resolveAll]
    exact s.levels_resolve.bind fun _ => (Stmt.levels_resolveAll rest).bind fun _ => .pure _

/-- A function is walked through in a scope of its own, and after it the walk is in the function
around it again. -/
theorem Function.levels_resolve (f : Function) (body : Body) : Levels (f.resolve body) := by
  obtain ⟨name, parameters, statements⟩ := f
  rw [Function.resolve]
  have inside : Levels (do declareAll parameters; Stmt.resolveAll statements) :=
    (Levels.declareAll parameters).bind fun _ => Stmt.levels_resolveAll statements
  exact fun r => (Levels.inScope .empty inside id { r with body := body }).inBody r.body

theorem Function.levels_resolveAll (fs : List Function) : Levels (Function.resolveAll fs) := by
  cases fs with
  | nil =>
    rw [Function.resolveAll]
    exact .pure _
  | cons f rest =>
    rw [Function.resolveAll]
    exact (f.levels_resolve _).bind fun _ => (Function.levels_resolveAll rest).bind fun _ => .pure _

end

/-! ## Depths that are found again -/

namespace Resolver

/-- A depth that is found is found again, and one that stays as it is stays so again. -/
theorem locate_locate (name : String) (depth : Option Nat) (r : Resolver) :
    (locate name ((locate name depth).run r).1).run r = (locate name depth).run r := by
  change ((distance r.scopes name).or ((distance r.scopes name).or depth), r) = _
  rw [← Option.or_assoc, Option.or_self]
  rfl

/-- Where a walk is led by a reference does not hang on the depth that it has already, and neither does
its new depth if a scope declares its name. -/
theorem exists_reference (name : Ident) (r : Resolver) : ∃ later : Resolver, ∀ depth,
    (reference ⟨name, depth⟩).run r = (⟨name, (distance r.scopes name.lexeme).or depth⟩, later) := by
  cases ready : isUninitialized r.scopes name.lexeme with
  | false =>
    refine ⟨r, fun depth => ?_⟩
    change (if isUninitialized r.scopes name.lexeme = true then _ else _ : StateM Resolver _).run r = _
    rw [if_neg (Bool.eq_false_iff.mp ready)]
    rfl
  | true =>
    refine ⟨{ r with errors := r.errors ++ [⟨name.line, name.lexeme, .readInOwnInitializer⟩] },
      fun depth => ?_⟩
    change (if isUninitialized r.scopes name.lexeme = true then _ else _ : StateM Resolver _).run r = _
    rw [if_pos ready]
    rfl

theorem reference_reference (ref : Reference) (r : Resolver) :
    (reference ((reference ref).run r).1).run r = (reference ref).run r := by
  obtain ⟨name, depth⟩ := ref
  obtain ⟨later, same⟩ := exists_reference name r
  rw [same, same, ← Option.or_assoc, Option.or_self]

theorem this_this (keyword : Word) (depth : Option Nat) (r : Resolver) :
    (Resolver.this keyword ((Resolver.this keyword depth).run r).1).run r =
      (Resolver.this keyword depth).run r := by
  obtain ⟨scopes, body, surrounding, errors⟩ := r
  cases surrounding with
  | noClass => rfl
  | baseClass | subclass => exact locate_locate keyword.lexeme depth _

theorem super_super (keyword : Word) (depth : Option Nat) (r : Resolver) :
    (Resolver.super keyword ((Resolver.super keyword depth).run r).1).run r =
      (Resolver.super keyword depth).run r := by
  obtain ⟨scopes, body, surrounding, errors⟩ := r
  cases surrounding with
  | noClass | baseClass => rfl
  | subclass => exact locate_locate keyword.lexeme depth _

theorem superclass_superclass (name : Ident) (ref : Reference) (r : Resolver) :
    (superclass name ((superclass name ref).run r).1).run r = (superclass name ref).run r := by
  have same : ((superclass name ref).run r).1.name = ref.name := Gives.superclass name ref r
  rw [superclass, same]
  by_cases itself : ref.name.lexeme = name.lexeme
  · simp only [superclass, if_pos itself, run_bind, run_pure, reference_reference]
  · simp only [superclass, if_neg itself, run_bind, run_pure, reference_reference]

end Resolver

theorem Function.name_resolve (f : Function) (body : Body) (r : Resolver) :
    ((f.resolve body).run r).1.name = f.name := by
  obtain ⟨name, parameters, statements⟩ := f
  simp only [Function.resolve, Resolver.run_bind, Resolver.run_pure]

theorem Function.namedInit_resolve (f : Function) (body : Body) (r : Resolver) :
    ((f.resolve body).run r).1.namedInit = f.namedInit := by
  rw [namedInit, namedInit, name_resolve]

mutual

/-- An expression that is resolved is resolved to itself, with the same errors. -/
theorem Expr.resolve_resolve (e : Expr) (r : Resolver) :
    (e.resolve.run r).1.resolve.run r = e.resolve.run r := by
  -- The first walk through a part starts where the second one does, as the parts in front of it lead to
  -- the same place both times.
  cases e with
  | literal value => simp only [Expr.resolve, run_pure]
  | group inner => simp only [Expr.resolve, run_bind, run_pure, inner.resolve_resolve]
  | unary op operand => simp only [Expr.resolve, run_bind, run_pure, operand.resolve_resolve]
  | binary left op right | logical left op right =>
    simp only [Expr.resolve, run_bind, run_pure, left.resolve_resolve, right.resolve_resolve]
  | variable_ ref => simp only [Expr.resolve, run_bind, run_pure, reference_reference]
  | assign target value =>
    simp only [Expr.resolve, run_bind, run_pure, value.resolve_resolve, locate_locate]
  | call callee arguments line =>
    simp only [Expr.resolve, run_bind, run_pure, callee.resolve_resolve,
      Expr.resolveAll_resolveAll arguments]
  | get object name => simp only [Expr.resolve, run_bind, run_pure, object.resolve_resolve]
  | set object name value =>
    simp only [Expr.resolve, run_bind, run_pure, value.resolve_resolve, object.resolve_resolve]
  | this keyword depth => simp only [Expr.resolve, run_bind, run_pure, this_this]
  | super keyword method depth => simp only [Expr.resolve, run_bind, run_pure, super_super]
  | function decl => simp only [Expr.resolve, run_bind, run_pure, decl.resolve_resolve]

theorem Expr.resolveAll_resolveAll (es : List Expr) (r : Resolver) :
    (Expr.resolveAll ((Expr.resolveAll es).run r).1).run r = (Expr.resolveAll es).run r := by
  cases es with
  | nil => simp only [Expr.resolveAll, run_pure]
  | cons e rest =>
    simp only [Expr.resolveAll, run_bind, run_pure, e.resolve_resolve, Expr.resolveAll_resolveAll rest]

/-- A statement that is resolved is resolved to itself, with the same errors. -/
theorem Stmt.resolve_resolve (s : Stmt) (r : Resolver) :
    (s.resolve.run r).1.resolve.run r = s.resolve.run r := by
  cases s with
  | expression value | print _ value =>
    simp only [Stmt.resolve, run_bind, run_pure, value.resolve_resolve]
  | var name initial =>
    cases initial with
    | none => simp only [Stmt.resolve, run_bind, run_pure]
    | some initial => simp only [Stmt.resolve, run_bind, run_pure, initial.resolve_resolve]
  | block body => simp only [Stmt.resolve, run_bind, run_pure, Stmt.resolveAll_resolveAll body]
  | branch condition yes no =>
    cases no with
    | none =>
      simp only [Stmt.resolve, run_bind, run_pure, condition.resolve_resolve, yes.resolve_resolve]
    | some no =>
      simp only [Stmt.resolve, run_bind, run_pure, condition.resolve_resolve, yes.resolve_resolve,
        no.resolve_resolve]
  | loop condition body =>
    simp only [Stmt.resolve, run_bind, run_pure, condition.resolve_resolve, body.resolve_resolve]
  | function decl =>
    cases named : decl.name <;> simp only [Stmt.resolve, named, decl.name_resolve, run_bind, run_pure,
      decl.resolve_resolve]
  | return_ keyword value =>
    cases value with
    | none => simp only [Stmt.resolve, run_bind, run_pure]
    | some value => simp only [Stmt.resolve, run_bind, run_pure, value.resolve_resolve]
  | class_ name superclass methods =>
    cases superclass with
    | none => simp only [Stmt.resolve, run_bind, run_pure, Function.resolveAll_resolveAll methods]
    | some ref =>
      simp only [Stmt.resolve, run_bind, run_pure, superclass_superclass,
        Function.resolveAll_resolveAll methods]

theorem Stmt.resolveAll_resolveAll (ss : List Stmt) (r : Resolver) :
    (Stmt.resolveAll ((Stmt.resolveAll ss).run r).1).run r = (Stmt.resolveAll ss).run r := by
  cases ss with
  | nil => simp only [Stmt.resolveAll, run_pure]
  | cons s rest =>
    simp only [Stmt.resolveAll, run_bind, run_pure, s.resolve_resolve, Stmt.resolveAll_resolveAll rest]

/-- A function that is resolved is resolved to itself, with the same errors. -/
theorem Function.resolve_resolve (f : Function) (body : Body) (r : Resolver) :
    (((f.resolve body).run r).1.resolve body).run r = (f.resolve body).run r := by
  obtain ⟨name, parameters, statements⟩ := f
  simp only [Function.resolve, run_bind, run_pure, Stmt.resolveAll_resolveAll statements]

theorem Function.resolveAll_resolveAll (fs : List Function) (r : Resolver) :
    (Function.resolveAll ((Function.resolveAll fs).run r).1).run r = (Function.resolveAll fs).run r := by
  cases fs with
  | nil => simp only [Function.resolveAll, run_pure]
  | cons f rest =>
    simp only [Function.resolveAll, run_bind, run_pure, f.namedInit_resolve, f.resolve_resolve,
      Function.resolveAll_resolveAll rest]

end

/-! ## Programs -/

namespace Resolver

/-- Wherever a resolver stands, a program that it has resolved is resolved to itself from there. -/
theorem resolve_resolve (r : Resolver) (program : List Stmt) :
    r.resolve (r.resolve program).1.program = r.resolve program := by
  have same := Stmt.resolveAll_resolveAll program r
  simp only [resolve]
  exact congrArg (fun walked : List Stmt × Resolver =>
    (Resolution.mk walked.1 walked.2.errors, { walked.2 with errors := [] })) same

/-- Outside all scopes, functions and classes, and without errors that are still to be handed over. -/
structure Idle (r : Resolver) : Prop where
  scopes : r.scopes = []
  body : r.body = .program
  surrounding : r.surrounding = .noClass
  errors : r.errors = []

/-- A resolver that has resolved these programs, one after the other. -/
def after (programs : List (List Stmt)) : Resolver :=
  programs.foldl (fun r program => (r.resolve program).2) start

theorem resolve_start (program : List Stmt) : (start.resolve program).2 = start := by
  have level := (Stmt.levels_resolveAll program start).eq_of_start
  exact congrArg (fun r : Resolver => { r with errors := [] }) level

theorem after_eq_start (programs : List (List Stmt)) : after programs = start := by
  induction programs with
  | nil => rfl
  | cons program rest ih =>
    rw [after, List.foldl_cons, resolve_start]
    exact ih

/-- **Resolution can be repeated.**  Whatever a resolver has resolved before and whatever it has found
wrong with it, behind a program it is idle.  It answers for the program as a new resolver does, and so it
does for any further one.  The same program, with its depths in it, gets the same errors and depths once
more. -/
theorem repeatable_resolve (programs : List (List Stmt)) (program : List Stmt) :
    let resolution := ((after programs).resolve program).1
    let later := ((after programs).resolve program).2
    later.Idle ∧ resolution = resolveProgram program ∧
      (∀ further, later.resolve further = start.resolve further) ∧
      later.resolve resolution.program = (resolution, later) := by
  intro resolution later
  have new : later = start := by
    change ((after programs).resolve program).2 = start
    rw [after_eq_start, resolve_start]
  have found : resolution = resolveProgram program := by
    change ((after programs).resolve program).1 = _
    rw [after_eq_start, resolveProgram]
  refine ⟨?_, found, fun further => by rw [new], ?_⟩
  · rw [new]
    exact ⟨rfl, rfl, rfl, rfl⟩
  · rw [new, found]
    exact (start.resolve_resolve program).trans (Prod.ext rfl (resolve_start program))

end Resolver

end Lox
