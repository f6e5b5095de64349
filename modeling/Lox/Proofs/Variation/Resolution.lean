import Lox.Proofs.Variation.Text

/-!
# Resolution of texts that vary

A program that varies from a resolved one is what resolution makes of its own text, if the first one
could be resolved without errors and the new name is nowhere in it (`Variation.Fresh`,
`Stmt.AllVary.resolveProgram`).

The two walks go side by side (`Variation.Beside`): the scopes of the one are those of the other, with
the other name in those that are marked.  At each step the second walk does what the first one does
(`Tracks`), as long as that one reports nothing.  That a depth found there is the one that the second
text has already is known of the first text, whose parts are right where they stand.
-/

namespace Lox

/-! ## Declarations -/

namespace Resolver

/-- Does the innermost scope declare the name already? -/
def declares (scopes : List Scope) (name : String) : Bool := scopes.head?.any (·.contains name)

theorem run_declare (name : Ident) (r : Resolver) : (declare name).run r =
    (if declares r.scopes name.lexeme then report name.line name.lexeme .declaredTwice
      else Pure.pure () : StateM Resolver Unit).run
        { r with scopes := Scope.mapInnermost (·.insert name.lexeme false) r.scopes } := by
  obtain ⟨scopes, body, surrounding, errors⟩ := r
  cases scopes <;> rfl

theorem run_define (name : Ident) (r : Resolver) : (define name).run r =
    ((), { r with scopes := Scope.mapInnermost (·.insert name.lexeme true) r.scopes }) := by
  obtain ⟨scopes, body, surrounding, errors⟩ := r
  cases scopes <;> rfl

theorem run_reference {ref : Reference} {r : Resolver}
    (ready : isUninitialized r.scopes ref.name.lexeme = false) : (reference ref).run r =
      (⟨ref.name, (distance r.scopes ref.name.lexeme).or ref.depth⟩, r) := by
  change (if isUninitialized r.scopes ref.name.lexeme = true then _ else _ : StateM Resolver _).run r = _
  rw [if_neg (Bool.eq_false_iff.mp ready)]
  rfl

/-- Where nothing is reported, the variable may be read. -/
theorem clean_of_reference {ref : Reference} {r : Resolver}
    (none : ((reference ref).run r).2.errors = []) :
    isUninitialized r.scopes ref.name.lexeme = false ∧ r.errors = [] := by
  cases ready : isUninitialized r.scopes ref.name.lexeme with
  | false =>
    rw [run_reference ready] at none
    exact ⟨rfl, none⟩
  | true =>
    change ((if isUninitialized r.scopes ref.name.lexeme = true then _ else _ :
      StateM Resolver _).run r).2.errors = [] at none
    rw [if_pos ready] at none
    exact absurd none (List.append_ne_nil_of_right_ne_nil _ (List.cons_ne_nil _ _))

end Resolver

open Resolver

theorem Site.declare_declare (p : Site) (name : String) (readiness readiness' : Readiness) :
    (p.declare name readiness).declare name readiness' = p.declare name readiness' := by
  obtain ⟨ctx, marks⟩ := p
  cases ctx with
  | nil => rfl
  | cons scope outer => simp only [declare, Context.declare, Bindings.insert_insert]

/-! ## Scopes side by side -/

namespace Variation

variable (v : Variation)

/-- The name is not the one that is to be put in the place of another. -/
def Apart (name : String) : Prop := v.old ≠ v.new → name ≠ v.new

/-- No part of the first text has the new name. -/
def Fresh : Prop := ∀ ctx n, v.Part ctx n → n.Names (.names fun name => v.Apart name.lexeme)

/-- Scopes that are the same but for the names in those that are marked. -/
inductive ScopesVary : List Bool → List Scope → List Scope → Prop
  | nil : ScopesVary [] [] []
  | cons {mark : Bool} {marks : List Bool} {scope scope' : Scope} {scopes scopes' : List Scope}
      (names : ∀ name, scope'.find? (v.rename mark name) = scope.find? name)
      (apart : ∀ name, scope.contains name = true → v.Apart name)
      (rest : ScopesVary marks scopes scopes') :
      ScopesVary (mark :: marks) (scope :: scopes) (scope' :: scopes')

variable {v}

theorem rename_rename (mark : Bool) (name : String) : v.rename mark (v.rename mark name) = name := by
  cases mark with
  | false => rfl
  | true => exact Equiv.swap_apply_self _ _ _

/-- What a name is in the one scope, it is not in another, if it is not the new name. -/
theorem rename_rename_of_ne {mark mark' : Bool} (ne : mark ≠ mark') {name : String}
    (apart : v.Apart name) : v.rename mark (v.rename mark' name) = name ∨
      v.old ≠ v.new ∧ v.rename mark (v.rename mark' name) = v.new := by
  have swapped : v.rename mark (v.rename mark' name) = Equiv.swap v.old v.new name := by
    cases mark <;> cases mark' <;> first | rfl | exact absurd rfl ne
  rw [swapped]
  by_cases same : v.old = v.new
  · rw [same, Equiv.swap_self]
    exact .inl rfl
  · by_cases here : name = v.old
    · rw [here, Equiv.swap_apply_left]
      exact .inr ⟨same, rfl⟩
    · exact .inl (Equiv.swap_apply_of_ne_of_ne here (apart same))

/-- A name that one scope does not declare is not declared by the other, in whichever form. -/
theorem find?_eq_none {mark : Bool} {scope scope' : Scope}
    (names : ∀ name, scope'.find? (v.rename mark name) = scope.find? name)
    (apart : ∀ name, scope.contains name = true → v.Apart name) {name : String}
    (other : v.Apart name) (missing : scope.find? name = none) (mark' : Bool) :
    scope'.find? (v.rename mark' name) = none := by
  have found := names (v.rename mark (v.rename mark' name))
  rw [rename_rename] at found
  rw [found]
  by_cases same : mark = mark'
  · rw [same, rename_rename]
    exact missing
  rcases rename_rename_of_ne same other with same | ⟨differ, same⟩
  · rw [same]
    exact missing
  · rw [same]
    by_contra found
    exact apart v.new (Option.isSome_iff_ne_none.mpr found) differ rfl

namespace ScopesVary

variable {marks : List Bool} {scopes scopes' : List Scope}

/-- A name is found at the same depth. -/
theorem distance (h : v.ScopesVary marks scopes scopes') (ctx : Context) {name : String}
    (apart : v.Apart name) :
    Resolver.distance scopes' (v.rename (Site.isMarked ⟨ctx, marks⟩ (Resolver.distance scopes name)) name) =
      Resolver.distance scopes name := by
  induction h with
  | nil => rfl
  | @cons mark marks scope scope' scopes scopes' names apart' rest ih =>
    rw [Resolver.distance_cons scope]
    cases found : scope.contains name with
    | true =>
      have here : scope'.contains (v.rename mark name) = true := by
        rw [Bindings.contains, names]
        exact found
      exact (Resolver.distance_cons scope' scopes' _).trans (if_pos here)
    | false =>
      have missing : scope.find? name = none := Option.isSome_eq_false_iff.mp found |> Option.isNone_iff_eq_none.mp
      rw [if_neg Bool.false_ne_true]
      have outside : Site.isMarked ⟨ctx, mark :: marks⟩ ((Resolver.distance scopes name).map (· + 1)) =
          Site.isMarked ⟨ctx, marks⟩ (Resolver.distance scopes name) := by
        cases Resolver.distance scopes name <;> rfl
      rw [outside, Resolver.distance_cons, Bindings.contains,
        find?_eq_none names apart' apart missing, ih]
      rfl

/-- A name that may be read, or is not in the innermost scope, is so in the other text. -/
theorem isUninitialized (h : v.ScopesVary marks scopes scopes') (ctx : Context) {name : String}
    (apart : v.Apart name) (ready : Resolver.isUninitialized scopes name = false) :
    Resolver.isUninitialized scopes'
      (v.rename (Site.isMarked ⟨ctx, marks⟩ (Resolver.distance scopes name)) name) = false := by
  cases h with
  | nil => rfl
  | @cons mark marks scope scope' scopes scopes' names apart' rest =>
    rw [Resolver.isUninitialized] at ready ⊢
    cases found : scope.find? name with
    | some _ =>
      have here : Resolver.distance (scope :: scopes) name = some 0 := by
        rw [Resolver.distance_cons, if_pos]
        rw [Bindings.contains, found]
        rfl
      rw [here]
      change (scope'.find? (v.rename mark name) == some false) = false
      rw [names]
      exact ready
    | none =>
      rw [find?_eq_none names apart' apart found]
      rfl

theorem tail (h : v.ScopesVary marks scopes scopes') : v.ScopesVary marks.tail scopes.tail scopes'.tail := by
  cases h with
  | nil => exact .nil
  | cons names apart rest => exact rest

/-- A name is declared in both innermost scopes or in none of them. -/
theorem declares (h : v.ScopesVary marks scopes scopes') (ctx : Context) (name : String) :
    Resolver.declares scopes' (v.rename (Site.mark ⟨ctx, marks⟩) name) = Resolver.declares scopes name := by
  cases h with
  | nil => rfl
  | cons names apart rest => exact congrArg Option.isSome (names name)

theorem mapInnermost_insert (h : v.ScopesVary marks scopes scopes') (ctx : Context) {name : String}
    (apart : v.Apart name) (ready : Bool) :
    v.ScopesVary marks (Scope.mapInnermost (·.insert name ready) scopes)
      (Scope.mapInnermost (·.insert (v.rename (Site.mark ⟨ctx, marks⟩) name) ready) scopes') := by
  cases h with
  | nil => exact .nil
  | @cons mark marks scope scope' scopes scopes' names apart' rest =>
    refine .cons (fun other => ?_) (fun other declared => ?_) rest
    · change (scope'.insert (v.rename mark name) ready).find? (v.rename mark other) = _
      simp only [Bindings.find?_insert, names, (v.rename_injective mark).eq_iff]
    · rw [Bindings.contains_insert, Bool.or_eq_true, decide_eq_true_eq] at declared
      rcases declared with rfl | declared
      · exact apart
      · exact apart' other declared

end ScopesVary

/-- Two walks have come to the same place, and the second one has nothing to report. -/
structure Beside (v : Variation) (p : Site) (r r' : Resolver) : Prop where
  here : r.scopes = p.context.scopes
  scopes : v.ScopesVary p.marks r.scopes r'.scopes
  body : r'.body = r.body
  surrounding : r'.surrounding = r.surrounding
  clean : r'.errors = []

theorem Beside.declare {p : Site} {r r' : Resolver} (h : v.Beside p r r') {name : String}
    (apart : v.Apart name) (readiness : Readiness) :
    v.Beside (p.declare name readiness)
      { r with scopes := Scope.mapInnermost (·.insert name readiness.isReady) r.scopes }
      { r' with
        scopes := Scope.mapInnermost (·.insert (v.rename p.mark name) readiness.isReady) r'.scopes } where
  here := (congrArg _ h.here).trans (p.context.scopes_declare name readiness).symm
  scopes := h.scopes.mapInnermost_insert p.context apart readiness.isReady
  body := h.body
  surrounding := h.surrounding
  clean := h.clean

end Variation

/-! ## Walks side by side -/

/-- The second walk leads from one place to another if the first one reports nothing, and its result is
good. -/
structure Tracks (v : Variation) {α β : Type} (p p₁ : Site) (walk : StateM Resolver α)
    (walk' : StateM Resolver β) (Good : β → Prop) : Prop where
  /-- The first walk takes nothing back that has been reported. -/
  earlier : ∀ r, (walk.run r).2.errors = [] → r.errors = []
  leads : ∀ r r', v.Beside p r r' → (walk.run r).2.errors = [] →
    v.Beside p₁ (walk.run r).2 (walk'.run r').2 ∧ Good (walk'.run r').1

namespace Tracks

variable {v : Variation} {α β α' β' : Type} {p p₁ p₂ : Site} {walk : StateM Resolver α}
  {walk' : StateM Resolver β} {Good : β → Prop}

theorem pure {a : α} {b : β} (good : Good b) : Tracks v p p (Pure.pure a) (Pure.pure b) Good :=
  ⟨fun _ none => none, fun _ _ beside _ => ⟨beside, good⟩⟩

theorem bind {next : α → StateM Resolver α'} {next' : β → StateM Resolver β'} {Good' : β' → Prop}
    (h : Tracks v p p₁ walk walk' Good)
    (rest : ∀ a b, Tracks v p₁ p₂ (next a) (next' b) fun c => Good b → Good' c) :
    Tracks v p p₂ (walk >>= next) (walk' >>= next') Good' := by
  constructor
  · intro r none
    have rest := rest (walk.run r).1 (walk'.run r).1
    exact h.earlier r (rest.earlier _ none)
  · intro r r' beside none
    have rest := rest (walk.run r).1 (walk'.run r').1
    obtain ⟨beside₁, good⟩ := h.leads r r' beside (rest.earlier _ none)
    obtain ⟨beside₂, good'⟩ := rest.leads _ _ beside₁ none
    exact ⟨beside₂, good' good⟩

theorem mono {Good' : β → Prop} (h : Tracks v p p₁ walk walk' Good) (imp : ∀ b, Good b → Good' b) :
    Tracks v p p₁ walk walk' Good' :=
  ⟨h.earlier, fun r r' beside none => (h.leads r r' beside none).imp_right (imp _)⟩

/-- What is asked is answered alike, be it about the innermost function or the innermost class. -/
theorem get_bind {next : Resolver → StateM Resolver α} {next' : Resolver → StateM Resolver β}
    (h : ∀ r r', r'.body = r.body → r'.surrounding = r.surrounding →
      Tracks v p p₁ (next r) (next' r') Good) : Tracks v p p₁ (get >>= next) (get >>= next') Good :=
  ⟨fun r => (h r r rfl rfl).earlier r,
    fun r r' beside => (h r r' beside.body beside.surrounding).leads r r' beside⟩

/-- What matters of a place is which names its scopes declare, and their marks. -/
theorem moved {q : Site} (h : Tracks v p p walk walk' Good)
    (scopes : q.context.scopes = p.context.scopes) (marks : q.marks = p.marks) :
    Tracks v q q walk walk' Good := by
  have same (r r' : Resolver) : v.Beside q r r' ↔ v.Beside p r r' := by
    constructor
    · exact fun beside => ⟨scopes ▸ beside.here, marks ▸ beside.scopes, beside.body,
        beside.surrounding, beside.clean⟩
    · exact fun beside => ⟨scopes ▸ beside.here, marks ▸ beside.scopes, beside.body,
        beside.surrounding, beside.clean⟩
  refine ⟨h.earlier, fun r r' beside none => ?_⟩
  rw [same] at beside ⊢
  exact h.leads r r' beside none

/-! ### The steps of a walk -/

theorem modifyBody (body : Body) : Tracks v p p (modify fun r => { r with body := body })
    (modify fun r => { r with body := body }) fun _ => True :=
  ⟨fun _ none => none, fun _ _ beside _ => ⟨{ beside with body := rfl }, trivial⟩⟩

theorem modifySurrounding (surrounding : Surrounding) :
    Tracks v p p (modify fun r => { r with surrounding := surrounding })
      (modify fun r => { r with surrounding := surrounding }) fun _ => True :=
  ⟨fun _ none => none, fun _ _ beside _ => ⟨{ beside with surrounding := rfl }, trivial⟩⟩

/-- Where the first walk reports something, there is nothing to be said of the second one. -/
theorem report (line : Nat) (lexeme : String) (cause : ResolveError.Cause)
    {step : StateM Resolver β} : Tracks v p p₁ (Resolver.report line lexeme cause) step Good := by
  have reported (r : Resolver) : ((Resolver.report line lexeme cause).run r).2.errors ≠ [] :=
    List.append_ne_nil_of_right_ne_nil _ (List.cons_ne_nil _ _)
  exact ⟨fun r none => absurd none (reported r), fun r _ _ none => absurd none (reported r)⟩

/-- What is reported on a condition makes no difference otherwise. -/
theorem reportIf {condition condition' : Prop} [Decidable condition] [Decidable condition']
    {line line' : Nat} {lexeme lexeme' : String} {cause : ResolveError.Cause}
    {rest : Unit → StateM Resolver α} {rest' : Unit → StateM Resolver β} (imp : condition' → condition)
    (earlier : ∀ r, ((rest ()).run r).2.errors = [] → r.errors = [])
    (h : ¬condition → Tracks v p p₁ (rest ()) (rest' ()) Good) :
    Tracks v p p₁ (if condition then Resolver.report line lexeme cause >>= rest else rest ())
      (if condition' then Resolver.report line' lexeme' cause >>= rest' else rest' ()) Good := by
  by_cases reported : condition
  · rw [if_pos reported]
    have never (r : Resolver) :
        ((Resolver.report line lexeme cause >>= rest).run r).2.errors ≠ [] := fun none =>
      List.append_ne_nil_of_right_ne_nil _ (List.cons_ne_nil _ _) (earlier _ none)
    exact ⟨fun r none => absurd none (never r), fun r _ _ none => absurd none (never r)⟩
  · rw [if_neg reported, if_neg (mt imp reported)]
    exact h reported

theorem openScope {p : Site} (scope : LexicalScope) (mark : Bool) {opened : Scope}
    (same : scope.names.map Readiness.isReady = opened)
    (names : ∀ name, opened.find? (v.rename mark name) = opened.find? name)
    (apart : ∀ name, opened.contains name = true → v.Apart name) :
    Tracks v p (p.enter scope mark) (Resolver.openScope opened) (Resolver.openScope opened)
      fun _ => True := by
  subst same
  exact ⟨fun _ none => none, fun _ _ beside _ => ⟨{ beside with
    here := congrArg (_ :: ·) beside.here
    scopes := .cons names apart beside.scopes }, trivial⟩⟩

/-- Behind the end of a scope, where nothing but that scope has changed. -/
theorem closeScope {q : Site} (context : q.context.tail = p.context) (marks : q.marks.tail = p.marks) :
    Tracks v q p Resolver.closeScope Resolver.closeScope fun _ => True := by
  refine ⟨fun _ none => none, fun r r' beside _ => ⟨{ beside with here := ?_, scopes := ?_ }, trivial⟩⟩
  · change r.scopes.tail = p.context.scopes
    rw [beside.here, ← context]
    exact List.map_tail.symm
  · change v.ScopesVary p.marks r.scopes.tail r'.scopes.tail
    rw [← marks]
    exact beside.scopes.tail

theorem define {name name' : Ident} (apart : v.Apart name.lexeme)
    (same : name'.lexeme = v.rename p.mark name.lexeme) :
    Tracks v p (p.declare name.lexeme .ready) (Resolver.define name) (Resolver.define name')
      fun _ => True := by
  constructor
  · intro r none
    rw [run_define] at none
    exact none
  · intro r r' beside _
    rw [run_define, run_define, same]
    exact ⟨beside.declare apart .ready, trivial⟩

theorem declare {name name' : Ident} (apart : v.Apart name.lexeme)
    (same : name'.lexeme = v.rename p.mark name.lexeme) (initial : Expr) :
    Tracks v p (p.declare name.lexeme (.initializing initial)) (Resolver.declare name)
      (Resolver.declare name') fun _ => True := by
  constructor
  · intro r none
    rw [run_declare] at none
    split at none
    · exact absurd none (List.append_ne_nil_of_right_ne_nil _ (List.cons_ne_nil _ _))
    · exact none
  · intro r r' beside none
    rw [run_declare] at none ⊢
    split at none
    · exact absurd none (List.append_ne_nil_of_right_ne_nil _ (List.cons_ne_nil _ _))
    · rename_i once
      have once' : ¬declares r'.scopes name'.lexeme = true := by
        rw [same]
        exact beside.scopes.declares p.context name.lexeme ▸ once
      rw [if_neg once, run_declare, if_neg once', same]
      exact ⟨beside.declare apart (.initializing initial), trivial⟩

/-- A name is declared and may be read at once. -/
theorem declareAndDefine {name name' : Ident} (apart : v.Apart name.lexeme)
    (same : name'.lexeme = v.rename p.mark name.lexeme) :
    Tracks v p (p.declare name.lexeme .ready)
      (do Resolver.declare name; Resolver.define name)
      (do Resolver.declare name'; Resolver.define name') fun _ => True := by
  have walks := bind (declare apart same (.literal .nil)) fun _ _ =>
    (define (p := p.declare name.lexeme (.initializing (.literal .nil))) apart same).mono
      fun _ _ _ => trivial
  rw [p.declare_declare] at walks
  exact walks

/-- Behind the declarations of parameters. -/
theorem declareAll {m : Nat → Nat} {names : List Ident} (apart : ∀ name ∈ names, v.Apart name.lexeme) :
    Tracks v p (names.foldl (fun p name => p.declare name.lexeme .ready) p) (Resolver.declareAll names)
      (Resolver.declareAll (names.map (v.ident m p.mark))) fun _ => True := by
  rw [Resolver.declareAll, Resolver.declareAll]
  induction names generalizing p with
  | nil => exact pure trivial
  | cons name rest ih =>
    rw [List.forall_mem_cons] at apart
    exact bind (declareAndDefine apart.1 rfl) fun _ _ =>
      (ih (p := p.declare name.lexeme .ready) apart.2).mono fun _ _ _ => trivial

/-- The name that is looked for has in the second text the name of the scope that it is found in. -/
theorem locate {name name' : String} (apart : v.Apart name)
    (same : name' = v.rename (p.isMarked (distance p.context.scopes name)) name) :
    Tracks v p p (Resolver.locate name none) (Resolver.locate name' none)
      fun depth => depth = distance p.context.scopes name := by
  refine ⟨fun _ none => none, fun r r' beside _ => ⟨beside, ?_⟩⟩
  change (distance r'.scopes name').or none = _
  rw [Option.or_none, same, ← beside.here]
  exact beside.scopes.distance p.context apart

/-- `this` and `super` have one name in all scopes. -/
theorem locate_reserved {name : String} (reserved : Reserved name) :
    Tracks v p p (Resolver.locate name none) (Resolver.locate name none)
      fun depth => depth = distance p.context.scopes name :=
  locate (fun _ => (v.user name reserved).2.symm) (v.rename_reserved _ reserved).symm

/-- A reference has the depth that its name is found at, and its name is that of the scope there. -/
theorem reference {m : Nat → Nat} {ref : Reference} (apart : v.Apart ref.name.lexeme)
    (depth : ref.depth = distance p.context.scopes ref.name.lexeme) :
    Tracks v p p (Resolver.reference (ref.relabel .unresolved))
      (Resolver.reference ((v.reference m p ref).relabel .unresolved))
      fun ref' => ref' = v.reference m p ref := by
  constructor
  · intro r none
    exact (clean_of_reference none).2
  · intro r r' beside none
    obtain ⟨ready, -⟩ := clean_of_reference none
    have ready' := beside.scopes.isUninitialized p.context apart ready
    have found := beside.scopes.distance p.context apart
    rw [beside.here, ← depth] at ready' found
    rw [run_reference ready, run_reference ready']
    refine ⟨beside, ?_⟩
    change Reference.mk (v.reference m p ref).name ((distance r'.scopes
      (v.rename (p.isMarked ref.depth) ref.name.lexeme)).or Option.none) = _
    rw [found, Option.or_none]
    rfl

/-- Within a class both walks look for `this`. -/
theorem this {keyword keyword' : Word} {depth : Option Nat}
    (right : (Node.expr (.this keyword depth)).Right p.context) (same : keyword'.lexeme = keyword.lexeme) :
    Tracks v p p (Resolver.this keyword none) (Resolver.this keyword' none)
      fun depth' => depth' = depth := by
  obtain ⟨distance, rfl, found, -⟩ := right.agrees
  have spells : keyword.lexeme = thisName := right.names
  rw [Resolver.this, Resolver.this, same, spells]
  refine get_bind fun r r' _ surrounding => ?_
  rw [surrounding]
  have inside := (locate_reserved (v := v) (p := p) (.inl rfl)).mono fun _ same => same.trans found
  cases r.surrounding with
  | noClass => exact bind (report _ _ _) fun _ _ => pure False.elim
  | baseClass => exact inside
  | subclass => exact inside

/-- Within a subclass both walks look for `super`. -/
theorem super {keyword keyword' : Word} {method : Ident} {depth : Option Nat}
    (right : (Node.expr (.super keyword method depth)).Right p.context)
    (same : keyword'.lexeme = keyword.lexeme) :
    Tracks v p p (Resolver.super keyword none) (Resolver.super keyword' none)
      fun depth' => depth' = depth := by
  obtain ⟨distance, rfl, -, found, -⟩ := right.agrees
  have spells : keyword.lexeme = superName := right.names.1
  rw [Resolver.super, Resolver.super, same, spells]
  refine get_bind fun r r' _ surrounding => ?_
  rw [surrounding]
  cases r.surrounding with
  | noClass => exact bind (report _ _ _) fun _ _ => pure False.elim
  | baseClass => exact bind (report _ _ _) fun _ _ => pure False.elim
  | subclass => exact (locate_reserved (.inr rfl)).mono fun _ same => same.trans found

theorem checkReturn (keyword keyword' : Word) (hasValue : Bool) :
    Tracks v p p (Resolver.checkReturn keyword hasValue) (Resolver.checkReturn keyword' hasValue)
      fun _ => True := by
  rw [Resolver.checkReturn, Resolver.checkReturn]
  refine get_bind fun r r' body _ => ?_
  rw [body]
  have second : Tracks v p p
      (if hasValue = true ∧ r.body = .initializer then
        Resolver.report keyword.line keyword.lexeme .valueReturnedFromInitializer else return ())
      (if hasValue = true ∧ r.body = .initializer then
        Resolver.report keyword'.line keyword'.lexeme .valueReturnedFromInitializer else return ())
      fun _ => True := by
    split
    · exact report _ _ _
    · exact pure trivial
  exact reportIf id second.earlier fun _ => second

theorem beginClass {name name' : Ident} (apart : v.Apart name.lexeme)
    (same : name'.lexeme = v.rename p.mark name.lexeme) :
    Tracks v p (p.declare name.lexeme .ready) (Resolver.beginClass name) (Resolver.beginClass name')
      fun _ => True := by
  rw [Resolver.beginClass, Resolver.beginClass]
  exact bind (modifySurrounding _) fun _ _ => (declareAndDefine apart same).mono fun _ _ _ => trivial

/-- The scope around methods declares one name, which all scopes have in common. -/
theorem openKeyword {name : String} (reserved : Reserved name) (construct : Construct) :
    Tracks v p (p.enter ⟨construct, Bindings.empty.insert name .ready⟩ false)
      (Resolver.openScope (keywordScope name)) (Resolver.openScope (keywordScope name))
      fun _ => True := by
  refine openScope _ _ rfl (fun _ => rfl) fun other declared => ?_
  rw [keywordScope, Bindings.contains_insert, Bool.or_eq_true, decide_eq_true_eq] at declared
  rcases declared with rfl | declared
  · exact fun _ => (v.user name reserved).2.symm
  · cases declared

/-- The superclass of a class, which has another name in the second text too. -/
theorem superclass {m : Nat → Nat} {name name' : Ident} {ref : Reference} (construct : Construct)
    (apart : v.Apart name.lexeme) (same : name'.lexeme = name.lexeme)
    (fixed : v.rename p.mark name.lexeme = name.lexeme) (apart' : v.Apart ref.name.lexeme)
    (depth : ref.depth = distance p.context.scopes ref.name.lexeme) :
    Tracks v (p.declare name.lexeme .ready)
      ((p.declare name.lexeme .ready).enter ⟨construct, Bindings.empty.insert superName .ready⟩ false)
      (Resolver.superclass name (ref.relabel .unresolved))
      (Resolver.superclass name' ((v.reference m p ref).relabel .unresolved))
      fun ref' => ref' = v.reference m p ref := by
  rw [Resolver.superclass, Resolver.superclass]
  refine reportIf (fun clash => ?_) (fun r none => (clean_of_reference none).2) fun other => ?_
  · -- What clashes in the second text does so in the first one, where neither name is the new one.
    have clash : v.rename (p.isMarked ref.depth) ref.name.lexeme = name'.lexeme := clash
    have back : ref.name.lexeme =
        v.rename (p.isMarked ref.depth) (v.rename p.mark name.lexeme) := by
      rw [fixed, ← same, ← clash, Variation.rename_rename]
    by_cases marks : p.isMarked ref.depth = p.mark
    · rw [marks, Variation.rename_rename] at back
      exact back
    · rcases Variation.rename_rename_of_ne marks apart with name_ | ⟨differ, new⟩
      · exact back.trans name_
      · exact absurd (back.trans new) (apart' differ)
  · have other : name.lexeme ≠ ref.name.lexeme := fun same => other same.symm
    have found : ref.depth = distance (p.declare name.lexeme .ready).context.scopes ref.name.lexeme := by
      rw [Site.declare, Context.scopes_declare, distance_insert_of_ne other]
      exact depth
    exact bind (modifySurrounding _) fun _ _ => bind (reference (p := p.declare name.lexeme .ready) apart' found) fun _ _ =>
      bind (openKeyword (.inr rfl) construct) fun _ _ => pure fun _ same _ => same

end Tracks

/-! ## The walk -/

namespace Site

/-- Behind statements that follow one another. -/
def afterAll (p : Site) (ss : List Stmt) : Site := ss.foldl after p

/-- Inside a function, behind its parameters. -/
theorem enter_parameters (p : Site) (decl : Function) (mark : Bool) :
    decl.parameters.foldl (fun p name => p.declare name.lexeme .ready)
      (p.enter ⟨.function decl, .empty⟩ mark) = p.inFunction decl mark := by
  have fold (names : List Ident) (bindings : Bindings Readiness) :
      names.foldl (fun p name => p.declare name.lexeme .ready)
        (p.enter ⟨.function decl, bindings⟩ mark) = p.enter ⟨.function decl, names.foldl
          (fun bindings name => bindings.insert name.lexeme .ready) bindings⟩ mark := by
    induction names generalizing bindings with
    | nil => rfl
    | cons name rest ih => exact ih (bindings.insert name.lexeme .ready)
  exact fold decl.parameters .empty

theorem after_of_not_isDeclaration {s : Stmt} (h : s.isDeclaration = false) (p : Site) :
    p.after s = p := by
  cases s <;> first | rfl | cases h

theorem marks_afterAll (p : Site) (ss : List Stmt) : (p.afterAll ss).marks = p.marks := by
  induction ss generalizing p with
  | nil => rfl
  | cons s rest ih => exact ih (p.after s)

/-- Statements leave the scopes around them as they are. -/
theorem tail_afterAll (p : Site) (ss : List Stmt) :
    (p.afterAll ss).context.tail = p.context.tail := by
  have declared (ctx : Context) (name : String) : (ctx.declare name .ready).tail = ctx.tail := by
    cases ctx <;> rfl
  induction ss generalizing p with
  | nil => rfl
  | cons s rest ih =>
    refine (ih (p.after s)).trans ?_
    change (s.after p.context).tail = p.context.tail
    unfold Stmt.after
    split
    · exact declared _ _
    · exact declared _ _
    · exact declared _ _
    · rfl

end Site

theorem Stmt.isDeclaration_relabel (m : Relabeling) (s : Stmt) :
    (s.relabel m).isDeclaration = s.isDeclaration := by
  cases s with
  | var _ initial => cases initial <;> rfl
  | branch _ _ no => cases no <;> rfl
  | return_ _ value => cases value <;> rfl
  | _ => rfl

section Walk

variable {v : Variation} {m : Nat → Nat}

/-- The second method is an initializer if the first one is. -/
theorem Function.Varies.namedInit_relabel {p : Site} {f f' : Function} (h : f.Varies v m p f') :
    (f'.relabel .unresolved).namedInit = (f.relabel .unresolved).namedInit := by
  cases h with
  | @mk _ name _ _ _ _ _ _ => cases name <;> rfl

theorem Function.Varies.apart {p : Site} {f f' : Function} (h : f.Varies v m p f') (fresh : v.Fresh)
    (name : Ident) (same : f.name = .named name) : v.Apart name.lexeme := by
  cases h with
  | mk part _ _ => exact (fresh _ _ part).1 name same

/-! ### Constructs with scopes of their own -/

namespace Tracks

variable {p : Site}

theorem block {body body' : List Stmt} (mark : Bool)
    (walk : Tracks v (p.inBlock body mark) ((p.inBlock body mark).afterAll body)
      (Stmt.resolveAll (Stmt.relabelAll .unresolved body))
      (Stmt.resolveAll (Stmt.relabelAll .unresolved body')) (· = body')) :
    Tracks v p p ((Stmt.block body).relabel .unresolved).resolve
      ((Stmt.block body').relabel .unresolved).resolve (· = .block body') := by
  simp only [Stmt.relabel, Stmt.resolve]
  have back : Tracks v ((p.inBlock body mark).afterAll body) p Resolver.closeScope Resolver.closeScope
      fun _ => True :=
    .closeScope (Site.tail_afterAll _ _) (congrArg List.tail (Site.marks_afterAll _ _))
  refine (openScope ⟨.block body, .empty⟩ mark rfl (fun _ => rfl) nofun).bind fun _ _ =>
    walk.bind fun _ _ => back.bind fun _ _ => .pure ?_
  rintro - rfl -
  rfl

theorem function {name : FunctionName} {parameters : List Ident} {statements statements' : List Stmt}
    (mark : Bool) (apart : ∀ name ∈ parameters, v.Apart name.lexeme) (body : Body)
    (walk : let q := p.inFunction ⟨name, parameters, statements⟩ mark
      Tracks v q (q.afterAll statements) (Stmt.resolveAll (Stmt.relabelAll .unresolved statements))
        (Stmt.resolveAll (Stmt.relabelAll .unresolved statements')) (· = statements')) :
    let decl' : Function := ⟨name.relabel (.lines m), parameters.map (v.ident m mark), statements'⟩
    Tracks v p p (((⟨name, parameters, statements⟩ : Function).relabel .unresolved).resolve body)
      ((decl'.relabel .unresolved).resolve body) (· = decl') := by
  simp only [Function.relabel, Function.resolve, FunctionName.relabel_unresolved,
    Ident.map_relabel_unresolved]
  let decl : Function := ⟨name, parameters, statements⟩
  have declared : Tracks v (p.enter ⟨.function decl, .empty⟩ mark) (p.inFunction decl mark)
      (Resolver.declareAll parameters) (Resolver.declareAll (parameters.map (v.ident m mark)))
      fun _ => True := by
    rw [← Site.enter_parameters]
    exact .declareAll apart
  have back : Tracks v ((p.inFunction decl mark).afterAll statements) p Resolver.closeScope
      Resolver.closeScope fun _ => True :=
    .closeScope (Site.tail_afterAll _ _) (congrArg List.tail (Site.marks_afterAll _ _))
  refine .get_bind fun r r' outside _ => ?_
  rw [outside]
  refine .bind (modifyBody body) fun _ _ =>
    .bind (openScope ⟨.function decl, .empty⟩ mark rfl (fun _ => rfl) nofun) fun _ _ =>
    .bind declared fun _ _ => .bind walk fun _ _ => .bind back fun _ _ =>
    .bind (modifyBody r.body) fun _ _ => .pure ?_
  rintro - - rfl - - -
  rfl

theorem functionStatement {decl decl' : Function} (name : decl'.name = decl.name.relabel (.lines m))
    (apart : ∀ name, decl.name = .named name → v.Apart name.lexeme)
    (fixed : v.rename p.mark decl.name.lexeme = decl.name.lexeme)
    (walk : let q := p.after (.function decl)
      Tracks v q q ((decl.relabel .unresolved).resolve .function)
        ((decl'.relabel .unresolved).resolve .function) (· = decl')) :
    Tracks v p (p.after (.function decl)) ((Stmt.function decl).relabel .unresolved).resolve
      ((Stmt.function decl').relabel .unresolved).resolve (· = .function decl') := by
  obtain ⟨name₀, parameters, statements⟩ := decl
  obtain ⟨_, parameters', statements'⟩ := decl'
  obtain rfl := name
  simp only [Stmt.relabel, Stmt.resolve]
  cases name₀ with
  | named name =>
    have apart : v.Apart name.lexeme := apart name rfl
    let declared := p.declare name.lexeme (.initializing (.literal .nil))
    let name' := name.relabel (.lines m)
    have same : name'.lexeme = v.rename p.mark name.lexeme := fixed.symm
    change Tracks v p _ (Resolver.declare name >>= fun _ => Resolver.define name >>= fun _ => _)
      (Resolver.declare name' >>= fun _ => Resolver.define name' >>= fun _ => _) _
    have first : Tracks v p declared (Resolver.declare name) (Resolver.declare name') fun _ => True :=
      .declare apart same (.literal .nil)
    have second : Tracks v declared _ (Resolver.define name) (Resolver.define name') fun _ => True :=
      .define apart same
    refine first.bind fun _ _ => second.bind fun _ _ => ?_
    rw [Site.declare_declare]
    refine walk.bind fun _ _ => .pure ?_
    rintro rfl - -
    rfl
  | anonymous line =>
    refine walk.bind fun _ _ => .pure ?_
    rintro rfl
    rfl

/-- What `this` means in the methods of a class. -/
abbrev methodsScope (name : Ident) (methods : List Function) : LexicalScope :=
  ⟨.parent name methods, Bindings.empty.insert thisName .ready⟩

theorem baseClass {name : Ident} {methods methods' : List Function} (apart : v.Apart name.lexeme)
    (fixed : v.rename p.mark name.lexeme = name.lexeme)
    (walk : let q := (p.declare name.lexeme .ready).enter (methodsScope name methods) false
      Tracks v q q (Function.resolveAll (Function.relabelAll .unresolved methods))
        (Function.resolveAll (Function.relabelAll .unresolved methods')) (· = methods')) :
    Tracks v p (p.after (.class_ name none methods))
      ((Stmt.class_ name none methods).relabel .unresolved).resolve
      ((Stmt.class_ (name.relabel (.lines m)) none methods').relabel .unresolved).resolve
      (· = .class_ (name.relabel (.lines m)) none methods') := by
  simp only [Stmt.relabel, Stmt.resolve, Option.map_none]
  let inside := p.declare name.lexeme .ready
  have back : Tracks v (inside.enter (methodsScope name methods) false) inside Resolver.closeScope
      Resolver.closeScope fun _ => True :=
    .closeScope rfl rfl
  refine .get_bind fun r r' _ surrounding => ?_
  rw [surrounding]
  refine .bind (beginClass (p := p) apart fixed.symm) fun _ _ => ?_
  refine .bind (openKeyword (p := inside) (.inl rfl) (.parent name methods)) fun _ _ => ?_
  refine .bind walk fun _ _ => .bind back fun _ _ =>
    .bind (modifySurrounding r.surrounding) fun _ _ => .pure ?_
  rintro - - rfl - -
  rfl

theorem subclass {name : Ident} {ref : Reference} {methods methods' : List Function}
    (apart : v.Apart name.lexeme) (apart' : v.Apart ref.name.lexeme)
    (depth : ref.depth = distance p.context.scopes ref.name.lexeme)
    (fixed : v.rename p.mark name.lexeme = name.lexeme)
    (walk : let parent := (p.declare name.lexeme .ready).aroundMethods name (some ref) methods
      let q := parent.enter (methodsScope name methods) false
      Tracks v q q (Function.resolveAll (Function.relabelAll .unresolved methods))
        (Function.resolveAll (Function.relabelAll .unresolved methods')) (· = methods')) :
    let ref' := v.reference m p ref
    Tracks v p (p.after (.class_ name (some ref) methods))
      ((Stmt.class_ name (some ref) methods).relabel .unresolved).resolve
      ((Stmt.class_ (name.relabel (.lines m)) (some ref') methods').relabel .unresolved).resolve
      (· = .class_ (name.relabel (.lines m)) (some ref') methods') := by
  simp only [Stmt.relabel, Stmt.resolve, Option.map_some]
  let inside := p.declare name.lexeme .ready
  let parent := inside.aroundMethods name (some ref) methods
  have back : Tracks v (parent.enter (methodsScope name methods) false) parent Resolver.closeScope
      Resolver.closeScope fun _ => True :=
    .closeScope rfl rfl
  have back' : Tracks v parent inside Resolver.closeScope Resolver.closeScope fun _ => True :=
    .closeScope rfl rfl
  refine .get_bind fun r r' _ surrounding => ?_
  rw [surrounding]
  refine .bind (beginClass (p := p) apart fixed.symm) fun _ _ => ?_
  refine .bind (superclass (p := p) (.parent name methods) apart rfl fixed apart' depth) fun _ _ => ?_
  refine .bind (openKeyword (p := parent) (.inl rfl) (.parent name methods)) fun _ _ => ?_
  refine .bind walk fun _ _ => .bind back fun _ _ => .bind back' fun _ _ =>
    .bind (modifySurrounding r.surrounding) fun _ _ => .pure ?_
  rintro - - - rfl - rfl -
  rfl

end Tracks

/-! ### Trees -/

mutual

/-- The second expression is what resolution makes of its text. -/
theorem Expr.Varies.tracks {p : Site} {e e' : Expr} (h : e.Varies v m p e') (fresh : v.Fresh)
    (placed : (e.relabel .unresolved).Every Node.Placed) :
    Tracks v p p (e.relabel .unresolved).resolve (e'.relabel .unresolved).resolve (· = e') := by
  cases h with
  | literal value =>
    simp only [Expr.relabel, Expr.resolve]
    exact .pure rfl
  | group inner =>
    simp only [Expr.relabel, Expr.resolve]
    refine (inner.tracks fresh placed.2).bind fun _ _ => .pure ?_
    rintro rfl
    rfl
  | unary operand =>
    simp only [Expr.relabel, Expr.resolve]
    refine (operand.tracks fresh placed.2).bind fun _ _ => .pure ?_
    rintro rfl
    rfl
  | binary left right =>
    simp only [Expr.relabel, Expr.resolve]
    refine (left.tracks fresh placed.2.1).bind fun _ _ => (right.tracks fresh placed.2.2).bind fun _ _ => .pure ?_
    rintro rfl rfl
    rfl
  | logical left right =>
    simp only [Expr.relabel, Expr.resolve]
    refine (left.tracks fresh placed.2.1).bind fun _ _ => (right.tracks fresh placed.2.2).bind fun _ _ => .pure ?_
    rintro rfl rfl
    rfl
  | variable_ part fits =>
    simp only [Expr.relabel, Expr.resolve]
    refine (Tracks.reference (fresh _ _ part) (v.right _ _ part).agrees).bind fun _ _ => .pure ?_
    rintro rfl
    rfl
  | @assign _ target _ _ part fits value =>
    simp only [Expr.relabel, Expr.resolve]
    have depth : target.depth = distance p.context.scopes target.name.lexeme :=
      (v.right _ _ part).agrees
    refine (value.tracks fresh placed.2).bind fun _ _ => (Tracks.locate (fresh _ _ part) ?_).bind
      fun _ _ => .pure ?_
    · rw [← depth]
      rfl
    · rintro rfl rfl
      rw [← depth]
      rfl
  | call callee arguments =>
    simp only [Expr.relabel, Expr.resolve]
    refine (callee.tracks fresh placed.2.1).bind fun _ _ => (arguments.tracks fresh placed.2.2).bind fun _ _ =>
      .pure ?_
    rintro rfl rfl
    rfl
  | get object =>
    simp only [Expr.relabel, Expr.resolve]
    refine (object.tracks fresh placed.2).bind fun _ _ => .pure ?_
    rintro rfl
    rfl
  | set object value =>
    simp only [Expr.relabel, Expr.resolve]
    refine (value.tracks fresh placed.2.2).bind fun _ _ => (object.tracks fresh placed.2.1).bind fun _ _ => .pure ?_
    rintro rfl rfl
    rfl
  | this part =>
    simp only [Expr.relabel, Expr.resolve]
    refine (Tracks.this (v.right _ _ part) (by rfl)).bind fun _ _ => .pure ?_
    rintro rfl
    rfl
  | super part =>
    simp only [Expr.relabel, Expr.resolve]
    refine (Tracks.super (v.right _ _ part) (by rfl)).bind fun _ _ => .pure ?_
    rintro rfl
    rfl
  | function decl =>
    simp only [Expr.relabel, Expr.resolve]
    refine (decl.tracks fresh placed.2 .function).bind fun _ _ => .pure ?_
    rintro rfl
    rfl
termination_by sizeOf e
decreasing_by all_goals (subst_vars; simp +arith)

theorem Expr.AllVary.tracks {p : Site} {es es' : List Expr} (h : Expr.AllVary v m p es es') (fresh : v.Fresh)
    (placed : Expr.EveryAll Node.Placed (Expr.relabelAll .unresolved es)) :
    Tracks v p p (Expr.resolveAll (Expr.relabelAll .unresolved es))
      (Expr.resolveAll (Expr.relabelAll .unresolved es')) (· = es') := by
  cases h with
  | nil =>
    simp only [Expr.relabelAll, Expr.resolveAll]
    exact .pure rfl
  | cons first rest =>
    simp only [Expr.relabelAll, Expr.resolveAll]
    refine (first.tracks fresh placed.1).bind fun _ _ => (rest.tracks fresh placed.2).bind fun _ _ => .pure ?_
    rintro rfl rfl
    rfl
termination_by sizeOf es
decreasing_by all_goals (subst_vars; simp +arith)

/-- The second statement is what resolution makes of its text. -/
theorem Stmt.Varies.tracks {p : Site} {s s' : Stmt} (h : s.Varies v m p s') (fresh : v.Fresh)
    (placed : (s.relabel .unresolved).Every Node.Placed) :
    Tracks v p (p.after s) (s.relabel .unresolved).resolve (s'.relabel .unresolved).resolve (· = s') := by
  cases h with
  | expression value =>
    simp only [Stmt.relabel, Stmt.resolve]
    refine (value.tracks fresh placed.2).bind fun _ _ => .pure ?_
    rintro rfl
    rfl
  | print value =>
    simp only [Stmt.relabel, Stmt.resolve]
    refine (value.tracks fresh placed.2).bind fun _ _ => .pure ?_
    rintro rfl
    rfl
  | @var _ name part =>
    simp only [Stmt.relabel, Stmt.resolve]
    have apart : v.Apart name.lexeme := fresh _ _ part
    let declared := p.declare name.lexeme (.initializing (.literal .nil))
    refine (Tracks.declare apart rfl _).bind fun _ _ =>
      (Tracks.define (p := declared) apart rfl).bind fun _ _ => ?_
    rw [Site.declare_declare]
    exact .pure fun _ _ => rfl
  | @initialized _ name initial _ part value =>
    simp only [Stmt.relabel, Stmt.resolve]
    have apart : v.Apart name.lexeme := fresh _ _ part
    let declared := p.declare name.lexeme (.initializing initial)
    refine (Tracks.declare apart rfl initial).bind fun _ _ => (value.tracks fresh placed.2).bind fun _ _ =>
      (Tracks.define (p := declared) apart rfl).bind fun _ _ => ?_
    rw [Site.declare_declare]
    refine .pure ?_
    rintro - rfl -
    rfl
  | block mark vary => exact .block mark (vary.tracks fresh placed.2)
  | branch condition yes =>
    simp only [Stmt.relabel, Stmt.resolve]
    have plain := (Stmt.isDeclaration_relabel _ _).symm.trans placed.1.1
    have yes := yes.tracks fresh placed.2.2
    rw [Site.after_of_not_isDeclaration plain] at yes
    refine (condition.tracks fresh placed.2.1).bind fun _ _ => yes.bind fun _ _ => .pure ?_
    rintro rfl rfl
    rfl
  | choice condition yes no =>
    simp only [Stmt.relabel, Stmt.resolve]
    have plain := (Stmt.isDeclaration_relabel _ _).symm.trans placed.1.1
    have plain' := (Stmt.isDeclaration_relabel _ _).symm.trans (placed.1.2 _ rfl)
    have yes := yes.tracks fresh placed.2.2.1
    have no := no.tracks fresh placed.2.2.2
    rw [Site.after_of_not_isDeclaration plain] at yes
    rw [Site.after_of_not_isDeclaration plain'] at no
    refine (condition.tracks fresh placed.2.1).bind fun _ _ => yes.bind fun _ _ => no.bind fun _ _ => .pure ?_
    rintro rfl rfl rfl
    rfl
  | loop _ condition body =>
    simp only [Stmt.relabel, Stmt.resolve]
    have plain := (Stmt.isDeclaration_relabel _ _).symm.trans placed.1
    have body := body.tracks fresh placed.2.2
    rw [Site.after_of_not_isDeclaration plain] at body
    refine (condition.tracks fresh placed.2.1).bind fun _ _ => body.bind fun _ _ => .pure ?_
    rintro rfl rfl
    rfl
  | function fixed varies =>
    have walk := varies.tracks fresh placed.2 .function
    exact .functionStatement varies.name (varies.apart fresh) fixed walk
  | return_ =>
    simp only [Stmt.relabel, Stmt.resolve]
    exact (Tracks.checkReturn _ _ _).bind fun _ _ => .pure fun _ => rfl
  | returned value =>
    simp only [Stmt.relabel, Stmt.resolve]
    refine (Tracks.checkReturn _ _ _).bind fun _ _ => (value.tracks fresh placed.2).bind fun _ _ => .pure ?_
    rintro rfl -
    rfl
  | @class_ _ name methods _ part fixed vary =>
    exact .baseClass (fresh _ _ part).1 fixed (vary.tracks fresh placed.2 (.parent name methods))
  | @subclass _ name ref methods _ part fixed varies vary =>
    have depth : ref.depth = distance p.context.scopes ref.name.lexeme := by
      cases varies with
      | variable_ part _ => exact (v.right _ _ part).agrees
    exact .subclass (fresh _ _ part).1 ((fresh _ _ part).2 ref rfl) depth fixed
      (vary.tracks fresh placed.2 (.parent name methods))
termination_by sizeOf s
decreasing_by all_goals (subst_vars; simp +arith)

theorem Stmt.AllVary.tracks {p : Site} {ss ss' : List Stmt} (h : Stmt.AllVary v m p ss ss') (fresh : v.Fresh)
    (placed : Stmt.EveryAll Node.Placed (Stmt.relabelAll .unresolved ss)) :
    Tracks v p (p.afterAll ss) (Stmt.resolveAll (Stmt.relabelAll .unresolved ss))
      (Stmt.resolveAll (Stmt.relabelAll .unresolved ss')) (· = ss') := by
  cases h with
  | nil =>
    simp only [Stmt.relabelAll, Stmt.resolveAll]
    exact .pure rfl
  | cons first rest =>
    simp only [Stmt.relabelAll, Stmt.resolveAll]
    refine (first.tracks fresh placed.1).bind fun _ _ => (rest.tracks fresh placed.2).bind fun _ _ => .pure ?_
    rintro rfl rfl
    rfl
termination_by sizeOf ss
decreasing_by all_goals (subst_vars; simp +arith)

/-- The second function is what resolution makes of its text. -/
theorem Function.Varies.tracks {p : Site} {f f' : Function} (h : f.Varies v m p f') (fresh : v.Fresh)
    (placed : (f.relabel .unresolved).Every Node.Placed) (body : Body) :
    Tracks v p p ((f.relabel .unresolved).resolve body) ((f'.relabel .unresolved).resolve body)
      (· = f') := by
  cases h with
  | mk part mark vary => exact .function mark (fresh _ _ part).2 body (vary.tracks fresh placed.2)
termination_by sizeOf f
decreasing_by all_goals (subst_vars; simp +arith)

/-- Every method stands in a scope of its own, which declares `this`. -/
theorem Function.AllVary.tracks {p : Site} {fs fs' : List Function} (h : Function.AllVary v m p fs fs') (fresh : v.Fresh)
    (placed : Function.EveryAll Node.Placed (Function.relabelAll .unresolved fs))
    (construct : Construct) :
    let q := p.enter ⟨construct, Bindings.empty.insert thisName .ready⟩ false
    Tracks v q q (Function.resolveAll (Function.relabelAll .unresolved fs))
      (Function.resolveAll (Function.relabelAll .unresolved fs')) (· = fs') := by
  cases h with
  | nil =>
    simp only [Function.relabelAll, Function.resolveAll]
    exact .pure rfl
  | @cons _ f _ rest _ first others =>
    simp only [Function.relabelAll, Function.resolveAll]
    have here := first.tracks fresh placed.1
      (if (f.relabel .unresolved).namedInit then .initializer else .method)
    rw [first.namedInit_relabel]
    refine .bind (here.moved rfl rfl) fun _ _ =>
      .bind (others.tracks fresh placed.2 construct) fun _ _ => .pure ?_
    rintro rfl rfl
    rfl
termination_by sizeOf fs
decreasing_by all_goals (subst_vars; simp +arith)

end

/-- **What varies from a resolved program is resolved in the same way.**  It is what resolution makes of
its own text, without errors, if the first program could be resolved without errors. -/
theorem Stmt.AllVary.resolveProgram {program program' : List Stmt}
    (h : Stmt.AllVary v m .outermost program program') (fresh : v.Fresh)
    (placed : Stmt.EveryAll Node.Placed (Stmt.relabelAll .unresolved program))
    (clean : (Lox.resolveProgram (Stmt.relabelAll .unresolved program)).errors = []) :
    Lox.resolveProgram (Stmt.relabelAll .unresolved program') = ⟨program', []⟩ := by
  have start : v.Beside .outermost Resolver.start Resolver.start := ⟨rfl, .nil, rfl, rfl, rfl⟩
  obtain ⟨beside, same⟩ := (h.tracks fresh placed).leads _ _ start clean
  change Resolution.mk ((Stmt.resolveAll (Stmt.relabelAll .unresolved program')).run Resolver.start).1
    ((Stmt.resolveAll (Stmt.relabelAll .unresolved program')).run Resolver.start).2.errors = _
  rw [same, beside.clean]

end Walk

end Lox
