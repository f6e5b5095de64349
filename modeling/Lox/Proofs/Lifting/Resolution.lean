import Lox.Proofs.Lifting.Code
import Lox.Proofs.Scope.Resolution

/-!
# Resolution inside one more scope

A piece of a program that is resolved with one more scope open, which declares nothing, comes out as it
would without it, lifted over that scope (`Expr.lifts_resolve`, `Stmt.lifts_resolve`).

Two walks go side by side (`Resolver.Beside`), and the second one has the additional scope open beyond
so many others.  What they report plays no part.  Only where nothing lies within the additional scope,
a declaration would make a difference, and it may not stand there.
-/

namespace Lox

/-! ## Distances -/

namespace Resolver

/-- What is declared beyond an empty scope is one scope further away. -/
theorem distance_append_empty (inner outer : List Scope) (name : String) :
    distance (inner ++ .empty :: outer) name =
      (distance (inner ++ outer) name).map (Gap.beyond inner.length).shift := by
  induction inner with
  | nil =>
    rw [List.nil_append, List.nil_append, distance_cons]
    rfl
  | cons scope inner ih =>
    have deeper : Gap.beyond (scope :: inner).length = (Gap.beyond inner.length).deeper := rfl
    rw [List.cons_append, List.cons_append, distance_cons, distance_cons, ih, deeper]
    split
    · rw [Option.map_some, Gap.shift_deeper_zero]
    · rw [Option.map_map, Option.map_map]
      exact congrArg (Option.map · _) (funext fun depth => Gap.shift_deeper_succ.symm)

/-- What the first of the outer scopes does not declare is not found there. -/
theorem distance_append_ne {inner outer : List Scope} {name : String}
    (other : ∀ scope ∈ outer.head?, scope.contains name = false) :
    distance (inner ++ outer) name ≠ some inner.length := by
  induction inner with
  | nil =>
    cases outer with
    | nil => exact nofun
    | cons scope outer =>
      rw [List.nil_append, distance_cons, other scope rfl]
      cases distance outer name <;> simp
  | cons scope inner ih =>
    rw [List.cons_append, distance_cons]
    split
    · simp
    · intro found
      obtain ⟨depth, here, same⟩ := Option.map_eq_some_iff.mp found
      rw [List.length_cons, Nat.add_right_cancel_iff] at same
      exact ih (same ▸ here)

/-- Two walks have come to the same place.  In the second one an empty scope is open, beyond so many
others. -/
structure Beside (outer : List Scope) (within : Nat) (r r' : Resolver) : Prop where
  scopes : ∃ inner : List Scope, inner.length = within ∧ r.scopes = inner ++ outer ∧
    r'.scopes = inner ++ .empty :: outer
  /-- `super` is not found just beyond the additional scope. -/
  clear : ∀ scope ∈ outer.head?, scope.contains superName = false
  body : r'.body = r.body
  surrounding : r'.surrounding = r.surrounding

namespace Beside

variable {outer : List Scope} {within : Nat} {r r' : Resolver}

/-- What is reported plays no part. -/
theorem withErrors (h : Beside outer within r r') (errors errors' : List ResolveError) :
    Beside outer within { r with errors := errors } { r' with errors := errors' } :=
  { h with }

theorem distance (h : Beside outer within r r') (name : String) :
    Resolver.distance r'.scopes name =
      (Resolver.distance r.scopes name).map (Gap.beyond within).shift := by
  obtain ⟨inner, rfl, scopes, scopes'⟩ := h.scopes
  rw [scopes, scopes', distance_append_empty]

/-- Within the additional scope, the innermost scope is the same in both walks. -/
theorem mapInnermost (h : Beside outer (within + 1) r r') (f : Scope → Scope) :
    Beside outer (within + 1) { r with scopes := Scope.mapInnermost f r.scopes }
      { r' with scopes := Scope.mapInnermost f r'.scopes } := by
  obtain ⟨inner, length, scopes, scopes'⟩ := h.scopes
  refine { h with scopes := ?_ }
  cases inner with
  | nil => cases length
  | cons scope inner =>
    refine ⟨f scope :: inner, length, ?_, ?_⟩
    · exact congrArg (Scope.mapInnermost f) scopes
    · exact congrArg (Scope.mapInnermost f) scopes'

end Beside

end Resolver

/-! ## Walks side by side -/

/-- The two walks lead from one place to another, side by side, and their results are related. -/
def WalkBeside (outer : List Scope) {α β : Type} (within within' : Nat) (walk : StateM Resolver α)
    (walk' : StateM Resolver β) (Good : α → β → Prop) : Prop :=
  ∀ r r', Resolver.Beside outer within r r' →
    Resolver.Beside outer within' (walk.run r).2 (walk'.run r').2 ∧ Good (walk.run r).1 (walk'.run r').1

namespace WalkBeside

variable {outer : List Scope} {α β γ δ : Type} {n n₁ n₂ : Nat} {walk : StateM Resolver α}
  {walk' : StateM Resolver β} {Good : α → β → Prop}

theorem pure {a : α} {b : β} (good : Good a b) :
    WalkBeside outer n n (Pure.pure a) (Pure.pure b) Good :=
  fun _ _ beside => ⟨beside, good⟩

theorem bind {next : α → StateM Resolver γ} {next' : β → StateM Resolver δ} {Good' : γ → δ → Prop}
    (h : WalkBeside outer n n₁ walk walk' Good)
    (rest : ∀ a b, Good a b → WalkBeside outer n₁ n₂ (next a) (next' b) Good') :
    WalkBeside outer n n₂ (walk >>= next) (walk' >>= next') Good' := by
  intro r r' beside
  obtain ⟨beside₁, good⟩ := h r r' beside
  exact rest _ _ good _ _ beside₁

theorem mono {Good' : α → β → Prop} (h : WalkBeside outer n n₁ walk walk' Good)
    (imp : ∀ a b, Good a b → Good' a b) : WalkBeside outer n n₁ walk walk' Good' :=
  fun r r' beside => (h r r' beside).imp_right (imp _ _)

/-- What is asked is answered alike, be it about the innermost function or the innermost class. -/
theorem get_bind {next : Resolver → StateM Resolver α} {next' : Resolver → StateM Resolver β}
    (h : ∀ r r', r'.body = r.body → r'.surrounding = r.surrounding →
      WalkBeside outer n n₁ (next r) (next' r') Good) :
    WalkBeside outer n n₁ (get >>= next) (get >>= next') Good :=
  fun r r' beside => h r r' beside.body beside.surrounding r r' beside

/-- What one of the walks reports, and on which condition, makes no difference. -/
theorem reportIf {condition condition' : Prop} [Decidable condition] [Decidable condition']
    {line : Nat} {lexeme : String} {cause : ResolveError.Cause} {rest : Unit → StateM Resolver α}
    {rest' : Unit → StateM Resolver β} (h : WalkBeside outer n n₁ (rest ()) (rest' ()) Good) :
    WalkBeside outer n n₁ (if condition then Resolver.report line lexeme cause >>= rest else rest ())
      (if condition' then Resolver.report line lexeme cause >>= rest' else rest' ()) Good := by
  intro r r' beside
  split <;> split
  · exact h _ _ (beside.withErrors _ _)
  · exact h _ _ (beside.withErrors _ r'.errors)
  · exact h _ _ (beside.withErrors r.errors _)
  · exact h _ _ beside

/-! ### The steps of a walk -/

theorem report (line : Nat) (lexeme : String) (cause : ResolveError.Cause) :
    WalkBeside outer n n (Resolver.report line lexeme cause) (Resolver.report line lexeme cause)
      fun _ _ => True :=
  fun _ _ beside => ⟨beside.withErrors _ _, trivial⟩

theorem modifyBody (body : Body) : WalkBeside outer n n (modify fun r => { r with body := body })
    (modify fun r => { r with body := body }) fun _ _ => True :=
  fun _ _ beside => ⟨{ beside with body := rfl }, trivial⟩

theorem modifySurrounding (surrounding : Surrounding) :
    WalkBeside outer n n (modify fun r => { r with surrounding := surrounding })
      (modify fun r => { r with surrounding := surrounding }) fun _ _ => True :=
  fun _ _ beside => ⟨{ beside with surrounding := rfl }, trivial⟩

theorem openScope (scope : Scope) : WalkBeside outer n (n + 1) (Resolver.openScope scope)
    (Resolver.openScope scope) fun _ _ => True := by
  intro r r' beside
  obtain ⟨inner, length, scopes, scopes'⟩ := beside.scopes
  refine ⟨{ beside with scopes := ⟨scope :: inner, congrArg (· + 1) length, ?_, ?_⟩ }, trivial⟩
  · exact congrArg (scope :: ·) scopes
  · exact congrArg (scope :: ·) scopes'

theorem closeScope : WalkBeside outer (n + 1) n Resolver.closeScope Resolver.closeScope
    fun _ _ => True := by
  intro r r' beside
  obtain ⟨inner, length, scopes, scopes'⟩ := beside.scopes
  cases inner with
  | nil => cases length
  | cons scope inner =>
    refine ⟨{ beside with scopes := ⟨inner, Nat.succ.inj length, ?_, ?_⟩ }, trivial⟩
    · exact congrArg List.tail scopes
    · exact congrArg List.tail scopes'

theorem define (name : Ident) : WalkBeside outer (n + 1) (n + 1) (Resolver.define name)
    (Resolver.define name) fun _ _ => True := by
  intro r r' beside
  obtain ⟨inner, length, scopes, scopes'⟩ := beside.scopes
  have mapped := beside.mapInnermost (·.insert name.lexeme true)
  obtain ⟨rs, body, surrounding, errors⟩ := r
  obtain ⟨rs', body', surrounding', errors'⟩ := r'
  cases inner with
  | nil => cases length
  | cons scope inner =>
    obtain rfl : rs = _ := scopes
    obtain rfl : rs' = _ := scopes'
    exact ⟨mapped, trivial⟩

theorem declare (name : Ident) : WalkBeside outer (n + 1) (n + 1) (Resolver.declare name)
    (Resolver.declare name) fun _ _ => True := by
  intro r r' beside
  obtain ⟨inner, length, scopes, scopes'⟩ := beside.scopes
  have mapped := beside.mapInnermost (·.insert name.lexeme false)
  obtain ⟨rs, body, surrounding, errors⟩ := r
  obtain ⟨rs', body', surrounding', errors'⟩ := r'
  cases inner with
  | nil => cases length
  | cons scope inner =>
    obtain rfl : rs = _ := scopes
    obtain rfl : rs' = _ := scopes'
    have reported : WalkBeside outer (n + 1) (n + 1)
        (if scope.contains name.lexeme then
          Resolver.report name.line name.lexeme .declaredTwice else return ())
        (if scope.contains name.lexeme then
          Resolver.report name.line name.lexeme .declaredTwice else return ())
        fun _ _ => True := by
      split
      · exact report _ _ _
      · exact pure trivial
    exact reported _ _ mapped

theorem declareAll (names : List Ident) : WalkBeside outer (n + 1) (n + 1)
    (Resolver.declareAll names) (Resolver.declareAll names) fun _ _ => True := by
  rw [Resolver.declareAll]
  induction names with
  | nil => exact pure trivial
  | cons name rest ih =>
    exact bind (bind (declare name) fun _ _ _ => define name) fun _ _ _ => ih

/-- A name is found where it is without the additional scope. -/
theorem locate (name : String) : WalkBeside outer n n (Resolver.locate name none)
    (Resolver.locate name none) fun depth depth' => depth' = depth.map (Gap.beyond n).shift := by
  intro r r' beside
  refine ⟨beside, ?_⟩
  change (Resolver.distance r'.scopes name).or none =
    ((Resolver.distance r.scopes name).or none).map _
  rw [Option.or_none, Option.or_none]
  exact beside.distance name

theorem reference {ref : Reference} (new : ref.depth = none) :
    WalkBeside outer n n (Resolver.reference ref) (Resolver.reference ref)
      fun found found' => found' = found.lift (.beyond n) := by
  rw [Resolver.reference]
  refine get_bind fun _ _ _ _ => reportIf ?_
  rw [new]
  refine bind (locate _) fun depth depth' found => pure ?_
  rw [found]
  rfl

theorem this (keyword : Word) :
    WalkBeside outer n n (Resolver.this keyword none) (Resolver.this keyword none)
      fun depth depth' => depth' = depth.map (Gap.beyond n).shift := by
  rw [Resolver.this]
  refine get_bind fun r r' _ surrounding => ?_
  rw [surrounding]
  cases r.surrounding with
  | noClass => exact bind (report _ _ _) fun _ _ _ => pure rfl
  | baseClass => exact locate keyword.lexeme
  | subclass => exact locate keyword.lexeme

/-- The scope just beyond the gap is not the one that `super` is found in. -/
theorem super {keyword : Word} (spells : keyword.Spells .super_) :
    WalkBeside outer n n (Resolver.super keyword none) (Resolver.super keyword none)
      fun depth depth' => depth' = depth.map (Gap.beyond n).shift ∧
        ∀ distance ∈ depth, (Gap.beyond n).shift distance - 1 = (Gap.beyond n).shift (distance - 1) := by
  have inside : WalkBeside outer n n (Resolver.locate superName none)
      (Resolver.locate superName none) fun depth depth' =>
        depth' = depth.map (Gap.beyond n).shift ∧ depth ≠ some n := by
    intro r r' beside
    obtain ⟨beside₁, found⟩ := locate superName r r' beside
    obtain ⟨inner, rfl, scopes, -⟩ := beside.scopes
    refine ⟨beside₁, found, ?_⟩
    change (Resolver.distance r.scopes superName).or none ≠ _
    rw [Option.or_none, scopes]
    exact Resolver.distance_append_ne beside.clear
  have around (depth : Option Nat) (other : depth ≠ some n) : ∀ distance ∈ depth,
      (Gap.beyond n).shift distance - 1 = (Gap.beyond n).shift (distance - 1) := by
    intro distance mem
    have ne : distance ≠ n := fun same => other (same ▸ mem)
    simp only [Gap.shift]
    split <;> split <;> omega
  rw [Resolver.super, show keyword.lexeme = superName from spells]
  refine get_bind fun r r' _ surrounding => ?_
  rw [surrounding]
  cases r.surrounding with
  | noClass => exact bind (report _ _ _) fun _ _ _ => pure ⟨rfl, fun _ mem => by cases mem⟩
  | baseClass => exact bind (report _ _ _) fun _ _ _ => pure ⟨rfl, fun _ mem => by cases mem⟩
  | subclass => exact inside.mono fun depth _ found => ⟨found.1, around depth found.2⟩

theorem checkReturn (keyword : Word) (hasValue : Bool) : WalkBeside outer n n
    (Resolver.checkReturn keyword hasValue) (Resolver.checkReturn keyword hasValue)
      fun _ _ => True := by
  rw [Resolver.checkReturn]
  refine get_bind fun r r' body _ => reportIf ?_
  rw [body]
  split
  · exact report _ _ _
  · exact pure trivial

theorem beginClass (name : Ident) : WalkBeside outer (n + 1) (n + 1) (Resolver.beginClass name)
    (Resolver.beginClass name) fun _ _ => True :=
  bind (modifySurrounding _) fun _ _ _ => bind (declare name) fun _ _ _ => define name

theorem superclass (name : Ident) {ref : Reference} (new : ref.depth = none) :
    WalkBeside outer n (n + 1) (Resolver.superclass name ref) (Resolver.superclass name ref)
      fun found found' => found' = found.lift (.beyond n) := by
  rw [Resolver.superclass]
  refine reportIf (bind (modifySurrounding _) fun _ _ _ => ?_)
  refine bind (reference new) fun found found' same => ?_
  exact bind (openScope _) fun _ _ _ => pure same

end WalkBeside

/-! ## The walk through a tree -/

section Walk

open WalkBeside

variable {outer : List Scope}

mutual

theorem Expr.lifts_resolve {n : Nat} {e : Expr} (h : e.Every (Node.Parsed .scanned)) :
    WalkBeside outer n n e.resolve e.resolve (Expr.Lifts (.beyond n)) := by
  cases e with
  | literal value =>
    rw [Expr.resolve]
    exact .pure (.literal value)
  | group inner =>
    rw [Expr.resolve]
    exact .bind (Expr.lifts_resolve h.2) fun _ _ lifts => .pure (.group lifts)
  | unary op operand =>
    rw [Expr.resolve]
    exact .bind (Expr.lifts_resolve h.2) fun _ _ lifts => .pure (.unary lifts)
  | binary left op right =>
    rw [Expr.resolve]
    exact .bind (Expr.lifts_resolve h.2.1) fun _ _ lifts =>
      .bind (Expr.lifts_resolve h.2.2) fun _ _ lifts' => .pure (.binary lifts lifts')
  | logical left op right =>
    rw [Expr.resolve]
    exact .bind (Expr.lifts_resolve h.2.1) fun _ _ lifts =>
      .bind (Expr.lifts_resolve h.2.2) fun _ _ lifts' => .pure (.logical lifts lifts')
  | variable_ ref =>
    rw [Expr.resolve]
    refine .bind (reference h.unresolved) fun found _ same => .pure ?_
    rw [same]
    exact .variable_ found
  | assign target value =>
    have new : target.depth = none := h.1.unresolved
    rw [Expr.resolve, new]
    refine .bind (Expr.lifts_resolve h.2) fun _ _ lifts =>
      .bind (locate _) fun depth _ same => .pure ?_
    rw [same]
    exact .assign ⟨target.name, depth⟩ lifts
  | call callee arguments line =>
    rw [Expr.resolve]
    exact .bind (Expr.lifts_resolve h.2.1) fun _ _ lifts =>
      .bind (Expr.allLift_resolveAll h.2.2) fun _ _ all => .pure (.call lifts all)
  | get object name =>
    rw [Expr.resolve]
    exact .bind (Expr.lifts_resolve h.2) fun _ _ lifts => .pure (.get lifts)
  | set object name value =>
    rw [Expr.resolve]
    exact .bind (Expr.lifts_resolve h.2.2) fun _ _ lifts' =>
      .bind (Expr.lifts_resolve h.2.1) fun _ _ lifts => .pure (.set lifts lifts')
  | this keyword depth =>
    have new : depth = none := h.unresolved
    rw [Expr.resolve, new]
    refine .bind (this keyword) fun depth _ same => .pure ?_
    rw [same]
    exact .this keyword depth
  | super keyword method depth =>
    have new : depth = none := h.unresolved
    rw [Expr.resolve, new]
    refine .bind (super h.names.1) fun depth _ found => .pure ?_
    rw [found.1]
    exact .super keyword method found.2
  | function decl =>
    rw [Expr.resolve]
    exact .bind (Function.lifts_resolve h.2 .function) fun _ _ lifts => .pure (.function lifts)

theorem Expr.allLift_resolveAll {n : Nat} {es : List Expr} (h : Expr.EveryAll (Node.Parsed .scanned) es) :
    WalkBeside outer n n (Expr.resolveAll es) (Expr.resolveAll es) (Expr.AllLift (.beyond n)) := by
  cases es with
  | nil =>
    rw [Expr.resolveAll]
    exact .pure .nil
  | cons e rest =>
    rw [Expr.resolveAll]
    exact .bind (Expr.lifts_resolve h.1) fun _ _ lifts =>
      .bind (Expr.allLift_resolveAll h.2) fun _ _ all => .pure (.cons lifts all)

theorem Stmt.lifts_resolve {n : Nat} {s : Stmt} (h : s.Every (Node.Parsed .scanned))
    (inside : s.isDeclaration = true → n ≠ 0) :
    WalkBeside outer n n s.resolve s.resolve (Stmt.Lifts (.beyond n)) := by
  cases s with
  | expression value =>
    rw [Stmt.resolve]
    exact .bind (Expr.lifts_resolve h.2) fun _ _ lifts => .pure (.expression lifts)
  | print line value =>
    rw [Stmt.resolve]
    exact .bind (Expr.lifts_resolve h.2) fun _ _ lifts => .pure (.print lifts)
  | var name initial =>
    -- A declaration stands in a scope opened since, so the additional scope stays empty.
    obtain ⟨n, rfl⟩ := Nat.exists_eq_add_one_of_ne_zero (inside rfl)
    have beyond : Gap.beyond (n + 1) ≠ .here := by simp [Gap.here]
    cases initial with
    | none =>
      rw [Stmt.resolve]
      exact .bind (declare name) fun _ _ _ => .bind (define name) fun _ _ _ => .pure (.var name beyond)
    | some initial =>
      rw [Stmt.resolve]
      exact .bind (declare name) fun _ _ _ => .bind (Expr.lifts_resolve h.2) fun _ _ lifts =>
        .bind (define name) fun _ _ _ => .pure (.initialized name beyond lifts)
  | block body =>
    rw [Stmt.resolve]
    exact .bind (openScope _) fun _ _ _ => .bind (Stmt.allLift_resolveAll h.2) fun _ _ all =>
      .bind closeScope fun _ _ _ => .pure (.block all)
  | branch condition yes no =>
    have placed := h.self.placed
    have plain {s : Stmt} (h : s.isDeclaration = false) : s.isDeclaration = true → n ≠ 0 :=
      fun same => Bool.noConfusion (h.symm.trans same)
    cases no with
    | none =>
      rw [Stmt.resolve]
      exact .bind (Expr.lifts_resolve h.2.1) fun _ _ lifts =>
        .bind (Stmt.lifts_resolve h.2.2 (plain placed.1)) fun _ _ lifts' => .pure (.branch lifts lifts')
    | some no =>
      rw [Stmt.resolve]
      exact .bind (Expr.lifts_resolve h.2.1) fun _ _ lifts =>
        .bind (Stmt.lifts_resolve h.2.2.1 (plain placed.1)) fun _ _ lifts' =>
          .bind (Stmt.lifts_resolve h.2.2.2 (plain (placed.2 no rfl))) fun _ _ lifts'' =>
            .pure (.choice lifts lifts' lifts'')
  | loop condition body =>
    have placed : body.isDeclaration = false := h.1.placed
    rw [Stmt.resolve]
    exact .bind (Expr.lifts_resolve h.2.1) fun _ _ lifts =>
      .bind (Stmt.lifts_resolve h.2.2 fun same => Bool.noConfusion (placed.symm.trans same))
        fun _ _ lifts' => .pure (.loop lifts lifts')
  | function decl =>
    obtain ⟨n, rfl⟩ := Nat.exists_eq_add_one_of_ne_zero (inside rfl)
    have beyond : Gap.beyond (n + 1) ≠ .here := by simp [Gap.here]
    have body : WalkBeside outer (n + 1) (n + 1)
        (decl.resolve .function >>= fun decl => Pure.pure (Stmt.function decl))
        (decl.resolve .function >>= fun decl => Pure.pure (Stmt.function decl))
        (Stmt.Lifts (.beyond (n + 1))) :=
      .bind (Function.lifts_resolve h.2 .function) fun _ _ lifts => .pure (.function beyond lifts)
    rw [Stmt.resolve]
    cases decl.name with
    | named name => exact .bind (declare name) fun _ _ _ => .bind (define name) fun _ _ _ => body
    | anonymous line => exact body
  | return_ keyword value =>
    cases value with
    | none =>
      rw [Stmt.resolve]
      exact .bind (checkReturn keyword false) fun _ _ _ => .pure (.return_ keyword)
    | some value =>
      rw [Stmt.resolve]
      exact .bind (checkReturn keyword true) fun _ _ _ =>
        .bind (Expr.lifts_resolve h.2) fun _ _ lifts => .pure (.returned keyword lifts)
  | class_ name parent methods =>
    obtain ⟨n, rfl⟩ := Nat.exists_eq_add_one_of_ne_zero (inside rfl)
    have beyond : Gap.beyond (n + 1) ≠ .here := by simp [Gap.here]
    rw [Stmt.resolve]
    refine .get_bind fun r r' _ surrounding => ?_
    rw [surrounding]
    refine .bind (beginClass name) fun _ _ _ => ?_
    cases parent with
    | none =>
      exact .bind (openScope _) fun _ _ _ => .bind (Function.allLift_resolveAll h.2) fun _ _ all =>
        .bind closeScope fun _ _ _ => .bind (modifySurrounding _) fun _ _ _ =>
          .pure (.class_ name beyond all)
    | some ref =>
      refine .bind (superclass name (h.1.unresolved ref rfl)) fun found _ same => ?_
      refine .bind (openScope _) fun _ _ _ => .bind (Function.allLift_resolveAll h.2) fun _ _ all =>
        .bind closeScope fun _ _ _ => .bind closeScope fun _ _ _ =>
          .bind (modifySurrounding _) fun _ _ _ => .pure ?_
      rw [same]
      exact .subclass name found beyond all

theorem Stmt.allLift_resolveAll {n : Nat} {ss : List Stmt} (h : Stmt.EveryAll (Node.Parsed .scanned) ss) :
    WalkBeside outer (n + 1) (n + 1) (Stmt.resolveAll ss) (Stmt.resolveAll ss)
      (Stmt.AllLift (.beyond (n + 1))) := by
  cases ss with
  | nil =>
    rw [Stmt.resolveAll]
    exact .pure .nil
  | cons s rest =>
    rw [Stmt.resolveAll]
    exact .bind (Stmt.lifts_resolve h.1 fun _ => Nat.succ_ne_zero n) fun _ _ lifts =>
      .bind (Stmt.allLift_resolveAll h.2) fun _ _ all => .pure (.cons lifts all)

theorem Function.lifts_resolve {n : Nat} {f : Function} (h : f.Every (Node.Parsed .scanned)) (body : Body) :
    WalkBeside outer n n (f.resolve body) (f.resolve body) (Function.Lifts (.beyond n)) := by
  cases f with
  | mk name parameters statements =>
    rw [Function.resolve]
    refine .get_bind fun r r' same _ => ?_
    rw [same]
    exact .bind (modifyBody _) fun _ _ _ => .bind (openScope _) fun _ _ _ =>
      .bind (declareAll parameters) fun _ _ _ => .bind (Stmt.allLift_resolveAll h.2) fun _ _ all =>
        .bind closeScope fun _ _ _ => .bind (modifyBody _) fun _ _ _ => .pure (.mk name parameters all)

theorem Function.allLift_resolveAll {n : Nat} {fs : List Function}
    (h : Function.EveryAll (Node.Parsed .scanned) fs) :
    WalkBeside outer n n (Function.resolveAll fs) (Function.resolveAll fs)
      (Function.AllLift (.beyond n)) := by
  cases fs with
  | nil =>
    rw [Function.resolveAll]
    exact .pure .nil
  | cons f rest =>
    rw [Function.resolveAll]
    exact .bind (Function.lifts_resolve h.1 _) fun _ _ lifts =>
      .bind (Function.allLift_resolveAll h.2) fun _ _ all => .pure (.cons lifts all)

end

end Walk

end Lox
