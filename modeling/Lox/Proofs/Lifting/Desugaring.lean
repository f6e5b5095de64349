import Lox.Proofs.Lifting.ForLoop
import Lox.Proofs.Lifting.Resolution
import Lox.Proofs.Scope.Names
import Lox.Proofs.Syntax.Soundness

/-!
# Resolution of a `for` loop

The scopes of a `for` loop are those that it has as it is written: one if there is something to start
with, and none else (`ForLoop.resolve`).  What the parser builds for the loop has a scope more for each
turn if there is an increment.  It is resolved to what the parser would build for a loop of which the
body and the increment are lifted over that scope (`ForLoop.lifts_resolve`).
-/

namespace Lox

/-- Statements may stand here: the innermost scope is not the one around the methods of a class. -/
def Standing.AtStatements (p : Standing) : Prop :=
  ∀ scope ∈ p.scopes.head?, scope.contains superName = false

/-! ## What the parser reads -/

/-- The clauses and the body are as they come from the parser, and no declaration is the body. -/
structure ForLoop.Parsed (loop : ForLoop) : Prop where
  every : loop.Every (Node.Parsed .scanned)
  body : loop.body.isDeclaration = false

/-- **What the parser reads as a `for` is what it builds for a loop.** -/
theorem Parser.yields_desugared {tokens : List Token} :
    Yields .scanned forStatement tokens (fun s _ => ∃ loop : ForLoop, loop.Parsed ∧ loop.desugared = s)
      fun _ _ => True := by
  refine yields_forClauses.mono ?_ fun _ _ _ _ _ => trivial
  rintro _ _ ⟨initial, condition, increment, body, rfl, isInitial, isCondition, isIncrement, isBody,
    isPlain⟩
  exact ⟨⟨initial, condition, increment, body⟩,
    ⟨⟨isInitial, isCondition, isIncrement, isBody⟩, isPlain⟩, rfl⟩

namespace ForLoop

variable {loop loop' : ForLoop}

theorem every_desugared (parsed : loop.Parsed) : loop.desugared.Every (Node.Parsed .scanned) :=
  (Parser.every_forLoop parsed.every.initial parsed.every.condition parsed.every.increment
    parsed.every.body parsed.body).1

/-! ## Scopes -/

/-- Resolve what there is at each turn. -/
def resolveTurns (loop : ForLoop) (initial : Option Stmt) : StateM Resolver ForLoop := do
  let condition ← loop.condition.mapM Expr.resolve
  let body ← loop.body.resolve
  let increment ← loop.increment.mapM Expr.resolve
  return ⟨initial, condition, increment, body⟩

/-- Resolve a loop.  It has a scope of its own if there is something to start with. -/
def resolve (loop : ForLoop) : StateM Resolver ForLoop :=
  match loop.initial with
  | none => loop.resolveTurns none
  | some first => do
      Resolver.openScope .empty
      let first ← first.resolve
      let loop ← loop.resolveTurns (some first)
      Resolver.closeScope
      return loop

/-- Behind what a scope starts with, statements may stand. -/
theorem atStatements_leads {first : Stmt} (h : first.Every (Node.Parsed .scanned)) (p : Standing) :
    (first.leads (p.within .empty)).AtStatements := by
  have declared {name : Ident} (user : UserName name) :
      ((p.within .empty).declare name true).AtStatements := by
    rintro _ ⟨rfl⟩
    rw [Bindings.contains_insert, decide_eq_false user.2]
    rfl
  have names := h.self.names
  unfold Stmt.leads
  split
  · exact declared names
  · exact declared names.1
  · exact declared (h.2.self.names.1 _ rfl)
  · rintro _ ⟨rfl⟩
    rfl

/-- What the parser builds for the turns is resolved as the turns are, over one more scope. -/
theorem lifts_resolveTurns (parsed : loop.Parsed) (initial : Option Stmt) {r : Resolver}
    (stands : r.standing.AtStatements) :
    ∃ loop', ((loop.resolveTurns initial).run r).1.Lifts loop' ∧
      (loop.whilst.resolve.run r).1 = loop'.whilst := by
  obtain ⟨_, condition, increment, body⟩ := loop
  obtain ⟨r₁, condition', standing, tested, tested'⟩ : ∃ r₁ condition', r₁.standing = r.standing ∧
      (Option.mapM Expr.resolve condition).run r = (condition', r₁) ∧
        (condition.getD (.literal (.boolean true))).resolve.run r =
          (condition'.getD (.literal (.boolean true)), r₁) := by
    cases condition with
    | none => exact ⟨r, none, rfl, rfl, rfl⟩
    | some e =>
      have walked := Expr.walks (parsed.every.condition e rfl) r rfl
      exact ⟨_, some _, walked.1, rfl, rfl⟩
  simp only [resolveTurns, whilst, plain, Stmt.resolve, Resolver.run_bind, tested, tested']
  cases increment with
  | none => exact ⟨_, .same initial condition' (body.resolve.run r₁).1, rfl⟩
  | some e =>
    rw [← standing] at stands
    -- The additional scope stays empty: the body is no declaration.
    have beside : Resolver.Beside r₁.scopes 0 r₁ { r₁ with scopes := .empty :: r₁.scopes } :=
      ⟨⟨[], rfl, rfl, rfl⟩, stands, rfl, rfl⟩
    have inside (same : body.isDeclaration = true) : 0 ≠ 0 :=
      Bool.noConfusion (parsed.body.symm.trans same)
    obtain ⟨beside₂, body'⟩ := Stmt.lifts_resolve parsed.every.body inside _ _ beside
    obtain ⟨-, increment'⟩ := Expr.lifts_resolve (parsed.every.increment e rfl) _ _ beside₂
    exact ⟨_, .within initial condition' increment' body', rfl⟩

/-- **What the parser builds for a loop is resolved as the loop is, over one more scope.** -/
theorem lifts_resolve (parsed : loop.Parsed) {r : Resolver} (stands : r.standing.AtStatements) :
    ∃ loop', (loop.resolve.run r).1.Lifts loop' ∧
      (loop.desugared.resolve.run r).1 = loop'.desugared := by
  cases initial : loop.initial with
  | none =>
    obtain ⟨loop', lifts, resolved⟩ := lifts_resolveTurns parsed none stands
    refine ⟨loop', ?_, ?_⟩
    · rwa [resolve, initial]
    · rw [desugared_of_none initial, desugared_of_none lifts.initial, resolved]
  | some first =>
    have isFirst := parsed.every.initial first initial
    have opened : (Resolver.openScope .empty).run r = ((), { r with scopes := .empty :: r.scopes }) :=
      rfl
    obtain ⟨first', r₁, begun, walked⟩ : ∃ first' r₁,
        first.resolve.run { r with scopes := .empty :: r.scopes } = (first', r₁) ∧
          r₁.standing = first.leads (r.standing.within .empty) :=
      ⟨_, _, rfl, (Stmt.walks isFirst _ rfl).1⟩
    have inside := atStatements_leads isFirst r.standing
    rw [← walked] at inside
    obtain ⟨loop', lifts, resolved⟩ := lifts_resolveTurns parsed (some first') inside
    have initial' : loop'.initial = some first' := lifts.initial
    refine ⟨loop', ?_, ?_⟩
    · simp only [resolve, initial, Resolver.run_bind, opened, begun]
      exact lifts
    · rw [desugared_of_some initial, desugared_of_some initial', ← resolved]
      simp only [Stmt.resolve, Stmt.resolveAll, Resolver.run_bind, opened, begun]
      rfl

/-! ## Names -/

theorem plain_of_parsed {n : Node} (h : n.Parsed .scanned) : n.Plain :=
  h.names.of_names fun _ user => user.1

theorem plain_resolveTurns (parsed : loop.Parsed) {initial : Option Stmt}
    (plain : ∀ s ∈ initial, s.Every Node.Plain) (r : Resolver) :
    ((loop.resolveTurns initial).run r).1.Every Node.Plain := by
  have optional {e : Option Expr} (every : ∀ e' ∈ e, e'.Every (Node.Parsed .scanned)) (r : Resolver) :
      ∀ e' ∈ ((Option.mapM Expr.resolve e).run r).1, e'.Every Node.Plain := by
    cases e with
    | none => exact fun _ mem => by cases mem
    | some e =>
      rintro _ ⟨rfl⟩
      exact Expr.names_resolve ((every e rfl).mono fun _ => plain_of_parsed) r
  exact ⟨plain, optional parsed.every.condition r,
    optional parsed.every.increment _,
    Stmt.names_resolve (parsed.every.body.mono fun _ => plain_of_parsed) _⟩

theorem plain_resolve (parsed : loop.Parsed) (r : Resolver) :
    (loop.resolve.run r).1.Every Node.Plain := by
  rw [resolve]
  cases initial : loop.initial with
  | none => exact plain_resolveTurns parsed (fun _ mem => by cases mem) r
  | some first =>
    have isFirst := (parsed.every.initial first initial).mono fun _ => plain_of_parsed
    refine plain_resolveTurns parsed ?_ _
    rintro _ ⟨rfl⟩
    exact Stmt.names_resolve isFirst _

theorem plain_desugared (parsed : loop.Parsed) (r : Resolver) :
    (loop.desugared.resolve.run r).1.Every Node.Plain :=
  Stmt.names_resolve ((every_desugared parsed).mono fun _ => plain_of_parsed) r

end ForLoop

end Lox
