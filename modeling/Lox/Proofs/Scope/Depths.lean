import Lox.Proofs.Syntax.Relabel
import Lox.Scope.Resolve

/-!
# Resolution finds depths

Resolution gives references their depths and leaves everything else of a program as it is.  With its
depths taken away again (`Relabeling.unresolved`), a program is what was to be resolved
(`relabelAll_resolveProgram`).
-/

namespace Lox

/-! ## Results of walks -/

namespace Resolver

/-- One walk after the other. -/
theorem run_bind {α β : Type} (walk : StateM Resolver α) (next : α → StateM Resolver β)
    (r : Resolver) : (walk >>= next).run r = (next (walk.run r).1).run (walk.run r).2 := rfl

/-- No walk at all. -/
theorem run_pure {α : Type} (a : α) (r : Resolver) :
    (Pure.pure a : StateM Resolver α).run r = (a, r) := rfl

/-- Whatever a walk starts from, its result is good. -/
def Gives {α : Type} (walk : StateM Resolver α) (Good : α → Prop) : Prop :=
  ∀ r : Resolver, Good (walk.run r).1

namespace Gives

variable {α β : Type} {walk : StateM Resolver α} {Good : α → Prop} {Good' : β → Prop}

theorem pure {a : α} (good : Good a) : Gives (Pure.pure a) Good := fun _ => good

theorem bind {next : α → StateM Resolver β} (h : Gives walk Good)
    (rest : ∀ a, Good a → Gives (next a) Good') : Gives (walk >>= next) Good' :=
  fun r => rest _ (h r) _

/-- A step that is taken for what it does to the walk. -/
theorem step {next : α → StateM Resolver β} (rest : ∀ a, Gives (next a) Good') :
    Gives (walk >>= next) Good' :=
  fun _ => rest _ _

theorem reference (ref : Reference) :
    Gives (Resolver.reference ref) fun ref' => ref'.name = ref.name := by
  rw [Resolver.reference]
  refine step fun r => ?_
  split
  · exact step fun _ => step fun depth => pure rfl
  · exact step fun depth => pure rfl

theorem superclass (name : Ident) (ref : Reference) :
    Gives (Resolver.superclass name ref) fun ref' => ref'.name = ref.name := by
  have rest : Gives (do
      modify fun r => { r with surrounding := .subclass }
      let ref ← Resolver.reference ref
      openScope (keywordScope superName)
      return ref) fun ref' => ref'.name = ref.name :=
    step fun _ => (reference ref).bind fun ref' same => step fun _ => pure same
  rw [Resolver.superclass]
  split
  · exact step fun _ => rest
  · exact rest

end Gives

end Resolver

open Resolver

mutual

/-- Resolution only finds the depths in an expression. -/
theorem Expr.relabel_resolve (e : Expr) :
    Gives e.resolve fun e' => e'.relabel .unresolved = e.relabel .unresolved := by
  cases e with
  | literal value =>
    rw [Expr.resolve]
    exact .pure rfl
  | group inner =>
    rw [Expr.resolve]
    exact inner.relabel_resolve.bind fun _ same => .pure (by rw [Expr.relabel, same, Expr.relabel])
  | unary op operand =>
    rw [Expr.resolve]
    exact operand.relabel_resolve.bind fun _ same => .pure (by rw [Expr.relabel, same, Expr.relabel])
  | binary left op right =>
    rw [Expr.resolve]
    exact left.relabel_resolve.bind fun _ same => right.relabel_resolve.bind fun _ same' =>
      .pure (by rw [Expr.relabel, same, same', Expr.relabel])
  | logical left op right =>
    rw [Expr.resolve]
    exact left.relabel_resolve.bind fun _ same => right.relabel_resolve.bind fun _ same' =>
      .pure (by rw [Expr.relabel, same, same', Expr.relabel])
  | variable_ ref =>
    rw [Expr.resolve]
    exact (Gives.reference ref).bind fun _ same =>
      .pure (by rw [Expr.relabel, Reference.relabel, same]; rfl)
  | assign target value =>
    rw [Expr.resolve]
    exact value.relabel_resolve.bind fun _ same => .step fun _ =>
      .pure (by rw [Expr.relabel, same]; rfl)
  | call callee arguments line =>
    rw [Expr.resolve]
    exact callee.relabel_resolve.bind fun _ same => (Expr.relabelAll_resolveAll arguments).bind
      fun _ same' => .pure (by rw [Expr.relabel, same, same', Expr.relabel])
  | get object name =>
    rw [Expr.resolve]
    exact object.relabel_resolve.bind fun _ same => .pure (by rw [Expr.relabel, same, Expr.relabel])
  | set object name value =>
    rw [Expr.resolve]
    exact value.relabel_resolve.bind fun _ same => object.relabel_resolve.bind fun _ same' =>
      .pure (by rw [Expr.relabel, same, same', Expr.relabel])
  | this keyword depth =>
    rw [Expr.resolve]
    exact .step fun _ => .pure rfl
  | super keyword method depth =>
    rw [Expr.resolve]
    exact .step fun _ => .pure rfl
  | function decl =>
    rw [Expr.resolve]
    exact (decl.relabel_resolve _).bind fun _ same => .pure (by rw [Expr.relabel, same, Expr.relabel])

theorem Expr.relabelAll_resolveAll (es : List Expr) :
    Gives (Expr.resolveAll es) fun es' =>
      Expr.relabelAll .unresolved es' = Expr.relabelAll .unresolved es := by
  cases es with
  | nil =>
    rw [Expr.resolveAll]
    exact .pure rfl
  | cons e rest =>
    rw [Expr.resolveAll]
    exact e.relabel_resolve.bind fun _ same => (Expr.relabelAll_resolveAll rest).bind fun _ same' =>
      .pure (by rw [Expr.relabelAll, same, same', Expr.relabelAll])

/-- Resolution only finds the depths in a statement. -/
theorem Stmt.relabel_resolve (s : Stmt) :
    Gives s.resolve fun s' => s'.relabel .unresolved = s.relabel .unresolved := by
  cases s with
  | expression value =>
    rw [Stmt.resolve]
    exact value.relabel_resolve.bind fun _ same => .pure (by rw [Stmt.relabel, same, Stmt.relabel])
  | print line value =>
    rw [Stmt.resolve]
    exact value.relabel_resolve.bind fun _ same => .pure (by rw [Stmt.relabel, same, Stmt.relabel])
  | var name initial =>
    cases initial with
    | none =>
      rw [Stmt.resolve]
      exact .step fun _ => .step fun _ => .pure rfl
    | some initial =>
      rw [Stmt.resolve]
      exact .step fun _ => initial.relabel_resolve.bind fun _ same => .step fun _ =>
        .pure (by rw [Stmt.relabel, same, Stmt.relabel])
  | block body =>
    rw [Stmt.resolve]
    exact .step fun _ => (Stmt.relabelAll_resolveAll body).bind fun _ same => .step fun _ =>
      .pure (by rw [Stmt.relabel, same, Stmt.relabel])
  | branch condition yes no =>
    cases no with
    | none =>
      rw [Stmt.resolve]
      exact condition.relabel_resolve.bind fun _ same => yes.relabel_resolve.bind fun _ same' =>
        .pure (by rw [Stmt.relabel, same, same', Stmt.relabel])
    | some no =>
      rw [Stmt.resolve]
      exact condition.relabel_resolve.bind fun _ same => yes.relabel_resolve.bind fun _ same' =>
        no.relabel_resolve.bind fun _ same'' =>
          .pure (by rw [Stmt.relabel, same, same', same'', Stmt.relabel])
  | loop condition body =>
    rw [Stmt.resolve]
    exact condition.relabel_resolve.bind fun _ same => body.relabel_resolve.bind fun _ same' =>
      .pure (by rw [Stmt.relabel, same, same', Stmt.relabel])
  | function decl =>
    have rest : Gives (do return Stmt.function (← decl.resolve .function)) fun s' =>
        s'.relabel .unresolved = (Stmt.function decl).relabel .unresolved :=
      (decl.relabel_resolve _).bind fun _ same => .pure (by rw [Stmt.relabel, same, Stmt.relabel])
    rw [Stmt.resolve]
    split
    · exact .step fun _ => .step fun _ => rest
    · exact rest
  | return_ keyword value =>
    cases value with
    | none =>
      rw [Stmt.resolve]
      exact .step fun _ => .pure rfl
    | some value =>
      rw [Stmt.resolve]
      exact .step fun _ => value.relabel_resolve.bind fun _ same =>
        .pure (by rw [Stmt.relabel, same, Stmt.relabel])
  | class_ name superclass methods =>
    rw [Stmt.resolve]
    refine .step fun _ => .step fun _ => ?_
    cases superclass with
    | none =>
      exact .step fun _ => (Function.relabelAll_resolveAll methods).bind fun _ same => .step fun _ =>
        .step fun _ => .pure (by rw [Stmt.relabel, same, Stmt.relabel])
    | some ref =>
      refine (Gives.superclass name ref).bind fun _ same => .step fun _ =>
        (Function.relabelAll_resolveAll methods).bind fun _ same' => .step fun _ => .step fun _ =>
          .step fun _ => .pure ?_
      rw [Stmt.relabel, Option.map_some, Reference.relabel, same, same']
      rfl

theorem Stmt.relabelAll_resolveAll (ss : List Stmt) :
    Gives (Stmt.resolveAll ss) fun ss' =>
      Stmt.relabelAll .unresolved ss' = Stmt.relabelAll .unresolved ss := by
  cases ss with
  | nil =>
    rw [Stmt.resolveAll]
    exact .pure rfl
  | cons s rest =>
    rw [Stmt.resolveAll]
    exact s.relabel_resolve.bind fun _ same => (Stmt.relabelAll_resolveAll rest).bind fun _ same' =>
      .pure (by rw [Stmt.relabelAll, same, same', Stmt.relabelAll])

/-- Resolution only finds the depths in a function. -/
theorem Function.relabel_resolve (f : Function) (body : Body) :
    Gives (f.resolve body) fun f' => f'.relabel .unresolved = f.relabel .unresolved := by
  cases f with
  | mk name parameters statements =>
    rw [Function.resolve]
    exact .step fun _ => .step fun _ => .step fun _ => .step fun _ =>
      (Stmt.relabelAll_resolveAll statements).bind fun _ same => .step fun _ => .step fun _ =>
        .pure (by rw [Function.relabel, same, Function.relabel])

theorem Function.relabelAll_resolveAll (fs : List Function) :
    Gives (Function.resolveAll fs) fun fs' =>
      Function.relabelAll .unresolved fs' = Function.relabelAll .unresolved fs := by
  cases fs with
  | nil =>
    rw [Function.resolveAll]
    exact .pure rfl
  | cons f rest =>
    rw [Function.resolveAll]
    exact (f.relabel_resolve _).bind fun _ same => (Function.relabelAll_resolveAll rest).bind
      fun _ same' => .pure (by rw [Function.relabelAll, same, same', Function.relabelAll])

end

/-- **Resolution changes nothing but depths.** -/
theorem relabelAll_resolveProgram (program : List Stmt) :
    Stmt.relabelAll .unresolved (resolveProgram program).program =
      Stmt.relabelAll .unresolved program :=
  Stmt.relabelAll_resolveAll program Resolver.start

end Lox
