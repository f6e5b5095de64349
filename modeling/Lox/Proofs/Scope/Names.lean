import Lox.Proofs.Scope.Depths
import Lox.Proofs.Syntax.Every

/-!
# Resolution leaves names as they are

What the names in a piece of a program meet, they meet in what it is resolved to
(`Expr.names_resolve`, `Stmt.names_resolve`), for only depths are found.
-/

namespace Lox

variable {V : Vocabulary}

mutual

/-- Names do not depend on depths. -/
theorem Expr.names_relabel (e : Expr) :
    (e.relabel .unresolved).Every (Node.Names V) ↔ e.Every (Node.Names V) := by
  cases e with
  | literal _ | variable_ _ | this _ _ | super _ _ _ => exact .rfl
  | group inner => exact and_congr .rfl inner.names_relabel
  | unary _ operand => exact and_congr .rfl operand.names_relabel
  | binary left _ right => exact and_congr .rfl (and_congr left.names_relabel right.names_relabel)
  | logical left _ right => exact and_congr .rfl (and_congr left.names_relabel right.names_relabel)
  | assign _ value => exact and_congr .rfl value.names_relabel
  | call callee arguments _ =>
    exact and_congr .rfl (and_congr callee.names_relabel (Expr.names_relabelAll arguments))
  | get object _ => exact and_congr .rfl object.names_relabel
  | set object _ value => exact and_congr .rfl (and_congr object.names_relabel value.names_relabel)
  | function decl => exact and_congr .rfl decl.names_relabel

theorem Expr.names_relabelAll (es : List Expr) :
    Expr.EveryAll (Node.Names V) (Expr.relabelAll .unresolved es) ↔
      Expr.EveryAll (Node.Names V) es := by
  cases es with
  | nil => exact .rfl
  | cons e rest => exact and_congr e.names_relabel (Expr.names_relabelAll rest)

/-- Names do not depend on depths. -/
theorem Stmt.names_relabel (s : Stmt) :
    (s.relabel .unresolved).Every (Node.Names V) ↔ s.Every (Node.Names V) := by
  cases s with
  | expression value => exact and_congr .rfl value.names_relabel
  | print _ value => exact and_congr .rfl value.names_relabel
  | var _ initial =>
    cases initial with
    | none => exact .rfl
    | some initial => exact and_congr .rfl initial.names_relabel
  | block body => exact and_congr .rfl (Stmt.names_relabelAll body)
  | branch condition yes no =>
    cases no with
    | none => exact and_congr .rfl (and_congr condition.names_relabel yes.names_relabel)
    | some no =>
      exact and_congr .rfl
        (and_congr condition.names_relabel (and_congr yes.names_relabel no.names_relabel))
  | loop condition body =>
    exact and_congr .rfl (and_congr condition.names_relabel body.names_relabel)
  | function decl => exact and_congr .rfl decl.names_relabel
  | return_ _ value =>
    cases value with
    | none => exact .rfl
    | some value => exact and_congr .rfl value.names_relabel
  | class_ _ superclass methods =>
    refine and_congr (and_congr .rfl ?_) (Function.names_relabelAll methods)
    cases superclass with
    | none => exact .rfl
    | some ref => simp [Reference.relabel, Ident.relabel, Relabeling.unresolved]

theorem Stmt.names_relabelAll (ss : List Stmt) :
    Stmt.EveryAll (Node.Names V) (Stmt.relabelAll .unresolved ss) ↔
      Stmt.EveryAll (Node.Names V) ss := by
  cases ss with
  | nil => exact .rfl
  | cons s rest => exact and_congr s.names_relabel (Stmt.names_relabelAll rest)

theorem Function.names_relabel (f : Function) :
    (f.relabel .unresolved).Every (Node.Names V) ↔ f.Every (Node.Names V) := by
  cases f with
  | mk name parameters body =>
    rw [Function.relabel, name.relabel_unresolved, Ident.map_relabel_unresolved]
    exact and_congr .rfl (Stmt.names_relabelAll body)

theorem Function.names_relabelAll (fs : List Function) :
    Function.EveryAll (Node.Names V) (Function.relabelAll .unresolved fs) ↔
      Function.EveryAll (Node.Names V) fs := by
  cases fs with
  | nil => exact .rfl
  | cons f rest => exact and_congr f.names_relabel (Function.names_relabelAll rest)

end

theorem Expr.names_resolve {e : Expr} (h : e.Every (Node.Names V)) (r : Resolver) :
    (e.resolve.run r).1.Every (Node.Names V) := by
  rw [← Expr.names_relabel, e.relabel_resolve r, Expr.names_relabel]
  exact h

theorem Stmt.names_resolve {s : Stmt} (h : s.Every (Node.Names V)) (r : Resolver) :
    (s.resolve.run r).1.Every (Node.Names V) := by
  rw [← Stmt.names_relabel, s.relabel_resolve r, Stmt.names_relabel]
  exact h

end Lox
