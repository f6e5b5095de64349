import Lox.Syntax.Basic

/-!
# Programs inside one more scope

A piece of a program may be put inside one more scope, which declares nothing and which lies somewhere
among the scopes around it.  Where it lies is a **gap** (`Gap`).  References to what lies beyond the gap
are one deeper then, and nothing else is different: the piece is **lifted** over the scope
(`Expr.Lifts`, `Stmt.Lifts`).

Not every piece can be lifted.  No declaration may stand directly in the additional scope, for it would
declare its name there.  And `this` has to be found just within the scope that `super` is found in, so
that scope must not be the one just beyond the gap.
-/

namespace Lox

/-- Where a scope is added to those around a piece of a program. -/
inductive Gap where
  /-- There is none. -/
  | nowhere
  /-- It lies beyond so many of the scopes around. -/
  | beyond (scopes : Nat)
  deriving DecidableEq

namespace Gap

variable {gap : Gap} {depth : Nat}

/-- The depth at which a variable is found behind the gap. -/
def shift : Gap → Nat → Nat
  | nowhere, depth => depth
  | beyond scopes, depth => if depth < scopes then depth else depth + 1

/-- The gap as it is seen from a scope within the innermost one. -/
def deeper : Gap → Gap
  | nowhere => nowhere
  | beyond scopes => beyond (scopes + 1)

/-- The additional scope is the innermost one. -/
def here : Gap := beyond 0

@[simp] theorem shift_nowhere : nowhere.shift depth = depth := rfl

@[simp] theorem shift_here : here.shift depth = depth + 1 := rfl

@[simp] theorem shift_deeper_zero : gap.deeper.shift 0 = 0 := by
  cases gap <;> simp [deeper, shift]

@[simp] theorem shift_deeper_succ : gap.deeper.shift (depth + 1) = gap.shift depth + 1 := by
  cases gap with
  | nowhere => rfl
  | beyond scopes =>
    simp only [deeper, shift, Nat.add_lt_add_iff_right]
    split <;> rfl

theorem deeper_ne_here : gap.deeper ≠ here := by
  cases gap <;> simp [deeper, here]

theorem nowhere_ne_here : nowhere ≠ here := by
  simp [here]

/-- The innermost scope is the additional one, or the gap lies beyond it. -/
theorem eq_here_or_deeper (gap : Gap) : gap = here ∨ ∃ outer : Gap, gap = outer.deeper := by
  match gap with
  | nowhere => exact .inr ⟨nowhere, rfl⟩
  | beyond 0 => exact .inl rfl
  | beyond (scopes + 1) => exact .inr ⟨beyond scopes, rfl⟩

theorem shift_zero (inside : gap ≠ here) : gap.shift 0 = 0 := by
  obtain rfl | ⟨outer, rfl⟩ := gap.eq_here_or_deeper
  · exact absurd rfl inside
  · exact shift_deeper_zero

end Gap

/-- A reference lifted over a scope. -/
def Reference.lift (gap : Gap) (ref : Reference) : Reference := ⟨ref.name, ref.depth.map gap.shift⟩

@[simp] theorem Reference.lift_nowhere (ref : Reference) : ref.lift .nowhere = ref := by
  obtain ⟨name, depth⟩ := ref
  cases depth <;> rfl

mutual

/-- The second expression is the first one, lifted over a scope. -/
inductive Expr.Lifts : Gap → Expr → Expr → Prop
  | literal {gap : Gap} (value : Literal) : Expr.Lifts gap (.literal value) (.literal value)
  | group {gap : Gap} {inner inner' : Expr} (lifts : Expr.Lifts gap inner inner') :
      Expr.Lifts gap (.group inner) (.group inner')
  | unary {gap : Gap} {op : Operator UnaryOp} {operand operand' : Expr}
      (lifts : Expr.Lifts gap operand operand') :
      Expr.Lifts gap (.unary op operand) (.unary op operand')
  | binary {gap : Gap} {left left' : Expr} {op : Operator BinaryOp} {right right' : Expr}
      (lifts : Expr.Lifts gap left left') (lifts' : Expr.Lifts gap right right') :
      Expr.Lifts gap (.binary left op right) (.binary left' op right')
  | logical {gap : Gap} {left left' : Expr} {op : Operator LogicalOp} {right right' : Expr}
      (lifts : Expr.Lifts gap left left') (lifts' : Expr.Lifts gap right right') :
      Expr.Lifts gap (.logical left op right) (.logical left' op right')
  | variable_ {gap : Gap} (ref : Reference) :
      Expr.Lifts gap (.variable_ ref) (.variable_ (ref.lift gap))
  | assign {gap : Gap} (target : Reference) {value value' : Expr}
      (lifts : Expr.Lifts gap value value') :
      Expr.Lifts gap (.assign target value) (.assign (target.lift gap) value')
  | call {gap : Gap} {callee callee' : Expr} {arguments arguments' : List Expr} {line : Nat}
      (lifts : Expr.Lifts gap callee callee') (all : Expr.AllLift gap arguments arguments') :
      Expr.Lifts gap (.call callee arguments line) (.call callee' arguments' line)
  | get {gap : Gap} {object object' : Expr} {name : Ident} (lifts : Expr.Lifts gap object object') :
      Expr.Lifts gap (.get object name) (.get object' name)
  | set {gap : Gap} {object object' : Expr} {name : Ident} {value value' : Expr}
      (lifts : Expr.Lifts gap object object') (lifts' : Expr.Lifts gap value value') :
      Expr.Lifts gap (.set object name value) (.set object' name value')
  | this {gap : Gap} (keyword : Word) (depth : Option Nat) :
      Expr.Lifts gap (.this keyword depth) (.this keyword (depth.map gap.shift))
  | super {gap : Gap} (keyword : Word) (method : Ident) {depth : Option Nat}
      (around : ∀ distance ∈ depth, gap.shift distance - 1 = gap.shift (distance - 1)) :
      Expr.Lifts gap (.super keyword method depth) (.super keyword method (depth.map gap.shift))
  | function {gap : Gap} {decl decl' : Function} (lifts : Function.Lifts gap decl decl') :
      Expr.Lifts gap (.function decl) (.function decl')

/-- Expressions and the same ones, lifted over a scope. -/
inductive Expr.AllLift : Gap → List Expr → List Expr → Prop
  | nil {gap : Gap} : Expr.AllLift gap [] []
  | cons {gap : Gap} {e e' : Expr} {es es' : List Expr} (lifts : Expr.Lifts gap e e')
      (all : Expr.AllLift gap es es') : Expr.AllLift gap (e :: es) (e' :: es')

/-- The second statement is the first one, lifted over a scope. -/
inductive Stmt.Lifts : Gap → Stmt → Stmt → Prop
  | expression {gap : Gap} {value value' : Expr} (lifts : Expr.Lifts gap value value') :
      Stmt.Lifts gap (.expression value) (.expression value')
  | print {gap : Gap} {line : Nat} {value value' : Expr} (lifts : Expr.Lifts gap value value') :
      Stmt.Lifts gap (.print line value) (.print line value')
  | var {gap : Gap} (name : Ident) (inside : gap ≠ .here) :
      Stmt.Lifts gap (.var name none) (.var name none)
  | initialized {gap : Gap} (name : Ident) {initial initial' : Expr} (inside : gap ≠ .here)
      (lifts : Expr.Lifts gap initial initial') :
      Stmt.Lifts gap (.var name (some initial)) (.var name (some initial'))
  | block {gap : Gap} {body body' : List Stmt} (all : Stmt.AllLift gap.deeper body body') :
      Stmt.Lifts gap (.block body) (.block body')
  | branch {gap : Gap} {condition condition' : Expr} {yes yes' : Stmt}
      (lifts : Expr.Lifts gap condition condition') (lifts' : Stmt.Lifts gap yes yes') :
      Stmt.Lifts gap (.branch condition yes none) (.branch condition' yes' none)
  | choice {gap : Gap} {condition condition' : Expr} {yes yes' no no' : Stmt}
      (lifts : Expr.Lifts gap condition condition') (lifts' : Stmt.Lifts gap yes yes')
      (lifts'' : Stmt.Lifts gap no no') :
      Stmt.Lifts gap (.branch condition yes (some no)) (.branch condition' yes' (some no'))
  | loop {gap : Gap} {condition condition' : Expr} {body body' : Stmt}
      (lifts : Expr.Lifts gap condition condition') (lifts' : Stmt.Lifts gap body body') :
      Stmt.Lifts gap (.loop condition body) (.loop condition' body')
  | function {gap : Gap} {decl decl' : Function} (inside : gap ≠ .here)
      (lifts : Function.Lifts gap decl decl') : Stmt.Lifts gap (.function decl) (.function decl')
  | return_ {gap : Gap} (keyword : Word) :
      Stmt.Lifts gap (.return_ keyword none) (.return_ keyword none)
  | returned {gap : Gap} (keyword : Word) {value value' : Expr} (lifts : Expr.Lifts gap value value') :
      Stmt.Lifts gap (.return_ keyword (some value)) (.return_ keyword (some value'))
  | class_ {gap : Gap} (name : Ident) {methods methods' : List Function} (inside : gap ≠ .here)
      (all : Function.AllLift gap.deeper methods methods') :
      Stmt.Lifts gap (.class_ name none methods) (.class_ name none methods')
  | subclass {gap : Gap} (name : Ident) (ref : Reference) {methods methods' : List Function}
      (inside : gap ≠ .here) (all : Function.AllLift gap.deeper.deeper methods methods') :
      Stmt.Lifts gap (.class_ name (some ref) methods) (.class_ name (some (ref.lift gap)) methods')

/-- Statements and the same ones, lifted over a scope. -/
inductive Stmt.AllLift : Gap → List Stmt → List Stmt → Prop
  | nil {gap : Gap} : Stmt.AllLift gap [] []
  | cons {gap : Gap} {s s' : Stmt} {ss ss' : List Stmt} (lifts : Stmt.Lifts gap s s')
      (all : Stmt.AllLift gap ss ss') : Stmt.AllLift gap (s :: ss) (s' :: ss')

/-- The second function is the first one, lifted over a scope. -/
inductive Function.Lifts : Gap → Function → Function → Prop
  | mk {gap : Gap} (name : FunctionName) (parameters : List Ident) {body body' : List Stmt}
      (all : Stmt.AllLift gap.deeper body body') :
      Function.Lifts gap ⟨name, parameters, body⟩ ⟨name, parameters, body'⟩

/-- Functions and the same ones, lifted over a scope. -/
inductive Function.AllLift : Gap → List Function → List Function → Prop
  | nil {gap : Gap} : Function.AllLift gap [] []
  | cons {gap : Gap} {f f' : Function} {fs fs' : List Function} (lifts : Function.Lifts gap f f')
      (all : Function.AllLift gap fs fs') : Function.AllLift gap (f :: fs) (f' :: fs')

end

/-! ## Where no scope is added -/

theorem Option.map_shift_nowhere (depth : Option Nat) : depth.map Gap.nowhere.shift = depth := by
  cases depth <;> simp

mutual

theorem Expr.lifts_nowhere (e : Expr) : e.Lifts .nowhere e := by
  cases e with
  | literal value => exact .literal value
  | group inner => exact .group inner.lifts_nowhere
  | unary _ operand => exact .unary operand.lifts_nowhere
  | binary left _ right => exact .binary left.lifts_nowhere right.lifts_nowhere
  | logical left _ right => exact .logical left.lifts_nowhere right.lifts_nowhere
  | variable_ ref =>
    have lifts : Expr.Lifts .nowhere _ _ := .variable_ ref
    rwa [ref.lift_nowhere] at lifts
  | assign target value =>
    have lifts := Expr.Lifts.assign target value.lifts_nowhere
    rwa [target.lift_nowhere] at lifts
  | call callee arguments _ => exact .call callee.lifts_nowhere (Expr.allLift_nowhere arguments)
  | get object _ => exact .get object.lifts_nowhere
  | set object _ value => exact .set object.lifts_nowhere value.lifts_nowhere
  | this keyword depth =>
    have lifts : Expr.Lifts .nowhere _ _ := .this keyword depth
    rwa [Option.map_shift_nowhere] at lifts
  | super keyword method depth =>
    have lifts : Expr.Lifts .nowhere (.super keyword method depth) _ := .super keyword method fun _ _ => rfl
    rwa [Option.map_shift_nowhere] at lifts
  | function decl => exact .function decl.lifts_nowhere

theorem Expr.allLift_nowhere (es : List Expr) : Expr.AllLift .nowhere es es := by
  cases es with
  | nil => exact .nil
  | cons e rest => exact .cons e.lifts_nowhere (Expr.allLift_nowhere rest)

theorem Stmt.lifts_nowhere (s : Stmt) : s.Lifts .nowhere s := by
  cases s with
  | expression value => exact .expression value.lifts_nowhere
  | print _ value => exact .print value.lifts_nowhere
  | var name initial =>
    cases initial with
    | none => exact .var name Gap.nowhere_ne_here
    | some initial => exact .initialized name Gap.nowhere_ne_here initial.lifts_nowhere
  | block body => exact .block (Stmt.allLift_nowhere body)
  | branch condition yes no =>
    cases no with
    | none => exact .branch condition.lifts_nowhere yes.lifts_nowhere
    | some no => exact .choice condition.lifts_nowhere yes.lifts_nowhere no.lifts_nowhere
  | loop condition body => exact .loop condition.lifts_nowhere body.lifts_nowhere
  | function decl => exact .function Gap.nowhere_ne_here decl.lifts_nowhere
  | return_ keyword value =>
    cases value with
    | none => exact .return_ keyword
    | some value => exact .returned keyword value.lifts_nowhere
  | class_ name superclass methods =>
    cases superclass with
    | none => exact .class_ name Gap.nowhere_ne_here (Function.allLift_nowhere methods)
    | some ref =>
      have lifts := Stmt.Lifts.subclass name ref Gap.nowhere_ne_here (Function.allLift_nowhere methods)
      rwa [ref.lift_nowhere] at lifts

theorem Stmt.allLift_nowhere (ss : List Stmt) : Stmt.AllLift .nowhere ss ss := by
  cases ss with
  | nil => exact .nil
  | cons s rest => exact .cons s.lifts_nowhere (Stmt.allLift_nowhere rest)

theorem Function.lifts_nowhere (f : Function) : f.Lifts .nowhere f := by
  cases f with
  | mk name parameters body => exact .mk name parameters (Stmt.allLift_nowhere body)

theorem Function.allLift_nowhere (fs : List Function) : Function.AllLift .nowhere fs fs := by
  cases fs with
  | nil => exact .nil
  | cons f rest => exact .cons f.lifts_nowhere (Function.allLift_nowhere rest)

end

/-! ## What stays as it is -/

namespace Function.Lifts

variable {gap : Gap} {f f' : Function}

theorem name_eq (h : f.Lifts gap f') : f'.name = f.name := by
  cases h
  rfl

theorem parameters_eq (h : f.Lifts gap f') : f'.parameters = f.parameters := by
  cases h
  rfl

theorem arity_eq (h : f.Lifts gap f') : f'.arity = f.arity :=
  congrArg List.length h.parameters_eq

theorem body (h : f.Lifts gap f') : Stmt.AllLift gap.deeper f.body f'.body := by
  cases h with
  | mk _ _ all => exact all

theorem namedInit_eq (h : f.Lifts gap f') : f'.namedInit = f.namedInit := by
  rw [namedInit, namedInit, h.name_eq]

end Function.Lifts

end Lox
