import Lox.Syntax.Basic

/-!
# Other lines and depths

A tree keeps the lines of its names, operators and keywords, and the depths that resolution has found.
Two trees may be the same but for these.  A **relabeling** puts other lines and depths in their place;
what a tree comes to under one that makes all lines and depths alike is what there is to it besides
them (`Relabeling.bare`).
-/

namespace Lox

/-- What to put in the place of lines and depths. -/
structure Relabeling where
  line : Nat → Nat
  depth : Option Nat → Option Nat

namespace Relabeling

/-- Other lines, and depths as they are. -/
def lines (f : Nat → Nat) : Relabeling := ⟨f, id⟩

/-- Lines as they are, and no depths. -/
def unresolved : Relabeling := ⟨id, fun _ => none⟩

/-- No lines and no depths. -/
def bare : Relabeling := ⟨fun _ => 0, fun _ => none⟩

/-- First the one, then the other. -/
def andThen (first second : Relabeling) : Relabeling :=
  ⟨second.line ∘ first.line, second.depth ∘ first.depth⟩

end Relabeling

/-- A name on another line. -/
def Ident.relabel (m : Relabeling) (name : Ident) : Ident := { name with line := m.line name.line }

/-- A keyword on another line. -/
def Word.relabel (m : Relabeling) (keyword : Word) : Word :=
  { keyword with line := m.line keyword.line }

/-- An operator on another line. -/
def Operator.relabel {Op : Type} (m : Relabeling) (op : Operator Op) : Operator Op :=
  { op with line := m.line op.line }

/-- A reference on another line, with another depth. -/
def Reference.relabel (m : Relabeling) (ref : Reference) : Reference :=
  ⟨ref.name.relabel m, m.depth ref.depth⟩

/-- The name of a function on another line. -/
def FunctionName.relabel (m : Relabeling) : FunctionName → FunctionName
  | named name => named (name.relabel m)
  | anonymous line => anonymous (m.line line)

mutual

/-- An expression with other lines and depths. -/
def Expr.relabel (m : Relabeling) : Expr → Expr
  | .literal value => .literal value
  | .group inner => .group (inner.relabel m)
  | .unary op operand => .unary (op.relabel m) (operand.relabel m)
  | .binary left op right => .binary (left.relabel m) (op.relabel m) (right.relabel m)
  | .logical left op right => .logical (left.relabel m) (op.relabel m) (right.relabel m)
  | .variable_ ref => .variable_ (ref.relabel m)
  | .assign target value => .assign (target.relabel m) (value.relabel m)
  | .call callee arguments line =>
      .call (callee.relabel m) (Expr.relabelAll m arguments) (m.line line)
  | .get object name => .get (object.relabel m) (name.relabel m)
  | .set object name value => .set (object.relabel m) (name.relabel m) (value.relabel m)
  | .this keyword depth => .this (keyword.relabel m) (m.depth depth)
  | .super keyword method depth =>
      .super (keyword.relabel m) (method.relabel m) (m.depth depth)
  | .function decl => .function (decl.relabel m)

/-- Expressions with other lines and depths. -/
def Expr.relabelAll (m : Relabeling) : List Expr → List Expr
  | [] => []
  | e :: rest => e.relabel m :: Expr.relabelAll m rest

/-- A statement with other lines and depths. -/
def Stmt.relabel (m : Relabeling) : Stmt → Stmt
  | .expression value => .expression (value.relabel m)
  | .print line value => .print (m.line line) (value.relabel m)
  | .var name none => .var (name.relabel m) none
  | .var name (some initial) => .var (name.relabel m) (some (initial.relabel m))
  | .block body => .block (Stmt.relabelAll m body)
  | .branch condition yes none => .branch (condition.relabel m) (yes.relabel m) none
  | .branch condition yes (some no) =>
      .branch (condition.relabel m) (yes.relabel m) (some (no.relabel m))
  | .loop condition body => .loop (condition.relabel m) (body.relabel m)
  | .function decl => .function (decl.relabel m)
  | .return_ keyword none => .return_ (keyword.relabel m) none
  | .return_ keyword (some value) => .return_ (keyword.relabel m) (some (value.relabel m))
  | .class_ name superclass methods =>
      .class_ (name.relabel m) (superclass.map (·.relabel m)) (Function.relabelAll m methods)

/-- Statements with other lines and depths. -/
def Stmt.relabelAll (m : Relabeling) : List Stmt → List Stmt
  | [] => []
  | s :: rest => s.relabel m :: Stmt.relabelAll m rest

/-- A function with other lines and depths. -/
def Function.relabel (m : Relabeling) : Function → Function
  | ⟨name, parameters, body⟩ =>
      ⟨name.relabel m, parameters.map (·.relabel m), Stmt.relabelAll m body⟩

/-- Functions with other lines and depths. -/
def Function.relabelAll (m : Relabeling) : List Function → List Function
  | [] => []
  | f :: rest => f.relabel m :: Function.relabelAll m rest

end

attribute [simp] Expr.relabel Expr.relabelAll Stmt.relabel Stmt.relabelAll Function.relabel
  Function.relabelAll

variable {m m' : Relabeling}

/-! ## One relabeling after another -/

theorem FunctionName.relabel_relabel (name : FunctionName) :
    (name.relabel m).relabel m' = name.relabel (m.andThen m') := by
  cases name <;> rfl

mutual

theorem Expr.relabel_relabel (e : Expr) :
    (e.relabel m).relabel m' = e.relabel (m.andThen m') := by
  cases e with
  | literal _ | variable_ _ | this _ _ | super _ _ _ => rfl
  | group _ => simp only [Expr.relabel, Expr.relabel_relabel]
  | unary _ _ | assign _ _ | get _ _ =>
    simp only [Expr.relabel, Expr.relabel_relabel]
    rfl
  | binary _ _ _ | logical _ _ _ | set _ _ _ =>
    simp only [Expr.relabel, Expr.relabel_relabel]
    rfl
  | call _ _ _ =>
    simp only [Expr.relabel, Expr.relabel_relabel, Expr.relabelAll_relabelAll]
    rfl
  | function _ => simp only [Expr.relabel, Function.relabel_relabel]

theorem Expr.relabelAll_relabelAll (es : List Expr) :
    Expr.relabelAll m' (Expr.relabelAll m es) = Expr.relabelAll (m.andThen m') es := by
  cases es with
  | nil => rfl
  | cons _ _ => simp only [Expr.relabelAll, Expr.relabel_relabel, Expr.relabelAll_relabelAll]

theorem Stmt.relabel_relabel (s : Stmt) :
    (s.relabel m).relabel m' = s.relabel (m.andThen m') := by
  cases s with
  | expression _ => simp only [Stmt.relabel, Expr.relabel_relabel]
  | print _ _ =>
    simp only [Stmt.relabel, Expr.relabel_relabel]
    rfl
  | var _ initial =>
    cases initial with
    | none => rfl
    | some _ =>
      simp only [Stmt.relabel, Expr.relabel_relabel]
      rfl
  | block _ => simp only [Stmt.relabel, Stmt.relabelAll_relabelAll]
  | branch _ _ no =>
    cases no with
    | none => simp only [Stmt.relabel, Expr.relabel_relabel, Stmt.relabel_relabel]
    | some _ => simp only [Stmt.relabel, Expr.relabel_relabel, Stmt.relabel_relabel]
  | loop _ _ => simp only [Stmt.relabel, Expr.relabel_relabel, Stmt.relabel_relabel]
  | function _ => simp only [Stmt.relabel, Function.relabel_relabel]
  | return_ _ value =>
    cases value with
    | none => rfl
    | some _ =>
      simp only [Stmt.relabel, Expr.relabel_relabel]
      rfl
  | class_ _ superclass _ =>
    simp only [Stmt.relabel, Function.relabelAll_relabelAll, Option.map_map]
    rfl

theorem Stmt.relabelAll_relabelAll (ss : List Stmt) :
    Stmt.relabelAll m' (Stmt.relabelAll m ss) = Stmt.relabelAll (m.andThen m') ss := by
  cases ss with
  | nil => rfl
  | cons _ _ => simp only [Stmt.relabelAll, Stmt.relabel_relabel, Stmt.relabelAll_relabelAll]

theorem Function.relabel_relabel (f : Function) :
    (f.relabel m).relabel m' = f.relabel (m.andThen m') := by
  cases f with
  | mk _ _ _ =>
    simp only [Function.relabel, FunctionName.relabel_relabel, Stmt.relabelAll_relabelAll,
      List.map_map]
    rfl

theorem Function.relabelAll_relabelAll (fs : List Function) :
    Function.relabelAll m' (Function.relabelAll m fs) = Function.relabelAll (m.andThen m') fs := by
  cases fs with
  | nil => rfl
  | cons _ _ =>
    simp only [Function.relabelAll, Function.relabel_relabel, Function.relabelAll_relabelAll]

end

/-! ## Lines as they are -/

theorem FunctionName.relabel_unresolved (name : FunctionName) : name.relabel .unresolved = name := by
  cases name <;> rfl

theorem Ident.map_relabel_unresolved (names : List Ident) :
    names.map (·.relabel .unresolved) = names :=
  List.map_id names

theorem FunctionName.relabel_id (name : FunctionName) : name.relabel (.lines id) = name := by
  cases name <;> rfl

mutual

/-- Nothing changes if lines and depths stay as they are. -/
theorem Expr.relabel_id (e : Expr) : e.relabel (.lines id) = e := by
  cases e with
  | literal _ | variable_ _ | this _ _ | super _ _ _ => rfl
  | group _ => rw [Expr.relabel, Expr.relabel_id]
  | unary _ _ | assign _ _ | get _ _ =>
    rw [Expr.relabel, Expr.relabel_id]
    rfl
  | binary _ _ _ | logical _ _ _ | set _ _ _ =>
    rw [Expr.relabel, Expr.relabel_id, Expr.relabel_id]
    rfl
  | call _ _ _ =>
    rw [Expr.relabel, Expr.relabel_id, Expr.relabelAll_id]
    rfl
  | function _ => rw [Expr.relabel, Function.relabel_id]

theorem Expr.relabelAll_id (es : List Expr) : Expr.relabelAll (.lines id) es = es := by
  cases es with
  | nil => rfl
  | cons _ _ => rw [Expr.relabelAll, Expr.relabel_id, Expr.relabelAll_id]

theorem Stmt.relabel_id (s : Stmt) : s.relabel (.lines id) = s := by
  cases s with
  | expression _ => rw [Stmt.relabel, Expr.relabel_id]
  | print _ _ =>
    rw [Stmt.relabel, Expr.relabel_id]
    rfl
  | var _ initial =>
    cases initial with
    | none => rfl
    | some _ =>
      rw [Stmt.relabel, Expr.relabel_id]
      rfl
  | block _ => rw [Stmt.relabel, Stmt.relabelAll_id]
  | branch _ _ no =>
    cases no with
    | none => rw [Stmt.relabel, Expr.relabel_id, Stmt.relabel_id]
    | some _ => rw [Stmt.relabel, Expr.relabel_id, Stmt.relabel_id, Stmt.relabel_id]
  | loop _ _ => rw [Stmt.relabel, Expr.relabel_id, Stmt.relabel_id]
  | function _ => rw [Stmt.relabel, Function.relabel_id]
  | return_ _ value =>
    cases value with
    | none => rfl
    | some _ =>
      rw [Stmt.relabel, Expr.relabel_id]
      rfl
  | class_ _ superclass _ =>
    rw [Stmt.relabel, Function.relabelAll_id]
    cases superclass <;> rfl

theorem Stmt.relabelAll_id (ss : List Stmt) : Stmt.relabelAll (.lines id) ss = ss := by
  cases ss with
  | nil => rfl
  | cons _ _ => rw [Stmt.relabelAll, Stmt.relabel_id, Stmt.relabelAll_id]

theorem Function.relabel_id (f : Function) : f.relabel (.lines id) = f := by
  cases f with
  | mk _ parameters _ =>
    rw [Function.relabel, FunctionName.relabel_id, Stmt.relabelAll_id,
      show parameters.map (·.relabel (.lines id)) = parameters from List.map_id parameters]

theorem Function.relabelAll_id (fs : List Function) : Function.relabelAll (.lines id) fs = fs := by
  cases fs with
  | nil => rfl
  | cons _ _ => rw [Function.relabelAll, Function.relabel_id, Function.relabelAll_id]

end

end Lox
