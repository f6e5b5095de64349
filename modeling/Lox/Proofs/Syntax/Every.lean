import Lox.Proofs.Syntax.Written

/-!
# Properties of all parts of a tree

`Expr.Every P` says that the expression and every part of it meets `P`, functions and the statements
in their bodies included; likewise for statements and functions.  `P` is a property of **nodes**,
which are expressions, statements and functions alike.

The properties that matter for what is parsed are

* `Node.Leveled`: operands respect the levels of the grammar;
* `Node.Placed`: declarations stand only where declarations may stand, and functions have a name
  exactly if they should;
* `Node.Unresolved`: no reference has a depth yet;
* `Node.Names`: the names in the node meet a condition.
-/

namespace Lox

/-- A part of a program. -/
inductive Node where
  | expr (e : Expr)
  | stmt (s : Stmt)
  | function (f : Function)

mutual

/-- The expression and all its parts meet `P`. -/
def Expr.Every (P : Node → Prop) : Expr → Prop
  | .literal value => P (.expr (.literal value))
  | .group inner => P (.expr (.group inner)) ∧ inner.Every P
  | .unary op operand => P (.expr (.unary op operand)) ∧ operand.Every P
  | .binary left op right => P (.expr (.binary left op right)) ∧ left.Every P ∧ right.Every P
  | .logical left op right => P (.expr (.logical left op right)) ∧ left.Every P ∧ right.Every P
  | .variable_ ref => P (.expr (.variable_ ref))
  | .assign target value => P (.expr (.assign target value)) ∧ value.Every P
  | .call callee arguments line =>
      P (.expr (.call callee arguments line)) ∧ callee.Every P ∧ Expr.EveryAll P arguments
  | .get object name => P (.expr (.get object name)) ∧ object.Every P
  | .set object name value => P (.expr (.set object name value)) ∧ object.Every P ∧ value.Every P
  | .this keyword depth => P (.expr (.this keyword depth))
  | .super keyword method depth => P (.expr (.super keyword method depth))
  | .function decl => P (.expr (.function decl)) ∧ decl.Every P

/-- All the expressions and all their parts meet `P`. -/
def Expr.EveryAll (P : Node → Prop) : List Expr → Prop
  | [] => True
  | e :: rest => e.Every P ∧ Expr.EveryAll P rest

/-- The statement and all its parts meet `P`. -/
def Stmt.Every (P : Node → Prop) : Stmt → Prop
  | .expression value => P (.stmt (.expression value)) ∧ value.Every P
  | .print line value => P (.stmt (.print line value)) ∧ value.Every P
  | .var name none => P (.stmt (.var name none))
  | .var name (some initial) => P (.stmt (.var name (some initial))) ∧ initial.Every P
  | .block body => P (.stmt (.block body)) ∧ Stmt.EveryAll P body
  | .branch condition yes none =>
      P (.stmt (.branch condition yes none)) ∧ condition.Every P ∧ yes.Every P
  | .branch condition yes (some no) =>
      P (.stmt (.branch condition yes (some no))) ∧ condition.Every P ∧ yes.Every P ∧ no.Every P
  | .loop condition body => P (.stmt (.loop condition body)) ∧ condition.Every P ∧ body.Every P
  | .function decl => P (.stmt (.function decl)) ∧ decl.Every P
  | .return_ keyword none => P (.stmt (.return_ keyword none))
  | .return_ keyword (some value) => P (.stmt (.return_ keyword (some value))) ∧ value.Every P
  | .class_ name superclass methods =>
      P (.stmt (.class_ name superclass methods)) ∧ Function.EveryAll P methods

/-- All the statements and all their parts meet `P`. -/
def Stmt.EveryAll (P : Node → Prop) : List Stmt → Prop
  | [] => True
  | s :: rest => s.Every P ∧ Stmt.EveryAll P rest

/-- The function and all its parts meet `P`. -/
def Function.Every (P : Node → Prop) : Function → Prop
  | ⟨name, parameters, body⟩ => P (.function ⟨name, parameters, body⟩) ∧ Stmt.EveryAll P body

/-- All the functions and all their parts meet `P`. -/
def Function.EveryAll (P : Node → Prop) : List Function → Prop
  | [] => True
  | f :: rest => f.Every P ∧ Function.EveryAll P rest

end

variable {P Q : Node → Prop}

theorem Stmt.everyAll_iff (ss : List Stmt) : Stmt.EveryAll P ss ↔ ∀ s ∈ ss, s.Every P := by
  induction ss with
  | nil => simp [Stmt.EveryAll]
  | cons s rest ih => simp [Stmt.EveryAll, ih]

theorem Function.everyAll_iff (fs : List Function) :
    Function.EveryAll P fs ↔ ∀ f ∈ fs, f.Every P := by
  induction fs with
  | nil => simp [Function.EveryAll]
  | cons f rest ih => simp [Function.EveryAll, ih]

/-- A node meets what all its parts meet. -/
theorem Stmt.Every.self {s : Stmt} (h : s.Every P) : P (.stmt s) := by
  cases s with
  | var name initial => cases initial <;> first | exact h | exact h.1
  | branch condition yes no => cases no <;> exact h.1
  | return_ keyword value => cases value <;> first | exact h | exact h.1
  | _ => exact h.1

/-- A node meets what all its parts meet. -/
theorem Function.Every.self {f : Function} (h : f.Every P) : P (.function f) := by
  cases f with
  | mk _ _ _ => exact h.1

mutual

theorem Expr.Every.mono (imp : ∀ n, P n → Q n) {e : Expr} (h : e.Every P) : e.Every Q := by
  cases e with
  | literal _ | variable_ _ | this _ _ | super _ _ _ => exact imp _ h
  | group _ | unary _ _ | assign _ _ | get _ _ => exact ⟨imp _ h.1, h.2.mono imp⟩
  | binary _ _ _ | logical _ _ _ | set _ _ _ =>
    exact ⟨imp _ h.1, h.2.1.mono imp, h.2.2.mono imp⟩
  | call _ arguments _ => exact ⟨imp _ h.1, h.2.1.mono imp, Expr.EveryAll.mono imp h.2.2⟩
  | function _ => exact ⟨imp _ h.1, h.2.mono imp⟩

theorem Expr.EveryAll.mono (imp : ∀ n, P n → Q n) {es : List Expr} (h : Expr.EveryAll P es) :
    Expr.EveryAll Q es := by
  cases es with
  | nil => trivial
  | cons _ _ => exact ⟨h.1.mono imp, Expr.EveryAll.mono imp h.2⟩

theorem Stmt.Every.mono (imp : ∀ n, P n → Q n) {s : Stmt} (h : s.Every P) : s.Every Q := by
  cases s with
  | expression _ | print _ _ => exact ⟨imp _ h.1, h.2.mono imp⟩
  | var _ initial =>
    cases initial with
    | none => exact imp _ h
    | some _ => exact ⟨imp _ h.1, h.2.mono imp⟩
  | block _ => exact ⟨imp _ h.1, Stmt.EveryAll.mono imp h.2⟩
  | branch _ _ no =>
    cases no with
    | none => exact ⟨imp _ h.1, h.2.1.mono imp, h.2.2.mono imp⟩
    | some _ => exact ⟨imp _ h.1, h.2.1.mono imp, h.2.2.1.mono imp, h.2.2.2.mono imp⟩
  | loop _ _ => exact ⟨imp _ h.1, h.2.1.mono imp, h.2.2.mono imp⟩
  | function _ => exact ⟨imp _ h.1, h.2.mono imp⟩
  | return_ _ value =>
    cases value with
    | none => exact imp _ h
    | some _ => exact ⟨imp _ h.1, h.2.mono imp⟩
  | class_ _ _ _ => exact ⟨imp _ h.1, Function.EveryAll.mono imp h.2⟩

theorem Stmt.EveryAll.mono (imp : ∀ n, P n → Q n) {ss : List Stmt} (h : Stmt.EveryAll P ss) :
    Stmt.EveryAll Q ss := by
  cases ss with
  | nil => trivial
  | cons _ _ => exact ⟨h.1.mono imp, Stmt.EveryAll.mono imp h.2⟩

theorem Function.Every.mono (imp : ∀ n, P n → Q n) {f : Function} (h : f.Every P) :
    f.Every Q := by
  cases f with
  | mk _ _ _ => exact ⟨imp _ h.1, Stmt.EveryAll.mono imp h.2⟩

theorem Function.EveryAll.mono (imp : ∀ n, P n → Q n) {fs : List Function}
    (h : Function.EveryAll P fs) : Function.EveryAll Q fs := by
  cases fs with
  | nil => trivial
  | cons _ _ => exact ⟨h.1.mono imp, Function.EveryAll.mono imp h.2⟩

end

/-! ## Levels -/

namespace Level

/-- The level of assignments, the least of all. -/
def assignment : Nat := 0

/-- The level of calls and property accesses. -/
def call : Nat := 8

/-- The level of what has no operands. -/
def primary : Nat := 9

theorem call_le_primary : call ≤ primary := by decide

theorem or_le_unary : or ≤ unary := by decide

/-- The kinds of tokens that are operators of a level. -/
def operators : Nat → List Kind
  | 1 => [.keyword .or_]
  | 2 => [.keyword .and_]
  | 3 => [.symbol .equalEqual, .symbol .bangEqual]
  | 4 => [.symbol .greater, .symbol .greaterEqual, .symbol .less, .symbol .lessEqual]
  | 5 => [.symbol .minus, .symbol .plus]
  | 6 => [.symbol .slash, .symbol .star, .symbol .percent]
  | 7 => [.symbol .bang, .symbol .minus]
  | _ => []

theorem symbol_mem_operators (op : BinaryOp) : .symbol op.symbol ∈ operators op.level := by
  cases op <;> simp [operators, BinaryOp.level, BinaryOp.symbol]

theorem keyword_mem_operators (op : LogicalOp) : .keyword op.keyword ∈ operators op.level := by
  cases op <;> simp [operators, LogicalOp.level, LogicalOp.keyword, Level.or]

theorem unary_mem_operators (op : UnaryOp) : .symbol op.symbol ∈ operators unary := by
  cases op <;> simp [operators, UnaryOp.symbol, unary]

end Level

/-- The level of an expression, which is that of its outermost operator. -/
def Expr.level : Expr → Nat
  | .assign _ _ | .set _ _ _ => Level.assignment
  | .logical _ op _ => op.op.level
  | .binary _ op _ => op.op.level
  | .unary _ _ => Level.unary
  | .call _ _ _ | .get _ _ => Level.call
  | .literal _ | .group _ | .variable_ _ | .this _ _ | .super _ _ _ | .function _ => Level.primary

/-- The operator of the node is one of its level, and its operands are on the levels that the
grammar asks for: those of a binary operator associate to the left, the operand of a unary one binds
at least as tightly as it, and what is called or has its property accessed is a call, an access or
something without operands. -/
def Node.Leveled : Node → Prop
  | .expr (.logical left op right) =>
      .keyword op.op.keyword ∈ Level.operators op.op.level ∧
        op.op.level ≤ left.level ∧ op.op.level < right.level
  | .expr (.binary left op right) =>
      .symbol op.op.symbol ∈ Level.operators op.op.level ∧
        op.op.level ≤ left.level ∧ op.op.level < right.level
  | .expr (.unary op operand) =>
      .symbol op.op.symbol ∈ Level.operators Level.unary ∧ Level.unary ≤ operand.level
  | .expr (.call callee _ _) => Level.call ≤ callee.level
  | .expr (.get object _) => Level.call ≤ object.level
  | .expr (.set object _ _) => Level.call ≤ object.level
  | _ => True

/-! ## Places of declarations -/

/-- Does the statement declare something? -/
def Stmt.isDeclaration : Stmt → Bool
  | .var _ _ | .function _ | .class_ _ _ _ => true
  | _ => false

/-- Has the function a name? -/
def Function.isNamed (f : Function) : Bool :=
  match f.name with
  | .named _ => true
  | .anonymous _ => false

/-- No declaration stands as a branch or as the body of a loop, and exactly the functions that are
not written as expressions have names. -/
def Node.Placed : Node → Prop
  | .expr (.function decl) => decl.isNamed = false
  | .stmt (.branch _ yes no) => yes.isDeclaration = false ∧ ∀ s ∈ no, s.isDeclaration = false
  | .stmt (.loop _ body) => body.isDeclaration = false
  | .stmt (.function decl) => decl.isNamed = true
  | .stmt (.class_ _ _ methods) => ∀ f ∈ methods, f.isNamed = true
  | _ => True

/-! ## References and names -/

/-- The node has no depth. -/
def Node.Unresolved : Node → Prop
  | .expr (.variable_ ref) => ref.depth = none
  | .expr (.assign target _) => target.depth = none
  | .expr (.this _ depth) => depth = none
  | .expr (.super _ _ depth) => depth = none
  | .stmt (.class_ _ superclass _) => ∀ ref ∈ superclass, ref.depth = none
  | _ => True

/-- What is asked of the words in a program: of its names, and of its keywords as they are spelled. -/
structure Vocabulary where
  name : Ident → Prop
  keyword : Keyword → Word → Prop

/-- The keyword is spelled as it should be. -/
def Word.Spells (keyword : Word) (k : Keyword) : Prop := keyword.lexeme = k.text

/-- Only the names matter. -/
def Vocabulary.names (N : Ident → Prop) : Vocabulary := ⟨N, fun _ _ => True⟩

/-- The names in the node meet what is asked of them, and so does its keyword. -/
def Node.Names (V : Vocabulary) : Node → Prop
  | .expr (.variable_ ref) => V.name ref.name
  | .expr (.assign target _) => V.name target.name
  | .expr (.get _ name) => V.name name
  | .expr (.set _ name _) => V.name name
  | .expr (.this keyword _) => V.keyword .this_ keyword
  | .expr (.super keyword method _) => V.keyword .super_ keyword ∧ V.name method
  | .stmt (.var name _) => V.name name
  | .stmt (.return_ keyword _) => V.keyword .return_ keyword
  | .stmt (.class_ name superclass _) => V.name name ∧ ∀ ref ∈ superclass, V.name ref.name
  | .function f => (∀ name, f.name = .named name → V.name name) ∧ ∀ name ∈ f.parameters, V.name name
  | _ => True

theorem Node.Names.mono {V V' : Vocabulary} {n : Node} (h : n.Names V)
    (names : ∀ name, V.name name → V'.name name)
    (keywords : ∀ k keyword, V.keyword k keyword → V'.keyword k keyword) : n.Names V' := by
  match n with
  | .expr (.variable_ _) | .expr (.assign _ _) | .expr (.get _ _) | .expr (.set _ _ _)
  | .stmt (.var _ _) => exact names _ h
  | .expr (.this _ _) | .stmt (.return_ _ _) => exact keywords _ _ h
  | .expr (.super _ _ _) => exact ⟨keywords _ _ h.1, names _ h.2⟩
  | .stmt (.class_ _ _ _) => exact ⟨names _ h.1, fun ref mem => names _ (h.2 ref mem)⟩
  | .function _ => exact ⟨fun name same => names _ (h.1 name same), fun name mem => names _ (h.2 name mem)⟩
  | .expr (.literal _) | .expr (.group _) | .expr (.unary _ _) | .expr (.binary _ _ _)
  | .expr (.logical _ _ _) | .expr (.call _ _ _) | .expr (.function _)
  | .stmt (.expression _) | .stmt (.print _ _) | .stmt (.block _) | .stmt (.branch _ _ _)
  | .stmt (.loop _ _) | .stmt (.function _) => trivial

/-- What the names meet is left if nothing is asked of the keywords. -/
theorem Node.Names.of_names {V : Vocabulary} {N : Ident → Prop} {n : Node} (h : n.Names V)
    (names : ∀ name, V.name name → N name) : n.Names (.names N) :=
  h.mono names fun _ _ _ => trivial

/-- What holds of every node that is parsed from tokens with words such as `V` asks for. -/
structure Node.Parsed (V : Vocabulary) (n : Node) : Prop where
  leveled : n.Leveled
  placed : n.Placed
  unresolved : n.Unresolved
  names : n.Names V

end Lox
