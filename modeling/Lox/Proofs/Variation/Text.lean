import Mathlib.Logic.Equiv.Basic
import Lox.Proofs.Scope.Resolution
import Lox.Proofs.Syntax.Relabel

/-!
# Texts that differ in lines and local names

Two texts **vary** from each other if they are the same but for the lines in them and for the names of
some local variables.  A **variation** (`Variation`) says which lines and which two names: in the
scopes that are marked, the one name stands where the other one stands in the first text, wherever the
variable of that scope is meant.

A place in the text (`Site`) is given by its context and by the marks of the scopes in it.  Names of
functions and classes are never changed, as they are printed.

What is known of each part of the first text in its context, `Variation.Part`, is kept with loops and
with the parts that name a variable: in particular that they are right there.
-/

namespace Lox

/-- The names of `this` and `super`, which no program can declare. -/
def Reserved (name : String) : Prop := name = thisName ∨ name = superName
  deriving Decidable

theorem UserName.not_reserved {name : Ident} (h : UserName name) : ¬Reserved name.lexeme := by
  rintro (same | same)
  · exact h.1 same
  · exact h.2 same

/-- How two texts may differ. -/
structure Variation where
  /-- The ways to change lines. -/
  Lines : (Nat → Nat) → Prop
  /-- The name of a variable that has another name in the second text. -/
  old : String
  /-- The name that it has there. -/
  new : String
  /-- What is known of the parts of the first text. -/
  Part : Context → Node → Prop
  right : ∀ ctx n, Part ctx n → n.Right ctx
  /-- Neither of the names is a reserved word. -/
  user : ∀ name, Reserved name → old ≠ name ∧ new ≠ name

/-- Texts that vary from themselves and nothing else, where this is known of each part. -/
def Variation.still (Known : Context → Node → Prop) : Variation where
  Lines m := m = id
  old := ""
  new := ""
  Part ctx n := n.Right ctx ∧ Known ctx n
  right := fun _ _ part => part.1
  user := by
    rintro name (rfl | rfl)
    · decide
    · decide

/-- A place in the text: the scopes around it, and which of them are marked. -/
structure Site where
  context : Context
  marks : List Bool

namespace Site

/-- Outside all scopes. -/
def outermost : Site := ⟨[], []⟩

/-- Is the scope marked that is found at a depth? -/
def isMarked (p : Site) : (depth : Option Nat) → Bool
  | none => false
  | some distance => p.marks.getD distance false

/-- Is the innermost scope marked? -/
def mark (p : Site) : Bool := p.isMarked (some 0)

/-- Inside a scope. -/
def enter (p : Site) (scope : LexicalScope) (mark : Bool) : Site :=
  ⟨scope :: p.context, mark :: p.marks⟩

/-- Behind the declaration of a name. -/
def declare (p : Site) (name : String) (readiness : Readiness) : Site :=
  ⟨p.context.declare name readiness, p.marks⟩

/-- Behind a statement. -/
def after (p : Site) (s : Stmt) : Site := ⟨s.after p.context, p.marks⟩

/-- Inside a block. -/
def inBlock (p : Site) (body : List Stmt) (mark : Bool) : Site := p.enter ⟨.block body, .empty⟩ mark

/-- Inside the body of a function. -/
def inFunction (p : Site) (decl : Function) (mark : Bool) : Site :=
  p.enter ⟨.function decl, Context.parameters decl.parameters⟩ mark

/-- Around a method. -/
def aroundMethod (p : Site) (method : Function) : Site :=
  p.enter ⟨.self method, Bindings.empty.insert thisName .ready⟩ false

/-- Around the methods of a class. -/
def aroundMethods (p : Site) (name : Ident) (superclass : Option Reference)
    (methods : List Function) : Site :=
  match superclass with
  | none => p
  | some _ => p.enter ⟨.parent name methods, Bindings.empty.insert superName .ready⟩ false

end Site

namespace Variation

variable (v : Variation)

/-- The name in the second text of what has this name in the first one, in a scope that may be
marked. -/
def rename (mark : Bool) (name : String) : String :=
  if mark then Equiv.swap v.old v.new name else name

@[simp] theorem rename_false (name : String) : v.rename false name = name := rfl

theorem rename_injective (mark : Bool) : Function.Injective (v.rename mark) := by
  cases mark with
  | false => exact fun _ _ same => same
  | true => exact (Equiv.swap v.old v.new).injective

/-- Reserved words stay what they are. -/
theorem rename_reserved (mark : Bool) {name : String} (h : Reserved name) :
    v.rename mark name = name := by
  cases mark with
  | false => rfl
  | true =>
    have ne := v.user name h
    exact Equiv.swap_apply_of_ne_of_ne ne.1.symm ne.2.symm

theorem rename_this (mark : Bool) : v.rename mark thisName = thisName :=
  v.rename_reserved mark (.inl rfl)

theorem rename_super (mark : Bool) : v.rename mark superName = superName :=
  v.rename_reserved mark (.inr rfl)

/-- A name that is declared in a scope. -/
def ident (m : Nat → Nat) (mark : Bool) (name : Ident) : Ident :=
  ⟨v.rename mark name.name, v.rename mark name.lexeme, m name.line⟩

/-- A reference. -/
def reference (m : Nat → Nat) (p : Site) (ref : Reference) : Reference :=
  ⟨v.ident m (p.isMarked ref.depth) ref.name, ref.depth⟩

/-- A reference to a marked scope does not mention the other name. -/
def Fits (p : Site) (ref : Reference) : Prop :=
  p.isMarked ref.depth = true → ref.name.lexeme ≠ v.new

end Variation

section Varies

variable (v : Variation) (m : Nat → Nat)

mutual

/-- The second expression is the first one with other lines and local names. -/
inductive Expr.Varies : Site → Expr → Expr → Prop
  | literal {p : Site} (value : Literal) : Expr.Varies p (.literal value) (.literal value)
  | group {p : Site} {inner inner' : Expr} (varies : Expr.Varies p inner inner') :
      Expr.Varies p (.group inner) (.group inner')
  | unary {p : Site} {op : Operator UnaryOp} {operand operand' : Expr}
      (varies : Expr.Varies p operand operand') :
      Expr.Varies p (.unary op operand) (.unary (op.relabel (.lines m)) operand')
  | binary {p : Site} {op : Operator BinaryOp} {left left' right right' : Expr}
      (varies : Expr.Varies p left left') (varies' : Expr.Varies p right right') :
      Expr.Varies p (.binary left op right) (.binary left' (op.relabel (.lines m)) right')
  | logical {p : Site} {op : Operator LogicalOp} {left left' right right' : Expr}
      (varies : Expr.Varies p left left') (varies' : Expr.Varies p right right') :
      Expr.Varies p (.logical left op right) (.logical left' (op.relabel (.lines m)) right')
  | variable_ {p : Site} {ref : Reference} (part : v.Part p.context (.expr (.variable_ ref)))
      (fits : v.Fits p ref) : Expr.Varies p (.variable_ ref) (.variable_ (v.reference m p ref))
  | assign {p : Site} {target : Reference} {value value' : Expr}
      (part : v.Part p.context (.expr (.assign target value))) (fits : v.Fits p target)
      (varies : Expr.Varies p value value') :
      Expr.Varies p (.assign target value) (.assign (v.reference m p target) value')
  | call {p : Site} {callee callee' : Expr} {arguments arguments' : List Expr} {line : Nat}
      (varies : Expr.Varies p callee callee') (vary : Expr.AllVary p arguments arguments') :
      Expr.Varies p (.call callee arguments line) (.call callee' arguments' (m line))
  | get {p : Site} {object object' : Expr} {name : Ident} (varies : Expr.Varies p object object') :
      Expr.Varies p (.get object name) (.get object' (name.relabel (.lines m)))
  | set {p : Site} {object object' value value' : Expr} {name : Ident}
      (varies : Expr.Varies p object object') (varies' : Expr.Varies p value value') :
      Expr.Varies p (.set object name value) (.set object' (name.relabel (.lines m)) value')
  | this {p : Site} {keyword : Word} {depth : Option Nat}
      (part : v.Part p.context (.expr (.this keyword depth))) :
      Expr.Varies p (.this keyword depth) (.this (keyword.relabel (.lines m)) depth)
  | super {p : Site} {keyword : Word} {method : Ident} {depth : Option Nat}
      (part : v.Part p.context (.expr (.super keyword method depth))) :
      Expr.Varies p (.super keyword method depth)
        (.super (keyword.relabel (.lines m)) (method.relabel (.lines m)) depth)
  | function {p : Site} {decl decl' : Function} (varies : Function.Varies p decl decl') :
      Expr.Varies p (.function decl) (.function decl')

/-- The second expressions are the first ones with other lines and local names. -/
inductive Expr.AllVary : Site → List Expr → List Expr → Prop
  | nil {p : Site} : Expr.AllVary p [] []
  | cons {p : Site} {e e' : Expr} {rest rest' : List Expr} (varies : Expr.Varies p e e')
      (vary : Expr.AllVary p rest rest') : Expr.AllVary p (e :: rest) (e' :: rest')

/-- The second statement is the first one with other lines and local names. -/
inductive Stmt.Varies : Site → Stmt → Stmt → Prop
  | expression {p : Site} {value value' : Expr} (varies : Expr.Varies p value value') :
      Stmt.Varies p (.expression value) (.expression value')
  | print {p : Site} {line : Nat} {value value' : Expr} (varies : Expr.Varies p value value') :
      Stmt.Varies p (.print line value) (.print (m line) value')
  | var {p : Site} {name : Ident} (part : v.Part p.context (.stmt (.var name none))) :
      Stmt.Varies p (.var name none) (.var (v.ident m p.mark name) none)
  | initialized {p : Site} {name : Ident} {initial initial' : Expr}
      (part : v.Part p.context (.stmt (.var name (some initial))))
      (varies : Expr.Varies (p.declare name.lexeme (.initializing initial)) initial initial') :
      Stmt.Varies p (.var name (some initial)) (.var (v.ident m p.mark name) (some initial'))
  | block {p : Site} {body body' : List Stmt} (mark : Bool)
      (vary : Stmt.AllVary (p.inBlock body mark) body body') :
      Stmt.Varies p (.block body) (.block body')
  | branch {p : Site} {condition condition' : Expr} {yes yes' : Stmt}
      (varies : Expr.Varies p condition condition') (varies' : Stmt.Varies p yes yes') :
      Stmt.Varies p (.branch condition yes none) (.branch condition' yes' none)
  | choice {p : Site} {condition condition' : Expr} {yes yes' no no' : Stmt}
      (varies : Expr.Varies p condition condition') (varies' : Stmt.Varies p yes yes')
      (varies'' : Stmt.Varies p no no') :
      Stmt.Varies p (.branch condition yes (some no)) (.branch condition' yes' (some no'))
  | loop {p : Site} {condition condition' : Expr} {body body' : Stmt}
      (part : v.Part p.context (.stmt (.loop condition body)))
      (varies : Expr.Varies p condition condition') (varies' : Stmt.Varies p body body') :
      Stmt.Varies p (.loop condition body) (.loop condition' body')
  | function {p : Site} {decl decl' : Function}
      (fixed : v.rename p.mark decl.name.lexeme = decl.name.lexeme)
      (varies : Function.Varies (p.after (.function decl)) decl decl') :
      Stmt.Varies p (.function decl) (.function decl')
  | return_ {p : Site} {keyword : Word} :
      Stmt.Varies p (.return_ keyword none) (.return_ (keyword.relabel (.lines m)) none)
  | returned {p : Site} {keyword : Word} {value value' : Expr} (varies : Expr.Varies p value value') :
      Stmt.Varies p (.return_ keyword (some value))
        (.return_ (keyword.relabel (.lines m)) (some value'))
  | class_ {p : Site} {name : Ident} {methods methods' : List Function}
      (part : v.Part p.context (.stmt (.class_ name none methods)))
      (fixed : v.rename p.mark name.lexeme = name.lexeme)
      (vary : Function.AllVary (p.declare name.lexeme .ready) methods methods') :
      Stmt.Varies p (.class_ name none methods) (.class_ (name.relabel (.lines m)) none methods')
  | subclass {p : Site} {name : Ident} {ref : Reference} {methods methods' : List Function}
      (part : v.Part p.context (.stmt (.class_ name (some ref) methods)))
      (fixed : v.rename p.mark name.lexeme = name.lexeme)
      (varies : Expr.Varies p (.variable_ ref) (.variable_ (v.reference m p ref)))
      (vary : Function.AllVary ((p.declare name.lexeme .ready).aroundMethods name (some ref) methods)
        methods methods') :
      Stmt.Varies p (.class_ name (some ref) methods)
        (.class_ (name.relabel (.lines m)) (some (v.reference m p ref)) methods')

/-- The second statements are the first ones with other lines and local names. -/
inductive Stmt.AllVary : Site → List Stmt → List Stmt → Prop
  | nil {p : Site} : Stmt.AllVary p [] []
  | cons {p : Site} {s s' : Stmt} {rest rest' : List Stmt} (varies : Stmt.Varies p s s')
      (vary : Stmt.AllVary (p.after s) rest rest') : Stmt.AllVary p (s :: rest) (s' :: rest')

/-- The second function is the first one with other lines and local names. -/
inductive Function.Varies : Site → Function → Function → Prop
  | mk {p : Site} {name : FunctionName} {parameters : List Ident} {body body' : List Stmt}
      (part : v.Part p.context (.function ⟨name, parameters, body⟩)) (mark : Bool)
      (vary : Stmt.AllVary (p.inFunction ⟨name, parameters, body⟩ mark) body body') :
      Function.Varies p ⟨name, parameters, body⟩
        ⟨name.relabel (.lines m), parameters.map (v.ident m mark), body'⟩

/-- The second methods are the first ones with other lines and local names. -/
inductive Function.AllVary : Site → List Function → List Function → Prop
  | nil {p : Site} : Function.AllVary p [] []
  | cons {p : Site} {f f' : Function} {rest rest' : List Function}
      (varies : Function.Varies (p.aroundMethod f) f f') (vary : Function.AllVary p rest rest') :
      Function.AllVary p (f :: rest) (f' :: rest')

end

end Varies

theorem Function.Varies.name {v : Variation} {m : Nat → Nat} {p : Site}
    {f f' : Function} (h : f.Varies v m p f') :
    f'.name = f.name.relabel (.lines m) := by
  cases h
  rfl

/-! ## Texts that differ in lines only -/

/-- No scope around the place is marked. -/
def Site.Unmarked (p : Site) : Prop := ∀ mark ∈ p.marks, mark = false

namespace Site.Unmarked

variable {p : Site}

theorem isMarked (h : p.Unmarked) (depth : Option Nat) : p.isMarked depth = false := by
  cases depth with
  | none => rfl
  | some distance =>
    rw [Site.isMarked, List.getD_eq_getElem?_getD]
    cases found : p.marks[distance]? with
    | none => rfl
    | some mark => exact h mark (List.mem_of_getElem? found)

theorem enter (h : p.Unmarked) (scope : LexicalScope) : (p.enter scope false).Unmarked :=
  List.forall_mem_cons.mpr ⟨rfl, h⟩

theorem aroundMethods (h : p.Unmarked) (name : Ident) (superclass : Option Reference)
    (methods : List Function) : (p.aroundMethods name superclass methods).Unmarked := by
  cases superclass with
  | none => exact h
  | some _ => exact h.enter _

end Site.Unmarked

namespace Variation

variable {v : Variation} {m : Nat → Nat} {p : Site}

theorem ident_false (name : Ident) : v.ident m false name = name.relabel (.lines m) := rfl

theorem ident_unmarked (h : p.Unmarked) (name : Ident) :
    v.ident m p.mark name = name.relabel (.lines m) := by
  rw [Site.mark, h.isMarked, ident_false]

theorem reference_unmarked (h : p.Unmarked) (ref : Reference) :
    v.reference m p ref = ref.relabel (.lines m) := by
  rw [reference, h.isMarked]
  rfl

theorem fits_unmarked (h : p.Unmarked) (ref : Reference) : v.Fits p ref := by
  intro marked
  rw [h.isMarked] at marked
  cases marked

theorem fixed_unmarked (h : p.Unmarked) (name : String) : v.rename p.mark name = name := by
  rw [Site.mark, h.isMarked, rename_false]

end Variation

section Lines

open Variation

variable {v : Variation} (m : Nat → Nat)

mutual

/-- An expression varies from itself on other lines. -/
theorem Expr.varies_lines {p : Site} (h : p.Unmarked) {e : Expr}
    (parts : ∀ part ∈ e.nodes p.context, v.Part part.1 part.2) :
    e.Varies v m p (e.relabel (.lines m)) := by
  cases e with
  | literal value => exact .literal value
  | group inner =>
    rw [Expr.nodes, List.forall_mem_cons] at parts
    exact .group (Expr.varies_lines h parts.2)
  | unary op operand =>
    rw [Expr.nodes, List.forall_mem_cons] at parts
    exact .unary (Expr.varies_lines h parts.2)
  | binary left op right =>
    rw [Expr.nodes, List.cons_append, List.forall_mem_cons, List.forall_mem_append] at parts
    exact .binary (Expr.varies_lines h parts.2.1) (Expr.varies_lines h parts.2.2)
  | logical left op right =>
    rw [Expr.nodes, List.cons_append, List.forall_mem_cons, List.forall_mem_append] at parts
    exact .logical (Expr.varies_lines h parts.2.1) (Expr.varies_lines h parts.2.2)
  | variable_ ref =>
    rw [Expr.relabel, ← reference_unmarked h]
    exact .variable_ (parts _ List.mem_cons_self) (fits_unmarked h ref)
  | assign target value =>
    rw [Expr.nodes, List.forall_mem_cons] at parts
    rw [Expr.relabel, ← reference_unmarked h]
    exact .assign parts.1 (fits_unmarked h target) (Expr.varies_lines h parts.2)
  | call callee arguments line =>
    rw [Expr.nodes, List.cons_append, List.forall_mem_cons, List.forall_mem_append] at parts
    exact .call (Expr.varies_lines h parts.2.1) (Expr.allVary_lines h parts.2.2)
  | get object name =>
    rw [Expr.nodes, List.forall_mem_cons] at parts
    exact .get (Expr.varies_lines h parts.2)
  | set object name value =>
    rw [Expr.nodes, List.cons_append, List.forall_mem_cons, List.forall_mem_append] at parts
    exact .set (Expr.varies_lines h parts.2.1) (Expr.varies_lines h parts.2.2)
  | this keyword depth => exact .this (parts _ List.mem_cons_self)
  | super keyword method depth => exact .super (parts _ List.mem_cons_self)
  | function decl =>
    rw [Expr.nodes, List.forall_mem_cons] at parts
    exact .function (Function.varies_lines h parts.2)

theorem Expr.allVary_lines {p : Site} (h : p.Unmarked) {es : List Expr}
    (parts : ∀ part ∈ Expr.nodesAll p.context es, v.Part part.1 part.2) :
    Expr.AllVary v m p es (Expr.relabelAll (.lines m) es) := by
  cases es with
  | nil => exact .nil
  | cons e rest =>
    rw [Expr.nodesAll, List.forall_mem_append] at parts
    exact .cons (Expr.varies_lines h parts.1) (Expr.allVary_lines h parts.2)

/-- A statement varies from itself on other lines. -/
theorem Stmt.varies_lines {p : Site} (h : p.Unmarked) {s : Stmt}
    (parts : ∀ part ∈ s.nodes p.context, v.Part part.1 part.2) :
    s.Varies v m p (s.relabel (.lines m)) := by
  cases s with
  | expression value =>
    rw [Stmt.nodes, List.forall_mem_cons] at parts
    exact .expression (Expr.varies_lines h parts.2)
  | print line value =>
    rw [Stmt.nodes, List.forall_mem_cons] at parts
    exact .print (Expr.varies_lines h parts.2)
  | var name initial =>
    cases initial with
    | none =>
      rw [Stmt.relabel, ← ident_unmarked h]
      exact .var (parts _ List.mem_cons_self)
    | some initial =>
      rw [Stmt.nodes, List.forall_mem_cons] at parts
      rw [Stmt.relabel, ← ident_unmarked h]
      have inside : (p.declare name.lexeme (.initializing initial)).Unmarked := h
      exact .initialized parts.1 (Expr.varies_lines inside parts.2)
  | block body =>
    rw [Stmt.nodes, List.forall_mem_cons] at parts
    have inside : (p.inBlock body false).Unmarked := h.enter _
    exact .block false (Stmt.allVary_lines inside parts.2)
  | branch condition yes no =>
    cases no with
    | none =>
      rw [Stmt.nodes, List.cons_append, List.forall_mem_cons, List.forall_mem_append] at parts
      exact .branch (Expr.varies_lines h parts.2.1) (Stmt.varies_lines h parts.2.2)
    | some no =>
      rw [Stmt.nodes, List.cons_append, List.cons_append, List.forall_mem_cons,
        List.forall_mem_append, List.forall_mem_append] at parts
      exact .choice (Expr.varies_lines h parts.2.1.1) (Stmt.varies_lines h parts.2.1.2)
        (Stmt.varies_lines h parts.2.2)
  | loop condition body =>
    rw [Stmt.nodes, List.cons_append, List.forall_mem_cons, List.forall_mem_append] at parts
    exact .loop parts.1 (Expr.varies_lines h parts.2.1) (Stmt.varies_lines h parts.2.2)
  | function decl =>
    rw [Stmt.nodes, List.forall_mem_cons] at parts
    have behind : (p.after (.function decl)).Unmarked := h
    exact .function (fixed_unmarked h _) (Function.varies_lines behind parts.2)
  | return_ keyword value =>
    cases value with
    | none => exact .return_
    | some value =>
      rw [Stmt.nodes, List.forall_mem_cons] at parts
      exact .returned (Expr.varies_lines h parts.2)
  | class_ name superclass methods =>
    rw [Stmt.nodes, List.cons_append, List.forall_mem_cons, List.forall_mem_append] at parts
    have inside : (p.declare name.lexeme .ready).Unmarked := h
    cases superclass with
    | none => exact .class_ parts.1 (fixed_unmarked h _) (Function.allVary_lines inside parts.2.2)
    | some ref =>
      rw [Stmt.relabel, Option.map_some, ← reference_unmarked h]
      have around := inside.aroundMethods name (some ref) methods
      exact .subclass parts.1 (fixed_unmarked h _)
        (.variable_ (parts.2.1 _ List.mem_cons_self) (fits_unmarked h ref))
        (Function.allVary_lines around parts.2.2)

theorem Stmt.allVary_lines {p : Site} (h : p.Unmarked) {ss : List Stmt}
    (parts : ∀ part ∈ Stmt.nodesAll p.context ss, v.Part part.1 part.2) :
    Stmt.AllVary v m p ss (Stmt.relabelAll (.lines m) ss) := by
  cases ss with
  | nil => exact .nil
  | cons s rest =>
    rw [Stmt.nodesAll, List.forall_mem_append] at parts
    have behind : (p.after s).Unmarked := h
    exact .cons (Stmt.varies_lines h parts.1) (Stmt.allVary_lines behind parts.2)

/-- A function varies from itself on other lines. -/
theorem Function.varies_lines {p : Site} (h : p.Unmarked) {f : Function}
    (parts : ∀ part ∈ f.nodes p.context, v.Part part.1 part.2) :
    f.Varies v m p (f.relabel (.lines m)) := by
  cases f with
  | mk name parameters body =>
    rw [Function.nodes, List.forall_mem_cons] at parts
    have inside : (p.inFunction ⟨name, parameters, body⟩ false).Unmarked := h.enter _
    exact .mk parts.1 false (Stmt.allVary_lines inside parts.2)

theorem Function.allVary_lines {p : Site} (h : p.Unmarked) {fs : List Function}
    (parts : ∀ part ∈ Function.nodesAll p.context fs, v.Part part.1 part.2) :
    Function.AllVary v m p fs (Function.relabelAll (.lines m) fs) := by
  cases fs with
  | nil => exact .nil
  | cons f rest =>
    rw [Function.nodesAll, List.forall_mem_append] at parts
    have around : (p.aroundMethod f).Unmarked := h.enter _
    exact .cons (Function.varies_lines around parts.1) (Function.allVary_lines h parts.2)

end

end Lines

end Lox
