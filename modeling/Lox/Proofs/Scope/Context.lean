import Lox.Heap.Basic
import Lox.Proofs.Bindings
import Lox.Proofs.Syntax.Every
import Lox.Scope.Resolve

/-!
# Where the parts of a program stand

The **context** of a part of a program is made up of the scopes around it, the innermost first, with
the names that each of them declares up to there.  A scope belongs to a construct of the text: a
block, the body of a function, or one of the two scopes around a method.  `Expr.nodes`, `Stmt.nodes`
and `Function.nodes` list the parts of a tree, each with its context.

Two things are said of a name in a context.  It is declared, in one of the scopes; that is all that
resolution asks for.  And its variable is ready, or else it is still being initialized, in which case
the context keeps the initializer that the part stands in.

A method is the body of a function in a scope of its own, which declares `this`; that one stands in
the scope that declares `super`, if there is a superclass.
-/

namespace Lox

/-- How far the variable of a name has been set up. -/
inductive Readiness where
  | ready
  /-- What stands here stands in the initializer of the variable. -/
  | initializing (initial : Expr)

/-- May the variable be read? -/
def Readiness.isReady : Readiness → Bool
  | ready => true
  | initializing _ => false

/-- A scope of the text, with the names that it declares. -/
structure LexicalScope where
  construct : Construct
  names : Bindings Readiness

/-- The scopes around a place in the text, the innermost first. -/
abbrev Context : Type := List LexicalScope

namespace Context

/-- Declare a name in the innermost scope, if there is one. -/
def declare (name : String) (readiness : Readiness) : Context → Context
  | [] => []
  | scope :: outer => { scope with names := scope.names.insert name readiness } :: outer

/-- The names of parameters. -/
def parameters (names : List Ident) : Bindings Readiness :=
  names.foldl (fun bindings name => bindings.insert name.lexeme .ready) .empty

/-- Inside a block. -/
def inBlock (ctx : Context) (body : List Stmt) : Context := ⟨.block body, .empty⟩ :: ctx

/-- Inside the body of a function. -/
def inFunction (ctx : Context) (decl : Function) : Context :=
  ⟨.function decl, parameters decl.parameters⟩ :: ctx

/-- Around a method. -/
def aroundMethod (ctx : Context) (method : Function) : Context :=
  ⟨.self method, Bindings.empty.insert thisName .ready⟩ :: ctx

/-- Around the methods of a class. -/
def aroundMethods (ctx : Context) (name : Ident) (superclass : Option Reference)
    (methods : List Function) : Context :=
  match superclass with
  | none => ctx
  | some _ => ⟨.parent name methods, Bindings.empty.insert superName .ready⟩ :: ctx

/-- The scopes as they are for a walk that resolves names. -/
def scopes (ctx : Context) : List Scope := ctx.map fun scope => scope.names.map Readiness.isReady

end Context

/-- The name that a statement declares. -/
def Stmt.declares : Stmt → Option String
  | .var name _ => some name.lexeme
  | .class_ name _ _ => some name.lexeme
  | .function ⟨.named name, _, _⟩ => some name.lexeme
  | _ => none

/-- The context behind a statement, which may have declared a name. -/
def Stmt.after : Stmt → Context → Context
  | .var name _, ctx => ctx.declare name.lexeme .ready
  | .class_ name _ _, ctx => ctx.declare name.lexeme .ready
  | .function ⟨.named name, _, _⟩, ctx => ctx.declare name.lexeme .ready
  | _, ctx => ctx

mutual

/-- The parts of an expression. -/
def Expr.nodes (ctx : Context) : Expr → List (Context × Node)
  | .literal value => [(ctx, .expr (.literal value))]
  | .group inner => (ctx, .expr (.group inner)) :: inner.nodes ctx
  | .unary op operand => (ctx, .expr (.unary op operand)) :: operand.nodes ctx
  | .binary left op right =>
      (ctx, .expr (.binary left op right)) :: left.nodes ctx ++ right.nodes ctx
  | .logical left op right =>
      (ctx, .expr (.logical left op right)) :: left.nodes ctx ++ right.nodes ctx
  | .variable_ ref => [(ctx, .expr (.variable_ ref))]
  | .assign target value => (ctx, .expr (.assign target value)) :: value.nodes ctx
  | .call callee arguments line =>
      (ctx, .expr (.call callee arguments line)) :: callee.nodes ctx ++ Expr.nodesAll ctx arguments
  | .get object name => (ctx, .expr (.get object name)) :: object.nodes ctx
  | .set object name value =>
      (ctx, .expr (.set object name value)) :: object.nodes ctx ++ value.nodes ctx
  | .this keyword depth => [(ctx, .expr (.this keyword depth))]
  | .super keyword method depth => [(ctx, .expr (.super keyword method depth))]
  | .function decl => (ctx, .expr (.function decl)) :: decl.nodes ctx

/-- The parts of expressions that stand in one context. -/
def Expr.nodesAll (ctx : Context) : List Expr → List (Context × Node)
  | [] => []
  | e :: rest => e.nodes ctx ++ Expr.nodesAll ctx rest

/-- The parts of a statement.  The superclass of a class is one of them. -/
def Stmt.nodes (ctx : Context) : Stmt → List (Context × Node)
  | .expression value => (ctx, .stmt (.expression value)) :: value.nodes ctx
  | .print line value => (ctx, .stmt (.print line value)) :: value.nodes ctx
  | .var name none => [(ctx, .stmt (.var name none))]
  | .var name (some initial) =>
      (ctx, .stmt (.var name (some initial))) ::
        initial.nodes (ctx.declare name.lexeme (.initializing initial))
  | .block body => (ctx, .stmt (.block body)) :: Stmt.nodesAll (ctx.inBlock body) body
  | .branch condition yes none =>
      (ctx, .stmt (.branch condition yes none)) :: condition.nodes ctx ++ yes.nodes ctx
  | .branch condition yes (some no) =>
      (ctx, .stmt (.branch condition yes (some no))) ::
        condition.nodes ctx ++ yes.nodes ctx ++ no.nodes ctx
  | .loop condition body =>
      (ctx, .stmt (.loop condition body)) :: condition.nodes ctx ++ body.nodes ctx
  | .function decl =>
      (ctx, .stmt (.function decl)) :: decl.nodes ((Stmt.function decl).after ctx)
  | .return_ keyword none => [(ctx, .stmt (.return_ keyword none))]
  | .return_ keyword (some value) => (ctx, .stmt (.return_ keyword (some value))) :: value.nodes ctx
  | .class_ name superclass methods =>
      let inside := ctx.declare name.lexeme .ready
      (ctx, .stmt (.class_ name superclass methods)) ::
        superclass.toList.map (fun ref => (ctx, .expr (.variable_ ref))) ++
          Function.nodesAll (inside.aroundMethods name superclass methods) methods

/-- The parts of statements that follow one another. -/
def Stmt.nodesAll (ctx : Context) : List Stmt → List (Context × Node)
  | [] => []
  | s :: rest => s.nodes ctx ++ Stmt.nodesAll (s.after ctx) rest

/-- The parts of a function. -/
def Function.nodes (ctx : Context) : Function → List (Context × Node)
  | ⟨name, parameters, body⟩ =>
      (ctx, .function ⟨name, parameters, body⟩) ::
        Stmt.nodesAll (ctx.inFunction ⟨name, parameters, body⟩) body

/-- The parts of the methods of a class. -/
def Function.nodesAll (ctx : Context) : List Function → List (Context × Node)
  | [] => []
  | f :: rest => f.nodes (ctx.aroundMethod f) ++ Function.nodesAll ctx rest

end

/-! ## All parts -/

variable {P : Node → Prop}

mutual

/-- What holds of every part in its context holds of every part. -/
theorem Expr.every_of_nodes {ctx : Context} {e : Expr} (h : ∀ p ∈ e.nodes ctx, P p.2) : e.Every P := by
  cases e with
  | literal _ | variable_ _ | this _ _ | super _ _ _ => exact h _ List.mem_cons_self
  | group _ | unary _ _ | assign _ _ | get _ _ =>
    rw [Expr.nodes, List.forall_mem_cons] at h
    exact ⟨h.1, Expr.every_of_nodes h.2⟩
  | binary _ _ _ | logical _ _ _ | set _ _ _ =>
    rw [Expr.nodes, List.cons_append, List.forall_mem_cons, List.forall_mem_append] at h
    exact ⟨h.1, Expr.every_of_nodes h.2.1, Expr.every_of_nodes h.2.2⟩
  | call _ _ _ =>
    rw [Expr.nodes, List.cons_append, List.forall_mem_cons, List.forall_mem_append] at h
    exact ⟨h.1, Expr.every_of_nodes h.2.1, Expr.everyAll_of_nodes h.2.2⟩
  | function _ =>
    rw [Expr.nodes, List.forall_mem_cons] at h
    exact ⟨h.1, Function.every_of_nodes h.2⟩

theorem Expr.everyAll_of_nodes {ctx : Context} {es : List Expr} (h : ∀ p ∈ Expr.nodesAll ctx es, P p.2) :
    Expr.EveryAll P es := by
  cases es with
  | nil => trivial
  | cons _ _ =>
    rw [Expr.nodesAll, List.forall_mem_append] at h
    exact ⟨Expr.every_of_nodes h.1, Expr.everyAll_of_nodes h.2⟩

theorem Stmt.every_of_nodes {ctx : Context} {s : Stmt} (h : ∀ p ∈ s.nodes ctx, P p.2) : s.Every P := by
  cases s with
  | expression _ | print _ _ =>
    rw [Stmt.nodes, List.forall_mem_cons] at h
    exact ⟨h.1, Expr.every_of_nodes h.2⟩
  | var _ initial =>
    cases initial with
    | none => exact h _ List.mem_cons_self
    | some _ =>
      rw [Stmt.nodes, List.forall_mem_cons] at h
      exact ⟨h.1, Expr.every_of_nodes h.2⟩
  | block _ =>
    rw [Stmt.nodes, List.forall_mem_cons] at h
    exact ⟨h.1, Stmt.everyAll_of_nodes h.2⟩
  | branch _ _ no =>
    cases no with
    | none =>
      rw [Stmt.nodes, List.cons_append, List.forall_mem_cons, List.forall_mem_append] at h
      exact ⟨h.1, Expr.every_of_nodes h.2.1, Stmt.every_of_nodes h.2.2⟩
    | some _ =>
      rw [Stmt.nodes, List.cons_append, List.cons_append, List.forall_mem_cons,
        List.forall_mem_append, List.forall_mem_append] at h
      exact ⟨h.1, Expr.every_of_nodes h.2.1.1, Stmt.every_of_nodes h.2.1.2,
        Stmt.every_of_nodes h.2.2⟩
  | loop _ _ =>
    rw [Stmt.nodes, List.cons_append, List.forall_mem_cons, List.forall_mem_append] at h
    exact ⟨h.1, Expr.every_of_nodes h.2.1, Stmt.every_of_nodes h.2.2⟩
  | function _ =>
    rw [Stmt.nodes, List.forall_mem_cons] at h
    exact ⟨h.1, Function.every_of_nodes h.2⟩
  | return_ _ value =>
    cases value with
    | none => exact h _ List.mem_cons_self
    | some _ =>
      rw [Stmt.nodes, List.forall_mem_cons] at h
      exact ⟨h.1, Expr.every_of_nodes h.2⟩
  | class_ _ _ _ =>
    rw [Stmt.nodes, List.cons_append, List.forall_mem_cons, List.forall_mem_append] at h
    exact ⟨h.1, Function.everyAll_of_nodes h.2.2⟩

theorem Stmt.everyAll_of_nodes {ctx : Context} {ss : List Stmt} (h : ∀ p ∈ Stmt.nodesAll ctx ss, P p.2) :
    Stmt.EveryAll P ss := by
  cases ss with
  | nil => trivial
  | cons _ _ =>
    rw [Stmt.nodesAll, List.forall_mem_append] at h
    exact ⟨Stmt.every_of_nodes h.1, Stmt.everyAll_of_nodes h.2⟩

theorem Function.every_of_nodes {ctx : Context} {f : Function} (h : ∀ p ∈ f.nodes ctx, P p.2) : f.Every P := by
  cases f with
  | mk _ _ _ =>
    rw [Function.nodes, List.forall_mem_cons] at h
    exact ⟨h.1, Stmt.everyAll_of_nodes h.2⟩

theorem Function.everyAll_of_nodes {ctx : Context} {fs : List Function}
    (h : ∀ p ∈ Function.nodesAll ctx fs, P p.2) : Function.EveryAll P fs := by
  cases fs with
  | nil => trivial
  | cons _ _ =>
    rw [Function.nodesAll, List.forall_mem_append] at h
    exact ⟨Function.every_of_nodes h.1, Function.everyAll_of_nodes h.2⟩

end

end Lox
