import Lox.Proofs.Scope.Resolution

/-!
# The class that a method belongs to

The scope that declares `super` is around the methods of a class, and it says which.  So the class that
a part of a program stands in can be read off the context of the part: each scope of this sort in the
context belongs to a declaration of a class with a superclass, one of whose methods the part stands in
(`Context.FindsSuper.exists_inMethod`).
-/

namespace Lox

namespace Context

/-- What the scopes belong to, the innermost first. -/
def constructs (ctx : Context) : List Construct := ctx.map LexicalScope.construct

/-- Inside a method of a class that is declared here and has a superclass. -/
def inMethod (ctx : Context) (name : Ident) (methods : List Function) (method : Function) : Context :=
  aroundMethod (⟨.parent name methods, Bindings.empty.insert superName .ready⟩ ::
    ctx.declare name.lexeme .ready) method

theorem constructs_declare (ctx : Context) (name : String) (readiness : Readiness) :
    (ctx.declare name readiness).constructs = ctx.constructs := by
  cases ctx <;> rfl

theorem constructs_after (ctx : Context) (s : Stmt) : constructs (s.after ctx) = ctx.constructs := by
  match s with
  | .var _ _ | .class_ _ _ _ | .function ⟨.named _, _, _⟩ => exact constructs_declare ..
  | .expression _ | .print _ _ | .block _ | .branch _ _ _ | .loop _ _ | .return_ _ _
  | .function ⟨.anonymous _, _, _⟩ => rfl

theorem constructs_inMethod (ctx : Context) (name : Ident) (methods : List Function)
    (method : Function) : (ctx.inMethod name methods method).constructs =
      [.self method, .parent name methods] ++ ctx.constructs := by
  rw [← constructs_declare ctx name.lexeme .ready]
  rfl

theorem constructAt_eq (ctx : Context) (distance : Nat) :
    constructAt ctx distance = ctx.constructs[distance]? :=
  (List.getElem?_map ..).symm

end Context

/-- Among these parts of a program there is the declaration of a class with a superclass, and the part
stands in one of its methods. -/
structure InMethod (parts : List (Context × Node)) (part : Context × Node) (name : Ident)
    (methods : List Function) (method : Function) : Prop where
  mem : method ∈ methods
  declared : ∃ around superclass, (around, .stmt (.class_ name (some superclass) methods)) ∈ parts ∧
    part ∈ method.nodes (around.inMethod name methods method)

/-- Where one of the constructs is around the methods of a class, the part stands in the method that the
construct before it is around. -/
def Accounted (parts : List (Context × Node)) (part : Context × Node) (constructs : List Construct) :
    Prop :=
  ∀ distance name methods, constructs[distance]? = some (.parent name methods) →
    ∃ nearer method, distance = nearer + 1 ∧ constructs[nearer]? = some (.self method) ∧
      InMethod parts part name methods method

namespace Accounted

variable {parts : List (Context × Node)} {part : Context × Node}

theorem nil : Accounted parts part [] := fun _ _ _ found => by cases found

theorem single {construct : Construct} (other : ∀ name methods, construct ≠ .parent name methods) :
    Accounted parts part [construct] := by
  intro distance name methods found
  rw [List.getElem?_singleton] at found
  split at found
  · exact absurd (Option.some.inj found) (other name methods)
  · cases found

theorem method {name : Ident} {methods : List Function} {method : Function}
    (inMethod : InMethod parts part name methods method) :
    Accounted parts part [.self method, .parent name methods] := by
  intro distance name' methods' found
  match distance with
  | 0 => cases found
  | 1 =>
    cases found
    exact ⟨0, method, rfl, rfl, inMethod⟩
  | distance + 2 => cases found

theorem append {inner outer : List Construct} (h : Accounted parts part inner)
    (h' : Accounted parts part outer) : Accounted parts part (inner ++ outer) := by
  intro distance name methods found
  rcases Nat.lt_or_ge distance inner.length with lt | le
  · rw [List.getElem?_append_left lt] at found
    obtain ⟨nearer, method, rfl, self, inMethod⟩ := h distance name methods found
    refine ⟨nearer, method, rfl, ?_, inMethod⟩
    rw [List.getElem?_append_left (Nat.lt_of_succ_lt lt), self]
  · obtain ⟨further, rfl⟩ := Nat.exists_eq_add_of_le le
    rw [List.getElem?_append_right le, Nat.add_sub_cancel_left] at found
    obtain ⟨nearer, method, rfl, self, inMethod⟩ := h' further name methods found
    refine ⟨inner.length + nearer, method, rfl, ?_, inMethod⟩
    rw [List.getElem?_append_right (Nat.le_add_right _ _), Nat.add_sub_cancel_left, self]

end Accounted

/-- The part stands inside the constructs that stand around it in `outer`, and those further in are
accounted for. -/
def Enclosed (parts : List (Context × Node)) (outer : Context) (part : Context × Node) : Prop :=
  ∃ inner, part.1.constructs = inner ++ outer.constructs ∧ Accounted parts part inner

namespace Enclosed

variable {parts : List (Context × Node)} {outer outer' : Context} {part : Context × Node}

theorem here (ctx : Context) (n : Node) : Enclosed parts ctx (ctx, n) := ⟨[], rfl, .nil⟩

/-- Constructs that are accounted for may count as further in. -/
theorem leave {extra : List Construct} (h : Enclosed parts outer' part)
    (same : outer'.constructs = extra ++ outer.constructs) (accounted : Accounted parts part extra) :
    Enclosed parts outer part := by
  obtain ⟨inner, constructs, each⟩ := h
  refine ⟨inner ++ extra, ?_, each.append accounted⟩
  rw [constructs, same, List.append_assoc]

theorem of_constructs (h : Enclosed parts outer' part)
    (same : outer'.constructs = outer.constructs) : Enclosed parts outer part :=
  h.leave same .nil

theorem leaveScope {scope : LexicalScope} (h : Enclosed parts (scope :: outer) part)
    (other : ∀ name methods, scope.construct ≠ .parent name methods) : Enclosed parts outer part :=
  h.leave rfl (.single other)

end Enclosed

variable {parts : List (Context × Node)}

mutual

theorem Expr.enclosed {ctx : Context} {e : Expr} (sub : e.nodes ctx ⊆ parts) :
    ∀ part ∈ e.nodes ctx, Enclosed parts ctx part := by
  cases e with
  | literal _ | variable_ _ | this _ _ | super _ _ _ => exact List.forall_mem_singleton.mpr (.here _ _)
  | group _ | unary _ _ | assign _ _ | get _ _ =>
    rw [Expr.nodes, List.cons_subset] at sub
    rw [Expr.nodes, List.forall_mem_cons]
    exact ⟨.here _ _, Expr.enclosed sub.2⟩
  | binary _ _ _ | logical _ _ _ | set _ _ _ =>
    rw [Expr.nodes, List.cons_append, List.cons_subset, List.append_subset] at sub
    rw [Expr.nodes, List.cons_append, List.forall_mem_cons, List.forall_mem_append]
    exact ⟨.here _ _, Expr.enclosed sub.2.1, Expr.enclosed sub.2.2⟩
  | call _ _ _ =>
    rw [Expr.nodes, List.cons_append, List.cons_subset, List.append_subset] at sub
    rw [Expr.nodes, List.cons_append, List.forall_mem_cons, List.forall_mem_append]
    exact ⟨.here _ _, Expr.enclosed sub.2.1, Expr.enclosedAll sub.2.2⟩
  | function _ =>
    rw [Expr.nodes, List.cons_subset] at sub
    rw [Expr.nodes, List.forall_mem_cons]
    exact ⟨.here _ _, Function.enclosed sub.2⟩

theorem Expr.enclosedAll {ctx : Context} {es : List Expr} (sub : Expr.nodesAll ctx es ⊆ parts) :
    ∀ part ∈ Expr.nodesAll ctx es, Enclosed parts ctx part := by
  cases es with
  | nil => exact List.forall_mem_nil _
  | cons _ _ =>
    rw [Expr.nodesAll, List.append_subset] at sub
    rw [Expr.nodesAll, List.forall_mem_append]
    exact ⟨Expr.enclosed sub.1, Expr.enclosedAll sub.2⟩

theorem Stmt.enclosed {ctx : Context} {s : Stmt} (sub : s.nodes ctx ⊆ parts) :
    ∀ part ∈ s.nodes ctx, Enclosed parts ctx part := by
  cases s with
  | expression _ | print _ _ =>
    rw [Stmt.nodes, List.cons_subset] at sub
    rw [Stmt.nodes, List.forall_mem_cons]
    exact ⟨.here _ _, Expr.enclosed sub.2⟩
  | var _ initial =>
    cases initial with
    | none => exact List.forall_mem_singleton.mpr (.here _ _)
    | some _ =>
      rw [Stmt.nodes, List.cons_subset] at sub
      rw [Stmt.nodes, List.forall_mem_cons]
      exact ⟨.here _ _, fun part mem =>
        (Expr.enclosed sub.2 part mem).of_constructs (Context.constructs_declare ..)⟩
  | block _ =>
    rw [Stmt.nodes, List.cons_subset] at sub
    rw [Stmt.nodes, List.forall_mem_cons]
    exact ⟨.here _ _, fun part mem => (Stmt.enclosedAll sub.2 part mem).leaveScope fun _ _ => nofun⟩
  | branch _ _ no =>
    cases no with
    | none =>
      rw [Stmt.nodes, List.cons_append, List.cons_subset, List.append_subset] at sub
      rw [Stmt.nodes, List.cons_append, List.forall_mem_cons, List.forall_mem_append]
      exact ⟨.here _ _, Expr.enclosed sub.2.1, Stmt.enclosed sub.2.2⟩
    | some _ =>
      rw [Stmt.nodes, List.cons_append, List.cons_append, List.cons_subset, List.append_subset,
        List.append_subset] at sub
      rw [Stmt.nodes, List.cons_append, List.cons_append, List.forall_mem_cons,
        List.forall_mem_append, List.forall_mem_append]
      exact ⟨.here _ _, ⟨Expr.enclosed sub.2.1.1, Stmt.enclosed sub.2.1.2⟩, Stmt.enclosed sub.2.2⟩
  | loop _ _ =>
    rw [Stmt.nodes, List.cons_append, List.cons_subset, List.append_subset] at sub
    rw [Stmt.nodes, List.cons_append, List.forall_mem_cons, List.forall_mem_append]
    exact ⟨.here _ _, Expr.enclosed sub.2.1, Stmt.enclosed sub.2.2⟩
  | function _ =>
    rw [Stmt.nodes, List.cons_subset] at sub
    rw [Stmt.nodes, List.forall_mem_cons]
    exact ⟨.here _ _, fun part mem =>
      (Function.enclosed sub.2 part mem).of_constructs (Context.constructs_after ..)⟩
  | return_ _ value =>
    cases value with
    | none => exact List.forall_mem_singleton.mpr (.here _ _)
    | some _ =>
      rw [Stmt.nodes, List.cons_subset] at sub
      rw [Stmt.nodes, List.forall_mem_cons]
      exact ⟨.here _ _, Expr.enclosed sub.2⟩
  | class_ name superclass methods =>
    rw [Stmt.nodes, List.cons_append, List.cons_subset, List.append_subset] at sub
    rw [Stmt.nodes, List.cons_append, List.forall_mem_cons, List.forall_mem_append]
    refine ⟨.here _ _, ?_, fun part mem => ?_⟩
    · rintro part mem
      obtain ⟨ref, -, rfl⟩ := List.mem_map.mp mem
      exact .here _ _
    · obtain ⟨method, declared, inside, enclosed⟩ := Function.enclosedAll sub.2.2 part mem
      cases superclass with
      | none =>
        exact (enclosed.leaveScope fun _ _ => nofun).of_constructs (Context.constructs_declare ..)
      | some superclass =>
        exact enclosed.leave (Context.constructs_inMethod ctx name methods method)
          (.method ⟨declared, ctx, superclass, sub.1, inside⟩)

theorem Stmt.enclosedAll {ctx : Context} {ss : List Stmt} (sub : Stmt.nodesAll ctx ss ⊆ parts) :
    ∀ part ∈ Stmt.nodesAll ctx ss, Enclosed parts ctx part := by
  cases ss with
  | nil => exact List.forall_mem_nil _
  | cons _ _ =>
    rw [Stmt.nodesAll, List.append_subset] at sub
    rw [Stmt.nodesAll, List.forall_mem_append]
    exact ⟨Stmt.enclosed sub.1, fun part mem =>
      (Stmt.enclosedAll sub.2 part mem).of_constructs (Context.constructs_after ..)⟩

theorem Function.enclosed {ctx : Context} {f : Function} (sub : f.nodes ctx ⊆ parts) :
    ∀ part ∈ f.nodes ctx, Enclosed parts ctx part := by
  cases f with
  | mk _ _ _ =>
    rw [Function.nodes, List.cons_subset] at sub
    rw [Function.nodes, List.forall_mem_cons]
    exact ⟨.here _ _, fun part mem => (Stmt.enclosedAll sub.2 part mem).leaveScope fun _ _ => nofun⟩

theorem Function.enclosedAll {ctx : Context} {fs : List Function}
    (sub : Function.nodesAll ctx fs ⊆ parts) : ∀ part ∈ Function.nodesAll ctx fs, ∃ f ∈ fs,
      part ∈ f.nodes (ctx.aroundMethod f) ∧ Enclosed parts (ctx.aroundMethod f) part := by
  cases fs with
  | nil => exact List.forall_mem_nil _
  | cons f rest =>
    rw [Function.nodesAll, List.append_subset] at sub
    rw [Function.nodesAll, List.forall_mem_append]
    refine ⟨fun part mem => ⟨f, List.mem_cons_self, mem, Function.enclosed sub.1 part mem⟩,
      fun part mem => ?_⟩
    obtain ⟨g, there, inside⟩ := Function.enclosedAll sub.2 part mem
    exact ⟨g, List.mem_cons_of_mem _ there, inside⟩

end

/-- **Where `super` is found, the part stands in a method of a class with a superclass**: the scope that
declares `this` is around that method, and the one that declares `super` around the methods of the
class. -/
theorem Context.FindsSuper.exists_inMethod {ctx : Context} {n : Node} {distance : Nat}
    {text : List Stmt} (h : FindsSuper ctx distance) (mem : (ctx, n) ∈ Stmt.nodesAll [] text) :
    ∃ name methods method, constructAt ctx distance = some (.self method) ∧
      constructAt ctx (distance + 1) = some (.parent name methods) ∧
      InMethod (Stmt.nodesAll [] text) (ctx, n) name methods method := by
  obtain ⟨inner, constructs, each⟩ := Stmt.enclosedAll (List.Subset.refl _) _ mem
  obtain ⟨-, -, name, methods, parent⟩ := h
  have same : ctx.constructs = inner := constructs.trans (List.append_nil inner)
  rw [constructAt_eq, same] at parent
  obtain ⟨nearer, method, found, self, inMethod⟩ := each _ _ _ parent
  cases found
  refine ⟨name, methods, method, ?_, ?_, inMethod⟩
  · rw [constructAt_eq, same, self]
  · rw [constructAt_eq, same, parent]

end Lox
