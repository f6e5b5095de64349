import Lox.Proofs.Scope.Prepare
import Lox.Proofs.Scope.Violations

/-!
# The parameters of a function have different names

A parameter that has the name of an earlier one is reported when the text is resolved (`repeated`).  So in
a program that is ready to run the parameters of every function have different names
(`Session.distinct_of_prepare`).

What is reported are the faults of the text as it was parsed, place by place, and what runs are the parts of
the text as it was resolved.  In both lists there are the same functions, and their parameters have the same
names (`Stmt.parameters_nodesAll`).
-/

namespace Lox

/-- The names of its parameters, if the node is a function. -/
def Node.parameters : Node → List (List String)
  | .function decl => [decl.parameters.map Ident.lexeme]
  | _ => []

/-- If the node is a function, its parameters have different names. -/
def Node.DistinctParameters (n : Node) : Prop := ∀ names ∈ n.parameters, names.Nodup

/-! ## Faultless functions -/

/-- No parameter is reported if all of them have names of their own. -/
theorem repeated_eq_nil_iff {declared : List String} (distinct : declared.Nodup) {names : List Ident} :
    repeated declared names = [] ↔ (declared ++ names.map Ident.lexeme).Nodup := by
  induction names generalizing declared with
  | nil => simp [repeated, distinct]
  | cons name rest ih =>
    rw [repeated, List.append_eq_nil_iff, redeclared]
    by_cases before : name.lexeme ∈ declared
    · rw [if_pos (List.contains_iff_mem.mpr before)]
      refine iff_of_false (fun none => List.cons_ne_nil _ _ none.1) fun nodup => ?_
      exact (List.nodup_append.mp nodup).2.2 _ before _ List.mem_cons_self rfl
    · have longer : (declared ++ [name.lexeme]).Nodup := by
        rw [List.nodup_append]
        refine ⟨distinct, List.pairwise_singleton _ _, fun other mem _ last => ?_⟩
        rw [List.mem_singleton.mp last]
        exact fun same => before (same ▸ mem)
      rw [if_neg fun known => before (List.contains_iff_mem.mp known), ih longer, List.append_assoc]
      exact and_iff_right rfl

theorem Node.distinctParameters_of_faults {path : Path} {n : Node} (none : n.faults path = []) :
    n.DistinctParameters := by
  cases n with
  | function decl => exact List.forall_mem_singleton.mpr ((repeated_eq_nil_iff .nil).mp none)
  | _ => exact List.forall_mem_nil _

/-! ## The functions of a text -/

/-- The names of the parameters of the functions among some parts. -/
def parametersOf {α : Type} (parts : List (α × Node)) : List (List String) :=
  parts.flatMap fun part => part.2.parameters

section

variable {α : Type} {a : α} {parts : List (α × Node)}

@[simp] theorem parametersOf_append (parts parts' : List (α × Node)) :
    parametersOf (parts ++ parts') = parametersOf parts ++ parametersOf parts' :=
  List.flatMap_append

@[simp] theorem parametersOf_expr (e : Expr) :
    parametersOf ((a, .expr e) :: parts) = parametersOf parts := rfl

@[simp] theorem parametersOf_stmt (s : Stmt) :
    parametersOf ((a, .stmt s) :: parts) = parametersOf parts := rfl

@[simp] theorem parametersOf_function (decl : Function) :
    parametersOf ((a, .function decl) :: parts) =
      decl.parameters.map Ident.lexeme :: parametersOf parts := rfl

theorem parametersOf_superclass (a : α) (superclass : Option Reference) :
    parametersOf (superclass.toList.map fun ref => (a, Node.expr (.variable_ ref))) = [] := by
  cases superclass <;> rfl

theorem Ident.lexemes_relabel (m : Relabeling) (names : List Ident) :
    (names.map (·.relabel m)).map Ident.lexeme = names.map Ident.lexeme :=
  List.map_map

end

mutual

/-- The functions in an expression are those at its places. -/
theorem Expr.parameters_nodes (m : Relabeling) (e : Expr) (ctx : Context) (path : Path) :
    (parametersOf (e.nodes ctx)).Perm (parametersOf ((e.relabel m).places path)) := by
  cases e with
  | literal _ | variable_ _ | this _ _ | super _ _ _ => exact .refl _
  | group inner => exact inner.parameters_nodes m ctx path
  | unary _ operand => exact operand.parameters_nodes m ctx path
  | assign _ value => exact value.parameters_nodes m ctx path
  | get object _ => exact object.parameters_nodes m ctx path
  | binary left _ right | logical left _ right =>
    simp only [Expr.nodes, Expr.relabel, Expr.places, List.cons_append, parametersOf_expr,
      parametersOf_append]
    exact (left.parameters_nodes m ctx path).append (right.parameters_nodes m ctx path)
  | set object _ value =>
    -- The value of an assignment to a property is visited first.
    simp only [Expr.nodes, Expr.relabel, Expr.places, List.cons_append, parametersOf_expr,
      parametersOf_append]
    exact ((object.parameters_nodes m ctx path).append (value.parameters_nodes m ctx path)).trans
      List.perm_append_comm
  | call callee arguments _ =>
    simp only [Expr.nodes, Expr.relabel, Expr.places, List.cons_append, parametersOf_expr,
      parametersOf_append]
    exact (callee.parameters_nodes m ctx path).append
      (Expr.parameters_nodesAll m arguments ctx path)
  | function decl => exact decl.parameters_nodes m ctx path false

theorem Expr.parameters_nodesAll (m : Relabeling) (es : List Expr) (ctx : Context) (path : Path) :
    (parametersOf (Expr.nodesAll ctx es)).Perm
      (parametersOf (Expr.placesAll path (Expr.relabelAll m es))) := by
  cases es with
  | nil => exact .refl _
  | cons e rest =>
    simp only [Expr.nodesAll, Expr.relabelAll, Expr.placesAll, parametersOf_append]
    exact (e.parameters_nodes m ctx path).append (Expr.parameters_nodesAll m rest ctx path)

/-- The functions in a statement are those at its places. -/
theorem Stmt.parameters_nodes (m : Relabeling) (s : Stmt) (ctx : Context) (path : Path) :
    (parametersOf (s.nodes ctx)).Perm (parametersOf ((s.relabel m).places path)) := by
  cases s with
  | expression value => exact value.parameters_nodes m ctx path
  | print _ value => exact value.parameters_nodes m ctx path
  | var name initial =>
    cases initial with
    | none => exact .refl _
    | some initial => exact initial.parameters_nodes m _ _
  | block body => exact Stmt.parameters_nodesAll m body _ _
  | branch condition yes no =>
    cases no with
    | none =>
      simp only [Stmt.nodes, Stmt.relabel, Stmt.places, List.cons_append, parametersOf_stmt,
        parametersOf_append]
      exact (condition.parameters_nodes m ctx path).append (yes.parameters_nodes m ctx path)
    | some no =>
      simp only [Stmt.nodes, Stmt.relabel, Stmt.places, List.cons_append, parametersOf_stmt,
        parametersOf_append, List.append_assoc]
      exact (condition.parameters_nodes m ctx path).append
        ((yes.parameters_nodes m ctx path).append (no.parameters_nodes m ctx path))
  | loop condition body =>
    simp only [Stmt.nodes, Stmt.relabel, Stmt.places, List.cons_append, parametersOf_stmt,
      parametersOf_append]
    exact (condition.parameters_nodes m ctx path).append (body.parameters_nodes m ctx path)
  | function decl => exact decl.parameters_nodes m _ path false
  | return_ _ value =>
    cases value with
    | none => exact .refl _
    | some value => exact value.parameters_nodes m ctx path
  | class_ name superclass methods =>
    simp only [Stmt.nodes, Stmt.relabel, Stmt.places, List.cons_append, parametersOf_stmt,
      parametersOf_append, parametersOf_superclass, List.nil_append]
    exact Function.parameters_nodesAll m methods _ _

theorem Stmt.parameters_nodesAll (m : Relabeling) (ss : List Stmt) (ctx : Context) (path : Path) :
    (parametersOf (Stmt.nodesAll ctx ss)).Perm
      (parametersOf (Stmt.placesAll path (Stmt.relabelAll m ss))) := by
  cases ss with
  | nil => exact .refl _
  | cons s rest =>
    simp only [Stmt.nodesAll, Stmt.relabelAll, Stmt.placesAll, parametersOf_append]
    exact (s.parameters_nodes m ctx path).append (Stmt.parameters_nodesAll m rest _ _)

/-- The functions in a function, itself among them, are those at its places. -/
theorem Function.parameters_nodes (m : Relabeling) (f : Function) (ctx : Context) (path : Path)
    (isMethod : Bool) :
    (parametersOf (f.nodes ctx)).Perm (parametersOf ((f.relabel m).places path isMethod)) := by
  cases f with
  | mk name parameters body =>
    simp only [Function.nodes, Function.relabel, Function.places, parametersOf_function,
      Ident.lexemes_relabel]
    exact (Stmt.parameters_nodesAll m body _ _).cons _

theorem Function.parameters_nodesAll (m : Relabeling) (fs : List Function) (ctx : Context)
    (path : Path) : (parametersOf (Function.nodesAll ctx fs)).Perm
      (parametersOf (Function.placesAll path (Function.relabelAll m fs))) := by
  cases fs with
  | nil => exact .refl _
  | cons f rest =>
    simp only [Function.nodesAll, Function.relabelAll, Function.placesAll, parametersOf_append]
    exact (f.parameters_nodes m _ path true).append (Function.parameters_nodesAll m rest ctx path)

end

/-- **In a program that is ready to run the parameters of each function have different names.** -/
theorem Session.distinct_of_prepare {source : String} {program : List Stmt}
    (prepared : prepare source = .ok program) :
    ∀ part ∈ Stmt.nodesAll [] program, part.2.DistinctParameters := by
  obtain ⟨-, -, resolved⟩ := prepare_eq_ok_iff.mp prepared
  have reported := errors_resolveProgram (placed_parseProgram (scan source).tokens)
  rw [resolved] at reported
  have faultless := List.flatMap_eq_nil_iff.mp reported.symm
  intro part mem names listed
  have there := (Stmt.parameters_nodesAll .unresolved program [] []).subset
    (List.mem_flatMap.mpr ⟨part, mem, listed⟩)
  rw [relabelAll_of_prepare prepared] at there
  obtain ⟨place, inside, listed'⟩ := List.mem_flatMap.mp there
  exact Node.distinctParameters_of_faults (faultless place inside) names listed'

end Lox
