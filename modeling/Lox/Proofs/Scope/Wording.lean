import Lox.Proofs.Scope.Depths
import Lox.Proofs.Scope.Prepare

/-!
# The wording of a program

What a program is written as (`Stmt.written`) is not changed by resolution, which only finds depths, and
each part of a program is written within the whole.  So the words of a program that is ready to run are
words of its source, and in a source without `while` and `for` there is no loop
(`Session.not_isLoop_of_prepare`).
-/

namespace Lox

/-! ## Other lines and depths -/

theorem Ident.written_relabel (m : Relabeling) (names : List Ident) :
    Ident.written (names.map (·.relabel m)) = Ident.written names := by
  induction names with
  | nil => rfl
  | cons name rest ih =>
    cases rest with
    | nil => rfl
    | cons _ _ => exact congrArg (name.kind :: Kind.symbol .comma :: ·) ih

mutual

/-- Lines and depths are not written. -/
theorem Expr.written_relabel (m : Relabeling) (e : Expr) : (e.relabel m).written = e.written := by
  cases e with
  | literal _ | variable_ _ | this _ _ | super _ _ _ => rfl
  | group _ => rw [Expr.relabel, Expr.written, Expr.written_relabel, Expr.written]
  | unary _ _ | assign _ _ | get _ _ =>
    rw [Expr.relabel, Expr.written, Expr.written_relabel, Expr.written]
    rfl
  | binary _ _ _ | logical _ _ _ | set _ _ _ =>
    rw [Expr.relabel, Expr.written, Expr.written_relabel, Expr.written_relabel, Expr.written]
    rfl
  | call _ _ _ =>
    rw [Expr.relabel, Expr.written, Expr.written_relabel, Expr.writtenAll_relabel, Expr.written]
  | function _ => rw [Expr.relabel, Expr.written, Function.written_relabel, Expr.written]

theorem Expr.writtenAll_relabel (m : Relabeling) (es : List Expr) :
    Expr.writtenAll (Expr.relabelAll m es) = Expr.writtenAll es := by
  cases es with
  | nil => rfl
  | cons e rest =>
    have first := e.written_relabel m
    have others := Expr.writtenAll_relabel m rest
    -- The comma behind an expression is written if another one follows.
    cases rest with
    | nil => exact first
    | cons e' rest =>
      rw [Expr.relabelAll, Expr.writtenAll_cons _ (List.cons_ne_nil e' rest), Expr.writtenAll_cons,
        first, others]
      exact List.cons_ne_nil _ _

theorem Stmt.written_relabel (m : Relabeling) (s : Stmt) : (s.relabel m).written = s.written := by
  cases s with
  | expression _ | print _ _ => rw [Stmt.relabel, Stmt.written, Expr.written_relabel, Stmt.written]
  | var _ initial =>
    cases initial with
    | none => rfl
    | some _ =>
      rw [Stmt.relabel, Stmt.written, Expr.written_relabel, Stmt.written]
      rfl
  | block _ => rw [Stmt.relabel, Stmt.written, Stmt.writtenAll_relabel, Stmt.written]
  | branch _ _ no =>
    cases no with
    | none =>
      rw [Stmt.relabel, Stmt.written, Expr.written_relabel, Stmt.written_relabel, Stmt.written]
    | some _ =>
      rw [Stmt.relabel, Stmt.written, Expr.written_relabel, Stmt.written_relabel,
        Stmt.written_relabel, Stmt.written]
  | loop _ _ =>
    rw [Stmt.relabel, Stmt.written, Expr.written_relabel, Stmt.written_relabel, Stmt.written]
  | function _ => rw [Stmt.relabel, Stmt.written, Function.written_relabel, Stmt.written]
  | return_ _ value =>
    cases value with
    | none => rfl
    | some _ => rw [Stmt.relabel, Stmt.written, Expr.written_relabel, Stmt.written]
  | class_ _ superclass _ =>
    rw [Stmt.relabel, Stmt.written, Function.writtenAll_relabel, Stmt.written]
    cases superclass <;> rfl

theorem Stmt.writtenAll_relabel (m : Relabeling) (ss : List Stmt) :
    Stmt.writtenAll (Stmt.relabelAll m ss) = Stmt.writtenAll ss := by
  cases ss with
  | nil => rfl
  | cons _ _ =>
    rw [Stmt.relabelAll, Stmt.writtenAll, Stmt.written_relabel, Stmt.writtenAll_relabel,
      Stmt.writtenAll]

theorem Function.written_relabel (m : Relabeling) (f : Function) :
    (f.relabel m).written = f.written := by
  cases f with
  | mk name _ _ =>
    rw [Function.relabel, Function.written, Ident.written_relabel, Stmt.writtenAll_relabel,
      Function.written]
    cases name <;> rfl

theorem Function.writtenAll_relabel (m : Relabeling) (fs : List Function) :
    Function.writtenAll (Function.relabelAll m fs) = Function.writtenAll fs := by
  cases fs with
  | nil => rfl
  | cons _ _ =>
    rw [Function.relabelAll, Function.writtenAll, Function.written_relabel,
      Function.writtenAll_relabel, Function.writtenAll]

end

/-- Resolution does not change what a program is written as. -/
theorem writtenAll_resolveProgram (program : List Stmt) :
    Stmt.writtenAll (resolveProgram program).program = Stmt.writtenAll program := by
  rw [← Stmt.writtenAll_relabel .unresolved, relabelAll_resolveProgram, Stmt.writtenAll_relabel]

/-! ## Parts -/

/-- A part of a program as tokens. -/
def Node.written : Node → List Kind
  | .expr e => e.written
  | .stmt s => s.written
  | .function f => f.written

theorem Expr.written_subset_writtenAll (e : Expr) (rest : List Expr) :
    e.written ⊆ Expr.writtenAll (e :: rest) ∧ Expr.writtenAll rest ⊆ Expr.writtenAll (e :: rest) := by
  cases rest with
  | nil => exact ⟨List.Subset.refl _, List.nil_subset _⟩
  | cons e' rest =>
    rw [Expr.writtenAll_cons _ (List.cons_ne_nil e' rest)]
    refine ⟨List.subset_append_left _ _, fun kind mem => ?_⟩
    exact List.mem_append_right _ (List.mem_cons_of_mem _ mem)

/-- Parts that are written within a piece are written within the whole. -/
theorem Node.written_subset {parts : List (Context × Node)} {piece whole : List Kind}
    (inside : ∀ part ∈ parts, part.2.written ⊆ piece) (subset : piece ⊆ whole) :
    ∀ part ∈ parts, part.2.written ⊆ whole :=
  fun part mem => List.Subset.trans (inside part mem) subset

open Node

mutual

/-- The parts of an expression are written within it. -/
theorem Expr.written_nodes (e : Expr) (ctx : Context) :
    ∀ part ∈ e.nodes ctx, part.2.written ⊆ e.written := by
  cases e with
  | literal _ | variable_ _ | this _ _ | super _ _ _ =>
    rw [Expr.nodes, List.forall_mem_singleton]
    exact List.Subset.refl _
  | group inner =>
    rw [Expr.nodes, List.forall_mem_cons]
    refine ⟨List.Subset.refl _, written_subset (inner.written_nodes ctx) ?_⟩
    exact fun _ mem => by simp [Expr.written, mem]
  | unary op operand =>
    rw [Expr.nodes, List.forall_mem_cons]
    refine ⟨List.Subset.refl _, written_subset (operand.written_nodes ctx) ?_⟩
    exact fun _ mem => by simp [Expr.written, mem]
  | binary left op right =>
    rw [Expr.nodes, List.cons_append, List.forall_mem_cons, List.forall_mem_append]
    refine ⟨List.Subset.refl _, written_subset (left.written_nodes ctx) ?_,
      written_subset (right.written_nodes ctx) ?_⟩ <;>
      exact fun _ mem => by simp [Expr.written, mem]
  | logical left op right =>
    rw [Expr.nodes, List.cons_append, List.forall_mem_cons, List.forall_mem_append]
    refine ⟨List.Subset.refl _, written_subset (left.written_nodes ctx) ?_,
      written_subset (right.written_nodes ctx) ?_⟩ <;>
      exact fun _ mem => by simp [Expr.written, mem]
  | assign target value =>
    rw [Expr.nodes, List.forall_mem_cons]
    refine ⟨List.Subset.refl _, written_subset (value.written_nodes ctx) ?_⟩
    exact fun _ mem => by simp [Expr.written, mem]
  | call callee arguments line =>
    rw [Expr.nodes, List.cons_append, List.forall_mem_cons, List.forall_mem_append]
    refine ⟨List.Subset.refl _, written_subset (callee.written_nodes ctx) ?_,
      written_subset (Expr.written_nodesAll arguments ctx) ?_⟩ <;>
      exact fun _ mem => by simp [Expr.written, mem]
  | get object name =>
    rw [Expr.nodes, List.forall_mem_cons]
    refine ⟨List.Subset.refl _, written_subset (object.written_nodes ctx) ?_⟩
    exact fun _ mem => by simp [Expr.written, mem]
  | set object name value =>
    rw [Expr.nodes, List.cons_append, List.forall_mem_cons, List.forall_mem_append]
    refine ⟨List.Subset.refl _, written_subset (object.written_nodes ctx) ?_,
      written_subset (value.written_nodes ctx) ?_⟩ <;>
      exact fun _ mem => by simp [Expr.written, mem]
  | function decl =>
    rw [Expr.nodes, List.forall_mem_cons]
    refine ⟨List.Subset.refl _, written_subset (decl.written_nodes ctx) ?_⟩
    exact fun _ mem => by simp [Expr.written, mem]

theorem Expr.written_nodesAll (es : List Expr) (ctx : Context) :
    ∀ part ∈ Expr.nodesAll ctx es, part.2.written ⊆ Expr.writtenAll es := by
  cases es with
  | nil => exact List.forall_mem_nil _
  | cons e rest =>
    have here := Expr.written_subset_writtenAll e rest
    rw [Expr.nodesAll, List.forall_mem_append]
    exact ⟨written_subset (e.written_nodes ctx) here.1,
      written_subset (Expr.written_nodesAll rest ctx) here.2⟩

/-- The parts of a statement are written within it. -/
theorem Stmt.written_nodes (s : Stmt) (ctx : Context) :
    ∀ part ∈ s.nodes ctx, part.2.written ⊆ s.written := by
  cases s with
  | expression value =>
    rw [Stmt.nodes, List.forall_mem_cons]
    refine ⟨List.Subset.refl _, written_subset (value.written_nodes ctx) ?_⟩
    exact fun _ mem => by simp [mem]
  | print line value =>
    rw [Stmt.nodes, List.forall_mem_cons]
    refine ⟨List.Subset.refl _, written_subset (value.written_nodes ctx) ?_⟩
    exact fun _ mem => by simp [mem]
  | var name initial =>
    cases initial with
    | none =>
      rw [Stmt.nodes, List.forall_mem_singleton]
      exact List.Subset.refl _
    | some initial =>
      rw [Stmt.nodes, List.forall_mem_cons]
      refine ⟨List.Subset.refl _, written_subset (initial.written_nodes _) ?_⟩
      exact fun _ mem => by simp [mem]
  | block body =>
    rw [Stmt.nodes, List.forall_mem_cons]
    refine ⟨List.Subset.refl _, written_subset (Stmt.written_nodesAll body _) ?_⟩
    exact fun _ mem => by simp [mem]
  | branch condition yes no =>
    cases no with
    | none =>
      rw [Stmt.nodes, List.cons_append, List.forall_mem_cons, List.forall_mem_append]
      refine ⟨List.Subset.refl _, written_subset (condition.written_nodes ctx) ?_,
        written_subset (yes.written_nodes ctx) ?_⟩ <;>
      exact fun _ mem => by simp [mem]
    | some no =>
      rw [Stmt.nodes, List.cons_append, List.cons_append, List.forall_mem_cons,
        List.forall_mem_append, List.forall_mem_append]
      refine ⟨List.Subset.refl _, ⟨written_subset (condition.written_nodes ctx) ?_,
        written_subset (yes.written_nodes ctx) ?_⟩, written_subset (no.written_nodes ctx) ?_⟩ <;>
      exact fun _ mem => by simp [mem]
  | loop condition body =>
    rw [Stmt.nodes, List.cons_append, List.forall_mem_cons, List.forall_mem_append]
    refine ⟨List.Subset.refl _, written_subset (condition.written_nodes ctx) ?_,
      written_subset (body.written_nodes ctx) ?_⟩ <;>
      exact fun _ mem => by simp [mem]
  | function decl =>
    rw [Stmt.nodes, List.forall_mem_cons]
    refine ⟨List.Subset.refl _, written_subset (decl.written_nodes _) ?_⟩
    exact fun _ mem => by simp [mem]
  | return_ keyword value =>
    cases value with
    | none =>
      rw [Stmt.nodes, List.forall_mem_singleton]
      exact List.Subset.refl _
    | some value =>
      rw [Stmt.nodes, List.forall_mem_cons]
      refine ⟨List.Subset.refl _, written_subset (value.written_nodes ctx) ?_⟩
      exact fun _ mem => by simp [mem]
  | class_ name superclass methods =>
    rw [Stmt.nodes, List.cons_append, List.forall_mem_cons, List.forall_mem_append]
    refine ⟨List.Subset.refl _, ?_, written_subset (Function.written_nodesAll methods _) fun _ mem => by
      simp [mem]⟩
    intro part mem
    obtain ⟨ref, present, rfl⟩ := List.mem_map.mp mem
    obtain rfl := Option.mem_toList.mp present
    simp [Node.written, Expr.written, Reference.writtenParent]

theorem Stmt.written_nodesAll (ss : List Stmt) (ctx : Context) :
    ∀ part ∈ Stmt.nodesAll ctx ss, part.2.written ⊆ Stmt.writtenAll ss := by
  cases ss with
  | nil => exact List.forall_mem_nil _
  | cons s rest =>
    rw [Stmt.nodesAll, List.forall_mem_append]
    exact ⟨written_subset (s.written_nodes ctx) (List.subset_append_left _ _),
      written_subset (Stmt.written_nodesAll rest _) (List.subset_append_right _ _)⟩

/-- The parts of a function are written within it. -/
theorem Function.written_nodes (f : Function) (ctx : Context) :
    ∀ part ∈ f.nodes ctx, part.2.written ⊆ f.written := by
  cases f with
  | mk name parameters body =>
    rw [Function.nodes, List.forall_mem_cons]
    refine ⟨List.Subset.refl _, written_subset (Stmt.written_nodesAll body _) ?_⟩
    exact fun _ mem => by simp [Function.written, mem]

theorem Function.written_nodesAll (fs : List Function) (ctx : Context) :
    ∀ part ∈ Function.nodesAll ctx fs, part.2.written ⊆ Function.writtenAll fs := by
  cases fs with
  | nil => exact List.forall_mem_nil _
  | cons f rest =>
    rw [Function.nodesAll, List.forall_mem_append]
    exact ⟨written_subset (f.written_nodes _) (List.subset_append_left _ _),
      written_subset (Function.written_nodesAll rest _) (List.subset_append_right _ _)⟩

end

/-! ## Programs that are ready to run -/

/-- Is the part a loop? -/
def Node.IsLoop (n : Node) : Prop := ∃ condition body, n = .stmt (.loop condition body)

/-- The source has no `while` and no `for` in it. -/
def Loopless (source : String) : Prop :=
  ∀ t ∈ (scan source).tokens, t.isKeyword .while_ = false ∧ t.isKeyword .for_ = false
  deriving Decidable

theorem Token.isKeyword_of_kind {t : Token} {k : Keyword} (h : t.kind = .keyword k) :
    t.isKeyword k = true := by
  simp [isKeyword, h]

/-- What is parsed without an error is written in words that there were. -/
theorem written_subset_parseProgram {tokens : List Token} (clean : (parseProgram tokens).errors = [])
    (noFor : NoFor tokens) :
    Stmt.writtenAll (parseProgram tokens).statements ⊆ tokens.map Token.kind := by
  obtain ⟨taken, split, -, built⟩ := promised_parseProgram tokens
  have split : tokens = taken ++ _ := split
  unfold parseProgram at clean ⊢
  simp only at clean ⊢
  cases parsed : ((Phrase.declarations false).parse tokens).result with
  | ok statements =>
    rw [parsed] at clean
    have noFor' : NoFor taken := by
      rw [split, NoFor.append] at noFor
      exact noFor.1
    have read : Stmt.writtenAll statements = taken.map Token.kind :=
      (built statements parsed).2 clean noFor'
    rw [split, List.map_append]
    exact read ▸ List.subset_append_left _ _
  | error _ => exact List.nil_subset _

namespace Session

variable {source : String} {program : List Stmt}

/-- The words of a program that is ready to run are those of its source, where no `for` stands for
other words. -/
theorem written_subset_of_prepare (prepared : prepare source = .ok program)
    (noFor : NoFor (scan source).tokens) :
    Stmt.writtenAll program ⊆ (scan source).tokens.map Token.kind := by
  obtain ⟨-, clean, resolved⟩ := prepare_eq_ok_iff.mp prepared
  have same := writtenAll_resolveProgram (parseProgram (scan source).tokens).statements
  rw [resolved] at same
  rw [same]
  exact written_subset_parseProgram clean noFor

/-- **Where the source has no `while` and no `for`, no part of the program is a loop.** -/
theorem not_isLoop_of_prepare (prepared : prepare source = .ok program) (loopless : Loopless source) :
    ∀ part ∈ Stmt.nodesAll [] program, ¬part.2.IsLoop := by
  rintro ⟨ctx, n⟩ mem ⟨condition, body, rfl⟩
  have noFor : NoFor (scan source).tokens := by
    intro t mem same
    exact absurd (t.isKeyword_of_kind same) (Bool.eq_false_iff.mp (loopless t mem).2)
  have words := written_subset_of_prepare prepared noFor
  have first : Kind.keyword .while_ ∈ (Node.stmt (.loop condition body)).written := List.mem_cons_self
  obtain ⟨t, there, same⟩ := List.mem_map.mp (words (Stmt.written_nodesAll program [] _ mem first))
  exact absurd (t.isKeyword_of_kind same) (Bool.eq_false_iff.mp (loopless t there).1)

end Session

end Lox
