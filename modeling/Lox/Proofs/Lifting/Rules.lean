import Lox.Proofs.Lifting.Calls
import Lox.Proofs.Variation.Rules

/-!
# Rules in step, with additional frames

Every rule of evaluation keeps step with itself, for tasks that are lifted over the gap of the current
frames (`Lifting.evaluation_inStep`).  The rules for expressions and for statements are gone through one
by one.
-/

namespace Lox

open Evaluation Lifting

/-! ## Operators -/

section Operators

variable {w : Pairing} {a a' b b' : Value}

theorem Value.Lifts.of_isSimple (h : a.IsSimple) : a.Lifts w a := by
  cases a with
  | nil => exact .nil
  | boolean b => exact .boolean b
  | number x => exact .number x
  | string s => exact .string s
  | _ => exact h.elim

theorem UnaryOp.apply_lifts (op : UnaryOp) (h : a.Lifts w a') : op.apply a' = op.apply a := by
  cases op with
  | not => rw [UnaryOp.apply, UnaryOp.apply, h.isTruthy]
  | negate => cases h <;> rfl

theorem Value.add_lifts (h : a.Lifts w a') (h' : b.Lifts w b') : a'.add b' = a.add b := by
  have text := h.text
  have text' := h'.text
  cases h with
  | string s => cases h' <;> simp only [Value.add, text']
  | _ => cases h' <;> simp only [Value.add, text]

theorem BinaryOp.apply_lifts (op : BinaryOp) (h : a.Lifts w a') (h' : b.Lifts w b') :
    op.apply a' b' = op.apply a b := by
  cases op with
  | equal | notEqual => simp only [BinaryOp.apply, h.isEqual h']
  | add => exact Value.add_lifts h h'
  | _ =>
    cases h with
    | number x => cases h' <;> rfl
    | _ => rfl

theorem LogicalOp.isSettledBy_lifts (op : LogicalOp) (h : a.Lifts w a') :
    op.isSettledBy a' = op.isSettledBy a := by
  cases op <;> simp only [LogicalOp.isSettledBy, h.isTruthy]

end Operators

/-- The methods of a class that is declared in both runs. -/
theorem Eval.methodsIn_lift {w : Pairing} {gap : Gap} {ref ref' : FrameRef}
    {methods methods' : List Function} (there : w.At gap ref ref')
    (all : Function.AllLift gap.deeper methods methods') (name : String) :
    Option.Rel (Closure.LiftsUnbound w) ((methodsIn ref methods).find? name)
      ((methodsIn ref' methods').find? name) := by
  refine Bindings.find?_ofList_rel ?_ name
  induction methods generalizing methods' with
  | nil =>
    cases all
    exact .nil
  | cons f rest ih =>
    cases all with
    | cons first all =>
      refine .cons ⟨congrArg FunctionName.lexeme first.name_eq, ?_, first.namedInit_eq⟩ (ih all)
      exact ⟨gap, there, first, fun _ => Gap.deeper_ne_here⟩

/-- Two rules end alike: with what the task comes to, or with tasks that take its place. -/
inductive Ending.Lifts {sort : TaskSort} (current current' : FrameRef) (w : Pairing) :
    Ending sort → Ending sort → Prop
  | result {a a' : sort.Result} (came : Came w a a') :
      Ending.Lifts current current' w (.result a) (.result a')
  | task {next next' : Task sort} (lifts : next.Lifts w current current' next') :
      Ending.Lifts current current' w (.task next) (.task next')

namespace Eval.Lifts

variable {w : Pairing} {st st' : State} {gap : Gap}

/-! ## Expressions -/

/-- What is computed from values of the same kind is the same. -/
theorem computed (lifts : st.Lifts w st') (line : Nat)
    {result result' : Except RuntimeError.Cause Value} (same : result' = result)
    (simple : ∀ {a}, result = .ok a → a.IsSimple) :
    Eval.Lifts w Value.Lifts (Eval.ofResult line result) (Eval.ofResult line result') st st' := by
  subst same
  cases result' with
  | ok a => exact pure lifts (.of_isSimple (simple rfl))
  | error cause => exact fail lifts line cause

theorem expression {e e' : Expr} (lifts : st.Lifts w st') (here : w.At gap st.current st'.current)
    (same : e.Lifts gap e') :
    Eval.Lifts w (Ending.Lifts st.current st'.current) e.rule e'.rule st st' := by
  have result (w : Pairing) (a a' : Value) (related : a.Lifts w a') :
      Ending.Lifts st.current st'.current w (.result a : Ending .value) (.result a') :=
    .result related
  cases same with
  | literal value => exact pure lifts (result _ _ _ (.of_isSimple (Value.isSimple_ofLiteral value)))
  | group inner => exact pure lifts (.task (.evaluate here inner))
  | @unary _ op _ _ operand =>
    refine bind (evaluate lifts here operand) fun abreast same => ?_
    exact map (computed abreast.lifts op.line (op.op.apply_lifts same) UnaryOp.isSimple_apply) result
  | @binary _ _ _ op _ _ left right =>
    refine bind (evaluate lifts here left) fun abreast same => ?_
    refine bind (holding (evaluate (abreast.lifts.push _ _) (abreast.here here) right)) ?_
    intro _ _ _ _ _ abreast' same'
    exact map (computed abreast'.lifts op.line (op.op.apply_lifts (same.mono abreast'.grows) same')
      BinaryOp.isSimple_apply) result
  | @logical _ _ _ op _ _ left right =>
    refine bind (evaluate lifts here left) fun abreast same => ?_
    rw [op.op.isSettledBy_lifts same]
    split
    · exact pure abreast.lifts (result _ _ _ same)
    · exact pure abreast.lifts (.task (.evaluate (abreast.grows.at here) right))
  | variable_ ref => exact map (lookUp lifts here ref.name.lexeme ref.name.line ref.depth) result
  | assign target value =>
    refine bind (evaluate lifts here value) fun abreast same => ?_
    refine bind (assign abreast.lifts (abreast.here here) target same) fun abreast' _ => ?_
    exact pure abreast'.lifts (result _ _ _ (same.mono abreast'.grows))
  | @call _ _ _ _ _ line callee all =>
    refine bind (evaluate lifts here callee) fun {w₁ st₁ st₁' a a'} abreast same => ?_
    have called : Eval.Lifts w₁ Value.Lifts
        (Eval.arguments _ >>= fun values => Eval.ask (.call a values line))
        (Eval.arguments _ >>= fun values => Eval.ask (.call a' values line))
        (st₁.push a) (st₁'.push a') :=
      bind (arguments (abreast.lifts.push a a') (abreast.here here) all) fun abreast' values =>
        ask abreast'.lifts (.call line (same.mono abreast'.grows) values)
    exact map (holding called) result
  | @get _ _ _ name object =>
    refine bind (evaluate lifts here object) fun abreast same => ?_
    cases same with
    | instance_ known same => exact map (property abreast.lifts known same name) result
    | _ => exact fail abreast.lifts _ _
  | @set _ _ _ name _ _ object value =>
    refine bind (evaluate lifts here object) fun abreast same => ?_
    cases same with
    | instance_ known same =>
      refine bind (holding (evaluate (abreast.lifts.push _ _) (abreast.here here) value)) ?_
      intro _ _ _ _ _ abreast' same'
      refine bind (setField abreast'.lifts (abreast'.grows.fields known) name.lexeme same') ?_
      intro _ _ _ _ _ abreast'' _
      exact pure abreast''.lifts (result _ _ _ (same'.mono abreast''.grows))
    | _ => exact fail abreast.lifts _ _
  | this keyword depth => exact map (lookUp lifts here keyword.lexeme keyword.line depth) result
  | super keyword method around => exact map (superMethod lifts here keyword.line method around) result
  | function decl => exact map (close lifts here decl) result

/-! ## Statements -/

/-- A class is declared, with methods that refer to the frame that is made for them. -/
theorem defineClass {gap' : Gap} {name : Ident} {frame frame' : FrameRef}
    {methods methods' : List Function} {parent parent' : Option Class} (lifts : st.Lifts w st')
    (here : w.At gap st.current st'.current) (inside : gap ≠ .here) (there : w.At gap' frame frame')
    (all : Function.AllLift gap'.deeper methods methods')
    (parents : Option.Rel (Class.Lifts w) parent parent') :
    Eval.Lifts w (fun _ _ _ => True)
      (make Heap.newIdentity >>= fun identity => Eval.define name.lexeme
        (.class_ (.extend ⟨identity, name.lexeme, methodsIn frame methods⟩ parent)))
      (make Heap.newIdentity >>= fun identity => Eval.define name.lexeme
        (.class_ (.extend ⟨identity, name.lexeme, methodsIn frame' methods'⟩ parent'))) st st' := by
  refine bind (newIdentity lifts) ?_
  rintro w₁ st₁ st₁' _ identity abreast rfl
  have body : ClassBody.Lifts w₁ ⟨identity, name.lexeme, methodsIn frame methods⟩
      ⟨identity, name.lexeme, methodsIn frame' methods'⟩ :=
    ⟨rfl, rfl, methodsIn_lift (abreast.grows.at there) all⟩
  have parents := optionRel_mono (fun _ _ same => Class.Lifts.mono abreast.grows same) parents
  exact define abreast.lifts (abreast.here here) inside name.lexeme
    (.class_ (Class.Lifts.extend body parents))

theorem declareClass {name : Ident} {methods methods' : List Function} (lifts : st.Lifts w st')
    (here : w.At gap st.current st'.current) (inside : gap ≠ .here)
    (all : Function.AllLift gap.deeper methods methods') :
    Eval.Lifts w (fun _ _ _ => True) (Eval.declareClass name none methods)
      (Eval.declareClass name none methods') st st' := by
  refine bind_of_ok rfl rfl lifts.abreast ?_
  refine bind (define lifts here inside name.lexeme .nil) fun abreast _ => ?_
  have here := abreast.here here
  exact bind_of_ok rfl rfl abreast.lifts.abreast
    (defineClass abreast.lifts here inside here all .none)

theorem declareSubclass {name : Ident} {ref : Reference} {methods methods' : List Function}
    (lifts : st.Lifts w st') (here : w.At gap st.current st'.current) (inside : gap ≠ .here)
    (all : Function.AllLift gap.deeper.deeper methods methods') :
    Eval.Lifts w (fun _ _ _ => True) (Eval.declareClass name (some ref) methods)
      (Eval.declareClass name (some (ref.lift gap)) methods') st st' := by
  have extended : Eval.Lifts w
      (fun w parent parent' => ∃ c c', parent = some c ∧ parent' = some c' ∧ c.Lifts w c')
      (Eval.superclass (some ref)) (Eval.superclass (some (ref.lift gap))) st st' := by
    refine bind (evaluate lifts here (.variable_ ref)) fun abreast same => ?_
    cases same with
    | class_ same => exact pure abreast.lifts ⟨_, _, rfl, rfl, same⟩
    | _ => exact fail abreast.lifts _ _
  refine bind extended ?_
  rintro _ _ _ _ _ abreast₁ ⟨parent, parent', rfl, rfl, same⟩
  refine bind (define abreast₁.lifts (abreast₁.here here) inside name.lexeme .nil) ?_
  intro w₂ st₂ st₂' _ _ abreast₂ _
  have abreast := abreast₁.trans abreast₂
  have same := same.mono abreast₂.grows
  -- The frame around the methods binds `super`.
  have framed : Eval.Lifts w₂ (fun w frame frame' => w.At gap.deeper frame frame')
      (Eval.methodFrame name methods (some parent)) (Eval.methodFrame name methods' (some parent'))
      st₂ st₂' := by
    refine bind_of_ok rfl rfl abreast₂.lifts.abreast ?_
    refine bind (newFrame abreast₂.lifts (abreast.here here) _ _) fun abreast made => ?_
    refine bind (defineIn abreast.lifts ⟨_, Gap.deeper_ne_here, made⟩ superName
      (.class_ (same.mono abreast.grows))) fun abreast' _ => ?_
    exact pure abreast'.lifts (abreast'.grows.at made)
  refine bind framed fun abreast₃ there => ?_
  exact defineClass abreast₃.lifts (abreast₃.here (abreast.here here)) inside there all
    (.some (same.mono abreast₃.grows))

theorem statement {s s' : Stmt} (lifts : st.Lifts w st') (here : w.At gap st.current st'.current)
    (same : s.Lifts gap s') :
    Eval.Lifts w (Ending.Lifts st.current st'.current) s.rule s'.rule st st' := by
  have flow (w : Pairing) (flow flow' : Flow) (same : flow.Lifts w flow') :
      Ending.Lifts st.current st'.current w (.result flow : Ending .flow) (.result flow') :=
    .result same
  cases same with
  | expression value =>
    exact bind (evaluate lifts here value) fun abreast _ => pure abreast.lifts (flow _ _ _ .normal)
  | @print _ line _ _ value =>
    refine bind (evaluate lifts here value) fun abreast same => ?_
    rw [same.text]
    exact bind (print abreast.lifts line _) fun abreast' _ =>
      pure abreast'.lifts (flow _ _ _ .normal)
  | var name inside =>
    exact bind (define lifts here inside name.lexeme .nil) fun abreast _ =>
      pure abreast.lifts (flow _ _ _ .normal)
  | initialized name inside value =>
    refine bind (evaluate lifts here value) fun abreast same => ?_
    exact bind (define abreast.lifts (abreast.here here) inside name.lexeme same) fun abreast' _ =>
      pure abreast'.lifts (flow _ _ _ .normal)
  | block all =>
    refine bind_of_ok rfl rfl lifts.abreast ?_
    refine bind (newFrame lifts here _ _) fun abreast made => ?_
    exact map (inFrame (sequence (abreast.lifts.inside _ _) made all)) flow
  | branch condition yes =>
    refine bind (evaluate lifts here condition) fun abreast same => ?_
    rw [same.isTruthy]
    split
    · exact pure abreast.lifts (.task (.execute (abreast.grows.at here) yes))
    · exact pure abreast.lifts (flow _ _ _ .normal)
  | choice condition yes no =>
    refine bind (evaluate lifts here condition) fun abreast same => ?_
    rw [same.isTruthy]
    split
    · exact pure abreast.lifts (.task (.execute (abreast.grows.at here) yes))
    · exact pure abreast.lifts (.task (.execute (abreast.grows.at here) no))
  | loop condition body => exact pure lifts (.task (.repeat_ here condition body))
  | @function _ decl _ inside same =>
    refine bind (close lifts here same) fun abreast made => ?_
    rw [same.name_eq]
    exact bind (define abreast.lifts (abreast.here here) inside decl.name.lexeme made)
      fun abreast' _ => pure abreast'.lifts (flow _ _ _ .normal)
  | return_ keyword => exact pure lifts (flow _ _ _ (.returned .nil))
  | returned keyword value =>
    exact bind (evaluate lifts here value) fun abreast same =>
      pure abreast.lifts (flow _ _ _ (.returned same))
  | class_ name inside all =>
    exact bind (declareClass lifts here inside all) fun abreast _ =>
      pure abreast.lifts (flow _ _ _ .normal)
  | subclass name ref inside all =>
    exact bind (declareSubclass lifts here inside all) fun abreast _ =>
      pure abreast.lifts (flow _ _ _ .normal)

/-! ## Tasks -/

theorem repeat_ {condition condition' : Expr} {body body' : Stmt} (lifts : st.Lifts w st')
    (here : w.At gap st.current st'.current) (same : condition.Lifts gap condition')
    (same' : body.Lifts gap body') :
    Eval.Lifts w (Ending.Lifts st.current st'.current) ((Task.repeat_ condition body).rule id)
      ((Task.repeat_ condition' body').rule id) st st' := by
  refine bind (evaluate lifts here same) fun abreast value => ?_
  rw [value.isTruthy]
  split
  · refine bind (execute abreast.lifts (abreast.here here) same') fun abreast' ended => ?_
    cases ended with
    | normal =>
      exact pure abreast'.lifts
        (.task (.repeat_ ((abreast.trans abreast').grows.at here) same same'))
    | returned value => exact pure abreast'.lifts (.result (Flow.Lifts.returned value))
  · exact pure abreast.lifts (.result Flow.Lifts.normal)

/-- **The rule for a task keeps step with that for a task that is lifted.** -/
theorem rule {sort : TaskSort} {task task' : Task sort} (lifts : st.Lifts w st')
    (same : task.Lifts w st.current st'.current task') :
    Eval.Lifts w (Ending.Lifts st.current st'.current) (task.rule id) (task'.rule id) st st' := by
  cases same with
  | evaluate here same => exact expression lifts here same
  | call line same all => exact map (call lifts line same all) fun _ _ _ same => .result same
  | invoke same all => exact map (invoke lifts same all) fun _ _ _ same => .result same
  | execute here same =>
    exact bind_of_ok rfl rfl lifts.abreast (pure lifts (.task (.perform here same)))
  | perform here same => exact statement lifts here same
  | repeat_ here same same' => exact repeat_ lifts here same same'

end Eval.Lifts

/-! ## The procedure -/

/-- **Evaluation keeps step with evaluation in additional scopes**, in runs that never collect
garbage. -/
theorem Lifting.evaluation_inStep (sort : TaskSort) (q q' : Question sort)
    (asked : Lifting.Asked sort q q') :
    (evaluationWith id sort q).InStep Lifting.Asked Lifting.Answered
      (Rules.SettlesInStep Lifting.Asked Lifting.Answered q q') (evaluationWith id sort q') := by
  refine Rules.keeps_of_each (fun w sort q q' asked => ?_) sort q q' asked
  refine Plan.InStep.bind (Eval.Lifts.rule asked.states asked.tasks) fun o o' ends => ?_
  cases ends with
  | @ok w₁ st st' _ _ abreast post =>
    cases post with
    | result came => exact .done (.answer (.ok abreast came))
    | @task next next' lifts =>
      rw [← abreast.current, ← abreast.current'] at lifts
      have asked : Lifting.AskedAt w₁ sort ⟨next, st⟩ ⟨next', st'⟩ := ⟨abreast.lifts, lifts⟩
      exact .done (.become ⟨w₁, asked⟩ fun r r' answered => (answered w₁ asked).after abreast)
  | error abreast => exact .done (.answer (.error abreast))

end Lox
