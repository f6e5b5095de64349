import Lox.Proofs.Ideal.Calls

/-!
# Rules in step with their ideals

Every rule of evaluation keeps step with its ideal (`evaluationWith_inStep`), where the ideal run
never collects garbage and the other one may do so before each statement.  The rules for expressions
and for statements are gone through one by one; each holds on to as much as it needs.
-/

namespace Lox

open Evaluation Simulation

/-- A rule and its ideal end alike: with results, or with another task and its ideal. -/
inductive Concludes : {sort : TaskSort} → Question sort → Ending sort → State → Ending sort → State →
    Prop
  | result {sort : TaskSort} {q : Question sort} {a a' : sort.Result} {st ideal : State}
      (came : Came sort q a st a' ideal) : Concludes q (.result a) st (.result a') ideal
  | task {sort : TaskSort} {q : Question sort} {task : Task sort} {st ideal : State}
      (along : Along q.state st ideal) (fits : task.Fits st.heap) (given : task.given = [])
      (holds : q.task.holds = []) :
      Concludes q (.task task) st (.task task.ideal) ideal

namespace Concludes

variable {fact : Lasting} {base st ideal : State}

theorem of_gives {e : Expr} {v v' : Value} (h : Gives base v st v' ideal) :
    Concludes ⟨.evaluate e, base⟩ (.result v) st (.result v') ideal :=
  .result ⟨h.same, h.along, h.fits, fun _ mem => by cases mem⟩

theorem of_flows {task : Task .flow} {flow flow' : Flow} (h : Flows base flow st flow' ideal) :
    Concludes ⟨task, base⟩ (.result flow) st (.result flow') ideal :=
  .result ⟨h.same, h.along, h.fits⟩

/-- A statement that does not return. -/
theorem normal {task : Task .flow} (along : Along base st ideal) :
    Concludes ⟨task, base⟩ (.result .normal) st (.result .normal) ideal :=
  of_flows ⟨rfl, along, fun v same => by cases same⟩

/-- A statement that returns a value. -/
theorem returned {task : Task .flow} {v : Value} (along : Along base st ideal)
    (fits : st.heap.Fits v) :
    Concludes ⟨task, base⟩ (.result (.returned v)) st (.result (.returned v.ideal)) ideal :=
  of_flows ⟨rfl, along, fun w same => by cases same; exact fits⟩

theorem evaluate {e inner : Expr} (along : Along base st ideal) (plain : inner.Every Node.Plain) :
    Concludes ⟨.evaluate e, base⟩ (.task (.evaluate inner)) st (.task (.evaluate inner)) ideal :=
  have fits : (Task.evaluate inner).Fits st.heap := plain
  .task along fits rfl rfl

theorem execute {s inner : Stmt} (along : Along base st ideal) (plain : inner.Every Node.Plain) :
    Concludes ⟨.perform s, base⟩ (.task (.execute inner)) st (.task (.execute inner)) ideal :=
  have fits : (Task.execute inner).Fits st.heap := plain
  .task along fits rfl rfl

theorem repeat_ {task : Task .flow} {condition : Expr} {body : Stmt} (along : Along base st ideal)
    (holds : task.holds = []) (plain : condition.Every Node.Plain)
    (plain' : body.Every Node.Plain) :
    Concludes ⟨task, base⟩ (.task (.repeat_ condition body)) st
      (.task (.repeat_ condition body)) ideal :=
  have fits : (Task.repeat_ condition body).Fits st.heap := ⟨plain, plain'⟩
  .task along fits rfl holds

end Concludes

namespace Eval.Simulates

variable {fact : Lasting} {base st ideal : State}

/-! ## Expressions -/

/-- The values of arguments are held on to. -/
theorem arguments {es : List Expr} (held : Holding base st ideal) (here : fact.holds base)
    (plain : Expr.EveryAll Node.Plain es) :
    Simulates fact (Holding base)
      (fun vs st' vs' ideal' => vs' = vs.map Value.ideal ∧ Holding base st' ideal' ∧
        (∀ v ∈ vs, st'.heap.Fits v) ∧ ∀ v ∈ vs, v ∈ st'.temporaries.toList)
      (Eval.arguments es) (Eval.arguments es) st ideal := by
  induction es generalizing base st ideal with
  | nil => exact pure ⟨rfl, held, fun v mem => (by cases mem), fun v mem => by cases mem⟩
  | cons e rest ih =>
    have here := fact.stays held.extends_.since here
    have first := evaluate held.represents.along here plain.1
    refine bind (first.mono (fun _ _ left => held.trans left.holding) fun _ _ _ _ post => post) ?_
    rintro v st₁ _ ideal₁ ⟨rfl, along, fits⟩
    have pushed := along.represents.push fits.bears
    have since : Holding base (st₁.push v) (ideal₁.push v.ideal) :=
      held.trans ⟨pushed, along.keeps.toExtends.trans (st₁.extends_push v)⟩
    have here := fact.stays (along.keeps.since.trans (st₁.extends_push v).since) here
    refine bind_of_ok rfl rfl ?_
    refine bind ((ih pushed.along.holding here plain.2).mono (fun _ _ left => since.trans left)
      fun _ _ _ _ post => post) ?_
    rintro vs st₂ _ ideal₂ ⟨rfl, held', fits', there⟩
    refine pure ⟨rfl, since.trans held', fun w mem => ?_, fun w mem => ?_⟩
    · rcases List.mem_cons.mp mem with rfl | mem
      · exact ⟨held'.bears, fits.plain⟩
      · exact fits' w mem
    · rcases List.mem_cons.mp mem with rfl | mem
      · exact held'.extends_.since.temporaries _ (by simp [State.push])
      · exact there w mem

/-- A value is held on to while an operand is evaluated. -/
theorem evaluateHolding {v : Value} {e : Expr} (along : Along base st ideal) (here : fact.holds base)
    (bears : st.heap.Bears v) (plain : e.Every Node.Plain) :
    Simulates fact (Along base)
      (fun w st' w' ideal' => Gives base w st' w' ideal' ∧ st'.heap.Bears v)
      (Eval.holding v (ask (.evaluate e))) (Eval.holding v.ideal (ask (.evaluate e)))
      st ideal :=
  have here := fact.stays (along.keeps.since.trans (st.extends_push v).since) here
  holding along bears fun start =>
    (evaluate start.represents.along here plain).mono (fun _ _ left => left.holding)
      fun _ _ _ _ post => ⟨post.same, post.along.holding, post.fits⟩

/-- What is called is held on to while arguments are evaluated, and all of them during the call. -/
theorem callHolding {callee : Value} {es : List Expr} {line : Nat} (along : Along base st ideal)
    (here : fact.holds base) (fits : st.heap.Fits callee) (plain : Expr.EveryAll Node.Plain es) :
    Simulates fact (Along base) (Gives base)
      (Eval.holding callee (do ask (.call callee (← Eval.arguments es) line)))
      (Eval.holding callee.ideal (do ask (.call callee.ideal (← Eval.arguments es) line)))
      st ideal := by
  refine (holding along fits.bears fun start => ?_).mono (fun _ _ left => left)
    fun _ _ _ _ post => post.1
  have here := fact.stays (along.keeps.since.trans (st.extends_push callee).since) here
  refine bind (arguments start here plain) ?_
  rintro vs st₁ _ ideal₁ ⟨rfl, held, given, there⟩
  have fits₁ : (Task.call callee vs line).Fits st₁.heap := ⟨⟨held.bears, fits.plain⟩, given⟩
  have there₁ : ∀ v ∈ (Task.call callee vs line).given, v ∈ st₁.temporaries.toList :=
    List.forall_mem_cons.mpr ⟨held.extends_.since.temporaries _ (by simp [State.push]), there⟩
  have here := fact.stays held.extends_.since here
  refine (askValue held.represents.along here fits₁ there₁).mono
    (fun _ _ left => held.trans left.holding) ?_
  rintro w st₂ w' ideal₂ ⟨⟨same, along, fits⟩, -, -⟩
  exact ⟨same, held.trans along.holding, fits⟩

theorem computed {line : Nat} {result : Except RuntimeError.Cause Value}
    (along : Along base st ideal) (simple : ∀ {v}, result = .ok v → v.IsSimple) :
    Simulates fact (Along base) (Gives base) (Eval.ofResult line result)
      (Eval.ofResult line (result.map Value.ideal)) st ideal :=
  ofResult along fun _ same => ⟨rfl, along, .of_isSimple _ (simple same)⟩

theorem superclass {parent : Option Reference} (along : Along base st ideal)
    (here : fact.holds base) (ne : ∀ ref ∈ parent, ref.name.lexeme ≠ thisName) :
    Simulates fact (Along base)
      (fun parent st' parent' ideal' => parent' = parent.map Class.ideal ∧ Along base st' ideal' ∧
        ∀ type ∈ parent, st'.heap.Fits (.class_ type))
      (Eval.superclass parent) (Eval.superclass parent) st ideal := by
  cases parent with
  | none => exact pure ⟨rfl, along, fun type mem => by cases mem⟩
  | some ref =>
    refine bind (evaluate along here (ne ref rfl)) ?_
    rintro v st₁ _ ideal₁ ⟨rfl, along, fits⟩
    cases v with
    | class_ type =>
      refine pure ⟨rfl, along, fun type' mem => ?_⟩
      cases mem
      exact fits
    | _ => exact fail along

theorem methodFrame {name : Ident} {methods : List Function} {parent : Option Class}
    (along : Along base st ideal) (fits : ∀ type ∈ parent, st.heap.Fits (.class_ type)) :
    Simulates fact (Along base)
      (fun ref st' ref' ideal' => ref' = ref.ideal ∧ Along base st' ideal' ∧
        st'.heap.Has (.frame ref) ∧ ∀ object, st.heap.Has object → st'.heap.Has object)
      (Eval.methodFrame name methods parent)
      (Eval.methodFrame name methods (parent.map Class.ideal)) st ideal := by
  have rep := along.represents
  have here := rep.valid.hasCurrent
  cases parent with
  | none => exact of_done rfl rfl ⟨rep.current, along, here, fun _ has => has⟩
  | some type =>
    refine bind_of_ok rfl rfl ?_
    rw [rep.current]
    refine bind (newFrame along here) ?_
    rintro ref st₁ _ ideal₁ ⟨rfl, along, -, held, -, stays⟩
    have ne : superName ≠ thisName := by decide
    refine bind (defineIn along ⟨_, held⟩ ((fits type rfl).mono stays) ne) ?_
    rintro - st₂ - ideal₂ ⟨along, -, -, stays'⟩
    exact pure ⟨rfl, along, stays' _ ⟨_, held⟩, fun o has => stays' o (stays o has)⟩

end Eval.Simulates

/-- A class with the methods that are declared in a frame. -/
theorem Heap.fits_extend {heap : Heap} {ref : FrameRef} {methods : List Function}
    {parent : Option Class} (there : heap.Has (.frame ref))
    (plain : Function.EveryAll Node.Plain methods)
    (fits : ∀ type ∈ parent, heap.Fits (.class_ type)) (identity : Identity) (name : String) :
    heap.Fits (.class_ (.extend ⟨identity, name, Eval.methodsIn ref methods⟩ parent)) := by
  refine fits_class.mpr fun c mem => ?_
  rw [Class.closures_extend] at mem
  rcases List.mem_append.mp mem with mem | mem
  · obtain ⟨entry, listed, rfl⟩ := Bindings.mem_values_ofList mem
    obtain ⟨decl, declared, rfl⟩ := List.mem_map.mp listed
    exact ⟨there, (Function.everyAll_iff methods).mp plain decl declared⟩
  · cases parent with
    | none => cases mem
    | some type => exact fits_class.mp (fits type rfl) c mem

theorem Eval.methodsIn_ideal (ref : FrameRef) (methods : List Function) :
    (methodsIn ref methods).map Closure.ideal = methodsIn ref.ideal methods := by
  rw [methodsIn, Bindings.map_ofList, List.map_map]
  rfl

namespace Eval.Simulates

variable {fact : Lasting} {base st ideal : State}

theorem declareClass {name : Ident} {parent : Option Reference} {methods : List Function}
    (along : Along base st ideal) (here : fact.holds base) (ne : name.lexeme ≠ thisName)
    (ne' : ∀ ref ∈ parent, ref.name.lexeme ≠ thisName)
    (plain : Function.EveryAll Node.Plain methods) :
    Simulates fact (Along base) (fun _ st' _ ideal' => Along base st' ideal')
      (Eval.declareClass name parent methods) (Eval.declareClass name parent methods)
      st ideal := by
  refine bind (superclass along here ne') ?_
  rintro parent st₁ _ ideal₁ ⟨rfl, along, fits⟩
  refine bind (define along (.of_isSimple _ trivial) ne) ?_
  rintro - st₂ - ideal₂ ⟨along, -, -, stays⟩
  refine bind (methodFrame along fun type mem => (fits type mem).mono stays) ?_
  rintro ref st₃ _ ideal₃ ⟨rfl, along, there, stays'⟩
  refine bind (newIdentity along) ?_
  rintro _ st₄ identity ideal₄ ⟨rfl, along, stays''⟩
  have fits' : ∀ type ∈ parent, st₄.heap.Fits (.class_ type) := fun type mem =>
    ((((fits type mem).mono stays).mono stays').mono stays'')
  have fitsClass := Heap.fits_extend (stays'' _ there) plain fits' identity name.lexeme
  have same : (Value.class_ (.extend ⟨identity, name.lexeme, methodsIn ref methods⟩ parent)).ideal =
      .class_ (.extend ⟨identity, name.lexeme, methodsIn ref.ideal methods⟩
        (parent.map Class.ideal)) := by
    rw [Value.ideal, Class.ideal_extend, ClassBody.ideal, methodsIn_ideal]
  have defined : Simulates fact (Along base) _ _ _ st₄ ideal₄ := define along fitsClass ne
  rw [same] at defined
  exact defined.mono (fun _ _ left => left) fun _ _ _ _ post => post.1

theorem expression {e : Expr} (along : Along base base ideal) (here : fact.holds base)
    (plain : e.Every Node.Plain) :
    Simulates fact (Along base) (Concludes ⟨.evaluate e, base⟩) e.rule e.rule base ideal := by
  cases e with
  | literal value =>
    exact pure (.of_gives ⟨(Value.ideal_ofLiteral value).symm, along,
      .of_isSimple _ (Value.isSimple_ofLiteral value)⟩)
  | group inner => exact pure (.evaluate along plain.2)
  | unary op operand =>
    refine bind (evaluate along here plain.2) ?_
    rintro v st _ ideal ⟨rfl, along, -⟩
    rw [op.op.apply_ideal]
    exact map (computed along UnaryOp.isSimple_apply) fun _ _ _ _ => .of_gives
  | binary left op right =>
    refine bind (evaluate along here plain.2.1) ?_
    rintro v st _ ideal ⟨rfl, along, fits⟩
    refine bind (evaluateHolding along here fits.bears plain.2.2) ?_
    rintro w st _ ideal ⟨⟨rfl, along, fits'⟩, bears⟩
    rw [op.op.apply_ideal along.represents.valid.heap.sound bears fits'.bears]
    exact map (computed along BinaryOp.isSimple_apply) fun _ _ _ _ => .of_gives
  | logical left op right =>
    refine bind (evaluate along here plain.2.1) ?_
    rintro v st _ ideal ⟨rfl, along, fits⟩
    rw [LogicalOp.isSettledBy_ideal]
    split
    · exact pure (.of_gives ⟨rfl, along, fits⟩)
    · exact pure (.evaluate along plain.2.2)
  | variable_ ref => exact map (lookUp along) fun _ _ _ _ => .of_gives
  | assign target value =>
    refine bind (evaluate along here plain.2) ?_
    rintro v st _ ideal ⟨rfl, along, fits⟩
    refine bind (assign along fits plain.1) ?_
    rintro - st - ideal ⟨along, stays⟩
    exact pure (.of_gives ⟨rfl, along, fits.mono stays⟩)
  | call callee arguments line =>
    refine bind (evaluate along here plain.2.1) ?_
    rintro v st _ ideal ⟨rfl, along, fits⟩
    exact map (callHolding along here fits plain.2.2) fun _ _ _ _ => .of_gives
  | get object name =>
    refine bind (evaluate along here plain.2) ?_
    rintro v st _ ideal ⟨rfl, along, fits⟩
    cases v with
    | instance_ object => exact map (property along fits) fun _ _ _ _ => .of_gives
    | _ => exact fail along
  | set object name value =>
    refine bind (evaluate along here plain.2.1) ?_
    rintro v st _ ideal ⟨rfl, along, fits⟩
    cases v with
    | instance_ object =>
      refine bind (evaluateHolding along here fits.bears plain.2.2) ?_
      rintro w st _ ideal ⟨⟨rfl, along, fits'⟩, bears⟩
      refine bind (setField along (bears _ List.mem_cons_self) fits') ?_
      rintro - st - ideal ⟨along, stays⟩
      exact pure (.of_gives ⟨rfl, along, fits'.mono stays⟩)
    | _ => exact fail along
  | this keyword depth => exact map (lookUp along) fun _ _ _ _ => .of_gives
  | super keyword method depth => exact map (superMethod along) fun _ _ _ _ => .of_gives
  | function decl => exact map (close along plain.2) fun _ _ _ _ => .of_gives

/-! ## Statements -/

theorem name_ne_this {decl : Function} (plain : decl.Every Node.Plain) :
    decl.name.lexeme ≠ thisName := by
  have names := (Function.Every.self plain).1
  cases named : decl.name with
  | named name => exact names name named
  | anonymous line => exact show "" ≠ thisName by decide

theorem block {body : List Stmt} (along : Along base st ideal) (here : fact.holds base)
    (plain : Stmt.EveryAll Node.Plain body) :
    Simulates fact (Along base) (Concludes ⟨.perform (.block body), base⟩) (Stmt.block body).rule
      (Stmt.block body).rule st ideal := by
  refine bind_of_ok rfl rfl ?_
  rw [along.represents.current]
  refine bind (newFrame along along.represents.valid.hasCurrent) ?_
  rintro ref st₁ _ ideal₁ ⟨rfl, along, -, held, -, -⟩
  have here := fact.stays (along.keeps.since.trans (st₁.since_inside ref)) here
  have ran := inFrame along ⟨_, held⟩ fun start => sequence start here plain
  exact map ran fun _ _ _ _ post => .of_flows post.1

theorem statement {s : Stmt} (along : Along base base ideal) (here : fact.holds base)
    (plain : s.Every Node.Plain) :
    Simulates fact (Along base) (Concludes ⟨.perform s, base⟩) s.rule s.rule base ideal := by
  cases s with
  | expression value =>
    refine bind (evaluate along here plain.2) ?_
    rintro v st _ ideal ⟨rfl, along, -⟩
    exact pure (.normal along)
  | print line value =>
    refine bind (evaluate along here plain.2) ?_
    rintro v st _ ideal ⟨rfl, along, -⟩
    rw [Value.text_ideal]
    exact bind (print along) fun _ _ _ _ along => pure (.normal along)
  | var name initial =>
    cases initial with
    | none =>
      have simple : (Value.nil).IsSimple := trivial
      exact bind (define along (.of_isSimple _ simple) plain) fun _ _ _ _ post => pure (.normal post.1)
    | some initial =>
      refine bind (evaluate along here plain.2) ?_
      rintro v st _ ideal ⟨rfl, along, fits⟩
      exact bind (define along fits plain.1) fun _ _ _ _ post => pure (.normal post.1)
  | block body => exact block along here plain.2
  | branch condition yes no =>
    cases no with
    | none =>
      refine bind (evaluate along here plain.2.1) ?_
      rintro v st _ ideal ⟨rfl, along, -⟩
      rw [Value.isTruthy_ideal]
      split
      · exact pure (.execute along plain.2.2)
      · exact pure (.normal along)
    | some no =>
      refine bind (evaluate along here plain.2.1) ?_
      rintro v st _ ideal ⟨rfl, along, -⟩
      rw [Value.isTruthy_ideal]
      split
      · exact pure (.execute along plain.2.2.1)
      · exact pure (.execute along plain.2.2.2)
  | loop condition body =>
    exact pure (.repeat_ along rfl plain.2.1 plain.2.2)
  | function decl =>
    refine bind (close along plain.2) ?_
    rintro v st _ ideal ⟨rfl, along, fits⟩
    exact bind (define along fits (name_ne_this plain.2)) fun _ _ _ _ post =>
      pure (.normal post.1)
  | return_ keyword value =>
    cases value with
    | none => exact pure (.returned along (.of_isSimple _ trivial))
    | some value =>
      refine bind (evaluate along here plain.2) ?_
      rintro v st _ ideal ⟨rfl, along, fits⟩
      exact pure (.returned along fits)
  | class_ name parent methods =>
    exact bind (declareClass along here plain.1.1 plain.1.2 plain.2) fun _ _ _ _ along =>
      pure (.normal along)

/-! ## Tasks -/

theorem program {statements : List Stmt} (along : Along base st ideal) (here : fact.holds base)
    (plain : Stmt.EveryAll Node.Plain statements) :
    Simulates fact (Along base) (fun _ st' _ ideal' => Along base st' ideal')
      (Eval.program statements) (Eval.program statements) st ideal := by
  induction statements generalizing st ideal with
  | nil => exact pure along
  | cons s rest ih =>
    exact bind (execute along here plain.1) fun _ _ _ _ flows => ih flows.along plain.2

theorem resetting {action action' : Eval Unit}
    (h : Simulates fact (Along base) (fun _ st' _ ideal' => Along base st' ideal') action action'
      st ideal) :
    Simulates fact (fun st' ideal' => st'.Represents ideal' ∧ st'.globals = base.globals)
      (fun _ st' _ ideal' => Along base st' ideal')
      (Eval.resetting action) (Eval.resetting action') st ideal := by
  refine Plan.InStep.bind h fun o o' ends => ?_
  cases ends with
  | ok along => exact .done (.ok along)
  | error left => exact .done (.error ⟨left.represents.reset, left.keeps.globals⟩)

theorem repeat_ {condition : Expr} {body : Stmt} (along : Along base base ideal)
    (here : fact.holds base) (plain : condition.Every Node.Plain)
    (plain' : body.Every Node.Plain) (tidy : State → State) :
    Simulates fact (Along base) (Concludes ⟨.repeat_ condition body, base⟩)
      ((Task.repeat_ condition body).rule tidy) ((Task.repeat_ condition body).rule id)
      base ideal := by
  refine bind (evaluate along here plain) ?_
  rintro v st _ ideal ⟨rfl, along, -⟩
  rw [Value.isTruthy_ideal]
  split
  · refine bind (execute along here plain') ?_
    rintro flow st _ ideal ⟨rfl, along, fits⟩
    cases flow with
    | normal => exact pure (.repeat_ along rfl plain plain')
    | returned v => exact pure (.returned along (fits v rfl))
  · exact pure (.normal along)

variable {tidy : State → State}

/-- **The rule for a task keeps step with its ideal**, where the ideal of what takes place before each
statement is nothing at all. -/
theorem rule (tidies : ∀ {base st ideal : State}, Along base st ideal → Along base (tidy st) ideal)
    {sort : TaskSort} {q q' : Evaluation.Question sort} (asked : Asked fact sort q q') :
    Simulates fact (Stopped sort q) (Concludes q) (q.task.rule tidy) (q'.task.rule id) q.state
      q'.state := by
  obtain ⟨task, base⟩ := q
  obtain ⟨task', ideal⟩ := q'
  obtain ⟨rfl, represents, fits, held, here⟩ := asked
  have along := represents.along
  cases task with
  | evaluate e => exact expression along here fits
  | call callee arguments line =>
    have held := (List.forall_mem_cons.mp held).2
    refine map (call along here fits.1 fits.2 held) fun v st v' ideal post => .result ?_
    exact ⟨post.same, post.along, post.fits, fun _ mem => by cases mem⟩
  | invoke closure arguments =>
    have inside {ref : FrameRef} {st' : State} (keeps : base.Keeps st') :
        fact.holds (st'.inside ref) :=
      fact.stays (keeps.since.trans (st'.since_inside ref)) here
    refine map (invoke along (fun keeps _ _ => inside keeps) fits.1 fits.2) fun v st v' ideal post => .result ?_
    refine ⟨post.1.same, post.1.along, post.1.fits, fun object mem => ?_⟩
    rw [List.mem_singleton.mp mem]
    exact post.2
  | execute s =>
    have fits : (Task.perform s).Fits (tidy base).heap := fits
    exact bind_of_ok rfl rfl (pure (.task (tidies along) fits rfl rfl))
  | perform s => exact statement along here fits
  | repeat_ condition body => exact repeat_ along here fits.1 fits.2 tidy
  | run statements =>
    refine map (resetting (program along here fits)) fun _ st _ ideal since => ?_
    exact .result (show Came .program ⟨.run statements, base⟩ () st () ideal from since)

end Eval.Simulates

/-! ## The procedure -/

theorem Simulation.Answered.of_handedOver {sort : TaskSort} {q q₁ q' q₁' : Question sort}
    {r r' : Answer sort} (along : Along q.state q₁.state q₁'.state) (holds : q.task.holds = [])
    (answered : Answered sort q₁ q₁' r r') : Answered sort q q' r r' := by
  cases sort with
  | value =>
    refine Ends.mono answered (fun _ _ left => along.trans left) ?_
    rintro v st v' ideal ⟨same, since, fits, -⟩
    refine ⟨same, along.trans since, fits, fun object mem => ?_⟩
    rw [holds] at mem
    cases mem
  | flow =>
    refine Ends.mono answered (fun _ _ left => along.trans left) ?_
    rintro flow st flow' ideal ⟨same, since, fits⟩
    exact ⟨same, along.trans since, fits⟩
  | program =>
    refine Ends.mono answered ?_ fun _ _ _ _ since => along.trans since
    rintro st ideal ⟨represents, globals⟩
    exact ⟨represents, globals.trans along.keeps.globals⟩

/-- **Evaluation keeps step with evaluation that never collects garbage.** -/
theorem evaluationWith_inStep {tidy : State → State}
    (tidies : ∀ {base st ideal : State}, Along base st ideal → Along base (tidy st) ideal)
    (fact : Lasting) (sort : TaskSort) (q q' : Question sort) (asked : Asked fact sort q q') :
    (evaluationWith tidy sort q).InStep (Asked fact) Answered
      (Rules.SettlesInStep (Asked fact) Answered q q') (evaluationWith id sort q') := by
  refine Plan.InStep.bind (Eval.Simulates.rule tidies asked) fun o o' ends => ?_
  cases ends with
  | ok post =>
    cases post with
    | result came => exact .done (.answer (.ok came))
    | task along fits given holds =>
      have here := fact.stays along.keeps.since asked.here
      refine .done (.become ⟨rfl, along.represents, fits, fun v mem => ?_, here⟩ fun _ _ =>
        .of_handedOver along holds)
      rw [given] at mem
      cases mem
  | error left => exact .done (.answer (.error left))

end Lox
