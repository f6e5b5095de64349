import Lox.Proofs.Evaluation.Discipline
import Lox.Proofs.Evaluation.Initializer
import Lox.Proofs.Evaluation.Operands
import Lox.Proofs.Heap.Reuse

/-!
# Arguments and parameters

The body of a function runs only for a call that passes as many arguments as the function has parameters,
whatever program is run and from whatever state (`Evaluation.receives_of_arises`).  A call counts its
arguments once, against what is called, and what then runs may be found by another search: a class takes as
many arguments as its initializer, but the initializer that runs is looked for again and bound to the new
object.  The two agree wherever the initializer is found (`Evaluation.Enters.arity`).

Parameters are bound one after the other in a new frame.  If their names are different, the frame binds each
of them to its argument in the end (`Evaluation.bindsParameters_of_distinct`).
-/

namespace Lox

/-! ## Where arguments come from -/

namespace Evaluation

/-- Expressions are evaluated one after the other, the first one first, on the way from one state to another,
and come to these values.  Each value is held on to while the rest is evaluated. -/
inductive LeftToRight : State → List Expr → List Value → State → Prop
  | nil (st : State) : LeftToRight st [] [] st
  | cons {st st₁ st₂ : State} {e : Expr} {rest : List Expr} {v : Value} {vs : List Value}
      (first : evaluation.Answers .value ⟨.evaluate e, st⟩ ⟨.ok v, st₁⟩)
      (others : LeftToRight (st₁.push v) rest vs st₂) : LeftToRight st (e :: rest) (v :: vs) st₂

/-- What it is that runs when a value is called in a state, and the state that it runs from. -/
inductive Enters : Value → State → Closure → State → Prop
  /-- A function runs itself.  A method has been bound to its object when it was looked up. -/
  | function (identity : Identity) (c : Closure) (st : State) :
      Enters (.function identity c) st c st.called
  /-- Of a class, the nearest initializer runs among its own and those that it inherits, bound to a new
  object. -/
  | initializer {type : Class} {method bound : Closure} {st : State} {heap : Heap}
      (found : type.findMethod? initializerName = some method)
      (binds : st.heap.newInstance.2.bindMethod method ⟨st.heap.newInstance.1, type⟩ = (bound, heap)) :
      Enters (.class_ type) st bound { st.called with heap := heap }

/-- Arguments are counted for the function that runs. -/
theorem Enters.arity {callee : Value} {st later : State} {c : Closure} (h : Enters callee st c later)
    (line : Nat) : Eval.arityOf callee line = pure c.declaration.parameters.length := by
  cases h with
  | function _ _ _ => rfl
  | @initializer type method _ _ _ found binds =>
    -- Binding a method leaves its declaration as it is.
    obtain rfl : _ = c := congrArg Prod.fst binds
    have counted : type.arity = method.arity := by rw [Class.arity, found]
    exact congrArg pure counted

/-- While a question is answered, the body of a function runs for a call in an expression, with the values
that the arguments have come to. -/
structure Receives (start : Question .program) (c : Closure) (vs : List Value) (st : State) : Prop where
  count : vs.length = c.declaration.parameters.length
  /-- Nothing is dropped when the parameters are paired with the arguments. -/
  paired : (c.declaration.parameters.zip vs).unzip = (c.declaration.parameters, vs)
  /-- What is called and the arguments are evaluated from left to right, and then the call is made. -/
  passed : ∃ callee es line before f mid last,
    evaluation.Arises start ⟨.evaluate (.call callee es line), before⟩ ∧
    evaluation.Answers .value ⟨.evaluate callee, before⟩ ⟨.ok f, mid⟩ ∧
    LeftToRight (mid.push f) es vs last ∧
    evaluation.Arises start ⟨.call f vs line, last⟩ ∧ Enters f last c st

end Evaluation

open Evaluation

/-! ## What the rules ask for -/

namespace Eval

variable {Answers : (sort : TaskSort) → Question sort → Answer sort → Prop} {st last : State}
  {given : List (Sigma Answer)} {callee f : Value} {es : List Expr} {vs ws : List Value} {line : Nat}
  {c : Closure}

theorem eq_of_pure {α : Type} {a b : α} (same : (pure a : Eval α) = pure b) (st : State) : a = b := by
  cases congrFun same st
  rfl

/-- Arguments that have been evaluated have been so from left to right. -/
theorem leftToRight_of_comes
    (comes : (Eval.arguments es st).Comes evaluation.Answers given (.ok vs, last)) :
    LeftToRight st es vs last := by
  induction es generalizing st given vs with
  | nil =>
    cases comes
    exact .nil _
  | cons e rest ih =>
    obtain ⟨v, st₁, ws, others, known, rfl, rfl, comes'⟩ := comes_arguments_cons comes
    exact .cons known (ih comes')

/-- Arguments ask for nothing but the values of expressions. -/
theorem not_waits_arguments :
    ¬(Eval.arguments es st).Waits Answers given (⟨.call f vs line, last⟩ : Question .value) := by
  induction es generalizing st given with
  | nil => nofun
  | cons e rest ih =>
    intro waits
    rcases waits_arguments_cons waits with ⟨-, same⟩ | ⟨v, st₁, others, -, -, waits⟩
    · cases same
    · exact ih waits

/-- What a call asks for is to run the body of the function that is entered. -/
theorem waits_enter
    (waits : (enter callee vs line st.called).Waits Answers given
      (⟨.invoke c ws, last⟩ : Question .value)) : ws = vs ∧ Enters callee st c last := by
  cases callee with
  | function identity closure =>
    change Plan.Waits Answers (.ask ⟨.invoke closure vs, st.called⟩ _) _ _ at waits
    cases waits with
    | here => exact ⟨rfl, .function identity _ st⟩
    | later _ rest => cases rest
  | class_ type =>
    have made : make Heap.newInstance st.called =
        .done (.ok st.heap.newInstance.1, { st.called with heap := st.heap.newInstance.2 }) := rfl
    rw [enter, instantiate, bind_of_ok made] at waits
    cases found : type.findMethod? initializerName with
    | none =>
      simp only [found] at waits
      cases waits
    | some initializer =>
      simp only [found] at waits
      change Plan.Waits Answers (.ask ⟨.invoke _ vs, _⟩ _) _ _ at waits
      cases waits with
      | here => exact ⟨rfl, .initializer found rfl⟩
      | @later _ _ _ _ _ r _ _ rest =>
        obtain ⟨result, _⟩ := r
        cases result <;> cases rest
  | native _ native =>
    cases native
    cases waits
  | _ => cases waits

end Eval

namespace Evaluation

variable {sort : TaskSort} {start : Question .program} {callee : Expr} {es : List Expr} {f : Value}
  {c : Closure} {vs ws : List Value} {line : Nat} {before st last : State} {given : List (Sigma Answer)}

/-- The rule for a call in an expression ends with what the call comes to. -/
theorem rule_call (callee : Expr) (es : List Expr) (line : Nat) :
    (Task.evaluate (.call callee es line)).rule State.collectIfDue =
      .result <$> (Eval.ask (.evaluate callee) >>= fun f =>
        Eval.holding f do Eval.ask (.call f (← Eval.arguments es) line)) := by
  rw [Eval.map_eq_bind, Eval.bind_assoc]
  rfl

/-- A task whose rule ends with the result of an action is not handed over. -/
theorem not_handedOver {task : Task sort} {action : Eval sort.Result} {q : Question sort}
    (ruled : task.rule State.collectIfDue = .result <$> action) :
    ¬(evaluation sort ⟨task, st⟩).Reaches evaluation.Answers (.done (.become q)) := by
  intro reaches
  obtain ⟨result, mid, -, same⟩ := ends_of_reaches ruled reaches
  cases same

/-- A call in an expression passes what its callee and then its arguments have come to. -/
theorem passes_of_waits {line' : Nat}
    (waits : (evaluation .value ⟨.evaluate (.call callee es line), before⟩).Waits evaluation.Answers given
      (⟨.call f vs line', last⟩ : Question .value)) :
    line' = line ∧ ∃ mid, evaluation.Answers .value ⟨.evaluate callee, before⟩ ⟨.ok f, mid⟩ ∧
      LeftToRight (mid.push f) es vs last := by
  have ruled := waits_rule waits
  change Plan.Waits evaluation.Answers (.ask ⟨.evaluate callee, before⟩ _) _ _ at ruled
  cases ruled with
  | @later _ _ _ _ _ r given known rest =>
    obtain ⟨result, mid⟩ := r
    cases result with
    | error stop => cases rest
    | ok g =>
      rcases Eval.waits_call_cases (Eval.waits_last rest fun _ => .pure _) with
        waits | ⟨vs, mid', comes, same⟩
      · exact (Eval.not_waits_arguments waits).elim
      · cases same
        exact ⟨rfl, mid, known, Eval.leftToRight_of_comes comes⟩

/-- **A call runs the body of a function only with as many arguments as it has parameters.** -/
theorem enters_of_waits
    (waits : (evaluation .value ⟨.call f vs line, last⟩).Waits evaluation.Answers given
      (⟨.invoke c ws, st⟩ : Question .value)) :
    ws = vs ∧ vs.length = c.declaration.parameters.length ∧ Enters f last c st := by
  have called : (Eval.call f vs line last).Waits evaluation.Answers given
      (⟨.invoke c ws, st⟩ : Question .value) := Eval.waits_last (waits_rule waits) fun _ => .pure _
  rcases Eval.call_fails_or_enters f vs line last with ⟨cause, fails⟩ | ⟨counted, -, entered⟩
  · rw [fails] at called
    cases called
  · rw [entered] at called
    change Plan.Waits _ (Eval.enter f vs line last.called >>= _) _ _ at called
    rcases called.of_bind with waits | ⟨_, _, _, -, waits, -⟩
    · obtain ⟨rfl, enters⟩ := Eval.waits_enter waits
      rw [enters.arity] at counted
      exact ⟨rfl, (Eval.eq_of_pure counted last).symm, enters⟩
    · cases waits

/-- The body of a function runs only for a call. -/
theorem exists_call (arises : evaluation.Arises start (⟨.invoke c vs, st⟩ : Question .value)) :
    ∃ f line last, evaluation.Arises start (⟨.call f vs line, last⟩ : Question .value) ∧
      vs.length = c.declaration.parameters.length ∧ Enters f last c st := by
  cases arises with
  | @asked _ _ q _ _ earlier reaches =>
    obtain ⟨given, waits⟩ := reaches.waits
    obtain ⟨task, last⟩ := q
    have asks : task.Asks (.invoke c vs) := (discipline_met.asked reaches).task
    cases asks with
    | function | initializer =>
      obtain ⟨-, count, enters⟩ := enters_of_waits waits
      exact ⟨_, _, last, earlier, count, enters⟩
  | @handedOver _ q _ _ reaches =>
    obtain ⟨task, last⟩ := q
    have asks : task.Asks (.invoke c vs) := (discipline_met.handedOver reaches).task
    cases asks with
    | function | initializer => exact (not_handedOver rfl reaches).elim

/-- A call is made only in an expression, once its operands have been evaluated. -/
theorem exists_passes (arises : evaluation.Arises start (⟨.call f vs line, last⟩ : Question .value)) :
    ∃ callee es before mid,
      evaluation.Arises start (⟨.evaluate (.call callee es line), before⟩ : Question .value) ∧
      evaluation.Answers .value ⟨.evaluate callee, before⟩ ⟨.ok f, mid⟩ ∧
      LeftToRight (mid.push f) es vs last := by
  cases arises with
  | @asked _ _ q _ _ earlier reaches =>
    obtain ⟨given, waits⟩ := reaches.waits
    obtain ⟨task, before⟩ := q
    have asks : task.Asks (.call f vs line) := (discipline_met.asked reaches).task
    cases asks with
    | call =>
      obtain ⟨-, mid, known, evaluated⟩ := passes_of_waits waits
      exact ⟨_, _, before, mid, earlier, known, evaluated⟩
  | @handedOver _ q _ _ reaches =>
    obtain ⟨task, before⟩ := q
    have asks : task.Asks (.call f vs line) := (discipline_met.handedOver reaches).task
    cases asks with
    | call => exact (not_handedOver (rule_call ..) reaches).elim

/-- **The body of a function runs only for a call with as many arguments as it has parameters**, whatever
program is run and from whatever state. -/
theorem receives_of_arises (arises : evaluation.Arises start (⟨.invoke c vs, st⟩ : Question .value)) :
    Receives start c vs st := by
  obtain ⟨f, line, last, called, count, enters⟩ := exists_call arises
  obtain ⟨callee, es, before, mid, arises, known, evaluated⟩ := exists_passes called
  exact ⟨count, List.unzip_zip count.symm, callee, es, line, before, f, mid, last, arises, known, evaluated,
    called, enters⟩

end Evaluation

/-! ## Frames of calls -/

/-- What is left of a call when the parameters are bound: the body runs in the frame. -/
def Eval.runBody (closure : Closure) (frame : FrameRef) : Eval Value := do
  let flow ← inFrame frame (sequence closure.declaration.body)
  if closure.isInitializer then
    return (← inspect fun st => st.heap.lookupAt closure.frame 0 thisName).getD .nil
  else
    match flow with
    | .returned value => return value
    | .normal => return .nil

theorem Eval.invoke_eq (c : Closure) (vs : List Value) : Eval.invoke c vs = (do
    let frame ← make (·.newFrame (some c.frame) (.function c.declaration))
    bindParameters frame (c.declaration.parameters.zip vs)
    runBody c frame) := rfl

/-- On a heap, a frame is made for a call of a function with these arguments.  It is in a slot that was empty,
and no other slot has changed.  It binds the names of the parameters and nothing else, each to the argument
at the position of the parameter. -/
structure Heap.Framed (before : Heap) (c : Closure) (vs : List Value) (frame : FrameRef)
    (bindings : Bindings Value) (after : Heap) : Prop where
  frames : before.frames.Allocates ⟨bindings, some c.frame, .function c.declaration⟩ frame.index
    after.frames
  instances : after.instances = before.instances
  names : bindings.names = c.declaration.parameters.map Ident.lexeme
  values : ∀ {i : Nat} {parameter : Ident} {v : Value}, c.declaration.parameters[i]? = some parameter →
    vs[i]? = some v → bindings.find? parameter.lexeme = some v

/-- When the body of a function is to run with these arguments, a frame is made that binds its parameters to
them, and then the body runs in that frame. -/
def Evaluation.BindsParameters (c : Closure) (vs : List Value) (st : State) : Prop :=
  ∃ frame bindings heap, st.heap.Framed c vs frame bindings heap ∧
    Eval.invoke c vs st = Eval.runBody c frame { st with heap := heap }

namespace Eval

/-- Parameters may be bound right after the frame is made. -/
theorem exists_bindParameters {frames : Arena Frame} {ref : FrameRef} {bindings : Bindings Value}
    {enclosing : Option FrameRef} {construct : Construct} {st : State} (pairs : List (Ident × Value))
    (made : frames.Allocates ⟨bindings, enclosing, construct⟩ ref.index st.heap.frames) :
    ∃ heap, bindParameters ref pairs st = .done (.ok (), { st with heap := heap }) ∧
      frames.Allocates ⟨(pairs.map fun pair => (pair.1.lexeme, pair.2)).foldl
        (fun bindings entry => bindings.insert entry.1 entry.2) bindings, enclosing, construct⟩ ref.index
        heap.frames ∧ heap.instances = st.heap.instances := by
  induction pairs generalizing st bindings with
  | nil => exact ⟨st.heap, rfl, made, rfl⟩
  | cons pair rest ih =>
    obtain ⟨parameter, v⟩ := pair
    have access : st.heap.frame ref = .ok ⟨bindings, enclosing, construct⟩ := by
      rw [Heap.frame, made.get?]
    let next : State := { st with heap := st.heap.bindVariable ref parameter.lexeme v }
    have made' : frames.Allocates ⟨bindings.insert parameter.lexeme v, enclosing, construct⟩ ref.index
        next.heap.frames := made.modify fun frame =>
      { frame with bindings := frame.bindings.insert parameter.lexeme v }
    obtain ⟨heap, bound, made'', instances⟩ := ih made'
    refine ⟨heap, ?_, made'', instances⟩
    rw [bindParameters, bind_of_ok (defineIn_of_ok access parameter.lexeme v)]
    exact bound

end Eval

/-- **Parameters with different names are bound each to its argument.** -/
theorem Evaluation.bindsParameters_of_distinct {c : Closure} {vs : List Value} {st : State}
    (sound : st.heap.Sound) (count : vs.length = c.declaration.parameters.length)
    (distinct : (c.declaration.parameters.map Ident.lexeme).Nodup) : BindsParameters c vs st := by
  let parameters := c.declaration.parameters
  let entries := (parameters.map Ident.lexeme).zip vs
  have paired : (parameters.zip vs).map (fun pair => (pair.1.lexeme, pair.2)) = entries :=
    (List.zip_map_left ..).symm
  have names : entries.map Prod.fst = parameters.map Ident.lexeme :=
    List.map_fst_zip (by rw [List.length_map, count])
  have nodup : (entries.map Prod.fst).Nodup := names ▸ distinct
  have bindings : Bindings.ofList entries = ⟨entries⟩ := Bindings.ofList_of_nodup nodup
  let made := st.heap.newFrame (some c.frame) (.function c.declaration)
  let entered : State := { st with heap := made.2 }
  have allocated : st.heap.frames.Allocates ⟨.empty, some c.frame, .function c.declaration⟩ made.1.index
      entered.heap.frames := sound.frames.allocates sound.cleanFrames.marksOccupied _
  obtain ⟨heap, bound, framed, instances⟩ :=
    Eval.exists_bindParameters (parameters.zip vs) allocated
  rw [paired] at framed
  change st.heap.frames.Allocates ⟨.ofList entries, _, _⟩ _ _ at framed
  rw [bindings] at framed
  refine ⟨made.1, ⟨entries⟩, heap, ⟨framed, instances, names, fun {i parameter v} there given => ?_⟩, ?_⟩
  · have mem : (parameter.lexeme, v) ∈ entries := by
      refine List.mem_of_getElem? (i := i) (List.getElem?_zip_eq_some.mpr ⟨?_, given⟩)
      rw [List.getElem?_map, there]
      rfl
    exact Bindings.find?_of_mem nodup mem
  · have frame : Eval.make (·.newFrame (some c.frame) (.function c.declaration)) st =
        .done (.ok made.1, entered) := rfl
    rw [Eval.invoke_eq, Eval.bind_of_ok frame, Eval.bind_of_ok bound]

end Lox
