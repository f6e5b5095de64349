import Lox.Proofs.Evaluation.ForLoop
import Lox.Proofs.Lifting.Rules

/-!
# A `for` loop with additional frames

What the parser builds for a loop with an increment executes the body in a block, and that block makes
an additional frame at each turn.  The body and the increment are lifted over that scope
(`ForLoop.Lifts`).  In runs that never collect garbage, the loop runs as it does without these frames
(`ForLoop.runs_lift`).
-/

namespace Lox

open Evaluation Lifting

/-! ## Turns that match -/

namespace Eval.Matches

theorem takeTurn {rules : Rules Question Answer} {test test' : Eval Bool} {pass pass' : Eval Flow}
    (h : test.Matches rules test') (h' : pass.Matches rules pass') :
    (ForLoop.takeTurn test pass).Matches rules (ForLoop.takeTurn test' pass') := by
  refine .bind h fun holds => ?_
  split
  · exact .bind h' fun _ => .refl _
  · exact .refl _

end Eval.Matches

namespace ForLoop

variable {loop loop' : ForLoop}

/-- The condition that is put in the place of an absent one holds. -/
theorem matches_test (loop : ForLoop) :
    loop.plain.test.Matches (evaluationWith id) loop.test := by
  cases condition : loop.condition with
  | some e =>
    rw [test, test, condition, plain, condition]
    exact .refl _
  | none =>
    rw [test, test, condition, plain, condition]
    exact .bind (.ask (.evaluate (.literal (.boolean true)))) fun _ => .refl _

/-- Without an increment, to pass is to execute the body. -/
theorem pass_of_none (none : loop.increment = none) : loop.pass = Eval.ask (.execute loop.body) := by
  have pure : loop.pass = Eval.ask (.execute loop.body) >>= Pure.pure := by
    rw [pass, step, none]
    refine congrArg (Eval.ask (.execute loop.body) >>= ·) (funext fun flow => ?_)
    cases flow <;> rfl
  rw [pure, Eval.bind_pure]

/-- The block that the parser makes for each turn. -/
def round (loop : ForLoop) (increment : Expr) : Construct := .block [loop.body, .expression increment]

theorem matches_pass {increment : Expr} (some : loop.increment = some increment) :
    loop.plain.pass.Matches (evaluationWith id) (Eval.inBlock (loop.round increment) loop.pass) := by
  have body : loop.plain.body = .block [loop.body, .expression increment] := by rw [plain, some]
  rw [pass_of_none rfl, body]
  refine (Eval.Matches.execute_block _).trans (.inBlock _ (.bind (.refl _) fun flow => ?_))
  cases flow with
  | returned _ => exact .refl _
  | normal =>
    rw [step, some]
    refine .trans (.bind (.execute_expression increment) fun _ => .refl _) ?_
    change Eval.Matches _ (_ >>= _) ((Eval.ask (.evaluate increment) >>= _) >>= _)
    rw [Eval.bind_assoc, Eval.bind_assoc]
    exact .refl _

end ForLoop

/-! ## Turns that are lifted -/

namespace ForLoop

/-- The second loop is the first one, with its body and its increment lifted over the scope of the block
that the parser makes for each turn.  If there is no increment, there is no such block. -/
inductive Lifts : ForLoop → ForLoop → Prop
  | same (initial : Option Stmt) (condition : Option Expr) (body : Stmt) :
      Lifts ⟨initial, condition, none, body⟩ ⟨initial, condition, none, body⟩
  | within (initial : Option Stmt) (condition : Option Expr) {increment increment' : Expr}
      {body body' : Stmt} (lifts : increment.Lifts .here increment') (lifts' : body.Lifts .here body') :
      Lifts ⟨initial, condition, some increment, body⟩ ⟨initial, condition, some increment', body'⟩

theorem Lifts.initial {loop loop' : ForLoop} (h : loop.Lifts loop') :
    loop'.initial = loop.initial := by
  cases h <;> rfl

theorem Lifts.condition {loop loop' : ForLoop} (h : loop.Lifts loop') :
    loop'.condition = loop.condition := by
  cases h <;> rfl

end ForLoop

namespace Eval.Lifts

variable {w w₁ : Pairing} {st st' : State} {gap : Gap}

/-- In the second run, an action is carried out in an additional frame. -/
theorem inBlock {action action' : Eval Flow} (lifts : st.Lifts w st')
    (here : w.At .nowhere st.current st'.current) (construct : Construct)
    (inside : ∀ {w₁}, w.Grows w₁ → st.Lifts w₁ (st'.entering construct) →
      w₁.At .here st.current (st'.entering construct).current →
        Eval.Lifts w₁ Flow.Lifts action action' st (st'.entering construct)) :
    Eval.Lifts w Flow.Lifts action (Eval.inBlock construct action') st st' := by
  have made := lifts.heap.newFrame_additional st'.current construct here
  have grows := w.grows_withFrames .here st.current.index st'.heap.frames.slots.size
  have globals : Heap.Lifts.Outermost _ st.heap st.globals st'.globals :=
    ⟨grows.at lifts.globals.there, lifts.globals.last⟩
  have entered := (lifts.withHeap made globals).inside st.current
    (st'.heap.newFrame (some st'.current) construct).1
  have ran := inside grows { entered with } (.inr ⟨rfl, rfl, Heap.index_newFrame lifts.heap.free' _ _⟩)
  -- The first run does nothing before the action and nothing behind it.
  rw [Eval.Lifts, Eval.inBlock_apply, ← Plan.bind_done (action st)]
  refine Plan.InStep.bind ran fun o o' ends => .done ?_
  cases ends with
  | ok abreast post =>
    exact .ok ⟨{ abreast.lifts with }, grows.trans abreast.grows, abreast.current, rfl⟩ post
  | error abreast =>
    exact .error ⟨{ abreast.lifts with }, grows.trans abreast.grows, abreast.current, rfl⟩

/-! ### The parts of a turn -/

section Parts

variable {loop loop' : ForLoop}

theorem test (lifts : st.Lifts w st') (here : w.At .nowhere st.current st'.current)
    (same : loop'.condition = loop.condition) :
    Eval.Lifts w (fun _ holds holds' => holds' = holds) loop.test loop'.test st st' := by
  rw [ForLoop.test, ForLoop.test, same]
  cases loop.condition with
  | none => exact pure lifts rfl
  | some e =>
    exact bind (evaluate lifts here e.lifts_nowhere) fun abreast value =>
      pure abreast.lifts value.isTruthy

theorem pass (lifts : st.Lifts w st') (here : w.At .here st.current st'.current)
    {initial initial' : Option Stmt} {condition condition' : Option Expr} {increment increment' : Expr}
    {body body' : Stmt} (same : increment.Lifts .here increment') (same' : body.Lifts .here body') :
    Eval.Lifts w Flow.Lifts (ForLoop.pass ⟨initial, condition, some increment, body⟩)
      (ForLoop.pass ⟨initial', condition', some increment', body'⟩) st st' := by
  refine bind (execute lifts here same') fun abreast flow => ?_
  cases flow with
  | returned value => exact pure abreast.lifts (.returned value)
  | normal =>
    have stepped : Eval.Lifts _ (fun _ _ _ => True)
        (ForLoop.step ⟨initial, condition, some increment, body⟩)
        (ForLoop.step ⟨initial', condition', some increment', body'⟩) _ _ :=
      bind (evaluate abreast.lifts (abreast.here here) same) fun abreast _ => pure abreast.lifts trivial
    exact bind stepped fun abreast _ => pure abreast.lifts .normal

theorem takeTurn {test test' : Eval Bool} {pass pass' : Eval Flow}
    (h : Eval.Lifts w (fun _ holds holds' => holds' = holds) test test' st st')
    (h' : ∀ {w₁ mid mid'}, Lifting.Abreast w st st' w₁ mid mid' →
      Eval.Lifts w₁ Flow.Lifts pass pass' mid mid') :
    Eval.Lifts w (fun w => Option.Rel (Flow.Lifts w)) (ForLoop.takeTurn test pass)
      (ForLoop.takeTurn test' pass') st st' := by
  refine bind h ?_
  rintro w₁ mid mid' holds _ abreast rfl
  split
  · refine bind (h' abreast) fun abreast' flow => ?_
    cases flow with
    | normal => exact pure abreast'.lifts .none
    | returned value => exact pure abreast'.lifts (.some (.returned value))
  · exact pure abreast.lifts (.some .normal)

end Parts

end Eval.Lifts

namespace ForLoop

variable {w : Pairing} {st st' mid mid' : State} {loop loop' : ForLoop}

/-- The loops have come this far, beside each other. -/
def GoesOn (w : Pairing) (st st' mid mid' : State) : Prop :=
  ∃ w₁, Lifting.Abreast w st st' w₁ mid mid'

/-- The loops end alike. -/
def EndsLifted (w : Pairing) (st st' : State) (r r' : Answer .flow) : Prop :=
  Lifting.Ends w st st' Flow.Lifts (r.result, r.state) (r'.result, r'.state)

/-- **A turn ends as the turn does that makes an additional frame.** -/
theorem turns_lift (same : loop.Lifts loop') (here : w.At .nowhere st.current st'.current)
    (related : GoesOn w st st' mid mid') :
    Corresponds (TurnsEnd (GoesOn w st st') (EndsLifted w st st'))
      (loop.turn.ComesTo (evaluationWith id) mid)
      (loop'.plain.turn.ComesTo (evaluationWith id) mid') := by
  obtain ⟨w₁, abreast⟩ := related
  have there := abreast.here here
  have tested := Eval.Lifts.test abreast.lifts there same.condition
  -- What the parser builds is replaced by what it stands for.
  obtain ⟨pass', matches_, lifts⟩ : ∃ pass', loop'.plain.pass.Matches (evaluationWith id) pass' ∧
      Eval.Lifts w₁ (fun w => Option.Rel (Flow.Lifts w)) loop.turn (takeTurn loop'.test pass')
        mid mid' := by
    cases same with
    | same initial condition body =>
      refine ⟨pass ⟨initial, condition, none, body⟩, ?_, .takeTurn tested fun abreast => ?_⟩
      · rw [pass_of_none rfl, pass_of_none rfl]
        exact .refl _
      · rw [pass_of_none rfl]
        exact .execute abreast.lifts (abreast.here there) body.lifts_nowhere
    | within initial condition lifts lifts' =>
      refine ⟨_, matches_pass rfl, .takeTurn tested fun abreast => ?_⟩
      exact .inBlock abreast.lifts (abreast.here there) _ fun _ entered inside =>
        .pass entered inside lifts lifts'
  have turned := Eval.Matches.takeTurn (matches_test loop') matches_
  have alike : Corresponds (TurnsEnd (GoesOn w st st') (EndsLifted w st st'))
      (loop.turn.ComesTo (evaluationWith id) mid)
      ((takeTurn loop'.test pass').ComesTo (evaluationWith id) mid') := by
    refine (Plan.InStep.corresponds Lifting.evaluation_inStep lifts).mono ?_
    rintro _ _ (@⟨_, _, _, ended, ended', abreast', lifts⟩ | ⟨abreast'⟩)
    · cases lifts with
      | none => exact .again ⟨_, abreast.trans abreast'⟩
      | some flow => exact .last (.ok (abreast.trans abreast') flow)
    · exact .stopped (.error (abreast.trans abreast'))
  refine ⟨fun ends => ?_, fun ends => alike.back ((turned _ _).mp ends)⟩
  obtain ⟨o', ends', alike⟩ := alike.forth ends
  exact ⟨o', (turned _ _).mpr ends', alike⟩

/-- A loop begins in two frames that belong together. -/
theorem entering_lifts (lifts : st.Lifts w st') (here : w.At .nowhere st.current st'.current)
    (construct construct' : Construct) : ∃ w₁, w.Grows w₁ ∧
      (st.entering construct).Lifts w₁ (st'.entering construct') ∧
      w₁.At .nowhere (st.entering construct).current (st'.entering construct').current := by
  have made := lifts.heap.newFrame st.current st'.current construct construct' here
  have grows := w.grows_withFrames Gap.nowhere.deeper st.heap.frames.slots.size
    st'.heap.frames.slots.size
  have globals := lifts.globals.newFrame lifts.heap.free grows st.current construct
  refine ⟨_, grows, (lifts.withHeap made globals).inside _ _, .inr ⟨rfl, ?_, ?_⟩⟩
  · exact Heap.index_newFrame lifts.heap.free _ _
  · exact Heap.index_newFrame lifts.heap.free' _ _

/-- **A loop runs as it does with an additional frame at each turn.** -/
theorem runs_lift (same : loop.Lifts loop') (lifts : st.Lifts w st')
    (here : w.At .nowhere st.current st'.current)
    (construct construct' : Construct) :
    Corresponds (EndsLifted w st st') (Runs (evaluationWith id) construct loop st)
      (Runs (evaluationWith id) construct' loop'.plain st') := by
  have current {w : Pairing} {st st' mid mid' : State} (related : GoesOn w st st' mid mid') :
      mid.current = st.current ∧ mid'.current = st'.current :=
    have ⟨_, abreast⟩ := related
    ⟨abreast.current, abreast.current'⟩
  have initial' : loop'.plain.initial = loop.initial := same.initial
  cases initial : loop.initial with
  | none =>
    rw [initial] at initial'
    exact Runs.corresponds_bare initial initial'
      (Rounds.corresponds (turns_lift same here) current ⟨w, lifts.abreast⟩)
  | some first =>
    rw [initial] at initial'
    -- The frame of the initial statement is on both heaps; the additional one comes with the turns.
    obtain ⟨w₁, grows, entered, there⟩ := entering_lifts lifts here construct construct'
    have asked : AskedAt w₁ .flow ⟨.execute first, st.entering construct⟩
        ⟨.execute first, st'.entering construct'⟩ :=
      ⟨entered, .execute there first.lifts_nowhere⟩
    have starts : Corresponds (StartsEnd (GoesOn w₁ (st.entering construct) (st'.entering construct'))
        (EndsLifted w₁ (st.entering construct) (st'.entering construct')))
        ((evaluationWith id).Answers .flow ⟨.execute first, st.entering construct⟩)
        ((evaluationWith id).Answers .flow ⟨.execute first, st'.entering construct'⟩) := by
      refine (Rules.corresponds Lifting.evaluation_inStep ⟨w₁, asked⟩).mono ?_
      rintro ⟨_, _⟩ ⟨_, _⟩ answered
      cases answered w₁ asked with
      | error abreast => exact .broken nofun nofun (.error abreast)
      | ok abreast came =>
        cases came with
        | normal => exact .normal ⟨_, abreast⟩
        | returned value => exact .broken nofun nofun (.ok abreast (.returned value))
    refine (Runs.corresponds initial initial' starts (turns_lift same there) current).mono ?_
    rintro ⟨_, _⟩ ⟨_, _⟩ ⟨left, left', ends, rfl, rfl⟩
    cases ends with
    | ok abreast flow =>
      exact .ok ⟨{ abreast.lifts with }, grows.trans abreast.grows, rfl, rfl⟩ flow
    | error abreast =>
      exact .error ⟨{ abreast.lifts with }, grows.trans abreast.grows, rfl, rfl⟩

end ForLoop

end Lox
