import Lox.Proofs.Evaluation.ForLoop
import Lox.Proofs.Ideal.Rules

/-!
# A `for` loop and its ideal

A `for` loop runs as it does in a run that never collects garbage (`ForLoop.runs_along`).
-/

namespace Lox

open Evaluation Simulation

/-- A statement ends as its ideal does, on the way from `base`. -/
def Simulation.FlowsAlong (base : State) (r r' : Answer .flow) : Prop :=
  Ends (Along base) (Flows base) (r.result, r.state) (r'.result, r'.state)

theorem Simulation.Answered.flowsAlong {base base' : State} {task task' : Task .flow}
    {r r' : Answer .flow} (h : Answered .flow ⟨task, base⟩ ⟨task', base'⟩ r r') :
    FlowsAlong base r r' :=
  Ends.mono h (fun _ _ left => left) fun _ _ _ _ ⟨same, along, fits⟩ => ⟨same, along, fits⟩

theorem Simulation.FlowsAlong.along {base : State} {r r' : Answer .flow} (h : FlowsAlong base r r') :
    Along base r.state r'.state := by
  obtain ⟨result, left⟩ := r
  obtain ⟨result', left'⟩ := r'
  cases h with
  | ok flows => exact flows.along
  | error along => exact along

namespace ForLoop

open Eval.Simulates

variable {loop : ForLoop} {base st ideal : State}

/-! ## Turns -/

theorem simulates_test (plain : loop.Every Node.Plain) (along : Along base st ideal) :
    Eval.Simulates .any (Along base)
      (fun holds st holds' ideal => holds' = holds ∧ Along base st ideal) loop.test loop.test
      st ideal := by
  rw [test]
  cases condition : loop.condition with
  | none => exact pure ⟨rfl, along⟩
  | some e =>
    refine bind (evaluate along trivial (plain.condition e condition)) ?_
    rintro v st _ ideal ⟨rfl, along, -⟩
    exact pure ⟨v.isTruthy_ideal, along⟩

theorem simulates_step (plain : loop.Every Node.Plain) (along : Along base st ideal) :
    Eval.Simulates .any (Along base) (fun _ st _ ideal => Along base st ideal) loop.step loop.step
      st ideal := by
  rw [step]
  cases increment : loop.increment with
  | none => exact pure along
  | some e =>
    exact bind (evaluate along trivial (plain.increment e increment)) fun _ _ _ _ post =>
      pure post.along

theorem simulates_pass (plain : loop.Every Node.Plain) (along : Along base st ideal) :
    Eval.Simulates .any (Along base) (Flows base) loop.pass loop.pass st ideal := by
  refine bind (execute along trivial plain.body) ?_
  rintro flow st _ ideal ⟨rfl, along, fits⟩
  cases flow with
  | normal =>
    exact bind (simulates_step plain along) fun _ _ _ _ along => pure ⟨rfl, along, nofun⟩
  | returned v => exact pure ⟨rfl, along, fits⟩

theorem simulates_turn (plain : loop.Every Node.Plain) (along : Along base st ideal) :
    Eval.Simulates .any (Along base)
      (fun ended st ended' ideal => ended' = ended.map Flow.ideal ∧ Along base st ideal ∧
        ∀ flow ∈ ended, flow.Fits st.heap) loop.turn loop.turn st ideal := by
  refine bind (simulates_test plain along) ?_
  rintro holds st _ ideal ⟨rfl, along⟩
  split
  · refine bind (simulates_pass plain along) ?_
    rintro flow st _ ideal ⟨rfl, along, fits⟩
    cases flow with
    | normal => exact pure ⟨rfl, along, nofun⟩
    | returned v => exact pure ⟨rfl, along, fun _ same => by cases same; exact fits⟩
  · exact pure ⟨rfl, along, fun _ same => by cases same; nofun⟩

/-- A turn ends as it does without collections. -/
theorem turns_along (plain : loop.Every Node.Plain) (along : Along base st ideal) :
    Corresponds (TurnsEnd (Along base) (FlowsAlong base)) (loop.turn.ComesTo evaluation st)
      (loop.turn.ComesTo (evaluationWith id) ideal) := by
  refine ((simulates_turn plain along).corresponds
    (evaluationWith_inStep Along.collectIfDue .any)).mono ?_
  rintro _ _ (@⟨ended, _, _, _, rfl, along, fits⟩ | ⟨left⟩)
  · cases ended with
    | none => exact .again along
    | some flow => exact .last (.ok ⟨rfl, along, fits flow rfl⟩)
  · exact .stopped (.error left)

/-! ## The whole loop -/

section

variable (represents : st.Represents ideal) (construct : Construct)

include represents

/-- The frame of a loop is made. -/
theorem along_made : Along st
    { st with heap := (st.heap.newFrame (some st.current) construct).2 }
    { ideal with heap := (ideal.heap.newFrame (some ideal.current) construct).2 } := by
  have along := represents.along.newFrame represents.valid.hasCurrent construct
  rwa [← represents.current] at along

/-- A loop begins in frames that stand for each other. -/
theorem represents_entering : (st.entering construct).Represents (ideal.entering construct) := by
  have held := Heap.holdsFrame_newFrame_self represents.valid.heap.sound.frames (some st.current)
    construct
  have entered := (along_made represents construct).represents.inside ⟨_, held⟩
  have ref := represents.heap.newFrame_fst (some st.current) construct
  rw [Option.map_some, ← represents.current] at ref
  rwa [← ref] at entered

/-- A loop goes back to the frame that it has come from. -/
theorem along_leaving {left left' : State} (along : Along (st.entering construct) left left') :
    Along st (st.leaving left) (ideal.leaving left') :=
  ((along_made represents construct).goBack along).1

end

/-- **A loop runs as it does without collections.** -/
theorem runs_along (plain : loop.Every Node.Plain) (represents : st.Represents ideal)
    (construct : Construct) :
    Corresponds (FlowsAlong st) (Runs evaluation construct loop st)
      (Runs (evaluationWith id) construct loop ideal) := by
  have here {base : State} {ideal : State} (represents : base.Represents ideal) {st st' : State}
      (along : Along base st st') : st.current = base.current ∧ st'.current = ideal.current := by
    refine ⟨along.keeps.current, ?_⟩
    rw [along.represents.current, along.keeps.current, represents.current]
  cases initial : loop.initial with
  | none =>
    exact Runs.corresponds_bare initial initial
      (Rounds.corresponds (turns_along plain) (here represents) represents.along)
  | some first =>
    -- The initial statement runs in the frame made for the loop, and so do the turns.
    have entered := represents_entering represents construct
    have asked : Asked .any .flow ⟨.execute first, st.entering construct⟩
        ⟨.execute first, ideal.entering construct⟩ :=
      ⟨rfl, entered, plain.initial first initial, nofun, trivial⟩
    have starts : Corresponds (StartsEnd (Along (st.entering construct))
        (FlowsAlong (st.entering construct)))
        (evaluation.Answers .flow ⟨.execute first, st.entering construct⟩)
        ((evaluationWith id).Answers .flow ⟨.execute first, ideal.entering construct⟩) := by
      refine (Rules.corresponds (evaluationWith_inStep Along.collectIfDue .any) asked).mono ?_
      rintro ⟨_, _⟩ ⟨_, _⟩ (@⟨flow, _, _, _, rfl, along, fits⟩ | ⟨left⟩)
      · cases flow with
        | normal => exact .normal along
        | returned v => exact .broken nofun nofun (.ok ⟨rfl, along, fits⟩)
      · exact .broken nofun nofun (.error left)
    refine (Runs.corresponds initial initial starts (turns_along plain) (here entered)).mono ?_
    rintro ⟨result, _⟩ ⟨result', _⟩ ⟨left, left', ends, rfl, rfl⟩
    cases ends with
    | ok flows => exact .ok ⟨flows.same, along_leaving represents construct flows.along, flows.fits⟩
    | error along => exact .error (along_leaving represents construct along)

end ForLoop

end Lox
