import Mathlib
import Lox.Proofs.Evaluation.Discipline
import Lox.Proofs.Heap.Exact
import Lox.Proofs.Session.Transparency

/-!
# Nothing is left in progress

Tasks leave the stacks of the state as they find them, whatever the state and the tree are
(`Discipline`).  So a session is **at rest** between its runs (`State.AtRest`): no frame is put aside,
nothing is held on to, no call is in progress, and the current frame is that of the globals.  Resetting
it would change nothing, not even at the moment when a run has just failed; and the roots of a collection
are the globals and nothing else.
-/

namespace Lox

open Evaluation

/-- Nothing is in progress. -/
structure State.AtRest (st : State) : Prop where
  current : st.current = st.globals
  saved : st.saved = []
  temporaries : st.temporaries = #[]
  callDepth : st.callDepth = 0

namespace State

variable {st st' : State}

theorem AtRest.reset_eq (h : st.AtRest) : st.reset = st := by
  have current := h.current
  have saved := h.saved
  have temporaries := h.temporaries
  have callDepth := h.callDepth
  cases st
  simp_all [State.reset]

theorem AtRest.of_balanced (h : st.AtRest) (balanced : st.Balanced st') : st'.AtRest :=
  ⟨balanced.current.trans (h.current.trans balanced.globals.symm), balanced.saved.trans h.saved,
    balanced.temporaries.trans h.temporaries, balanced.callDepth.trans h.callDepth⟩

theorem atRest_reset (st : State) : st.reset.AtRest := ⟨rfl, rfl, rfl, rfl⟩

theorem AtRest.defineNatives (h : st.AtRest) (natives : List Native) :
    (st.defineNatives natives).AtRest := by
  induction natives generalizing st with
  | nil => exact h
  | cons _ _ ih => exact ih ⟨h.current, h.saved, h.temporaries, h.callDepth⟩

theorem atRest_start (settings : Settings) (sink : Sink) (clock : Clock) :
    (State.start settings sink clock).AtRest := by
  rw [State.start_eq]
  exact .defineNatives ⟨rfl, rfl, rfl, rfl⟩ _

/-- Where nothing is in progress, a collection starts from the globals. -/
theorem AtRest.roots_eq (h : st.AtRest) : st.roots = Heap.rootsOf [st.globals, st.globals] [] := by
  rw [State.roots, h.current, h.saved, h.temporaries]
  rfl

end State

namespace Session

variable {session after : Session}

/-- **A program leaves the session at rest**, whether it comes to its end or fails. -/
theorem atRest_interpret (rest : session.state.AtRest) {fuel : Nat} {program : List Stmt}
    {result : Except Stop Unit} (ran : session.interpret fuel program = some (result, after)) :
    after.state.AtRest := by
  have leaves := (discipline_met.known (exists_interpret_iff.mp ⟨fuel, ran⟩)).1
  cases result with
  | ok _ => exact rest.of_balanced leaves
  | error stop => exact session.state.atRest_reset.of_balanced leaves

theorem atRest_collectTimes (rest : session.state.AtRest) (n : Nat) :
    (session.collectTimes n).state.AtRest := by
  induction n generalizing session with
  | zero => exact rest
  | succ n ih => exact ih ⟨rest.current, rest.saved, rest.temporaries, rest.callDepth⟩

theorem atRest_obey (rest : session.state.AtRest) {fuel : Nat} {command : Command} {reply : Reply}
    (obeyed : session.obey fuel command = some (reply, after)) : after.state.AtRest := by
  cases obey_eq_some_iff.mp obeyed with
  | ran _ ran => exact atRest_interpret rest ran
  | collect => exact atRest_collectTimes rest 1
  | rejected | read | compare => exact rest

theorem Follows.atRest {steps : List Step} {replies : List Reply}
    (history : session.Follows steps replies after) (rest : session.state.AtRest) :
    after.state.AtRest := by
  induction history with
  | nil _ => exact rest
  | cons obeyed _ ih => exact ih (atRest_obey (atRest_collectTimes rest _) obeyed)

end Session

/-! ## Resetting -/

/-- A state at rest that a program has been run in, up to its end or its failure, is at rest before it
is reset. -/
theorem Eval.resetting_program {session : Session} (rest : session.state.AtRest)
    (program : List Stmt) (fuel : Nat) :
    (Eval.resetting (Eval.program program) session.state).eval (evaluation.solve fuel) =
      (Eval.program program session.state).eval (evaluation.solve fuel) := by
  have keeps : (Eval.program program).Keeps (fun _ task => (Task.run program).Asks task) 0 :=
    Eval.Keeps.program fun s mem => .statement mem
  have ensures := (keeps session.state session.state.sink (.refl _)).ensures
  have sound sort (q : Question sort) (r : Answer sort) (found : evaluation.solve fuel sort q = some r) :
      discipline.Known sort q r := discipline_met.known ⟨fuel, found⟩
  rw [Eval.resetting]
  change Plan.eval _ (Eval.program program session.state >>= _) = _
  rw [Plan.eval_bind]
  cases evaluated : (Eval.program program session.state).eval (evaluation.solve fuel) with
  | none => rfl
  | some outcome =>
    obtain ⟨s, left⟩ := ensures.eval (fun sort q r _ found => sound sort q r found) evaluated
    obtain ⟨result, st⟩ := outcome
    have balanced : session.state.Balanced st := left.state
    cases result with
    | ok _ => rfl
    | error stop =>
      rw [Option.bind_some]
      simp only [Plan.eval, (rest.of_balanced balanced).reset_eq]

/-! ## Collections at rest -/

/-- A forced collection keeps what is reached from the globals. -/
theorem State.AtRest.exact_collect {st : State} (rest : st.AtRest) (tidy : st.heap.Tidy) :
    Heap.Exact st.heap [st.globals] [] st.collect.1 st.collect.2.heap := by
  have exact_ := tidy.exact_collect [st.globals, st.globals] []
  rw [← rest.roots_eq] at exact_
  have same (place : Place) : st.heap.Reached [st.globals, st.globals] [] place ↔
      st.heap.Reached [st.globals] [] place :=
    ⟨.mono (by simp), .mono (by simp)⟩
  have culledFrames := exact_.culledFrames
  have culledInstances := exact_.culledInstances
  simp only [same] at culledFrames culledInstances
  exact ⟨culledFrames, culledInstances⟩

/-- **Tasks leave no trace on the stacks.**  However an expression, a call or a statement ends, in
whatever state it was begun, the current frame, the frames put aside, the temporaries and the count of
calls are what they were.  So a session is at rest between its runs: a source with errors that show
before it runs leaves it as it was, to reset it changes nothing, be it now or when the next program has
failed, and a collection keeps what is reached from the globals, and nothing else. -/
theorem Session.atRest_of_follows :
    (∀ {sort : TaskSort} (q : Question sort) (r : Answer sort) (fuel : Nat), sort ≠ .program →
      evaluation.run fuel q = some r → q.state.Balanced r.state) ∧
    ∀ {settings : Settings} {sink : Sink} {clock : Clock} {steps : List Step} {replies : List Reply}
      {session : Session}, (start settings sink clock).Follows steps replies session →
      session.state.AtRest ∧ session.state.reset = session.state ∧
      (∀ {source failure}, prepare source = .error failure →
        ∀ fuel, session.run fuel source = some (.error failure, session)) ∧
      (∀ program fuel,
        (Eval.resetting (Eval.program program) session.state).eval (evaluation.solve fuel) =
          (Eval.program program session.state).eval (evaluation.solve fuel)) ∧
      Heap.Exact session.state.heap [session.state.globals] [] session.collect.1
        session.collect.2.state.heap := by
  refine ⟨fun q r fuel part ran => ?_, fun {settings sink clock steps replies session} history => ?_⟩
  · have answers : evaluation.Answers _ q r := (evaluation.exists_run_iff q r).mp ⟨fuel, ran⟩
    exact (discipline_met.known answers).1.balanced part
  · have rest := history.atRest (State.atRest_start settings sink clock)
    obtain ⟨ideal, represents⟩ := exists_represents history
    have sound := represents.valid.heap.sound
    exact ⟨rest, rest.reset_eq, run_of_error, Eval.resetting_program rest,
      rest.exact_collect ⟨sound.frames, sound.instances, sound.cleanFrames, sound.cleanInstances⟩⟩

/-- A statement that fails two blocks deep, and a session that a call has failed in three calls deep,
before it was given a source that is not well formed. -/
theorem Session.atRest_failed_call :
    (∃ r, evaluation.run 100 (⟨.execute (.block [.block [.print 1 (.unary ⟨.negate, "-", 1⟩
        (.literal .nil))]]), State.start {} .unlimited (.ticking 0)⟩ : Question .flow) = some r ∧
      (State.start {} .unlimited (.ticking 0)).Balanced r.state) ∧
    ∃ session, (start (Settings.withMaxCallDepth {} 3) .unlimited (.ticking 0)).Follows
        [⟨0, .run "fun f(x) { { f(f); } } f(1);"⟩, ⟨0, .run ")"⟩]
        [.ran #[] (.error (.stopped (.error ⟨1, .tooManyCalls⟩))),
          .ran #[] (.error (.malformed [] [⟨1, .atLexeme ")", .expectedExpression⟩]))] session ∧
      session.state.AtRest ∧ session.state.reset = session.state := by
  obtain ⟨balanced, sessions⟩ := atRest_of_follows
  constructor
  · obtain ⟨r, ran⟩ := Option.isSome_iff_exists.mp (show (evaluation.run 100 (⟨.execute (.block
      [.block [.print 1 (.unary ⟨.negate, "-", 1⟩ (.literal .nil))]]),
        State.start {} .unlimited (.ticking 0)⟩ : Question .flow)).isSome = true by decide +kernel)
    exact ⟨r, ran, balanced _ r 100 (by decide) ran⟩
  · have ran : (start (Settings.withMaxCallDepth {} 3) .unlimited (.ticking 0)).replies? 1000
        [⟨0, .run "fun f(x) \x7b \x7b f(f); \x7d \x7d f(1);"⟩, ⟨0, .run ")"⟩] =
        some [.ran #[] (.error (.stopped (.error ⟨1, .tooManyCalls⟩))),
          .ran #[] (.error (.malformed [] [⟨1, .atLexeme ")", .expectedExpression⟩]))] := by
      decide +kernel
    obtain ⟨session, history⟩ := exists_follows_of_replies? ran
    obtain ⟨rest, reset, -⟩ := sessions history
    exact ⟨session, history, rest, reset⟩

end Lox
