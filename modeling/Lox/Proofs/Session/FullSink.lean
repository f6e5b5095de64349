import Mathlib
import Lox.Proofs.Evaluation.Discipline
import Lox.Proofs.Evaluation.Limits
import Lox.Proofs.Session.Transparency

/-!
# A sink that gets full

A sink that takes so many lines and then fails makes no difference to a run until then.  The `print` that
is refused stops the run: what has been done is what the same run has done with a sink that is never full,
at the moment when that `print` had evaluated its operand (`Session.run_limited`).
-/

namespace Lox

open Evaluation

namespace Sink

/-- A full sink is one without room, and gives its reason. -/
theorem print_eq_error {sink : Sink} {line reason : String} (h : sink.print line = .error reason) :
    sink.capacity = some 0 ∧ reason = sink.reason := by
  obtain ⟨printed, capacity, reason⟩ := sink
  match capacity with
  | none => cases h
  | some 0 =>
    cases h
    exact ⟨rfl, rfl⟩
  | some (n + 1) => cases h

theorem printed_of_print {sink sink' : Sink} {line : String} (h : sink.print line = .ok sink') :
    sink'.printed = sink.printed.push line := by
  obtain ⟨printed, capacity, reason⟩ := sink
  match capacity with
  | none =>
    cases h
    rfl
  | some 0 => cases h
  | some (n + 1) =>
    cases h
    rfl

end Sink

/-- The sink is never full. -/
def Wider.ofSink : Wider where
  settings s := s
  sink s := ⟨s.printed, none, ""⟩
  room _ := Nat.le_refl _
  prints printed := by
    rw [Sink.print, ← Sink.printed_of_print printed]
  refuses _ := .inr ⟨_, rfl⟩

namespace Session

variable {settings : Settings} {clock : Clock} {program : List Stmt} {n : Nat} {reason : String}

/-- What a sink that takes `n` lines has come to in a run. -/
theorem room_of_answers {r : Answer .program}
    (known : evaluation.Answers .program
      ⟨.run program, (start settings (.limited n reason) clock).state⟩ r) :
    r.state.sink.capacity.map (· + r.state.sink.printed.size) = some n ∧
      r.state.sink.reason = reason := by
  have grows := (discipline_met.known known).2
  exact ⟨grows.room, grows.reason⟩

/-- In a run of the program from `start` on comes a moment at which a `print` on this line has evaluated
its operand: to `v`, in the state `st`. -/
def AboutToPrint (program : List Stmt) (start : State) (line : Nat) (v : Value) (st : State) : Prop :=
  ∃ e before, evaluation.Arises (⟨.run program, start⟩ : Question .program)
      (⟨.perform (.print line e), before⟩ : Question .flow) ∧
    evaluation.Answers .value ⟨.evaluate e, before⟩ ⟨.ok v, st⟩

/-- **What is cut short by a full sink was refused at a moment of the full run.** -/
theorem refused_of_cut {r : Answer .program}
    (known : evaluation.Answers .program
      ⟨.run program, (start settings (.limited n reason) clock).state⟩ r)
    (cut : evaluation.Cut Wider.ofSink.loosening
      ⟨.run program, (start settings (.limited n reason) clock).state⟩ r) :
    ∃ line v st, AboutToPrint program (start settings .unlimited clock).state line v st ∧
      r.result = .error (.error ⟨line, .outputFailed reason⟩) ∧
      r.state.heap = st.heap ∧ r.state.globals = st.globals ∧ r.state.clock = st.clock ∧
      r.state.sink.printed = st.sink.printed ∧ st.sink.printed.size = n ∧
      st.sink.capacity = none := by
  obtain ⟨_, q, r', arises, halts, stop, stopped', stopped, abandoned⟩ := cut
  have room := room_of_answers known
  cases halts with
  | call full wide => exact absurd full (Nat.not_le_of_lt wide)
  | @print line e before st v reason' after known' full _ =>
    obtain rfl := Except.error.inj stopped'
    obtain ⟨capacity, rfl⟩ := Sink.print_eq_error full
    have sink : r.state.sink = st.sink := abandoned.sink
    rw [sink, capacity, Option.map_some, Nat.zero_add, Option.some.injEq] at room
    obtain ⟨size, rfl⟩ := room
    exact ⟨line, v, Wider.ofSink.state st, ⟨e, _, arises, known'⟩, stopped, abandoned.heap,
      abandoned.globals, abandoned.clock, by rw [sink]; rfl, size, rfl⟩

/-- What is refused by a full sink is printed next by one that is never full. -/
theorem AboutToPrint.printed {start st after : State} {line : Nat} {v : Value} {result : Except Stop Unit}
    (about : AboutToPrint program start line v st) (endless : st.sink.capacity = none)
    (known : evaluation.Answers .program ⟨.run program, start⟩ ⟨result, after⟩) :
    ∃ more, after.sink.printed = st.sink.printed.push v.text ++ more := by
  obtain ⟨e, before, arises, operand⟩ := about
  obtain ⟨sink, printed⟩ : ∃ sink, st.sink.print v.text = .ok sink := by
    rw [Sink.print, endless]
    exact ⟨_, rfl⟩
  have performed : evaluation.Answers .flow ⟨.perform (.print line e), before⟩
      ⟨.ok .normal, { st with sink := sink }⟩ := by
    refine Rules.answers_of_reaches ?_
    rw [evaluation, evaluationWith_print]
    refine .answer operand ?_
    simp only [Eval.afterOperand, printed]
    exact .refl _
  have grows : sink.Grows after.sink := discipline_met.le_answers arises known performed
  rw [← Sink.printed_of_print printed]
  exact grows.printed

theorem global?_congr {session session' : Session} (heap : session'.state.heap = session.state.heap)
    (globals : session'.state.globals = session.state.globals) : session'.global? = session.global? := by
  funext name
  rw [global?, global?, heap, globals]

/-- **A full sink only cuts a run short.**  With a sink that takes `n` lines, a run prints the first `n`
of the lines that it prints with a sink that is never full.  If these are all, nothing else differs.  If
not, the run fails at the `print` of line number `n + 1`, and leaves things as they are in the full run
when that `print` has evaluated its operand. -/
theorem run_limited {source : String} (prepared : prepare source = .ok program) {fuel : Nat}
    {outcome : Except Failure Unit} {after : Session}
    (ran : (start settings .unlimited clock).run fuel source = some (outcome, after))
    (n : Nat) (reason : String) :
    ∃ fuel' outcome' after',
      (start settings (.limited n reason) clock).run fuel' source = some (outcome', after') ∧
      after'.printed = after.printed.extract 0 n ∧
      (after.printed.size ≤ n → outcome' = outcome ∧ after'.state.heap = after.state.heap ∧
        after'.state.clock = after.state.clock ∧ after'.global? = after.global?) ∧
      (n < after.printed.size → ∃ line v st,
        AboutToPrint program (start settings .unlimited clock).state line v st ∧
        st.sink.printed = after'.printed ∧ after.printed[n]? = some v.text ∧
        outcome' = .error (.stopped (.error ⟨line, .outputFailed reason⟩)) ∧
        (RuntimeError.Cause.outputFailed reason).message = "Could not write output: " ++ reason ∧
        after'.state.heap = st.heap ∧ after'.state.clock = st.clock ∧
        after'.global? = (Session.mk st).global?) := by
  rw [run_of_ok prepared] at ran
  obtain ⟨⟨result, between⟩, interpreted, same⟩ := Option.map_eq_some_iff.mp ran
  cases same
  have known := exists_interpret_iff.mp ⟨fuel, interpreted⟩
  -- The limited run comes to an end because the other one does.
  obtain ⟨r, known'⟩ : ∃ r, evaluation.Answers .program
      ⟨.run program, (start settings (.limited n reason) clock).state⟩ r :=
    Rules.Answers.exists_narrow (truncated .ofSink) known
  obtain ⟨fuel', interpreted'⟩ : ∃ fuel', (start settings (.limited n reason) clock).interpret fuel'
      program = some (r.result, ⟨r.state⟩) := exists_interpret_iff.mpr known'
  refine ⟨fuel', r.result.mapError .stopped, ⟨r.state⟩, ?_, ?_⟩
  · rw [run_of_ok prepared, interpreted']
    rfl
  rcases known'.same_or_cut (truncated .ofSink) with alike | cut
  · have alike : evaluation.Answers .program ⟨.run program, (start settings .unlimited clock).state⟩
        ⟨r.result, Wider.ofSink.state r.state⟩ := alike
    obtain ⟨rfl, state⟩ := Answer.mk.inj (known.unique alike)
    have size : r.state.sink.printed.size ≤ n := by
      obtain ⟨capacity, -, full⟩ := Option.map_eq_some_iff.mp (room_of_answers known').1
      omega
    have printed : after.printed = r.state.sink.printed := congrArg (·.sink.printed) state
    refine ⟨?_, fun _ => ⟨rfl, (congrArg State.heap state).symm, (congrArg State.clock state).symm,
      global?_congr (congrArg State.heap state).symm (congrArg State.globals state).symm⟩, ?_⟩
    · rw [printed, Array.extract_eq_self_of_le size]
      rfl
    · intro less
      rw [printed] at less
      omega
  · obtain ⟨line, v, st, about, stopped, heap, globals, clocks, printed, size, endless⟩ :=
      refused_of_cut known' cut
    obtain ⟨more, all⟩ : ∃ more, after.printed = st.sink.printed.push v.text ++ more :=
      about.printed endless known
    have longer : n < (st.sink.printed.push v.text).size := by
      rw [Array.size_push]
      omega
    refine ⟨?_, fun le => ?_, fun _ => ⟨line, v, st, about, printed.symm, ?_, ?_, rfl, heap, clocks,
      global?_congr heap globals⟩⟩
    · rw [all, Array.extract_append_of_stop_le_size_left longer.le,
        Array.extract_push_of_le size.ge, Array.extract_eq_self_of_le size.le]
      exact printed
    · rw [all, Array.size_append] at le
      omega
    · rw [all, ← size, Array.getElem?_append_left (size ▸ longer), Array.getElem?_push_size]
    · rw [stopped]
      rfl

/-- The second of three lines is refused, within a call. -/
theorem run_limited_call : ∃ program after,
    prepare "fun f(x) \x7b print x; print f; \x7d f(nil); print f;" = .ok program ∧
    (start {} .unlimited (.ticking 0)).run 1000
      "fun f(x) \x7b print x; print f; \x7d f(nil); print f;" = some (.ok (), after) ∧
    1 < after.printed.size ∧
    ∃ fuel line after', (start {} (.limited 1 "disk full") (.ticking 0)).run fuel
        "fun f(x) \x7b print x; print f; \x7d f(nil); print f;" =
      some (.error (.stopped (.error ⟨line, .outputFailed "disk full"⟩)), after') ∧
      after'.printed = after.printed.extract 0 1 := by
  have whole : ((start {} .unlimited (.ticking 0)).run 1000
      "fun f(x) \x7b print x; print f; \x7d f(nil); print f;").map
        (fun ran => (ran.1, ran.2.printed)) = some (.ok (), #["nil", "<fn f>", "<fn f>"]) := by
    decide +kernel
  obtain ⟨⟨outcome, after⟩, ran, same⟩ := Option.map_eq_some_iff.mp whole
  obtain ⟨rfl, printed⟩ := Prod.mk.inj same
  have size : 1 < after.printed.size := by
    rw [show after.printed = _ from printed]
    decide
  have prepared := show prepare "fun f(x) \x7b print x; print f; \x7d f(nil); print f;" = _ by cbv
  obtain ⟨fuel, outcome', after', ran', first, -, cut⟩ := run_limited prepared ran 1 "disk full"
  obtain ⟨line, v, st, -, -, -, rfl, -⟩ := cut size
  exact ⟨_, after, prepared, ran, size, fuel, line, after', ran', first⟩

end Session

end Lox
