import Mathlib
import Lox.Proofs.Evaluation.Limits
import Lox.Proofs.Session.Rest

/-!
# The limit on nested calls

At every moment of a run, the count of calls is that of the calls in progress, and it does not exceed the
limit (`Evaluation.Moment`, `Moment.callDepth`).  The limit itself only cuts a run short: a run that does
not meet it is the same under any higher limit, and one that does has printed what the run under a higher
limit prints first.
-/

namespace Lox

open Evaluation

/-! ## Calls in progress -/

namespace Evaluation

/-- The tasks that come up, each with the number of calls in progress: the task is carried out on behalf
of so many calls, one within the other. -/
inductive Nested {sort : TaskSort} (start : Question sort) :
    {sort' : TaskSort} → Question sort' → Nat → Prop
  | start : Nested start start 0
  | asked {sort₁ sort₂ : TaskSort} {q₁ : Question sort₁} {q₂ : Question sort₂} {n : Nat}
      {next : Answer sort₂ → Plan Question Answer (Next Question Answer sort₁)}
      (before : Nested start q₁ n)
      (reaches : (evaluation sort₁ q₁).Reaches evaluation.Answers (.ask q₂ next)) :
      Nested start q₂ (n + q₁.task.calls)
  | handedOver {sort₁ : TaskSort} {q₁ q₂ : Question sort₁} {n : Nat} (before : Nested start q₁ n)
      (reaches : (evaluation sort₁ q₁).Reaches evaluation.Answers (.done (.become q₂))) :
      Nested start q₂ (n + q₁.task.calls)

/-- The moments of a run, each with the number of calls in progress: a task is asked for, or it is done,
or a call that is going to succeed has begun.  Calls of native functions ask for nothing, and have no
moment but that. -/
inductive Moment {sort : TaskSort} (start : Question sort) : Nat → State → Prop
  | asked {sort' : TaskSort} {q : Question sort'} {n : Nat} (nested : Nested start q n) :
      Moment start n q.state
  | answered {sort' : TaskSort} {q : Question sort'} {r : Answer sort'} {n : Nat}
      (nested : Nested start q n) (part : sort' ≠ .program)
      (known : evaluation.Answers sort' q r) : Moment start n r.state
  | entered {callee v : Value} {vs : List Value} {line n : Nat} {st after : State}
      (nested : Nested start (⟨.call callee vs line, st⟩ : Question .value) n)
      (known : evaluation.Answers .value ⟨.call callee vs line, st⟩ ⟨.ok v, after⟩) :
      Moment start (n + 1) st.called

variable {sort sort' : TaskSort} {start : Question sort} {q : Question sort'} {n : Nat} {st : State}

/-- Every task that comes up has a number of calls in progress. -/
theorem exists_nested (arises : evaluation.Arises start q) : ∃ n, Nested start q n := by
  induction arises with
  | start => exact ⟨0, .start⟩
  | asked _ reaches ih =>
    obtain ⟨n, nested⟩ := ih
    exact ⟨_, .asked nested reaches⟩
  | handedOver _ reaches ih =>
    obtain ⟨n, nested⟩ := ih
    exact ⟨_, .handedOver nested reaches⟩

/-- What the state says of calls in progress, where a run has begun without any. -/
structure Counts (start : State) (n : Nat) (st : State) : Prop where
  callDepth : st.callDepth = n
  settings : st.settings = start.settings
  limit : n ≤ start.settings.maxCallDepth

/-- Only a call adds to the count, and there is room for it. -/
theorem Counts.within {base : State} {sort₁ sort₂ : TaskSort} {q₁ : Question sort₁}
    {q₂ : Question sort₂} (counts : Counts base n q₁.state) (within : Within q₁ q₂) :
    Counts base (n + q₁.task.calls) q₂.state := by
  refine ⟨within.callDepth.trans (by rw [counts.callDepth]),
    within.settings.trans counts.settings, ?_⟩
  by_cases none : q₁.task.calls = 0
  · rw [none]
    exact counts.limit
  · have room := within.room none
    have one : q₁.task.calls ≤ 1 := by
      unfold Task.calls
      split <;> omega
    rw [counts.callDepth, counts.settings] at room
    omega

theorem Nested.counts (none : start.state.callDepth = 0) (nested : Nested start q n) :
    Counts start.state n q.state := by
  induction nested with
  | start => exact ⟨none, rfl, Nat.zero_le _⟩
  | asked _ reaches ih => exact ih.within (discipline_met.asked reaches)
  | handedOver _ reaches ih => exact ih.within (discipline_met.handedOver reaches)

/-- A call that succeeds has had room. -/
theorem room_of_answers {callee v : Value} {vs : List Value} {line : Nat} {after : State}
    (known : evaluation.Answers .value ⟨.call callee vs line, st⟩ ⟨.ok v, after⟩) :
    st.callDepth < st.settings.maxCallDepth := by
  by_contra full
  have fails : ∃ stop, Eval.call callee vs line st = .done (.error stop, st) := by
    rcases Eval.call_cases callee vs line with ⟨cause, -, fails⟩ | checked
    · exact ⟨_, by rw [fails]; rfl⟩
    · exact ⟨_, by rw [checked, if_pos (Nat.le_of_not_lt full)]; rfl⟩
  obtain ⟨stop, fails⟩ := fails
  have ends : (evaluation .value ⟨.call callee vs line, st⟩) =
      .done (.answer ⟨.error stop, st⟩) := by
    change ((Eval.call callee vs line st >>= _) >>= _) = _
    rw [fails]
    rfl
  have known' := Rules.answers_of_reaches (ends ▸ .refl _ :
    (evaluation .value ⟨.call callee vs line, st⟩).Reaches evaluation.Answers
      (.done (.answer ⟨.error stop, st⟩)))
  cases known.unique known'

/-- **At every moment the count of calls is that of the calls in progress**, and the limit is kept. -/
theorem Moment.counts (none : start.state.callDepth = 0) (moment : Moment start n st) :
    Counts start.state n st := by
  cases moment with
  | asked nested => exact nested.counts none
  | answered nested part known =>
    have counts := nested.counts none
    have balanced := (discipline_met.known known).1.balanced part
    exact ⟨balanced.callDepth.trans counts.callDepth, balanced.settings.trans counts.settings,
      counts.limit⟩
  | entered nested known =>
    have counts := nested.counts none
    have room := room_of_answers known
    rw [counts.callDepth, counts.settings] at room
    exact ⟨congrArg (· + 1) counts.callDepth, counts.settings, room⟩

end Evaluation

/-! ## A higher limit -/

/-- There is room for so many calls at least. -/
def Wider.ofCalls (limit : Nat) : Wider where
  settings s := s.withMaxCallDepth (max s.maxCallDepth limit)
  sink s := s
  room _ := Nat.le_max_left _ _
  prints printed := printed
  refuses refused := .inl refused

namespace Session

/-- The session with another limit on nested calls. -/
def withMaxCallDepth (session : Session) (n : Nat) : Session :=
  ⟨{ session.state with settings := session.state.settings.withMaxCallDepth n }⟩

variable {session after : Session} {n m fuel : Nat} {program : List Stmt}

theorem wider_withMaxCallDepth (le : n ≤ m) :
    (Wider.ofCalls m).state (session.withMaxCallDepth n).state =
      (session.withMaxCallDepth m).state := by
  simp only [Wider.state, Wider.ofCalls, withMaxCallDepth, Settings.withMaxCallDepth,
    Nat.max_eq_right le]

/-- Did the run fail for want of room for one more call? -/
def Overflowed (outcome : Except Failure Unit) : Prop :=
  ∃ line, outcome = .error (.stopped (.error ⟨line, .tooManyCalls⟩))

/-- A run under a limit is the same under a higher one, or else it has met the limit. -/
theorem interpret_withMaxCallDepth (le : n ≤ m) {result : Except Stop Unit}
    (ran : (session.withMaxCallDepth n).interpret fuel program = some (result, after)) :
    (∃ fuel', (session.withMaxCallDepth m).interpret fuel' program =
        some (result, after.withMaxCallDepth m)) ∨
      (∃ line, result = .error (.error ⟨line, .tooManyCalls⟩)) ∧
        ∀ {fuel' result' after'},
          (session.withMaxCallDepth m).interpret fuel' program = some (result', after') →
            ∃ more, after'.printed = after.printed ++ more := by
  have known := exists_interpret_iff.mp ⟨fuel, ran⟩
  have start : (Wider.ofCalls m).loosening.question ⟨.run program, (session.withMaxCallDepth n).state⟩ =
      ⟨.run program, (session.withMaxCallDepth m).state⟩ :=
    congrArg (Question.mk (.run program)) (wider_withMaxCallDepth le)
  rcases known.same_or_cut (truncated (.ofCalls m)) with alike | cut
  · left
    refine exists_interpret_iff.mpr ?_
    rw [start] at alike
    have limit : after.state.settings = session.state.settings.withMaxCallDepth n := by
      have leaves := (discipline_met.known known).1
      cases result with
      | ok _ => exact leaves.settings
      | error _ => exact leaves.settings
    have left : (Wider.ofCalls m).state after.state = (after.withMaxCallDepth m).state := by
      simp only [Wider.state, Wider.ofCalls, withMaxCallDepth, limit, Settings.withMaxCallDepth,
        Nat.max_eq_right le]
    rw [← left]
    exact alike
  · right
    obtain ⟨_, q, r, arises, halts, stop, stopped', stopped, abandoned⟩ := cut
    rw [start] at arises
    cases halts with
    | print known full room => exact absurd (full.symm.trans room) nofun
    | @call callee vs line st full room =>
      obtain rfl := Except.error.inj stopped'
      refine ⟨⟨line, stopped⟩, fun {fuel' result' after'} ran' => ?_⟩
      -- The call that was refused is made in the freer run, which only adds to what is printed.
      have known' := exists_interpret_iff.mp ⟨fuel', ran'⟩
      obtain ⟨r', called⟩ := arises.exists_answer known'
      have grows : st.sink.Grows after'.state.sink :=
        (discipline_met.known called).2.trans (discipline_met.le_answers arises known' called)
      have sink : after.state.sink = st.sink := abandoned.sink
      obtain ⟨more, printed⟩ := grows.printed
      exact ⟨more, by rw [Session.printed, Session.printed, sink, printed]⟩

/-- **The limit on nested calls only cuts a run short.**  A run that does not fail for want of room for a
call is the same under any higher limit: what it prints, what it comes to and what it leaves behind.  One
that does has printed what the run under the higher limit prints first, if that one ends.  At every moment
of either the count of calls is that of the calls in progress, and it is within the limit; that counts for
every task that comes up (`Evaluation.exists_nested`). -/
theorem run_withMaxCallDepth {settings : Settings} {sink : Sink} {clock : Clock} {steps : List Step}
    {replies : List Reply} (history : (start settings sink clock).Follows steps replies session)
    (le : n ≤ m) (source : String) :
    (∀ {fuel outcome after},
      (session.withMaxCallDepth n).run fuel source = some (outcome, after) →
        (¬Overflowed outcome → ∃ fuel' after',
          (session.withMaxCallDepth m).run fuel' source = some (outcome, after') ∧
            after'.printed = after.printed ∧ after'.global? = after.global? ∧
            after' = after.withMaxCallDepth m) ∧
        (Overflowed outcome → ∀ {fuel' outcome' after'},
          (session.withMaxCallDepth m).run fuel' source = some (outcome', after') →
            ∃ more, after'.printed = after.printed ++ more)) ∧
    ∀ {program}, prepare source = .ok program → ∀ {count st},
      Moment ⟨.run program, (session.withMaxCallDepth n).state⟩ count st →
        st.callDepth = count ∧ count ≤ n := by
  refine ⟨fun {fuel outcome after} ran => ?_, fun {program} _ {count st} moment => ?_⟩
  · cases prepared : prepare source with
    | error failure =>
      rw [run_of_error prepared] at ran
      cases ran
      refine ⟨fun _ => ⟨0, _, run_of_error prepared 0, rfl, rfl, rfl⟩,
        fun _ {fuel' outcome' after'} ran' => ⟨#[], ?_⟩⟩
      rw [run_of_error prepared] at ran'
      cases ran'
      exact (Array.append_empty).symm
    | ok program =>
      rw [run_of_ok prepared] at ran
      obtain ⟨⟨result, between⟩, interpreted, same⟩ := Option.map_eq_some_iff.mp ran
      cases same
      rcases interpret_withMaxCallDepth le interpreted with ⟨fuel', ran'⟩ | ⟨⟨line, stopped⟩, longer⟩
      · refine ⟨fun _ => ⟨fuel', after.withMaxCallDepth m, ?_, rfl, rfl, rfl⟩,
          fun _ {_ outcome' after'} other => ⟨#[], ?_⟩⟩
        · rw [run_of_ok prepared, ran']
          rfl
        · rw [run_of_ok prepared] at other
          obtain ⟨⟨result', between'⟩, interpreted', same'⟩ := Option.map_eq_some_iff.mp other
          cases same'
          cases interpret_unique interpreted' ran'
          exact Array.append_empty.symm
      · refine ⟨fun other => absurd ⟨line, by rw [stopped]; rfl⟩ other, fun _ {fuel' _ _} ran' => ?_⟩
        rw [run_of_ok prepared] at ran'
        obtain ⟨⟨result', between'⟩, interpreted', same'⟩ := Option.map_eq_some_iff.mp ran'
        cases same'
        exact longer interpreted'
  · have rest := history.atRest (State.atRest_start settings sink clock)
    have counts := moment.counts rest.callDepth
    exact ⟨counts.callDepth, counts.limit⟩

/-- A function that calls itself once, under the limits of one call and of two and three calls. -/
theorem run_withMaxCallDepth_recursion :
    (∃ fuel after, ((start {} .unlimited (.ticking 0)).withMaxCallDepth 3).run fuel
        "fun f(x) \x7b print x; if (x) f(!x); \x7d f(true);" = some (.ok (), after) ∧
      after.printed = #["true", "false"]) ∧
    ∀ {fuel outcome after}, ((start {} .unlimited (.ticking 0)).withMaxCallDepth 2).run fuel
        "fun f(x) \x7b print x; if (x) f(!x); \x7d f(true);" = some (outcome, after) →
      ∃ more, after.printed = #["true"] ++ more := by
  have under (limit : Nat) {outcome : Except Failure Unit} {printed : Array String}
      (ran : (((start {} .unlimited (.ticking 0)).withMaxCallDepth limit).run 1000
        "fun f(x) \x7b print x; if (x) f(!x); \x7d f(true);").map (fun ran => (ran.1, ran.2.printed)) =
          some (outcome, printed)) :
      ∃ after, ((start {} .unlimited (.ticking 0)).withMaxCallDepth limit).run 1000
        "fun f(x) \x7b print x; if (x) f(!x); \x7d f(true);" = some (outcome, after) ∧
          after.printed = printed := by
    obtain ⟨⟨outcome, after⟩, found, same⟩ := Option.map_eq_some_iff.mp ran
    cases same
    exact ⟨after, found, rfl⟩
  have limits {n m : Nat} (le : n ≤ m) :=
    run_withMaxCallDepth (.nil (start {} .unlimited (.ticking 0))) le
      "fun f(x) \x7b print x; if (x) f(!x); \x7d f(true);"
  constructor
  · obtain ⟨after, ran, printed⟩ := under 2 (show _ = some (.ok (), #["true", "false"]) by
      decide +kernel)
    obtain ⟨fuel, after', ran', same, -⟩ := ((limits (by decide : 2 ≤ 3)).1 ran).1 nofun
    exact ⟨fuel, after', ran', same.trans printed⟩
  · obtain ⟨after, ran, printed⟩ := under 1 (show _ = some
      (.error (.stopped (.error ⟨1, .tooManyCalls⟩)), #["true"]) by decide +kernel)
    rw [← printed]
    exact ((limits (by decide : 1 ≤ 2)).1 ran).2 ⟨1, rfl⟩

end Session

end Lox
