import Mathlib
import Lox.Proofs.Session.Moved
import Lox.Proofs.Session.Rest
import Lox.Proofs.Syntax.Joined
import Lox.Proofs.Token.Joined

/-!
# Sources behind one another

A source behind another one, on the next line, does what it does by itself, when it is run after that
one (`Session.run_append_newline`).  Only the lines of its own text are further down, and so are those of
errors that arise from it.

At each stage there is nothing that is carried over: no token and no statement reaches from the one
source into the other (`scan_append_newline`, `parseProgram_append`), the scopes of the first one are
closed (`resolveProgram_append`), and a session is at rest between its runs (`State.AtRest`).
-/

namespace Lox

open Evaluation

/-! ## Programs that run one after the other -/

theorem Eval.program_append (first second : List Stmt) :
    Eval.program (first ++ second) = Eval.program first >>= fun _ => Eval.program second := by
  induction first with
  | nil => rfl
  | cons s rest ih => rw [List.cons_append, Eval.program, Eval.program, Eval.bind_assoc, ih]

namespace Session

variable {session between after : Session} {first second program : List Stmt}

/-- What a program comes to in a session at rest, by the depth to which questions nest. -/
theorem exists_interpret_iff_eval (rest : session.state.AtRest)
    {outcome : Except Stop Unit × Session} :
    (∃ fuel, session.interpret fuel program = some outcome) ↔ ∃ depth,
      (Eval.program program session.state).eval (evaluation.solve depth) =
        some (outcome.1, outcome.2.state) := by
  have solved (depth : Nat) : evaluation.solve (depth + 1) .program ⟨.run program, session.state⟩ =
      ((Eval.program program session.state).eval (evaluation.solve depth)).map
        fun ended => ⟨ended.1, ended.2⟩ := by
    rw [← Eval.resetting_program rest, Rules.solve_succ]
    change (Plan.eval _ ((Eval.resetting (Eval.program program) session.state >>= _) >>= _)).bind _ = _
    rw [Plan.eval_bind, Plan.eval_bind]
    cases (Eval.resetting (Eval.program program) session.state).eval (evaluation.solve depth) with
    | none => rfl
    | some ended =>
      obtain ⟨result, st⟩ := ended
      cases result <;> rfl
  obtain ⟨result, ⟨st⟩⟩ := outcome
  rw [exists_interpret_iff, Rules.Answers]
  constructor
  · rintro ⟨fuel, found⟩
    cases fuel with
    | zero => cases found
    | succ depth =>
      rw [solved, Option.map_eq_some_iff] at found
      obtain ⟨ended, evaluated, same⟩ := found
      cases same
      exact ⟨depth, evaluated⟩
  · rintro ⟨depth, evaluated⟩
    exact ⟨depth + 1, by rw [solved, evaluated]; rfl⟩

/-- **Programs in sequence.**  The second one runs in the session that the first one leaves, unless that
one fails. -/
theorem exists_interpret_append_iff (rest : session.state.AtRest)
    {outcome : Except Stop Unit × Session} :
    (∃ fuel, session.interpret fuel (first ++ second) = some outcome) ↔
      (∃ fuel stop, outcome.1 = .error stop ∧ session.interpret fuel first = some outcome) ∨
      ∃ fuel between, session.interpret fuel first = some (.ok (), between) ∧
        ∃ fuel', between.interpret fuel' second = some outcome := by
  obtain ⟨result, after⟩ := outcome
  rw [exists_interpret_iff_eval rest, Eval.program_append]
  simp only [Eval.bind_apply, Plan.eval_bind, Option.bind_eq_some_iff]
  constructor
  · rintro ⟨depth, ⟨ended, st⟩, evaluated, rest'⟩
    have ran : ∃ fuel, session.interpret fuel first = some (ended, ⟨st⟩) :=
      (exists_interpret_iff_eval rest).mpr ⟨depth, evaluated⟩
    obtain ⟨fuel, ran⟩ := ran
    cases ended with
    | error stop =>
      cases rest'
      exact .inl ⟨fuel, stop, rfl, ran⟩
    | ok _ =>
      exact .inr ⟨fuel, ⟨st⟩, ran, (exists_interpret_iff_eval (atRest_interpret rest ran)).mpr ⟨depth, rest'⟩⟩
  · rintro (⟨fuel, stop, rfl, ran⟩ | ⟨fuel, between, ran, ran'⟩)
    · obtain ⟨depth, evaluated⟩ := (exists_interpret_iff_eval rest).mp ⟨fuel, ran⟩
      exact ⟨depth, _, evaluated, rfl⟩
    · obtain ⟨depth, evaluated⟩ := (exists_interpret_iff_eval rest).mp ⟨fuel, ran⟩
      obtain ⟨depth', evaluated'⟩ :=
        (exists_interpret_iff_eval (atRest_interpret rest ran)).mp ran'
      have more {n : Nat} (le : n ≤ max depth depth') kind (q : Question kind) (r : Answer kind)
          (found : evaluation.solve n kind q = some r) :=
        evaluation.solve_mono le q found
      exact ⟨max depth depth', _, Plan.eval_mono (more (Nat.le_max_left ..)) _ evaluated,
        Plan.eval_mono (more (Nat.le_max_right ..)) _ evaluated'⟩

/-! ## Sources -/

/-- Where a line of a source is when the source stands behind another one. -/
def lineBehind (first : String) (line : Nat) : Nat := line + (first.toList.count '\n' + 1)

/-- **Two sources that are ready to run are so together**, the second one on lines further down. -/
theorem prepare_append_newline {first second : String} {program program' : List Stmt}
    (prepared : prepare first = .ok program) (prepared' : prepare second = .ok program') :
    prepare (first ++ "\n" ++ second) =
      .ok (program ++ Stmt.relabelAll (.lines (lineBehind first)) program') := by
  obtain ⟨scanned, parsed, resolved⟩ := prepare_eq_ok_iff.mp prepared
  obtain ⟨scanned', -⟩ := prepare_eq_ok_iff.mp prepared'
  obtain ⟨parsed', resolved'⟩ := resolveProgram_moved prepared' (lineBehind first)
  obtain ⟨body, last, tokens, isEnd, noEnd, joined⟩ := scan_append_newline first second
  have behind : ((scan second).below (first.toList.count '\n' + 1)).tokens =
      (scan second).tokens.map fun t => { t with line := lineBehind first t.line } := rfl
  have complete {tokens : List Token} (none : (parseProgram tokens).errors = []) :
      parseProgram tokens = ⟨(parseProgram tokens).statements, []⟩ := by
    rw [← none]
  have names := parsed_parseProgram (names_scan first)
  rw [tokens] at parsed resolved names
  have both := parseProgram_append isEnd noEnd (complete parsed) (complete parsed')
  rw [← behind] at both resolved'
  refine prepare_eq_ok_iff.mpr ?_
  rw [joined]
  simp only [both]
  refine ⟨?_, trivial, resolveProgram_append names resolved resolved'⟩
  rw [scanned, Scan.below, scanned']
  rfl

theorem exists_of_isOk_prepare {source : String} (h : (prepare source).isOk = true) :
    ∃ program, prepare source = .ok program := by
  cases prepared : prepare source with
  | error _ => simp [prepared, Except.isOk, Except.toBool] at h
  | ok program => exact ⟨program, rfl⟩

/-- How a program ends in the place of where it ended like this in a session, if its lines have been
changed: the same way, but if it fails at a line of its own, that is another line now
(`EndsMoved.moves`, `EndsMoved.stays`). -/
inductive EndsMoved (session : Session) (program : List Stmt) (m : Nat → Nat) :
    Except Failure Unit → Except Failure Unit → Prop
  | ok : EndsMoved session program m (.ok ()) (.ok ())
  | own {stop : Stop} (own : session.StopsAt program stop true) :
      EndsMoved session program m (.error (.stopped stop)) (.error (.stopped (stop.moved m)))
  | other {stop : Stop} (other : session.StopsAt program stop false) :
      EndsMoved session program m (.error (.stopped stop)) (.error (.stopped stop))

namespace EndsMoved

variable {source : String} {m : Nat → Nat} {e : RuntimeError} {outcome : Except Failure Unit}
  (h : session.EndsMoved program m (.error (.stopped (.error e))) outcome)
  (prepared : prepare source = .ok program)

include h prepared

/-- **A failure at a line on which nothing has been run before is at another line now.** -/
theorem moves {settings : Settings} {sink : Sink} {clock : Clock} {steps : List Step}
    {replies : List Reply} (history : (start settings sink clock).Follows steps replies session)
    (new : ∀ step ∈ steps, ∀ earlier, step.command = .run earlier →
      ∀ t ∈ (scan earlier).tokens, t.isEnd = false → t.line ≠ e.line) :
    outcome = .error (.stopped (.error { e with line := m e.line })) := by
  cases h with
  | own => rfl
  | other stays =>
    obtain ⟨fuel, after, ran⟩ := stays id
    rw [Stmt.relabelAll_id, ite_self, Stop.moved_id] at ran
    cases (stopsAt_own history prepared ran new).unique stays

/-- **A failure at a line on which the source itself has nothing is where it was.** -/
theorem stays (none : ∀ t ∈ (scan source).tokens, t.isEnd = false → t.line ≠ e.line) :
    outcome = .error (.stopped (.error e)) := by
  cases h with
  | own moves =>
    obtain ⟨t, mem, more, onLine⟩ := moves.exists_token prepared
    exact absurd onLine (none t mem more)
  | other => rfl

end EndsMoved

section Moved

variable (h : ∀ f, session.Varies (.moved f) session) {source : String}
  (prepared : prepare source = .ok program) {m back : Nat → Nat}
  (inverse : ∀ line, back (m line) = line) {fuel : Nat} {result : Except Stop Unit}

include h prepared inverse

/-- What a moved program does, it does where it was before. -/
theorem exists_interpret_back
    (ran : session.interpret fuel (Stmt.relabelAll (.lines m) program) = some (result, after)) :
    ∃ fuel' result' after', session.interpret fuel' program = some (result', after') ∧
      after.Varies (.moved back) after' := by
  have restored : Stmt.relabelAll (.lines back) (Stmt.relabelAll (.lines m) program) = program := by
    rw [Stmt.relabelAll_relabelAll]
    refine .trans ?_ (Stmt.relabelAll_id program)
    exact congrArg (fun lines => Stmt.relabelAll (.lines lines) program) (funext inverse)
  have right : ∀ part ∈ Stmt.nodesAll [] (Stmt.relabelAll (.lines back)
      (Stmt.relabelAll (.lines m) program)), part.2.Right part.1 := by
    rw [restored]
    exact right_of_prepare prepared
  obtain ⟨m', -, fuel', after', ran', varies⟩ :=
    (h back).interpret_moved (right_moved prepared m) right ran
  rw [restored] at ran'
  exact ⟨fuel', _, after', ran', varies⟩

/-- A program that is moved ends as it does where it is. -/
theorem exists_interpret_moved (ran : session.interpret fuel program = some (result, after)) :
    ∃ fuel' result' after',
      session.interpret fuel' (Stmt.relabelAll (.lines m) program) = some (result', after') ∧
        session.EndsMoved program m (result.mapError .stopped) (result'.mapError .stopped) ∧
        after.LooksLike after' := by
  obtain ⟨m', -, fuel', after', ran', varies⟩ :=
    (h m).interpret_moved (right_of_prepare prepared) (right_moved prepared m) ran
  obtain ⟨_, _, after'', again, varies'⟩ := exists_interpret_back h prepared inverse ran'
  obtain ⟨-, rfl⟩ := Prod.mk.inj (interpret_unique again ran)
  refine ⟨fuel', _, after', ran', ?_, varies.looksLike varies'⟩
  cases result with
  | ok _ => exact .ok
  | error stop =>
    obtain ⟨own, stops⟩ := exists_stopsAt h prepared ran
    obtain ⟨_, _, moved⟩ := stops m
    obtain ⟨same, -⟩ := Prod.mk.inj (interpret_unique ran' moved)
    rw [same]
    cases own with
    | false =>
      rw [if_neg Bool.false_ne_true, Stop.moved_id]
      exact .other stops
    | true => exact .own stops

end Moved

/-- **Whether two sources are run one after the other or as one makes no difference.**  If nothing is
wrong with either of them before it runs, nothing is wrong with the two as one, a newline between them.
Where the first one fails, the two as one fail in the same way and leave the same session.  Where it
ends, they end as the second one does in the session that the first one leaves, and the sessions look
the same in the end; only the lines of the second text are further down.  And they end in no other
case. -/
theorem run_append_newline {settings : Settings} {sink : Sink} {clock : Clock} {steps : List Step}
    {replies : List Reply} (history : (start settings sink clock).Follows steps replies session)
    {first second : String} {program program' : List Stmt} (prepared : prepare first = .ok program)
    (prepared' : prepare second = .ok program') :
    let joined := first ++ "\n" ++ second
    (∃ both, prepare joined = .ok both) ∧
    (∀ {fuel failure after}, session.run fuel first = some (.error failure, after) →
      ∃ fuel', session.run fuel' joined = some (.error failure, after)) ∧
    (∀ {fuel between}, session.run fuel first = some (.ok (), between) →
      ∀ {fuel' outcome after}, between.run fuel' second = some (outcome, after) →
        ∃ fuel'' outcome' after', session.run fuel'' joined = some (outcome', after') ∧
          between.EndsMoved program' (lineBehind first) outcome outcome' ∧
          after.LooksLike after') ∧
    (∀ {fuel outcome}, session.run fuel joined = some outcome →
      ∃ fuel' outcome', session.run fuel' first = some outcome' ∧
        ∀ {between}, outcome' = (.ok (), between) →
          ∃ fuel'' outcome'', between.run fuel'' second = some outcome'') := by
  have both := prepare_append_newline prepared prepared'
  have rest := history.atRest (State.atRest_start settings sink clock)
  obtain ⟨back, inverse⟩ : ∃ back : Nat → Nat, ∀ line, back (lineBehind first line) = line :=
    ⟨(· - (first.toList.count '\n' + 1)), fun _ => Nat.add_sub_cancel ..⟩
  -- The session that the first source leaves is one that has run, too.
  have movable {fuel between} (ran : session.interpret fuel program = some (.ok (), between)) f :
      between.Varies (.moved f) between :=
    (varies_moved_of_follows history f).interpret_self (plain_of_prepare prepared) (.inl rfl)
      (Stmt.relabelAll_id _) (fun part mem => ⟨right_of_prepare prepared part mem, trivial⟩) ran
  refine ⟨⟨_, both⟩, ?fails, ?ends, ?back⟩
  case fails =>
    intro fuel failure after h
    obtain ⟨result, ran, same⟩ := (run_eq_some_iff prepared).mp h
    cases result with
    | ok _ => cases same
    | error stop =>
      cases same
      obtain ⟨fuel', joined⟩ := (exists_interpret_append_iff rest).mpr (.inl ⟨fuel, stop, rfl, ran⟩)
      exact ⟨fuel', (run_eq_some_iff both).mpr ⟨_, joined, rfl⟩⟩
  case ends =>
    intro fuel between h fuel' outcome after h'
    obtain ⟨result, ran, same⟩ := (run_eq_some_iff prepared).mp h
    cases result with
    | error _ => cases same
    | ok _ =>
      obtain ⟨result', ran', rfl⟩ := (run_eq_some_iff prepared').mp h'
      obtain ⟨_, moved, after', behind, ends, looks⟩ :=
        exists_interpret_moved (movable ran) prepared' inverse ran'
      obtain ⟨_, joined⟩ := (exists_interpret_append_iff rest).mpr (.inr ⟨_, _, ran, _, behind⟩)
      exact ⟨_, _, after', (run_eq_some_iff both).mpr ⟨_, joined, rfl⟩, ends, looks⟩
  case back =>
    rintro fuel ⟨outcome, after⟩ h
    obtain ⟨result, joined, -⟩ := (run_eq_some_iff both).mp h
    rcases (exists_interpret_append_iff rest).mp ⟨_, joined⟩ with
      ⟨fuel, stop, same, ran⟩ | ⟨fuel, between, ran, fuel', behind⟩
    · refine ⟨fuel, _, (run_eq_some_iff prepared).mpr ⟨_, ran, rfl⟩, fun ended => ?_⟩
      obtain rfl : result = .error stop := same
      cases ended
    · refine ⟨fuel, _, (run_eq_some_iff prepared).mpr ⟨_, ran, rfl⟩, fun ended => ?_⟩
      cases ended
      obtain ⟨fuel', result', after', ran', -⟩ :=
        exists_interpret_back (movable ran) prepared' inverse behind
      exact ⟨fuel', _, (run_eq_some_iff prepared').mpr ⟨_, ran', rfl⟩⟩

/-- A function that an earlier source has declared is called by two sources, one behind the other.  Where
the second one fails in its own text, the line of the error is further down in the two as one; where it
fails in that function, the line is the same. -/
theorem run_append_newline_negation :
    let declaration : Step := ⟨0, .run "fun f(x) \x7b return -x; \x7d"⟩
    let first := "var a = 1;\nprint f(a);"
    let own := "\n\nprint -\"a\";"
    let other := "\nprint f(\"a\");"
    let fails (line : Nat) : Except Failure Unit :=
      .error (.stopped (.error ⟨line, .operandNotANumber⟩))
    (∃ session fuel after,
      (start {} .unlimited (.ticking 0)).Follows [declaration] [.ran #[] (.ok ())] session ∧
      session.run fuel (first ++ "\n" ++ "a = f; print a(2);") = some (.ok (), after) ∧
      after.printed = #["-1", "-2"]) ∧
    (∃ session apart fuel after,
      (start {} .unlimited (.ticking 0)).Follows [declaration] [.ran #[] (.ok ())] session ∧
      session.Follows [⟨0, .run first⟩, ⟨0, .run own⟩]
        [.ran #["-1"] (.ok ()), .ran #["-1"] (fails 3)] apart ∧
      session.run fuel (first ++ "\n" ++ own) = some (fails 5, after)) ∧
    ∃ session apart fuel after,
      (start {} .unlimited (.ticking 0)).Follows [declaration] [.ran #[] (.ok ())] session ∧
      session.Follows [⟨0, .run first⟩, ⟨0, .run other⟩]
        [.ran #["-1"] (.ok ()), .ran #["-1"] (fails 1)] apart ∧
      session.run fuel (first ++ "\n" ++ other) = some (fails 1, after) := by
  intro declaration first own other fails
  obtain ⟨program, prepared⟩ :=
    exists_of_isOk_prepare (show (prepare first).isOk = true by decide +kernel)
  have joins {second : String} {program' : List Stmt} (prepared' : prepare second = .ok program')
      (printed : Array String) (outcome : Except Failure Unit)
      (replies : (start {} .unlimited (.ticking 0)).replies? 1000
          [declaration, ⟨0, .run first⟩, ⟨0, .run second⟩] =
        some [.ran #[] (.ok ()), .ran #["-1"] (.ok ()), .ran printed outcome]) :
      ∃ session between apart fuel outcome' after,
        (start {} .unlimited (.ticking 0)).Follows [declaration] [.ran #[] (.ok ())] session ∧
        (start {} .unlimited (.ticking 0)).Follows [declaration, ⟨0, .run first⟩]
          [.ran #[] (.ok ()), .ran #["-1"] (.ok ())] between ∧
        session.Follows [⟨0, .run first⟩, ⟨0, .run second⟩]
          [.ran #["-1"] (.ok ()), .ran printed outcome] apart ∧
        session.run fuel (first ++ "\n" ++ second) = some (outcome', after) ∧
        between.EndsMoved program' (lineBehind first) outcome outcome' ∧ after.printed = printed := by
    obtain ⟨apart, history⟩ := exists_follows_of_replies? replies
    cases history with
    | @cons _ session _ _ _ _ _ _ obeyed follows =>
      obtain ⟨fuel, between, ran, same, rest⟩ := follows.exists_run
      obtain ⟨_, after, ran', rfl, -⟩ := rest.exists_run
      have obeyed' : session.obey fuel (.run first) = some (.ran #["-1"] (.ok ()), between) := by
        rw [obey, ran, ← same]
        rfl
      obtain ⟨-, -, ends, -⟩ :=
        run_append_newline (.cons obeyed (.nil session)) prepared prepared'
      obtain ⟨fuel', outcome', after', joined, moved, looks⟩ := ends ran ran'
      exact ⟨session, between, apart, fuel', outcome', after', .cons obeyed (.nil session),
        .cons obeyed (.cons obeyed' (.nil between)), follows, joined, moved, looks.printed.symm⟩
  refine ⟨?succeeds, ?fails, ?stays⟩
  case succeeds =>
    obtain ⟨_, prepared'⟩ :=
      exists_of_isOk_prepare (show (prepare "a = f; print a(2);").isOk = true by decide +kernel)
    obtain ⟨session, _, _, fuel, _, after, before, -, -, joined, moved, printed⟩ :=
      joins prepared' #["-1", "-2"] (.ok ()) (by decide +kernel)
    cases moved
    exact ⟨session, fuel, after, before, joined, printed⟩
  case fails =>
    obtain ⟨_, prepared'⟩ :=
      exists_of_isOk_prepare (show (prepare own).isOk = true by decide +kernel)
    obtain ⟨session, _, apart, fuel, _, after, before, history, follows, joined, moved, -⟩ :=
      joins prepared' #["-1"] (fails 3) (by decide +kernel)
    -- Nothing that has been run before has a third line.
    have new : ∀ step ∈ [declaration, ⟨0, .run first⟩], ∀ earlier, step.command = .run earlier →
        ∀ t ∈ (scan earlier).tokens, t.isEnd = false → t.line ≠ 3 := by
      simp only [List.forall_mem_cons]
      refine ⟨?_, ?_, List.forall_mem_nil _⟩
      · rintro _ ⟨rfl⟩
        decide +kernel
      · rintro _ ⟨rfl⟩
        decide +kernel
    rw [moved.moves prepared' history new, show lineBehind first 3 = 5 by decide +kernel] at joined
    exact ⟨session, apart, fuel, after, before, follows, joined⟩
  case stays =>
    obtain ⟨_, prepared'⟩ :=
      exists_of_isOk_prepare (show (prepare other).isOk = true by decide +kernel)
    obtain ⟨session, _, apart, fuel, _, after, before, -, follows, joined, moved, -⟩ :=
      joins prepared' #["-1"] (fails 1) (by decide +kernel)
    rw [moved.stays prepared' (by decide +kernel)] at joined
    exact ⟨session, apart, fuel, after, before, follows, joined⟩

end Session

end Lox
