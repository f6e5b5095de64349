import Lox.Proofs.Plan.Lockstep
import Lox.Session

/-!
# Histories of sessions

What can be done with a session, and what is seen of it.  A **command** runs a source, reads a global
variable, compares two of them or collects garbage, and the **reply** is what its sender gets to see:
of a value its sort, its text and whether it counts as true, and of a collection the number of
survivors.

A history is a list of steps, each a command that comes after any number of collections of its own
(`Session.Follows`).  A source that does not come to an end has no reply, and nothing follows it.
-/

namespace Lox

/-- The sorts of values. -/
inductive ValueSort where
  | nil | boolean | number | string | function | native | class_ | instance_
  deriving DecidableEq, Repr

/-- What is seen of a value. -/
structure Appearance where
  sort : ValueSort
  text : String
  isTruthy : Bool
  deriving DecidableEq, Repr

namespace Value

/-- The sort of a value. -/
def sort : Value → ValueSort
  | nil => .nil
  | boolean _ => .boolean
  | number _ => .number
  | string _ => .string
  | function _ _ => .function
  | native _ _ => .native
  | class_ _ => .class_
  | instance_ _ => .instance_

/-- What is seen of a value. -/
def appearance (v : Value) : Appearance := ⟨v.sort, v.text, v.isTruthy⟩

end Value

namespace Session

/-- What a session can be told to do. -/
inductive Command where
  /-- Run a source. -/
  | run (source : String)
  /-- Read a global variable. -/
  | read (name : String)
  /-- Compare two global variables. -/
  | compare (left right : String)
  /-- Collect garbage. -/
  | collect

/-- What is seen of a session that has obeyed a command. -/
inductive Reply where
  /-- Everything printed so far, and whether the source ran to its end. -/
  | ran (printed : Array String) (outcome : Except Failure Unit)
  /-- The value of a variable, if it is bound. -/
  | read (seen : Option Appearance)
  /-- Are the values the same?  There is no saying if one of them is not bound. -/
  | compared (verdict : Option Bool)
  /-- What is left after a collection. -/
  | collected (liveFrames liveInstances : Nat)

/-- Are the values of two global variables the same? -/
def compare (session : Session) (left right : String) : Option Bool := do
  return (← session.global? left).isEqual (← session.global? right)

/-- Obey a command. -/
def obey (session : Session) (fuel : Nat) : Command → Option (Reply × Session)
  | .run source =>
      (session.run fuel source).map fun (outcome, after) => (.ran after.printed outcome, after)
  | .read name => some (.read ((session.global? name).map Value.appearance), session)
  | .compare left right => some (.compared (session.compare left right), session)
  | .collect =>
      let (collection, after) := session.collect
      some (.collected collection.liveFrames collection.liveInstances, after)

/-- Collect garbage so many times. -/
def collectTimes (session : Session) : Nat → Session
  | 0 => session
  | n + 1 => session.collect.2.collectTimes n

/-- A command, and how often garbage is collected before it. -/
structure Step where
  collections : Nat
  command : Command

/-- The session takes the steps one after the other, each of which comes to a reply. -/
inductive Follows : Session → List Step → List Reply → Session → Prop
  | nil (session : Session) : Follows session [] [] session
  | cons {session between after : Session} {step : Step} {steps : List Step} {fuel : Nat}
      {reply : Reply} {replies : List Reply}
      (obeyed : (session.collectTimes step.collections).obey fuel step.command =
        some (reply, between))
      (rest : Follows between steps replies after) :
      Follows session (step :: steps) (reply :: replies) after

/-- The replies to steps that are each over within so much fuel. -/
def replies? (session : Session) (fuel : Nat) : List Step → Option (List Reply)
  | [] => some []
  | step :: steps => do
      let (reply, after) ← (session.collectTimes step.collections).obey fuel step.command
      return reply :: (← after.replies? fuel steps)

theorem exists_follows_of_replies? {session : Session} {fuel : Nat} {steps : List Step}
    {replies : List Reply} (h : session.replies? fuel steps = some replies) :
    ∃ after, session.Follows steps replies after := by
  induction steps generalizing session replies with
  | nil =>
    cases h
    exact ⟨session, .nil session⟩
  | cons step steps ih =>
    obtain ⟨⟨reply, between⟩, obeyed, h⟩ := Option.bind_eq_some_iff.mp h
    obtain ⟨rest, found, same⟩ := Option.bind_eq_some_iff.mp h
    cases same
    obtain ⟨after, follows⟩ := ih found
    exact ⟨after, .cons obeyed follows⟩

/-! ## There is one history -/

variable {session : Session} {source : String} {program : List Stmt}

theorem run_of_error {failure : Failure} (h : prepare source = .error failure) (fuel : Nat) :
    session.run fuel source = some (.error failure, session) := by
  simp only [run, h]

theorem run_of_ok (h : prepare source = .ok program) (fuel : Nat) :
    session.run fuel source = (session.interpret fuel program).map fun (result, session) =>
      (result.mapError .stopped, session) := by
  simp only [run, h]

theorem run_eq_some_iff (h : prepare source = .ok program) {fuel : Nat}
    {outcome : Except Failure Unit} {after : Session} :
    session.run fuel source = some (outcome, after) ↔
      ∃ result, session.interpret fuel program = some (result, after) ∧
        outcome = result.mapError .stopped := by
  rw [run_of_ok h, Option.map_eq_some_iff]
  constructor
  · rintro ⟨⟨result, _⟩, ran, same⟩
    cases same
    exact ⟨result, ran, rfl⟩
  · rintro ⟨result, ran, rfl⟩
    exact ⟨(result, after), ran, rfl⟩

/-- What can become of a command: the reply, and the session that is left. -/
inductive Obeys (session : Session) (fuel : Nat) : Command → Reply → Session → Prop
  /-- The source has errors that show before it runs. -/
  | rejected {source : String} {failure : Failure} (prepared : prepare source = .error failure) :
      Obeys session fuel (.run source) (.ran session.printed (.error failure)) session
  | ran {source : String} {program : List Stmt} {result : Except Stop Unit} {after : Session}
      (prepared : prepare source = .ok program)
      (ran : session.interpret fuel program = some (result, after)) :
      Obeys session fuel (.run source) (.ran after.printed (result.mapError .stopped)) after
  | read (name : String) :
      Obeys session fuel (.read name) (.read ((session.global? name).map Value.appearance)) session
  | compare (left right : String) :
      Obeys session fuel (.compare left right) (.compared (session.compare left right)) session
  | collect : Obeys session fuel .collect
      (.collected session.collect.1.liveFrames session.collect.1.liveInstances) session.collect.2

theorem obey_eq_some_iff {fuel : Nat} {command : Command} {reply : Reply} {after : Session} :
    session.obey fuel command = some (reply, after) ↔ session.Obeys fuel command reply after := by
  constructor
  · intro obeyed
    cases command with
    | run source =>
      obtain ⟨⟨outcome, between⟩, ran, same⟩ := Option.map_eq_some_iff.mp obeyed
      cases same
      cases prepared : prepare source with
      | error failure =>
        rw [run_of_error prepared] at ran
        cases ran
        exact .rejected prepared
      | ok program =>
        obtain ⟨result, interpreted, rfl⟩ := (run_eq_some_iff prepared).mp ran
        exact .ran prepared interpreted
    | read name =>
      cases obeyed
      exact .read name
    | compare left right =>
      cases obeyed
      exact .compare left right
    | collect =>
      cases obeyed
      exact .collect
  · intro obeys
    cases obeys with
    | rejected prepared =>
      rw [obey, run_of_error prepared]
      rfl
    | ran prepared ran =>
      rw [obey, (run_eq_some_iff prepared).mpr ⟨_, ran, rfl⟩]
      rfl
    | read | compare | collect => rfl

/-- A history that begins with a source goes on from where that source leaves the session. -/
theorem Follows.exists_run {steps : List Step} {printed : Array String}
    {outcome : Except Failure Unit} {replies : List Reply} {after : Session}
    (h : session.Follows (⟨0, .run source⟩ :: steps) (.ran printed outcome :: replies) after) :
    ∃ fuel between, session.run fuel source = some (outcome, between) ∧ between.printed = printed ∧
      between.Follows steps replies after := by
  cases h with
  | cons obeyed rest =>
    obtain ⟨_, ran, same⟩ := Option.map_eq_some_iff.mp obeyed
    cases same
    exact ⟨_, _, ran, rfl, rest⟩

/-- A program comes to an answer if and only if evaluation does. -/
theorem exists_interpret_iff {outcome : Except Stop Unit × Session} :
    (∃ fuel, session.interpret fuel program = some outcome) ↔
      evaluation.Answers .program ⟨.run program, session.state⟩ ⟨outcome.1, outcome.2.state⟩ := by
  rw [Rules.Answers, ← Rules.exists_run_iff]
  obtain ⟨result, ⟨st⟩⟩ := outcome
  refine exists_congr fun fuel => ?_
  simp only [interpret, Option.map_eq_some_iff, Prod.mk.injEq, Session.mk.injEq]
  constructor
  · rintro ⟨answer, found, rfl, rfl⟩
    exact found
  · exact fun found => ⟨_, found, rfl, rfl⟩

/-- A program comes to the same whenever it is run from a session. -/
theorem interpret_unique {fuel fuel' : Nat} {outcome outcome' : Except Stop Unit × Session}
    (ran : session.interpret fuel program = some outcome)
    (ran' : session.interpret fuel' program = some outcome') : outcome = outcome' := by
  have unique := (exists_interpret_iff.mp ⟨fuel, ran⟩).unique (exists_interpret_iff.mp ⟨fuel', ran'⟩)
  obtain ⟨result, ⟨st⟩⟩ := outcome
  obtain ⟨result', ⟨st'⟩⟩ := outcome'
  cases unique
  rfl

theorem obey_unique {fuel fuel' : Nat} {command : Command} {reply reply' : Reply}
    {after after' : Session} (h : session.obey fuel command = some (reply, after))
    (h' : session.obey fuel' command = some (reply', after')) : reply = reply' ∧ after = after' := by
  have obeys := obey_eq_some_iff.mp h
  have obeys' := obey_eq_some_iff.mp h'
  cases obeys with
  | rejected prepared =>
    cases obeys' with
    | rejected prepared' =>
      cases prepared.symm.trans prepared'
      exact ⟨rfl, rfl⟩
    | ran prepared' _ => cases prepared.symm.trans prepared'
  | ran prepared ran =>
    cases obeys' with
    | rejected prepared' => cases prepared.symm.trans prepared'
    | ran prepared' ran' =>
      cases prepared.symm.trans prepared'
      cases interpret_unique ran ran'
      exact ⟨rfl, rfl⟩
  | read | compare | collect =>
    cases obeys'
    exact ⟨rfl, rfl⟩

/-- A session has one history: the steps fix the replies and what becomes of the session. -/
theorem Follows.unique {steps : List Step} {replies replies' : List Reply} {after after' : Session}
    (h : session.Follows steps replies after) (h' : session.Follows steps replies' after') :
    replies = replies' ∧ after = after' := by
  induction h generalizing replies' with
  | nil session =>
    cases h'
    exact ⟨rfl, rfl⟩
  | cons obeyed _ ih =>
    cases h' with
    | cons obeyed' rest' =>
      obtain ⟨rfl, rfl⟩ := obey_unique obeyed obeyed'
      obtain ⟨rfl, rfl⟩ := ih rest'
      exact ⟨rfl, rfl⟩

end Session

end Lox
