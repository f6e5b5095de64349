import Lox.Proofs.Ideal.Reachable
import Lox.Proofs.Ideal.Start
import Lox.Proofs.Scope.Prepare
import Lox.Proofs.Session.History

/-!
# Garbage collection is not seen

Two sessions are **alike** if one and the same ideal session stands for both.  Alike sessions give the
same replies to the same commands, and stay alike; and a session is alike to what it is after a
collection.  So the history of a session is the same however often garbage is collected, whether by
force or because it is time to.
-/

namespace Lox

open Simulation

/-- No variable of a program that is ready to run is called `this`. -/
theorem Session.plain_of_prepare {source : String} {program : List Stmt}
    (h : Session.prepare source = .ok program) : Stmt.EveryAll Node.Plain program :=
  Stmt.everyAll_of_nodes fun part mem =>
    (Session.right_of_prepare h part mem).names.of_names fun _ user => user.1

theorem Value.sort_ideal (v : Value) : v.ideal.sort = v.sort := by cases v <;> rfl

@[simp] theorem Value.appearance_ideal (v : Value) : v.ideal.appearance = v.appearance := by
  rw [appearance, appearance, sort_ideal, text_ideal, isTruthy_ideal]

/-! ## A session and its ideal -/

namespace State.Represents

variable {st ideal : State}

theorem collect (h : st.Represents ideal) : st.collect.2.Represents ideal :=
  h.along.collect.represents

theorem global? (h : st.Represents ideal) (name : String) :
    (Session.mk ideal).global? name = ((Session.mk st).global? name).map Value.ideal := by
  obtain ⟨frame, holds⟩ := h.valid.heap.hasGlobals
  simp only [Session.global?, holds.access, h.globals, h.heap.access holds]
  exact Bindings.find?_map ..

theorem bears_global (h : st.Represents ideal) {name : String} {v : Value}
    (bound : (Session.mk st).global? name = some v) : st.heap.Bears v := by
  obtain ⟨frame, holds⟩ := h.valid.heap.hasGlobals
  simp only [Session.global?, holds.access] at bound
  exact h.valid.heap.sound.bears_variable holds bound

/-- What is seen of a variable is told by the ideal. -/
theorem appearance_global (h : st.Represents ideal) (name : String) :
    ((Session.mk st).global? name).map Value.appearance =
      ((Session.mk ideal).global? name).map Value.appearance := by
  rw [h.global?, Option.map_map]
  congr 1
  funext v
  exact v.appearance_ideal.symm

/-- Whether two variables have the same value is told by the ideal. -/
theorem compare (h : st.Represents ideal) (left right : String) :
    (Session.mk st).compare left right = (Session.mk ideal).compare left right := by
  unfold Session.compare
  rw [h.global?, h.global?]
  cases bound : (Session.mk st).global? left with
  | none => rfl
  | some v =>
    cases bound' : (Session.mk st).global? right with
    | none => rfl
    | some w =>
      have equal := Value.isEqual_ideal h.valid.heap.sound (h.bears_global bound)
        (h.bears_global bound')
      exact congrArg some equal.symm

end State.Represents

namespace Session

variable {session session' : Session} {program : List Stmt}

/-- One ideal session stands for both. -/
def Alike (session session' : Session) : Prop :=
  ∃ ideal : State, session.state.Represents ideal ∧ session'.state.Represents ideal

namespace Alike

theorem symm (h : session.Alike session') : session'.Alike session := by
  obtain ⟨ideal, represents, represents'⟩ := h
  exact ⟨ideal, represents', represents⟩

theorem start {settings settings' : Settings}
    (same : settings'.maxCallDepth = settings.maxCallDepth) (sink : Sink) (clock : Clock) :
    (start settings sink clock).Alike (start settings' sink clock) :=
  ⟨.start settings' sink clock, State.represents_start same sink clock,
    State.represents_start rfl sink clock⟩

/-- **A session is alike to what it is after a collection.** -/
theorem collect (h : session.Alike session') : session.collect.2.Alike session' := by
  obtain ⟨ideal, represents, represents'⟩ := h
  exact ⟨ideal, represents.collect, represents'⟩

theorem collectTimes (h : session.Alike session') (n : Nat) :
    (session.collectTimes n).Alike session' := by
  induction n generalizing session with
  | zero => exact h
  | succ n ih => exact ih h.collect

/-! ## Commands -/

theorem printed (h : session.Alike session') : session.printed = session'.printed := by
  obtain ⟨ideal, represents, represents'⟩ := h
  rw [Session.printed, Session.printed, ← represents.sink, ← represents'.sink]

/-- What a program comes to is told by the ideal. -/
theorem result_eq {base ideal : State} {result result' : Except Stop Unit} {st st' : State}
    (h : Answered .program ⟨.run program, base⟩ ⟨.run program, ideal⟩ ⟨result, st⟩ ⟨result', st'⟩) :
    result = result' ∧ st.Represents st' := by
  cases h with
  | ok came => exact ⟨rfl, came.represents⟩
  | error stopped => exact ⟨rfl, stopped.1⟩

/-- Alike sessions come to the same when they run the same program. -/
theorem interpret (h : session.Alike session') (plain : Stmt.EveryAll Node.Plain program)
    {fuel : Nat} {result : Except Stop Unit} {after : Session}
    (ran : session.interpret fuel program = some (result, after)) :
    ∃ fuel' after', session'.interpret fuel' program = some (result, after') ∧
      after.Alike after' := by
  obtain ⟨ideal, represents, represents'⟩ := h
  have keeps := evaluationWith_inStep Along.collectIfDue .any
  have asked : Asked .any _ _ _ := .run represents plain trivial
  have asked' : Asked .any _ _ _ := .run represents' plain trivial
  obtain ⟨⟨ideally, st⟩, known, answered⟩ := (exists_interpret_iff.mp ⟨fuel, ran⟩).inStep keeps asked
  obtain ⟨⟨result', st'⟩, known', answered'⟩ := known.inStep_symm keeps asked'
  obtain ⟨rfl, finally_⟩ := result_eq answered
  obtain ⟨rfl, finally'⟩ := result_eq answered'
  have ran' : ∃ fuel', session'.interpret fuel' program = some (result', ⟨st'⟩) :=
    exists_interpret_iff.mpr known'
  obtain ⟨fuel', ran'⟩ := ran'
  exact ⟨fuel', ⟨st'⟩, ran', st, finally_, finally'⟩

/-- **Alike sessions give the same reply to a command, and stay alike.** -/
theorem obey (h : session.Alike session') {fuel : Nat} {command : Command} {reply : Reply}
    {after : Session} (obeyed : session.obey fuel command = some (reply, after)) :
    ∃ fuel' after', session'.obey fuel' command = some (reply, after') ∧ after.Alike after' := by
  cases obey_eq_some_iff.mp obeyed with
  | rejected prepared =>
    rw [h.printed]
    exact ⟨0, session', obey_eq_some_iff.mpr (.rejected prepared), h⟩
  | ran prepared ran =>
    obtain ⟨fuel', after', ran', alike⟩ := h.interpret (plain_of_prepare prepared) ran
    rw [alike.printed]
    exact ⟨fuel', after', obey_eq_some_iff.mpr (.ran prepared ran'), alike⟩
  | read name =>
    obtain ⟨ideal, represents, represents'⟩ := h
    rw [represents.appearance_global, ← represents'.appearance_global]
    exact ⟨0, session', rfl, ideal, represents, represents'⟩
  | compare left right =>
    obtain ⟨ideal, represents, represents'⟩ := h
    rw [represents.compare, ← represents'.compare]
    exact ⟨0, session', rfl, ideal, represents, represents'⟩
  | collect =>
    refine ⟨0, session'.collect.2, ?_, h.collect.symm.collect.symm⟩
    obtain ⟨ideal, represents, represents'⟩ := h
    obtain ⟨frames, instances⟩ := represents.live_collect represents'
    simp only [Session.obey, Session.collect, frames, instances]

/-- Alike sessions have the same history, and are alike at the end of it. -/
theorem follows {steps steps' : List Step} {replies : List Reply} {after : Session}
    (history : session.Follows steps replies after) (h : session.Alike session')
    (same : steps.map Step.command = steps'.map Step.command) :
    ∃ after', session'.Follows steps' replies after' ∧ after.Alike after' := by
  induction history generalizing session' steps' with
  | nil session =>
    obtain rfl := List.map_eq_nil_iff.mp same.symm
    exact ⟨session', .nil session', h⟩
  | @cons session between after step steps fuel reply replies obeyed _ ih =>
    cases steps' with
    | nil => cases same
    | cons step' steps' =>
      obtain ⟨command, rest⟩ := List.cons.inj same
      have collected := ((h.collectTimes step.collections).symm.collectTimes step'.collections).symm
      obtain ⟨fuel', between', obeyed', alike⟩ := collected.obey obeyed
      obtain ⟨after', follows, finally_⟩ := ih alike rest
      exact ⟨after', .cons (command ▸ obeyed') follows, finally_⟩

end Alike

/-- A session that has run has an ideal. -/
theorem exists_represents {settings : Settings} {sink : Sink} {clock : Clock} {steps : List Step}
    {replies : List Reply} (history : (start settings sink clock).Follows steps replies session) :
    ∃ ideal : State, session.state.Represents ideal := by
  obtain ⟨-, -, ideal, represents, -⟩ := (Alike.start rfl sink clock).follows history rfl
  exact ⟨ideal, represents⟩

/-- **Garbage collection is not seen.**  Two sessions whose settings differ at most in how often
garbage is collected, and which take the same commands, each after any number of collections of its
own, have the same history: the one gets through with some replies if and only if the other does. -/
theorem follows_iff_of_commands {settings settings' : Settings}
    (limit : settings'.maxCallDepth = settings.maxCallDepth) (sink : Sink) (clock : Clock)
    {steps steps' : List Step} (same : steps.map Step.command = steps'.map Step.command)
    (replies : List Reply) :
    (∃ after, (start settings sink clock).Follows steps replies after) ↔
      ∃ after, (start settings' sink clock).Follows steps' replies after := by
  have alike := Alike.start limit sink clock
  constructor
  · rintro ⟨after, history⟩
    obtain ⟨after', history', -⟩ := alike.follows history same
    exact ⟨after', history'⟩
  · rintro ⟨after, history⟩
    obtain ⟨after', history', -⟩ := alike.symm.follows history same.symm
    exact ⟨after', history'⟩

deriving instance DecidableEq for Failure
deriving instance DecidableEq for Reply

/-- What is left of two instances and their methods, with garbage collected at every statement and,
before the last step, by force. -/
theorem follows_class_of_commands :
    ∃ after, (start (Settings.withGcThreshold {} 1) .unlimited (.ticking 0)).Follows
      [⟨0, .run "class A \x7b init(x) \x7b this.x = x; \x7d get() \x7b return this.x; \x7d \x7d"⟩,
        ⟨1, .run "var a = A(A(nil)); print a.get();"⟩, ⟨2, .collect⟩]
      [.ran #[] (.ok ()), .ran #["A instance"] (.ok ()), .collected 1 2] after := by
  have lazily : ∃ after, (start {} .unlimited (.ticking 0)).Follows
      [⟨0, .run "class A \x7b init(x) \x7b this.x = x; \x7d get() \x7b return this.x; \x7d \x7d"⟩,
        ⟨0, .run "var a = A(A(nil)); print a.get();"⟩, ⟨0, .collect⟩]
      [.ran #[] (.ok ()), .ran #["A instance"] (.ok ()), .collected 1 2] after :=
    exists_follows_of_replies? (show replies? _ 1000 _ = _ by decide +kernel)
  refine (follows_iff_of_commands ?limit .unlimited (.ticking 0) ?commands _).mp lazily
  case limit => rfl
  case commands => rfl

end Session

end Lox
