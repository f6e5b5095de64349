import Lox.Proofs.Session.Transparency
import Lox.Proofs.Variation.Rules

/-!
# Sessions in step

Two sessions **vary** if their ideals do, with the globals as the current frame (`Session.Varies`).
Programs that vary from each other, run in such sessions, end alike and leave sessions that vary
(`Session.Varies.interpret`); what is seen of their global variables is the same.

Whatever has been done with a session, it varies from itself (`Session.Varies.follows`).
-/

namespace Lox

open Evaluation Simulation

/-- Two runs end alike. -/
inductive Variation.Outcomes (v : Variation) : Except Stop Unit → Except Stop Unit → Prop
  | ok : Variation.Outcomes v (.ok ()) (.ok ())
  | error {stop stop' : Stop} (varies : stop.Varies v stop') :
      Variation.Outcomes v (.error stop) (.error stop')

/-- Two sessions between runs vary from each other. -/
def Session.Varies (v : Variation) (session session' : Session) : Prop :=
  ∃ (marked : Nat → Bool) (ideal ideal' : State), session.state.Represents ideal ∧
    session'.state.Represents ideal' ∧ ideal.Varies v marked ideal' ∧ ideal.current = ideal.globals

/-! ## The state before anything has run -/

section Start

variable {v : Variation}

theorem Arena.vary_empty {α β : Type} (R : Nat → α → β → Prop) :
    (Arena.empty : Arena α).Vary R (Arena.empty : Arena β) :=
  ⟨fun _ => .none, rfl, rfl, rfl, rfl⟩

theorem Native.not_reserved (native : Native) : ¬Reserved native.name := by
  cases native
  decide

/-- No frame is marked. -/
def Variation.unmarked : Nat → Bool := fun _ => false

theorem Heap.varies_globals (settings : Settings) :
    Heap.Varies v
      ⟨((Heap.new settings).newFrame none).2, ((Heap.new settings).newFrame none).1,
        Variation.unmarked⟩
      ((Heap.new settings).newFrame none).2 where
  frames := (Arena.Vary.alloc (Arena.vary_empty _) ⟨rfl, fun _ => .none, Bindings.suit_empty⟩).2
  instances := Arena.vary_empty _
  nextIdentity := rfl
  outermost := ⟨⟨.empty, none, .program⟩, rfl, rfl⟩
  unmarked := rfl

namespace State

theorem varies_bare (settings : Settings) (sink : Sink) (clock : Clock) :
    (bare settings sink clock).Varies v Variation.unmarked (bare settings sink clock) :=
  ⟨Heap.varies_globals settings, rfl, rfl, rfl, rfl, rfl, rfl⟩

theorem Varies.defineNatives {st : State} (h : st.Varies v Variation.unmarked st)
    (natives : List Native) :
    (st.defineNatives natives).Varies v Variation.unmarked (st.defineNatives natives) := by
  induction natives generalizing st with
  | nil => exact h
  | cons native rest ih =>
    have counted := h.heap.newIdentity.2
    have suits := Value.Suits.of_not_reserved native.not_reserved
      (.native st.heap.newIdentity.1 native)
    have bound := counted.bindVariable st.globals suits (.native _ native)
    exact ih { h with heap := bound }

theorem varies_start (settings : Settings) (sink : Sink) (clock : Clock) :
    (start settings sink clock).Varies v Variation.unmarked (start settings sink clock) :=
  (varies_bare settings sink clock).defineNatives _

end State

end Start

/-! ## What is seen of the globals -/

section Globals

variable {v : Variation} {marked : Nat → Bool} {st st' : State}

theorem Value.Varies.appearance {w : World} {a a' : Value} (h : a.Varies v w a') :
    a'.appearance = a.appearance := by
  rw [Value.appearance, Value.appearance, h.text, h.isTruthy]
  cases h <;> rfl

/-- The global variables of two states are related one by one. -/
theorem State.Varies.global? (h : st.Varies v marked st') (name : String) :
    Option.Rel (Value.Varies v (st.world marked)) ((Session.mk st).global? name)
      ((Session.mk st').global? name) := by
  obtain ⟨frame, found, -⟩ := h.heap.outermost
  obtain ⟨frame', access, access', varies⟩ := h.heap.frame_of_get? found
  have value := varies.bindings name
  rw [h.heap.unmarked, Variation.rename_false] at value
  have access : st.heap.frame st.globals = .ok frame := access
  have access' : st'.heap.frame st.globals = .ok frame' := access'
  simp only [Session.global?, h.globals, access, access']
  exact value

theorem State.Varies.appearance_global (h : st.Varies v marked st') (name : String) :
    ((Session.mk st).global? name).map Value.appearance =
      ((Session.mk st').global? name).map Value.appearance := by
  have value := h.global? name
  generalize (Session.mk st).global? name = a, (Session.mk st').global? name = a' at value
  cases value with
  | none => rfl
  | some same => exact congrArg some same.appearance.symm

theorem State.Varies.compare (h : st.Varies v marked st') (left right : String) :
    (Session.mk st).compare left right = (Session.mk st').compare left right := by
  have value := h.global? left
  have value' := h.global? right
  unfold Session.compare
  generalize (Session.mk st).global? left = a, (Session.mk st').global? left = a' at value
  generalize (Session.mk st).global? right = b, (Session.mk st').global? right = b' at value'
  cases value with
  | none => rfl
  | some same =>
    cases value' with
    | none => rfl
    | some same' => exact congrArg some (same.isEqual same').symm

end Globals

/-! ## Runs -/

namespace Session

variable {v : Variation} {session session' : Session} {program program' : List Stmt}

theorem varies_start (settings : Settings) (sink : Sink) (clock : Clock) :
    (start settings sink clock).Varies v (start settings sink clock) :=
  ⟨Variation.unmarked, _, _, State.represents_start rfl sink clock,
    State.represents_start rfl sink clock, State.varies_start settings sink clock, rfl⟩

namespace Varies

theorem printed (h : session.Varies v session') : session'.printed = session.printed := by
  obtain ⟨marked, ideal, ideal', represents, represents', varies, -⟩ := h
  rw [Session.printed, Session.printed, ← represents.sink, ← represents'.sink, varies.sink]

theorem appearance_global (h : session.Varies v session') (name : String) :
    (session'.global? name).map Value.appearance = (session.global? name).map Value.appearance := by
  obtain ⟨marked, ideal, ideal', represents, represents', varies, -⟩ := h
  exact (represents'.appearance_global name).trans
    ((varies.appearance_global name).symm.trans (represents.appearance_global name).symm)

theorem compare (h : session.Varies v session') (left right : String) :
    session'.compare left right = session.compare left right := by
  obtain ⟨marked, ideal, ideal', represents, represents', varies, -⟩ := h
  exact (represents'.compare left right).trans
    ((varies.compare left right).symm.trans (represents.compare left right).symm)

/-- **Programs that vary from each other, run in sessions that do, end alike.** -/
theorem interpret (h : session.Varies v session') (plain : Stmt.EveryAll Node.Plain program)
    (plain' : Stmt.EveryAll Node.Plain program') {m : Nat → Nat} (lines : v.Lines m)
    (vary : Stmt.AllVary v m .outermost program program') {fuel : Nat} {result : Except Stop Unit}
    {after : Session} (ran : session.interpret fuel program = some (result, after)) :
    ∃ fuel' result' after', session'.interpret fuel' program' = some (result', after') ∧
      v.Outcomes result result' ∧ after.Varies v after' := by
  obtain ⟨marked, ideal, ideal', represents, represents', varies, here⟩ := h
  have keeps := evaluationWith_inStep Along.collectIfDue .any
  have asked : Asked .any _ _ _ := .run represents plain trivial
  have asked' : Asked .any _ _ _ := .run represents' plain' trivial
  have askedAt : v.AskedAt marked _ ⟨.run program, ideal⟩ ⟨.run program', ideal'⟩ :=
    ⟨varies, .run lines here vary⟩
  -- From the one run to its ideal, from there to the ideal of the other run, and to that run.
  obtain ⟨⟨ideally, st⟩, known, answered⟩ := (exists_interpret_iff.mp ⟨fuel, ran⟩).inStep keeps asked
  obtain ⟨⟨ideally', st'⟩, known', ends⟩ := known.inStep (evaluation_inStep v) ⟨marked, askedAt⟩
  obtain ⟨⟨result', after'⟩, known'', answered'⟩ := known'.inStep_symm keeps asked'
  obtain ⟨rfl, finally_⟩ := Alike.result_eq answered
  obtain ⟨rfl, finally'⟩ := Alike.result_eq answered'
  have ran' : ∃ fuel', session'.interpret fuel' program' = some (result', ⟨after'⟩) :=
    exists_interpret_iff.mpr known''
  obtain ⟨fuel', ran'⟩ := ran'
  refine ⟨fuel', result', ⟨after'⟩, ran', ?_⟩
  have ends := ends marked askedAt
  cases ends with
  | @ok marked' _ _ _ _ abreast _ =>
    have back := abreast.current.trans (here.trans abreast.grows.globals.symm)
    exact ⟨.ok, marked', st, st', finally_, finally', abreast.varies, back⟩
  | @error marked' _ _ _ _ abreast same =>
    have back := abreast.current.trans (here.trans abreast.grows.globals.symm)
    exact ⟨.error same, marked', st, st', finally_, finally', abreast.varies, back⟩

/-- **Programs that vary from each other come to an end together.** -/
theorem exists_interpret_of_varies (h : session.Varies v session')
    (plain : Stmt.EveryAll Node.Plain program) (plain' : Stmt.EveryAll Node.Plain program')
    {m : Nat → Nat} (lines : v.Lines m) (vary : Stmt.AllVary v m .outermost program program')
    {fuel' : Nat} {outcome' : Except Stop Unit × Session}
    (ran : session'.interpret fuel' program' = some outcome') :
    ∃ fuel outcome, session.interpret fuel program = some outcome := by
  obtain ⟨marked, ideal, ideal', represents, represents', varies, here⟩ := h
  have keeps := evaluationWith_inStep Along.collectIfDue .any
  have asked : Asked .any _ _ _ := .run represents plain trivial
  have asked' : Asked .any _ _ _ := .run represents' plain' trivial
  have askedAt : v.AskedAt marked _ ⟨.run program, ideal⟩ ⟨.run program', ideal'⟩ :=
    ⟨varies, .run lines here vary⟩
  obtain ⟨_, known, -⟩ := (exists_interpret_iff.mp ⟨fuel', ran⟩).inStep keeps asked'
  obtain ⟨_, known', -⟩ := known.inStep_symm (evaluation_inStep v) ⟨marked, askedAt⟩
  obtain ⟨⟨result, after⟩, known'', -⟩ := known'.inStep_symm keeps asked
  have ran : ∃ fuel, session.interpret fuel program = some (result, ⟨after⟩) :=
    exists_interpret_iff.mpr known''
  exact ran.imp fun _ ran => ⟨_, ran⟩

/-- A session that varies from itself still does so after a run of a program whose lines stay. -/
theorem interpret_self (h : session.Varies v session) (plain : Stmt.EveryAll Node.Plain program)
    {m : Nat → Nat} (lines : v.Lines m) (still : Stmt.relabelAll (.lines m) program = program)
    (parts : ∀ part ∈ Stmt.nodesAll [] program, v.Part part.1 part.2) {fuel : Nat}
    {result : Except Stop Unit} {after : Session}
    (ran : session.interpret fuel program = some (result, after)) : after.Varies v after := by
  have unmarked : Site.outermost.Unmarked := List.forall_mem_nil _
  have vary : Stmt.AllVary v m .outermost program _ := Stmt.allVary_lines m unmarked parts
  rw [still] at vary
  obtain ⟨fuel', result', after', ran', -, varies⟩ := h.interpret plain plain lines vary ran
  cases interpret_unique ran ran'
  exact varies

theorem collect (h : session.Varies v session') : session.collect.2.Varies v session'.collect.2 := by
  obtain ⟨marked, ideal, ideal', represents, represents', varies, here⟩ := h
  exact ⟨marked, ideal, ideal', represents.collect, represents'.collect, varies, here⟩

theorem collectTimes (h : session.Varies v session') (n : Nat) :
    (session.collectTimes n).Varies v (session'.collectTimes n) := by
  induction n generalizing session session' with
  | zero => exact h
  | succ n ih => exact ih h.collect

end Varies

/-- What is known of the parts of a source that runs. -/
def Command.Parts (Part : Context → Node → Prop) (command : Command) : Prop :=
  ∀ source, command = .run source → ∀ program, prepare source = .ok program →
    ∀ part ∈ Stmt.nodesAll [] program, Part part.1 part.2

/-- The lines of a source that runs stay what they are. -/
def Command.Still (m : Nat → Nat) (command : Command) : Prop :=
  ∀ source, command = .run source → ∀ program, prepare source = .ok program →
    Stmt.relabelAll (.lines m) program = program

theorem Command.still_id (command : Command) : command.Still id :=
  fun _ _ program _ => Stmt.relabelAll_id program

theorem Varies.obey (h : session.Varies v session) {m : Nat → Nat} (lines : v.Lines m)
    {command : Command} (still : command.Still m) (parts : command.Parts v.Part) {fuel : Nat} {reply : Reply} {after : Session}
    (obeyed : session.obey fuel command = some (reply, after)) : after.Varies v after := by
  cases obey_eq_some_iff.mp obeyed with
  | ran prepared ran =>
    exact h.interpret_self (plain_of_prepare prepared) lines (still _ rfl _ prepared)
      (parts _ rfl _ prepared) ran
  | collect => exact h.collect
  | rejected | read | compare => exact h

/-- **Whatever has been done with a session, it varies from itself**, if the lines of what has run in it
stay. -/
theorem Varies.follows_still (h : session.Varies v session) {m : Nat → Nat} (lines : v.Lines m)
    {steps : List Step} (still : ∀ step ∈ steps, step.command.Still m)
    (parts : ∀ step ∈ steps, step.command.Parts v.Part) {replies : List Reply} {after : Session}
    (history : session.Follows steps replies after) : after.Varies v after := by
  induction history with
  | nil _ => exact h
  | cons obeyed _ ih =>
    rw [List.forall_mem_cons] at still parts
    exact ih ((h.collectTimes _).obey lines still.1 parts.1 obeyed) still.2 parts.2

theorem Varies.follows (h : session.Varies v session) (lines : v.Lines id) {steps : List Step}
    (parts : ∀ step ∈ steps, step.command.Parts v.Part) {replies : List Reply} {after : Session}
    (history : session.Follows steps replies after) : after.Varies v after :=
  h.follows_still lines (fun step _ => step.command.still_id) parts history

end Session

end Lox
