import Mathlib
import Lox.Proofs.Evaluation.Termination
import Lox.Proofs.Scope.Wording
import Lox.Proofs.Session.Scoping

/-!
# Sources without loops

If no source of a session has a `while` or a `for` in it, then no loop comes up in any of its runs: what is
called has been declared in one of the sources, however it has been passed on.  So every run comes to an
end.
-/

namespace Lox

open Evaluation

/-- Texts without loops, which vary from themselves and nothing else. -/
def Variation.loopless : Variation := .still fun _ n => ¬n.IsLoop

namespace Evaluation

/-- No loop comes up in a program without one, run in a session that has seen none. -/
theorem loopless_of_varies {session : Session} (h : session.Varies .loopless session)
    {program : List Stmt} (plain : Stmt.EveryAll Node.Plain program)
    (parts : ∀ part ∈ Stmt.nodesAll [] program, Variation.loopless.Part part.1 part.2)
    {sort : TaskSort} {q : Question sort}
    (arises : evaluation.Arises ⟨.run program, session.state⟩ q) : ¬q.task.IsLoop := by
  refine not_isLoop_of_arises (q := ⟨.run program, session.state⟩) id
    (fun {condition body st} arises => ?_) arises
  obtain ⟨ideal, marked, ⟨task', st'⟩, placed⟩ := exists_placed h plain rfl parts arises
  have tasks : Task.Varies .loopless (ideal.world marked) ideal.current
      (.perform (.loop condition body)) task' := placed.askedAt.tasks
  cases tasks with
  | perform _ _ varies =>
    cases varies with
    | loop part _ _ => exact part.2 ⟨condition, body, rfl⟩

end Evaluation

namespace Session

variable {session : Session} {program : List Stmt}

/-- A program without loops comes to an end, and to no fault. -/
theorem exists_interpret_of_loopless (h : session.Varies .loopless session)
    (plain : Stmt.EveryAll Node.Plain program)
    (parts : ∀ part ∈ Stmt.nodesAll [] program, Variation.loopless.Part part.1 part.2) :
    ∃ fuel result after, session.interpret fuel program = some (result, after) ∧
      ∀ access, result ≠ .error (.fault access) := by
  have ended := exists_answer_of_loopless (q := ⟨.run program, session.state⟩)
    (loopless_of_varies h plain parts)
  obtain ⟨⟨result, st⟩, known⟩ := ended
  have ran : ∃ fuel, session.interpret fuel program = some (result, ⟨st⟩) :=
    exists_interpret_iff.mpr known
  obtain ⟨fuel, ran⟩ := ran
  obtain ⟨marked, ideal, -, represents, -⟩ := h
  have asked : Simulation.Asked .any _ _ _ := .run represents plain trivial
  obtain ⟨_, answered⟩ := asked.answered known
  exact ⟨fuel, result, ⟨st⟩, ran, answered.faultless⟩

theorem ne_stopped_of_prepare {source : String} {failure : Failure}
    (prepared : prepare source = .error failure) (stop : Stop) : failure ≠ .stopped stop := by
  rintro rfl
  simp only [prepare] at prepared
  split at prepared
  · split at prepared <;> cases prepared
  · cases prepared

/-- If the reply is to a run, that has come to a success or to an error, and not to a fault of the
interpreter. -/
def Reply.Faultless (reply : Reply) : Prop :=
  ∀ printed access, reply ≠ .ran printed (.error (.stopped (.fault access)))

/-- No loop is told to the session. -/
def Command.Loopless (command : Command) : Prop :=
  ∀ source, command = .run source → Lox.Loopless source

/-- Every command without loops is obeyed. -/
theorem exists_obey_of_loopless (h : session.Varies .loopless session) {command : Command}
    (loopless : command.Loopless) :
    ∃ fuel reply after, session.obey fuel command = some (reply, after) ∧ reply.Faultless ∧
      after.Varies .loopless after := by
  have parts : command.Parts Variation.loopless.Part := by
    intro source same program prepared part mem
    exact ⟨right_of_prepare prepared part mem,
      not_isLoop_of_prepare prepared (loopless source same) part mem⟩
  suffices obeyed : ∃ fuel reply after, session.obey fuel command = some (reply, after) ∧
      reply.Faultless by
    obtain ⟨fuel, reply, after, obeyed, faultless⟩ := obeyed
    exact ⟨fuel, reply, after, obeyed, faultless, h.obey rfl command.still_id parts obeyed⟩
  cases command with
  | read name => exact ⟨0, _, session, rfl, nofun⟩
  | compare left right => exact ⟨0, _, session, rfl, nofun⟩
  | collect => exact ⟨0, _, session.collect.2, rfl, nofun⟩
  | run source =>
    cases prepared : prepare source with
    | error failure =>
      refine ⟨0, _, session, obey_eq_some_iff.mpr (.rejected prepared), fun printed access same => ?_⟩
      cases same
      exact ne_stopped_of_prepare prepared _ rfl
    | ok program =>
      obtain ⟨fuel, result, after, ran, faultless⟩ := exists_interpret_of_loopless h
        (plain_of_prepare prepared) (parts source rfl program prepared)
      refine ⟨fuel, _, after, obey_eq_some_iff.mpr (.ran prepared ran), fun printed access same => ?_⟩
      cases result with
      | ok _ => cases same
      | error stop =>
        cases same
        exact faultless access rfl

/-- **Without loops every run ends.**  If no source has a `while` or a `for` in it, every step that a
session is told to take comes to a reply, under any limit on nested calls and for any functions, methods
and initializers that call each other or themselves: the run has been a success or has met an error. -/
theorem exists_follows_of_loopless {settings : Settings} {sink : Sink} {clock : Clock}
    {steps : List Step} (loopless : ∀ step ∈ steps, step.command.Loopless) :
    ∃ replies after, (start settings sink clock).Follows steps replies after ∧
      ∀ reply ∈ replies, reply.Faultless := by
  suffices takes : ∀ session : Session, session.Varies .loopless session →
      ∃ replies after, session.Follows steps replies after ∧ ∀ reply ∈ replies, reply.Faultless from
    takes _ (varies_start settings sink clock)
  induction steps with
  | nil => exact fun session _ => ⟨[], session, .nil session, List.forall_mem_nil _⟩
  | cons step steps ih =>
    intro session h
    rw [List.forall_mem_cons] at loopless
    obtain ⟨fuel, reply, between, obeyed, faultless, h'⟩ :=
      exists_obey_of_loopless (h.collectTimes step.collections) loopless.1
    obtain ⟨replies, after, follows, faultless'⟩ := ih loopless.2 between h'
    exact ⟨reply :: replies, after, .cons obeyed follows,
      List.forall_mem_cons.mpr ⟨faultless, faultless'⟩⟩

/-- An initializer and a function in a field, which call each other again and again. -/
theorem exists_follows_of_recursion :
    ∃ replies after, (start {} .unlimited (.ticking 0)).Follows
        [⟨0, .run "class A { init() { this.f = fun (o) { return A(); }; this.f(this); } }"⟩,
          ⟨1, .run "A();"⟩] replies after ∧ ∀ reply ∈ replies, reply.Faultless := by
  refine exists_follows_of_loopless fun step mem source same => ?_
  rcases List.mem_cons.mp mem with rfl | mem
  · cases same
    decide +kernel
  · obtain rfl := List.mem_singleton.mp mem
    cases same
    decide +kernel

end Session

end Lox
