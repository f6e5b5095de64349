import Lox.Proofs.Evaluation.Arguments
import Lox.Proofs.Scope.Parameters
import Lox.Proofs.Session.Scoping

/-!
# Every call binds its parameters

No call binds too few or too many parameters (`Session.receives_and_binds`).  Arguments are counted before a
body runs, whatever the program is.  If the programs of a session have no errors, the parameters of each
function that runs have different names, as its declaration is part of one of the texts; so the new frame
binds each of them to its own argument and nothing else.
-/

namespace Lox

open Evaluation

/-- Texts that vary from themselves and nothing else, where functions have parameters with different
names. -/
def Variation.distinctParameters : Variation := .still fun _ n => n.DistinctParameters

theorem Function.Varies.part {v : Variation} {m : Nat → Nat} {p : Site} {f f' : Function}
    (h : f.Varies v m p f') : v.Part p.context (.function f) := by
  cases h with
  | mk part _ _ => exact part

namespace Evaluation.Placed

variable {c : Closure} {vs : List Value} {st ideal : State} {marked : Nat → Bool} {q' : Question .value}

/-- The declaration of a function that runs is part of a text. -/
theorem distinct (h : Placed .distinctParameters ⟨.invoke c vs, st⟩ ideal marked q') :
    (c.declaration.parameters.map Ident.lexeme).Nodup := by
  obtain ⟨task', _⟩ := q'
  have tasks : Task.Varies .distinctParameters (ideal.world marked) ideal.current
      (.invoke c.ideal (vs.map Value.ideal)) task' := h.askedAt.tasks
  cases tasks with
  | invoke varies _ _ =>
    obtain ⟨_, _, -, -, varies⟩ := varies.declaration
    exact varies.part.2 _ List.mem_cons_self

theorem bindsParameters (h : Placed .distinctParameters ⟨.invoke c vs, st⟩ ideal marked q')
    (count : vs.length = c.declaration.parameters.length) : BindsParameters c vs st :=
  bindsParameters_of_distinct h.asked.represents.valid.heap.sound count h.distinct

end Evaluation.Placed

/-- Is the task to run the body of a function with so many arguments? -/
def Task.invokesWith (n : Nat) : {sort : TaskSort} → Task sort → Bool
  | _, .invoke _ vs => vs.length == n
  | _, _ => false

theorem Task.exists_invoke {n : Nat} {sort : TaskSort} {task : Task sort}
    (h : task.invokesWith n = true) :
    ∃ c vs, (⟨sort, task⟩ : Sigma Task) = ⟨.value, .invoke c vs⟩ ∧ vs.length = n := by
  match sort, task, h with
  | _, .invoke c vs, h => exact ⟨c, vs, rfl, beq_iff_eq.mp h⟩

namespace Session

/-- The parts of a text that is ready to run are known to be what they should. -/
theorem distinctParameters_of_prepare {source : String} {program : List Stmt}
    (prepared : prepare source = .ok program) :
    ∀ part ∈ Stmt.nodesAll [] program, Variation.distinctParameters.Part part.1 part.2 :=
  fun part mem => ⟨right_of_prepare prepared part mem, distinct_of_prepare prepared part mem⟩

/-- **No call binds too few or too many parameters.**  Whenever the body of a function is to run while a
program does, from whatever state, there are as many arguments as parameters, and they have been evaluated
from left to right.  If the program has no errors and is run in a session, the new frame binds exactly the
parameters, each to the argument at its position. -/
theorem receives_and_binds {program : List Stmt} {before st : State} {c : Closure} {vs : List Value}
    (arises : evaluation.Arises (⟨.run program, before⟩ : Question .program)
      (⟨.invoke c vs, st⟩ : Question .value)) :
    Receives ⟨.run program, before⟩ c vs st ∧
      ∀ {settings : Settings} {sink : Sink} {clock : Clock} {steps : List Step} {replies : List Reply},
        (start settings sink clock).Follows steps replies ⟨before⟩ →
        ∀ {source : String}, prepare source = .ok program → BindsParameters c vs st := by
  have receives := receives_of_arises arises
  refine ⟨receives, fun {settings sink clock steps replies} history {source} prepared => ?_⟩
  have known step (_ : step ∈ steps) : step.command.Parts Variation.distinctParameters.Part :=
    fun _ _ _ prepared => distinctParameters_of_prepare prepared
  have varies := (varies_start (v := .distinctParameters) settings sink clock).follows rfl known history
  obtain ⟨ideal, marked, q', placed⟩ := exists_placed varies (plain_of_prepare prepared) rfl
    (distinctParameters_of_prepare prepared) arises
  exact placed.bindsParameters receives.count

/-- An initializer that takes two arguments is called through `super`, by one that takes one. -/
def overriding : Step where
  collections := 1
  command := .run "class A \x7b init(a, b) \x7b this.a = a; \x7d \x7d
    class B < A \x7b init(x) \x7b super.init(x, nil); \x7d \x7d"

/-- The inherited initializer runs with garbage collected at every statement. -/
theorem receives_and_binds_overriding : ∃ program replies before c vs st,
    (start (Settings.withGcThreshold {} 1) .unlimited (.ticking 0)).Follows [overriding] replies ⟨before⟩ ∧
      prepare "B(true);" = .ok program ∧
      evaluation.Arises (⟨.run program, before⟩ : Question .program)
        (⟨.invoke c vs, st⟩ : Question .value) ∧ vs.length = 2 ∧
      Receives ⟨.run program, before⟩ c vs st ∧ BindsParameters c vs st := by
  let program : List Stmt :=
    [.expression (.call (.variable_ ⟨⟨"B", "B", 1⟩, none⟩) [.literal (.boolean true)] 1)]
  have prepared : prepare "B(true);" = .ok program := by cbv
  have found : ((start (Settings.withGcThreshold {} 1) .unlimited (.ticking 0)).collect.2.obey 1000
      overriding.command).any (fun o =>
        (evaluation.arising 40 ⟨.program, .run program, o.2.state⟩).any fun q =>
          q.2.task.invokesWith 2) = true := by
    decide +kernel
  obtain ⟨⟨reply, ⟨before⟩⟩, obeyed, found⟩ := (Option.any_eq_true _ _).mp found
  have history : (start (Settings.withGcThreshold {} 1) .unlimited (.ticking 0)).Follows [overriding]
      [reply] ⟨before⟩ := .cons obeyed (.nil _)
  obtain ⟨⟨sort, task, st⟩, mem, invoked⟩ := List.any_eq_true.mp found
  obtain ⟨c, vs, same, two⟩ := Task.exists_invoke invoked
  cases same
  have arises := Rules.arises_of_mem_arising mem
  obtain ⟨receives, binds⟩ := receives_and_binds arises
  exact ⟨program, _, before, c, vs, st, history, prepared, arises, two, receives, binds history prepared⟩

end Session

end Lox
