import Lox.Proofs.Evaluation.Action
import Lox.Proofs.Ideal.State
import Lox.Proofs.Plan.Lockstep

/-!
# Actions in step with their ideals

The contract of evaluation beside its ideal (`Simulation.Asked`, `Simulation.Answered`): a task that is
asked for from a state that represents an ideal one, with values that are all on the heap, comes to the
result that its ideal comes to, with values that are all on the heap, and keeps the state.

`Eval.Simulates` is the judgement that an action keeps step with its ideal.  What the action does when
it stops is `Left`; what it does otherwise, `Post`.  It never stops because of a dangling reference.
-/

namespace Lox

/-- A flow where no place is used twice. -/
def Flow.ideal : Flow → Flow
  | .normal => .normal
  | .returned value => .returned value.ideal

/-- What a flow carries is on the heap. -/
def Flow.Fits (heap : Heap) (flow : Flow) : Prop := ∀ value, flow = .returned value → heap.Fits value

namespace Task

/-- A task where no place is used twice. -/
def ideal : {sort : TaskSort} → Task sort → Task sort
  | _, .call callee arguments line => .call callee.ideal (arguments.map Value.ideal) line
  | _, .invoke closure arguments => .invoke closure.ideal (arguments.map Value.ideal)
  | _, .evaluate e => .evaluate e
  | _, .execute s => .execute s
  | _, .perform s => .perform s
  | _, .repeat_ condition body => .repeat_ condition body
  | _, .run program => .run program

/-- What a task is given is on the heap, and its program is plain. -/
def Fits (heap : Heap) : {sort : TaskSort} → Task sort → Prop
  | _, .evaluate e => e.Every Node.Plain
  | _, .call callee arguments _ => heap.Fits callee ∧ ∀ v ∈ arguments, heap.Fits v
  | _, .invoke closure arguments => heap.FitsClosure closure ∧ ∀ v ∈ arguments, heap.Fits v
  | _, .execute s => s.Every Node.Plain
  | _, .perform s => s.Every Node.Plain
  | _, .repeat_ condition body => condition.Every Node.Plain ∧ body.Every Node.Plain
  | _, .run program => Stmt.EveryAll Node.Plain program

/-- The values that a task is given. -/
def given : {sort : TaskSort} → Task sort → List Value
  | _, .call callee arguments _ => callee :: arguments
  | _, .invoke _ arguments => arguments
  | _, _ => []

/-- What is there for as long as a task takes, though nothing but the task may refer to it. -/
def holds : {sort : TaskSort} → Task sort → List HeapObject
  | _, .invoke closure _ => [.frame closure.frame]
  | _, _ => []

end Task

namespace Simulation

open Evaluation

/-- A task and its ideal, started from a state and its ideal.  The values given to the task are held
on to, and a lasting fact is true of the state. -/
structure Asked (fact : Lasting) (sort : TaskSort) (q q' : Question sort) : Prop where
  task : q'.task = q.task.ideal
  represents : q.state.Represents q'.state
  fits : q.task.Fits q.state.heap
  held : ∀ v ∈ q.task.given, v ∈ q.state.temporaries.toList
  here : fact.holds q.state

theorem Asked.run {fact : Lasting} {st ideal : State} {program : List Stmt}
    (represents : st.Represents ideal) (plain : Stmt.EveryAll Node.Plain program)
    (here : fact.holds st) : Asked fact .program ⟨.run program, st⟩ ⟨.run program, ideal⟩ :=
  ⟨rfl, represents, plain, fun _ mem => (by cases mem), here⟩

/-- The states in which a task and its ideal may stop.  A program that stops leaves nothing in
progress. -/
def Stopped : (sort : TaskSort) → Question sort → State → State → Prop
  | .program, q, st, ideal => st.Represents ideal ∧ st.globals = q.state.globals
  | _, q, st, ideal => Along q.state st ideal

/-- What a task and its ideal come to. -/
def Came : (sort : TaskSort) → Question sort → sort.Result → State → sort.Result → State → Prop
  | .value, q, v, st, v', ideal =>
      v' = v.ideal ∧ Along q.state st ideal ∧ st.heap.Fits v ∧
        ∀ object ∈ q.task.holds, st.heap.Has object
  | .flow, q, flow, st, flow', ideal =>
      flow' = flow.ideal ∧ Along q.state st ideal ∧ flow.Fits st.heap
  | .program, q, _, st, _, ideal => Along q.state st ideal

end Simulation

variable {α β γ δ : Type}

/-- Two actions come to results that `Post` relates, or stop alike. -/
inductive Ends (Left : State → State → Prop) (Post : α → State → β → State → Prop) :
    Except Stop α × State → Except Stop β × State → Prop
  | ok {a : α} {b : β} {st ideal : State} (post : Post a st b ideal) :
      Ends Left Post (.ok a, st) (.ok b, ideal)
  | error {e : RuntimeError} {st ideal : State} (left : Left st ideal) :
      Ends Left Post (.error (.error e), st) (.error (.error e), ideal)

theorem Ends.mono {Left Left' : State → State → Prop} {Post Post' : α → State → β → State → Prop}
    {o : Except Stop α × State} {o' : Except Stop β × State} (h : Ends Left Post o o')
    (left : ∀ st ideal, Left st ideal → Left' st ideal)
    (post : ∀ a st b ideal, Post a st b ideal → Post' a st b ideal) : Ends Left' Post' o o' := by
  cases h with
  | ok h => exact .ok (post _ _ _ _ h)
  | error h => exact .error (left _ _ h)

namespace Simulation

open Evaluation

/-- A value has come up on the way from `base`. -/
structure Gives (base : State) (v : Value) (st : State) (v' : Value) (ideal : State) : Prop where
  same : v' = v.ideal
  along : Along base st ideal
  fits : st.heap.Fits v

/-- A flow has come up on the way from `base`. -/
structure Flows (base : State) (flow : Flow) (st : State) (flow' : Flow) (ideal : State) : Prop where
  same : flow' = flow.ideal
  along : Along base st ideal
  fits : flow.Fits st.heap

/-- What a task comes to is what its ideal comes to. -/
def Answered (sort : TaskSort) (q _q' : Question sort) (r r' : Answer sort) : Prop :=
  Ends (Stopped sort q) (Came sort q) (r.result, r.state) (r'.result, r'.state)

end Simulation

open Simulation

namespace Eval

/-- The two actions are in step, from these states; the fact is true whenever they ask for a task. -/
def Simulates (fact : Lasting) (Left : State → State → Prop) (Post : α → State → β → State → Prop) (action : Eval α)
    (action' : Eval β) (st ideal : State) : Prop :=
  (action st).InStep (Asked fact) Answered (Ends Left Post) (action' ideal)

namespace Simulates

variable {fact : Lasting} {Left Left' : State → State → Prop} {Post Post' : α → State → β → State → Prop}
  {action : Eval α} {action' : Eval β} {st ideal base : State}

theorem of_done {a : α} {b : β} {st' ideal' : State} (h : action st = .done (.ok a, st'))
    (h' : action' ideal = .done (.ok b, ideal')) (post : Post a st' b ideal') :
    Simulates fact Left Post action action' st ideal := by
  rw [Simulates, h, h']
  exact .done (.ok post)

theorem pure {a : α} {b : β} (post : Post a st b ideal) :
    Simulates fact Left Post (Pure.pure a) (Pure.pure b) st ideal :=
  of_done rfl rfl post

theorem fail {line : Nat} {cause : RuntimeError.Cause} (left : Left st ideal) :
    Simulates fact Left Post (Eval.fail line cause) (Eval.fail line cause) st ideal :=
  .done (.error left)

theorem bind {After : γ → State → δ → State → Prop} {next : α → Eval γ} {next' : β → Eval δ}
    (h : Simulates fact Left Post action action' st ideal)
    (rest : ∀ a st' b ideal', Post a st' b ideal' →
      Simulates fact Left After (next a) (next' b) st' ideal') :
    Simulates fact Left After (action >>= next) (action' >>= next') st ideal := by
  rw [Simulates, bind_apply, bind_apply]
  refine Plan.InStep.bind h fun o o' ends => ?_
  cases ends with
  | ok post => exact rest _ _ _ _ post
  | error left => exact .done (.error left)

theorem map {After : γ → State → δ → State → Prop} {f : α → γ} {f' : β → δ}
    (h : Simulates fact Left Post action action' st ideal)
    (after : ∀ a st' b ideal', Post a st' b ideal' → After (f a) st' (f' b) ideal') :
    Simulates fact Left After (f <$> action) (f' <$> action') st ideal :=
  bind h fun _ _ _ _ post => pure (after _ _ _ _ post)

theorem mono (h : Simulates fact Left Post action action' st ideal)
    (left : ∀ st ideal, Left st ideal → Left' st ideal)
    (post : ∀ a st' b ideal', Post a st' b ideal' → Post' a st' b ideal') :
    Simulates fact Left' Post' action action' st ideal :=
  Plan.InStep.mono h fun _ _ ends => ends.mono left post

/-- An action that is over at once is left behind. -/
theorem bind_of_ok {After : γ → State → δ → State → Prop} {next : α → Eval γ} {next' : β → Eval δ}
    {a : α} {b : β} {st' ideal' : State} (h : action st = .done (.ok a, st'))
    (h' : action' ideal = .done (.ok b, ideal'))
    (rest : Simulates fact Left After (next a) (next' b) st' ideal') :
    Simulates fact Left After (action >>= next) (action' >>= next') st ideal := by
  rw [Simulates, Eval.bind_of_ok h, Eval.bind_of_ok h']
  exact rest

theorem ofOption {line : Nat} {cause : RuntimeError.Cause} {found : Option α} {f : α → β}
    (left : Left st ideal) (post : ∀ a ∈ found, Post a st (f a) ideal) :
    Simulates fact Left Post (Eval.ofOption line cause found)
      (Eval.ofOption line cause (found.map f)) st ideal := by
  cases found with
  | none => exact fail left
  | some a => exact pure (post a rfl)

theorem ofResult {line : Nat} {result : Except RuntimeError.Cause α} {f : α → β}
    (left : Left st ideal) (post : ∀ a, result = .ok a → Post a st (f a) ideal) :
    Simulates fact Left Post (Eval.ofResult line result)
      (Eval.ofResult line (result.map f)) st ideal := by
  cases result with
  | error _ => exact fail left
  | ok a => exact pure (post a rfl)

/-! ### Tasks -/

theorem askValue (along : Along base st ideal) (here : fact.holds base) {task : Task .value}
    (fits : task.Fits st.heap) (held : ∀ v ∈ task.given, v ∈ st.temporaries.toList) :
    Simulates fact (Along base)
      (fun v st' v' ideal' => Gives base v st' v' ideal' ∧ Along st st' ideal' ∧
        ∀ object ∈ task.holds, st'.heap.Has object)
      (ask task) (ask task.ideal) st ideal := by
  have asked : Asked fact .value ⟨task, st⟩ ⟨task.ideal, ideal⟩ :=
    ⟨rfl, along.represents, fits, held, fact.stays along.keeps.since here⟩
  refine .ask asked fun r r' answered => .done ?_
  refine Ends.mono answered (fun _ _ stopped => along.trans stopped) ?_
  rintro v st' v' ideal' ⟨same, along', fits, held⟩
  exact ⟨⟨same, along.trans along', fits⟩, along', held⟩

theorem evaluate (along : Along base st ideal) (here : fact.holds base) {e : Expr}
    (plain : e.Every Node.Plain) :
    Simulates fact (Along base) (Gives base) (ask (.evaluate e)) (ask (.evaluate e)) st ideal :=
  have fits : (Task.evaluate e).Fits st.heap := plain
  (askValue along here fits fun _ mem => by cases mem).mono (fun _ _ left => left)
    fun _ _ _ _ post => post.1

theorem execute (along : Along base st ideal) (here : fact.holds base) {s : Stmt}
    (plain : s.Every Node.Plain) :
    Simulates fact (Along base) (Flows base) (ask (.execute s)) (ask (.execute s)) st ideal := by
  have asked : Asked fact .flow ⟨.execute s, st⟩ ⟨.execute s, ideal⟩ :=
    ⟨rfl, along.represents, plain, fun _ mem => (by cases mem), fact.stays along.keeps.since here⟩
  refine .ask asked fun r r' answered => .done ?_
  refine Ends.mono answered (fun _ _ stopped => along.trans stopped) ?_
  rintro flow st' flow' ideal' ⟨same, along', fits⟩
  exact ⟨same, along.trans along', fits⟩

end Simulates

end Eval

end Lox
