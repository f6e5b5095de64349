import Lox.Proofs.Evaluation.Action
import Lox.Proofs.Heap.Accounts
import Lox.Proofs.Plan.Steps

/-!
# What evaluation does to the heap

Actions change the heap by operations that allocate or bind, and by nothing else (`Eval.Operates`).
Garbage is collected only where a statement is about to be executed, before its rule has its turn
(`Question.checked`); so from there on, and from whatever is left behind by the answers to what it asks
for, every rule only operates on the heap (`Evaluation.goesBy`).

For this nothing need be known of the answers, and nothing of the state.
-/

namespace Lox

open Evaluation

namespace Evaluation

/-- The heap in which a task is asked for. -/
def heapBefore (sort : TaskSort) (q : Question sort) : Heap := q.state.heap

/-- The heap that is left by a task. -/
def heapAfter (sort : TaskSort) (r : Answer sort) : Heap := r.state.heap

/-- The state in which the rule for a task begins: a statement is executed after garbage is collected,
if it is time to. -/
def Question.checked : {sort : TaskSort} → Question sort → State
  | _, ⟨.execute _, st⟩ => st.collectIfDue
  | _, ⟨_, st⟩ => st

/-- The heap in which the rule for a task begins. -/
def heapChecked (sort : TaskSort) (q : Question sort) : Heap := q.checked.heap

end Evaluation

namespace Eval

variable {α β : Type}

/-- The action does nothing to the heap but operate on it, from a heap `left` that its last answer has
left behind. -/
def Operates (action : Eval α) : Prop :=
  ∀ st (left : Heap), left.Evolves st.heap → (action st).Proceeds heapAfter
    (fun left sort q => left.Evolves (heapBefore sort q)) (fun _ _ _ => True)
    (fun left o => left.Evolves o.2.heap) left

namespace Operates

theorem pure (a : α) : (Pure.pure a : Eval α).Operates := fun _ _ h => h

theorem fail (line : Nat) (cause : RuntimeError.Cause) : (Eval.fail line cause : Eval α).Operates :=
  fun _ _ h => h

theorem bind {action : Eval α} {next : α → Eval β} (h : action.Operates)
    (h' : ∀ a, (next a).Operates) : (action >>= next).Operates := by
  intro st left evolves
  rw [bind_apply]
  refine (h st left evolves).bind fun left o evolves => ?_
  obtain ⟨result, st'⟩ := o
  cases result with
  | ok a => exact h' a st' left evolves
  | error stop => exact evolves

theorem map {action : Eval α} (h : action.Operates) (f : α → β) : (f <$> action).Operates :=
  bind h fun a => pure (f a)

theorem ask {sort : TaskSort} (task : Task sort) : (Eval.ask task).Operates :=
  fun _ _ h => ⟨h, fun _ _ => .same⟩

theorem look (f : State → α) : (Eval.look f).Operates := fun _ _ h => h

theorem inspect (f : State → Except Dangling α) : (Eval.inspect f).Operates := by
  intro st left evolves
  unfold Eval.inspect
  split <;> exact evolves

theorem make {f : Heap → α × Heap}
    (h : ∀ {left heap : Heap}, left.Evolves heap → left.Evolves (f heap).2) : (Eval.make f).Operates :=
  fun _ _ evolves => h evolves

theorem changeHeap {f : Heap → Heap}
    (h : ∀ {left heap : Heap}, left.Evolves heap → left.Evolves (f heap)) : (Eval.changeHeap f).Operates :=
  fun _ _ evolves => h evolves

theorem ofOption (line : Nat) (cause : RuntimeError.Cause) (found : Option α) :
    (Eval.ofOption line cause found).Operates := by
  cases found with
  | none => exact fail line cause
  | some a => exact pure a

theorem ofResult (line : Nat) (result : Except RuntimeError.Cause α) :
    (Eval.ofResult line result).Operates := by
  cases result with
  | error cause => exact fail line cause
  | ok a => exact pure a

/-- What is changed around an action is not the heap. -/
theorem between {κ : Type} {keep : State → κ} {before : State → State} {after : κ → State → State}
    {action : Eval α} (h : action.Operates) (same : ∀ st, (before st).heap = st.heap)
    (same' : ∀ k st, (after k st).heap = st.heap) :
    (Eval.between keep before after action).Operates := by
  intro st left evolves
  refine (h (before st) left (same st ▸ evolves)).bind fun left o evolves => ?_
  change left.Evolves (after (keep st) o.2).heap
  rw [same']
  exact evolves

theorem inFrame {action : Eval α} (frame : FrameRef) (h : action.Operates) :
    (Eval.inFrame frame action).Operates :=
  between h (fun _ => rfl) fun _ _ => rfl

theorem holding {action : Eval α} (v : Value) (h : action.Operates) :
    (Eval.holding v action).Operates :=
  between h (fun _ => rfl) fun _ _ => rfl

theorem inCall {action : Eval α} (h : action.Operates) : (Eval.inCall action).Operates :=
  between h (fun _ => rfl) fun _ _ => rfl

theorem hold (v : Value) : (Eval.hold v).Operates := fun _ _ h => h

theorem print (line : Nat) (text : String) : (Eval.print line text).Operates := by
  intro st left evolves
  unfold Eval.print
  split
  · exact evolves
  · exact fail line _ st left evolves

theorem readClock : Eval.readClock.Operates := fun _ _ h => h

/-! ### Variables and properties -/

theorem defineIn (frame : FrameRef) (name : String) (value : Value) :
    (Eval.defineIn frame name value).Operates :=
  bind (inspect _) fun _ => changeHeap fun evolves => evolves.bindVariable frame name value

theorem define (name : String) (value : Value) : (Eval.define name value).Operates :=
  bind (look _) fun frame => defineIn frame name value

theorem lookUp (name : String) (line : Nat) (depth : Option Nat) :
    (Eval.lookUp name line depth).Operates :=
  bind (inspect _) fun _ => ofOption line _ _

theorem assign (target : Reference) (value : Value) : (Eval.assign target value).Operates :=
  bind (inspect _) fun _ => bind (ofOption _ _ _) fun owner =>
    changeHeap fun evolves => evolves.bindVariable owner _ value

theorem property (object : Instance) (name : Ident) : (Eval.property object name).Operates := by
  refine bind (inspect _) fun found => ?_
  match found with
  | some (.field value) => exact pure value
  | some (.method method) => exact make fun evolves => evolves.boundMethod method object
  | none => exact fail _ _

theorem setField (object : Instance) (name : String) (value : Value) :
    (Eval.setField object name value).Operates :=
  bind (inspect _) fun _ => changeHeap fun evolves => evolves.bindField _ _ _

theorem superMethod (line : Nat) (method : Ident) (depth : Option Nat) :
    (Eval.superMethod line method depth).Operates := by
  refine bind (ofOption _ _ _) fun distance => bind (inspect _) fun parent => ?_
  split
  · refine bind (inspect _) fun this => ?_
    split
    · exact bind (ofOption _ _ _) fun found => make fun evolves => evolves.boundMethod found _
    · exact fail _ _
  · exact fail _ _

theorem close (decl : Function) : (Eval.close decl).Operates :=
  bind (look _) fun _ => bind (make fun evolves => evolves.newIdentity) fun _ => pure _

/-! ### Calls and declarations -/

theorem sequence (body : List Stmt) : (Eval.sequence body).Operates := by
  induction body with
  | nil => exact pure _
  | cons first rest ih =>
    refine bind (ask _) fun flow => ?_
    cases flow with
    | normal => exact ih
    | returned value => exact pure _

theorem arguments (es : List Expr) : (Eval.arguments es).Operates := by
  induction es with
  | nil => exact pure _
  | cons e rest ih =>
    exact bind (ask _) fun value => bind (hold value) fun _ => bind ih fun _ => pure _

theorem bindParameters (frame : FrameRef) (bindings : List (Ident × Value)) :
    (Eval.bindParameters frame bindings).Operates := by
  induction bindings with
  | nil => exact pure ()
  | cons binding rest ih => exact bind (defineIn frame _ _) fun _ => ih

theorem invoke (closure : Closure) (values : List Value) : (Eval.invoke closure values).Operates := by
  refine bind (make fun evolves => evolves.newFrame _ _) fun frame =>
    bind (bindParameters frame _) fun _ => bind (inFrame frame (sequence _)) fun flow => ?_
  split
  · exact bind (inspect _) fun _ => pure _
  · cases flow <;> exact pure _

theorem instantiate (type : Class) (values : List Value) :
    (Eval.instantiate type values).Operates := by
  refine bind (make fun evolves => evolves.newInstance) fun fields => ?_
  simp only
  split
  · exact pure _
  · rename_i initializer _
    exact bind (make fun evolves => evolves.bindMethod initializer _) fun _ =>
      bind (ask _) fun _ => pure _

theorem enter (callee : Value) (values : List Value) (line : Nat) :
    (Eval.enter callee values line).Operates := by
  cases callee with
  | function identity closure => exact ask _
  | native identity native =>
    cases native with
    | clock => exact map readClock _
  | class_ type => exact instantiate type values
  | _ => exact fail _ _

theorem call (callee : Value) (values : List Value) (line : Nat) :
    (Eval.call callee values line).Operates := by
  intro st left evolves
  rcases Eval.call_fails_or_enters callee values line st with ⟨cause, fails⟩ | ⟨-, -, enters⟩
  · rw [fails]
    exact evolves
  · rw [enters]
    exact inCall (enter callee values line) st left evolves

theorem superclass (parent : Option Reference) : (Eval.superclass parent).Operates := by
  cases parent with
  | none => exact pure _
  | some ref =>
    refine bind (ask _) fun v => ?_
    cases v with
    | class_ _ => exact pure _
    | _ => exact fail _ _

theorem methodFrame (name : Ident) (methods : List Function) (parent : Option Class) :
    (Eval.methodFrame name methods parent).Operates := by
  cases parent with
  | none => exact look _
  | some parent =>
    exact bind (look _) fun current => bind (make fun evolves => evolves.newFrame _ _) fun frame =>
      bind (defineIn frame _ _) fun _ => pure _

theorem declareClass (name : Ident) (parent : Option Reference) (methods : List Function) :
    (Eval.declareClass name parent methods).Operates :=
  bind (superclass parent) fun _ => bind (define _ _) fun _ => bind (methodFrame _ _ _) fun _ =>
    bind (make fun evolves => evolves.newIdentity) fun _ => define _ _

theorem program (statements : List Stmt) : (Eval.program statements).Operates := by
  induction statements with
  | nil => exact pure ()
  | cons first rest ih => exact bind (ask _) fun _ => ih

theorem resetting {action : Eval α} (h : action.Operates) : (Eval.resetting action).Operates := by
  intro st left evolves
  refine (h st left evolves).bind fun left o evolves => ?_
  obtain ⟨result, st'⟩ := o
  cases result <;> exact evolves

end Operates

end Eval

/-! ## Rules -/

open Eval.Operates

theorem Expr.operates (e : Expr) : e.rule.Operates := by
  cases e with
  | literal _ | group _ => exact pure _
  | unary _ _ => exact bind (ask _) fun _ => map (ofResult _ _) _
  | binary _ _ _ =>
    exact bind (ask _) fun v => bind (holding v (ask _)) fun _ => map (ofResult _ _) _
  | logical _ _ _ =>
    refine bind (ask _) fun _ => ?_
    split <;> exact pure _
  | variable_ _ | this _ _ => exact map (lookUp _ _ _) _
  | assign _ _ => exact bind (ask _) fun _ => bind (Eval.Operates.assign _ _) fun _ => pure _
  | call _ _ _ =>
    exact bind (ask _) fun v => map (holding v (bind (arguments _) fun _ => ask _)) _
  | get _ _ =>
    refine bind (ask _) fun v => ?_
    cases v with
    | instance_ _ => exact map (property _ _) _
    | _ => exact fail _ _
  | set _ _ _ =>
    refine bind (ask _) fun v => ?_
    cases v with
    | instance_ _ =>
      exact bind (holding _ (ask _)) fun _ => bind (setField _ _ _) fun _ => pure _
    | _ => exact fail _ _
  | super _ _ _ => exact map (superMethod _ _ _) _
  | function _ => exact map (close _) _

theorem Stmt.operates (s : Stmt) : s.rule.Operates := by
  cases s with
  | expression _ => exact bind (ask _) fun _ => pure _
  | print _ _ => exact bind (ask _) fun _ => bind (Eval.Operates.print _ _) fun _ => pure _
  | var _ initial =>
    cases initial with
    | none => exact bind (define _ _) fun _ => pure _
    | some _ => exact bind (ask _) fun _ => bind (define _ _) fun _ => pure _
  | block _ =>
    exact bind (look _) fun _ => bind (make fun evolves => evolves.newFrame _ _) fun frame =>
      map (inFrame frame (sequence _)) _
  | branch _ _ no =>
    refine bind (ask _) fun _ => ?_
    split
    · exact pure _
    · cases no <;> exact pure _
  | loop _ _ => exact pure _
  | function _ => exact bind (close _) fun _ => bind (define _ _) fun _ => pure _
  | return_ _ value =>
    cases value with
    | none => exact pure _
    | some _ => exact bind (ask _) fun _ => pure _
  | class_ _ _ _ => exact bind (declareClass _ _ _) fun _ => pure _

theorem Task.repeat_operates (condition : Expr) (body : Stmt) :
    ((Task.repeat_ condition body).rule State.collectIfDue).Operates := by
  refine bind (ask _) fun v => ?_
  split
  · refine bind (ask _) fun flow => ?_
    cases flow <;> exact pure _
  · exact pure _

namespace Evaluation

/-- A rule that only operates on the heap does so to its end. -/
theorem goesBy_of_operates {sort : TaskSort} (task : Task sort) (st : State)
    (operates : (task.rule State.collectIfDue).Operates) :
    (evaluation sort ⟨task, st⟩).GoesBy heapBefore heapAfter Heap.Evolves st.heap := by
  refine (operates st st.heap .same).bind fun left o evolves => ?_
  obtain ⟨result, st'⟩ := o
  cases result with
  | error stop => exact evolves
  | ok ending => cases ending <;> exact evolves

/-- **But for the collection before a statement, evaluation only operates on the heap.** -/
theorem goesBy : evaluation.GoesBy heapBefore heapChecked heapAfter Heap.Evolves := by
  intro sort q
  obtain ⟨task, st⟩ := q
  cases task with
  | execute s => exact Heap.Evolves.same
  | evaluate e => exact goesBy_of_operates _ st e.operates
  | call callee vs line => exact goesBy_of_operates _ st (map (Eval.Operates.call callee vs line) _)
  | invoke closure vs => exact goesBy_of_operates _ st (map (Eval.Operates.invoke closure vs) _)
  | perform s => exact goesBy_of_operates _ st s.operates
  | repeat_ condition body => exact goesBy_of_operates _ st (Task.repeat_operates condition body)
  | run program => exact goesBy_of_operates _ st (map (resetting (Eval.Operates.program program)) _)

end Evaluation

end Lox
