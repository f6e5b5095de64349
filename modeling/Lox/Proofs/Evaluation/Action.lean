import Lox.Evaluation.Rules

/-!
# What actions do

Equations for the actions that evaluation is made of.  An action that asks for nothing is over at
once, and its equation says how; one that comes before others hands them its result and the state it
leaves.
-/

namespace Lox

theorem shrink_push_append {α : Type} (xs more : Array α) (a : α) :
    (xs.push a ++ more).shrink xs.size = xs := by
  apply Array.ext'
  simp

namespace State

/-- A value is held on to. -/
def push (st : State) (v : Value) : State := { st with temporaries := st.temporaries.push v }

/-- Another frame is current, and the old one is put aside. -/
def inside (st : State) (frame : FrameRef) : State :=
  { st with current := frame, saved := st.current :: st.saved }

/-- One more call is in progress. -/
def called (st : State) : State := { st with callDepth := st.callDepth + 1 }

end State

namespace Eval

variable {α β : Type} {st : State}

theorem bind_apply (action : Eval α) (next : α → Eval β) (st : State) :
    (action >>= next) st = (action st >>= fun outcome =>
      match outcome.1 with
      | .ok a => next a outcome.2
      | .error stop => .done (.error stop, outcome.2)) := rfl

theorem bind_of_ok {action : Eval α} {next : α → Eval β} {a : α} {st' : State}
    (h : action st = .done (.ok a, st')) : (action >>= next) st = next a st' := by
  rw [bind_apply, h]
  rfl

theorem bind_of_error {action : Eval α} {next : α → Eval β} {stop : Stop} {st' : State}
    (h : action st = .done (.error stop, st')) :
    (action >>= next) st = .done (.error stop, st') := by
  rw [bind_apply, h]
  rfl

theorem map_eq_bind (f : α → β) (action : Eval α) :
    f <$> action = action >>= fun a => pure (f a) := rfl

theorem bind_assoc {γ : Type} (action : Eval α) (f : α → Eval β) (g : β → Eval γ) :
    action >>= f >>= g = action >>= fun a => f a >>= g := by
  funext st
  rw [bind_apply, bind_apply, bind_apply, Plan.bind_assoc]
  congr 1
  funext outcome
  obtain ⟨result, st⟩ := outcome
  cases result <;> rfl

theorem inspect_of_ok {f : State → Except Dangling α} {a : α} (h : f st = .ok a) :
    inspect f st = .done (.ok a, st) := by
  rw [inspect, h]

theorem defineIn_of_ok {ref : FrameRef} {frame : Frame} (h : st.heap.frame ref = .ok frame)
    (name : String) (value : Value) : defineIn ref name value st =
      .done (.ok (), { st with heap := st.heap.bindVariable ref name value }) := by
  rw [defineIn, bind_of_ok (inspect_of_ok h)]
  rfl

theorem define_of_ok {frame : Frame} (h : st.heap.frame st.current = .ok frame) (name : String)
    (value : Value) : define name value st =
      .done (.ok (), { st with heap := st.heap.bindVariable st.current name value }) :=
  defineIn_of_ok h name value

theorem lookUp_local {name : String} {line distance : Nat} {found : Option Value}
    (h : st.heap.lookupAt st.current distance name = .ok found) :
    lookUp name line (some distance) st = ofOption line (.undefinedVariable name) found st := by
  rw [lookUp]
  exact bind_of_ok (inspect_of_ok h)

theorem lookUp_global {name : String} {line : Nat} {found : Option Value}
    (h : st.heap.lookup st.globals name = .ok found) :
    lookUp name line none st = ofOption line (.undefinedVariable name) found st := by
  rw [lookUp]
  exact bind_of_ok (inspect_of_ok h)

/-- Change the variable of a frame that was looked for, if it was found. -/
def assignFound (name : Ident) (value : Value) (found : Option FrameRef) : Eval Unit := do
  let frame ← ofOption name.line (.undefinedVariable name.lexeme) found
  changeHeap (·.bindVariable frame name.lexeme value)

theorem assign_local {name : Ident} {distance : Nat} {value : Value} {found : Option FrameRef}
    (h : st.heap.ownerAt st.current distance name.lexeme = .ok found) :
    Eval.assign ⟨name, some distance⟩ value st = assignFound name value found st := by
  rw [Eval.assign]
  exact bind_of_ok (inspect_of_ok h)

theorem assign_global {name : Ident} {value : Value} {found : Option FrameRef}
    (h : st.heap.owner st.globals name.lexeme = .ok found) :
    Eval.assign ⟨name, none⟩ value st = assignFound name value found st := by
  rw [Eval.assign]
  exact bind_of_ok (inspect_of_ok h)

theorem setField_of_ok {object : Instance} {fields : Bindings Value}
    (h : st.heap.fields object.fields = .ok fields) (name : String) (value : Value) :
    setField object name value st =
      .done (.ok (), { st with heap := st.heap.bindField object.fields name value }) := by
  rw [setField, bind_of_ok (inspect_of_ok h)]
  rfl

/-- A call of what takes so many arguments is checked for their number first and then for room. -/
theorem call_of_arity {callee : Value} {line arity : Nat} (known : arityOf callee line = pure arity)
    (vs : List Value) (st : State) : call callee vs line st =
      if vs.length ≠ arity then fail line (.wrongArgumentCount arity vs.length) st
      else if st.settings.maxCallDepth ≤ st.callDepth then fail line .tooManyCalls st
      else inCall (enter callee vs line) st := by
  have given : (pure arity : Eval Nat) st = .done (.ok arity, st) := rfl
  have looked : look (fun st => decide (st.settings.maxCallDepth ≤ st.callDepth)) st =
      .done (.ok (decide (st.settings.maxCallDepth ≤ st.callDepth)), st) := rfl
  rw [call, known, bind_of_ok given]
  split
  · rfl
  · rw [bind_of_ok looked]
    by_cases full : st.settings.maxCallDepth ≤ st.callDepth
    · rw [if_pos full, if_pos (decide_eq_true full)]
    · rw [if_neg full, if_neg (Bool.not_eq_true _ ▸ decide_eq_false full)]

/-- A call fails for what is called or for the number of arguments, wherever it is made, or else only
for want of room. -/
theorem call_cases (callee : Value) (vs : List Value) (line : Nat) :
    (∃ cause, cause ≠ .tooManyCalls ∧ call callee vs line = fail line cause) ∨
      ∀ st, call callee vs line st =
        if st.settings.maxCallDepth ≤ st.callDepth then fail line .tooManyCalls st
        else inCall (enter callee vs line) st := by
  have guarded (arity : Nat) (known : arityOf callee line = pure arity) :
      (∃ cause, cause ≠ .tooManyCalls ∧ call callee vs line = fail line cause) ∨
        ∀ st, call callee vs line st =
          if st.settings.maxCallDepth ≤ st.callDepth then fail line .tooManyCalls st
          else inCall (enter callee vs line) st := by
    by_cases same : vs.length = arity
    · refine .inr fun st => ?_
      rw [call_of_arity known, if_neg (not_not_intro same)]
    · refine .inl ⟨.wrongArgumentCount arity vs.length, nofun, funext fun st => ?_⟩
      rw [call_of_arity known, if_pos same]
  cases callee with
  | function _ closure => exact guarded closure.arity rfl
  | native _ native => exact guarded native.arity rfl
  | class_ type => exact guarded type.arity rfl
  | _ => exact .inl ⟨.notCallable, nofun, rfl⟩

/-- A call fails, or else as many arguments as what is called takes are passed, there is room for the call,
and it is entered. -/
theorem call_fails_or_enters (callee : Value) (vs : List Value) (line : Nat) (st : State) :
    (∃ cause, call callee vs line st = fail line cause st) ∨
      arityOf callee line = pure vs.length ∧ st.callDepth < st.settings.maxCallDepth ∧
        call callee vs line st = inCall (enter callee vs line) st := by
  have counted (arity : Nat) (known : arityOf callee line = pure arity) :
      (∃ cause, call callee vs line st = fail line cause st) ∨
        arityOf callee line = pure vs.length ∧ st.callDepth < st.settings.maxCallDepth ∧
          call callee vs line st = inCall (enter callee vs line) st := by
    rw [call_of_arity known]
    by_cases same : vs.length = arity
    · rw [if_neg (not_not_intro same)]
      by_cases full : st.settings.maxCallDepth ≤ st.callDepth
      · exact .inl ⟨.tooManyCalls, if_pos full⟩
      · exact .inr ⟨same ▸ known, Nat.lt_of_not_le full, if_neg full⟩
    · exact .inl ⟨.wrongArgumentCount arity vs.length, if_pos same⟩
  cases callee with
  | function _ closure => exact counted closure.arity rfl
  | native _ native => exact counted native.arity rfl
  | class_ type => exact counted type.arity rfl
  | _ => exact .inl ⟨.notCallable, rfl⟩

/-! ## Actions on the heap -/

end Eval

/-- Two states with one heap, the same globals and the same current frame. -/
structure State.Shares (st st' : State) : Prop where
  heap : st'.heap = st.heap
  globals : st'.globals = st.globals
  current : st'.current = st.current

theorem State.Shares.refl (st : State) : st.Shares st := ⟨rfl, rfl, rfl⟩

namespace Eval

variable {α β : Type}

/-- The action asks for nothing and changes nothing but the heap, and no more than the heap, the
globals and the current frame tells what it comes to. -/
def Local (action : Eval α) : Prop :=
  ∀ st st' : State, st.Shares st' → ∃ result heap,
    action st = .done (result, { st with heap := heap }) ∧
      action st' = .done (result, { st' with heap := heap })

namespace Local

/-- An action on the heap is over at once. -/
theorem exists_done {action : Eval α} (h : action.Local) (st : State) :
    ∃ result heap, action st = .done (result, { st with heap := heap }) := by
  obtain ⟨result, heap, done, -⟩ := h st st (.refl st)
  exact ⟨result, heap, done⟩

theorem pure (a : α) : Local (Pure.pure a) := by
  intro st st' shares
  refine ⟨.ok a, st.heap, rfl, ?_⟩
  rw [← shares.heap]
  rfl

theorem halt (stop : Stop) : (Eval.halt stop : Eval α).Local := by
  intro st st' shares
  refine ⟨.error stop, st.heap, rfl, ?_⟩
  rw [← shares.heap]
  rfl

theorem fail (line : Nat) (cause : RuntimeError.Cause) : (Eval.fail line cause : Eval α).Local :=
  halt _

theorem bind {action : Eval α} {next : α → Eval β} (h : action.Local) (h' : ∀ a, (next a).Local) :
    (action >>= next).Local := by
  intro st st' shares
  obtain ⟨result, heap, done, done'⟩ := h st st' shares
  cases result with
  | ok a =>
    rw [bind_of_ok done, bind_of_ok done']
    exact h' a _ _ ⟨rfl, shares.globals, shares.current⟩
  | error stop => exact ⟨_, _, bind_of_error done, bind_of_error done'⟩

theorem map {action : Eval α} (h : action.Local) (f : α → β) : (f <$> action).Local :=
  bind h fun a => pure (f a)

theorem look {f : State → α} (same : ∀ st st', State.Shares st st' → f st' = f st) :
    (Eval.look f).Local := by
  intro st st' shares
  refine ⟨.ok (f st), st.heap, rfl, ?_⟩
  rw [← same st st' shares, ← shares.heap]
  rfl

theorem inspect {f : State → Except Dangling α}
    (same : ∀ st st', State.Shares st st' → f st' = f st) : (Eval.inspect f).Local := by
  intro st st' shares
  have looked := same st st' shares
  unfold Eval.inspect
  cases found : f st with
  | ok a =>
    rw [found] at looked
    simp only [looked]
    exact pure a st st' shares
  | error access =>
    rw [found] at looked
    simp only [looked]
    exact halt _ st st' shares

theorem make (f : Heap → α × Heap) : (Eval.make f).Local := by
  intro st st' shares
  refine ⟨.ok (f st.heap).1, (f st.heap).2, rfl, ?_⟩
  rw [← shares.heap]
  rfl

theorem changeHeap (f : Heap → Heap) : (Eval.changeHeap f).Local := by
  intro st st' shares
  refine ⟨.ok (), f st.heap, rfl, ?_⟩
  rw [← shares.heap]
  rfl

theorem ofOption (line : Nat) (cause : RuntimeError.Cause) (found : Option α) :
    (Eval.ofOption line cause found).Local := by
  cases found with
  | none => exact fail line cause
  | some a => exact pure a

theorem ofResult (line : Nat) (result : Except RuntimeError.Cause α) :
    (Eval.ofResult line result).Local := by
  cases result with
  | error cause => exact fail line cause
  | ok a => exact pure a

theorem defineIn (frame : FrameRef) (name : String) (value : Value) :
    (Eval.defineIn frame name value).Local :=
  bind (inspect fun _ _ shares => by rw [shares.heap]) fun _ => changeHeap _

theorem define (name : String) (value : Value) : (Eval.define name value).Local :=
  bind (look fun _ _ shares => shares.current) fun _ => defineIn _ _ _

theorem lookUp (name : String) (line : Nat) (depth : Option Nat) :
    (Eval.lookUp name line depth).Local :=
  bind (inspect fun _ _ shares => by rw [shares.heap, shares.globals, shares.current])
    fun _ => ofOption line _ _

theorem assign (target : Reference) (value : Value) : (Eval.assign target value).Local :=
  bind (inspect fun _ _ shares => by rw [shares.heap, shares.globals, shares.current])
    fun _ => bind (ofOption _ _ _) fun _ => changeHeap _

theorem property (object : Instance) (name : Ident) : (Eval.property object name).Local := by
  refine bind (inspect fun _ _ shares => by rw [shares.heap]) fun found => ?_
  match found with
  | some (.field value) => exact pure value
  | some (.method method) => exact make _
  | none => exact fail _ _

theorem setField (object : Instance) (name : String) (value : Value) :
    (Eval.setField object name value).Local :=
  bind (inspect fun _ _ shares => by rw [shares.heap]) fun _ => changeHeap _

theorem superMethod (line : Nat) (method : Ident) (depth : Option Nat) :
    (Eval.superMethod line method depth).Local := by
  refine bind (ofOption _ _ _) fun distance =>
    bind (inspect fun _ _ shares => by rw [shares.heap, shares.current]) fun parent => ?_
  split
  · refine bind (inspect fun _ _ shares => by rw [shares.heap, shares.current]) fun this => ?_
    split
    · exact bind (ofOption _ _ _) fun _ => make _
    · exact fail _ _
  · exact fail _ _

theorem close (decl : Function) : (Eval.close decl).Local :=
  bind (look fun _ _ shares => shares.current) fun _ => bind (make _) fun _ => pure _

theorem bindParameters (frame : FrameRef) (bindings : List (Ident × Value)) :
    (Eval.bindParameters frame bindings).Local := by
  induction bindings with
  | nil => exact pure ()
  | cons _ _ ih => exact bind (defineIn _ _ _) fun _ => ih

theorem methodFrame (name : Ident) (methods : List Function) (parent : Option Class) :
    (Eval.methodFrame name methods parent).Local := by
  cases parent with
  | none => exact look fun _ _ shares => shares.current
  | some parent =>
    exact bind (look fun _ _ shares => shares.current) fun _ =>
      bind (make _) fun _ => bind (defineIn _ _ _) fun _ => pure _

end Local

end Eval

/-- The state that a program leaves that has come to this result in `st`. -/
def State.after (st : State) : Except Stop Unit → State
  | .ok _ => st
  | .error _ => st.reset

theorem evaluationWith_run (tidy : State → State) (program : List Stmt) (st : State) :
    evaluationWith tidy .program ⟨.run program, st⟩ =
      Eval.program program st >>= fun o => .done (.answer ⟨o.1, o.2.after o.1⟩) := by
  change (((Eval.program program st >>= _) >>= _) >>= _) = _
  rw [Plan.bind_assoc, Plan.bind_assoc]
  congr 1
  funext o
  obtain ⟨result, st'⟩ := o
  cases result <;> rfl

/-- How a `print` ends whose operand has come to `v` in `st`. -/
def Eval.afterOperand (line : Nat) (v : Value) (st : State) :
    Plan Evaluation.Question Evaluation.Answer (Next Evaluation.Question Evaluation.Answer .flow) :=
  match st.sink.print v.text with
  | .ok sink => .done (.answer ⟨.ok .normal, { st with sink := sink }⟩)
  | .error reason => .done (.answer ⟨.error (.error ⟨line, .outputFailed reason⟩), st⟩)

theorem Eval.afterOperand_of_ok {line : Nat} {v : Value} {st : State} {sink : Sink}
    (printed : st.sink.print v.text = .ok sink) :
    Eval.afterOperand line v st = .done (.answer ⟨.ok .normal, { st with sink := sink }⟩) := by
  rw [Eval.afterOperand, printed]

theorem Eval.afterOperand_of_error {line : Nat} {v : Value} {st : State} {reason : String}
    (refused : st.sink.print v.text = .error reason) :
    Eval.afterOperand line v st =
      .done (.answer ⟨.error (.error ⟨line, .outputFailed reason⟩), st⟩) := by
  rw [Eval.afterOperand, refused]

theorem evaluationWith_print (tidy : State → State) (line : Nat) (e : Expr) (st : State) :
    evaluationWith tidy .flow ⟨.perform (.print line e), st⟩ =
      .ask ⟨.evaluate e, st⟩ fun r =>
        match r.result with
        | .ok v => Eval.afterOperand line v r.state
        | .error stop => .done (.answer ⟨.error stop, r.state⟩) := by
  change Plan.ask (Evaluation.Question.mk (.evaluate e) st) _ = _
  congr 1
  funext r
  obtain ⟨result, st'⟩ := r
  cases result with
  | error stop => rfl
  | ok v =>
    change (Eval.print line v.text st' >>= _) >>= _ = Eval.afterOperand line v st'
    rw [Eval.print, Eval.afterOperand]
    cases st'.sink.print v.text <;> rfl

end Lox
