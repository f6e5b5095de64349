import Lox.Proofs.Evaluation.Action
import Lox.Proofs.Heap.Collect
import Lox.Proofs.Plan.Course

/-!
# Frames that bind `super`

A declaration of a class with a superclass makes a frame, which binds `super` and which the methods of
the class have around them (`Evaluation.Declares`).  Nothing that runs binds `super` anew, so that each
such frame binds it for good to the class that the superclass was when the declaration was executed.

This is carried through a run as a fact about all frames on the heap (`Heap.Attributes`): each frame
made for the methods of a class is put down to an execution of its declaration.  Actions uphold it
(`Eval.Upholds`) as long as the names that they bind are not `super`, and so do the rules
(`Evaluation.attributes_of_arises`).
-/

namespace Lox

open Evaluation

/-- From `before` on, the declaration of a class with a superclass is executed.  The superclass comes to
`parent`; then `frame` is made, and the name of the class is bound to one that extends `parent`, whose
own methods have that frame around them. -/
structure Evaluation.Declares (before : State) (name : Ident) (superclass : Reference)
    (methods : List Function) (parent : Class) (frame : FrameRef) : Prop where
  /-- No frame that was made earlier has the number of this one. -/
  made : ∃ evaluated, evaluation.Answers .value ⟨.evaluate (.variable_ superclass), before⟩
    ⟨.ok (.class_ parent), evaluated⟩ ∧ frame.serial = evaluated.heap.frames.allocated
  bound : ∃ identity after, evaluation.Answers .flow
      ⟨.perform (.class_ name (some superclass) methods), before⟩ ⟨.ok .normal, after⟩ ∧
    after.heap.lookupAt after.current 0 name.lexeme = .ok (some (.class_
      (.extend ⟨identity, name.lexeme, Eval.methodsIn frame methods⟩ (some parent))))

variable {Made : FrameRef → Ident → List Function → Class → Prop}

/-! ## Heaps -/

/-- A new frame for the methods of a class, which binds `super`. -/
def Heap.newParent (heap : Heap) (enclosing : FrameRef) (name : Ident) (methods : List Function)
    (parent : Class) : FrameRef × Heap :=
  let (frame, heap) := heap.newFrame (some enclosing) (.parent name methods)
  (frame, heap.bindVariable frame superName (.class_ parent))

/-- Each frame on the heap that was made for the methods of a class binds `super` to a class, and the
frame, the declaration and that class meet `Made`. -/
structure Heap.Attributes (Made : FrameRef → Ident → List Function → Class → Prop) (heap : Heap) :
    Prop where
  frames : heap.frames.Sound
  super : ∀ {ref frame}, heap.HoldsFrame ref frame → ∀ {name methods},
    frame.construct = .parent name methods → ∃ parent,
      frame.bindings.find? superName = some (.class_ parent) ∧ Made ref name methods parent

namespace Heap.Attributes

variable {heap : Heap}

theorem newFrame (h : heap.Attributes Made) (enclosing : Option FrameRef) (construct : Construct)
    (other : ∀ name methods, construct ≠ .parent name methods) :
    (heap.newFrame enclosing construct).2.Attributes Made where
  frames := h.frames.alloc _
  super := by
    intro ref frame holds name methods same
    rcases (holdsFrame_newFrame h.frames).mp holds with ⟨-, rfl⟩ | holds
    · exact absurd same (other name methods)
    · exact h.super holds same

theorem newInstance (h : heap.Attributes Made) : heap.newInstance.2.Attributes Made :=
  ⟨h.frames, fun holds => h.super holds⟩

theorem newIdentity (h : heap.Attributes Made) : heap.newIdentity.2.Attributes Made :=
  ⟨h.frames, fun holds => h.super holds⟩

theorem bindField (h : heap.Attributes Made) (ref : InstanceRef) (name : String) (value : Value) :
    (heap.bindField ref name value).Attributes Made :=
  ⟨h.frames, fun holds => h.super holds⟩

/-- Any name but `super` may be bound anew. -/
theorem bindVariable (h : heap.Attributes Made) (target : FrameRef) {name : String}
    (ne : name ≠ superName) (value : Value) : (heap.bindVariable target name value).Attributes Made where
  frames := h.frames.modify _ _
  super := by
    intro ref frame holds declared methods same
    obtain ⟨old, held, rfl⟩ := Arena.holds_modify.mp holds
    split at same
    · obtain ⟨parent, found, made⟩ := h.super held same
      refine ⟨parent, ?_, made⟩
      rw [if_pos ‹_›, Bindings.find?_insert_of_ne _ ne, found]
    · obtain ⟨parent, found, made⟩ := h.super held same
      exact ⟨parent, by rwa [if_neg ‹_›], made⟩

theorem bindMethod (h : heap.Attributes Made) (method : Closure) (object : Instance) :
    (heap.bindMethod method object).2.Attributes Made :=
  (h.newFrame _ (.self method.declaration) fun _ _ => nofun).bindVariable _ (by decide) _

theorem boundMethod (h : heap.Attributes Made) (method : Closure) (object : Instance) :
    (heap.boundMethod method object).2.Attributes Made :=
  (h.bindMethod method object).newIdentity

/-- A frame for the methods of a class binds `super` as soon as it is made. -/
theorem newParent (h : heap.Attributes Made) {enclosing : FrameRef} {name : Ident}
    {methods : List Function} {parent : Class}
    (made : Made (heap.newParent enclosing name methods parent).1 name methods parent) :
    (heap.newParent enclosing name methods parent).2.Attributes Made where
  frames := (h.frames.alloc _).modify _ _
  super := by
    intro ref frame holds name' methods' same
    have new := holdsFrame_newFrame_self h.frames (some enclosing) (.parent name methods)
    rcases (holdsFrame_bindVariable new).mp holds with ⟨rfl, rfl⟩ | ⟨ne, holds⟩
    · cases same
      exact ⟨parent, Bindings.find?_insert_self .., made⟩
    · rcases (holdsFrame_newFrame h.frames).mp holds with ⟨same, -⟩ | holds
      · exact absurd same ne
      · exact h.super holds same

theorem collect {roots : List HeapObject} (h : heap.Attributes Made) (sound : heap.Sound)
    (there : ∀ object ∈ roots, heap.Has object) : (heap.collect roots).2.Attributes Made :=
  ⟨(sound.collect there).frames, fun holds => h.super ((holdsFrame_collect sound there).mp holds).1⟩

end Heap.Attributes

/-! ## Actions -/

namespace Eval

variable {α β : Type}

/-- If frames are put down to executions when the action begins, they are whenever it asks for a task,
and when it ends. -/
def Upholds (Made : FrameRef → Ident → List Function → Class → Prop) (action : Eval α) : Prop :=
  ∀ st, st.heap.Attributes Made → (action st).Ensures (fun _ q => q.state.heap.Attributes Made)
    (fun sort q r => evaluation.Answers sort q r ∧ r.state.heap.Attributes Made)
    fun o => o.2.heap.Attributes Made

namespace Upholds

theorem pure (a : α) : (Pure.pure a : Eval α).Upholds Made := fun _ h => h

theorem fail (line : Nat) (cause : RuntimeError.Cause) : (Eval.fail line cause : Eval α).Upholds Made :=
  fun _ h => h

theorem bind {action : Eval α} {next : α → Eval β} (h : action.Upholds Made)
    (h' : ∀ a, (next a).Upholds Made) : (action >>= next).Upholds Made := by
  intro st attributes
  rw [bind_apply]
  refine (h st attributes).bind fun o attributes => ?_
  obtain ⟨result, st'⟩ := o
  cases result with
  | ok a => exact h' a st' attributes
  | error stop => exact attributes

theorem pure_bind (a : α) {next : α → Eval β} (h : (next a).Upholds Made) :
    (Pure.pure a >>= next).Upholds Made := h

theorem map {action : Eval α} (h : action.Upholds Made) (f : α → β) : (f <$> action).Upholds Made :=
  bind h fun a => pure (f a)

theorem ask {sort : TaskSort} (task : Task sort) : (Eval.ask task).Upholds Made :=
  fun _ h => ⟨h, fun _ known => known.2⟩

theorem look (f : State → α) : (Eval.look f).Upholds Made := fun _ h => h

theorem inspect (f : State → Except Dangling α) : (Eval.inspect f).Upholds Made := by
  intro st attributes
  unfold Eval.inspect
  split <;> exact attributes

theorem make {f : Heap → α × Heap} (h : ∀ heap, heap.Attributes Made → (f heap).2.Attributes Made) :
    (Eval.make f).Upholds Made :=
  fun _ attributes => h _ attributes

theorem changeHeap {f : Heap → Heap} (h : ∀ heap, heap.Attributes Made → (f heap).Attributes Made) :
    (Eval.changeHeap f).Upholds Made :=
  fun _ attributes => h _ attributes

theorem ofOption (line : Nat) (cause : RuntimeError.Cause) (found : Option α) :
    (Eval.ofOption line cause found).Upholds Made := by
  cases found with
  | none => exact fail line cause
  | some a => exact pure a

theorem ofResult (line : Nat) (result : Except RuntimeError.Cause α) :
    (Eval.ofResult line result).Upholds Made := by
  cases result with
  | error cause => exact fail line cause
  | ok a => exact pure a

/-- What is changed around an action is not the heap. -/
theorem between {κ : Type} {keep : State → κ} {before : State → State} {after : κ → State → State}
    {action : Eval α} (h : action.Upholds Made) (same : ∀ st, (before st).heap = st.heap)
    (same' : ∀ k st, (after k st).heap = st.heap) :
    (Eval.between keep before after action).Upholds Made := by
  intro st attributes
  refine Plan.Ensures.bind (h (before st) (same st ▸ attributes)) fun o left => ?_
  change (after (keep st) o.2).heap.Attributes Made
  rw [same']
  exact left

theorem inFrame {action : Eval α} (frame : FrameRef) (h : action.Upholds Made) :
    (Eval.inFrame frame action).Upholds Made :=
  between h (fun _ => rfl) fun _ _ => rfl

theorem holding {action : Eval α} (v : Value) (h : action.Upholds Made) :
    (Eval.holding v action).Upholds Made :=
  between h (fun _ => rfl) fun _ _ => rfl

theorem inCall {action : Eval α} (h : action.Upholds Made) : (Eval.inCall action).Upholds Made :=
  between h (fun _ => rfl) fun _ _ => rfl

theorem hold (v : Value) : (Eval.hold v).Upholds Made := fun _ h => h

theorem print (line : Nat) (text : String) : (Eval.print line text).Upholds Made := by
  intro st attributes
  unfold Eval.print
  split
  · exact attributes
  · exact fail line _ st attributes

theorem readClock : Eval.readClock.Upholds Made := fun _ h => h

/-! ### Variables and properties -/

theorem defineIn (frame : FrameRef) {name : String} (ne : name ≠ superName) (value : Value) :
    (Eval.defineIn frame name value).Upholds Made :=
  bind (inspect _) fun _ => changeHeap fun _ attributes => attributes.bindVariable frame ne value

theorem define {name : String} (ne : name ≠ superName) (value : Value) :
    (Eval.define name value).Upholds Made :=
  bind (look _) fun frame => defineIn frame ne value

theorem lookUp (name : String) (line : Nat) (depth : Option Nat) :
    (Eval.lookUp name line depth).Upholds Made :=
  bind (inspect _) fun _ => ofOption line _ _

theorem assign {target : Reference} (ne : target.name.lexeme ≠ superName) (value : Value) :
    (Eval.assign target value).Upholds Made :=
  bind (inspect _) fun _ => bind (ofOption _ _ _) fun owner =>
    changeHeap fun _ attributes => attributes.bindVariable owner ne value

theorem property (object : Instance) (name : Ident) : (Eval.property object name).Upholds Made := by
  refine bind (inspect _) fun found => ?_
  match found with
  | some (.field value) => exact pure value
  | some (.method method) => exact make fun _ attributes => attributes.boundMethod method object
  | none => exact fail _ _

theorem setField (object : Instance) (name : String) (value : Value) :
    (Eval.setField object name value).Upholds Made :=
  bind (inspect _) fun _ => changeHeap fun _ attributes => attributes.bindField _ _ _

theorem superMethod (line : Nat) (method : Ident) (depth : Option Nat) :
    (Eval.superMethod line method depth).Upholds Made := by
  refine bind (ofOption _ _ _) fun distance => bind (inspect _) fun parent => ?_
  split
  · refine bind (inspect _) fun this => ?_
    split
    · exact bind (ofOption _ _ _) fun found =>
        make fun _ attributes => attributes.boundMethod found _
    · exact fail _ _
  · exact fail _ _

theorem close (decl : Function) : (Eval.close decl).Upholds Made :=
  bind (look _) fun _ => bind (make fun _ attributes => attributes.newIdentity) fun _ => pure _

/-! ### Calls -/

theorem sequence (body : List Stmt) : (Eval.sequence body).Upholds Made := by
  induction body with
  | nil => exact pure _
  | cons first rest ih =>
    refine bind (ask _) fun flow => ?_
    cases flow with
    | normal => exact ih
    | returned value => exact pure _

theorem arguments (es : List Expr) : (Eval.arguments es).Upholds Made := by
  induction es with
  | nil => exact pure _
  | cons e rest ih =>
    exact bind (ask _) fun value => bind (hold value) fun _ => bind ih fun _ => pure _

theorem bindParameters (frame : FrameRef) {bindings : List (Ident × Value)}
    (ne : ∀ binding ∈ bindings, binding.1.lexeme ≠ superName) :
    (Eval.bindParameters frame bindings).Upholds Made := by
  induction bindings with
  | nil => exact pure ()
  | cons binding rest ih =>
    rw [List.forall_mem_cons] at ne
    exact bind (defineIn frame ne.1 _) fun _ => ih ne.2

theorem invoke {closure : Closure}
    (ne : ∀ parameter ∈ closure.declaration.parameters, parameter.lexeme ≠ superName)
    (values : List Value) : (Eval.invoke closure values).Upholds Made := by
  refine bind (make fun _ attributes => attributes.newFrame _ _ fun _ _ => nofun) fun frame =>
    bind (bindParameters frame fun binding mem => ne _ (List.of_mem_zip mem).1) fun _ =>
      bind (inFrame frame (sequence _)) fun flow => ?_
  split
  · exact bind (inspect _) fun _ => pure _
  · cases flow <;> exact pure _

theorem instantiate (type : Class) (values : List Value) :
    (Eval.instantiate type values).Upholds Made := by
  refine bind (make fun _ attributes => attributes.newInstance) fun fields => ?_
  simp only
  split
  · exact pure _
  · rename_i initializer _
    exact bind (make fun _ attributes => attributes.bindMethod initializer _) fun _ =>
      bind (ask _) fun _ => pure _

theorem enter (callee : Value) (values : List Value) (line : Nat) :
    (Eval.enter callee values line).Upholds Made := by
  cases callee with
  | function identity closure => exact ask _
  | native identity native =>
    cases native with
    | clock => exact map readClock _
  | class_ type => exact instantiate type values
  | _ => exact fail _ _

theorem call (callee : Value) (values : List Value) (line : Nat) :
    (Eval.call callee values line).Upholds Made := by
  intro st attributes
  rcases Eval.call_fails_or_enters callee values line st with ⟨cause, fails⟩ | ⟨-, -, enters⟩
  · rw [fails]
    exact attributes
  · rw [enters]
    exact inCall (enter callee values line) st attributes

theorem program (statements : List Stmt) : (Eval.program statements).Upholds Made := by
  induction statements with
  | nil => exact pure ()
  | cons first rest ih => exact bind (ask _) fun _ => ih

theorem resetting {action : Eval α} (h : action.Upholds Made) : (Eval.resetting action).Upholds Made := by
  intro st attributes
  refine Plan.Ensures.bind (h st attributes) fun o left => ?_
  obtain ⟨result, st'⟩ := o
  cases result <;> exact left

end Upholds

end Eval

/-! ## Rules -/

/-- The names that the rule for a task binds to what it has computed. -/
def Task.binds : {sort : TaskSort} → Task sort → List String
  | _, .evaluate (.assign target _) => [target.name.lexeme]
  | _, .perform (.var name _) | _, .perform (.class_ name _ _) => [name.lexeme]
  | _, .perform (.function decl) => [decl.name.lexeme]
  | _, .invoke closure _ => closure.declaration.parameters.map Ident.lexeme
  | _, _ => []

open Eval.Upholds

theorem Expr.upholds {e : Expr} (ne : ∀ name ∈ (Task.evaluate e).binds, name ≠ superName) :
    e.rule.Upholds Made := by
  cases e with
  | literal _ | group _ => exact pure _
  | unary _ _ => exact bind (ask _) fun _ => map (ofResult _ _) _
  | binary _ _ _ =>
    exact bind (ask _) fun v => bind (holding v (ask _)) fun _ => map (ofResult _ _) _
  | logical _ _ _ =>
    refine bind (ask _) fun _ => ?_
    split <;> exact pure _
  | variable_ _ | this _ _ => exact map (lookUp _ _ _) _
  | assign target _ =>
    have user : target.name.lexeme ≠ superName := ne _ List.mem_cons_self
    exact bind (ask _) fun _ => bind (Eval.Upholds.assign user _) fun _ => pure _
  | call _ _ _ =>
    exact bind (ask _) fun v => map (holding v (bind (arguments _) fun _ => ask _)) _
  | get _ _ =>
    refine bind (ask _) fun v => ?_
    cases v with
    | instance_ _ => exact map (property _ _) _
    | _ => exact fail _ _
  | set _ _ _ =>
    refine bind (ask _) fun v => ?_
    cases v with
    | instance_ _ =>
      exact bind (holding _ (ask _)) fun _ => bind (setField _ _ _) fun _ => pure _
    | _ => exact fail _ _
  | super _ _ _ => exact map (superMethod _ _ _) _
  | function _ => exact map (close _) _

/-- The rule for a statement, but for one that declares a class with a superclass. -/
theorem Stmt.upholds {s : Stmt} (ne : ∀ name ∈ (Task.perform s).binds, name ≠ superName)
    (other : ∀ name superclass methods, s ≠ .class_ name (some superclass) methods) :
    s.rule.Upholds Made := by
  cases s with
  | expression _ => exact bind (ask _) fun _ => pure _
  | print _ _ => exact bind (ask _) fun _ => bind (Eval.Upholds.print _ _) fun _ => pure _
  | var name initial =>
    have user : name.lexeme ≠ superName := ne _ List.mem_cons_self
    cases initial with
    | none => exact bind (define user _) fun _ => pure _
    | some _ => exact bind (ask _) fun _ => bind (define user _) fun _ => pure _
  | block _ =>
    exact bind (look _) fun _ => bind (make fun _ attributes => attributes.newFrame _ _ fun _ _ => nofun)
      fun frame => map (inFrame frame (sequence _)) _
  | branch _ _ no =>
    refine bind (ask _) fun _ => ?_
    split
    · exact pure _
    · cases no <;> exact pure _
  | loop _ _ => exact pure _
  | function decl =>
    have user : decl.name.lexeme ≠ superName := ne _ List.mem_cons_self
    exact bind (close _) fun _ => bind (define user _) fun _ => pure _
  | return_ _ value =>
    cases value with
    | none => exact pure _
    | some _ => exact bind (ask _) fun _ => pure _
  | class_ name superclass methods =>
    have user : name.lexeme ≠ superName := ne _ List.mem_cons_self
    cases superclass with
    | some superclass => exact absurd rfl (other name superclass methods)
    | none =>
      exact bind (pure_bind none (bind (define user _) fun _ => bind (look _) fun _ =>
        bind (make fun _ attributes => attributes.newIdentity) fun _ => define user _)) fun _ => pure _

/-- If frames are put down to executions when the question comes up, they are whenever its rule asks one,
and when it is answered. -/
def Evaluation.Upheld (Made : FrameRef → Ident → List Function → Class → Prop) {sort : TaskSort}
    (q : Question sort) : Prop :=
  (evaluation sort q).Ensures (fun _ q => q.state.heap.Attributes Made)
    (fun sort q r => evaluation.Answers sort q r ∧ r.state.heap.Attributes Made)
    (Rules.Settles (fun _ q => q.state.heap.Attributes Made)
      (fun _ _ r => r.state.heap.Attributes Made) q)

/-- A rule that upholds it. -/
theorem Evaluation.upheld_of_upholds {sort : TaskSort} {task : Task sort} {st : State}
    (attributes : st.heap.Attributes Made) (upholds : (task.rule State.collectIfDue).Upholds Made) :
    Upheld Made ⟨task, st⟩ := by
  refine (upholds st attributes).bind fun o left => ?_
  obtain ⟨result, st'⟩ := o
  cases result with
  | error stop => exact left
  | ok ending =>
    cases ending with
    | result a => exact left
    | task task' => exact ⟨left, fun _ after => after⟩

/-! ### Classes with a superclass -/

/-- Declare a class, once it is known what it extends. -/
def Eval.declareExtending (name : Ident) (methods : List Function) (parent : Option Class) :
    Eval Unit := do
  define name.lexeme .nil
  let frame ← methodFrame name methods parent
  let identity ← make Heap.newIdentity
  define name.lexeme (.class_ (.extend ⟨identity, name.lexeme, methodsIn frame methods⟩ parent))

/-- The class that a value is, for a superclass that was mentioned on a line. -/
def Value.superclass (line : Nat) : Value → Eval (Option Class)
  | .class_ parent => return some parent
  | _ => Eval.fail line .superclassNotAClass

/-- What is left of the declaration of a class when the superclass has come to `v` in `st`. -/
def Eval.afterSuperclass (name : Ident) (superclass : Reference) (methods : List Function) (v : Value)
    (st : State) : Plan Question Answer (Next Question Answer .flow) :=
  (v.superclass superclass.name.line >>= declareExtending name methods) st >>= fun o =>
    .done (.answer ⟨o.1.map fun _ => .normal, o.2⟩)

theorem evaluation_subclass (name : Ident) (superclass : Reference) (methods : List Function)
    (before : State) :
    evaluation .flow ⟨.perform (.class_ name (some superclass) methods), before⟩ =
      .ask ⟨.evaluate (.variable_ superclass), before⟩ fun r =>
        match r.result with
        | .ok v => Eval.afterSuperclass name superclass methods v r.state
        | .error stop => .done (.answer ⟨.error stop, r.state⟩) := by
  change Plan.ask (Question.mk (.evaluate (.variable_ superclass)) before) _ = _
  congr 1
  funext r
  obtain ⟨result, st⟩ := r
  cases result with
  | error stop => rfl
  | ok v =>
    change (((v.superclass superclass.name.line >>= Eval.declareExtending name methods) st >>= _) >>=
      _) = _
    rw [Plan.bind_assoc]
    unfold Eval.afterSuperclass
    congr 1
    funext o
    obtain ⟨result, st⟩ := o
    cases result <;> rfl

theorem Eval.methodFrame_some {name : Ident} {methods : List Function} {parent : Class} {st : State}
    (frames : st.heap.frames.Sound) : methodFrame name methods (some parent) st =
      .done (.ok (st.heap.newParent st.current name methods parent).1,
        { st with heap := (st.heap.newParent st.current name methods parent).2 }) := by
  have looked : look State.current st = .done (.ok st.current, st) := rfl
  have new := Heap.holdsFrame_newFrame_self frames (some st.current) (.parent name methods)
  have made : make (fun heap => heap.newFrame (some st.current) (.parent name methods)) st =
      .done (.ok (st.heap.newFrame (some st.current) (.parent name methods)).1,
        { st with heap := (st.heap.newFrame (some st.current) (.parent name methods)).2 }) := rfl
  rw [methodFrame, bind_of_ok looked, bind_of_ok made, bind_of_ok (defineIn_of_ok new.access _ _)]
  rfl

/-- Where the current frame is on the heap, a class that extends another one is declared. -/
theorem Eval.declareExtending_of_has (Made : FrameRef → Ident → List Function → Class → Prop)
    (name : Ident) (methods : List Function) (parent : Class) {st : State}
    (frames : st.heap.frames.Sound) (here : st.heap.Has (.frame st.current)) :
    ∃ frame identity heap, frame.serial = st.heap.frames.allocated ∧
      declareExtending name methods (some parent) st = .done (.ok (), { st with heap := heap }) ∧
      heap.lookupAt st.current 0 name.lexeme = .ok (some (.class_
        (.extend ⟨identity, name.lexeme, methodsIn frame methods⟩ (some parent)))) ∧
      (name.lexeme ≠ superName → st.heap.Attributes Made → Made frame name methods parent →
        heap.Attributes Made) := by
  obtain ⟨outer, holds⟩ := here
  -- The heap when the name is bound to nothing, and when the frame that binds `super` is made.
  let heap₁ := st.heap.bindVariable st.current name.lexeme .nil
  let made := heap₁.newParent st.current name methods parent
  have frames₁ : heap₁.frames.Sound := frames.modify _ _
  have stays : made.2.Has (.frame st.current) := by
    have here : heap₁.Has (.frame st.current) := ⟨_, holds.bindVariable _ _⟩
    exact (here.newFrame frames₁ _ _).bindVariable (Heap.holdsFrame_newFrame_self frames₁ _ _) _ _
  obtain ⟨frame, holds₂⟩ := stays
  let type : Class :=
    .extend ⟨made.2.newIdentity.1, name.lexeme, methodsIn made.1 methods⟩ (some parent)
  have holds₃ : made.2.newIdentity.2.HoldsFrame st.current frame := holds₂
  refine ⟨made.1, made.2.newIdentity.1,
    made.2.newIdentity.2.bindVariable st.current name.lexeme (.class_ type), rfl, ?_, ?_,
    fun user attributes found => ?_⟩
  · have framed : methodFrame name methods (some parent) { st with heap := heap₁ } =
        .done (.ok made.1, { st with heap := made.2 }) := methodFrame_some frames₁
    have identified : make Heap.newIdentity { st with heap := made.2 } =
        .done (.ok made.2.newIdentity.1, { st with heap := made.2.newIdentity.2 }) := rfl
    rw [declareExtending, bind_of_ok (define_of_ok holds.access _ _), bind_of_ok framed,
      bind_of_ok identified]
    exact define_of_ok holds₃.access _ _
  · rw [(holds₃.bindVariable _ _).lookupAt, Bindings.find?_insert_self]
  · have attributes₂ : made.2.Attributes Made := (attributes.bindVariable _ user _).newParent found
    exact attributes₂.newIdentity.bindVariable _ user _

/-- The rule for the declaration of a class with a superclass, where `Made` is so of what it declares. -/
theorem Stmt.upheld_subclass {name : Ident} {superclass : Reference} {methods : List Function}
    {before : State} (user : name.lexeme ≠ superName) (attributes : before.heap.Attributes Made)
    (intact : ∀ {v evaluated}, evaluation.Answers .value ⟨.evaluate (.variable_ superclass), before⟩
      ⟨.ok v, evaluated⟩ → evaluated.heap.Has (.frame evaluated.current))
    (made : ∀ {parent frame}, Declares before name superclass methods parent frame →
      Made frame name methods parent) :
    Upheld Made ⟨.perform (.class_ name (some superclass) methods), before⟩ := by
  have ruled := evaluation_subclass name superclass methods before
  rw [Upheld, ruled]
  refine ⟨attributes, fun r known => ?_⟩
  obtain ⟨result, evaluated⟩ := r
  cases result with
  | error stop => exact known.2
  | ok v =>
    cases v with
    | class_ parent =>
      obtain ⟨frame, identity, heap, serial, declared, looked, kept⟩ :=
        Eval.declareExtending_of_has Made name methods parent known.2.frames (intact known.1)
      have ends : Eval.afterSuperclass name superclass methods (.class_ parent) evaluated =
          .done (.answer ⟨.ok .normal, { evaluated with heap := heap }⟩) := by
        change (Eval.declareExtending name methods (some parent) evaluated >>= _) = _
        rw [declared]
        rfl
      have declares : Declares before name superclass methods parent frame := by
        refine ⟨⟨evaluated, known.1, serial⟩, identity, { evaluated with heap := heap },
          Rules.answers_of_reaches ?_, looked⟩
        rw [ruled]
        exact .answer known.1 (ends ▸ .refl _)
      change (Eval.afterSuperclass name superclass methods (.class_ parent) evaluated).Ensures _ _ _
      rw [ends]
      exact kept user known.2 (made declares)
    | _ => exact known.2

/-! ## Runs -/

namespace Evaluation

/-- **While a run goes on, each frame that binds `super` is put down to an execution of its
declaration.**  The names that the run binds are known not to be `super`, and the states that it passes
through to be valid; and `Made` is so of all that is declared. -/
theorem attributes_of_arises {start : Question .program}
    (user : ∀ {sort} {q : Question sort}, evaluation.Arises start q →
      ∀ name ∈ q.task.binds, name ≠ superName)
    (sound : ∀ {sort} {q : Question sort}, evaluation.Arises start q → q.state.heap.Sound ∧
      ∀ object ∈ q.state.roots, q.state.heap.Has object)
    (intact : ∀ {q : Question .value}, evaluation.Arises start q → ∀ {v after},
      evaluation.Answers .value q ⟨.ok v, after⟩ → after.heap.Has (.frame after.current))
    (made : ∀ {name superclass methods before},
      evaluation.Arises start ⟨.perform (.class_ name (some superclass) methods), before⟩ →
        ∀ {parent frame}, Declares before name superclass methods parent frame →
          Made frame name methods parent)
    (attributes : start.state.heap.Attributes Made) {sort : TaskSort} {q : Question sort}
    (arises : evaluation.Arises start q) : q.state.heap.Attributes Made ∧
      ∀ r, evaluation.Answers sort q r → r.state.heap.Attributes Made := by
  suffices keeps : ∀ {sort₁} {q₁ : Question sort₁}, evaluation.Arises start q₁ →
      q₁.state.heap.Attributes Made → Upheld Made q₁ from Rules.kept_along keeps attributes arises
  intro sort₁ q₁ arises attributes
  have ne := user arises
  obtain ⟨task, st⟩ := q₁
  cases task with
  | evaluate e => exact upheld_of_upholds attributes (Expr.upholds ne)
  | call callee values line => exact upheld_of_upholds attributes (map (call callee values line) _)
  | invoke closure values =>
    refine upheld_of_upholds attributes (map (invoke (fun parameter mem => ?_) values) _)
    exact ne _ (List.mem_map_of_mem mem)
  | execute s =>
    -- The collector keeps frames only, and the rule hands over at once.
    obtain ⟨sound, there⟩ := sound arises
    have collected : st.collectIfDue.heap.Attributes Made := by
      rw [State.collectIfDue]
      split
      · exact attributes.collect sound there
      · exact attributes
    exact ⟨collected, fun _ after => after⟩
  | perform s =>
    by_cases subclass : ∃ name superclass methods, s = .class_ name (some superclass) methods
    · obtain ⟨name, superclass, methods, rfl⟩ := subclass
      have asked : evaluation.Arises start ⟨.evaluate (.variable_ superclass), st⟩ := by
        refine Rules.Arises.waits arises (?_ : Plan.Waits _ _ [] _)
        rw [evaluation_subclass]
        exact .here
      exact Stmt.upheld_subclass (ne _ List.mem_cons_self) attributes (intact asked) (made arises)
    · exact upheld_of_upholds attributes
        (Stmt.upholds ne fun name superclass methods same => subclass ⟨_, _, _, same⟩)
  | repeat_ condition body =>
    refine upheld_of_upholds attributes (bind (ask _) fun v => ?_)
    split
    · refine bind (ask _) fun flow => ?_
      cases flow <;> exact pure _
    · exact pure _
  | run statements => exact upheld_of_upholds attributes (map (resetting (program statements)) _)

end Evaluation

end Lox
