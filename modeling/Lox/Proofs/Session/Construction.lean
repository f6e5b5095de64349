import Lox.Proofs.Evaluation.Initializer
import Lox.Proofs.Session.Dispatch

/-!
# Construction

A call of a class that does not fail comes to an instance of that class which is new: its fields are where
there were none before, so that it equals no value that the program could get at (`Evaluation.Fresh`).  A
call of an initializer that was taken from an object comes to that object (`Evaluation.Initializes`).  How
the initializer ends makes no difference.

The first is read off the rule for calls.  For the second it has to be known of each initializer that is
called which object it was taken from, in this run or in one before (`Evaluation.TakenIn`), and that its
frame still binds `this` to the object; that is what `Heap.Vouched` says, and here it is shown to last for
as long as a session does.
-/

namespace Lox

open Evaluation

/-! ## What a program can get at -/

/-- The program can get at the value: it is held on to, or it is bound in a frame or a field that can be
reached. -/
inductive State.InReach (st : State) : Value → Prop
  | held {v : Value} (mem : v ∈ st.temporaries.toList) : InReach st v
  | variable_ {ref : FrameRef} {frame : Frame} {v : Value}
      (reachable : st.heap.Reachable st.roots (.frame ref)) (holds : st.heap.HoldsFrame ref frame)
      (mem : v ∈ frame.bindings.values) : InReach st v
  | field {ref : InstanceRef} {fields : Bindings Value} {v : Value}
      (reachable : st.heap.Reachable st.roots (.instance_ ref)) (holds : st.heap.HoldsFields ref fields)
      (mem : v ∈ fields.values) : InReach st v

namespace State.Valid

variable {st : State} {v : Value}

theorem bears_of_inReach (valid : st.Valid) (h : st.InReach v) : st.heap.Bears v := by
  have has {object : HeapObject} (reachable : st.heap.Reachable st.roots object) : st.heap.Has object :=
    reachable.has valid.heap.sound valid.roots
  cases h with
  | held mem => exact valid.bears mem
  | variable_ reachable holds mem =>
    refine fun object inside => valid.heap.sound.has_of_frame holds object ?_
    exact List.mem_append_right _ (List.mem_flatMap.mpr ⟨v, mem, inside⟩)
  | field reachable holds mem =>
    refine fun object inside => valid.heap.sound.has_of_fields holds object ?_
    exact List.mem_flatMap.mpr ⟨v, mem, inside⟩

/-- An object whose fields are where there were none equals nothing that was there. -/
theorem isEqual_of_vacant (valid : st.Valid) {object : Instance}
    (vacant : st.heap.instances.get? object.fields.index = none) (h : st.InReach v) :
    v.isEqual (.instance_ object) = false ∧ (Value.instance_ object).isEqual v = false := by
  cases v with
  | instance_ other =>
    obtain ⟨fields, holds⟩ := valid.bears_of_inReach h (.instance_ other.fields) List.mem_cons_self
    have occupied := Arena.Holds.get? holds
    have ne : other.fields.index ≠ object.fields.index := by
      intro same
      rw [same, vacant] at occupied
      cases occupied
    exact ⟨beq_eq_false_iff_ne.mpr ne, beq_eq_false_iff_ne.mpr ne.symm⟩
  | _ => exact ⟨rfl, rfl⟩

end State.Valid

namespace Evaluation

/-- A class is called in one state, and when the call is over the object is a new instance of it. -/
structure Fresh (type : Class) (object : Instance) (before after : State) : Prop where
  type_eq : object.type = type
  /-- Its fields are where there were none. -/
  vacant : before.heap.instances.get? object.fields.index = none
  /-- It equals nothing that the program could get at. -/
  apart : ∀ v, before.InReach v →
    v.isEqual (.instance_ object) = false ∧ (Value.instance_ object).isEqual v = false
  there : after.heap.Bears (.instance_ object)

/-- In one of these runs, the method was taken from the object. -/
def TakenIn (Runs : Question .program → Prop) (c : Closure) (object : Instance) : Prop :=
  ∃ run q name, Runs run ∧ evaluation.Arises run q ∧ Takes q name c object

/-- What is called is an initializer that has been taken from the object.  In its frame `this` still is the
object, and unless the call fails it comes to the object. -/
structure Initializes (Runs : Question .program → Prop) (call : Question .value) (c : Closure)
    (object : Instance) : Prop where
  taken : TakenIn Runs c object
  this : call.state.heap.lookupAt c.frame 0 thisName = .ok (some (.instance_ object))
  comes : ∀ {v left}, evaluation.Answers .value call ⟨.ok v, left⟩ → v = .instance_ object

/-- A method is taken as a value: as a function in whose frame `this` is the object.  It is an initializer if
it is called `init`. -/
structure Extracts (q : Question .value) (name : String) (c : Closure) (object : Instance) : Prop where
  answers : ∃ identity left, evaluation.Answers .value q ⟨.ok (.function identity c), left⟩ ∧
    left.heap.lookupAt c.frame 0 thisName = .ok (some (.instance_ object))
  isInitializer : c.isInitializer = true ↔ name = initializerName

/-- While a program runs, calls of classes come to new instances, and calls of initializers to the objects
that they are bound to. -/
structure Constructs (Runs : Question .program → Prop) (start : Question .program) : Prop where
  fresh : ∀ {type vs line st}, evaluation.Arises start ⟨.call (.class_ type) vs line, st⟩ →
    ∀ {v left}, evaluation.Answers .value ⟨.call (.class_ type) vs line, st⟩ ⟨.ok v, left⟩ →
      ∃ object, v = .instance_ object ∧ Fresh type object st left
  initializer : ∀ {identity c vs line st},
    evaluation.Arises start ⟨.call (.function identity c) vs line, st⟩ → c.isInitializer = true →
      ∃ object, Initializes Runs ⟨.call (.function identity c) vs line, st⟩ c object
  extracts : ∀ {q name c object}, evaluation.Arises start q → Takes q name c object →
    Extracts q name c object

end Evaluation

/-! ## Taking methods -/

theorem Heap.findMethod?_of_findProperty {heap : Heap} {object : Instance} {name : String}
    {method : Closure} (found : heap.findProperty object name = .ok (some (.method method))) :
    object.type.findMethod? name = some method := by
  cases accessed : heap.fields object.fields with
  | error _ =>
    rw [Heap.findProperty, accessed] at found
    cases found
  | ok fields =>
    simp only [Heap.findProperty, accessed, bind, Except.bind] at found
    cases searched : fields.find? name with
    | some _ =>
      rw [searched] at found
      cases found
    | none =>
      rw [searched] at found
      obtain ⟨_, here, same⟩ := Option.map_eq_some_iff.mp (Except.ok.inj found)
      cases same
      exact here

theorem Heap.lookupAt_boundMethod {heap : Heap} (frames : heap.frames.Sound) (method : Closure)
    (object : Instance) :
    (heap.boundMethod method object).2.lookupAt (heap.bindMethod method object).1.frame 0 thisName =
      .ok (some (.instance_ object)) := by
  have holds : (heap.boundMethod method object).2.HoldsFrame _ _ :=
    Heap.holdsFrame_newIdentity.mpr (Heap.holdsFrame_bindMethod frames method object)
  rw [holds.lookupAt, Bindings.find?_insert_self]

namespace Evaluation

/-- Where the values in hand are vouched for, a method is taken as it should be. -/
theorem Takes.extracts {Taken : Closure → Instance → Prop} {q : Question .value} {name : String}
    {c : Closure} {object : Instance} (takes : Takes q name c object)
    (vouched : q.state.heap.Vouched Taken)
    (receiver : ∀ {e : Expr} {member : Ident}, q.task = .evaluate (.get e member) → ∀ {r},
      evaluation.Answers .value ⟨.evaluate e, q.state⟩ r →
        Vouched Taken .value ⟨.evaluate e, q.state⟩ r) : Extracts q name c object := by
  cases takes with
  | @get e name before mid object method known found =>
    obtain ⟨onward, names⟩ := receiver rfl known
    refine ⟨⟨(mid.heap.bindMethod method object).2.newIdentity.1,
      { mid with heap := (mid.heap.boundMethod method object).2 }, ?_,
      Heap.lookupAt_boundMethod onward.vouched.frames method object⟩, ?_⟩
    · have looked : Eval.property object name mid = .done (.ok (mid.heap.boundMethod method object).1,
          { mid with heap := (mid.heap.boundMethod method object).2 }) := by
        rw [Eval.property, Eval.bind_of_ok (Eval.inspect_of_ok found)]
        rfl
      refine Rules.answers_of_reaches ?_
      refine .answer known ?_
      change Plan.Reaches _
        ((Ending.result <$> Eval.property object name : Eval (Ending .value)) mid >>= _) _
      rw [Eval.map_eq_bind, Eval.bind_of_ok looked]
      exact .refl _
    · have inherited : object.type.NamesInitializers := names _ rfl
      have named := inherited.findMethod? (Heap.findMethod?_of_findProperty found)
      exact named
  | @super keyword distance name before parent object method super this found =>
    have looked := Eval.superMethod_of_ok keyword.line name super this
    rw [found] at looked
    refine ⟨⟨(before.heap.bindMethod method object).2.newIdentity.1,
      { before with heap := (before.heap.boundMethod method object).2 },
      answers_of_result rfl looked, Heap.lookupAt_boundMethod vouched.frames method object⟩, ?_⟩
    have inherited : parent.NamesInitializers := vouched.lookupAt super _ rfl
    have named := inherited.findMethod? found
    exact named

end Evaluation

/-! ## Earlier runs -/

namespace Session

variable {v : Variation} {Runs : Question .program → Prop} {session : Session} {program : List Stmt}

/-- While a program runs, the values in hand are vouched for. -/
theorem Varies.vouched (h : session.Varies v session) (plain : Stmt.EveryAll Node.Plain program)
    (lines : v.Lines id) (parts : ∀ part ∈ Stmt.nodesAll [] program, v.Part part.1 part.2)
    (runs : Runs ⟨.run program, session.state⟩)
    (vouched : session.state.heap.Vouched (TakenIn Runs)) {sort : TaskSort} {q : Question sort}
    (arises : evaluation.Arises ⟨.run program, session.state⟩ q) :
    Vouching (TakenIn Runs) sort q ∧
      ∀ r, evaluation.Answers sort q r → Vouched (TakenIn Runs) sort q r := by
  refine vouched_of_arises (fun {sort q} arises => ?_) (fun {sort q} arises => ?_)
    (fun arises _ _ _ takes => ⟨_, _, _, runs, arises, takes⟩)
    ⟨vouched, List.forall_mem_nil _⟩ arises
  · obtain ⟨ideal, marked, q', placed⟩ := exists_placed h plain lines parts arises
    exact fun name mem same => placed.binds_not_reserved name mem (.inl same)
  · obtain ⟨ideal, marked, q', placed⟩ := exists_placed h plain lines parts arises
    have valid := placed.asked.represents.valid
    exact ⟨valid.heap.sound, valid.roots⟩

theorem vouched_start (Taken : Closure → Instance → Prop) (settings : Settings) (sink : Sink)
    (clock : Clock) : (start settings sink clock).state.heap.Vouched Taken := by
  have bare : (State.bare settings sink clock).heap.Vouched Taken := by
    have new : (Heap.new settings).Vouched Taken :=
      ⟨Arena.sound_empty, Arena.sound_empty,
        fun holds => (Heap.not_holdsFrame_new settings _ _ holds).elim,
        fun holds => (Heap.not_holdsFields_new settings _ _ holds).elim⟩
    exact (new.newFrame none .program).vouched
  have natives (natives : List Native) (st : State) (h : st.heap.Vouched Taken) :
      (st.defineNatives natives).heap.Vouched Taken := by
    induction natives generalizing st with
    | nil => exact h
    | cons native rest ih =>
      have user : native.name ≠ thisName := fun same => native.not_reserved (.inl same)
      have counted := h.newIdentity.vouched
      have vouches : st.heap.newIdentity.2.Vouches Taken (.native st.heap.newIdentity.1 native) := trivial
      exact ih _ (counted.bindVariable st.globals user vouches).vouched
  exact natives _ _ bare

/-- Whatever has been done with a session, the values that it has are vouched for. -/
theorem Varies.vouched_follows (h : session.Varies v session) (lines : v.Lines id) {steps : List Step}
    (parts : ∀ step ∈ steps, step.command.Parts v.Part)
    (runs : ∀ run, session.Begins steps run → Runs run)
    (vouched : session.state.heap.Vouched (TakenIn Runs)) {replies : List Reply} {after : Session}
    (history : session.Follows steps replies after) : after.state.heap.Vouched (TakenIn Runs) := by
  suffices keeps : after.Varies v after ∧ after.state.heap.Vouched (TakenIn Runs) from keeps.2
  refine history.keeps (I := fun s => s.Varies v s ∧ s.state.heap.Vouched (TakenIn Runs))
    ⟨h, vouched⟩ (fun {s} ⟨varies, vouched⟩ => ?_)
    fun {s program _ _ _} begins ⟨varies, vouched⟩ ran => ?_
  · obtain ⟨_, _, _, represents, -, -, -⟩ := id varies
    exact ⟨varies.collect,
      (vouched.collect represents.valid.heap.sound represents.valid.roots).vouched⟩
  · obtain ⟨step, mem, source, command, prepared⟩ := begins.exists_step
    have known := parts step mem source command program prepared
    have plain := plain_of_prepare prepared
    have kept := (varies.vouched plain lines known (runs _ begins) vouched .start).2 _
      (exists_interpret_iff.mp ⟨_, ran⟩)
    exact ⟨varies.interpret_self plain lines (Stmt.relabelAll_id _) known ran, kept.1.vouched⟩

end Session

/-! ## Calls -/

namespace Evaluation

variable {v : Variation} {ideal : State} {marked : Nat → Bool} {q' : Question .value} {vs : List Value}
  {line : Nat} {st : State}

/-- A call of a class that comes up makes a new instance. -/
theorem Placed.fresh {type : Class} {a : Value} {left : State}
    (h : Placed v ⟨.call (.class_ type) vs line, st⟩ ideal marked q')
    (known : evaluation.Answers .value ⟨.call (.class_ type) vs line, st⟩ ⟨.ok a, left⟩) :
    ∃ object, a = .instance_ object ∧ Fresh type object st left := by
  obtain rfl := answers_class known
  obtain ⟨ideally, -, answered, -⟩ := h.ends known
  have valid := h.asked.represents.valid
  have vacant : st.heap.instances.get? st.heap.newInstance.1.index = none := by
    cases occupied : st.heap.instances.get? st.heap.newInstance.1.index with
    | none => rfl
    | some fields =>
      have mem := Arena.mem_occupied_of_get? occupied
      exact absurd mem (Arena.notMem_occupied_alloc valid.heap.sound.instances _)
  obtain ⟨result, ideal₁⟩ := ideally
  cases answered with
  | ok came =>
    exact ⟨_, rfl, rfl, vacant, fun w reach => valid.isEqual_of_vacant vacant reach, came.2.2.1.bears⟩

/-- A call of an initializer that comes up is a call of one that was taken from an object, and comes to that
object.  The call itself keeps the frame that binds `this`. -/
theorem Placed.initializes {identity : Identity} {c : Closure} (init : c.isInitializer = true)
    {Runs : Question .program → Prop}
    (h : Placed v ⟨.call (.function identity c) vs line, st⟩ ideal marked q')
    (vouches : st.heap.Vouches (TakenIn Runs) (.function identity c)) :
    ∃ object, Initializes Runs ⟨.call (.function identity c) vs line, st⟩ c object := by
  obtain ⟨object, taken, backs⟩ := vouches init
  obtain ⟨fits, given⟩ := h.asked.fits
  have closure := Heap.fits_function.mp fits
  obtain ⟨frame, holds⟩ := closure.there
  refine ⟨object, taken, ?_, fun {a left} known => ?_⟩
  · change st.heap.lookupAt c.frame 0 thisName = _
    rw [holds.lookupAt, backs.this frame holds]
  · obtain ⟨last, entered, -⟩ := enters_of_answers known
    have invoked : evaluation.Answers .value ⟨.invoke c vs, st.called⟩ ⟨.ok a, last⟩ := by
      cases entered with
      | @answer _ _ _ r _ known rest =>
        obtain ⟨result, mid⟩ := r
        cases rest
        exact known
    have asked : Simulation.Asked .any .value ⟨.invoke c vs, st.called⟩
        ⟨(Task.invoke c vs).ideal, ideal.called⟩ :=
      ⟨rfl, h.asked.represents.called, ⟨closure, given⟩,
        fun w mem => h.asked.held w (List.mem_cons_of_mem _ mem), trivial⟩
    -- What comes back is looked up when the body is done, in the frame that binds `this`: it is still
    -- there, and what it binds has not changed.
    obtain ⟨⟨result, ideal₁⟩, -, answered⟩ :=
      invoked.inStep (evaluationWith_inStep Along.collectIfDue .any) asked
    cases answered with
    | ok came =>
      obtain ⟨-, along, -, held⟩ := came
      obtain ⟨frame', holds'⟩ := held (.frame c.frame) List.mem_cons_self
      have leads : st.heap.Leads last.heap := along.keeps.heap
      obtain ⟨found, looked, rfl⟩ := answers_initializer init invoked
      rw [holds'.lookupAt, (backs.mono leads).this frame' holds'] at looked
      cases looked
      rfl

end Evaluation

/-! ## Sessions -/

/-- Is the task a call of a class? -/
def Task.constructs : {sort : TaskSort} → Task sort → Bool
  | _, .call (.class_ _) _ _ => true
  | _, _ => false

theorem Task.exists_class {sort : TaskSort} {task : Task sort} (h : task.constructs = true) :
    ∃ type vs line, (⟨sort, task⟩ : Sigma Task) = ⟨.value, .call (.class_ type) vs line⟩ := by
  match sort, task, h with
  | _, .call (.class_ type) vs line, _ => exact ⟨type, vs, line, rfl⟩

namespace Session

/-- **Construction yields the fresh instance, and initializers yield their objects.**  Whatever has been done
with a session, and whether or not the source that it goes on to run comes to an end. -/
theorem constructs_of_follows {settings : Settings} {sink : Sink} {clock : Clock} {steps : List Step}
    {replies : List Reply} {session : Session}
    (history : (start settings sink clock).Follows steps replies session) {source : String}
    {program : List Stmt} (prepared : prepare source = .ok program) :
    Constructs ((start settings sink clock).UpTo steps ⟨.run program, session.state⟩)
      ⟨.run program, session.state⟩ := by
  let v := Variation.standing (program :: texts steps)
  let Runs := (start settings sink clock).UpTo steps ⟨.run program, session.state⟩
  have known step (mem : step ∈ steps) : step.command.Parts v.Part :=
    fun source runs text prepared => standing_of_prepare prepared
      (List.mem_cons_of_mem _ (mem_texts mem runs prepared))
  have parts := standing_of_prepare prepared (List.mem_cons_self (l := texts steps))
  have plain := plain_of_prepare prepared
  have start_varies := varies_start (v := v) settings sink clock
  have varies := start_varies.follows rfl known history
  have before : session.state.heap.Vouched (TakenIn Runs) :=
    start_varies.vouched_follows rfl known (fun _ => .inr) (vouched_start _ settings sink clock) history
  have vouched {sort : TaskSort} {q : Question sort}
      (arises : evaluation.Arises ⟨.run program, session.state⟩ q) :=
    varies.vouched plain rfl parts (.inl rfl) before arises
  refine ⟨fun arises _ _ known => ?_, fun arises init => ?_, fun {q _ _ _} arises takes => ?_⟩
  · obtain ⟨ideal, marked, q', placed⟩ := exists_placed varies plain rfl parts arises
    exact placed.fresh known
  · obtain ⟨ideal, marked, q', placed⟩ := exists_placed varies plain rfl parts arises
    exact placed.initializes init ((vouched arises).1.2 _ List.mem_cons_self)
  · refine takes.extracts (vouched arises).1.1 fun {e member} same {r} known => ?_
    obtain ⟨task, st⟩ := q
    obtain rfl : task = .evaluate (.get e member) := same
    have asked : evaluation.Arises ⟨.run program, session.state⟩ (⟨.evaluate e, st⟩ : Question .value) :=
      .asked arises (.refl _)
    exact (vouched asked).2 r known

/-- An initializer that ends with a bare `return` inside a loop, and is inherited. -/
def returning : Step where
  collections := 1
  command := .run "class A { init(n) { while (n) { if (n) { return; } } } } class B < A { }"

/-- The inherited initializer runs twice on one object, with garbage collected at every statement. -/
theorem constructs_returning : ∃ program replies session,
    (start (Settings.withGcThreshold {} 1) .unlimited (.ticking 0)).Follows [returning] replies session ∧
      prepare "print B(true).init(true);" = .ok program ∧
      Constructs ((start (Settings.withGcThreshold {} 1) .unlimited (.ticking 0)).UpTo [returning]
        ⟨.run program, session.state⟩) ⟨.run program, session.state⟩ ∧
      ∃ type vs line st object left,
        evaluation.Arises (⟨.run program, session.state⟩ : Question .program)
          ⟨.call (.class_ type) vs line, st⟩ ∧
        evaluation.Answers .value ⟨.call (.class_ type) vs line, st⟩ ⟨.ok (.instance_ object), left⟩ ∧
        Fresh type object st left := by
  let made : Expr := .call (.variable_ ⟨⟨"B", "B", 1⟩, none⟩) [.literal (.boolean true)] 1
  let program : List Stmt :=
    [.print 1 (.call (.get made ⟨"init", "init", 1⟩) [.literal (.boolean true)] 1)]
  have prepared : prepare "print B(true).init(true);" = .ok program := by cbv
  have found : ((start (Settings.withGcThreshold {} 1) .unlimited (.ticking 0)).collect.2.obey 1000
      returning.command).any (fun o =>
        (evaluation.arising 40 ⟨.program, .run program, o.2.state⟩).any fun q =>
          q.2.task.constructs && (evaluation.solve 40 q.1 q.2).any fun r => r.result.toBool) = true := by
    decide +kernel
  obtain ⟨⟨reply, session⟩, obeyed, found⟩ := (Option.any_eq_true _ _).mp found
  have history : (start (Settings.withGcThreshold {} 1) .unlimited (.ticking 0)).Follows [returning]
      [reply] session := .cons obeyed (.nil session)
  have constructs := constructs_of_follows history prepared
  obtain ⟨⟨sort, task, st⟩, mem, both⟩ := List.any_eq_true.mp found
  obtain ⟨called, comes⟩ := Bool.and_eq_true_iff.mp both
  obtain ⟨type, vs, line, same⟩ := Task.exists_class called
  cases same
  obtain ⟨⟨result, left⟩, solved, ok⟩ := (Option.any_eq_true _ _).mp comes
  have arises := Rules.arises_of_mem_arising mem
  cases result with
  | error stop => cases ok
  | ok v =>
    obtain ⟨object, rfl, fresh⟩ := constructs.fresh arises ⟨40, solved⟩
    exact ⟨program, _, session, history, prepared, constructs, type, vs, line, st, object, left, arises,
      ⟨40, solved⟩, fresh⟩

end Session

end Lox
