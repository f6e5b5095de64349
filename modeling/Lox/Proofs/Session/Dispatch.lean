import Lox.Proofs.Evaluation.Subclass
import Lox.Proofs.Scope.Enclosing
import Lox.Proofs.Session.Scoping

/-!
# `super` goes by the class that a method was written in

An expression `super.m` in a method of a class looks for `m` in the class that the superclass was when
the declaration was executed, and binds what it finds to the object that `this` is there
(`Session.super_of_follows`).  It makes no difference of which class the object is, when and from where
the method is called, how often the declaration is executed, or what becomes of the names of the
classes.

The execution in question is the one that made the frame which binds `super`, out from the frame that
is current.  That frame is around all methods of the class that this one execution made, and around
nothing else (`Evaluation.Declares`).
-/

namespace Lox

open Evaluation

/-! ## Looking for methods -/

/-- Among a class and its superclasses, the nearest that has a method of this name has this one. -/
def Class.Nearest (type : Class) (name : String) (found : Closure) : Prop :=
  ∃ nearer body further, type.lineage = nearer ++ body :: further ∧
    body.methods.find? name = some found ∧ ∀ other ∈ nearer, other.methods.find? name = none

theorem Class.findMethod?_eq_some_iff {type : Class} {name : String} {found : Closure} :
    type.findMethod? name = some found ↔ type.Nearest name found :=
  List.findSome?_eq_some_iff

/-- What an expression `super.m` in `st` comes to if `m` is looked for in `parent` and for `object`.
A definition is called in a new frame that binds `this` to the object, inside the frame that the
definition has around it. -/
inductive Evaluation.SuperComes (parent : Class) (object : Instance) (method : Ident) (st : State) :
    Answer .value → Prop
  | bound {found bound : Closure} {identity : Identity} {heap : Heap}
      (nearest : parent.Nearest method.lexeme found)
      (declaration : bound.declaration = found.declaration)
      (isInitializer : bound.isInitializer = found.isInitializer)
      (frame : heap.HoldsFrame bound.frame ⟨Bindings.empty.insert thisName (.instance_ object),
        some found.frame, .self found.declaration⟩) :
      SuperComes parent object method st ⟨.ok (.function identity bound), { st with heap := heap }⟩
  | undefined {e : RuntimeError} (line : e.line = method.line)
      (message : e.cause.message = "Undefined property '" ++ method.lexeme ++ "'.")
      (lacks : ∀ body ∈ parent.lineage, body.methods.find? method.lexeme = none) :
      SuperComes parent object method st ⟨.error (.error e), st⟩

theorem Eval.superMethod_of_ok {st : State} (line : Nat) (method : Ident) {distance : Nat}
    {parent : Class} {object : Instance}
    (looked : st.heap.lookupAt st.current distance superName = .ok (some (.class_ parent)))
    (looked' : st.heap.lookupAt st.current (distance - 1) thisName =
      .ok (some (.instance_ object))) :
    superMethod line method (some distance) st =
      (ofOption method.line (.undefinedProperty method.lexeme) (parent.findMethod? method.lexeme) >>=
        fun found => make (·.boundMethod found object)) st := by
  have given : ofOption line .unresolvedSuper (some distance) st = .done (.ok distance, st) := rfl
  rw [superMethod, bind_of_ok given, bind_of_ok (inspect_of_ok looked)]
  exact bind_of_ok
    (inspect_of_ok (f := fun st => st.heap.lookupAt st.current (distance - 1) thisName) looked')

/-- Where `super` and `this` are bound to a class and an object, a mention of `super` comes to what it
should. -/
theorem Evaluation.exists_answers_super {st : State} {keyword : Word} {distance : Nat} {method : Ident}
    {parent : Class} {object : Instance} (frames : st.heap.frames.Sound)
    (looked : st.heap.lookupAt st.current (distance + 1) superName = .ok (some (.class_ parent)))
    (looked' : st.heap.lookupAt st.current distance thisName = .ok (some (.instance_ object))) :
    ∃ r, evaluation.Answers .value ⟨.evaluate (.super keyword method (some (distance + 1))), st⟩ r ∧
      SuperComes parent object method st r := by
  have searched := Eval.superMethod_of_ok keyword.line method looked looked'
  cases found : parent.findMethod? method.lexeme with
  | none =>
    rw [found] at searched
    exact ⟨_, answers_of_result rfl searched,
      .undefined rfl rfl (List.findSome?_eq_none_iff.mp found)⟩
  | some definition =>
    rw [found] at searched
    exact ⟨_, answers_of_result rfl searched, .bound (Class.findMethod?_eq_some_iff.mp found) rfl rfl
      (Heap.holdsFrame_bindMethod frames definition object)⟩

/-! ## Names that are bound -/

/-- What a run binds is never called `this` or `super`. -/
theorem Task.Varies.binds_not_reserved {v : Variation} {w : World} {current : FrameRef}
    {sort : TaskSort} {task task' : Task sort} (h : task.Varies v w current task') :
    ∀ name ∈ task.binds, ¬Reserved name := by
  cases h with
  | evaluate _ _ varies =>
    cases varies with
    | assign part _ _ =>
      exact List.forall_mem_singleton.mpr (UserName.not_reserved (v.right _ _ part).names)
    | _ => exact List.forall_mem_nil _
  | perform _ _ varies =>
    cases varies with
    | var part | initialized part _ =>
      exact List.forall_mem_singleton.mpr (UserName.not_reserved (v.right _ _ part).names)
    | function _ varies => exact List.forall_mem_singleton.mpr varies.not_reserved
    | class_ part _ _ | subclass part _ _ _ =>
      exact List.forall_mem_singleton.mpr (UserName.not_reserved (v.right _ _ part).names.1)
    | _ => exact List.forall_mem_nil _
  | invoke varies _ _ =>
    obtain ⟨m, p, -, -, varies⟩ := varies.declaration
    exact List.forall_mem_map.mpr fun parameter mem => (varies.names.2 parameter mem).not_reserved
  | _ => exact List.forall_mem_nil _

theorem Task.binds_ideal {sort : TaskSort} (task : Task sort) : task.ideal.binds = task.binds := by
  cases task <;> rfl

theorem Evaluation.Placed.binds_not_reserved {v : Variation} {sort : TaskSort} {q : Question sort}
    {ideal : State} {marked : Nat → Bool} {q' : Question sort} (h : Placed v q ideal marked q') :
    ∀ name ∈ q.task.binds, ¬Reserved name := by
  have tasks := h.askedAt.tasks
  rw [← Task.binds_ideal]
  exact tasks.binds_not_reserved

/-- The parts of a text that is ready to run stand in it. -/
theorem standing_of_prepare {source : String} {program : List Stmt} {texts : List (List Stmt)}
    (prepared : Session.prepare source = .ok program) (mem : program ∈ texts) :
    ∀ part ∈ Stmt.nodesAll [] program, (Variation.standing texts).Part part.1 part.2 :=
  fun part inside => ⟨Session.right_of_prepare prepared part inside, program, mem, inside⟩

/-! ## Frames of earlier runs -/

/-- In one of these runs, the declaration of a class was executed, this frame was made for the methods
of the class, and the superclass had come to `parent`. -/
def Evaluation.Executed (Runs : Question .program → Prop) (frame : FrameRef) (name : Ident)
    (methods : List Function) (parent : Class) : Prop :=
  ∃ run superclass before, Runs run ∧
    evaluation.Arises run ⟨.perform (.class_ name (some superclass) methods), before⟩ ∧
    Declares before name superclass methods parent frame

namespace Session

variable {v : Variation} {Runs : Question .program → Prop} {session : Session} {program : List Stmt}

/-- While a program runs, each frame that binds `super` is put down to an execution. -/
theorem Varies.attributes (h : session.Varies v session) (plain : Stmt.EveryAll Node.Plain program)
    (lines : v.Lines id) (parts : ∀ part ∈ Stmt.nodesAll [] program, v.Part part.1 part.2)
    (runs : Runs ⟨.run program, session.state⟩)
    (attributes : session.state.heap.Attributes (Executed Runs)) {sort : TaskSort} {q : Question sort}
    (arises : evaluation.Arises ⟨.run program, session.state⟩ q) :
    q.state.heap.Attributes (Executed Runs) ∧
      ∀ r, evaluation.Answers sort q r → r.state.heap.Attributes (Executed Runs) := by
  refine attributes_of_arises (fun {sort q} arises => ?_) (fun {sort q} arises => ?_)
    (fun {q} arises v after known => ?_) (fun {name superclass methods before} arises parent frame
      declares => ⟨_, superclass, before, runs, arises, declares⟩) attributes arises
  · obtain ⟨ideal, marked, q', placed⟩ := exists_placed h plain lines parts arises
    exact fun name mem same => placed.binds_not_reserved name mem (.inr same)
  · obtain ⟨ideal, marked, q', placed⟩ := exists_placed h plain lines parts arises
    have valid := placed.asked.represents.valid
    exact ⟨valid.heap.sound, valid.roots⟩
  · obtain ⟨ideal, marked, q', placed⟩ := exists_placed h plain lines parts arises
    obtain ⟨⟨_, _⟩, _, answered, -⟩ := placed.ends known
    cases answered with
    | ok came => exact came.2.1.represents.valid.roots _ (State.mem_roots_current after)

/-- While the session takes these steps, this run begins. -/
inductive Begins : Session → List Step → Question .program → Prop
  | now {session : Session} {step : Step} {steps : List Step} {source : String} {program : List Stmt}
      (runs : step.command = .run source) (prepared : prepare source = .ok program) :
      Begins session (step :: steps)
        ⟨.run program, (session.collectTimes step.collections).state⟩
  | later {session between : Session} {step : Step} {steps : List Step} {fuel : Nat} {reply : Reply}
      {run : Question .program}
      (obeyed : (session.collectTimes step.collections).obey fuel step.command =
        some (reply, between))
      (begins : Begins between steps run) : Begins session (step :: steps) run

/-- The run is the last one, or it began before, while the session took these steps. -/
def UpTo (session : Session) (steps : List Step) (last run : Question .program) : Prop :=
  run = last ∨ session.Begins steps run

/-- A run that begins is that of a source that a step runs. -/
theorem Begins.exists_step {session : Session} {steps : List Step} {program : List Stmt} {st : State}
    (begins : session.Begins steps ⟨.run program, st⟩) : ∃ step ∈ steps, ∃ source,
      step.command = .run source ∧ prepare source = .ok program := by
  generalize same : (⟨.run program, st⟩ : Question .program) = run at begins
  induction begins with
  | now runs prepared =>
    cases same
    exact ⟨_, List.mem_cons_self, _, runs, prepared⟩
  | later _ _ ih =>
    obtain ⟨step, mem, found⟩ := ih same
    exact ⟨step, List.mem_cons_of_mem _ mem, found⟩

/-- **What collections keep, and each run that begins, is kept whatever is done with a session.** -/
theorem Follows.keeps {I : Session → Prop} {session after : Session} {steps : List Step}
    {replies : List Reply} (history : session.Follows steps replies after) (first : I session)
    (collect : ∀ {s : Session}, I s → I s.collect.2)
    (run : ∀ {s : Session} {program : List Stmt} {fuel : Nat} {result : Except Stop Unit}
      {s' : Session}, session.Begins steps ⟨.run program, s.state⟩ → I s →
        s.interpret fuel program = some (result, s') → I s') : I after := by
  have collectTimes {s : Session} (n : Nat) (h : I s) : I (s.collectTimes n) := by
    induction n generalizing s with
    | zero => exact h
    | succ n ih => exact ih (collect h)
  induction history with
  | nil _ => exact first
  | @cons session between _ step steps fuel reply _ obeyed _ ih =>
    refine ih ?_ fun begins => run (.later obeyed begins)
    have here := collectTimes step.collections first
    have obeys := obey_eq_some_iff.mp obeyed
    generalize told : step.command = command at obeys
    cases obeys with
    | ran prepared ran => exact run (.now told prepared) here ran
    | collect => exact collect here
    | rejected | read | compare => exact here

theorem attributes_start (Made : FrameRef → Ident → List Function → Class → Prop) (settings : Settings)
    (sink : Sink) (clock : Clock) : (start settings sink clock).state.heap.Attributes Made := by
  have bare : (State.bare settings sink clock).heap.Attributes Made := by
    have new : (Heap.new settings).Attributes Made :=
      ⟨Arena.sound_empty, fun holds => (Heap.not_holdsFrame_new settings _ _ holds).elim⟩
    exact new.newFrame none .program fun _ _ => nofun
  have natives (natives : List Native) (st : State) (h : st.heap.Attributes Made) :
      (st.defineNatives natives).heap.Attributes Made := by
    induction natives generalizing st with
    | nil => exact h
    | cons native rest ih =>
      have user : native.name ≠ superName := fun same => native.not_reserved (.inr same)
      exact ih _ (h.newIdentity.bindVariable _ user _)
  exact natives _ _ bare

/-- Whatever has been done with a session, each frame that binds `super` is put down to an execution in
one of its runs. -/
theorem Varies.attributes_follows (h : session.Varies v session) (lines : v.Lines id)
    {steps : List Step} (parts : ∀ step ∈ steps, step.command.Parts v.Part)
    (runs : ∀ run, session.Begins steps run → Runs run)
    (attributes : session.state.heap.Attributes (Executed Runs)) {replies : List Reply}
    {after : Session} (history : session.Follows steps replies after) :
    after.state.heap.Attributes (Executed Runs) := by
  suffices keeps : after.Varies v after ∧ after.state.heap.Attributes (Executed Runs) from keeps.2
  refine history.keeps (I := fun s => s.Varies v s ∧ s.state.heap.Attributes (Executed Runs))
    ⟨h, attributes⟩ (fun {s} ⟨varies, attributes⟩ => ?_)
    fun {s program _ _ _} begins ⟨varies, attributes⟩ ran => ?_
  · obtain ⟨_, _, _, represents, -, -, -⟩ := id varies
    exact ⟨varies.collect, attributes.collect represents.valid.heap.sound represents.valid.roots⟩
  · obtain ⟨step, mem, source, command, prepared⟩ := begins.exists_step
    have known := parts step mem source command program prepared
    have plain := plain_of_prepare prepared
    have kept := varies.attributes plain lines known (runs _ begins) attributes .start
    exact ⟨varies.interpret_self plain lines (Stmt.relabelAll_id _) known ran, kept.2 _ (exists_interpret_iff.mp ⟨_, ran⟩)⟩

end Session

/-! ## Mentions of `super` -/

/-- An expression stands in a method of a class with a superclass, directly or inside functions, in one of
the texts: `this` is found so many scopes out and `super` in the next one. -/
structure Evaluation.Mentions (texts : List (List Stmt)) (ctx : Context) (e : Expr) (distance : Nat)
    (name : Ident) (methods : List Function) (method : Function) : Prop where
  stands : ∃ text ∈ texts, (ctx, .expr e) ∈ Stmt.nodesAll [] text ∧
    InMethod (Stmt.nodesAll [] text) (ctx, .expr e) name methods method
  this : ∃ scope, ctx.Finds thisName distance scope ∧ scope.construct = .self method
  super : ∃ scope, ctx.Finds superName (distance + 1) scope ∧ scope.construct = .parent name methods

/-- The expression `super.m` is evaluated in a state: it looks for `m` in `parent`, and for `object`. -/
structure Evaluation.Dispatches (texts : List (List Stmt)) (Runs : Question .program → Prop) (st : State)
    (keyword : Word) (method : Ident) (depth : Option Nat) (parent : Class) (object : Instance) : Prop where
  /-- It stands in a method of a class, and `parent` is what the superclass of that class was when the
  declaration was executed: the execution that the current frame goes back to. -/
  executed : ∃ ctx distance name methods decl frame, depth = some (distance + 1) ∧
    Mentions texts ctx (.super keyword method depth) distance name methods decl ∧
    st.heap.Activates st.globals ctx st.current ∧
    st.heap.ancestor (distance + 1) st.current = .ok frame ∧
    Executed Runs frame name methods parent ∧
    -- There, `this` is the object.
    ∀ line, evaluation.Answers .value ⟨.evaluate (.this ⟨thisName, line⟩ (some distance)), st⟩
      ⟨.ok (.instance_ object), st⟩
  answers : ∃ r, evaluation.Answers .value ⟨.evaluate (.super keyword method depth), st⟩ r ∧
    SuperComes parent object method st r

theorem Context.Finds.construct_eq {ctx : Context} {name : String} {distance : Nat}
    {scope : LexicalScope} (h : ctx.Finds name distance scope) {construct : Construct}
    (same : Context.constructAt ctx distance = some construct) : scope.construct = construct := by
  rw [Context.constructAt, h.there] at same
  exact Option.some.inj same

/-- A mention of `super` that comes up is dispatched, if frames that bind `super` are put down to
executions. -/
theorem Evaluation.Placed.dispatches {texts : List (List Stmt)} {Runs : Question .program → Prop}
    {keyword : Word} {method : Ident} {depth : Option Nat} {st ideal : State} {marked : Nat → Bool}
    {q' : Question .value}
    (h : Placed (Variation.standing texts) ⟨.evaluate (.super keyword method depth), st⟩ ideal marked q')
    (attributes : st.heap.Attributes (Executed Runs)) :
    ∃ parent object, Dispatches texts Runs st keyword method depth parent object := by
  obtain ⟨m, p, e', -, stands, varies⟩ := h.site
  cases varies with
  | super part =>
    have represents := h.asked.represents
    have activates := represents.activates_current stands
    -- What the text says: the scopes that declare `super` and `this` are those of a method.
    obtain ⟨distance, rfl, found⟩ := part.1.agrees
    obtain ⟨text, mem, inside⟩ := part.2
    obtain ⟨name, methods, decl, self, around, inMethod⟩ := found.exists_inMethod inside
    obtain ⟨this, findsThis⟩ := Context.exists_finds found.1.1
    obtain ⟨super, findsSuper⟩ := Context.exists_finds found.2.1
    have mentions : Mentions texts p.context (.super keyword method (some (distance + 1))) distance name
        methods decl :=
      ⟨⟨text, mem, inside, inMethod⟩, ⟨this, findsThis, findsThis.construct_eq self⟩,
        ⟨super, findsSuper, findsSuper.construct_eq around⟩⟩
    -- What the heap says: the frame at that depth was made by an execution.
    obtain ⟨ref, frame, outer, -, leads, holds, activation⟩ := activates.at_distance findsSuper.there
    obtain ⟨parent, bound, executed⟩ :=
      attributes.super holds (activation.construct.trans (findsSuper.construct_eq around))
    have looked : st.heap.lookupAt st.current (distance + 1) superName =
        .ok (some (.class_ parent)) := by
      simp only [Heap.lookupAt, leads, holds.access, bind, Except.bind]
      rw [bound]
      rfl
    obtain ⟨a, looked', suits⟩ :=
      represents.lookupReserved h.askedAt.states stands (.inl rfl) found.1.1
    obtain ⟨object, rfl⟩ := suits.this rfl
    refine ⟨parent, object, ⟨p.context, distance, name, methods, decl, ref, rfl, mentions, activates,
      leads, executed, fun line => ?_⟩,
      exists_answers_super represents.valid.heap.sound.frames looked looked'⟩
    exact answers_of_result rfl (Eval.lookUp_local looked')

/-- Is the task to evaluate a mention of `super`? -/
def Task.mentionsSuper : {sort : TaskSort} → Task sort → Bool
  | _, .evaluate (.super _ _ _) => true
  | _, _ => false

theorem Task.exists_super {sort : TaskSort} {task : Task sort} (h : task.mentionsSuper = true) :
    ∃ keyword method depth,
      (⟨sort, task⟩ : Sigma Task) = ⟨.value, .evaluate (.super keyword method depth)⟩ := by
  match sort, task, h with
  | _, .evaluate (.super keyword method depth), _ => exact ⟨keyword, method, depth, rfl⟩

namespace Session

/-- **`super` goes by the class that a method was written in.**  Whatever has been done with a session,
and whether or not the source that it goes on to run comes to an end. -/
theorem super_of_follows {settings : Settings} {sink : Sink} {clock : Clock} {steps : List Step}
    {replies : List Reply} {session : Session}
    (history : (start settings sink clock).Follows steps replies session) {source : String}
    {program : List Stmt} (prepared : prepare source = .ok program) {keyword : Word} {method : Ident}
    {depth : Option Nat} {st : State}
    (arises : evaluation.Arises (⟨.run program, session.state⟩ : Question .program)
      ⟨.evaluate (.super keyword method depth), st⟩) :
    ∃ parent object, Dispatches (program :: texts steps)
      ((start settings sink clock).UpTo steps ⟨.run program, session.state⟩) st keyword method depth parent
      object := by
  let v := Variation.standing (program :: texts steps)
  let Runs := (start settings sink clock).UpTo steps ⟨.run program, session.state⟩
  have known step (mem : step ∈ steps) : step.command.Parts v.Part :=
    fun source runs text prepared => standing_of_prepare prepared
      (List.mem_cons_of_mem _ (mem_texts mem runs prepared))
  have parts := standing_of_prepare prepared (List.mem_cons_self (l := texts steps))
  have start_varies := varies_start (v := v) settings sink clock
  have varies := start_varies.follows rfl known history
  have before : session.state.heap.Attributes (Executed Runs) :=
    start_varies.attributes_follows rfl known (fun _ => .inr) (attributes_start _ settings sink clock)
      history
  have attributes := (varies.attributes (plain_of_prepare prepared) rfl parts (.inl rfl) before arises).1
  obtain ⟨ideal, marked, q', placed⟩ := exists_placed varies (plain_of_prepare prepared) rfl parts arises
  exact placed.dispatches attributes

/-- A function that mentions `super` is taken out of an instance of a descendant of its class, before the
names of the classes are bound to something else. -/
def escaping : Step where
  collections := 0
  command := .run "class A \x7b m() \x7b return 1; \x7d \x7d
    class B < A \x7b m() \x7b return 2; \x7d get() \x7b return fun () \x7b return super.m; \x7d; \x7d \x7d
    class C < B \x7b \x7d
    var g = C().get(); A = nil; B = nil; C = nil;"

/-- The function mentions `super` when it is called at last. -/
theorem super_escaping : ∃ program replies session keyword method depth st,
    (start {} .unlimited (.ticking 0)).Follows [escaping] replies session ∧
      prepare "print g()();" = .ok program ∧
      evaluation.Arises (⟨.run program, session.state⟩ : Question .program)
        ⟨.evaluate (.super keyword method depth), st⟩ ∧
      ∃ parent object, Dispatches (program :: texts [escaping])
        ((start {} .unlimited (.ticking 0)).UpTo [escaping] ⟨.run program, session.state⟩) st keyword method
        depth parent object := by
  let program : List Stmt := [.print 1 (.call (.call (.variable_ ⟨⟨"g", "g", 1⟩, none⟩) [] 1) [] 1)]
  have prepared : prepare "print g()();" = .ok program := by cbv
  have found : ((start {} .unlimited (.ticking 0)).obey 1000 escaping.command).any (fun o =>
      (evaluation.arising 40 ⟨.program, .run program, o.2.state⟩).any fun q =>
        q.2.task.mentionsSuper) = true := by decide +kernel
  obtain ⟨⟨reply, session⟩, obeyed, found⟩ := (Option.any_eq_true _ _).mp found
  have history : (start {} .unlimited (.ticking 0)).Follows [escaping] [reply] session :=
    .cons obeyed (.nil session)
  obtain ⟨⟨sort, task, st⟩, mem, mentions⟩ := List.any_eq_true.mp found
  obtain ⟨keyword, method, depth, same⟩ := Task.exists_super mentions
  cases same
  have arises := Rules.arises_of_mem_arising mem
  exact ⟨program, _, session, keyword, method, depth, st, history, prepared, arises,
    super_of_follows history prepared arises⟩

end Session

end Lox
