import Mathlib
import Lox.Proofs.Evaluation.Operands
import Lox.Proofs.Session.Transparency

/-!
# No reference dangles

Whatever a reference is stored in, be it a variable, a field, the frame of a closure, the roots or a
value that a task in progress has in hand, the object that it was made for is on the heap for as long
as it is stored there (`Evaluation.Safe`).  This is a matter of the very object: a place may be used
again, but not while there is a reference to what it held.

Between two statements garbage may be collected, so the values in hand need an argument of their own.
Those that a call is given, and the operands of an expression, are held on to by the state for as long
as the task takes (`Lasting.since`).  The closure that an initializer runs in is not; it is the frame
around that of the call (`Lasting.within`).
-/

namespace Lox

open Evaluation Simulation

/-! ## What is asked of states and tasks -/

/-- The frame `outer` lies so many links out from another frame. -/
inductive Heap.Links (heap : Heap) (outer : FrameRef) : FrameRef → Nat → Prop
  | here : Links heap outer outer 0
  | out {ref between : FrameRef} {n : Nat} (encloses : heap.Encloses between ref)
      (rest : Links heap outer between n) : Links heap outer ref (n + 1)

/-- Nothing in the state dangles, and every chain of frames leads to the globals. -/
structure State.Intact (st : State) : Prop where
  /-- The frame around an occupied frame is there, and so is what its variables refer to. -/
  frames : ∀ {index frame}, st.heap.frames.get? index = some frame →
    ∀ object ∈ frame.referents, st.heap.Has object
  /-- What the fields of an instance refer to is there. -/
  fields : ∀ {index fields}, st.heap.instances.get? index = some fields →
    ∀ v ∈ fields.values, st.heap.Bears v
  /-- The globals, the current frame, those put aside, and what temporaries refer to are there. -/
  roots : ∀ object ∈ st.roots, st.heap.Has object
  /-- Following the links from an occupied frame ends at the globals. -/
  chains : ∀ {ref}, st.heap.Has (.frame ref) → ∃ n, st.heap.Links st.globals ref n
  /-- The globals are not within any other frame. -/
  outermost : ∃ frame, st.heap.HoldsFrame st.globals frame ∧ frame.enclosing = none

/-- What a task is given refers to. -/
def Task.referents : {sort : TaskSort} → Task sort → List HeapObject
  | _, .call callee arguments _ => (callee :: arguments).flatMap Value.referents
  | _, .invoke closure arguments => .frame closure.frame :: arguments.flatMap Value.referents
  | _, _ => []

namespace Evaluation

/-- The states that carrying out a task passes through: those in which a task is asked for, and those
in which an expression or a statement that was asked for is done with. -/
inductive Passes {sort : TaskSort} (q : Question sort) : State → Prop
  | asked {sort' : TaskSort} {q' : Question sort'} (arises : evaluation.Arises q q') :
      Passes q q'.state
  | answered {sort₁ sort' : TaskSort} {q₁ : Question sort₁} {q' : Question sort'}
      {given : List (Sigma Answer)} {r : Answer sort'} (part : sort' ≠ .program)
      (arises : evaluation.Arises q q₁)
      (waits : (evaluation sort₁ q₁).Waits evaluation.Answers given q')
      (known : evaluation.Answers sort' q' r) : Passes q r.state

/-- Nothing dangles while a task is carried out. -/
structure Safe {sort : TaskSort} (start : Question sort) : Prop where
  intact : ∀ {st}, Passes start st → st.Intact
  /-- What a task is given is there until it is done. -/
  given : ∀ {sort'} {q : Question sort'}, evaluation.Arises start q → ∀ {st}, Passes q st →
    ∀ object ∈ q.task.referents, st.heap.Has object
  /-- The object that an invoked method runs on, be it still under construction, is there until the
  method is done. -/
  this : ∀ {closure arguments before}, evaluation.Arises start ⟨.invoke closure arguments, before⟩ →
    ∀ {st}, Passes (⟨.invoke closure arguments, before⟩ : Question .value) st →
      ∀ {v}, before.heap.lookupAt closure.frame 0 thisName = .ok (some v) →
        st.heap.lookupAt closure.frame 0 thisName = .ok (some v) ∧ st.heap.Bears v
  /-- The operands of an expression are there until the last one is evaluated. -/
  operands : ∀ {e before}, evaluation.Arises start ⟨.evaluate e, before⟩ →
    ∀ {given sort'} {q : Question sort'},
      (evaluation .value ⟨.evaluate e, before⟩).Waits evaluation.Answers given q →
        ∀ {st}, Passes q st → ∀ v ∈ values given, st.heap.Bears v
  /-- The value that a task comes to is there. -/
  result : ∀ {sort'} {q : Question sort'} {r : Answer sort'}, evaluation.Arises start q →
    evaluation.Answers sort' q r → ∀ v ∈ r.value?, r.state.heap.Bears v
  /-- No access is refused. -/
  faultless : ∀ {sort'} {q : Question sort'} {r : Answer sort'}, evaluation.Arises start q →
    evaluation.Answers sort' q r → ∀ access, r.result ≠ .error (.fault access)

end Evaluation

/-! ## Valid states are intact -/

namespace Heap.Valid

variable {heap : Heap} {globals : FrameRef}

/-- The frames around a frame were made before it, so that there is an outermost one. -/
theorem exists_links (valid : heap.Valid globals) {ref : FrameRef} (has : heap.Has (.frame ref)) :
    ∃ n, heap.Links globals ref n := by
  induction serial : ref.serial using Nat.strong_induction_on generalizing ref with
  | h k ih =>
    obtain ⟨frame, holds⟩ := has
    cases encloses : frame.enclosing with
    | none =>
      obtain rfl := (valid.outermost holds).mp encloses
      exact ⟨0, .here⟩
    | some outer =>
      have older := serial ▸ valid.older holds encloses
      obtain ⟨n, links⟩ := ih _ older (valid.sound.has_enclosing holds encloses) rfl
      exact ⟨n + 1, .out ⟨frame, holds, encloses⟩ links⟩

end Heap.Valid

theorem State.Valid.intact {st : State} (valid : st.Valid) : st.Intact where
  frames := by
    intro index frame occupied
    obtain ⟨serial, holds⟩ := Arena.get?_eq_some_iff.mp occupied
    exact valid.heap.sound.has_of_frame (show st.heap.HoldsFrame ⟨index, serial⟩ frame from holds)
  fields := by
    intro index fields occupied v mem object mem'
    obtain ⟨serial, holds⟩ := Arena.get?_eq_some_iff.mp occupied
    have holds : st.heap.HoldsFields ⟨index, serial⟩ fields := holds
    exact valid.heap.sound.has_of_fields holds object (List.mem_flatMap.mpr ⟨v, mem, mem'⟩)
  roots := valid.roots
  chains := valid.heap.exists_links
  outermost := by
    obtain ⟨frame, holds⟩ := valid.heap.hasGlobals
    exact ⟨frame, holds, (valid.heap.outermost holds).mpr rfl⟩

/-! ## Tasks that come up -/

namespace Simulation

variable {fact fact' : Lasting} {sort sort' : TaskSort} {q q' : Question sort} {q₁ : Question sort'}
  {r : Answer sort} {st : State}

theorem Asked.withFact (asked : Asked fact sort q q') (here : fact'.holds q.state) :
    Asked fact' sort q q' :=
  ⟨asked.task, asked.represents, asked.fits, asked.held, here⟩

theorem Asked.arises (asked : Asked fact sort q q') (arises : evaluation.Arises q q₁) :
    ∃ q₁', Asked fact sort' q₁ q₁' := by
  obtain ⟨q₁', -, asked⟩ :=
    arises.inStep (evaluationWith_inStep Along.collectIfDue fact) asked
  exact ⟨q₁', asked⟩

theorem Asked.answered (asked : Asked fact sort q q') (known : evaluation.Answers sort q r) :
    ∃ r', Answered sort q q' r r' := by
  obtain ⟨r', -, answered⟩ :=
    known.inStep (evaluationWith_inStep Along.collectIfDue fact) asked
  exact ⟨r', answered⟩

/-- An expression or a statement keeps the state, however it ends. -/
theorem Answered.along {r' : Answer sort} (part : sort ≠ .program) (h : Answered sort q q' r r') :
    Along q.state r.state r'.state := by
  obtain ⟨result, st⟩ := r
  obtain ⟨result', st'⟩ := r'
  cases sort with
  | value =>
    cases h with
    | ok came => exact came.2.1
    | error left => exact left
  | flow =>
    cases h with
    | ok came => exact came.2.1
    | error left => exact left
  | program => exact absurd rfl part

/-- A fact that lasts is true of all states that a task passes through. -/
theorem Asked.passes (asked : Asked fact sort q q') (passes : Passes q st) :
    st.Valid ∧ fact.holds st := by
  cases passes with
  | asked arises =>
    obtain ⟨_, asked⟩ := asked.arises arises
    exact ⟨asked.represents.valid, asked.here⟩
  | answered part arises waits known =>
    obtain ⟨_, asked⟩ := asked.arises (arises.waits waits)
    obtain ⟨_, answered⟩ := asked.answered known
    have along := answered.along part
    exact ⟨along.represents.valid, fact.stays along.keeps.since asked.here⟩

/-- What is at hand when a task is asked for is at hand for as long as it takes. -/
theorem Asked.since (asked : Asked fact sort q q') (passes : Passes q st) :
    st.Valid ∧ q.state.Since st := by
  have asked : Asked (.since q.state) sort q q' := asked.withFact (.refl q.state)
  exact asked.passes passes

end Simulation

/-! ## The frame around that of a call -/

namespace Lasting

/-- There is a frame, at hand since the state came from another one, that `outer` is around. -/
def within (outer : FrameRef) : Lasting where
  holds later := ∃ (between : State) (ref : FrameRef), between.Valid ∧
    between.heap.Encloses outer ref ∧ (between.inside ref).Since later
  stays := by
    rintro before after since ⟨between, ref, valid, encloses, since'⟩
    exact ⟨between, ref, valid, encloses, since'.trans since⟩

theorem has_of_within {later : State} {outer : FrameRef} (h : (within outer).holds later)
    (valid : later.Valid) : later.heap.Has (.frame outer) := by
  obtain ⟨between, ref, before, encloses, since⟩ := h
  have inside : HeapObject.frame ref ∈ (between.inside ref).roots :=
    State.mem_roots_current _
  have there : later.heap.Has (.frame ref) := valid.roots _ (since.roots _ inside)
  exact (since.heap.encloses before.heap.sound.frames encloses there).has valid.heap.sound

end Lasting

namespace Simulation

variable {fact : Lasting} {closure : Closure} {arguments : List Value} {st later : State}
  {q' : Question .value}

/-- The rule for a function asks for tasks in a frame that the frame of the closure is around. -/
theorem Asked.invoke_inStep (asked : Asked fact .value ⟨.invoke closure arguments, st⟩ q') :
    (evaluation .value ⟨.invoke closure arguments, st⟩).InStep
      (Asked (.within closure.frame)) Answered (fun next _ => ∃ r, next = .answer r)
      (evaluationWith id .value q') := by
  obtain ⟨task', ideal⟩ := q'
  obtain ⟨rfl, represents, fits, -, -⟩ := asked
  have ran : Eval.Simulates (.within closure.frame) (Along st) _ _ _ st ideal :=
    Eval.Simulates.invoke represents.along
      (fun _ valid encloses => ⟨_, _, valid, encloses, .refl _⟩) fits.1 fits.2
  have ruled : Eval.Simulates (.within closure.frame) (Along st)
      (fun ending _ ending' _ => (∃ v, ending = .result v) ∧ ∃ v, ending' = .result v)
      ((Task.invoke closure arguments).rule State.collectIfDue)
      ((Task.invoke closure arguments).ideal.rule id) st ideal :=
    ran.map fun v _ v' _ _ => ⟨⟨v, rfl⟩, v', rfl⟩
  refine Plan.InStep.bind ruled fun o o' ends => ?_
  cases ends with
  | ok post =>
    obtain ⟨⟨v, rfl⟩, v', rfl⟩ := post
    exact .done ⟨_, rfl⟩
  | error _ => exact .done ⟨_, rfl⟩

/-- The frame of a closure is there until the function is done. -/
theorem Asked.has_closure (asked : Asked fact .value ⟨.invoke closure arguments, st⟩ q')
    (passes : Passes (⟨.invoke closure arguments, st⟩ : Question .value) later) :
    later.heap.Has (.frame closure.frame) := by
  have inStep := asked.invoke_inStep
  have related sort (q q' : Question sort) (r : Answer sort)
      (asked : Asked (.within closure.frame) sort q q') (known : evaluation.Answers sort q r) :
      ∃ r', (evaluationWith id).Answers sort q' r' ∧ Answered sort q q' r r' :=
    known.inStep (evaluationWith_inStep Along.collectIfDue _) asked
  have below {sort : TaskSort} {q : Question sort} {given : List (Sigma Answer)}
      (waits : (evaluation .value ⟨.invoke closure arguments, st⟩).Waits evaluation.Answers given q) :
      ∃ q', Asked (.within closure.frame) sort q q' := by
    obtain ⟨q', asked, -⟩ := inStep.waits related waits
    exact ⟨q', asked⟩
  -- A call hands on to no task that takes its place, so whatever comes later is part of a task that it
  -- asks for, and those keep the frame.
  have kept {q : Question .value} (reaches :
      (evaluation .value ⟨.invoke closure arguments, st⟩).Reaches evaluation.Answers
        (.done (.become q))) : False := by
    obtain ⟨left, -, ends⟩ := inStep.reaches related reaches
    cases ends with
    | done goal =>
      obtain ⟨r, same⟩ := goal
      cases same
  cases passes with
  | asked arises =>
    rcases arises.first with same | ⟨_, q₁, given, waits, arises⟩ | ⟨q₁, handed, -⟩
    · cases same
      exact asked.fits.1.there
    · obtain ⟨_, asked⟩ := below waits
      obtain ⟨valid, within⟩ := asked.passes (.asked arises)
      exact Lasting.has_of_within within valid
    · exact (kept handed).elim
  | answered part arises waits known =>
    rcases arises.first with same | ⟨_, q₁, given, waits', arises⟩ | ⟨q₁, handed, -⟩
    · cases same
      obtain ⟨_, asked⟩ := below waits
      obtain ⟨_, answered⟩ := asked.answered known
      have along := answered.along part
      have within := (Lasting.within closure.frame).stays along.keeps.since asked.here
      exact Lasting.has_of_within within along.represents.valid
    · obtain ⟨_, asked⟩ := below waits'
      obtain ⟨valid, within⟩ := asked.passes (.answered part arises waits known)
      exact Lasting.has_of_within within valid
    · exact (kept handed).elim

/-! ## Nothing dangles -/

theorem Answered.bears {sort : TaskSort} {q q' : Question sort} {r r' : Answer sort} {v : Value}
    (h : Answered sort q q' r r') (mem : v ∈ r.value?) : r.state.heap.Bears v := by
  obtain ⟨result, st⟩ := r
  obtain ⟨result', st'⟩ := r'
  cases h with
  | error _ => cases sort <;> cases mem
  | ok came =>
    cases sort with
    | value =>
      cases mem
      exact came.2.2.1.bears
    | flow =>
      rename_i flow _
      cases flow with
      | normal => cases mem
      | returned w =>
        cases mem
        exact (came.2.2 _ rfl).bears
    | program => cases mem

theorem Answered.faultless {sort : TaskSort} {q q' : Question sort} {r r' : Answer sort}
    (h : Answered sort q q' r r') (access : Dangling) : r.result ≠ .error (.fault access) := by
  obtain ⟨result, st⟩ := r
  obtain ⟨result', st'⟩ := r'
  cases h with
  | ok _ => exact nofun
  | error _ => exact nofun

/-- What a task is given is there until it is done. -/
theorem Asked.has_referents {sort : TaskSort} {q q' : Question sort} (asked : Asked fact sort q q')
    (passes : Passes q st) : ∀ object ∈ q.task.referents, st.heap.Has object := by
  obtain ⟨valid, since⟩ := asked.since passes
  obtain ⟨task, before⟩ := q
  have bears {v : Value} (mem : v ∈ task.given) : st.heap.Bears v :=
    valid.bears (since.temporaries v (asked.held v mem))
  intro object mem
  cases task with
  | call callee arguments line =>
    obtain ⟨v, given, mem⟩ := List.mem_flatMap.mp mem
    exact bears given object mem
  | invoke closure arguments =>
    rcases List.mem_cons.mp mem with rfl | mem
    · exact asked.has_closure passes
    · obtain ⟨v, given, mem⟩ := List.mem_flatMap.mp mem
      exact bears given object mem
  | _ => cases mem

/-- The object that a method runs on is there until the method is done. -/
theorem Asked.keeps_this (asked : Asked fact .value ⟨.invoke closure arguments, st⟩ q')
    (passes : Passes (⟨.invoke closure arguments, st⟩ : Question .value) later) {v : Value}
    (bound : st.heap.lookupAt closure.frame 0 thisName = .ok (some v)) :
    later.heap.lookupAt closure.frame 0 thisName = .ok (some v) ∧ later.heap.Bears v := by
  obtain ⟨valid, since⟩ := asked.since passes
  obtain ⟨frame, holds⟩ := asked.fits.1.there
  have sound := asked.represents.valid.heap.sound
  obtain ⟨frame', holds', -, this⟩ :=
    since.heap.enclosing sound.frames holds (asked.has_closure passes)
  rw [holds.lookupAt, Except.ok.injEq] at bound
  refine ⟨?_, valid.heap.sound.bears_variable holds' (this v bound)⟩
  rw [holds'.lookupAt, this v bound]

/-- The operands of an expression are there until the last one is evaluated. -/
theorem Asked.bears_operands {e : Expr} (asked : Asked fact .value ⟨.evaluate e, st⟩ q')
    {given : List (Sigma Answer)} {sort : TaskSort} {q : Question sort}
    (waits : (evaluation .value ⟨.evaluate e, st⟩).Waits evaluation.Answers given q)
    (passes : Passes q later) {v : Value} (mem : v ∈ values given) : later.heap.Bears v := by
  obtain ⟨_, asked'⟩ := asked.arises (.waits .start waits)
  obtain ⟨valid, since⟩ := asked'.since passes
  have inStep := evaluationWith_inStep Along.collectIfDue fact .value _ _ asked
  obtain ⟨-, -, answered⟩ := inStep.waits
    (fun _ _ _ _ asked known =>
      known.inStep (evaluationWith_inStep Along.collectIfDue fact) asked) waits
  have undisturbed : Undisturbed fun sort q r => ∃ q' r', Answered sort q q' r r' := by
    rintro q r ⟨q', r', answered⟩
    exact (Answered.along (by decide) answered).keeps.exact
  refine valid.bears (since.temporaries v ?_)
  exact Expr.holds_operands undisturbed (waits_rule answered) v mem

theorem Asked.safe {sort : TaskSort} {q q' : Question sort} (asked : Asked fact sort q q') :
    Safe q where
  intact := fun passes => (asked.passes passes).1.intact
  given := by
    intro sort' q arises st passes
    obtain ⟨_, asked⟩ := asked.arises arises
    exact asked.has_referents passes
  this := by
    intro closure arguments before arises st passes v bound
    obtain ⟨_, asked⟩ := asked.arises arises
    exact asked.keeps_this passes bound
  operands := by
    intro e before arises given sort' q waits st passes v mem
    obtain ⟨_, asked⟩ := asked.arises arises
    exact asked.bears_operands waits passes mem
  result := by
    intro sort' q r arises known v mem
    obtain ⟨_, asked⟩ := asked.arises arises
    obtain ⟨_, answered⟩ := asked.answered known
    exact answered.bears mem
  faultless := by
    intro sort' q r arises known
    obtain ⟨_, asked⟩ := asked.arises arises
    obtain ⟨_, answered⟩ := asked.answered known
    exact answered.faultless

end Simulation

/-- **No reference dangles.**  Between the runs of a session nothing does, and whatever source it goes
on to run, nothing does at any moment of that run, whether or not it ends. -/
theorem Session.safe_of_follows {settings : Settings} {sink : Sink} {clock : Clock}
    {steps : List Session.Step} {replies : List Session.Reply} {session : Session}
    (history : (Session.start settings sink clock).Follows steps replies session) :
    session.state.Intact ∧ ∀ {source program}, Session.prepare source = .ok program →
      Safe ⟨.run program, session.state⟩ := by
  obtain ⟨ideal, represents⟩ := Session.exists_represents history
  refine ⟨represents.valid.intact, fun prepared => ?_⟩
  have asked : Asked .any _ _ _ := .run represents (Session.plain_of_prepare prepared) trivial
  exact asked.safe

/-- A method call, with garbage collected at every statement. -/
theorem Session.safe_method_call :
    ∃ session, (start (Settings.withGcThreshold {} 1) .unlimited (.ticking 0)).Follows
        [⟨1, .run "class A \x7b get() \x7b return this; \x7d \x7d var a = A();"⟩]
        [.ran #[] (.ok ())] session ∧ session.state.Intact ∧
      Safe ⟨.run [.print 1 (.call (.get (.variable_ ⟨⟨"a", "a", 1⟩, none⟩) ⟨"get", "get", 1⟩) [] 1)],
        session.state⟩ := by
  have ran : (start (Settings.withGcThreshold {} 1) .unlimited (.ticking 0)).replies? 1000
      [⟨1, .run "class A \x7b get() \x7b return this; \x7d \x7d var a = A();"⟩] =
      some [.ran #[] (.ok ())] := by decide +kernel
  obtain ⟨session, history⟩ := exists_follows_of_replies? ran
  obtain ⟨intact, safe⟩ := safe_of_follows history
  exact ⟨session, history, intact, safe (show prepare "print a.get();" = _ by cbv)⟩

end Lox
