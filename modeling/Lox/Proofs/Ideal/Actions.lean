import Lox.Proofs.Ideal.Simulation

/-!
# The parts of rules in step with their ideals

One lemma for each action that the rules are made of, up to calls.  Most of them ask for nothing, so
that nothing is collected while they last.
-/

namespace Lox.Eval.Simulates

open Simulation

variable {fact : Lasting} {base st ideal : State}

/-! ## Actions around others -/

/-- A value that is held on to is still on the heap afterwards. -/
theorem holding {v : Value} {action action' : Eval Value} (along : Along base st ideal)
    (bears : st.heap.Bears v)
    (h : Holding (st.push v) (st.push v) (ideal.push v.ideal) →
      Simulates fact (Holding (st.push v))
        (fun w st' w' ideal' => w' = w.ideal ∧ Holding (st.push v) st' ideal' ∧ st'.heap.Fits w)
        action action' (st.push v) (ideal.push v.ideal)) :
    Simulates fact (Along base)
      (fun w st' w' ideal' => Gives base w st' w' ideal' ∧ st'.heap.Bears v)
      (Eval.holding v action) (Eval.holding v.ideal action') st ideal := by
  have start := (along.represents.push bears).along.holding
  refine Plan.InStep.bind (h start) fun o o' ends => ?_
  cases ends with
  | ok post =>
    obtain ⟨same, held, fits⟩ := post
    exact .done (.ok ⟨⟨same, held.letGo along, fits⟩, held.bears⟩)
  | error left => exact .done (.error (left.letGo along))

/-- The frame that an action runs in is still on the heap afterwards. -/
theorem inFrame {frame : FrameRef} {action action' : Eval Flow} (along : Along base st ideal)
    (there : st.heap.Has (.frame frame))
    (h : Along (st.inside frame) (st.inside frame) (ideal.inside frame.ideal) →
      Simulates fact (Along (st.inside frame)) (Flows (st.inside frame)) action action'
        (st.inside frame) (ideal.inside frame.ideal)) :
    Simulates fact (Along base)
      (fun flow st' flow' ideal' => Flows base flow st' flow' ideal' ∧
        st.heap.Leads st'.heap ∧ st'.heap.Has (.frame frame))
      (Eval.inFrame frame action) (Eval.inFrame frame.ideal action') st ideal := by
  have start := (along.represents.inside there).along
  refine Plan.InStep.bind (h start) fun o o' ends => ?_
  cases ends with
  | ok post =>
    obtain ⟨along', there'⟩ := along.goBack post.along
    exact .done (.ok ⟨⟨post.same, along', post.fits⟩, post.along.keeps.heap, there'⟩)
  | error left => exact .done (.error (along.goBack left).1)

theorem inCall {action action' : Eval Value} (along : Along base st ideal)
    (h : Along st.called st.called ideal.called →
      Simulates fact (Along st.called) (Gives st.called) action action' st.called ideal.called) :
    Simulates fact (Along base) (Gives base) (Eval.inCall action) (Eval.inCall action') st ideal := by
  have start := along.represents.called.along
  refine Plan.InStep.bind (h start) fun o o' ends => ?_
  cases ends with
  | ok post => exact .done (.ok ⟨post.same, along.comeBack post.along, post.fits⟩)
  | error left => exact .done (.error (along.comeBack left))

/-! ## Variables -/

theorem defineIn {ref : FrameRef} {name : String} {v : Value} (along : Along base st ideal)
    (there : st.heap.Has (.frame ref)) (fits : st.heap.Fits v) (ne : name ≠ thisName) :
    Simulates fact (Along base)
      (fun _ st' _ ideal' => Along base st' ideal' ∧ st'.current = st.current ∧
        st.heap.Leads st'.heap ∧ ∀ object, st.heap.Has object → st'.heap.Has object)
      (Eval.defineIn ref name v) (Eval.defineIn ref.ideal name v.ideal) st ideal := by
  obtain ⟨frame, holds⟩ := there
  refine of_done (defineIn_of_ok holds.access name v)
    (defineIn_of_ok (along.represents.heap.access holds) name v.ideal) ?_
  exact ⟨along.bindVariable holds fits ne, rfl, .bindVariable _ ref ne v,
    fun _ has => has.bindVariable holds name v⟩

theorem define {name : String} {v : Value} (along : Along base st ideal) (fits : st.heap.Fits v)
    (ne : name ≠ thisName) :
    Simulates fact (Along base)
      (fun _ st' _ ideal' => Along base st' ideal' ∧ st'.current = st.current ∧
        st.heap.Leads st'.heap ∧ ∀ object, st.heap.Has object → st'.heap.Has object)
      (Eval.define name v) (Eval.define name v.ideal) st ideal := by
  have same : Eval.define name v.ideal ideal = Eval.defineIn st.current.ideal name v.ideal ideal :=
    congrArg (Eval.defineIn · name v.ideal ideal) along.represents.current
  rw [Simulates, same]
  exact defineIn along along.represents.valid.hasCurrent fits ne

theorem lookUp {name : String} {line : Nat} {depth : Option Nat} (along : Along base st ideal) :
    Simulates fact (Along base) (Gives base) (Eval.lookUp name line depth) (Eval.lookUp name line depth)
      st ideal := by
  have rep := along.represents
  have valid := rep.valid
  cases depth with
  | some distance =>
    obtain ⟨found, here, there, fits⟩ := rep.heap.lookupAt valid.heap valid.hasCurrent distance name
    rw [← rep.current] at there
    rw [Simulates, lookUp_local here, lookUp_local there]
    exact ofOption along fun v mem => ⟨rfl, along, fits v mem⟩
  | none =>
    obtain ⟨found, here, there, fits⟩ := rep.heap.lookup valid.heap name
    rw [← rep.globals] at there
    rw [Simulates, lookUp_global here, lookUp_global there]
    exact ofOption along fun v mem => ⟨rfl, along, fits v mem⟩

/-- The variable of a frame that was found, if any was, is changed. -/
theorem assignFound {found : Option FrameRef} {name : Ident} {v : Value}
    (along : Along base st ideal) (has : ∀ ref ∈ found, st.heap.Has (.frame ref))
    (fits : st.heap.Fits v) (ne : name.lexeme ≠ thisName) :
    Simulates fact (Along base)
      (fun _ st' _ ideal' => Along base st' ideal' ∧
        ∀ object, st.heap.Has object → st'.heap.Has object)
      (Eval.assignFound name v found)
      (Eval.assignFound name v.ideal (found.map FrameRef.ideal)) st ideal := by
  cases found with
  | none => exact fail along
  | some ref =>
    obtain ⟨frame, holds⟩ := has ref rfl
    refine bind_of_ok rfl rfl (of_done rfl rfl ?_)
    exact ⟨along.bindVariable holds fits ne, fun _ has => has.bindVariable holds name.lexeme v⟩

theorem assign {target : Reference} {v : Value} (along : Along base st ideal)
    (fits : st.heap.Fits v) (ne : target.name.lexeme ≠ thisName) :
    Simulates fact (Along base)
      (fun _ st' _ ideal' => Along base st' ideal' ∧
        ∀ object, st.heap.Has object → st'.heap.Has object)
      (Eval.assign target v) (Eval.assign target v.ideal) st ideal := by
  have rep := along.represents
  have valid := rep.valid
  obtain ⟨name, depth⟩ := target
  cases depth with
  | some distance =>
    obtain ⟨found, here, there, has⟩ :=
      rep.heap.ownerAt valid.heap valid.hasCurrent distance name.lexeme
    rw [← rep.current] at there
    rw [Simulates, assign_local here, assign_local there]
    exact assignFound along has fits ne
  | none =>
    obtain ⟨found, here, there, only⟩ := rep.heap.owner valid.heap name.lexeme
    rw [← rep.globals] at there
    rw [Simulates, assign_global here, assign_global there]
    exact assignFound along (fun ref mem => only ref mem ▸ valid.heap.hasGlobals) fits ne

/-! ## Functions and methods -/

theorem close {decl : Function} (along : Along base st ideal) (plain : decl.Every Node.Plain) :
    Simulates fact (Along base) (Gives base) (Eval.close decl) (Eval.close decl) st ideal := by
  have rep := along.represents
  refine of_done rfl rfl ⟨?_, along.newIdentity, ?_⟩
  · exact congr (congrArg Value.function rep.heap.newIdentity_fst)
      (congrArg (Closure.mk decl · false) rep.current)
  · exact Heap.fits_function.mpr ⟨rep.valid.hasCurrent, plain⟩

/-- A frame is made, of which there was none before. -/
theorem newFrame {enclosing : FrameRef} {construct : Construct} (along : Along base st ideal)
    (there : st.heap.Has (.frame enclosing)) :
    Simulates fact (Along base)
      (fun ref st' ref' ideal' => ref' = ref.ideal ∧ Along base st' ideal' ∧
        st'.current = st.current ∧ st'.heap.HoldsFrame ref ⟨.empty, some enclosing, construct⟩ ∧
        base.heap.frames.allocated ≤ ref.serial ∧
        ∀ object, st.heap.Has object → st'.heap.Has object)
      (make (·.newFrame (some enclosing) construct))
      (make (·.newFrame (some enclosing.ideal) construct)) st ideal := by
  have frames := along.represents.valid.heap.sound.frames
  refine of_done rfl rfl ⟨along.represents.heap.newFrame_fst (some enclosing) construct,
    along.newFrame there construct, rfl, Heap.holdsFrame_newFrame_self frames _ _,
    along.keeps.heap.allocated_le, fun object has => has.newFrame frames _ _⟩

/-- The fields of an instance are made, of which there are none before. -/
theorem newInstance (along : Along base st ideal) :
    Simulates fact (Along base)
      (fun ref st' ref' ideal' => ref' = ref.ideal ∧ Along base st' ideal' ∧
        st'.heap.Has (.instance_ ref) ∧ ∀ object, st.heap.Has object → st'.heap.Has object)
      (make Heap.newInstance) (make Heap.newInstance) st ideal := by
  have instances := along.represents.valid.heap.sound.instances
  exact of_done rfl rfl ⟨along.represents.heap.newInstance_fst, along.newInstance,
    ⟨_, Heap.holdsFields_newInstance_self instances⟩, fun object has => has.newInstance instances⟩

/-- A method is bound to an object. -/
theorem bindMethod {method : Closure} {object : Instance} (along : Along base st ideal)
    (fits : st.heap.FitsClosure method) (fits' : st.heap.Fits (.instance_ object)) :
    Simulates fact (Along base)
      (fun bound st' bound' ideal' => bound' = bound.ideal ∧ Along base st' ideal' ∧
        st'.heap.FitsClosure bound ∧
        (∃ frame, st'.heap.HoldsFrame bound.frame frame ∧
          frame.bindings.find? thisName = some (.instance_ object)) ∧
        ∀ object, st.heap.Has object → st'.heap.Has object)
      (make (·.bindMethod method object)) (make (·.bindMethod method.ideal object.ideal))
      st ideal := by
  have parts (method : Closure) (object : Instance) : make (·.bindMethod method object) = (do
      let frame ← make (·.newFrame (some method.frame) (.self method.declaration))
      changeHeap (·.bindVariable frame thisName (.instance_ object))
      return { method with frame := frame }) := rfl
  rw [parts, parts]
  refine bind (newFrame along fits.there) ?_
  rintro ref st₁ _ ideal₁ ⟨rfl, along, -, held, new, stays⟩
  have found := held.bindVariable thisName (.instance_ object)
  refine bind_of_ok rfl rfl (pure ⟨rfl, ?_, ⟨⟨_, found⟩, fits.plain⟩, ⟨_, found, ?_⟩, ?_⟩)
  · exact along.bindVariable_new held (fits'.mono stays) new thisName
  · exact Bindings.find?_insert_self _ _ _
  · exact fun o has => (stays o has).bindVariable held thisName (.instance_ object)

theorem newIdentity (along : Along base st ideal) :
    Simulates fact (Along base)
      (fun identity st' identity' ideal' => identity' = identity ∧ Along base st' ideal' ∧
        ∀ object, st.heap.Has object → st'.heap.Has object)
      (make Heap.newIdentity) (make Heap.newIdentity) st ideal :=
  of_done rfl rfl ⟨along.represents.heap.newIdentity_fst, along.newIdentity, fun _ has => has⟩

theorem boundMethod {method : Closure} {object : Instance} (along : Along base st ideal)
    (fits : st.heap.FitsClosure method) (fits' : st.heap.Fits (.instance_ object)) :
    Simulates fact (Along base) (Gives base) (make (·.boundMethod method object))
      (make (·.boundMethod method.ideal object.ideal)) st ideal := by
  have parts (method : Closure) (object : Instance) :
      make (·.boundMethod method object) = (do
        let bound ← make (·.bindMethod method object)
        let identity ← make Heap.newIdentity
        return .function identity bound) := rfl
  rw [parts, parts]
  refine bind (bindMethod along fits fits') ?_
  rintro bound st₁ _ ideal₁ ⟨rfl, along, fits, -, -⟩
  refine bind (newIdentity along) ?_
  rintro identity st₂ _ ideal₂ ⟨rfl, along, stays⟩
  exact pure ⟨rfl, along, Heap.fits_function.mpr (fits.mono stays)⟩

theorem property {object : Instance} {name : Ident} (along : Along base st ideal)
    (fits : st.heap.Fits (.instance_ object)) :
    Simulates fact (Along base) (Gives base) (Eval.property object name)
      (Eval.property object.ideal name) st ideal := by
  have rep := along.represents
  obtain ⟨found, here, there, field, method⟩ :=
    rep.heap.findProperty rep.valid.heap fits name.lexeme
  refine bind_of_ok (inspect_of_ok here) (inspect_of_ok there) ?_
  cases found with
  | none => exact fail along
  | some found =>
    cases found with
    | field v => exact pure ⟨rfl, along, field v rfl⟩
    | method m => exact boundMethod along (method m rfl) fits

theorem setField {object : Instance} {name : String} {v : Value} (along : Along base st ideal)
    (has : st.heap.Has (.instance_ object.fields)) (fits : st.heap.Fits v) :
    Simulates fact (Along base)
      (fun _ st' _ ideal' => Along base st' ideal' ∧
        ∀ object, st.heap.Has object → st'.heap.Has object)
      (Eval.setField object name v) (Eval.setField object.ideal name v.ideal) st ideal := by
  obtain ⟨fields, holds⟩ := has
  refine of_done (setField_of_ok holds.access name v)
    (setField_of_ok (along.represents.heap.accessFields holds) name v.ideal) ?_
  exact ⟨along.bindField holds fits name, fun _ has => has.bindField holds name v⟩

/-- The value of the variable that is found is an object, and it is the object of the ideal. -/
theorem superMethod {line : Nat} {method : Ident} {depth : Option Nat}
    (along : Along base st ideal) :
    Simulates fact (Along base) (Gives base) (Eval.superMethod line method depth)
      (Eval.superMethod line method depth) st ideal := by
  cases depth with
  | none => exact .done (.error along)
  | some distance =>
    have rep := along.represents
    have valid := rep.valid
    obtain ⟨parent, here, there, fits⟩ :=
      rep.heap.lookupAt valid.heap valid.hasCurrent distance superName
    obtain ⟨this, here', there', fits'⟩ :=
      rep.heap.lookupAt valid.heap valid.hasCurrent (distance - 1) thisName
    rw [← rep.current] at there there'
    refine bind_of_ok rfl rfl (bind_of_ok (inspect_of_ok here) (inspect_of_ok there) ?_)
    rcases parent with _ | (_ | _ | _ | _ | _ | _ | parent | _) <;> try exact fail along
    refine bind_of_ok (inspect_of_ok here') (inspect_of_ok there') ?_
    rcases this with _ | (_ | _ | _ | _ | _ | _ | _ | object) <;> try exact fail along
    have same := parent.findMethod?_ideal method.lexeme
    change Simulates fact _ _ _ (Eval.ofOption method.line (.undefinedProperty method.lexeme)
      (parent.ideal.findMethod? method.lexeme) >>= fun found =>
        make (·.boundMethod found object.ideal)) st ideal
    rw [same]
    cases found : parent.findMethod? method.lexeme with
    | none => exact .done (.error along)
    | some m =>
      refine bind_of_ok rfl rfl (boundMethod along ?_ (fits' _ rfl))
      exact .of_findMethod? (fits _ rfl) found

/-! ## The world -/

theorem print {line : Nat} {text : String} (along : Along base st ideal) :
    Simulates fact (Along base) (fun _ st' _ ideal' => Along base st' ideal')
      (Eval.print line text) (Eval.print line text) st ideal := by
  rw [Simulates, Eval.print, Eval.print, along.represents.sink]
  cases st.sink.print text with
  | ok sink => exact .done (.ok (along.withSink sink))
  | error reason => exact .done (.error along)

theorem readClock (along : Along base st ideal) :
    Simulates fact (Along base)
      (fun time st' time' ideal' => time' = time ∧ Along base st' ideal')
      Eval.readClock Eval.readClock st ideal := by
  rw [Simulates, Eval.readClock, Eval.readClock, along.represents.clock]
  exact .done (.ok ⟨rfl, along.withClock _⟩)

end Lox.Eval.Simulates
