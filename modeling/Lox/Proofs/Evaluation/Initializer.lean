import Lox.Proofs.Evaluation.Subclass
import Lox.Proofs.Evaluation.Operands
import Lox.Proofs.Ideal.Simulation

/-!
# Initializers as values

A method is a value only once it is bound to an object, and it is bound where it is taken: as a property of
the object, or through `super` (`Evaluation.Takes`).  A value that is an initializer was taken so, and the
frame that was made then binds `this` to the object for as long as it is there (`Heap.Backs`): no program
binds `this` anew.

This is carried through a run as a fact about all values that can be had: in variables, in fields, in what a
task is given and in what it comes to (`Heap.Vouches`).  With it goes that the initializers among the methods
of a class are those called `init`.  Each action upholds it (`Eval.Brings`), and so do the rules
(`Evaluation.vouched_of_arises`).
-/

namespace Lox

open Evaluation

variable {Taken : Closure → Instance → Prop}

/-! ## Classes -/

/-- Of the methods of a class, those inherited included, the ones called `init` are its initializers. -/
def Class.NamesInitializers (type : Class) : Prop :=
  ∀ body ∈ type.lineage, ∀ {name c}, body.methods.find? name = some c →
    (c.isInitializer = true ↔ name = initializerName)

namespace Class.NamesInitializers

variable {type : Class}

theorem findMethod? (h : type.NamesInitializers) {name : String} {c : Closure}
    (found : type.findMethod? name = some c) : c.isInitializer = true ↔ name = initializerName := by
  obtain ⟨body, mem, found⟩ := List.exists_of_findSome?_eq_some found
  exact h body mem found

theorem extend {parent : Option Class} (h : ∀ type ∈ parent, type.NamesInitializers)
    (identity : Identity) (className : String) (frame : FrameRef) (methods : List Function) :
    (Class.extend ⟨identity, className, Eval.methodsIn frame methods⟩ parent).NamesInitializers := by
  have own {name : String} {c : Closure} (found : (Eval.methodsIn frame methods).find? name = some c) :
      c.isInitializer = true ↔ name = initializerName := by
    obtain ⟨decl, -, same⟩ := List.mem_map.mp (Bindings.mem_of_find?_ofList found)
    cases same
    exact beq_iff_eq
  intro body mem
  cases parent with
  | none =>
    obtain rfl := List.mem_singleton.mp mem
    exact own
  | some parent =>
    rcases List.mem_cons.mp mem with rfl | mem
    · exact own
    · exact h parent rfl body mem

end Class.NamesInitializers

/-! ## Heaps -/

namespace Heap

variable {heap later : Heap} {value : Value} {c : Closure} {object : Instance}

/-- The frame of a closure has been made and, if it is still there, it binds `this` to the object. -/
structure Backs (heap : Heap) (c : Closure) (object : Instance) : Prop where
  made : c.frame.serial < heap.frames.allocated
  this : ∀ frame, heap.HoldsFrame c.frame frame →
    frame.bindings.find? thisName = some (.instance_ object)

theorem Backs.mono (h : heap.Backs c object) (leads : heap.Leads later) : later.Backs c object where
  made := Nat.lt_of_lt_of_le h.made leads.allocated_le
  this := by
    intro frame' holds
    obtain ⟨frame, held, -, this⟩ := leads.frame holds h.made
    exact this _ (h.this frame held)

/-- If the value is an initializer, it was taken from an object, and runs on it.  The initializers of a class
can be told by their name. -/
def Vouches (Taken : Closure → Instance → Prop) (heap : Heap) : Value → Prop
  | .function _ c => c.isInitializer = true → ∃ object, Taken c object ∧ heap.Backs c object
  | .class_ type => type.NamesInitializers
  | .instance_ object => object.type.NamesInitializers
  | _ => True

theorem Vouches.mono (h : heap.Vouches Taken value) (leads : heap.Leads later) :
    later.Vouches Taken value := by
  cases value with
  | function _ c =>
    intro init
    obtain ⟨object, taken, backs⟩ := h init
    exact ⟨object, taken, backs.mono leads⟩
  | class_ _ | instance_ _ => exact h
  | _ => trivial

theorem Vouches.of_isSimple (heap : Heap) (h : value.IsSimple) : heap.Vouches Taken value := by
  cases value with
  | function _ _ | class_ _ | instance_ _ => exact h.elim
  | _ => trivial

/-- All values of variables and fields are vouched for. -/
structure Vouched (Taken : Closure → Instance → Prop) (heap : Heap) : Prop where
  frames : heap.frames.Sound
  instances : heap.instances.Sound
  bound : ∀ {ref frame}, heap.HoldsFrame ref frame → ∀ v ∈ frame.bindings.values, heap.Vouches Taken v
  fields : ∀ {ref fields}, heap.HoldsFields ref fields → ∀ v ∈ fields.values, heap.Vouches Taken v

/-- From one heap to a later one, on which all values are vouched for. -/
structure Onward (Taken : Closure → Instance → Prop) (before after : Heap) : Prop where
  vouched : after.Vouched Taken
  leads : before.Leads after

namespace Onward

variable {before between after : Heap}

theorem refl (h : heap.Vouched Taken) : heap.Onward Taken heap := ⟨h, .refl heap⟩

theorem trans (h : before.Onward Taken between) (h' : between.Onward Taken after) :
    before.Onward Taken after :=
  ⟨h'.vouched, h.leads.trans h'.leads⟩

end Onward

namespace Vouched

/-- What a later heap holds is vouched for if it was vouched for before. -/
theorem onward (leads : heap.Leads later) (frames : later.frames.Sound)
    (instances : later.instances.Sound)
    (bound : ∀ {ref frame}, later.HoldsFrame ref frame → ∀ v ∈ frame.bindings.values,
      heap.Vouches Taken v)
    (fields : ∀ {ref fields}, later.HoldsFields ref fields → ∀ v ∈ fields.values,
      heap.Vouches Taken v) : heap.Onward Taken later :=
  ⟨⟨frames, instances, fun holds v mem => (bound holds v mem).mono leads,
    fun holds v mem => (fields holds v mem).mono leads⟩, leads⟩

variable (h : heap.Vouched Taken)

include h

theorem newFrame (enclosing : Option FrameRef) (construct : Construct) :
    heap.Onward Taken (heap.newFrame enclosing construct).2 := by
  refine onward (.newFrame h.frames _ _) (h.frames.alloc _) h.instances (fun holds v mem => ?_)
    fun holds => h.fields holds
  rcases (holdsFrame_newFrame h.frames).mp holds with ⟨-, rfl⟩ | holds
  · cases mem
  · exact h.bound holds v mem

theorem newInstance : heap.Onward Taken heap.newInstance.2 := by
  refine onward (.newInstance heap) h.frames (h.instances.alloc _) (fun holds => h.bound holds)
    fun holds v mem => ?_
  rcases (holdsFields_newInstance h.instances).mp holds with ⟨-, rfl⟩ | holds
  · cases mem
  · exact h.fields holds v mem

theorem newIdentity : heap.Onward Taken heap.newIdentity.2 :=
  onward ⟨Nat.le_refl _, fun holds _ => ⟨_, holds, rfl, fun _ found => found⟩⟩ h.frames h.instances
    (fun holds => h.bound holds) fun holds => h.fields holds

/-- Any name but `this` may be bound anew. -/
theorem bindVariable (target : FrameRef) {name : String} (ne : name ≠ thisName)
    (vouches : heap.Vouches Taken value) : heap.Onward Taken (heap.bindVariable target name value) := by
  refine onward (.bindVariable heap target ne value) (h.frames.modify _ _) h.instances
    (fun holds v mem => ?_) fun holds => h.fields holds
  obtain ⟨old, held, rfl⟩ := Arena.holds_modify.mp holds
  split at mem
  · rcases Bindings.mem_values_insert mem with rfl | mem
    · exact vouches
    · exact h.bound held v mem
  · exact h.bound held v mem

theorem bindField (target : InstanceRef) (name : String) (vouches : heap.Vouches Taken value) :
    heap.Onward Taken (heap.bindField target name value) := by
  refine onward (.bindField _ _ _ _) h.frames (h.instances.modify _ _) (fun holds => h.bound holds)
    fun holds v mem => ?_
  obtain ⟨old, held, rfl⟩ := Arena.holds_modify.mp holds
  split at mem
  · rcases Bindings.mem_values_insert mem with rfl | mem
    · exact vouches
    · exact h.fields held v mem
  · exact h.fields held v mem

/-- The frame that a method is bound in is new, so that `this` may be bound there. -/
theorem bindMethod (method : Closure) {object : Instance} (names : object.type.NamesInitializers) :
    heap.Onward Taken (heap.bindMethod method object).2 := by
  have new := holdsFrame_newFrame_self h.frames (some method.frame) (.self method.declaration)
  have made : heap.Leads (heap.newFrame (some method.frame) (.self method.declaration)).2 :=
    .newFrame h.frames _ _
  refine onward (made.bindVariable_new new (Nat.le_refl _) thisName _)
    ((h.frames.alloc _).modify _ _) h.instances (fun holds v mem => ?_) fun holds => h.fields holds
  rcases (holdsFrame_bindVariable new).mp holds with ⟨-, rfl⟩ | ⟨ne, holds⟩
  · rcases Bindings.mem_values_insert mem with rfl | mem
    · exact names
    · cases mem
  · rcases (holdsFrame_newFrame h.frames).mp holds with ⟨same, -⟩ | holds
    · exact absurd same ne
    · exact h.bound holds v mem

theorem backs_bindMethod (method : Closure) (object : Instance) :
    (heap.bindMethod method object).2.Backs (heap.bindMethod method object).1 object where
  made := by
    change heap.frames.allocated < (heap.frames.alloc _).2.allocated
    rw [Arena.allocated_alloc]
    exact Nat.lt_succ_self _
  this := by
    intro frame holds
    rw [holds.eq (holdsFrame_bindMethod h.frames method object), Bindings.find?_insert_self]

theorem boundMethod (method : Closure) {object : Instance} (names : object.type.NamesInitializers) :
    heap.Onward Taken (heap.boundMethod method object).2 :=
  (h.bindMethod method names).trans (h.bindMethod method names).vouched.newIdentity

/-- A method is vouched for as soon as it is taken. -/
theorem vouches_boundMethod {method : Closure} {object : Instance}
    (names : object.type.NamesInitializers)
    (taken : Taken (heap.bindMethod method object).1 object) :
    (heap.boundMethod method object).2.Vouches Taken (heap.boundMethod method object).1 :=
  fun _ => ⟨object, taken, (h.backs_bindMethod method object).mono
    (h.bindMethod method names).vouched.newIdentity.leads⟩

theorem collect {roots : List HeapObject} (sound : heap.Sound)
    (there : ∀ object ∈ roots, heap.Has object) : heap.Onward Taken (heap.collect roots).2 :=
  onward (.collect sound there) (sound.collect there).frames (sound.collect there).instances
    (fun holds => h.bound ((holdsFrame_collect sound there).mp holds).1)
    fun holds => h.fields ((holdsFields_collect sound there).mp holds).1

/-! ### What is found -/

theorem frame {ref : FrameRef} {frame : Frame} (found : heap.frame ref = .ok frame) :
    ∀ v ∈ frame.bindings.values, heap.Vouches Taken v := by
  rw [Heap.frame] at found
  split at found
  · rename_i occupied
    cases found
    obtain ⟨serial, holds⟩ := Arena.get?_eq_some_iff.mp occupied
    have holds : heap.HoldsFrame ⟨ref.index, serial⟩ frame := holds
    exact h.bound holds
  · cases found

theorem lookupAt {ref : FrameRef} {distance : Nat} {name : String} {found : Option Value}
    (looked : heap.lookupAt ref distance name = .ok found) : ∀ v ∈ found, heap.Vouches Taken v := by
  intro v mem
  cases reached : heap.ancestor distance ref with
  | error _ =>
    rw [Heap.lookupAt, reached] at looked
    cases looked
  | ok target =>
    cases framed : heap.frame target with
    | error _ =>
      simp only [Heap.lookupAt, reached, framed, bind, Except.bind] at looked
      cases looked
    | ok frame =>
      simp only [Heap.lookupAt, reached, framed, bind, Except.bind, pure, Except.pure] at looked
      cases looked
      exact h.frame framed v (Bindings.mem_values_of_find? mem)

theorem lookup {ref : FrameRef} {name : String} {found : Option Value}
    (looked : heap.lookup ref name = .ok found) : ∀ v ∈ found, heap.Vouches Taken v := by
  intro v mem
  cases searched : heap.owner ref name with
  | error _ =>
    rw [Heap.lookup, searched] at looked
    cases looked
  | ok owner =>
    cases owner with
    | none =>
      rw [Heap.lookup, searched] at looked
      cases looked
      cases mem
    | some owner =>
      cases framed : heap.frame owner with
      | error _ =>
        simp only [Heap.lookup, searched, framed, bind, Except.bind] at looked
        cases looked
      | ok frame =>
        simp only [Heap.lookup, searched, framed, bind, Except.bind, pure, Except.pure] at looked
        cases looked
        exact h.frame framed v (Bindings.mem_values_of_find? mem)

theorem findProperty {object : Instance} {name : String} {v : Value}
    (found : heap.findProperty object name = .ok (some (.field v))) : heap.Vouches Taken v := by
  cases accessed : heap.instances.get? object.fields.index with
  | none =>
    simp only [Heap.findProperty, Heap.fields, accessed, bind, Except.bind] at found
    cases found
  | some fields =>
    obtain ⟨serial, holds⟩ := Arena.get?_eq_some_iff.mp accessed
    simp only [Heap.findProperty, Heap.fields, accessed, bind, Except.bind] at found
    cases searched : fields.find? name with
    | some w =>
      rw [searched] at found
      cases found
      have holds : heap.HoldsFields ⟨object.fields.index, serial⟩ fields := holds
      exact h.fields holds _ (Bindings.mem_values_of_find? searched)
    | none =>
      rw [searched] at found
      cases method : object.type.findMethod? name with
      | none =>
        rw [method] at found
        cases found
      | some _ =>
        rw [method] at found
        cases found

end Vouched

end Heap

/-! ## Taking methods -/

/-- The method of a name is taken from an object, of which it is a property or to which `super` goes back. -/
inductive Evaluation.Takes : Question .value → String → Closure → Instance → Prop
  | get {e : Expr} {name : Ident} {before mid : State} {object : Instance} {method : Closure}
      (receiver : evaluation.Answers .value ⟨.evaluate e, before⟩ ⟨.ok (.instance_ object), mid⟩)
      (found : mid.heap.findProperty object name.lexeme = .ok (some (.method method))) :
      Takes ⟨.evaluate (.get e name), before⟩ name.lexeme (mid.heap.bindMethod method object).1 object
  | super {keyword : Word} {distance : Nat} {name : Ident} {before : State} {parent : Class} {object : Instance}
      {method : Closure}
      (super : before.heap.lookupAt before.current distance superName = .ok (some (.class_ parent)))
      (this : before.heap.lookupAt before.current (distance - 1) thisName =
        .ok (some (.instance_ object)))
      (found : parent.findMethod? name.lexeme = some method) :
      Takes ⟨.evaluate (.super keyword name (some distance)), before⟩ name.lexeme
        (before.heap.bindMethod method object).1 object

/-! ## Actions -/

namespace Evaluation

variable {sort : TaskSort}

/-- A value in hand is vouched for, and so are those that the task is given. -/
def Vouching (Taken : Closure → Instance → Prop) (sort : TaskSort) (q : Question sort) : Prop :=
  q.state.heap.Vouched Taken ∧ ∀ v ∈ q.task.given, q.state.heap.Vouches Taken v

/-- The value that a task has come to is vouched for, and those of before still are. -/
def Vouched (Taken : Closure → Instance → Prop) (sort : TaskSort) (q : Question sort)
    (r : Answer sort) : Prop :=
  q.state.heap.Onward Taken r.state.heap ∧ ∀ v ∈ r.value?, r.state.heap.Vouches Taken v

end Evaluation

namespace Eval

variable {α β : Type} {action : Eval α} {Post : α → State → Prop} {st : State}

/-- Whatever the action asks for from this state, values are vouched for, and when it ends they are; what
it comes to meets `Post`. -/
def Brings (Taken : Closure → Instance → Prop) (action : Eval α) (st : State)
    (Post : α → State → Prop) : Prop :=
  (action st).Ensures (Vouching Taken)
    (fun sort q r => evaluation.Answers sort q r ∧ Vouched Taken sort q r)
    fun o => st.heap.Onward Taken o.2.heap ∧ ∀ a, o.1 = .ok a → Post a o.2

/-- The value that an action comes to is vouched for. -/
abbrev Vouches (Taken : Closure → Instance → Prop) (v : Value) (st : State) : Prop :=
  st.heap.Vouches Taken v

namespace Brings

variable (h : st.heap.Vouched Taken)

include h in
theorem pure {a : α} (post : Post a st) : (Pure.pure a : Eval α).Brings Taken st Post :=
  ⟨.refl h, fun _ same => by cases same; exact post⟩

include h in
theorem fail (line : Nat) (cause : RuntimeError.Cause) :
    (Eval.fail line cause : Eval α).Brings Taken st Post :=
  ⟨.refl h, nofun⟩

theorem bind {next : α → Eval β} {After : β → State → Prop} (brings : action.Brings Taken st Post)
    (rest : ∀ a st', st.heap.Onward Taken st'.heap → Post a st' → (next a).Brings Taken st' After) :
    (action >>= next).Brings Taken st After := by
  rw [Brings, bind_apply]
  refine Plan.Ensures.bind brings fun o ends => ?_
  obtain ⟨result, st'⟩ := o
  cases result with
  | error stop => exact ⟨ends.1, nofun⟩
  | ok a =>
    refine Plan.Ensures.mono (rest a st' ends.1 (ends.2 a rfl)) (fun _ _ asked => asked)
      fun o ends' => ?_
    exact ⟨ends.1.trans ends'.1, ends'.2⟩

theorem mono {After : α → State → Prop} (brings : action.Brings Taken st Post)
    (weaker : ∀ a st', Post a st' → After a st') : action.Brings Taken st After :=
  Plan.Ensures.mono brings (fun _ _ asked => asked)
    fun _ ends => ⟨ends.1, fun a same => weaker a _ (ends.2 a same)⟩

theorem map {f : α → β} {After : β → State → Prop} (brings : action.Brings Taken st Post)
    (after : ∀ a st', Post a st' → After (f a) st') : (f <$> action).Brings Taken st After :=
  bind brings fun a st' onward post => pure onward.vouched (after a st' post)

include h in
theorem look (f : State → α) : (Eval.look f).Brings Taken st fun a st' => a = f st ∧ st' = st :=
  ⟨.refl h, fun _ same => by cases same; exact ⟨rfl, rfl⟩⟩

include h in
theorem inspect (f : State → Except Dangling α) :
    (Eval.inspect f).Brings Taken st fun a st' => f st = .ok a ∧ st' = st := by
  unfold Brings Eval.inspect
  cases found : f st with
  | ok a => exact ⟨.refl h, fun _ same => by cases same; exact ⟨rfl, rfl⟩⟩
  | error _ => exact ⟨.refl h, nofun⟩

theorem make {f : Heap → α × Heap} (onward : st.heap.Onward Taken (f st.heap).2) :
    (Eval.make f).Brings Taken st fun a st' => a = (f st.heap).1 ∧ st'.heap = (f st.heap).2 :=
  ⟨onward, fun _ same => by cases same; exact ⟨rfl, rfl⟩⟩

theorem changeHeap {f : Heap → Heap} (onward : st.heap.Onward Taken (f st.heap)) :
    (Eval.changeHeap f).Brings Taken st fun _ _ => True :=
  ⟨onward, fun _ _ => trivial⟩

include h in
theorem ofOption {line : Nat} {cause : RuntimeError.Cause} {found : Option α} :
    (Eval.ofOption line cause found).Brings Taken st fun a st' => found = some a ∧ st' = st := by
  cases found with
  | none => exact fail h line cause
  | some a => exact pure h ⟨rfl, rfl⟩

include h in
theorem ask {sort : TaskSort} {task : Task sort}
    (given : ∀ v ∈ task.given, st.heap.Vouches Taken v) :
    (Eval.ask task).Brings Taken st fun a st' => evaluation.Answers sort ⟨task, st⟩ ⟨.ok a, st'⟩ ∧
      ∀ v ∈ (Answer.mk (.ok a) st').value?, st'.heap.Vouches Taken v := by
  refine ⟨⟨h, given⟩, fun r known => ⟨known.2.1, fun a same => ?_⟩⟩
  obtain ⟨result, st'⟩ := r
  obtain rfl : result = .ok a := same
  exact ⟨known.1, known.2.2⟩

include h in
theorem evaluate (e : Expr) : (Eval.ask (.evaluate e)).Brings Taken st fun v st' =>
    evaluation.Answers .value ⟨.evaluate e, st⟩ ⟨.ok v, st'⟩ ∧ Vouches Taken v st' :=
  (ask h (List.forall_mem_nil _)).mono fun v _ come => ⟨come.1, come.2 v rfl⟩

include h in
theorem operand (e : Expr) : (Eval.ask (.evaluate e)).Brings Taken st (Vouches Taken) :=
  (evaluate h e).mono fun _ _ come => come.2

include h in
theorem execute (s : Stmt) : (Eval.ask (.execute s)).Brings Taken st fun flow st' =>
    ∀ v, flow = .returned v → Vouches Taken v st' :=
  (ask h (List.forall_mem_nil _)).mono fun _ _ come v returned => come.2 v (by cases returned; rfl)

/-- What is changed around an action is not the heap. -/
theorem between {κ : Type} {keep : State → κ} {before : State → State} {after : κ → State → State}
    {After : α → State → Prop} (same : (before st).heap = st.heap)
    (same' : ∀ k st, (after k st).heap = st.heap) (brings : action.Brings Taken (before st) Post)
    (carries : ∀ a k st, Post a st → After a (after k st)) :
    (Eval.between keep before after action).Brings Taken st After := by
  refine Plan.Ensures.bind brings fun o ends => ?_
  obtain ⟨onward, post⟩ := ends
  refine ⟨?_, fun a same => carries a _ _ (post a same)⟩
  change st.heap.Onward Taken (after (keep st) o.2).heap
  rw [same', ← same]
  exact onward

theorem inFrame {frame : FrameRef} {action : Eval Flow}
    (brings : action.Brings Taken (st.inside frame) fun flow st' =>
      ∀ v, flow = .returned v → Vouches Taken v st') :
    (Eval.inFrame frame action).Brings Taken st fun flow st' =>
      ∀ v, flow = .returned v → Vouches Taken v st' :=
  between rfl (fun _ _ => rfl) brings fun _ _ _ vouches => vouches

theorem holding {v : Value} {action : Eval Value}
    (brings : action.Brings Taken (st.push v) (Vouches Taken)) :
    (Eval.holding v action).Brings Taken st (Vouches Taken) :=
  between rfl (fun _ _ => rfl) brings fun _ _ _ vouches => vouches

theorem inCall {action : Eval Value} (brings : action.Brings Taken st.called (Vouches Taken)) :
    (Eval.inCall action).Brings Taken st (Vouches Taken) :=
  between rfl (fun _ _ => rfl) brings fun _ _ _ vouches => vouches

include h in
theorem print (line : Nat) (text : String) :
    (Eval.print line text).Brings Taken st fun _ _ => True := by
  unfold Brings Eval.print
  split
  · exact ⟨.refl h, fun _ _ => trivial⟩
  · exact ⟨.refl h, fun _ _ => trivial⟩

/-! ### Variables and properties -/

include h in
theorem defineIn (frame : FrameRef) {name : String} (ne : name ≠ thisName) {v : Value}
    (vouches : st.heap.Vouches Taken v) :
    (Eval.defineIn frame name v).Brings Taken st fun _ _ => True := by
  refine bind (inspect h _) fun _ st' _ found => ?_
  obtain ⟨-, rfl⟩ := found
  exact changeHeap (h.bindVariable frame ne vouches)

include h in
theorem define {name : String} (ne : name ≠ thisName) {v : Value}
    (vouches : st.heap.Vouches Taken v) :
    (Eval.define name v).Brings Taken st fun _ _ => True := by
  refine bind (look h _) fun frame st' _ looked => ?_
  obtain ⟨-, rfl⟩ := looked
  exact defineIn h frame ne vouches

include h in
theorem lookUp (name : String) (line : Nat) (depth : Option Nat) :
    (Eval.lookUp name line depth).Brings Taken st (Vouches Taken) := by
  refine bind (inspect h _) fun found st' _ looked => ?_
  obtain ⟨looked, rfl⟩ := looked
  refine (ofOption h).mono fun v st' there => ?_
  obtain ⟨rfl, rfl⟩ := there
  cases depth with
  | some distance => exact h.lookupAt looked v rfl
  | none => exact h.lookup looked v rfl

include h in
theorem assign {target : Reference} (ne : target.name.lexeme ≠ thisName) {v : Value}
    (vouches : st.heap.Vouches Taken v) :
    (Eval.assign target v).Brings Taken st fun _ _ => True := by
  refine bind (inspect h _) fun found st' _ looked => ?_
  obtain ⟨-, rfl⟩ := looked
  refine bind (ofOption h) fun owner st' _ there => ?_
  obtain ⟨-, rfl⟩ := there
  exact changeHeap (h.bindVariable owner ne vouches)

include h in
theorem setField (object : Instance) (name : String) {v : Value}
    (vouches : st.heap.Vouches Taken v) :
    (Eval.setField object name v).Brings Taken st fun _ _ => True := by
  refine bind (inspect h _) fun found st' _ looked => ?_
  obtain ⟨-, rfl⟩ := looked
  exact changeHeap (h.bindField object.fields name vouches)

include h in
/-- A property is the value of a field, or a method that is taken. -/
theorem property {object : Instance} (names : object.type.NamesInitializers) {name : Ident}
    (taken : ∀ method, st.heap.findProperty object name.lexeme = .ok (some (.method method)) →
      Taken (st.heap.bindMethod method object).1 object) :
    (Eval.property object name).Brings Taken st (Vouches Taken) := by
  refine bind (inspect h _) fun found st' _ looked => ?_
  obtain ⟨looked, rfl⟩ := looked
  match found, looked with
  | some (.field v), looked => exact pure h (h.findProperty looked)
  | some (.method method), looked =>
    refine (make (h.boundMethod method names)).mono fun v st' made => ?_
    obtain ⟨rfl, left⟩ := made
    rw [Vouches, left]
    exact h.vouches_boundMethod names (taken method looked)
  | none, _ => exact fail h _ _

include h in
theorem superMethod {keyword : Word} {method : Ident} {depth : Option Nat}
    (taken : ∀ {name c object}, Takes ⟨.evaluate (.super keyword method depth), st⟩ name c object →
      Taken c object) :
    (Eval.superMethod keyword.line method depth).Brings Taken st (Vouches Taken) := by
  refine bind (ofOption h) fun distance st' _ there => ?_
  obtain ⟨rfl, rfl⟩ := there
  refine bind (inspect h _) fun parent st' _ looked => ?_
  obtain ⟨lookedSuper, rfl⟩ := looked
  split
  · refine bind (inspect h _) fun this st' _ looked => ?_
    obtain ⟨lookedThis, rfl⟩ := looked
    split
    · rename_i object
      refine bind (ofOption h) fun found st' _ there => ?_
      obtain ⟨found', rfl⟩ := there
      have names : object.type.NamesInitializers := h.lookupAt lookedThis _ rfl
      refine (make (h.boundMethod found names)).mono fun v st' made => ?_
      obtain ⟨rfl, left⟩ := made
      rw [Vouches, left]
      exact h.vouches_boundMethod names (taken (.super lookedSuper lookedThis found'))
    · exact fail h _ _
  · exact fail h _ _

include h in
/-- A function that is made where it is written is no initializer. -/
theorem close (decl : Function) : (Eval.close decl).Brings Taken st (Vouches Taken) := by
  refine bind (look h _) fun frame st' _ looked => ?_
  obtain ⟨-, rfl⟩ := looked
  exact bind (make h.newIdentity) fun identity st' onward _ => pure onward.vouched nofun

/-! ### Calls -/

theorem sequence (body : List Stmt) {st : State} (h : st.heap.Vouched Taken) :
    (Eval.sequence body).Brings Taken st fun flow st' =>
      ∀ v, flow = .returned v → Vouches Taken v st' := by
  induction body generalizing st with
  | nil => exact pure h nofun
  | cons first rest ih =>
    refine bind (execute h first) fun flow st' onward vouches => ?_
    cases flow with
    | normal => exact ih onward.vouched
    | returned v => exact pure onward.vouched vouches

/-- What an argument comes to is still vouched for when the others are evaluated. -/
theorem arguments (es : List Expr) {st : State} (h : st.heap.Vouched Taken) :
    (Eval.arguments es).Brings Taken st fun vs st' => ∀ v ∈ vs, Vouches Taken v st' := by
  induction es generalizing st with
  | nil => exact pure h (List.forall_mem_nil _)
  | cons e rest ih =>
    refine bind (evaluate h e) fun v st₁ onward₁ come => ?_
    have held : (Eval.hold v).Brings Taken st₁ fun _ st₂ => st₂.heap = st₁.heap :=
      ⟨.refl onward₁.vouched, fun _ _ => rfl⟩
    refine bind held fun _ st₂ onward₂ same => ?_
    refine bind (ih onward₂.vouched) fun vs st₃ onward₃ vouches => pure onward₃.vouched ?_
    exact List.forall_mem_cons.mpr ⟨(come.2.mono onward₂.leads).mono onward₃.leads, vouches⟩

theorem bindParameters (frame : FrameRef) {bindings : List (Ident × Value)} {st : State}
    (h : st.heap.Vouched Taken) (ne : ∀ binding ∈ bindings, binding.1.lexeme ≠ thisName)
    (vouches : ∀ binding ∈ bindings, st.heap.Vouches Taken binding.2) :
    (Eval.bindParameters frame bindings).Brings Taken st fun _ _ => True := by
  induction bindings generalizing st with
  | nil => exact pure h trivial
  | cons binding rest ih =>
    rw [List.forall_mem_cons] at ne vouches
    refine bind (defineIn h frame ne.1 vouches.1) fun _ st' onward _ => ?_
    exact ih onward.vouched ne.2 fun binding mem => (vouches.2 binding mem).mono onward.leads

include h in
theorem invoke {closure : Closure}
    (ne : ∀ parameter ∈ closure.declaration.parameters, parameter.lexeme ≠ thisName)
    {vs : List Value} (vouches : ∀ v ∈ vs, st.heap.Vouches Taken v) :
    (Eval.invoke closure vs).Brings Taken st (Vouches Taken) := by
  refine bind (make (h.newFrame _ _)) fun frame st₁ onward₁ _ => ?_
  have given (binding : Ident × Value) (mem : binding ∈ closure.declaration.parameters.zip vs) :
      st₁.heap.Vouches Taken binding.2 :=
    (vouches _ (List.of_mem_zip mem).2).mono onward₁.leads
  refine bind (bindParameters frame onward₁.vouched
    (fun binding mem => ne _ (List.of_mem_zip mem).1) given) fun _ st₂ onward₂ _ => ?_
  refine bind (inFrame (sequence _ onward₂.vouched)) fun flow st₃ onward₃ returned => ?_
  split
  · refine bind (inspect onward₃.vouched _) fun found st₄ _ looked => ?_
    obtain ⟨looked, rfl⟩ := looked
    refine pure onward₃.vouched ?_
    cases found with
    | none => trivial
    | some v => exact onward₃.vouched.lookupAt looked v rfl
  · cases flow with
    | normal => exact pure onward₃.vouched trivial
    | returned v => exact pure onward₃.vouched (returned v rfl)

include h in
theorem invoked {closure : Closure} {vs : List Value} (vouches : ∀ v ∈ vs, st.heap.Vouches Taken v) :
    (Eval.ask (.invoke closure vs)).Brings Taken st (Vouches Taken) := by
  have given : ∀ v ∈ (Task.invoke closure vs).given, st.heap.Vouches Taken v := vouches
  exact (ask h given).mono fun v _ come => come.2 v rfl

include h in
theorem instantiate {type : Class} (names : type.NamesInitializers) {vs : List Value}
    (vouches : ∀ v ∈ vs, st.heap.Vouches Taken v) :
    (Eval.instantiate type vs).Brings Taken st (Vouches Taken) := by
  refine bind (make h.newInstance) fun fields st₁ onward₁ _ => ?_
  simp only
  split
  · exact pure onward₁.vouched names
  · rename_i initializer _
    refine bind (make (onward₁.vouched.bindMethod initializer names)) fun bound st₂ onward₂ _ => ?_
    have given (v : Value) (mem : v ∈ vs) : st₂.heap.Vouches Taken v :=
      ((vouches v mem).mono onward₁.leads).mono onward₂.leads
    exact bind (invoked onward₂.vouched given) fun _ st₃ onward₃ _ => pure onward₃.vouched names

include h in
theorem enter {callee : Value} (called : st.heap.Vouches Taken callee) {vs : List Value} {line : Nat}
    (vouches : ∀ v ∈ vs, st.heap.Vouches Taken v) :
    (Eval.enter callee vs line).Brings Taken st (Vouches Taken) := by
  cases callee with
  | function _ closure => exact invoked h vouches
  | native _ native =>
    cases native with
    | clock =>
      have read : Eval.readClock.Brings Taken st fun _ _ => True := ⟨.refl h, fun _ _ => trivial⟩
      exact map read fun _ _ _ => trivial
  | class_ type => exact instantiate h called vouches
  | _ => exact fail h _ _

include h in
theorem call {callee : Value} (called : st.heap.Vouches Taken callee) {vs : List Value} {line : Nat}
    (vouches : ∀ v ∈ vs, st.heap.Vouches Taken v) :
    (Eval.call callee vs line).Brings Taken st (Vouches Taken) := by
  rcases Eval.call_fails_or_enters callee vs line st with ⟨cause, fails⟩ | ⟨-, -, enters⟩
  · rw [Brings, fails]
    exact fail h line cause
  · have within : st.called.heap.Vouched Taken := h
    rw [Brings, enters]
    exact inCall (enter within called vouches)

include h in
theorem superclass (parent : Option Reference) :
    (Eval.superclass parent).Brings Taken st fun found _ => ∀ type ∈ found, type.NamesInitializers := by
  cases parent with
  | none => exact pure h nofun
  | some ref =>
    refine bind (evaluate h _) fun v st' onward come => ?_
    cases v with
    | class_ parent =>
      refine pure onward.vouched fun type mem => ?_
      cases mem
      exact come.2
    | _ => exact fail onward.vouched _ _

include h in
theorem methodFrame (name : Ident) (methods : List Function) {parent : Option Class}
    (names : ∀ type ∈ parent, type.NamesInitializers) :
    (Eval.methodFrame name methods parent).Brings Taken st fun _ _ => True := by
  cases parent with
  | none => exact (look h _).mono fun _ _ _ => trivial
  | some parent =>
    refine bind (look h _) fun current st' _ looked => ?_
    obtain ⟨-, rfl⟩ := looked
    refine bind (make (h.newFrame _ _)) fun frame st₁ onward₁ _ => ?_
    refine bind (defineIn onward₁.vouched frame (by decide) (names parent rfl)) fun _ st₂ onward₂ _ => ?_
    exact pure onward₂.vouched trivial

include h in
theorem declareClass {name : Ident} (ne : name.lexeme ≠ thisName) (parent : Option Reference)
    (methods : List Function) :
    (Eval.declareClass name parent methods).Brings Taken st fun _ _ => True := by
  refine bind (superclass h parent) fun parent st₁ onward₁ names => ?_
  refine bind (define onward₁.vouched ne trivial) fun _ st₂ onward₂ _ => ?_
  refine bind (methodFrame onward₂.vouched name methods names) fun frame st₃ onward₃ _ => ?_
  refine bind (make onward₃.vouched.newIdentity) fun identity st₄ onward₄ _ => ?_
  exact define onward₄.vouched ne (.extend names identity _ frame methods)

theorem program (statements : List Stmt) {st : State} (h : st.heap.Vouched Taken) :
    (Eval.program statements).Brings Taken st fun _ _ => True := by
  induction statements generalizing st with
  | nil => exact pure h trivial
  | cons first rest ih => exact bind (execute h first) fun _ st' onward _ => ih onward.vouched

theorem resetting {action : Eval Unit} (brings : action.Brings Taken st fun _ _ => True) :
    (Eval.resetting action).Brings Taken st fun _ _ => True := by
  refine Plan.Ensures.bind brings fun o ends => ?_
  obtain ⟨result, st'⟩ := o
  cases result with
  | ok _ => exact ends
  | error _ => exact ends

end Brings

end Eval

/-! ## Rules -/

/-- What a rule ends with is vouched for; a task that it hands over to is given nothing. -/
inductive Ending.Vouched (Taken : Closure → Instance → Prop) :
    {sort : TaskSort} → Ending sort → State → Prop
  | value {v : Value} {st : State} (vouches : st.heap.Vouches Taken v) :
      Vouched Taken (.result v : Ending .value) st
  | flow {flow : Flow} {st : State} (vouches : ∀ v, flow = .returned v → st.heap.Vouches Taken v) :
      Vouched Taken (.result flow : Ending .flow) st
  | program {st : State} : Vouched Taken (.result () : Ending .program) st
  | task {sort : TaskSort} {task : Task sort} {st : State} (nothing : task.given = []) :
      Vouched Taken (.task task) st

theorem Ending.Vouched.normal (st : State) : Vouched Taken (.result .normal : Ending .flow) st :=
  .flow fun _ same => by cases same

open Eval.Brings

section Rules

variable {st : State} (h : st.heap.Vouched Taken)

include h in
/-- Operators come to values that are no objects. -/
theorem Eval.Brings.ofResult {line : Nat} {result : Except RuntimeError.Cause Value}
    (simple : ∀ v, result = .ok v → v.IsSimple) :
    (Ending.result <$> Eval.ofResult line result : Eval (Ending .value)).Brings Taken st
      (Ending.Vouched Taken) := by
  cases result with
  | error cause => exact ⟨.refl h, nofun⟩
  | ok v => exact pure h (.value (.of_isSimple _ (simple v rfl)))

include h in
/-- The rule for an expression, if the methods that it takes are known to be taken. -/
theorem Expr.brings {e : Expr} (ne : ∀ name ∈ (Task.evaluate e).binds, name ≠ thisName)
    (taken : ∀ {name c object}, Takes ⟨.evaluate e, st⟩ name c object → Taken c object) :
    e.rule.Brings Taken st (Ending.Vouched Taken) := by
  cases e with
  | literal value => exact pure h (.value (.of_isSimple _ (Value.isSimple_ofLiteral value)))
  | group _ => exact pure h (.task rfl)
  | unary op operand =>
    refine bind (evaluate h operand) fun v st' onward _ => ?_
    exact ofResult onward.vouched fun _ => UnaryOp.isSimple_apply
  | binary left op right =>
    refine bind (evaluate h left) fun v st₁ onward₁ _ => ?_
    have pushed : (st₁.push v).heap.Vouched Taken := onward₁.vouched
    refine bind (holding (operand pushed right)) fun w st₂ onward₂ _ => ?_
    exact ofResult onward₂.vouched fun _ => BinaryOp.isSimple_apply
  | logical left _ _ =>
    refine bind (evaluate h left) fun v st' onward come => ?_
    split
    · exact pure onward.vouched (.value come.2)
    · exact pure onward.vouched (.task rfl)
  | variable_ ref => exact map (lookUp h _ _ _) fun _ _ => .value
  | this keyword depth => exact map (lookUp h _ _ _) fun _ _ => .value
  | assign target value =>
    refine bind (evaluate h value) fun v st₁ onward₁ come => ?_
    refine bind (Eval.Brings.assign onward₁.vouched (ne _ List.mem_cons_self) come.2)
      fun _ st₂ onward₂ _ => ?_
    exact pure onward₂.vouched (.value (come.2.mono onward₂.leads))
  | call callee es line =>
    refine bind (evaluate h callee) fun v st₁ onward₁ come => ?_
    have pushed : (st₁.push v).heap.Vouched Taken := onward₁.vouched
    refine map (holding ?_) fun _ _ => .value
    refine bind (arguments es pushed) fun vs st₂ onward₂ vouches => ?_
    have given : ∀ w ∈ (Task.call v vs line).given, st₂.heap.Vouches Taken w :=
      List.forall_mem_cons.mpr ⟨come.2.mono onward₂.leads, vouches⟩
    exact (ask onward₂.vouched given).mono fun w _ come => come.2 w rfl
  | get object name =>
    refine bind (evaluate h object) fun v st₁ onward₁ come => ?_
    cases v with
    | instance_ object =>
      exact map (property onward₁.vouched come.2 fun method found => taken (.get come.1 found))
        fun _ _ => .value
    | _ => exact fail onward₁.vouched _ _
  | set object name value =>
    refine bind (evaluate h object) fun v st₁ onward₁ _ => ?_
    cases v with
    | instance_ object =>
      have pushed : (st₁.push (.instance_ object)).heap.Vouched Taken := onward₁.vouched
      refine bind (holding (operand pushed value)) fun w st₂ onward₂ vouches => ?_
      refine bind (setField onward₂.vouched object name.lexeme vouches) fun _ st₃ onward₃ _ => ?_
      exact pure onward₃.vouched (.value (vouches.mono onward₃.leads))
    | _ => exact fail onward₁.vouched _ _
  | super keyword method depth => exact map (superMethod h taken) fun _ _ => .value
  | function decl => exact map (close h decl) fun _ _ => .value

include h in
theorem Stmt.brings {s : Stmt} (ne : ∀ name ∈ (Task.perform s).binds, name ≠ thisName) :
    s.rule.Brings Taken st (Ending.Vouched Taken) := by
  cases s with
  | expression e => exact bind (evaluate h e) fun _ _ onward _ => pure onward.vouched (.normal _)
  | print line e =>
    refine bind (evaluate h e) fun v st₁ onward₁ _ => ?_
    exact bind (Eval.Brings.print onward₁.vouched line v.text) fun _ _ onward _ =>
      pure onward.vouched (.normal _)
  | var name initial =>
    have user : name.lexeme ≠ thisName := ne _ List.mem_cons_self
    cases initial with
    | none => exact bind (define h user trivial) fun _ _ onward _ => pure onward.vouched (.normal _)
    | some e =>
      refine bind (evaluate h e) fun v st₁ onward₁ come => ?_
      exact bind (define onward₁.vouched user come.2) fun _ _ onward _ =>
        pure onward.vouched (.normal _)
  | block body =>
    refine bind (look h _) fun current st' _ looked => ?_
    obtain ⟨-, rfl⟩ := looked
    refine bind (make (h.newFrame _ _)) fun frame st₁ onward₁ _ => ?_
    have inside : (st₁.inside frame).heap.Vouched Taken := onward₁.vouched
    exact map (inFrame (sequence _ inside)) fun _ _ => .flow
  | branch condition _ no =>
    refine bind (evaluate h condition) fun v st₁ onward₁ _ => ?_
    split
    · exact pure onward₁.vouched (.task rfl)
    · cases no with
      | none => exact pure onward₁.vouched (.normal _)
      | some _ => exact pure onward₁.vouched (.task rfl)
  | loop _ _ => exact pure h (.task rfl)
  | function decl =>
    have user : decl.name.lexeme ≠ thisName := ne _ List.mem_cons_self
    refine bind (close h decl) fun v st₁ onward₁ vouches => ?_
    exact bind (define onward₁.vouched user vouches) fun _ _ onward _ =>
      pure onward.vouched (.normal _)
  | return_ _ value =>
    cases value with
    | none => exact pure h (.flow fun _ same => by cases same; trivial)
    | some e =>
      refine bind (evaluate h e) fun v st₁ onward₁ come => pure onward₁.vouched ?_
      exact .flow fun _ same => by cases same; exact come.2
  | class_ name parent methods =>
    refine bind (declareClass h (ne _ List.mem_cons_self) parent methods) fun _ _ onward _ => ?_
    exact pure onward.vouched (.normal _)

end Rules

namespace Evaluation

variable {sort : TaskSort}

/-- A question whose rule asks only where values are vouched for, and settles it so. -/
def Settled (Taken : Closure → Instance → Prop) (q : Question sort) : Prop :=
  (evaluation sort q).Ensures (Vouching Taken)
    (fun sort q r => evaluation.Answers sort q r ∧ Vouched Taken sort q r)
    (Rules.Settles (Vouching Taken) (Vouched Taken) q)

theorem settled_of_brings {task : Task sort} {st : State}
    (brings : (task.rule State.collectIfDue).Brings Taken st (Ending.Vouched Taken)) :
    Settled Taken ⟨task, st⟩ := by
  refine Plan.Ensures.bind brings fun o ends => ?_
  obtain ⟨onward, vouched⟩ := ends
  obtain ⟨result, left⟩ := o
  rcases result with stop | a | task'
  · refine ⟨onward, fun v mem => ?_⟩
    cases sort <;> cases mem
  · refine ⟨onward, fun v mem => ?_⟩
    cases vouched _ rfl with
    | value vouches =>
      cases mem
      exact vouches
    | flow vouches =>
      rename_i flow
      cases flow with
      | normal => cases mem
      | returned w =>
        cases mem
        exact vouches _ rfl
    | program => cases mem
  · cases vouched _ rfl with
    | task nothing =>
      have given : ∀ v ∈ task'.given, left.heap.Vouches Taken v := by
        rw [nothing]
        exact List.forall_mem_nil _
      exact ⟨⟨onward.vouched, given⟩, fun r after => ⟨onward.trans after.1, after.2⟩⟩

/-- **While a run goes on, each initializer in hand was taken from an object and runs on it.**  The names
that the run binds are known not to be `this`, and the states that it passes through to be valid. -/
theorem vouched_of_arises {start : Question .program}
    (user : ∀ {sort} {q : Question sort}, evaluation.Arises start q →
      ∀ name ∈ q.task.binds, name ≠ thisName)
    (sound : ∀ {sort} {q : Question sort}, evaluation.Arises start q → q.state.heap.Sound ∧
      ∀ object ∈ q.state.roots, q.state.heap.Has object)
    (taken : ∀ {q : Question .value}, evaluation.Arises start q → ∀ {name c object},
      Takes q name c object → Taken c object)
    (vouching : Vouching Taken .program start) {q : Question sort}
    (arises : evaluation.Arises start q) :
    Vouching Taken sort q ∧ ∀ r, evaluation.Answers sort q r → Vouched Taken sort q r := by
  suffices keeps : ∀ {sort₁} {q₁ : Question sort₁}, evaluation.Arises start q₁ →
      Vouching Taken sort₁ q₁ → Settled Taken q₁ from Rules.kept_along keeps vouching arises
  intro sort₁ q₁ arises vouching
  have ne := user arises
  obtain ⟨task, st⟩ := q₁
  obtain ⟨h, given⟩ := vouching
  cases task with
  | evaluate e => exact settled_of_brings (Expr.brings h ne (taken arises))
  | call callee vs line =>
    obtain ⟨called, vouches⟩ := List.forall_mem_cons.mp given
    exact settled_of_brings (map (call h called vouches) fun _ _ => .value)
  | invoke closure vs =>
    refine settled_of_brings (map (invoke h (fun parameter mem => ?_) given) fun _ _ => .value)
    exact ne _ (List.mem_map_of_mem mem)
  | execute s =>
    -- The collector keeps what it keeps as it is, and the rule hands over at once.
    obtain ⟨sound, there⟩ := sound arises
    have collected : st.heap.Onward Taken st.collectIfDue.heap := by
      rw [State.collectIfDue]
      split
      · exact h.collect sound there
      · exact .refl h
    exact ⟨⟨collected.vouched, List.forall_mem_nil _⟩,
      fun r after => ⟨collected.trans after.1, after.2⟩⟩
  | perform s => exact settled_of_brings (Stmt.brings h ne)
  | repeat_ condition body =>
    refine settled_of_brings (bind (evaluate h condition) fun v st₁ onward₁ _ => ?_)
    split
    · refine bind (execute onward₁.vouched body) fun flow st₂ onward₂ vouches => ?_
      cases flow with
      | normal => exact pure onward₂.vouched (.task rfl)
      | returned v => exact pure onward₂.vouched (.flow vouches)
    · exact pure onward₁.vouched (.normal _)
  | run statements =>
    exact settled_of_brings (map (resetting (program statements h)) fun _ _ _ => .program)

/-! ## What calls come to -/

variable {α β : Type} {st left : State}

theorem reaches_of_bind {action : Eval α} {next : α → Eval β} {b : β}
    (h : ((action >>= next) st).Reaches evaluation.Answers (.done (.ok b, left))) : ∃ a mid,
      (action st).Reaches evaluation.Answers (.done (.ok a, mid)) ∧
        (next a mid).Reaches evaluation.Answers (.done (.ok b, left)) := by
  rw [Eval.bind_apply] at h
  obtain ⟨⟨result, mid⟩, first, rest⟩ := h.done_of_bind
  cases result with
  | ok a => exact ⟨a, mid, first, rest⟩
  | error stop => cases rest

/-- A task whose rule ends with the result of an action ends when the action does, and is not handed
over. -/
theorem ends_of_reaches {task : Task sort} {action : Eval sort.Result}
    {next : Next Question Answer sort} (ruled : task.rule State.collectIfDue = .result <$> action)
    (ends : (evaluation sort ⟨task, st⟩).Reaches evaluation.Answers (.done next)) : ∃ result mid,
      (action st).Reaches evaluation.Answers (.done (result, mid)) ∧ next = .answer ⟨result, mid⟩ := by
  change Plan.Reaches _ (task.rule State.collectIfDue st >>= _) _ at ends
  obtain ⟨⟨ending, mid⟩, reaches, last⟩ := ends.done_of_bind
  rw [ruled, Eval.map_eq_bind, Eval.bind_apply] at reaches
  obtain ⟨⟨result, mid'⟩, reaches, rest⟩ := reaches.done_of_bind
  refine ⟨result, mid', reaches, ?_⟩
  cases result with
  | ok _ | error _ =>
    cases rest
    cases last
    rfl

/-- It comes to what the action comes to. -/
theorem reaches_of_answers {task : Task sort} {action : Eval sort.Result} {a : sort.Result}
    (ruled : task.rule State.collectIfDue = .result <$> action)
    (known : evaluation.Answers sort ⟨task, st⟩ ⟨.ok a, left⟩) :
    (action st).Reaches evaluation.Answers (.done (.ok a, left)) := by
  rcases known.exists_reaches with ends | ⟨q', ends, -⟩
  · obtain ⟨result, mid, reaches, same⟩ := ends_of_reaches ruled ends
    cases same
    exact reaches
  · obtain ⟨_, _, _, same⟩ := ends_of_reaches ruled ends
    cases same

/-- A call that comes to a value has entered what is called. -/
theorem enters_of_answers {callee v : Value} {vs : List Value} {line : Nat}
    (known : evaluation.Answers .value ⟨.call callee vs line, st⟩ ⟨.ok v, left⟩) : ∃ last,
      (Eval.enter callee vs line st.called).Reaches evaluation.Answers (.done (.ok v, last)) ∧
        left.heap = last.heap := by
  have reaches := reaches_of_answers rfl known
  rcases Eval.call_fails_or_enters callee vs line st with ⟨cause, fails⟩ | ⟨-, -, enters⟩
  · rw [fails] at reaches
    cases reaches
  · rw [enters] at reaches
    change Plan.Reaches _ (Eval.enter callee vs line st.called >>= _) _ at reaches
    obtain ⟨⟨result, last⟩, entered, rest⟩ := reaches.done_of_bind
    cases rest
    exact ⟨last, entered, rfl⟩

/-- A call of a class comes to a new instance of it, however its initializer ends. -/
theorem answers_class {type : Class} {vs : List Value} {line : Nat} {v : Value}
    (known : evaluation.Answers .value ⟨.call (.class_ type) vs line, st⟩ ⟨.ok v, left⟩) :
    v = .instance_ ⟨st.heap.newInstance.1, type⟩ := by
  obtain ⟨last, entered, -⟩ := enters_of_answers known
  obtain ⟨fields, mid, made, rest⟩ := reaches_of_bind entered
  cases made
  cases found : type.findMethod? initializerName with
  | none =>
    simp only [found] at rest
    cases rest
    rfl
  | some initializer =>
    simp only [found] at rest
    obtain ⟨_, _, -, rest⟩ := reaches_of_bind rest
    obtain ⟨_, _, -, rest⟩ := reaches_of_bind rest
    cases rest
    rfl

/-- An initializer that does not fail comes to what `this` is bound to around it, however its body ends. -/
theorem answers_initializer {c : Closure} (init : c.isInitializer = true) {vs : List Value} {v : Value}
    (known : evaluation.Answers .value ⟨.invoke c vs, st⟩ ⟨.ok v, left⟩) :
    ∃ found, left.heap.lookupAt c.frame 0 thisName = .ok found ∧ v = found.getD .nil := by
  have reaches := reaches_of_answers rfl known
  obtain ⟨frame, _, -, rest⟩ := reaches_of_bind reaches
  obtain ⟨_, _, -, rest⟩ := reaches_of_bind rest
  obtain ⟨flow, last, -, rest⟩ := reaches_of_bind rest
  rw [if_pos init] at rest
  obtain ⟨found, _, looked, rest⟩ := reaches_of_bind rest
  cases rest
  refine ⟨found, ?_, rfl⟩
  rw [Eval.inspect] at looked
  cases here : last.heap.lookupAt c.frame 0 thisName with
  | ok a =>
    simp only [here] at looked
    cases looked
    exact here
  | error dangling =>
    simp only [here] at looked
    cases looked

end Evaluation

end Lox
