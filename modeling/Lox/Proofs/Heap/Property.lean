import Lox.Heap.Property
import Lox.Proofs.Evaluation.Action
import Lox.Proofs.Heap.Reuse

/-!
# Reading and setting properties

A field that is set is read back.  Nothing else that can be read changes: not under another name, nor of
an instance with other fields, whether it is a field, a method or an error (`Heap.findProperty_bindField`).

Where an instance has no field of the name, a method is taken from its class, and if that does not declare
one, from the nearest superclass that does (`Class.Supplies`).  It comes bound: in a frame of its own, the
only one that is made on the way, which binds `this` and nothing else (`Heap.Binds`).
-/

namespace Lox

/-! ## Methods of a class -/

/-- Going up from a class, the first one that declares a method of this name declares this one. -/
inductive Class.Supplies : Class → String → Closure → Prop
  | own {type : Class} {name : String} {method : Closure}
      (declared : type.own.methods.find? name = some method) : type.Supplies name method
  | inherited {type parent : Class} {name : String} {method : Closure}
      (undeclared : type.own.methods.find? name = none) (link : type.superclass? = some parent)
      (supplies : parent.Supplies name method) : type.Supplies name method

/-- Going up from a class, none declares a method of this name. -/
inductive Class.Lacks : Class → String → Prop
  | topmost {type : Class} {name : String} (undeclared : type.own.methods.find? name = none)
      (link : type.superclass? = none) : type.Lacks name
  | inherited {type parent : Class} {name : String}
      (undeclared : type.own.methods.find? name = none) (link : type.superclass? = some parent)
      (lacks : parent.Lacks name) : type.Lacks name

/-- A method is looked for until a class supplies it. -/
theorem Class.supplies_or_lacks (type : Class) (name : String) :
    (∃ method, type.findMethod? name = some method ∧ type.Supplies name method) ∨
      type.findMethod? name = none ∧ type.Lacks name := by
  obtain ⟨own, inherited⟩ := type
  induction inherited generalizing own with
  | nil =>
    rw [findMethod?_eq]
    cases declared : own.methods.find? name with
    | some method => exact .inl ⟨method, rfl, .own declared⟩
    | none => exact .inr ⟨rfl, .topmost declared rfl⟩
  | cons first rest ih =>
    rw [findMethod?_eq]
    cases declared : own.methods.find? name with
    | some method => exact .inl ⟨method, rfl, .own declared⟩
    | none =>
      rcases ih first with ⟨method, found, supplies⟩ | ⟨missing, lacks⟩
      · exact .inl ⟨method, found, .inherited declared rfl supplies⟩
      · exact .inr ⟨missing, .inherited declared rfl lacks⟩

namespace Heap

variable {heap : Heap} {object other : Instance} {fields : Bindings Value} {ref : InstanceRef}
  {name name' : String} {value : Value}

/-! ## What is found -/

theorem findProperty_of_field (there : heap.fields object.fields = .ok fields)
    (found : fields.find? name = some value) :
    heap.findProperty object name = .ok (some (.field value)) := by
  simp only [findProperty, there, bind, Except.bind, found]
  rfl

theorem findProperty_of_noField (there : heap.fields object.fields = .ok fields)
    (noField : fields.find? name = none) :
    heap.findProperty object name = .ok ((object.type.findMethod? name).map .method) := by
  simp only [findProperty, there, bind, Except.bind, noField]
  rfl

theorem fields_bindField (heap : Heap) (ref : InstanceRef) (name : String) (value : Value)
    (ref' : InstanceRef) : (heap.bindField ref name value).fields ref' =
      (heap.fields ref').map fun fields =>
        if ref'.index = ref.index then fields.insert name value else fields := by
  simp only [Heap.fields, bindField, Arena.get?_modify]
  cases heap.instances.get? ref'.index <;> by_cases same : ref'.index = ref.index <;>
    simp [same, Except.map]

/-- Setting a field changes no other property. -/
theorem findProperty_bindField
    (apart : other.fields.index ≠ ref.index ∨ name' ≠ name) :
    (heap.bindField ref name value).findProperty other name' = heap.findProperty other name' := by
  rw [findProperty, findProperty, fields_bindField]
  cases heap.fields other.fields with
  | error dangling => rfl
  | ok fields =>
    simp only [Except.map, bind, Except.bind]
    by_cases same : other.fields.index = ref.index
    · rw [if_pos same,
        Bindings.find?_insert_of_ne _ (apart.resolve_left (not_not_intro same)).symm]
    · rw [if_neg same]

/-! ## What is bound -/

/-- A method has been bound to an object: in a frame that is made for it, where there was none, and that
binds `this` and nothing else.  The frame around it is the method's own. -/
structure Binds (heap : Heap) (object : Instance) (method bound : Closure) (later : Heap) : Prop where
  declaration : bound.declaration = method.declaration
  isInitializer : bound.isInitializer = method.isInitializer
  allocates : heap.frames.Allocates
    ⟨⟨[(thisName, .instance_ object)]⟩, some method.frame, .self method.declaration⟩
    bound.frame.index later.frames
  /-- Nothing else on the heap is touched. -/
  rest : later = { heap with
    frames := later.frames
    nextIdentity := heap.nextIdentity + 1
    allocations := heap.allocations + 1 }

theorem binds_boundMethod (frames : heap.frames.Sound) (clean : heap.frames.Clean)
    (method : Closure) (object : Instance) : ∃ identity bound later,
      heap.boundMethod method object = (.function identity bound, later) ∧
        heap.Binds object method bound later := by
  have allocates := (frames.allocates clean.marksOccupied
    ⟨.empty, some method.frame, .self method.declaration⟩).modify fun frame =>
      { frame with bindings := frame.bindings.insert thisName (.instance_ object) }
  simp only [boundMethod, bindMethod, newFrame, newIdentity]
  generalize heap.frames.alloc _ = outcome at allocates ⊢
  obtain ⟨index, frames⟩ := outcome
  exact ⟨_, _, _, rfl, rfl, rfl, allocates, rfl⟩

end Heap

namespace Eval

variable {st : State} {object other : Instance} {fields : Bindings Value} {name name' : Ident}
  {value : Value}

/-! ## Actions of a program -/

/-- What reading a property of an object comes to, whose fields are given. -/
inductive ReadsProperty (object : Instance) (fields : Bindings Value) (name : Ident) (st : State) :
    Except Stop Value → State → Prop
  /-- A field, also where there is a method of that name.  Nothing is made. -/
  | field {value : Value} (found : fields.find? name.lexeme = some value) :
      ReadsProperty object fields name st (.ok value) st
  | method {method bound : Closure} {identity : Identity} {heap : Heap}
      (noField : fields.find? name.lexeme = none)
      (supplies : object.type.Supplies name.lexeme method)
      (binds : st.heap.Binds object method bound heap) :
      ReadsProperty object fields name st (.ok (.function identity bound)) { st with heap := heap }
  | undefined {e : RuntimeError} (noField : fields.find? name.lexeme = none)
      (lacks : object.type.Lacks name.lexeme) (line : e.line = name.line)
      (message : e.cause.message = "Undefined property '" ++ name.lexeme ++ "'.") :
      ReadsProperty object fields name st (.error (.error e)) st

/-- A property of an object has been set, and that is all that shows. -/
structure SetsProperty (object : Instance) (name : String) (value : Value) (st later : State) :
    Prop where
  /-- It is read back, wherever its name is written. -/
  reads : ∀ mention : Ident, mention.lexeme = name →
    Eval.property object mention later = .done (.ok value, later)
  /-- Another name, or an instance whose fields are in another slot, is read as before: with the same
  result, and the same is made on the way. -/
  others : ∀ (other : Instance) (mention : Ident),
    other.fields.index ≠ object.fields.index ∨ mention.lexeme ≠ name →
    ∃ result heap, Eval.property other mention st = .done (result, { st with heap := heap }) ∧
      Eval.property other mention later =
        .done (result, { st with heap := heap.bindField object.fields name value })
  frames : later.heap.frames = st.heap.frames
  instances : ∀ index, index ≠ object.fields.index →
    later.heap.instances.get? index = st.heap.instances.get? index
  /-- Nothing but fields has changed. -/
  rest : later = { st with heap := { st.heap with instances := later.heap.instances } }

/-- Take a property that was looked for, if it was found. -/
def takeProperty (object : Instance) (name : Ident) : Option Heap.Property → Eval Value
  | some (.field value) => pure value
  | some (.method method) => make (·.boundMethod method object)
  | none => fail name.line (.undefinedProperty name.lexeme)

theorem property_of_found (st : State) {found : Option Heap.Property}
    (h : st.heap.findProperty object name.lexeme = .ok found) :
    Eval.property object name st = takeProperty object name found st := by
  rw [Eval.property]
  exact bind_of_ok (inspect_of_ok (f := fun st => st.heap.findProperty object name.lexeme) h)

theorem property_of_dangling (st : State) {access : Dangling}
    (h : st.heap.findProperty object name.lexeme = .error access) :
    Eval.property object name st = .done (.error (.fault access), st) := by
  have refused : inspect (fun st => st.heap.findProperty object name.lexeme) st =
      .done (.error (.fault access), st) := by rw [inspect, h]
  rw [Eval.property]
  exact bind_of_error refused

theorem exists_readsProperty (frames : st.heap.frames.Sound) (clean : st.heap.frames.Clean)
    (there : st.heap.fields object.fields = .ok fields) (name : Ident) : ∃ result later,
      Eval.property object name st = .done (result, later) ∧
        ReadsProperty object fields name st result later := by
  cases found : fields.find? name.lexeme with
  | some value =>
    have search := Heap.findProperty_of_field there found
    exact ⟨_, _, property_of_found st search, .field found⟩
  | none =>
    have search := Heap.findProperty_of_noField there found
    rcases object.type.supplies_or_lacks name.lexeme with ⟨method, here, supplies⟩ | ⟨missing, lacks⟩
    · rw [here] at search
      obtain ⟨identity, bound, heap, made, binds⟩ :=
        Heap.binds_boundMethod frames clean method object
      have bind : takeProperty object name (some (.method method)) st =
          .done (.ok (.function identity bound), { st with heap := heap }) := by
        rw [takeProperty, make, made]
      exact ⟨_, _, (property_of_found st search).trans bind, .method found supplies binds⟩
    · rw [missing] at search
      exact ⟨_, _, property_of_found st search, .undefined found lacks rfl rfl⟩

/-- What is made while a property is taken does not hang on fields. -/
theorem exists_takeProperty (st : State) (other : Instance) (mention : Ident)
    (found : Option Heap.Property) (ref : InstanceRef) (name : String) (value : Value) :
    ∃ result heap, takeProperty other mention found st = .done (result, { st with heap := heap }) ∧
      takeProperty other mention found { st with heap := st.heap.bindField ref name value } =
        .done (result, { st with heap := heap.bindField ref name value }) := by
  match found with
  | some (.field current) => exact ⟨.ok current, st.heap, rfl, rfl⟩
  | some (.method method) => exact ⟨.ok (st.heap.boundMethod method other).1, _, rfl, rfl⟩
  | none => exact ⟨.error _, st.heap, rfl, rfl⟩

theorem setsProperty (there : st.heap.fields object.fields = .ok fields) (name : String)
    (value : Value) : SetsProperty object name value st
      { st with heap := st.heap.bindField object.fields name value } where
  reads mention same := by
    have written : (st.heap.bindField object.fields name value).fields object.fields =
        .ok (fields.insert name value) := by
      rw [Heap.fields_bindField, there, Except.map, if_pos rfl]
    have found : (fields.insert name value).find? mention.lexeme = some value := by
      rw [same, Bindings.find?_insert_self]
    exact property_of_found { st with heap := st.heap.bindField object.fields name value }
      (Heap.findProperty_of_field written found)
  others other mention apart := by
    have search : (st.heap.bindField object.fields name value).findProperty other mention.lexeme =
        st.heap.findProperty other mention.lexeme := Heap.findProperty_bindField apart
    cases found : st.heap.findProperty other mention.lexeme with
    | error access =>
      exact ⟨_, st.heap, property_of_dangling st found,
        property_of_dangling { st with heap := st.heap.bindField object.fields name value }
          (search.trans found)⟩
    | ok found' =>
      rw [property_of_found st found,
        property_of_found { st with heap := st.heap.bindField object.fields name value }
          (search.trans found)]
      exact exists_takeProperty st other mention found' object.fields name value
  frames := rfl
  instances index ne := by
    rw [Heap.bindField, Arena.get?_modify, if_neg ne]
  rest := rfl

/-- **Properties are read and set as they should be,** of any instance whose fields are there, on any heap
that operations have made. -/
theorem property_of_built (built : st.heap.Built)
    (there : st.heap.fields object.fields = .ok fields) :
    (∀ name, ∃ result later, Eval.property object name st = .done (result, later) ∧
      ReadsProperty object fields name st result later) ∧
    ∀ name value, ∃ later, Eval.setField object name value st = .done (.ok (), later) ∧
      SetsProperty object name value st later ∧ later.heap.Built := by
  refine ⟨exists_readsProperty built.tidy.frames built.tidy.cleanFrames there, fun name value =>
    ⟨_, setField_of_ok there name value, setsProperty there name value, ?_⟩⟩
  have done : st.heap.setField object.fields name value =
      .ok (st.heap.bindField object.fields name value) := by
    rw [Heap.setField, there]
    rfl
  exact .setField built done

/-- An object without fields, whose class inherits a method `m`, on a heap with a slot that has been
emptied: the method will be bound in it. -/
def inheriting (settings : Settings) : State :=
  { State.start settings .unlimited (.ticking 0) with
    heap := (((Heap.new settings).newFrame none).2.collect []).2.newInstance.2 }
where
  method : Closure := ⟨⟨.named ⟨"m", "m", 1⟩, [], []⟩, ⟨7, 7⟩, false⟩
  object : Instance :=
    ⟨⟨0, 0⟩, ⟨⟨⟨1⟩, "B", .empty⟩, [⟨⟨0⟩, "A", Bindings.empty.insert "m" method⟩]⟩⟩

theorem property_of_built_inheriting : (inheriting {}).heap.Built ∧
    (inheriting {}).heap.fields inheriting.object.fields = .ok .empty ∧
    (∃ result later, Eval.property inheriting.object ⟨"m", "m", 2⟩ (inheriting {}) =
        .done (result, later) ∧
      ReadsProperty inheriting.object .empty ⟨"m", "m", 2⟩ (inheriting {}) result later) ∧
    ∃ later, Eval.setField inheriting.object "m" .nil (inheriting {}) = .done (.ok (), later) ∧
      SetsProperty inheriting.object "m" .nil (inheriting {}) later ∧ later.heap.Built := by
  have emptied := ((Heap.Built.new {}).newFrame none .program).collect []
  have built : (inheriting {}).heap.Built := emptied.newInstance
  have there : (inheriting {}).heap.fields inheriting.object.fields = .ok .empty := by
    have new : inheriting.object.fields = (((Heap.new {}).newFrame none).2.collect []).2.newInstance.1 := by
      decide +kernel
    rw [new]
    exact (Heap.holdsFields_newInstance_self emptied.tidy.instances).access
  have laws := property_of_built built there
  exact ⟨built, there, laws.1 ⟨"m", "m", 2⟩, laws.2 "m" .nil⟩

end Eval

end Lox
