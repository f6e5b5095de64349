import Lox.Evaluation.Operator
import Lox.Proofs.Heap.Objects

/-!
# Values where no place is used twice

If garbage were never collected, no place on the heap would be used twice, and the place of an object
would be its serial number.  The **ideal** of a value is what the value would be then: each reference
in it names the place that is its serial number.  All else is as it is.

Nothing that a program can tell about a value depends on the places in it, so each function on values
has a lemma that says that it does not mind whether it is given a value or its ideal.  Equality of
instances is the one that asks for more: places tell instances apart as serial numbers do only while
both are on the heap (`Value.isEqual_ideal`).
-/

namespace Lox

/-! ## The ideal of a value -/

/-- The place of a frame where none is used twice. -/
def FrameRef.ideal (ref : FrameRef) : FrameRef := ⟨ref.serial, ref.serial⟩

/-- The place of the fields of an instance where none is used twice. -/
def InstanceRef.ideal (ref : InstanceRef) : InstanceRef := ⟨ref.serial, ref.serial⟩

/-- A reference where no place is used twice. -/
def HeapObject.ideal : HeapObject → HeapObject
  | .frame ref => .frame ref.ideal
  | .instance_ ref => .instance_ ref.ideal

/-- A closure where no place is used twice. -/
def Closure.ideal (c : Closure) : Closure := { c with frame := c.frame.ideal }

/-- A class body where no place is used twice. -/
def ClassBody.ideal (body : ClassBody) : ClassBody :=
  { body with methods := body.methods.map Closure.ideal }

/-- A class where no place is used twice. -/
def Class.ideal (c : Class) : Class := ⟨c.own.ideal, c.inherited.map ClassBody.ideal⟩

/-- An instance where no place is used twice. -/
def Instance.ideal (object : Instance) : Instance := ⟨object.fields.ideal, object.type.ideal⟩

/-- A value where no place is used twice. -/
def Value.ideal : Value → Value
  | .function identity closure => .function identity closure.ideal
  | .class_ type => .class_ type.ideal
  | .instance_ object => .instance_ object.ideal
  | .nil => .nil
  | .boolean b => .boolean b
  | .number x => .number x
  | .string s => .string s
  | .native identity f => .native identity f

/-- A frame where no place is used twice. -/
def Frame.ideal (frame : Frame) : Frame :=
  ⟨frame.bindings.map Value.ideal, frame.enclosing.map FrameRef.ideal, frame.construct⟩

/-! ## Closures in a value -/

/-- The methods of a class, those inherited included. -/
def Class.closures (c : Class) : List Closure := c.lineage.flatMap fun body => body.methods.values

/-- The functions in a value: itself, or the methods of a class. -/
def Value.closures : Value → List Closure
  | .function _ closure => [closure]
  | .class_ type => type.closures
  | .instance_ object => object.type.closures
  | _ => []

theorem Class.referents_eq (c : Class) :
    c.referents = c.closures.map fun closure => .frame closure.frame := by
  simp [referents, closures, List.map_flatMap]

theorem Class.mem_closures_of_findMethod? {c : Class} {name : String} {method : Closure}
    (h : c.findMethod? name = some method) : method ∈ c.closures := by
  obtain ⟨body, mem, found⟩ := List.exists_of_findSome?_eq_some h
  exact List.mem_flatMap.mpr ⟨body, mem, Bindings.mem_values_of_find? found⟩

theorem Class.closures_extend (body : ClassBody) (parent : Option Class) :
    (extend body parent).closures =
      body.methods.values ++ (parent.map Class.closures).getD [] := by
  cases parent <;> simp [extend, closures, lineage]

/-! ## What does not depend on places -/

section Ideal

variable (c : Class) (closure : Closure) (v w : Value)

theorem Class.lineage_ideal : c.ideal.lineage = c.lineage.map ClassBody.ideal := rfl

theorem Class.findMethod?_ideal (name : String) :
    c.ideal.findMethod? name = (c.findMethod? name).map Closure.ideal := by
  rw [findMethod?, findMethod?, lineage_ideal, List.findSome?_map]
  induction c.lineage with
  | nil => rfl
  | cons body rest ih =>
    simp only [List.findSome?_cons, Function.comp_apply]
    rw [ClassBody.ideal, Bindings.find?_map]
    cases body.methods.find? name with
    | none => exact ih
    | some method => rfl

@[simp] theorem Class.arity_ideal : c.ideal.arity = c.arity := by
  rw [arity, arity, findMethod?_ideal]
  cases c.findMethod? initializerName <;> rfl

theorem Class.ideal_extend (body : ClassBody) (parent : Option Class) :
    (extend body parent).ideal = extend body.ideal (parent.map Class.ideal) := by
  cases parent <;> rfl

theorem Class.closures_ideal : c.ideal.closures = c.closures.map Closure.ideal := by
  rw [closures, closures, lineage_ideal, List.flatMap_map, List.map_flatMap]
  congr 1
  funext body
  rw [ClassBody.ideal, Bindings.values_map]

theorem Class.referents_ideal : c.ideal.referents = c.referents.map HeapObject.ideal := by
  rw [referents_eq, referents_eq, closures_ideal, List.map_map, List.map_map]
  rfl

theorem Value.referents_ideal : v.ideal.referents = v.referents.map HeapObject.ideal := by
  cases v with
  | class_ type => exact type.referents_ideal
  | instance_ object => exact congrArg (_ :: ·) object.type.referents_ideal
  | _ => rfl

theorem Frame.referents_ideal (frame : Frame) :
    frame.ideal.referents = frame.referents.map HeapObject.ideal := by
  obtain ⟨bindings, enclosing, construct⟩ := frame
  simp only [referents, Frame.ideal, List.map_append, Bindings.values_map, List.flatMap_map,
    List.map_flatMap, Value.referents_ideal]
  cases enclosing <;> rfl

@[simp] theorem Value.isTruthy_ideal : v.ideal.isTruthy = v.isTruthy := by cases v <;> rfl

@[simp] theorem Value.text_ideal : v.ideal.text = v.text := by cases v <;> rfl

theorem LogicalOp.isSettledBy_ideal (op : LogicalOp) : op.isSettledBy v.ideal = op.isSettledBy v := by
  cases op <;> simp [isSettledBy]

theorem Value.ideal_ofLiteral (l : Literal) : (Value.ofLiteral l).ideal = .ofLiteral l := by
  cases l <;> rfl

end Ideal

/-! ## Operators -/

/-- The value is no object and has none in it. -/
def Value.IsSimple : Value → Prop
  | .nil | .boolean _ | .number _ | .string _ => True
  | _ => False

theorem Value.IsSimple.ideal {v : Value} (h : v.IsSimple) : v.ideal = v := by
  cases v <;> first | rfl | cases h

theorem Value.IsSimple.closures {v : Value} (h : v.IsSimple) : v.closures = [] := by
  cases v <;> first | rfl | cases h

theorem Value.IsSimple.referents {v : Value} (h : v.IsSimple) : v.referents = [] := by
  cases v <;> first | rfl | cases h

theorem Value.isSimple_ofLiteral (l : Literal) : (Value.ofLiteral l).IsSimple := by
  cases l <;> trivial

theorem UnaryOp.isSimple_apply {op : UnaryOp} {v w : Value} (h : op.apply v = .ok w) :
    w.IsSimple := by
  cases op with
  | not => cases h; trivial
  | negate => cases v <;> cases h; trivial

theorem Value.isSimple_add {u v w : Value} (h : Value.add u v = .ok w) : w.IsSimple := by
  cases u <;> cases v <;> cases h <;> trivial

theorem BinaryOp.apply_numbers (op : BinaryOp) (x y : Float) :
    op.apply (.number x) (.number y) = op.applyToNumbers x y := by
  cases op <;> rfl

theorem BinaryOp.isSimple_applyToNumbers {op : BinaryOp} {x y : Float} {w : Value}
    (h : op.applyToNumbers x y = .ok w) : w.IsSimple := by
  cases op with
  | divide =>
    rw [applyToNumbers] at h
    split at h <;> cases h
    trivial
  | remainder =>
    rw [applyToNumbers] at h
    split at h <;> cases h
    trivial
  | _ => cases h; trivial

theorem BinaryOp.isSimple_apply {op : BinaryOp} {u v w : Value} (h : op.apply u v = .ok w) :
    w.IsSimple := by
  cases op with
  | equal => cases h; trivial
  | notEqual => cases h; trivial
  | add => exact Value.isSimple_add h
  | _ =>
    cases u <;> cases v <;> first
      | cases h; done
      | exact isSimple_applyToNumbers ((apply_numbers _ _ _).symm.trans h)

theorem Value.map_ideal_of_isSimple {result : Except RuntimeError.Cause Value}
    (h : ∀ v, result = .ok v → v.IsSimple) : result.map Value.ideal = result := by
  cases result with
  | error _ => rfl
  | ok v => exact congrArg Except.ok (h v rfl).ideal

theorem UnaryOp.apply_ideal (op : UnaryOp) (v : Value) :
    op.apply v.ideal = (op.apply v).map Value.ideal := by
  rw [Value.map_ideal_of_isSimple fun _ => isSimple_apply]
  cases op with
  | not => rw [apply, apply, Value.isTruthy_ideal]
  | negate => cases v <;> rfl

/-- Two instances on the heap have their fields in one place if and only if they have one serial
number. -/
theorem Value.isEqual_ideal {heap : Heap} (sound : heap.Sound) {v w : Value} (bears : heap.Bears v)
    (bears' : heap.Bears w) : v.ideal.isEqual w.ideal = v.isEqual w := by
  cases v <;> cases w <;> try rfl
  rename_i object object'
  obtain ⟨fields, holds⟩ := bears (.instance_ object.fields) List.mem_cons_self
  obtain ⟨fields', holds'⟩ := bears' (.instance_ object'.fields) List.mem_cons_self
  have same : object.fields.serial = object'.fields.serial ↔
      object.fields.index = object'.fields.index := by
    constructor
    · intro serial
      rw [Heap.HoldsFields, ← serial] at holds'
      exact sound.instances.serial_inj holds holds'
    · intro index
      rw [holds.ref_eq holds' index]
  simp only [Value.ideal, isEqual, Instance.ideal, InstanceRef.ideal]
  rw [Bool.eq_iff_iff, beq_iff_eq, beq_iff_eq]
  exact same

theorem BinaryOp.apply_ideal {heap : Heap} (sound : heap.Sound) {v w : Value}
    (bears : heap.Bears v) (bears' : heap.Bears w) (op : BinaryOp) :
    op.apply v.ideal w.ideal = (op.apply v w).map Value.ideal := by
  have equal := Value.isEqual_ideal sound bears bears'
  rw [Value.map_ideal_of_isSimple fun _ => isSimple_apply]
  cases op with
  | equal => rw [apply, apply, equal]
  | notEqual => rw [apply, apply, equal]
  | _ => cases v <;> cases w <;> rfl

end Lox
