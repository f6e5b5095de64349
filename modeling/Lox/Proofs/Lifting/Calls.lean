import Lox.Proofs.Lifting.Actions

/-!
# Calls in step, with additional frames

What is made at run time is made in both runs: frames, instances, functions and bound methods.  A
function is called in a frame of its own, and the gap of that frame is one scope deeper than the gap of
the frame that the function was made in.
-/

namespace Lox

open Evaluation Lifting

namespace Eval.Lifts

variable {w : Pairing} {st st' : State} {gap : Gap}

/-! ## What is made -/

theorem newFrame (lifts : st.Lifts w st') {enclosing enclosing' : FrameRef}
    (there : w.At gap enclosing enclosing') (construct construct' : Construct) :
    Eval.Lifts w (fun w ref ref' => w.At gap.deeper ref ref')
      (make (·.newFrame (some enclosing) construct)) (make (·.newFrame (some enclosing') construct'))
      st st' := by
  have made := lifts.heap.newFrame enclosing enclosing' construct construct' there
  have grows := w.grows_withFrames gap.deeper st.heap.frames.slots.size st'.heap.frames.slots.size
  have globals := lifts.globals.newFrame lifts.heap.free grows enclosing construct
  refine of_done rfl rfl ⟨lifts.withHeap made globals, grows, rfl, rfl⟩ (.inr ⟨rfl, ?_, ?_⟩)
  · exact Heap.index_newFrame lifts.heap.free _ _
  · exact Heap.index_newFrame lifts.heap.free' _ _

theorem newInstance (lifts : st.Lifts w st') :
    Eval.Lifts w (fun w ref ref' => ref' = ref ∧ w.fields ref.index) (make Heap.newInstance)
      (make Heap.newInstance) st st' := by
  obtain ⟨same, made⟩ := lifts.heap.newInstance
  have grows := w.grows_withFields st.heap.newInstance.1.index
  have globals : Heap.Lifts.Outermost _ st.heap.newInstance.2 st.globals st'.globals :=
    ⟨grows.at lifts.globals.there, lifts.globals.last⟩
  exact of_done rfl rfl ⟨lifts.withHeap made globals, grows, rfl, rfl⟩ ⟨same, .inr rfl⟩

theorem newIdentity (lifts : st.Lifts w st') :
    Eval.Lifts w (fun _ identity identity' => identity' = identity) (make Heap.newIdentity)
      (make Heap.newIdentity) st st' := by
  obtain ⟨same, made⟩ := lifts.heap.newIdentity
  have globals : Heap.Lifts.Outermost w st.heap.newIdentity.2 st.globals st'.globals :=
    ⟨lifts.globals.there, lifts.globals.last⟩
  exact of_done rfl rfl ⟨lifts.withHeap made globals, .refl w, rfl, rfl⟩ same

/-- A function is made in the current frame. -/
theorem close (lifts : st.Lifts w st') (here : w.At gap st.current st'.current)
    {decl decl' : Function} (same : decl.Lifts gap decl') :
    Eval.Lifts w Value.Lifts (Eval.close decl) (Eval.close decl') st st' := by
  refine bind_of_ok rfl rfl lifts.abreast ?_
  refine bind (newIdentity lifts) ?_
  rintro w₁ st₁ st₁' _ identity abreast rfl
  have declared : Closure.LiftsBound w₁ ⟨decl, st.current, false⟩ ⟨decl', st'.current, false⟩ :=
    ⟨⟨gap, abreast.grows.at here, same, nofun⟩, rfl⟩
  exact pure abreast.lifts (.function _ declared)

/-- A method is bound, in a frame of its own. -/
theorem bindMethod (lifts : st.Lifts w st') {c c' : Closure} {fields : InstanceRef}
    (known : w.fields fields.index) {type type' : Class} (same : c.LiftsUnbound w c')
    (same' : type.Lifts w type') :
    Eval.Lifts w Closure.LiftsBound (make (·.bindMethod c ⟨fields, type⟩))
      (make (·.bindMethod c' ⟨fields, type'⟩)) st st' := by
  -- Binding a method is to make a frame and to bind a variable in it.
  change Eval.Lifts w _
    (make (·.newFrame (some c.frame) (.self c.declaration)) >>= fun frame =>
      changeHeap (·.bindVariable frame thisName (.instance_ ⟨fields, type⟩)) >>= fun _ =>
        Pure.pure { c with frame := frame })
    (make (·.newFrame (some c'.frame) (.self c'.declaration)) >>= fun frame =>
      changeHeap (·.bindVariable frame thisName (.instance_ ⟨fields, type'⟩)) >>= fun _ =>
        Pure.pure { c' with frame := frame }) st st'
  obtain ⟨⟨gap, there, declared, -⟩, initializer⟩ := same
  refine bind (newFrame lifts there _ _) fun {w₁ st₁ st₁' ref ref'} abreast made => ?_
  have object := Value.Lifts.instance_ (abreast.grows.fields known) (same'.mono abreast.grows)
  refine bind (changeVariable abreast.lifts ⟨_, Gap.deeper_ne_here, made⟩ thisName object) ?_
  intro w₂ st₂ st₂' _ _ abreast' _
  exact pure abreast'.lifts
    ⟨⟨gap.deeper, abreast'.grows.at made, declared, fun _ => Gap.deeper_ne_here⟩, initializer⟩

/-- A bound method as a value. -/
theorem boundMethod (lifts : st.Lifts w st') {c c' : Closure} {fields : InstanceRef}
    (known : w.fields fields.index) {type type' : Class} (same : c.LiftsUnbound w c')
    (same' : type.Lifts w type') :
    Eval.Lifts w Value.Lifts (make (·.boundMethod c ⟨fields, type⟩))
      (make (·.boundMethod c' ⟨fields, type'⟩)) st st' := by
  change Eval.Lifts w _
    (make (·.bindMethod c ⟨fields, type⟩) >>= fun closure => make Heap.newIdentity >>= fun identity =>
      Pure.pure (Value.function identity closure))
    (make (·.bindMethod c' ⟨fields, type'⟩) >>= fun closure => make Heap.newIdentity >>= fun identity =>
      Pure.pure (Value.function identity closure)) st st'
  refine bind (bindMethod lifts known same same') fun abreast bound => ?_
  refine bind (newIdentity abreast.lifts) ?_
  rintro w₂ st₂ st₂' _ identity abreast' rfl
  exact pure abreast'.lifts (.function _ (bound.mono abreast'.grows))

/-! ## Properties -/

theorem property (lifts : st.Lifts w st') {fields : InstanceRef} (known : w.fields fields.index)
    {type type' : Class} (same : type.Lifts w type') (name : Ident) :
    Eval.Lifts w Value.Lifts (Eval.property ⟨fields, type⟩ name) (Eval.property ⟨fields, type'⟩ name)
      st st' := by
  refine inspect_bind lifts (lifts.heap.findProperty known same name.lexeme) fun found found' h => ?_
  cases h with
  | none => exact fail lifts _ _
  | some h =>
    cases h with
    | field value => exact pure lifts value
    | method method => exact boundMethod lifts known method same

theorem setField (lifts : st.Lifts w st') {fields : InstanceRef} (known : w.fields fields.index)
    {type type' : Class} (name : String) {a a' : Value} (same : a.Lifts w a') :
    Eval.Lifts w (fun _ _ _ => True) (Eval.setField ⟨fields, type⟩ name a)
      (Eval.setField ⟨fields, type'⟩ name a') st st' := by
  refine inspect_bind lifts (lifts.heap.fields known) fun _ _ _ => ?_
  have bound := lifts.heap.bindField fields name same
  have globals : Heap.Lifts.Outermost w (st.heap.bindField fields name a) st.globals st'.globals :=
    ⟨lifts.globals.there, lifts.globals.last⟩
  exact of_done rfl rfl ⟨lifts.withHeap bound globals, .refl w, rfl, rfl⟩ trivial

/-- A method of the superclass, bound to the object that is found just within the scope of `super`. -/
theorem superMethod (lifts : st.Lifts w st') (here : w.At gap st.current st'.current) (line : Nat)
    (method : Ident) {depth : Option Nat}
    (around : ∀ distance ∈ depth, gap.shift distance - 1 = gap.shift (distance - 1)) :
    Eval.Lifts w Value.Lifts (Eval.superMethod line method depth)
      (Eval.superMethod line method (depth.map gap.shift)) st st' := by
  cases depth with
  | none => exact fail_bind lifts _ _
  | some distance =>
    refine bind_of_ok rfl rfl lifts.abreast ?_
    refine inspect_bind lifts (lifts.heap.lookupAt here distance superName) fun found found' h => ?_
    cases h with
    | none => exact fail lifts _ _
    | some same =>
      cases same with
      | @class_ parent parent' parents =>
        rw [around distance rfl]
        refine inspect_bind lifts (lifts.heap.lookupAt here (distance - 1) thisName)
          fun found found' h => ?_
        cases h with
        | none => exact fail lifts _ _
        | some same =>
          cases same with
          | instance_ known types =>
            refine bind (ofOption lifts method.line (.undefinedProperty method.lexeme)
              (R := fun w => Closure.LiftsUnbound w) (parents.findMethod? method.lexeme)) ?_
            intro _ _ _ _ _ abreast found
            exact boundMethod abreast.lifts (abreast.grows.fields known) found
              (types.mono abreast.grows)
          | _ => exact fail lifts _ _
      | _ => exact fail lifts _ _

/-! ## The world -/

theorem print (lifts : st.Lifts w st') (line : Nat) (text : String) :
    Eval.Lifts w (fun _ _ _ => True) (Eval.print line text) (Eval.print line text) st st' := by
  have same := lifts.sink
  cases printed : st.sink.print text with
  | ok sink =>
    have prints : Eval.print line text st = .done (.ok (), { st with sink := sink }) := by
      rw [Eval.print, printed]
    have prints' : Eval.print line text st' = .done (.ok (), { st' with sink := sink }) := by
      rw [Eval.print, same, printed]
    have after : State.Lifts w { st with sink := sink } { st' with sink := sink } :=
      { lifts with sink := rfl }
    exact of_done prints prints' ⟨after, .refl w, rfl, rfl⟩ trivial
  | error reason =>
    have fails : Eval.Lifts w (fun _ (_ _ : Unit) => True) (Eval.fail line (.outputFailed reason))
        (Eval.fail line (.outputFailed reason)) st st' := fail lifts _ _
    rw [Eval.Lifts, Eval.print, Eval.print, same, printed]
    exact fails

theorem readClock (lifts : st.Lifts w st') :
    Eval.Lifts w (fun _ time time' => time' = time) Eval.readClock Eval.readClock st st' := by
  have after : State.Lifts w { st with clock := st.clock.read.2 }
      { st' with clock := st'.clock.read.2 } := { lifts with clock := by rw [lifts.clock] }
  have time : st'.clock.read.1 = st.clock.read.1 := by rw [lifts.clock]
  exact of_done rfl rfl ⟨after, .refl w, rfl, rfl⟩ time

/-! ## Calls -/

/-- The values of arguments are bound to the parameters. -/
theorem bindParameters (lifts : st.Lifts w st') {ref ref' : FrameRef} (there : w.At gap ref ref')
    (inside : gap ≠ .here) (names : List Ident) {values values' : List Value}
    (all : List.Forall₂ (Value.Lifts w) values values') :
    Eval.Lifts w (fun _ _ _ => True) (Eval.bindParameters ref (names.zip values))
      (Eval.bindParameters ref' (names.zip values')) st st' := by
  induction names generalizing values values' w st st' with
  | nil => exact pure lifts trivial
  | cons name rest ih =>
    cases all with
    | nil => exact pure lifts trivial
    | cons first all =>
      refine bind (defineIn lifts ⟨gap, inside, there⟩ name.lexeme first) fun abreast _ => ?_
      exact ih abreast.lifts (abreast.grows.at there) (all.imp fun _ _ same => same.mono abreast.grows)

/-- Statements run one after the other in the current frame. -/
theorem sequence {body body' : List Stmt} (lifts : st.Lifts w st')
    (here : w.At gap st.current st'.current) (all : Stmt.AllLift gap body body') :
    Eval.Lifts w Flow.Lifts (Eval.sequence body) (Eval.sequence body') st st' := by
  induction body generalizing body' w st st' with
  | nil =>
    cases all
    exact pure lifts .normal
  | cons s rest ih =>
    cases all with
    | cons first all =>
      refine bind (execute lifts here first) fun abreast ended => ?_
      cases ended with
      | normal => exact ih abreast.lifts (abreast.here here) all
      | returned same => exact pure abreast.lifts (.returned same)

/-- The body of a function runs in a frame of its own. -/
theorem invoke {closure closure' : Closure} {arguments arguments' : List Value}
    (lifts : st.Lifts w st') (same : closure.LiftsBound w closure')
    (all : List.Forall₂ (Value.Lifts w) arguments arguments') :
    Eval.Lifts w Value.Lifts (Eval.invoke closure arguments) (Eval.invoke closure' arguments')
      st st' := by
  obtain ⟨⟨gap, there, declared, inside⟩, initializer⟩ := same
  refine bind (newFrame lifts there _ _) fun abreast₁ made => ?_
  rw [declared.parameters_eq]
  have all := all.imp fun _ _ same => same.mono abreast₁.grows
  refine bind (bindParameters abreast₁.lifts made Gap.deeper_ne_here _ all) ?_
  intro w₂ st₂ st₂' _ _ abreast₂ _
  have made := abreast₂.grows.at made
  have runs := sequence (abreast₂.lifts.inside _ _) made declared.body
  refine bind (inFrame runs) fun {w₃ st₃ st₃' flow flow'} abreast₃ ended => ?_
  have there := (abreast₁.grows.trans (abreast₂.grows.trans abreast₃.grows)).at there
  rw [initializer]
  cases known : closure.isInitializer with
  | true =>
    have object := abreast₃.lifts.heap.lookupAt there 0 thisName
    have nearest : gap.shift 0 = 0 := Gap.shift_zero (inside known)
    rw [nearest] at object
    refine inspect_bind abreast₃.lifts object fun found found' h => pure abreast₃.lifts ?_
    cases h with
    | none => exact .nil
    | some h => exact h
  | false =>
    cases ended with
    | normal => exact pure abreast₃.lifts .nil
    | returned same => exact pure abreast₃.lifts same

/-- An instance is made, and its initializer runs as a method of it. -/
theorem instantiate {type type' : Class} {arguments arguments' : List Value}
    (lifts : st.Lifts w st') (same : type.Lifts w type')
    (all : List.Forall₂ (Value.Lifts w) arguments arguments') :
    Eval.Lifts w Value.Lifts (Eval.instantiate type arguments) (Eval.instantiate type' arguments')
      st st' := by
  refine bind (newInstance lifts) ?_
  rintro w₁ st₁ st₁' _ fields abreast₁ ⟨rfl, known⟩
  have same := same.mono abreast₁.grows
  have found := same.findMethod? initializerName
  generalize type.findMethod? initializerName = method, type'.findMethod? initializerName = method'
    at found
  cases found with
  | none => exact pure abreast₁.lifts (.instance_ known same)
  | some method =>
    refine bind (bindMethod abreast₁.lifts known method same) fun abreast₂ bound => ?_
    have grows := abreast₁.grows.trans abreast₂.grows
    have all := all.imp fun _ _ same => same.mono grows
    refine bind (ask abreast₂.lifts (.invoke bound all)) fun abreast₃ _ => ?_
    have grows := abreast₂.grows.trans abreast₃.grows
    exact pure abreast₃.lifts (.instance_ (grows.fields known) (same.mono grows))

/-- A call is checked alike in both runs before it is entered. -/
theorem checked {callee callee' : Value} {arguments arguments' : List Value} {line : Nat} {arity : Nat}
    (lifts : st.Lifts w st') (length : arguments'.length = arguments.length)
    (enters : Eval.Lifts w Value.Lifts (Eval.enter callee arguments line)
      (Eval.enter callee' arguments' line) st.called st'.called) :
    Eval.Lifts w Value.Lifts
      (if arguments.length ≠ arity then
        Eval.fail line (.wrongArgumentCount arity arguments.length)
      else do
        if ← look fun st => decide (st.settings.maxCallDepth ≤ st.callDepth) then
          Eval.fail line .tooManyCalls
        else
          Eval.inCall (Eval.enter callee arguments line))
      (if arguments'.length ≠ arity then
        Eval.fail line (.wrongArgumentCount arity arguments'.length)
      else do
        if ← look fun st => decide (st.settings.maxCallDepth ≤ st.callDepth) then
          Eval.fail line .tooManyCalls
        else
          Eval.inCall (Eval.enter callee' arguments' line)) st st' := by
  rw [length]
  split
  · exact fail lifts _ _
  · refine bind_of_ok rfl rfl lifts.abreast ?_
    simp only [lifts.maxCallDepth, lifts.callDepth]
    split
    · exact fail lifts _ _
    · exact inCall enters

theorem call {callee callee' : Value} {arguments arguments' : List Value} (lifts : st.Lifts w st')
    (line : Nat) (same : callee.Lifts w callee')
    (all : List.Forall₂ (Value.Lifts w) arguments arguments') :
    Eval.Lifts w Value.Lifts (Eval.call callee arguments line) (Eval.call callee' arguments' line)
      st st' := by
  have length := all.length_eq.symm
  cases same with
  | @function _ closure closure' same =>
    have known : Eval.arityOf (.function ‹_› closure') line = Pure.pure closure.arity :=
      congrArg Pure.pure same.arity
    rw [Eval.call, Eval.call, known]
    refine bind_of_ok rfl rfl lifts.abreast (checked lifts length ?_)
    exact ask lifts.called (.invoke same all)
  | native _ native =>
    refine bind_of_ok rfl rfl lifts.abreast (checked lifts length ?_)
    refine map (readClock lifts.called) ?_
    rintro w _ time rfl
    exact .number time
  | @class_ type type' same =>
    have known : Eval.arityOf (.class_ type') line = Pure.pure type.arity :=
      congrArg Pure.pure same.arity
    rw [Eval.call, Eval.call, known]
    refine bind_of_ok rfl rfl lifts.abreast (checked lifts length ?_)
    exact instantiate lifts.called same all
  | _ => exact fail lifts _ _

/-- Arguments are evaluated one after the other. -/
theorem arguments {es es' : List Expr} (lifts : st.Lifts w st')
    (here : w.At gap st.current st'.current) (all : Expr.AllLift gap es es') :
    Eval.Lifts w (fun w => List.Forall₂ (Value.Lifts w)) (Eval.arguments es) (Eval.arguments es')
      st st' := by
  induction es generalizing es' w st st' with
  | nil =>
    cases all
    exact pure lifts .nil
  | cons e rest ih =>
    cases all with
    | cons first all =>
      refine bind (evaluate lifts here first) fun {w₁ st₁ st₁' a a'} abreast same => ?_
      have held := abreast.lifts.push a a'
      refine bind_of_ok rfl rfl ⟨held, .refl w₁, rfl, rfl⟩ ?_
      refine bind (ih held (abreast.here here) all) fun abreast' rest => ?_
      exact pure abreast'.lifts (.cons (same.mono abreast'.grows) rest)

end Eval.Lifts

end Lox
