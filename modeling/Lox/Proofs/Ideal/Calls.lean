import Lox.Proofs.Ideal.Actions

/-!
# Calls in step with their ideals

A call runs the body of a function in a frame of its own.  What becomes of that frame matters twice
over when it is left: an initializer comes to the object that the frame around it binds `this` to, and
whoever asked for the call may go on to use that object.  Neither is held on to.  Both can be got at
from the frame of the call, which is among the roots until the call is over, and the frame around a
frame never changes (`Heap.Leads`).
-/

namespace Lox

/-- The parameters of a plain function have other names than `this`. -/
theorem Closure.IsPlain.parameters {c : Closure} (h : c.IsPlain) :
    ∀ name ∈ c.declaration.parameters, name.lexeme ≠ thisName :=
  (Function.Every.self h).2

theorem Closure.IsPlain.body {c : Closure} (h : c.IsPlain) :
    Stmt.EveryAll Node.Plain c.declaration.body := by
  obtain ⟨⟨name, parameters, body⟩, frame, isInitializer⟩ := c
  exact h.2

namespace Heap

/-- The frame is there, and `outer` is the frame around it. -/
def Encloses (heap : Heap) (outer ref : FrameRef) : Prop :=
  ∃ frame, heap.HoldsFrame ref frame ∧ frame.enclosing = some outer

theorem Encloses.has {heap : Heap} {outer ref : FrameRef} (h : heap.Encloses outer ref)
    (sound : heap.Sound) : heap.Has (.frame outer) := by
  obtain ⟨frame, holds, within⟩ := h
  exact sound.has_enclosing holds within

end Heap

namespace Heap.Leads

variable {before after : Heap} {ref : FrameRef} {frame : Frame}

/-- A frame that is there before and after has the same frame around it. -/
theorem enclosing (h : before.Leads after) (frames : before.frames.Sound)
    (there : before.HoldsFrame ref frame) (has : after.Has (.frame ref)) :
    ∃ frame', after.HoldsFrame ref frame' ∧ frame'.enclosing = frame.enclosing ∧
      ∀ value, frame.bindings.find? thisName = some value →
        frame'.bindings.find? thisName = some value := by
  obtain ⟨frame', holds⟩ := has
  obtain ⟨old, held, enclosing, this⟩ := h.frame holds (frames.serial_lt there)
  obtain rfl := held.eq there
  exact ⟨frame', holds, enclosing, this⟩

theorem encloses {outer : FrameRef} (h : before.Leads after) (frames : before.frames.Sound)
    (there : before.Encloses outer ref) (has : after.Has (.frame ref)) :
    after.Encloses outer ref := by
  obtain ⟨frame, holds, within⟩ := there
  obtain ⟨frame', holds', same, -⟩ := h.enclosing frames holds has
  exact ⟨frame', holds', same.trans within⟩

end Heap.Leads

namespace Eval.Simulates

open Simulation

variable {fact : Lasting} {base st ideal : State}

/-- Parameters are bound in a frame, which stays where it is. -/
theorem bindParameters {ref : FrameRef} {pairs : List (Ident × Value)}
    (along : Along base st ideal) (there : st.heap.Has (.frame ref))
    (fits : ∀ pair ∈ pairs, st.heap.Fits pair.2)
    (ne : ∀ pair ∈ pairs, pair.1.lexeme ≠ thisName) :
    Simulates fact (Along base)
      (fun _ st' _ ideal' => Along base st' ideal' ∧ st.heap.Leads st'.heap ∧
        ∀ object, st.heap.Has object → st'.heap.Has object)
      (Eval.bindParameters ref pairs)
      (Eval.bindParameters ref.ideal (pairs.map (Prod.map id Value.ideal)))
      st ideal := by
  induction pairs generalizing st ideal with
  | nil => exact pure ⟨along, .refl _, fun _ has => has⟩
  | cons pair rest ih =>
    obtain ⟨parameter, v⟩ := pair
    refine bind (defineIn along there (fits _ List.mem_cons_self) (ne _ List.mem_cons_self)) ?_
    rintro - st₁ - ideal₁ ⟨along, -, leads, stays⟩
    have fits' : ∀ pair ∈ rest, st₁.heap.Fits pair.2 := fun pair mem =>
      (fits pair (List.mem_cons_of_mem _ mem)).mono stays
    refine (ih along (stays _ there) fits' fun pair mem => ne pair (List.mem_cons_of_mem _ mem)).mono
      (fun _ _ left => left) ?_
    rintro - st₂ - ideal₂ ⟨along, leads', stays'⟩
    exact ⟨along, leads.trans leads', fun o has => stays' o (stays o has)⟩

theorem sequence {body : List Stmt} (along : Along base st ideal) (here : fact.holds base)
    (plain : Stmt.EveryAll Node.Plain body) :
    Simulates fact (Along base) (Flows base) (Eval.sequence body) (Eval.sequence body) st ideal := by
  induction body generalizing st ideal with
  | nil => exact pure ⟨rfl, along, fun v same => by cases same⟩
  | cons s rest ih =>
    refine bind (execute along here plain.1) ?_
    rintro flow st₁ _ ideal₁ ⟨rfl, along, fits⟩
    cases flow with
    | normal => exact ih along plain.2
    | returned v => exact pure ⟨rfl, along, fits⟩

/-- The frame around that of a call is still on the heap when the call is over.  It is the frame of
the call that tasks are asked for in. -/
theorem invoke {closure : Closure} {arguments : List Value} (along : Along base st ideal)
    (inside : ∀ {ref st'}, base.Keeps st' → st'.Valid → st'.heap.Encloses closure.frame ref →
      fact.holds (st'.inside ref))
    (fits : st.heap.FitsClosure closure) (given : ∀ v ∈ arguments, st.heap.Fits v) :
    Simulates fact (Along base)
      (fun v st' v' ideal' => Gives base v st' v' ideal' ∧ st'.heap.Has (.frame closure.frame))
      (Eval.invoke closure arguments)
      (Eval.invoke closure.ideal (arguments.map Value.ideal)) st ideal := by
  refine bind (newFrame along fits.there) ?_
  rintro ref st₁ _ ideal₁ ⟨rfl, along, -, held, -, stays⟩
  have frames₁ := along.represents.valid.heap.sound.frames
  have fits₁ : ∀ pair ∈ closure.declaration.parameters.zip arguments, st₁.heap.Fits pair.2 :=
    fun pair mem => (given _ (List.of_mem_zip mem).2).mono stays
  have ne₁ : ∀ pair ∈ closure.declaration.parameters.zip arguments, pair.1.lexeme ≠ thisName :=
    fun pair mem => fits.plain.parameters _ (List.of_mem_zip mem).1
  have bound : Simulates fact (Along base) _ _ _ st₁ ideal₁ :=
    bindParameters along ⟨_, held⟩ fits₁ ne₁
  rw [← List.zip_map_right] at bound
  refine bind bound ?_
  rintro - st₂ - ideal₂ ⟨along, leads, stays'⟩
  have there : st₂.heap.Has (.frame ref) := stays' _ ⟨_, held⟩
  have encloses := leads.encloses frames₁ ⟨_, held, rfl⟩ there
  refine bind (inFrame along there fun start =>
    sequence start (inside along.keeps along.represents.valid encloses) fits.plain.body) ?_
  rintro flow st₃ _ ideal₃ ⟨⟨rfl, along, fitsFlow⟩, leads', there'⟩
  have rep := along.represents
  have valid := rep.valid
  -- The frame of the call leads to it, and that frame is never given up during the call.
  have outside : st₃.heap.Has (.frame closure.frame) :=
    ((leads.trans leads').encloses frames₁ ⟨_, held, rfl⟩ there').has valid.heap.sound
  cases init : closure.isInitializer with
  | true =>
    obtain ⟨found, here, there, fits⟩ := rep.heap.lookupAt valid.heap outside 0 thisName
    simp only [init, Closure.ideal, if_true]
    refine bind_of_ok (inspect_of_ok here) (inspect_of_ok there) (pure ⟨?_, outside⟩)
    cases found with
    | none => exact ⟨rfl, along, .of_isSimple _ trivial⟩
    | some v => exact ⟨rfl, along, fits v rfl⟩
  | false =>
    simp only [init, Closure.ideal, Bool.false_eq_true, if_false]
    cases flow with
    | normal => exact pure ⟨⟨rfl, along, .of_isSimple _ trivial⟩, outside⟩
    | returned v => exact pure ⟨⟨rfl, along, fitsFlow v rfl⟩, outside⟩

theorem arityOf {callee : Value} {line : Nat} (along : Along base st ideal) :
    Simulates fact (Along base) (fun n st' n' ideal' => n' = n ∧ st' = st ∧ ideal' = ideal)
      (Eval.arityOf callee line) (Eval.arityOf callee.ideal line) st ideal := by
  cases callee with
  | function _ _ => exact pure ⟨rfl, rfl, rfl⟩
  | native _ _ => exact pure ⟨rfl, rfl, rfl⟩
  | class_ type => exact pure ⟨type.arity_ideal, rfl, rfl⟩
  | _ => exact fail along

/-- The object that an initializer sets up is bound in the frame around it, which is still on the heap
when the initializer is over. -/
theorem instantiate {type : Class} {arguments : List Value} (along : Along base st ideal)
    (here : fact.holds base) (fits : st.heap.Fits (.class_ type))
    (given : ∀ v ∈ arguments, st.heap.Fits v)
    (held : ∀ v ∈ arguments, v ∈ base.temporaries.toList) :
    Simulates fact (Along base) (Gives base) (Eval.instantiate type arguments)
      (Eval.instantiate type.ideal (arguments.map Value.ideal)) st ideal := by
  refine bind (newInstance along) ?_
  rintro ref st₁ _ ideal₁ ⟨rfl, along, there, stays⟩
  have fits₁ : st₁.heap.Fits (.instance_ ⟨ref, type⟩) :=
    Heap.fits_instance.mpr ⟨there, fits.mono stays⟩
  rw [type.findMethod?_ideal]
  cases found : type.findMethod? initializerName with
  | none => exact pure ⟨rfl, along, fits₁⟩
  | some initializer =>
    refine bind (bindMethod along (.of_findMethod? (fits.mono stays) found) fits₁) ?_
    rintro bound st₂ _ ideal₂ ⟨rfl, along, fitsBound, ⟨frame, holds, this⟩, stays'⟩
    have frames₂ := along.represents.valid.heap.sound.frames
    have given₂ : ∀ v ∈ arguments, st₂.heap.Fits v :=
      fun v mem => ((given v mem).mono stays).mono stays'
    have fits₂ : (Task.invoke bound arguments).Fits st₂.heap := ⟨fitsBound, given₂⟩
    refine bind (askValue along here fits₂ (along.keeps.exact ▸ held)) ?_
    rintro v st₃ _ ideal₃ ⟨⟨-, along, -⟩, since, stay⟩
    have there' : st₃.heap.Has (.frame bound.frame) := stay _ List.mem_cons_self
    obtain ⟨frame', holds', -, this'⟩ := since.keeps.heap.enclosing frames₂ holds there'
    exact pure ⟨rfl, along, along.represents.valid.heap.fits_variable holds' (this' _ this)⟩

theorem enter {callee : Value} {arguments : List Value} {line : Nat} (along : Along base st ideal)
    (here : fact.holds base) (fits : st.heap.Fits callee) (given : ∀ v ∈ arguments, st.heap.Fits v)
    (held : ∀ v ∈ arguments, v ∈ base.temporaries.toList) :
    Simulates fact (Along base) (Gives base) (Eval.enter callee arguments line)
      (Eval.enter callee.ideal (arguments.map Value.ideal) line) st ideal := by
  cases callee with
  | function _ closure =>
    have fits : (Task.invoke closure arguments).Fits st.heap := ⟨Heap.fits_function.mp fits, given⟩
    exact (askValue along here fits (along.keeps.exact ▸ held)).mono (fun _ _ left => left)
      fun _ _ _ _ post => post.1
  | native _ native =>
    refine map (readClock along) ?_
    rintro time st' _ ideal' ⟨rfl, along⟩
    exact ⟨rfl, along, .of_isSimple _ trivial⟩
  | class_ type => exact instantiate along here fits given held
  | _ => exact fail along

theorem call {callee : Value} {arguments : List Value} {line : Nat} (along : Along base st ideal)
    (here : fact.holds base) (fits : st.heap.Fits callee) (given : ∀ v ∈ arguments, st.heap.Fits v)
    (held : ∀ v ∈ arguments, v ∈ base.temporaries.toList) :
    Simulates fact (Along base) (Gives base) (Eval.call callee arguments line)
      (Eval.call callee.ideal (arguments.map Value.ideal) line) st ideal := by
  refine bind (arityOf along) ?_
  rintro _ st arity ideal ⟨rfl, rfl, rfl⟩
  have rep := along.represents
  rw [List.length_map]
  split
  · exact fail along
  · refine bind_of_ok rfl rfl ?_
    simp only [rep.maxCallDepth, rep.callDepth]
    split
    · exact fail along
    · have here := fact.stays (along.keeps.since.trans st.since_called) here
      exact inCall along fun start => enter start here fits given (along.keeps.exact ▸ held)

end Eval.Simulates

end Lox
