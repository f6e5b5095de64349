import Lox.Proofs.Ideal.ForLoop
import Lox.Proofs.Lifting.ForLoop
import Lox.Proofs.Lifting.Start

/-!
# States that a program cannot tell apart

A state **mirrors** another one if the runs without collections that stand behind them are the same but
for additional frames, none of which lies around the current ones (`State.MirrorsAt`).  A program cannot
tell such states apart (`State.MirrorsAt.looksLike`): it finds the same variables in both, and whatever it
does next prints the same and ends in the same way.
-/

namespace Lox

open Evaluation

/-! ## What a program can tell apart -/

/-- The values are the same, or they are the same object of two runs: the function with the same identity,
name and parameters, the class with the same identity and name, or the instance of the same class that was
made as the same one. -/
inductive Value.Alike : Value → Value → Prop
  | simple {v : Value} (simple : v.IsSimple) : Value.Alike v v
  | native (identity : Identity) (native : Native) :
      Value.Alike (.native identity native) (.native identity native)
  | function (identity : Identity) {c c' : Closure} (name : c'.declaration.name = c.declaration.name)
      (parameters : c'.declaration.parameters = c.declaration.parameters) :
      Value.Alike (.function identity c) (.function identity c')
  | class_ {c c' : Class} (identity : c'.own.identity = c.own.identity) (name : c'.name = c.name) :
      Value.Alike (.class_ c) (.class_ c')
  | instance_ {o o' : Instance} (serial : o'.fields.serial = o.fields.serial)
      (identity : o'.type.own.identity = o.type.own.identity) (name : o'.type.name = o.type.name) :
      Value.Alike (.instance_ o) (.instance_ o')

/-- Statements end alike: normally, with a `return`, or with the same error. -/
inductive EndAlike : Except Stop Flow → Except Stop Flow → Prop
  | normal : EndAlike (.ok .normal) (.ok .normal)
  | returned {v v' : Value} (alike : v.Alike v') : EndAlike (.ok (.returned v)) (.ok (.returned v'))
  | error (stop : Stop) : EndAlike (.error stop) (.error stop)

/-- Where the one looks for a variable, it finds what the other one does. -/
def FindAlike (access access' : Except Dangling (Option Value)) : Prop :=
  ∃ found found', access = .ok found ∧ access' = .ok found' ∧ Option.Rel Value.Alike found found'

/-- A program cannot tell the states apart. -/
structure State.LooksLike (st st' : State) : Prop where
  sink : st'.sink = st.sink
  clock : st'.clock = st.clock
  callDepth : st'.callDepth = st.callDepth
  /-- The variables so many scopes around the current one. -/
  locals : ∀ distance name, FindAlike (st.heap.lookupAt st.current distance name)
    (st'.heap.lookupAt st'.current distance name)
  globals : ∀ name, FindAlike (st.heap.lookup st.globals name) (st'.heap.lookup st'.globals name)
  /-- Whatever is executed next prints the same and ends in the same way. -/
  onward : ∀ s : Stmt, s.Every Node.Plain →
    Corresponds (fun r r' => EndAlike r.result r'.result ∧ r'.state.sink = r.state.sink)
      (evaluation.Answers .flow ⟨.execute s, st⟩) (evaluation.Answers .flow ⟨.execute s, st'⟩)

/-! ## Mirrors -/

/-- Without collections, the states are the same but for additional frames, none of which lies around the
current ones. -/
structure State.MirrorsAt (st st' ideal ideal' : State) (w : Pairing) : Prop where
  represents : st.Represents ideal
  represents' : st'.Represents ideal'
  lifts : ideal.Lifts w ideal'
  here : w.At .nowhere ideal.current ideal'.current

section Values

variable {w : Pairing}

theorem Value.Lifts.instance_eq {o o' : Instance} (h : (Value.instance_ o).Lifts w (.instance_ o')) :
    o'.fields = o.fields ∧ o.type.Lifts w o'.type := by
  cases h with
  | instance_ _ lifts => exact ⟨rfl, lifts⟩

/-- The same values of two runs are alike, at whatever places their objects are. -/
theorem Value.alike_of_lifts {v v' : Value} (h : v.ideal.Lifts w v'.ideal) : v.Alike v' := by
  cases v with
  | nil =>
    cases v' <;> cases h
    exact .simple trivial
  | boolean b =>
    cases v' <;> cases h
    exact .simple trivial
  | number x =>
    cases v' <;> cases h
    exact .simple trivial
  | string s =>
    cases v' <;> cases h
    exact .simple trivial
  | native identity native =>
    cases v' <;> cases h
    exact .native identity native
  | function identity c =>
    cases v' <;> cases h
    rename_i lifts
    obtain ⟨gap, -, declared, -⟩ := lifts.declaration
    exact .function identity declared.name_eq declared.parameters_eq
  | class_ type =>
    cases v' <;> cases h
    rename_i lifts
    exact .class_ lifts.own.identity lifts.own.name
  | instance_ object =>
    cases v' with
    | instance_ object' =>
      obtain ⟨same, lifts⟩ := Lifts.instance_eq h
      have serial : object'.ideal.fields.serial = object.ideal.fields.serial := congrArg _ same
      exact .instance_ serial lifts.own.identity lifts.own.name
    | _ => cases h

/-- What ends as its ideal does ends alike if the ideals do. -/
theorem endAlike_of_lifts {flow flow' ideally ideally' : Flow} (same : ideally = flow.ideal)
    (same' : ideally' = flow'.ideal) (lifts : ideally.Lifts w ideally') :
    EndAlike (.ok flow) (.ok flow') := by
  subst same same'
  cases flow <;> cases flow' <;> cases lifts
  · exact .normal
  · exact .returned (Value.alike_of_lifts ‹_›)

end Values

namespace State.MirrorsAt

variable {st st' ideal ideal' : State} {w : Pairing}

theorem self {st ideal : State} (represents : st.Represents ideal) :
    st.MirrorsAt st ideal ideal st.heap.held :=
  ⟨represents, represents, represents.lifts_self, represents.held_current⟩

theorem sink (h : st.MirrorsAt st' ideal ideal' w) : st'.sink = st.sink :=
  h.represents'.sink.symm.trans (h.lifts.sink.trans h.represents.sink)

/-- What is found in the ideal states was found in the states themselves. -/
theorem findAlike {access access' access₁ access₁' : Except Dangling (Option Value)}
    (found : ∃ found, access = .ok found ∧ access₁ = .ok (found.map Value.ideal) ∧
      ∀ v ∈ found, st.heap.Fits v)
    (found' : ∃ found, access' = .ok found ∧ access₁' = .ok (found.map Value.ideal) ∧
      ∀ v ∈ found, st'.heap.Fits v)
    (same : Accesses (Option.Rel (Value.Lifts w)) access₁ access₁') : FindAlike access access' := by
  obtain ⟨found, rfl, rfl, -⟩ := found
  obtain ⟨found', rfl, rfl, -⟩ := found'
  refine ⟨found, found', rfl, rfl, ?_⟩
  cases same with
  | ok related =>
    cases found <;> cases found' <;> cases related
    · exact .none
    · exact .some (Value.alike_of_lifts ‹_›)

/-- Statements that are executed in mirrored states end alike, in mirrored states. -/
theorem ends (h : st.MirrorsAt st' ideal ideal' w) {r r' i i' : Answer .flow}
    (along : Simulation.FlowsAlong st r i) (lifted : ForLoop.EndsLifted w ideal ideal' i i')
    (along' : Simulation.FlowsAlong st' r' i') :
    EndAlike r.result r'.result ∧ ∃ w₁, r.state.MirrorsAt r'.state i.state i'.state w₁ := by
  obtain ⟨result, left⟩ := r
  obtain ⟨result', left'⟩ := r'
  obtain ⟨ideally, middle⟩ := i
  obtain ⟨ideally', middle'⟩ := i'
  cases lifted with
  | error abreast =>
    cases along with
    | error along =>
      cases along' with
      | error along' =>
        exact ⟨.error _, _, along.represents, along'.represents, abreast.lifts, abreast.here h.here⟩
  | ok abreast lifts =>
    cases along with
    | ok flows =>
      cases along' with
      | ok flows' =>
        refine ⟨?_, _, flows.along.represents, flows'.along.represents, abreast.lifts,
          abreast.here h.here⟩
        exact endAlike_of_lifts flows.same flows'.same lifts

/-- What is executed in mirrored states ends alike. -/
theorem onward (h : st.MirrorsAt st' ideal ideal' w) {s : Stmt} (plain : s.Every Node.Plain) :
    Corresponds (fun r r' => EndAlike r.result r'.result ∧ r'.state.sink = r.state.sink)
      (evaluation.Answers .flow ⟨.execute s, st⟩) (evaluation.Answers .flow ⟨.execute s, st'⟩) := by
  have asked {st ideal : State} (represents : st.Represents ideal) :
      Simulation.Asked .any .flow ⟨.execute s, st⟩ ⟨.execute s, ideal⟩ :=
    ⟨rfl, represents, plain, nofun, trivial⟩
  have lifted : Lifting.AskedAt w .flow ⟨.execute s, ideal⟩ ⟨.execute s, ideal'⟩ :=
    ⟨h.lifts, .execute h.here s.lifts_nowhere⟩
  have inStep := evaluationWith_inStep Along.collectIfDue .any
  have leads := (Rules.corresponds inStep (asked h.represents)).trans
    (Rules.corresponds Lifting.evaluation_inStep ⟨w, lifted⟩)
  refine (leads.trans (Rules.corresponds inStep (asked h.represents')).symm).mono ?_
  rintro r r' ⟨i', ⟨i, along, answered⟩, along'⟩
  obtain ⟨alike, _, after⟩ := h.ends along.flowsAlong (answered w lifted) along'.flowsAlong
  exact ⟨alike, after.sink⟩

/-- **A program cannot tell mirrored states apart.** -/
theorem looksLike (h : st.MirrorsAt st' ideal ideal' w) : st.LooksLike st' where
  sink := h.sink
  clock := h.represents'.clock.symm.trans (h.lifts.clock.trans h.represents.clock)
  callDepth := h.represents'.callDepth.symm.trans (h.lifts.callDepth.trans h.represents.callDepth)
  locals distance name := by
    have found {st ideal : State} (represents : st.Represents ideal) :=
      represents.heap.lookupAt represents.valid.heap represents.valid.hasCurrent distance name
    have same := h.lifts.heap.lookupAt h.here distance name
    rw [h.represents.current, h.represents'.current] at same
    exact findAlike (found h.represents) (found h.represents') same
  globals name := by
    have found {st ideal : State} (represents : st.Represents ideal) :=
      represents.heap.lookup represents.valid.heap name
    have same := h.lifts.heap.lookup h.lifts.globals name
    rw [h.represents.globals, h.represents'.globals] at same
    exact findAlike (found h.represents) (found h.represents') same
  onward _ plain := h.onward plain

end State.MirrorsAt

end Lox
