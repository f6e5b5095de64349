import Lox.Proofs.Ideal.Start
import Lox.Proofs.Lifting.Desugaring
import Lox.Proofs.Lifting.Mirror
import Lox.Session
import Mathlib

/-!
# The `for` loop

The syntax has no `for` loops; the parser puts blocks and a `while` loop in their place, and resolution
counts the scopes that this adds.  What is executed in the end does what a `for` loop does
(`ForLoop.corresponds_desugared`): in one frame for the whole loop, what there is to start with is executed
once, and then one turn follows the other (`ForLoop.Runs`).

The proof leaves collections aside first, as both runs have an ideal (`ForLoop.runs_along`), then the frames
that the parser's blocks add at each turn (`ForLoop.runs_lift`).  What remains is read off the rules
(`ForLoop.answers_desugared`).
-/

namespace Lox.ForLoop

open Evaluation

variable {loop : ForLoop} {st : State}

/-- A loop and what the parser builds for it end in the same way, in the frame where they began, and in
states that a program cannot tell apart. -/
structure EndsAlike (st : State) (r r' : Answer .flow) : Prop where
  result : EndAlike r.result r'.result
  current : r.state.current = st.current
  current' : r'.state.current = st.current
  states : r.state.LooksLike r'.state

/-- **What the parser builds for a `for` loop is a `for` loop.**  The loop runs to an end if and only if the
statement that the parser builds for it does, and they end alike: with the same output, in the same way, and
with the same bindings.  A sink that takes so many lines and no more makes either run end, so that the output
is also the same where they go on forever.

Every `for` that the parser reads is such a loop (`Parser.yields_desugared`).  The frame of the loop may be
said to be made for any construct, since nothing that runs looks at it. -/
theorem corresponds_desugared (parsed : loop.Parsed) {resolver : Resolver}
    (stands : resolver.standing.AtStatements) (valid : st.Valid) (construct : Construct) :
    Corresponds (EndsAlike st) (Runs evaluation construct (loop.resolve.run resolver).1 st)
      (evaluation.Answers .flow ⟨.execute (loop.desugared.resolve.run resolver).1, st⟩) := by
  obtain ⟨ideal, represents⟩ := valid.exists_represents
  have mirrors := State.MirrorsAt.self represents
  obtain ⟨loop', lifts, resolved⟩ := lifts_resolve parsed stands
  have along := runs_along (plain_resolve parsed resolver) represents construct
  have lifted := runs_lift lifts mirrors.lifts mirrors.here construct loop'.scope
  have plain := plain_desugared parsed resolver
  rw [resolved] at plain ⊢
  have asked : Simulation.Asked .any .flow ⟨.execute loop'.desugared, st⟩
      ⟨.execute loop'.desugared, ideal⟩ :=
    ⟨rfl, represents, plain, nofun, trivial⟩
  have built : Corresponds (Simulation.FlowsAlong st)
      (evaluation.Answers .flow ⟨.execute loop'.desugared, st⟩)
      (Runs (evaluationWith id) loop'.scope loop'.plain ideal) := by
    have answers := (Rules.corresponds (evaluationWith_inStep Along.collectIfDue .any) asked).mono
      fun _ _ answered => answered.flowsAlong
    exact ⟨fun known => (answers.forth known).imp fun _ h => h.imp_left (answers_desugared loop').mp,
      fun runs => answers.back ((answers_desugared loop').mpr runs)⟩
  refine ((along.trans lifted).trans built.symm).mono ?_
  rintro r r' ⟨i', ⟨i, along, lifted⟩, along'⟩
  obtain ⟨alike, _, after⟩ := mirrors.ends along lifted along'
  exact ⟨alike, along.along.keeps.current, along'.along.keeps.current, after.looksLike⟩

/-- A loop whose body makes a function that mentions the variable of the loop:
`for (var go = true; go; go = false) show = fun () { print go; };` -/
def showing : ForLoop where
  initial := some (.var ⟨"go", "go", 1⟩ (some (.literal (.boolean true))))
  condition := some (.variable_ ⟨⟨"go", "go", 1⟩, none⟩)
  increment := some (.assign ⟨⟨"go", "go", 1⟩, none⟩ (.literal (.boolean false)))
  body := .expression (.assign ⟨⟨"show", "show", 1⟩, none⟩
    (.function ⟨.anonymous 1, [], [.print 1 (.variable_ ⟨⟨"go", "go", 1⟩, none⟩)]⟩))

theorem parsed_showing : showing.Parsed := by
  have go : UserName ⟨"go", "go", 1⟩ := ⟨by decide, by decide⟩
  have shown : UserName ⟨"show", "show", 1⟩ := ⟨by decide, by decide⟩
  have nameless : (∀ name : Ident, FunctionName.anonymous 1 = .named name → UserName name) ∧
      ∀ name ∈ ([] : List Ident), UserName name :=
    ⟨fun _ same => (by cases same), fun _ mem => (by cases mem)⟩
  have part {n : Node} (leveled : n.Leveled) (placed : n.Placed) (unresolved : n.Unresolved)
      (names : n.Names .scanned) : n.Parsed .scanned := ⟨leveled, placed, unresolved, names⟩
  refine ⟨⟨?_, ?_, ?_, ?_⟩, rfl⟩
  · rintro _ ⟨rfl⟩
    exact ⟨part trivial trivial trivial go, part trivial trivial trivial trivial⟩
  · rintro _ ⟨rfl⟩
    exact part trivial trivial rfl go
  · rintro _ ⟨rfl⟩
    exact ⟨part trivial trivial rfl go, part trivial trivial trivial trivial⟩
  · exact ⟨part trivial trivial trivial trivial, part trivial trivial rfl shown,
      part trivial rfl trivial trivial, part trivial trivial trivial nameless,
      ⟨part trivial trivial trivial trivial, part trivial trivial rfl go⟩, trivial⟩

/-- The state with one more global variable. -/
def declaring (st : State) (name : String) : State :=
  { st with heap := st.heap.bindVariable st.globals name .nil }

theorem valid_declaring (valid : st.Valid) {name : String} (ne : name ≠ thisName) :
    (declaring st name).Valid := by
  obtain ⟨ideal, represents⟩ := valid.exists_represents
  obtain ⟨frame, holds⟩ := valid.heap.hasGlobals
  have fits : st.heap.Fits .nil := .of_isSimple _ trivial
  exact (represents.along.bindVariable holds fits ne).represents.valid

/-- The function is called after the loop, and prints what the increment has left: it has the variable of
the loop. -/
theorem corresponds_desugared_showing : ∃ st r r' q,
    st = declaring (State.start {} .unlimited (.ticking 0)) "show" ∧
      Session.prepare "for (var go = true; go; go = false) show = fun () \x7b print go; \x7d;" =
        .ok [(showing.desugared.resolve.run .start).1] ∧
      Runs evaluation .program (showing.resolve.run .start).1 st r ∧
      evaluation.Answers .flow ⟨.execute (showing.desugared.resolve.run .start).1, st⟩ r' ∧
      EndsAlike st r r' ∧
      evaluation.Answers .flow
        ⟨.execute (.expression (.call (.variable_ ⟨⟨"show", "show", 2⟩, none⟩) [] 2)), r.state⟩ q ∧
      q.state.sink.printed = #["false"] := by
  have prepared :
      Session.prepare "for (var go = true; go; go = false) show = fun () \x7b print go; \x7d;" =
        .ok [(showing.desugared.resolve.run .start).1] := by cbv
  let st := declaring (State.start {} .unlimited (.ticking 0)) "show"
  have valid : st.Valid :=
    valid_declaring (State.represents_start rfl .unlimited (.ticking 0)).valid (by decide)
  let calling : Stmt := .expression (.call (.variable_ ⟨⟨"show", "show", 2⟩, none⟩) [] 2)
  have found : (evaluation.solve 40 .flow
      ⟨.execute (showing.desugared.resolve.run .start).1, st⟩).any (fun r' =>
        (evaluation.solve 40 .flow ⟨.execute calling, r'.state⟩).any fun q' =>
          decide (q'.state.sink.printed = #["false"])) = true := by decide +kernel
  obtain ⟨r', known', found⟩ := (Option.any_eq_true _ _).mp found
  obtain ⟨q', called, printed⟩ := (Option.any_eq_true _ _).mp found
  have stands : Resolver.start.standing.AtStatements := fun _ mem => by cases mem
  have same := corresponds_desugared parsed_showing stands valid .program
  obtain ⟨r, runs, alike⟩ := same.back ⟨40, known'⟩
  have plain : calling.Every Node.Plain :=
    ⟨trivial, trivial, (by decide : "show" ≠ thisName), trivial⟩
  obtain ⟨q, known, -, sink⟩ := (alike.states.onward calling plain).back ⟨40, called⟩
  exact ⟨st, r, r', q, rfl, prepared, runs, ⟨40, known'⟩, alike, known,
    (congrArg Sink.printed sink).symm.trans (of_decide_eq_true printed)⟩

end Lox.ForLoop
