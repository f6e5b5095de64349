import Lox.Proofs.Session.Joined
import Lox.Proofs.Variation.Renaming

/-!
# Names of local variables do not matter

A source in which a local variable has another name is accepted like the source before, with the same
depths, and does what that one does in any session (`Session.run_renamed`).  The only place where the
name can be seen is the message of an error that says that the variable is undefined, which it is as
long as its initializer is being evaluated (`Renaming.Ends`).
-/

namespace Lox

namespace Renaming

variable (r : Renaming)

/-- How a source ends in which a variable has been renamed: like the source before, but for the name of
an undefined variable. -/
inductive Ends : Except Failure Unit → Except Failure Unit → Prop
  | same (outcome : Except Failure Unit) : Ends outcome outcome
  | undefined (line : Nat) :
      Ends (.error (.stopped (.error ⟨line, .undefinedVariable r.old⟩)))
        (.error (.stopped (.error ⟨line, .undefinedVariable r.new⟩)))

/-- Texts that vary by this renaming, where this is known of each part. -/
def variation (user : ∀ name, Reserved name → r.old ≠ name ∧ r.new ≠ name)
    (Known : Context → Node → Prop) : Variation :=
  { Variation.still Known with old := r.old, new := r.new, user := user }

variable {r} {user : ∀ name, Reserved name → r.old ≠ name ∧ r.new ≠ name}
  {Known : Context → Node → Prop}

theorem ends_of_outcomes {result result' : Except Stop Unit}
    (h : (r.variation user Known).Outcomes result result') :
    r.Ends (result.mapError .stopped) (result'.mapError .stopped) := by
  cases h with
  | ok => exact .same _
  | error varies =>
    cases varies with
    | fault access => exact .same _
    | @error e e' varies =>
      obtain ⟨m, rfl, line⟩ := varies.line
      obtain ⟨line', cause'⟩ := e'
      obtain rfl : line' = e.line := line
      rcases varies.cause.same with same | ⟨old, new⟩
      · obtain rfl : cause' = e.cause := same
        exact .same _
      · obtain ⟨line, cause⟩ := e
        obtain rfl : cause = .undefinedVariable r.old := old
        obtain rfl : cause' = .undefinedVariable r.new := new
        exact .undefined line

end Renaming

theorem Selection.declare_only {path : List Nat} {scopeAt? : List Nat → Option LocalScope}
    {scope : LocalScope} (there : scopeAt? path = some scope) {name : String}
    (declares : scope.Declares name) : (Selection.only path).Declare name scopeAt? := by
  intro path' scope' selected there'
  obtain rfl : path' = path := eq_of_beq selected
  rw [there] at there'
  cases there'
  exact declares

namespace Session

variable {program : List Stmt} {path : List Nat} {scope : LocalScope} {r : Renaming}

/-- A local variable has no reserved word as its name. -/
theorem not_reserved_of_declares (right : ∀ part ∈ Stmt.nodesAll [] program, part.2.Right part.1)
    (there : Stmt.scopeAmong? program path = some scope) {name : String}
    (declares : scope.Declares name) : ¬Reserved name := by
  have names := Stmt.everyAll_of_nodes fun part mem => (right part mem).names
  obtain ⟨declared, user, rfl⟩ := (Stmt.names_of_scopeAmong? names there).exists_of_declares declares
  exact user.not_reserved

/-- **Names of local variables do not matter.**  Take a source that is ready to run, after any history
of a session, and a scope in it, with a `var` or a parameter.  Where the variable gets a name that the
source has nowhere, in its declaration and in the references that are bound to it, what results is
accepted by resolution, and every depth is what it was.  A source that reads as this runs if and only if
the one before does, prints the same and ends in the same way, at the same line; only the name of an
undefined variable may be another. -/
theorem run_renamed {settings : Settings} {sink : Sink} {clock : Clock} {steps : List Step}
    {replies : List Reply} {session : Session}
    (history : (start settings sink clock).Follows steps replies session) {source : String}
    (prepared : prepare source = .ok program)
    (there : Stmt.scopeAmong? program path = some scope) (declares : scope.Declares r.old)
    (spares : ∀ part ∈ Stmt.nodesAll [] program, part.2.Spares r.new) (free : ¬Reserved r.new) :
    let renamed := Stmt.renameAll r (.only path) [] program
    resolveProgram (Stmt.relabelAll .unresolved renamed) = ⟨renamed, []⟩ ∧
    (Stmt.mentionsAll renamed).map Mention.unnamed = (Stmt.mentionsAll program).map Mention.unnamed ∧
    ∀ source', (scan source').errors = [] →
      parseProgram (scan source').tokens = ⟨Stmt.relabelAll .unresolved renamed, []⟩ →
      prepare source' = .ok renamed ∧
      (∀ {fuel outcome after}, session.run fuel source = some (outcome, after) →
        ∃ fuel' outcome' after', session.run fuel' source' = some (outcome', after') ∧
          after'.printed = after.printed ∧ r.Ends outcome outcome') ∧
      (∀ {fuel' outcome'}, session.run fuel' source' = some outcome' →
        ∃ fuel outcome, session.run fuel source = some outcome) := by
  have right := right_of_prepare prepared
  have user (name : String) (reserved : Reserved name) : r.old ≠ name ∧ r.new ≠ name :=
    ⟨fun same => not_reserved_of_declares right there declares (same ▸ reserved),
      fun same => free (same ▸ reserved)⟩
  have stripped := relabelAll_of_prepare prepared
  have placed : Stmt.EveryAll Node.Placed (Stmt.relabelAll .unresolved program) := by
    rw [stripped]
    exact (parsed_parseProgram (names_scan source)).mono fun _ parsed => parsed.placed
  obtain ⟨-, -, resolved⟩ := prepare_eq_ok_iff.mp prepared
  have vary (Known : Context → Node → Prop)
      (known : ∀ part ∈ Stmt.nodesAll [] program, Known part.1 part.2) :
      Stmt.AllVary (r.variation user Known) id .outermost program
        (Stmt.renameAll r (.only path) [] program) :=
    Stmt.allVary_rename (v := r.variation user Known) (p := .outermost)
      (fun part mem => ⟨⟨right part mem, known part mem⟩, spares part mem⟩) placed
      (Selection.declare_only there declares) nofun
  -- To resolve the renamed text it has to be known that the new name is nowhere in the old one.
  have accepted : resolveProgram (Stmt.relabelAll .unresolved (Stmt.renameAll r (.only path) [] program)) =
      ⟨Stmt.renameAll r (.only path) [] program, []⟩ :=
    (vary (fun _ n => n.Spares r.new) spares).resolveProgram
      (fun _ _ part => Node.Names.of_names part.2 fun _ other _ => other.2) placed
      (by rw [stripped, resolved])
  refine ⟨accepted, Stmt.mentionsAll_renameAll _ _ _, fun source' scanned parsed => ?_⟩
  have prepared' : prepare source' = .ok (Stmt.renameAll r (.only path) [] program) :=
    prepare_eq_ok_iff.mpr ⟨scanned, by rw [parsed], by rw [parsed]; exact accepted⟩
  -- A session may have run sources with that name before, of which nothing of the kind is known.
  let v := r.variation user fun _ _ => True
  have varies : session.Varies v session :=
    (varies_start (v := v) settings sink clock).follows rfl
      (fun _ _ _ _ _ prepared part mem => ⟨right_of_prepare prepared part mem, trivial⟩) history
  have plain := plain_of_prepare prepared
  have plain' := plain_of_prepare prepared'
  have vary := vary (fun _ _ => True) fun _ _ => trivial
  refine ⟨prepared', fun ran => ?_, fun {fuel' outcome'} ran => ?_⟩
  · obtain ⟨result, interpreted, rfl⟩ := (run_eq_some_iff prepared).mp ran
    obtain ⟨fuel', result', after', ran', outcomes, varies⟩ :=
      varies.interpret plain plain' rfl vary interpreted
    exact ⟨fuel', _, after', (run_eq_some_iff prepared').mpr ⟨_, ran', rfl⟩, varies.printed,
      Renaming.ends_of_outcomes outcomes⟩
  · obtain ⟨outcome', after'⟩ := outcome'
    obtain ⟨result', ran', -⟩ := (run_eq_some_iff prepared').mp ran
    obtain ⟨fuel, ⟨result, after⟩, ran⟩ := varies.exists_interpret_of_varies plain plain' rfl vary ran'
    exact ⟨fuel, _, (run_eq_some_iff prepared).mpr ⟨_, ran, rfl⟩⟩

/-- A variable of a block gets a name of its own, where a global variable is read before its declaration,
and itself while its initializer is being evaluated. -/
theorem run_renamed_initializer : ∃ session fuel outcome after,
    (start {} .unlimited (.ticking 0)).Follows [⟨0, .run "var a = 1;"⟩] [.ran #[] (.ok ())] session ∧
    session.run fuel "\x7b print a; var b = fun () \x7b return b; \x7d(); \x7d" =
      some (outcome, after) ∧
    after.printed = #["1"] ∧
    (⟨"a", "b"⟩ : Renaming).Ends (.error (.stopped (.error ⟨1, .undefinedVariable "a"⟩))) outcome := by
  have replies : (start {} .unlimited (.ticking 0)).replies? 1000
      [⟨0, .run "var a = 1;"⟩,
        ⟨0, .run "\x7b print a; var a = fun () \x7b return a; \x7d(); \x7d"⟩] =
      some [.ran #[] (.ok ()),
        .ran #["1"] (.error (.stopped (.error ⟨1, .undefinedVariable "a"⟩)))] := by
    decide +kernel
  have prepared := show
    prepare "\x7b print a; var a = fun () \x7b return a; \x7d(); \x7d" = _ by cbv
  obtain ⟨_, history⟩ := exists_follows_of_replies? replies
  cases history with
  | @cons _ session _ _ _ _ _ _ obeyed history =>
    have before := Follows.cons obeyed (.nil session)
    obtain ⟨-, -, renamed⟩ := run_renamed (r := ⟨"a", "b"⟩) before prepared
      (show Stmt.scopeAmong? _ [0] = some _ from rfl)
      (.inr ⟨⟨"a", "a", 1⟩, _, .tail _ (.head _), rfl⟩)
      (by simp [Stmt.nodesAll, Stmt.nodes, Expr.nodes, Expr.nodesAll, Function.nodes, Node.Spares,
        Node.Names, Vocabulary.names]) (by decide)
    obtain ⟨-, ends, -⟩ := renamed
      "\x7b print a; var b = fun () \x7b return b; \x7d(); \x7d" (by decide +kernel) (by cbv)
    obtain ⟨_, after, ran, printed, -⟩ := history.exists_run
    obtain ⟨fuel, outcome', after', ran', same, ends⟩ := ends ran
    exact ⟨session, fuel, outcome', after', before, ran', same.trans printed, ends⟩

end Session

end Lox
