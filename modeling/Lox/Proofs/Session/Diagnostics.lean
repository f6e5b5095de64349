import Lox.CommandLine
import Lox.Proofs.Session.History

/-!
# What is reported of a malformed source

Scanning and parsing find their errors one after the other, and the parser does not even find its own in
the order of the lines: that something cannot be assigned to shows only behind the value.  A source that
is not well formed is reported on by line.  Which of two errors on one line comes first is settled too
(`SyntaxError.Merged`), so there is one list that a report can be (`SyntaxError.Merged.unique`), and
sorting comes to it because it is stable.

Showing the tree of a source reports the same errors, but as they are found
(`Session.diagnostics_of_run`).
-/

namespace Lox

/-- An error that shows in the text of a source. -/
inductive SyntaxError where
  | scan (error : ScanError)
  | parse (error : ParseError)

namespace SyntaxError

/-- The line of an error. -/
def line : SyntaxError → Nat
  | scan error => error.line
  | parse error => error.line

/-- An error as it is reported. -/
def text : SyntaxError → String
  | scan error => error.text
  | parse error => error.text

/-- The errors of both stages as they are found. -/
def found (scanned : List ScanError) (parsed : List ParseError) : List SyntaxError :=
  scanned.map scan ++ parsed.map parse

/-- These are the errors of both stages, by line.  On each line, those of scanning come first, and those
of one stage are in the order in which it found them. -/
structure Merged (scanned : List ScanError) (parsed : List ParseError) (errors : List SyntaxError) :
    Prop where
  complete : errors.Perm (found scanned parsed)
  ascending : errors.Pairwise (·.line ≤ ·.line)
  onLine (n : Nat) : errors.filter (·.line = n) =
    (scanned.filter (·.line = n)).map scan ++ (parsed.filter (·.line = n)).map parse

/-! ## One order -/

variable {errors errors' : List SyntaxError} {scanned : List ScanError} {parsed : List ParseError}

/-- A list by line is settled by what it has on each line. -/
theorem eq_of_onLine (ascending : errors.Pairwise (·.line ≤ ·.line))
    (ascending' : errors'.Pairwise (·.line ≤ ·.line))
    (same : ∀ n, errors.filter (·.line = n) = errors'.filter (·.line = n)) : errors = errors' := by
  induction errors generalizing errors' with
  | nil =>
    cases errors' with
    | nil => rfl
    | cons first' rest' => simpa using same first'.line
  | cons first rest ih =>
    cases errors' with
    | nil => simpa using same first.line
    | cons first' rest' =>
      -- Each of the two first errors is in the other list too, so neither is on an earlier line.
      have here : first ∈ (first' :: rest').filter (·.line = first.line) := by simp [← same]
      have here' : first' ∈ (first :: rest).filter (·.line = first'.line) := by simp [same]
      have lines : first.line = first'.line := by
        rw [List.mem_filter, List.mem_cons] at here here'
        rw [List.pairwise_cons] at ascending ascending'
        rcases here.1 with rfl | behind
        · rfl
        rcases here'.1 with rfl | behind'
        · rfl
        exact Nat.le_antisymm (ascending.1 _ behind') (ascending'.1 _ behind)
      have firsts := same first.line
      simp only [List.filter_cons, lines, decide_true, if_true, List.cons.injEq] at firsts
      obtain ⟨rfl, -⟩ := firsts
      rw [ih ascending.of_cons ascending'.of_cons fun n => ?_]
      have rests := same n
      simp only [List.filter_cons] at rests
      split at rests
      · exact (List.cons.inj rests).2
      · exact rests

/-- There is one list in which all errors are in order. -/
theorem Merged.unique (h : Merged scanned parsed errors) (h' : Merged scanned parsed errors') :
    errors = errors' :=
  eq_of_onLine h.ascending h'.ascending fun n => (h.onLine n).trans (h'.onLine n).symm

/-- The errors by line.  Those on the same line stay in their order. -/
def byLine (errors : List SyntaxError) : List SyntaxError := errors.mergeSort (·.line ≤ ·.line)

theorem pairwise_byLine (errors : List SyntaxError) : (byLine errors).Pairwise (·.line ≤ ·.line) := by
  have sorted : (byLine errors).Pairwise fun a b => decide (a.line ≤ b.line) = true :=
    List.pairwise_mergeSort (fun a b c first second => by simp only [decide_eq_true_eq] at *; omega)
      (fun a b => by simp only [Bool.or_eq_true, decide_eq_true_eq]; omega) errors
  exact sorted.imp of_decide_eq_true

theorem filter_byLine (errors : List SyntaxError) (n : Nat) :
    (byLine errors).filter (·.line = n) = errors.filter (·.line = n) := by
  have level : (errors.filter (·.line = n)).Pairwise fun a b => decide (a.line ≤ b.line) = true := by
    refine List.pairwise_of_forall_mem_list fun a ha b hb => ?_
    have here := (List.mem_filter.mp ha).2
    have here' := (List.mem_filter.mp hb).2
    simp only [decide_eq_true_eq] at *
    omega
  have kept : (errors.filter (·.line = n)).Sublist (byLine errors) :=
    List.sublist_mergeSort (fun a b c first second => by simp only [decide_eq_true_eq] at *; omega)
      (fun a b => by simp only [Bool.or_eq_true, decide_eq_true_eq]; omega) level List.filter_sublist
  have among := kept.filter (·.line = n)
  rw [List.filter_filter, List.filter_congr fun _ _ => Bool.and_self _] at among
  have count := ((List.mergeSort_perm errors (·.line ≤ ·.line)).filter (·.line = n)).length_eq
  exact (among.eq_of_length count.symm).symm

theorem merged_byLine (scanned : List ScanError) (parsed : List ParseError) :
    Merged scanned parsed (byLine (found scanned parsed)) where
  complete := List.mergeSort_perm _ _
  ascending := pairwise_byLine _
  onLine n := by
    rw [filter_byLine, found, List.filter_append, List.filter_map, List.filter_map]
    rfl

theorem map_text_found (scanned : List ScanError) (parsed : List ParseError) :
    (found scanned parsed).map text =
      scanned.map ScanError.text ++ parsed.map ParseError.text := by
  rw [found, List.map_append, List.map_map, List.map_map]
  rfl

end SyntaxError

/-- What is reported of a malformed source are its errors by line. -/
theorem Failure.malformedTexts_eq (scanned : List ScanError) (parsed : List ParseError) :
    malformedTexts scanned parsed =
      (SyntaxError.byLine (SyntaxError.found scanned parsed)).map SyntaxError.text := by
  have texts : scanned.map (fun e => (e.line, e.text)) ++ parsed.map (fun e => (e.line, e.text)) =
      (SyntaxError.found scanned parsed).map fun e => (e.line, e.text) := by
    rw [SyntaxError.found, List.map_append, List.map_map, List.map_map]
    rfl
  have sorted : (SyntaxError.byLine (SyntaxError.found scanned parsed)).map (fun e => (e.line, e.text)) =
      ((SyntaxError.found scanned parsed).map fun e => (e.line, e.text)).mergeSort
        fun a b => a.1 ≤ b.1 :=
    List.map_mergeSort fun _ _ _ _ => rfl
  simp only [malformedTexts]
  rw [texts, ← sorted, List.map_map]
  rfl

/-- There is one list of the errors in order, and it is reported. -/
theorem Failure.diagnostics_malformed (scanned : List ScanError) (parsed : List ParseError) :
    ∃ errors, (∀ others, SyntaxError.Merged scanned parsed others ↔ others = errors) ∧
      (malformed scanned parsed).diagnostics = errors.map SyntaxError.text := by
  have merged := SyntaxError.merged_byLine scanned parsed
  refine ⟨_, fun others => ⟨fun h => h.unique merged, ?_⟩, malformedTexts_eq scanned parsed⟩
  rintro rfl
  exact merged

/-! ## Two ways to the errors of a source -/

namespace CommandLine

variable (options : Options) (source : String)

theorem dump_showTree : (dump { options with showTree := true } source).diagnostics =
    (scan source).errors.map ScanError.text ++
      (parseProgram (scan source).tokens).errors.map ParseError.text := rfl

theorem code_dump : (dump options source).code =
    if (dump options source).diagnostics = [] then 0 else Failure.staticExitCode := rfl

/-- With its tree, the errors of a source are shown as they are found. -/
theorem perm_dump : (dump { options with showTree := true } source).diagnostics.Perm
    (Failure.malformed (scan source).errors (parseProgram (scan source).tokens).errors).diagnostics := by
  rw [dump_showTree, ← SyntaxError.map_text_found, Failure.diagnostics, Failure.malformedTexts_eq]
  exact ((SyntaxError.merged_byLine _ _).complete.map _).symm

end CommandLine

namespace Session

variable {session later : Session} {fuel : Nat} {source : String} {scanned : List ScanError}
  {parsed : List ParseError}

/-- A source is malformed if one of the stages has found an error in it, and then both are heard. -/
theorem prepare_eq_malformed_iff : prepare source = .error (.malformed scanned parsed) ↔
    scanned = (scan source).errors ∧ parsed = (parseProgram (scan source).tokens).errors ∧
      ¬(scanned = [] ∧ parsed = []) := by
  simp only [prepare]
  split
  · rename_i clean
    constructor
    · intro same
      split at same <;> cases same
    · rintro ⟨rfl, rfl, faulty⟩
      exact absurd clean faulty
  · rename_i faulty
    constructor
    · intro same
      cases same
      exact ⟨rfl, rfl, faulty⟩
    · rintro ⟨rfl, rfl, -⟩
      rfl

/-- Nothing runs of a source that is malformed, and what runs does not turn out to be. -/
theorem prepare_of_run (ran : session.run fuel source = some (.error (.malformed scanned parsed), later)) :
    prepare source = .error (.malformed scanned parsed) := by
  cases prepared : prepare source with
  | error failure =>
    rw [run_of_error prepared] at ran
    cases ran
    rfl
  | ok program =>
    rw [run_of_ok prepared] at ran
    obtain ⟨⟨result, after⟩, -, same⟩ := Option.map_eq_some_iff.mp ran
    cases result <;> cases same

/-- **No error in the text of a source is lost or misplaced.**  A source that is rejected for such errors
is reported on with all of them, in the one order that `SyntaxError.Merged` allows, and showing its tree
reports the same ones.  For a source that is not rejected for them, nothing is reported there. -/
theorem diagnostics_of_run (session : Session) (source : String) (fuel fuel' : Nat) (clock : Clock)
    (options : CommandLine.Options) :
    ∃ exit, CommandLine.withScript { options with showTree := true } clock fuel' source = some exit ∧
      match session.run fuel source with
      | some (.error (.malformed scanned parsed), _) =>
          scanned = (scan source).errors ∧ parsed = (parseProgram (scan source).tokens).errors ∧
          (∃ errors, (∀ others, SyntaxError.Merged scanned parsed others ↔ others = errors) ∧
            (Failure.malformed scanned parsed).diagnostics = errors.map SyntaxError.text) ∧
          (Failure.malformed scanned parsed).text =
            "\n".intercalate (Failure.malformed scanned parsed).diagnostics ∧
          exit.diagnostics.Perm (Failure.malformed scanned parsed).diagnostics ∧ exit.code = 65
      | _ => exit.diagnostics = [] ∧ exit.code = 0 := by
  refine ⟨_, if_pos (.inr rfl), ?_⟩
  split
  · rename_i scanned parsed later ran
    obtain ⟨rfl, rfl, faulty⟩ := prepare_eq_malformed_iff.mp (prepare_of_run ran)
    have shown : (CommandLine.dump { options with showTree := true } source).diagnostics ≠ [] := by
      rw [CommandLine.dump_showTree, Ne, List.append_eq_nil_iff, List.map_eq_nil_iff, List.map_eq_nil_iff]
      exact faulty
    refine ⟨rfl, rfl, Failure.diagnostics_malformed _ _, rfl, CommandLine.perm_dump options source, ?_⟩
    rw [CommandLine.code_dump, if_neg shown, Failure.staticExitCode]
  · rename_i other
    have clean : (scan source).errors = [] ∧ (parseProgram (scan source).tokens).errors = [] := by
      refine Decidable.byContradiction fun faulty => ?_
      exact other _ _ _ (run_of_error (prepare_eq_malformed_iff.mpr ⟨rfl, rfl, faulty⟩) fuel)
    have quiet : (CommandLine.dump { options with showTree := true } source).diagnostics = [] := by
      rw [CommandLine.dump_showTree, clean.1, clean.2]
      rfl
    exact ⟨quiet, by rw [CommandLine.code_dump, if_pos quiet]⟩

-- As they are found, the errors of a source need not be by line.
example : (CommandLine.dump { showTree := true } "1 =\n@ 2 = 3;").diagnostics =
    ["[line 2] Error: Unexpected character '@'.", "[line 2] Error at '=': Invalid assignment target.",
      "[line 1] Error at '=': Invalid assignment target."] := by decide +kernel

end Session

end Lox
