import Mathlib.Logic.Function.Basic
import Mathlib.Data.List.Basic
import Lox.Syntax.Form

/-!
# Forms are written in one way

A form is **proper** (`Form.Proper`) if its atoms are words without blanks, newlines and parentheses,
and if signatures stand behind `fun` and nowhere else.  Proper forms that are written alike are the same,
and this needs no look at what follows them: where a form ends can be told from the form itself
(`Form.Proper.eq_of_append`).  The same holds of forms on lines of their own (`lines_injective`).
-/

namespace Lox.Form

/-- Does the character end an atom? -/
def isDelimiter (c : Char) : Bool := c = ' ' ∨ c = '\n' ∨ c = '(' ∨ c = ')'

/-- A text that can be an atom. -/
structure IsAtom (s : String) : Prop where
  nonempty : s.toList ≠ []
  solid : ∀ c ∈ s.toList, isDelimiter c = false

instance (s : String) : Decidable (IsAtom s) :=
  decidable_of_iff (s.toList ≠ [] ∧ s.toList.all (fun c => !isDelimiter c) = true)
    ⟨fun h => ⟨h.1, by simpa using h.2⟩, fun h => ⟨h.nonempty, by simpa using h.solid⟩⟩

/-- What follows an atom: nothing, or something that ends it. -/
def Delimited (rest : List Char) : Prop := ∀ c ∈ rest.head?, isDelimiter c = true

/-- A form that shows part of a program. -/
inductive Proper : Form → Prop
  | atom {s : String} (isAtom : IsAtom s) : Proper (.atom s)
  | list {head : String} {rest : List Form} (isAtom : IsAtom head) (other : head ≠ "fun")
      (parts : ∀ f ∈ rest, Proper f) : Proper (.list (.atom head :: rest))
  | function {name : String} {parameters : List String} {body : List Form}
      (named : ∀ c ∈ name.toList, isDelimiter c = false) (isAtom : ∀ p ∈ parameters, IsAtom p)
      (parts : ∀ f ∈ body, Proper f) :
      Proper (.list (.atom "fun" :: .signature name parameters :: body))

/-- A list with a head that can be looked at. -/
theorem Proper.headed {head : String} {parts : List Form} (isHead : IsAtom head ∧ head ≠ "fun")
    (proper : ∀ f ∈ parts, f.Proper) : (Form.list (.atom head :: parts)).Proper :=
  .list isHead.1 isHead.2 proper

/-! ## What is written -/

/-- Forms written out with `separator` in front of each of them. -/
def behind (separator : Char) (forms : List Form) : List Char :=
  forms.flatMap fun f => separator :: f.text.toList

theorem texts_cons (head : Form) (rest : List Form) :
    (texts (head :: rest)).toList = head.text.toList ++ behind ' ' rest := by
  induction rest generalizing head with
  | nil => simp [texts, behind]
  | cons next rest ih =>
    rw [texts, String.toList_append, String.toList_append, ih]
    · simp [behind]
    · exact nofun

/-- A list and what follows it, with the head of the list apart from the other parts. -/
theorem text_list_append (head : String) (parts : List Form) (rest : List Char) :
    (list (atom head :: parts)).text.toList ++ rest =
      '(' :: (head.toList ++ (behind ' ' parts ++ ')' :: rest)) := by
  rw [text, String.toList_append, String.toList_append, texts_cons, text]
  simp

/-- Texts with a separator between any two of them, that is, in front of each but the first. -/
theorem toList_intercalate_cons (separator first : String) (rest : List String) :
    (separator.intercalate (first :: rest)).toList =
      first.toList ++ rest.flatMap fun s => separator.toList ++ s.toList := by
  rw [String.toList_intercalate, List.map_cons]
  induction rest generalizing first with
  | nil => simp [List.intercalate]
  | cons next rest ih => rw [List.map_cons, List.intercalate_cons_cons, ih, List.flatMap_cons]; simp

/-- Parameters are written like atoms. -/
theorem intercalate_eq_texts (parameters : List String) :
    " ".intercalate parameters = texts (parameters.map atom) := by
  apply String.toList_injective
  cases parameters with
  | nil => rfl
  | cons first rest =>
    rw [toList_intercalate_cons, List.map_cons, texts_cons, behind, List.flatMap_map]
    rfl

/-- The parts of a function with what follows it. -/
theorem behind_signature_append (name : String) (parameters : List String) (body : List Form)
    (rest : List Char) : behind ' ' (signature name parameters :: body) ++ rest =
      ' ' :: (name.toList ++ '(' :: ((texts (parameters.map atom)).toList ++
        ')' :: (behind ' ' body ++ rest))) := by
  rw [behind, List.flatMap_cons, text, intercalate_eq_texts]
  simp [behind]

/-! ## Where atoms end -/

/-- What is made of characters that go on is the same if what ends it begins alike. -/
theorem eq_of_append_of_stops {p : Char → Bool} {xs ys rest rest' : List Char}
    (xs_go : ∀ c ∈ xs, p c = false) (ys_go : ∀ c ∈ ys, p c = false)
    (stops : ∀ c ∈ rest.head?, p c = true) (stops' : ∀ c ∈ rest'.head?, p c = true)
    (same : xs ++ rest = ys ++ rest') : xs = ys ∧ rest = rest' := by
  induction xs generalizing ys with
  | nil =>
    cases ys with
    | nil => exact ⟨rfl, same⟩
    | cons y ys =>
      obtain rfl : rest = y :: (ys ++ rest') := same
      exact absurd ((ys_go y List.mem_cons_self).symm.trans (stops y rfl)) (by decide)
  | cons x xs ih =>
    cases ys with
    | nil =>
      obtain rfl : x :: (xs ++ rest) = rest' := same
      exact absurd ((xs_go x List.mem_cons_self).symm.trans (stops' x rfl)) (by decide)
    | cons y ys =>
      obtain ⟨rfl, behind⟩ := List.cons.inj same
      obtain ⟨rfl, left⟩ := ih (List.forall_mem_cons.mp xs_go).2 (List.forall_mem_cons.mp ys_go).2 behind
      exact ⟨rfl, left⟩

theorem IsAtom.eq_of_append {s s' : String} {rest rest' : List Char} (h : IsAtom s) (h' : IsAtom s')
    (ends : Delimited rest) (ends' : Delimited rest') (same : s.toList ++ rest = s'.toList ++ rest') :
    s = s' ∧ rest = rest' := by
  obtain ⟨eq, same⟩ := eq_of_append_of_stops h.solid h'.solid ends ends' same
  exact ⟨String.toList_injective eq, same⟩

/-- An atom begins with no delimiter. -/
theorem IsAtom.ne_cons {s : String} (h : IsAtom s) {c : Char} (ends : isDelimiter c = true)
    (rest more : List Char) : s.toList ++ rest ≠ c :: more := by
  intro same
  cases written : s.toList with
  | nil => exact h.nonempty written
  | cons d cs =>
    rw [written] at same
    obtain rfl : d = c := (List.cons.inj same).1
    have := h.solid d (by rw [written]; exact List.mem_cons_self)
    rw [ends] at this
    cases this

/-! ## Where forms end -/

/-- How the forms of a list are told apart: whatever is written like `f` in front of something that ends
it is `f`. -/
def Determined (f : Form) : Prop :=
  ∀ {g : Form} {rest rest' : List Char}, g.Proper → Delimited rest → Delimited rest' →
    f.text.toList ++ rest = g.text.toList ++ rest' → f = g ∧ rest = rest'

theorem delimited_behind {separator : Char} (delimits : isDelimiter separator = true)
    (forms : List Form) {rest : List Char} (ends : Delimited rest) :
    Delimited (behind separator forms ++ rest) := by
  cases forms with
  | nil => exact ends
  | cons f forms =>
    intro c first
    cases first
    exact delimits

/-- Forms behind separators, up to something that is none. -/
theorem eq_of_behind {separator : Char} (delimits : isDelimiter separator = true) {fs gs : List Form}
    {rest rest' : List Char} (determined : ∀ f ∈ fs, f.Determined) (proper : ∀ g ∈ gs, g.Proper)
    (ends : Delimited rest) (ends' : Delimited rest') (stops : rest.head? ≠ some separator)
    (stops' : rest'.head? ≠ some separator)
    (same : behind separator fs ++ rest = behind separator gs ++ rest') : fs = gs ∧ rest = rest' := by
  induction fs generalizing gs with
  | nil =>
    cases gs with
    | nil => exact ⟨rfl, same⟩
    | cons g gs =>
      obtain rfl : rest = separator :: _ := same
      exact absurd rfl stops
  | cons f fs ih =>
    cases gs with
    | nil =>
      obtain rfl : separator :: _ = rest' := same
      exact absurd rfl stops'
    | cons g gs =>
      obtain ⟨first, others⟩ := List.forall_mem_cons.mp determined
      obtain ⟨isProper, areProper⟩ := List.forall_mem_cons.mp proper
      simp only [behind, List.flatMap_cons, List.cons_append, List.append_assoc, List.cons.injEq,
        true_and] at same
      obtain ⟨rfl, more⟩ := first isProper (delimited_behind delimits fs ends)
        (delimited_behind delimits gs ends') same
      obtain ⟨rfl, left⟩ := ih others areProper more
      exact ⟨rfl, left⟩

theorem delimited_cons {c : Char} (delimits : isDelimiter c = true) (rest : List Char) :
    Delimited (c :: rest) := by
  intro d first
  cases first
  exact delimits

/-- No atom is written like a list. -/
theorem IsAtom.ne_list {s : String} (h : IsAtom s) (head : String) (parts : List Form)
    (rest rest' : List Char) :
    (atom s).text.toList ++ rest ≠ (list (atom head :: parts)).text.toList ++ rest' := by
  rw [text_list_append]
  exact h.ne_cons (by decide) _ _

theorem IsAtom.determined {s : String} (h : IsAtom s) : (atom s).Determined := by
  intro g rest rest' proper ends ends' same
  cases proper with
  | atom isAtom =>
    obtain ⟨rfl, left⟩ := h.eq_of_append isAtom ends ends' same
    exact ⟨rfl, left⟩
  | list | function => exact absurd same (h.ne_list _ _ _ _)

/-- Lists that are written alike have the same head. -/
theorem eq_of_lists {head head' : String} {parts parts' : List Form} {rest rest' : List Char}
    (h : IsAtom head) (h' : IsAtom head')
    (same : (list (atom head :: parts)).text.toList ++ rest =
      (list (atom head' :: parts')).text.toList ++ rest') :
    head = head' ∧ behind ' ' parts ++ ')' :: rest = behind ' ' parts' ++ ')' :: rest' := by
  have closed (parts : List Form) (rest : List Char) : Delimited (behind ' ' parts ++ ')' :: rest) :=
    delimited_behind (by decide) parts (delimited_cons (by decide) rest)
  rw [text_list_append, text_list_append] at same
  exact h.eq_of_append h' (closed _ _) (closed _ _) (List.cons.inj same).2

/-- The parts of a list up to its closing parenthesis. -/
theorem eq_of_parts {fs gs : List Form} {rest rest' : List Char}
    (determined : ∀ f ∈ fs, f.Determined) (proper : ∀ g ∈ gs, g.Proper)
    (same : behind ' ' fs ++ ')' :: rest = behind ' ' gs ++ ')' :: rest') : fs = gs ∧ rest = rest' := by
  obtain ⟨rfl, closed⟩ := eq_of_behind (by decide) determined proper (delimited_cons (by decide) rest)
    (delimited_cons (by decide) rest') (by simp) (by simp) same
  exact ⟨rfl, (List.cons.inj closed).2⟩

/-- Parameters up to their closing parenthesis. -/
theorem eq_of_parameters {ps qs : List String} {rest rest' : List Char}
    (isAtom : ∀ p ∈ ps, IsAtom p) (isAtom' : ∀ q ∈ qs, IsAtom q)
    (same : (texts (ps.map atom)).toList ++ ')' :: rest =
      (texts (qs.map atom)).toList ++ ')' :: rest') : ps = qs ∧ rest = rest' := by
  cases ps with
  | nil =>
    cases qs with
    | nil => exact ⟨rfl, (List.cons.inj same).2⟩
    | cons q qs =>
      rw [List.map_cons, texts_cons, List.append_assoc] at same
      exact absurd same.symm ((isAtom' q List.mem_cons_self).ne_cons (by decide) _ _)
  | cons p ps =>
    rw [List.forall_mem_cons] at isAtom
    cases qs with
    | nil =>
      rw [List.map_cons, texts_cons, List.append_assoc] at same
      exact absurd same (isAtom.1.ne_cons (by decide) _ _)
    | cons q qs =>
      rw [List.forall_mem_cons] at isAtom'
      rw [List.map_cons, List.map_cons, texts_cons, texts_cons, List.append_assoc,
        List.append_assoc] at same
      obtain ⟨rfl, more⟩ := isAtom.1.eq_of_append isAtom'.1
        (delimited_behind (by decide) _ (delimited_cons (by decide) rest))
        (delimited_behind (by decide) _ (delimited_cons (by decide) rest')) same
      have determined : ∀ f ∈ ps.map atom, f.Determined :=
        List.forall_mem_map.mpr fun p mem => IsAtom.determined (isAtom.2 p mem)
      have proper : ∀ g ∈ qs.map atom, g.Proper :=
        List.forall_mem_map.mpr fun q mem => .atom (isAtom'.2 q mem)
      obtain ⟨eq, left⟩ := eq_of_parts determined proper more
      have injective : Function.Injective atom := fun _ _ eq => by cases eq; rfl
      exact ⟨congrArg _ (List.map_injective_iff.mpr injective eq), left⟩

theorem isAtom_fun : IsAtom "fun" := by decide

/-- **Where a form ends can be told from the form itself.** -/
theorem Proper.determined {f : Form} (h : f.Proper) : f.Determined := by
  -- The heads of two lists are compared first: behind `fun`, and only there, stands a signature.
  induction h with
  | atom isAtom => exact IsAtom.determined isAtom
  | @list head parts isAtom other _ determined =>
    intro g rest rest' proper _ _ same
    cases proper with
    | atom isAtom' => exact absurd same.symm (isAtom'.ne_list _ _ _ _)
    | list isAtom' _ proper =>
      obtain ⟨rfl, more⟩ := eq_of_lists isAtom isAtom' same
      obtain ⟨rfl, left⟩ := eq_of_parts determined proper more
      exact ⟨rfl, left⟩
    | function => exact absurd (eq_of_lists isAtom isAtom_fun same).1 other
  | @function name parameters body named isAtom _ determined =>
    intro g rest rest' proper _ _ same
    cases proper with
    | atom isAtom' => exact absurd same.symm (isAtom'.ne_list _ _ _ _)
    | list isAtom' other _ => exact absurd (eq_of_lists isAtom_fun isAtom' same).1.symm other
    | function named' isAtom' proper =>
      have parts := (eq_of_lists isAtom_fun isAtom_fun same).2
      rw [behind_signature_append, behind_signature_append] at parts
      obtain ⟨sameName, more⟩ := eq_of_append_of_stops named named'
        (delimited_cons (by decide) _) (delimited_cons (by decide) _) (List.cons.inj parts).2
      obtain ⟨rfl, bodies⟩ := eq_of_parameters isAtom isAtom' (List.cons.inj more).2
      obtain ⟨rfl, left⟩ := eq_of_parts determined proper bodies
      exact ⟨by rw [String.toList_injective sameName], left⟩

theorem Proper.text_ne_nil {f : Form} (h : f.Proper) : f.text.toList ≠ [] := by
  cases h with
  | atom isAtom => exact isAtom.nonempty
  | list | function =>
    intro empty
    rw [← List.append_nil (String.toList _), text_list_append] at empty
    cases empty

/-- Proper forms on lines of their own are told apart by what is written. -/
theorem Proper.lines_injective {fs gs : List Form} (proper : ∀ f ∈ fs, f.Proper)
    (proper' : ∀ g ∈ gs, g.Proper)
    (same : "\n".intercalate (fs.map text) = "\n".intercalate (gs.map text)) : fs = gs := by
  have written (f : Form) (fs : List Form) :
      ("\n".intercalate ((f :: fs).map text)).toList = f.text.toList ++ (behind '\n' fs ++ []) := by
    rw [List.map_cons, toList_intercalate_cons, behind, List.flatMap_map, List.append_nil]
    rfl
  have same := congrArg String.toList same
  cases fs with
  | nil =>
    cases gs with
    | nil => rfl
    | cons g gs =>
      rw [written] at same
      have empty := (List.append_eq_nil_iff.mp same.symm).1
      exact absurd empty (proper' g List.mem_cons_self).text_ne_nil
  | cons f fs =>
    rw [List.forall_mem_cons] at proper
    cases gs with
    | nil =>
      rw [written] at same
      have empty := (List.append_eq_nil_iff.mp same).1
      exact absurd empty proper.1.text_ne_nil
    | cons g gs =>
      rw [List.forall_mem_cons] at proper'
      rw [written, written] at same
      have ends (forms : List Form) : Delimited (behind '\n' forms ++ []) :=
        delimited_behind (by decide) forms nofun
      obtain ⟨rfl, more⟩ := proper.1.determined proper'.1 (ends fs) (ends gs) same
      have nothing : Delimited [] := nofun
      obtain ⟨rfl, -⟩ := eq_of_behind (by decide) (fun f mem => (proper.2 f mem).determined) proper'.2
        nothing nothing (by simp) (by simp) more
      rfl

end Lox.Form
