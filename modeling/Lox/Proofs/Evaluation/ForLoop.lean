import Lox.Proofs.Evaluation.Caller
import Lox.Proofs.Evaluation.Outcome
import Lox.Proofs.Syntax.Every
import Lox.Syntax.Grammar

/-!
# What a `for` loop is

The syntax has no `for` loops: the parser puts blocks and a `while` loop in their place.  Here is what a
`for` loop does in terms of its own clauses (`ForLoop.Runs`).  In a fresh scope, if there is something
to start with, that is executed once.  Then it goes round, one **turn** after another: the condition is
evaluated, and if it holds, the body is executed and the increment is evaluated.  All of this takes place
in one frame, which the body, the condition and the increment of every turn see.

What the parser puts in place of a loop is a loop of this kind itself, one with a condition and without
an increment (`ForLoop.plain`), and it runs as such (`ForLoop.answers_desugared`).
-/

namespace Lox

open Evaluation Eval

/-- The clauses and the body of a `for` loop. -/
structure ForLoop where
  initial : Option Stmt
  condition : Option Expr
  increment : Option Expr
  body : Stmt

/-- All parts of the loop meet `P`. -/
structure ForLoop.Every (P : Node → Prop) (loop : ForLoop) : Prop where
  initial : ∀ s ∈ loop.initial, s.Every P
  condition : ∀ e ∈ loop.condition, e.Every P
  increment : ∀ e ∈ loop.increment, e.Every P
  body : loop.body.Every P

/-- A fresh frame within the current one has become current. -/
def State.entering (st : State) (construct : Construct) : State :=
  { st with heap := (st.heap.newFrame (some st.current) construct).2 }.inside
    (st.heap.newFrame (some st.current) construct).1

/-- Back to the frame that `st` was in. -/
def State.leaving (st left : State) : State :=
  { left with current := st.current, saved := left.saved.tail }

namespace ForLoop

/-! ## Turns -/

section

variable (loop : ForLoop)

/-- Evaluate the condition, which holds if there is none. -/
def test : Eval Bool :=
  match loop.condition with
  | none => return true
  | some condition => do return (← ask (.evaluate condition)).isTruthy

/-- Evaluate the increment, if there is one. -/
def step : Eval Unit :=
  match loop.increment with
  | none => return ()
  | some increment => do let _ ← ask (.evaluate increment)

/-- Execute the body and then the increment, unless the body returns. -/
def pass : Eval Flow := do
  match ← ask (.execute loop.body) with
  | .normal => loop.step; return .normal
  | .returned value => return .returned value

end

/-- Take one turn.  If it is the last one, this is how the loop ends. -/
def takeTurn (test : Eval Bool) (pass : Eval Flow) : Eval (Option Flow) := do
  if ← test then
    match ← pass with
    | .normal => return none
    | .returned value => return some (.returned value)
  else
    return some .normal

/-- Take one turn of the loop. -/
def turn (loop : ForLoop) : Eval (Option Flow) := takeTurn loop.test loop.pass

/-- Turns are taken in a frame, one after the other, up to the one that is the last or that fails. -/
inductive Rounds (rules : Rules Question Answer) (turn : Eval (Option Flow)) (frame : FrameRef) :
    State → Answer .flow → Prop
  | last {st left : State} {flow : Flow} (here : st.current = frame)
      (ends : turn.ComesTo rules st (.ok (some flow), left)) :
      Rounds rules turn frame st ⟨.ok flow, left⟩
  | stopped {st left : State} {stop : Stop} (here : st.current = frame)
      (ends : turn.ComesTo rules st (.error stop, left)) :
      Rounds rules turn frame st ⟨.error stop, left⟩
  | again {st mid : State} {r : Answer .flow} (here : st.current = frame)
      (ends : turn.ComesTo rules st (.ok none, mid)) (rest : Rounds rules turn frame mid r) :
      Rounds rules turn frame st r

/-- The loop runs, from a state to an end.  If there is something to start with, it has a frame of its
own, made for the construct. -/
inductive Runs (rules : Rules Question Answer) (construct : Construct) (loop : ForLoop) (st : State) :
    Answer .flow → Prop
  | bare {r : Answer .flow} (none : loop.initial = none)
      (rounds : Rounds rules loop.turn st.current st r) : Runs rules construct loop st r
  /-- What there is to start with fails. -/
  | broken {first : Stmt} {r : Answer .flow} (some : loop.initial = some first)
      (begins : rules.Answers .flow ⟨.execute first, st.entering construct⟩ r)
      (ends : r.result ≠ .ok .normal) :
      Runs rules construct loop st ⟨r.result, st.leaving r.state⟩
  | scoped {first : Stmt} {mid : State} {r : Answer .flow} (some : loop.initial = some first)
      (begins : rules.Answers .flow ⟨.execute first, st.entering construct⟩ ⟨.ok .normal, mid⟩)
      (rounds : Rounds rules loop.turn (st.entering construct).current mid r) :
      Runs rules construct loop st ⟨r.result, st.leaving r.state⟩

/-! ## What the parser makes of it -/

section

variable (loop : ForLoop)

/-- The statement that the parser builds for the loop. -/
def desugared : Stmt :=
  Parser.forLoop loop.initial loop.condition loop.increment loop.body

/-- The loop with the condition that is meant and with the increment in its body. -/
def plain : ForLoop where
  initial := loop.initial
  condition := some (loop.condition.getD (.literal (.boolean true)))
  increment := none
  body :=
    match loop.increment with
    | none => loop.body
    | some step => .block [loop.body, .expression step]

/-- The loop of that kind, as a statement. -/
def whilst : Stmt :=
  .loop (loop.condition.getD (.literal (.boolean true))) loop.plain.body

/-- The block that the parser makes around it, if there is something to start with. -/
def scope : Construct := .block (loop.initial.toList ++ [loop.whilst])

end

theorem desugared_of_none {loop : ForLoop} (none : loop.initial = none) :
    loop.desugared = loop.whilst := by
  rw [desugared, none]
  rfl

theorem desugared_of_some {loop : ForLoop} {first : Stmt} (some : loop.initial = some first) :
    loop.desugared = .block [first, loop.whilst] := by
  rw [desugared, some]
  rfl

end ForLoop

/-! ## Statements and what they stand for -/

namespace Eval

/-- Execute statements in a frame of their own. -/
def inBlock (construct : Construct) (action : Eval Flow) : Eval Flow := do
  let current ← look State.current
  let frame ← make (·.newFrame (some current) construct)
  inFrame frame action

theorem bind_pure {α : Type} (action : Eval α) : action >>= pure = action := by
  funext st
  rw [bind_apply]
  refine Eq.trans (congrArg (action st >>= ·) (funext ?_)) (Plan.bind_done _)
  rintro ⟨result | stop, left⟩ <;> rfl

theorem result_bind_follow {sort : TaskSort} (action : Eval sort.Result) :
    Ending.result <$> action >>= Ending.follow = action :=
  (bind_assoc action _ _).trans (bind_pure action)

theorem inBlock_apply (construct : Construct) (action : Eval Flow) (st : State) :
    inBlock construct action st =
      action (st.entering construct) >>= fun o => .done (o.1, st.leaving o.2) :=
  rfl

theorem comesTo_inBlock {rules : Rules Question Answer} {construct : Construct} {action : Eval Flow}
    {st : State} {o : Except Stop Flow × State} : (inBlock construct action).ComesTo rules st o ↔
      ∃ mid, action.ComesTo rules (st.entering construct) (o.1, mid) ∧ o.2 = st.leaving mid := by
  rw [ComesTo, inBlock_apply]
  constructor
  · intro h
    obtain ⟨⟨result, mid⟩, inside, rest⟩ := h.done_of_bind
    cases rest
    exact ⟨mid, inside, rfl⟩
  · obtain ⟨result, left⟩ := o
    rintro ⟨mid, inside, rfl⟩
    exact Plan.Reaches.bind_done inside (.refl _)

namespace Matches

theorem inBlock {rules : Rules Question Answer} {action action' : Eval Flow} (construct : Construct)
    (h : action.Matches rules action') :
    (Eval.inBlock construct action).Matches rules (Eval.inBlock construct action') :=
  .bind (.refl _) fun _ => .bind (.refl _) fun frame => .inFrame frame h

theorem execute (s : Stmt) : (Eval.ask (.execute s)).Matches (evaluationWith id)
    (s.rule >>= Ending.follow) :=
  (Matches.ask (.execute s)).trans (.ask (.perform s))

theorem execute_block (body : List Stmt) : (Eval.ask (.execute (.block body))).Matches
    (evaluationWith id) (Eval.inBlock (.block body) (sequence body)) := by
  have inside : (Stmt.block body).rule >>= Ending.follow =
      Eval.inBlock (.block body) (sequence body) := by
    rw [Stmt.rule, Eval.inBlock]
    simp only [bind_assoc, @result_bind_follow .flow]
  rw [← inside]
  exact execute _

theorem execute_expression (e : Expr) : (Eval.ask (.execute (.expression e))).Matches
    (evaluationWith id) (Eval.ask (.evaluate e) >>= fun _ => pure .normal) := by
  refine (execute (.expression e)).trans ?_
  rw [Stmt.rule, bind_assoc]
  exact refl _

theorem execute_loop (condition : Expr) (body : Stmt) :
    (Eval.ask (.execute (.loop condition body))).Matches (evaluationWith id)
      (Eval.ask (.repeat_ condition body)) :=
  execute _

end Matches

end Eval

namespace ForLoop

variable {st : State} {r : Answer .flow}

/-! ## `while` loops -/

section

variable {initial : Option Stmt} {condition : Expr} {body : Stmt}

/-- A task goes round a `while` loop one turn at a time. -/
theorem rule_repeat : (Task.repeat_ condition body).rule id =
    turn ⟨initial, some condition, none, body⟩ >>= fun
      | some flow => pure (.result flow)
      | none => pure (.task (.repeat_ condition body)) := by
  rw [Task.rule, turn, takeTurn, test, bind_assoc, bind_assoc]
  refine congrArg (ask (.evaluate condition) >>= ·) (funext fun value => ?_)
  change _ = (if value.isTruthy = true then _ else _) >>= _
  split
  · rw [pass, bind_assoc, bind_assoc]
    refine congrArg (ask (.execute body) >>= ·) (funext fun flow => ?_)
    cases flow <;> rfl
  · rfl

end

/-- What is carried out in a frame ends in it. -/
theorem current_of_comesTo {α : Type} {action : Eval α} (lexical : action.Lexical True) {left : State}
    {result : Except Stop α} (ends : action.ComesTo (evaluationWith id) st (result, left)) :
    left.current = st.current := by
  obtain ⟨_, -, inStep⟩ := (lexical st st ⟨rfl, rfl, rfl, rfl, rfl, rfl⟩ fun _ => rfl).reaches
    (fun _ _ _ _ asked known => known.inStep inStepApart asked) ends
  cases inStep with
  | done goal => exact goal.2.current

theorem lexical_turn (loop : ForLoop) : loop.turn.Lexical True := by
  have test : loop.test.Lexical True := by
    rw [ForLoop.test]
    split
    · exact .pure _
    · exact .bind (.evaluated _) fun _ => .pure _
  have step : loop.step.Lexical True := by
    rw [ForLoop.step]
    split
    · exact .pure _
    · exact .bind (.evaluated _) fun _ => .pure _
  have pass : loop.pass.Lexical True := by
    refine .bind (.executed _) fun flow => ?_
    cases flow with
    | normal => exact .bind step fun _ => .pure _
    | returned _ => exact .pure _
  refine .bind test fun holds => ?_
  split
  · refine .bind pass fun flow => ?_
    cases flow <;> exact .pure _
  · exact .pure _

section

variable {initial : Option Stmt} {condition : Expr} {body : Stmt}

theorem rounds_of_solve {fuel : Nat}
    (found : (evaluationWith id).solve fuel .flow ⟨.repeat_ condition body, st⟩ = some r) :
    Rounds (evaluationWith id) (turn ⟨initial, some condition, none, body⟩) st.current st r := by
  induction fuel generalizing st with
  | zero => cases found
  | succ fuel ih =>
    rw [Rules.solve_succ, Option.bind_eq_some_iff] at found
    obtain ⟨next, evaluated, settled⟩ := found
    obtain ⟨⟨result, mid⟩, ruled, last⟩ :=
      Plan.Reaches.done_of_bind (Rules.exists_reaches_of_eval evaluated)
    have ruled : ((Task.repeat_ condition body).rule id).ComesTo (evaluationWith id) st
      (result, mid) := ruled
    rw [@rule_repeat initial, comesTo_bind] at ruled
    rcases ruled with ⟨ended, mid', turned, rest⟩ | ⟨stop, mid', turned, same⟩
    · cases ended with
      | some flow =>
        cases comesTo_pure.mp rest
        cases last
        cases settled
        exact .last rfl turned
      | none =>
        cases comesTo_pure.mp rest
        cases last
        have rounds := ih settled
        rw [current_of_comesTo (lexical_turn _) turned] at rounds
        exact .again rfl turned rounds
    · cases same
      cases last
      cases settled
      exact .stopped rfl turned

/-- **A `while` loop goes its rounds.** -/
theorem answers_repeat_iff :
    (evaluationWith id).Answers .flow ⟨.repeat_ condition body, st⟩ r ↔
      Rounds (evaluationWith id) (turn ⟨initial, some condition, none, body⟩) st.current st r := by
  constructor
  · rintro ⟨fuel, found⟩
    exact rounds_of_solve found
  · intro rounds
    generalize st.current = frame at rounds
    induction rounds with
    | last _ ends =>
      rw [answers_iff, @rule_repeat initial, bind_assoc]
      exact comesTo_bind.mpr (.inl ⟨_, _, ends, comesTo_pure.mpr rfl⟩)
    | stopped _ ends =>
      rw [answers_iff, @rule_repeat initial, bind_assoc]
      exact comesTo_bind.mpr (.inr ⟨_, _, ends, rfl⟩)
    | again _ ends _ ih =>
      rw [answers_iff, @rule_repeat initial, bind_assoc]
      exact comesTo_bind.mpr (.inl ⟨_, _, ends, comesTo_ask.mpr ih⟩)

end

/-- Without anything to start with, there are the rounds only. -/
theorem runs_iff_of_none {rules : Rules Question Answer} {construct : Construct} {loop : ForLoop}
    (none : loop.initial = none) :
    Runs rules construct loop st r ↔ Rounds rules loop.turn st.current st r := by
  refine ⟨?_, .bare none⟩
  rintro (⟨-, rounds⟩ | ⟨some, -, -⟩ | ⟨some, -, -⟩)
  · exact rounds
  · cases none.symm.trans some
  · cases none.symm.trans some

/-- With a statement to start with, this is all there is to the loop, or its rounds follow. -/
theorem runs_iff_of_some {rules : Rules Question Answer} {construct : Construct} {loop : ForLoop}
    {first : Stmt} (some : loop.initial = some first) :
    Runs rules construct loop st r ↔
      ∃ left, ((r.result ≠ .ok .normal ∧
            rules.Answers .flow ⟨.execute first, st.entering construct⟩ ⟨r.result, left⟩) ∨
          ∃ mid, rules.Answers .flow ⟨.execute first, st.entering construct⟩ ⟨.ok .normal, mid⟩ ∧
            Rounds rules loop.turn (st.entering construct).current mid ⟨r.result, left⟩) ∧
        r.state = st.leaving left := by
  constructor
  · rintro (⟨none, -⟩ | @⟨_, r, same, begins, ends⟩ | @⟨_, mid, r, same, begins, rounds⟩)
    · cases some.symm.trans none
    · cases some.symm.trans same
      exact ⟨r.state, .inl ⟨ends, begins⟩, rfl⟩
    · cases some.symm.trans same
      exact ⟨r.state, .inr ⟨mid, begins, rounds⟩, rfl⟩
  · obtain ⟨result, left'⟩ := r
    rintro ⟨left, ⟨ends, begins⟩ | ⟨mid, begins, rounds⟩, rfl⟩
    · exact .broken some begins ends
    · exact .scoped some begins rounds

/-- The block that the parser makes starts with the first statement and goes on with the loop. -/
theorem matches_scope (loop : ForLoop) (first : Stmt) :
    (sequence [first, loop.whilst]).Matches (evaluationWith id) (ask (.execute first) >>= fun
      | .normal => ask (.repeat_ (loop.condition.getD (.literal (.boolean true))) loop.plain.body)
      | .returned value => pure (.returned value)) := by
  refine .bind (.refl _) fun flow => ?_
  cases flow with
  | returned value => exact .refl _
  | normal =>
    refine .trans ?_ (Matches.execute_loop _ _)
    have last : sequence [loop.whilst] = ask (.execute loop.whilst) >>= pure := by
      refine congrArg (ask (.execute loop.whilst) >>= ·) (funext fun flow => ?_)
      cases flow <;> rfl
    rw [last, Eval.bind_pure]
    exact .refl _

/-- The loop in the block goes the rounds of its plain form. -/
theorem comesTo_repeat (loop : ForLoop) :
    (ask (.repeat_ (loop.condition.getD (.literal (.boolean true))) loop.plain.body)).ComesTo
        (evaluationWith id) st (r.result, r.state) ↔
      Rounds (evaluationWith id) loop.plain.turn st.current st r :=
  comesTo_ask.trans answers_repeat_iff

/-- What is inside the block comes to what the loop comes to, before it leaves its scope. -/
theorem comesTo_scope (loop : ForLoop) (first : Stmt) {left : State} {result : Except Stop Flow} :
    (sequence [first, loop.whilst]).ComesTo (evaluationWith id) st (result, left) ↔
      (result ≠ .ok .normal ∧
        (evaluationWith id).Answers .flow ⟨.execute first, st⟩ ⟨result, left⟩) ∨
      ∃ mid, (evaluationWith id).Answers .flow ⟨.execute first, st⟩ ⟨.ok .normal, mid⟩ ∧
        Rounds (evaluationWith id) loop.plain.turn st.current mid ⟨result, left⟩ := by
  refine (matches_scope loop first st (result, left)).trans (comesTo_bind.trans ⟨?_, ?_⟩)
  · rintro (⟨flow, mid, begins, rest⟩ | ⟨stop, mid, begins, same⟩)
    · cases flow with
      | normal =>
        have rounds := (comesTo_repeat (r := ⟨result, left⟩) loop).mp rest
        -- The rounds begin in the frame of the block, which the first statement has left as it was.
        rw [current_of_comesTo (.executed first) begins] at rounds
        exact .inr ⟨mid, comesTo_ask.mp begins, rounds⟩
      | returned value =>
        cases comesTo_pure.mp rest
        exact .inl ⟨nofun, comesTo_ask.mp begins⟩
    · cases same
      exact .inl ⟨nofun, comesTo_ask.mp begins⟩
  · rintro (⟨ends, begins⟩ | ⟨mid, begins, rounds⟩)
    · match result with
      | .ok .normal => exact absurd rfl ends
      | .ok (.returned value) =>
        exact .inl ⟨.returned value, left, comesTo_ask.mpr begins, comesTo_pure.mpr rfl⟩
      | .error stop => exact .inr ⟨stop, left, comesTo_ask.mpr begins, rfl⟩
    · refine .inl ⟨.normal, mid, comesTo_ask.mpr begins, (comesTo_repeat (r := ⟨result, left⟩) loop).mpr ?_⟩
      rwa [current_of_comesTo (.executed first) (comesTo_ask.mpr begins)]

/-- **What the parser builds for a loop runs as the plain form of the loop.** -/
theorem answers_desugared (loop : ForLoop) :
    (evaluationWith id).Answers .flow ⟨.execute loop.desugared, st⟩ r ↔
      Runs (evaluationWith id) loop.scope loop.plain st r := by
  cases initial : loop.initial with
  | none =>
    rw [desugared_of_none initial]
    refine (comesTo_ask.symm.trans (Matches.execute_loop _ _ st (r.result, r.state))).trans ?_
    exact (comesTo_repeat loop).trans (@runs_iff_of_none _ _ _ _ loop.plain initial).symm
  | some first =>
    have scope : loop.scope = .block [first, loop.whilst] := by
      rw [ForLoop.scope, initial]
      rfl
    rw [desugared_of_some initial, scope]
    refine (comesTo_ask.symm.trans (Matches.execute_block _ st (r.result, r.state))).trans ?_
    rw [comesTo_inBlock, @runs_iff_of_some _ _ _ _ loop.plain _ initial]
    exact exists_congr fun left => and_congr_left fun _ => comesTo_scope loop first

/-! ## Loops that go on alike -/

section

variable {rules rules' : Rules Question Answer} {R : State → State → Prop}
  {E : Answer .flow → Answer .flow → Prop} {turn turn' : Eval (Option Flow)} {frame frame' : FrameRef}
  {st st' : State}

/-- Two turns end alike: both loops end as `E` says, or both go on from states that `R` relates. -/
inductive TurnsEnd (R : State → State → Prop) (E : Answer .flow → Answer .flow → Prop) :
    Except Stop (Option Flow) × State → Except Stop (Option Flow) × State → Prop
  | last {flow flow' : Flow} {st st' : State} (ends : E ⟨.ok flow, st⟩ ⟨.ok flow', st'⟩) :
      TurnsEnd R E (.ok (some flow), st) (.ok (some flow'), st')
  | stopped {stop stop' : Stop} {st st' : State} (ends : E ⟨.error stop, st⟩ ⟨.error stop', st'⟩) :
      TurnsEnd R E (.error stop, st) (.error stop', st')
  | again {st st' : State} (related : R st st') : TurnsEnd R E (.ok none, st) (.ok none, st')

theorem Rounds.forth
    (turns : ∀ {st st' : State}, R st st' → ∀ {o}, turn.ComesTo rules st o →
      ∃ o', turn'.ComesTo rules' st' o' ∧ TurnsEnd R E o o')
    (here : ∀ {st st' : State}, R st st' → st'.current = frame') (related : R st st')
    {r : Answer .flow} (rounds : Rounds rules turn frame st r) :
    ∃ r', Rounds rules' turn' frame' st' r' ∧ E r r' := by
  induction rounds generalizing st' with
  | last _ ends =>
    obtain ⟨_, ends', alike⟩ := turns related ends
    cases alike with
    | last alike => exact ⟨_, .last (here related) ends', alike⟩
  | stopped _ ends =>
    obtain ⟨_, ends', alike⟩ := turns related ends
    cases alike with
    | stopped alike => exact ⟨_, .stopped (here related) ends', alike⟩
  | again _ ends _ ih =>
    obtain ⟨_, ends', alike⟩ := turns related ends
    cases alike with
    | again related' =>
      obtain ⟨r', rounds', alike⟩ := ih related'
      exact ⟨r', .again (here related) ends' rounds', alike⟩

/-- **Rounds correspond if each turn does.** -/
theorem Rounds.corresponds
    (turns : ∀ {st st' : State}, R st st' →
      Corresponds (TurnsEnd R E) (turn.ComesTo rules st) (turn'.ComesTo rules' st'))
    (here : ∀ {st st' : State}, R st st' → st.current = frame ∧ st'.current = frame')
    (related : R st st') :
    Corresponds E (Rounds rules turn frame st) (Rounds rules' turn' frame' st') where
  forth := Rounds.forth (fun related => (turns related).forth) (fun related => (here related).2) related
  back := by
    refine Rounds.forth (R := fun st' st => R st st') (E := fun r' r => E r r') (fun related o' ends => ?_)
      (fun related => (here related).1) related
    obtain ⟨o, ends, alike⟩ := (turns related).back ends
    refine ⟨o, ends, ?_⟩
    cases alike with
    | last alike => exact .last alike
    | stopped alike => exact .stopped alike
    | again related => exact .again related

variable {loop loop' : ForLoop} {construct construct' : Construct}

/-- Loops without anything to start with run alike if their rounds do. -/
theorem Runs.corresponds_bare (none : loop.initial = none) (none' : loop'.initial = Option.none)
    (h : Corresponds E (Rounds rules loop.turn st.current st)
      (Rounds rules' loop'.turn st'.current st')) :
    Corresponds E (Runs rules construct loop st) (Runs rules' construct' loop' st') where
  forth runs :=
    have ⟨r', rounds', alike⟩ := h.forth ((runs_iff_of_none none).mp runs)
    ⟨r', (runs_iff_of_none none').mpr rounds', alike⟩
  back runs' :=
    have ⟨r, rounds, alike⟩ := h.back ((runs_iff_of_none none').mp runs')
    ⟨r, (runs_iff_of_none none).mpr rounds, alike⟩

/-- What there is to start with ends alike: both loops go on, or neither does. -/
inductive StartsEnd (R : State → State → Prop) (E : Answer .flow → Answer .flow → Prop) :
    Answer .flow → Answer .flow → Prop
  | normal {st st' : State} (related : R st st') : StartsEnd R E ⟨.ok .normal, st⟩ ⟨.ok .normal, st'⟩
  | broken {r r' : Answer .flow} (ends : r.result ≠ .ok .normal) (ends' : r'.result ≠ .ok .normal)
      (alike : E r r') : StartsEnd R E r r'

/-- Both loops have left their scopes. -/
def LeavesAlike (E : Answer .flow → Answer .flow → Prop) (st st' : State) (r r' : Answer .flow) :
    Prop :=
  ∃ left left', E ⟨r.result, left⟩ ⟨r'.result, left'⟩ ∧ r.state = st.leaving left ∧
    r'.state = st'.leaving left'

/-- What a loop does, one that starts alike does too, if the rounds that follow are alike. -/
theorem Runs.forth {first first' : Stmt} (some : loop.initial = some first)
    (some' : loop'.initial = Option.some first')
    (starts : ∀ {r : Answer .flow}, rules.Answers .flow ⟨.execute first, st.entering construct⟩ r →
      ∃ r', rules'.Answers .flow ⟨.execute first', st'.entering construct'⟩ r' ∧ StartsEnd R E r r')
    (rounds : ∀ {mid mid' : State}, R mid mid' → ∀ {r : Answer .flow},
      Rounds rules loop.turn (st.entering construct).current mid r →
        ∃ r', Rounds rules' loop'.turn (st'.entering construct').current mid' r' ∧ E r r')
    {r : Answer .flow} (runs : Runs rules construct loop st r) :
    ∃ r', Runs rules' construct' loop' st' r' ∧ LeavesAlike E st st' r r' := by
  obtain ⟨result, left'⟩ := r
  obtain ⟨left, ⟨ends, begins⟩ | ⟨mid, begins, turns⟩, same⟩ := (runs_iff_of_some some).mp runs
  · obtain ⟨r', begins', alike⟩ := starts begins
    cases alike with
    | normal _ => exact absurd rfl ends
    | broken _ ends' alike => exact ⟨_, .broken some' begins' ends', left, _, alike, same, rfl⟩
  · obtain ⟨r₁, begins', alike⟩ := starts begins
    cases alike with
    | broken ends _ _ => exact absurd rfl ends
    | normal related =>
      obtain ⟨r', turns', alike⟩ := rounds related turns
      exact ⟨_, .scoped some' begins' turns', left, _, alike, same, rfl⟩

/-- **Loops that start alike run alike.** -/
theorem Runs.corresponds {first first' : Stmt} (some : loop.initial = some first)
    (some' : loop'.initial = Option.some first')
    (starts : Corresponds (StartsEnd R E)
      (rules.Answers .flow ⟨.execute first, st.entering construct⟩)
      (rules'.Answers .flow ⟨.execute first', st'.entering construct'⟩))
    (turns : ∀ {st st' : State}, R st st' →
      Corresponds (TurnsEnd R E) (loop.turn.ComesTo rules st) (loop'.turn.ComesTo rules' st'))
    (here : ∀ {mid mid' : State}, R mid mid' → mid.current = (st.entering construct).current ∧
      mid'.current = (st'.entering construct').current) :
    Corresponds (LeavesAlike E st st') (Runs rules construct loop st)
      (Runs rules' construct' loop' st') where
  forth := Runs.forth some some' starts.forth fun related =>
    (Rounds.corresponds turns here related).forth
  back := by
    intro r' runs'
    have starts' {r' : Answer .flow}
        (begins' : rules'.Answers .flow ⟨.execute first', st'.entering construct'⟩ r') :
        ∃ r, rules.Answers .flow ⟨.execute first, st.entering construct⟩ r ∧
          StartsEnd (fun mid' mid => R mid mid') (fun r' r => E r r') r' r := by
      obtain ⟨r, begins, alike⟩ := starts.back begins'
      refine ⟨r, begins, ?_⟩
      cases alike with
      | normal related => exact .normal related
      | broken ends ends' alike => exact .broken ends' ends alike
    obtain ⟨r, runs, left', left, alike, same', same⟩ :=
      Runs.forth some' some starts' (fun related => (Rounds.corresponds turns here related).back) runs'
    exact ⟨r, runs, left, left', alike, same, same'⟩

end

end ForLoop

end Lox
