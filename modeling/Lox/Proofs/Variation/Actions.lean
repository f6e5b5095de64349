import Lox.Proofs.Plan.Lockstep
import Lox.Proofs.Variation.State

/-!
# Actions in step

The contract of evaluation for two runs (`Variation.Asked`, `Variation.Answered`): tasks that vary from
each other, started from states that do, come to results that do, in states that do.  In whatever way
frames are marked at the start, they can be marked so at the end.

`Eval.Vary` is the judgement that two actions keep step.  It starts from states that vary, and what it
says is relative to them, so that judgements follow one another (`Eval.Vary.bind`).
-/

namespace Lox

open Evaluation

/-! ## Tasks and what they come to -/

/-- Once the name that a statement declares is bound, what stands behind the statement may run. -/
theorem World.Stands.after {w : World} {p : Site} {ref : FrameRef} {s : Stmt} (h : w.Stands p ref)
    (bound : ∀ name ∈ s.declares, w.Binds ref name) : w.Stands (p.after s) ref := by
  cases s with
  | var name _ | class_ name _ _ => exact h.declare (bound _ rfl)
  | function decl =>
    obtain ⟨name, _, _⟩ := decl
    cases name with
    | named name => exact h.declare (bound _ rfl)
    | anonymous _ => exact h
  | _ => exact h

/-- The name that the statement of a task declares. -/
def Task.declares : {sort : TaskSort} → Task sort → Option String
  | _, .execute s => s.declares
  | _, .perform s => s.declares
  | _, _ => none

section

variable (v : Variation)

/-- A cause for which a resolved program may fail: `this` and `super` are always found. -/
def RuntimeError.Cause.IsPossible : RuntimeError.Cause → Prop
  | undefinedVariable name => name ≠ thisName
  | unresolvedSuper | unresolvedThis => False
  | _ => True

/-- The same cause, but for the names. -/
structure RuntimeError.Cause.Varies (c c' : RuntimeError.Cause) : Prop where
  possible : c.IsPossible
  same : c' = c ∨ c = .undefinedVariable v.old ∧ c' = .undefinedVariable v.new

/-- The same error, but for the line and the names. -/
structure RuntimeError.Varies (e e' : RuntimeError) : Prop where
  line : ∃ m, v.Lines m ∧ e'.line = m e.line
  cause : e.cause.Varies v e'.cause

/-- The same stop, but for lines and names. -/
inductive Stop.Varies : Stop → Stop → Prop
  | error {e e' : RuntimeError} (varies : e.Varies v e') : Stop.Varies (.error e) (.error e')
  | fault (access : Dangling) : Stop.Varies (.fault access) (.fault access)

/-- Statements end in the same way. -/
inductive Flow.Varies (w : World) : Flow → Flow → Prop
  | normal : Flow.Varies w .normal .normal
  | returned {a a' : Value} (varies : a.Varies v w a') :
      Flow.Varies w (.returned a) (.returned a')

/-- Tasks that vary from each other, where a frame is current in which they may run. -/
inductive Task.Varies (w : World) (current : FrameRef) : {sort : TaskSort} → Task sort → Task sort → Prop
  | evaluate {m : Nat → Nat} {p : Site} {e e' : Expr} (lines : v.Lines m) (stands : w.Stands p current)
      (varies : e.Varies v m p e') : Task.Varies w current (.evaluate e) (.evaluate e')
  | call {m : Nat → Nat} {callee callee' : Value} {arguments arguments' : List Value} {line : Nat}
      (lines : v.Lines m) (varies : callee.Varies v w callee')
      (vary : List.Forall₂ (Value.Varies v w) arguments arguments') :
      Task.Varies w current (.call callee arguments line) (.call callee' arguments' (m line))
  | invoke {closure closure' : Closure} {arguments arguments' : List Value}
      (varies : closure.VariesBound v w closure')
      (vary : List.Forall₂ (Value.Varies v w) arguments arguments')
      (enough : arguments.length = closure.arity) :
      Task.Varies w current (.invoke closure arguments) (.invoke closure' arguments')
  | execute {m : Nat → Nat} {p : Site} {s s' : Stmt} (lines : v.Lines m) (stands : w.Stands p current)
      (varies : s.Varies v m p s') : Task.Varies w current (.execute s) (.execute s')
  | perform {m : Nat → Nat} {p : Site} {s s' : Stmt} (lines : v.Lines m) (stands : w.Stands p current)
      (varies : s.Varies v m p s') : Task.Varies w current (.perform s) (.perform s')
  | repeat_ {m : Nat → Nat} {p : Site} {condition condition' : Expr} {body body' : Stmt}
      (lines : v.Lines m) (stands : w.Stands p current) (varies : condition.Varies v m p condition')
      (varies' : body.Varies v m p body') :
      Task.Varies w current (.repeat_ condition body) (.repeat_ condition' body')
  | run {m : Nat → Nat} {program program' : List Stmt} (lines : v.Lines m)
      (here : current = w.globals) (vary : Stmt.AllVary v m .outermost program program') :
      Task.Varies w current (.run program) (.run program')

/-- What tasks come to, where the frame is current again. -/
def Task.Came (current : FrameRef) (w : World) : {sort : TaskSort} → Task sort → sort.Result →
    sort.Result → Prop
  | .value, _, a, a' => a.Varies v w a'
  | .flow, task, flow, flow' =>
      flow.Varies v w flow' ∧ (flow = .normal → ∀ name ∈ task.declares, w.Binds current name)
  | .program, _, _, _ => True

variable {α β : Type}

/-- Two actions that started in a world, with a frame current, come to results that `Post` relates, or
stop alike. -/
inductive Variation.Ends (base : World) (current : FrameRef) (Post : World → α → β → Prop) :
    Except Stop α × State → Except Stop β × State → Prop
  | ok {marked : Nat → Bool} {st st' : State} {a : α} {b : β}
      (abreast : Abreast v base current marked st st') (post : Post (st.world marked) a b) :
      Ends base current Post (.ok a, st) (.ok b, st')
  | error {marked : Nat → Bool} {st st' : State} {stop stop' : Stop}
      (abreast : Abreast v base current marked st st') (varies : stop.Varies v stop') :
      Ends base current Post (.error stop, st) (.error stop', st')

/-- Tasks that vary from each other, from states that do, if frames are marked like this. -/
structure Variation.AskedAt (marked : Nat → Bool) (sort : TaskSort) (q q' : Question sort) : Prop where
  states : q.state.Varies v marked q'.state
  tasks : q.task.Varies v (q.state.world marked) q.state.current q'.task

/-- What the tasks come to, if frames are marked like this at the start. -/
def Variation.AnsweredAt (marked : Nat → Bool) (sort : TaskSort) (q _q' : Question sort)
    (r r' : Answer sort) : Prop :=
  Variation.Ends v (q.state.world marked) q.state.current
    (fun w => q.task.Came v q.state.current w) (r.result, r.state) (r'.result, r'.state)

/-- Tasks that vary from each other, from states that do. -/
abbrev Variation.Asked (sort : TaskSort) (q q' : Question sort) : Prop :=
  ∃ marked, v.AskedAt marked sort q q'

/-- What the tasks come to. -/
abbrev Variation.Answered (sort : TaskSort) (q q' : Question sort) (r r' : Answer sort) : Prop :=
  ∀ marked, v.AskedAt marked sort q q' → v.AnsweredAt marked sort q q' r r'

/-- The two actions are in step, from these states. -/
def Eval.Vary (marked : Nat → Bool) (Post : World → α → β → Prop) (action : Eval α)
    (action' : Eval β) (st st' : State) : Prop :=
  (action st).InStep v.Asked v.Answered (v.Ends (st.world marked) st.current Post) (action' st')

end

variable {α β γ δ : Type} {v : Variation} {marked marked' : Nat → Bool} {st st' st₁ st₁' : State}

theorem Variation.Ends.mono {base : World} {current : FrameRef} {Post Post' : World → α → β → Prop}
    {o : Except Stop α × State} {o' : Except Stop β × State} (h : v.Ends base current Post o o')
    (imp : ∀ w a b, Post w a b → Post' w a b) : v.Ends base current Post' o o' := by
  cases h with
  | ok abreast post => exact .ok abreast (imp _ _ _ post)
  | error abreast varies => exact .error abreast varies

/-- What has come of states that lie on the way has come of the start. -/
theorem Variation.Ends.after {base : World} {current : FrameRef} {Post : World → α → β → Prop}
    (abreast : Abreast v base current marked st st') {o : Except Stop α × State}
    {o' : Except Stop β × State} (h : v.Ends (st.world marked) st.current Post o o') :
    v.Ends base current Post o o' := by
  cases h with
  | ok abreast' post => exact .ok (abreast.trans abreast') post
  | error abreast' varies => exact .error (abreast.trans abreast') varies

theorem RuntimeError.Cause.Varies.refl {cause : RuntimeError.Cause} (possible : cause.IsPossible) :
    cause.Varies v cause :=
  ⟨possible, .inl rfl⟩

/-- A name that is not found is the one in one run and the other one in the other, in a marked
frame. -/
theorem RuntimeError.Cause.varies_undefinedVariable {mark : Bool} {name : String}
    (user : ¬Reserved name) (fits : mark = true → name ≠ v.new) :
    Cause.Varies v (.undefinedVariable name) (.undefinedVariable (v.rename mark name)) := by
  refine ⟨fun same => user (.inl same), ?_⟩
  cases mark with
  | false => exact .inl rfl
  | true =>
    by_cases same : name = v.old
    · subst same
      exact .inr ⟨rfl, congrArg _ (Equiv.swap_apply_left ..)⟩
    · exact .inl (congrArg _ (Equiv.swap_apply_of_ne_of_ne same (fits rfl)))

/-- The mark of the innermost scope is that of the current frame. -/
theorem Heap.Varies.mark_eq {w : World} {heap' : Heap} (h : Heap.Varies v w heap') {p : Site}
    {ref : FrameRef} (stands : w.Stands p ref) : w.marked ref.index = p.mark := by
  obtain ⟨target, leads, -, marked⟩ := h.ancestor stands 0
  cases leads
  exact marked

namespace Eval.Vary

variable {Post Post' : World → α → β → Prop} {After : World → γ → δ → Prop} {action : Eval α}
  {action' : Eval β} {next : α → Eval γ} {next' : β → Eval δ} {a : α} {b : β}

/-! ## Sequences -/

theorem of_done (h : action st = .done (.ok a, st₁)) (h' : action' st' = .done (.ok b, st₁'))
    (abreast : Abreast v (st.world marked) st.current marked' st₁ st₁')
    (post : Post (st₁.world marked') a b) : Vary v marked Post action action' st st' := by
  rw [Vary, h, h']
  exact .done (.ok abreast post)

theorem pure (varies : st.Varies v marked st') (post : Post (st.world marked) a b) :
    Vary v marked Post (Pure.pure a) (Pure.pure b) st st' :=
  of_done rfl rfl varies.abreast post

theorem fail (varies : st.Varies v marked st') {line : Nat} {cause cause' : RuntimeError.Cause}
    {m : Nat → Nat} (lines : v.Lines m) (same : cause.Varies v cause') :
    Vary v marked Post (Eval.fail line cause) (Eval.fail (m line) cause') st st' :=
  .done (.error varies.abreast (.error ⟨⟨m, lines, rfl⟩, same⟩))

theorem bind (h : Vary v marked Post action action' st st')
    (rest : ∀ {marked' st₁ st₁' a b}, Abreast v (st.world marked) st.current marked' st₁ st₁' →
      Post (st₁.world marked') a b → Vary v marked' After (next a) (next' b) st₁ st₁') :
    Vary v marked After (action >>= next) (action' >>= next') st st' := by
  rw [Vary, bind_apply, bind_apply]
  refine Plan.InStep.bind h fun o o' ends => ?_
  cases ends with
  | ok abreast post => exact (rest abreast post).mono fun _ _ ends => ends.after abreast
  | error abreast varies => exact .done (.error abreast varies)

theorem map {f : α → γ} {g : β → δ} (h : Vary v marked Post action action' st st')
    (imp : ∀ w a b, Post w a b → After w (f a) (g b)) :
    Vary v marked After (f <$> action) (g <$> action') st st' :=
  bind h fun abreast post => pure abreast.varies (imp _ _ _ post)

theorem mono (h : Vary v marked Post action action' st st')
    (imp : ∀ w a b, Post w a b → Post' w a b) : Vary v marked Post' action action' st st' :=
  Plan.InStep.mono h fun _ _ ends => ends.mono imp

/-- Along the way, the world grows. -/
theorem growing (h : Vary v marked Post action action' st st') :
    Vary v marked (fun w a b => (st.world marked).Grows w ∧ Post w a b) action action' st st' := by
  refine Plan.InStep.mono h fun _ _ ends => ?_
  cases ends with
  | ok abreast post => exact .ok abreast ⟨abreast.grows, post⟩
  | error abreast varies => exact .error abreast varies

/-- An action that is over at once is left behind. -/
theorem bind_of_ok (h : action st = .done (.ok a, st₁)) (h' : action' st' = .done (.ok b, st₁'))
    (abreast : Abreast v (st.world marked) st.current marked' st₁ st₁')
    (rest : Vary v marked' After (next a) (next' b) st₁ st₁') :
    Vary v marked After (action >>= next) (action' >>= next') st st' := by
  rw [Vary, Eval.bind_of_ok h, Eval.bind_of_ok h']
  exact Plan.InStep.mono rest fun _ _ ends => ends.after abreast

/-- What is looked for on the heaps is found on both, or both runs stop. -/
theorem inspect_bind (varies : st.Varies v marked st') {R : α → β → Prop}
    {f : State → Except Dangling α} {g : State → Except Dangling β} (h : Accesses R (f st) (g st'))
    (rest : ∀ a b, R a b → Vary v marked After (next a) (next' b) st st') :
    Vary v marked After (inspect f >>= next) (inspect g >>= next') st st' := by
  generalize found : f st = x, found' : g st' = y at h
  cases h with
  | ok related =>
    exact bind_of_ok (inspect_of_ok found) (inspect_of_ok found') varies.abreast (rest _ _ related)
  | error access =>
    have stops : inspect f st = .done (.error (.fault access), st) := by rw [inspect, found]
    have stops' : inspect g st' = .done (.error (.fault access), st') := by rw [inspect, found']
    rw [Vary, bind_of_error stops, bind_of_error stops']
    exact .done (.error varies.abreast (.fault access))

theorem ofOption (varies : st.Varies v marked st') {line : Nat} {cause cause' : RuntimeError.Cause}
    {m : Nat → Nat} (lines : v.Lines m) (same : cause.Varies v cause') {R : World → α → β → Prop}
    {found : Option α} {found' : Option β} (h : Option.Rel (R (st.world marked)) found found') :
    Vary v marked R (Eval.ofOption line cause found) (Eval.ofOption (m line) cause' found') st st' := by
  cases h with
  | none => exact fail varies lines same
  | some related => exact pure varies related

/-- Operators come to the same, or fail alike. -/
theorem ofResult (varies : st.Varies v marked st') {line : Nat} {m : Nat → Nat} (lines : v.Lines m)
    {R : World → α → β → Prop} {result : Except RuntimeError.Cause α}
    {result' : Except RuntimeError.Cause β}
    (h : (∃ a b, result = .ok a ∧ result' = .ok b ∧ R (st.world marked) a b) ∨
      ∃ cause, result = .error cause ∧ result' = .error cause ∧ cause.IsPossible) :
    Vary v marked R (Eval.ofResult line result) (Eval.ofResult (m line) result') st st' := by
  rcases h with ⟨a, b, rfl, rfl, related⟩ | ⟨cause, rfl, rfl, possible⟩
  · exact pure varies related
  · exact fail varies lines (.refl possible)

/-! ## Tasks -/

theorem ask {sort : TaskSort} {task task' : Task sort}
    (asked : v.AskedAt marked sort ⟨task, st⟩ ⟨task', st'⟩) :
    Vary v marked (fun w => task.Came v st.current w) (Eval.ask task) (Eval.ask task') st st' :=
  Plan.InStep.ask ⟨marked, asked⟩ fun _ _ answered => .done (answered marked asked)

theorem evaluate (varies : st.Varies v marked st') {m : Nat → Nat} {p : Site} {e e' : Expr}
    (lines : v.Lines m) (stands : (st.world marked).Stands p st.current) (same : e.Varies v m p e') :
    Vary v marked (Value.Varies v) (Eval.ask (.evaluate e)) (Eval.ask (.evaluate e')) st st' :=
  ask ⟨varies, .evaluate lines stands same⟩

theorem execute (varies : st.Varies v marked st') {m : Nat → Nat} {p : Site} {s s' : Stmt}
    (lines : v.Lines m) (stands : (st.world marked).Stands p st.current) (same : s.Varies v m p s') :
    Vary v marked (fun w flow flow' => flow.Varies v w flow' ∧
        (flow = .normal → ∀ name ∈ s.declares, w.Binds st.current name))
      (Eval.ask (.execute s)) (Eval.ask (.execute s')) st st' :=
  ask ⟨varies, .execute lines stands same⟩

/-! ## Actions around others -/

theorem inFrame (varies : st.Varies v marked st') {frame : FrameRef}
    (h : Vary v marked Post action action' (st.inside frame) (st'.inside frame)) :
    Vary v marked Post (Eval.inFrame frame action) (Eval.inFrame frame action') st st' := by
  refine Plan.InStep.bind h fun o o' ends => .done ?_
  cases ends with
  | ok abreast post =>
    exact .ok ⟨{ abreast.varies with current := varies.current }, abreast.grows, rfl⟩ post
  | error abreast same =>
    exact .error ⟨{ abreast.varies with current := varies.current }, abreast.grows, rfl⟩ same

/-- Values are held on to for the collector, which makes no difference to a program. -/
theorem holding {value value' : Value}
    (h : Vary v marked Post action action' (st.push value) (st'.push value')) :
    Vary v marked Post (Eval.holding value action) (Eval.holding value' action') st st' := by
  refine Plan.InStep.bind h fun o o' ends => .done ?_
  cases ends with
  | ok abreast post =>
    exact .ok ⟨abreast.varies.withTemporaries _ _, abreast.grows, abreast.current⟩ post
  | error abreast same =>
    exact .error ⟨abreast.varies.withTemporaries _ _, abreast.grows, abreast.current⟩ same

theorem inCall (h : Vary v marked Post action action' st.called st'.called) :
    Vary v marked Post (Eval.inCall action) (Eval.inCall action') st st' := by
  refine Plan.InStep.bind h fun o o' ends => .done ?_
  cases ends with
  | ok abreast post =>
    have less := congrArg (· - 1) abreast.varies.callDepth
    exact .ok ⟨{ abreast.varies with callDepth := less }, abreast.grows, abreast.current⟩ post
  | error abreast same =>
    have less := congrArg (· - 1) abreast.varies.callDepth
    exact .error ⟨{ abreast.varies with callDepth := less }, abreast.grows, abreast.current⟩ same

/-! ## Variables -/

/-- A variable is changed in both runs. -/
theorem changeVariable (varies : st.Varies v marked st') {mark : Bool} {owner : FrameRef}
    (here : marked owner.index = mark) {name : String} {a a' : Value} (suits : a.Suits name)
    (same : a.Varies v ((st.world marked).on (st.heap.bindVariable owner name a)) a') :
    Vary v marked
      (fun w _ _ => ∀ frame, st.heap.frames.get? owner.index = some frame → w.Binds owner name)
      (changeHeap (·.bindVariable owner name a))
      (changeHeap (·.bindVariable owner (v.rename mark name) a')) st st' := by
  have bound := varies.heap.bindVariable owner suits same
  rw [show (st.world marked).marked owner.index = mark from here] at bound
  exact of_done rfl rfl (varies.abreast.withHeap bound (World.grows_bindVariable ..))
    fun frame found => World.binds_bindVariable (w := st.world marked) found name a

/-- What is bound to a name may depend on the name being bound. -/
theorem defineIn_of_binds (varies : st.Varies v marked st') (ref : FrameRef) {name : String}
    {a a' : Value} (suits : a.Suits name)
    (same : ((st.world marked).on (st.heap.bindVariable ref name a)).Binds ref name →
      a.Varies v ((st.world marked).on (st.heap.bindVariable ref name a)) a') :
    Vary v marked (fun w _ _ => w.Binds ref name) (Eval.defineIn ref name a)
      (Eval.defineIn ref (v.rename (marked ref.index) name) a') st st' := by
  refine inspect_bind varies (varies.heap.frame ref).found fun frame frame' ⟨access, _, _⟩ => ?_
  have found := Heap.get?_of_frame access
  have binds := World.binds_bindVariable (w := st.world marked) found name a
  exact (changeVariable varies rfl suits (same binds)).mono fun w _ _ binds => binds frame found

theorem defineIn (varies : st.Varies v marked st') (ref : FrameRef) {name : String} {a a' : Value}
    (suits : a.Suits name) (same : a.Varies v (st.world marked) a') :
    Vary v marked (fun w _ _ => w.Binds ref name) (Eval.defineIn ref name a)
      (Eval.defineIn ref (v.rename (marked ref.index) name) a') st st' :=
  defineIn_of_binds varies ref suits fun _ => same.mono (World.grows_bindVariable ..)

/-- A name that is declared is bound in the current frame. -/
theorem define_of_binds (varies : st.Varies v marked st') {p : Site}
    (stands : (st.world marked).Stands p st.current) {name : String} (user : ¬Reserved name)
    {a a' : Value}
    (same : ((st.world marked).on (st.heap.bindVariable st.current name a)).Binds st.current name →
      a.Varies v ((st.world marked).on (st.heap.bindVariable st.current name a)) a') :
    Vary v marked (fun w _ _ => w.Binds st.current name) (Eval.define name a)
      (Eval.define (v.rename p.mark name) a') st st' := by
  have mark : (st.world marked).marked st.current.index = p.mark := varies.heap.mark_eq stands
  refine bind_of_ok rfl rfl varies.abreast ?_
  rw [← mark, varies.current]
  exact defineIn_of_binds varies st.current (.of_not_reserved user a) same

theorem define (varies : st.Varies v marked st') {p : Site}
    (stands : (st.world marked).Stands p st.current) {name : String} (user : ¬Reserved name)
    {a a' : Value} (same : a.Varies v (st.world marked) a') :
    Vary v marked (fun w _ _ => w.Binds st.current name) (Eval.define name a)
      (Eval.define (v.rename p.mark name) a') st st' :=
  define_of_binds varies stands user fun _ => same.mono (World.grows_bindVariable ..)

/-- What a depth leads to from the current frames. -/
theorem lookupAt (varies : st.Varies v marked st') {p : Site}
    (stands : (st.world marked).Stands p st.current) (distance : Nat) (name : String) :
    Accesses (Option.Rel (Value.Varies v (st.world marked)))
      (st.heap.lookupAt st.current distance name)
      (st'.heap.lookupAt st'.current distance (v.rename (p.isMarked (some distance)) name)) := by
  rw [varies.current]
  exact varies.heap.lookupAt stands distance name

theorem lookUp (varies : st.Varies v marked st') {m : Nat → Nat} {p : Site} (lines : v.Lines m)
    (stands : (st.world marked).Stands p st.current) {name : String} (user : ¬Reserved name)
    (line : Nat) {depth : Option Nat} (fits : p.isMarked depth = true → name ≠ v.new) :
    Vary v marked (Value.Varies v) (Eval.lookUp name line depth)
      (Eval.lookUp (v.rename (p.isMarked depth) name) (m line) depth) st st' := by
  have same := RuntimeError.Cause.varies_undefinedVariable user fits
  cases depth with
  | none =>
    have found := varies.heap.lookup name
    refine inspect_bind varies (R := Option.Rel (Value.Varies v (st.world marked))) ?_ ?_
    · rw [varies.globals]
      exact found
    · exact fun _ _ related => ofOption varies lines same related
  | some distance =>
    exact inspect_bind varies (lookupAt varies stands distance name) fun _ _ related =>
      ofOption varies lines same related

theorem assign (varies : st.Varies v marked st') {m : Nat → Nat} {p : Site} (lines : v.Lines m)
    (stands : (st.world marked).Stands p st.current) {target : Reference}
    (user : ¬Reserved target.name.lexeme) (fits : v.Fits p target) {a a' : Value} (same : a.Varies v (st.world marked) a') :
    Vary v marked (fun _ _ _ => True) (Eval.assign target a)
      (Eval.assign (v.reference m p target) a') st st' := by
  obtain ⟨name, depth⟩ := target
  have cause := RuntimeError.Cause.varies_undefinedVariable user fits
  -- Who binds the variable is found in different ways with a depth and without; what follows is the same.
  let R : Option FrameRef → Option FrameRef → Prop := fun owner owner' =>
    owner' = owner ∧ ∀ target ∈ owner, marked target.index = p.isMarked depth
  have change : ∀ owner owner', R owner owner' → Vary v marked (fun _ _ _ => True)
      (Eval.ofOption name.line (.undefinedVariable name.lexeme) owner >>= fun frame =>
        changeHeap (·.bindVariable frame name.lexeme a))
      (Eval.ofOption (m name.line) (.undefinedVariable (v.rename (p.isMarked depth) name.lexeme)) owner'
        >>= fun frame => changeHeap (·.bindVariable frame (v.rename (p.isMarked depth) name.lexeme) a'))
      st st' := by
    rintro _ owner ⟨rfl, here⟩
    cases owner with
    | none =>
      have fails : Vary v marked (fun _ _ _ => False)
          (Eval.ofOption name.line (.undefinedVariable name.lexeme) (none : Option FrameRef))
          (Eval.ofOption (m name.line) _ (none : Option FrameRef)) st st' :=
        fail varies lines cause
      exact bind fails fun _ => False.elim
    | some frame =>
      exact bind_of_ok rfl rfl varies.abreast
        ((changeVariable varies (here frame rfl) (.of_not_reserved user a) (same.mono (World.grows_bindVariable ..))).mono
          fun _ _ _ _ => trivial)
  cases depth with
  | none =>
    refine inspect_bind varies (R := R) ?_ change
    have found := varies.heap.owner name.lexeme
    simp only [Variation.reference, Variation.ident, varies.globals]
    exact found
  | some distance =>
    refine inspect_bind varies (R := R) ?_ change
    have found := varies.heap.ownerAt stands distance name.lexeme
    simp only [Variation.reference, Variation.ident, varies.current]
    exact found

end Eval.Vary

end Lox
