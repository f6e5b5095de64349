import Mathlib
import Lox.Proofs.Session.Safety
import Lox.Proofs.Variation.Session

/-!
# Recorded depths lead to the right frames

Whenever an expression is evaluated that looks for a name at a recorded depth, the frames from the
current one out are activations of the scopes around the expression, one by one, and then come the
globals (`Heap.Activates`).  The depth was recorded by resolution for one of these scopes, the nearest
that declares the name, so that the frame at that depth is an activation of it (`Evaluation.Found`).

It follows that `this` and `super` are always found, and that a local variable is missing from its frame
only while its own initializer has not come to an end.
-/

namespace Lox

open Evaluation

/-! ## Frames and scopes -/

/-- The frames from one on out are activations of these scopes one by one, and then come the globals. -/
def Heap.Activates (heap : Heap) (globals : FrameRef) : Context → FrameRef → Prop
  | [], ref => ref = globals
  | scope :: ctx, ref => ∃ frame outer, heap.HoldsFrame ref frame ∧ frame.Activates scope outer ∧
      heap.Activates globals ctx outer

namespace Heap.Activates

variable {heap : Heap} {globals ref : FrameRef} {ctx : Context}

/-- There are as many links to the globals as there are scopes. -/
theorem links (h : heap.Activates globals ctx ref) : heap.Links globals ref ctx.length := by
  induction ctx generalizing ref with
  | nil =>
    obtain rfl : ref = globals := h
    exact .here
  | cons scope ctx ih =>
    obtain ⟨frame, outer, holds, activates, rest⟩ := h
    exact .out ⟨frame, holds, activates.enclosing⟩ (ih rest)

/-- A depth leads to the frame that is an activation of the scope there. -/
theorem at_distance (h : heap.Activates globals ctx ref) {distance : Nat} {scope : LexicalScope}
    (there : ctx[distance]? = some scope) : ∃ target frame outer, heap.Links target ref distance ∧
      heap.ancestor distance ref = .ok target ∧ heap.HoldsFrame target frame ∧
      frame.Activates scope outer := by
  induction ctx generalizing ref distance with
  | nil => cases there
  | cons inner ctx ih =>
    obtain ⟨frame, outer, holds, activates, rest⟩ := h
    cases distance with
    | zero =>
      cases there
      exact ⟨ref, frame, outer, .here, rfl, holds, activates⟩
    | succ distance =>
      obtain ⟨target, frame', outer', links, leads, found⟩ := ih rest there
      refine ⟨target, frame', outer', .out ⟨frame, holds, activates.enclosing⟩ links, ?_, found⟩
      simp only [Heap.ancestor, holds.access, activates.enclosing, bind, Except.bind]
      exact leads

end Heap.Activates

namespace State.Represents

variable {st ideal : State} {marked : Nat → Bool}

/-- What a chain of frames is told by the ideal. -/
theorem activates (h : st.Represents ideal) {ctx : Context} {marks : List Bool} {ref : FrameRef}
    (there : st.heap.Has (.frame ref)) (chain : (ideal.world marked).Chain ctx marks ref.ideal) :
    st.heap.Activates st.globals ctx ref := by
  obtain ⟨frame, holds⟩ := there
  have access := h.heap.access holds
  induction ctx generalizing marks ref frame with
  | nil =>
    cases marks with
    | cons _ _ => exact chain.elim
    | nil =>
      have same : ref.ideal = ideal.globals := chain
      -- Only the ideals of the two references are known to agree.  The globals are told by having nothing
      -- around them, which shows on the ideal heap.
      obtain ⟨outermost, holds'⟩ := h.valid.heap.hasGlobals
      have access' := h.heap.access holds'
      rw [same, h.globals, access', Except.ok.injEq] at access
      have last := (h.valid.heap.outermost holds').mpr rfl
      have last' : frame.enclosing = none := by
        have same := congrArg Frame.enclosing access
        rw [Frame.ideal, Frame.ideal, last] at same
        exact Option.map_eq_none_iff.mp same.symm
      exact (h.valid.heap.outermost holds).mp last'
  | cons scope ctx ih =>
    cases marks with
    | nil => exact chain.elim
    | cons mark marks =>
      obtain ⟨frame', outer', found, activates, -, chain⟩ := chain
      have access' : ideal.heap.frame ref.ideal = .ok frame' := by
        rw [Heap.frame, show ideal.heap.frames.get? _ = _ from found]
      rw [access, Except.ok.injEq] at access'
      subst access'
      obtain ⟨outer, encloses, rfl⟩ := Option.map_eq_some_iff.mp activates.enclosing
      have here : frame.Activates scope outer := by
        refine ⟨activates.construct, encloses, fun name ready => ?_, fun name reserved there => ?_⟩
        · exact (Bindings.contains_map ..).symm.trans (activates.bound name ready)
        · exact (Bindings.contains_map ..).symm.trans (activates.reserved name reserved there)
      obtain ⟨frame'', holds''⟩ := h.valid.heap.sound.has_enclosing holds encloses
      exact ⟨frame, outer, holds, here, ih chain frame'' holds'' (h.heap.access holds'')⟩

end State.Represents

/-! ## What expressions look for -/

/-- The name that an expression looks for at a recorded depth. -/
def Expr.seeks : Expr → Option (String × Nat)
  | .variable_ ref => ref.depth.map (ref.name.lexeme, ·)
  | .assign target _ => target.depth.map (target.name.lexeme, ·)
  | .this keyword depth => depth.map (keyword.lexeme, ·)
  | .super _ _ depth => depth.map (superName, ·)
  | _ => none

theorem Expr.seeks_variable {target : Reference} {distance : Nat}
    (depth : target.depth = some distance) :
    (Expr.variable_ target).seeks = some (target.name.lexeme, distance) := by
  rw [seeks, depth]
  rfl

theorem Expr.seeks_assign {target : Reference} {value : Expr} {distance : Nat}
    (depth : target.depth = some distance) :
    (Expr.assign target value).seeks = some (target.name.lexeme, distance) := by
  rw [seeks, depth]
  rfl

theorem Expr.Varies.part {v : Variation} {m : Nat → Nat} {p : Site} {e e' : Expr}
    (h : e.Varies v m p e') {sought : String × Nat} (seeks : e.seeks = some sought) :
    v.Part p.context (.expr e) := by
  cases h with
  | variable_ part _ | assign part _ _ | this part | super part => exact part
  | _ => cases seeks

/-- The recorded depth is that of the nearest scope that declares the name. -/
theorem Expr.distance_of_seeks {ctx : Context} {e : Expr} (right : (Node.expr e).Right ctx)
    {name : String} {distance : Nat} (seeks : e.seeks = some (name, distance)) :
    Resolver.distance ctx.scopes name = some distance := by
  have agrees := right.agrees
  cases e with
  | variable_ ref =>
    obtain ⟨_, known, same⟩ := Option.map_eq_some_iff.mp seeks
    cases same
    exact agrees.symm.trans known
  | assign target value =>
    obtain ⟨_, known, same⟩ := Option.map_eq_some_iff.mp seeks
    cases same
    exact agrees.symm.trans known
  | this keyword depth =>
    obtain ⟨_, rfl, found, -⟩ := agrees
    cases seeks
    exact (congrArg (Resolver.distance ctx.scopes) right.names).trans found
  | super keyword method depth =>
    obtain ⟨_, rfl, -, found, -⟩ := agrees
    cases seeks
    exact found
  | _ => cases seeks

namespace Evaluation

/-- The expression stands in a context in one of the texts, a name is declared by a scope of the context
that lies so many scopes out and by none within that one, and in the state the frame that lies so
many links out is an activation of that scope. -/
structure Found (texts : List (List Stmt)) (st : State) (e : Expr) (name : String) (distance : Nat)
    (ctx : Context) (scope : LexicalScope) (ref : FrameRef) (frame : Frame) : Prop where
  stands : ∃ text ∈ texts, (ctx, .expr e) ∈ Stmt.nodesAll [] text
  finds : ctx.Finds name distance scope
  /-- The frames around the current one are activations of all the scopes of the context. -/
  activates : st.heap.Activates st.globals ctx st.current
  /-- The globals lie further out. -/
  globals : ∃ n, distance < n ∧ st.heap.Links st.globals st.current n
  links : st.heap.Links ref st.current distance
  /-- The frame that is looked at is this one. -/
  leads : st.heap.ancestor distance st.current = .ok ref
  holds : st.heap.HoldsFrame ref frame
  activation : ∃ outer, frame.Activates scope outer

/-- The variable is missing from the frame, and the expression is part of its initializer. -/
def Incomplete (texts : List (List Stmt)) (st : State) (e : Expr) (name : String) (distance : Nat) :
    Prop :=
  ∃ ctx scope ref frame initial, Found texts st e name distance ctx scope ref frame ∧
    scope.names.find? name = some (.initializing initial) ∧ frame.bindings.contains name = false

end Evaluation

/-- While a program runs, recorded depths lead to activations of the scopes that resolution found. -/
structure Evaluation.Scoped (texts : List (List Stmt)) (start : Question .program) : Prop where
  /-- What is looked for at a recorded depth is looked for in an activation of the right scope. -/
  found : ∀ {e st}, evaluation.Arises start ⟨.evaluate e, st⟩ → ∀ {name distance},
    e.seeks = some (name, distance) →
      ∃ ctx scope ref frame, Found texts st e name distance ctx scope ref frame
  /-- So is what is assigned to, once the value to assign has been computed. -/
  assigned : ∀ {target value st}, evaluation.Arises start ⟨.evaluate (.assign target value), st⟩ →
    ∀ {distance}, target.depth = some distance → ∀ {a after},
      evaluation.Answers .value ⟨.evaluate value, st⟩ ⟨.ok a, after⟩ → ∃ ctx scope ref frame,
        Found texts after (.assign target value) target.name.lexeme distance ctx scope ref frame
  /-- `this` is found. -/
  this : ∀ {keyword depth st}, evaluation.Arises start ⟨.evaluate (.this keyword depth), st⟩ →
    ∃ distance object, depth = some distance ∧ keyword.lexeme = thisName ∧
      st.heap.lookupAt st.current distance thisName = .ok (some (.instance_ object))
  /-- `super` is found, and `this` one link nearer. -/
  super : ∀ {keyword method depth st},
    evaluation.Arises start ⟨.evaluate (.super keyword method depth), st⟩ →
    ∃ distance type object, depth = some (distance + 1) ∧
      st.heap.lookupAt st.current (distance + 1) superName = .ok (some (.class_ type)) ∧
      st.heap.lookupAt st.current distance thisName = .ok (some (.instance_ object))
  /-- Nothing fails for want of them. -/
  possible : ∀ {sort} {q : Question sort} {r : Answer sort}, evaluation.Arises start q →
    evaluation.Answers sort q r → ∀ {line cause}, r.result = .error (.error ⟨line, cause⟩) →
      cause ≠ .unresolvedSuper ∧ cause ≠ .unresolvedThis ∧ cause ≠ .undefinedVariable thisName
  /-- A read at a recorded depth fails only in the initializer of the variable, before that has come
  to an end. -/
  undefinedRead : ∀ {ref st}, evaluation.Arises start ⟨.evaluate (.variable_ ref), st⟩ →
    ∀ {distance}, ref.depth = some distance → ∀ {line name st'},
      evaluation.Answers .value ⟨.evaluate (.variable_ ref), st⟩
        ⟨.error (.error ⟨line, .undefinedVariable name⟩), st'⟩ →
      Incomplete texts st (.variable_ ref) ref.name.lexeme distance
  /-- So does an assignment whose value has been computed. -/
  undefinedAssignment : ∀ {target value st},
    evaluation.Arises start ⟨.evaluate (.assign target value), st⟩ → ∀ {distance},
      target.depth = some distance → ∀ {a after},
        evaluation.Answers .value ⟨.evaluate value, st⟩ ⟨.ok a, after⟩ → ∀ {line name st'},
          evaluation.Answers .value ⟨.evaluate (.assign target value), st⟩
            ⟨.error (.error ⟨line, .undefinedVariable name⟩), st'⟩ →
          Incomplete texts after (.assign target value) target.name.lexeme distance
  /-- A declaration that has come to an end has bound its name in the frame that it ran in. -/
  declared : ∀ {name initial before}, evaluation.Arises start ⟨.perform (.var name initial), before⟩ →
    ∀ {after}, evaluation.Answers .flow ⟨.perform (.var name initial), before⟩ ⟨.ok .normal, after⟩ →
      ∃ frame, after.heap.HoldsFrame before.current frame ∧ frame.bindings.contains name.lexeme = true

/-! ## Places in the texts -/

/-- Texts that vary from themselves and nothing else, where it is known of each part where it stands. -/
def Variation.standing (texts : List (List Stmt)) : Variation :=
  .still fun ctx n => ∃ text ∈ texts, (ctx, n) ∈ Stmt.nodesAll [] text

namespace Evaluation

variable {v : Variation} {sort : TaskSort} {q : Question sort}

/-- A question has come up in a session that varies from itself. -/
structure Placed (v : Variation) {sort : TaskSort} (q : Question sort) (ideal : State)
    (marked : Nat → Bool) (q' : Question sort) : Prop where
  asked : Simulation.Asked .any sort q ⟨q.task.ideal, ideal⟩
  askedAt : v.AskedAt marked sort ⟨q.task.ideal, ideal⟩ q'

theorem exists_placed {session : Session} (h : session.Varies v session) {program : List Stmt}
    (plain : Stmt.EveryAll Node.Plain program) (lines : v.Lines id)
    (parts : ∀ part ∈ Stmt.nodesAll [] program, v.Part part.1 part.2)
    (arises : evaluation.Arises ⟨.run program, session.state⟩ q) :
    ∃ ideal marked q', Placed v q ideal marked q' := by
  obtain ⟨marked, ideal, ideal', represents, -, varies, here⟩ := h
  have asked : Simulation.Asked .any _ _ _ := .run represents plain trivial
  have unmarked : Site.outermost.Unmarked := List.forall_mem_nil _
  have vary : Stmt.AllVary v id .outermost program _ := Stmt.allVary_lines id unmarked parts
  rw [Stmt.relabelAll_id] at vary
  have askedAt : v.AskedAt marked _ ⟨.run program, ideal⟩ ⟨.run program, ideal'⟩ :=
    ⟨varies, .run lines here vary⟩
  obtain ⟨⟨task', ideal₁⟩, arises', asked₁⟩ :=
    arises.inStep (evaluationWith_inStep Along.collectIfDue .any) asked
  obtain ⟨q'', -, marked₁, askedAt₁⟩ := arises'.inStep (evaluation_inStep v) ⟨marked, askedAt⟩
  obtain rfl : task' = q.task.ideal := asked₁.task
  exact ⟨ideal₁, marked₁, q'', asked₁, askedAt₁⟩

namespace Placed

variable {ideal : State} {marked : Nat → Bool} {q' : Question sort}

/-- What the question comes to, and what becomes of the world. -/
theorem ends (h : Placed v q ideal marked q') {r : Answer sort} (known : evaluation.Answers sort q r) :
    ∃ ideally ideally', Simulation.Answered sort q ⟨q.task.ideal, ideal⟩ r ideally ∧
      v.AnsweredAt marked sort ⟨q.task.ideal, ideal⟩ q' ideally ideally' := by
  obtain ⟨ideally, known', answered⟩ :=
    known.inStep (evaluationWith_inStep Along.collectIfDue .any) h.asked
  obtain ⟨ideally', -, ends⟩ := known'.inStep (evaluation_inStep v) ⟨marked, h.askedAt⟩
  exact ⟨ideally, ideally', answered, ends marked h.askedAt⟩

end Placed

/-- The scopes around an expression that comes up. -/
theorem Placed.site {e : Expr} {st ideal : State} {marked : Nat → Bool} {q' : Question .value}
    (h : Placed v ⟨.evaluate e, st⟩ ideal marked q') : ∃ m p e', v.Lines m ∧
      (ideal.world marked).Stands p ideal.current ∧ e.Varies v m p e' := by
  obtain ⟨task', st'⟩ := q'
  have tasks : Task.Varies v (ideal.world marked) ideal.current (.evaluate e) task' :=
    h.askedAt.tasks
  cases tasks with
  | @evaluate m p _ e' lines stands varies => exact ⟨m, p, e', lines, stands, varies⟩

end Evaluation

theorem State.Represents.activates_current {st ideal : State} (h : st.Represents ideal)
    {marked : Nat → Bool} {p : Site} (stands : (ideal.world marked).Stands p ideal.current) :
    st.heap.Activates st.globals p.context st.current := by
  rw [h.current] at stands
  exact h.activates (h.valid.roots _ (State.mem_roots_current st)) stands

namespace Evaluation

variable {texts : List (List Stmt)} {st : State} {e : Expr} {name : String} {distance : Nat}
  {ctx : Context} {scope : LexicalScope} {ref : FrameRef} {frame : Frame}

theorem exists_found (activates : st.heap.Activates st.globals ctx st.current)
    (part : (Variation.standing texts).Part ctx (.expr e)) (seeks : e.seeks = some (name, distance)) :
    ∃ scope ref frame, Found texts st e name distance ctx scope ref frame := by
  obtain ⟨scope, finds⟩ := Context.exists_finds (Expr.distance_of_seeks part.1 seeks)
  obtain ⟨ref, frame, outer, links, leads, holds, activation⟩ := activates.at_distance finds.there
  have lt : distance < ctx.length := (List.getElem?_eq_some_iff.mp finds.there).1
  exact ⟨scope, ref, frame, part.2, finds, activates, ⟨_, lt, activates.links⟩, links, leads, holds,
    outer, activation⟩

namespace Found

theorem lookupAt (h : Found texts st e name distance ctx scope ref frame) :
    st.heap.lookupAt st.current distance name = .ok (frame.bindings.find? name) := by
  simp only [Heap.lookupAt, h.leads, h.holds.access, bind, Except.bind]
  rfl

theorem ownerAt (h : Found texts st e name distance ctx scope ref frame) :
    st.heap.ownerAt st.current distance name =
      .ok (if frame.bindings.contains name then some ref else none) := by
  simp only [Heap.ownerAt, h.leads, h.holds.access, bind, Except.bind]
  rfl

/-- What is not bound yet is being initialized. -/
theorem incomplete (h : Found texts st e name distance ctx scope ref frame)
    (unbound : frame.bindings.contains name = false) : Incomplete texts st e name distance := by
  obtain ⟨readiness, declared⟩ := Option.isSome_iff_exists.mp h.finds.declares
  obtain ⟨outer, activates⟩ := h.activation
  cases readiness with
  | ready =>
    rw [activates.bound name declared] at unbound
    cases unbound
  | initializing initial => exact ⟨ctx, scope, ref, frame, initial, h, declared, unbound⟩

end Found

/-! ## Reads and assignments -/

/-- An expression whose rule asks for nothing. -/
theorem answers_of_result {after : State} {action : Eval Value}
    (ruled : e.rule = Ending.result <$> action) {result : Except Stop Value}
    (done : action st = .done (result, after)) :
    evaluation.Answers .value ⟨.evaluate e, st⟩ ⟨result, after⟩ := by
  refine Rules.answers_of_reaches ?_
  change Plan.Reaches _ (e.rule st >>= _) _
  cases result with
  | ok a =>
    rw [ruled, Eval.map_eq_bind, Eval.bind_of_ok done]
    exact .refl _
  | error stop =>
    rw [ruled, Eval.map_eq_bind, Eval.bind_of_error done]
    exact .refl _

/-- A local variable that is bound is read. -/
theorem answers_variable {target : Reference} {a : Value} (depth : target.depth = some distance)
    (looked : st.heap.lookupAt st.current distance target.name.lexeme = .ok (some a)) :
    evaluation.Answers .value ⟨.evaluate (.variable_ target), st⟩ ⟨.ok a, st⟩ := by
  refine answers_of_result rfl ?_
  rw [depth]
  exact Eval.lookUp_local looked

/-- A local variable that is bound is assigned to. -/
theorem answers_assign {target : Reference} {value : Expr} {a : Value} {after : State}
    {owner : FrameRef} (depth : target.depth = some distance)
    (known : evaluation.Answers .value ⟨.evaluate value, st⟩ ⟨.ok a, after⟩)
    (owned : after.heap.ownerAt after.current distance target.name.lexeme = .ok (some owner)) :
    evaluation.Answers .value ⟨.evaluate (.assign target value), st⟩
      ⟨.ok a, { after with heap := after.heap.bindVariable owner target.name.lexeme a }⟩ := by
  obtain ⟨name, _⟩ := target
  obtain rfl := depth
  have assigned : Eval.assign ⟨name, some distance⟩ a after =
      .done (.ok (), { after with heap := after.heap.bindVariable owner name.lexeme a }) :=
    Eval.assign_local owned
  refine Rules.answers_of_reaches (.answer known ?_)
  change Plan.Reaches _ ((Eval.assign ⟨name, some distance⟩ a >>= fun _ =>
    Pure.pure (Ending.result a : Ending .value)) after >>= _) _
  rw [Eval.bind_of_ok assigned]
  exact .refl _

end Evaluation

/-! ## `this` and `super` -/

theorem Value.suits_of_ideal {name : String} {a : Value} (h : a.ideal.Suits name) : a.Suits name := by
  constructor
  · intro same
    obtain ⟨object, found⟩ := h.this same
    cases a with
    | instance_ object => exact ⟨object, rfl⟩
    | _ => cases found
  · intro same
    obtain ⟨type, found⟩ := h.super same
    cases a with
    | class_ type => exact ⟨type, rfl⟩
    | _ => cases found

/-- What a reserved name is bound to is found. -/
theorem State.Represents.lookupReserved {v : Variation} {st ideal ideal' : State} {marked : Nat → Bool}
    (h : st.Represents ideal) (varies : ideal.Varies v marked ideal') {p : Site}
    (stands : (ideal.world marked).Stands p ideal.current) {name : String} (reserved : Reserved name)
    {distance : Nat} (found : Resolver.distance p.context.scopes name = some distance) :
    ∃ a, st.heap.lookupAt st.current distance name = .ok (some a) ∧ a.Suits name := by
  obtain ⟨a', -, looked, -, -, suits⟩ := varies.heap.lookupReserved stands reserved found
  have there := h.valid.roots _ (State.mem_roots_current st)
  obtain ⟨found, looked', same, -⟩ := h.heap.lookupAt h.valid.heap there distance name
  have looked : ideal.heap.lookupAt ideal.current distance name = .ok (some a') := looked
  rw [h.current, same, Except.ok.injEq] at looked
  obtain ⟨a, rfl, rfl⟩ := Option.map_eq_some_iff.mp looked
  exact ⟨a, looked', Value.suits_of_ideal suits⟩

/-! ## While a program runs -/

namespace Evaluation

section

variable {v : Variation} {e : Expr} {st ideal : State} {marked : Nat → Bool} {q' : Question .value}

/-- What stands around an expression still does when the expression has been evaluated. -/
theorem Placed.after {a : Value} {after : State} (h : Placed v ⟨.evaluate e, st⟩ ideal marked q')
    (known : evaluation.Answers .value ⟨.evaluate e, st⟩ ⟨.ok a, after⟩) {p : Site}
    (stands : (ideal.world marked).Stands p ideal.current) :
    after.heap.Activates after.globals p.context after.current := by
  obtain ⟨⟨result, ideal₁⟩, ⟨result', ideal₁'⟩, answered, ends⟩ := h.ends known
  cases answered with
  | ok came =>
    cases ends with
    | ok abreast _ =>
      have stands := abreast.grows.stands stands
      rw [← show ideal₁.current = _ from abreast.current] at stands
      exact came.2.1.represents.activates_current stands

/-- The value that is to be assigned comes up where the assignment does. -/
theorem Placed.assigned {target : Reference} {value : Expr}
    (h : Placed v ⟨.evaluate (.assign target value), st⟩ ideal marked q') :
    ∃ p q'', v.Part p.context (.expr (.assign target value)) ∧
      (ideal.world marked).Stands p ideal.current ∧
      Placed v (⟨.evaluate value, st⟩ : Question .value) ideal marked q'' := by
  obtain ⟨m, p, e', lines, stands, varies⟩ := h.site
  cases varies with
  | @assign _ _ _ value' part _ varies =>
    have asked : Simulation.Asked .any .value ⟨.evaluate value, st⟩ ⟨.evaluate value, ideal⟩ :=
      ⟨rfl, h.asked.represents, h.asked.fits.2, fun _ mem => (by cases mem), trivial⟩
    have askedAt : v.AskedAt marked .value ⟨.evaluate value, ideal⟩ ⟨.evaluate value', q'.state⟩ :=
      ⟨h.askedAt.states, .evaluate lines stands varies⟩
    exact ⟨p, _, part, stands, asked, askedAt⟩

end

namespace Placed

variable {texts : List (List Stmt)} {st ideal : State} {marked : Nat → Bool}

section

variable {q' : Question .value} {name : String} {distance : Nat}

/-- What is looked for at a recorded depth is looked for in an activation of the right scope. -/
theorem exists_found {e : Expr} (h : Placed (.standing texts) ⟨.evaluate e, st⟩ ideal marked q')
    (seeks : e.seeks = some (name, distance)) :
    ∃ ctx scope ref frame, Found texts st e name distance ctx scope ref frame := by
  obtain ⟨m, p, e', -, stands, varies⟩ := h.site
  exact ⟨p.context, Evaluation.exists_found (h.asked.represents.activates_current stands)
    (varies.part seeks) seeks⟩

/-- So is what is assigned to, where the value to assign has left the state. -/
theorem exists_found_assigned {target : Reference} {value : Expr} {a : Value} {after : State}
    (h : Placed (.standing texts) ⟨.evaluate (.assign target value), st⟩ ideal marked q')
    (depth : target.depth = some distance)
    (known : evaluation.Answers .value ⟨.evaluate value, st⟩ ⟨.ok a, after⟩) :
    ∃ ctx scope ref frame,
      Found texts after (.assign target value) target.name.lexeme distance ctx scope ref frame := by
  obtain ⟨p, q'', part, stands, placed⟩ := h.assigned
  exact ⟨p.context, Evaluation.exists_found (placed.after known stands) part (Expr.seeks_assign depth)⟩

theorem finds_this {keyword : Word} {depth : Option Nat}
    (h : Placed (.standing texts) ⟨.evaluate (.this keyword depth), st⟩ ideal marked q') :
    ∃ distance object, depth = some distance ∧ keyword.lexeme = thisName ∧
      st.heap.lookupAt st.current distance thisName = .ok (some (.instance_ object)) := by
  obtain ⟨m, p, e', -, stands, varies⟩ := h.site
  cases varies with
  | this part =>
    obtain ⟨distance, rfl, found, -⟩ := part.1.agrees
    obtain ⟨a, looked, suits⟩ :=
      h.asked.represents.lookupReserved h.askedAt.states stands (.inl rfl) found
    obtain ⟨object, rfl⟩ := suits.this rfl
    exact ⟨distance, object, rfl, part.1.names, looked⟩

theorem finds_super {keyword : Word} {method : Ident} {depth : Option Nat}
    (h : Placed (.standing texts) ⟨.evaluate (.super keyword method depth), st⟩ ideal marked q') :
    ∃ distance type object, depth = some (distance + 1) ∧
      st.heap.lookupAt st.current (distance + 1) superName = .ok (some (.class_ type)) ∧
      st.heap.lookupAt st.current distance thisName = .ok (some (.instance_ object)) := by
  obtain ⟨m, p, e', -, stands, varies⟩ := h.site
  cases varies with
  | super part =>
    have represents := h.asked.represents
    -- Resolution has found both names: `super` in the scope around that of `this`.
    obtain ⟨distance, rfl, ⟨found, -⟩, found', -⟩ := part.1.agrees
    obtain ⟨a, looked, suits⟩ :=
      represents.lookupReserved h.askedAt.states stands (.inr rfl) found'
    obtain ⟨a', looked', suits'⟩ :=
      represents.lookupReserved h.askedAt.states stands (.inl rfl) found
    obtain ⟨type, rfl⟩ := suits.super rfl
    obtain ⟨object, rfl⟩ := suits'.this rfl
    exact ⟨distance, type, object, rfl, looked, looked'⟩

/-- A read that fails does so before its variable is bound. -/
theorem incomplete {target : Reference} {line : Nat} {st' : State}
    (h : Placed (.standing texts) ⟨.evaluate (.variable_ target), st⟩ ideal marked q')
    (depth : target.depth = some distance)
    (known : evaluation.Answers .value ⟨.evaluate (.variable_ target), st⟩
      ⟨.error (.error ⟨line, .undefinedVariable name⟩), st'⟩) :
    Incomplete texts st (.variable_ target) target.name.lexeme distance := by
  obtain ⟨ctx, scope, ref, frame, found⟩ := h.exists_found (Expr.seeks_variable depth)
  refine found.incomplete (Bool.eq_false_iff.mpr fun bound => ?_)
  -- If it were bound, the read would come to its value.
  obtain ⟨a, bound⟩ := Option.isSome_iff_exists.mp bound
  cases known.unique (answers_variable depth (found.lookupAt.trans (congrArg _ bound)))

/-- So does an assignment whose value has been computed. -/
theorem incomplete_assigned {target : Reference} {value : Expr} {a : Value} {after st' : State}
    {line : Nat} (h : Placed (.standing texts) ⟨.evaluate (.assign target value), st⟩ ideal marked q')
    (depth : target.depth = some distance)
    (known : evaluation.Answers .value ⟨.evaluate value, st⟩ ⟨.ok a, after⟩)
    (known' : evaluation.Answers .value ⟨.evaluate (.assign target value), st⟩
      ⟨.error (.error ⟨line, .undefinedVariable name⟩), st'⟩) :
    Incomplete texts after (.assign target value) target.name.lexeme distance := by
  obtain ⟨ctx, scope, ref, frame, found⟩ := h.exists_found_assigned depth known
  refine found.incomplete (Bool.eq_false_iff.mpr fun bound => ?_)
  have owned := found.ownerAt
  rw [if_pos bound] at owned
  cases known'.unique (answers_assign depth known owned)

end

/-- No task fails for want of `this` or `super`. -/
theorem possible {sort : TaskSort} {q q' : Question sort} {r : Answer sort}
    (h : Placed (.standing texts) q ideal marked q') (known : evaluation.Answers sort q r)
    {line : Nat} {cause : RuntimeError.Cause} (stopped : r.result = .error (.error ⟨line, cause⟩)) :
    cause ≠ .unresolvedSuper ∧ cause ≠ .unresolvedThis ∧ cause ≠ .undefinedVariable thisName := by
  obtain ⟨⟨ideally, _⟩, ⟨ideally', _⟩, answered, ends⟩ := h.ends known
  obtain ⟨result, after⟩ := r
  obtain rfl : result = .error (.error ⟨line, cause⟩) := stopped
  cases answered with
  | error _ =>
    cases ends with
    | error _ varies =>
      cases varies with
      | error varies =>
        have possible := varies.cause.possible
        refine ⟨?_, ?_, ?_⟩
        · rintro rfl
          exact possible
        · rintro rfl
          exact possible
        · rintro rfl
          exact possible rfl

/-- A declaration that has come to an end has bound its name in the frame that it ran in. -/
theorem exists_bound {q' : Question .flow} {name : Ident} {initial : Option Expr} {after : State}
    (h : Placed (.standing texts) ⟨.perform (.var name initial), st⟩ ideal marked q')
    (known : evaluation.Answers .flow ⟨.perform (.var name initial), st⟩ ⟨.ok .normal, after⟩) :
    ∃ frame, after.heap.HoldsFrame st.current frame ∧
      frame.bindings.contains name.lexeme = true := by
  obtain ⟨⟨_, ideal₁⟩, ⟨_, ideal₁'⟩, answered, ends⟩ := h.ends known
  cases answered with
  | ok came =>
    cases ends with
    | @ok marked₁ _ _ _ _ abreast came' =>
      have along : Along st after ideal₁ := came.2.1
      -- The ideal binds the name in its own current frame, which stands for the one at hand.
      have binds : (ideal₁.world marked₁).Binds ideal.current name.lexeme := came'.2 came.1 _ rfl
      rw [← show ideal₁.current = ideal.current from abreast.current,
        along.represents.current] at binds
      obtain ⟨frame, holds⟩ := along.represents.valid.roots _ (State.mem_roots_current after)
      have found := Heap.get?_of_frame (along.represents.heap.access holds)
      obtain ⟨_, found', bound⟩ := binds
      cases found.symm.trans found'
      rw [along.keeps.current] at holds
      exact ⟨frame, holds, (Bindings.contains_map ..).symm.trans bound⟩

end Placed

variable {session : Session} {program : List Stmt} {texts : List (List Stmt)}

theorem scoped_of_varies (h : session.Varies (Variation.standing texts) session)
    (plain : Stmt.EveryAll Node.Plain program)
    (parts : ∀ part ∈ Stmt.nodesAll [] program, (Variation.standing texts).Part part.1 part.2) :
    Scoped texts ⟨.run program, session.state⟩ := by
  have placed {sort : TaskSort} {q : Question sort}
      (arises : evaluation.Arises ⟨.run program, session.state⟩ q) :
      ∃ ideal marked q', Placed (.standing texts) q ideal marked q' :=
    exists_placed h plain rfl parts arises
  constructor
  case found =>
    intro e st arises name distance seeks
    obtain ⟨_, _, _, placed⟩ := placed arises
    exact placed.exists_found seeks
  case assigned =>
    intro target value st arises distance depth a after known
    obtain ⟨_, _, _, placed⟩ := placed arises
    exact placed.exists_found_assigned depth known
  case this =>
    intro keyword depth st arises
    obtain ⟨_, _, _, placed⟩ := placed arises
    exact placed.finds_this
  case super =>
    intro keyword method depth st arises
    obtain ⟨_, _, _, placed⟩ := placed arises
    exact placed.finds_super
  case possible =>
    intro sort q r arises known line cause stopped
    obtain ⟨_, _, _, placed⟩ := placed arises
    exact placed.possible known stopped
  case undefinedRead =>
    intro target st arises distance depth line name st' known
    obtain ⟨_, _, _, placed⟩ := placed arises
    exact placed.incomplete depth known
  case undefinedAssignment =>
    intro target value st arises distance depth a after known line name st' known'
    obtain ⟨_, _, _, placed⟩ := placed arises
    exact placed.incomplete_assigned depth known known'
  case declared =>
    intro name initial before arises after known
    obtain ⟨_, _, _, placed⟩ := placed arises
    exact placed.exists_bound known

end Evaluation

namespace Session

/-- The programs of the sources that the steps run. -/
def texts (steps : List Step) : List (List Stmt) :=
  steps.filterMap fun step =>
    match step.command with
    | .run source => (prepare source).toOption
    | _ => none

theorem mem_texts {steps : List Step} {step : Step} (mem : step ∈ steps) {source : String}
    (runs : step.command = .run source) {program : List Stmt} (prepared : prepare source = .ok program) :
    program ∈ texts steps := by
  refine List.mem_filterMap.mpr ⟨step, mem, ?_⟩
  rw [runs]
  simp only [prepared]
  rfl

/-- **Recorded depths lead to the frames of the scopes that resolution found.**  Whatever has been done
with a session, and whether or not the source that it goes on to run comes to an end: at every moment
of the run the frames are activations of the scopes of the text. -/
theorem scoped_of_follows {settings : Settings} {sink : Sink} {clock : Clock} {steps : List Step}
    {replies : List Reply} {session : Session}
    (history : (start settings sink clock).Follows steps replies session) {source : String}
    {program : List Stmt} (prepared : prepare source = .ok program) :
    Scoped (program :: texts steps) ⟨.run program, session.state⟩ := by
  let v := Variation.standing (program :: texts steps)
  have known step (mem : step ∈ steps) : step.command.Parts v.Part := fun source runs text prepared part inside =>
    ⟨right_of_prepare prepared part inside, text,
      List.mem_cons_of_mem _ (mem_texts mem runs prepared), inside⟩
  have parts part (inside : part ∈ Stmt.nodesAll [] program) : v.Part part.1 part.2 :=
    ⟨right_of_prepare prepared part inside, program, List.mem_cons_self, inside⟩
  exact scoped_of_varies ((varies_start settings sink clock).follows rfl known history)
    (plain_of_prepare prepared) parts

/-- A variable of the block around the one that it is read in, with a function of an earlier run at
hand. -/
theorem scoped_nested_block :
    ∃ session, (start (Settings.withGcThreshold {} 1) .unlimited (.ticking 0)).Follows
        [⟨1, .run "fun f(x) \x7b fun g() \x7b return x; \x7d return g; \x7d var g = f(nil);"⟩]
        [.ran #[] (.ok ())] session ∧
      Scoped ([.block [.var ⟨"a", "a", 1⟩ (some (.call (.variable_ ⟨⟨"g", "g", 1⟩, none⟩) [] 1)),
          .block [.print 1 (.variable_ ⟨⟨"a", "a", 1⟩, some 1⟩)]]] ::
        texts [⟨1, .run "fun f(x) \x7b fun g() \x7b return x; \x7d return g; \x7d var g = f(nil);"⟩])
        ⟨.run [.block [.var ⟨"a", "a", 1⟩ (some (.call (.variable_ ⟨⟨"g", "g", 1⟩, none⟩) [] 1)),
          .block [.print 1 (.variable_ ⟨⟨"a", "a", 1⟩, some 1⟩)]]], session.state⟩ := by
  have ran : (start (Settings.withGcThreshold {} 1) .unlimited (.ticking 0)).replies? 1000
      [⟨1, .run "fun f(x) \x7b fun g() \x7b return x; \x7d return g; \x7d var g = f(nil);"⟩] =
      some [.ran #[] (.ok ())] := by decide +kernel
  obtain ⟨session, history⟩ := exists_follows_of_replies? ran
  exact ⟨session, history, scoped_of_follows history
    (show prepare "\x7b var a = g(); \x7b print a; \x7d \x7d" = _ by cbv)⟩

end Session

end Lox
