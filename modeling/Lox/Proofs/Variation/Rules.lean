import Lox.Proofs.Variation.Calls

/-!
# Rules in step

Every rule of evaluation keeps step with itself, for tasks that vary from each other
(`evaluation_inStep`).  The rules for expressions and for statements are gone through one by one.
-/

namespace Lox

open Evaluation

/-! ## Operators -/

section Operators

variable {v : Variation} {w : World} {a a' b b' : Value}

theorem Value.Varies.of_isSimple (h : a.IsSimple) : a.Varies v w a := by
  cases a with
  | nil => exact .nil
  | boolean b => exact .boolean b
  | number x => exact .number x
  | string s => exact .string s
  | _ => exact h.elim

theorem UnaryOp.apply_varies (op : UnaryOp) (h : a.Varies v w a') : op.apply a' = op.apply a := by
  cases op with
  | not => rw [UnaryOp.apply, UnaryOp.apply, h.isTruthy]
  | negate => cases h <;> rfl

theorem Value.add_varies (h : a.Varies v w a') (h' : b.Varies v w b') : a'.add b' = a.add b := by
  have text := h.text
  have text' := h'.text
  cases h with
  | string s => cases h' <;> simp only [Value.add, text']
  | _ => cases h' <;> simp only [Value.add, text]

theorem BinaryOp.apply_varies (op : BinaryOp) (h : a.Varies v w a') (h' : b.Varies v w b') :
    op.apply a' b' = op.apply a b := by
  cases op with
  | equal | notEqual => simp only [BinaryOp.apply, h.isEqual h']
  | add => exact Value.add_varies h h'
  | _ =>
    cases h with
    | number x => cases h' <;> rfl
    | _ => rfl

theorem UnaryOp.isPossible_of_apply {op : UnaryOp} {cause : RuntimeError.Cause}
    (h : op.apply a = .error cause) : cause.IsPossible := by
  unfold UnaryOp.apply at h
  split at h <;> cases h
  trivial

theorem Value.isPossible_of_add {cause : RuntimeError.Cause} (h : a.add b = .error cause) :
    cause.IsPossible := by
  unfold Value.add at h
  split at h <;> cases h
  trivial

theorem BinaryOp.isPossible_of_applyToNumbers {op : BinaryOp} {x y : Float}
    {cause : RuntimeError.Cause} (h : op.applyToNumbers x y = .error cause) : cause.IsPossible := by
  cases op with
  | divide | remainder =>
    simp only [BinaryOp.applyToNumbers] at h
    split at h <;> cases h
    trivial
  | _ => cases h

theorem BinaryOp.isPossible_of_apply {op : BinaryOp} {cause : RuntimeError.Cause}
    (h : op.apply a b = .error cause) : cause.IsPossible := by
  unfold BinaryOp.apply at h
  split at h
  · cases h
  · cases h
  · exact Value.isPossible_of_add h
  · split at h
    · exact isPossible_of_applyToNumbers h
    · cases h
      trivial

theorem LogicalOp.isSettledBy_varies (op : LogicalOp) (h : a.Varies v w a') :
    op.isSettledBy a' = op.isSettledBy a := by
  cases op <;> simp only [LogicalOp.isSettledBy, h.isTruthy]

end Operators

/-! ## Classes -/

section Classes

variable {v : Variation} {w : World}

/-- Bindings that are made alike are related name by name. -/
theorem Bindings.find?_ofList_rel {α β : Type} {R : α → β → Prop} {entries : List (String × α)}
    {entries' : List (String × β)}
    (h : List.Forall₂ (fun entry entry' => entry'.1 = entry.1 ∧ R entry.2 entry'.2) entries entries')
    (name : String) :
    Option.Rel R ((Bindings.ofList entries).find? name) ((Bindings.ofList entries').find? name) := by
  have fold (bindings : Bindings α) (bindings' : Bindings β)
      (start : Option.Rel R (bindings.find? name) (bindings'.find? name)) :
      Option.Rel R
        ((entries.foldl (fun bindings entry => bindings.insert entry.1 entry.2) bindings).find? name)
        ((entries'.foldl (fun bindings entry => bindings.insert entry.1 entry.2) bindings').find?
          name) := by
    induction h generalizing bindings bindings' with
    | nil => exact start
    | cons first _ ih =>
      refine ih _ _ ?_
      rw [find?_insert, find?_insert, first.1]
      split
      · exact .some first.2
      · exact start
  exact fold .empty .empty .none

theorem Function.Varies.namedInit {m : Nat → Nat} {p : Site} {f f' : Function}
    (h : f.Varies v m p f') : f'.namedInit = f.namedInit := by
  rw [Function.namedInit, Function.namedInit, h.lexeme]

/-- The methods of a class that is declared in both runs. -/
theorem Eval.methodsIn_vary {m : Nat → Nat} {p : Site} {ref : FrameRef} {methods methods' : List Function}
    (lines : v.Lines m) (stands : w.Stands p ref) (vary : Function.AllVary v m p methods methods')
    (name : String) :
    Option.Rel (Closure.VariesUnbound v w) ((methodsIn ref methods).find? name)
      ((methodsIn ref methods').find? name) := by
  refine Bindings.find?_ofList_rel ?_ name
  induction methods generalizing methods' with
  | nil =>
    cases vary
    exact .nil
  | cons f rest ih =>
    cases vary with
    | cons first vary =>
      exact .cons ⟨first.lexeme, ⟨m, p, lines, stands, first⟩, rfl, first.namedInit⟩ (ih vary)

theorem Class.Varies.extend {own own' : ClassBody} (h : own.Varies v w own')
    {parent parent' : Option Class} (h' : Option.Rel (Class.Varies v w) parent parent') :
    (Class.extend own parent).Varies v w (Class.extend own' parent') := by
  cases h' with
  | none => exact .cons h .nil
  | some inherited => exact .cons h inherited

end Classes

/-! ## How rules end -/

/-- Two rules for a task end alike: with what the task comes to, or with other tasks that come to it. -/
inductive Ending.Varies (v : Variation) {sort : TaskSort} (task : Task sort) (current : FrameRef)
    (w : World) : Ending sort → Ending sort → Prop
  | result {a a' : sort.Result} (came : task.Came v current w a a') :
      Ending.Varies v task current w (.result a) (.result a')
  | task {next next' : Task sort} (varies : next.Varies v w current next')
      (came : ∀ w a a', next.Came v current w a a' → task.Came v current w a a') :
      Ending.Varies v task current w (.task next) (.task next')

namespace Eval.Vary

variable {α β : Type} {v : Variation} {marked : Nat → Bool} {st st' : State} {m : Nat → Nat} {p : Site}

/-! ## Expressions -/

/-- The operand of an operator is held on to while the other one is evaluated. -/
theorem evaluateHolding {held held' : Value} {e e' : Expr} (varies : st.Varies v marked st')
    (lines : v.Lines m) (stands : (st.world marked).Stands p st.current) (same : e.Varies v m p e') :
    Vary v marked (fun w a a' => (st.world marked).Grows w ∧ a.Varies v w a')
      (Eval.holding held (Eval.ask (.evaluate e))) (Eval.holding held' (Eval.ask (.evaluate e')))
      st st' :=
  (holding (evaluate (varies.withTemporaries _ _) lines stands same)).growing

/-- Operators that come to the same. -/
theorem computed (varies : st.Varies v marked st') (lines : v.Lines m) (line : Nat)
    {result result' : Except RuntimeError.Cause Value} (same : result' = result)
    (simple : ∀ {a}, result = .ok a → a.IsSimple)
    (possible : ∀ {cause}, result = .error cause → cause.IsPossible) :
    Vary v marked (Value.Varies v) (Eval.ofResult line result) (Eval.ofResult (m line) result')
      st st' := by
  subst same
  refine ofResult varies lines ?_
  cases result' with
  | ok a => exact .inl ⟨a, a, rfl, rfl, .of_isSimple (simple rfl)⟩
  | error cause => exact .inr ⟨cause, rfl, rfl, possible rfl⟩

theorem expression {e e' : Expr} (varies : st.Varies v marked st') (lines : v.Lines m)
    (stands : (st.world marked).Stands p st.current) (same : e.Varies v m p e') :
    Vary v marked (Ending.Varies v (.evaluate e) st.current) e.rule e'.rule st st' := by
  have result {w : World} {a a' : Value} (related : a.Varies v w a') :
      Ending.Varies v (.evaluate e) st.current w (.result a) (.result a') := .result related
  cases same with
  | literal value => exact pure varies (.result (.of_isSimple (Value.isSimple_ofLiteral value)))
  | group inner => exact pure varies (.task (.evaluate lines stands inner) fun _ _ _ came => came)
  | @unary _ op _ _ operand =>
    refine bind (evaluate varies lines stands operand) fun abreast same => ?_
    exact map (computed abreast.varies lines op.line (op.op.apply_varies same)
      UnaryOp.isSimple_apply UnaryOp.isPossible_of_apply) fun _ _ _ => result
  | @binary _ op _ _ _ _ left right =>
    refine bind (evaluate varies lines stands left) fun abreast same => ?_
    have stands := abreast.grows.stands stands
    rw [← abreast.current] at stands
    refine bind (evaluateHolding abreast.varies lines stands right) fun abreast' same' => ?_
    exact map (computed abreast'.varies lines op.line
      (op.op.apply_varies (same.mono same'.1) same'.2) BinaryOp.isSimple_apply
      BinaryOp.isPossible_of_apply) fun _ _ _ => result
  | @logical _ op _ _ _ _ left right =>
    refine bind (evaluate varies lines stands left) fun abreast same => ?_
    have stands := abreast.grows.stands stands
    have settled := op.op.isSettledBy_varies same
    change (op.relabel (.lines m)).op.isSettledBy _ = _ at settled
    rw [settled]
    split
    · exact pure abreast.varies (.result same)
    · exact pure abreast.varies (.task (.evaluate lines stands right) fun _ _ _ came => came)
  | @variable_ _ ref part fits =>
    have user := UserName.not_reserved (v.right _ _ part).names
    exact map (lookUp varies lines stands user ref.name.line fits) fun _ _ _ => result
  | assign part fits value =>
    have user := UserName.not_reserved (v.right _ _ part).names
    refine bind (evaluate varies lines stands value) fun abreast same => ?_
    have stands := abreast.grows.stands stands
    rw [← abreast.current] at stands
    refine bind (assign abreast.varies lines stands user fits same).growing fun abreast' grows => ?_
    exact pure abreast'.varies (.result (same.mono grows.1))
  | call callee vary =>
    refine bind (evaluate varies lines stands callee) fun {marked₁ st₁ st₁' a a'} abreast same => ?_
    have stands := abreast.grows.stands stands
    rw [← abreast.current] at stands
    have held : (st₁.push a).Varies v marked₁ (st₁'.push a') := abreast.varies.withTemporaries _ _
    refine map (holding (bind (arguments held lines stands vary).growing fun abreast' values => ?_))
      fun _ _ _ => result
    exact ask ⟨abreast'.varies, .call lines (same.mono values.1) values.2⟩
  | @get _ _ _ name object =>
    refine bind (evaluate varies lines stands object) fun abreast same => ?_
    cases same with
    | instance_ fields same =>
      exact map (property abreast.varies lines same name) fun _ _ _ => result
    | _ => exact fail abreast.varies lines (.refl trivial)
  | @set _ _ _ _ _ name object value =>
    refine bind (evaluate varies lines stands object) fun abreast same => ?_
    have stands := abreast.grows.stands stands
    rw [← abreast.current] at stands
    cases same with
    | instance_ fields same =>
      refine bind (evaluateHolding abreast.varies lines stands value) fun abreast' same' => ?_
      refine bind (setField abreast'.varies name.lexeme same'.2).growing fun abreast'' grows => ?_
      exact pure abreast''.varies (.result (same'.2.mono grows.1))
    | _ => exact fail abreast.varies lines (.refl trivial)
  | this part => exact map (this varies stands part) fun _ _ _ => result
  | super part => exact map (superMethod varies lines stands part) fun _ _ _ => result
  | function decl => exact map (close varies lines stands decl) fun _ _ _ => result

/-! ## Statements -/

/-- The class that a declaration extends. -/
theorem superclass (varies : st.Varies v marked st') (lines : v.Lines m)
    (stands : (st.world marked).Stands p st.current) {ref : Reference}
    (same : Expr.Varies v m p (.variable_ ref) (.variable_ (v.reference m p ref))) :
    Vary v marked (fun w parent parent' => ∃ c c', parent = some c ∧ parent' = some c' ∧ c.Varies v w c')
      (Eval.superclass (some ref)) (Eval.superclass (some (v.reference m p ref))) st st' := by
  refine bind (evaluate varies lines stands same) fun abreast same => ?_
  cases same with
  | class_ same => exact pure abreast.varies ⟨_, _, rfl, rfl, same⟩
  | _ => exact fail abreast.varies lines (.refl trivial)

/-- The frame around the methods of a subclass binds `super`. -/
theorem methodFrame {name name' : Ident} {methods methods' : List Function} {parent parent' : Class}
    (varies : st.Varies v marked st') (stands : (st.world marked).Stands p st.current)
    (ref : Reference) (same : parent.Varies v (st.world marked) parent') :
    Vary v marked
      (fun w frame frame' => frame' = frame ∧ (st.world marked).Grows w ∧
        w.Stands (p.aroundMethods name (some ref) methods) frame)
      (Eval.methodFrame name methods (some parent)) (Eval.methodFrame name' methods' (some parent'))
      st st' := by
  refine bind_of_ok rfl rfl varies.abreast ?_
  rw [varies.current]
  refine bind (newFrame varies st.current _ _ false) ?_
  rintro marked₁ st₁ st₁' _ frame abreast ⟨rfl, made⟩
  have suits : (Value.class_ parent).Suits superName :=
    ⟨fun same => absurd same (by decide), fun _ => ⟨_, rfl⟩⟩
  have bound := defineIn abreast.varies frame suits (.class_ (same.mono abreast.grows))
  rw [v.rename_super] at bound
  refine bind bound ?_
  rintro marked₂ st₂ st₂' - - abreast' binds
  have grows := abreast.grows.trans abreast'.grows
  exact pure abreast'.varies ⟨rfl, grows, (abreast'.grows.made made).stands_keyword
    (grows.stands stands) binds⟩

/-- A class is declared, with methods that stand in the frame that is made for them. -/
theorem defineClass {p' : Site} {name : Ident} {frame : FrameRef} {methods methods' : List Function}
    {parent parent' : Option Class} (varies : st.Varies v marked st') (lines : v.Lines m)
    (stands : (st.world marked).Stands p st.current) (user : ¬Reserved name.lexeme)
    (fixed : v.rename p.mark name.lexeme = name.lexeme) (inside : (st.world marked).Stands p' frame) (vary : Function.AllVary v m p' methods methods')
    (same : Option.Rel (Class.Varies v (st.world marked)) parent parent') :
    Vary v marked (fun w _ _ => w.Binds st.current name.lexeme)
      (make Heap.newIdentity >>= fun identity => Eval.define name.lexeme
        (.class_ (.extend ⟨identity, name.lexeme, methodsIn frame methods⟩ parent)))
      (make Heap.newIdentity >>= fun identity => Eval.define name.lexeme
        (.class_ (.extend ⟨identity, name.lexeme, methodsIn frame methods'⟩ parent'))) st st' := by
  refine bind (newIdentity varies) ?_
  rintro marked₁ st₁ st₁' _ identity abreast rfl
  have stands := abreast.grows.stands stands
  rw [← abreast.current] at stands ⊢
  have body : ClassBody.Varies v (st₁.world marked₁)
      ⟨identity, name.lexeme, methodsIn frame methods⟩ ⟨identity, name.lexeme, methodsIn frame methods'⟩ :=
    ⟨rfl, rfl, methodsIn_vary lines (abreast.grows.stands inside) vary⟩
  have parent := optionRel_mono (fun _ _ same => Class.Varies.mono abreast.grows same) same
  have defined := define abreast.varies stands user (.class_ (Class.Varies.extend body parent))
  rw [fixed] at defined
  exact defined

theorem declareClass {name : Ident} {methods methods' : List Function} (varies : st.Varies v marked st')
    (lines : v.Lines m) (stands : (st.world marked).Stands p st.current) (user : ¬Reserved name.lexeme)
    (fixed : v.rename p.mark name.lexeme = name.lexeme)
    (vary : Function.AllVary v m (p.declare name.lexeme .ready) methods methods') :
    Vary v marked (fun w _ _ => w.Binds st.current name.lexeme) (Eval.declareClass name none methods)
      (Eval.declareClass (name.relabel (.lines m)) none methods') st st' := by
  have defined := define varies stands user .nil
  rw [fixed] at defined
  refine bind_of_ok rfl rfl varies.abreast (bind defined ?_)
  rintro marked₁ st₁ st₁' - - abreast binds
  have stands := abreast.grows.stands stands
  have inside := stands.declare binds
  rw [← abreast.current] at stands inside ⊢
  refine bind_of_ok rfl rfl abreast.varies.abreast ?_
  rw [abreast.varies.current]
  exact defineClass abreast.varies lines stands user fixed inside vary .none

theorem declareSubclass {name : Ident} {ref : Reference} {methods methods' : List Function}
    (varies : st.Varies v marked st') (lines : v.Lines m)
    (stands : (st.world marked).Stands p st.current) (user : ¬Reserved name.lexeme)
    (fixed : v.rename p.mark name.lexeme = name.lexeme)
    (same : Expr.Varies v m p (.variable_ ref) (.variable_ (v.reference m p ref)))
    (vary : Function.AllVary v m
      ((p.declare name.lexeme .ready).aroundMethods name (some ref) methods) methods methods') :
    Vary v marked (fun w _ _ => w.Binds st.current name.lexeme)
      (Eval.declareClass name (some ref) methods)
      (Eval.declareClass (name.relabel (.lines m)) (some (v.reference m p ref)) methods') st st' := by
  refine bind (superclass varies lines stands same) ?_
  rintro marked₁ st₁ st₁' _ _ abreast₁ ⟨parent, parent', rfl, rfl, same⟩
  have stands₁ := abreast₁.grows.stands stands
  rw [← abreast₁.current] at stands₁ ⊢
  have defined := define abreast₁.varies stands₁ user .nil
  rw [fixed] at defined
  refine bind defined ?_
  rintro marked₂ st₂ st₂' - - abreast₂ binds
  have stands₂ := abreast₂.grows.stands stands₁
  have declared := stands₂.declare binds
  have same := same.mono abreast₂.grows
  rw [← abreast₂.current] at stands₂ declared ⊢
  refine bind (methodFrame abreast₂.varies declared ref same) ?_
  rintro marked₃ st₃ st₃' _ frame abreast₃ ⟨rfl, grows, inside⟩
  have stands₃ := grows.stands stands₂
  rw [← abreast₃.current] at stands₃ ⊢
  exact defineClass abreast₃.varies lines stands₃ user fixed inside vary (.some (same.mono grows))

end Eval.Vary

namespace Ending.Varies

variable {v : Variation} {task : Task .flow} {current : FrameRef} {w : World}

/-- A task that declares nothing comes to how it ends. -/
theorem flow (nothing : task.declares = none) {flow flow' : Flow} (same : flow.Varies v w flow') :
    Ending.Varies v task current w (.result flow) (.result flow') :=
  .result ⟨same, fun _ name mem => by rw [nothing] at mem; cases mem⟩

/-- A task that declares nothing hands over to another one. -/
theorem handOver (nothing : task.declares = none) {next next' : Task .flow}
    (varies : next.Varies v w current next') :
    Ending.Varies v task current w (.task next) (.task next') :=
  .task varies fun _ _ _ came => ⟨came.1, fun _ name mem => by rw [nothing] at mem; cases mem⟩

/-- A declaration leaves its name bound. -/
theorem declared {name : String} (names : task.declares = some name) (binds : w.Binds current name) :
    Ending.Varies v task current w (.result .normal) (.result .normal) :=
  .result ⟨.normal, fun _ name mem => by rw [names] at mem; cases mem; exact binds⟩

end Ending.Varies

namespace Eval.Vary

variable {v : Variation} {marked : Nat → Bool} {st st' : State} {m : Nat → Nat} {p : Site}

theorem block {body body' : List Stmt} (varies : st.Varies v marked st') (lines : v.Lines m)
    (stands : (st.world marked).Stands p st.current) (mark : Bool)
    (vary : Stmt.AllVary v m (p.inBlock body mark) body body') :
    Vary v marked (Ending.Varies v (.perform (.block body)) st.current) (Stmt.block body).rule
      (Stmt.block body').rule st st' := by
  refine bind_of_ok rfl rfl varies.abreast ?_
  rw [varies.current]
  refine bind (newFrame varies st.current _ _ mark) ?_
  rintro marked₁ st₁ st₁' _ frame abreast ⟨rfl, made⟩
  have inside : (st₁.world marked₁).Stands (p.inBlock body mark) frame :=
    made.stands (abreast.grows.stands stands) fun name declared => by cases declared
  have runs := sequence (abreast.varies.inside frame) lines inside vary
  exact map (inFrame abreast.varies runs) fun _ _ _ => .flow rfl

theorem statement {s s' : Stmt} (varies : st.Varies v marked st') (lines : v.Lines m)
    (stands : (st.world marked).Stands p st.current) (same : s.Varies v m p s') :
    Vary v marked (Ending.Varies v (.perform s) st.current) s.rule s'.rule st st' := by
  cases same with
  | expression value =>
    exact bind (evaluate varies lines stands value) fun abreast _ =>
      pure abreast.varies (.flow rfl .normal)
  | @print _ line _ _ value =>
    refine bind (evaluate varies lines stands value) fun abreast same => ?_
    rw [same.text]
    exact bind (print abreast.varies lines line _) fun abreast' _ =>
      pure abreast'.varies (.flow rfl .normal)
  | var part =>
    have user := UserName.not_reserved (v.right _ _ part).names
    exact bind (define varies stands user .nil) fun abreast binds =>
      pure abreast.varies (.declared rfl binds)
  | @initialized _ _ initial _ part value =>
    have user := UserName.not_reserved (v.right _ _ part).names
    have inside := stands.initializing user initial
    refine bind (evaluate varies lines inside value) fun abreast same => ?_
    have stands := abreast.grows.stands stands
    rw [← abreast.current] at stands ⊢
    exact bind (define abreast.varies stands user same) fun abreast' binds =>
      pure abreast'.varies (.declared rfl binds)
  | block mark vary => exact block varies lines stands mark vary
  | branch condition yes =>
    refine bind (evaluate varies lines stands condition) fun abreast same => ?_
    rw [same.isTruthy]
    split
    · exact pure abreast.varies (.handOver rfl (.execute lines (abreast.grows.stands stands) yes))
    · exact pure abreast.varies (.flow rfl .normal)
  | choice condition yes no =>
    refine bind (evaluate varies lines stands condition) fun abreast same => ?_
    rw [same.isTruthy]
    split
    · exact pure abreast.varies (.handOver rfl (.execute lines (abreast.grows.stands stands) yes))
    · exact pure abreast.varies (.handOver rfl (.execute lines (abreast.grows.stands stands) no))
  | loop _ condition body =>
    exact pure varies (.handOver rfl (.repeat_ lines stands condition body))
  | return_ => exact pure varies (.flow rfl (.returned .nil))
  | returned value =>
    exact bind (evaluate varies lines stands value) fun abreast same =>
      pure abreast.varies (.flow rfl (.returned same))
  | class_ part fixed vary =>
    have user := UserName.not_reserved (v.right _ _ part).names.1
    exact bind (declareClass varies lines stands user fixed vary) fun abreast binds =>
      pure abreast.varies (.declared rfl binds)
  | subclass part fixed same vary =>
    have user := UserName.not_reserved (v.right _ _ part).names.1
    exact bind (declareSubclass varies lines stands user fixed same vary) fun abreast binds =>
      pure abreast.varies (.declared rfl binds)
  | @function _ decl _ fixed same =>
    refine bind (closed varies _ _) ?_
    rintro marked₁ st₁ st₁' _ _ abreast ⟨identity, rfl, rfl⟩
    have stands := abreast.grows.stands stands
    rw [← abreast.current] at stands ⊢
    refine bind (defineFunction abreast.varies lines stands fixed same identity) ?_
    intro _ _ _ _ _ abreast' binds
    refine pure abreast'.varies (.result ⟨.normal, fun _ name mem => ?_⟩)
    -- A function without a name is bound to the empty name, which nothing refers to.
    obtain ⟨name', _, _⟩ := decl
    cases name' with
    | named name' => cases mem; exact binds
    | anonymous _ => cases mem

/-! ## Tasks -/

/-- Outside all scopes, nothing depends on what is declared before it. -/
theorem outermost_after (s : Stmt) : Site.outermost.after s = .outermost := by
  cases s with
  | function decl =>
    obtain ⟨name, _, _⟩ := decl
    cases name <;> rfl
  | _ => rfl

theorem program {statements statements' : List Stmt} (varies : st.Varies v marked st')
    (lines : v.Lines m) (here : st.current = st.globals)
    (vary : Stmt.AllVary v m .outermost statements statements') :
    Vary v marked (fun _ _ _ => True) (Eval.program statements) (Eval.program statements') st st' := by
  induction statements generalizing statements' marked st st' with
  | nil =>
    cases vary
    exact pure varies trivial
  | cons s rest ih =>
    cases vary with
    | cons first vary =>
      rw [outermost_after] at vary
      refine bind (execute varies lines (World.stands_outermost here) first) fun abreast _ => ?_
      exact ih abreast.varies ((abreast.current.trans here).trans abreast.grows.globals.symm) vary

theorem resetting {action action' : Eval Unit} (here : st.current = st.globals)
    (h : Vary v marked (fun _ _ _ => True) action action' st st') :
    Vary v marked (fun _ _ _ => True) (Eval.resetting action) (Eval.resetting action') st st' := by
  refine Plan.InStep.bind h fun o o' ends => ?_
  cases ends with
  | ok abreast _ => exact .done (.ok abreast trivial)
  | error abreast same =>
    have back := abreast.grows.globals.trans here.symm
    exact .done (.error ⟨abreast.varies.reset, abreast.grows, back⟩ same)

theorem repeat_ {condition condition' : Expr} {body body' : Stmt} (varies : st.Varies v marked st')
    (lines : v.Lines m) (stands : (st.world marked).Stands p st.current)
    (same : condition.Varies v m p condition') (same' : body.Varies v m p body') :
    Vary v marked (Ending.Varies v (.repeat_ condition body) st.current)
      ((Task.repeat_ condition body).rule id) ((Task.repeat_ condition' body').rule id) st st' := by
  refine bind (evaluate varies lines stands same) fun abreast value => ?_
  rw [value.isTruthy]
  split
  · have stands₁ := abreast.grows.stands stands
    rw [← abreast.current] at stands₁
    refine bind (execute abreast.varies lines stands₁ same') ?_
    rintro marked₂ st₂ st₂' flow flow' abreast' ⟨ended, -⟩
    cases ended with
    | normal =>
      have stands₂ := abreast'.grows.stands stands₁
      rw [abreast.current] at stands₂
      exact pure abreast'.varies (.handOver rfl (.repeat_ lines stands₂ same same'))
    | returned value => exact pure abreast'.varies (.flow rfl (.returned value))
  · exact pure abreast.varies (.flow rfl .normal)

/-- **The rule for a task keeps step with that for a task that varies from it.** -/
theorem rule {sort : TaskSort} {task task' : Task sort} (varies : st.Varies v marked st')
    (same : task.Varies v (st.world marked) st.current task') :
    Vary v marked (Ending.Varies v task st.current) (task.rule id) (task'.rule id) st st' := by
  cases same with
  | evaluate lines stands same => exact expression varies lines stands same
  | call lines same vary => exact map (call varies lines same vary) fun _ _ _ same => .result same
  | invoke same vary enough =>
    exact map (invoke varies same vary enough) fun _ _ _ same => .result same
  | execute lines stands same =>
    refine bind_of_ok rfl rfl varies.abreast (pure varies ?_)
    exact .task (.perform lines stands same) fun _ _ _ came => came
  | perform lines stands same => exact statement varies lines stands same
  | repeat_ lines stands same same' => exact repeat_ varies lines stands same same'
  | run lines here vary =>
    exact map (resetting here (program varies lines here vary)) fun _ _ _ _ => .result trivial

end Eval.Vary

/-! ## The procedure -/

/-- **Evaluation keeps step with evaluation of what varies**, in runs that never collect garbage. -/
theorem evaluation_inStep (v : Variation) (sort : TaskSort) (q q' : Question sort)
    (asked : v.Asked sort q q') :
    (evaluationWith id sort q).InStep v.Asked v.Answered
      (Rules.SettlesInStep v.Asked v.Answered q q') (evaluationWith id sort q') := by
  refine Rules.keeps_of_each (fun marked sort q q' asked => ?_) sort q q' asked
  refine Plan.InStep.bind (Eval.Vary.rule asked.states asked.tasks) fun o o' ends => ?_
  cases ends with
  | @ok marked₁ st st' _ _ abreast post =>
    cases post with
    | result came => exact .done (.answer (.ok abreast came))
    | @task next next' varies came =>
      rw [← abreast.current] at varies
      have asked : v.AskedAt marked₁ sort ⟨next, st⟩ ⟨next', st'⟩ := ⟨abreast.varies, varies⟩
      refine .done (.become ⟨marked₁, asked⟩ fun r r' answered => ?_)
      refine Variation.Ends.after abreast ((answered marked₁ asked).mono fun w a a' came' => ?_)
      exact came w a a' (abreast.current ▸ came')
  | error abreast same => exact .done (.answer (.error abreast same))

end Lox
