import Lox.Proofs.Variation.Resolution
import Lox.Proofs.Variation.Session

/-!
# Programs on other lines

A program on other lines does what it does where it is (`Session.Varies.interpret_moved`).  When it
fails, the error names a line that moves with the program, or one that stays as it is
(`Session.StopsAt`).  A line that moves is one of the source of the program
(`Session.StopsAt.exists_token`), and a line that stays is one of a source that the session has run
before (`Session.StopsAt.exists_earlier_token`).  So an error at a line on which only the program has
tokens moves with it (`Session.stopsAt_own`).

Sessions that differ in the lines of what has been declared in them look the same from outside, up to
the lines at which something fails (`Session.LooksLike`).
-/

namespace Lox

/-- The same stop at another line. -/
def Stop.moved (m : Nat → Nat) : Stop → Stop
  | .error e => .error { e with line := m e.line }
  | .fault access => .fault access

@[simp] theorem Stop.moved_id (stop : Stop) : stop.moved id = stop := by cases stop <;> rfl

theorem Stop.moved_moved (m m' : Nat → Nat) (stop : Stop) :
    (stop.moved m).moved m' = stop.moved (m' ∘ m) := by
  cases stop <;> rfl

/-- What there is to a failure besides the line at which a program has stopped. -/
def Failure.bare : Failure → Failure
  | .stopped stop => .stopped (stop.moved fun _ => 0)
  | failure => failure

namespace Variation

variable {f : Nat → Nat}

/-- Lines are changed in one of these ways, and names are as they are. -/
def onLines (Lines : (Nat → Nat) → Prop) : Variation := { still fun _ _ => True with Lines }

/-- Lines are as they are or changed in this way. -/
def moved (f : Nat → Nat) : Variation := onLines fun m => m = id ∨ m = f

theorem fresh_moved (f : Nat → Nat) : (moved f).Fresh :=
  fun _ _ part => part.1.names.of_names fun _ _ differ => absurd rfl differ

/-- A program in which every part is right varies from itself on other lines. -/
theorem allVary_onLines {Lines : (Nat → Nat) → Prop} (f : Nat → Nat) {program : List Stmt}
    (right : ∀ part ∈ Stmt.nodesAll [] program, part.2.Right part.1) :
    Stmt.AllVary (onLines Lines) f .outermost program (Stmt.relabelAll (.lines f) program) := by
  have unmarked : Site.outermost.Unmarked := List.forall_mem_nil _
  exact Stmt.allVary_lines f unmarked fun part mem => ⟨right part mem, trivial⟩

theorem Outcomes.exists_moved {Lines : (Nat → Nat) → Prop} {result result' : Except Stop Unit}
    (h : (onLines Lines).Outcomes result result') {m : Nat → Nat} (known : Lines m) :
    ∃ m, Lines m ∧ result' = result.mapError (Stop.moved m) := by
  cases h with
  | ok => exact ⟨m, known, rfl⟩
  | error varies =>
    cases varies with
    | fault access => exact ⟨m, known, rfl⟩
    | @error e e' varies =>
      obtain ⟨m, lines, line⟩ := varies.line
      obtain ⟨line', cause'⟩ := e'
      obtain rfl : line' = m e.line := line
      refine ⟨m, lines, ?_⟩
      rcases varies.cause.same with same | ⟨old, new⟩
      · obtain rfl : cause' = e.cause := same
        rfl
      · obtain rfl : cause' = .undefinedVariable "" := new
        rw [Except.mapError, Stop.moved, old]
        rfl

end Variation

namespace Session

variable {session session' after : Session} {program : List Stmt} {source : String} {f : Nat → Nat}

/-! ## Sources on other lines -/

/-- What is ready to run is so on other lines. -/
theorem resolveProgram_moved (h : prepare source = .ok program) (m : Nat → Nat) :
    let parsed := parseProgram ((scan source).tokens.map fun t => { t with line := m t.line })
    parsed.errors = [] ∧
      resolveProgram parsed.statements = ⟨Stmt.relabelAll (.lines m) program, []⟩ := by
  obtain ⟨-, parsed, resolved⟩ := prepare_eq_ok_iff.mp h
  have alike : TokensAlike (.lines m) (scan source).tokens
      ((scan source).tokens.map fun t => { t with line := m t.line }) :=
    tokensAlike_map fun _ _ => ⟨rfl, fun _ => rfl, fun _ => rfl⟩
  obtain ⟨statements, errors⟩ := parseProgram_alike rfl alike
  rw [parsed, List.length_nil, List.length_eq_zero_iff] at errors
  refine ⟨errors, ?_⟩
  have stripped := relabelAll_of_prepare h
  have placed := (parsed_parseProgram (names_scan source)).mono fun _ parsed => parsed.placed
  have walked := (Variation.allVary_onLines m (right_of_prepare h)).resolveProgram
    (Variation.fresh_moved m) (by rwa [stripped]) (by rw [stripped, resolved])
  rwa [Stmt.relabelAll_relabelAll,
    show Relabeling.andThen (.lines m) .unresolved = .andThen .unresolved (.lines m) from rfl,
    ← Stmt.relabelAll_relabelAll, stripped, ← statements] at walked

theorem right_moved (h : prepare source = .ok program) (m : Nat → Nat) :
    ∀ part ∈ Stmt.nodesAll [] (Stmt.relabelAll (.lines m) program), part.2.Right part.1 := by
  obtain ⟨-, resolved⟩ := resolveProgram_moved h m
  have names : ∀ t ∈ (scan source).tokens.map (fun t => { t with line := m t.line }),
      t.Names .scanned :=
    List.forall_mem_map.mpr fun t mem => ⟨(names_scan source t mem).name, (names_scan source t mem).keyword⟩
  have right := right_resolveProgram (parsed_parseProgram names) (congrArg Resolution.errors resolved)
  rwa [resolved] at right

/-! ## Runs on other lines -/

theorem plain_of_right (right : ∀ part ∈ Stmt.nodesAll [] program, part.2.Right part.1) :
    Stmt.EveryAll Node.Plain program :=
  Stmt.everyAll_of_nodes fun part mem => (right part mem).names.of_names fun _ user => user.1

/-- Whatever has been done with a session, it varies from itself if the lines of what has been declared in
it stay where they are. -/
theorem varies_onLines_of_follows {settings : Settings} {sink : Sink} {clock : Clock}
    {steps : List Step} {replies : List Reply}
    (history : (start settings sink clock).Follows steps replies session)
    {Lines : (Nat → Nat) → Prop} {m : Nat → Nat} (known : Lines m)
    (still : ∀ step ∈ steps, step.command.Still m) : session.Varies (.onLines Lines) session :=
  (varies_start (v := .onLines Lines) settings sink clock).follows_still known still
    (fun _ _ _ _ _ prepared part mem => ⟨right_of_prepare prepared part mem, trivial⟩) history

/-- Whatever has been done with a session, what has been declared in it may be on any lines. -/
theorem varies_moved_of_follows {settings : Settings} {sink : Sink} {clock : Clock}
    {steps : List Step} {replies : List Reply}
    (history : (start settings sink clock).Follows steps replies session) (f : Nat → Nat) :
    session.Varies (.moved f) session :=
  varies_onLines_of_follows history (.inl rfl) fun step _ => step.command.still_id

/-- **A program on other lines does what it does where it is.** -/
theorem Varies.interpret_moved (h : session.Varies (.moved f) session')
    (right : ∀ part ∈ Stmt.nodesAll [] program, part.2.Right part.1)
    (right' : ∀ part ∈ Stmt.nodesAll [] (Stmt.relabelAll (.lines f) program), part.2.Right part.1)
    {fuel : Nat} {result : Except Stop Unit}
    (ran : session.interpret fuel program = some (result, after)) :
    ∃ m, (m = id ∨ m = f) ∧ ∃ fuel' after',
      session'.interpret fuel' (Stmt.relabelAll (.lines f) program) =
        some (result.mapError (Stop.moved m), after') ∧ after.Varies (.moved f) after' := by
  obtain ⟨fuel', result', after', ran', outcomes, varies⟩ := h.interpret (plain_of_right right)
    (plain_of_right right') (.inr rfl) (Variation.allVary_onLines f right) ran
  obtain ⟨m, lines, rfl⟩ := outcomes.exists_moved (.inl rfl)
  exact ⟨m, lines, fuel', after', ran', varies⟩

/-- A program stops like this, and at a line of its own or not: however its lines are changed, that
line is changed with them, or it stays. -/
def StopsAt (session : Session) (program : List Stmt) (stop : Stop) (own : Bool) : Prop :=
  ∀ m, ∃ fuel after, session.interpret fuel (Stmt.relabelAll (.lines m) program) =
    some (.error (stop.moved (if own then m else id)), after)

/-- A line cannot move with the program and stay. -/
theorem StopsAt.unique {e : RuntimeError} {own own' : Bool}
    (h : session.StopsAt program (.error e) own) (h' : session.StopsAt program (.error e) own') :
    own = own' := by
  obtain ⟨fuel, after, ran⟩ := h (· + 1)
  obtain ⟨fuel', after', ran'⟩ := h' (· + 1)
  have same := interpret_unique ran ran'
  cases own <;> cases own' <;> simp [Stop.moved] at same ⊢

/-- **A program that stops does so at a line that moves with it, or at one that stays.** -/
theorem exists_stopsAt (h : ∀ f, session.Varies (.moved f) session)
    (prepared : prepare source = .ok program) {fuel : Nat} {stop : Stop}
    (ran : session.interpret fuel program = some (.error stop, after)) :
    ∃ own, session.StopsAt program stop own := by
  have moves (f : Nat → Nat) : ∃ m, (m = id ∨ m = f) ∧ ∃ fuel after,
      session.interpret fuel (Stmt.relabelAll (.lines f) program) =
        some (.error (stop.moved m), after) := by
    obtain ⟨m, lines, fuel', after', ran', -⟩ :=
      (h f).interpret_moved (right_of_prepare prepared) (right_moved prepared f) ran
    exact ⟨m, lines, fuel', after', ran'⟩
  cases stop with
  | fault access =>
    refine ⟨true, fun m => ?_⟩
    obtain ⟨_, -, fuel', after', ran'⟩ := moves m
    exact ⟨fuel', after', ran'⟩
  | error e =>
    -- Where the program is put this far down, none of its lines is that of the error.
    let far := e.line + 1
    obtain ⟨m₁, lines₁, fuel₁, after₁, ran₁⟩ := moves (· + far)
    -- From there it can be put on any lines, and what is above stays where it is.
    have again (m : Nat → Nat) : ∃ m₂, (m₂ = id ∨ m₂ = fun n => if n < far then n else m (n - far)) ∧
        ∃ fuel after, session.interpret fuel (Stmt.relabelAll (.lines m) program) =
          some (.error ((Stop.error e).moved (m₂ ∘ m₁)), after) := by
      have composed : Stmt.relabelAll (.lines fun n => if n < far then n else m (n - far))
          (Stmt.relabelAll (.lines (· + far)) program) = Stmt.relabelAll (.lines m) program := by
        rw [Stmt.relabelAll_relabelAll]
        refine congrArg (fun lines => Stmt.relabelAll (.lines lines) program) (funext fun n => ?_)
        change (if n + far < far then n + far else m (n + far - far)) = m n
        rw [if_neg (by omega), Nat.add_sub_cancel]
      obtain ⟨m₂, lines₂, fuel₂, after₂, ran₂, -⟩ := (h _).interpret_moved
        (right_moved prepared (· + far)) (by rw [composed]; exact right_moved prepared m) ran₁
      rw [composed] at ran₂
      exact ⟨m₂, lines₂, fuel₂, after₂, by rwa [← Stop.moved_moved]⟩
    rcases lines₁ with rfl | rfl
    · refine ⟨false, fun m => ?_⟩
      obtain ⟨m₂, rfl | rfl, fuel₂, after₂, ran₂⟩ := again m
      · exact ⟨fuel₂, after₂, ran₂⟩
      · refine ⟨fuel₂, after₂, ran₂.trans ?_⟩
        simp [Stop.moved, far]
    · refine ⟨true, fun m => ?_⟩
      obtain ⟨m₂, lines₂, fuel₂, after₂, ran₂⟩ := again m
      obtain ⟨m₃, lines₃, fuel₃, after₃, ran₃⟩ := moves m
      have same := interpret_unique ran₂ ran₃
      rcases lines₂ with rfl | rfl
      · -- The line stays down there, and it is also where it was, or where its own line is put.
        rcases lines₃ with rfl | rfl
        · simp [Stop.moved, far] at same
        · exact ⟨fuel₃, after₃, ran₃⟩
      · refine ⟨fuel₂, after₂, ran₂.trans ?_⟩
        simp [Stop.moved]

/-! ### Whose line it is -/

/-- A program is the same if the lines of all its tokens are. -/
theorem relabelAll_still (prepared : prepare source = .ok program) {m : Nat → Nat}
    (still : ∀ t ∈ (scan source).tokens, t.isEnd = false → m t.line = t.line) :
    Stmt.relabelAll (.lines m) program = program := by
  obtain ⟨-, -, resolved⟩ := prepare_eq_ok_iff.mp prepared
  obtain ⟨-, resolved'⟩ := resolveProgram_moved prepared m
  have alike : TokensAlike (.lines id) (scan source).tokens
      ((scan source).tokens.map fun t => { t with line := m t.line }) :=
    tokensAlike_map fun t mem => ⟨rfl, fun _ => rfl, still t mem⟩
  rw [(parseProgram_alike rfl alike).1, Stmt.relabelAll_id, resolved] at resolved'
  exact (congrArg Resolution.program resolved').symm

/-- Another line in the place of this one. -/
def changing (line : Nat) : Nat → Nat := fun n => if n = line then line + 1 else n

/-- **A line of its own is one of the source of the program.** -/
theorem StopsAt.exists_token {e : RuntimeError} (h : session.StopsAt program (.error e) true)
    (prepared : prepare source = .ok program) :
    ∃ t ∈ (scan source).tokens, t.isEnd = false ∧ t.line = e.line := by
  by_contra! none
  have still : Stmt.relabelAll (.lines (changing e.line)) program = program :=
    relabelAll_still prepared fun t mem more => if_neg (none t mem more)
  obtain ⟨fuel, after, ran⟩ := h (changing e.line)
  obtain ⟨fuel', after', ran'⟩ := h id
  rw [still] at ran
  rw [Stmt.relabelAll_id] at ran'
  have same := interpret_unique ran ran'
  simp [Stop.moved, changing] at same

section History

variable {settings : Settings} {sink : Sink} {clock : Clock} {steps : List Step} {replies : List Reply}
  (history : (start settings sink clock).Follows steps replies session)
  (prepared : prepare source = .ok program)

include history prepared

/-- **A line that stays is one of a source that the session has run before.** -/
theorem StopsAt.exists_earlier_token {e : RuntimeError}
    (h : session.StopsAt program (.error e) false) :
    ∃ step ∈ steps, ∃ earlier, step.command = .run earlier ∧
      ∃ t ∈ (scan earlier).tokens, t.isEnd = false ∧ t.line = e.line := by
  by_contra! none
  have still : ∀ step ∈ steps, step.command.Still (changing e.line) :=
    fun step mem earlier same _ prepared =>
      relabelAll_still prepared fun t mem' more => if_neg (none step mem earlier same t mem' more)
  -- Nothing in the session is on the line, so all that there is can move away from it.
  have varies : session.Varies (.onLines (· = changing e.line)) session :=
    varies_onLines_of_follows history rfl still
  obtain ⟨fuel, after, ran⟩ := h id
  rw [Stmt.relabelAll_id] at ran
  obtain ⟨fuel', _, after', ran', outcomes, -⟩ := varies.interpret (plain_of_prepare prepared)
    (plain_of_right (right_moved prepared _)) rfl
    (Variation.allVary_onLines _ (right_of_prepare prepared)) ran
  obtain ⟨_, rfl, rfl⟩ := outcomes.exists_moved rfl
  obtain ⟨fuel'', after'', ran''⟩ := h (changing e.line)
  have same := interpret_unique ran' ran''
  simp [Except.mapError, Stop.moved, changing] at same

/-- **An error at a line on which nothing has been run before is at a line of its own.** -/
theorem stopsAt_own {fuel : Nat} {e : RuntimeError}
    (ran : session.interpret fuel program = some (.error (.error e), after))
    (new : ∀ step ∈ steps, ∀ earlier, step.command = .run earlier →
      ∀ t ∈ (scan earlier).tokens, t.isEnd = false → t.line ≠ e.line) :
    session.StopsAt program (.error e) true := by
  obtain ⟨own, stops⟩ := exists_stopsAt (varies_moved_of_follows history) prepared ran
  cases own with
  | true => exact stops
  | false =>
    obtain ⟨step, mem, earlier, same, t, mem', more, onLine⟩ :=
      stops.exists_earlier_token history prepared
    exact absurd onLine (new step mem earlier same t mem' more)

end History

/-! ## What is seen besides lines -/

/-- What there is to a reply besides lines and numbers of survivors. -/
def Reply.bare : Reply → Reply
  | .ran printed outcome => .ran printed (outcome.mapError Failure.bare)
  | .collected _ _ => .collected 0 0
  | reply => reply

/-- From here on, this is what is seen besides lines. -/
def Shows (session : Session) (steps : List Step) (seen : List Reply) : Prop :=
  ∃ replies after, session.Follows steps replies after ∧ replies.map Reply.bare = seen

/-- Two sessions look the same from outside: in what they have printed, in their global variables, and
in whatever is done with them from here on, but for the lines at which something fails. -/
structure LooksLike (session session' : Session) : Prop where
  printed : session.printed = session'.printed
  appearance : ∀ name, (session.global? name).map Value.appearance =
    (session'.global? name).map Value.appearance
  compare : ∀ left right, session.compare left right = session'.compare left right
  shows : ∀ steps seen, session.Shows steps seen ↔ session'.Shows steps seen

namespace Varies

theorem obey_moved (h : session.Varies (.moved f) session') {fuel : Nat} {command : Command}
    {reply : Reply} (obeyed : session.obey fuel command = some (reply, after)) :
    ∃ fuel' reply' after', session'.obey fuel' command = some (reply', after') ∧
      reply'.bare = reply.bare ∧ after.Varies (.moved f) after' := by
  cases obey_eq_some_iff.mp obeyed with
  | rejected prepared =>
    exact ⟨0, _, session', obey_eq_some_iff.mpr (.rejected prepared), by rw [h.printed], h⟩
  | @ran _ program result _ prepared ran =>
    have plain := plain_of_right (right_of_prepare prepared)
    have unmarked : Site.outermost.Unmarked := List.forall_mem_nil _
    -- The program is the same in both sessions; only what has been declared in them is on other lines.
    have vary : Stmt.AllVary (.moved f) id .outermost program _ := Stmt.allVary_lines id unmarked
      fun part mem => ⟨right_of_prepare prepared part mem, trivial⟩
    rw [Stmt.relabelAll_id] at vary
    obtain ⟨fuel', _, after', ran', outcomes, varies⟩ := h.interpret plain plain (.inl rfl) vary ran
    obtain ⟨m, -, rfl⟩ := outcomes.exists_moved (.inl rfl)
    refine ⟨fuel', _, after', obey_eq_some_iff.mpr (.ran prepared ran'), ?_, varies⟩
    rw [Reply.bare, Reply.bare, varies.printed]
    cases result with
    | ok _ => rfl
    | error stop =>
      simp only [Except.mapError, Failure.bare, Stop.moved_moved]
      rfl
  | read name => exact ⟨0, _, session', rfl, by rw [h.appearance_global], h⟩
  | compare left right => exact ⟨0, _, session', rfl, by rw [h.compare], h⟩
  | collect => exact ⟨0, _, _, rfl, rfl, h.collect⟩

theorem shows_moved (h : session.Varies (.moved f) session') {steps : List Step}
    {seen : List Reply} (shows_ : session.Shows steps seen) : session'.Shows steps seen := by
  obtain ⟨replies, after, history, rfl⟩ := shows_
  induction history generalizing session' with
  | nil _ => exact ⟨[], session', .nil session', rfl⟩
  | cons obeyed _ ih =>
    obtain ⟨fuel', reply', between', obeyed', same, varies⟩ := (h.collectTimes _).obey_moved obeyed
    obtain ⟨replies', after', history', rest⟩ := ih varies
    exact ⟨reply' :: replies', after', .cons obeyed' history', congrArg₂ List.cons same rest⟩

theorem looksLike {g : Nat → Nat} (h : session.Varies (.moved f) session')
    (h' : session'.Varies (.moved g) session) : session.LooksLike session' where
  printed := h'.printed
  appearance := h'.appearance_global
  compare := h'.compare
  shows _ _ := ⟨h.shows_moved, h'.shows_moved⟩

end Varies

end Session

end Lox
