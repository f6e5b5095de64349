import Lox.Proofs.Evaluation.Operations
import Lox.Proofs.Ideal.Start
import Lox.Proofs.Session.History

/-!
# Growth between collections

A session collects garbage when it is told to, and a run does so on its own before a statement, if it is
time to.  The **log** of a history lists the reports of all these collections in their order
(`Session.Logs`), up to any step of a run (`Session.collectionsBy`).

By its log one knows what is on the heap: as many objects as have survived the last collection, and those
that have been allocated since.  These are fewer than the threshold whenever a statement is about to be
executed, so that garbage does not pile up (`Session.accounts_of_logs`).

A run is taken here as the steps of the machine that carries it out, since they come one after the other,
and collections are among them.
-/

namespace Lox

open Evaluation

/-! ## The check before a statement -/

/-- The report of the collection that it is time for, if it is. -/
def State.dueCollection? (st : State) : Option Collection :=
  if st.heap.shouldCollect then some st.collect.1 else none

namespace Evaluation

variable {settings : Settings} {log : List Collection}

/-- The report of the collection before the rule for a task begins, if there is one. -/
def Question.collection? : {sort : TaskSort} → Question sort → Option Collection
  | _, ⟨.execute _, st⟩ => st.dueCollection?
  | _, _ => none

theorem balanced_collectIfDue {st : State} (h : st.heap.Balanced settings log) :
    st.collectIfDue.heap.Balanced settings (log ++ st.dueCollection?.toList) := by
  rw [State.collectIfDue, State.dueCollection?]
  split
  · exact h.collect st.roots
  · rw [Option.toList_none, List.append_nil]
    exact h

/-- What takes place before the rule for a task begins is entered into the books. -/
theorem balanced_checked {sort : TaskSort} {q : Question sort}
    (h : (heapBefore sort q).Balanced settings log) :
    (heapChecked sort q).Balanced settings (log ++ q.collection?.toList) := by
  obtain ⟨task, st⟩ := q
  cases task with
  | execute s => exact balanced_collectIfDue h
  | _ => exact (List.append_nil log).symm ▸ h

/-- After the check there is room for an allocation before the next collection is due. -/
theorem allocations_lt_threshold {st : State} (h : st.heap.Balanced settings log) :
    st.collectIfDue.heap.allocations < st.collectIfDue.heap.threshold := by
  rw [State.collectIfDue]
  split
  · have threshold : st.collect.2.heap.threshold = _ := (h.collect st.roots).threshold
    rw [threshold]
    exact settings.threshold_pos _
  · rename_i early
    simpa [Heap.shouldCollect] using early

end Evaluation

/-! ## The steps of a program -/

namespace Session

variable {session after : Session} {settings : Settings} {log : List Collection}

/-- How far a program has come after so many steps. -/
def progress (session : Session) (program : List Stmt) (n : Nat) :
    Progress Question Answer .program :=
  evaluation.progress ⟨.run program, session.state⟩ n

/-- The heap that a program has come to after so many steps. -/
def heapAt (session : Session) (program : List Stmt) (n : Nat) : Heap :=
  (session.progress program n).moment heapBefore heapAfter

/-- The collection that the next step of a program begins with. -/
def nextCollection? (session : Session) (program : List Stmt) (n : Nat) : Option Collection :=
  (session.progress program n).upcoming.bind fun q => q.2.collection?

/-- The collections that a program has made after so many steps. -/
def collectionsBy (session : Session) (program : List Stmt) (n : Nat) : List Collection :=
  (List.range n).filterMap (session.nextCollection? program)

theorem collectionsBy_succ (program : List Stmt) (n : Nat) :
    session.collectionsBy program (n + 1) =
      session.collectionsBy program n ++ (session.nextCollection? program n).toList := by
  unfold collectionsBy
  rw [List.range_succ, List.filterMap_append]
  cases h : session.nextCollection? program n <;> simp [h]

/-- **The books balance after each step of a program.** -/
theorem balanced_heapAt (h : session.state.heap.Balanced settings log) (program : List Stmt)
    (n : Nat) : (session.heapAt program n).Balanced settings
      (log ++ session.collectionsBy program n) := by
  induction n with
  | zero =>
    have begins := (goesBy .program ⟨.run program, session.state⟩).le_moment
    have stands : session.heapAt program 0 = _ := Rules.moment_drive_zero
    rw [stands]
    exact (List.append_nil log).symm ▸ h.evolves begins
  | succ n ih =>
    -- A step takes up a question, after a collection perhaps, or it hands back an answer.
    have step := goesBy.step (fun _ => .same) ⟨.run program, session.state⟩ n
    rw [collectionsBy_succ, ← List.append_assoc]
    change Heap.Evolves _ (session.heapAt program (n + 1)) at step
    split at step
    · rename_i q upcoming
      have comes : session.nextCollection? program n = q.2.collection? := by
        rw [nextCollection?, progress, upcoming]
        rfl
      have stands : session.heapAt program n = heapBefore q.1 q.2 :=
        Progress.moment_of_upcoming upcoming
      rw [stands] at ih
      exact comes ▸ (balanced_checked ih).evolves step
    · rename_i upcoming
      have comes : session.nextCollection? program n = none := by
        rw [nextCollection?, progress, upcoming]
        rfl
      rw [comes, Option.toList_none, List.append_nil]
      exact ih.evolves step

/-- A step that takes up a statement leads to where garbage has been collected if it was time to. -/
theorem heapAt_succ_of_execute {program : List Stmt} {n : Nat} {s : Stmt} {st : State}
    (upcoming : (session.progress program n).upcoming = some ⟨.flow, .execute s, st⟩) :
    session.heapAt program (n + 1) = st.collectIfDue.heap := by
  rw [heapAt, progress, Rules.progress_succ]
  exact Progress.moment_onward_of_upcoming upcoming

/-! ## Histories with their logs -/

/-- The reports of so many collections in a row. -/
def collections (session : Session) : Nat → List Collection
  | 0 => []
  | n + 1 => session.collect.1 :: session.collect.2.collections n

/-- The reports of the collections that a command leads to. -/
def collectionsOf (session : Session) (fuel : Nat) : Command → List Collection
  | .run source =>
      match prepare source with
      | .ok program => session.collectionsBy program fuel
      | .error _ => []
  | .collect => [session.collect.1]
  | .read _ | .compare _ _ => []

/-- The session takes the steps one after the other, and these are the reports of all collections. -/
inductive Logs : Session → List Step → List Collection → Session → Prop
  | nil (session : Session) : Logs session [] [] session
  | cons {session between after : Session} {step : Step} {steps : List Step} {fuel : Nat}
      {reply : Reply} {log : List Collection}
      (obeyed : (session.collectTimes step.collections).obey fuel step.command =
        some (reply, between))
      (rest : Logs between steps log after) :
      Logs session (step :: steps)
        (session.collections step.collections ++
          ((session.collectTimes step.collections).collectionsOf fuel step.command ++ log)) after

/-- Every history has its log. -/
theorem exists_logs_iff {steps : List Step} :
    (∃ log, session.Logs steps log after) ↔ ∃ replies, session.Follows steps replies after := by
  constructor
  · rintro ⟨log, logs⟩
    induction logs with
    | nil session => exact ⟨[], .nil session⟩
    | cons obeyed _ ih =>
      obtain ⟨replies, follows⟩ := ih
      exact ⟨_, .cons obeyed follows⟩
  · rintro ⟨replies, follows⟩
    induction follows with
    | nil session => exact ⟨[], .nil session⟩
    | cons obeyed _ ih =>
      obtain ⟨log, logs⟩ := ih
      exact ⟨_, .cons obeyed logs⟩

theorem balanced_collectTimes (h : session.state.heap.Balanced settings log) (n : Nat) :
    (session.collectTimes n).state.heap.Balanced settings (log ++ session.collections n) := by
  induction n generalizing session log with
  | zero => exact (List.append_nil log).symm ▸ h
  | succ n ih =>
    rw [collections, List.append_cons]
    exact ih (h.collect session.state.roots)

theorem balanced_obey {command : Command} {fuel : Nat} {reply : Reply}
    (h : session.state.heap.Balanced settings log)
    (obeyed : session.obey fuel command = some (reply, after)) :
    after.state.heap.Balanced settings (log ++ session.collectionsOf fuel command) := by
  cases obey_eq_some_iff.mp obeyed with
  | read | compare => exact (List.append_nil log).symm ▸ h
  | collect => exact h.collect session.state.roots
  | rejected prepared =>
    rw [collectionsOf, prepared]
    exact (List.append_nil log).symm ▸ h
  | @ran _ program _ _ prepared ran =>
    obtain ⟨answer, answered, same⟩ := Option.map_eq_some_iff.mp ran
    cases same
    rw [collectionsOf, prepared]
    have books := balanced_heapAt h program fuel
    have finished : session.progress program fuel = .finished answer :=
      Progress.eq_finished_of_answer? answered
    -- The heap that the run has come to is the one that its answer leaves behind.
    rw [heapAt, finished] at books
    exact books

theorem evolves_defineNatives {heap : Heap} {st : State} (h : heap.Evolves st.heap)
    (natives : List Native) : heap.Evolves (st.defineNatives natives).heap := by
  induction natives generalizing st with
  | nil => exact h
  | cons native rest ih => exact ih (h.newIdentity.bindVariable _ _ _)

theorem balanced_start (settings : Settings) (sink : Sink) (clock : Clock) :
    (start settings sink clock).state.heap.Balanced settings [] := by
  have globals : (Heap.new settings).Evolves (State.bare settings sink clock).heap :=
    Heap.Evolves.same.newFrame none .program
  exact (Heap.Balanced.new settings).evolves (evolves_defineNatives globals Native.all)

theorem Logs.balanced {steps : List Step} {later : List Collection}
    (h : session.state.heap.Balanced settings log) (logs : session.Logs steps later after) :
    after.state.heap.Balanced settings (log ++ later) := by
  induction logs generalizing log with
  | nil session => exact (List.append_nil log).symm ▸ h
  | cons obeyed _ ih =>
    rw [← List.append_assoc, ← List.append_assoc]
    exact ih (balanced_obey (balanced_collectTimes h _) obeyed)

/-- **Growth between collections is bounded.**  After any history, and after each step of any program
that is run then, the heap holds as many objects as have survived the last collection and have been
allocated since, the threshold is what the settings ask for, and whatever has ever been allocated is there
or has been freed.  Right after the check before a statement, there are fewer objects than the survivors
and the threshold together.

The log is no condition on the history: every history has one (`exists_logs_iff`). -/
theorem accounts_of_logs {settings : Settings} {sink : Sink} {clock : Clock} {steps : List Step}
    {log : List Collection} {session : Session}
    (logs : (start settings sink clock).Logs steps log session) :
    session.state.heap.Accounts settings log ∧
    ∀ program n,
      (session.heapAt program n).Accounts settings (log ++ session.collectionsBy program n) ∧
      ∀ s st, (session.progress program n).upcoming = some ⟨.flow, .execute s, st⟩ →
        (session.heapAt program (n + 1)).occupied <
          survivors (log ++ session.collectionsBy program (n + 1)) +
            (session.heapAt program (n + 1)).threshold := by
  have books : session.state.heap.Balanced settings log := logs.balanced (balanced_start ..)
  refine ⟨books.accounts, fun program n => ⟨(balanced_heapAt books program n).accounts, ?_⟩⟩
  intro s st upcoming
  have stands : session.heapAt program n = st.heap := Progress.moment_of_upcoming upcoming
  have room := allocations_lt_threshold (stands ▸ balanced_heapAt books program n)
  rw [← heapAt_succ_of_execute upcoming] at room
  rw [(balanced_heapAt books program (n + 1)).accounts.occupied]
  exact Nat.add_lt_add_left room _

/-- Blocks within each other, where each object that survives allows for one allocation.  A collection
that is asked for is followed by two that are due. -/
theorem accounts_of_logs_nestedBlocks :
    let settings : Settings := { gcThreshold := 1, gcGrowthFactor := 1 }
    ∃ log session, (start settings .unlimited (.ticking 0)).Logs
        [⟨1, .run "\x7b \x7b \x7b print 1; \x7d \x7d \x7d"⟩] log session ∧
      log.map Collection.survivors = [1, 2, 4] ∧
      session.state.heap.Accounts settings log := by
  intro settings
  have ran : (((start settings .unlimited (.ticking 0)).collectTimes 1).obey 1000
      (.run "\x7b \x7b \x7b print 1; \x7d \x7d \x7d")).isSome = true := by decide +kernel
  obtain ⟨⟨reply, session⟩, obeyed⟩ := Option.isSome_iff_exists.mp ran
  have logs : (start settings .unlimited (.ticking 0)).Logs [⟨1, .run _⟩] _ session :=
    .cons obeyed (.nil session)
  exact ⟨_, session, logs, by decide +kernel, (accounts_of_logs logs).1⟩

end Session

end Lox
