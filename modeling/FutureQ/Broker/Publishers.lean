import FutureQ.Broker.Producer
import FutureQ.Core.Transition

/-!
# Concurrent publishers without Raft

Every publish stream of a standalone broker runs `processStandaloneBatch` in its
own goroutine.  The publishers share the ID counter and the database; each one
collects its writes in a batch of its own.  An action is one round of
`marshalMessages` (the atomic increment and the writes to the private batch),
the commit, or a restart while nobody publishes.  Messages carry the batch they
were committed in as history: `committed` lists them in commit order.
-/

namespace FutureQ.Publishers

open FutureQ.ByteOrder
open FutureQ.GoRuntime
open FutureQ.OrderedStore
open FutureQ.Storage
open FutureQ.Keys
open FutureQ.Repository
open FutureQ.Producer
open FutureQ.Transition

/-- A message as one store wrote it. -/
structure StoredEvent where
  key : Bytes
  data : Bytes
  indexes : List Bytes
  deriving DecidableEq, Repr

def StoredEvent.eventID (event : StoredEvent) : UInt64 := eventIDOf event.key

def StoredEvent.ops (event : StoredEvent) : List Op :=
  eventOps event.eventID event.key event.data event.indexes

/-- A publisher in the middle of a batch: the messages it has not reached yet,
its batch, and what the batch stores so far. -/
structure Publisher (Index : Type) where
  nowMs : Int64
  rest : List (Message Index)
  batch : Batch
  stored : List StoredEvent

structure State (Index : Type) where
  db : DB
  repo : EventRepository
  publishers : List (Publisher Index)
  committed : List StoredEvent

inductive Action (Index : Type) where
  | arrive (batch : PublishBatch Index) (nowMs : Int64)
  | next (i : ℕ) (faults : Faults)
  | commit (i : ℕ) (faults : Faults)
  | restart (bucketSize : TimeBucketSize)

section Step

variable {Index : Type} (lib : Libraries Index) (engine : Engine)

def eventOf (key : Bytes) (msg : StoredMessage Index) : StoredEvent where
  key := key
  data := (lib.marshal msg).toOption.getD []
  indexes := msg.indexes.filterMap fun idx => (lib.marshalIndex idx).toOption

/-- The next round of the `i`-th publisher; an error ends its batch. -/
def publishNext (state : State Index) (i : ℕ) (faults : Faults)
    (publisher : Publisher Index) (msg : Message Index)
    (msgs : List (Message Index)) : State Index :=
  if msg.delayMs < 0 ∨ msg.ttlMs < 0 then
    { state with publishers := state.publishers.eraseIdx i }
  else
    let data := storedMessage publisher.nowMs msg
    match storeWithBatch lib faults state.repo publisher.batch data with
    | (.error _, repo, _) =>
        { state with repo, publishers := state.publishers.eraseIdx i }
    | (.ok key, repo, batch) =>
        { state with
          repo
          publishers := state.publishers.set i
            ⟨publisher.nowMs, msgs, batch,
              publisher.stored ++ [eventOf lib key data]⟩ }

def step (state : State Index) : Action Index → Option (State Index)
  | .arrive batch nowMs =>
      some { state with
        publishers := state.publishers ++ [⟨nowMs, batch.messages, newBatch, []⟩] }
  | .next i faults =>
      match state.publishers[i]? with
      | none => none
      | some publisher =>
          match publisher.rest with
          | [] => none
          | msg :: msgs => some (publishNext lib state i faults publisher msg msgs)
  | .commit i faults =>
      match state.publishers[i]? with
      | none => none
      | some publisher =>
          if publisher.rest ≠ [] then none
          else
            match engine.commit faults state.db publisher.batch with
            | .error _ =>
                some { state with publishers := state.publishers.eraseIdx i }
            | .ok db =>
                some ⟨db, state.repo, state.publishers.eraseIdx i,
                  state.committed ++ publisher.stored⟩
  | .restart bucketSize =>
      if state.publishers ≠ [] then none
      else
        match newEventRepository engine state.db bucketSize with
        | .error _ => none
        | .ok repo => some { state with repo }

/-- A broker that opened its repository on `db`. -/
def opened (db : DB) (repo : EventRepository) : State Index := ⟨db, repo, [], []⟩

end Step

/-! ## One publisher alone is `processStandaloneBatch` -/

section Alone

variable {Index : Type} {lib : Libraries Index} {faults : Faults}

/-- What is left of a lone publisher after its loop. -/
def leftOf (nowMs : Int64) (filled : Batch) (stored : List StoredEvent) :
    Except PublishError Unit → List (Publisher Index)
  | .ok () => [⟨nowMs, [], filled, stored⟩]
  | .error _ => []

theorem run_marshalMessages {nowMs : Int64} {msgs : List (Message Index)} {i : ℕ}
    {repo after : EventRepository} {batch filled : Batch}
    {outcome : Except PublishError Unit}
    (hloop : marshalMessages nowMs (storeNext lib faults) i msgs (repo, batch) =
      (outcome, after, filled))
    (engine : Engine) (db : DB) (committed stored : List StoredEvent) :
    ∃ rounds final,
      run (step lib engine) ⟨db, repo, [⟨nowMs, msgs, batch, stored⟩], committed⟩
          (List.replicate rounds (.next 0 faults)) =
        some ⟨db, after, leftOf nowMs filled final outcome, committed⟩ := by
  induction msgs generalizing i repo batch stored with
  | nil =>
      cases hloop
      exact ⟨0, stored, rfl⟩
  | cons msg msgs ih =>
      rw [marshalMessages] at hloop
      by_cases hdelay : msg.delayMs < 0
      · rw [if_pos hdelay] at hloop
        cases hloop
        exact ⟨1, [], by simp [run, step, publishNext, hdelay, leftOf]⟩
      rw [if_neg hdelay] at hloop
      by_cases httl : msg.ttlMs < 0
      · rw [if_pos httl] at hloop
        cases hloop
        exact ⟨1, [], by simp [run, step, publishNext, httl, leftOf]⟩
      rw [if_neg httl, storeNext] at hloop
      rcases hstore : storeWithBatch lib faults repo batch
        (storedMessage nowMs msg) with ⟨err | key, middle, filled⟩
      · rw [hstore] at hloop
        cases hloop
        exact ⟨1, [], by simp [run, step, publishNext, hdelay, httl, hstore, leftOf]⟩
      · rw [hstore] at hloop
        obtain ⟨rounds, final, hrounds⟩ := ih hloop
          (stored ++ [eventOf lib key (storedMessage nowMs msg)])
        refine ⟨rounds + 1, final, ?_⟩
        rw [List.replicate_succ, run_cons_eq_some]
        exact ⟨_, by simp [step, publishNext, hdelay, httl, hstore], hrounds⟩

/-- A publisher that nobody interrupts leaves the counter and the database that
the handler leaves. -/
theorem run_processStandaloneBatch {engine : Engine}
    {repo after : EventRepository} {db final : DB} {batch : PublishBatch Index}
    {nowMs : Int64} {outcome : Except PublishError Unit}
    (hprocess : processStandaloneBatch lib engine faults repo db batch nowMs =
      (outcome, after, final)) (committed : List StoredEvent) :
    ∃ actions stored,
      run (step lib engine) ⟨db, repo, [], committed⟩ actions =
        some ⟨final, after, [], committed ++ stored⟩ := by
  rcases hloop : marshalMessages nowMs (storeNext lib faults) 0 batch.messages
    (repo, newBatch) with ⟨result, middle, filled⟩
  obtain ⟨rounds, stored, hrounds⟩ :=
    run_marshalMessages hloop engine db committed []
  have hrun : run (step lib engine) ⟨db, repo, [], committed⟩
      (.arrive batch nowMs :: List.replicate rounds (.next 0 faults)) =
        some ⟨db, middle, leftOf nowMs filled stored result, committed⟩ :=
    run_cons_eq_some.mpr ⟨_, rfl, hrounds⟩
  rw [processStandaloneBatch, hloop] at hprocess
  cases result with
  | error err =>
      cases hprocess
      exact ⟨_, [], by simpa [leftOf] using hrun⟩
  | ok _ =>
      have hend : ∃ more, step lib engine
          ⟨db, middle, [⟨nowMs, [], filled, stored⟩], committed⟩
          (.commit 0 faults) = some ⟨final, after, [], committed ++ more⟩ := by
        cases hcommit : engine.commit faults db filled with
        | error err =>
            simp only [hcommit] at hprocess
            cases hprocess
            exact ⟨[], by simp [step, hcommit]⟩
        | ok written =>
            simp only [hcommit] at hprocess
            cases hprocess
            exact ⟨stored, by simp [step, hcommit]⟩
      obtain ⟨more, hmore⟩ := hend
      refine ⟨(.arrive batch nowMs :: List.replicate rounds (.next 0 faults)) ++
        [.commit 0 faults], more, ?_⟩
      rw [run_append, hrun]
      exact run_cons_eq_some.mpr ⟨_, hmore, rfl⟩

end Alone

/-! ## What a step can do -/

section Effects

variable {Index : Type} {lib : Libraries Index} {engine : Engine}

/-- The effects of an action: `refuse` and `waste` end a batch without storing
it, the second after the counter has moved. -/
inductive Effect (lib : Libraries Index) (engine : Engine) (state : State Index) :
    Action Index → State Index → Prop where
  | arrive (batch : PublishBatch Index) (nowMs : Int64) :
      Effect lib engine state (.arrive batch nowMs)
        { state with publishers :=
            state.publishers ++ [⟨nowMs, batch.messages, newBatch, []⟩] }
  | refuse (action : Action Index) (before after : List (Publisher Index))
      (publisher : Publisher Index)
      (hsplit : state.publishers = before ++ publisher :: after) :
      Effect lib engine state action { state with publishers := before ++ after }
  | waste (faults : Faults) (before after : List (Publisher Index))
      (publisher : Publisher Index)
      (hsplit : state.publishers = before ++ publisher :: after) :
      Effect lib engine state (.next before.length faults)
        { state with
          repo := { state.repo with lastID := state.repo.lastID + 1 }
          publishers := before ++ after }
  | store (faults : Faults) (before after : List (Publisher Index))
      (publisher : Publisher Index) (msgs : List (Message Index))
      (event : StoredEvent)
      (hsplit : state.publishers = before ++ publisher :: after)
      (hlength : event.key.length = 24)
      (hid : event.eventID = state.repo.lastID + 1) :
      Effect lib engine state (.next before.length faults)
        { state with
          repo := { state.repo with lastID := state.repo.lastID + 1 }
          publishers := before ++ ⟨publisher.nowMs, msgs,
            publisher.batch.push event.ops, publisher.stored ++ [event]⟩ :: after }
  | commit (faults : Faults) (before after : List (Publisher Index))
      (publisher : Publisher Index) (db : DB)
      (hsplit : state.publishers = before ++ publisher :: after)
      (hcommit : engine.commit faults state.db publisher.batch = .ok db) :
      Effect lib engine state (.commit before.length faults)
        ⟨db, state.repo, before ++ after, state.committed ++ publisher.stored⟩
  | restart (bucketSize : TimeBucketSize) (repo : EventRepository)
      (hidle : state.publishers = [])
      (hopen : newEventRepository engine state.db bucketSize = .ok repo) :
      Effect lib engine state (.restart bucketSize) { state with repo }

theorem exists_split {α : Type} {values : List α} {i : ℕ} {value : α}
    (hvalue : values[i]? = some value) :
    ∃ before after, values = before ++ value :: after ∧ before.length = i := by
  obtain ⟨hbound, rfl⟩ := List.getElem?_eq_some_iff.mp hvalue
  refine ⟨values.take i, values.drop (i + 1), ?_, ?_⟩
  · rw [← List.drop_eq_getElem_cons hbound, List.take_append_drop]
  · rw [List.length_take, Nat.min_eq_left hbound.le]

/-- A store that succeeds appends the writes of one event under the next ID. -/
theorem storeWithBatch_eq_ok {faults : Faults} {repo after : EventRepository}
    {batch filled : Batch} {msg : StoredMessage Index} {key : Bytes}
    (hstore : storeWithBatch lib faults repo batch msg = (.ok key, after, filled)) :
    (eventOf lib key msg).eventID = repo.lastID + 1 ∧ key.length = 24 ∧
      filled = batch.push (eventOf lib key msg).ops := by
  rw [storeWithBatch] at hstore
  rcases hput : putMessage lib faults repo.bucketSize (repo.lastID + 1) msg batch
    with ⟨result, final⟩
  rw [hput] at hstore
  cases hstore
  obtain ⟨data, indexes, hdata, hindexes, rfl, rfl⟩ := putMessage_eq_ok hput
  rw [eventOf, hdata, filterMap_toOption hindexes]
  simp [StoredEvent.eventID, StoredEvent.ops, Except.toOption]

theorem effect_publishNext {state : State Index} {faults : Faults}
    {before after : List (Publisher Index)} {publisher : Publisher Index}
    (hsplit : state.publishers = before ++ publisher :: after)
    (msg : Message Index) (msgs : List (Message Index)) :
    Effect lib engine state (.next before.length faults)
      (publishNext lib state before.length faults publisher msg msgs) := by
  have herase : state.publishers.eraseIdx before.length = before ++ after := by
    rw [hsplit, List.eraseIdx_append_of_length_le le_rfl]
    simp
  rw [publishNext, herase]
  split
  · exact .refuse _ before after publisher hsplit
  · have hrepo : (storeWithBatch lib faults state.repo publisher.batch
        (storedMessage publisher.nowMs msg)).2.1 =
          { state.repo with lastID := state.repo.lastID + 1 } := rfl
    dsimp only
    rcases hstore : storeWithBatch lib faults state.repo publisher.batch
      (storedMessage publisher.nowMs msg) with ⟨err | key, repo, batch⟩
    · rw [hstore] at hrepo
      cases hrepo
      exact .waste faults before after publisher hsplit
    · rw [hstore] at hrepo
      cases hrepo
      obtain ⟨hid, hlength, rfl⟩ := storeWithBatch_eq_ok hstore
      dsimp only
      rw [hsplit, List.set_append_right _ _ le_rfl, Nat.sub_self, List.set_cons_zero]
      exact .store faults before after publisher msgs _ hsplit hlength hid

theorem effect_of_step {state next : State Index} {action : Action Index}
    (hstep : step lib engine state action = some next) :
    Effect lib engine state action next := by
  cases action with
  | arrive batch nowMs =>
      cases hstep
      exact .arrive batch nowMs
  | next i faults =>
      simp only [step] at hstep
      split at hstep
      · cases hstep
      · rename_i publisher hpublisher
        obtain ⟨before, after, hsplit, rfl⟩ := exists_split hpublisher
        split at hstep
        · cases hstep
        · cases hstep
          exact effect_publishNext hsplit _ _
  | commit i faults =>
      simp only [step] at hstep
      split at hstep
      · cases hstep
      · rename_i publisher hpublisher
        obtain ⟨before, after, hsplit, rfl⟩ := exists_split hpublisher
        have herase : state.publishers.eraseIdx before.length = before ++ after := by
          rw [hsplit, List.eraseIdx_append_of_length_le le_rfl]
          simp
        rw [herase] at hstep
        split at hstep
        · cases hstep
        · split at hstep
          · cases hstep
            exact .refuse _ before after publisher hsplit
          · cases hstep
            exact .commit faults before after publisher _ hsplit ‹_›
  | restart bucketSize =>
      simp only [step] at hstep
      split at hstep
      · cases hstep
      · split at hstep
        · cases hstep
        · cases hstep
          exact .restart bucketSize _ (not_not.mp ‹_›) ‹_›

end Effects

end FutureQ.Publishers
