import FutureQ.Broker.Publishers

/-!
# Event IDs across concurrent commits

The batch of every publisher carries the ID of its own last message as the
last-id record, so the record that survives is the one of the batch that
commits last, not the largest.  As long as batches commit in the order of their
last IDs the record bounds every committed ID, and a restart never issues one
of them again.
-/

namespace FutureQ.CommitOrder

open FutureQ.ByteOrder
open FutureQ.GoRuntime
open FutureQ.OrderedStore
open FutureQ.Storage
open FutureQ.Keys
open FutureQ.Repository
open FutureQ.Producer
open FutureQ.Publishers
open FutureQ.Transition

/-! ## What the batch of a publisher writes -/

def eventsOps (events : List StoredEvent) : List Op :=
  events.flatMap StoredEvent.ops

/-- No index of the batch is the last-id key or the key of an event that was
written before it, by an earlier batch or by this one. -/
def IndexesClear : List StoredEvent → List StoredEvent → Prop
  | _, [] => True
  | written, event :: events =>
      (∀ idx ∈ event.indexes, idx ≠ eventsLastIDKey ∧
        ∀ other ∈ written ++ [event], idx ≠ other.key) ∧
      IndexesClear (written ++ [event]) events

def decideIndexesClear : (written events : List StoredEvent) →
    Decidable (IndexesClear written events)
  | _, [] => isTrue trivial
  | written, event :: events =>
      have := decideIndexesClear (written ++ [event]) events
      inferInstanceAs (Decidable (_ ∧ IndexesClear (written ++ [event]) events))

instance (written events : List StoredEvent) :
    Decidable (IndexesClear written events) := decideIndexesClear written events

def Kept (db : DB) (events : List StoredEvent) : Prop :=
  ∀ event ∈ events, db[event.key]? = some event.data

instance (db : DB) (events : List StoredEvent) : Decidable (Kept db events) :=
  inferInstanceAs (Decidable (∀ event ∈ events, db[event.key]? = some event.data))

/-- One event leaves what the database already held and adds itself. -/
theorem kept_commit_event {db : DB} {written : List StoredEvent}
    {event : StoredEvent} (hkept : Kept db written)
    (hlength : ∀ other ∈ written ++ [event], other.key.length = 24)
    (hfresh : event.key ∉ written.map StoredEvent.key)
    (hclear : ∀ idx ∈ event.indexes, ∀ other ∈ written ++ [event],
      idx ≠ other.key) :
    Kept (commit db event.ops) (written ++ [event]) := by
  intro other hother
  have hindexes : ∀ op ∈ event.indexes.map fun idx => BatchOp.set idx event.key,
      op.key ≠ other.key := by
    intro op hop
    obtain ⟨idx, hidx, rfl⟩ := List.mem_map.mp hop
    exact hclear idx hidx other hother
  rw [StoredEvent.ops, eventOps, commit_cons, commit_cons,
    getElem?_commit_of_untouched _ hindexes, BatchOp.apply, BatchOp.apply]
  rcases List.mem_append.mp hother with hold | hself
  · have hne : event.key ≠ other.key := by
      intro heq
      exact hfresh (List.mem_map.mpr ⟨other, hold, heq.symm⟩)
    rw [getElem?_insert_ne hne,
      getElem?_insert_ne (eventsLastIDKey_ne_of_length (hlength other hother))]
    exact hkept other hold
  · rw [List.mem_singleton.mp hself]
    exact Std.ExtTreeMap.getElem?_insert_self

theorem kept_commit_events {db : DB} {written events : List StoredEvent}
    (hkept : Kept db written)
    (hlength : ∀ other ∈ written ++ events, other.key.length = 24)
    (hdistinct : ((written ++ events).map StoredEvent.key).Nodup)
    (hclear : IndexesClear written events) :
    Kept (commit db (eventsOps events)) (written ++ events) := by
  induction events generalizing db written with
  | nil => simpa [eventsOps] using hkept
  | cons event events ih =>
      have hassoc : written ++ event :: events = written ++ [event] ++ events := by
        simp
      rw [hassoc] at hlength hdistinct ⊢
      have hfresh : event.key ∉ written.map StoredEvent.key := by
        rw [List.map_append, List.map_append, List.map_singleton] at hdistinct
        have hfirst := (List.nodup_append.mp hdistinct).1
        exact fun hmem => (List.nodup_append.mp hfirst).2.2 _ hmem _
          (List.mem_singleton.mpr rfl) rfl
      have hfirst : Kept (commit db event.ops) (written ++ [event]) :=
        kept_commit_event hkept
          (fun other hother => hlength other (List.mem_append_left _ hother))
          hfresh (fun idx hidx other hother => (hclear.1 idx hidx).2 other hother)
      have hops : eventsOps (event :: events) = event.ops ++ eventsOps events := rfl
      rw [hops, commit_append]
      exact ih hfirst hlength hdistinct hclear.2

/-- The record that a batch leaves is the ID of its last event. -/
theorem readCounter_commit_events {engine : Engine} (db : DB)
    {events : List StoredEvent} {event : StoredEvent}
    (hlength : event.key.length = 24)
    (hclear : ∀ idx ∈ event.indexes, idx ≠ eventsLastIDKey) :
    readCounter engine (commit db (eventsOps (events ++ [event]))) eventsLastIDKey
      0 = .ok event.eventID := by
  apply readCounter_of_some
  have hrest : ∀ op ∈ BatchOp.set event.key event.data ::
      event.indexes.map (fun idx => BatchOp.set idx event.key),
        op.key ≠ eventsLastIDKey := by
    intro op hop
    rcases List.mem_cons.mp hop with rfl | hindex
    · exact (eventsLastIDKey_ne_of_length hlength).symm
    · obtain ⟨idx, hidx, rfl⟩ := List.mem_map.mp hindex
      exact hclear idx hidx
  have hops : eventsOps (events ++ [event]) = eventsOps events ++ event.ops := by
    simp [eventsOps]
  rw [hops, commit_append, StoredEvent.ops, eventOps, commit_cons,
    getElem?_commit_of_untouched _ hrest]
  exact Std.ExtTreeMap.getElem?_insert_self

theorem IndexesClear.lastIDKey {written events : List StoredEvent}
    (hclear : IndexesClear written events) {event : StoredEvent}
    (hevent : event ∈ events) : ∀ idx ∈ event.indexes, idx ≠ eventsLastIDKey := by
  induction events generalizing written with
  | nil => exact absurd hevent List.not_mem_nil
  | cons head events ih =>
      rcases List.mem_cons.mp hevent with rfl | hlater
      · exact fun idx hidx => (hclear.1 idx hidx).1
      · exact ih hclear.2 hlater

/-! ## The invariant -/

section Invariant

variable {Index : Type} {lib : Libraries Index} {engine : Engine}

def pending (publishers : List (Publisher Index)) : List StoredEvent :=
  publishers.flatMap Publisher.stored

/-- The record bounds every committed ID, committed IDs are distinct, and every
committed message is still stored as it was committed. -/
structure NeverReused (engine : Engine) (state : State Index) : Prop where
  record : ∃ record, readCounter engine state.db eventsLastIDKey 0 = .ok record ∧
    ∀ event ∈ state.committed, event.eventID ≤ record
  distinct : (state.committed.map StoredEvent.eventID).Nodup
  kept : Kept state.db state.committed

/-- The counter can move without starting again at zero; a batch that commits
has a last ID that is not below the record, and indexes that overwrite neither
the record nor a stored message. -/
def InOrder (engine : Engine) (state : State Index) : Action Index → Prop
  | .next _ _ => state.repo.lastID.toNat + 1 < 2 ^ 64
  | .commit i _ => ∀ publisher ∈ state.publishers[i]?,
      (∀ record, readCounter engine state.db eventsLastIDKey 0 = .ok record →
        ∀ event ∈ publisher.stored.getLast?, record ≤ event.eventID) ∧
      IndexesClear state.committed publisher.stored
  | _ => True

structure Sound (engine : Engine) (state : State Index) : Prop where
  ops : ∀ publisher ∈ state.publishers,
    publisher.batch.ops = eventsOps publisher.stored
  ordered : ∀ publisher ∈ state.publishers,
    publisher.stored.Pairwise fun first second => first.eventID < second.eventID
  record : ∃ record, readCounter engine state.db eventsLastIDKey 0 = .ok record ∧
    record ≤ state.repo.lastID ∧ ∀ event ∈ state.committed, event.eventID ≤ record
  bound : ∀ event ∈ pending state.publishers, event.eventID ≤ state.repo.lastID
  distinct : ((state.committed ++ pending state.publishers).map
    StoredEvent.eventID).Nodup
  length : ∀ event ∈ state.committed ++ pending state.publishers,
    event.key.length = 24
  kept : Kept state.db state.committed

theorem Sound.neverReused {state : State Index} (hsound : Sound engine state) :
    NeverReused engine state := by
  obtain ⟨record, hread, -, hbound⟩ := hsound.record
  have hdistinct := hsound.distinct
  rw [List.map_append] at hdistinct
  exact ⟨⟨record, hread, hbound⟩, (List.nodup_append.mp hdistinct).1, hsound.kept⟩

theorem pending_append (left right : List (Publisher Index)) :
    pending (left ++ right) = pending left ++ pending right :=
  List.flatMap_append

theorem pending_cons (publisher : Publisher Index)
    (publishers : List (Publisher Index)) :
    pending (publisher :: publishers) = publisher.stored ++ pending publishers :=
  rfl

theorem lt_add_one {id : UInt64} (hbound : id.toNat + 1 < 2 ^ 64) : id < id + 1 := by
  rw [UInt64.lt_iff_toNat_lt, UInt64.toNat_add, UInt64.toNat_one,
    Nat.mod_eq_of_lt hbound]
  omega

theorem sound_opened {db : DB} {bucketSize : TimeBucketSize}
    {repo : EventRepository}
    (hopen : newEventRepository engine db bucketSize = .ok repo) :
    Sound engine (opened db repo : State Index) := by
  obtain ⟨record, hread, hrepo⟩ := bind_eq_ok_iff.mp hopen
  cases hrepo
  refine ⟨by simp [opened], by simp [opened], ⟨record, hread, UInt64.le_refl _, ?_⟩, ?_, ?_, ?_, ?_⟩
  all_goals simp [opened, pending, Kept]

theorem Sound.arrive {state : State Index} (hsound : Sound engine state)
    (batch : PublishBatch Index) (nowMs : Int64) :
    Sound engine { state with publishers :=
      state.publishers ++ [⟨nowMs, batch.messages, newBatch, []⟩] } := by
  have hpending : pending (state.publishers ++
      [⟨nowMs, batch.messages, newBatch, []⟩]) = pending state.publishers := by
    simp [pending]
  refine {
    ops := ?_
    ordered := ?_
    record := hsound.record
    bound := hpending ▸ hsound.bound
    distinct := hpending ▸ hsound.distinct
    length := hpending ▸ hsound.length
    kept := hsound.kept }
  · intro publisher hpublisher
    rcases List.mem_append.mp hpublisher with hold | hnew
    · exact hsound.ops publisher hold
    · rw [List.mem_singleton.mp hnew]
      rfl
  · intro publisher hpublisher
    rcases List.mem_append.mp hpublisher with hold | hnew
    · exact hsound.ordered publisher hold
    · rw [List.mem_singleton.mp hnew]
      exact .nil

theorem Sound.advance {state : State Index} (hsound : Sound engine state)
    (hbound : state.repo.lastID.toNat + 1 < 2 ^ 64) :
    Sound engine { state with
      repo := { state.repo with lastID := state.repo.lastID + 1 } } := by
  obtain ⟨record, hread, hrecord, hcommitted⟩ := hsound.record
  have hstep := UInt64.le_of_lt (lt_add_one hbound)
  exact {
    ops := hsound.ops
    ordered := hsound.ordered
    record := ⟨record, hread, UInt64.le_trans hrecord hstep, hcommitted⟩
    bound := fun event hevent => UInt64.le_trans (hsound.bound event hevent) hstep
    distinct := hsound.distinct
    length := hsound.length
    kept := hsound.kept }

theorem Sound.drop {state : State Index} (hsound : Sound engine state)
    {before after : List (Publisher Index)} {publisher : Publisher Index}
    (hsplit : state.publishers = before ++ publisher :: after) :
    Sound engine { state with publishers := before ++ after } := by
  have hsub : (before ++ after).Sublist state.publishers := by
    rw [hsplit]
    exact (List.sublist_cons_self publisher after).append_left before
  have hpending : (pending (before ++ after)).Sublist (pending state.publishers) :=
    hsub.flatMap _
  have hevents := hpending.append_left state.committed
  exact {
    ops := fun other hother => hsound.ops other (hsub.subset hother)
    ordered := fun other hother => hsound.ordered other (hsub.subset hother)
    record := hsound.record
    bound := fun event hevent => hsound.bound event (hpending.subset hevent)
    distinct := hsound.distinct.sublist (hevents.map _)
    length := fun event hevent => hsound.length event (hevents.subset hevent)
    kept := hsound.kept }

theorem Sound.eventID_le_lastID {state : State Index} (hsound : Sound engine state)
    {event : StoredEvent}
    (hevent : event ∈ state.committed ++ pending state.publishers) :
    event.eventID ≤ state.repo.lastID := by
  obtain ⟨record, -, hrecord, hcommitted⟩ := hsound.record
  rcases List.mem_append.mp hevent with hold | hactive
  · exact UInt64.le_trans (hcommitted event hold) hrecord
  · exact hsound.bound event hactive

theorem perm_pending_store (committed : List StoredEvent)
    (before after : List (Publisher Index)) (publisher : Publisher Index)
    (msgs : List (Message Index)) (batch : Batch) (event : StoredEvent) :
    (committed ++ pending (before ++ ⟨publisher.nowMs, msgs, batch,
        publisher.stored ++ [event]⟩ :: after)).Perm
      (event :: (committed ++ pending (before ++ publisher :: after))) := by
  rw [pending_append, pending_append, pending_cons, pending_cons]
  have hmiddle : committed ++ (pending before ++
      (publisher.stored ++ [event] ++ pending after)) =
        (committed ++ pending before ++ publisher.stored) ++
          event :: pending after := by simp
  have hrest : committed ++ (pending before ++ (publisher.stored ++ pending after)) =
      (committed ++ pending before ++ publisher.stored) ++ pending after := by simp
  rw [hmiddle, hrest]
  exact List.perm_middle

theorem perm_pending_commit (committed : List StoredEvent)
    (before after : List (Publisher Index)) (publisher : Publisher Index) :
    (committed ++ publisher.stored ++ pending (before ++ after)).Perm
      (committed ++ pending (before ++ publisher :: after)) := by
  rw [pending_append, pending_append, pending_cons, List.append_assoc]
  apply List.Perm.append_left
  rw [← List.append_assoc, ← List.append_assoc]
  exact List.perm_append_comm.append_right _

theorem Sound.store {state : State Index} (hsound : Sound engine state)
    (hbound : state.repo.lastID.toNat + 1 < 2 ^ 64)
    {before after : List (Publisher Index)} {publisher : Publisher Index}
    (hsplit : state.publishers = before ++ publisher :: after)
    {event : StoredEvent} (hlength : event.key.length = 24)
    (hid : event.eventID = state.repo.lastID + 1) (msgs : List (Message Index)) :
    Sound engine { state with
      repo := { state.repo with lastID := state.repo.lastID + 1 }
      publishers := before ++ ⟨publisher.nowMs, msgs,
        publisher.batch.push event.ops, publisher.stored ++ [event]⟩ :: after } := by
  have hlt : ∀ other ∈ state.committed ++ pending state.publishers,
      other.eventID < event.eventID := by
    intro other hother
    rw [hid]
    exact UInt64.lt_of_le_of_lt (hsound.eventID_le_lastID hother) (lt_add_one hbound)
  have hperm := perm_pending_store state.committed before after publisher msgs
    (publisher.batch.push event.ops) event
  rw [← hsplit] at hperm
  have hself : publisher ∈ state.publishers := by simp [hsplit]
  have hothers : ∀ other, other ∈ before ∨ other ∈ after →
      other ∈ state.publishers := by
    intro other hother
    rw [hsplit, List.mem_append, List.mem_cons]
    tauto
  refine {
    ops := ?_
    ordered := ?_
    record := (hsound.advance hbound).record
    bound := ?_
    distinct := ?_
    length := ?_
    kept := hsound.kept }
  · intro other hother
    rcases List.mem_append.mp hother with hbefore | hrest
    · exact hsound.ops other (hothers other (Or.inl hbefore))
    · rcases List.mem_cons.mp hrest with rfl | hafter
      · simp [Batch.push, hsound.ops publisher hself, eventsOps]
      · exact hsound.ops other (hothers other (Or.inr hafter))
  · intro other hother
    rcases List.mem_append.mp hother with hbefore | hrest
    · exact hsound.ordered other (hothers other (Or.inl hbefore))
    · rcases List.mem_cons.mp hrest with rfl | hafter
      · rw [List.pairwise_append]
        refine ⟨hsound.ordered publisher hself, List.pairwise_singleton _ _, ?_⟩
        intro first hfirst second hsecond
        rw [List.mem_singleton.mp hsecond]
        apply hlt
        exact List.mem_append_right _ (List.mem_flatMap.mpr ⟨publisher, hself, hfirst⟩)
      · exact hsound.ordered other (hothers other (Or.inr hafter))
  · intro other hother
    rcases List.mem_cons.mp (hperm.subset (List.mem_append_right _ hother)) with
      rfl | hold
    · exact UInt64.le_of_eq hid
    · exact hid ▸ UInt64.le_of_lt (hlt other hold)
  · rw [(hperm.map _).nodup_iff, List.map_cons, List.nodup_cons]
    refine ⟨?_, hsound.distinct⟩
    intro hmem
    obtain ⟨other, hother, heq⟩ := List.mem_map.mp hmem
    exact UInt64.lt_irrefl _ (heq ▸ hlt other hother)
  · intro other hother
    rcases List.mem_cons.mp (hperm.subset hother) with rfl | hold
    · exact hlength
    · exact hsound.length other hold

theorem eventID_le_last {events : List StoredEvent} {last : StoredEvent}
    (hordered : (events ++ [last]).Pairwise fun first second =>
      first.eventID < second.eventID) {event : StoredEvent}
    (hevent : event ∈ events ++ [last]) : event.eventID ≤ last.eventID := by
  rcases List.mem_append.mp hevent with hearlier | hself
  · exact UInt64.le_of_lt
      ((List.pairwise_append.mp hordered).2.2 event hearlier last (by simp))
  · rw [List.mem_singleton.mp hself]
    exact UInt64.le_refl _

/-- A batch that is in order leaves a record that bounds what was committed
before and what it commits. -/
theorem Sound.record_commit {state : State Index} (hsound : Sound engine state)
    {publisher : Publisher Index} (hself : publisher ∈ state.publishers)
    (horder : ∀ record, readCounter engine state.db eventsLastIDKey 0 = .ok record →
      ∀ event ∈ publisher.stored.getLast?, record ≤ event.eventID)
    (hclear : IndexesClear state.committed publisher.stored) :
    ∃ record, readCounter engine (commit state.db (eventsOps publisher.stored))
        eventsLastIDKey 0 = .ok record ∧ record ≤ state.repo.lastID ∧
      ∀ event ∈ state.committed ++ publisher.stored, event.eventID ≤ record := by
  obtain ⟨record, hread, hrecord, hcommitted⟩ := hsound.record
  have hpending : ∀ event ∈ publisher.stored, event ∈ pending state.publishers :=
    fun event hevent => List.mem_flatMap.mpr ⟨publisher, hself, hevent⟩
  have hordered := hsound.ordered publisher hself
  rcases List.eq_nil_or_concat publisher.stored with hnil | ⟨events, last, hlast⟩
  · rw [hnil]
    exact ⟨record, hread, hrecord, by simpa using hcommitted⟩
  · rw [List.concat_eq_append] at hlast
    have hmem : last ∈ publisher.stored := by simp [hlast]
    have hle : record ≤ last.eventID := horder record hread last (by simp [hlast])
    refine ⟨last.eventID, ?_, hsound.bound last (hpending last hmem), ?_⟩
    · rw [hlast]
      exact readCounter_commit_events state.db
        (hsound.length last (List.mem_append_right _ (hpending last hmem)))
        (hclear.lastIDKey hmem)
    · intro event hevent
      rcases List.mem_append.mp hevent with hold | hnew
      · exact UInt64.le_trans (hcommitted event hold) hle
      · rw [hlast] at hnew hordered
        exact eventID_le_last hordered hnew

theorem Sound.commit {state : State Index} (hsound : Sound engine state)
    {before after : List (Publisher Index)} {publisher : Publisher Index}
    (hsplit : state.publishers = before ++ publisher :: after)
    (horder : ∀ record, readCounter engine state.db eventsLastIDKey 0 = .ok record →
      ∀ event ∈ publisher.stored.getLast?, record ≤ event.eventID)
    (hclear : IndexesClear state.committed publisher.stored) :
    Sound engine ⟨OrderedStore.commit state.db publisher.batch.ops, state.repo,
      before ++ after, state.committed ++ publisher.stored⟩ := by
  have hself : publisher ∈ state.publishers := by simp [hsplit]
  have hperm := perm_pending_commit state.committed before after publisher
  rw [← hsplit] at hperm
  have hdropped := hsound.drop hsplit
  have hdistinct := (hperm.map StoredEvent.eventID).nodup_iff.mpr hsound.distinct
  have hlength : ∀ event ∈ state.committed ++ publisher.stored,
      event.key.length = 24 :=
    fun event hevent => hsound.length event
      (hperm.subset (List.mem_append_left _ hevent))
  have hkeys : ((state.committed ++ publisher.stored).map StoredEvent.key).Nodup := by
    rw [List.map_append] at hdistinct
    apply List.Nodup.of_map eventIDOf
    rw [List.map_map]
    exact (List.nodup_append.mp hdistinct).1
  rw [hsound.ops publisher hself]
  exact {
    ops := hdropped.ops
    ordered := hdropped.ordered
    record := hsound.record_commit hself horder hclear
    bound := hdropped.bound
    distinct := hdistinct
    length := fun event hevent => hsound.length event (hperm.subset hevent)
    kept := kept_commit_events hsound.kept hlength hkeys hclear }

theorem Sound.restart {state : State Index} (hsound : Sound engine state)
    (hidle : state.publishers = []) {bucketSize : TimeBucketSize}
    {repo : EventRepository}
    (hopen : newEventRepository engine state.db bucketSize = .ok repo) :
    Sound engine { state with repo } := by
  obtain ⟨record, hread, -, hcommitted⟩ := hsound.record
  obtain ⟨lastID, hlastID, hrepo⟩ := bind_eq_ok_iff.mp hopen
  cases hrepo
  rw [hread] at hlastID
  cases hlastID
  exact {
    ops := hsound.ops
    ordered := hsound.ordered
    record := ⟨record, hread, UInt64.le_refl _, hcommitted⟩
    bound := by simp [hidle, pending]
    distinct := hsound.distinct
    length := hsound.length
    kept := hsound.kept }

theorem Sound.step {state next : State Index} {action : Action Index}
    (hsound : Sound engine state) (horder : InOrder engine state action)
    (hstep : Publishers.step lib engine state action = some next) :
    Sound engine next := by
  cases effect_of_step hstep with
  | arrive batch nowMs => exact hsound.arrive batch nowMs
  | refuse action before after publisher hsplit => exact hsound.drop hsplit
  | waste faults before after publisher hsplit =>
      exact (hsound.advance horder).drop hsplit
  | store faults before after publisher msgs event hsplit hlength hid =>
      exact hsound.store horder hsplit hlength hid msgs
  | commit faults before after publisher db hsplit hcommit =>
      rw [commit_eq_ok hcommit]
      obtain ⟨hlast, hclear⟩ := horder publisher (by simp [hsplit])
      exact hsound.commit hsplit hlast hclear
  | restart bucketSize repo hidle hopen => exact hsound.restart hidle hopen

instance (state : State Index) (action : Action Index) :
    Decidable (InOrder engine state action) :=
  match action with
  | .arrive _ _ => isTrue trivial
  | .next _ _ => inferInstanceAs (Decidable (_ < _))
  | .commit i _ => inferInstanceAs (Decidable (∀ publisher ∈ state.publishers[i]?,
      (∀ record, readCounter engine state.db eventsLastIDKey 0 = .ok record →
        ∀ event ∈ publisher.stored.getLast?, record ≤ event.eventID) ∧
      IndexesClear state.committed publisher.stored))
  | .restart _ => isTrue trivial

/-- In every run from an opened database whose batches commit in the order of
their last IDs, without the counter running over, no event ID is used twice. -/
theorem committed_ids_never_reused {db : DB} {bucketSize : TimeBucketSize}
    {repo : EventRepository}
    (hopen : newEventRepository engine db bucketSize = .ok repo)
    {actions : List (Action Index)} {finish : State Index}
    (horder : Meets (Publishers.step lib engine) (InOrder engine) (opened db repo)
      actions)
    (hrun : run (Publishers.step lib engine) (opened db repo) actions =
      some finish) :
    NeverReused engine finish := by
  have hsound : Sound engine finish :=
    run_invariant (fun _ _ _ hinv hguard hstep => hinv.step hguard hstep)
      (sound_opened hopen) horder hrun
  exact hsound.neverReused

end Invariant

/-! ## Two publishers -/

def publish (payload : Bytes) : Action Bytes :=
  .arrive ⟨[⟨"orders", payload, 0, 0, []⟩], .quorum⟩ 5

def emptyBroker : State Bytes := opened ∅ ⟨0, ⟨0, valid_zero⟩⟩

/-- Two publishers take the IDs 1 and 2 and commit in the other order; a third
publishes after a restart. -/
def overtaking : List (Action Bytes) :=
  [publish [1], publish [2], .next 0 .none, .next 1 .none,
    .commit 1 .none, .commit 0 .none, .restart ⟨0, valid_zero⟩,
    publish [3], .next 0 .none, .commit 0 .none]

def inTurn : List (Action Bytes) :=
  [publish [1], publish [2], .next 0 .none, .next 1 .none,
    .commit 0 .none, .commit 0 .none, .restart ⟨0, valid_zero⟩,
    publish [3], .next 0 .none, .commit 0 .none]

theorem overtaken_commit_reuses_id :
    newEventRepository .pebble ∅ ⟨0, .inl rfl⟩ = .ok emptyBroker.repo ∧
    ∃ finish, run (Publishers.step plainLibraries .pebble) emptyBroker overtaking =
        some finish ∧
      finish.committed.map StoredEvent.eventID = [2, 1, 2] ∧
      ¬ Kept finish.db finish.committed := by
  refine ⟨rfl, exists_finish_of_any ?_⟩
  decide +kernel

theorem committed_ids_never_reused_inTurn :
    Meets (Publishers.step plainLibraries .pebble) (InOrder .pebble) emptyBroker
        inTurn ∧
      ∃ finish, run (Publishers.step plainLibraries .pebble) emptyBroker inTurn =
          some finish ∧
        finish.committed.map StoredEvent.eventID = [1, 2, 3] ∧
        NeverReused .pebble finish := by
  have hmeets : Meets (Publishers.step plainLibraries .pebble) (InOrder .pebble)
      emptyBroker inTurn := by decide +kernel
  have hruns : ∃ finish, run (Publishers.step plainLibraries .pebble) emptyBroker
      inTurn = some finish ∧
        finish.committed.map StoredEvent.eventID = [1, 2, 3] := by
    apply exists_finish_of_any
    decide +kernel
  have hopen : newEventRepository .pebble ∅ ⟨0, .inl rfl⟩ = .ok emptyBroker.repo :=
    rfl
  obtain ⟨finish, hrun, hids⟩ := hruns
  exact ⟨hmeets, finish, hrun, hids, committed_ids_never_reused hopen hmeets hrun⟩

end FutureQ.CommitOrder
