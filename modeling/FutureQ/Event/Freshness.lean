import FutureQ.Event.Replica

/-!
# Event keys are never reused

The event IDs that a replica issues are 1, 2, 3, … in log order, whatever the
calls and restarts.  Every event key in the database is one of the issued keys,
so as long as the counter has not come round, the next key is new: it is not in
the database, counting the writes of the batch in progress, and it was never
issued before.  A call issues one key for every item, and the item's message lies
under it when the call returns, unless a later command of the call deletes it.
-/

namespace FutureQ.Freshness

open FutureQ.ByteOrder
open FutureQ.OrderedStore
open FutureQ.Transition
open FutureQ.Storage
open FutureQ.Keys
open FutureQ.Repository
open FutureQ.Commands
open FutureQ.CommandCodec
open FutureQ.StateMachine
open FutureQ.Journal
open FutureQ.Replica

/-! ## Numbering -/

/-- The IDs of the keys are the first ones after `lastID`. -/
def NumberedFrom (lastID : UInt64) (keys : List Bytes) : Prop :=
  keys.map eventIDOf =
    (List.range keys.length).map fun index => advance lastID (index + 1)

theorem numberedFrom_storeKeys (lastID : UInt64) (items : List StoreBatchItem) :
    NumberedFrom lastID (storeKeys lastID items) := by
  induction items generalizing lastID with
  | nil => rfl
  | cons item items ih =>
      have htail := ih (lastID + 1)
      rw [NumberedFrom, length_storeKeys] at htail ⊢
      rw [storeKeys, List.map_cons, htail, eventIDOf_eventKey, List.length_cons,
        List.range_succ_eq_map, List.map_cons, List.map_map]
      congr 1
      apply List.map_congr_left
      intro index _
      exact (advance_succ lastID (index + 1)).symm

theorem NumberedFrom.append {lastID : UInt64} {first second : List Bytes}
    (hfirst : NumberedFrom lastID first)
    (hsecond : NumberedFrom (advance lastID first.length) second) :
    NumberedFrom lastID (first ++ second) := by
  rw [NumberedFrom] at hfirst hsecond ⊢
  rw [List.map_append, hfirst, hsecond, List.length_append, List.range_add,
    List.map_append, List.map_map]
  congr 1
  apply List.map_congr_left
  intro index _
  rw [Function.comp_apply, ← advance_add, Nat.add_assoc]

theorem NumberedFrom.exists_index {lastID : UInt64} {keys : List Bytes}
    (hnumbered : NumberedFrom lastID keys) {key : Bytes} (hkey : key ∈ keys) :
    ∃ index < keys.length, eventIDOf key = advance lastID (index + 1) := by
  have hid : eventIDOf key ∈ keys.map eventIDOf := List.mem_map_of_mem hkey
  rw [hnumbered] at hid
  obtain ⟨index, hindex, heq⟩ := List.mem_map.mp hid
  exact ⟨index, List.mem_range.mp hindex, heq.symm⟩

/-- The counter comes back to a value only after `2 ^ 64` steps. -/
theorem advance_ne {lastID : UInt64} {first second : ℕ} (hlt : first < second)
    (hbound : second < first + 2 ^ 64) :
    advance lastID first ≠ advance lastID second := by
  intro heq
  have hstep : advance lastID first =
      advance (advance lastID first) (second - first) := by
    rw [← advance_add, Nat.add_sub_cancel' hlt.le]
    exact heq
  have hzero := (advance_eq_self_iff _ (by omega)).mp hstep.symm
  omega

theorem toNat_advance {lastID : UInt64} {count : ℕ}
    (hbound : lastID.toNat + count < 2 ^ 64) :
    (advance lastID count).toNat = lastID.toNat + count := by
  rw [advance, UInt64.toNat_add, UInt64.toNat_ofNat', Nat.add_mod_mod]
  exact Nat.mod_eq_of_lt hbound

/-- IDs increase strictly until the counter comes round. -/
theorem NumberedFrom.pairwise_lt {lastID : UInt64} {keys : List Bytes}
    (hnumbered : NumberedFrom lastID keys)
    (hbound : lastID.toNat + keys.length < 2 ^ 64) :
    (keys.map eventIDOf).Pairwise (· < ·) := by
  rw [hnumbered, List.pairwise_map]
  refine List.Pairwise.imp_of_mem ?_ List.pairwise_lt_range
  intro first second _ hsecond hlt
  have hlength := List.mem_range.mp hsecond
  rw [UInt64.lt_iff_toNat_lt, toNat_advance (by omega), toNat_advance (by omega)]
  omega

/-! ## Where the store loop leaves a message -/

theorem key_of_mem_storeOps {lastID : UInt64} {items : List StoreBatchItem}
    {op : Op} (hop : op ∈ storeOps lastID items) :
    op.key = eventsLastIDKey ∨ op.key ∈ storeKeys lastID items ∨
      ∃ item ∈ items, op.key ∈ item.indexes := by
  cases op with
  | set key value =>
      rcases mem_storeOps hop with ⟨id, hkey, -⟩ | ⟨hkey, -⟩ | ⟨-, hitem⟩
      · exact Or.inl hkey
      · exact Or.inr (Or.inl hkey)
      · exact Or.inr (Or.inr hitem)
  | delete key =>
      induction items generalizing lastID with
      | nil => simp [storeOps] at hop
      | cons item items ih =>
          simp only [storeOps, eventOps, List.mem_append, List.mem_cons,
            List.mem_map, reduceCtorEq, and_false, exists_false, false_or] at hop
          rcases ih hop with hkey | hkey | ⟨other, hother, hidx⟩
          · exact Or.inl hkey
          · exact Or.inr (Or.inl (List.mem_cons_of_mem _ hkey))
          · exact Or.inr (Or.inr ⟨other, List.mem_cons_of_mem _ hother, hidx⟩)

/-- A store leaves the bytes of an item under its key when no index of it or of
a later item names that key. -/
theorem getElem?_commit_storeOps {before after : List StoreBatchItem}
    {item : StoreBatchItem} {lastID : UInt64}
    (hclear : ∀ other ∈ item :: after, ∀ idx ∈ other.indexes,
      idx ≠ eventKey item.bucket item.topicHash (advance lastID (before.length + 1)))
    (hshort : after.length < 2 ^ 64) (db : DB) :
    (commit db (storeOps lastID (before ++ item :: after)))[
      eventKey item.bucket item.topicHash
        (advance lastID (before.length + 1))]? = some item.msg := by
  have hnext : advance lastID before.length + 1 =
      advance lastID (before.length + 1) := by
    rw [advance_add, advance_one]
  rw [storeOps_append, commit_append, storeOps, commit_append, hnext,
    getElem?_commit_of_untouched]
  · rw [eventOps, commit_cons, commit_cons, getElem?_commit_of_untouched]
    · simp [BatchOp.apply]
    · intro op hop
      obtain ⟨idx, hidx, rfl⟩ := List.mem_map.mp hop
      exact hclear item List.mem_cons_self idx hidx
  · intro op hop heq
    rcases key_of_mem_storeOps hop with hkey | hkey | ⟨other, hother, hidx⟩
    · exact eventsLastIDKey_ne_eventKey _ _ _ (hkey.symm.trans heq)
    · rw [heq] at hkey
      obtain ⟨index, hindex, hid⟩ := (numberedFrom_storeKeys _ _).exists_index hkey
      rw [eventIDOf_eventKey, ← advance_add] at hid
      rw [length_storeKeys] at hindex
      exact advance_ne (by omega) (by omega) hid
    · exact hclear other (List.mem_cons_of_mem _ hother) op.key hidx heq

/-! ## The database holds issued keys only -/

/-- Every event key of the database is among the issued ones. -/
def EventKeysIn (db : DB) (issued : List Bytes) : Prop :=
  ∀ key value, db[key]? = some value → key.length = 24 → key ∈ issued

theorem EventKeysIn.commit {db : DB} {issued more : List Bytes} {ops : List Op}
    (hkeys : EventKeysIn db issued)
    (hops : ∀ key value, BatchOp.set key value ∈ ops → key.length = 24 →
      key ∈ more) :
    EventKeysIn (commit db ops) (issued ++ more) := by
  intro key value hvalue hlength
  rcases getElem?_commit_eq_some hvalue with hbefore | hset
  · exact List.mem_append_left _ (hkeys key value hbefore hlength)
  · exact List.mem_append_right _ (hops key value hset hlength)

theorem mem_logKeys_of_set {lastID : UInt64} {commands : List Command}
    (hindexes : ∀ item ∈ logItems commands, ∀ idx ∈ item.indexes, Foreign idx)
    {key value : Bytes} (hset : BatchOp.set key value ∈ logOps lastID commands)
    (hlength : key.length = 24) : key ∈ logKeys lastID commands := by
  rcases mem_logOps hset with ⟨id, hkey, -⟩ | ⟨hkey, -⟩ | ⟨-, item, hitem, hidx⟩
  · exact absurd hkey.symm (eventsLastIDKey_ne_of_length hlength)
  · exact hkey
  · exact absurd hlength (hindexes item hitem key hidx).1

/-- Commands leave an event key alone that they neither issue nor delete. -/
theorem getElem?_commit_logOps {lastID : UInt64} {commands : List Command} {key : Bytes}
    (hlength : key.length = 24)
    (hindexes : ∀ item ∈ logItems commands, ∀ idx ∈ item.indexes, Foreign idx)
    (hissued : key ∉ logKeys lastID commands)
    (hdeleted : ∀ keys, Command.delete keys ∈ commands → key ∉ keys) (db : DB) :
    (commit db (logOps lastID commands))[key]? = db[key]? := by
  apply getElem?_commit_of_untouched
  intro op hop heq
  cases op with
  | set other value =>
      have hsame : other = key := heq
      subst hsame
      exact hissued (mem_logKeys_of_set hindexes hop hlength)
  | delete other =>
      have hsame : other = key := heq
      subst hsame
      obtain ⟨keys, hcommand, hkey⟩ := exists_delete_of_mem_logOps hop
      exact hdeleted keys hcommand hkey

section Log

variable {before later : List Command} {first rest : List StoreBatchItem}
  {item : StoreBatchItem} {lastID : UInt64}

/-- The key of an item stands behind those of the items before it. -/
theorem logKeys_split (before later : List Command) (first rest : List StoreBatchItem)
    (item : StoreBatchItem) (lastID : UInt64) :
    logKeys lastID (before ++ .store (first ++ item :: rest) :: later) =
      logKeys lastID (before ++ [.store first]) ++
        eventKey item.bucket item.topicHash
            (advance lastID ((logItems before).length + first.length + 1)) ::
          logKeys (advance lastID ((logItems before).length + first.length + 1))
            (.store rest :: later) := by
  have hnext : ∀ count, advance lastID count + 1 = advance lastID (count + 1) :=
    fun count => by rw [advance_add, advance_one]
  simp only [logKeys, logItems, List.flatMap_append, List.flatMap_cons, Command.items,
    List.flatMap_nil, List.append_nil, List.append_assoc, List.cons_append,
    storeKeys_append, storeKeys, ← advance_add, hnext]

/-- The message of an item lies under its key when the log is written, unless a later
command deletes it. -/
theorem getElem?_commit_log
    (hindexes : ∀ other ∈ logItems (before ++ .store (first ++ item :: rest) :: later),
      ∀ idx ∈ other.indexes, Foreign idx)
    (hbound : (logItems (.store rest :: later)).length < 2 ^ 64)
    (hdeleted : ∀ keys, Command.delete keys ∈ later →
      eventKey item.bucket item.topicHash
        (advance lastID ((logItems before).length + first.length + 1)) ∉ keys) (db : DB) :
    (commit db (logOps lastID (before ++ .store (first ++ item :: rest) :: later)))[
      eventKey item.bucket item.topicHash
        (advance lastID ((logItems before).length + first.length + 1))]? =
      some item.msg := by
  simp only [logItems, List.flatMap_append, List.flatMap_cons, Command.items,
    List.mem_append] at hindexes
  simp only [logItems, List.flatMap_cons, Command.items, List.length_append] at hbound
  have hlater : ∀ other ∈ logItems later, ∀ idx ∈ other.indexes, Foreign idx :=
    fun other hother => hindexes other (.inr (.inr hother))
  rw [logOps_append, commit_append, logOps, commit_append,
    getElem?_commit_logOps (length_eventKey _ _ _) hlater _ hdeleted]
  · rw [Nat.add_assoc, advance_add]
    apply getElem?_commit_storeOps
    · intro other hother idx hidx heq
      have hitem := hindexes other (.inr (.inl (.inr hother)))
      exact (hitem idx hidx).1 (by rw [heq, length_eventKey])
    · omega
  · intro hissued
    obtain ⟨index, hindex, hid⟩ := (numberedFrom_storeKeys _ _).exists_index hissued
    rw [length_storeKeys] at hindex
    simp only [eventIDOf_eventKey, ← advance_add, Command.items, List.length_append,
      List.length_cons] at hid
    have hlength : (logItems later).length = (later.flatMap Command.items).length := rfl
    exact advance_ne (by omega) (by omega) hid

end Log

/-- What holds of a node after every call and restart. -/
structure Consistent (node : Node) : Prop where
  settled : Settled node.sm
  numbered : NumberedFrom 0 node.issued
  lastID : node.sm.repo.lastID = advance 0 node.issued.length
  eventKeys : EventKeysIn node.sm.db node.issued

theorem consistent_fresh (bucketSize : TimeBucketSize) :
    Consistent (Node.fresh bucketSize) where
  settled := start_empty bucketSize
  numbered := rfl
  lastID := rfl
  eventKeys key value hvalue := by simp [Node.fresh] at hvalue

theorem Consistent.numbered_logKeys {node : Node} (hnode : Consistent node)
    (commands : List Command) :
    NumberedFrom 0 (node.issued ++ logKeys node.sm.repo.lastID commands) := by
  apply hnode.numbered.append
  rw [← hnode.lastID]
  exact numberedFrom_storeKeys _ _

theorem consistent_play {node : Node} (hnode : Consistent node)
    {entries : List Entry} {commands : List Command}
    (hcarries : Carries entries commands)
    (hindexes : IndexesMeet Foreign entries) :
    Consistent ⟨play node.sm entries commands,
      node.issued ++ logKeys node.sm.repo.lastID commands⟩ where
  settled := settled_play hnode.settled hcarries
    fun entry hentry items hitems item hitem idx hidx =>
      (hindexes entry hentry items hitems item hitem idx hidx).2
  numbered := hnode.numbered_logKeys commands
  lastID := by
    simp only [play, hnode.lastID, ← advance_add, List.length_append, logKeys,
      length_storeKeys]
  eventKeys := by
    have hforeign := hcarries.indexesMeet_iff.mp hindexes
    refine hnode.eventKeys.commit ?_
    intro key value hset hlength
    rcases List.mem_append.mp hset with hset | hset
    · exact mem_logKeys_of_set hforeign hset hlength
    · rw [List.mem_singleton, BatchOp.set.injEq] at hset
      exact absurd hset.1.symm (appliedIndexKey_ne_of_length hlength)

theorem consistent_step {node : Node} (hnode : Consistent node) {action : Action}
    (hindexes : ∀ call, action = .update call → IndexesMeet Foreign call.entries) :
    ∃ next, step node action = some next ∧ Consistent next := by
  cases action with
  | restart => exact ⟨node, reboot_of_settled hnode.settled, hnode⟩
  | update call =>
      cases hupdate : update .pebble .none node.sm call.entries with
      | error reason =>
          refine ⟨node, ?_, hnode⟩
          rw [step, hupdate]
          exact reboot_of_settled hnode.settled
      | ok updated =>
          obtain ⟨commands, hcarries, rfl⟩ := update_eq_ok_iff.mp hupdate
          refine ⟨_, by rw [step, hupdate], ?_⟩
          exact consistent_play hnode hcarries (hindexes call rfl)

theorem consistent_run (bucketSize : TimeBucketSize) {actions : List Action}
    (hindexes : ∀ call, Action.update call ∈ actions →
      IndexesMeet Foreign call.entries) :
    ∃ node, run step (Node.fresh bucketSize) actions = some node ∧
      Consistent node := by
  apply run_total _ (consistent_fresh bucketSize)
  intro node action haction hnode
  apply consistent_step hnode
  intro call hcall
  exact hindexes call (hcall ▸ haction)

/-! ## Inside a call -/

/-- The place of an item in the entries of a call. -/
structure Place (call : Call) where
  earlier : List Entry
  entry : Entry
  later : List Entry
  entries_eq : call.entries = earlier ++ entry :: later
  first : List StoreBatchItem
  item : StoreBatchItem
  rest : List StoreBatchItem
  items_eq : unmarshalStoreBatchCmd entry.cmd = .ok (first ++ item :: rest)

/-- The point inside an `Update` call where an item is about to be stored: the
loop over the entries stands at `entry`, the loop over its items at `item`. -/
structure Moment (sm : EventStateMachine) (call : Call) extends Place call where
  progress : Progress
  progress_eq : earlier.foldlM (applyNext .none)
    ⟨sm.repo, newBatch, sm.lastApplied, [], [], []⟩ = .ok progress

namespace Moment

variable {sm : EventStateMachine} {call : Call} (moment : Moment sm call)

def loop : StoreLoop :=
  storeItems .none moment.first moment.progress.repo moment.progress.batch

/-- The database with the writes that the batch already holds. -/
def visible : DB := commit sm.db moment.loop.batch.ops

/-- The keys that this call already issued. -/
def issued : List Bytes := moment.progress.stored ++ moment.loop.stored

/-- The key that the repository returns for the item. -/
def key : Except StorageError Bytes :=
  (storeRawWithBatch .none moment.loop.repo moment.loop.batch moment.item.bucket
    moment.item.topicHash moment.item.indexes moment.item.msg).1

/-- The writes so far are those of the commands before the entry and of a store
of the items before the item. -/
theorem exists_commands :
    ∃ commands, Carries moment.earlier commands ∧
      (∀ item ∈ logItems (commands ++ [.store moment.first]),
        item ∈ logItems commands ∨ item ∈ moment.first) ∧
      moment.visible = commit sm.db
        (logOps sm.repo.lastID (commands ++ [.store moment.first])) ∧
      moment.issued = logKeys sm.repo.lastID (commands ++ [.store moment.first]) ∧
      moment.key = .ok (eventKey moment.item.bucket moment.item.topicHash
        (advance sm.repo.lastID (moment.issued.length + 1))) := by
  obtain ⟨commands, hcarries⟩ := carries_of_foldlM_eq_ok moment.progress_eq
  have hprogress := moment.progress_eq
  rw [foldlM_applyNext hcarries, Except.ok.injEq] at hprogress
  have hloop : moment.loop =
      ⟨none, storeKeys (advance sm.repo.lastID (logItems commands).length)
          moment.first,
        { sm.repo with
          lastID := advance (advance sm.repo.lastID (logItems commands).length)
            moment.first.length },
        newBatch.push (logOps sm.repo.lastID commands ++
          storeOps (advance sm.repo.lastID (logItems commands).length)
            moment.first)⟩ := by
    rw [loop, storeItems_none, ← hprogress]
    simp only [push_push]
  have hissued : moment.issued =
      logKeys sm.repo.lastID (commands ++ [.store moment.first]) := by
    rw [issued, hloop, ← hprogress, logKeys_append]
    simp [logKeys, logItems, Command.items]
  refine ⟨commands, hcarries, ?_, ?_, hissued, ?_⟩
  · intro item hitem
    simpa [logItems, Command.items] using hitem
  · rw [visible, hloop, logOps_append]
    simp [logOps, Command.ops, newBatch, Batch.push]
  · have hlength : moment.issued.length + 1 =
        (logItems commands).length + moment.first.length + 1 := by
      simp [hissued, logKeys, logItems, Command.items]
    rw [key, storeRawWithBatch_none, hloop, hlength, advance_add, advance_add]
    rfl

/-- The key is issued in its turn, and the message lies under it after the call unless a
later entry deletes it. -/
theorem stored_of_update {updated : Updated} (hindexes : IndexesMeet Foreign call.entries)
    (hupdate : update .pebble .none sm call.entries = .ok updated)
    (hbound : updated.stored.length < 2 ^ 64) :
    ∃ key, moment.key = .ok key ∧ updated.stored[moment.issued.length]? = some key ∧
      ((∀ entry ∈ moment.later, ∀ keys,
          unmarshalDeleteBatchCmd entry.cmd = .ok keys → key ∉ keys) →
        updated.sm.db[key]? = some moment.item.msg) := by
  obtain ⟨earlier, hearlier, -, -, hissued, hkey⟩ := moment.exists_commands
  obtain ⟨commands, hcarries, rfl⟩ := update_eq_ok_iff.mp hupdate
  have hforeign := hcarries.indexesMeet_iff.mp hindexes
  rw [moment.entries_eq] at hcarries
  obtain ⟨before, _, hbefore, hrest, rfl⟩ := carries_append_iff.mp hcarries
  obtain rfl := hbefore.unique hearlier
  cases hrest with
  | @cons _ command _ later hentry hrest =>
      have hlater : Carries moment.later later := hrest
      rw [decodeCommand_eq_store_iff.mpr moment.items_eq, Except.ok.injEq] at hentry
      subst hentry
      have hposition : moment.issued.length + 1 =
          (logItems before).length + moment.first.length + 1 := by
        simp [hissued, logKeys, logItems, Command.items]
      rw [hposition] at hkey
      refine ⟨_, hkey, ?_, fun hkept => ?_⟩
      · simp only [report, logKeys_split, ← hissued]
        rw [List.getElem?_append_right le_rfl, Nat.sub_self]
        rfl
      · simp only [report, play]
        rw [commit_append, getElem?_commit_of_untouched _ (by
          intro op hop
          rw [List.mem_singleton.mp hop]
          exact appliedIndexKey_ne_of_length (length_eventKey _ _ _))]
        apply getElem?_commit_log hforeign
        · rw [report, logKeys_split, List.length_append, List.length_cons, logKeys,
            logKeys, length_storeKeys, length_storeKeys] at hbound
          omega
        · intro keys hcommand
          obtain ⟨entry, hmem, hdecode⟩ := hlater.exists_entry hcommand
          exact hkept entry hmem keys (decodeCommand_eq_delete_iff.mp hdecode)

end Moment

theorem exists_moment {sm : EventStateMachine} {call : Call} {updated : Updated}
    (hupdate : update .pebble .none sm call.entries = .ok updated) (place : Place call) :
    ∃ moment : Moment sm call, moment.toPlace = place := by
  obtain ⟨commands, hcarries, -⟩ := update_eq_ok_iff.mp hupdate
  rw [place.entries_eq] at hcarries
  obtain ⟨before, _, hbefore, -, -⟩ := carries_append_iff.mp hcarries
  exact ⟨⟨place, _, foldlM_applyNext hbefore _⟩, rfl⟩

theorem length_stored {sm : EventStateMachine} {entries : List Entry} {updated : Updated}
    (hupdate : update .pebble .none sm entries = .ok updated) :
    updated.stored.length = (storedItems entries).length := by
  obtain ⟨commands, hcarries, rfl⟩ := update_eq_ok_iff.mp hupdate
  rw [report, logKeys, length_storeKeys, hcarries.logItems_eq]

/-- The key of an item is new, whatever else the call in progress wrote. -/
theorem Consistent.key_fresh {node : Node} (hnode : Consistent node) {call : Call}
    (hindexes : IndexesMeet Foreign call.entries) (moment : Moment node.sm call)
    (hbound : node.issued.length + moment.issued.length + 1 < 2 ^ 64) :
    ∃ key, moment.key = .ok key ∧ moment.visible[key]? = none ∧
      key ∉ node.issued ++ moment.issued := by
  obtain ⟨commands, hcarries, hitems, hvisible, hissued, hkey⟩ :=
    moment.exists_commands
  have hforeign : ∀ item ∈ logItems (commands ++ [.store moment.first]),
      ∀ idx ∈ item.indexes, Foreign idx := by
    intro item hitem
    rcases hitems item hitem with hearlier | hfirst
    · have hsub : IndexesMeet Foreign moment.earlier := fun entry hentry =>
        hindexes entry (by rw [moment.entries_eq]; exact List.mem_append_left _ hentry)
      exact hcarries.indexesMeet_iff.mp hsub item hearlier
    · have hentry : moment.entry ∈ call.entries := by simp [moment.entries_eq]
      exact hindexes moment.entry hentry _ moment.items_eq item
        (List.mem_append_left _ hfirst)
  have hnumbered : NumberedFrom 0 (node.issued ++ moment.issued) := by
    rw [hissued]
    exact hnode.numbered_logKeys _
  have hnew : eventKey moment.item.bucket moment.item.topicHash
      (advance node.sm.repo.lastID (moment.issued.length + 1)) ∉
        node.issued ++ moment.issued := by
    intro hmem
    obtain ⟨index, hindex, hid⟩ := hnumbered.exists_index hmem
    rw [eventIDOf_eventKey, hnode.lastID, ← advance_add] at hid
    rw [List.length_append] at hindex
    exact advance_ne (by omega) (by omega) hid.symm
  refine ⟨_, hkey, ?_, hnew⟩
  cases hvalue : moment.visible[eventKey moment.item.bucket moment.item.topicHash
      (advance node.sm.repo.lastID (moment.issued.length + 1))]? with
  | none => rfl
  | some value =>
      have hkeys : EventKeysIn moment.visible (node.issued ++ moment.issued) := by
        rw [hvisible, hissued]
        exact hnode.eventKeys.commit fun key value hset hlength =>
          mem_logKeys_of_set hforeign hset hlength
      exact absurd (hkeys _ value hvalue (length_eventKey _ _ _)) hnew

/-- Every event key of the database carries an ID up to the counter. -/
theorem Consistent.eventID_le {node : Node} (hnode : Consistent node)
    (hbound : node.issued.length < 2 ^ 64) {key value : Bytes}
    {topicHash bucket eventID : UInt64} (hvalue : node.sm.db[key]? = some value)
    (hparse : parseEventKey key = .ok (topicHash, bucket, eventID)) :
    eventID ≤ node.sm.repo.lastID := by
  unfold parseEventKey at hparse
  split at hparse
  · cases hparse
  · rename_i hlength
    cases hparse
    obtain ⟨index, hindex, hid⟩ := hnode.numbered.exists_index
      (hnode.eventKeys key value hvalue (not_not.mp hlength))
    have hid' : uint64 (key.drop 16) = advance 0 (index + 1) := hid
    have hzero : (0 : UInt64).toNat = 0 := rfl
    rw [hid', hnode.lastID, UInt64.le_iff_toNat_le, toNat_advance (by omega),
      toNat_advance (by omega)]
    omega

/-- Over every run of calls and restarts the counter record is current and
bounds the stored IDs, IDs increase in log order, and every item goes to a key
that is neither in the database nor among the keys issued before.  A call that returns
issues one key for every item of its store commands, and the message of each lies under
its key afterwards, unless a later entry of the call deletes that key. -/
theorem event_keys_never_reused (bucketSize : TimeBucketSize)
    {actions : List Action}
    (hindexes : ∀ call, Action.update call ∈ actions →
      IndexesMeet Foreign call.entries) :
    ∃ node, run step (Node.fresh bucketSize) actions = some node ∧
      readCounter .pebble node.sm.db eventsLastIDKey 0 = .ok node.sm.repo.lastID ∧
      (node.issued.length < 2 ^ 64 →
        (∀ key value topicHash bucket eventID, node.sm.db[key]? = some value →
          parseEventKey key = .ok (topicHash, bucket, eventID) →
            eventID ≤ node.sm.repo.lastID) ∧
        (node.issued.map eventIDOf).Pairwise (· < ·)) ∧
      (∀ (call : Call) (moment : Moment node.sm call),
        IndexesMeet Foreign call.entries →
        node.issued.length + moment.issued.length + 1 < 2 ^ 64 →
        ∃ key, moment.key = .ok key ∧ moment.visible[key]? = none ∧
          key ∉ node.issued ++ moment.issued) ∧
      ∀ (call : Call) (updated : Updated), IndexesMeet Foreign call.entries →
        update .pebble .none node.sm call.entries = .ok updated →
        node.issued.length + updated.stored.length < 2 ^ 64 →
        step node (.update call) = some ⟨updated.sm, node.issued ++ updated.stored⟩ ∧
        updated.stored.length = (storedItems call.entries).length ∧
        ∀ place : Place call, ∃ moment : Moment node.sm call, moment.toPlace = place ∧
          ∃ key, moment.key = .ok key ∧
            updated.stored[moment.issued.length]? = some key ∧
            ((∀ entry ∈ place.later, ∀ keys,
                unmarshalDeleteBatchCmd entry.cmd = .ok keys → key ∉ keys) →
              updated.sm.db[key]? = some place.item.msg) := by
  obtain ⟨node, hrun, hnode⟩ := consistent_run bucketSize hindexes
  refine ⟨node, hrun, (settled_iff.mp hnode.settled).1, ?_, ?_, ?_⟩
  · intro hbound
    exact ⟨fun key value topicHash bucket eventID hvalue hparse =>
      hnode.eventID_le hbound hvalue hparse, hnode.numbered.pairwise_lt (by simpa using hbound)⟩
  · intro call moment hcall hbound
    exact hnode.key_fresh hcall moment hbound
  · intro call updated hcall hupdate hbound
    refine ⟨by rw [step, hupdate], length_stored hupdate, fun place => ?_⟩
    obtain ⟨moment, rfl⟩ := exists_moment hupdate place
    exact ⟨moment, rfl, moment.stored_of_update hcall hupdate (by omega)⟩

/-- Two messages in one call. -/
def storeTwo : Call where
  entries := [⟨1, encodeStoreBatch [⟨5, 7, [[9]], [1, 2]⟩, ⟨5, 7, [], [3]⟩]⟩]
  nonempty := List.cons_ne_nil _ _

/-- The second message of `storeTwo`. -/
def storeTwo.second : Place storeTwo where
  earlier := []
  entry := ⟨1, encodeStoreBatch [⟨5, 7, [[9]], [1, 2]⟩, ⟨5, 7, [], [3]⟩]⟩
  later := []
  entries_eq := rfl
  first := [⟨5, 7, [[9]], [1, 2]⟩]
  item := ⟨5, 7, [], [3]⟩
  rest := []
  items_eq := by decide +kernel

/-- After a call and a restart the same call comes again: it issues two keys, and the second
message lies under a new one. -/
theorem event_keys_never_reused_storeTwo :
    ∃ node updated, run step (Node.fresh ⟨0, Or.inl rfl⟩)
        [.update storeTwo, .restart] = some node ∧
      update .pebble .none node.sm storeTwo.entries = .ok updated ∧
      readCounter .pebble node.sm.db eventsLastIDKey 0 = .ok node.sm.repo.lastID ∧
      node.issued.length = 2 ∧ updated.stored.length = 2 ∧
      ∃ (moment : Moment node.sm storeTwo) (key : Bytes), moment.key = .ok key ∧
        moment.visible[key]? = none ∧ key ∉ node.issued ++ moment.issued ∧
        updated.sm.db[key]? = some [3] := by
  have hmeets : IndexesMeet Foreign storeTwo.entries := by decide +kernel
  have hindexes : ∀ call, Action.update call ∈ [.update storeTwo, .restart] →
      IndexesMeet Foreign call.entries := by
    intro call hcall
    have heq : call = storeTwo := by simpa using hcall
    rw [heq]
    exact hmeets
  obtain ⟨node, hrun, hcounter, -, hfresh, hwrites⟩ :=
    event_keys_never_reused ⟨0, Or.inl rfl⟩ hindexes
  have hissued : node.issued.length = 2 := by
    obtain ⟨finish, hfinish, hlength⟩ : ∃ finish, run step (Node.fresh ⟨0, Or.inl rfl⟩)
        [.update storeTwo, .restart] = some finish ∧ finish.issued.length = 2 :=
      exists_finish_of_any (by decide +kernel)
    rw [hrun, Option.some.injEq] at hfinish
    rwa [hfinish]
  have hcarries : Carries storeTwo.entries [.store _] :=
    .cons (decodeCommand_eq_store_iff.mpr storeTwo.second.items_eq) .nil
  have hupdate := update_eq hcarries node.sm
  have hstored := length_stored hupdate
  have htwo : (storedItems storeTwo.entries).length = 2 := by decide +kernel
  obtain ⟨-, -, hplaces⟩ := hwrites storeTwo _ hmeets hupdate (by omega)
  obtain ⟨moment, hplace, key, hkey, hposition, hmessage⟩ := hplaces storeTwo.second
  have hshort := (List.getElem?_eq_some_iff.mp hposition).1
  obtain ⟨other, hother, hunused, hnew⟩ := hfresh storeTwo moment hmeets (by omega)
  obtain rfl : key = other := by
    rw [hkey] at hother
    exact Except.ok.inj hother
  refine ⟨node, _, hrun, hupdate, hcounter, hissued, hstored.trans htwo, moment, key, hkey,
    hunused, hnew, hmessage ?_⟩
  intro entry hentry
  cases hentry

end FutureQ.Freshness
