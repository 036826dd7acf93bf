import FutureQ.Event.Freshness

/-!
# Repeated and delayed deletes

A delete command whose proposal timed out is proposed again, and several nodes
propose the deletion of the same expired keys.  Because event keys are not
issued twice, a delete of issued keys may be repeated, or moved to any later
position of the log, without changing what the log leaves in the database.
-/

namespace FutureQ.DeleteRetry

open FutureQ.ByteOrder
open FutureQ.GoRuntime
open FutureQ.OrderedStore
open FutureQ.Storage
open FutureQ.Keys
open FutureQ.Repository
open FutureQ.Commands
open FutureQ.CommandCodec
open FutureQ.StateMachine
open FutureQ.Journal
open FutureQ.Replica
open FutureQ.Freshness

/-- The second list is the first one with copies of `extra` inserted. -/
inductive Inserted {α : Type} (extra : α) : List α → List α → Prop where
  | nil : Inserted extra [] []
  | keep {value values more} :
      Inserted extra values more → Inserted extra (value :: values) (value :: more)
  | insert {values more} :
      Inserted extra values more → Inserted extra values (extra :: more)

/-- If the list got longer, there is a copy in it. -/
theorem Inserted.mem_of_length_lt {α : Type} {extra : α} {values more : List α}
    (hinserted : Inserted extra values more)
    (hlonger : values.length < more.length) : extra ∈ more := by
  induction hinserted with
  | nil => simp at hlonger
  | keep _ ih => exact List.mem_cons_of_mem _ (ih (by simpa using hlonger))
  | insert _ _ => exact List.mem_cons_self

/-- The commands of a list of encoded commands. -/
def Decodes (cmds : List Bytes) (commands : List Command) : Prop :=
  List.Forall₂ (fun cmd command => decodeCommand cmd = .ok command) cmds commands

theorem carries_iff_decodes {entries : List Entry} {commands : List Command} :
    Carries entries commands ↔ Decodes (entries.map Entry.cmd) commands := by
  rw [Carries, Decodes, List.forall₂_map_left_iff]

theorem Inserted.decodes {cmd : Bytes} {command : Command}
    (hcmd : decodeCommand cmd = .ok command) {cmds more : List Bytes}
    (hinserted : Inserted cmd cmds more) {commands : List Command}
    (hdecodes : Decodes cmds commands) :
    ∃ moreCommands, Decodes more moreCommands ∧
      Inserted command commands moreCommands := by
  induction hinserted generalizing commands with
  | nil =>
      cases hdecodes
      exact ⟨[], .nil, .nil⟩
  | keep _ ih =>
      cases hdecodes with
      | cons hhead htail =>
          obtain ⟨moreCommands, hmore, hkeep⟩ := ih htail
          exact ⟨_ :: moreCommands, .cons hhead hmore, .keep hkeep⟩
  | insert _ ih =>
      obtain ⟨moreCommands, hmore, hinsert⟩ := ih hdecodes
      exact ⟨command :: moreCommands, .cons hcmd hmore, .insert hinsert⟩

/-! ## Journals with repeated deletes -/

section Journal

variable {keys : List Bytes} {commands more : List Command}

theorem logItems_inserted (hinserted : Inserted (.delete keys) commands more) :
    logItems more = logItems commands := by
  induction hinserted with
  | nil => rfl
  | keep _ ih => simpa [logItems] using ih
  | insert _ ih => simpa [logItems, Command.items] using ih

theorem logOps_delete_cons (lastID : UInt64) :
    logOps lastID (.delete keys :: commands) =
      keys.map BatchOp.delete ++ logOps lastID commands := by
  simp [logOps, Command.ops, Command.items]

theorem agreeOff_commit_delete (db : DB) (keys : List Bytes) :
    AgreeOff {key | key ∈ keys} (commit db (keys.map BatchOp.delete)) db := by
  apply agreeOff_commit_hidden
  intro op hop
  obtain ⟨key, hkey, rfl⟩ := List.mem_map.mp hop
  exact hkey

/-- Away from the deleted keys the extra deletes cannot be observed. -/
theorem agreeOff_inserted (hinserted : Inserted (.delete keys) commands more)
    {left right : DB} (hagree : AgreeOff {key | key ∈ keys} left right)
    (lastID : UInt64) :
    AgreeOff {key | key ∈ keys} (commit left (logOps lastID commands))
      (commit right (logOps lastID more)) := by
  induction hinserted generalizing left right lastID with
  | nil => exact hagree
  | @keep command commands more _ ih =>
      rw [logOps, logOps, commit_append, commit_append]
      exact ih (hagree.commit _) _
  | @insert commands more _ ih =>
      rw [logOps_delete_cons, commit_append]
      exact ih (hagree.trans (agreeOff_commit_delete _ _).symm) _

/-- After a delete the key stays absent while nothing writes it. -/
theorem absent_of_delete_mem {key : Bytes} (hkey : key ∈ keys)
    (hdelete : Command.delete keys ∈ commands) {lastID : UInt64}
    (hnever : ∀ value, BatchOp.set key value ∉ logOps lastID commands) (db : DB) :
    (commit db (logOps lastID commands))[key]? = none := by
  induction commands generalizing lastID db with
  | nil => exact absurd hdelete List.not_mem_nil
  | cons command commands ih =>
      have htail : ∀ value, BatchOp.set key value ∉
          logOps (advance lastID command.items.length) commands :=
        fun value hset => hnever value (List.mem_append_right _ hset)
      rw [logOps, commit_append]
      rcases List.mem_cons.mp hdelete with rfl | hlater
      · exact getElem?_commit_eq_none (getElem?_commit_delete_mem _ hkey) htail
      · exact ih hlater htail _

/-- A key of an earlier store is not written by the next `2 ^ 64` ones. -/
theorem issued_key_not_written {before : List Command}
    (hindexes : ∀ item ∈ logItems commands, ∀ idx ∈ item.indexes, Foreign idx)
    (hbound : (logItems before).length + (logItems commands).length ≤ 2 ^ 64)
    {key : Bytes} (hkey : key ∈ logKeys 0 before) (value : Bytes) :
    BatchOp.set key value ∉
      logOps (advance 0 (logItems before).length) commands := by
  intro hset
  have hlater := mem_logKeys_of_set hindexes hset (length_of_mem_logKeys hkey)
  obtain ⟨first, hfirst, hfirstID⟩ :=
    (numberedFrom_storeKeys 0 (logItems before)).exists_index hkey
  obtain ⟨second, hsecond, hsecondID⟩ :=
    (numberedFrom_storeKeys _ (logItems commands)).exists_index hlater
  rw [length_storeKeys] at hfirst hsecond
  rw [hfirstID, ← advance_add] at hsecondID
  exact advance_ne (by omega) (by omega) hsecondID

end Journal

/-- Both journals end in the same database. -/
theorem commit_retry_eq {before after more : List Command} {keys : List Bytes}
    (hinserted : Inserted (.delete keys) after more)
    (hdelete : Command.delete keys ∈ more)
    (hissued : ∀ key ∈ keys, key ∈ logKeys 0 before)
    (hindexes : ∀ item ∈ logItems after, ∀ idx ∈ item.indexes, Foreign idx)
    (hbound : (logItems before).length + (logItems after).length ≤ 2 ^ 64) :
    commit (∅ : DB) (logOps 0 (before ++ .delete keys :: after)) =
      commit (∅ : DB) (logOps 0 (before ++ more)) := by
  have hmore := logItems_inserted hinserted
  have hfirst : logItems (.delete keys :: after) = logItems after := by
    simp [logItems, Command.items]
  rw [logOps_append, logOps_append, commit_append, commit_append]
  apply Std.ExtTreeMap.ext_getElem?
  intro key
  by_cases hkey : key ∈ keys
  · rw [absent_of_delete_mem hkey List.mem_cons_self
        (issued_key_not_written (hfirst ▸ hindexes) (hfirst ▸ hbound)
          (hissued key hkey)),
      absent_of_delete_mem hkey hdelete
        (issued_key_not_written (hmore ▸ hindexes) (hmore ▸ hbound)
          (hissued key hkey))]
  · rw [logOps_delete_cons, commit_append]
    exact agreeOff_inserted hinserted (agreeOff_commit_delete _ _) _ key hkey

theorem agreeOff_report {sm : EventStateMachine} {left right : List Entry}
    {leftCommands rightCommands : List Command}
    (heq : commit sm.db (logOps sm.repo.lastID leftCommands) =
      commit sm.db (logOps sm.repo.lastID rightCommands)) :
    AgreeOff {appliedIndexKey} (report sm left leftCommands).sm.db
      (report sm right rightCommands).sm.db := by
  simp only [report_sm, play, commit_append, heq]
  apply AgreeOff.trans
  · apply agreeOff_commit_hidden
    simp [BatchOp.key]
  · apply AgreeOff.symm
    apply agreeOff_commit_hidden
    simp [BatchOp.key]

/-- A delete of issued keys may be repeated at later positions of the log, or
moved to a later one, as long as the log stores at most `2 ^ 64` messages. -/
theorem retried_delete_agrees {bucketSize : TimeBucketSize}
    {calls retried : List Call} {earlier later : List Entry} {entry : Entry}
    {more : List Bytes} {keys : List Bytes} {prior updated : Updated}
    (hlog : calls.flatMap Call.entries = earlier ++ entry :: later)
    (hretried : (retried.flatMap Call.entries).map Entry.cmd =
      earlier.map Entry.cmd ++ more)
    (hinserted : Inserted entry.cmd (later.map Entry.cmd) more)
    (hlonger : later.length < more.length)
    (hdelete : unmarshalDeleteBatchCmd entry.cmd = .ok keys)
    (hprior : update .pebble .none (Node.fresh bucketSize).sm earlier = .ok prior)
    (hissued : ∀ key ∈ keys, key ∈ prior.stored)
    (hindexes : IndexesMeet Foreign (calls.flatMap Call.entries))
    (hupdated : applyCalls (Node.fresh bucketSize).sm calls = .ok updated)
    (hbound : updated.stored.length ≤ 2 ^ 64) :
    ∃ final, applyCalls (Node.fresh bucketSize).sm retried = .ok final ∧
      AgreeOff {appliedIndexKey} updated.sm.db final.sm.db := by
  have hcalls : calls ≠ [] := by
    intro hnil
    simp [hnil] at hlog
  have hretriedCalls : retried ≠ [] := by
    intro hnil
    have hmore : earlier = [] ∧ more = [] := by simpa [hnil] using hretried
    simp [hmore.2] at hlonger
  obtain ⟨commands, hcarries, rfl⟩ := (applyCalls_eq_ok_iff hcalls).mp hupdated
  have hforeign := hcarries.indexesMeet_iff.mp hindexes
  rw [hlog] at hcarries
  obtain ⟨before, tail, hbefore, htail, rfl⟩ := carries_append_iff.mp hcarries
  obtain ⟨command, after, hentry, hafter, rfl⟩ := List.forall₂_cons_left_iff.mp htail
  have hcommand : Command.delete keys = command := by
    rw [decodeCommand_eq_delete_iff.mpr hdelete] at hentry
    exact Except.ok.inj hentry
  subst hcommand
  obtain ⟨others, hothers, rfl⟩ := update_eq_ok_iff.mp hprior
  rw [hothers.unique hbefore] at hissued
  obtain ⟨moreCommands, hmoreDecodes, hmoreInserted⟩ :=
    hinserted.decodes hentry (carries_iff_decodes.mp hafter)
  have hretriedCarries : Carries (retried.flatMap Call.entries)
      (before ++ moreCommands) := by
    rw [carries_iff_decodes, hretried]
    exact List.rel_append (carries_iff_decodes.mp hbefore) hmoreDecodes
  have hmem : Command.delete keys ∈ moreCommands := by
    apply hmoreInserted.mem_of_length_lt
    rw [← hafter.length_eq, ← hmoreDecodes.length_eq]
    exact hlonger
  refine ⟨_, (applyCalls_eq_ok_iff hretriedCalls).mpr ⟨_, hretriedCarries, rfl⟩, ?_⟩
  apply agreeOff_report
  refine commit_retry_eq hmoreInserted hmem hissued ?_ ?_
  · intro item hitem
    apply hforeign item
    simpa [logItems, Command.items] using Or.inr hitem
  · simpa [report, logKeys, logItems, Command.items] using hbound

/-! ## Examples -/

/-- Commands as consecutive log entries. -/
def numbered (cmds : List Bytes) : List Entry :=
  cmds.mapIdx fun index cmd => ⟨UInt64.ofNat (index + 1), cmd⟩

theorem carries_numbered {cmds : List Bytes} {commands : List Command}
    (hdecodes : Decodes cmds commands) : Carries (numbered cmds) commands := by
  have hcmds : (numbered cmds).map Entry.cmd = cmds := by
    apply List.ext_getElem?
    intro index
    simp [numbered, Function.comp_def]
  rw [carries_iff_decodes, hcmds]
  exact hdecodes

/-- A message without indexes. -/
def plainItem : StoreBatchItem := ⟨0, 0, [], []⟩

/-- The key of the first message that a node stores, when that is
`plainItem`. -/
def firstKey : Bytes := eventKey 0 0 1

/-- A message is stored and deleted, then `blocks` commands store `size`
messages each, and then one more message is stored. -/
def lapCommands (blocks size : ℕ) : List Command :=
  (.store [plainItem] :: .delete [firstKey] ::
    List.replicate blocks (.store (List.replicate size plainItem))) ++
    [.store [plainItem]]

def lapLog (blocks size : ℕ) : List Bytes :=
  (encodeStoreBatch [plainItem] :: encodeDeleteBatch [firstKey] ::
    List.replicate blocks (encodeStoreBatch (List.replicate size plainItem))) ++
    [encodeStoreBatch [plainItem]]

theorem decodeCommand_plainItems (size : ℕ)
    (hsize : storeBatchItemSize * size ≤ maxAlloc) :
    decodeCommand (encodeStoreBatch (List.replicate size plainItem)) =
      .ok (.store (List.replicate size plainItem)) := by
  rw [decodeCommand_eq_store_iff]
  apply unmarshalStoreBatchCmd_encode
  · rwa [List.length_replicate]
  · intro item hitem
    rw [List.eq_of_mem_replicate hitem]
    decide

theorem decodeCommand_firstKey :
    decodeCommand (encodeDeleteBatch [firstKey]) = .ok (.delete [firstKey]) := by
  rw [decodeCommand_eq_delete_iff]
  exact unmarshalDeleteBatchCmd_encode (by decide) (by decide)

theorem decodes_lapLog (blocks : ℕ) {size : ℕ}
    (hsize : storeBatchItemSize * size ≤ maxAlloc) :
    Decodes (lapLog blocks size) (lapCommands blocks size) := by
  have hblocks : Decodes
      (List.replicate blocks (encodeStoreBatch (List.replicate size plainItem)))
      (List.replicate blocks (.store (List.replicate size plainItem))) := by
    induction blocks with
    | zero => exact .nil
    | succ blocks ih => exact .cons (decodeCommand_plainItems size hsize) ih
  have hone : decodeCommand (encodeStoreBatch [plainItem]) =
      .ok (.store [plainItem]) := by
    simpa only [List.replicate_one] using decodeCommand_plainItems 1 (by decide)
  have hfront : Decodes (encodeStoreBatch [plainItem] ::
      encodeDeleteBatch [firstKey] ::
        List.replicate blocks (encodeStoreBatch (List.replicate size plainItem)))
      (.store [plainItem] :: .delete [firstKey] ::
        List.replicate blocks (.store (List.replicate size plainItem))) :=
    .cons hone (.cons decodeCommand_firstKey hblocks)
  have hlast : Decodes [encodeStoreBatch [plainItem]] [.store [plainItem]] :=
    .cons hone .nil
  exact List.rel_append hfront hlast

/-- Once `2 ^ 64` messages were stored, the next one takes the first key. -/
theorem lapCommands_firstKey {blocks size : ℕ}
    (hlap : 1 + blocks * size = 2 ^ 64) :
    (commit (∅ : DB) (logOps 0 (lapCommands blocks size)))[firstKey]? = some [] := by
  have hcount : (logItems (.store [plainItem] :: .delete [firstKey] ::
      List.replicate blocks (.store (List.replicate size plainItem)))).length =
        2 ^ 64 := by
    simp [logItems, Command.items, List.length_flatMap]
    omega
  have hround : advance 0 (2 ^ 64) = 0 := by decide
  rw [lapCommands, logOps_append, commit_append, hcount, hround]
  simp [logOps, Command.ops, storeOps, eventOps, plainItem, firstKey,
    BatchOp.apply]

/-- A call on the log of `lapCommands 0 0`: store, delete, store. -/
def storeDeleteStore : Call := ⟨numbered (lapLog 0 0), by decide +kernel⟩

/-- The same log with the delete moved behind the second store and doubled. -/
def deleteLateTwice : Call :=
  ⟨numbered [encodeStoreBatch [plainItem], encodeStoreBatch [plainItem],
    encodeDeleteBatch [firstKey], encodeDeleteBatch [firstKey]], by decide +kernel⟩

theorem retried_delete_agrees_moved :
    ∃ updated final,
      applyCalls (Node.fresh ⟨0, Or.inl rfl⟩).sm [storeDeleteStore] = .ok updated ∧
      applyCalls (Node.fresh ⟨0, Or.inl rfl⟩).sm [deleteLateTwice] = .ok final ∧
      AgreeOff {appliedIndexKey} updated.sm.db final.sm.db := by
  have hlog : [storeDeleteStore].flatMap Call.entries =
      numbered [encodeStoreBatch [plainItem]] ++
        ⟨2, encodeDeleteBatch [firstKey]⟩ :: [⟨3, encodeStoreBatch [plainItem]⟩] := by
    decide +kernel
  have hretried : ([deleteLateTwice].flatMap Call.entries).map Entry.cmd =
      (numbered [encodeStoreBatch [plainItem]]).map Entry.cmd ++
        [encodeStoreBatch [plainItem], encodeDeleteBatch [firstKey],
          encodeDeleteBatch [firstKey]] := by
    decide +kernel
  have hcarries : Carries ([storeDeleteStore].flatMap Call.entries)
      (lapCommands 0 0) := carries_numbered (decodes_lapLog 0 (by decide))
  have hprior : Carries (numbered [encodeStoreBatch [plainItem]])
      [.store [plainItem]] := by
    refine carries_numbered (.cons ?_ .nil)
    simpa only [List.replicate_one] using decodeCommand_plainItems 1 (by decide)
  have hupdated : applyCalls (Node.fresh ⟨0, Or.inl rfl⟩).sm [storeDeleteStore] =
      .ok (report _ _ _) :=
    (applyCalls_eq_ok_iff (List.cons_ne_nil _ _)).mpr ⟨_, hcarries, rfl⟩
  obtain ⟨final, hfinal, hagree⟩ := retried_delete_agrees hlog hretried
    (.keep (.insert (.insert .nil))) (by decide)
    (decodeCommand_eq_delete_iff.mp decodeCommand_firstKey)
    (update_eq hprior _) (by decide +kernel) (by decide +kernel) hupdated
    (by decide +kernel)
  exact ⟨_, final, hupdated, hfinal, hagree⟩

theorem indexesMeet_lapLog (blocks : ℕ) {size : ℕ}
    (hsize : storeBatchItemSize * size ≤ maxAlloc) :
    IndexesMeet Foreign (numbered (lapLog blocks size)) := by
  rw [(carries_numbered (decodes_lapLog blocks hsize)).indexesMeet_iff]
  intro item hitem idx hidx
  have hplain : item = plainItem := by
    simp only [logItems, lapCommands, List.mem_flatMap, List.mem_append,
      List.mem_cons, List.mem_replicate, List.not_mem_nil, or_false] at hitem
    obtain ⟨command, (rfl | rfl | ⟨-, rfl⟩) | rfl, hmem⟩ := hitem
    · simpa [Command.items] using hmem
    · simp [Command.items] at hmem
    · exact List.eq_of_mem_replicate hmem
    · simpa [Command.items] using hmem
  rw [hplain] at hidx
  exact absurd hidx List.not_mem_nil

theorem getElem?_commit_delete_last (db : DB) (lastID : UInt64)
    (commands : List Command) :
    (commit db (logOps lastID (commands ++ [.delete [firstKey]])))[firstKey]? =
      none := by
  rw [logOps_append, commit_append, logOps_delete_cons, commit_append]
  exact getElem?_commit_delete_mem _ List.mem_cons_self

theorem play_firstKey (sm : EventStateMachine) (entries : List Entry)
    (commands : List Command) :
    (play sm entries commands).db[firstKey]? =
      (commit sm.db (logOps sm.repo.lastID commands))[firstKey]? := by
  rw [play, commit_append]
  apply getElem?_commit_of_untouched
  intro op hop
  rw [List.mem_singleton] at hop
  rw [hop]
  exact appliedIndexKey_ne_eventKey 0 0 1

/-- After one lap of the counter a repeated delete removes the message that got
the first key again: a log of `2 ^ 64 + 1` stores, with and without a second
copy of its delete at the end. -/
theorem retried_delete_loses_message :
    ∃ prior updated final,
      update .pebble .none (Node.fresh ⟨0, Or.inl rfl⟩).sm
        (numbered [encodeStoreBatch [plainItem]]) = .ok prior ∧
      firstKey ∈ prior.stored ∧
      unmarshalDeleteBatchCmd (encodeDeleteBatch [firstKey]) = .ok [firstKey] ∧
      IndexesMeet Foreign (numbered (lapLog (2 ^ 32 + 1) (2 ^ 32 - 1))) ∧
      update .pebble .none (Node.fresh ⟨0, Or.inl rfl⟩).sm
        (numbered (lapLog (2 ^ 32 + 1) (2 ^ 32 - 1))) = .ok updated ∧
      update .pebble .none (Node.fresh ⟨0, Or.inl rfl⟩).sm
        (numbered (lapLog (2 ^ 32 + 1) (2 ^ 32 - 1) ++
          [encodeDeleteBatch [firstKey]])) = .ok final ∧
      ¬ AgreeOff {appliedIndexKey} updated.sm.db final.sm.db := by
  have hsize : storeBatchItemSize * (2 ^ 32 - 1) ≤ maxAlloc := by decide
  have hone : Decodes [encodeStoreBatch [plainItem]] [.store [plainItem]] := by
    refine .cons ?_ .nil
    simpa only [List.replicate_one] using decodeCommand_plainItems 1 (by decide)
  have hlap := decodes_lapLog (2 ^ 32 + 1) hsize
  have hdelete : Decodes [encodeDeleteBatch [firstKey]] [.delete [firstKey]] :=
    .cons decodeCommand_firstKey .nil
  have hretry := List.rel_append hlap hdelete
  refine ⟨_, _, _, update_eq (carries_numbered hone) _, by simp [report, logKeys,
      logItems, Command.items, storeKeys, firstKey, plainItem, Node.fresh],
    decodeCommand_eq_delete_iff.mp decodeCommand_firstKey,
    indexesMeet_lapLog _ hsize, update_eq (carries_numbered hlap) _,
    update_eq (carries_numbered hretry) _, ?_⟩
  intro hagree
  have hsame := hagree firstKey (by decide +kernel)
  have hkept : (report (Node.fresh ⟨0, Or.inl rfl⟩).sm
      (numbered (lapLog (2 ^ 32 + 1) (2 ^ 32 - 1)))
      (lapCommands (2 ^ 32 + 1) (2 ^ 32 - 1))).sm.db[firstKey]? = some [] := by
    rw [report_sm, play_firstKey]
    exact lapCommands_firstKey (by norm_num)
  have hlost : (report (Node.fresh ⟨0, Or.inl rfl⟩).sm
      (numbered (lapLog (2 ^ 32 + 1) (2 ^ 32 - 1) ++ [encodeDeleteBatch [firstKey]]))
      (lapCommands (2 ^ 32 + 1) (2 ^ 32 - 1) ++
        [.delete [firstKey]])).sm.db[firstKey]? = none := by
    rw [report_sm, play_firstKey]
    exact getElem?_commit_delete_last _ _ _
  rw [hkept, hlost] at hsame
  cases hsame

end FutureQ.DeleteRetry
