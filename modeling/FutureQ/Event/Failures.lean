import FutureQ.Event.Replica
import FutureQ.Event.SnapshotStream

/-!
# Calls that fail

The disk may refuse any batch operation or the commit, the snapshot reader may
fail and the stop channel may close.  `Update` advances its two in-memory
counters before it commits, and `RecoverFromSnapshot` commits the wipe of the
database before it reads the stream.
-/

namespace FutureQ.Failures

open FutureQ.ByteOrder
open FutureQ.GoRuntime
open FutureQ.OrderedStore
open FutureQ.Transition
open FutureQ.Storage
open FutureQ.Keys
open FutureQ.Repository
open FutureQ.Commands
open FutureQ.CommandCodec
open FutureQ.StateMachine
open FutureQ.Journal
open FutureQ.Replica
open FutureQ.Snapshot
open FutureQ.SnapshotStream

/-! ## One entry on a failing disk -/

/-- The number of IDs that a store command takes before it stops. -/
theorem repo_storeItems (faults : Faults) (items : List StoreBatchItem)
    (repo : EventRepository) (batch : Batch) :
    ∃ taken ≤ items.length, (items ≠ [] → taken ≠ 0) ∧
      (storeItems faults items repo batch).repo =
        { repo with lastID := advance repo.lastID taken } := by
  induction items generalizing repo batch with
  | nil => exact ⟨0, le_rfl, fun hne => absurd rfl hne, by simp [storeItems]⟩
  | cons item items ih =>
      rw [storeItems, storeRawWithBatch]
      rcases putRaw faults (repo.lastID + 1) item.bucket item.topicHash item.indexes
        item.msg batch with ⟨err | key, filled⟩
      · exact ⟨1, by simp, by simp, rfl⟩
      · obtain ⟨taken, hle, -, hrepo⟩ := ih { repo with lastID := repo.lastID + 1 } filled
        refine ⟨taken + 1, by simpa using hle, by simp, ?_⟩
        simp only [hrepo, advance_succ]

theorem repo_applied (faults : Faults) (repo : EventRepository) (batch : Batch)
    (command : Command) :
    ∃ taken ≤ command.items.length, (command.items ≠ [] → taken ≠ 0) ∧
      (applied faults repo batch command).repo =
        { repo with lastID := advance repo.lastID taken } := by
  cases command with
  | store items =>
      obtain ⟨taken, hle, hpos, hrepo⟩ := repo_storeItems faults items repo batch
      refine ⟨taken, hle, hpos, ?_⟩
      rw [← hrepo, applied]
      split <;> rfl
  | delete keys => exact ⟨0, le_rfl, by simp [Command.items], by simp [applied]⟩
  | skip => exact ⟨0, le_rfl, by simp [Command.items], by simp [applied]⟩

/-! ## One call -/

/-- The variables of `Update` after its loop over commands that decode. -/
theorem foldlM_applyNext_faults {faults : Faults} {entries : List Entry}
    {progress final : Progress}
    (hloop : entries.foldlM (applyNext faults) progress = .ok final) :
    ∃ commands taken, Carries entries commands ∧
      taken ≤ (logItems commands).length ∧
      (logItems commands ≠ [] → taken ≠ 0) ∧
      final.repo = { progress.repo with
        lastID := advance progress.repo.lastID taken } ∧
      final.lastApplied = lastIndex progress.lastApplied entries := by
  induction entries generalizing progress with
  | nil =>
      cases hloop
      exact ⟨[], 0, .nil, le_rfl, fun hne => absurd rfl hne, by simp, rfl⟩
  | cons entry entries ih =>
      obtain ⟨command, middle, hdecode, hmiddle, -, hindex, hrest⟩ :=
        foldlM_applyNext_cons_eq_ok hloop
      obtain ⟨commands, later, hcarries, hle, hpos, hrepo, hlast⟩ := ih hrest
      obtain ⟨taken, htaken, hfirst, happlied⟩ :=
        repo_applied faults progress.repo progress.batch command
      refine ⟨command :: commands, taken + later, .cons hdecode hcarries, ?_, ?_, ?_, ?_⟩
      · simp only [logItems, List.flatMap_cons, List.length_append] at hle ⊢
        omega
      · intro hne hzero
        simp only [logItems, List.flatMap_cons, ne_eq, List.append_eq_nil_iff,
          not_and_or] at hne
        rcases hne with hitems | hitems
        · exact hfirst hitems (by omega)
        · exact hpos hitems (by omega)
      · rw [hrepo, hmiddle, happlied]
        simp only [advance_add]
      · rw [hlast, hindex, lastIndex_cons]

/-- A call that returns has run its loop; it then fails with the database as it
was, or commits the batch of the loop and the applied index. -/
theorem update_cases {engine : Engine} {faults : Faults} {sm : EventStateMachine}
    {entries : List Entry} {updated : Updated}
    (hupdate : update engine faults sm entries = .ok updated) :
    ∃ progress, entries.foldlM (applyNext faults)
        ⟨sm.repo, newBatch, sm.lastApplied, [], [], []⟩ = .ok progress ∧
      ((∃ err, updated.outcome = .error err ∧
          updated.sm = ⟨sm.db, progress.repo, progress.lastApplied⟩) ∨
        (∃ results, updated.outcome = .ok results ∧
          updated.sm = ⟨commit sm.db (progress.batch.ops ++
            [.set appliedIndexKey (putUint64 progress.lastApplied)]),
            progress.repo, progress.lastApplied⟩)) := by
  rw [update, bind_eq_ok_iff] at hupdate
  obtain ⟨progress, hloop, hrest⟩ := hupdate
  refine ⟨progress, hloop, ?_⟩
  rcases hset : set faults appliedIndexKey (putUint64 progress.lastApplied)
    progress.batch with ⟨err | _, filled⟩
  · rw [hset] at hrest
    cases hrest
    exact .inl ⟨err, rfl, rfl⟩
  · rw [hset] at hrest
    simp only at hrest
    obtain ⟨-, rfl⟩ := set_eq_ok_iff.mp hset
    cases hcommit : engine.commit faults sm.db (progress.batch.push
        [.set appliedIndexKey (putUint64 progress.lastApplied)]) with
    | error err =>
        rw [hcommit] at hrest
        cases hrest
        exact .inl ⟨err, rfl, rfl⟩
    | ok db =>
        rw [hcommit] at hrest
        cases hrest
        refine .inr ⟨_, rfl, ?_⟩
        rw [commit_eq_ok hcommit]
        rfl

/-! ## Failed updates -/

/-- The number of messages that the entries store. -/
def storedCount (entries : List Entry) : ℕ :=
  (entries.map fun entry =>
    match unmarshalStoreBatchCmd entry.cmd with
    | .ok items => items.length
    | .error _ => 0).sum

/-- A failed call on these entries has not moved a counter: they store nothing
and end at the index that was applied last. -/
def Idle (sm : EventStateMachine) (entries : List Entry) : Prop :=
  StoresNothing entries ∧ lastIndex sm.lastApplied entries = sm.lastApplied

theorem Carries.storedCount_eq {entries : List Entry} {commands : List Command}
    (hcarries : Carries entries commands) :
    storedCount entries = (logItems commands).length := by
  rw [hcarries.logItems_eq, storedItems, List.length_flatMap, storedCount]
  congr 2
  funext entry
  cases unmarshalStoreBatchCmd entry.cmd with
  | ok items => rfl
  | error err => rfl

/-- A failed `Update` leaves the replica as it was exactly when its entries are
idle. -/
theorem failed_update_iff {engine : Engine} {faults : Faults}
    {sm : EventStateMachine} {entries : List Entry} {updated : Updated}
    {err : StorageError} (hupdate : update engine faults sm entries = .ok updated)
    (hfailed : updated.outcome = .error err) (hbound : storedCount entries < 2 ^ 64) :
    updated.sm = sm ↔ Idle sm entries := by
  obtain ⟨progress, hloop, ⟨_, -, hsm⟩ | ⟨results, hok, -⟩⟩ := update_cases hupdate
  · obtain ⟨commands, taken, hcarries, hle, hpos, hrepo, hlast⟩ :=
      foldlM_applyNext_faults hloop
    rw [Carries.storedCount_eq hcarries] at hbound
    rw [Idle, hcarries.storesNothing_iff, hsm, EventStateMachine.ext_iff, hrepo, hlast]
    have htaken : taken = 0 ↔ logItems commands = [] := by
      constructor
      · intro hzero
        by_contra hne
        exact hpos hne hzero
      · intro hnil
        simpa [hnil] using hle
    rw [← htaken, ← advance_eq_self_iff sm.repo.lastID
      (lt_of_le_of_lt hle hbound)]
    simp only [true_and]
    refine and_congr_left fun _ => ?_
    constructor
    · intro heq
      exact congrArg EventRepository.lastID heq
    · intro heq
      rw [heq]
  · rw [hfailed] at hok
    cases hok

/-! ## Failed recoveries -/

/-- The wipe fails, or what the call leaves in the database is what was there. -/
def Spared (engine : Engine) (stop : Stop) (clearing faults : Faults)
    (sm : EventStateMachine) (source : Source) : Prop :=
  ¬ Wipes stop clearing sm.db ∨
    (sm.db = ∅ ∧
      ∀ entries, ¬ Restores engine stop faults sm.db.keys.length source entries) ∨
    ∃ entries, Restores engine stop faults sm.db.keys.length source entries ∧
      contents entries = sm.db

/-- Recovery ends in the wipe, in the stream, or in the reload of the index. -/
theorem recover_cases (engine : Engine) (stop : Stop) (clearing faults : Faults)
    (sm : EventStateMachine) (source : Source) :
    (¬ Wipes stop clearing sm.db ∧ ∃ err,
        recoverFromSnapshot engine stop clearing faults sm source =
          (sm, .error (.error err))) ∨
      (Wipes stop clearing sm.db ∧
        (∀ entries, ¬ Restores engine stop faults sm.db.keys.length source entries) ∧
        ∃ err, recoverFromSnapshot engine stop clearing faults sm source =
          ({ sm with db := ∅ }, .error (.error err))) ∨
      (Wipes stop clearing sm.db ∧
        ∃ entries, Restores engine stop faults sm.db.keys.length source entries ∧
        recoverFromSnapshot engine stop clearing faults sm source =
          match reloadApplied engine { sm with db := contents entries } with
          | .error fault => ({ sm with db := contents entries }, .error fault)
          | .ok lastApplied => (⟨contents entries, sm.repo, lastApplied⟩, .ok ())) := by
  cases hclear : clearDB engine stop clearing sm.db with
  | error err =>
      refine .inl ⟨fun hwipes => ?_, err, by simp only [recoverFromSnapshot, hclear]⟩
      rw [clearDB_eq_ok_iff.mpr ⟨hwipes, rfl⟩] at hclear
      cases hclear
  | ok cleared =>
      obtain ⟨hwipes, rfl⟩ := clearDB_eq_ok_iff.mp hclear
      right
      cases hrestore : restoreDB engine stop faults sm.db.keys.length ∅ source with
      | error err =>
          refine .inl ⟨hwipes, fun entries hrestores => ?_, err, ?_⟩
          · rw [restoreDB_eq_ok_iff.mpr ⟨entries, hrestores, rfl⟩] at hrestore
            cases hrestore
          · simp only [recoverFromSnapshot, hclear, hrestore]
      | ok db =>
          obtain ⟨entries, hrestores, rfl⟩ := restoreDB_eq_ok_iff.mp hrestore
          refine .inr ⟨hwipes, entries, hrestores, ?_⟩
          cases hreload : reloadApplied engine { sm with db := contents entries } with
          | error fault => simp only [recoverFromSnapshot, hclear, hrestore, hreload]
          | ok lastApplied =>
              simp only [recoverFromSnapshot, hclear, hrestore, hreload]

/-- A failed `RecoverFromSnapshot` leaves the replica as it was exactly when the
wipe failed or the database still holds what it held. -/
theorem failed_recover_iff {engine : Engine} {stop : Stop} {clearing faults : Faults}
    {sm after : EventStateMachine} {source : Source} {err : SnapshotError}
    (hrecover : recoverFromSnapshot engine stop clearing faults sm source =
      (after, .error (.error err))) :
    after = sm ↔ Spared engine stop clearing faults sm source := by
  obtain ⟨hwipes, _, hcase⟩ | ⟨hwipes, hnone, _, hcase⟩ |
    ⟨hwipes, entries, hrestores, hcase⟩ :=
      recover_cases engine stop clearing faults sm source
  · rw [hrecover] at hcase
    cases hcase
    exact ⟨fun _ => .inl hwipes, fun _ => rfl⟩
  · rw [hrecover] at hcase
    cases hcase
    constructor
    · intro heq
      exact .inr (.inl ⟨(congrArg EventStateMachine.db heq).symm, hnone⟩)
    · rintro (hfails | ⟨hempty, -⟩ | ⟨entries, hrestores, -⟩)
      · exact absurd hwipes hfails
      · rw [← hempty]
      · exact absurd hrestores (hnone entries)
  · rw [hrecover] at hcase
    cases hreload : reloadApplied engine { sm with db := contents entries } with
    | ok lastApplied =>
        rw [hreload] at hcase
        cases hcase
    | error fault =>
        rw [hreload] at hcase
        cases hcase
        constructor
        · intro heq
          exact .inr (.inr ⟨entries, hrestores, congrArg EventStateMachine.db heq⟩)
        · rintro (hfails | ⟨-, hnone⟩ | ⟨others, hothers, hsame⟩)
          · exact absurd hwipes hfails
          · exact absurd hrestores (hnone entries)
          · rw [hrestores.contents_eq hothers, hsame]

/-! ## Runs of calls -/

/-- The value of a counter record, 0 when the record is absent. -/
def recorded (db : DB) (key : Bytes) : UInt64 :=
  match db[key]? with
  | some value => uint64 value
  | none => 0

/-- The applied index in memory is the one in the database. -/
def Consistent (sm : EventStateMachine) : Prop :=
  sm.lastApplied = recorded sm.db appliedIndexKey

inductive Action where
  | update (faults : Faults) (entries : List Entry)
  | recover (stop : Stop) (clearing faults : Faults) (source : Source)
  | restart

def reboot (engine : Engine) (sm : EventStateMachine) : Option EventStateMachine :=
  (start engine sm.repo.bucketSize sm.db).toOption

/-- A replica keeps running after an error; a panic ends the process. -/
def step (engine : Engine) (sm : EventStateMachine) : Action → Option EventStateMachine
  | .update faults entries =>
      match update engine faults sm entries with
      | .error _ => reboot engine sm
      | .ok updated => some updated.sm
  | .recover stop clearing faults source =>
      match recoverFromSnapshot engine stop clearing faults sm source with
      | (after, .error (.panic _)) => reboot engine after
      | (after, _) => some after
  | .restart => reboot engine sm

/-- If the call fails it leaves the replica as it was, and a stream that is
restored brings an applied index of its own. -/
def Harmless (engine : Engine) (sm : EventStateMachine) : Action → Prop
  | .update faults entries =>
      ∀ updated err, update engine faults sm entries = .ok updated →
        updated.outcome = .error err → Idle sm entries
  | .recover stop clearing faults source =>
      (∀ after err, recoverFromSnapshot engine stop clearing faults sm source =
        (after, .error (.error err)) → Spared engine stop clearing faults sm source) ∧
      ∀ entries, Restores engine stop faults sm.db.keys.length source entries →
        appliedIndexKey ∈ contents entries ∨ sm.lastApplied = 0
  | .restart => True

theorem recorded_of_readCounter {engine : Engine} {db : DB} {key : Bytes}
    {value : UInt64} (hread : readCounter engine db key 0 = .ok value) :
    value = recorded db key := by
  rw [readCounter, Engine.get] at hread
  rw [recorded]
  cases hrecord : db[key]? with
  | none =>
      rw [hrecord] at hread
      cases engine <;> cases hread
      rfl
  | some bytes =>
      rw [hrecord] at hread
      simp only [bigEndianUint64] at hread
      split at hread
      · cases hread
      · exact (Except.ok.inj hread).symm

theorem consistent_reboot {engine : Engine} {sm next : EventStateMachine}
    (hreboot : reboot engine sm = some next) : Consistent next := by
  rw [reboot] at hreboot
  cases hstart : start engine sm.repo.bucketSize sm.db with
  | error fault =>
      rw [hstart] at hreboot
      cases hreboot
  | ok started =>
      rw [hstart] at hreboot
      cases hreboot
      obtain ⟨repo, -, hopen⟩ := bind_eq_ok_iff.mp hstart
      obtain ⟨lastApplied, hread, hnext⟩ := bind_eq_ok_iff.mp hopen
      cases hnext
      exact recorded_of_readCounter hread

theorem consistent_update {engine : Engine} {faults : Faults} {sm : EventStateMachine}
    {entries : List Entry} {updated : Updated} (hconsistent : Consistent sm)
    (hharmless : Harmless engine sm (.update faults entries))
    (hupdate : update engine faults sm entries = .ok updated) :
    Consistent updated.sm := by
  obtain ⟨progress, hloop, ⟨err, hfailed, hsm⟩ | ⟨results, -, hsm⟩⟩ :=
    update_cases hupdate
  · obtain ⟨-, hlast⟩ := hharmless updated err hupdate hfailed
    obtain ⟨-, -, -, -, -, -, hprogress⟩ := foldlM_applyNext_faults hloop
    rw [hsm, Consistent, hprogress, hlast]
    exact hconsistent
  · rw [hsm, Consistent, recorded]
    simp [commit_append, BatchOp.apply]

/-- A reload that succeeds takes the record of the new contents, or keeps the old
index when there is none. -/
theorem consistent_reload {engine : Engine} {sm : EventStateMachine}
    {lastApplied : UInt64} (hreload : reloadApplied engine sm = .ok lastApplied)
    (hrecord : appliedIndexKey ∈ sm.db ∨ sm.lastApplied = 0) :
    Consistent { sm with lastApplied } := by
  rw [reloadApplied, Engine.get] at hreload
  rw [Consistent, recorded]
  cases hvalue : sm.db[appliedIndexKey]? with
  | some value =>
      rw [hvalue] at hreload
      simp only [bigEndianUint64] at hreload
      split at hreload
      · cases hreload
      · exact (Except.ok.inj hreload).symm
  | none =>
      have habsent : appliedIndexKey ∉ sm.db := by
        simp [Std.ExtTreeMap.mem_iff_isSome_getElem?, hvalue]
      rw [hvalue] at hreload
      cases engine <;> cases hreload
      exact hrecord.resolve_left habsent

theorem consistent_recover {engine : Engine} {stop : Stop} {clearing faults : Faults}
    {sm after : EventStateMachine} {source : Source} {outcome : GoResult SnapshotError Unit}
    (hconsistent : Consistent sm)
    (hharmless : Harmless engine sm (.recover stop clearing faults source))
    (hrecover : recoverFromSnapshot engine stop clearing faults sm source =
      (after, outcome)) (hreturns : Returns outcome) :
    Consistent after := by
  cases outcome with
  | error fault =>
      cases fault with
      | error err =>
          rw [(failed_recover_iff hrecover).mpr (hharmless.1 after err hrecover)]
          exact hconsistent
      | panic reason => exact absurd rfl (hreturns reason)
  | ok _ =>
      obtain ⟨-, _, hcase⟩ | ⟨-, -, _, hcase⟩ | ⟨-, entries, hrestores, hcase⟩ :=
        recover_cases engine stop clearing faults sm source
      · rw [hrecover] at hcase
        cases hcase
      · rw [hrecover] at hcase
        cases hcase
      · rw [hrecover] at hcase
        cases hreload : reloadApplied engine { sm with db := contents entries } with
        | error fault =>
            rw [hreload] at hcase
            cases hcase
        | ok lastApplied =>
            rw [hreload] at hcase
            cases hcase
            exact consistent_reload hreload (hharmless.2 entries hrestores)

theorem consistent_step {engine : Engine} {sm next : EventStateMachine}
    {action : Action} (hconsistent : Consistent sm)
    (hharmless : Harmless engine sm action)
    (hstep : step engine sm action = some next) : Consistent next := by
  cases action with
  | update faults entries =>
      rw [step] at hstep
      split at hstep
      · exact consistent_reboot hstep
      · rename_i updated hupdate
        cases hstep
        exact consistent_update hconsistent hharmless hupdate
  | recover stop clearing faults source =>
      rw [step] at hstep
      split at hstep
      · exact consistent_reboot hstep
      · rename_i after outcome hpanic hrecover
        cases hstep
        exact consistent_recover hconsistent hharmless hrecover
          fun reason heq => hpanic reason (heq ▸ rfl)
  | restart => exact consistent_reboot hstep

/-- A failed `Update` leaves the replica as it was exactly when its entries are
idle, a failed `RecoverFromSnapshot` exactly when the database is spared; and in
every run of such calls the applied index in memory is the one on disk. -/
theorem failed_calls_leave_replica_iff (engine : Engine) :
    (∀ (faults : Faults) (sm : EventStateMachine) (entries : List Entry)
      (updated : Updated) (err : StorageError),
      update engine faults sm entries = .ok updated → updated.outcome = .error err →
      storedCount entries < 2 ^ 64 → (updated.sm = sm ↔ Idle sm entries)) ∧
    (∀ (stop : Stop) (clearing faults : Faults) (sm after : EventStateMachine)
      (source : Source) (err : SnapshotError),
      recoverFromSnapshot engine stop clearing faults sm source =
        (after, .error (.error err)) →
      (after = sm ↔ Spared engine stop clearing faults sm source)) ∧
    (∀ (sm finish : EventStateMachine) (actions : List Action), Consistent sm →
      Meets (step engine) (Harmless engine) sm actions →
      run (step engine) sm actions = some finish → Consistent finish) := by
  refine ⟨fun _ _ _ _ _ => failed_update_iff, fun _ _ _ _ _ _ _ => failed_recover_iff, ?_⟩
  intro sm finish actions hconsistent hmeets hrun
  exact run_invariant (fun _ _ _ hinv hguard hstep => consistent_step hinv hguard hstep)
    hconsistent hmeets hrun

/-! ## A refused commit and a torn stream -/

def freshReplica : EventStateMachine := ⟨∅, ⟨0, ⟨0, valid_zero⟩⟩, 0⟩

/-- The commit is refused, every batch operation passes. -/
def refusedCommit : Faults := ⟨fun _ => none, some .io⟩

def storeOne : List Entry := [⟨1, encodeStoreBatch [⟨5, 7, [], [1]⟩]⟩]

def oneRecord : EventStateMachine := ⟨(∅ : DB).insert [1] [2], ⟨4, ⟨0, valid_zero⟩⟩, 0⟩

/-- A refused commit leaves both counters moved, and a stream of two bytes leaves
an empty database. -/
theorem failed_calls_change_replica :
    (∃ updated, update .pebble refusedCommit freshReplica storeOne = .ok updated ∧
      (updated.outcome = .error .io ∧ updated.sm.db = freshReplica.db ∧
        updated.sm.lastApplied = 1 ∧ updated.sm.repo.lastID = 1 ∧
        recorded updated.sm.db appliedIndexKey = 0)) ∧
    (recoverFromSnapshot .pebble none .none .none oneRecord ⟨[1, 0], false⟩).2 =
      .error (.error .unexpectedEOF) ∧
    (recoverFromSnapshot .pebble none .none .none oneRecord ⟨[1, 0], false⟩).1.db = ∅ ∧
    oneRecord.db ≠ ∅ := by
  refine ⟨?_, by decide +kernel, by decide +kernel, by decide +kernel⟩
  apply exists_ok_of_any
  decide +kernel

/-- A replica that stored one message. -/
def usedReplica : EventStateMachine where
  db := (((∅ : DB).insert (eventKey 5 7 1) [1]).insert eventsLastIDKey
    (putUint64 1)).insert appliedIndexKey (putUint64 1)
  repo := ⟨1, ⟨0, valid_zero⟩⟩
  lastApplied := 1

/-- An unknown command at the index that was applied last. -/
def unknownAgain : List Entry := [⟨1, [9]⟩]

theorem idle_unknownAgain : Idle usedReplica unknownAgain := by
  refine ⟨?_, rfl⟩
  intro entry hentry items hitems
  obtain rfl := List.mem_singleton.mp hentry
  cases hitems

/-- A refused commit of an idle call, a refused wipe, and a run with such a call and a
restart. -/
theorem failed_calls_leave_replica_iff_idle :
    (∃ updated, update .pebble refusedCommit usedReplica unknownAgain = .ok updated ∧
      updated.outcome = .error .io ∧ updated.sm = usedReplica) ∧
    (∃ after err, recoverFromSnapshot .pebble none refusedCommit .none oneRecord
        ⟨[1, 0], false⟩ = (after, .error (.error err)) ∧ after = oneRecord) ∧
    ∃ finish, run (step .pebble) usedReplica
        [.update refusedCommit unknownAgain, .restart] = some finish ∧
      finish.lastApplied = 1 ∧ Consistent finish := by
  obtain ⟨hupdates, hrecovers, hruns⟩ := failed_calls_leave_replica_iff .pebble
  refine ⟨?_, ?_, ?_⟩
  · have hcall : ∃ updated, update .pebble refusedCommit usedReplica unknownAgain =
        .ok updated ∧ updated.outcome = .error .io := by
      apply exists_ok_of_any
      decide +kernel
    obtain ⟨updated, hupdate, hfailed⟩ := hcall
    exact ⟨updated, hupdate, hfailed, (hupdates _ _ _ _ _ hupdate hfailed
      (by decide +kernel)).mpr idle_unknownAgain⟩
  · have hwipe : ¬ Wipes none refusedCommit oneRecord.db := by
      intro hwipes
      cases hwipes.committed
    obtain ⟨-, err, hrecover⟩ | ⟨hwipes, -⟩ | ⟨hwipes, -⟩ :=
      recover_cases .pebble none refusedCommit .none oneRecord ⟨[1, 0], false⟩
    · exact ⟨_, err, hrecover, (hrecovers _ _ _ _ _ _ _ hrecover).mpr (.inl hwipe)⟩
    · exact absurd hwipes hwipe
    · exact absurd hwipes hwipe
  · have hmeets : Meets (step .pebble) (Harmless .pebble) usedReplica
        [.update refusedCommit unknownAgain, .restart] :=
      ⟨fun _ _ _ _ => idle_unknownAgain, fun _ _ => ⟨trivial, fun _ _ => trivial⟩⟩
    have hconsistent : usedReplica.lastApplied = recorded usedReplica.db appliedIndexKey := by
      decide +kernel
    have hfinish : ∃ finish, run (step .pebble) usedReplica
        [.update refusedCommit unknownAgain, .restart] = some finish ∧
          finish.lastApplied = 1 :=
      exists_finish_of_any (by decide +kernel)
    obtain ⟨finish, hrun, happlied⟩ := hfinish
    exact ⟨finish, hrun, happlied, hruns _ _ _ hconsistent hmeets hrun⟩

end FutureQ.Failures
