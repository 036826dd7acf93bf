import FutureQ.Event.CommandCodec
import FutureQ.Event.StateMachine

/-!
# The journal of a replica

Seen from outside, an `Update` call plays a list of commands on the database.
This module states that meaning directly: a command is a list of stores, a list
of deletes or nothing; its writes depend only on the counter before it; and a
log is the concatenation of the writes of its commands.  `update_eq` shows that
the batching state machine computes exactly this, so later results about whole
logs argue about journals instead of loops over a batch.
-/

namespace FutureQ.Journal

open FutureQ.ByteOrder
open FutureQ.GoRuntime
open FutureQ.OrderedStore
open FutureQ.Storage
open FutureQ.Keys
open FutureQ.Repository
open FutureQ.Commands
open FutureQ.CommandCodec
open FutureQ.StateMachine

/-- The meaning of a log entry.  Malformed and unknown commands do nothing. -/
inductive Command where
  | store (items : List StoreBatchItem)
  | delete (keys : List Bytes)
  | skip
  deriving DecidableEq, Repr

/-- The command an entry carries, unless decoding it panics. -/
def decodeCommand (cmd : Bytes) : Except Panic Command :=
  match cmd with
  | [] => .ok .skip
  | tag :: _ =>
      match commandType tag with
      | .storeBatch =>
          match unmarshalStoreBatchCmd cmd with
          | .error (.panic reason) => .error reason
          | .error (.error _) => .ok .skip
          | .ok items => .ok (.store items)
      | .deleteBatch =>
          match unmarshalDeleteBatchCmd cmd with
          | .error (.panic reason) => .error reason
          | .error (.error _) => .ok .skip
          | .ok keys => .ok (.delete keys)
      | .unknown _ => .ok .skip

def Command.items : Command → List StoreBatchItem
  | .store items => items
  | _ => []

def Command.deleted : Command → List Bytes
  | .delete keys => keys
  | _ => []

def Command.result : Command → Result
  | .store items => ⟨UInt64.ofNat items.length⟩
  | .delete keys => ⟨UInt64.ofNat keys.length⟩
  | .skip => ⟨0⟩

/-- The counter after storing `count` messages. -/
def advance (lastID : UInt64) (count : ℕ) : UInt64 := lastID + UInt64.ofNat count

def storeOps : UInt64 → List StoreBatchItem → List Op
  | _, [] => []
  | lastID, item :: items =>
      eventOps (lastID + 1) (eventKey item.bucket item.topicHash (lastID + 1))
        item.msg item.indexes ++ storeOps (lastID + 1) items

def storeKeys : UInt64 → List StoreBatchItem → List Bytes
  | _, [] => []
  | lastID, item :: items =>
      eventKey item.bucket item.topicHash (lastID + 1) ::
        storeKeys (lastID + 1) items

def Command.ops (lastID : UInt64) : Command → List Op
  | .store items => storeOps lastID items
  | .delete keys => keys.map .delete
  | .skip => []

/-- The writes of a whole log, from a given counter. -/
def logOps : UInt64 → List Command → List Op
  | _, [] => []
  | lastID, command :: commands =>
      command.ops lastID ++
        logOps (advance lastID command.items.length) commands

def logItems (commands : List Command) : List StoreBatchItem :=
  commands.flatMap Command.items

/-- The event keys a log issues, in log order. -/
def logKeys (lastID : UInt64) (commands : List Command) : List Bytes :=
  storeKeys lastID (logItems commands)

def lastIndex (lastApplied : UInt64) (entries : List Entry) : UInt64 :=
  (entries.getLast?.map Entry.index).getD lastApplied

/-- The entries carry these commands. -/
def Carries (entries : List Entry) (commands : List Command) : Prop :=
  List.Forall₂ (fun entry command => decodeCommand entry.cmd = .ok command)
    entries commands

/-- The replica after its entries carried `commands`. -/
def play (sm : EventStateMachine) (entries : List Entry)
    (commands : List Command) : EventStateMachine where
  db := commit sm.db (logOps sm.repo.lastID commands ++
    [.set appliedIndexKey (putUint64 (lastIndex sm.lastApplied entries))])
  repo := { sm.repo with
    lastID := advance sm.repo.lastID (logItems commands).length }
  lastApplied := lastIndex sm.lastApplied entries

/-- What a call on `entries` leaves and reports when they carry `commands`. -/
def report (sm : EventStateMachine) (entries : List Entry)
    (commands : List Command) : Updated :=
  ⟨play sm entries commands, .ok (commands.map Command.result),
    commands.flatMap Command.deleted, logKeys sm.repo.lastID commands⟩

/-! ## Counters and concatenation -/

@[simp]
theorem advance_zero (lastID : UInt64) : advance lastID 0 = lastID := by
  simp [advance]

theorem advance_add (lastID : UInt64) (first second : ℕ) :
    advance lastID (first + second) = advance (advance lastID first) second := by
  simp [advance, UInt64.ofNat_add, UInt64.add_assoc]

theorem advance_one (lastID : UInt64) : advance lastID 1 = lastID + 1 := rfl

theorem advance_succ (lastID : UInt64) (count : ℕ) :
    advance lastID (count + 1) = advance (lastID + 1) count := by
  rw [Nat.add_comm, advance_add, advance_one]

theorem advance_eq_self_iff (lastID : UInt64) {count : ℕ} (hcount : count < 2 ^ 64) :
    advance lastID count = lastID ↔ count = 0 := by
  constructor
  · intro heq
    have hzero : UInt64.ofNat count = 0 := by
      rw [advance] at heq
      simpa using heq
    have hnat := congrArg UInt64.toNat hzero
    rwa [UInt64.toNat_ofNat_of_lt' hcount] at hnat
  · rintro rfl
    exact advance_zero lastID

@[simp]
theorem logItems_append (first second : List Command) :
    logItems (first ++ second) = logItems first ++ logItems second :=
  List.flatMap_append

theorem storeOps_append (lastID : UInt64) (first second : List StoreBatchItem) :
    storeOps lastID (first ++ second) =
      storeOps lastID first ++ storeOps (advance lastID first.length) second := by
  induction first generalizing lastID with
  | nil => simp [storeOps]
  | cons item items ih =>
      simp only [List.cons_append, storeOps, ih, List.length_cons, advance_succ,
        List.append_assoc]

theorem storeKeys_append (lastID : UInt64) (first second : List StoreBatchItem) :
    storeKeys lastID (first ++ second) =
      storeKeys lastID first ++ storeKeys (advance lastID first.length) second := by
  induction first generalizing lastID with
  | nil => simp [storeKeys]
  | cons item items ih =>
      simp only [List.cons_append, storeKeys, ih, List.length_cons, advance_succ]

@[simp]
theorem length_storeKeys (lastID : UInt64) (items : List StoreBatchItem) :
    (storeKeys lastID items).length = items.length := by
  induction items generalizing lastID with
  | nil => rfl
  | cons item items ih => simp [storeKeys, ih]

theorem logOps_append (lastID : UInt64) (first second : List Command) :
    logOps lastID (first ++ second) =
      logOps lastID first ++
        logOps (advance lastID (logItems first).length) second := by
  induction first generalizing lastID with
  | nil => simp [logOps, logItems]
  | cons command commands ih =>
      simp only [List.cons_append, logOps, ih, List.append_assoc, logItems,
        List.flatMap_cons, List.length_append, advance_add]

theorem logKeys_append (lastID : UInt64) (first second : List Command) :
    logKeys lastID (first ++ second) =
      logKeys lastID first ++
        logKeys (advance lastID (logItems first).length) second := by
  rw [logKeys, logItems_append, storeKeys_append]
  rfl

/-! ## The state machine plays the journal -/

theorem storeItems_none (items : List StoreBatchItem) (repo : EventRepository)
    (batch : Batch) :
    storeItems .none items repo batch =
      ⟨none, storeKeys repo.lastID items,
        { repo with lastID := advance repo.lastID items.length },
        batch.push (storeOps repo.lastID items)⟩ := by
  induction items generalizing repo batch with
  | nil => simp [storeItems, storeKeys, storeOps]
  | cons item items ih =>
      simp only [storeItems, storeRawWithBatch_none, ih, storeKeys, storeOps,
        push_push, List.length_cons, advance_succ]

theorem deleteKeys_none (keys : List Bytes) (batch : Batch) :
    deleteKeys .none keys batch = (keys, batch.push (keys.map .delete)) := by
  induction keys generalizing batch with
  | nil => simp [deleteKeys]
  | cons key keys ih =>
      simp only [deleteKeys, delete_none, ih, push_push, List.map_cons,
        List.singleton_append]

/-- What a decoded command does to the repository and the batch. -/
def applied (faults : Faults) (repo : EventRepository) (batch : Batch) :
    Command → Applied
  | .store items =>
      let loop := storeItems faults items repo batch
      match loop.err with
      | some _ => ⟨loop.repo, loop.batch, ⟨0⟩, [], loop.stored⟩
      | none =>
          ⟨loop.repo, loop.batch, ⟨UInt64.ofNat items.length⟩, [], loop.stored⟩
  | .delete keys =>
      let (deleted, batch) := deleteKeys faults keys batch
      ⟨repo, batch, ⟨UInt64.ofNat deleted.length⟩, deleted, []⟩
  | .skip => ⟨repo, batch, ⟨0⟩, [], []⟩

theorem applyEntry_eq (faults : Faults) (repo : EventRepository) (batch : Batch)
    (cmd : Bytes) :
    applyEntry faults repo batch cmd =
      (decodeCommand cmd).map (applied faults repo batch) := by
  unfold applyEntry decodeCommand
  cases cmd with
  | nil => rfl
  | cons tag rest =>
      simp only
      cases commandType tag with
      | storeBatch =>
          simp only
          cases unmarshalStoreBatchCmd (tag :: rest) with
          | ok items =>
              simp only [Except.map, applied]
              cases (storeItems faults items repo batch).err <;> rfl
          | error fault => cases fault <;> rfl
      | deleteBatch =>
          simp only
          cases unmarshalDeleteBatchCmd (tag :: rest) with
          | ok keys => rfl
          | error fault => cases fault <;> rfl
      | unknown other => rfl

/-- What one pass through the loop of `Update` does when it does not panic. -/
theorem foldlM_applyNext_cons_eq_ok {faults : Faults} {entry : Entry}
    {entries : List Entry} {progress final : Progress}
    (hloop : (entry :: entries).foldlM (applyNext faults) progress = .ok final) :
    ∃ command middle, decodeCommand entry.cmd = .ok command ∧
      middle.repo = (applied faults progress.repo progress.batch command).repo ∧
      middle.batch = (applied faults progress.repo progress.batch command).batch ∧
      middle.lastApplied = entry.index ∧
      entries.foldlM (applyNext faults) middle = .ok final := by
  rw [List.foldlM_cons, bind_eq_ok_iff] at hloop
  obtain ⟨middle, hentry, hrest⟩ := hloop
  rw [applyNext, applyEntry_eq] at hentry
  cases hdecode : decodeCommand entry.cmd with
  | error reason =>
      rw [hdecode] at hentry
      cases hentry
  | ok command =>
      rw [hdecode] at hentry
      cases hentry
      exact ⟨command, _, rfl, rfl, rfl, rfl, hrest⟩

/-- Without disk failures an entry appends the writes of its command. -/
theorem applyEntry_none (repo : EventRepository) (batch : Batch) (cmd : Bytes) :
    applyEntry .none repo batch cmd =
      (decodeCommand cmd).map fun command =>
        ⟨{ repo with lastID := advance repo.lastID command.items.length },
          batch.push (command.ops repo.lastID), command.result, command.deleted,
          storeKeys repo.lastID command.items⟩ := by
  rw [applyEntry_eq]
  congr
  funext command
  cases command with
  | store items =>
      simp only [applied, storeItems_none]
      rfl
  | delete keys =>
      simp [applied, deleteKeys_none, Command.items, Command.ops, Command.result,
        Command.deleted, storeKeys]
  | skip =>
      simp [applied, Command.items, Command.ops, Command.result, Command.deleted,
        storeKeys]

theorem lastIndex_cons (lastApplied : UInt64) (entry : Entry)
    (entries : List Entry) :
    lastIndex lastApplied (entry :: entries) = lastIndex entry.index entries := by
  cases entries with
  | nil => rfl
  | cons next entries => simp [lastIndex, List.getLast?_cons]

theorem foldlM_applyNext {entries : List Entry} {commands : List Command}
    (hcarries : Carries entries commands) (progress : Progress) :
    entries.foldlM (applyNext .none) progress =
      .ok {
        repo := { progress.repo with
          lastID := advance progress.repo.lastID (logItems commands).length }
        batch := progress.batch.push (logOps progress.repo.lastID commands)
        lastApplied := lastIndex progress.lastApplied entries
        results := progress.results ++ commands.map Command.result
        deleted := progress.deleted ++ commands.flatMap Command.deleted
        stored := progress.stored ++ logKeys progress.repo.lastID commands } := by
  induction hcarries generalizing progress with
  | nil => simp [logItems, logOps, lastIndex, logKeys, storeKeys, pure, Except.pure]
  | @cons entry command entries commands hentry hrest ih =>
      have hstep : applyNext .none progress entry = .ok {
          repo := { progress.repo with
            lastID := advance progress.repo.lastID command.items.length }
          batch := progress.batch.push (command.ops progress.repo.lastID)
          lastApplied := entry.index
          results := progress.results ++ [command.result]
          deleted := progress.deleted ++ command.deleted
          stored := progress.stored ++
            storeKeys progress.repo.lastID command.items } := by
        rw [applyNext, applyEntry_none, hentry]
        rfl
      rw [List.foldlM_cons, hstep]
      change entries.foldlM (applyNext .none) _ = _
      rw [ih]
      simp only [push_push, logOps, logItems, logKeys, List.flatMap_cons,
        List.length_append, advance_add, lastIndex_cons, List.map_cons,
        List.append_assoc, List.singleton_append, storeKeys_append]

/-- An `Update` call on a healthy Pebble store is the journal of its commands. -/
theorem update_eq {entries : List Entry} {commands : List Command}
    (hcarries : Carries entries commands) (sm : EventStateMachine) :
    update .pebble .none sm entries = .ok (report sm entries commands) := by
  rw [update, foldlM_applyNext hcarries]
  simp only [bind, Except.bind, pure, Except.pure, set_none, commit_pebble,
    List.nil_append, Batch.push, newBatch, report, play]

theorem carries_of_foldlM_eq_ok {faults : Faults} {entries : List Entry}
    {progress final : Progress}
    (hloop : entries.foldlM (applyNext faults) progress = .ok final) :
    ∃ commands, Carries entries commands := by
  induction entries generalizing progress with
  | nil => exact ⟨[], .nil⟩
  | cons entry entries ih =>
      obtain ⟨command, middle, hdecode, -, -, -, hrest⟩ :=
        foldlM_applyNext_cons_eq_ok hloop
      obtain ⟨commands, hcommands⟩ := ih hrest
      exact ⟨command :: commands, .cons hdecode hcommands⟩

/-- A panic while decoding is the only way for such a call not to return. -/
theorem update_eq_ok_iff {sm : EventStateMachine} {entries : List Entry}
    {updated : Updated} :
    update .pebble .none sm entries = .ok updated ↔
      ∃ commands, Carries entries commands ∧
        updated = report sm entries commands := by
  constructor
  · intro hupdate
    cases hfold : entries.foldlM (applyNext .none)
        ⟨sm.repo, newBatch, sm.lastApplied, [], [], []⟩ with
    | error reason =>
        rw [update, hfold] at hupdate
        cases hupdate
    | ok progress =>
        obtain ⟨commands, hcommands⟩ := carries_of_foldlM_eq_ok hfold
        rw [update_eq hcommands, Except.ok.injEq] at hupdate
        exact ⟨commands, hcommands, hupdate.symm⟩
  · rintro ⟨commands, hcommands, rfl⟩
    exact update_eq hcommands sm

/-- The command of a call with one entry. -/
theorem exists_command_of_update {sm : EventStateMachine} {entry : Entry}
    {updated : Updated} (hupdate : update .pebble .none sm [entry] = .ok updated) :
    ∃ command, decodeCommand entry.cmd = .ok command ∧
      updated = report sm [entry] [command] := by
  obtain ⟨commands, hcarries, rfl⟩ := update_eq_ok_iff.mp hupdate
  cases hcarries with
  | cons hentry hnil =>
      cases hnil
      exact ⟨_, hentry, rfl⟩

theorem carries_append_iff {first second : List Entry}
    {commands : List Command} :
    Carries (first ++ second) commands ↔
      ∃ firstCommands secondCommands, Carries first firstCommands ∧
        Carries second secondCommands ∧
        commands = firstCommands ++ secondCommands := by
  constructor
  · intro hcarries
    induction first generalizing commands with
    | nil => exact ⟨[], commands, .nil, hcarries, rfl⟩
    | cons entry first ih =>
        cases hcarries with
        | cons hentry hrest =>
            obtain ⟨firstCommands, secondCommands, hfirst, hsecond, rfl⟩ := ih hrest
            exact ⟨_ :: firstCommands, secondCommands, .cons hentry hfirst, hsecond,
              rfl⟩
  · rintro ⟨firstCommands, secondCommands, hfirst, hsecond, rfl⟩
    exact List.rel_append hfirst hsecond

/-- Which decoder stands behind the meaning of a command. -/
def Explains (cmd : Bytes) : Except Panic Command → Prop
  | .ok (.store items) => unmarshalStoreBatchCmd cmd = .ok items
  | .ok (.delete keys) => unmarshalDeleteBatchCmd cmd = .ok keys
  | .ok .skip => True
  | .error reason => unmarshalStoreBatchCmd cmd = .error (.panic reason) ∨
      unmarshalDeleteBatchCmd cmd = .error (.panic reason)

theorem explains_decodeCommand (cmd : Bytes) : Explains cmd (decodeCommand cmd) := by
  cases cmd with
  | nil => exact True.intro
  | cons tag tail =>
      simp only [decodeCommand]
      cases commandType tag with
      | storeBatch =>
          rcases hstore : unmarshalStoreBatchCmd (tag :: tail) with (err | reason) | items
          · exact True.intro
          · exact .inl hstore
          · exact hstore
      | deleteBatch =>
          rcases hdelete : unmarshalDeleteBatchCmd (tag :: tail) with (err | reason) | keys
          · exact True.intro
          · exact .inr hdelete
          · exact hdelete
      | unknown other => exact True.intro

/-- A command decodes when both decoders return on it. -/
theorem exists_decodeCommand {cmd : Bytes}
    (hstore : Returns (unmarshalStoreBatchCmd cmd))
    (hdelete : Returns (unmarshalDeleteBatchCmd cmd)) :
    ∃ command, decodeCommand cmd = .ok command := by
  have hexplains := explains_decodeCommand cmd
  cases hdecode : decodeCommand cmd with
  | ok command => exact ⟨command, rfl⟩
  | error reason =>
      rw [hdecode] at hexplains
      rcases hexplains with hpanic | hpanic
      · exact absurd hpanic (hstore reason)
      · exact absurd hpanic (hdelete reason)

theorem exists_carries {entries : List Entry}
    (hdecodes : ∀ entry ∈ entries, ∃ command, decodeCommand entry.cmd = .ok command) :
    ∃ commands, Carries entries commands := by
  induction entries with
  | nil => exact ⟨[], .nil⟩
  | cons entry entries ih =>
      obtain ⟨⟨command, hcommand⟩, hrest⟩ := List.forall_mem_cons.mp hdecodes
      obtain ⟨commands, hcommands⟩ := ih hrest
      exact ⟨command :: commands, .cons hcommand hcommands⟩

theorem Carries.unique {entries : List Entry} {left right : List Command}
    (hleft : Carries entries left) (hright : Carries entries right) :
    left = right := by
  induction hleft generalizing right with
  | nil =>
      cases hright
      rfl
  | cons hentry hrest ih =>
      cases hright with
      | cons hentry' hrest' =>
          rw [hentry, Except.ok.injEq] at hentry'
          rw [hentry', ih hrest']

/-! ## What a decoded command can write -/

theorem decodeCommand_eq_store_iff {cmd : Bytes} {items : List StoreBatchItem} :
    decodeCommand cmd = .ok (.store items) ↔
      unmarshalStoreBatchCmd cmd = .ok items := by
  constructor
  · intro hdecode
    have hexplains := explains_decodeCommand cmd
    rwa [hdecode] at hexplains
  · intro hitems
    obtain ⟨-, -, rest, hcmd⟩ := unmarshalStoreBatchCmd_eq_ok_iff.mp hitems
    rw [encodeStoreBatch, List.append_assoc, List.append_assoc,
      List.singleton_append] at hcmd
    obtain ⟨tail, rfl⟩ : ∃ tail, cmd = 0 :: tail := ⟨_, hcmd⟩
    simp only [decodeCommand, commandType_eq_storeBatch.mpr rfl, hitems]

theorem decodeCommand_eq_delete_iff {cmd : Bytes} {keys : List Bytes} :
    decodeCommand cmd = .ok (.delete keys) ↔
      unmarshalDeleteBatchCmd cmd = .ok keys := by
  constructor
  · intro hdecode
    have hexplains := explains_decodeCommand cmd
    rwa [hdecode] at hexplains
  · intro hkeys
    obtain ⟨-, -, rest, hcmd⟩ := unmarshalDeleteBatchCmd_eq_ok_iff.mp hkeys
    rw [encodeDeleteBatch, List.append_assoc, List.append_assoc,
      List.singleton_append] at hcmd
    obtain ⟨tail, rfl⟩ : ∃ tail, cmd = 1 :: tail := ⟨_, hcmd⟩
    simp only [decodeCommand, commandType_eq_deleteBatch.mpr rfl, hkeys]

/-- The decoders only let lengths through that fit their fields. -/
def Command.Sound : Command → Prop
  | .store items => ∀ item ∈ items, Fits item
  | .delete keys => ∀ key ∈ keys, key.length = 24
  | .skip => True

theorem sound_of_decodeCommand {cmd : Bytes} {command : Command}
    (hdecode : decodeCommand cmd = .ok command) : command.Sound := by
  cases command with
  | store items =>
      exact (unmarshalStoreBatchCmd_eq_ok_iff.mp
        (decodeCommand_eq_store_iff.mp hdecode)).2.1
  | delete keys =>
      exact (unmarshalDeleteBatchCmd_eq_ok_iff.mp
        (decodeCommand_eq_delete_iff.mp hdecode)).2.1
  | skip => trivial

/-- The items of the store commands, in log order. -/
def storedItems (entries : List Entry) : List StoreBatchItem :=
  entries.flatMap fun entry =>
    match unmarshalStoreBatchCmd entry.cmd with
    | .ok items => items
    | .error _ => []

theorem Carries.logItems_eq {entries : List Entry} {commands : List Command}
    (hcarries : Carries entries commands) : logItems commands = storedItems entries := by
  induction hcarries with
  | nil => rfl
  | @cons entry command entries commands hentry hrest ih =>
      have hitems : command.items = storedItems [entry] := by
        rw [storedItems, List.flatMap_singleton]
        cases hstore : unmarshalStoreBatchCmd entry.cmd with
        | ok items =>
            rw [decodeCommand_eq_store_iff.mpr hstore, Except.ok.injEq] at hentry
            rw [← hentry]
            rfl
        | error err =>
            cases command with
            | store items =>
                rw [decodeCommand_eq_store_iff.mp hentry] at hstore
                cases hstore
            | delete keys => rfl
            | skip => rfl
      calc logItems (command :: commands)
          = command.items ++ logItems commands := by rw [logItems, List.flatMap_cons]; rfl
        _ = storedItems [entry] ++ storedItems entries := by rw [hitems, ih]
        _ = storedItems (entry :: entries) := by simp [storedItems]

theorem Carries.exists_entry {entries : List Entry} {commands : List Command}
    (hcarries : Carries entries commands) {command : Command}
    (hcommand : command ∈ commands) :
    ∃ entry ∈ entries, decodeCommand entry.cmd = .ok command := by
  induction hcarries with
  | nil => cases hcommand
  | @cons entry first entries commands hentry hrest ih =>
      rcases List.mem_cons.mp hcommand with rfl | hlater
      · exact ⟨entry, List.mem_cons_self, hentry⟩
      · obtain ⟨other, hother, hdecode⟩ := ih hlater
        exact ⟨other, List.mem_cons_of_mem _ hother, hdecode⟩

/-- Every index of the items of a list of entries satisfies `allowed`. -/
def IndexesMeet (allowed : Bytes → Prop) (entries : List Entry) : Prop :=
  ∀ entry ∈ entries, ∀ items, unmarshalStoreBatchCmd entry.cmd = .ok items →
    ∀ item ∈ items, ∀ idx ∈ item.indexes, allowed idx

instance (allowed : Bytes → Prop) [DecidablePred allowed]
    (entries : List Entry) : Decidable (IndexesMeet allowed entries) :=
  inferInstanceAs (Decidable (∀ entry ∈ entries, ∀ items,
    unmarshalStoreBatchCmd entry.cmd = .ok items →
      ∀ item ∈ items, ∀ idx ∈ item.indexes, allowed idx))

/-- No entry of the list stores a message. -/
def StoresNothing (entries : List Entry) : Prop :=
  ∀ entry ∈ entries, ∀ items,
    unmarshalStoreBatchCmd entry.cmd = .ok items → items = []

theorem Carries.sound {entries : List Entry} {commands : List Command}
    (hcarries : Carries entries commands) :
    ∀ command ∈ commands, command.Sound := by
  induction hcarries with
  | nil => simp
  | cons hentry hrest ih =>
      exact List.forall_mem_cons.mpr ⟨sound_of_decodeCommand hentry, ih⟩

theorem Carries.mem_logItems {entries : List Entry} {commands : List Command}
    (hcarries : Carries entries commands) {item : StoreBatchItem} :
    item ∈ logItems commands ↔
      ∃ entry ∈ entries, ∃ items,
        unmarshalStoreBatchCmd entry.cmd = .ok items ∧ item ∈ items := by
  induction hcarries with
  | nil => simp [logItems]
  | @cons entry command entries commands hentry hrest ih =>
      have hhead : item ∈ command.items ↔
          ∃ items, unmarshalStoreBatchCmd entry.cmd = .ok items ∧ item ∈ items := by
        simp only [← decodeCommand_eq_store_iff, hentry, Except.ok.injEq]
        cases command <;> simp [Command.items]
      simp only [logItems, List.flatMap_cons, List.mem_append,
        List.exists_mem_cons_iff, hhead]
      exact or_congr Iff.rfl ih

theorem Carries.indexesMeet_iff {entries : List Entry} {commands : List Command}
    (hcarries : Carries entries commands) {allowed : Bytes → Prop} :
    IndexesMeet allowed entries ↔
      ∀ item ∈ logItems commands, ∀ idx ∈ item.indexes, allowed idx := by
  constructor
  · intro hmeet item hitem
    obtain ⟨entry, hentry, items, hitems, hmem⟩ := hcarries.mem_logItems.mp hitem
    exact hmeet entry hentry items hitems item hmem
  · intro hall entry hentry items hitems item hitem
    exact hall item (hcarries.mem_logItems.mpr ⟨entry, hentry, items, hitems, hitem⟩)

theorem Carries.storesNothing_iff {entries : List Entry}
    {commands : List Command} (hcarries : Carries entries commands) :
    StoresNothing entries ↔ logItems commands = [] := by
  rw [List.eq_nil_iff_forall_not_mem]
  constructor
  · intro hnothing item hitem
    obtain ⟨entry, hentry, items, hitems, hmem⟩ := hcarries.mem_logItems.mp hitem
    rw [hnothing entry hentry items hitems] at hmem
    exact absurd hmem List.not_mem_nil
  · intro hnone entry hentry items hitems
    apply List.eq_nil_iff_forall_not_mem.mpr
    intro item hitem
    exact hnone item (hcarries.mem_logItems.mpr ⟨entry, hentry, items, hitems, hitem⟩)

/-- Where the writes of a run of stores go: the counter record, the event keys
with the message bytes, and the indexes with an event key. -/
theorem mem_storeOps {lastID : UInt64} {items : List StoreBatchItem}
    {key value : Bytes} (hset : BatchOp.set key value ∈ storeOps lastID items) :
    (∃ id, key = eventsLastIDKey ∧ value = putUint64 id) ∨
      (key ∈ storeKeys lastID items ∧ ∃ item ∈ items, value = item.msg) ∨
      (value ∈ storeKeys lastID items ∧ ∃ item ∈ items, key ∈ item.indexes) := by
  induction items generalizing lastID with
  | nil => simp [storeOps] at hset
  | cons item items ih =>
      simp only [storeOps, eventOps, List.mem_append, List.mem_cons,
        BatchOp.set.injEq, List.mem_map] at hset
      rcases hset with (⟨rfl, rfl⟩ | ⟨rfl, rfl⟩ | ⟨idx, hidx, rfl, rfl⟩) | hrest
      · exact Or.inl ⟨_, rfl, rfl⟩
      · exact Or.inr (Or.inl ⟨List.mem_cons_self, item, List.mem_cons_self, rfl⟩)
      · exact Or.inr (Or.inr ⟨List.mem_cons_self, item, List.mem_cons_self, hidx⟩)
      · rcases ih hrest with hrecord | ⟨hkey, other, hother, hmsg⟩ |
          ⟨hvalue, other, hother, hidx⟩
        · exact Or.inl hrecord
        · exact Or.inr (Or.inl ⟨List.mem_cons_of_mem _ hkey, other,
            List.mem_cons_of_mem _ hother, hmsg⟩)
        · exact Or.inr (Or.inr ⟨List.mem_cons_of_mem _ hvalue, other,
            List.mem_cons_of_mem _ hother, hidx⟩)

theorem set_of_mem_storeOps {lastID : UInt64} {items : List StoreBatchItem}
    {op : Op} (hop : op ∈ storeOps lastID items) :
    ∃ key value, op = .set key value := by
  induction items generalizing lastID with
  | nil => simp [storeOps] at hop
  | cons item items ih =>
      rcases List.mem_append.mp hop with hevent | hlater
      · simp only [eventOps, List.mem_cons, List.mem_map] at hevent
        rcases hevent with rfl | rfl | ⟨idx, -, rfl⟩
        · exact ⟨_, _, rfl⟩
        · exact ⟨_, _, rfl⟩
        · exact ⟨_, _, rfl⟩
      · exact ih hlater

/-- Every event key of a run of stores is written. -/
theorem exists_set_of_mem_storeKeys {lastID : UInt64}
    {items : List StoreBatchItem} {key : Bytes}
    (hkey : key ∈ storeKeys lastID items) :
    ∃ value, BatchOp.set key value ∈ storeOps lastID items := by
  induction items generalizing lastID with
  | nil => exact absurd hkey List.not_mem_nil
  | cons item items ih =>
      rcases List.mem_cons.mp hkey with rfl | hlater
      · exact ⟨item.msg, by simp [storeOps, eventOps]⟩
      · obtain ⟨value, hset⟩ := ih hlater
        exact ⟨value, List.mem_append_right _ hset⟩

theorem logKeys_cons (lastID : UInt64) (command : Command)
    (commands : List Command) :
    logKeys lastID (command :: commands) =
      storeKeys lastID command.items ++
        logKeys (advance lastID command.items.length) commands := by
  simp only [logKeys, logItems, List.flatMap_cons, storeKeys_append]

/-- The same for a whole log: deletes write nothing. -/
theorem mem_logOps {lastID : UInt64} {commands : List Command}
    {key value : Bytes} (hset : BatchOp.set key value ∈ logOps lastID commands) :
    (∃ id, key = eventsLastIDKey ∧ value = putUint64 id) ∨
      (key ∈ logKeys lastID commands ∧
        ∃ item ∈ logItems commands, value = item.msg) ∨
      (value ∈ logKeys lastID commands ∧
        ∃ item ∈ logItems commands, key ∈ item.indexes) := by
  induction commands generalizing lastID with
  | nil => simp [logOps] at hset
  | cons command commands ih =>
      have hops : BatchOp.set key value ∈ command.ops lastID →
          BatchOp.set key value ∈ storeOps lastID command.items := by
        cases command <;> simp [Command.ops, Command.items]
      simp only [logKeys_cons, logItems, List.flatMap_cons, List.mem_append]
      rw [logOps, List.mem_append] at hset
      rcases hset with hhead | htail
      · rcases mem_storeOps (hops hhead) with hrecord | ⟨hkey, item, hitem, hmsg⟩ |
          ⟨hvalue, item, hitem, hidx⟩
        · exact Or.inl hrecord
        · exact Or.inr (Or.inl ⟨Or.inl hkey, item, Or.inl hitem, hmsg⟩)
        · exact Or.inr (Or.inr ⟨Or.inl hvalue, item, Or.inl hitem, hidx⟩)
      · rcases ih htail with hrecord | ⟨hkey, item, hitem, hmsg⟩ |
          ⟨hvalue, item, hitem, hidx⟩
        · exact Or.inl hrecord
        · exact Or.inr (Or.inl ⟨Or.inr hkey, item, Or.inr hitem, hmsg⟩)
        · exact Or.inr (Or.inr ⟨Or.inr hvalue, item, Or.inr hitem, hidx⟩)

theorem exists_delete_of_mem_logOps {lastID : UInt64} {commands : List Command}
    {key : Bytes} (hdelete : BatchOp.delete key ∈ logOps lastID commands) :
    ∃ keys, Command.delete keys ∈ commands ∧ key ∈ keys := by
  induction commands generalizing lastID with
  | nil => simp [logOps] at hdelete
  | cons command commands ih =>
      rw [logOps, List.mem_append] at hdelete
      rcases hdelete with hhead | htail
      · cases command with
        | store items =>
            obtain ⟨_, _, heq⟩ := set_of_mem_storeOps hhead
            cases heq
        | delete keys =>
            have hkey : key ∈ keys := by simpa [Command.ops] using hhead
            exact ⟨keys, List.mem_cons_self, hkey⟩
        | skip => simp [Command.ops] at hhead
      · obtain ⟨keys, hcommand, hkey⟩ := ih htail
        exact ⟨keys, List.mem_cons_of_mem _ hcommand, hkey⟩

theorem exists_eventKey_of_mem_storeKeys {lastID : UInt64}
    {items : List StoreBatchItem} {key : Bytes}
    (hkey : key ∈ storeKeys lastID items) :
    ∃ bucket topicHash eventID, key = eventKey bucket topicHash eventID := by
  induction items generalizing lastID with
  | nil => simp [storeKeys] at hkey
  | cons item items ih =>
      rcases List.mem_cons.mp hkey with rfl | hrest
      · exact ⟨_, _, _, rfl⟩
      · exact ih hrest

theorem length_of_mem_storeKeys {lastID : UInt64} {items : List StoreBatchItem}
    {key : Bytes} (hkey : key ∈ storeKeys lastID items) : key.length = 24 := by
  obtain ⟨bucket, topicHash, eventID, rfl⟩ := exists_eventKey_of_mem_storeKeys hkey
  simp

theorem length_of_mem_logKeys {lastID : UInt64} {commands : List Command}
    {key : Bytes} (hkey : key ∈ logKeys lastID commands) : key.length = 24 :=
  length_of_mem_storeKeys hkey

end FutureQ.Journal
