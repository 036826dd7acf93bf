import FutureQ.Core.RetryQueue
import FutureQ.Event.Journal

/-!
# The batched deleter

`Deleter` collects the keys of acknowledged and expired messages and flushes
them through a backend.  The standalone backend deletes the keys in one batch
of its own; the Raft backend encodes them in one delete command and proposes
it.  A proposal is accepted after `Update` has applied the command, is
rejected, or times out although the command is applied later.
-/

namespace FutureQ.Deleter

open FutureQ.ByteOrder
open FutureQ.GoRuntime
open FutureQ.OrderedStore
open FutureQ.RetryQueue
open FutureQ.Storage
open FutureQ.Keys
open FutureQ.Commands
open FutureQ.CommandCodec
open FutureQ.StateMachine
open FutureQ.Journal

/-- `append` panics beyond this many slice headers. -/
def pendingCapacity : ℕ := maxAlloc / sliceHeaderSize

/-- `directDeleteBackend.DeleteKeys`; failed deletes are logged and skipped. -/
def directDeleteKeys (engine : Engine) (faults : Faults) (db : DB)
    (keys : List Bytes) : Except StorageError DB :=
  engine.commit faults db (StateMachine.deleteKeys faults keys newBatch).2

inductive Proposal where
  | accepted (index : UInt64)
  | rejected
  | lost (index : UInt64)
  deriving DecidableEq, Repr

/-- What a `DeleteKeys` call did: whether it returned `nil`, the replica, and the
keys that the state machine passed to `OnDeleteKeys` meanwhile. -/
structure Deletion where
  accepted : Bool
  sm : EventStateMachine
  reported : List Bytes

/-- `raftDeleteBackend.DeleteKeys`; `none` is a panic. -/
def raftDeleteKeys (sm : EventStateMachine) (keys : List Bytes)
    (proposal : Proposal) : Option Deletion :=
  match marshalDeleteBatchCmd keys with
  | .error (.panic _) => none
  | .error (.error _) => some ⟨false, sm, []⟩
  | .ok cmd =>
      let applied (accepted : Bool) (index : UInt64) : Option Deletion :=
        match update .pebble .none sm [⟨index, cmd⟩] with
        | .error _ => none
        | .ok updated => some ⟨accepted, updated.sm, updated.deleted⟩
      match proposal with
      | .accepted index => applied true index
      | .rejected => some ⟨false, sm, []⟩
      | .lost index => applied false index

theorem pendingCapacity_eq : pendingCapacity = 11728124029610 := by decide

theorem directDeleteKeys_none (db : DB) (keys : List Bytes) :
    directDeleteKeys .pebble .none db keys = .ok (commit db (keys.map .delete)) := by
  rw [directDeleteKeys, deleteKeys_none, commit_pebble]
  simp [newBatch, Batch.push]

theorem mul_le_maxAlloc {length : ℕ} (hroom : length ≤ pendingCapacity) :
    sliceHeaderSize * length ≤ maxAlloc :=
  (Nat.mul_le_mul_left _ hroom).trans (Nat.mul_div_le _ _)

/-- The replica after a delete command. -/
def afterDelete (sm : EventStateMachine) (index : UInt64) (keys : List Bytes) :
    EventStateMachine :=
  play sm [⟨index, encodeDeleteBatch keys⟩] [.delete keys]

theorem db_afterDelete (sm : EventStateMachine) (index : UInt64)
    (keys : List Bytes) :
    (afterDelete sm index keys).db =
      commit (commit sm.db (keys.map .delete))
        [.set appliedIndexKey (putUint64 index)] := by
  have hops : logOps sm.repo.lastID [.delete keys] = keys.map .delete := by
    simp [logOps, Command.ops]
  rw [afterDelete, play, hops, commit_append]
  rfl

theorem carries_encodeDeleteBatch {keys : List Bytes}
    (hkeys : ∀ key ∈ keys, key.length = 24) (hroom : keys.length ≤ pendingCapacity)
    (index : UInt64) :
    Carries [⟨index, encodeDeleteBatch keys⟩] [.delete keys] := by
  have hdecode : decodeCommand (encodeDeleteBatch keys) = .ok (.delete keys) :=
    decodeCommand_eq_delete_iff.mpr
      (unmarshalDeleteBatchCmd_encode (mul_le_maxAlloc hroom) hkeys)
  exact .cons hdecode .nil

theorem raftDeleteKeys_of_carries {keys : List Bytes} {cmd : Bytes}
    (hcmd : marshalDeleteBatchCmd keys = .ok cmd)
    (hcarries : ∀ index, Carries [⟨index, cmd⟩] [.delete keys])
    (sm : EventStateMachine) (proposal : Proposal) :
    raftDeleteKeys sm keys proposal = some (match proposal with
      | .accepted index => ⟨true, play sm [⟨index, cmd⟩] [.delete keys], keys⟩
      | .rejected => ⟨false, sm, []⟩
      | .lost index => ⟨false, play sm [⟨index, cmd⟩] [.delete keys], keys⟩) := by
  rw [raftDeleteKeys, hcmd]
  cases proposal with
  | rejected => rfl
  | accepted index =>
      simp only [update_eq (hcarries index)]
      simp [report, Command.deleted]
  | lost index =>
      simp only [update_eq (hcarries index)]
      simp [report, Command.deleted]

/-- With keys of 24 bytes the Raft backend does what the proposal does. -/
theorem raftDeleteKeys_of_lengths {keys : List Bytes}
    (hkeys : ∀ key ∈ keys, key.length = 24) (hroom : keys.length ≤ pendingCapacity)
    (sm : EventStateMachine) (proposal : Proposal) :
    raftDeleteKeys sm keys proposal = some (match proposal with
      | .accepted index => ⟨true, afterDelete sm index keys, keys⟩
      | .rejected => ⟨false, sm, []⟩
      | .lost index => ⟨false, afterDelete sm index keys, keys⟩) :=
  raftDeleteKeys_of_carries (marshalDeleteBatchCmd_eq hkeys)
    (carries_encodeDeleteBatch hkeys hroom) sm proposal

/-- One key of another length makes the encoder refuse the whole batch. -/
theorem raftDeleteKeys_of_bad {keys : List Bytes}
    (hbad : ∃ key ∈ keys, key.length ≠ 24) (sm : EventStateMachine)
    (proposal : Proposal) :
    raftDeleteKeys sm keys proposal = some ⟨false, sm, []⟩ := by
  obtain ⟨length, herror⟩ := marshalDeleteBatchCmd_error hbad
  rw [raftDeleteKeys, herror]

theorem raftDeleteKeys_accepted {sm : EventStateMachine} {keys : List Bytes}
    {proposal : Proposal} {deletion : Deletion}
    (hcall : raftDeleteKeys sm keys proposal = some deletion)
    (haccepted : deletion.accepted = true) : ∀ key ∈ keys, key.length = 24 := by
  by_contra hbad
  push Not at hbad
  rw [raftDeleteKeys_of_bad hbad] at hcall
  cases hcall
  cases haccepted

/-- A delete command leaves none of its keys in the replica. -/
theorem getElem?_afterDelete {keys : List Bytes}
    (hkeys : ∀ key ∈ keys, key.length = 24) (sm : EventStateMachine)
    (index : UInt64) {key : Bytes} (hkey : key ∈ keys) :
    (afterDelete sm index keys).db[key]? = none := by
  rw [db_afterDelete, getElem?_commit_of_untouched]
  · exact getElem?_commit_delete_mem _ hkey
  · intro op hop
    rw [List.mem_singleton.mp hop]
    exact appliedIndexKey_ne_of_length (hkeys key hkey)

end FutureQ.Deleter
