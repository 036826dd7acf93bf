import FutureQ.Core.Mailbox
import FutureQ.Broker.AllOrNothing
import FutureQ.Event.KeySpace

/-!
# What a replica stores, seen from outside

To its users the event shard is a mailbox: a store command posts messages, a delete
command settles the entries whose keys it names, and everything else leaves the
mailbox alone.  The event key of an entry is made of its message and its ticket.
The state machine works on one ordered keyspace with a 64-bit counter and batches;
`replica_refines_mailbox` shows that over any calls and restarts its event records
are the waiting entries of the mailbox, as long as the tickets fit the counter and
no index of a message looks like another record.
-/

namespace FutureQ.Backlog

open FutureQ.ByteOrder
open FutureQ.GoRuntime
open FutureQ.OrderedStore
open FutureQ.Mailbox
open FutureQ.Transition
open FutureQ.Storage
open FutureQ.Keys
open FutureQ.Repository
open FutureQ.Commands
open FutureQ.CommandCodec
open FutureQ.StateMachine
open FutureQ.Journal
open FutureQ.Replica
open FutureQ.Freshness
open FutureQ.KeySpace

/-- The event key of an entry. -/
def tag (entry : ℕ × StoreBatchItem) : Bytes :=
  eventKey entry.2.bucket entry.2.topicHash (UInt64.ofNat entry.1)

def request : Command → Request StoreBatchItem
  | .store items => .post items
  | .delete keys => .settle fun entry => decide (tag entry ∈ keys)
  | .skip => .post []

/-- What an action asks of the mailbox; a call that panics is not applied. -/
def requests : Replica.Action → List (Request StoreBatchItem)
  | .restart => []
  | .update call =>
      match call.entries.mapM fun entry => decodeCommand entry.cmd with
      | .error _ => []
      | .ok commands => commands.map request

/-- The event records of the database are the entries that wait. -/
def Holds (db : DB) (box : Box StoreBatchItem) : Prop :=
  ∀ key value, key.length = 24 →
    (db[key]? = some value ↔
      ∃ entry ∈ box.waiting, tag entry = key ∧ entry.2.msg = value)

/-- The requests keep the tickets below `2 ^ 64`, and no index they post can be
taken for an event key or for metadata. -/
structure Clean (box : Box StoreBatchItem) (requests : List (Request StoreBatchItem)) :
    Prop where
  foreign : ∀ item ∈ requests.flatMap Request.msgs, ∀ idx ∈ item.indexes, Foreign idx
  room : (box.play requests).posted < 2 ^ 64

/-! ## Tickets and event IDs -/

theorem msgs_request (command : Command) : (request command).msgs = command.items := by
  cases command with
  | store items => rfl
  | delete keys => rfl
  | skip => rfl

theorem flatMap_msgs_request (commands : List Command) :
    (commands.map request).flatMap Request.msgs = logItems commands := by
  rw [List.flatMap_map, logItems]
  exact List.flatMap_congr fun command _ => msgs_request command

theorem ofNat_succ (last : ℕ) :
    UInt64.ofNat (last + 1) = UInt64.ofNat last + 1 := by
  rw [UInt64.ofNat_add]
  rfl

theorem storedBy_eq_map (last : ℕ) (items : List StoreBatchItem) :
    storedBy (UInt64.ofNat last) items =
      (ticketed last items).map fun entry => (tag entry, entry.2.msg) := by
  induction items generalizing last with
  | nil => rfl
  | cons item items ih =>
      have htail := ih (last + 1)
      rw [storedBy, ofNat_succ] at htail
      rw [storedBy, storeKeys, List.map_cons, List.zip_cons_cons, htail, ticketed,
        List.map_cons, tag, ofNat_succ]

theorem storeKeys_eq_map (last : ℕ) (items : List StoreBatchItem) :
    storeKeys (UInt64.ofNat last) items = (ticketed last items).map tag := by
  rw [← map_fst_storedBy, storedBy_eq_map, List.map_map]
  rfl

theorem length_tag (entry : ℕ × StoreBatchItem) : (tag entry).length = 24 :=
  length_eventKey _ _ _

/-- Below `2 ^ 64` the key tells the ticket. -/
theorem ticket_eq_of_tag {first second : ℕ × StoreBatchItem}
    (hfirst : first.1 < 2 ^ 64) (hsecond : second.1 < 2 ^ 64)
    (htag : tag first = tag second) : first.1 = second.1 := by
  have hid := congrArg eventIDOf htag
  rw [tag, tag, eventIDOf_eventKey, eventIDOf_eventKey] at hid
  have hnat := congrArg UInt64.toNat hid
  rwa [UInt64.toNat_ofNat_of_lt' hfirst, UInt64.toNat_ofNat_of_lt' hsecond] at hnat

/-! ## One command -/

section Command

variable {db : DB} {box : Box StoreBatchItem}

/-- A store leaves the keys of the entries before it alone. -/
theorem tag_not_mem_storeKeys {items : List StoreBatchItem}
    (hroom : box.posted + items.length < 2 ^ 64) {entry : ℕ × StoreBatchItem}
    (hentry : entry ∈ box.waiting) :
    tag entry ∉ storeKeys (UInt64.ofNat box.posted) items := by
  rw [storeKeys_eq_map]
  intro hkey
  obtain ⟨new, hnew, htag⟩ := List.mem_map.mp hkey
  have hold := (box.numbered entry hentry).2
  have hbounds := lt_of_mem_ticketed hnew
  have hticket := ticket_eq_of_tag (by omega) (by omega) htag
  omega

theorem Holds.store (hholds : Holds db box) {items : List StoreBatchItem}
    (hforeign : ∀ item ∈ items, ∀ idx ∈ item.indexes, Foreign idx)
    (hroom : box.posted + items.length < 2 ^ 64) :
    Holds (commit db (storeOps (UInt64.ofNat box.posted) items)) (box.post items) := by
  intro key value hlength
  constructor
  · intro hvalue
    rcases getElem?_commit_eq_some hvalue with hbefore | hset
    · obtain ⟨entry, hentry, hfound⟩ := (hholds key value hlength).mp hbefore
      exact ⟨entry, List.mem_append_left _ hentry, hfound⟩
    · have hstored := mem_storedBy_of_set (apart_of_foreign hforeign) hset hlength
      rw [storedBy_eq_map] at hstored
      obtain ⟨entry, hentry, heq⟩ := List.mem_map.mp hstored
      rw [Prod.mk.injEq] at heq
      exact ⟨entry, List.mem_append_right _ hentry, heq⟩
  · rintro ⟨entry, hentry, rfl, rfl⟩
    rcases List.mem_append.mp hentry with hold | hnew
    · rw [AllOrNothing.untouched_of_foreign hforeign hlength
        (tag_not_mem_storeKeys hroom hold)]
      exact (hholds _ _ hlength).mpr ⟨entry, hold, rfl, rfl⟩
    · have hstored : (tag entry, entry.2.msg) ∈
          storedBy (UInt64.ofNat box.posted) items := by
        rw [storedBy_eq_map]
        exact List.mem_map_of_mem hnew
      exact getElem?_of_mem_storedBy (apart_of_foreign hforeign) (by omega) hstored db

theorem Holds.delete (hholds : Holds db box) (keys : List Bytes) :
    Holds (commit db (keys.map .delete))
      (box.settle fun entry => decide (tag entry ∈ keys)) := by
  intro key value hlength
  have hwaiting : (∃ entry ∈ (box.settle fun entry => decide (tag entry ∈ keys)).waiting,
      tag entry = key ∧ entry.2.msg = value) ↔
        key ∉ keys ∧ ∃ entry ∈ box.waiting, tag entry = key ∧ entry.2.msg = value := by
    simp only [Box.settle, List.mem_filter, Bool.not_eq_true', decide_eq_false_iff_not]
    constructor
    · rintro ⟨entry, ⟨hentry, hkept⟩, rfl, rfl⟩
      exact ⟨hkept, entry, hentry, rfl, rfl⟩
    · rintro ⟨hkept, entry, hentry, rfl, rfl⟩
      exact ⟨entry, ⟨hentry, hkept⟩, rfl, rfl⟩
  rw [hwaiting, ← hholds key value hlength]
  by_cases hkey : key ∈ keys
  · simp [getElem?_commit_delete_mem db hkey, hkey]
  · rw [getElem?_commit_of_untouched]
    · simp [hkey]
    · intro op hop heq
      obtain ⟨other, hother, rfl⟩ := List.mem_map.mp hop
      exact hkey (heq ▸ hother)

theorem Holds.command (hholds : Holds db box) {command : Command}
    (hforeign : ∀ item ∈ command.items, ∀ idx ∈ item.indexes, Foreign idx)
    (hroom : box.posted + command.items.length < 2 ^ 64) :
    Holds (commit db (command.ops (UInt64.ofNat box.posted)))
      (box.apply (request command)) := by
  cases command with
  | store items => exact hholds.store hforeign hroom
  | delete keys => exact hholds.delete keys
  | skip =>
      intro key value hlength
      simpa [Command.ops, request, Box.apply, Box.post, ticketed] using
        hholds key value hlength

end Command

/-! ## A log -/

/-- A prefix of clean requests is clean, and so is what follows it. -/
theorem Clean.append_iff {box : Box StoreBatchItem}
    {first second : List (Request StoreBatchItem)} :
    Clean box (first ++ second) ↔ Clean box first ∧ Clean (box.play first) second := by
  constructor
  · rintro ⟨hforeign, hroom⟩
    rw [List.flatMap_append] at hforeign
    rw [Box.play_append, Box.posted_play] at hroom
    refine ⟨⟨fun item hitem => hforeign item (List.mem_append_left _ hitem), by omega⟩,
      ⟨fun item hitem => hforeign item (List.mem_append_right _ hitem), ?_⟩⟩
    rw [Box.posted_play]
    exact hroom
  · rintro ⟨hfirst, hsecond⟩
    refine ⟨?_, ?_⟩
    · intro item hitem
      rw [List.flatMap_append] at hitem
      exact (List.mem_append.mp hitem).elim (hfirst.foreign item) (hsecond.foreign item)
    · rw [Box.play_append]
      exact hsecond.room

theorem Holds.log {db : DB} {box : Box StoreBatchItem} (hholds : Holds db box)
    {commands : List Command} (hclean : Clean box (commands.map request)) :
    Holds (commit db (logOps (UInt64.ofNat box.posted) commands))
      (box.play (commands.map request)) := by
  induction commands generalizing db box with
  | nil => exact hholds
  | cons command commands ih =>
      have hsplit : (command :: commands).map request =
          [request command] ++ commands.map request := rfl
      rw [hsplit, Clean.append_iff] at hclean
      obtain ⟨hhead, htail⟩ := hclean
      have hposted := Box.posted_apply box (request command)
      rw [msgs_request] at hposted
      have hforeign : ∀ item ∈ command.items, ∀ idx ∈ item.indexes, Foreign idx := by
        intro item hitem
        apply hhead.foreign
        simpa [msgs_request] using hitem
      have hroom : box.posted + command.items.length < 2 ^ 64 :=
        hposted ▸ hhead.room
      have hnext := ih (hholds.command hforeign hroom) htail
      rw [hposted, UInt64.ofNat_add] at hnext
      rw [logOps, commit_append]
      exact hnext

/-! ## A replica -/

/-- The replica stands for the mailbox. -/
structure Stands (sm : EventStateMachine) (box : Box StoreBatchItem) : Prop where
  holds : Holds sm.db box
  counter : sm.repo.lastID = UInt64.ofNat box.posted
  settled : Settled sm

theorem stands_fresh (bucketSize : TimeBucketSize) :
    Stands ⟨∅, ⟨0, bucketSize⟩, 0⟩ .empty where
  holds key value _ := by simp [Box.empty]
  counter := rfl
  settled := start_empty bucketSize

theorem Stands.play {sm : EventStateMachine} {box : Box StoreBatchItem}
    (hstands : Stands sm box) {entries : List Entry} {commands : List Command}
    (hcarries : Carries entries commands)
    (hclean : Clean box (commands.map request)) :
    Stands (play sm entries commands) (box.play (commands.map request)) := by
  have hforeign : ∀ item ∈ logItems commands, ∀ idx ∈ item.indexes, Foreign idx := by
    rw [← flatMap_msgs_request]
    exact hclean.foreign
  refine ⟨?_, ?_, ?_⟩
  · intro key value hlength
    rw [← hstands.holds.log hclean key value hlength, ← hstands.counter]
    simp only [Journal.play, commit_append, commit_cons, commit_nil, BatchOp.apply]
    rw [getElem?_insert_ne (appliedIndexKey_ne_of_length hlength)]
  · rw [Box.posted_play, flatMap_msgs_request, UInt64.ofNat_add, ← hstands.counter]
    rfl
  · apply settled_play hstands.settled hcarries
    exact hcarries.indexesMeet_iff.mpr fun item hitem idx hidx =>
      (hforeign item hitem idx hidx).2

theorem mapM_decodeCommand_eq_ok_iff {entries : List Entry} {commands : List Command} :
    (entries.mapM fun entry => decodeCommand entry.cmd) = .ok commands ↔
      Carries entries commands :=
  mapM_eq_ok_iff

/-- Every action of a replica is a list of requests to the mailbox. -/
theorem Stands.step {node : Node} {box : Box StoreBatchItem}
    (hstands : Stands node.sm box) {action : Replica.Action}
    (hclean : Clean box (requests action)) :
    ∃ next, Replica.step node action = some next ∧
      Stands next.sm (box.play (requests action)) := by
  cases action with
  | restart => exact ⟨node, reboot_of_settled hstands.settled, hstands⟩
  | update call =>
      simp only [requests, Replica.step] at hclean ⊢
      cases hdecode : call.entries.mapM fun entry => decodeCommand entry.cmd with
      | ok commands =>
          rw [hdecode] at hclean
          have hcarries := mapM_decodeCommand_eq_ok_iff.mp hdecode
          rw [update_eq hcarries]
          exact ⟨_, rfl, hstands.play hcarries hclean⟩
      | error reason =>
          cases hupdate : update .pebble .none node.sm call.entries with
          | error panic => exact ⟨node, reboot_of_settled hstands.settled, hstands⟩
          | ok updated =>
              -- a call that returns has decoded all its entries
              obtain ⟨commands, hcarries, -⟩ := update_eq_ok_iff.mp hupdate
              rw [mapM_decodeCommand_eq_ok_iff.mpr hcarries] at hdecode
              cases hdecode

theorem Stands.exists_run {node : Node} {box : Box StoreBatchItem}
    (hstands : Stands node.sm box) {actions : List Replica.Action}
    (hclean : Clean box (actions.flatMap requests)) :
    ∃ finish, run Replica.step node actions = some finish ∧
      Stands finish.sm (box.play (actions.flatMap requests)) := by
  induction actions generalizing node box with
  | nil => exact ⟨node, rfl, hstands⟩
  | cons action actions ih =>
      rw [List.flatMap_cons, Clean.append_iff] at hclean
      obtain ⟨next, hstep, hnext⟩ := hstands.step hclean.1
      obtain ⟨finish, hrun, hfinish⟩ := ih hnext hclean.2
      rw [List.flatMap_cons, Box.play_append]
      exact ⟨finish, run_cons_eq_some.mpr ⟨next, hstep, hrun⟩, hfinish⟩

/-- Over every series of `Update` calls and restarts the event records of a replica
are the waiting entries of the mailbox that was asked for the same, and its counter
is the last ticket. -/
theorem replica_refines_mailbox (bucketSize : TimeBucketSize)
    {actions : List Replica.Action}
    (hclean : Clean .empty (actions.flatMap requests)) :
    ∃ node, run Replica.step (.fresh bucketSize) actions = some node ∧
      Holds node.sm.db (Box.empty.play (actions.flatMap requests)) ∧
      node.sm.repo.lastID.toNat =
        (Box.empty.play (actions.flatMap requests)).posted := by
  have hfresh : Stands (Node.fresh bucketSize).sm .empty := stands_fresh bucketSize
  obtain ⟨node, hrun, hstands⟩ := hfresh.exists_run hclean
  refine ⟨node, hrun, hstands.holds, ?_⟩
  rw [hstands.counter, UInt64.toNat_ofNat_of_lt' hclean.room]

/-- Two messages are stored, the node restarts, and the first of them is deleted. -/
def storeTwoDeleteOne : List Replica.Action :=
  [.update storeTwo, .restart, .update
    ⟨[⟨2, encodeDeleteBatch [eventKey 5 7 1]⟩], List.cons_ne_nil _ _⟩]

theorem replica_refines_mailbox_oneLeft :
    ∃ node, run Replica.step (.fresh ⟨0, valid_zero⟩) storeTwoDeleteOne = some node ∧
      Holds node.sm.db (Box.empty.play (storeTwoDeleteOne.flatMap requests)) ∧
      node.sm.repo.lastID.toNat = 2 ∧
      (Box.empty.play (storeTwoDeleteOne.flatMap requests)).waiting =
        [(2, ⟨5, 7, [], [3]⟩)] := by
  have hclean : Clean .empty (storeTwoDeleteOne.flatMap requests) :=
    ⟨by decide +kernel, by decide +kernel⟩
  obtain ⟨node, hrun, hholds, hcounter⟩ :=
    replica_refines_mailbox ⟨0, valid_zero⟩ hclean
  exact ⟨node, hrun, hholds, hcounter.trans (by decide +kernel), by decide +kernel⟩

end FutureQ.Backlog
