import FutureQ.Broker.Acknowledged
import FutureQ.Cluster.SharedLog

/-!
# From a confirmed publish to every replica

`confirmed_message_survives` follows a message through the whole cluster.  Once its batch
was answered with success, every replica that has applied the log up to the batch holds
the message under its key, or a consumer has acknowledged that key, or a scan found this
very message expired.
-/

namespace FutureQ.Durability

open FutureQ.ByteOrder
open FutureQ.GoRuntime
open FutureQ.OrderedStore
open FutureQ.Mailbox
open FutureQ.Transition
open FutureQ.Storage
open FutureQ.Keys
open FutureQ.Repository
open FutureQ.Commands
open FutureQ.CommandCodec
open FutureQ.StateMachine
open FutureQ.Producer
open FutureQ.Dispatch
open FutureQ.Backlog
open FutureQ.Acknowledged
open FutureQ.PublishStream (Submission)
open FutureQ.StreamOrder
open FutureQ.Failover (Cluster Deletes requestsOf itemsOf mailbox appliedBy)
open FutureQ.SharedLog

variable {Index : Type}

/-- The batch at `position` of a stream asked for the quorum and was answered with
success; `msg` is its message at `place`. -/
structure Confirmed (system : System Index) (stream position place : ℕ)
    (frame : PublishStream.Frame Index) (msg : Message Index) : Prop where
  received : (system.streams.streams stream).frames[position]? = some frame
  quorum : frame.batch.ackLevel = .quorum
  answered : (system.streams.streams stream).acks[position]? = some ⟨true⟩
  message : frame.batch.messages[place]? = some msg

/-- The log stores the message at `place` of a batch with its entry at `index`. -/
def Filed (layout : Layout) (stream position place : ℕ) (index : UInt64)
    (key value : Bytes) : Prop :=
  ∃ before entry submission after earlier item later,
    layout = before ++ (entry, some submission) :: after ∧
      submission.ticket = (stream, position) ∧ entry.index = index ∧
      unmarshalStoreBatchCmd submission.cmdBytes = .ok (earlier ++ item :: later) ∧
      earlier.length = place ∧ item.msg = value ∧
      key = keyOf item ((itemsOf (before.map Prod.fst)).length + place + 1)

/-- The database holds the message, or a client acknowledged it, or it has expired. -/
def Accounted (lib : Libraries Index) (history : List Cause) (db : DB)
    (key value : Bytes) : Prop :=
  db[key]? = some value ∨
    (∃ id consumer, .acked id consumer key ∈ history) ∨
    ∃ id nowMs msg, .expired id nowMs key ∈ history ∧ lib.unmarshal value = some msg ∧
      isExpired msg nowMs = true

section Confirmed

variable {lib : Libraries Index} {bucketSize : TimeBucketSize} {system : System Index}

/-- A number belongs to one message of one submission. -/
theorem numbers_inj {layout : Layout} {log : List Submission} (hlays : Lays layout log)
    {first second : Submission} {place other number : ℕ}
    {item otherItem : StoreBatchItem} (hfirst : Numbers layout first place item number)
    (hsecond : Numbers layout second other otherItem number) :
    first = second ∧ place = other := by
  obtain ⟨before, entry, after, earlier, later, hlayout, hitems, rfl, hnumber⟩ := hfirst
  obtain ⟨others, stored, rest, sooner, final, hother, hstored, rfl, hsame⟩ := hsecond
  have hown := hlays.items_mem hlayout hitems
  have hotherOwn := hlays.items_mem hother hstored
  rcases places_cases (hlayout.symm.trans hother) with
    ⟨middle, rfl⟩ | ⟨rfl, hpair⟩ | ⟨middle, rfl⟩
  · rw [itemsOf_map_place, hown] at hsame
    simp only [List.length_append, List.length_cons] at hsame
    omega
  · rw [Prod.mk.injEq, Option.some.injEq] at hpair
    exact ⟨hpair.2, by omega⟩
  · rw [itemsOf_map_place, hotherOwn] at hnumber
    simp only [List.length_append, List.length_cons] at hnumber
    omega

theorem Filed.numbers {layout : Layout} {stream position place : ℕ} {index : UInt64}
    {key value : Bytes} (hfiled : Filed layout stream position place index key value) :
    ∃ submission item number, submission.ticket = (stream, position) ∧
      Numbers layout submission place item number ∧ key = keyOf item number := by
  obtain ⟨before, entry, submission, after, earlier, item, later, hlayout, hticket, -,
    hitems, hplace, -, hkey⟩ := hfiled
  exact ⟨submission, item, _, hticket,
    ⟨before, entry, after, earlier, later, hlayout, hitems, hplace, rfl⟩, hkey⟩

theorem ticket_eq_of_keyOf {first second : ℕ} {item other : StoreBatchItem}
    (hfirst : first < 2 ^ 64) (hsecond : second < 2 ^ 64)
    (hkey : keyOf item first = keyOf other second) : first = second := by
  have htag : tag (first, item) = tag (second, other) := hkey
  exact ticket_eq_of_tag hfirst hsecond htag

/-- No two messages are stored under one key. -/
theorem filed_inj {layout : Layout} {log : List Submission} (hlays : Lays layout log)
    (hroom : (itemsOf (layout.map Prod.fst)).length < 2 ^ 64)
    {stream position place : ℕ} {index : UInt64} {key value : Bytes}
    {otherStream otherPosition otherPlace : ℕ} {otherIndex : UInt64} {otherValue : Bytes}
    (hfirst : Filed layout stream position place index key value)
    (hsecond : Filed layout otherStream otherPosition otherPlace otherIndex key
      otherValue) :
    stream = otherStream ∧ position = otherPosition ∧ place = otherPlace := by
  obtain ⟨submission, item, number, hticket, hnumbers, hkey⟩ := hfirst.numbers
  obtain ⟨other, otherItem, otherNumber, hotherTicket, hotherNumbers, hotherKey⟩ :=
    hsecond.numbers
  have hnumber : number = otherNumber := by
    apply ticket_eq_of_keyOf _ _ (hkey.symm.trans hotherKey)
    · exact lt_of_le_of_lt (hnumbers.le_length hlays) hroom
    · exact lt_of_le_of_lt (hotherNumbers.le_length hlays) hroom
  subst hnumber
  obtain ⟨rfl, hplace⟩ := numbers_inj hlays hnumbers hotherNumbers
  have hsame := hticket.symm.trans hotherTicket
  rw [Prod.mk.injEq] at hsame
  exact ⟨hsame.1, hsame.2, hplace⟩

/-- A batch that was confirmed stands in the log, and its messages in it. -/
theorem filed_of_confirmed (hsound : Sound lib bucketSize system) {stream position place : ℕ}
    {frame : PublishStream.Frame Index} {msg : Message Index}
    (hconfirmed : Confirmed system stream position place frame msg)
    (hsizes : ∀ other ∈ frame.batch.messages, SizesFit lib frame.nowMs other) :
    ∃ index key value eventID,
      Filed system.layout stream position place index key value ∧
      key = messageKey lib bucketSize frame.nowMs msg eventID ∧
      lib.marshal (storedMessage frame.nowMs msg) = .ok value := by
  have hledger := hsound.streams.ledger
  obtain ⟨submission, hlogged, hticket⟩ := List.mem_map.mp
    (hledger.acked stream position frame hconfirmed.received hconfirmed.quorum
      hconfirmed.answered)
  obtain ⟨known, hknown, -, hcommands⟩ :=
    hledger.known submission (List.mem_append_right _ hlogged)
  have hframe : known = frame := by
    rw [Submission.ticket, Prod.mk.injEq] at hticket
    rw [hticket.1, hticket.2, hconfirmed.received] at hknown
    exact (Option.some.inj hknown).symm
  subst hframe
  obtain ⟨items, hbecome, halloc, hcmd⟩ := exists_items_of_commands hcommands
  have hfits : ∀ item ∈ items, Fits item := by
    intro item hitem
    obtain ⟨source, hsource, hitemOf⟩ := exists_mem_of_forall₂ hbecome hitem
    exact fits_of_becomes (hsizes source hsource) hitemOf
  obtain ⟨hbound, hget⟩ := List.getElem?_eq_some_iff.mp hconfirmed.message
  have hsplit : known.batch.messages = known.batch.messages.take place ++
      msg :: known.batch.messages.drop (place + 1) := by
    rw [← hget, List.cons_getElem_drop_succ, List.take_append_drop]
  rw [hsplit] at hbecome
  obtain ⟨earlier, item, later, rfl, hlength, hitem, -⟩ := exists_split_of_becomes hbecome
  have hplace : earlier.length = place := by
    rw [hlength, List.length_take]
    omega
  obtain ⟨hbucket, hhash, -, hdata⟩ := raftItem_eq_ok_iff.mp hitem.2.2
  rw [← hsound.lays.log] at hlogged
  obtain ⟨⟨entry, mark⟩, hentry, rfl⟩ := List.mem_filterMap.mp hlogged
  obtain ⟨before, after, hlayout⟩ := List.append_of_mem hentry
  refine ⟨entry.index, _, item.msg, UInt64.ofNat
    ((itemsOf (before.map Prod.fst)).length + place + 1),
    ⟨before, entry, submission, after, earlier, item, later, hlayout, hticket, rfl, ?_,
      hplace, rfl, rfl⟩, ?_, hdata⟩
  · rw [hcmd]
    exact unmarshalStoreBatchCmd_encode halloc hfits
  · rw [keyOf, messageKey, hbucket, hhash]
    rfl

/-- What the log stores is on every replica that has come so far, or is accounted for. -/
theorem accounted_of_filed (hsound : Sound lib bucketSize system)
    (hroom : (itemsOf system.cluster.log).length < 2 ^ 64) {stream position place : ℕ}
    {index : UInt64} {key value : Bytes}
    (hfiled : Filed system.layout stream position place index key value) {id : UInt64}
    {member : Failover.Member} (hmember : system.cluster.members[id]? = some member)
    (happlied : index ≤ member.sm.lastApplied) :
    Accounted lib system.history member.sm.db key value := by
  obtain ⟨before, entry, submission, after, earlier, item, later, hlayout, -, rfl, hitems,
    rfl, rfl, rfl⟩ := hfiled
  have hlog : system.cluster.log = before.map Prod.fst ++ entry :: after.map Prod.fst := by
    rw [← hsound.log, hlayout, List.map_append, List.map_cons]
  have hcmd : entry.cmd = submission.cmdBytes :=
    hsound.lays.cmds entry submission (by simp [hlayout])
  rw [← hcmd] at hitems
  obtain ⟨last, happlied, hlast⟩ := exists_split_applied hsound.cluster hlog happlied
  let posted : ℕ × StoreBatchItem :=
    ((itemsOf (before.map Prod.fst)).length + earlier.length + 1, item)
  have hposted : posted ∈ ticketed 0 (itemsOf system.cluster.log) := by
    refine mem_ticketed_iff.mpr ⟨itemsOf (before.map Prod.fst) ++ earlier,
      later ++ itemsOf (after.map Prod.fst), ?_, ?_⟩
    · rw [hlog, ← List.singleton_append, itemsOf_append, itemsOf_append,
        itemsOf_store hitems]
      simp [posted]
    · simp only [posted, List.length_append]
      omega
  by_cases hkept : ∀ other ∈ last, ¬ Deletes (tag posted) other
  · have hwaiting : posted ∈ (mailbox (appliedBy system.cluster member)).waiting :=
      Failover.mem_waiting_mailbox_iff.mpr ⟨before.map Prod.fst, entry, last, earlier,
        later, happlied, hitems, rfl, hkept⟩
    exact .inl (((hsound.cluster.tracks hmember).holds _ _ (length_tag posted)).mpr
      ⟨posted, hwaiting, rfl, rfl⟩)
  · push Not at hkept
    obtain ⟨deleter, hdeleter, hdeletes⟩ := hkept
    have hentry : deleter ∈ system.cluster.log := by
      rw [hlog]
      exact List.mem_append_right _ (List.mem_cons_of_mem _ (hlast hdeleter))
    obtain ⟨cause, hcause, hkey⟩ := hsound.deletes deleter hentry _ hdeletes
    cases cause with
    | acked node consumer key =>
        obtain rfl : key = tag posted := hkey
        exact .inr (.inl ⟨node, consumer, hcause⟩)
    | expired node nowMs key =>
        obtain rfl : key = tag posted := hkey
        obtain ⟨found, hfound, htag, msg, hmsg, hold⟩ :=
          hsound.expired node nowMs _ hcause (length_tag posted)
        -- what the scan found under this key is this message
        have hticket : found.1 = posted.1 := by
          apply ticket_eq_of_tag _ _ htag
          · have hbound := (lt_of_mem_ticketed hfound).2
            omega
          · have hbound := (lt_of_mem_ticketed hposted).2
            omega
        obtain rfl := eq_of_mem_ticketed hfound hposted hticket
        exact .inr (.inr ⟨node, nowMs, msg, hcause, hmsg, hold⟩)

end Confirmed

/-- A message whose batch was answered with success has a key of its own, under which every
replica that has applied the batch holds it, whatever crashes, snapshots and changes of the
leader lie behind it, unless a client acknowledged the key or the message has expired. -/
theorem confirmed_message_survives (lib : Libraries Index) (bucketSize : TimeBucketSize)
    (minAckQuorum : Bool) {actions : List (Action Index)} {system : System Index}
    (hrun : run (step lib bucketSize minAckQuorum) (.start bucketSize) actions =
      some system)
    (hmeets : Meets (step lib bucketSize minAckQuorum) Restarted (.start bucketSize)
      actions)
    (hclean : Clean .empty (requestsOf system.cluster.log)) :
    (∀ stream position place frame msg,
      Confirmed system stream position place frame msg →
      (∀ other ∈ frame.batch.messages, SizesFit lib frame.nowMs other) →
      ∃ index key value eventID,
        Filed system.layout stream position place index key value ∧
        key = messageKey lib bucketSize frame.nowMs msg eventID ∧
        lib.marshal (storedMessage frame.nowMs msg) = .ok value ∧
        ∀ (id : UInt64) (member : Failover.Member),
          system.cluster.members[id]? = some member → index ≤ member.sm.lastApplied →
            Accounted lib system.history member.sm.db key value) ∧
    ∀ stream position place index key value otherStream otherPosition otherPlace
      otherIndex otherValue,
      Filed system.layout stream position place index key value →
      Filed system.layout otherStream otherPosition otherPlace otherIndex key otherValue →
        stream = otherStream ∧ position = otherPosition ∧ place = otherPlace := by
  have hsound := sound_run hrun hmeets hclean
  have hroom : (itemsOf system.cluster.log).length < 2 ^ 64 := by
    rw [← Failover.posted_mailbox]
    exact hclean.room
  constructor
  · intro stream position place frame msg hconfirmed hsizes
    obtain ⟨index, key, value, eventID, hfiled, hkey, hvalue⟩ :=
      filed_of_confirmed hsound hconfirmed hsizes
    exact ⟨index, key, value, eventID, hfiled, hkey, hvalue,
      fun id member hmember happlied => accounted_of_filed hsound hroom hfiled hmember happlied⟩
  · intro stream position place index key value otherStream otherPosition otherPlace
      otherIndex otherValue hfirst hsecond
    exact filed_inj hsound.lays (hsound.log ▸ hroom) hfirst hsecond

/-- Two streams publish an order each.  The first is acknowledged on node 1 and deleted;
node 2 takes over the snapshot of node 1 and restarts. -/
def publishTwiceDeleteOne : List (Action Bytes) :=
  [.replica (.join 1), .replica (.join 2),
    .stream (.receive 0 (PublishStream.oneOrder .quorum) true false), .store 0 1,
    .stream (.complete 0), .stream (.send 0 false), .replica (.deliver 1 0),
    .stream (.receive 1 (PublishStream.oneOrder .quorum) true false), .store 0 2,
    .stream (.complete 1), .stream (.send 1 false), .sweep 1 10,
    .ack 1 "c1" Rounds.orderKey, .drain 1, .propose 1, .commit 0 3, .complete 1,
    .replica (.deliver 1 1), .replica (.install 2 1), .replica (.restart 2)]

theorem confirmed_message_survives_second :
    ∃ system, run (step Rounds.orderLibraries ⟨0, valid_zero⟩ false)
        (.start ⟨0, valid_zero⟩) publishTwiceDeleteOne = some system ∧
      ∃ index key value, Filed system.layout 1 0 0 index key value ∧
        ∃ member, system.cluster.members[(2 : UInt64)]? = some member ∧
          Accounted Rounds.orderLibraries system.history member.sm.db key value := by
  have hexists : ∃ system, run (step Rounds.orderLibraries ⟨0, valid_zero⟩ false)
      (.start ⟨0, valid_zero⟩) publishTwiceDeleteOne = some system ∧
        system.cluster.log = [⟨1, encodeStoreBatch [⟨5, 7, [], [1]⟩]⟩,
          ⟨2, encodeStoreBatch [⟨5, 7, [], [1]⟩]⟩,
          ⟨3, encodeDeleteBatch [eventKey 5 7 1]⟩] ∧
        (∀ pair ∈ system.layout, pair.1.index ≤ 3) ∧
        (system.streams.streams 1).frames[0]? = some (PublishStream.oneOrder .quorum) ∧
        (system.streams.streams 1).acks[0]? = some ⟨true⟩ ∧
        ∃ member ∈ system.cluster.members[(2 : UInt64)]?, member.sm.lastApplied = 3 :=
    exists_finish_of_any (by decide +kernel)
  obtain ⟨system, hrun, hlog, hindexes, hframe, hack, member, hmember, happlied⟩ := hexists
  have hmeets : Meets (step Rounds.orderLibraries ⟨0, valid_zero⟩ false) Restarted
      (.start ⟨0, valid_zero⟩) publishTwiceDeleteOne := by decide +kernel
  have hclean : Clean .empty (requestsOf system.cluster.log) := by
    rw [hlog]
    exact ⟨by decide +kernel, by decide +kernel⟩
  have hconfirmed : Confirmed system 1 0 0 (PublishStream.oneOrder .quorum)
      ⟨"orders", [9], 0, 0, []⟩ := ⟨hframe, rfl, hack, rfl⟩
  have hsizes : ∀ other ∈ (PublishStream.oneOrder .quorum).batch.messages,
      SizesFit Rounds.orderLibraries (PublishStream.oneOrder .quorum).nowMs other := by
    intro other hother
    obtain rfl := List.mem_singleton.mp hother
    refine ⟨by decide, by simp, ?_⟩
    intro data hdata
    have hone : Rounds.orderLibraries.marshal (storedMessage 5 ⟨"orders", [9], 0, 0, []⟩) =
        .ok [1] := by decide +kernel
    rw [PublishStream.oneOrder, hone, Except.ok.injEq] at hdata
    rw [← hdata]
    decide
  obtain ⟨index, key, value, -, hfiled, -, -, hevery⟩ :=
    (confirmed_message_survives _ _ _ hrun hmeets hclean).1 1 0 0 _ _ hconfirmed hsizes
  refine ⟨system, hrun, index, key, value, hfiled, member, hmember,
    hevery 2 member hmember ?_⟩
  obtain ⟨before, entry, submission, after, -, -, -, hlayout, -, rfl, -⟩ := hfiled
  rw [happlied]
  exact hindexes (entry, some submission) (by simp [hlayout])

end FutureQ.Durability
