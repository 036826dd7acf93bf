import FutureQ.Broker.Backlog
import FutureQ.Broker.Dispatcher
import FutureQ.Event.CatchUp
import FutureQ.Event.Replay

/-!
# Replicas of one log

The Raft library commits one log and hands every replica the part it has not applied,
in calls of any size; a replica may restart, join late, or receive the snapshot of a
replica that is ahead.  Which replica dispatches is decided elsewhere, so what matters
is that any of them could: `failover_keeps_messages` compares two replicas at different
points of the log, and `offered_iff_not_deleted` says what a pass over the database
of any replica offers, in terms of the log alone.

`RecoverFromSnapshot` leaves the ID counter behind the database it has just written, and
the restart of the process repairs that.  Both results are about runs in which a
recovered replica is restarted before it applies more entries.
-/

namespace FutureQ.Failover

open FutureQ.ByteOrder
open FutureQ.GoRuntime
open FutureQ.OrderedStore
open FutureQ.Mailbox
open FutureQ.Transition
open FutureQ.Storage
open FutureQ.Keys
open FutureQ.Repository
open FutureQ.Commands
open FutureQ.CommandCodec
open FutureQ.StateMachine
open FutureQ.Journal
open FutureQ.Replica
open FutureQ.Snapshot
open FutureQ.CatchUp
open FutureQ.DueScan
open FutureQ.Consumers
open FutureQ.Dispatch
open FutureQ.Backlog

/-- A replica, and whether its process has recovered a snapshot. -/
structure Member where
  sm : EventStateMachine
  recovered : Bool

structure Cluster where
  bucketSize : TimeBucketSize
  log : List Entry
  members : Contents UInt64 Member

inductive Action where
  | commit (entry : Entry)
  | join (id : UInt64)
  | deliver (id : UInt64) (more : ℕ)
  | restart (id : UInt64)
  | install (id source : UInt64)

def Cluster.initial (bucketSize : TimeBucketSize) : Cluster := ⟨bucketSize, [], ∅⟩

def Cluster.put (cluster : Cluster) (id : UInt64) (member : Member) : Cluster :=
  { cluster with members := cluster.members.insert id member }

/-- A new process on the database of a replica. -/
def Cluster.reopen (cluster : Cluster) (id : UInt64) (db : DB) : Option Cluster :=
  match start .pebble cluster.bucketSize db with
  | .error _ => none
  | .ok sm => some (cluster.put id ⟨sm, false⟩)

/-- The entries that the library still has to deliver. -/
def behind (log : List Entry) (sm : EventStateMachine) : List Entry :=
  log.filter fun entry => sm.lastApplied < entry.index

def step (cluster : Cluster) : Action → Option Cluster
  | .commit entry =>
      if lastIndex 0 cluster.log < entry.index then
        some { cluster with log := cluster.log ++ [entry] }
      else none
  | .join id =>
      match cluster.members[id]? with
      | some _ => none
      | none => cluster.reopen id ∅
  | .deliver id more =>
      match cluster.members[id]? with
      | none => none
      | some member =>
          match behind cluster.log member.sm with
          | [] => none
          | entry :: rest =>
              match update .pebble .none member.sm (entry :: rest.take more) with
              -- a panic takes the process down
              | .error _ => cluster.reopen id member.sm.db
              | .ok updated => some (cluster.put id { member with sm := updated.sm })
  | .restart id =>
      match cluster.members[id]? with
      | none => none
      | some member => cluster.reopen id member.sm.db
  | .install id source =>
      match cluster.members[id]?, cluster.members[source]? with
      | some target, some origin =>
          -- only a replica that lags behind is sent a snapshot
          if target.sm.lastApplied < origin.sm.lastApplied then
            match saveSnapshot none (fun _ => false) (prepareSnapshot origin.sm)
                origin.sm.db with
            | .error _ => none
            | .ok snapshot =>
                match recoverFromSnapshot .pebble none .none .none target.sm
                    ⟨snapshot, false⟩ with
                | (_, .error _) => none
                | (sm, .ok ()) => some (cluster.put id ⟨sm, true⟩)
          else none
      | _, _ => none

/-- No replica applies entries between its recovery and the next restart. -/
def Restarted (cluster : Cluster) : Action → Prop
  | .deliver id _ => ∀ member, cluster.members[id]? = some member →
      member.recovered = false
  | _ => True

theorem restarted_deliver_iff {cluster : Cluster} {id : UInt64} {more : ℕ} :
    cluster.members[id]?.all (fun member => !member.recovered) = true ↔
      Restarted cluster (.deliver id more) := by
  rw [Restarted]
  cases cluster.members[id]? with
  | none => simp
  | some member => simp

instance instDecidableRestarted (cluster : Cluster) :
    (action : Action) → Decidable (Restarted cluster action)
  | .deliver _ _ => decidable_of_iff _ restarted_deliver_iff
  | .commit _ => isTrue trivial
  | .join _ => isTrue trivial
  | .restart _ => isTrue trivial
  | .install _ _ => isTrue trivial

/-- What the entries of a log ask of the mailbox. -/
def requestsOf (entries : List Entry) : List (Request StoreBatchItem) :=
  entries.flatMap fun entry =>
    match decodeCommand entry.cmd with
    | .error _ => []
    | .ok command => [request command]

def mailbox (entries : List Entry) : Box StoreBatchItem :=
  Box.empty.play (requestsOf entries)

/-- The messages that the entries store. -/
def itemsOf (entries : List Entry) : List StoreBatchItem :=
  (requestsOf entries).flatMap Request.msgs

/-- The entry is a delete command that names the key. -/
def Deletes (key : Bytes) (entry : Entry) : Prop :=
  ∃ keys, unmarshalDeleteBatchCmd entry.cmd = .ok keys ∧ key ∈ keys

theorem any_toOption_iff_deletes {key : Bytes} {entry : Entry} :
    (unmarshalDeleteBatchCmd entry.cmd).toOption.any (key ∈ ·) = true ↔
      Deletes key entry := by
  rw [Deletes]
  cases unmarshalDeleteBatchCmd entry.cmd with
  | error reason => simp [Except.toOption]
  | ok keys => simp [Except.toOption]

instance instDecidableDeletes (key : Bytes) (entry : Entry) :
    Decidable (Deletes key entry) :=
  decidable_of_iff _ any_toOption_iff_deletes

/-! ## The mailbox of a log -/

theorem requestsOf_append (first second : List Entry) :
    requestsOf (first ++ second) = requestsOf first ++ requestsOf second :=
  List.flatMap_append

theorem mailbox_append (first second : List Entry) :
    mailbox (first ++ second) = (mailbox first).play (requestsOf second) := by
  rw [mailbox, requestsOf_append, Box.play_append]
  rfl

theorem requestsOf_carries {entries : List Entry} {commands : List Command}
    (hcarries : Carries entries commands) :
    requestsOf entries = commands.map request := by
  induction hcarries with
  | nil => rfl
  | cons hentry hrest ih =>
      rw [requestsOf, List.flatMap_cons, hentry, List.map_cons, ← ih]
      rfl

theorem mem_requestsOf_iff {entries : List Entry} {asked : Request StoreBatchItem} :
    asked ∈ requestsOf entries ↔
      ∃ entry ∈ entries, ∃ command, decodeCommand entry.cmd = .ok command ∧
        asked = request command := by
  rw [requestsOf, List.mem_flatMap]
  refine exists_congr fun entry => and_congr_right fun _ => ?_
  cases decodeCommand entry.cmd with
  | error reason => simp
  | ok command => simp

/-- A log settles an entry exactly when one of its delete commands names the key. -/
theorem forall_not_settles_iff {entries : List Entry} {posted : ℕ × StoreBatchItem} :
    (∀ asked ∈ requestsOf entries, ¬ asked.Settles posted) ↔
      ∀ entry ∈ entries, ¬ Deletes (tag posted) entry := by
  constructor
  · rintro hkept entry hentry ⟨keys, hkeys, hmem⟩
    have hasked : request (.delete keys) ∈ requestsOf entries :=
      mem_requestsOf_iff.mpr
        ⟨entry, hentry, .delete keys, decodeCommand_eq_delete_iff.mpr hkeys, rfl⟩
    exact hkept _ hasked (decide_eq_true hmem)
  · intro hkept asked hasked hsettles
    obtain ⟨entry, hentry, command, hcommand, rfl⟩ := mem_requestsOf_iff.mp hasked
    cases command with
    | store items => exact hsettles
    | skip => exact hsettles
    | delete keys =>
        exact hkept entry hentry
          ⟨keys, decodeCommand_eq_delete_iff.mp hcommand, of_decide_eq_true hsettles⟩

theorem posted_mailbox (entries : List Entry) :
    (mailbox entries).posted = (itemsOf entries).length := by
  rw [mailbox, Box.posted_play]
  exact Nat.zero_add _

theorem requestsOf_singleton {entry : Entry} {command : Command}
    (hcommand : decodeCommand entry.cmd = .ok command) :
    requestsOf [entry] = [request command] :=
  requestsOf_carries (.cons hcommand .nil)

/-- The last entry of a log either stored the message or left it alone. -/
theorem mem_waiting_concat_iff {entries : List Entry} {entry : Entry}
    {posted : ℕ × StoreBatchItem} :
    posted ∈ (mailbox (entries ++ [entry])).waiting ↔
      (posted ∈ (mailbox entries).waiting ∧ ¬ Deletes (tag posted) entry) ∨
        ∃ earlier later,
          unmarshalStoreBatchCmd entry.cmd = .ok (earlier ++ posted.2 :: later) ∧
            posted.1 = (itemsOf entries).length + earlier.length + 1 := by
  have hkept : (∀ asked ∈ requestsOf [entry], ¬ asked.Settles posted) ↔
      ¬ Deletes (tag posted) entry := by
    rw [forall_not_settles_iff, List.forall_mem_singleton]
  rw [← hkept, mailbox_append, ← posted_mailbox]
  simp only [← decodeCommand_eq_store_iff]
  cases hcommand : decodeCommand entry.cmd with
  | error reason => simp [requestsOf, hcommand, Box.play]
  | ok command =>
      have hplay : (mailbox entries).play [request command] =
          (mailbox entries).apply (request command) := rfl
      rw [requestsOf_singleton hcommand, hplay, Box.mem_waiting_apply_iff,
        List.forall_mem_singleton, mem_ticketed_iff, msgs_request]
      cases command with
      | store items => simp [Command.items]
      | delete keys => simp [Command.items]
      | skip => simp [Command.items]

/-- What waits in the mailbox of a log, in terms of its entries: the key counts the
messages stored before, and nothing behind the store command names it. -/
theorem mem_waiting_mailbox_iff {entries : List Entry} {posted : ℕ × StoreBatchItem} :
    posted ∈ (mailbox entries).waiting ↔
      ∃ first entry last earlier later, entries = first ++ entry :: last ∧
        unmarshalStoreBatchCmd entry.cmd = .ok (earlier ++ posted.2 :: later) ∧
        posted.1 = (itemsOf first).length + earlier.length + 1 ∧
        ∀ other ∈ last, ¬ Deletes (tag posted) other := by
  induction entries using List.reverseRecOn with
  | nil => simp [mailbox, requestsOf, Box.play, Box.empty]
  | append_singleton entries entry ih =>
      rw [mem_waiting_concat_iff, ih]
      constructor
      · rintro (⟨⟨first, stored, last, earlier, later, rfl, hitems, hticket, hkept⟩,
          hentry⟩ | ⟨earlier, later, hitems, hticket⟩)
        · refine ⟨first, stored, last ++ [entry], earlier, later, by simp, hitems,
            hticket, ?_⟩
          intro other hother
          rcases List.mem_append.mp hother with hlast | hnew
          · exact hkept other hlast
          · exact List.mem_singleton.mp hnew ▸ hentry
        · exact ⟨entries, entry, [], earlier, later, rfl, hitems, hticket,
            fun other hother => absurd hother List.not_mem_nil⟩
      · rintro ⟨first, stored, last, earlier, later, hsplit, hitems, hticket, hkept⟩
        rcases List.eq_nil_or_concat' last with rfl | ⟨init, final, rfl⟩
        · obtain ⟨rfl, hsame⟩ := List.append_inj' hsplit rfl
          cases hsame
          exact .inr ⟨earlier, later, hitems, hticket⟩
        · have hparts : entries ++ [entry] = (first ++ stored :: init) ++ [final] := by
            rw [hsplit, List.append_assoc, List.cons_append]
          obtain ⟨rfl, hsame⟩ := List.append_inj' hparts rfl
          cases hsame
          refine .inl ⟨⟨first, stored, init, earlier, later, rfl, hitems, hticket, ?_⟩,
            hkept _ (by simp)⟩
          exact fun other hother => hkept other (List.mem_append_left _ hother)

/-! ## What a step does -/

inductive Effect (cluster : Cluster) : Action → Cluster → Prop
  | commit {entry : Entry} (hafter : lastIndex 0 cluster.log < entry.index) :
      Effect cluster (.commit entry) { cluster with log := cluster.log ++ [entry] }
  | join {id : UInt64} :
      Effect cluster (.join id)
        (cluster.put id ⟨⟨∅, ⟨0, cluster.bucketSize⟩, 0⟩, false⟩)
  | deliver {id : UInt64} {more : ℕ} {member : Member} {entries rest : List Entry}
      {commands : List Command} (hmember : cluster.members[id]? = some member)
      (hbehind : behind cluster.log member.sm = entries ++ rest)
      (hcarries : Carries entries commands) :
      Effect cluster (.deliver id more)
        (cluster.put id { member with sm := play member.sm entries commands })
  | reopen {action : Action} {id : UInt64} {member : Member} {sm : EventStateMachine}
      (hmember : cluster.members[id]? = some member)
      (hstart : start .pebble cluster.bucketSize member.sm.db = .ok sm) :
      Effect cluster action (cluster.put id ⟨sm, false⟩)
  | install {id source : UInt64} {target origin : Member} {sm : EventStateMachine}
      (htarget : cluster.members[id]? = some target)
      (horigin : cluster.members[source]? = some origin)
      (hlags : target.sm.lastApplied < origin.sm.lastApplied)
      (hrecover : recoverFromSnapshot .pebble none .none .none target.sm
        ⟨serialise origin.sm.db, false⟩ = (sm, .ok ())) :
      Effect cluster (.install id source) (cluster.put id ⟨sm, true⟩)

theorem reopen_eq_some_iff {cluster next : Cluster} {id : UInt64} {db : DB} :
    cluster.reopen id db = some next ↔
      ∃ sm, start .pebble cluster.bucketSize db = .ok sm ∧
        next = cluster.put id ⟨sm, false⟩ := by
  rw [Cluster.reopen]
  cases start .pebble cluster.bucketSize db with
  | error reason => simp
  | ok sm => simp [eq_comm]

theorem effect_of_step {cluster next : Cluster} {action : Action}
    (hstep : step cluster action = some next) : Effect cluster action next := by
  cases action with
  | commit entry =>
      rw [step] at hstep
      split_ifs at hstep with hafter
      cases hstep
      exact .commit hafter
  | join id =>
      rw [step] at hstep
      split at hstep
      · cases hstep
      · obtain ⟨sm, hstart, rfl⟩ := reopen_eq_some_iff.mp hstep
        rw [start_empty] at hstart
        cases hstart
        exact .join
  | deliver id more =>
      rw [step] at hstep
      split at hstep
      · cases hstep
      · rename_i member hmember
        split at hstep
        · cases hstep
        · rename_i entry rest hbehind
          split at hstep
          · obtain ⟨sm, hstart, rfl⟩ := reopen_eq_some_iff.mp hstep
            exact .reopen hmember hstart
          · rename_i updated hupdate
            cases hstep
            obtain ⟨commands, hcarries, rfl⟩ := update_eq_ok_iff.mp hupdate
            have hsplit : behind cluster.log member.sm =
                (entry :: rest.take more) ++ rest.drop more := by
              rw [hbehind, List.cons_append, List.take_append_drop]
            exact .deliver hmember hsplit hcarries
  | restart id =>
      rw [step] at hstep
      split at hstep
      · cases hstep
      · rename_i member hmember
        obtain ⟨sm, hstart, rfl⟩ := reopen_eq_some_iff.mp hstep
        exact .reopen hmember hstart
  | install id source =>
      rw [step] at hstep
      split at hstep
      · rename_i target origin htarget horigin
        rw [saveSnapshot_eq] at hstep
        split_ifs at hstep with hlags
        simp only at hstep
        split at hstep
        · cases hstep
        · rename_i sm hrecover
          cases hstep
          exact .install htarget horigin hlags hrecover
      · cases hstep

/-! ## Members follow the log -/

/-- The member has applied exactly the entries `seen`, and its database records it. -/
structure Tracks (log seen : List Entry) (member : Member) : Prop where
  cut : ∃ rest, log = seen ++ rest
  applied : member.sm.lastApplied = lastIndex 0 seen
  holds : Holds member.sm.db (mailbox seen)
  counted : readCounter .pebble member.sm.db eventsLastIDKey 0 =
    .ok (UInt64.ofNat (mailbox seen).posted)
  durable : Durable member.sm.db member.sm.lastApplied
  counter : member.recovered = false →
    member.sm.repo.lastID = UInt64.ofNat (mailbox seen).posted

structure Sound (cluster : Cluster) : Prop where
  ordered : (cluster.log.map Entry.index).Pairwise (· < ·)
  positive : ∀ entry ∈ cluster.log, 0 < entry.index
  members : ∀ (id : UInt64) (member : Member), cluster.members[id]? = some member →
    ∃ seen, Tracks cluster.log seen member

theorem Tracks.stands {log seen : List Entry} {member : Member}
    (htracks : Tracks log seen member) (hfresh : member.recovered = false) :
    Stands member.sm (mailbox seen) where
  holds := htracks.holds
  counter := htracks.counter hfresh
  settled := settled_iff.mpr
    ⟨(htracks.counter hfresh) ▸ htracks.counted, htracks.durable.applied⟩

theorem tracks_fresh (log : List Entry) (bucketSize : TimeBucketSize) :
    Tracks log [] ⟨⟨∅, ⟨0, bucketSize⟩, 0⟩, false⟩ where
  cut := ⟨log, rfl⟩
  applied := rfl
  holds := (stands_fresh bucketSize).holds
  counted := readCounter_of_none (by simp)
  durable := ⟨fun key value hvalue => by simp at hvalue, readCounter_of_none (by simp)⟩
  counter := fun _ => rfl

theorem Tracks.commit {log seen : List Entry} {member : Member}
    (htracks : Tracks log seen member) (entry : Entry) :
    Tracks (log ++ [entry]) seen member := by
  obtain ⟨rest, hlog⟩ := htracks.cut
  exact { htracks with cut := ⟨rest ++ [entry], by rw [hlog, List.append_assoc]⟩ }

/-- What the library delivers is what follows in the log. -/
theorem Tracks.behind_eq {log seen rest : List Entry} {member : Member}
    (htracks : Tracks log seen member) (hlog : log = seen ++ rest)
    (hordered : (log.map Entry.index).Pairwise (· < ·))
    (hpositive : ∀ entry ∈ log, 0 < entry.index) :
    behind log member.sm = rest := by
  subst hlog
  rw [behind, htracks.applied]
  exact Replay.filter_after_lastIndex hordered hpositive

theorem Tracks.deliver {log seen entries rest : List Entry} {member : Member}
    (htracks : Tracks log seen member) (hfresh : member.recovered = false)
    (hlog : log = seen ++ (entries ++ rest))
    {commands : List Command} (hcarries : Carries entries commands)
    (hclean : Clean .empty (requestsOf log)) :
    Tracks log (seen ++ entries) { member with sm := play member.sm entries commands } := by
  have hroom : Clean (mailbox seen) (commands.map request) := by
    rw [hlog, requestsOf_append, Clean.append_iff, requestsOf_append,
      Clean.append_iff, requestsOf_carries hcarries] at hclean
    exact hclean.2.1
  have hstands := (htracks.stands hfresh).play hcarries hroom
  have hbox : mailbox (seen ++ entries) = (mailbox seen).play (commands.map request) := by
    rw [mailbox_append, requestsOf_carries hcarries]
  have hsettled := settled_iff.mp hstands.settled
  rw [← hbox] at hstands
  refine ⟨⟨rest, by rw [hlog, List.append_assoc]⟩, ?_, hstands.holds, ?_,
    durable_play htracks.durable hcarries, fun _ => hstands.counter⟩
  · rw [lastIndex_append, ← htracks.applied]
    rfl
  · rw [← hstands.counter]
    exact hsettled.1

theorem Tracks.reopen {log seen : List Entry} {member : Member}
    (htracks : Tracks log seen member) {bucketSize : TimeBucketSize}
    {sm : EventStateMachine}
    (hstart : start .pebble bucketSize member.sm.db = .ok sm) :
    Tracks log seen ⟨sm, false⟩ := by
  obtain ⟨hdb, -, hcounter, happlied⟩ := start_eq_ok_iff.mp hstart
  rw [htracks.durable.applied] at happlied
  rw [htracks.counted] at hcounter
  have hindex : member.sm.lastApplied = sm.lastApplied := Except.ok.inj happlied
  refine ⟨htracks.cut, hindex ▸ htracks.applied, ?_, ?_, ?_, ?_⟩
  · exact hdb.symm ▸ htracks.holds
  · exact hdb.symm ▸ htracks.counted
  · exact hdb.symm ▸ hindex ▸ htracks.durable
  · exact fun _ => (Except.ok.inj hcounter).symm

/-- A counter that is not 0 is on record, whatever stands for an absent one. -/
theorem readCounter_of_ne_zero {db : DB} {key : Bytes} {value : UInt64}
    (hread : readCounter .pebble db key 0 = .ok value) (hvalue : value ≠ 0)
    (absent : UInt64) : readCounter .pebble db key absent = .ok value := by
  cases hrecord : db[key]? with
  | none =>
      rw [readCounter_of_none hrecord] at hread
      exact absurd (Except.ok.inj hread).symm hvalue
  | some record =>
      rw [readCounter, get_of_some hrecord] at hread ⊢
      exact hread

/-- A recovered replica is where the origin of the snapshot was, but for its counter. -/
theorem Tracks.install {log seen : List Entry} {target origin : Member}
    (htracks : Tracks log seen origin)
    (hlags : target.sm.lastApplied < origin.sm.lastApplied) {sm : EventStateMachine}
    (hrecover : recoverFromSnapshot .pebble none .none .none target.sm
      ⟨serialise origin.sm.db, false⟩ = (sm, .ok ())) :
    Tracks log seen ⟨sm, true⟩ := by
  have hpositive : origin.sm.lastApplied ≠ 0 := by
    intro hzero
    rw [hzero] at hlags
    exact absurd hlags UInt64.not_lt_zero
  have happlied := readCounter_of_ne_zero htracks.durable.applied hpositive
    target.sm.lastApplied
  rw [recoverFromSnapshot_serialise htracks.durable.bounded happlied,
    Prod.mk.injEq] at hrecover
  obtain ⟨rfl, -⟩ := hrecover
  exact ⟨htracks.cut, htracks.applied, htracks.holds, htracks.counted,
    htracks.durable, fun hfresh => absurd hfresh Bool.true_eq_false.mp⟩

/-! ## Runs -/

theorem index_le_lastIndex {log : List Entry}
    (hordered : (log.map Entry.index).Pairwise (· < ·)) {entry : Entry}
    (hentry : entry ∈ log) (lastApplied : UInt64) :
    entry.index ≤ lastIndex lastApplied log := by
  induction log generalizing lastApplied with
  | nil => cases hentry
  | cons head log ih =>
      obtain ⟨hhead, hrest⟩ := List.pairwise_cons.mp hordered
      rw [lastIndex_cons]
      rcases List.mem_cons.mp hentry with rfl | hlater
      · exact Replay.le_lastIndex fun other hother =>
          hhead other.index (List.mem_map_of_mem hother)
      · exact ih hrest hlater head.index

theorem Sound.commit {cluster : Cluster} (hsound : Sound cluster) {entry : Entry}
    (hafter : lastIndex 0 cluster.log < entry.index) :
    Sound { cluster with log := cluster.log ++ [entry] } where
  ordered := by
    rw [List.map_append, List.pairwise_append]
    refine ⟨hsound.ordered, List.pairwise_singleton _ _, ?_⟩
    intro old hold new hnew
    obtain ⟨earlier, hearlier, rfl⟩ := List.mem_map.mp hold
    obtain rfl := List.mem_singleton.mp hnew
    exact UInt64.lt_of_le_of_lt (index_le_lastIndex hsound.ordered hearlier 0) hafter
  positive := by
    intro other hother
    rcases List.mem_append.mp hother with hold | hnew
    · exact hsound.positive other hold
    · obtain rfl := List.mem_singleton.mp hnew
      exact UInt64.lt_of_le_of_lt UInt64.zero_le hafter
  members := by
    intro id member hmember
    obtain ⟨seen, htracks⟩ := hsound.members id member hmember
    exact ⟨seen, htracks.commit entry⟩

theorem Sound.put {cluster : Cluster} (hsound : Sound cluster) (id : UInt64)
    {member : Member} {seen : List Entry} (htracks : Tracks cluster.log seen member) :
    Sound (cluster.put id member) where
  ordered := hsound.ordered
  positive := hsound.positive
  members := by
    intro other found hfound
    by_cases hid : id = other
    · subst hid
      rw [Cluster.put, Std.ExtTreeMap.getElem?_insert_self] at hfound
      cases hfound
      exact ⟨seen, htracks⟩
    · rw [Cluster.put, getElem?_insert_ne hid] at hfound
      exact hsound.members other found hfound

theorem Sound.effect {cluster next : Cluster} {action : Action} (hsound : Sound cluster)
    (hclean : Clean .empty (requestsOf cluster.log)) (hguard : Restarted cluster action)
    (heffect : Effect cluster action next) : Sound next := by
  cases heffect with
  | commit hafter => exact hsound.commit hafter
  | join => exact hsound.put _ (tracks_fresh _ _)
  | @deliver id more member entries rest commands hmember hbehind hcarries =>
      obtain ⟨seen, htracks⟩ := hsound.members id member hmember
      obtain ⟨unseen, hlog⟩ := htracks.cut
      rw [htracks.behind_eq hlog hsound.ordered hsound.positive] at hbehind
      exact hsound.put id
        (htracks.deliver (hguard member hmember) (hbehind ▸ hlog) hcarries hclean)
  | @reopen action id member sm hmember hstart =>
      obtain ⟨seen, htracks⟩ := hsound.members id member hmember
      exact hsound.put id (htracks.reopen hstart)
  | @install id source target origin sm htarget horigin hlags hrecover =>
      obtain ⟨seen, htracks⟩ := hsound.members source origin horigin
      exact hsound.put id (htracks.install hlags hrecover)

theorem clean_of_effect {cluster next : Cluster} {action : Action}
    (heffect : Effect cluster action next)
    (hclean : Clean .empty (requestsOf next.log)) :
    Clean .empty (requestsOf cluster.log) := by
  cases heffect with
  | commit hafter =>
      rw [requestsOf_append, Clean.append_iff] at hclean
      exact hclean.1
  | join => exact hclean
  | deliver hmember hbehind hcarries => exact hclean
  | reopen hmember hstart => exact hclean
  | install htarget horigin hlags hrecover => exact hclean

theorem sound_run {bucketSize : TimeBucketSize} {actions : List Action}
    {cluster : Cluster} (hrun : run step (.initial bucketSize) actions = some cluster)
    (hmeets : Meets step Restarted (.initial bucketSize) actions)
    (hclean : Clean .empty (requestsOf cluster.log)) : Sound cluster := by
  let Inv (cluster : Cluster) : Prop :=
    Clean .empty (requestsOf cluster.log) → Sound cluster
  have hstart : Inv (.initial bucketSize) := fun _ =>
    ⟨List.Pairwise.nil, by simp [Cluster.initial], by simp [Cluster.initial]⟩
  have hstep : ∀ state action next, Inv state → Restarted state action →
      step state action = some next → Inv next := by
    intro state action next hinv hguard hstep hcleanNext
    have heffect := effect_of_step hstep
    have hcleanState := clean_of_effect heffect hcleanNext
    exact (hinv hcleanState).effect hcleanState hguard heffect
  exact run_invariant hstep hstart hmeets hrun hclean

/-! ## Two replicas -/

section Cut

variable {seen rest : List Entry}

theorem le_lastIndex_of_mem_seen
    (hordered : ((seen ++ rest).map Entry.index).Pairwise (· < ·)) {entry : Entry}
    (hentry : entry ∈ seen) : entry.index ≤ lastIndex 0 seen := by
  rw [List.map_append, List.pairwise_append] at hordered
  exact index_le_lastIndex hordered.1 hentry 0

theorem lastIndex_lt_of_mem_rest
    (hordered : ((seen ++ rest).map Entry.index).Pairwise (· < ·))
    (hpositive : ∀ entry ∈ seen ++ rest, 0 < entry.index) {entry : Entry}
    (hentry : entry ∈ rest) : lastIndex 0 seen < entry.index := by
  rw [← Replay.filter_after_lastIndex hordered hpositive, List.mem_filter] at hentry
  exact of_decide_eq_true hentry.2

/-- The entries up to the applied index are those that were applied. -/
theorem filter_le_lastIndex
    (hordered : ((seen ++ rest).map Entry.index).Pairwise (· < ·))
    (hpositive : ∀ entry ∈ seen ++ rest, 0 < entry.index) :
    (seen ++ rest).filter (fun entry => entry.index ≤ lastIndex 0 seen) = seen := by
  rw [List.filter_append, List.filter_eq_self.mpr, List.filter_eq_nil_iff.mpr,
    List.append_nil]
  · intro entry hentry
    have hlt := lastIndex_lt_of_mem_rest hordered hpositive hentry
    simpa using hlt
  · intro entry hentry
    exact decide_eq_true (le_lastIndex_of_mem_seen hordered hentry)

end Cut

/-- The entries a member has applied. -/
def appliedBy (cluster : Cluster) (member : Member) : List Entry :=
  cluster.log.filter fun entry => entry.index ≤ member.sm.lastApplied

theorem Sound.tracks {cluster : Cluster} (hsound : Sound cluster) {id : UInt64}
    {member : Member} (hmember : cluster.members[id]? = some member) :
    Tracks cluster.log (appliedBy cluster member) member := by
  obtain ⟨seen, htracks⟩ := hsound.members id member hmember
  obtain ⟨rest, hlog⟩ := htracks.cut
  have hseen : appliedBy cluster member = seen := by
    rw [appliedBy, htracks.applied, hlog]
    exact filter_le_lastIndex (hlog ▸ hsound.ordered) (hlog ▸ hsound.positive)
  exact hseen ▸ htracks

/-- A member that is ahead has applied what the other has, and then the entries
between the two. -/
theorem Sound.exists_between {cluster : Cluster} (hsound : Sound cluster)
    {id : UInt64} {earlier later : Member}
    (hearlier : cluster.members[id]? = some earlier)
    (hle : earlier.sm.lastApplied ≤ later.sm.lastApplied) :
    ∃ between, appliedBy cluster later = appliedBy cluster earlier ++ between ∧
      ∀ entry, entry ∈ between ↔ entry ∈ cluster.log ∧
        earlier.sm.lastApplied < entry.index ∧ entry.index ≤ later.sm.lastApplied := by
  obtain ⟨rest, hlog⟩ := (hsound.tracks hearlier).cut
  have hordered : ((appliedBy cluster earlier ++ rest).map Entry.index).Pairwise
      (· < ·) := hlog ▸ hsound.ordered
  have hpositive : ∀ entry ∈ appliedBy cluster earlier ++ rest, 0 < entry.index :=
    hlog ▸ hsound.positive
  have happlied := (hsound.tracks hearlier).applied
  refine ⟨rest.filter fun entry => entry.index ≤ later.sm.lastApplied, ?_, ?_⟩
  · have hkept : (appliedBy cluster earlier).filter
        (fun entry => entry.index ≤ later.sm.lastApplied) =
          appliedBy cluster earlier := by
      rw [List.filter_eq_self]
      intro entry hentry
      have hindex := le_lastIndex_of_mem_seen hordered hentry
      exact decide_eq_true (UInt64.le_trans (happlied ▸ hindex) hle)
    calc appliedBy cluster later
        = (appliedBy cluster earlier ++ rest).filter
            (fun entry => entry.index ≤ later.sm.lastApplied) := by
          rw [← hlog]
          rfl
      _ = appliedBy cluster earlier ++
            rest.filter (fun entry => entry.index ≤ later.sm.lastApplied) := by
          rw [List.filter_append, hkept]
  · intro entry
    rw [List.mem_filter, decide_eq_true_iff, ← and_assoc]
    refine and_congr_left fun _ => ?_
    constructor
    · intro hrest
      refine ⟨?_, happlied ▸ lastIndex_lt_of_mem_rest hordered hpositive hrest⟩
      rw [hlog]
      exact List.mem_append_right _ hrest
    · rintro ⟨hentry, hafter⟩
      rw [hlog] at hentry
      rcases List.mem_append.mp hentry with hseen | hrest
      · have hindex := le_lastIndex_of_mem_seen hordered hseen
        rw [← happlied] at hindex
        exact absurd hafter (UInt64.not_lt.mpr hindex)
      · exact hrest

section Between

variable {before after : DB} {box : Box StoreBatchItem} {between : List Entry}

/-- A message of one replica is on a replica further ahead unless it was deleted in
between. -/
theorem kept_iff_not_deleted (hbefore : Holds before box)
    (hafter : Holds after (box.play (requestsOf between)))
    (hroom : (box.play (requestsOf between)).posted < 2 ^ 64) {key value : Bytes}
    (hlength : key.length = 24) (hvalue : before[key]? = some value) :
    after[key]? = some value ↔ ∀ entry ∈ between, ¬ Deletes key entry := by
  obtain ⟨posted, hposted, rfl, rfl⟩ := (hbefore key value hlength).mp hvalue
  have hold := (box.numbered posted hposted).2
  rw [hafter _ _ hlength, ← forall_not_settles_iff]
  constructor
  · rintro ⟨found, hfound, htag, -⟩
    have hticket : found.1 = posted.1 := by
      apply ticket_eq_of_tag _ _ htag
      · exact lt_of_le_of_lt (Box.numbered _ found hfound).2 hroom
      · rw [Box.posted_play] at hroom
        omega
    rcases Box.mem_waiting_play_iff.mp hfound with
      ⟨hwaiting, hkept⟩ | ⟨first, msgs, last, -, hnew, -⟩
    · exact box.eq_of_ticket hwaiting hposted hticket ▸ hkept
    · -- a later ticket cannot be the one of the message
      have hlater := (lt_of_mem_ticketed hnew).1
      rw [Box.posted_play] at hlater
      omega
  · intro hkept
    exact ⟨posted, Box.mem_waiting_play_iff.mpr (.inl ⟨hposted, hkept⟩), rfl, rfl⟩

/-- A key that was issued and is gone on one replica is gone further ahead. -/
theorem gone_of_gone (hbefore : Holds before box)
    (hafter : Holds after (box.play (requestsOf between)))
    (hroom : (box.play (requestsOf between)).posted < 2 ^ 64) {key : Bytes}
    (hlength : key.length = 24) (hissued : eventIDOf key ≤ UInt64.ofNat box.posted)
    (hgone : before[key]? = none) : after[key]? = none := by
  cases hvalue : after[key]? with
  | none => rfl
  | some value =>
      obtain ⟨posted, hposted, rfl, rfl⟩ := (hafter key value hlength).mp hvalue
      have hticket : posted.1 < 2 ^ 64 :=
        lt_of_le_of_lt (Box.numbered _ posted hposted).2 hroom
      have hlast : box.posted < 2 ^ 64 := by
        rw [Box.posted_play] at hroom
        omega
      rw [tag, eventIDOf_eventKey, UInt64.le_iff_toNat_le,
        UInt64.toNat_ofNat_of_lt' hticket, UInt64.toNat_ofNat_of_lt' hlast] at hissued
      have hwaiting : posted ∈ box.waiting := by
        by_contra hsettled
        exact Box.not_mem_waiting_play hissued hsettled _ hposted
      have hfound := (hbefore _ _ hlength).mpr ⟨posted, hwaiting, rfl, rfl⟩
      rw [hgone] at hfound
      cases hfound

end Between

/-- Of two replicas the one further ahead holds the messages of the other, except those
that the entries between them delete, and no message comes back: an ID that the other
has issued and no longer holds is not held further ahead.  So whichever replica takes
over, it loses and revives nothing. -/
theorem failover_keeps_messages {bucketSize : TimeBucketSize} {actions : List Action}
    {cluster : Cluster} (hrun : run step (.initial bucketSize) actions = some cluster)
    (hmeets : Meets step Restarted (.initial bucketSize) actions)
    (hclean : Clean .empty (requestsOf cluster.log)) {old new : UInt64}
    {earlier later : Member} (hearlier : cluster.members[old]? = some earlier)
    (hlater : cluster.members[new]? = some later)
    (hle : earlier.sm.lastApplied ≤ later.sm.lastApplied) {key : Bytes}
    (hlength : key.length = 24) :
    (∀ value, earlier.sm.db[key]? = some value →
      (later.sm.db[key]? = some value ↔
        ∀ entry ∈ cluster.log, earlier.sm.lastApplied < entry.index →
          entry.index ≤ later.sm.lastApplied → ¬ Deletes key entry)) ∧
      ∀ last, readCounter .pebble earlier.sm.db eventsLastIDKey 0 = .ok last →
        eventIDOf key ≤ last → earlier.sm.db[key]? = none →
          later.sm.db[key]? = none := by
  have hsound := sound_run hrun hmeets hclean
  have htracks := hsound.tracks hearlier
  obtain ⟨between, happlied, hbetween⟩ := hsound.exists_between hearlier hle
  have hafter := (hsound.tracks hlater).holds
  have hroom : (mailbox (appliedBy cluster later)).posted < 2 ^ 64 := by
    obtain ⟨rest, hlog⟩ := (hsound.tracks hlater).cut
    rw [hlog, requestsOf_append, Clean.append_iff] at hclean
    exact hclean.1.room
  rw [happlied, mailbox_append] at hafter hroom
  constructor
  · intro value hvalue
    rw [kept_iff_not_deleted htracks.holds hafter hroom hlength hvalue]
    constructor
    · exact fun hkept entry hentry hfirst hlast =>
        hkept entry ((hbetween entry).mpr ⟨hentry, hfirst, hlast⟩)
    · intro hkept entry hentry
      obtain ⟨hlog, hfirst, hlast⟩ := (hbetween entry).mp hentry
      exact hkept entry hlog hfirst hlast
  · intro last hlast hissued hgone
    rw [htracks.counted, Except.ok.injEq] at hlast
    exact gone_of_gone htracks.holds hafter hroom hlength (hlast ▸ hissued) hgone

/-- Two messages are stored, and the first is deleted. -/
def takeOverLog : List Entry :=
  [⟨1, encodeStoreBatch [⟨5, 7, [], [1, 2]⟩, ⟨5, 7, [], [3]⟩]⟩,
    ⟨2, encodeDeleteBatch [eventKey 5 7 1]⟩]

/-- Replica 1 applies the store only; replica 3 recovers the snapshot of replica 2,
which has applied both entries, and restarts. -/
def takeOver : List Action :=
  [.join 1, .join 2, .join 3] ++ takeOverLog.map .commit ++
    [.deliver 1 0, .deliver 2 1, .install 3 2, .restart 3]

theorem clean_takeOverLog : Clean .empty (requestsOf takeOverLog) :=
  ⟨by decide +kernel, by decide +kernel⟩

theorem exists_run_takeOver :
    ∃ cluster, run step (.initial ⟨0, valid_zero⟩) takeOver = some cluster ∧
      cluster.log = takeOverLog ∧
      ∃ earlier ∈ cluster.members[(1 : UInt64)]?,
        ∃ later ∈ cluster.members[(3 : UInt64)]?,
          earlier.sm.lastApplied = 1 ∧ later.sm.lastApplied = 2 ∧
          earlier.sm.db[eventKey 5 7 2]? = some [3] :=
  exists_finish_of_any (by decide +kernel)

/-- Replica 3 holds the second message because replica 1 does. -/
theorem failover_keeps_messages_second :
    ∃ cluster, run step (.initial ⟨0, valid_zero⟩) takeOver = some cluster ∧
      ∃ later, cluster.members[(3 : UInt64)]? = some later ∧
        later.sm.db[eventKey 5 7 2]? = some [3] := by
  obtain ⟨cluster, hrun, hlog, earlier, hearlier, later, hlater, hfirst, hsecond,
    hvalue⟩ := exists_run_takeOver
  have hmeets : Meets step Restarted (.initial ⟨0, valid_zero⟩) takeOver := by
    decide +kernel
  have hle : earlier.sm.lastApplied ≤ later.sm.lastApplied := by
    rw [hfirst, hsecond]
    decide
  refine ⟨cluster, hrun, later, hlater, ?_⟩
  refine ((failover_keeps_messages hrun hmeets (hlog ▸ clean_takeOverLog) hearlier
    hlater hle (length_eventKey _ _ _)).1 [3] hvalue).mpr ?_
  rw [hlog, hfirst, hsecond]
  decide +kernel

/-! ## What a leader offers -/

section Offers

variable {Index : Type} (lib : Libraries Index)

/-- A pass over the database of a replica, whichever it is, offers a message exactly
when an entry the replica has applied stored it under the topic, its bucket is due,
nothing applied after that entry deletes it, it can be decoded, it is alive and it is
not in flight. -/
theorem offered_iff_not_deleted {bucketSize : TimeBucketSize} {actions : List Action}
    {cluster : Cluster} (hrun : run step (.initial bucketSize) actions = some cluster)
    (hmeets : Meets step Restarted (.initial bucketSize) actions)
    (hclean : Clean .empty (requestsOf cluster.log)) {id : UInt64} {member : Member}
    (hmember : cluster.members[id]? = some member) (topic : String) (nowMs : Int64)
    (turns : Bytes → Turn) (hub : Hub) (dispatcher : Dispatcher) {key : Bytes}
    (hlength : key.length = 24) (msg : StoredMessage Index) :
    (∃ receivers, (⟨key, msg, receivers⟩ : Offer Index) ∈
        (dispatchTopic lib bucketSize member.sm.db turns hub dispatcher topic
          nowMs).offers) ↔
      ¬ dispatcher.Suppresses key (turns key).checkedAt ∧
        isExpired msg nowMs = false ∧
        ∃ first entry last earlier item later,
          appliedBy cluster member = first ++ entry :: last ∧
          unmarshalStoreBatchCmd entry.cmd = .ok (earlier ++ item :: later) ∧
          key = eventKey item.bucket item.topicHash
            (UInt64.ofNat ((itemsOf first).length + earlier.length + 1)) ∧
          item.topicHash = lib.topicHash topic ∧
          item.bucket ≤ bucketSize.bucket nowMs ∧
          lib.unmarshal item.msg = some msg ∧
          ∀ other ∈ last, ¬ Deletes key other := by
  have htracks := (sound_run hrun hmeets hclean).tracks hmember
  constructor
  · rintro ⟨receivers, hoffer⟩
    obtain ⟨⟨value, hentry, hdecodes⟩, halive, -⟩ :=
      madeFrom_of_mem_offers lib topic nowMs turns hoffer
    obtain ⟨-, hfree, -, -, -⟩ :=
      (mem_offers_dispatchTopic_iff lib topic nowMs turns hentry rfl).mp hoffer
    have hvalue := (mem_scan_iff.mp hentry).1
    obtain ⟨posted, hposted, rfl, rfl⟩ := (htracks.holds key value hlength).mp hvalue
    obtain ⟨-, htopic, hdue⟩ := eventKey_mem_dueScan_iff.mp hentry
    obtain ⟨first, entry, last, earlier, later, hsplit, hitems, hticket, hkept⟩ :=
      mem_waiting_mailbox_iff.mp hposted
    exact ⟨hfree, halive, first, entry, last, earlier, posted.2, later, hsplit, hitems,
      hticket ▸ rfl, htopic, hdue, hdecodes, hkept⟩
  · rintro ⟨hfree, halive, first, entry, last, earlier, item, later, hsplit, hitems, rfl,
      htopic, hdue, hdecodes, hkept⟩
    have hposted : ((itemsOf first).length + earlier.length + 1, item) ∈
        (mailbox (appliedBy cluster member)).waiting :=
      mem_waiting_mailbox_iff.mpr
        ⟨first, entry, last, earlier, later, hsplit, hitems, rfl, hkept⟩
    have hvalue := (htracks.holds _ _ hlength).mpr ⟨_, hposted, rfl, rfl⟩
    have hentry := eventKey_mem_dueScan_iff.mpr ⟨hvalue, htopic, hdue⟩
    exact ⟨_, offerIn_mem_offers lib topic nowMs turns hub hentry hfree hdecodes halive⟩

end Offers

def noTime (_ : Bytes) : Turn := ⟨0, 0, .sorted⟩

/-- The message whose bytes are `[3]`. -/
def secondMessage : StoredMessage Bytes := ⟨"orders", [3], 5, 0, 0, []⟩

/-- A pass on replica 3 offers the second message. -/
theorem offered_iff_not_deleted_second :
    ∃ cluster, run step (.initial ⟨0, valid_zero⟩) takeOver = some cluster ∧
      ∃ member, cluster.members[(3 : UInt64)]? = some member ∧
        ∃ receivers, (⟨eventKey 5 7 2, secondMessage, receivers⟩ : Offer Bytes) ∈
          (dispatchTopic (tableLibraries (fun _ => 7) [([3], secondMessage)])
            ⟨0, valid_zero⟩ member.sm.db noTime newHub (newDispatcher 0) "orders"
            6).offers := by
  obtain ⟨cluster, hrun, hlog, -, -, member, hmember, -, happlied, -⟩ :=
    exists_run_takeOver
  have hmeets : Meets step Restarted (.initial ⟨0, valid_zero⟩) takeOver := by
    decide +kernel
  have hall : appliedBy cluster member = takeOverLog := by
    rw [appliedBy, hlog, happlied]
    decide
  have hfree : ¬ (newDispatcher 0).Suppresses (eventKey 5 7 2)
      (noTime (eventKey 5 7 2)).checkedAt := by
    simp [Dispatcher.Suppresses, newDispatcher]
  refine ⟨cluster, hrun, member, hmember, ?_⟩
  refine (offered_iff_not_deleted _ hrun hmeets (hlog ▸ clean_takeOverLog) hmember
    "orders" 6 noTime newHub (newDispatcher 0) (length_eventKey _ _ _) secondMessage).mpr
    ⟨hfree, by decide, [], _, _, [⟨5, 7, [], [1, 2]⟩], ⟨5, 7, [], [3]⟩, [], hall,
      by decide +kernel, by decide +kernel, rfl, by decide, by decide, by decide +kernel⟩

end FutureQ.Failover
