import FutureQ.Cluster.SharedLog

/-!
# From an acknowledgement to every replica

The other direction of the promise.  A key that a consumer acknowledged is handed to the
deleter of the node and stays with it, in the pending keys or in a batch, until
`DeleteKeys` returns without an error; then a delete command with the key stands in the
log.  A batch that was committed although its caller gave up is proposed again, which does
no harm.  `acknowledged_key_waits_or_is_gone` follows the key: as long as the process
lives, the key is still with the deleter, or every replica that has applied the command
has lost the message for good.
-/

namespace FutureQ.Settled

open FutureQ.ByteOrder
open FutureQ.OrderedStore
open FutureQ.Mailbox
open FutureQ.Transition
open FutureQ.RetryQueue (Queue)
open FutureQ.Storage
open FutureQ.Keys
open FutureQ.Repository
open FutureQ.Commands
open FutureQ.CommandCodec
open FutureQ.StateMachine
open FutureQ.Deleter
open FutureQ.Backlog
open FutureQ.StreamOrder
open FutureQ.Failover (Cluster Deletes requestsOf itemsOf mailbox appliedBy)
open FutureQ.SharedLog

variable {Index : Type}

/-- The log has given the key to a message. -/
def Issued (log : List Entry) (key : Bytes) : Prop :=
  ∃ posted ∈ ticketed 0 (itemsOf log), tag posted = key

instance instDecidableIssued (log : List Entry) (key : Bytes) :
    Decidable (Issued log key) :=
  inferInstanceAs (Decidable (∃ posted ∈ _, _))

/-- Consumers acknowledge what exists; recovered replicas restart. -/
def Honest (system : System Index) : Action Index → Prop
  | .ack _ _ key => key.length = 24 → Issued system.cluster.log key
  | .replica action => Failover.Restarted system.cluster action
  | _ => True

instance instDecidableHonest (system : System Index) :
    (action : Action Index) → Decidable (Honest system action)
  | .replica action => inferInstanceAs (Decidable (Failover.Restarted system.cluster action))
  | .ack _ _ _ => inferInstanceAs (Decidable (_ → _))
  | .stream _ | .store _ _ | .pass _ _ _ _ _ _ | .sweep _ _ | .mark _ _ | .drain _
  | .propose _ | .commit _ _ | .drop _ | .complete _ | .abort _ | .reenqueue _
  | .notify _ => isTrue trivial

/-- The process of the node goes on. -/
def Alive (id : UInt64) (system : System Index) : Action Index → Prop
  | .replica action => ends system.cluster action ≠ some id
  | _ => True

instance instDecidableAlive (id : UInt64) (system : System Index) :
    (action : Action Index) → Decidable (Alive id system action)
  | .replica _ => inferInstanceAs (Decidable (_ ≠ _))
  | .ack _ _ _ | .stream _ | .store _ _ | .pass _ _ _ _ _ _ | .sweep _ _ | .mark _ _
  | .drain _ | .propose _ | .commit _ _ | .drop _ | .complete _ | .abort _
  | .reenqueue _ | .notify _ => isTrue trivial

/-! ## Deleted for good -/

theorem Issued.append {log : List Entry} {key : Bytes} (hissued : Issued log key)
    (more : List Entry) : Issued (log ++ more) key := by
  obtain ⟨posted, hposted, htag⟩ := hissued
  refine ⟨posted, ?_, htag⟩
  rw [itemsOf_append]
  exact mem_ticketed_append hposted

/-- A message that an entry deletes does not wait behind it. -/
theorem not_mem_waiting_of_deletes {before last : List Entry} {entry : Entry}
    {posted : ℕ × StoreBatchItem} (hposted : posted ∈ ticketed 0 (itemsOf before))
    (hdeletes : Deletes (tag posted) entry) :
    posted ∉ (mailbox (before ++ entry :: last)).waiting := by
  have hbound := (lt_of_mem_ticketed hposted).2
  have hsettled : posted ∉ (mailbox (before ++ [entry])).waiting := by
    rw [Failover.mem_waiting_concat_iff]
    rintro (⟨-, hkept⟩ | ⟨earlier, later, -, hticket⟩)
    · exact hkept hdeletes
    · omega
  have hissued : posted.1 ≤ (mailbox (before ++ [entry])).posted := by
    rw [Failover.posted_mailbox, itemsOf_append, List.length_append]
    omega
  rw [← List.singleton_append, ← List.append_assoc, Failover.mailbox_append]
  exact Box.not_mem_waiting_play hissued hsettled _

/-- A replica that has applied the deletion of an issued key does not hold it. -/
theorem gone_of_deletes {cluster : Cluster} (hsound : Failover.Sound cluster)
    (hroom : (itemsOf cluster.log).length < 2 ^ 64) {before after : List Entry}
    {entry : Entry} (hlog : cluster.log = before ++ entry :: after) {key : Bytes}
    (hissued : Issued before key) (hdeletes : Deletes key entry) {id : UInt64}
    {member : Failover.Member} (hmember : cluster.members[id]? = some member)
    (happlied : entry.index ≤ member.sm.lastApplied) : member.sm.db[key]? = none := by
  obtain ⟨posted, hposted, rfl⟩ := hissued
  obtain ⟨last, hsplit, -⟩ := exists_split_applied hsound hlog happlied
  have htracks := hsound.tracks hmember
  cases hvalue : member.sm.db[tag posted]? with
  | none => rfl
  | some value =>
      obtain ⟨found, hfound, htag, -⟩ :=
        (htracks.holds _ value (length_tag posted)).mp hvalue
      have hmem : ∀ other ∈ ticketed 0 (itemsOf (appliedBy cluster member)),
          other ∈ ticketed 0 (itemsOf cluster.log) := by
        intro other hother
        obtain ⟨rest, hcut⟩ := htracks.cut
        rw [hcut, itemsOf_append]
        exact mem_ticketed_append hother
      have happliedPosted : posted ∈ ticketed 0 (itemsOf (appliedBy cluster member)) := by
        rw [hsplit, itemsOf_append]
        exact mem_ticketed_append hposted
      have hfoundPosted := mem_ticketed_of_waiting hfound
      have hticket : found.1 = posted.1 := by
        apply ticket_eq_of_tag _ _ htag
        · have hbound := (lt_of_mem_ticketed (hmem _ hfoundPosted)).2
          omega
        · have hbound := (lt_of_mem_ticketed (hmem _ happliedPosted)).2
          omega
      obtain rfl := eq_of_mem_ticketed hfoundPosted happliedPosted hticket
      rw [hsplit] at hfound
      exact absurd hfound (not_mem_waiting_of_deletes hposted hdeletes)

/-! ## The invariant -/

/-- The keys of the batch are named by one delete command of the log. -/
def Logged (log : List Entry) (batch : List Bytes) : Prop :=
  ∃ entry ∈ log, ∀ key ∈ batch, Deletes key entry

/-- A proposal that a deleter waits for carries the batch in hand. -/
structure Waits (system : System Index) (node : Node) (number : ℕ) (batch : List Bytes) :
    Prop where
  working : node.queue.phase = .working batch
  known : number < system.proposed
  flight : ∀ cmd, (number, cmd) ∈ system.flight → ∀ index, ∀ key ∈ batch,
    Deletes key ⟨index, cmd⟩
  committed : number ∈ system.committed → Logged system.cluster.log batch

structure Backed (system : System Index) : Prop where
  numbers : ∀ proposal ∈ system.flight, proposal.1 < system.proposed
  counted : ∀ number ∈ system.committed, number < system.proposed
  waits : ∀ id number, (system.nodes id).proposal = some number →
    ∃ batch, Waits system (system.nodes id) number batch
  settled : ∀ id, ∀ batch ∈ (system.nodes id).queue.settled, Logged system.cluster.log batch
  held : ∀ id, ∀ key ∈ (system.nodes id).keys, key.length = 24 →
    Issued system.cluster.log key
  flight : ∀ proposal ∈ system.flight, ∀ index key, Deletes key ⟨index, proposal.2⟩ →
    Issued system.cluster.log key
  order : ∀ before entry after, system.cluster.log = before ++ entry :: after →
    ∀ key, Deletes key entry → Issued before key

section Invariant

variable {lib : Libraries Index} {bucketSize : TimeBucketSize} {minAckQuorum : Bool}
  {system next : System Index}

theorem Logged.append {log : List Entry} {batch : List Bytes} (hlogged : Logged log batch)
    (more : List Entry) : Logged (log ++ more) batch := by
  obtain ⟨entry, hentry, hdeletes⟩ := hlogged
  exact ⟨entry, List.mem_append_left _ hentry, hdeletes⟩

theorem Waits.same {node : Node} {number : ℕ} {batch : List Bytes}
    (hwaits : Waits system node number batch) (hproposed : next.proposed = system.proposed)
    (hflight : next.flight ⊆ system.flight) (hcommitted : next.committed = system.committed)
    (hlog : next.cluster.log = system.cluster.log) : Waits next node number batch where
  working := hwaits.working
  known := hproposed ▸ hwaits.known
  flight cmd hcmd := hwaits.flight cmd (hflight hcmd)
  committed hnumber := hlog ▸ hwaits.committed (hcommitted ▸ hnumber)

theorem backed_start : Backed (.start bucketSize : System Index) where
  numbers proposal hproposal := absurd hproposal List.not_mem_nil
  counted number hnumber := absurd hnumber List.not_mem_nil
  waits id number hproposal := by cases hproposal
  settled id batch hbatch := absurd hbatch List.not_mem_nil
  held id key hkey := absurd hkey List.not_mem_nil
  flight proposal hproposal := absurd hproposal List.not_mem_nil
  order before entry after hlog := by cases before <;> cases hlog

/-- A committed entry whose keys were issued before it. -/
theorem Backed.commit (hbacked : Backed system) {entry : Entry}
    (hissued : ∀ key, Deletes key entry → Issued system.cluster.log key)
    (streams : PublishStream.System Index) {flight : List (ℕ × Bytes)}
    (hflight : flight ⊆ system.flight) {committed : List ℕ}
    (hcommitted : ∀ number ∈ committed, number ∈ system.committed ∨
      (number, entry.cmd) ∈ system.flight) (layout : Layout) :
    Backed { system with
      streams
      cluster := { system.cluster with log := system.cluster.log ++ [entry] }
      flight
      committed
      layout } where
  numbers proposal hproposal := hbacked.numbers proposal (hflight hproposal)
  counted number hnumber := by
    rcases hcommitted number hnumber with hold | hnew
    · exact hbacked.counted number hold
    · exact hbacked.numbers _ hnew
  waits id number hproposal := by
    obtain ⟨batch, hwaits⟩ := hbacked.waits id number hproposal
    refine ⟨batch, hwaits.working, hwaits.known,
      fun cmd hcmd => hwaits.flight cmd (hflight hcmd), fun hnumber => ?_⟩
    rcases hcommitted number hnumber with hold | hnew
    · exact (hwaits.committed hold).append [entry]
    · exact ⟨entry, by simp, hwaits.flight _ hnew entry.index⟩
  settled id batch hbatch := (hbacked.settled id batch hbatch).append [entry]
  held id key hkey hlength := (hbacked.held id key hkey hlength).append [entry]
  flight proposal hproposal index key hdeletes :=
    (hbacked.flight proposal (hflight hproposal) index key hdeletes).append [entry]
  order := by
    intro before other after hlog key hdeletes
    rcases List.eq_nil_or_concat' after with rfl | ⟨init, final, rfl⟩
    · obtain ⟨rfl, hsame⟩ := List.append_inj' hlog rfl
      cases hsame
      exact hissued key hdeletes
    · have hparts : system.cluster.log ++ [entry] =
          (before ++ other :: init) ++ [final] := by
        rw [List.append_assoc, List.cons_append]
        exact hlog
      exact hbacked.order before other init (List.append_inj' hparts rfl).1 key hdeletes

/-- Waiting for a proposal lasts until `DeleteKeys` returns. -/
theorem Backed.waits_of_moves (hbacked : Backed system) {id : UInt64} {node : Node}
    (hmoves : Moves system.committed (system.nodes id) node) {number : ℕ}
    (hproposal : node.proposal = some number) :
    ∃ batch, Waits system node number batch := by
  cases hmoves with
  | stay found =>
      obtain ⟨batch, hwaits⟩ := hbacked.waits id number hproposal
      exact ⟨batch, { hwaits with }⟩
  | keep found hstep hevent =>
      obtain ⟨batch, hwaits⟩ := hbacked.waits id number hproposal
      refine ⟨batch, ?_, hwaits.known, hwaits.flight, hwaits.committed⟩
      have hworking := hwaits.working
      cases RetryQueue.effect_of_step hstep with
      | mark item hroom => exact hworking
      | rest hidle hempty => exact hworking
      | drain hidle hpending => rw [hidle] at hworking; cases hworking
      | accept other hother => exact absurd rfl (hevent true)
      | refuse other hother => exact absurd rfl (hevent false)
      | reenqueue other hfailed hroom => rw [hfailed] at hworking; cases hworking
      | notify item items hnotifying => rw [hnotifying] at hworking; cases hworking
      | last item hnotifying => rw [hnotifying] at hworking; cases hworking
  | close hstep hcommitted => cases hproposal

/-- A batch is settled when its command stands in the log. -/
theorem Backed.settled_of_moves (hbacked : Backed system) {id : UInt64} {node : Node}
    (hmoves : Moves system.committed (system.nodes id) node) {batch : List Bytes}
    (hbatch : batch ∈ node.queue.settled) : Logged system.cluster.log batch := by
  cases hmoves with
  | stay found => exact hbacked.settled id batch hbatch
  | keep found hstep hevent =>
      rcases RetryQueue.settled_step hstep with hsame | ⟨haccept, -⟩
      · exact hbacked.settled id batch (hsame ▸ hbatch)
      · exact absurd haccept (hevent true)
  | @close accepted queue hstep hcommitted =>
      rcases RetryQueue.settled_step hstep with hsame | ⟨haccept, hsettled⟩
      · exact hbacked.settled id batch (hsame ▸ hbatch)
      · obtain ⟨number, hnumber, hproposal⟩ :=
          hcommitted (RetryQueue.Event.returned.inj haccept)
        obtain ⟨working, hwaits⟩ := hbacked.waits id number hproposal
        have hhand : (system.nodes id).queue.phase.inHand = working := by
          rw [hwaits.working]
          rfl
        rw [hsettled, hhand] at hbatch
        rcases List.mem_append.mp hbatch with hold | hnew
        · exact hbacked.settled id batch hold
        · exact List.mem_singleton.mp hnew ▸ hwaits.committed hnumber

theorem Backed.node (hbacked : Backed system) {id : UInt64} {node : Node}
    (hmoves : Moves system.committed (system.nodes id) node)
    (hheld : ∀ key ∈ node.keys, key.length = 24 → Issued system.cluster.log key)
    (history : List Cause) :
    Backed { system.setNode id node with history } where
  numbers := hbacked.numbers
  counted := hbacked.counted
  waits := by
    intro other number hproposal
    change (Function.update system.nodes id node other).proposal = some number at hproposal
    change ∃ batch, Waits _ (Function.update system.nodes id node other) number batch
    by_cases hid : other = id
    · subst hid
      rw [Function.update_self] at hproposal ⊢
      obtain ⟨batch, hwaits⟩ := hbacked.waits_of_moves hmoves hproposal
      exact ⟨batch, hwaits.same rfl (List.Subset.refl _) rfl rfl⟩
    · rw [Function.update_of_ne hid] at hproposal ⊢
      obtain ⟨batch, hwaits⟩ := hbacked.waits other number hproposal
      exact ⟨batch, hwaits.same rfl (List.Subset.refl _) rfl rfl⟩
  settled := by
    intro other batch hbatch
    change batch ∈ (Function.update system.nodes id node other).queue.settled at hbatch
    by_cases hid : other = id
    · subst hid
      rw [Function.update_self] at hbatch
      exact hbacked.settled_of_moves hmoves hbatch
    · rw [Function.update_of_ne hid] at hbatch
      exact hbacked.settled other batch hbatch
  held := by
    intro other key hkey
    change key ∈ (Function.update system.nodes id node other).keys at hkey
    by_cases hid : other = id
    · subst hid
      rw [Function.update_self] at hkey
      exact hheld key hkey
    · rw [Function.update_of_ne hid] at hkey
      exact hbacked.held other key hkey
  flight := hbacked.flight
  order := hbacked.order

/-- A committed command of a deleter names every key of its batch. -/
theorem deletes_of_marshal {batch : List Bytes} {cmd : Bytes}
    (hmarshal : marshalDeleteBatchCmd batch = .ok cmd)
    (hroom : batch.length ≤ pendingCapacity) (index : UInt64) {key : Bytes}
    (hkey : key ∈ batch) : Deletes key ⟨index, cmd⟩ := by
  have hlengths := lengths_of_marshal hmarshal
  rw [marshalDeleteBatchCmd_eq hlengths, Except.ok.injEq] at hmarshal
  refine ⟨batch, ?_, hkey⟩
  rw [← hmarshal]
  exact unmarshalDeleteBatchCmd_encode (mul_le_maxAlloc hroom) hlengths

theorem Backed.propose (hbacked : Backed system) {id : UInt64} {batch : List Bytes}
    {cmd : Bytes} (hworking : (system.nodes id).queue.phase = .working batch)
    (hroom : batch.length ≤ pendingCapacity)
    (hmarshal : marshalDeleteBatchCmd batch = .ok cmd) :
    Backed
      { system.setNode id
          { system.nodes id with proposal := some system.proposed } with
        flight := system.flight ++ [(system.proposed, cmd)]
        proposed := system.proposed + 1 } where
  numbers := by
    intro proposal hproposal
    rcases List.mem_append.mp hproposal with hold | hnew
    · exact Nat.lt_succ_of_lt (hbacked.numbers proposal hold)
    · obtain rfl := List.mem_singleton.mp hnew
      exact Nat.lt_succ_self _
  counted number hnumber := Nat.lt_succ_of_lt (hbacked.counted number hnumber)
  waits := by
    intro other number hproposal
    change (Function.update system.nodes id _ other).proposal = some number at hproposal
    change ∃ batch, Waits _ (Function.update system.nodes id _ other) number batch
    by_cases hid : other = id
    · subst hid
      rw [Function.update_self] at hproposal ⊢
      cases hproposal
      refine ⟨batch, hworking, Nat.lt_succ_self _, ?_, ?_⟩
      · intro sent hsent index key hkey
        rcases List.mem_append.mp hsent with hold | hnew
        · exact absurd (hbacked.numbers _ hold) (lt_irrefl _)
        · cases List.mem_singleton.mp hnew
          exact deletes_of_marshal hmarshal hroom index hkey
      · exact fun hnumber => absurd (hbacked.counted _ hnumber) (lt_irrefl _)
    · rw [Function.update_of_ne hid] at hproposal ⊢
      obtain ⟨waiting, hwaits⟩ := hbacked.waits other number hproposal
      refine ⟨waiting, hwaits.working, Nat.lt_succ_of_lt hwaits.known, ?_,
        hwaits.committed⟩
      intro sent hsent
      rcases List.mem_append.mp hsent with hold | hnew
      · exact hwaits.flight sent hold
      · cases List.mem_singleton.mp hnew
        exact absurd hwaits.known (lt_irrefl _)
  settled := by
    intro other logged hlogged
    change logged ∈ (Function.update system.nodes id _ other).queue.settled at hlogged
    refine hbacked.settled other logged ?_
    by_cases hid : other = id
    · subst hid
      rwa [Function.update_self] at hlogged
    · rwa [Function.update_of_ne hid] at hlogged
  held := by
    intro other key hkey
    change key ∈ (Function.update system.nodes id _ other).keys at hkey
    refine hbacked.held other key ?_
    by_cases hid : other = id
    · subst hid
      rwa [Function.update_self] at hkey
    · rwa [Function.update_of_ne hid] at hkey
  flight := by
    intro proposal hproposal index key hdeletes
    rcases List.mem_append.mp hproposal with hold | hnew
    · exact hbacked.flight proposal hold index key hdeletes
    · obtain rfl := List.mem_singleton.mp hnew
      have hkey := mem_of_deletes hmarshal hroom hdeletes
      refine hbacked.held id key (List.mem_append_right _ ?_)
        (lengths_of_marshal hmarshal key hkey)
      rw [RetryQueue.Queue.waiting, hworking]
      exact List.mem_append_left _ hkey
  order := hbacked.order

theorem issued_of_outlived {log : List Entry} {nowMs : Int64} {key : Bytes}
    (houtlived : Outlived lib log nowMs key) : Issued log key := by
  obtain ⟨posted, hposted, htag, -⟩ := houtlived
  exact ⟨posted, hposted, htag⟩

theorem Backed.effect {action : Action Index} (hbacked : Backed system)
    (hsound : Sound lib bucketSize system) (hguard : Honest system action)
    (heffect : Effect lib bucketSize system action next) : Backed next := by
  cases heffect with
  | streams heffect hlog =>
      refine { hbacked with waits := ?_ }
      intro id number hproposal
      obtain ⟨batch, hwaits⟩ := hbacked.waits id number hproposal
      exact ⟨batch, hwaits.same rfl (List.Subset.refl _) rfl rfl⟩
  | @store _ position index submission hpending hafter =>
      have hmem : submission ∈ system.streams.pending ++ system.streams.log :=
        List.mem_append_left _ (List.mem_of_getElem? hpending)
      obtain ⟨frame, -, -, hcommands⟩ := hsound.streams.ledger.known submission hmem
      exact hbacked.commit (fun key hdeletes =>
        absurd hdeletes (not_deletes_of_commands hcommands index key)) _
        (List.Subset.refl _) (fun number hnumber => .inl hnumber) _
  | @replica action cluster heffect hlog =>
      have hnodes := nodesAfter_cases system.cluster system.nodes action
      refine
        { numbers := hbacked.numbers
          counted := hbacked.counted
          waits := ?_
          settled := ?_
          held := ?_
          flight := hlog ▸ hbacked.flight
          order := hlog ▸ hbacked.order }
      · intro id number hproposal
        change (nodesAfter system.cluster system.nodes action id).proposal = some number
          at hproposal
        change ∃ batch, Waits _ (nodesAfter system.cluster system.nodes action id) number
          batch
        rcases hnodes id with hsame | hfresh
        · rw [hsame] at hproposal ⊢
          obtain ⟨batch, hwaits⟩ := hbacked.waits id number hproposal
          exact ⟨batch, hwaits.same rfl (List.Subset.refl _) rfl hlog⟩
        · rw [hfresh] at hproposal
          cases hproposal
      · intro id batch hbatch
        change batch ∈ (nodesAfter system.cluster system.nodes action id).queue.settled
          at hbatch
        rcases hnodes id with hsame | hfresh
        · exact hlog ▸ hbacked.settled id batch (hsame ▸ hbatch)
        · rw [hfresh] at hbatch
          cases hbatch
      · intro id key hkey hlength
        change key ∈ (nodesAfter system.cluster system.nodes action id).keys at hkey
        rcases hnodes id with hsame | hfresh
        · exact hlog ▸ hbacked.held id key (hsame ▸ hkey) hlength
        · rw [hfresh] at hkey
          cases hkey
  | @node _ id node causes hmoves hkeys hcauses hacked =>
      refine hbacked.node hmoves ?_ _
      intro key hkey hlength
      rcases hkeys key hkey with hold | hnew
      · exact hbacked.held id key hold hlength
      · obtain ⟨cause, hcause, rfl⟩ := List.mem_map.mp hnew
        cases cause with
        | acked other consumer key =>
            rw [hacked other consumer key hcause] at hguard
            exact hguard hlength
        | expired other nowMs key =>
            exact issued_of_outlived
              (outlived_of_witnessed hsound.cluster hlength (hcauses _ hcause))
  | @propose _ id batch cmd hworking hmarshal =>
      have hroom : batch.length ≤ pendingCapacity := by
        have hinHand := (hsound.fits id).inHand
        rwa [hworking] at hinHand
      exact hbacked.propose hworking hroom hmarshal
  | @commit _ position index number cmd hflight hafter =>
      have hmem := List.mem_of_getElem? hflight
      refine hbacked.commit (fun key hdeletes => hbacked.flight _ hmem index key hdeletes)
        _ List.eraseIdx_subset ?_ _
      intro other hother
      rcases List.mem_append.mp hother with hold | hnew
      · exact .inl hold
      · obtain rfl := List.mem_singleton.mp hnew
        exact .inr hmem
  | drop position =>
      have hsubset : system.flight.eraseIdx position ⊆ system.flight := List.eraseIdx_subset
      refine { hbacked with
        numbers := fun proposal hproposal => hbacked.numbers proposal (hsubset hproposal)
        waits := ?_
        flight := fun proposal hproposal => hbacked.flight proposal (hsubset hproposal) }
      intro id number hproposal
      obtain ⟨batch, hwaits⟩ := hbacked.waits id number hproposal
      exact ⟨batch, hwaits.same rfl hsubset rfl rfl⟩

theorem restarted_of_honest {action : Action Index} (hguard : Honest system action) :
    Restarted system action := by
  cases action with
  | replica action => exact hguard
  | _ => trivial

theorem backed_run {actions : List (Action Index)}
    (hrun : run (step lib bucketSize minAckQuorum) (.start bucketSize) actions =
      some system)
    (hmeets : Meets (step lib bucketSize minAckQuorum) Honest (.start bucketSize) actions)
    (hclean : Clean .empty (requestsOf system.cluster.log)) :
    Sound lib bucketSize system ∧ Backed system := by
  let Inv (system : System Index) : Prop :=
    Clean .empty (requestsOf system.cluster.log) → Sound lib bucketSize system ∧ Backed system
  have hstart : Inv (.start bucketSize) := fun _ => ⟨sound_start, backed_start⟩
  have hstep : ∀ state action next, Inv state → Honest state action →
      step lib bucketSize minAckQuorum state action = some next → Inv next := by
    intro state action next hinv hguard hstep hcleanNext
    have heffect := effect_of_step hstep
    have hcleanState := clean_of_effect heffect hcleanNext
    obtain ⟨hsound, hbacked⟩ := hinv hcleanState
    exact ⟨hsound.effect hcleanState (restarted_of_honest hguard) heffect,
      hbacked.effect hsound hguard heffect⟩
  exact run_invariant hstep hstart hmeets hrun hclean

/-! ## While the process lives -/

theorem ledger_of_moves {committed : List ℕ} {old node : Node}
    (hmoves : Moves committed old node) {key : Bytes} (hkey : key ∈ old.queue.ledger) :
    key ∈ node.queue.ledger := by
  cases hmoves with
  | stay found => exact hkey
  | keep found hstep hevent =>
      rw [RetryQueue.ledger_step hstep]
      exact List.mem_append_left _ hkey
  | close hstep hcommitted =>
      rw [RetryQueue.ledger_step hstep]
      exact List.mem_append_left _ hkey

/-- The deleter of a process forgets no key. -/
theorem ledger_of_effect {action : Action Index} {id : UInt64} {key : Bytes}
    (hkey : key ∈ (system.nodes id).queue.ledger) (halive : Alive id system action)
    (heffect : Effect lib bucketSize system action next) :
    key ∈ (next.nodes id).queue.ledger := by
  cases heffect with
  | streams heffect hlog => exact hkey
  | store hpending hafter => exact hkey
  | @replica action cluster heffect hlog =>
      change key ∈ (nodesAfter system.cluster system.nodes action id).queue.ledger
      rw [nodesAfter]
      cases hended : ends system.cluster action with
      | none => exact hkey
      | some ended =>
          have hid : id ≠ ended := by
            rintro rfl
            exact halive hended
          simpa [Function.update_of_ne hid] using hkey
  | @node _ moved node causes hmoves hkeys hcauses hacked =>
      change key ∈ (Function.update system.nodes moved node id).queue.ledger
      by_cases hid : id = moved
      · subst hid
        rw [Function.update_self]
        exact ledger_of_moves hmoves hkey
      · rwa [Function.update_of_ne hid]
  | @propose _ moved batch cmd hworking hmarshal =>
      change key ∈ (Function.update system.nodes moved _ id).queue.ledger
      by_cases hid : id = moved
      · subst hid
        rwa [Function.update_self]
      · rwa [Function.update_of_ne hid]
  | commit hflight hafter => exact hkey
  | drop position => exact hkey

theorem ledger_of_ack {id : UInt64} {consumer : String} {key : Bytes}
    (hstep : step lib bucketSize minAckQuorum system (.ack id consumer key) = some next) :
    key ∈ (next.nodes id).queue.ledger := by
  rw [step] at hstep
  split at hstep
  · cases hstep
  · obtain ⟨moved, hmoved, rfl⟩ := Option.map_eq_some_iff.mp hstep
    obtain ⟨queue, hqueue, rfl⟩ := Option.map_eq_some_iff.mp hmoved
    change key ∈ (Function.update system.nodes id _ id).queue.ledger
    rw [Function.update_self, RetryQueue.ledger_step hqueue]
    exact List.mem_append_right _ (List.mem_singleton_self key)

/-- What the ledger of a deleter holds is waiting or deleted. -/
theorem waits_or_deleted (hsound : Sound lib bucketSize system) (hbacked : Backed system)
    (hroom : (itemsOf system.cluster.log).length < 2 ^ 64) {id : UInt64} {key : Bytes}
    (hkey : key ∈ (system.nodes id).queue.ledger) :
    key ∈ (system.nodes id).queue.waiting ∨
      ∃ entry ∈ system.cluster.log, Deletes key entry ∧
        ∀ (other : UInt64) (member : Failover.Member),
          system.cluster.members[other]? = some member →
          entry.index ≤ member.sm.lastApplied → member.sm.db[key]? = none := by
  rw [RetryQueue.Queue.ledger, List.append_assoc] at hkey
  rcases List.mem_append.mp hkey with hsettled | hwaiting
  · obtain ⟨batch, hbatch, hmem⟩ := List.mem_flatten.mp hsettled
    obtain ⟨entry, hentry, hdeletes⟩ := hbacked.settled id batch hbatch
    obtain ⟨before, after, hlog⟩ := List.append_of_mem hentry
    have hissued := hbacked.order before entry after hlog key (hdeletes key hmem)
    exact .inr ⟨entry, hentry, hdeletes key hmem, fun other member hmember happlied =>
      gone_of_deletes hsound.cluster hroom hlog hissued (hdeletes key hmem) hmember
        happlied⟩
  · exact .inl hwaiting

end Invariant

/-- A key that a consumer acknowledged on a node whose process lives on is still with the
deleter of the node, or a delete command with the key is in the log, and then no replica
that has applied the command holds the message, now or later. -/
theorem acknowledged_key_waits_or_is_gone (lib : Libraries Index)
    (bucketSize : TimeBucketSize) (minAckQuorum : Bool) {first rest : List (Action Index)}
    {id : UInt64} {consumer : String} {key : Bytes} {middle system : System Index}
    (hfirst : run (step lib bucketSize minAckQuorum) (.start bucketSize)
      (first ++ [.ack id consumer key]) = some middle)
    (hrest : run (step lib bucketSize minAckQuorum) middle rest = some system)
    (hmeets : Meets (step lib bucketSize minAckQuorum) Honest (.start bucketSize)
      (first ++ [.ack id consumer key] ++ rest))
    (halive : Meets (step lib bucketSize minAckQuorum) (Alive id) middle rest)
    (hclean : Clean .empty (requestsOf system.cluster.log)) :
    key ∈ (system.nodes id).queue.waiting ∨
      ∃ entry ∈ system.cluster.log, Deletes key entry ∧
        ∀ (other : UInt64) (member : Failover.Member),
          system.cluster.members[other]? = some member →
          entry.index ≤ member.sm.lastApplied → member.sm.db[key]? = none := by
  have hrun : run (step lib bucketSize minAckQuorum) (.start bucketSize)
      (first ++ [.ack id consumer key] ++ rest) = some system := by
    rw [run_append_of_run hfirst, hrest]
  obtain ⟨hsound, hbacked⟩ := backed_run hrun hmeets hclean
  have hroom : (itemsOf system.cluster.log).length < 2 ^ 64 := by
    rw [← Failover.posted_mailbox]
    exact hclean.room
  have hmarked : key ∈ (middle.nodes id).queue.ledger := by
    rw [run_append, Option.bind_eq_some_iff] at hfirst
    obtain ⟨before, -, hack⟩ := hfirst
    obtain ⟨next, hnext, hnil⟩ := run_cons_eq_some.mp hack
    cases hnil
    exact ledger_of_ack hnext
  have hkey : key ∈ (system.nodes id).queue.ledger :=
    run_invariant (fun _ _ _ hledger hguard hstep =>
      ledger_of_effect hledger hguard (effect_of_step hstep)) hmarked halive hrest
  exact waits_or_deleted hsound hbacked hroom hkey

/-- An order is published and delivered to node 1. -/
def publishOrder : List (Action Bytes) :=
  [.replica (.join 1), .stream (.receive 0 (PublishStream.oneOrder .quorum) true false),
    .store 0 1, .stream (.complete 0), .stream (.send 0 false), .replica (.deliver 1 0)]

/-- The first proposal is committed after the deleter has given it up; the retry is
committed as well. -/
def deleteTwice : List (Action Bytes) :=
  [.drain 1, .propose 1, .abort 1, .reenqueue 1, .drain 1, .commit 0 2, .propose 1,
    .commit 0 3, .complete 1, .notify 1, .replica (.deliver 1 1)]

theorem acknowledged_key_waits_or_is_gone_twice :
    ∃ middle system,
      run (step Rounds.orderLibraries ⟨0, valid_zero⟩ false) (.start ⟨0, valid_zero⟩)
        (publishOrder ++ [.ack 1 "c1" Rounds.orderKey]) = some middle ∧
      run (step Rounds.orderLibraries ⟨0, valid_zero⟩ false) middle deleteTwice =
        some system ∧
      ∃ entry ∈ system.cluster.log, Deletes Rounds.orderKey entry ∧
        ∀ (other : UInt64) (member : Failover.Member),
          system.cluster.members[other]? = some member →
          entry.index ≤ member.sm.lastApplied → member.sm.db[Rounds.orderKey]? = none := by
  have hexists : ∃ middle, run (step Rounds.orderLibraries ⟨0, valid_zero⟩ false)
      (.start ⟨0, valid_zero⟩) (publishOrder ++ [.ack 1 "c1" Rounds.orderKey]) =
        some middle ∧
      Meets (step Rounds.orderLibraries ⟨0, valid_zero⟩ false) (Alive 1) middle
        deleteTwice ∧
      (run (step Rounds.orderLibraries ⟨0, valid_zero⟩ false) middle deleteTwice).any
        (fun system => system.cluster.log = [⟨1, encodeStoreBatch [⟨5, 7, [], [1]⟩]⟩,
            ⟨2, encodeDeleteBatch [eventKey 5 7 1]⟩,
            ⟨3, encodeDeleteBatch [eventKey 5 7 1]⟩] ∧
          (system.nodes 1).queue.waiting = []) = true :=
    exists_finish_of_any (by decide +kernel)
  obtain ⟨middle, hfirst, halive, hany⟩ := hexists
  obtain ⟨system, hrest, hlog, hwaiting⟩ := exists_finish_of_any hany
  have hmeets : Meets (step Rounds.orderLibraries ⟨0, valid_zero⟩ false) Honest
      (.start ⟨0, valid_zero⟩)
      (publishOrder ++ [.ack 1 "c1" Rounds.orderKey] ++ deleteTwice) := by
    decide +kernel
  have hclean : Clean .empty (requestsOf system.cluster.log) := by
    rw [hlog]
    exact ⟨by decide +kernel, by decide +kernel⟩
  have hgone := acknowledged_key_waits_or_is_gone _ _ _ hfirst hrest hmeets halive hclean
  rw [hwaiting] at hgone
  exact ⟨middle, system, hfirst, hrest, hgone.resolve_left List.not_mem_nil⟩

end FutureQ.Settled
