import FutureQ.Cluster.Members
import FutureQ.Core.Effects

/-!
# Joining the cluster

`JoinCluster` makes the new node a member of the metadata group and of the event
shard, first without a vote and then, once it is listed, with one.  Nothing is
rolled back when a step fails, and Dragonboat refuses to add a member again: an
attempt that no outside failure disturbs succeeds exactly when both groups take the
node as a new one, which they do not once an earlier attempt got as far as its first
change.
-/

namespace FutureQ.Join

open FutureQ.OrderedStore
open FutureQ.Effects
open FutureQ.Members

abbrev Cluster := Group → Membership

inductive JoinError where
  | rejected
  | external
  | timeout
  | cancelled
  deriving DecidableEq, Repr

/-- What the outside does to a request: nothing, lose it, or lose the answer to
a change that was made. -/
inductive Fault where
  | none
  | lost
  | unanswered
  deriving DecidableEq, Repr

/-- What the `select` of `waitForCatchUp` receives. -/
inductive Tick where
  | deadline
  | done
  | poll (answered : Bool)
  deriving DecidableEq, Repr

/-- What one `JoinCluster` call meets outside. -/
structure Attempt where
  addMetadata : Fault
  addEvent : Fault
  waitEvent : List Tick
  waitMetadata : List Tick
  promoteMetadata : Fault
  promoteEvent : Fault
  deriving DecidableEq, Repr

abbrev Handler := Effectful Cluster JoinError Unit

/-- A membership request to a group. -/
def syncRequest (change : Membership → Option Membership) (fault : Fault)
    (group : Group) : Handler := do
  let cluster ← get
  match fault with
  | .lost => throw .external
  | .unanswered =>
      set (Function.update cluster group
        ((change (cluster group)).getD (cluster group)))
      throw .external
  | .none =>
      match change (cluster group) with
      | none => throw .rejected
      | some changed => set (Function.update cluster group changed)

/-- `waitForCatchUp`; when nothing else comes the deadline does. -/
def waitForCatchUp (nodeID : UInt64) (group : Group) : List Tick → Handler
  | [] => throw .timeout
  | .deadline :: _ => throw .timeout
  | .done :: _ => throw .cancelled
  | .poll false :: ticks => waitForCatchUp nodeID group ticks
  | .poll true :: ticks => do
      let cluster ← get
      if nodeID ∈ (cluster group).nonVotings then pure ()
      else waitForCatchUp nodeID group ticks

/-- `ClusterHandler.JoinCluster`: an error is answered with `Success: false`. -/
def ClusterHandler.joinCluster (host : NodeHost) (req : JoinRequest) (attempt : Attempt) :
    Handler := do
  syncRequest (host.addNonVoting req) attempt.addMetadata .metadata
  syncRequest (host.addNonVoting req) attempt.addEvent .event
  waitForCatchUp req.nodeID .event attempt.waitEvent
  waitForCatchUp req.nodeID .metadata attempt.waitMetadata
  syncRequest (host.addReplica req) attempt.promoteMetadata .metadata
  syncRequest (host.addReplica req) attempt.promoteEvent .event

/-- A seed of `joinCluster`: it cannot be reached, does not run Raft, handles the
call but the answer is lost, or answers. -/
inductive Seed where
  | unreachable
  | standalone
  | unanswered (attempt : Attempt)
  | answered (attempt : Attempt)

/-- One round of the loop over the seeds: the cluster afterwards, and whether the
seed reported success. -/
def contact (host : NodeHost) (req : JoinRequest) (cluster : Cluster) :
    Seed → Cluster × Bool
  | .unreachable => (cluster, false)
  | .standalone => (cluster, false)
  | .unanswered attempt =>
      ((exec (ClusterHandler.joinCluster host req attempt) cluster).2, false)
  | .answered attempt =>
      let (outcome, cluster) :=
        exec (ClusterHandler.joinCluster host req attempt) cluster
      (cluster, outcome.isOk)

/-- `joinCluster` of a starting broker; `false` is its fatal end. -/
def joinCluster (host : NodeHost) (req : JoinRequest) :
    Cluster → List Seed → Cluster × Bool
  | cluster, [] => (cluster, false)
  | cluster, seed :: seeds =>
      match contact host req cluster seed with
      | (cluster, true) => (cluster, true)
      | (cluster, false) => joinCluster host req cluster seeds

/-! ## The steps of a call -/

/-- Some poll is answered before the wait ends for an outside reason. -/
def Polled : List Tick → Prop
  | [] => False
  | .deadline :: _ => False
  | .done :: _ => False
  | .poll false :: ticks => Polled ticks
  | .poll true :: _ => True

/-- No request of the attempt fails for an outside reason. -/
structure Attempt.Undisturbed (attempt : Attempt) : Prop where
  addMetadata : attempt.addMetadata = .none
  addEvent : attempt.addEvent = .none
  waitEvent : Polled attempt.waitEvent
  waitMetadata : Polled attempt.waitMetadata
  promoteMetadata : attempt.promoteMetadata = .none
  promoteEvent : attempt.promoteEvent = .none

theorem exec_syncRequest_eq_ok_iff {change : Membership → Option Membership}
    {fault : Fault} {group : Group} {cluster next : Cluster} {value : Unit} :
    exec (syncRequest change fault group) cluster = (.ok value, next) ↔
      fault = .none ∧ ∃ changed, change (cluster group) = some changed ∧
        next = Function.update cluster group changed := by
  cases fault with
  | lost => simp [syncRequest, exec_bind]
  | unanswered => simp [syncRequest, exec_bind]
  | none =>
      cases hchange : change (cluster group) with
      | none => simp [syncRequest, exec_bind, hchange]
      | some changed => simp [syncRequest, exec_bind, hchange, eq_comm]

theorem exec_waitForCatchUp_eq_ok_iff {nodeID : UInt64} {group : Group}
    {ticks : List Tick} {cluster next : Cluster} {value : Unit} :
    exec (waitForCatchUp nodeID group ticks) cluster = (.ok value, next) ↔
      Polled ticks ∧ nodeID ∈ (cluster group).nonVotings ∧ next = cluster := by
  induction ticks with
  | nil => simp [waitForCatchUp, Polled]
  | cons tick ticks ih =>
      cases tick with
      | deadline => simp [waitForCatchUp, Polled]
      | done => simp [waitForCatchUp, Polled]
      | poll answered =>
          cases answered with
          | false => exact ih
          | true =>
              rw [waitForCatchUp, exec_bind]
              simp only [exec_get]
              by_cases hlisted : nodeID ∈ (cluster group).nonVotings
              · simp [hlisted, Polled, eq_comm]
              · rw [if_neg hlisted, ih]
                simp [hlisted]

/-- The membership after the two requests of a call. -/
def promoted (req : JoinRequest) (membership : Membership) : Membership :=
  (membership.withNonVoting req).withReplica req

/-- A call succeeds exactly when nothing disturbs it and both groups take the node. -/
theorem exec_joinCluster_eq_ok_iff {host : NodeHost} {req : JoinRequest}
    {attempt : Attempt} {cluster next : Cluster} {value : Unit} :
    exec (ClusterHandler.joinCluster host req attempt) cluster = (.ok value, next) ↔
      attempt.Undisturbed ∧ (∀ group, host.Takes req (cluster group)) ∧
        next = fun group => promoted req (cluster group) := by
  simp only [ClusterHandler.joinCluster, exec_bind_eq_ok_iff, exec_syncRequest_eq_ok_iff,
    exec_waitForCatchUp_eq_ok_iff, NodeHost.addNonVoting_eq_some_iff]
  constructor
  · rintro ⟨_, _, ⟨haddMetadata, _, ⟨hmetadata, rfl⟩, rfl⟩, _, _,
      ⟨haddEvent, _, ⟨hevent, rfl⟩, rfl⟩, _, _, ⟨hwaitEvent, -, rfl⟩, _, _,
      ⟨hwaitMetadata, -, rfl⟩, _, _, ⟨hpromoteMetadata, _, hmetadataVote, rfl⟩,
      hpromoteEvent, _, heventVote, rfl⟩
    refine ⟨⟨haddMetadata, haddEvent, hwaitEvent, hwaitMetadata, hpromoteMetadata,
      hpromoteEvent⟩, ?_, ?_⟩
    · intro group
      cases group with
      | metadata => exact hmetadata
      | event => simpa using hevent
    · have hmetadataNext := host.addReplica_effect hmetadataVote
      have heventNext := host.addReplica_effect heventVote
      funext group
      cases group with
      | metadata => simp [promoted, hmetadataNext]
      | event => simp [promoted, heventNext]
  · rintro ⟨hundisturbed, htakes, rfl⟩
    refine ⟨(), _, ⟨hundisturbed.addMetadata, _, ⟨htakes .metadata, rfl⟩, rfl⟩, (), _,
      ⟨hundisturbed.addEvent, _, ⟨by simpa using htakes .event, rfl⟩, rfl⟩, (), _,
      ⟨hundisturbed.waitEvent, by simp [Membership.withNonVoting], rfl⟩, (), _,
      ⟨hundisturbed.waitMetadata, by simp [Membership.withNonVoting], rfl⟩, (), _,
      ⟨hundisturbed.promoteMetadata, promoted req (cluster .metadata),
        by simpa [promoted] using (htakes .metadata).addReplica, rfl⟩,
      hundisturbed.promoteEvent, promoted req (cluster .event),
      by simpa [promoted] using (htakes .event).addReplica, ?_⟩
    funext group
    cases group with
    | metadata => simp
    | event => simp

/-! ## What a call leaves behind -/

section Left

variable {host : NodeHost} {req : JoinRequest}

theorem has_addNonVoting {membership changed : Membership}
    (hchange : host.addNonVoting req membership = some changed) :
    changed.Has req.nodeID := by
  rw [host.addNonVoting_effect hchange]
  exact .inr (by simp [Membership.withNonVoting])

theorem has_addReplica {membership changed : Membership}
    (hchange : host.addReplica req membership = some changed) :
    changed.Has req.nodeID := by
  rw [host.addReplica_effect hchange]
  exact .inl (by simp [Membership.withReplica])

/-- The group knows the node. -/
def Knows (req : JoinRequest) (group : Group) (cluster : Cluster) : Prop :=
  (cluster group).Has req.nodeID

theorem knows_update {group changed : Group} {cluster : Cluster}
    (hknows : Knows req group cluster) {membership : Membership}
    (hmembership : membership.Has req.nodeID) :
    Knows req group (Function.update cluster changed membership) := by
  rw [Knows, Function.update_apply]
  split_ifs
  · exact hmembership
  · exact hknows

theorem preserves_syncRequest {change : Membership → Option Membership}
    (hchange : ∀ membership changed, change membership = some changed →
      changed.Has req.nodeID) (fault : Fault) (group changed : Group) :
    Preserves (Knows req group) (syncRequest change fault changed) := by
  intro cluster hknows
  cases fault with
  | lost => exact hknows
  | unanswered =>
      cases hfound : change (cluster changed) with
      | none => simpa [syncRequest, exec_bind, hfound] using hknows
      | some membership =>
          simpa [syncRequest, exec_bind, hfound] using
            knows_update hknows (hchange _ _ hfound)
  | none =>
      cases hfound : change (cluster changed) with
      | none => simpa [syncRequest, exec_bind, hfound] using hknows
      | some membership =>
          simpa [syncRequest, exec_bind, hfound] using
            knows_update hknows (hchange _ _ hfound)

theorem exec_waitForCatchUp_snd (nodeID : UInt64) (group : Group) (ticks : List Tick)
    (cluster : Cluster) : (exec (waitForCatchUp nodeID group ticks) cluster).2 = cluster := by
  induction ticks with
  | nil => rfl
  | cons tick ticks ih =>
      cases tick with
      | deadline => rfl
      | done => rfl
      | poll answered =>
          cases answered with
          | false => exact ih
          | true =>
              rw [waitForCatchUp, exec_bind]
              simp only [exec_get]
              split_ifs
              · rfl
              · exact ih

theorem preserves_waitForCatchUp (group waited : Group) (ticks : List Tick) :
    Preserves (Knows req group) (waitForCatchUp req.nodeID waited ticks) := by
  intro cluster hknows
  rw [exec_waitForCatchUp_snd]
  exact hknows

theorem preserves_addNonVoting (group changed : Group) (fault : Fault) :
    Preserves (Knows req group) (syncRequest (host.addNonVoting req) fault changed) :=
  preserves_syncRequest (fun _ _ hchange => has_addNonVoting hchange) fault group changed

theorem preserves_addReplica (group changed : Group) (fault : Fault) :
    Preserves (Knows req group) (syncRequest (host.addReplica req) fault changed) :=
  preserves_syncRequest (fun _ _ hchange => has_addReplica hchange) fault group changed

/-- A member stays one in the steps after the first. -/
theorem preserves_rest (group : Group) (attempt : Attempt) :
    Preserves (Knows req group) (do
      syncRequest (host.addNonVoting req) attempt.addEvent .event
      waitForCatchUp req.nodeID .event attempt.waitEvent
      waitForCatchUp req.nodeID .metadata attempt.waitMetadata
      syncRequest (host.addReplica req) attempt.promoteMetadata .metadata
      syncRequest (host.addReplica req) attempt.promoteEvent .event) := by
  refine (preserves_addNonVoting group _ _).bind fun _ => ?_
  refine (preserves_waitForCatchUp group _ _).bind fun _ => ?_
  refine (preserves_waitForCatchUp group _ _).bind fun _ => ?_
  refine (preserves_addReplica group _ _).bind fun _ => ?_
  exact preserves_addReplica group _ _

theorem preserves_joinCluster (group : Group) (attempt : Attempt) :
    Preserves (Knows req group) (ClusterHandler.joinCluster host req attempt) :=
  (preserves_addNonVoting group _ _).bind fun _ => preserves_rest group attempt

/-- A request that gets through, answered or not, makes a node known that the group
takes. -/
theorem knows_addNonVoting {fault : Fault} (hfault : fault ≠ .lost) {group : Group}
    {cluster : Cluster} (htakes : host.Takes req (cluster group)) :
    Knows req group
      (exec (syncRequest (host.addNonVoting req) fault group) cluster).2 := by
  have hchange : host.addNonVoting req (cluster group) = some _ :=
    NodeHost.addNonVoting_eq_some_iff.mpr ⟨htakes, rfl⟩
  have hadded := has_addNonVoting hchange
  cases fault with
  | lost => exact absurd rfl hfault
  | unanswered => simpa [syncRequest, exec_bind, hchange, Knows] using hadded
  | none => simpa [syncRequest, exec_bind, hchange, Knows] using hadded

theorem knows_joinCluster {attempt : Attempt} (hfault : attempt.addMetadata ≠ .lost)
    {cluster : Cluster} (htakes : host.Takes req (cluster .metadata)) :
    Knows req .metadata (exec (ClusterHandler.joinCluster host req attempt) cluster).2 :=
  property_exec_bind (knows_addNonVoting hfault htakes) fun _ =>
    preserves_rest .metadata attempt

theorem exec_joinCluster_of_lost {attempt : Attempt}
    (hlost : attempt.addMetadata = .lost) (cluster : Cluster) :
    (exec (ClusterHandler.joinCluster host req attempt) cluster).2 = cluster := by
  rw [ClusterHandler.joinCluster, hlost, exec_bind]
  rfl

end Left

/-! ## Attempts through seeds -/

/-- The contact does not get as far as the first change. -/
def Seed.Untouched : Seed → Prop
  | .unreachable => True
  | .standalone => True
  | .unanswered attempt => attempt.addMetadata = .lost
  | .answered attempt => attempt.addMetadata = .lost

/-- The cluster after a sequence of contacts. -/
def after (host : NodeHost) (req : JoinRequest) (cluster : Cluster) (seeds : List Seed) :
    Cluster :=
  seeds.foldl (fun cluster seed => (contact host req cluster seed).1) cluster

/-- The call answers `Success: true` and leaves the node a voting member of both
groups. -/
def Joins (host : NodeHost) (req : JoinRequest) (cluster : Cluster) (attempt : Attempt) :
    Prop :=
  (exec (ClusterHandler.joinCluster host req attempt) cluster).1 = .ok () ∧
    ∀ group, req.nodeID ∈
      ((exec (ClusterHandler.joinCluster host req attempt) cluster).2 group).nodes

section Seeds

variable {host : NodeHost} {req : JoinRequest}

theorem joins_iff {cluster : Cluster} {attempt : Attempt}
    (hundisturbed : attempt.Undisturbed) :
    Joins host req cluster attempt ↔ ∀ group, host.Takes req (cluster group) := by
  constructor
  · rintro ⟨hok, -⟩
    exact (exec_joinCluster_eq_ok_iff.mp (Prod.ext hok rfl)).2.1
  · intro htakes
    have hexec : exec (ClusterHandler.joinCluster host req attempt) cluster =
        (.ok (), _) := exec_joinCluster_eq_ok_iff.mpr ⟨hundisturbed, htakes, rfl⟩
    rw [Joins, hexec]
    exact ⟨rfl, fun group => by simp [promoted, Membership.withReplica]⟩

theorem not_takes_of_knows {group : Group} {cluster : Cluster}
    (hknows : Knows req group cluster) : ¬ ∀ group, host.Takes req (cluster group) :=
  fun htakes => (htakes group).stranger hknows

theorem contact_of_untouched {seed : Seed} (huntouched : seed.Untouched)
    (cluster : Cluster) : (contact host req cluster seed).1 = cluster := by
  cases seed with
  | unreachable => rfl
  | standalone => rfl
  | unanswered attempt => exact exec_joinCluster_of_lost huntouched cluster
  | answered attempt => exact exec_joinCluster_of_lost huntouched cluster

theorem knows_contact {group : Group} {cluster : Cluster}
    (hknows : Knows req group cluster) (seed : Seed) :
    Knows req group (contact host req cluster seed).1 := by
  cases seed with
  | unreachable => exact hknows
  | standalone => exact hknows
  | unanswered attempt => exact preserves_joinCluster group attempt cluster hknows
  | answered attempt => exact preserves_joinCluster group attempt cluster hknows

theorem knows_contact_of_touched {seed : Seed} (htouched : ¬ seed.Untouched)
    {cluster : Cluster} (htakes : host.Takes req (cluster .metadata)) :
    Knows req .metadata (contact host req cluster seed).1 := by
  cases seed with
  | unreachable => exact absurd trivial htouched
  | standalone => exact absurd trivial htouched
  | unanswered attempt => exact knows_joinCluster htouched htakes
  | answered attempt => exact knows_joinCluster htouched htakes

theorem after_of_untouched {seeds : List Seed}
    (huntouched : ∀ seed ∈ seeds, seed.Untouched) (cluster : Cluster) :
    after host req cluster seeds = cluster := by
  induction seeds with
  | nil => rfl
  | cons seed seeds ih =>
      obtain ⟨hseed, hseeds⟩ := List.forall_mem_cons.mp huntouched
      rw [after, List.foldl_cons, contact_of_untouched hseed]
      exact ih hseeds

theorem knows_after {group : Group} {cluster : Cluster}
    (hknows : Knows req group cluster) (seeds : List Seed) :
    Knows req group (after host req cluster seeds) := by
  induction seeds generalizing cluster with
  | nil => exact hknows
  | cons seed seeds ih => exact ih (knows_contact hknows seed)

/-- The first contact that gets as far as its first change finds the cluster as it was, and
what it leaves there stays. -/
theorem knows_after_of_touched {seeds : List Seed} {seed : Seed} (hseed : seed ∈ seeds)
    (htouched : ¬ seed.Untouched) {cluster : Cluster}
    (htakes : host.Takes req (cluster .metadata)) :
    Knows req .metadata (after host req cluster seeds) := by
  induction seeds with
  | nil => cases hseed
  | cons first seeds ih =>
      rw [after, List.foldl_cons]
      by_cases hfirst : first.Untouched
      · rw [contact_of_untouched hfirst]
        rcases List.mem_cons.mp hseed with rfl | hrest
        · exact absurd hfirst htouched
        · exact ih hrest
      · exact knows_after (knows_contact_of_touched hfirst htakes) seeds

end Seeds

/-- An attempt that no outside failure disturbs makes the node a voting member of
both groups exactly when both groups take it as a new non-voting member: they do when
the node is new to them, they do not when one of them has it.  After any contacts
through any seeds of a node that they took before, they still do exactly when none of
these contacts got as far as its first change. -/
theorem join_retry_iff (host : NodeHost) (req : JoinRequest) {attempt : Attempt}
    (hundisturbed : attempt.Undisturbed) :
    (∀ cluster, Joins host req cluster attempt ↔
      ∀ group, host.Takes req (cluster group)) ∧
    (∀ cluster : Cluster, (∀ group, host.New req (cluster group)) →
      Joins host req cluster attempt) ∧
    (∀ (cluster : Cluster) (group : Group), (cluster group).Has req.nodeID →
      ¬ Joins host req cluster attempt) ∧
    ∀ (cluster : Cluster) (earlier : List Seed),
      (∀ group, host.Takes req (cluster group)) →
      (Joins host req (after host req cluster earlier) attempt ↔
        ∀ seed ∈ earlier, seed.Untouched) := by
  refine ⟨fun cluster => joins_iff hundisturbed, fun cluster hnew => ?_,
    fun cluster group hhas => ?_, fun cluster earlier htakes => ?_⟩
  · exact (joins_iff hundisturbed).mpr fun group => (hnew group).takes
  · rw [joins_iff hundisturbed]
    exact not_takes_of_knows hhas
  · rw [joins_iff hundisturbed]
    constructor
    · intro hstill seed hseed
      by_contra htouched
      exact not_takes_of_knows (knows_after_of_touched hseed htouched (htakes .metadata))
        hstill
    · intro huntouched
      rw [after_of_untouched huntouched]
      exact htakes

/-! ## The loop over the seeds -/

section Loop

variable {host : NodeHost} {req : JoinRequest} {cluster : Cluster}

theorem contact_snd_iff {seed : Seed} :
    (contact host req cluster seed).2 = true ↔
      ∃ attempt, seed = .answered attempt ∧ attempt.Undisturbed ∧
        ∀ group, host.Takes req (cluster group) := by
  cases seed with
  | unreachable => simp [contact]
  | standalone => simp [contact]
  | unanswered attempt => simp [contact]
  | answered attempt =>
      simp only [contact, Seed.answered.injEq, exists_eq_left']
      constructor
      · intro hok
        rcases hexec : exec (ClusterHandler.joinCluster host req attempt) cluster with
          ⟨_ | value, next⟩
        · rw [hexec] at hok
          cases hok
        · obtain ⟨hundisturbed, htakes, -⟩ := exec_joinCluster_eq_ok_iff.mp hexec
          exact ⟨hundisturbed, htakes⟩
      · rintro ⟨hundisturbed, htakes⟩
        rw [((joins_iff hundisturbed).mpr htakes).1]
        rfl

theorem joinCluster_cons {seed : Seed} (hfailed : (contact host req cluster seed).2 = false)
    (seeds : List Seed) :
    joinCluster host req cluster (seed :: seeds) =
      joinCluster host req (contact host req cluster seed).1 seeds := by
  rw [joinCluster]
  rcases hcontact : contact host req cluster seed with ⟨next, _ | _⟩
  · rfl
  · rw [hcontact] at hfailed
    cases hfailed

theorem joinCluster_of_knows {group : Group} (hknows : Knows req group cluster)
    (seeds : List Seed) : (joinCluster host req cluster seeds).2 = false := by
  induction seeds generalizing cluster with
  | nil => rfl
  | cons seed seeds ih =>
      have hnext : Knows req group (contact host req cluster seed).1 :=
        knows_contact hknows seed
      rw [joinCluster]
      rcases hcontact : contact host req cluster seed with ⟨next, _ | _⟩
      · rw [hcontact] at hnext
        exact ih hnext
      · obtain ⟨_, -, -, htakes⟩ := contact_snd_iff.mp (congrArg Prod.snd hcontact)
        exact absurd htakes (not_takes_of_knows hknows)

/-- A node that both groups take joins through the first seed that answers an undisturbed
call, as long as no seed before it got as far as its first change. -/
theorem joinCluster_succeeds_iff (htakes : ∀ group, host.Takes req (cluster group))
    (seeds : List Seed) :
    (joinCluster host req cluster seeds).2 = true ↔
      ∃ earlier attempt later, seeds = earlier ++ .answered attempt :: later ∧
        (∀ seed ∈ earlier, seed.Untouched) ∧ attempt.Undisturbed := by
  induction seeds with
  | nil => simp [joinCluster]
  | cons seed seeds ih =>
      rw [joinCluster]
      rcases hcontact : contact host req cluster seed with ⟨next, _ | _⟩
      · have hrefused : ∀ attempt, seed = .answered attempt → ¬ attempt.Undisturbed := by
          intro attempt hseed hundisturbed
          have hjoined := contact_snd_iff.mpr ⟨attempt, hseed, hundisturbed, htakes⟩
          rw [hcontact] at hjoined
          cases hjoined
        constructor
        · intro hjoined
          by_cases huntouched : seed.Untouched
          · have hnext : (contact host req cluster seed).1 = cluster :=
              contact_of_untouched huntouched cluster
            rw [hcontact] at hnext
            subst hnext
            obtain ⟨earlier, attempt, later, rfl, hearlier, hundisturbed⟩ :=
              ih.mp hjoined
            exact ⟨seed :: earlier, attempt, later, rfl,
              List.forall_mem_cons.mpr ⟨huntouched, hearlier⟩, hundisturbed⟩
          · have hknows : Knows req .metadata (contact host req cluster seed).1 :=
              knows_contact_of_touched huntouched (htakes .metadata)
            rw [hcontact] at hknows
            rw [joinCluster_of_knows hknows] at hjoined
            cases hjoined
        · rintro ⟨earlier, attempt, later, hseeds, hearlier, hundisturbed⟩
          cases earlier with
          | nil =>
              cases hseeds
              exact absurd hundisturbed (hrefused attempt rfl)
          | cons first earlier =>
              cases hseeds
              obtain ⟨huntouched, hearlier⟩ := List.forall_mem_cons.mp hearlier
              have hnext : (contact host req cluster seed).1 = cluster :=
                contact_of_untouched huntouched cluster
              rw [hcontact] at hnext
              subst hnext
              exact ih.mpr ⟨earlier, attempt, later, rfl, hearlier, hundisturbed⟩
      · obtain ⟨attempt, rfl, hundisturbed, -⟩ :=
          contact_snd_iff.mp (congrArg Prod.snd hcontact)
        simp only [true_iff]
        exact ⟨[], attempt, seeds, rfl, by simp, hundisturbed⟩

end Loop

/-! ## A node that gets half-way -/

/-- Both groups have node 1 as their only member. -/
def oneNode : Cluster := fun _ => ⟨(∅ : Contents UInt64 String).insert 1 "n1", ∅, []⟩

def secondNode : JoinRequest := ⟨2, "n2"⟩

def smooth : Attempt := ⟨.none, .none, [.poll true], [.poll true], .none, .none⟩

theorem smooth_undisturbed : smooth.Undisturbed :=
  ⟨rfl, rfl, trivial, trivial, rfl, rfl⟩

/-- The request to the event shard is lost. -/
def halfWay : Attempt := { smooth with addEvent := .lost }

theorem oneNode_stranger (group : Group) : ¬ (oneNode group).Has secondNode.nodeID := by
  cases group with
  | metadata => decide +kernel
  | event => decide +kernel

/-- When the metadata group refuses the node the call ends at its first request. -/
theorem rejected_of_refused {host : NodeHost} {req : JoinRequest} {cluster : Cluster}
    {attempt : Attempt} (hfault : attempt.addMetadata = .none)
    (hrefused : host.addNonVoting req (cluster .metadata) = none) :
    (exec (ClusterHandler.joinCluster host req attempt) cluster).1 = .error .rejected := by
  rw [ClusterHandler.joinCluster, hfault, exec_bind]
  simp [syncRequest, exec_bind, hrefused]

/-- After the lost request the metadata group refuses the node, if not before. -/
theorem refused_after_halfWay (host : NodeHost) :
    host.addNonVoting secondNode
      (after host secondNode oneNode [.answered halfWay] .metadata) = none := by
  cases hfirst : host.addNonVoting secondNode (oneNode .metadata) with
  | none =>
      have hsame : (after host secondNode oneNode [.answered halfWay]) = oneNode := by
        simp [after, contact, ClusterHandler.joinCluster, halfWay, smooth, syncRequest,
          exec_bind, hfirst]
      rw [hsame, hfirst]
  | some changed =>
      have htakes : host.Takes secondNode (oneNode .metadata) := by
        rw [NodeHost.Takes, hfirst]
        rfl
      exact host.rejects_member (knows_after_of_touched List.mem_cons_self
        (by simp [Seed.Untouched, halfWay, smooth]) htakes)

theorem strict_new_oneNode (group : Group) :
    NodeHost.strict.New secondNode (oneNode group) := by
  refine ⟨oneNode_stranger group, List.not_mem_nil, ?_⟩
  change "n2" ∉ (oneNode group).nodes.values ++ (oneNode group).nonVotings.values
  cases group with
  | metadata => decide +kernel
  | event => decide +kernel

/-- The node is a member of neither group, and a `NodeHost` may take it.  Without the lost
request it would join whenever Dragonboat takes it; after it every attempt is rejected at
its first request. -/
theorem half_joined_is_rejected :
    (∀ group, ¬ (oneNode group).Has secondNode.nodeID ∧
      NodeHost.strict.Takes secondNode (oneNode group)) ∧
    ∀ host : NodeHost,
      ((∀ group, host.Takes secondNode (oneNode group)) →
        Joins host secondNode oneNode smooth) ∧
      (exec (ClusterHandler.joinCluster host secondNode smooth)
        (after host secondNode oneNode [.answered halfWay])).1 = .error .rejected ∧
      ¬ Joins host secondNode (after host secondNode oneNode [.answered halfWay]) smooth ∧
      (joinCluster host secondNode oneNode [.answered halfWay, .answered smooth]).2 =
        false := by
  refine ⟨fun group => ⟨oneNode_stranger group, (strict_new_oneNode group).takes⟩,
    fun host => ?_⟩
  have hrejected : (exec (ClusterHandler.joinCluster host secondNode smooth)
      (after host secondNode oneNode [.answered halfWay])).1 = .error .rejected :=
    rejected_of_refused rfl (refused_after_halfWay host)
  refine ⟨(joins_iff smooth_undisturbed).mpr, hrejected, ?_, ?_⟩
  · rintro ⟨hok, -⟩
    rw [hrejected] at hok
    cases hok
  · have hfirst : (contact host secondNode oneNode (.answered halfWay)).2 = false := by
      rw [← Bool.not_eq_true, contact_snd_iff]
      rintro ⟨_, ⟨⟩, hundisturbed, -⟩
      cases hundisturbed.addEvent
    have hsecond : (contact host secondNode
        (after host secondNode oneNode [.answered halfWay]) (.answered smooth)).2 =
          false := by
      simp only [contact, hrejected]
      rfl
    rw [joinCluster_cons hfirst]
    exact congrArg Prod.snd (joinCluster_cons hsecond [])

theorem join_retry_iff_unreachable :
    (∀ group, NodeHost.strict.New secondNode (oneNode group)) ∧
      Joins .strict secondNode (after .strict secondNode oneNode
        [.unreachable, .answered { smooth with addMetadata := .lost }]) smooth := by
  refine ⟨strict_new_oneNode, ((join_retry_iff .strict secondNode
    smooth_undisturbed).2.2.2 oneNode _ fun group => (strict_new_oneNode group).takes).mpr ?_⟩
  simp [Seed.Untouched]

end FutureQ.Join
