import FutureQ.Core.Lease
import FutureQ.Broker.Rounds

/-!
# Exact suppression

The in-flight table is a table of leases: a send takes the key, `RemoveInFlight`
releases it, and `isInFlight` drops an entry that has run out.  Along every
sequence of passes over a clock that does not run backwards, a pass offers a due
message exactly when what happened to its key before leaves it free.
-/

namespace FutureQ.Suppression

open FutureQ.ByteOrder
open FutureQ.OrderedStore
open FutureQ.Transition
open FutureQ.Lease
open FutureQ.Storage
open FutureQ.Keys
open FutureQ.Repository
open FutureQ.DueScan
open FutureQ.Consumers
open FutureQ.Dispatch
open FutureQ.Rounds (orderLibraries orderKey)

variable {Index : Type}

/-- Since when the dispatcher has the keys in flight. -/
def leases (dispatcher : Dispatcher) : Lease.Table Bytes := fun key =>
  dispatcher.inFlight[key]?.map InFlightEntry.dispatchedAt

/-- The offers that reached a consumer, newest first. -/
def sends (turns : Bytes → Turn) (offers : List (Offer Index)) :
    List (Event Bytes) :=
  ((offers.filter fun offer => offer.receivers ≠ []).map fun offer =>
    .taken offer.key (turns offer.key).storedAt).reverse

/-- The clock readings of a pass in the order in which the callback takes them.
Where it takes only the first, the second stands for no reading. -/
def readings (turns : Bytes → Turn) (entries : List (Bytes × Bytes)) : List ℕ :=
  entries.flatMap fun entry =>
    [(turns entry.1).checkedAt, (turns entry.1).storedAt]

/-- `clock` is the last reading and `history` what happened to the keys, newest
event first. -/
structure State where
  hub : Hub
  dispatcher : Dispatcher
  clock : ℕ
  history : List (Event Bytes)

def State.fresh (inFlightTimeout : Duration) (hub : Hub) (clock : ℕ) : State :=
  ⟨hub, newDispatcher inFlightTimeout, clock, []⟩

/-- Between two passes the hub and the database may become any other. -/
inductive Action where
  | pass (size : TimeBucketSize) (db : DB) (topic : String) (nowMs : Int64)
      (turns : Bytes → Turn)
  | removeInFlight (key : Bytes)
  | removeInFlightBatch (keys : List Bytes)
  | changeHub (hub : Hub)

/-- A pass needs readings that do not run backwards. -/
def step (lib : Libraries Index) (state : State) : Action → Option State
  | .pass size db topic nowMs turns =>
      let taken := readings turns
        (dueScan db (lib.topicHash topic) (size.bucket nowMs))
      let pass := dispatchTopic lib size db turns state.hub state.dispatcher topic nowMs
      if (state.clock :: taken).IsChain (· ≤ ·) then
        some ⟨pass.hub, pass.dispatcher, taken.getLastD state.clock,
          sends turns pass.offers ++ state.history⟩
      else none
  | .removeInFlight key => some { state with
      dispatcher := state.dispatcher.removeInFlight key
      history := .released key :: state.history }
  | .removeInFlightBatch keys => some { state with
      dispatcher := state.dispatcher.removeInFlightBatch keys
      history := (keys.map .released).reverse ++ state.history }
  | .changeHub hub => some { state with hub }

/-! ## The table of leases -/

theorem suppresses_iff {dispatcher : Dispatcher} {key : Bytes} {now : ℕ} :
    dispatcher.Suppresses key now ↔ ∃ since, leases dispatcher key = some since ∧
      (now : ℤ) - since < dispatcher.inFlightTimeout.toInt := by
  simp [Dispatcher.Suppresses, leases]

theorem leases_track (dispatcher : Dispatcher) (key : Bytes) (now : ℕ)
    (topic : String) :
    leases (dispatcher.track key now topic) =
      Function.update (leases dispatcher) key (some now) := by
  funext other
  by_cases hkey : other = key
  · subst hkey
    simp [leases, Dispatcher.track]
  · rw [Function.update_of_ne hkey, leases, leases, Dispatcher.track,
      getElem?_insert_ne (Ne.symm hkey)]

theorem leases_removeInFlight (dispatcher : Dispatcher) (key : Bytes) :
    leases (dispatcher.removeInFlight key) =
      Function.update (leases dispatcher) key none := by
  funext other
  by_cases hkey : other = key
  · subst hkey
    simp [leases, Dispatcher.removeInFlight]
  · rw [Function.update_of_ne hkey, leases, leases, Dispatcher.removeInFlight,
      getElem?_erase_ne (Ne.symm hkey)]

/-- The table follows the history, and no key was sent while its lease ran. -/
structure Sound (inFlightTimeout : Duration) (dispatcher : Dispatcher) (clock : ℕ)
    (history : List (Event Bytes)) : Prop where
  timeout : dispatcher.inFlightTimeout = inFlightTimeout
  tracks : Tracks inFlightTimeout.toInt (leases dispatcher) clock history
  apart : Apart inFlightTimeout.toInt history

section Sound

variable {inFlightTimeout : Duration} {dispatcher : Dispatcher} {clock now : ℕ}
variable {history : List (Event Bytes)}

theorem sound_newDispatcher (inFlightTimeout : Duration) (clock : ℕ) :
    Sound inFlightTimeout (newDispatcher inFlightTimeout) clock [] := by
  refine ⟨rfl, ?_, trivial⟩
  have hempty : leases (newDispatcher inFlightTimeout) = fun _ => none := by
    funext key
    simp [leases, newDispatcher]
  rw [hempty]
  exact tracks_empty _ clock

theorem Sound.free_iff (hsound : Sound inFlightTimeout dispatcher clock history)
    (hle : clock ≤ now) (key : Bytes) :
    Free inFlightTimeout.toInt history key now ↔ ¬ dispatcher.Suppresses key now := by
  rw [hsound.tracks.free_iff hle, suppresses_iff, hsound.timeout]
  push Not
  rfl

/-- `isInFlight` drops what has run out. -/
theorem Sound.isInFlight (hsound : Sound inFlightTimeout dispatcher clock history)
    (hle : clock ≤ now) (key : Bytes) :
    Sound inFlightTimeout (dispatcher.isInFlight key now).2 now history := by
  have hkept : Sound inFlightTimeout dispatcher now history :=
    ⟨hsound.timeout, hsound.tracks.tick hle, hsound.apart⟩
  rw [Dispatcher.isInFlight]
  cases hentry : dispatcher.inFlight[key]? with
  | none => exact hkept
  | some entry =>
      simp only
      split_ifs with hrunning
      · exact hkept
      · refine ⟨hsound.timeout, ?_, hsound.apart⟩
        rw [leases_removeInFlight]
        rw [hsound.timeout, not_lt] at hrunning
        exact hsound.tracks.drop hle (by rw [leases, hentry]; rfl) hrunning

theorem Sound.track (hsound : Sound inFlightTimeout dispatcher clock history)
    (hle : clock ≤ now) {key : Bytes}
    (hfree : Free inFlightTimeout.toInt history key now) (topic : String) :
    Sound inFlightTimeout (dispatcher.track key now topic) now
      (.taken key now :: history) := by
  refine ⟨hsound.timeout, ?_, hfree, hsound.apart⟩
  rw [leases_track]
  exact hsound.tracks.take hle key

theorem Sound.removeInFlight
    (hsound : Sound inFlightTimeout dispatcher clock history) (key : Bytes) :
    Sound inFlightTimeout (dispatcher.removeInFlight key) clock
      (.released key :: history) := by
  refine ⟨hsound.timeout, ?_, hsound.apart⟩
  rw [leases_removeInFlight]
  exact hsound.tracks.release key

theorem Sound.removeInFlightBatch (keys : List Bytes)
    (hsound : Sound inFlightTimeout dispatcher clock history) :
    Sound inFlightTimeout (dispatcher.removeInFlightBatch keys) clock
      ((keys.map .released).reverse ++ history) := by
  induction keys generalizing dispatcher history with
  | nil => exact hsound
  | cons key keys ih =>
      rw [List.map_cons, List.reverse_cons, List.append_assoc]
      exact ih (hsound.removeInFlight key)

end Sound

/-! ## One visit -/

/-- One group is noted for every consumer that was reached. -/
def Counted (delivery : Delivery) : Prop :=
  delivery.sentTo.length = delivery.receivers.length

theorem Counted.send {delivery : Delivery} (hcounted : Counted delivery)
    (msg : QueueMessage) (deliveryTag : Bytes) (gid : String)
    (consumer : ConsumerEntry) :
    Counted (delivery.send msg deliveryTag gid consumer) := by
  rw [Delivery.send, Hub.trySend]
  split_ifs
  · simpa [Counted] using hcounted
  · exact hcounted

theorem counted_dispatchToTopic (order : DispatchOrder) (hub : Hub) (topic : String)
    (msg : QueueMessage) (deliveryTag : Bytes) :
    Counted (hub.dispatchToTopic order topic msg deliveryTag) := by
  rw [Hub.dispatchToTopic]
  split
  · rfl
  · rename_i sub _
    apply foldl_delivery
    · intro delivery id hcounted
      rw [Delivery.sendToUniversal]
      split
      · exact hcounted
      · exact hcounted.send msg deliveryTag "" _
    · apply foldl_delivery
      · intro delivery gid hcounted
        rw [Delivery.sendToGroup]
        split
        · exact hcounted
        · rename_i selected after _
          exact Counted.send (show Counted { delivery with hub := after } from hcounted)
            msg deliveryTag gid selected
      · exact rfl

variable (lib : Libraries Index) (topic : String) (nowMs : Int64)
variable (turns : Bytes → Turn)

theorem sends_append (offers : List (Offer Index)) (offer : Offer Index) :
    sends turns (offers ++ [offer]) =
      if offer.receivers = [] then sends turns offers
      else .taken offer.key (turns offer.key).storedAt :: sends turns offers := by
  by_cases hnobody : offer.receivers = []
  · simp [sends, hnobody]
  · simp [sends, hnobody]

/-- A visit asks `isInFlight`, and may then send the message if the key is free. -/
theorem visit_effect (pass : Pass Index) (entry : Bytes × Bytes) :
    ((visit lib topic nowMs turns pass entry).dispatcher =
        (pass.dispatcher.isInFlight entry.1 (turns entry.1).checkedAt).2 ∧
      sends turns (visit lib topic nowMs turns pass entry).offers =
        sends turns pass.offers) ∨
    (¬ pass.dispatcher.Suppresses entry.1 (turns entry.1).checkedAt ∧
      (visit lib topic nowMs turns pass entry).dispatcher =
        (pass.dispatcher.isInFlight entry.1 (turns entry.1).checkedAt).2.track
          entry.1 (turns entry.1).storedAt topic ∧
      sends turns (visit lib topic nowMs turns pass entry).offers =
        .taken entry.1 (turns entry.1).storedAt :: sends turns pass.offers) := by
  have hsnd := inspect_snd lib pass.dispatcher nowMs (turns entry.1).checkedAt
    entry.1 entry.2
  rw [visit, ← hsnd]
  rcases hinspect : pass.dispatcher.inspect lib nowMs (turns entry.1).checkedAt
    entry.1 entry.2 with ⟨verdict, after⟩
  cases verdict with
  | inFlight => exact .inl ⟨rfl, rfl⟩
  | undecodable => exact .inl ⟨rfl, rfl⟩
  | expired => exact .inl ⟨rfl, rfl⟩
  | deliverable msg =>
      have hfree : ¬ pass.dispatcher.Suppresses entry.1 (turns entry.1).checkedAt :=
        (inspect_eq_deliverable_iff.mp (congrArg Prod.fst hinspect)).1
      have hcounted := counted_dispatchToTopic (turns entry.1).order pass.hub topic
        (queueMessage entry.1 msg) entry.1
      rw [Counted] at hcounted
      simp only [Pass.offer, hcounted, List.length_eq_zero_iff]
      split_ifs with hnobody
      · exact .inl ⟨rfl, (sends_append turns _ _).trans (if_pos hnobody)⟩
      · exact .inr ⟨hfree, rfl, (sends_append turns _ _).trans (if_neg hnobody)⟩

variable {inFlightTimeout : Duration} {clock : ℕ} {history : List (Event Bytes)}

theorem Sound.visit {pass : Pass Index} {entry : Bytes × Bytes}
    (hsound : Sound inFlightTimeout pass.dispatcher clock
      (sends turns pass.offers ++ history))
    (hchecked : clock ≤ (turns entry.1).checkedAt)
    (hstored : (turns entry.1).checkedAt ≤ (turns entry.1).storedAt) :
    Sound inFlightTimeout (visit lib topic nowMs turns pass entry).dispatcher
      (turns entry.1).storedAt
      (sends turns (visit lib topic nowMs turns pass entry).offers ++ history) := by
  have hafter := hsound.isInFlight hchecked entry.1
  rcases visit_effect lib topic nowMs turns pass entry with
    ⟨hdispatcher, hsends⟩ | ⟨hfree, hdispatcher, hsends⟩
  · rw [hdispatcher, hsends]
    exact ⟨hafter.timeout, hafter.tracks.tick hstored, hafter.apart⟩
  · rw [hdispatcher, hsends]
    apply hafter.track hstored
    rw [← hsound.free_iff hchecked, Lease.free_iff] at hfree
    rw [Lease.free_iff]
    intro since hheld
    have hout := hfree since hheld
    omega

/-! ## Whole passes -/

theorem readings_cons (entry : Bytes × Bytes) (entries : List (Bytes × Bytes)) :
    readings turns (entry :: entries) =
      (turns entry.1).checkedAt :: (turns entry.1).storedAt ::
        readings turns entries := rfl

theorem Sound.foldl_visit (entries : List (Bytes × Bytes)) {pass : Pass Index}
    (hsound : Sound inFlightTimeout pass.dispatcher clock
      (sends turns pass.offers ++ history))
    (hreadings : (clock :: readings turns entries).IsChain (· ≤ ·)) :
    Sound inFlightTimeout
      (entries.foldl (Dispatch.visit lib topic nowMs turns) pass).dispatcher
      ((readings turns entries).getLastD clock)
      (sends turns (entries.foldl (Dispatch.visit lib topic nowMs turns) pass).offers ++
        history) := by
  induction entries generalizing pass clock with
  | nil => exact hsound
  | cons entry entries ih =>
      rw [readings_cons, List.isChain_cons_cons, List.isChain_cons_cons] at hreadings
      obtain ⟨hchecked, hstored, hrest⟩ := hreadings
      rw [readings_cons, List.getLastD_cons, List.getLastD_cons, List.foldl_cons]
      exact ih (hsound.visit lib topic nowMs turns hchecked hstored) hrest

theorem le_checkedAt {entries : List (Bytes × Bytes)} {entry : Bytes × Bytes}
    (hreadings : (clock :: readings turns entries).IsChain (· ≤ ·))
    (hentry : entry ∈ entries) : clock ≤ (turns entry.1).checkedAt := by
  rw [List.isChain_iff_pairwise, List.pairwise_cons] at hreadings
  apply hreadings.1
  exact List.mem_flatMap.mpr ⟨entry, hentry, List.mem_cons_self⟩

/-- A loop offers the keys it meets at most once each, in their order. -/
theorem exists_sublist_foldl (entries : List (Bytes × Bytes)) (pass : Pass Index) :
    ∃ made, (entries.foldl (Dispatch.visit lib topic nowMs turns) pass).offers.map
        Offer.key = pass.offers.map Offer.key ++ made ∧
      made.Sublist (entries.map Prod.fst) := by
  induction entries generalizing pass with
  | nil => exact ⟨[], by simp, List.Sublist.refl _⟩
  | cons entry entries ih =>
      obtain ⟨made, hmade, hsublist⟩ :=
        ih (Dispatch.visit lib topic nowMs turns pass entry)
      rw [List.foldl_cons, hmade]
      rcases visit_cases lib topic nowMs turns pass entry with
        ⟨hoffers, -, -⟩ | ⟨msg, -, hoffers, -⟩
      · exact ⟨made, by rw [hoffers], hsublist.cons _⟩
      · refine ⟨entry.1 :: made, ?_, hsublist.cons_cons _⟩
        rw [hoffers, List.map_append, List.append_assoc]
        rfl

section DispatchTopic

variable {size : TimeBucketSize} {db : DB} {hub : Hub} {dispatcher : Dispatcher}

theorem nodup_offers :
    ((dispatchTopic lib size db turns hub dispatcher topic nowMs).offers.map
      Offer.key).Nodup := by
  obtain ⟨made, hmade, hsublist⟩ := exists_sublist_foldl lib topic nowMs turns
    (dueScan db (lib.topicHash topic) (size.bucket nowMs)) (.begin hub dispatcher)
  rw [dispatchTopic, hmade]
  exact hsublist.nodup (List.pairwise_map.mpr (distinct_dueScan _ _ _))

/-- How often the pass hands the key to `DispatchToTopic`. -/
def offerCount (size : TimeBucketSize) (db : DB) (hub : Hub) (dispatcher : Dispatcher)
    (key : Bytes) : ℕ :=
  ((dispatchTopic lib size db turns hub dispatcher topic nowMs).offers.map
    Offer.key).count key

/-- The key lies in the range of the topic's due events. -/
def Due (size : TimeBucketSize) (key : Bytes) : Prop :=
  (compare (topicLowerBound (lib.topicHash topic)) key).isLE ∧
    compare key (dueUpperBound (lib.topicHash topic) (size.bucket nowMs)) = .lt

theorem due_eventKey_iff {bucket topicHash eventID : UInt64} :
    Due lib topic nowMs size (eventKey bucket topicHash eventID) ↔
      topicHash = lib.topicHash topic ∧ bucket ≤ size.bucket nowMs := by
  have hbound := bucket_lt size nowMs
  exact eventKey_mem_due_iff (by omega)

theorem offerCount_le_one (key : Bytes) :
    offerCount lib topic nowMs turns size db hub dispatcher key ≤ 1 :=
  List.nodup_iff_count_le_one.mp (nodup_offers lib topic nowMs turns) key

theorem offerCount_eq_one_iff {key value : Bytes} (hvalue : db[key]? = some value) :
    offerCount lib topic nowMs turns size db hub dispatcher key = 1 ↔
      Due lib topic nowMs size key ∧
      ∃ msg, lib.unmarshal value = some msg ∧ isExpired msg nowMs = false ∧
        ¬ dispatcher.Suppresses key (turns key).checkedAt := by
  have hscan : (key, value) ∈ dueScan db (lib.topicHash topic) (size.bucket nowMs) ↔
      Due lib topic nowMs size key := by
    rw [dueScan, mem_scan_iff, Due, hvalue]
    simp
  rw [offerCount, (nodup_offers lib topic nowMs turns).count]
  simp only [ite_eq_left_iff, zero_ne_one, imp_false, not_not, List.mem_map]
  constructor
  · rintro ⟨offer, hoffer, hkey⟩
    obtain ⟨⟨found, hentry, -⟩, -, -⟩ := madeFrom_of_mem_offers lib topic nowMs turns hoffer
    rw [hkey] at hentry
    have hfound := (mem_scan_iff.mp hentry).1
    rw [hvalue, Option.some.injEq] at hfound
    subst hfound
    obtain ⟨msg, hfree, hdecodes, halive, -⟩ :=
      (mem_offers_dispatchTopic_iff lib topic nowMs turns hentry hkey).mp hoffer
    exact ⟨hscan.mp hentry, msg, hdecodes, halive, hfree⟩
  · rintro ⟨hdue, msg, hdecodes, halive, hfree⟩
    exact ⟨_, offerIn_mem_offers lib topic nowMs turns hub (hscan.mpr hdue) hfree hdecodes
      halive, rfl⟩

end DispatchTopic

/-! ## Sequences of passes -/

def State.Sound (inFlightTimeout : Duration) (state : State) : Prop :=
  Suppression.Sound inFlightTimeout state.dispatcher state.clock state.history

theorem State.Sound.step {state next : State} {action : Action}
    (hsound : state.Sound inFlightTimeout) (hstep : step lib state action = some next) :
    next.Sound inFlightTimeout := by
  cases action with
  | pass size db topic nowMs turns =>
      simp only [Suppression.step, Option.ite_none_right_eq_some, Option.some.injEq]
        at hstep
      obtain ⟨hreadings, rfl⟩ := hstep
      let start : Pass Index := .begin state.hub state.dispatcher
      have hstart : Suppression.Sound inFlightTimeout start.dispatcher state.clock
          (sends turns start.offers ++ state.history) := hsound
      exact hstart.foldl_visit lib topic nowMs turns _ hreadings
  | removeInFlight key =>
      cases hstep
      exact hsound.removeInFlight key
  | removeInFlightBatch keys =>
      cases hstep
      exact hsound.removeInFlightBatch keys
  | changeHub hub =>
      cases hstep
      exact hsound

theorem sound_of_run {hub : Hub} {actions : List Action} {state : State}
    (hrun : run (Suppression.step lib) (.fresh inFlightTimeout hub clock) actions =
      some state) : state.Sound inFlightTimeout := by
  have hfresh : (State.fresh inFlightTimeout hub clock).Sound inFlightTimeout :=
    sound_newDispatcher inFlightTimeout clock
  have hstep : ∀ (state : State) (action : Action) (next : State),
      state.Sound inFlightTimeout → Suppression.step lib state action = some next →
        next.Sound inFlightTimeout :=
    fun _ _ _ hsound hnext => hsound.step lib hnext
  exact run_preserves hstep hfresh hrun

/-- The clock of an enabled pass has not been read later than the key's check. -/
theorem clock_le_checkedAt {state next : State} {size : TimeBucketSize} {db : DB}
    (hpass : Suppression.step lib state (.pass size db topic nowMs turns) = some next)
    {key value : Bytes} (hvalue : db[key]? = some value)
    (hdue : Due lib topic nowMs size key) : state.clock ≤ (turns key).checkedAt := by
  simp only [Suppression.step, Option.ite_none_right_eq_some] at hpass
  exact le_checkedAt turns hpass.1 (mem_scan_iff.mpr ⟨hvalue, hdue⟩)

/-- A pass offers a stored key at most once, and does so exactly when it is due,
decodes, is alive, and its history leaves it free.  Sends of a key with no
`RemoveInFlight` in between are a timeout apart, and a message that nobody
removed from the table is offered again as soon as a pass checks it after the
timeout. -/
theorem suppression_exact {hub : Hub} {actions : List Action} {state : State}
    (hrun : run (Suppression.step lib) (.fresh inFlightTimeout hub clock) actions =
      some state) :
    (∀ size db topic nowMs turns next,
      Suppression.step lib state (.pass size db topic nowMs turns) = some next →
      ∀ key value, db[key]? = some value →
        offerCount lib topic nowMs turns size db state.hub state.dispatcher key ≤ 1 ∧
        (offerCount lib topic nowMs turns size db state.hub state.dispatcher key = 1 ↔
          Due lib topic nowMs size key ∧
          ∃ msg, lib.unmarshal value = some msg ∧ isExpired msg nowMs = false ∧
            Free inFlightTimeout.toInt state.history key (turns key).checkedAt)) ∧
    (∀ (later between earlier : List (Event Bytes)) (key : Bytes) (first second : ℕ),
      state.history =
        later ++ .taken key second :: (between ++ .taken key first :: earlier) →
      (∀ time, .taken key time ∉ between) → .released key ∉ between →
      inFlightTimeout.toInt ≤ (second : ℤ) - first) ∧
    (∀ (later earlier : List (Event Bytes)) (key : Bytes) (since : ℕ),
      state.history = later ++ .taken key since :: earlier →
      (∀ time, .taken key time ∉ later) → .released key ∉ later →
      ∀ size db topic nowMs turns next,
        Suppression.step lib state (.pass size db topic nowMs turns) = some next →
        ∀ value msg, db[key]? = some value → Due lib topic nowMs size key →
          lib.unmarshal value = some msg → isExpired msg nowMs = false →
          (offerCount lib topic nowMs turns size db state.hub state.dispatcher key = 1 ↔
            inFlightTimeout.toInt ≤ ((turns key).checkedAt : ℤ) - since)) := by
  have hsound := sound_of_run lib hrun
  refine ⟨?_, ?_, ?_⟩
  · intro size db topic nowMs turns next hpass key value hvalue
    refine ⟨offerCount_le_one lib topic nowMs turns key, ?_⟩
    rw [offerCount_eq_one_iff lib topic nowMs turns hvalue]
    refine and_congr_right fun hdue => ?_
    rw [hsound.free_iff (clock_le_checkedAt lib topic nowMs turns hpass hvalue hdue)]
  · intro later between earlier key first second hhistory hsuccessive hkept
    have hapart := hsound.apart
    rw [hhistory] at hapart
    exact hapart.le hsuccessive hkept
  · intro later earlier key since hhistory hlast hkept size db topic nowMs turns next
      hpass value msg hvalue hdue hdecodes halive
    have hfree := hsound.free_iff
      (clock_le_checkedAt lib topic nowMs turns hpass hvalue hdue) key
    rw [Lease.free_iff, hhistory, heldSince_append_taken hlast, if_neg hkept] at hfree
    rw [offerCount_eq_one_iff lib topic nowMs turns hvalue, ← hfree]
    constructor
    · rintro ⟨-, _, -, -, hout⟩
      exact hout since rfl
    · intro hout
      refine ⟨hdue, msg, hdecodes, halive, ?_⟩
      rintro time ⟨⟩
      exact hout

/-! ## One message in flight -/

def orderHub : Hub := newHub.register ⟨"c1", "orders", "billing"⟩

def orderDB : DB := (∅ : DB).insert orderKey [1]

/-- A pass over the topic that reads the clock at one instant. -/
def passAtInstant (now : ℕ) : Action :=
  .pass ⟨0, valid_zero⟩ orderDB "orders" 10 fun _ => ⟨now, now, .sorted⟩

/-- Sent at 0 with a timeout of thirty seconds, the message is kept back at one
nanosecond and offered again at thirty seconds. -/
theorem suppression_exact_thirtySeconds :
    ∃ state, run (Suppression.step orderLibraries) (.fresh 30000000000 orderHub 0)
        [passAtInstant 0] = some state ∧
      state.history = [.taken orderKey 0] ∧
      offerCount orderLibraries "orders" 10 (fun _ => ⟨1, 1, .sorted⟩) ⟨0, .inl rfl⟩
        orderDB state.hub state.dispatcher orderKey ≠ 1 ∧
      offerCount orderLibraries "orders" 10
        (fun _ => ⟨30000000000, 30000000000, .sorted⟩) ⟨0, .inl rfl⟩ orderDB state.hub
        state.dispatcher orderKey = 1 := by
  have hruns : ∃ state, run (Suppression.step orderLibraries)
      (.fresh 30000000000 orderHub 0) [passAtInstant 0] = some state ∧
      (state.history = [.taken orderKey 0] ∧
        (Suppression.step orderLibraries state (passAtInstant 1)).isSome ∧
        (Suppression.step orderLibraries state (passAtInstant 30000000000)).isSome) := by
    apply exists_finish_of_any
    decide +kernel
  obtain ⟨state, hrun, hhistory, hearly, hlate⟩ := hruns
  obtain ⟨early, hearly⟩ := Option.isSome_iff_exists.mp hearly
  obtain ⟨late, hlate⟩ := Option.isSome_iff_exists.mp hlate
  obtain ⟨-, -, hagain⟩ := suppression_exact orderLibraries hrun
  have hdue : Due orderLibraries "orders" 10 ⟨0, .inl rfl⟩ orderKey :=
    (due_eventKey_iff orderLibraries "orders" 10).mpr ⟨rfl, by decide +kernel⟩
  have hoffered := hagain [] [] orderKey 0 hhistory (by simp) (by simp) ⟨0, .inl rfl⟩
    orderDB "orders" 10
  refine ⟨state, hrun, hhistory, ?_, ?_⟩
  · rw [Ne, hoffered _ early hearly [1] _ (by decide +kernel) hdue rfl (by decide)]
    decide
  · rw [hoffered _ late hlate [1] _ (by decide +kernel) hdue rfl (by decide)]
    decide

end FutureQ.Suppression
