import FutureQ.Broker.Subscriptions
import FutureQ.Storage.DueScan

/-!
# The dispatcher

`dispatchTopic` walks over the due entries of a topic.  It skips keys in flight,
collects expired ones for the deleter, and hands every other decodable message
to the hub; a key that reached a consumer is put in flight.  `visit` is the
callback of the scan, cut into the steps that other goroutines can come between:
`inspect`, `Hub.dispatchToTopic` and `track`.  The clocks and the map orders
that a callback meets are given per key.
-/

namespace FutureQ.Dispatch

open FutureQ.ByteOrder
open FutureQ.OrderedStore
open FutureQ.Storage
open FutureQ.Keys
open FutureQ.Repository
open FutureQ.DueScan
open FutureQ.Consumers

/-- `dispatchedAt` is a reading of the monotonic clock in nanoseconds. -/
structure InFlightEntry where
  dispatchedAt : ℕ
  topic : String
  deriving DecidableEq, Repr

structure Dispatcher where
  inFlight : Contents Bytes InFlightEntry
  inFlightTimeout : Duration

def newDispatcher (inFlightTimeout : Duration) : Dispatcher :=
  ⟨∅, inFlightTimeout⟩

def Dispatcher.removeInFlight (dispatcher : Dispatcher) (key : Bytes) :
    Dispatcher :=
  { dispatcher with inFlight := dispatcher.inFlight.erase key }

def Dispatcher.removeInFlightBatch (dispatcher : Dispatcher) (keys : List Bytes) :
    Dispatcher :=
  keys.foldl Dispatcher.removeInFlight dispatcher

/-- The key is in flight and its time has not run out at `now`. -/
def Dispatcher.Suppresses (dispatcher : Dispatcher) (key : Bytes) (now : ℕ) :
    Prop :=
  ∃ entry, dispatcher.inFlight[key]? = some entry ∧
    (now : ℤ) - entry.dispatchedAt < dispatcher.inFlightTimeout.toInt

/-- `isInFlight` drops an entry whose time has run out. -/
def Dispatcher.isInFlight (dispatcher : Dispatcher) (key : Bytes) (now : ℕ) :
    Bool × Dispatcher :=
  match dispatcher.inFlight[key]? with
  | none => (false, dispatcher)
  | some entry =>
      if (now : ℤ) - entry.dispatchedAt < dispatcher.inFlightTimeout.toInt then
        (true, dispatcher)
      else (false, dispatcher.removeInFlight key)

/-- `inFlight.Store` after a send. -/
def Dispatcher.track (dispatcher : Dispatcher) (key : Bytes) (now : ℕ)
    (topic : String) : Dispatcher :=
  { dispatcher with inFlight := dispatcher.inFlight.insert key ⟨now, topic⟩ }

section Pass

variable {Index : Type}

def isExpired (msg : StoredMessage Index) (nowMs : Int64) : Bool :=
  if msg.ttlMs ≤ 0 then false
  else decide (msg.enqueuedAtUnixMs + msg.ttlMs ≤ nowMs)

def queueMessage (key : Bytes) (msg : StoredMessage Index) : QueueMessage where
  topic := msg.topic
  payload := msg.payload
  deliveryTag := key
  enqueuedAtUnixMs := msg.enqueuedAtUnixMs
  delayMs := msg.delayMs

/-- What the callback finds out about an entry before it turns to the hub. -/
inductive Verdict (Index : Type) where
  | inFlight
  | undecodable
  | expired
  | deliverable (msg : StoredMessage Index)

/-- The verdict on a value that is not in flight. -/
def judge (lib : Libraries Index) (nowMs : Int64) (value : Bytes) :
    Verdict Index :=
  match lib.unmarshal value with
  | none => .undecodable
  | some msg => if isExpired msg nowMs then .expired else .deliverable msg

def Dispatcher.inspect (lib : Libraries Index) (dispatcher : Dispatcher)
    (nowMs : Int64) (now : ℕ) (key value : Bytes) : Verdict Index × Dispatcher :=
  match dispatcher.isInFlight key now with
  | (true, dispatcher) => (.inFlight, dispatcher)
  | (false, dispatcher) => (judge lib nowMs value, dispatcher)

/-- What the callback meets at a key: the clock at `isInFlight` and at
`inFlight.Store`, and the orders of the hub's maps. -/
structure Turn where
  checkedAt : ℕ
  storedAt : ℕ
  order : DispatchOrder

/-- A message handed to the hub, and who got it. -/
structure Offer (Index : Type) where
  key : Bytes
  msg : StoredMessage Index
  receivers : List ConsumerEntry

/-- The variables of `dispatchTopic`, with the offers it has made. -/
structure Pass (Index : Type) where
  hub : Hub
  dispatcher : Dispatcher
  dispatched : ℕ
  expiredKeys : List Bytes
  offers : List (Offer Index)

def Pass.begin (hub : Hub) (dispatcher : Dispatcher) : Pass Index :=
  ⟨hub, dispatcher, 0, [], []⟩

/-- The second half of the callback, for a message that is due and alive. -/
def Pass.offer (topic : String) (turn : Turn) (pass : Pass Index) (key : Bytes)
    (msg : StoredMessage Index) : Pass Index :=
  let delivery := pass.hub.dispatchToTopic turn.order topic (queueMessage key msg) key
  let offers := pass.offers ++ [⟨key, msg, delivery.receivers⟩]
  if delivery.sentTo.length = 0 then { pass with hub := delivery.hub, offers }
  else { pass with
    hub := delivery.hub
    dispatcher := pass.dispatcher.track key turn.storedAt topic
    dispatched := pass.dispatched + 1
    offers }

def visit (lib : Libraries Index) (topic : String) (nowMs : Int64)
    (turns : Bytes → Turn) (pass : Pass Index) (entry : Bytes × Bytes) :
    Pass Index :=
  match pass.dispatcher.inspect lib nowMs (turns entry.1).checkedAt entry.1
      entry.2 with
  | (.inFlight, dispatcher) => { pass with dispatcher }
  | (.undecodable, dispatcher) => { pass with dispatcher }
  | (.expired, dispatcher) =>
      { pass with dispatcher, expiredKeys := pass.expiredKeys ++ [entry.1] }
  | (.deliverable msg, dispatcher) =>
      Pass.offer topic (turns entry.1) { pass with dispatcher } entry.1 msg

/-- `dispatchTopic` with nothing in between; its expired keys go to
`MarkDeleted` afterwards. -/
def dispatchTopic (lib : Libraries Index) (size : TimeBucketSize) (db : DB)
    (turns : Bytes → Turn) (hub : Hub) (dispatcher : Dispatcher) (topic : String)
    (nowMs : Int64) : Pass Index :=
  (dueScan db (lib.topicHash topic) (size.bucket nowMs)).foldl
    (visit lib topic nowMs turns) (.begin hub dispatcher)

/-! ## The in-flight table -/

theorem isInFlight_fst {dispatcher : Dispatcher} {key : Bytes} {now : ℕ} :
    (dispatcher.isInFlight key now).1 = true ↔ dispatcher.Suppresses key now := by
  rw [Dispatcher.isInFlight, Dispatcher.Suppresses]
  cases dispatcher.inFlight[key]? with
  | none => simp
  | some entry =>
      simp only [Option.some.injEq, exists_eq_left']
      split_ifs with hrunning
      · simp [hrunning]
      · simp [hrunning]

instance (dispatcher : Dispatcher) (key : Bytes) (now : ℕ) :
    Decidable (dispatcher.Suppresses key now) :=
  decidable_of_iff _ isInFlight_fst

theorem getElem?_isInFlight_ne {dispatcher : Dispatcher} {key other : Bytes}
    {now : ℕ} (hne : key ≠ other) :
    (dispatcher.isInFlight key now).2.inFlight[other]? =
      dispatcher.inFlight[other]? := by
  rw [Dispatcher.isInFlight]
  split
  · rfl
  · split_ifs
    · rfl
    · exact getElem?_erase_ne hne

theorem isInFlight_timeout (dispatcher : Dispatcher) (key : Bytes) (now : ℕ) :
    (dispatcher.isInFlight key now).2.inFlightTimeout =
      dispatcher.inFlightTimeout := by
  rw [Dispatcher.isInFlight]
  split
  · rfl
  · split_ifs
    · rfl
    · rfl

theorem inspect_snd (lib : Libraries Index) (dispatcher : Dispatcher)
    (nowMs : Int64) (now : ℕ) (key value : Bytes) :
    (dispatcher.inspect lib nowMs now key value).2 =
      (dispatcher.isInFlight key now).2 := by
  rw [Dispatcher.inspect]
  rcases dispatcher.isInFlight key now with ⟨_ | _, after⟩
  · rfl
  · rfl

theorem inspect_eq_deliverable_iff {lib : Libraries Index}
    {dispatcher : Dispatcher} {nowMs : Int64} {now : ℕ} {key value : Bytes}
    {msg : StoredMessage Index} :
    (dispatcher.inspect lib nowMs now key value).1 = .deliverable msg ↔
      ¬ dispatcher.Suppresses key now ∧ lib.unmarshal value = some msg ∧
        isExpired msg nowMs = false := by
  rw [← isInFlight_fst, Dispatcher.inspect]
  rcases dispatcher.isInFlight key now with ⟨_ | _, after⟩
  · cases hvalue : lib.unmarshal value with
    | none => simp [judge, hvalue]
    | some found =>
        cases hexpired : isExpired found nowMs with
        | false =>
            simp only [judge, hvalue, hexpired]
            constructor
            · intro heq
              cases heq
              exact ⟨by simp, rfl, hexpired⟩
            · rintro ⟨-, heq, -⟩
              cases heq
              rfl
        | true =>
            simp only [judge, hvalue, hexpired]
            constructor
            · intro heq
              cases heq
            · rintro ⟨-, heq, halive⟩
              cases heq
              rw [hexpired] at halive
              cases halive
  · simp

theorem exists_of_inspect_eq_expired {lib : Libraries Index}
    {dispatcher : Dispatcher} {nowMs : Int64} {now : ℕ} {key value : Bytes}
    (hverdict : (dispatcher.inspect lib nowMs now key value).1 = .expired) :
    ∃ msg, lib.unmarshal value = some msg ∧ isExpired msg nowMs = true := by
  rw [Dispatcher.inspect] at hverdict
  rcases hcheck : dispatcher.isInFlight key now with ⟨_ | _, after⟩
  · rw [hcheck] at hverdict
    cases hvalue : lib.unmarshal value with
    | none => simp [judge, hvalue] at hverdict
    | some msg =>
        refine ⟨msg, rfl, ?_⟩
        by_contra halive
        simp [judge, hvalue, halive] at hverdict
  · rw [hcheck] at hverdict
    cases hverdict

/-! ## One visit -/

variable (lib : Libraries Index) (topic : String) (nowMs : Int64)
variable (turns : Bytes → Turn)

/-- The offer that a visit makes of a message, in the hub it meets. -/
def offerIn (hub : Hub) (topic : String) (turn : Turn) (key : Bytes)
    (msg : StoredMessage Index) : Offer Index :=
  ⟨key, msg,
    (hub.dispatchToTopic turn.order topic (queueMessage key msg) key).receivers⟩

theorem offers_offer (turn : Turn) (pass : Pass Index) (key : Bytes)
    (msg : StoredMessage Index) :
    (pass.offer topic turn key msg).offers =
      pass.offers ++ [offerIn pass.hub topic turn key msg] := by
  rw [Pass.offer]
  split_ifs
  · rfl
  · rfl

theorem hub_offer (turn : Turn) (pass : Pass Index) (key : Bytes)
    (msg : StoredMessage Index) :
    (pass.offer topic turn key msg).hub =
      (pass.hub.dispatchToTopic turn.order topic (queueMessage key msg) key).hub := by
  rw [Pass.offer]
  split_ifs
  · rfl
  · rfl

/-- A visit either makes no offer and leaves the hub alone, or offers the message
of its entry. -/
theorem visit_cases (pass : Pass Index) (entry : Bytes × Bytes) :
    ((visit lib topic nowMs turns pass entry).offers = pass.offers ∧
        (visit lib topic nowMs turns pass entry).hub = pass.hub ∧
        ∀ msg, (pass.dispatcher.inspect lib nowMs (turns entry.1).checkedAt entry.1
          entry.2).1 ≠ .deliverable msg) ∨
      ∃ msg, (pass.dispatcher.inspect lib nowMs (turns entry.1).checkedAt entry.1
          entry.2).1 = .deliverable msg ∧
        (visit lib topic nowMs turns pass entry).offers =
          pass.offers ++ [offerIn pass.hub topic (turns entry.1) entry.1 msg] ∧
        (visit lib topic nowMs turns pass entry).hub =
          (pass.hub.dispatchToTopic (turns entry.1).order topic
            (queueMessage entry.1 msg) entry.1).hub := by
  rw [visit]
  rcases pass.dispatcher.inspect lib nowMs (turns entry.1).checkedAt entry.1
    entry.2 with ⟨verdict, after⟩
  cases verdict with
  | inFlight => exact .inl ⟨rfl, rfl, by simp⟩
  | undecodable => exact .inl ⟨rfl, rfl, by simp⟩
  | expired => exact .inl ⟨rfl, rfl, by simp⟩
  | deliverable msg =>
      exact .inr ⟨msg, rfl, offers_offer topic (turns entry.1) _ entry.1 msg,
        hub_offer topic (turns entry.1) _ entry.1 msg⟩

theorem getElem?_visit_ne (pass : Pass Index) {entry : Bytes × Bytes}
    {other : Bytes} (hne : entry.1 ≠ other) :
    (visit lib topic nowMs turns pass entry).dispatcher.inFlight[other]? =
        pass.dispatcher.inFlight[other]? ∧
      (visit lib topic nowMs turns pass entry).dispatcher.inFlightTimeout =
        pass.dispatcher.inFlightTimeout := by
  have hsnd := inspect_snd lib pass.dispatcher nowMs (turns entry.1).checkedAt
    entry.1 entry.2
  have hkept : (pass.dispatcher.isInFlight entry.1
      (turns entry.1).checkedAt).2.inFlight[other]? =
        pass.dispatcher.inFlight[other]? := getElem?_isInFlight_ne hne
  have htimeout := isInFlight_timeout pass.dispatcher entry.1
    (turns entry.1).checkedAt
  rw [← hsnd] at hkept htimeout
  rw [visit]
  rcases hverdict : pass.dispatcher.inspect lib nowMs (turns entry.1).checkedAt
    entry.1 entry.2 with ⟨verdict, after⟩
  rw [hverdict] at hkept htimeout
  cases verdict with
  | inFlight => exact ⟨hkept, htimeout⟩
  | undecodable => exact ⟨hkept, htimeout⟩
  | expired => exact ⟨hkept, htimeout⟩
  | deliverable msg =>
      simp only [Pass.offer]
      split_ifs
      · exact ⟨hkept, htimeout⟩
      · exact ⟨(getElem?_insert_ne hne _).trans hkept, htimeout⟩

/-! ## A whole pass -/

/-- The offer comes from an entry of the scan that is decodable and alive. -/
structure MadeFrom (lib : Libraries Index) (topic : String) (nowMs : Int64)
    (hub : Hub) (entries : List (Bytes × Bytes)) (offer : Offer Index) : Prop where
  entry : ∃ value, (offer.key, value) ∈ entries ∧
    lib.unmarshal value = some offer.msg
  alive : isExpired offer.msg nowMs = false
  receivers : ∃ (met : Hub) (order : DispatchOrder), met.topics = hub.topics ∧
    offer.receivers = (met.dispatchToTopic order topic
      (queueMessage offer.key offer.msg) offer.key).receivers

theorem topics_visit (pass : Pass Index) (entry : Bytes × Bytes) :
    (visit lib topic nowMs turns pass entry).hub.topics = pass.hub.topics := by
  rcases visit_cases lib topic nowMs turns pass entry with
    ⟨-, hhub, -⟩ | ⟨msg, -, -, hhub⟩
  · rw [hhub]
  · rw [hhub]
    exact (extends_dispatchToTopic _ _ _ _ _).topics

/-- The offers of a loop follow those made before it, and each comes from an
entry. -/
theorem exists_offers_foldl (entries : List (Bytes × Bytes)) (pass : Pass Index) :
    ∃ made, (entries.foldl (visit lib topic nowMs turns) pass).offers =
        pass.offers ++ made ∧
      ∀ offer ∈ made, MadeFrom lib topic nowMs pass.hub entries offer := by
  induction entries generalizing pass with
  | nil => exact ⟨[], by simp, by simp⟩
  | cons entry entries ih =>
      obtain ⟨made, hmade, hfrom⟩ := ih (visit lib topic nowMs turns pass entry)
      have hlater : ∀ offer ∈ made,
          MadeFrom lib topic nowMs pass.hub (entry :: entries) offer := by
        intro offer hoffer
        obtain ⟨⟨value, hentry, hvalue⟩, halive, met, order, htopics, hreceivers⟩ :=
          hfrom offer hoffer
        exact ⟨⟨value, List.mem_cons_of_mem _ hentry, hvalue⟩, halive, met, order,
          htopics.trans (topics_visit lib topic nowMs turns pass entry), hreceivers⟩
      rw [List.foldl_cons, hmade]
      rcases visit_cases lib topic nowMs turns pass entry with
        ⟨hoffers, -, -⟩ | ⟨msg, hdeliverable, hoffers, -⟩
      · exact ⟨made, by rw [hoffers], hlater⟩
      · refine ⟨offerIn pass.hub topic (turns entry.1) entry.1 msg :: made,
          by rw [hoffers, List.append_assoc, List.singleton_append], ?_⟩
        obtain ⟨-, hvalue, halive⟩ := inspect_eq_deliverable_iff.mp hdeliverable
        refine List.forall_mem_cons.mpr ⟨?_, hlater⟩
        exact ⟨⟨entry.2, List.mem_cons_self, hvalue⟩, halive, pass.hub,
          (turns entry.1).order, rfl, rfl⟩

theorem suppresses_foldl_iff {entries : List (Bytes × Bytes)} {key : Bytes}
    (hkey : ∀ entry ∈ entries, entry.1 ≠ key) (pass : Pass Index) (now : ℕ) :
    (entries.foldl (visit lib topic nowMs turns) pass).dispatcher.Suppresses key
        now ↔ pass.dispatcher.Suppresses key now := by
  induction entries generalizing pass with
  | nil => exact Iff.rfl
  | cons entry entries ih =>
      obtain ⟨hentry, hrest⟩ := List.forall_mem_cons.mp hkey
      obtain ⟨hkept, htimeout⟩ := getElem?_visit_ne lib topic nowMs turns pass hentry
      rw [List.foldl_cons, ih hrest, Dispatcher.Suppresses, Dispatcher.Suppresses,
        hkept, htimeout]

/-- The pass as it is when the scan comes to a key. -/
def passAt (entries : List (Bytes × Bytes)) (pass : Pass Index) (key : Bytes) :
    Pass Index :=
  (entries.takeWhile fun entry => entry.1 ≠ key).foldl (visit lib topic nowMs turns)
    pass

/-- Where a key stands among distinct keys. -/
theorem exists_split_at {entries : List (Bytes × Bytes)}
    (hdistinct : entries.Pairwise fun first second => first.1 ≠ second.1)
    {key value : Bytes} (hentry : (key, value) ∈ entries) :
    ∃ after, entries = (entries.takeWhile fun entry => entry.1 ≠ key) ++
        (key, value) :: after ∧ ∀ entry ∈ after, entry.1 ≠ key := by
  induction entries with
  | nil => exact absurd hentry List.not_mem_nil
  | cons head entries ih =>
      obtain ⟨hhead, hrest⟩ := List.pairwise_cons.mp hdistinct
      rcases List.mem_cons.mp hentry with rfl | hlater
      · refine ⟨entries, by simp, ?_⟩
        intro entry hmem
        exact (hhead entry hmem).symm
      · obtain ⟨after, hsplit, hafter⟩ := ih hrest hlater
        refine ⟨after, ?_, hafter⟩
        rw [List.takeWhile_cons_of_pos (by simpa using hhead _ hlater),
          List.cons_append, ← hsplit]

/-- A loop over distinct keys offers a key exactly when its value is a live
message and the key was not in flight at the start. -/
theorem mem_offers_foldl_iff {entries : List (Bytes × Bytes)}
    (hdistinct : entries.Pairwise fun first second => first.1 ≠ second.1)
    {key value : Bytes} (hentry : (key, value) ∈ entries) (pass : Pass Index)
    (hfresh : ∀ offer ∈ pass.offers, offer.key ≠ key) {offer : Offer Index}
    (hoffer : offer.key = key) :
    offer ∈ (entries.foldl (visit lib topic nowMs turns) pass).offers ↔
      ∃ msg, ¬ pass.dispatcher.Suppresses key (turns key).checkedAt ∧
        lib.unmarshal value = some msg ∧ isExpired msg nowMs = false ∧
        offer = offerIn (passAt lib topic nowMs turns entries pass key).hub topic
          (turns key) key msg := by
  obtain ⟨after, hsplit, hafter⟩ := exists_split_at hdistinct hentry
  have hbefore : ∀ entry ∈ entries.takeWhile fun entry => entry.1 ≠ key,
      entry.1 ≠ key := by
    intro entry hmem
    simpa using List.mem_takeWhile_imp hmem
  obtain ⟨early, hearly, hearlyFrom⟩ := exists_offers_foldl lib topic nowMs turns
    (entries.takeWhile fun entry => entry.1 ≠ key) pass
  have hnotEarly : offer ∉ pass.offers ++ early := by
    intro hmem
    rcases List.mem_append.mp hmem with hpass | hmade
    · exact hfresh offer hpass hoffer
    · obtain ⟨made, hmade, -⟩ := (hearlyFrom offer hmade).entry
      exact hbefore _ hmade hoffer
  have hsame := suppresses_foldl_iff lib topic nowMs turns hbefore pass
    (turns key).checkedAt
  have hat : (entries.takeWhile fun entry => entry.1 ≠ key).foldl
      (visit lib topic nowMs turns) pass =
        passAt lib topic nowMs turns entries pass key := rfl
  rw [hat] at hearly hsame
  obtain ⟨late, hlate, hlateFrom⟩ := exists_offers_foldl lib topic nowMs turns after
    (visit lib topic nowMs turns (passAt lib topic nowMs turns entries pass key)
      (key, value))
  have hnotLate : offer ∉ late := by
    intro hmem
    obtain ⟨made, hmade, -⟩ := (hlateFrom offer hmem).entry
    exact hafter _ hmade hoffer
  have hloop : (entries.foldl (visit lib topic nowMs turns) pass).offers =
      (visit lib topic nowMs turns (passAt lib topic nowMs turns entries pass key)
        (key, value)).offers ++ late := by
    rw [← hlate, ← hat, ← List.foldl_cons, ← List.foldl_append, ← hsplit]
  rw [hloop, List.mem_append]
  rcases visit_cases lib topic nowMs turns
    (passAt lib topic nowMs turns entries pass key) (key, value) with
    ⟨hoffers, -, hnone⟩ | ⟨msg, hdeliverable, hoffers, -⟩
  · rw [hoffers, hearly]
    constructor
    · intro hmem
      exact (hmem.elim hnotEarly hnotLate).elim
    · rintro ⟨msg, hfree, hvalue, halive, -⟩
      exact (hnone msg (inspect_eq_deliverable_iff.mpr
        ⟨fun hsuppressed => hfree (hsame.mp hsuppressed), hvalue, halive⟩)).elim
  · rw [hoffers, hearly]
    obtain ⟨hfree, hvalue, halive⟩ := inspect_eq_deliverable_iff.mp hdeliverable
    constructor
    · intro hmem
      refine ⟨msg, fun hsuppressed => hfree (hsame.mpr hsuppressed), hvalue,
        halive, ?_⟩
      rcases hmem with hmem | hmem
      · rcases List.mem_append.mp hmem with hmem | hmem
        · exact (hnotEarly hmem).elim
        · exact List.mem_singleton.mp hmem
      · exact (hnotLate hmem).elim
    · rintro ⟨other, -, hother, -, rfl⟩
      rw [hvalue] at hother
      cases hother
      exact .inl (List.mem_append_right _ List.mem_cons_self)

theorem distinct_dueScan (db : DB) (topicHash nowBucket : UInt64) :
    (dueScan db topicHash nowBucket).Pairwise fun first second =>
      first.1 ≠ second.1 := by
  refine List.Pairwise.imp ?_ (pairwise_scan db _ _)
  intro first second hlt heq
  have hself : compare second.1 second.1 = .eq := Std.ReflCmp.compare_self
  rw [heq, hself] at hlt
  cases hlt

/-- The hub that `dispatchTopic` meets when it comes to a key. -/
def hubAt (size : TimeBucketSize) (db : DB) (hub : Hub) (dispatcher : Dispatcher)
    (key : Bytes) : Hub :=
  (passAt lib topic nowMs turns
    (dueScan db (lib.topicHash topic) (size.bucket nowMs)) (.begin hub dispatcher)
    key).hub

theorem topics_foldl (entries : List (Bytes × Bytes)) (pass : Pass Index) :
    (entries.foldl (visit lib topic nowMs turns) pass).hub.topics =
      pass.hub.topics := by
  induction entries generalizing pass with
  | nil => rfl
  | cons entry entries ih =>
      rw [List.foldl_cons, ih]
      exact topics_visit lib topic nowMs turns pass entry

theorem topics_hubAt (size : TimeBucketSize) (db : DB) (hub : Hub)
    (dispatcher : Dispatcher) (key : Bytes) :
    (hubAt lib topic nowMs turns size db hub dispatcher key).topics = hub.topics :=
  topics_foldl lib topic nowMs turns _ (.begin hub dispatcher)

section DispatchTopic

variable {size : TimeBucketSize} {db : DB} {hub : Hub} {dispatcher : Dispatcher}

theorem madeFrom_of_mem_offers {offer : Offer Index}
    (hoffer : offer ∈
      (dispatchTopic lib size db turns hub dispatcher topic nowMs).offers) :
    MadeFrom lib topic nowMs hub
      (dueScan db (lib.topicHash topic) (size.bucket nowMs)) offer := by
  obtain ⟨made, hmade, hfrom⟩ := exists_offers_foldl lib topic nowMs turns
    (dueScan db (lib.topicHash topic) (size.bucket nowMs)) (.begin hub dispatcher)
  rw [dispatchTopic, hmade] at hoffer
  exact hfrom offer hoffer

/-- `dispatchTopic` hands over a due entry exactly when it is a live message
that is not in flight. -/
theorem mem_offers_dispatchTopic_iff {key value : Bytes}
    (hentry : (key, value) ∈ dueScan db (lib.topicHash topic) (size.bucket nowMs))
    {offer : Offer Index} (hoffer : offer.key = key) :
    offer ∈ (dispatchTopic lib size db turns hub dispatcher topic nowMs).offers ↔
      ∃ msg, ¬ dispatcher.Suppresses key (turns key).checkedAt ∧
        lib.unmarshal value = some msg ∧ isExpired msg nowMs = false ∧
        offer = offerIn (hubAt lib topic nowMs turns size db hub dispatcher key)
          topic (turns key) key msg :=
  mem_offers_foldl_iff lib topic nowMs turns (distinct_dueScan _ _ _) hentry
    (.begin hub dispatcher) (by simp [Pass.begin]) hoffer

/-- In particular a due message that is alive and free is handed over. -/
theorem offerIn_mem_offers (hub : Hub) {key value : Bytes}
    (hentry : (key, value) ∈ dueScan db (lib.topicHash topic) (size.bucket nowMs))
    (hfree : ¬ dispatcher.Suppresses key (turns key).checkedAt)
    {msg : StoredMessage Index} (hdecodes : lib.unmarshal value = some msg)
    (halive : isExpired msg nowMs = false) :
    offerIn (hubAt lib topic nowMs turns size db hub dispatcher key) topic
        (turns key) key msg ∈
      (dispatchTopic lib size db turns hub dispatcher topic nowMs).offers :=
  (mem_offers_dispatchTopic_iff lib topic nowMs turns hentry rfl).mpr
    ⟨msg, hfree, hdecodes, halive, rfl⟩

end DispatchTopic

end Pass

end FutureQ.Dispatch
