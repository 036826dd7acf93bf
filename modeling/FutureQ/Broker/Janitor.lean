import FutureQ.Broker.Producer
import FutureQ.Broker.Rounds

/-!
# Expiry

A message with a ttl expires when the clock reaches the sum of its enqueue time
and its ttl.  The dispatcher and the janitor take this sum in 64 bits, while the
producer checks only the sign of the ttl.  `sweep` is the janitor's scan of the
whole database; the keys that it or a dispatch pass finds expired go to the
deleter.
-/

namespace FutureQ.Janitor

open FutureQ.ByteOrder
open FutureQ.GoRuntime
open FutureQ.OrderedStore
open FutureQ.Storage
open FutureQ.Keys
open FutureQ.Repository
open FutureQ.DueScan
open FutureQ.Consumers
open FutureQ.Dispatch
open FutureQ.Producer
open FutureQ.Rounds (Expired)

variable {Index : Type}

/-- The test of `sweep` on a decoded message. -/
def outlived (msg : StoredMessage Index) (nowMs : Int64) : Bool :=
  if msg.ttlMs ≤ 0 then false
  else if nowMs ≥ msg.enqueuedAtUnixMs + msg.ttlMs then true
  else false

/-- The callback of `sweep`, with the keys it has collected. -/
def sweepEntry (lib : Libraries Index) (nowMs : Int64) (expiredKeys : List Bytes)
    (entry : Bytes × Bytes) : List Bytes :=
  match parseEventKey entry.1 with
  | .error _ => expiredKeys
  | .ok _ =>
      match lib.unmarshal entry.2 with
      | none => expiredKeys
      | some msg =>
          if outlived msg nowMs then expiredKeys ++ [entry.1] else expiredKeys

/-- The keys that `sweep` passes to `MarkDeleted`; none when its scan fails. -/
def sweep (lib : Libraries Index) (db : DB) (nowMs : Int64) (scanFails : Bool) :
    List Bytes :=
  if scanFails then [] else db.toList.foldl (sweepEntry lib nowMs) []

/-- What `marshalMessages` asks of a message. -/
def Admitted (msg : Message Index) : Prop := ¬ msg.delayMs < 0 ∧ ¬ msg.ttlMs < 0

/-! ## The two tests -/

theorem outlived_eq_isExpired (msg : StoredMessage Index) (nowMs : Int64) :
    outlived msg nowMs = isExpired msg nowMs := by
  rw [outlived, isExpired]
  split_ifs with hnever hreached
  · rfl
  · exact (decide_eq_true hreached).symm
  · exact (decide_eq_false hreached).symm

theorem isExpired_iff {msg : StoredMessage Index} {nowMs : Int64} :
    isExpired msg nowMs = true ↔
      0 < msg.ttlMs.toInt ∧ (msg.enqueuedAtUnixMs + msg.ttlMs).toInt ≤ nowMs.toInt := by
  rw [isExpired, ← Int64.le_iff_toInt_le]
  split_ifs with hnever
  · have hle : msg.ttlMs.toInt ≤ 0 := by simpa using Int64.le_iff_toInt_le.mp hnever
    simp [not_lt.mpr hle]
  · have hpos : 0 < msg.ttlMs.toInt := by
      simpa using Int64.lt_iff_toInt_lt.mp (Int64.not_le.mp hnever)
    simp [hpos]

/-- The 64-bit test is exact unless the sum overflows and the wrapped sum has
been reached. -/
theorem isExpired_exact_iff {msg : StoredMessage Index}
    (httl : 0 ≤ msg.ttlMs.toInt) (nowMs : Int64) :
    (isExpired msg nowMs = true ↔ Expired msg nowMs) ↔
      msg.enqueuedAtUnixMs.toInt + msg.ttlMs.toInt < 2 ^ 63 ∨
        nowMs.toInt < msg.enqueuedAtUnixMs.toInt + msg.ttlMs.toInt - 2 ^ 64 := by
  have hlower := msg.enqueuedAtUnixMs.le_toInt
  have hupper := msg.enqueuedAtUnixMs.toInt_lt
  have hnow := nowMs.toInt_lt
  rw [isExpired_iff, Expired]
  by_cases hfits : msg.enqueuedAtUnixMs.toInt + msg.ttlMs.toInt < 2 ^ 63
  · rw [toInt_add (by omega) hfits]
    exact iff_of_true Iff.rfl (.inl hfits)
  · rw [toInt_add_of_overflow (by omega)]
    constructor
    · intro hexact
      right
      by_contra hreached
      have hlate := (hexact.mp ⟨by omega, by omega⟩).2
      omega
    · rintro (hsmall | hearly)
      · exact absurd hsmall hfits
      · exact ⟨fun h => by omega, fun h => by omega⟩

/-- It is exact at every time exactly when the sum fits. -/
theorem forall_isExpired_exact_iff {msg : StoredMessage Index}
    (httl : 0 ≤ msg.ttlMs.toInt) :
    (∀ nowMs, isExpired msg nowMs = true ↔ Expired msg nowMs) ↔
      msg.enqueuedAtUnixMs.toInt + msg.ttlMs.toInt < 2 ^ 63 := by
  constructor
  · intro hexact
    have hlast := (isExpired_exact_iff httl 9223372036854775807).mp
      (hexact 9223372036854775807)
    have hupper := msg.enqueuedAtUnixMs.toInt_lt
    have httlUpper := msg.ttlMs.toInt_lt
    have hvalue : (9223372036854775807 : Int64).toInt = 2 ^ 63 - 1 := by decide
    rw [hvalue] at hlast
    omega
  · intro hfits nowMs
    exact (isExpired_exact_iff httl nowMs).mpr (.inl hfits)

/-! ## What is marked for deletion -/

/-- What a loop has collected at its end was there before or comes from one of
its entries. -/
theorem exists_of_mem_foldl {σ α β : Type} {visit : σ → α → σ}
    {collected : σ → List β} {found : α → β → Prop}
    (hvisit : ∀ state value result, result ∈ collected (visit state value) →
      result ∈ collected state ∨ found value result)
    {values : List α} {state : σ} {result : β}
    (hresult : result ∈ collected (values.foldl visit state)) :
    result ∈ collected state ∨ ∃ value ∈ values, found value result := by
  induction values generalizing state with
  | nil => exact .inl hresult
  | cons value values ih =>
      rcases ih hresult with hbefore | ⟨other, hother, hfound⟩
      · exact (hvisit state value result hbefore).imp_right
          fun hfound => ⟨value, List.mem_cons_self, hfound⟩
      · exact .inr ⟨other, List.mem_cons_of_mem _ hother, hfound⟩

/-- The key of an entry whose message fails the test. -/
def Marks (lib : Libraries Index) (test : StoredMessage Index → Bool)
    (entry : Bytes × Bytes) (key : Bytes) : Prop :=
  key = entry.1 ∧ ∃ msg, lib.unmarshal entry.2 = some msg ∧ test msg = true

theorem mem_sweepEntry {lib : Libraries Index} {nowMs : Int64}
    {expiredKeys : List Bytes} {entry : Bytes × Bytes} {key : Bytes}
    (hkey : key ∈ sweepEntry lib nowMs expiredKeys entry) :
    key ∈ expiredKeys ∨ Marks lib (outlived · nowMs) entry key := by
  rw [sweepEntry] at hkey
  split at hkey
  · exact .inl hkey
  · split at hkey
    · exact .inl hkey
    · rename_i msg hmsg
      split_ifs at hkey with hold
      · exact (List.mem_append.mp hkey).imp_right
          fun hlast => ⟨List.mem_singleton.mp hlast, msg, hmsg, hold⟩
      · exact .inl hkey

theorem mem_expiredKeys_visit {lib : Libraries Index} {topic : String} {nowMs : Int64}
    {turns : Bytes → Turn} {pass : Pass Index} {entry : Bytes × Bytes} {key : Bytes}
    (hkey : key ∈ (visit lib topic nowMs turns pass entry).expiredKeys) :
    key ∈ pass.expiredKeys ∨ Marks lib (isExpired · nowMs) entry key := by
  rw [visit] at hkey
  rcases hverdict : pass.dispatcher.inspect lib nowMs (turns entry.1).checkedAt
    entry.1 entry.2 with ⟨verdict, after⟩
  rw [hverdict] at hkey
  cases verdict with
  | inFlight => exact .inl hkey
  | undecodable => exact .inl hkey
  | expired =>
      refine (List.mem_append.mp hkey).imp_right fun hlast => ?_
      exact ⟨List.mem_singleton.mp hlast,
        exists_of_inspect_eq_expired (congrArg Prod.fst hverdict)⟩
  | deliverable msg =>
      simp only [Pass.offer] at hkey
      split_ifs at hkey
      · exact .inl hkey
      · exact .inl hkey

/-- `sweep` marks keys of stored messages that fail its test. -/
theorem exists_of_mem_sweep {lib : Libraries Index} {db : DB} {nowMs : Int64}
    {scanFails : Bool} {key : Bytes} (hkey : key ∈ sweep lib db nowMs scanFails) :
    ∃ value msg, db[key]? = some value ∧ lib.unmarshal value = some msg ∧
      outlived msg nowMs = true := by
  rw [sweep] at hkey
  split_ifs at hkey with hfails
  · exact absurd hkey List.not_mem_nil
  · have hvisit : ∀ expiredKeys entry key,
        key ∈ id (sweepEntry lib nowMs expiredKeys entry) →
          key ∈ id expiredKeys ∨ Marks lib (outlived · nowMs) entry key :=
      fun _ _ _ => mem_sweepEntry
    obtain hnone | ⟨entry, hentry, rfl, msg, hmsg, hold⟩ := exists_of_mem_foldl hvisit hkey
    · exact absurd hnone List.not_mem_nil
    · exact ⟨entry.2, msg, Std.ExtTreeMap.mem_toList_iff_getElem?_eq_some.mp hentry,
        hmsg, hold⟩

/-- A pass marks keys of due messages that fail the dispatcher's test. -/
theorem exists_of_mem_expiredKeys {lib : Libraries Index} {size : TimeBucketSize}
    {db : DB} {turns : Bytes → Turn} {hub : Hub} {dispatcher : Dispatcher}
    {topic : String} {nowMs : Int64} {key : Bytes}
    (hkey : key ∈
      (dispatchTopic lib size db turns hub dispatcher topic nowMs).expiredKeys) :
    ∃ value msg, db[key]? = some value ∧ lib.unmarshal value = some msg ∧
      isExpired msg nowMs = true := by
  have hvisit : ∀ (pass : Pass Index) entry key,
      key ∈ (visit lib topic nowMs turns pass entry).expiredKeys →
        key ∈ pass.expiredKeys ∨ Marks lib (isExpired · nowMs) entry key :=
    fun _ _ _ => mem_expiredKeys_visit
  obtain hnone | ⟨entry, hentry, rfl, msg, hmsg, hold⟩ := exists_of_mem_foldl hvisit hkey
  · exact absurd hnone List.not_mem_nil
  · exact ⟨entry.2, msg, (mem_scan_iff.mp hentry).1, hmsg, hold⟩

/-- Neither path marks the key of this message while the message is alive. -/
def NeverMarkedEarly (stored : StoredMessage Index) : Prop :=
  ∀ (lib : Libraries Index) (db : DB) (key value : Bytes), db[key]? = some value →
    lib.unmarshal value = some stored →
    (∀ nowMs scanFails, key ∈ sweep lib db nowMs scanFails → Expired stored nowMs) ∧
    (∀ size turns hub dispatcher topic nowMs,
      key ∈ (dispatchTopic lib size db turns hub dispatcher topic nowMs).expiredKeys →
        Expired stored nowMs)

/-- The dispatcher and the janitor always agree on an admitted message; they are
exact at a time unless the 64-bit sum has wrapped and been reached, hence at all
times exactly when the sum fits, and then neither deletes the message early. -/
theorem expiry_exact_iff (publishedAt : Int64) {msg : Message Index}
    (hadmitted : Admitted msg) :
    (∀ nowMs, outlived (storedMessage publishedAt msg) nowMs =
      isExpired (storedMessage publishedAt msg) nowMs) ∧
    (∀ nowMs, (isExpired (storedMessage publishedAt msg) nowMs = true ↔
        Expired (storedMessage publishedAt msg) nowMs) ↔
      publishedAt.toInt + msg.ttlMs.toInt < 2 ^ 63 ∨
        nowMs.toInt < publishedAt.toInt + msg.ttlMs.toInt - 2 ^ 64) ∧
    ((∀ nowMs, isExpired (storedMessage publishedAt msg) nowMs = true ↔
        Expired (storedMessage publishedAt msg) nowMs) ↔
      publishedAt.toInt + msg.ttlMs.toInt < 2 ^ 63) ∧
    (publishedAt.toInt + msg.ttlMs.toInt < 2 ^ 63 →
      NeverMarkedEarly (storedMessage publishedAt msg)) := by
  have httl : 0 ≤ msg.ttlMs.toInt := by
    simpa using Int64.le_iff_toInt_le.mp (Int64.not_lt.mp hadmitted.2)
  have hexact := forall_isExpired_exact_iff
    (show 0 ≤ (storedMessage publishedAt msg).ttlMs.toInt from httl)
  refine ⟨outlived_eq_isExpired _, isExpired_exact_iff httl, hexact, ?_⟩
  intro hfits lib db key value hvalue hdecodes
  constructor
  · intro nowMs scanFails hkey
    obtain ⟨other, found, hother, hfound, hold⟩ := exists_of_mem_sweep hkey
    rw [hvalue] at hother
    cases hother
    rw [hdecodes] at hfound
    cases hfound
    rw [outlived_eq_isExpired] at hold
    exact (hexact.mpr hfits nowMs).mp hold
  · intro size turns hub dispatcher topic nowMs hkey
    obtain ⟨other, found, hother, hfound, hold⟩ := exists_of_mem_expiredKeys hkey
    rw [hvalue] at hother
    cases hother
    rw [hdecodes] at hfound
    cases hfound
    exact (hexact.mpr hfits nowMs).mp hold

/-! ## The largest ttl -/

/-- The largest ttl that the producer admits. -/
def longLived : Message Bytes := ⟨"orders", [1], 0, 9223372036854775807, []⟩

def longLivedLibraries : Libraries Bytes :=
  tableLibraries (fun _ => 7) [([1], storedMessage 1 longLived)]

/-- The sum wraps: one millisecond after it was published both paths mark the
message for deletion. -/
theorem long_ttl_expires_at_once :
    Admitted longLived ∧
      isExpired (storedMessage 1 longLived) 2 = true ∧
      ¬ Expired (storedMessage 1 longLived) 2 ∧
      sweep longLivedLibraries ((∅ : DB).insert (eventKey 1 7 1) [1]) 2 false =
        [eventKey 1 7 1] ∧
      (dispatchTopic longLivedLibraries ⟨0, .inl rfl⟩
        ((∅ : DB).insert (eventKey 1 7 1) [1]) (fun _ => ⟨0, 0, .sorted⟩) newHub
        (newDispatcher 0) "orders" 2).expiredKeys = [eventKey 1 7 1] := by
  refine ⟨⟨by decide, by decide⟩, by decide, by decide, by decide +kernel, ?_⟩
  decide +kernel

theorem expiry_exact_iff_longLived :
    Admitted longLived ∧
      ((∀ nowMs, isExpired (storedMessage 1 longLived) nowMs = true ↔
        Expired (storedMessage 1 longLived) nowMs) ↔
      (1 : Int64).toInt + longLived.ttlMs.toInt < 2 ^ 63) :=
  ⟨⟨by decide, by decide⟩, (expiry_exact_iff 1 ⟨by decide, by decide⟩).2.2.1⟩

end FutureQ.Janitor
