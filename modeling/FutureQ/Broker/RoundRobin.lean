import FutureQ.Broker.Consumers

/-!
# Round robin

`Select` keeps one counter for each key that `GroupKey` prints, and takes the
counter of the first candidate.  A series of calls is fair if every `n` calls of a
topic and group that are made with the same `n` consumers pick each of them once,
whoever else calls in between.  The module says for which pairs of topic and group,
and from which counters, every series is fair.
-/

namespace FutureQ.RoundRobin

open FutureQ.OrderedStore
open FutureQ.Consumers

/-- A topic and a group. -/
abbrev Pair := String × String

/-- One call of `Select` for the consumers of a topic and group.  The length of a
slice is an `int`. -/
structure Call where
  pair : Pair
  candidates : List ConsumerEntry
  belong : ∀ consumer ∈ candidates, (consumer.topic, consumer.group) = pair
  length_lt : candidates.length < 2 ^ 63

def serve (hub : Hub) (calls : List Call) : Hub :=
  calls.foldl (fun hub call => (hub.select call.candidates).2) hub

/-- What the calls for a pair return. -/
def picked (pair : Pair) : Hub → List Call → List (Option ConsumerEntry)
  | _, [] => []
  | hub, call :: calls =>
      let after := (hub.select call.candidates).2
      if call.pair = pair then
        (hub.select call.candidates).1 :: picked pair after calls
      else picked pair after calls

/-- Whatever calls for the pairs came before, a stretch of calls in which a pair
makes `n` calls, all with the same `n` consumers, picks each of them once. -/
def Fair (hub : Hub) (pairs : Set Pair) : Prop :=
  ∀ before window : List Call, (∀ call ∈ before ++ window, call.pair ∈ pairs) →
    ∀ (pair : Pair) (consumers : List ConsumerEntry), consumers.Nodup →
      (∀ call ∈ window, call.pair = pair → call.candidates = consumers) →
      window.countP (fun call => call.pair = pair) = consumers.length →
      (picked pair (serve hub before) window).Perm (consumers.map some)

/-- The keys under which the consumers of a pair may be counted. -/
def keys (pair : Pair) : Set String :=
  { key | ∃ consumer : ConsumerEntry,
    (consumer.topic, consumer.group) = pair ∧ consumer.groupKey = key }

def counter (hub : Hub) (key : String) : ℕ := (hub.next[key]?.getD 0).toNat

theorem counter_lt (hub : Hub) (key : String) : counter hub key < 2 ^ 64 :=
  UInt64.toNat_lt _

/-! ## One call -/

theorem toNat_count {candidates : List ConsumerEntry}
    (hlength : candidates.length < 2 ^ 63) :
    (UInt64.ofNat candidates.length).toNat = candidates.length :=
  UInt64.toNat_ofNat_of_lt' (hlength.trans (by decide))

theorem select_choice (hub : Hub) (first : ConsumerEntry) (rest : List ConsumerEntry)
    (hlength : (first :: rest).length < 2 ^ 63) :
    (hub.select (first :: rest)).1 =
      (first :: rest)[counter hub first.groupKey % (first :: rest).length]? := by
  rw [Hub.select, UInt64.toNat_mod, toNat_count hlength]
  rfl

theorem counter_select (hub : Hub) (first : ConsumerEntry) (rest : List ConsumerEntry)
    (hlength : (first :: rest).length < 2 ^ 63) :
    counter (hub.select (first :: rest)).2 first.groupKey =
      (counter hub first.groupKey + 1) % 2 ^ 64 % (first :: rest).length := by
  rw [counter, Hub.select, Std.ExtTreeMap.getElem?_insert_self, Option.getD_some,
    UInt64.toNat_mod, toNat_count hlength, UInt64.toNat_add]
  rfl

theorem counter_select_ne (hub : Hub) {candidates : List ConsumerEntry} {key : String}
    (hkey : ∀ first ∈ candidates.head?, first.groupKey ≠ key) :
    counter (hub.select candidates).2 key = counter hub key := by
  cases candidates with
  | nil => rfl
  | cons first rest =>
      rw [counter, Hub.select, getElem?_insert_ne (hkey first rfl)]
      rfl

/-- A counter is what it was or below the length of some candidate list. -/
theorem counter_select_cases (hub : Hub) (call : Call) (key : String) :
    counter (hub.select call.candidates).2 key = counter hub key ∨
      counter (hub.select call.candidates).2 key < 2 ^ 63 := by
  obtain ⟨pair, candidates, hbelong, hlength⟩ := call
  cases candidates with
  | nil => exact .inl rfl
  | cons first rest =>
      by_cases hkey : first.groupKey = key
      · subst hkey
        right
        rw [counter_select hub first rest hlength]
        exact (Nat.mod_lt _ (by simp)).trans hlength
      · left
        apply counter_select_ne hub
        rintro other ⟨⟩
        exact hkey

theorem counter_serve_cases (hub : Hub) (calls : List Call) (key : String) :
    counter (serve hub calls) key = counter hub key ∨
      counter (serve hub calls) key < 2 ^ 63 := by
  induction calls generalizing hub with
  | nil => exact .inl rfl
  | cons call calls ih =>
      rcases ih (hub.select call.candidates).2 with hsame | hsmall
      · rcases counter_select_cases hub call key with hbefore | hbelow
        · exact .inl (hsame.trans hbefore)
        · exact .inr (hsame.trans_lt hbelow)
      · exact .inr hsmall

/-! ## A window -/

theorem picked_cons_self {pair : Pair} {call : Call} (hpair : call.pair = pair)
    (hub : Hub) (calls : List Call) :
    picked pair hub (call :: calls) =
      (hub.select call.candidates).1 ::
        picked pair (hub.select call.candidates).2 calls := by
  rw [picked, if_pos hpair]

theorem picked_cons_other {pair : Pair} {call : Call} (hpair : call.pair ≠ pair)
    (hub : Hub) (calls : List Call) :
    picked pair hub (call :: calls) =
      picked pair (hub.select call.candidates).2 calls := by
  rw [picked, if_neg hpair]

/-- The calls of a pair walk round its candidates as long as nobody else moves
their counter. -/
theorem picked_eq {pair : Pair} {first : ConsumerEntry} {rest : List ConsumerEntry}
    (hlength : (first :: rest).length < 2 ^ 63) {window : List Call}
    (hown : ∀ call ∈ window, call.pair = pair → call.candidates = first :: rest)
    (hother : ∀ call ∈ window, call.pair ≠ pair →
      ∀ head ∈ call.candidates.head?, head.groupKey ≠ first.groupKey)
    {hub : Hub} (hcounter : counter hub first.groupKey + 1 < 2 ^ 64) {turn : ℕ}
    (hturn : counter hub first.groupKey % (first :: rest).length =
      turn % (first :: rest).length) :
    picked pair hub window =
      (List.range (window.countP fun call => call.pair = pair)).map fun round =>
        (first :: rest)[(turn + round) % (first :: rest).length]? := by
  induction window generalizing hub turn with
  | nil => rfl
  | cons call window ih =>
      rw [List.forall_mem_cons] at hown hother
      by_cases hpair : call.pair = pair
      · have hnext := counter_select hub first rest hlength
        rw [Nat.mod_eq_of_lt hcounter] at hnext
        have hbelow : counter (hub.select (first :: rest)).2 first.groupKey <
            (first :: rest).length := by
          rw [hnext]
          exact Nat.mod_lt _ (by simp)
        have hmoved : counter (hub.select (first :: rest)).2 first.groupKey %
            (first :: rest).length = (turn + 1) % (first :: rest).length := by
          rw [hnext, Nat.mod_mod, Nat.add_mod, hturn, ← Nat.add_mod]
        rw [picked_cons_self hpair, hown.1 hpair, select_choice hub first rest hlength,
          ih hown.2 hother.2 (by omega) hmoved,
          List.countP_cons_of_pos (by simpa using hpair), List.range_succ_eq_map,
          List.map_cons, List.map_map, hturn, Nat.add_zero]
        congr 2
        funext round
        rw [Function.comp_apply, Nat.succ_eq_one_add, ← Nat.add_assoc]
      · have hkept := counter_select_ne hub (hother.1 hpair)
        rw [picked_cons_other hpair, List.countP_cons_of_neg (by simpa using hpair)]
        exact ih hown.2 hother.2 (by rw [hkept]; exact hcounter)
          (by rw [hkept]; exact hturn)

/-- One turn from any place goes round the whole list. -/
theorem turn_eq_rotate {α : Type*} (values : List α) (turn : ℕ) :
    ((List.range values.length).map fun round =>
      values[(turn + round) % values.length]?) = (values.rotate turn).map some := by
  apply List.ext_getElem?
  intro index
  by_cases hindex : index < values.length
  · rw [List.getElem?_map, List.getElem?_range hindex, List.getElem?_map,
      List.getElem?_rotate hindex, Option.map_some, Nat.add_comm]
    have hbelow : (index + turn) % values.length < values.length :=
      Nat.mod_lt _ (by omega)
    rw [List.getElem?_eq_getElem hbelow]
    rfl
  · rw [List.getElem?_eq_none (by simpa using hindex),
      List.getElem?_eq_none (by simpa using hindex)]

theorem fair_of_separate {hub : Hub} {pairs : Set Pair}
    (hseparate : pairs.PairwiseDisjoint keys)
    (hcounter : ∀ pair ∈ pairs, ∀ key ∈ keys pair, counter hub key ≠ 2 ^ 64 - 1) :
    Fair hub pairs := by
  intro before window hpairs pair consumers hnodup hsame hcount
  cases consumers with
  | nil =>
      have hnone : picked pair (serve hub before) window = [] := by
        rw [List.length_nil, List.countP_eq_zero] at hcount
        generalize serve hub before = start
        clear hpairs hsame
        induction window generalizing start with
        | nil => rfl
        | cons call window ih =>
            rw [List.forall_mem_cons] at hcount
            rw [picked_cons_other (by simpa using hcount.1)]
            exact ih hcount.2 _
      rw [hnone]
      exact .refl _
  | cons first rest =>
      have hsome : 0 < window.countP fun call => call.pair = pair := by
        rw [hcount]
        exact Nat.succ_pos _
      obtain ⟨call, hcall, hpair⟩ := List.countP_pos_iff.mp hsome
      have hcallPair : call.pair = pair := by simpa using hpair
      have hcandidates := hsame call hcall hcallPair
      have hlength : (first :: rest).length < 2 ^ 63 := hcandidates ▸ call.length_lt
      have hbelong := call.belong first (hcandidates ▸ List.mem_cons_self)
      have hmember : pair ∈ pairs :=
        hcallPair ▸ hpairs call (List.mem_append_right _ hcall)
      have hkey : first.groupKey ∈ keys pair :=
        ⟨first, hbelong.trans hcallPair, rfl⟩
      have hothers : ∀ other ∈ window, other.pair ≠ pair →
          ∀ head ∈ other.candidates.head?, head.groupKey ≠ first.groupKey := by
        intro other hother hne head hhead heq
        have hdisjoint := hseparate (hpairs other (List.mem_append_right _ hother))
          hmember hne
        exact Set.disjoint_left.mp hdisjoint
          ⟨head, other.belong head (List.mem_of_head? hhead), heq⟩ hkey
      have hstart : counter (serve hub before) first.groupKey + 1 < 2 ^ 64 := by
        have hfirst := hcounter pair hmember _ hkey
        have hbound := counter_lt hub first.groupKey
        rcases counter_serve_cases hub before first.groupKey with heq | hsmall
        · omega
        · omega
      rw [picked_eq hlength hsame hothers hstart rfl, hcount, turn_eq_rotate]
      exact (List.rotate_perm _ _).map some

/-! ## Unfair runs -/

/-- The call for a consumer and others of its topic and group, whose IDs are its
own with something appended. -/
def familyCall (consumer : ConsumerEntry) (suffixes : List String)
    (hlength : suffixes.length + 1 < 2 ^ 63) : Call where
  pair := (consumer.topic, consumer.group)
  candidates := consumer :: suffixes.map fun suffix =>
    { consumer with id := consumer.id ++ suffix }
  belong := by
    intro other hother
    rcases List.mem_cons.mp hother with rfl | hsibling
    · rfl
    · obtain ⟨suffix, -, rfl⟩ := List.mem_map.mp hsibling
      rfl
  length_lt := by rwa [List.length_cons, List.length_map]

theorem nodup_familyCall (consumer : ConsumerEntry) {suffixes : List String}
    (hlength : suffixes.length + 1 < 2 ^ 63) (hnodup : ("" :: suffixes).Nodup) :
    (familyCall consumer suffixes hlength).candidates.Nodup := by
  have hids : (familyCall consumer suffixes hlength).candidates.map ConsumerEntry.id =
      ("" :: suffixes).map (consumer.id ++ ·) := by
    simp [familyCall]
  apply List.Nodup.of_map ConsumerEntry.id
  rw [hids]
  exact hnodup.map fun left right heq => by simpa using heq

theorem select_of_counter {hub : Hub} {first : ConsumerEntry}
    {rest : List ConsumerEntry} (hlength : (first :: rest).length < 2 ^ 63)
    (hcounter : counter hub first.groupKey % (first :: rest).length = 0) :
    (hub.select (first :: rest)).1 = some first := by
  rw [select_choice hub first rest hlength, hcounter]
  rfl

theorem counter_select_singleton (hub : Hub) (consumer : ConsumerEntry) :
    counter (hub.select [consumer]).2 consumer.groupKey = 0 := by
  rw [counter_select hub consumer [] (by simp)]
  exact Nat.mod_one _

/-- In a fair series no two calls of a window pick the same consumer. -/
theorem nodup_picked_of_fair {hub : Hub} {pairs : Set Pair} (hfair : Fair hub pairs)
    {own : Call} (hnodup : own.candidates.Nodup) {before window : List Call}
    (hpairs : ∀ call ∈ before ++ window, call.pair ∈ pairs)
    (hown : ∀ call ∈ window, call.pair = own.pair → call = own)
    (hcount : window.countP (fun call => call.pair = own.pair) =
      own.candidates.length) :
    (picked own.pair (serve hub before) window).Nodup := by
  have hpicks := hfair before window hpairs own.pair own.candidates hnodup
    (fun call hcall hpair => congrArg Call.candidates (hown call hcall hpair)) hcount
  exact hpicks.nodup_iff.mpr (hnodup.map (Option.some_injective _))

/-- Fair calls need a key of their own for every pair: a lone consumer with the
same key sets the counter back. -/
theorem separate_of_fair {hub : Hub} {pairs : Set Pair} (hfair : Fair hub pairs) :
    pairs.PairwiseDisjoint keys := by
  intro pair hpair other hother hne
  change Disjoint (keys pair) (keys other)
  rw [Set.disjoint_left]
  rintro key ⟨consumer, rfl, rfl⟩ ⟨stranger, rfl, hkey⟩
  let own := familyCall consumer ["+"] (by simp)
  let reset := familyCall stranger [] (by simp)
  have hreset : reset.pair ≠ own.pair := hne.symm
  have hpicks : (picked own.pair (serve hub [reset]) [own, reset, own]).Nodup := by
    have hnodup : own.candidates.Nodup := nodup_familyCall consumer _ (by decide)
    apply nodup_picked_of_fair hfair hnodup
    · intro call hcall
      have hcases : call = reset ∨ call = own := by grind
      rcases hcases with rfl | rfl
      · exact hother
      · exact hpair
    · intro call hcall hcallPair
      have hcases : call = own ∨ call = reset := by grind
      rcases hcases with rfl | rfl
      · rfl
      · exact absurd hcallPair hreset
    · simp only [List.countP_cons, List.countP_nil, hreset, decide_true, decide_false]
      rfl
  have hback : ∀ before : Hub, counter (before.select reset.candidates).2
      consumer.groupKey % own.candidates.length = 0 := by
    intro before
    rw [← hkey]
    exact congrArg (· % own.candidates.length) (counter_select_singleton before stranger)
  rw [picked_cons_self rfl, picked_cons_other hreset, picked_cons_self rfl] at hpicks
  have hfirst := select_of_counter own.length_lt (hback hub)
  have hsecond := select_of_counter own.length_lt
    (hback ((serve hub [reset]).select own.candidates).2)
  apply (List.nodup_cons.mp hpicks).1
  exact List.mem_cons.mpr (.inl (hfirst.trans hsecond.symm))

/-- Fair calls need counters that the next call does not wrap. -/
theorem counter_of_fair {hub : Hub} {pairs : Set Pair} (hfair : Fair hub pairs)
    {pair : Pair} (hpair : pair ∈ pairs) {key : String} (hkey : key ∈ keys pair) :
    counter hub key ≠ 2 ^ 64 - 1 := by
  obtain ⟨consumer, rfl, rfl⟩ := hkey
  intro hcounter
  -- three divides the largest counter and not its successor 2 ^ 64
  let own := familyCall consumer ["+", "++"] (by simp)
  have hwindow : ∀ call ∈ [own, own, own], call = own := by simp
  have hpicks : (picked own.pair (serve hub []) [own, own, own]).Nodup := by
    have hnodup : own.candidates.Nodup := nodup_familyCall consumer _ (by decide)
    apply nodup_picked_of_fair hfair hnodup
    · exact fun call hcall => hwindow call hcall ▸ hpair
    · exact fun call hcall _ => hwindow call hcall
    · simp only [List.countP_cons, List.countP_nil, decide_true]
      rfl
  have hwrapped : counter (hub.select own.candidates).2 consumer.groupKey = 0 := by
    refine (counter_select hub consumer _ own.length_lt).trans ?_
    rw [hcounter]
    rfl
  have hfirst : (hub.select own.candidates).1 = some consumer := by
    refine select_of_counter own.length_lt ?_
    rw [hcounter]
    exact (by decide : (2 ^ 64 - 1) % 3 = 0)
  have hsecond : ((hub.select own.candidates).2.select own.candidates).1 =
      some consumer := by
    refine select_of_counter own.length_lt ?_
    rw [hwrapped, Nat.zero_mod]
  rw [picked_cons_self rfl, picked_cons_self rfl] at hpicks
  apply (List.nodup_cons.mp hpicks).1
  exact List.mem_cons.mpr (.inl (hfirst.trans hsecond.symm))

/-- `Select` is fair to a set of pairs exactly when no two of them print the same
key and none of their counters is the largest there is. -/
theorem round_robin_fair_iff (hub : Hub) (pairs : Set Pair) :
    Fair hub pairs ↔ pairs.PairwiseDisjoint keys ∧
      ∀ pair ∈ pairs, ∀ key ∈ keys pair, counter hub key ≠ 2 ^ 64 - 1 :=
  ⟨fun hfair => ⟨separate_of_fair hfair, fun _ hpair _ => counter_of_fair hfair hpair⟩,
    fun hseparate => fair_of_separate hseparate.1 hseparate.2⟩

/-- Group `b|c` of topic `a` and group `c` of topic `a|b` share a counter: a call for
the second makes two calls for the first pick the same consumer. -/
theorem shared_counter_is_unfair :
    picked ("a", "b|c") newHub
      [familyCall ⟨"1", "a", "b|c"⟩ ["+"] (by simp),
        familyCall ⟨"2", "a|b", "c"⟩ [] (by simp),
        familyCall ⟨"1", "a", "b|c"⟩ ["+"] (by simp)] =
      [some ⟨"1", "a", "b|c"⟩, some ⟨"1", "a", "b|c"⟩] := by
  decide +kernel

end FutureQ.RoundRobin
