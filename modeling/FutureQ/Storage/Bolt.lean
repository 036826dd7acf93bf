import FutureQ.Core.SortedCursor
import FutureQ.Storage.Contract

/-!
# Range reads of the bbolt engine

`boltDB` reads a range in two ways: `Scan` walks a cursor and hands every pair to
a callback, and `NewIter` wraps a cursor in an iterator.  Both see the bucket as
it was when their transaction began.  A bound that is `nil` is missing, a bound
of no bytes is a bound.  The iterator remembers in `done` that it has left the
range, and nothing clears that flag.
-/

namespace FutureQ.Bolt

open FutureQ.ByteOrder
open FutureQ.GoRuntime
open FutureQ.SortedCursor
open FutureQ.Storage

abbrev Pair := Bytes × Bytes

/-- `storage.IterOptions`; `none` is a `nil` slice. -/
structure IterOptions where
  lowerBound : Option Bytes
  upperBound : Option Bytes
  deriving DecidableEq, Repr

/-- `boltDB` with the state of the database behind it: whether it is open, and the
contents of the bucket if there is one. -/
structure BoltDB where
  opened : Bool
  bucketName : String
  bucket : Option DB

/-- What `NewBoltDB` returns for a file with these contents. -/
def newBoltDB (bucketName : String) (db : DB) : BoltDB :=
  ⟨true, if bucketName = "" then "futureq" else bucketName, some db⟩

def lowerOf (opts : Option IterOptions) : Option Bytes :=
  opts.bind IterOptions.lowerBound

def upperOf (opts : Option IterOptions) : Option Bytes :=
  opts.bind IterOptions.upperBound

/-! ## Scan -/

inductive ScanError (ε : Type) where
  | databaseNotOpen
  | yieldFunc (err : ε)
  deriving DecidableEq, Repr

def ScanError.message {ε : Type} (text : ε → String) : ScanError ε → String
  | .databaseNotOpen => "database not open"
  | .yieldFunc err => "yield func: " ++ text err

/-- The loop of `Scan` from a place of the cursor on.  The callback may answer by
all it has seen, so it is given the pairs it was called with before; the second
component is the pairs it has been called with at the end. -/
def scanLoop {ε : Type} (upper : Option Bytes)
    (yield : List Pair → Pair → Except ε Unit) :
    List Pair → List Pair → Except (ScanError ε) Unit × List Pair
  | visited, [] => (.ok (), visited)
  | visited, pair :: ahead =>
      if reached upper pair.1 then (.ok (), visited)
      else match yield visited pair with
        | .error err => (.error (.yieldFunc err), visited ++ [pair])
        | .ok () => scanLoop upper yield (visited ++ [pair]) ahead

def BoltDB.scan {ε : Type} (b : BoltDB) (opts : Option IterOptions)
    (yield : List Pair → Pair → Except ε Unit) :
    Except (ScanError ε) Unit × List Pair :=
  if b.opened then
    match b.bucket with
    | none => (.ok (), [])
    | some db =>
        scanLoop (upperOf opts) yield [] (start db.toList (lowerOf opts))
  else (.error .databaseNotOpen, [])

/-! ## The iterator -/

/-- `boltIterator`: `entries` is the bucket of its transaction, `cursor` what the
cursor has ahead. -/
structure BoltIterator where
  entries : List Pair
  cursor : List Pair
  lower : Option Bytes
  upper : Option Bytes
  curKey : Option Bytes
  curVal : Option Bytes
  done : Bool
  deriving DecidableEq, Repr

inductive IterError where
  | databaseNotOpen
  | bucketNotFound (bucketName : String)
  deriving DecidableEq, Repr

def IterError.message : IterError → String
  | .databaseNotOpen => "bbolt: failed to begin read tx: database not open"
  | .bucketNotFound name => "bbolt: bucket " ++ name.quote ++ " not found"

def BoltDB.newIter (b : BoltDB) (opts : Option IterOptions) :
    Except IterError BoltIterator :=
  if b.opened then
    match b.bucket with
    | none => .error (.bucketNotFound b.bucketName)
    | some db =>
        .ok ⟨db.toList, [], lowerOf opts, upperOf opts, none, none, false⟩
  else .error .databaseNotOpen

/-- `set`, with the pair that the cursor stands at. -/
def BoltIterator.set (bi : BoltIterator) : Option Pair → Bool × BoltIterator
  | none => (false, { bi with done := true, curKey := none, curVal := none })
  | some (key, value) =>
      if reached bi.upper key then
        (false, { bi with done := true, curKey := none, curVal := none })
      else (true, { bi with curKey := some key, curVal := some value })

def BoltIterator.first (bi : BoltIterator) : Bool × BoltIterator :=
  let cursor := start bi.entries bi.lower
  BoltIterator.set { bi with cursor } cursor.head?

def BoltIterator.next (bi : BoltIterator) : Bool × BoltIterator :=
  if bi.done then (false, bi)
  else BoltIterator.set { bi with cursor := bi.cursor.tail } bi.cursor.tail.head?

def BoltIterator.valid (bi : BoltIterator) : Bool := !bi.done && bi.curKey.isSome

/-- The rest of `for it.First(); it.Valid(); it.Next()`, with the pairs it sees;
`none` if `fuel` rounds do not end it. -/
def BoltIterator.walk : ℕ → BoltIterator → Option (List Pair)
  | 0, _ => none
  | fuel + 1, bi =>
      if bi.valid then
        (walk fuel bi.next.2).map fun pairs =>
          (bi.curKey.getD [], bi.curVal.getD []) :: pairs
      else some []

/-! ## The pairs in range -/

/-- `LowerBound <= key < UpperBound`, for the bounds that are given. -/
def InRange (opts : Option IterOptions) (key : Bytes) : Prop :=
  (∀ lower ∈ lowerOf opts, (compare lower key).isLE) ∧
    ∀ upper ∈ upperOf opts, compare key upper = .lt

def inRange (db : DB) (opts : Option IterOptions) : List Pair :=
  db.toList.filter fun pair => within (lowerOf opts) (upperOf opts) pair.1

theorem within_iff {opts : Option IterOptions} {key : Bytes} :
    within (lowerOf opts) (upperOf opts) key = true ↔ InRange opts key := by
  rw [within, InRange, Bool.and_eq_true]
  apply and_congr
  · cases lowerOf opts with
    | none => simp
    | some lower => simp
  · cases upperOf opts with
    | none => simp [reached]
    | some upper =>
        rw [reached, Option.any_some]
        cases hcompare : compare key upper <;> simp [hcompare]

theorem mem_inRange_iff {db : DB} {opts : Option IterOptions} {key value : Bytes} :
    (key, value) ∈ inRange db opts ↔ db[key]? = some value ∧ InRange opts key := by
  rw [inRange, List.mem_filter, Std.ExtTreeMap.mem_toList_iff_getElem?_eq_some,
    within_iff]

theorem pairwise_inRange (db : DB) (opts : Option IterOptions) :
    (inRange db opts).Pairwise fun first second => compare first.1 second.1 = .lt :=
  db.ordered_keys_toList.filter _

theorem upTo_start_eq_inRange (db : DB) (opts : Option IterOptions) :
    upTo (start db.toList (lowerOf opts)) (upperOf opts) = inRange db opts :=
  upTo_start db.ordered_keys_toList _ _

/-! ## What a scan visits -/

section ScanLoop

variable {ε : Type} {upper : Option Bytes}
variable {yield : List Pair → Pair → Except ε Unit}

/-- If the callback accepts every pair before the bound, it is called with all of
them. -/
theorem scanLoop_of_accepts {visited cursor : List Pair}
    (haccepts : ∀ (i : ℕ) (pair : Pair), (upTo cursor upper)[i]? = some pair →
      yield (visited ++ (upTo cursor upper).take i) pair = .ok ()) :
    scanLoop upper yield visited cursor = (.ok (), visited ++ upTo cursor upper) := by
  induction cursor generalizing visited with
  | nil => simp [scanLoop]
  | cons pair ahead ih =>
      rw [scanLoop]
      cases hreached : reached upper pair.1 with
      | true => rw [if_pos rfl, upTo_of_reached hreached, List.append_nil]
      | false =>
          rw [upTo_of_not_reached hreached] at haccepts ⊢
          have hpair : yield visited pair = .ok () := by
            simpa using haccepts 0 pair rfl
          rw [if_neg Bool.false_ne_true, hpair]
          simp only
          rw [ih, List.append_assoc, List.singleton_append]
          intro i other hother
          simpa using haccepts (i + 1) other hother

/-- The first pair that the callback refuses is the last it is called with. -/
theorem scanLoop_of_refuses {visited cursor : List Pair} {i : ℕ} {pair : Pair} {err : ε}
    (hpair : (upTo cursor upper)[i]? = some pair)
    (haccepts : ∀ j < i, ∀ other : Pair, (upTo cursor upper)[j]? = some other →
      yield (visited ++ (upTo cursor upper).take j) other = .ok ())
    (hrefuses : yield (visited ++ (upTo cursor upper).take i) pair = .error err) :
    scanLoop upper yield visited cursor =
      (.error (.yieldFunc err), visited ++ (upTo cursor upper).take (i + 1)) := by
  induction cursor generalizing visited i with
  | nil => simp at hpair
  | cons front ahead ih =>
      rw [scanLoop]
      cases hreached : reached upper front.1 with
      | true =>
          rw [upTo_of_reached hreached] at hpair
          simp at hpair
      | false =>
          rw [upTo_of_not_reached hreached] at hpair haccepts hrefuses ⊢
          rw [if_neg Bool.false_ne_true]
          cases i with
          | zero =>
              rw [List.getElem?_cons_zero, Option.some.injEq] at hpair
              subst hpair
              rw [List.take_zero, List.append_nil] at hrefuses
              rw [hrefuses]
              simp
          | succ i =>
              have hfront : yield visited front = .ok () := by
                simpa using haccepts 0 (Nat.zero_lt_succ i) front rfl
              rw [hfront]
              simp only
              rw [ih (i := i) (by simpa using hpair), List.take_succ_cons,
                List.append_assoc, List.singleton_append]
              · intro j hj other hother
                simpa using haccepts (j + 1) (Nat.succ_lt_succ hj) other hother
              · simpa using hrefuses

end ScanLoop

/-! ## Where the iterator stands -/

/-- What a reference cursor over the range would have ahead is what the iterator
has, and the iterator is done when there is nothing. -/
structure BoltIterator.StandsAt (bi : BoltIterator) (place : List Pair) : Prop where
  done : bi.done = place.isEmpty
  curKey : bi.curKey = place.head?.map Prod.fst
  curVal : bi.curVal = place.head?.map Prod.snd
  cursor : place ≠ [] → upTo bi.cursor bi.upper = place

theorem BoltIterator.StandsAt.valid_eq {bi : BoltIterator} {place : List Pair}
    (hstands : bi.StandsAt place) : bi.valid = !place.isEmpty := by
  rw [BoltIterator.valid, hstands.done, hstands.curKey]
  cases place <;> rfl

/-- `set` finds out whether the cursor is still in the range. -/
theorem set_head? {bi : BoltIterator} {cursor : List Pair}
    (hdone : bi.done = false ∨ upTo cursor bi.upper = []) :
    (BoltIterator.set { bi with cursor } cursor.head?).1 =
        !(upTo cursor bi.upper).isEmpty ∧
      (BoltIterator.set { bi with cursor } cursor.head?).2.StandsAt
        (upTo cursor bi.upper) := by
  cases cursor with
  | nil => exact ⟨rfl, rfl, rfl, rfl, fun hne => absurd rfl hne⟩
  | cons pair ahead =>
      rw [List.head?_cons, BoltIterator.set]
      cases hreached : reached bi.upper pair.1 with
      | true =>
          rw [upTo_of_reached hreached, if_pos rfl]
          exact ⟨rfl, rfl, rfl, rfl, fun hne => absurd rfl hne⟩
      | false =>
          have hahead := upTo_of_not_reached hreached ahead
          rw [hahead] at hdone ⊢
          rw [if_neg Bool.false_ne_true]
          refine ⟨rfl, ?_, rfl, rfl, fun _ => hahead⟩
          exact hdone.resolve_right (List.cons_ne_nil _ _)

theorem standsAt_first {bi : BoltIterator}
    (hdone : bi.done = false ∨ upTo (start bi.entries bi.lower) bi.upper = []) :
    bi.first.1 = !(upTo (start bi.entries bi.lower) bi.upper).isEmpty ∧
      bi.first.2.StandsAt (upTo (start bi.entries bi.lower) bi.upper) :=
  set_head? hdone

theorem BoltIterator.StandsAt.next {bi : BoltIterator} {place : List Pair}
    (hstands : bi.StandsAt place) :
    bi.next.1 = !place.tail.isEmpty ∧ bi.next.2.StandsAt place.tail := by
  cases place with
  | nil =>
      have hdone : bi.done = true := hstands.done
      rw [BoltIterator.next, if_pos hdone]
      exact ⟨rfl, hstands⟩
  | cons pair ahead =>
      have hdone : bi.done = false := hstands.done
      have hcursor := hstands.cursor (List.cons_ne_nil _ _)
      have htail : upTo bi.cursor.tail bi.upper = ahead := by
        cases hahead : bi.cursor with
        | nil => simp [hahead] at hcursor
        | cons front rest =>
            rw [hahead] at hcursor
            cases hreached : reached bi.upper front.1 with
            | true => simp [upTo_of_reached hreached] at hcursor
            | false =>
                rw [upTo_of_not_reached hreached] at hcursor
                exact (List.cons.inj hcursor).2
      rw [BoltIterator.next, if_neg (by simp [hdone]), List.tail_cons, ← htail]
      exact set_head? (.inl hdone)

/-- The loop over the iterator sees what lies ahead and ends. -/
theorem BoltIterator.StandsAt.walk {bi : BoltIterator} {place : List Pair}
    (hstands : bi.StandsAt place) {fuel : ℕ} (hfuel : place.length < fuel) :
    bi.walk fuel = some place := by
  induction fuel generalizing bi place with
  | zero => exact absurd hfuel (Nat.not_lt_zero _)
  | succ fuel ih =>
      rw [BoltIterator.walk, hstands.valid_eq, hstands.curKey, hstands.curVal]
      cases place with
      | nil => rfl
      | cons pair ahead =>
          rw [ih hstands.next.2 (by simpa using hfuel)]
          rfl

/-! ## Range reads -/

/-- `Scan` and the loop over `NewIter` visit exactly the pairs in range, in the
order of their keys; a scan whose callback fails ends with the pair it failed
on. -/
theorem range_reads_exact (bucketName : String) (db : DB) (opts : Option IterOptions) :
    (inRange db opts).Pairwise (fun first second =>
      compare first.1 second.1 = .lt) ∧
    (∀ key value, (key, value) ∈ inRange db opts ↔
      db[key]? = some value ∧ InRange opts key) ∧
    (∀ {ε : Type} (yield : List Pair → Pair → Except ε Unit),
      (∀ visited pair, yield visited pair = .ok ()) →
        (newBoltDB bucketName db).scan opts yield = (.ok (), inRange db opts)) ∧
    (∀ {ε : Type} (yield : List Pair → Pair → Except ε Unit) (i : ℕ) (pair : Pair)
        (err : ε),
      (inRange db opts)[i]? = some pair →
      (∀ j < i, ∀ other, (inRange db opts)[j]? = some other →
        yield ((inRange db opts).take j) other = .ok ()) →
      yield ((inRange db opts).take i) pair = .error err →
        (newBoltDB bucketName db).scan opts yield =
          (.error (.yieldFunc err), (inRange db opts).take (i + 1))) ∧
    ∃ bi, (newBoltDB bucketName db).newIter opts = .ok bi ∧
      ∀ fuel, (inRange db opts).length < fuel →
        bi.first.2.walk fuel = some (inRange db opts) := by
  have hahead := upTo_start_eq_inRange db opts
  refine ⟨pairwise_inRange db opts, fun key value => mem_inRange_iff, ?_, ?_, ?_⟩
  · intro ε yield haccepts
    change scanLoop _ yield [] _ = _
    rw [scanLoop_of_accepts fun i pair _ => haccepts _ pair, hahead, List.nil_append]
  · intro ε yield i pair err hpair haccepts hrefuses
    rw [← hahead] at hpair haccepts hrefuses ⊢
    change scanLoop _ yield [] _ = (_, [] ++ _)
    exact scanLoop_of_refuses hpair haccepts hrefuses
  · refine ⟨_, rfl, fun fuel hfuel => ?_⟩
    rw [← hahead] at hfuel ⊢
    exact (standsAt_first (.inl rfl)).2.walk hfuel

/-! ## The iterator under any calls -/

inductive Call where
  | first
  | next
  deriving DecidableEq, Repr

def BoltIterator.call (bi : BoltIterator) : Call → Bool × BoltIterator
  | .first => bi.first
  | .next => bi.next

/-- What the last of a sequence of calls returned, with the iterator after it. -/
def BoltIterator.play (bi : BoltIterator) (calls : List Call) : Bool × BoltIterator :=
  calls.foldl (fun last call => last.2.call call) (false, bi)

/-- What a reference cursor over the range has ahead after the calls. -/
def reference (range : List Pair) (calls : List Call) : List Pair :=
  calls.foldl (fun place call =>
    match call with
    | .first => range
    | .next => place.tail) []

/-- `Valid` agrees with the last answer, and the pair is that of the reference
cursor. -/
structure KeepsContract (place : List Pair) (last : Bool × BoltIterator) : Prop where
  valid : last.2.valid = true ↔ last.1 = true
  pair : last.2.valid = true → ∃ key value, place.head? = some (key, value) ∧
    last.2.curKey = some key ∧ last.2.curVal = some value

theorem play_append (bi : BoltIterator) (calls : List Call) (call : Call) :
    bi.play (calls ++ [call]) = (bi.play calls).2.call call := by
  simp [BoltIterator.play]

theorem reference_append_first (range : List Pair) (calls : List Call) :
    reference range (calls ++ [.first]) = range := by
  simp [reference]

theorem reference_append_next (range : List Pair) (calls : List Call) :
    reference range (calls ++ [.next]) = (reference range calls).tail := by
  simp [reference]

/-- The pairs that the bounds of an iterator leave of its bucket. -/
def BoltIterator.range (bi : BoltIterator) : List Pair :=
  upTo (start bi.entries bi.lower) bi.upper

theorem range_set (bi : BoltIterator) (pair : Option Pair) :
    (bi.set pair).2.range = bi.range := by
  rw [BoltIterator.set.eq_def]
  split
  · rfl
  · split_ifs
    · rfl
    · rfl

theorem range_call (bi : BoltIterator) (call : Call) :
    (bi.call call).2.range = bi.range := by
  cases call with
  | first => exact range_set _ _
  | next =>
      rw [BoltIterator.call, BoltIterator.next]
      split_ifs
      · rfl
      · exact range_set _ _

theorem range_play (bi : BoltIterator) (calls : List Call) :
    (bi.play calls).2.range = bi.range := by
  induction calls using List.reverseRecOn with
  | nil => rfl
  | append_singleton calls call ih => rw [play_append, range_call, ih]

theorem done_set {bi : BoltIterator} (hdone : bi.done = true) (pair : Option Pair) :
    (bi.set pair).2.done = true := by
  rw [BoltIterator.set.eq_def]
  split
  · rfl
  · split_ifs
    · rfl
    · exact hdone

theorem done_call {bi : BoltIterator} (hdone : bi.done = true) (call : Call) :
    (bi.call call).2.done = true := by
  cases call with
  | first =>
      have hmoved : { bi with cursor := start bi.entries bi.lower }.done = true := hdone
      exact done_set hmoved _
  | next =>
      rw [BoltIterator.call, BoltIterator.next, if_pos hdone]
      exact hdone

/-- Whatever is called after the first `First`, the iterator is done or stands
where the reference cursor does. -/
theorem done_or_standsAt {bi : BoltIterator} (hdone : bi.done = false)
    (calls : List Call) :
    (bi.play (.first :: calls)).2.done = true ∨
      (bi.play (.first :: calls)).2.StandsAt
        (reference bi.range (.first :: calls)) := by
  induction calls using List.reverseRecOn with
  | nil => exact .inr (standsAt_first (.inl hdone)).2
  | append_singleton calls call ih =>
      rw [← List.cons_append, play_append]
      cases hcurrent : (bi.play (.first :: calls)).2.done with
      | true => exact .inl (done_call hcurrent call)
      | false =>
          have hstands := ih.resolve_left (by simp [hcurrent])
          cases call with
          | first =>
              rw [reference_append_first, ← range_play bi (.first :: calls)]
              exact .inr (standsAt_first (.inl hcurrent)).2
          | next =>
              rw [reference_append_next]
              exact .inr hstands.next.2

/-- As long as `First` is called only from a pair, or the range is empty, every
call answers and leaves what the reference cursor would. -/
theorem play_standsAt {bi : BoltIterator} (hdone : bi.done = false)
    {calls : List Call}
    (hfirst : bi.range = [] ∨ ∀ early, early ++ [.first] <+: calls →
      reference bi.range (.first :: early) ≠ []) :
    (bi.play (.first :: calls)).1 =
        !(reference bi.range (.first :: calls)).isEmpty ∧
      (bi.play (.first :: calls)).2.StandsAt
        (reference bi.range (.first :: calls)) := by
  induction calls using List.reverseRecOn with
  | nil => exact standsAt_first (.inl hdone)
  | append_singleton calls call ih =>
      have hstands := (ih (hfirst.imp_right fun hplace early hearly =>
        hplace early (hearly.trans (List.prefix_append _ _)))).2
      rw [← List.cons_append, play_append]
      cases call with
      | next =>
          rw [reference_append_next]
          exact hstands.next
      | first =>
          rw [reference_append_first, ← range_play bi (.first :: calls)]
          apply standsAt_first
          rcases hfirst with hempty | hplace
          · rw [← range_play bi (.first :: calls)] at hempty
            exact .inr hempty
          · left
            rw [hstands.done, List.isEmpty_eq_false_iff]
            exact hplace calls List.prefix_rfl

/-- A done iterator that is sent back to a pair says that it has found one and
that it is not valid. -/
theorem first_of_done {bi : BoltIterator} (hdone : bi.done = true)
    (hrange : bi.range ≠ []) : bi.first.1 = true ∧ bi.first.2.valid = false := by
  have hstill : bi.first.2.done = true := done_call hdone .first
  refine ⟨?_, by rw [BoltIterator.valid, hstill]; rfl⟩
  have hahead : upTo (start bi.entries bi.lower) bi.upper ≠ [] := hrange
  rw [BoltIterator.first]
  cases hcursor : start bi.entries bi.lower with
  | nil => simp [hcursor] at hahead
  | cons pair ahead =>
      rw [hcursor] at hahead
      cases hreached : reached bi.upper pair.1 with
      | true => exact absurd (upTo_of_reached hreached ahead) hahead
      | false =>
          change (if reached bi.upper pair.1 then _ else _ : Bool × BoltIterator).1 = true
          rw [if_neg (by simp [hreached])]

theorem keepsContract_of_standsAt {place : List Pair} {last : Bool × BoltIterator}
    (hanswer : last.1 = !place.isEmpty) (hstands : last.2.StandsAt place) :
    KeepsContract place last := by
  constructor
  · rw [hstands.valid_eq, hanswer]
  · intro hvalid
    rw [hstands.valid_eq] at hvalid
    cases place with
    | nil => cases hvalid
    | cons pair ahead => exact ⟨pair.1, pair.2, rfl, hstands.curKey, hstands.curVal⟩

/-- After `First`, the iterator keeps its contract through a sequence of calls
exactly when the range is empty or no further `First` is called once the range
was left. -/
theorem iterator_contract_iff (bucketName : String) (db : DB)
    (opts : Option IterOptions) (calls : List Call) :
    ∃ bi, (newBoltDB bucketName db).newIter opts = .ok bi ∧
      ((∀ early, early <+: calls →
          KeepsContract (reference (inRange db opts) (.first :: early))
            (bi.play (.first :: early))) ↔
        inRange db opts = [] ∨ ∀ early, early ++ [.first] <+: calls →
          reference (inRange db opts) (.first :: early) ≠ []) := by
  refine ⟨_, rfl, ?_⟩
  generalize hbi : (⟨db.toList, [], lowerOf opts, upperOf opts, none, none, false⟩ :
    BoltIterator) = bi
  have hdone : bi.done = false := by rw [← hbi]
  have hrange : bi.range = inRange db opts := by
    rw [← hbi]
    exact upTo_start_eq_inRange db opts
  rw [← hrange]
  constructor
  · intro hkeeps
    by_contra hbroken
    push Not at hbroken
    obtain ⟨hsome, early, hearly, hend⟩ := hbroken
    have hexhausted : (bi.play (.first :: early)).2.done = true := by
      rcases done_or_standsAt hdone early with hleft | hstands
      · exact hleft
      · rw [hstands.done, hend]
        rfl
    have hcontract := (hkeeps _ hearly).valid
    rw [← List.cons_append, play_append] at hcontract
    obtain ⟨hfound, hinvalid⟩ := first_of_done hexhausted
      (by rw [range_play]; exact hsome)
    rw [BoltIterator.call, hfound, hinvalid] at hcontract
    simp at hcontract
  · intro hfirst early hearly
    obtain ⟨hanswer, hstands⟩ := play_standsAt hdone
      (hfirst.imp_right fun hplace other hother => hplace other (hother.trans hearly))
    exact keepsContract_of_standsAt hanswer hstands

/-- With one pair in the bucket, `First` after the end returns true and leaves the
iterator invalid. -/
theorem revived_iterator_is_invalid :
    ∃ bi, (newBoltDB "" ((∅ : DB).insert [1] [2])).newIter none = .ok bi ∧
      ((bi.play [.first, .next]).1 = false ∧
        (bi.play [.first, .next, .first]).1 = true ∧
        (bi.play [.first, .next, .first]).2.valid = false ∧
        (bi.play [.first, .next, .first]).2.curKey = some [1]) :=
  exists_ok_of_any (by decide +kernel)

end FutureQ.Bolt
