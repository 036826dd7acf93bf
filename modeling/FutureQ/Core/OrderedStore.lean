import Mathlib

/-!
# Ordered key-value stores with atomic batches

A store is an extensional ordered map.  A batch is the list of writes collected
by its author; committing it plays the writes in order, so the last write to a
key wins.  The lemmas below describe a commit key by key: a key that the batch
does not mention keeps its value, and two stores that agree outside a set of
keys still agree there after the same batch.
-/

namespace FutureQ.OrderedStore

variable {K V : Type*} [Ord K] [Std.TransOrd K]

abbrev Contents (K V : Type*) [Ord K] := Std.ExtTreeMap K V

/-- One write of a batch. -/
inductive BatchOp (K V : Type*) where
  | set (key : K) (value : V)
  | delete (key : K)
  deriving DecidableEq, Repr

def BatchOp.key : BatchOp K V → K
  | .set key _ => key
  | .delete key => key

def BatchOp.apply (contents : Contents K V) : BatchOp K V → Contents K V
  | .set key value => contents.insert key value
  | .delete key => contents.erase key

/-- What a batch leaves behind when every write is accepted. -/
def commit (contents : Contents K V) (ops : List (BatchOp K V)) :
    Contents K V :=
  ops.foldl BatchOp.apply contents

@[simp]
theorem commit_nil (contents : Contents K V) : commit contents [] = contents :=
  rfl

@[simp]
theorem commit_cons (contents : Contents K V) (op : BatchOp K V)
    (ops : List (BatchOp K V)) :
    commit contents (op :: ops) = commit (op.apply contents) ops := rfl

theorem commit_append (contents : Contents K V)
    (first second : List (BatchOp K V)) :
    commit contents (first ++ second) = commit (commit contents first) second :=
  List.foldl_append

/-- Stores that may differ only at the keys of `hidden`. -/
def AgreeOff (hidden : Set K) (left right : Contents K V) : Prop :=
  ∀ key, key ∉ hidden → left[key]? = right[key]?

theorem AgreeOff.refl (hidden : Set K) (contents : Contents K V) :
    AgreeOff hidden contents contents := fun _ _ => rfl

theorem AgreeOff.symm {hidden : Set K} {left right : Contents K V}
    (hagree : AgreeOff hidden left right) : AgreeOff hidden right left :=
  fun key hkey => (hagree key hkey).symm

theorem AgreeOff.trans {hidden : Set K} {left middle right : Contents K V}
    (hfirst : AgreeOff hidden left middle)
    (hsecond : AgreeOff hidden middle right) : AgreeOff hidden left right :=
  fun key hkey => (hfirst key hkey).trans (hsecond key hkey)

theorem getElem?_apply_congr {left right : Contents K V} {key : K}
    (heq : left[key]? = right[key]?) (op : BatchOp K V) :
    (op.apply left)[key]? = (op.apply right)[key]? := by
  cases op with
  | set written value =>
      simp only [BatchOp.apply, Std.ExtTreeMap.getElem?_insert, heq]
  | delete written =>
      simp only [BatchOp.apply, Std.ExtTreeMap.getElem?_erase, heq]

/-- The same batch played on two stores preserves their agreement at a key. -/
theorem getElem?_commit_congr {left right : Contents K V} {key : K}
    (heq : left[key]? = right[key]?) (ops : List (BatchOp K V)) :
    (commit left ops)[key]? = (commit right ops)[key]? := by
  induction ops generalizing left right with
  | nil => exact heq
  | cons op ops ih => exact ih (getElem?_apply_congr heq op)

theorem AgreeOff.commit {hidden : Set K} {left right : Contents K V}
    (hagree : AgreeOff hidden left right) (ops : List (BatchOp K V)) :
    AgreeOff hidden (commit left ops) (OrderedStore.commit right ops) :=
  fun key hkey => getElem?_commit_congr (hagree key hkey) ops

/-- A batch without deletes keeps every key and adds those it writes. -/
theorem mem_commit_of_sets {contents : Contents K V} {ops : List (BatchOp K V)}
    (hsets : ∀ op ∈ ops, ∃ key value, op = .set key value) {key : K}
    (hkey : key ∈ contents ∨ ∃ value, BatchOp.set key value ∈ ops) :
    key ∈ commit contents ops := by
  induction ops generalizing contents with
  | nil => simpa using hkey
  | cons op ops ih =>
      obtain ⟨⟨written, newValue, rfl⟩, hrest⟩ := List.forall_mem_cons.mp hsets
      apply ih hrest
      rcases hkey with hbefore | ⟨value, hset⟩
      · exact .inl (Std.ExtTreeMap.mem_insert.mpr (.inr hbefore))
      · rcases List.mem_cons.mp hset with heq | hlater
        · cases heq
          exact .inl Std.ExtTreeMap.mem_insert_self
        · exact .inr ⟨value, hlater⟩

variable [Std.LawfulEqOrd K]

theorem getElem?_insert_ne {contents : Contents K V} {key other : K}
    (hne : key ≠ other) (value : V) :
    (contents.insert key value)[other]? = contents[other]? := by
  rw [Std.ExtTreeMap.getElem?_insert, if_neg]
  exact fun heq => hne (Std.LawfulEqCmp.eq_of_compare heq)

theorem getElem?_erase_ne {contents : Contents K V} {key other : K}
    (hne : key ≠ other) :
    (contents.erase key)[other]? = contents[other]? := by
  rw [Std.ExtTreeMap.getElem?_erase, if_neg]
  exact fun heq => hne (Std.LawfulEqCmp.eq_of_compare heq)

theorem getElem?_apply_ne {contents : Contents K V} {op : BatchOp K V}
    {other : K} (hne : op.key ≠ other) :
    (op.apply contents)[other]? = contents[other]? := by
  cases op with
  | set key value => exact getElem?_insert_ne hne value
  | delete key => exact getElem?_erase_ne hne

/-- A batch does not change the keys it does not mention. -/
theorem getElem?_commit_of_untouched (contents : Contents K V)
    {ops : List (BatchOp K V)} {key : K}
    (huntouched : ∀ op ∈ ops, op.key ≠ key) :
    (commit contents ops)[key]? = contents[key]? := by
  induction ops generalizing contents with
  | nil => rfl
  | cons op ops ih =>
      have htail : ∀ other ∈ ops, other.key ≠ key :=
        fun other hother => huntouched other (List.mem_cons_of_mem _ hother)
      rw [commit_cons, ih _ htail,
        getElem?_apply_ne (huntouched op List.mem_cons_self)]

/-- Writes to hidden keys cannot be observed. -/
theorem agreeOff_commit_hidden {hidden : Set K} (contents : Contents K V)
    {ops : List (BatchOp K V)} (hhidden : ∀ op ∈ ops, op.key ∈ hidden) :
    AgreeOff hidden (commit contents ops) contents := by
  intro key hkey
  apply getElem?_commit_of_untouched
  intro op hop heq
  exact hkey (heq ▸ hhidden op hop)

/-- What a batch leaves at a key was there before or was written by the batch. -/
theorem getElem?_commit_eq_some {contents : Contents K V}
    {ops : List (BatchOp K V)} {key : K} {value : V}
    (hvalue : (commit contents ops)[key]? = some value) :
    contents[key]? = some value ∨ BatchOp.set key value ∈ ops := by
  induction ops generalizing contents with
  | nil => exact Or.inl hvalue
  | cons op ops ih =>
      rcases ih hvalue with hbefore | hlater
      · by_cases hkey : op.key = key
        · cases op with
          | set written newValue =>
              cases hkey
              rw [BatchOp.apply, BatchOp.key,
                Std.ExtTreeMap.getElem?_insert_self] at hbefore
              cases hbefore
              exact Or.inr List.mem_cons_self
          | delete written =>
              cases hkey
              rw [BatchOp.apply, BatchOp.key,
                Std.ExtTreeMap.getElem?_erase_self] at hbefore
              cases hbefore
        · rw [getElem?_apply_ne hkey] at hbefore
          exact Or.inl hbefore
      · exact Or.inr (List.mem_cons_of_mem _ hlater)

/-- A key that a batch writes only one value to has that value afterwards. -/
theorem getElem?_commit_of_writes {ops : List (BatchOp K V)} {key : K} {value : V}
    (hset : BatchOp.set key value ∈ ops)
    (hwrites : ∀ op ∈ ops, op.key = key → op = .set key value)
    (contents : Contents K V) : (commit contents ops)[key]? = some value := by
  induction ops generalizing contents with
  | nil => exact absurd hset List.not_mem_nil
  | cons op ops ih =>
      obtain ⟨hhead, htail⟩ := List.forall_mem_cons.mp hwrites
      by_cases hlater : BatchOp.set key value ∈ ops
      · exact ih hlater htail _
      · obtain rfl : BatchOp.set key value = op := by simpa [hlater] using hset
        rw [commit_cons, getElem?_commit_of_untouched]
        · simp [BatchOp.apply]
        · intro other hother hkey
          exact hlater (htail other hother hkey ▸ hother)

theorem getElem?_commit_eq_none {contents : Contents K V}
    {ops : List (BatchOp K V)} {key : K} (habsent : contents[key]? = none)
    (hops : ∀ value, BatchOp.set key value ∉ ops) :
    (commit contents ops)[key]? = none := by
  cases hvalue : (commit contents ops)[key]? with
  | none => rfl
  | some value =>
      rcases getElem?_commit_eq_some hvalue with hbefore | hset
      · rw [habsent] at hbefore
        cases hbefore
      · exact absurd hset (hops value)

/-- Deleting a list of keys leaves none of them behind. -/
theorem getElem?_commit_delete_mem (contents : Contents K V) {keys : List K}
    {key : K} (hkey : key ∈ keys) :
    (commit contents (keys.map BatchOp.delete))[key]? = none := by
  induction keys generalizing contents with
  | nil => simp at hkey
  | cons head keys ih =>
      by_cases hmem : key ∈ keys
      · exact ih _ hmem
      · have hhead : key = head := by simpa [hmem] using hkey
        subst hhead
        have htail : ∀ op ∈ keys.map (BatchOp.delete (V := V)),
            op.key ≠ key := by
          intro op hop heq
          obtain ⟨other, hother, rfl⟩ := List.mem_map.mp hop
          exact hmem (heq ▸ hother)
        rw [List.map_cons, commit_cons, getElem?_commit_of_untouched _ htail]
        exact Std.ExtTreeMap.getElem?_erase_self

/-- Writing entries with distinct keys leaves every one of them behind. -/
theorem getElem?_commit_set_mem {entries : List (K × V)}
    (hdistinct : entries.Pairwise fun first second =>
      ¬ compare first.1 second.1 = .eq)
    {key : K} {value : V} (hentry : (key, value) ∈ entries)
    (contents : Contents K V) :
    (commit contents
      (entries.map fun entry => BatchOp.set entry.1 entry.2))[key]? = some value := by
  induction entries generalizing contents with
  | nil => exact absurd hentry List.not_mem_nil
  | cons entry entries ih =>
      rw [List.pairwise_cons] at hdistinct
      rcases List.mem_cons.mp hentry with rfl | hlater
      · rw [List.map_cons, commit_cons, getElem?_commit_of_untouched]
        · simp [BatchOp.apply]
        · intro op hop heq
          obtain ⟨other, hother, rfl⟩ := List.mem_map.mp hop
          have hkey : other.1 = key := heq
          apply hdistinct.1 other hother
          rw [hkey]
          exact Std.ReflCmp.compare_self
      · exact ih hdistinct.2 hlater _

/-- A store is rebuilt by writing its entries, in any order, to an empty one. -/
theorem commit_set_perm {contents : Contents K V} {entries : List (K × V)}
    (hperm : entries.Perm contents.toList) :
    commit (∅ : Contents K V)
      (entries.map fun entry => .set entry.1 entry.2) = contents := by
  have hdistinct : entries.Pairwise fun first second =>
      ¬ compare first.1 second.1 = .eq :=
    (hperm.pairwise_iff fun hne heq => hne (Std.OrientedCmp.eq_symm heq)).mpr
      contents.distinct_keys_toList
  apply Std.ExtTreeMap.ext_getElem?
  intro key
  cases hvalue : contents[key]? with
  | some value =>
      have hentry : (key, value) ∈ entries := hperm.mem_iff.mpr
        (Std.ExtTreeMap.mem_toList_iff_getElem?_eq_some.mpr hvalue)
      exact getElem?_commit_set_mem hdistinct hentry _
  | none =>
      apply getElem?_commit_eq_none
      · simp
      · intro value hset
        obtain ⟨⟨other, old⟩, hentry, heq⟩ := List.mem_map.mp hset
        cases heq
        rw [hperm.mem_iff, Std.ExtTreeMap.mem_toList_iff_getElem?_eq_some,
          hvalue] at hentry
        cases hentry

theorem commit_set_toList (contents : Contents K V) :
    commit (∅ : Contents K V)
      (contents.toList.map fun entry => .set entry.1 entry.2) = contents :=
  commit_set_perm (.refl _)

/-- Deleting every key empties a store. -/
theorem commit_delete_keys (contents : Contents K V) :
    commit contents (contents.keys.map BatchOp.delete) = ∅ := by
  apply Std.ExtTreeMap.ext_getElem?
  intro key
  rw [Std.ExtTreeMap.getElem?_empty]
  by_cases hkey : key ∈ contents
  · exact getElem?_commit_delete_mem _ (Std.ExtTreeMap.mem_keys.mpr hkey)
  · apply getElem?_commit_eq_none
    · exact getElem?_neg contents key hkey
    · intro value hset
      obtain ⟨other, -, heq⟩ := List.mem_map.mp hset
      cases heq

end FutureQ.OrderedStore
