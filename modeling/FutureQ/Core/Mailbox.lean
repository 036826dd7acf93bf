import Mathlib

/-!
# Mailboxes

A mailbox hands out tickets 1, 2, 3, … to the messages posted to it and keeps
every message until its entry is settled.  Who settles an entry need not know the
ticket: a settlement is any test on entries.  The result about whole histories is
`mem_waiting_play_iff`: a message waits exactly when it was posted and nothing that
came later settled it; an entry that was settled once does not come back.
-/

namespace FutureQ.Mailbox

variable {M : Type*}

/-- `posted` is the last ticket handed out; the entries wait in the order of their
tickets. -/
structure Box (M : Type*) where
  posted : ℕ
  waiting : List (ℕ × M)
  ordered : waiting.Pairwise fun first second => first.1 < second.1
  numbered : ∀ entry ∈ waiting, 0 < entry.1 ∧ entry.1 ≤ posted

inductive Request (M : Type*) where
  | post (msgs : List M)
  | settle (test : ℕ × M → Bool)

def Request.msgs : Request M → List M
  | .post msgs => msgs
  | .settle _ => []

def Request.Settles (entry : ℕ × M) : Request M → Prop
  | .post _ => False
  | .settle test => test entry = true

/-- The messages with the tickets after `last`. -/
def ticketed (last : ℕ) : List M → List (ℕ × M)
  | [] => []
  | msg :: msgs => (last + 1, msg) :: ticketed (last + 1) msgs

/-! ## Tickets -/

theorem lt_of_mem_ticketed {last : ℕ} {msgs : List M} {entry : ℕ × M}
    (hentry : entry ∈ ticketed last msgs) :
    last < entry.1 ∧ entry.1 ≤ last + msgs.length := by
  induction msgs generalizing last with
  | nil => cases hentry
  | cons msg msgs ih =>
      rw [List.length_cons]
      rcases List.mem_cons.mp hentry with rfl | hlater
      · simp only
        omega
      · have hbounds := ih hlater
        omega

theorem pairwise_ticketed (last : ℕ) (msgs : List M) :
    (ticketed last msgs).Pairwise fun first second => first.1 < second.1 := by
  induction msgs generalizing last with
  | nil => exact .nil
  | cons msg msgs ih =>
      refine .cons (fun entry hentry => ?_) (ih (last + 1))
      exact (lt_of_mem_ticketed hentry).1

/-- The message with the ticket that its position gives it. -/
theorem mem_ticketed_iff {last : ℕ} {msgs : List M} {entry : ℕ × M} :
    entry ∈ ticketed last msgs ↔
      ∃ before after, msgs = before ++ entry.2 :: after ∧
        entry.1 = last + before.length + 1 := by
  induction msgs generalizing last with
  | nil => simp [ticketed]
  | cons msg msgs ih =>
      rw [ticketed, List.mem_cons, ih]
      constructor
      · rintro (rfl | ⟨before, after, rfl, hticket⟩)
        · exact ⟨[], msgs, rfl, rfl⟩
        · refine ⟨msg :: before, after, rfl, ?_⟩
          rw [hticket, List.length_cons]
          omega
      · rintro ⟨before, after, hsplit, hticket⟩
        cases before with
        | nil =>
            rw [List.nil_append, List.cons.injEq] at hsplit
            obtain ⟨rfl, -⟩ := hsplit
            exact .inl (Prod.ext hticket rfl)
        | cons head before =>
            rw [List.cons_append, List.cons.injEq] at hsplit
            obtain ⟨rfl, rfl⟩ := hsplit
            refine .inr ⟨before, after, rfl, ?_⟩
            rw [hticket, List.length_cons]
            omega

/-! ## Requests -/

namespace Box

theorem ordered_post {posted : ℕ} {waiting : List (ℕ × M)}
    (hordered : waiting.Pairwise fun first second => first.1 < second.1)
    (hnumbered : ∀ entry ∈ waiting, 0 < entry.1 ∧ entry.1 ≤ posted) (msgs : List M) :
    (waiting ++ ticketed posted msgs).Pairwise fun first second =>
      first.1 < second.1 := by
  refine List.pairwise_append.mpr
    ⟨hordered, pairwise_ticketed _ _, fun old hold new hnew => ?_⟩
  have hlast := (hnumbered old hold).2
  have hfirst := (lt_of_mem_ticketed hnew).1
  omega

theorem numbered_post {posted : ℕ} {waiting : List (ℕ × M)}
    (hnumbered : ∀ entry ∈ waiting, 0 < entry.1 ∧ entry.1 ≤ posted) (msgs : List M) :
    ∀ entry ∈ waiting ++ ticketed posted msgs,
      0 < entry.1 ∧ entry.1 ≤ posted + msgs.length := by
  intro entry hentry
  rcases List.mem_append.mp hentry with hold | hnew
  · have hbounds := hnumbered entry hold
    omega
  · have hbounds := lt_of_mem_ticketed hnew
    omega

theorem numbered_nil (posted : ℕ) :
    ∀ entry ∈ ([] : List (ℕ × M)), 0 < entry.1 ∧ entry.1 ≤ posted :=
  fun _ hentry => absurd hentry List.not_mem_nil

def empty : Box M := ⟨0, [], .nil, numbered_nil 0⟩

def post (box : Box M) (msgs : List M) : Box M where
  posted := box.posted + msgs.length
  waiting := box.waiting ++ ticketed box.posted msgs
  ordered := ordered_post box.ordered box.numbered msgs
  numbered := numbered_post box.numbered msgs

def settle (box : Box M) (test : ℕ × M → Bool) : Box M where
  posted := box.posted
  waiting := box.waiting.filter fun entry => !test entry
  ordered := box.ordered.filter _
  numbered entry hentry := box.numbered entry (List.mem_of_mem_filter hentry)

def apply (box : Box M) : Request M → Box M
  | .post msgs => box.post msgs
  | .settle test => box.settle test

def play (box : Box M) (requests : List (Request M)) : Box M :=
  requests.foldl apply box

variable {box : Box M}

/-- An entry is known by its ticket. -/
theorem eq_of_ticket {first second : ℕ × M} (hfirst : first ∈ box.waiting)
    (hsecond : second ∈ box.waiting) (hticket : first.1 = second.1) :
    first = second := by
  have hdistinct : (box.waiting.map Prod.fst).Nodup := by
    rw [List.Nodup, List.pairwise_map]
    exact box.ordered.imp fun hlt => hlt.ne
  exact List.inj_on_of_nodup_map hdistinct hfirst hsecond hticket

theorem posted_apply (box : Box M) (request : Request M) :
    (box.apply request).posted = box.posted + request.msgs.length := by
  cases request with
  | post msgs => rfl
  | settle test => rfl

theorem mem_waiting_apply_iff {request : Request M} {entry : ℕ × M} :
    entry ∈ (box.apply request).waiting ↔
      (entry ∈ box.waiting ∧ ¬ request.Settles entry) ∨
        entry ∈ ticketed box.posted request.msgs := by
  cases request with
  | post msgs => simp [apply, post, Request.msgs, Request.Settles]
  | settle test => simp [apply, settle, Request.msgs, Request.Settles, ticketed]

theorem play_append (box : Box M) (first second : List (Request M)) :
    box.play (first ++ second) = (box.play first).play second :=
  List.foldl_append

theorem posted_play (box : Box M) (requests : List (Request M)) :
    (box.play requests).posted =
      box.posted + (requests.flatMap Request.msgs).length := by
  induction requests generalizing box with
  | nil => rfl
  | cons request requests ih =>
      have hrest : (box.play (request :: requests)).posted =
          ((box.apply request).play requests).posted := rfl
      rw [hrest, ih, posted_apply, List.flatMap_cons, List.length_append, Nat.add_assoc]

/-- What waits after a history: the old entries that nothing settled, and the
posted messages that nothing after their post settled. -/
theorem mem_waiting_play_iff {requests : List (Request M)} {entry : ℕ × M} :
    entry ∈ (box.play requests).waiting ↔
      (entry ∈ box.waiting ∧ ∀ request ∈ requests, ¬ request.Settles entry) ∨
        ∃ before msgs after, requests = before ++ .post msgs :: after ∧
          entry ∈ ticketed (box.play before).posted msgs ∧
          ∀ request ∈ after, ¬ request.Settles entry := by
  induction requests generalizing box with
  | nil => simp [play]
  | cons head requests ih =>
      have hrest : box.play (head :: requests) = (box.apply head).play requests := rfl
      rw [hrest, ih, mem_waiting_apply_iff, List.forall_mem_cons]
      constructor
      · rintro (⟨⟨hold, hhead⟩ | hnew, hkept⟩ | ⟨before, msgs, after, rfl, hnew, hkept⟩)
        · exact .inl ⟨hold, hhead, hkept⟩
        · cases head with
          | post msgs => exact .inr ⟨[], msgs, requests, rfl, hnew, hkept⟩
          | settle test => cases hnew
        · exact .inr ⟨head :: before, msgs, after, rfl, hnew, hkept⟩
      · rintro (⟨hold, hhead, hkept⟩ | ⟨before, msgs, after, hsplit, hnew, hkept⟩)
        · exact .inl ⟨.inl ⟨hold, hhead⟩, hkept⟩
        · cases before with
          | nil =>
              rw [List.nil_append, List.cons.injEq] at hsplit
              obtain ⟨rfl, rfl⟩ := hsplit
              exact .inl ⟨.inr hnew, hkept⟩
          | cons first before =>
              rw [List.cons_append, List.cons.injEq] at hsplit
              obtain ⟨rfl, rfl⟩ := hsplit
              exact .inr ⟨before, msgs, after, rfl, hnew, hkept⟩

/-- A ticket that was handed out and no longer waits does not wait again. -/
theorem not_mem_waiting_play {entry : ℕ × M} (hissued : entry.1 ≤ box.posted)
    (hgone : entry ∉ box.waiting) (requests : List (Request M)) :
    entry ∉ (box.play requests).waiting := by
  rw [mem_waiting_play_iff]
  rintro (⟨hold, -⟩ | ⟨before, msgs, after, -, hnew, -⟩)
  · exact hgone hold
  · have hlater := (lt_of_mem_ticketed hnew).1
    rw [posted_play] at hlater
    omega

end Box

end FutureQ.Mailbox
