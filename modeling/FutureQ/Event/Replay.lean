import FutureQ.Event.Replica

/-!
# Replaying a log in pieces

Dragonboat cuts the committed log into `Update` calls as it pleases, and after
a restart it hands over the entries behind the index that `Open` returned.
Neither the cuts nor the restarts can be seen in what the replica computes:
every schedule that works through the log ends like one call on the whole log.
-/

namespace FutureQ.Replay

open FutureQ.GoRuntime
open FutureQ.Transition
open FutureQ.Storage
open FutureQ.Keys
open FutureQ.Commands
open FutureQ.CommandCodec
open FutureQ.StateMachine
open FutureQ.Journal
open FutureQ.Replica

/-- One move of the schedule: a call with the next `more + 1` entries, or a
restart between calls. -/
inductive Turn where
  | apply (more : ℕ)
  | restart
  deriving DecidableEq, Repr

/-- The calls so far and the entries that Dragonboat still has to deliver. -/
structure Player where
  updated : Updated
  rest : List Entry

/-- Nothing applied yet. -/
def Player.fresh (sm : EventStateMachine) (log : List Entry) : Player :=
  ⟨⟨sm, .ok [], [], []⟩, log⟩

def turn (log : List Entry) (player : Player) : Turn → Option Player
  | .apply more =>
      match player.rest with
      | [] => some player
      | entry :: rest =>
          let call : Call := ⟨entry :: rest.take more, List.cons_ne_nil _ _⟩
          match applyCall player.updated call with
          | .error _ => none
          | .ok updated => some ⟨updated, rest.drop more⟩
  | .restart =>
      match start .pebble player.updated.sm.repo.bucketSize player.updated.sm.db with
      | .error _ => none
      | .ok sm =>
          some ⟨{ player.updated with sm },
            log.filter fun entry => sm.lastApplied < entry.index⟩

/-- The player stands after the first entries of the log, and its counters are
durable. -/
structure Stands (sm : EventStateMachine) (log : List Entry) (player : Player) :
    Prop where
  settled : Settled player.updated.sm
  split : ∃ done commands, log = done ++ player.rest ∧ Carries done commands ∧
    player.updated.sm.lastApplied = lastIndex sm.lastApplied done ∧
    player.updated = if done = [] then ⟨sm, .ok [], [], []⟩
      else report sm done commands

section Schedule

variable {sm : EventStateMachine} {log : List Entry}

theorem stands_fresh (hsettled : Settled sm) :
    Stands sm log (Player.fresh sm log) :=
  ⟨hsettled, [], [], rfl, .nil, rfl, rfl⟩

theorem le_lastIndex {lastApplied : UInt64} {entries : List Entry}
    (hafter : ∀ entry ∈ entries, lastApplied < entry.index) :
    lastApplied ≤ lastIndex lastApplied entries := by
  cases hlast : entries.getLast? with
  | none => simp [lastIndex, hlast]
  | some entry =>
      have hentry := hafter entry (List.mem_of_getLast? hlast)
      simpa [lastIndex, hlast] using UInt64.le_of_lt hentry

/-- Behind the index of the last entry of a part of the log stands the rest. -/
theorem filter_after_lastIndex {done rest : List Entry}
    (hincreasing : ((done ++ rest).map Entry.index).Pairwise (· < ·))
    {lastApplied : UInt64}
    (hafter : ∀ entry ∈ done ++ rest, lastApplied < entry.index) :
    (done ++ rest).filter (fun entry => lastIndex lastApplied done < entry.index) =
      rest := by
  induction done generalizing lastApplied with
  | nil =>
      rw [List.nil_append, List.filter_eq_self]
      intro entry hentry
      exact decide_eq_true (hafter entry hentry)
  | cons head done ih =>
      rw [List.cons_append, List.map_cons, List.pairwise_cons] at hincreasing
      have hbehind : ∀ entry ∈ done ++ rest, head.index < entry.index :=
        fun entry hentry => hincreasing.1 _ (List.mem_map_of_mem hentry)
      have hhead : ¬ lastIndex head.index done < head.index := by
        apply UInt64.not_lt.mpr
        apply le_lastIndex
        exact fun entry hentry => hbehind entry (List.mem_append_left _ hentry)
      rw [List.cons_append, lastIndex_cons,
        List.filter_cons_of_neg (by simpa using hhead)]
      exact ih hincreasing.2 hbehind

/-- Between calls a restart changes nothing. -/
theorem turn_restart {player : Player} (hstands : Stands sm log player)
    (hincreasing : (log.map Entry.index).Pairwise (· < ·))
    (hafter : ∀ entry ∈ log, sm.lastApplied < entry.index) :
    turn log player .restart = some player := by
  obtain ⟨done, commands, hlog, -, happlied, -⟩ := hstands.split
  have hstart : start .pebble player.updated.sm.repo.bucketSize
      player.updated.sm.db = .ok player.updated.sm := hstands.settled
  subst hlog
  simp only [turn, hstart, happlied, filter_after_lastIndex hincreasing hafter]

theorem stands_apply {player : Player} (hstands : Stands sm log player)
    (hdecodes : ∀ entry ∈ log, ∃ command, decodeCommand entry.cmd = .ok command)
    (hindexes : IndexesMeet NotReserved log) (more : ℕ) :
    ∃ next, turn log player (.apply more) = some next ∧ Stands sm log next := by
  obtain ⟨done, commands, hlog, hcarries, happlied, hupdated⟩ := hstands.split
  cases hrest : player.rest with
  | nil => exact ⟨player, by simp only [turn, hrest], hstands⟩
  | cons entry rest =>
      let call : Call := ⟨entry :: rest.take more, List.cons_ne_nil _ _⟩
      have hsplit : log = (done ++ call.entries) ++ rest.drop more := by
        simp [hlog, hrest, call]
      have hmem : ∀ other ∈ call.entries, other ∈ log := by
        intro other hother
        rw [hsplit]
        exact List.mem_append_left _ (List.mem_append_right _ hother)
      obtain ⟨callCommands, hcall⟩ : ∃ commands, Carries call.entries commands :=
        exists_carries fun other hother => hdecodes other (hmem other hother)
      let after := Updated.andThen player.updated
        (report player.updated.sm call.entries callCommands)
      have hstep : applyCall player.updated call = .ok after :=
        applyCall_eq_ok_iff.mpr ⟨callCommands, hcall, rfl⟩
      refine ⟨⟨after, rest.drop more⟩, by simp only [turn, hrest, hstep, call], ?_, ?_⟩
      · exact settled_play hstands.settled hcall
          fun other hother => hindexes other (hmem other hother)
      · refine ⟨done ++ call.entries, commands ++ callCommands, hsplit,
          List.rel_append hcarries hcall, ?_, ?_⟩
        · rw [lastIndex_append, ← happlied]
          rfl
        · rw [if_neg (by simp [call])]
          by_cases hdone : done = []
          · subst hdone
            cases hcarries
            simp only [after, hupdated]
            rfl
          · simp only [after, hupdated, if_neg hdone, report_sm,
              report_andThen_report]

end Schedule

/-- Every schedule of calls and restarts that works through a log leaves the
database, the results and the deleted keys of a single call on it. -/
theorem replay_eq_update {bucketSize : TimeBucketSize} {db : DB}
    {sm : EventStateMachine} (hstart : start .pebble bucketSize db = .ok sm)
    (whole : Call)
    (hincreasing : (whole.entries.map Entry.index).Pairwise (· < ·))
    (hafter : ∀ entry ∈ whole.entries, sm.lastApplied < entry.index)
    (hreturns : ∀ entry ∈ whole.entries,
      Returns (unmarshalStoreBatchCmd entry.cmd) ∧
        Returns (unmarshalDeleteBatchCmd entry.cmd))
    (hindexes : IndexesMeet NotReserved whole.entries) (plan : List Turn) :
    ∃ single final,
      update .pebble .none sm whole.entries = .ok single ∧
      run (turn whole.entries) (Player.fresh sm whole.entries) plan = some final ∧
      (final.rest = [] →
        final.updated.sm.db = single.sm.db ∧
          final.updated.outcome = single.outcome ∧
          final.updated.deleted = single.deleted) := by
  have hdecodes : ∀ entry ∈ whole.entries,
      ∃ command, decodeCommand entry.cmd = .ok command :=
    fun entry hentry =>
      exists_decodeCommand (hreturns entry hentry).1 (hreturns entry hentry).2
  obtain ⟨commands, hcarries⟩ := exists_carries hdecodes
  have hturn : ∀ player, ∀ move ∈ plan, Stands sm whole.entries player →
      ∃ next, turn whole.entries player move = some next ∧
        Stands sm whole.entries next := by
    intro player move _ hstands
    cases move with
    | apply more => exact stands_apply hstands hdecodes hindexes more
    | restart => exact ⟨player, turn_restart hstands hincreasing hafter, hstands⟩
  obtain ⟨final, hrun, hstands⟩ :=
    run_total hturn (stands_fresh (start_settled hstart))
  refine ⟨report sm whole.entries commands, final, update_eq hcarries sm, hrun, ?_⟩
  intro hrest
  obtain ⟨done, doneCommands, hlog, hdone, -, hupdated⟩ := hstands.split
  rw [hrest, List.append_nil] at hlog
  subst hlog
  rw [if_neg whole.nonempty] at hupdated
  rw [hupdated, hdone.unique hcarries]
  exact ⟨rfl, rfl, rfl⟩

/-- A store and an unknown command. -/
def storeThenUnknown : Call where
  entries := [⟨1, encodeStoreBatch [⟨5, 7, [[9]], [1, 2]⟩]⟩, ⟨2, [8]⟩]
  nonempty := List.cons_ne_nil _ _

/-- One entry a call, with a restart in between. -/
theorem replay_eq_update_storeThenUnknown :
    ∃ single final,
      update .pebble .none ⟨∅, ⟨0, ⟨0, Or.inl rfl⟩⟩, 0⟩ storeThenUnknown.entries =
        .ok single ∧
      run (turn storeThenUnknown.entries)
        (Player.fresh ⟨∅, ⟨0, ⟨0, Or.inl rfl⟩⟩, 0⟩ storeThenUnknown.entries)
        [.apply 0, .restart, .apply 0] = some final ∧
      final.rest = [] ∧ final.updated.sm.db = single.sm.db ∧
        final.updated.outcome = single.outcome ∧
        final.updated.deleted = single.deleted := by
  obtain ⟨single, final, hsingle, hrun, hsame⟩ :=
    replay_eq_update (start_empty ⟨0, Or.inl rfl⟩) storeThenUnknown (by decide) (by decide)
      (by decide +kernel) (by decide +kernel) [.apply 0, .restart, .apply 0]
  have hfinish : ∃ finish, run (turn storeThenUnknown.entries)
      (Player.fresh ⟨∅, ⟨0, ⟨0, Or.inl rfl⟩⟩, 0⟩ storeThenUnknown.entries)
      [.apply 0, .restart, .apply 0] = some finish ∧ finish.rest.isEmpty :=
    exists_finish_of_any (by decide +kernel)
  obtain ⟨finish, hfinishes, hempty⟩ := hfinish
  have hrest : final.rest = [] := by
    rw [hrun, Option.some.injEq] at hfinishes
    rw [hfinishes]
    exact List.isEmpty_iff.mp hempty
  exact ⟨single, final, hsingle, hrun, hrest, hsame hrest⟩

end FutureQ.Replay
