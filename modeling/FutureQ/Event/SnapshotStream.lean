import FutureQ.Core.Buffer
import FutureQ.Event.Snapshot

/-!
# The streams that recovery accepts

A snapshot stream is a sequence of records with no count and no trailer.  Each
record says where it ends, so a stream that was cut inside a record is no
sequence of records, and recovery over Pebble accepts exactly the concatenations
of complete ones.
-/

namespace FutureQ.SnapshotStream

open FutureQ.ByteOrder
open FutureQ.GoRuntime
open FutureQ.Buffer
open FutureQ.OrderedStore
open FutureQ.Storage
open FutureQ.Repository
open FutureQ.StateMachine
open FutureQ.Snapshot

/-! ## Cut streams -/

theorem selfDelimiting_record : SelfDelimiting FitsRecord record := by
  intro left right leftRest rightRest hleft hright heq
  have hread : ∀ entry rest, FitsRecord entry →
      readRecord ⟨record entry ++ rest, false⟩ = .ok (some (entry, ⟨rest, false⟩)) :=
    fun _ _ hfits => readRecord_eq_some_iff.mpr ⟨hfits, rfl⟩
  have hboth := hread left leftRest hleft
  rw [heq, hread right rightRest hright] at hboth
  cases hboth
  exact ⟨rfl, rfl⟩

/-- A stream that was cut inside a record is no sequence of records. -/
theorem not_complete_of_cut {entries others : List (Bytes × Bytes)}
    {entry : Bytes × Bytes} {length : ℕ} (hentries : ∀ entry ∈ entries, FitsRecord entry)
    (hothers : ∀ entry ∈ others, FitsRecord entry) (hentry : FitsRecord entry)
    (hpos : 0 < length) (hcut : length < (record entry).length) :
    entries.flatMap record ++ (record entry).take length ≠ others.flatMap record := by
  intro heq
  induction entries generalizing others with
  | nil =>
      cases others with
      | nil =>
          have hlength := congrArg List.length heq
          simp only [List.flatMap_nil, List.nil_append, List.length_take,
            List.length_nil] at hlength
          omega
      | cons other others =>
          obtain ⟨hother, -⟩ := List.forall_mem_cons.mp hothers
          exact selfDelimiting_record.take_ne entry other hentry hother hcut _ heq
  | cons first entries ih =>
      obtain ⟨hfirst, hrest⟩ := List.forall_mem_cons.mp hentries
      cases others with
      | nil =>
          have hlength := congrArg List.length heq
          simp only [List.flatMap_cons, record, List.length_append, length_lengthField,
            List.flatMap_nil, List.length_nil] at hlength
          omega
      | cons other others =>
          obtain ⟨hother, hlater⟩ := List.forall_mem_cons.mp hothers
          rw [List.flatMap_cons, List.flatMap_cons, List.append_assoc] at heq
          obtain ⟨-, htail⟩ := selfDelimiting_record _ _ _ _ hfirst hother heq
          exact ih hrest hlater htail

/-! ## Recovery over Pebble -/

/-- The stream is a concatenation of complete records. -/
def Complete (data : Bytes) (entries : List (Bytes × Bytes)) : Prop :=
  (∀ entry ∈ entries, FitsRecord entry) ∧ data = entries.flatMap record

/-- The applied-index value of the stream, if it has one, has eight bytes. -/
def Legible (data : Bytes) : Prop :=
  ∀ entries, Complete data entries →
    ∀ value, (contents entries)[appliedIndexKey]? = some value → 8 ≤ value.length

theorem restores_pebble_iff {poll : ℕ} {data : Bytes} {entries : List (Bytes × Bytes)} :
    Restores .pebble none .none poll ⟨data, false⟩ entries ↔ Complete data entries := by
  constructor
  · intro hrestores
    exact ⟨hrestores.arrives.fits, hrestores.arrives.complete⟩
  · rintro ⟨hfits, hdata⟩
    exact ⟨⟨rfl, hfits, hdata, fun _ _ => rfl, fun _ _ => rfl⟩,
      fun op _ => by cases op <;> rfl, rfl⟩

/-- Undisturbed recovery on Pebble either reads the whole stream or reports an
error over an emptied database. -/
theorem recover_pebble_cases (target : EventStateMachine) (data : Bytes) :
    (∃ entries, Complete data entries ∧
        recoverFromSnapshot .pebble none .none .none target ⟨data, false⟩ =
          match reloadApplied .pebble { target with db := contents entries } with
          | .error fault => ({ target with db := contents entries }, .error fault)
          | .ok lastApplied =>
              (⟨contents entries, target.repo, lastApplied⟩, .ok ())) ∨
      ((∀ entries, ¬ Complete data entries) ∧ ∃ err,
        recoverFromSnapshot .pebble none .none .none target ⟨data, false⟩ =
          ({ target with db := ∅ }, .error (.error err))) := by
  cases hrestore : restoreDB .pebble none .none target.db.keys.length ∅
      ⟨data, false⟩ with
  | ok db =>
      obtain ⟨entries, hrestores, rfl⟩ := restoreDB_eq_ok_iff.mp hrestore
      refine .inl ⟨entries, restores_pebble_iff.mp hrestores, ?_⟩
      cases hreload : reloadApplied .pebble { target with db := contents entries } with
      | error fault => simp only [recoverFromSnapshot, clearDB_none, hrestore, hreload]
      | ok lastApplied =>
          simp only [recoverFromSnapshot, clearDB_none, hrestore, hreload]
  | error err =>
      refine .inr ⟨fun entries hcomplete => ?_, err, ?_⟩
      · rw [restoreDB_eq_ok_iff.mpr ⟨entries, restores_pebble_iff.mpr hcomplete, rfl⟩]
          at hrestore
        cases hrestore
      · simp only [recoverFromSnapshot, clearDB_none, hrestore]

theorem reloadApplied_pebble {sm : EventStateMachine}
    (hlegible : ∀ value, sm.db[appliedIndexKey]? = some value → 8 ≤ value.length) :
    ∃ lastApplied, reloadApplied .pebble sm = .ok lastApplied := by
  rw [reloadApplied]
  cases hvalue : sm.db[appliedIndexKey]? with
  | none => exact ⟨sm.lastApplied, by rw [get_pebble_of_none hvalue]; rfl⟩
  | some value =>
      rw [get_of_some hvalue]
      exact ⟨uint64 value, if_neg (not_lt.mpr (hlegible value hvalue))⟩

/-- Snapshots round-trip: the target takes over the contents and the applied
index of the source whatever it held before; and a stream is accepted exactly
when it is a concatenation of complete records, so that a cut inside a record is
an error. -/
theorem snapshot_round_trip :
    (∀ (source : DB) (value : Bytes) (target : EventStateMachine) (ctx : UInt64),
      Bounded source → source[appliedIndexKey]? = some value → 8 ≤ value.length →
      ∃ stream, saveSnapshot none (fun _ => false) ctx source = .ok stream ∧
        recoverFromSnapshot .pebble none .none .none target ⟨stream, false⟩ =
          (⟨source, target.repo, uint64 value⟩, .ok ())) ∧
    (∀ (data : Bytes) (target : EventStateMachine), Legible data →
      ((recoverFromSnapshot .pebble none .none .none target ⟨data, false⟩).2 = .ok () ↔
        ∃ entries, Complete data entries)) ∧
    (∀ (entries : List (Bytes × Bytes)) (entry : Bytes × Bytes) (length : ℕ)
      (target : EventStateMachine), (∀ entry ∈ entries, FitsRecord entry) →
      FitsRecord entry → 0 < length → length < (record entry).length →
      ∃ err, (recoverFromSnapshot .pebble none .none .none target
        ⟨entries.flatMap record ++ (record entry).take length, false⟩).2 =
          .error (.error err)) := by
  refine ⟨?_, ?_, ?_⟩
  · intro source value target ctx hbounded hvalue hlength
    refine ⟨serialise source, saveSnapshot_eq ctx source, ?_⟩
    apply recoverFromSnapshot_serialise hbounded
    rw [readCounter, get_of_some hvalue]
    exact if_neg (not_lt.mpr hlength)
  · intro data target hlegible
    obtain ⟨entries, hcomplete, hrecover⟩ | ⟨hincomplete, err, hrecover⟩ :=
      recover_pebble_cases target data
    · obtain ⟨lastApplied, hreload⟩ := reloadApplied_pebble
        (show ∀ value, (EventStateMachine.mk (contents entries) target.repo
          target.lastApplied).db[appliedIndexKey]? = some value → 8 ≤ value.length from
            hlegible entries hcomplete)
      rw [hrecover, hreload]
      exact ⟨fun _ => ⟨entries, hcomplete⟩, fun _ => rfl⟩
    · rw [hrecover]
      constructor
      · intro hok
        cases hok
      · rintro ⟨entries, hcomplete⟩
        exact absurd hcomplete (hincomplete entries)
  · intro entries entry length target hentries hentry hpos hcut
    obtain ⟨others, ⟨hothers, hdata⟩, -⟩ | ⟨-, err, hrecover⟩ :=
      recover_pebble_cases target
        (entries.flatMap record ++ (record entry).take length)
    · exact absurd hdata (not_complete_of_cut hentries hothers hentry hpos hcut)
    · exact ⟨err, by rw [hrecover]⟩

end FutureQ.SnapshotStream
