import FutureQ.Broker.AllOrNothing
import FutureQ.Core.Transition

/-!
# Publish streams over Raft

Every `PublishStream` call reads frames and answers them one by one.  A frame that waits
for the quorum blocks its stream in `SyncPropose` until its command is committed or the
wait is given up; a frame with `NO_ACK` is only handed to `Propose`.  The Raft library
commits each proposal at most once, in any order and possibly after the handler has
given up, or drops it.  Any number of streams run side by side.

`publish_stream_logs_once` says what the log holds of a stream: every batch at most once,
every batch that was acknowledged for the quorum, and these in the order of the stream;
beyond the acknowledged batches at most the one that was still open.
-/

namespace FutureQ.PublishStream

open FutureQ.ByteOrder
open FutureQ.GoRuntime
open FutureQ.Transition
open FutureQ.Keys
open FutureQ.Repository
open FutureQ.Producer
open FutureQ.AllOrNothing

variable {Index : Type}

/-- A received batch and the clock that `processBatch` read for it. -/
structure Frame (Index : Type) where
  batch : PublishBatch Index
  nowMs : Int64
  deriving DecidableEq, Repr

/-- What `processBatch` has decided when it comes to the proposal. -/
inductive Prepared where
  | answer (ack : PublishBatchAck)
  | fail (fault : Fault PublishError)
  | propose (cmdBytes : Bytes)

/-- `processBatch` on a node that runs Raft, up to the proposal. -/
def prepare (lib : Libraries Index) (bucketSize : TimeBucketSize)
    (minAckQuorum isLeader : Bool) (frame : Frame Index) : Prepared :=
  if frame.batch.messages = [] then .answer ⟨false⟩
  else if minAckQuorum ∧ frame.batch.ackLevel = .noAck then
    .fail (.error .noAckNotAllowed)
  else
    match raftCommand lib bucketSize isLeader frame.batch frame.nowMs with
    | .error fault => .fail fault
    | .ok cmdBytes => .propose cmdBytes

/-- `processBatch` prepares and then proposes. -/
theorem processBatch_eq_prepare (lib : Libraries Index) (bucketSize : TimeBucketSize)
    (env : Environment) (frame : Frame Index) :
    processBatch lib bucketSize env frame.batch frame.nowMs =
      match prepare lib bucketSize env.minAckQuorum env.isLeader frame with
      | .answer ack => (ack, .ok ())
      | .fail fault => (⟨false⟩, .error fault)
      | .propose cmdBytes =>
          match proposeCommand env frame.batch.ackLevel cmdBytes with
          | .error fault => (⟨false⟩, .error fault)
          | .ok () => (⟨true⟩, .ok ()) := by
  rw [processBatch, prepare, processRaftBatch_eq]
  split_ifs
  · rfl
  · rfl
  · cases raftCommand lib bucketSize env.isLeader frame.batch frame.nowMs with
    | error fault => rfl
    | ok cmdBytes => rfl

/-- `proposing` is inside `SyncPropose`, `acking` in front of `Send`. -/
inductive Phase where
  | receiving
  | proposing
  | acking (ack : PublishBatchAck)
  | ended
  deriving DecidableEq, Repr

/-- The frames a stream has received, the answers it has sent, and where it stands. -/
structure Stream (Index : Type) where
  frames : List (Frame Index)
  acks : List PublishBatchAck
  phase : Phase

/-- A command on its way into the log, with the stream and the number of the frame it
comes from. -/
structure Submission where
  stream : ℕ
  frame : ℕ
  ackLevel : AckLevel
  cmdBytes : Bytes
  deriving DecidableEq, Repr

def Submission.ticket (submission : Submission) : ℕ × ℕ :=
  (submission.stream, submission.frame)

structure System (Index : Type) where
  streams : ℕ → Stream Index
  pending : List Submission
  log : List Submission

def System.start : System Index := ⟨fun _ => ⟨[], [], .receiving⟩, [], []⟩

def System.put (system : System Index) (id : ℕ) (stream : Stream Index) :
    System Index :=
  { system with streams := Function.update system.streams id stream }

/-- `receive` is `Recv` and `processBatch` up to the call of the library, which may
refuse the proposal; `complete` and `abort` are the ends of `SyncPropose`; `close` is the
end of the stream or a failed `Recv`. -/
inductive Action (Index : Type) where
  | receive (id : ℕ) (frame : Frame Index) (isLeader refused : Bool)
  | commit (position : ℕ)
  | drop (position : ℕ)
  | complete (id : ℕ)
  | abort (id : ℕ)
  | send (id : ℕ) (fails : Bool)
  | close (id : ℕ)

def step (lib : Libraries Index) (bucketSize : TimeBucketSize) (minAckQuorum : Bool)
    (system : System Index) : Action Index → Option (System Index)
  | .receive id frame isLeader refused =>
      let stream := system.streams id
      match stream.phase with
      | .receiving =>
          let received := { stream with frames := stream.frames ++ [frame] }
          match prepare lib bucketSize minAckQuorum isLeader frame with
          | .answer ack => some (system.put id { received with phase := .acking ack })
          | .fail _ => some (system.put id { received with phase := .ended })
          | .propose cmdBytes =>
              if refused then some (system.put id { received with phase := .ended })
              else
                let phase := match frame.batch.ackLevel with
                  | .noAck => .acking ⟨true⟩
                  | .quorum => .proposing
                some { system.put id { received with phase } with
                  pending := system.pending ++
                    [⟨id, stream.frames.length, frame.batch.ackLevel, cmdBytes⟩] }
      | _ => none
  | .commit position =>
      match system.pending[position]? with
      | none => none
      | some submission =>
          some { system with
            pending := system.pending.eraseIdx position
            log := system.log ++ [submission] }
  | .drop position =>
      match system.pending[position]? with
      | none => none
      | some _ => some { system with pending := system.pending.eraseIdx position }
  | .complete id =>
      let stream := system.streams id
      match stream.phase with
      | .proposing =>
          if (id, stream.acks.length) ∈ system.log.map Submission.ticket then
            some (system.put id { stream with phase := .acking ⟨true⟩ })
          else none
      | _ => none
  | .abort id =>
      let stream := system.streams id
      match stream.phase with
      | .proposing => some (system.put id { stream with phase := .ended })
      | _ => none
  | .send id fails =>
      let stream := system.streams id
      match stream.phase with
      | .acking ack =>
          if fails then some (system.put id { stream with phase := .ended })
          else some (system.put id
            { stream with acks := stream.acks ++ [ack], phase := .receiving })
      | _ => none
  | .close id =>
      let stream := system.streams id
      match stream.phase with
      | .receiving => some (system.put id { stream with phase := .ended })
      | _ => none

/-! ## What a step does -/

/-- The frame asks for the command: it is not empty, and its messages were encoded. -/
def Commands (lib : Libraries Index) (bucketSize : TimeBucketSize) (frame : Frame Index)
    (cmdBytes : Bytes) : Prop :=
  frame.batch.messages ≠ [] ∧
    ∃ isLeader, raftCommand lib bucketSize isLeader frame.batch frame.nowMs = .ok cmdBytes

inductive Effect (lib : Libraries Index) (bucketSize : TimeBucketSize)
    (system : System Index) : System Index → Prop where
  | answer {id : ℕ} (frame : Frame Index)
      (hphase : (system.streams id).phase = .receiving) :
      Effect lib bucketSize system
        (system.put id
          { system.streams id with
            frames := (system.streams id).frames ++ [frame]
            phase := .acking ⟨false⟩ })
  | fail {id : ℕ} (frame : Frame Index)
      (hphase : (system.streams id).phase = .receiving) :
      Effect lib bucketSize system
        (system.put id
          { system.streams id with
            frames := (system.streams id).frames ++ [frame]
            phase := .ended })
  | propose {id : ℕ} (frame : Frame Index) (cmdBytes : Bytes)
      (hphase : (system.streams id).phase = .receiving)
      (hcommands : Commands lib bucketSize frame cmdBytes) :
      Effect lib bucketSize system
        { system.put id
            { system.streams id with
              frames := (system.streams id).frames ++ [frame]
              phase := match frame.batch.ackLevel with
                | .noAck => .acking ⟨true⟩
                | .quorum => .proposing } with
          pending := system.pending ++
            [⟨id, (system.streams id).frames.length, frame.batch.ackLevel, cmdBytes⟩] }
  | commit {position : ℕ} {submission : Submission}
      (hpending : system.pending[position]? = some submission) :
      Effect lib bucketSize system
        { system with
          pending := system.pending.eraseIdx position
          log := system.log ++ [submission] }
  | drop (position : ℕ) :
      Effect lib bucketSize system
        { system with pending := system.pending.eraseIdx position }
  | complete {id : ℕ} (hphase : (system.streams id).phase = .proposing)
      (hlogged : (id, (system.streams id).acks.length) ∈
        system.log.map Submission.ticket) :
      Effect lib bucketSize system
        (system.put id { system.streams id with phase := .acking ⟨true⟩ })
  | stop {id : ℕ} :
      Effect lib bucketSize system
        (system.put id { system.streams id with phase := .ended })
  | send {id : ℕ} {ack : PublishBatchAck}
      (hphase : (system.streams id).phase = .acking ack) :
      Effect lib bucketSize system
        (system.put id
          { system.streams id with
            acks := (system.streams id).acks ++ [ack]
            phase := .receiving })

variable {lib : Libraries Index} {bucketSize : TimeBucketSize} {minAckQuorum : Bool}

theorem prepare_cases (lib : Libraries Index) (bucketSize : TimeBucketSize)
    (minAckQuorum isLeader : Bool) (frame : Frame Index) :
    prepare lib bucketSize minAckQuorum isLeader frame = .answer ⟨false⟩ ∨
      (∃ fault, prepare lib bucketSize minAckQuorum isLeader frame = .fail fault) ∨
      ∃ cmdBytes, prepare lib bucketSize minAckQuorum isLeader frame = .propose cmdBytes ∧
        Commands lib bucketSize frame cmdBytes := by
  rw [prepare]
  split_ifs with hempty
  · exact .inl rfl
  · exact .inr (.inl ⟨_, rfl⟩)
  · cases hcommand : raftCommand lib bucketSize isLeader frame.batch frame.nowMs with
    | error fault => exact .inr (.inl ⟨fault, rfl⟩)
    | ok cmdBytes => exact .inr (.inr ⟨cmdBytes, rfl, hempty, isLeader, hcommand⟩)

theorem effect_of_step {system next : System Index} {action : Action Index}
    (hstep : step lib bucketSize minAckQuorum system action = some next) :
    Effect lib bucketSize system next := by
  cases action with
  | receive id frame isLeader refused =>
      simp only [step] at hstep
      split at hstep
      · rename_i hphase
        rcases prepare_cases lib bucketSize minAckQuorum isLeader frame with
          hanswer | ⟨fault, hfail⟩ | ⟨cmdBytes, hpropose, hcommands⟩
        · rw [hanswer] at hstep
          cases hstep
          exact .answer frame hphase
        · rw [hfail] at hstep
          cases hstep
          exact .fail frame hphase
        · rw [hpropose] at hstep
          simp only at hstep
          split_ifs at hstep
          · cases hstep
            exact .fail frame hphase
          · cases hstep
            exact .propose frame cmdBytes hphase hcommands
      · cases hstep
  | commit position =>
      simp only [step] at hstep
      split at hstep
      · cases hstep
      · rename_i submission hpending
        cases hstep
        exact .commit hpending
  | drop position =>
      simp only [step] at hstep
      split at hstep
      · cases hstep
      · cases hstep
        exact .drop position
  | complete id =>
      simp only [step] at hstep
      split at hstep
      · rename_i hphase
        split_ifs at hstep with hlogged
        cases hstep
        exact .complete hphase hlogged
      · cases hstep
  | abort id =>
      simp only [step] at hstep
      split at hstep
      · cases hstep
        exact .stop
      · cases hstep
  | send id fails =>
      simp only [step] at hstep
      split at hstep
      · rename_i ack hphase
        split_ifs at hstep
        · cases hstep
          exact .stop
        · cases hstep
          exact .send hphase
      · cases hstep
  | close id =>
      simp only [step] at hstep
      split at hstep
      · cases hstep
        exact .stop
      · cases hstep

/-! ## The ledger of submissions -/

/-- What the submissions have to do with the frames and the answers of the streams. -/
structure Ledger (lib : Libraries Index) (bucketSize : TimeBucketSize)
    (frames : ℕ → List (Frame Index)) (acks : ℕ → List PublishBatchAck)
    (pending log : List Submission) : Prop where
  distinct : ((pending ++ log).map Submission.ticket).Nodup
  known : ∀ submission ∈ pending ++ log, ∃ frame,
    (frames submission.stream)[submission.frame]? = some frame ∧
      submission.ackLevel = frame.batch.ackLevel ∧
      Commands lib bucketSize frame submission.cmdBytes
  answered : ∀ submission ∈ pending ++ log,
    (acks submission.stream)[submission.frame]? = some ⟨true⟩ ∨
      submission.frame = (acks submission.stream).length
  waiting : ∀ submission ∈ pending, submission.ackLevel = .quorum →
    submission.frame = (acks submission.stream).length
  acked : ∀ id position frame, (frames id)[position]? = some frame →
    frame.batch.ackLevel = .quorum → (acks id)[position]? = some ⟨true⟩ →
      (id, position) ∈ log.map Submission.ticket
  ordered : log.Pairwise fun first second => first.stream = second.stream →
    first.ackLevel = .quorum → second.ackLevel = .quorum → first.frame < second.frame

/-- A commit moves a submission from one list to the other. -/
theorem perm_commit {pending : List Submission} {position : ℕ} {submission : Submission}
    (hpending : pending[position]? = some submission) (log : List Submission) :
    (pending.eraseIdx position ++ (log ++ [submission])).Perm (pending ++ log) := by
  obtain ⟨hposition, hget⟩ := List.getElem?_eq_some_iff.mp hpending
  have hmoved : (submission :: pending.eraseIdx position).Perm pending :=
    hget ▸ List.getElem_cons_eraseIdx_perm hposition
  rw [← List.append_assoc]
  exact (List.perm_append_singleton _ _).trans (hmoved.append_right log)

namespace Ledger

variable {frames : ℕ → List (Frame Index)} {acks : ℕ → List PublishBatchAck}
  {pending log : List Submission}

theorem lt_length (hledger : Ledger lib bucketSize frames acks pending log)
    {submission : Submission} (hmem : submission ∈ pending ++ log) :
    submission.frame < (frames submission.stream).length := by
  obtain ⟨frame, hframe, -⟩ := hledger.known submission hmem
  exact (List.getElem?_eq_some_iff.mp hframe).1

/-- A received frame adds nothing to what was submitted. -/
theorem receive (hledger : Ledger lib bucketSize frames acks pending log) {id : ℕ}
    (frame : Frame Index) (hall : (frames id).length = (acks id).length) :
    Ledger lib bucketSize (Function.update frames id (frames id ++ [frame])) acks
      pending log := by
  refine { hledger with known := ?_, acked := ?_ }
  · intro submission hmem
    obtain ⟨known, hknown, hrest⟩ := hledger.known submission hmem
    refine ⟨known, ?_, hrest⟩
    by_cases hid : submission.stream = id
    · subst hid
      rw [Function.update_self, List.getElem?_append_left (hledger.lt_length hmem)]
      exact hknown
    · rw [Function.update_of_ne hid]
      exact hknown
  · intro other position known hknown hquorum hack
    by_cases hid : other = id
    · subst hid
      have hposition : position < (frames other).length := by
        rw [hall]
        exact (List.getElem?_eq_some_iff.mp hack).1
      rw [Function.update_self, List.getElem?_append_left hposition] at hknown
      exact hledger.acked other position known hknown hquorum hack
    · rw [Function.update_of_ne hid] at hknown
      exact hledger.acked other position known hknown hquorum hack

/-- The last frame of a stream is submitted. -/
theorem submit (hledger : Ledger lib bucketSize frames acks pending log)
    {submission : Submission} {frame : Frame Index}
    (hlast : submission.frame = (acks submission.stream).length)
    (hframe : (frames submission.stream)[submission.frame]? = some frame)
    (hlevel : submission.ackLevel = frame.batch.ackLevel)
    (hcommands : Commands lib bucketSize frame submission.cmdBytes)
    (hfresh : submission.ticket ∉ (pending ++ log).map Submission.ticket) :
    Ledger lib bucketSize frames acks (pending ++ [submission]) log := by
  have hperm : (pending ++ [submission] ++ log).Perm (submission :: (pending ++ log)) := by
    rw [List.append_assoc]
    exact List.perm_middle
  refine { hledger with distinct := ?_, known := ?_, answered := ?_, waiting := ?_ }
  · rw [(hperm.map Submission.ticket).nodup_iff, List.map_cons, List.nodup_cons]
    exact ⟨hfresh, hledger.distinct⟩
  · intro other hmem
    rcases List.mem_cons.mp (hperm.mem_iff.mp hmem) with rfl | hold
    · exact ⟨frame, hframe, hlevel, hcommands⟩
    · exact hledger.known other hold
  · intro other hmem
    rcases List.mem_cons.mp (hperm.mem_iff.mp hmem) with rfl | hold
    · exact .inr hlast
    · exact hledger.answered other hold
  · intro other hmem hquorum
    rcases List.mem_append.mp hmem with hold | hnew
    · exact hledger.waiting other hold hquorum
    · obtain rfl := List.mem_singleton.mp hnew
      exact hlast

/-- An answer is sent for the last frame: a positive one, which for the quorum means
that the frame is in the log, or a negative one for a frame that submitted nothing. -/
theorem send (hledger : Ledger lib bucketSize frames acks pending log) {id : ℕ}
    {ack : PublishBatchAck}
    (hack : (ack = ⟨true⟩ ∧ ∀ frame, (frames id)[(acks id).length]? = some frame →
        frame.batch.ackLevel = .quorum →
          (id, (acks id).length) ∈ log.map Submission.ticket) ∨
      (ack = ⟨false⟩ ∧
        (id, (acks id).length) ∉ (pending ++ log).map Submission.ticket)) :
    Ledger lib bucketSize frames (Function.update acks id (acks id ++ [ack])) pending
      log := by
  have htrue : ∀ submission ∈ pending ++ log, submission.ticket = (id, (acks id).length) →
      ack = ⟨true⟩ := by
    intro submission hmem hticket
    rcases hack with ⟨htrue, -⟩ | ⟨-, hnone⟩
    · exact htrue
    · exact absurd (List.mem_map.mpr ⟨submission, hmem, hticket⟩) hnone
  refine { hledger with answered := ?_, waiting := ?_, acked := ?_ }
  · intro submission hmem
    by_cases hid : submission.stream = id
    · subst hid
      rw [Function.update_self]
      rcases hledger.answered submission hmem with hdone | hlast
      · rw [List.getElem?_append_left (List.getElem?_eq_some_iff.mp hdone).1]
        exact .inl hdone
      · have hticket : submission.ticket =
            (submission.stream, (acks submission.stream).length) := by
          rw [Submission.ticket, hlast]
        rw [hlast, List.getElem?_concat_length, htrue submission hmem hticket]
        exact .inl rfl
    · rw [Function.update_of_ne hid]
      exact hledger.answered submission hmem
  · intro submission hmem hquorum
    have hall := List.mem_append_left log hmem
    by_cases hid : submission.stream = id
    · -- no frame that waits for the quorum is answered while it is pending
      subst hid
      exfalso
      have hlast := hledger.waiting submission hmem hquorum
      have hticket : submission.ticket =
          (submission.stream, (acks submission.stream).length) := by
        rw [Submission.ticket, hlast]
      rcases hack with ⟨-, hlogged⟩ | ⟨-, hnone⟩
      · obtain ⟨frame, hframe, hlevel, -⟩ := hledger.known submission hall
        have hmemLog := hlogged frame (hlast ▸ hframe) (hlevel ▸ hquorum)
        have hdistinct := hledger.distinct
        rw [List.map_append, List.nodup_append] at hdistinct
        exact hdistinct.2.2 _ (List.mem_map_of_mem hmem) _ hmemLog hticket
      · exact hnone (List.mem_map.mpr ⟨submission, hall, hticket⟩)
    · rw [Function.update_of_ne hid]
      exact hledger.waiting submission hmem hquorum
  · intro other position frame hframe hquorum hdone
    by_cases hid : other = id
    · subst hid
      rw [Function.update_self] at hdone
      rcases Nat.lt_or_ge position (acks other).length with hbefore | hafter
      · rw [List.getElem?_append_left hbefore] at hdone
        exact hledger.acked other position frame hframe hquorum hdone
      · have hposition : position = (acks other).length := by
          have hbound := (List.getElem?_eq_some_iff.mp hdone).1
          rw [List.length_append, List.length_singleton] at hbound
          omega
        subst hposition
        rw [List.getElem?_concat_length, Option.some.injEq] at hdone
        rcases hack with ⟨-, hlogged⟩ | ⟨hfalse, -⟩
        · exact hlogged frame hframe hquorum
        · rw [hdone] at hfalse
          cases hfalse
    · rw [Function.update_of_ne hid] at hdone
      exact hledger.acked other position frame hframe hquorum hdone

theorem drop (hledger : Ledger lib bucketSize frames acks pending log) (position : ℕ) :
    Ledger lib bucketSize frames acks (pending.eraseIdx position) log := by
  have hsublist : (pending.eraseIdx position ++ log).Sublist (pending ++ log) :=
    (List.eraseIdx_sublist pending position).append (List.Sublist.refl log)
  exact
    { distinct := hledger.distinct.sublist (hsublist.map _)
      known := fun submission hmem => hledger.known submission (hsublist.mem hmem)
      answered := fun submission hmem => hledger.answered submission (hsublist.mem hmem)
      waiting := fun submission hmem => hledger.waiting submission
        ((List.eraseIdx_sublist pending position).mem hmem)
      acked := hledger.acked
      ordered := hledger.ordered }

/-- A frame that is committed for the quorum comes after those of its stream that are
already in the log: they have been answered, and it has not. -/
theorem frame_lt_of_pending (hledger : Ledger lib bucketSize frames acks pending log)
    {logged submission : Submission} (hlogged : logged ∈ log)
    (hpending : submission ∈ pending) (hstream : logged.stream = submission.stream)
    (hquorum : submission.ackLevel = .quorum) : logged.frame < submission.frame := by
  have hlast := hledger.waiting submission hpending hquorum
  rcases hledger.answered logged (List.mem_append_right _ hlogged) with hdone | hopen
  · have hbound := (List.getElem?_eq_some_iff.mp hdone).1
    rw [hstream] at hbound
    omega
  · -- the same frame cannot be both pending and logged
    exfalso
    have hticket : submission.ticket = logged.ticket := by
      rw [Submission.ticket, Submission.ticket, hopen, hlast, hstream]
    have hdistinct := hledger.distinct
    rw [List.map_append, List.nodup_append] at hdistinct
    exact hdistinct.2.2 _ (List.mem_map_of_mem hpending) _ (List.mem_map_of_mem hlogged)
      hticket

theorem commit (hledger : Ledger lib bucketSize frames acks pending log)
    {position : ℕ} {submission : Submission}
    (hpending : pending[position]? = some submission) :
    Ledger lib bucketSize frames acks (pending.eraseIdx position)
      (log ++ [submission]) := by
  have hmem : submission ∈ pending := List.mem_of_getElem? hpending
  have hperm := perm_commit hpending log
  refine ⟨?_, ?_, ?_, ?_, ?_, ?_⟩
  · rw [(hperm.map Submission.ticket).nodup_iff]
    exact hledger.distinct
  · exact fun other hother => hledger.known other (hperm.mem_iff.mp hother)
  · exact fun other hother => hledger.answered other (hperm.mem_iff.mp hother)
  · exact fun other hother => hledger.waiting other
      ((List.eraseIdx_sublist pending position).mem hother)
  · intro id place frame hframe hquorum hdone
    rw [List.map_append]
    exact List.mem_append_left _ (hledger.acked id place frame hframe hquorum hdone)
  · rw [List.pairwise_append]
    refine ⟨hledger.ordered, List.pairwise_singleton _ _, ?_⟩
    intro logged hlogged other hother hstream _ hquorum
    obtain rfl := List.mem_singleton.mp hother
    exact hledger.frame_lt_of_pending hlogged hmem hstream hquorum

end Ledger

/-! ## Runs -/

/-- Where a stream stands, seen from its frames and answers. -/
def Placed (system : System Index) (id : ℕ) : Prop :=
  let stream := system.streams id
  match stream.phase with
  | .receiving => stream.frames.length = stream.acks.length
  | .proposing => stream.frames.length = stream.acks.length + 1
  | .acking ack =>
      stream.frames.length = stream.acks.length + 1 ∧
        ((ack = ⟨true⟩ ∧ ∀ frame, stream.frames[stream.acks.length]? = some frame →
            frame.batch.ackLevel = .quorum →
              (id, stream.acks.length) ∈ system.log.map Submission.ticket) ∨
          (ack = ⟨false⟩ ∧ (id, stream.acks.length) ∉
            (system.pending ++ system.log).map Submission.ticket))
  | .ended => stream.acks.length ≤ stream.frames.length ∧
      stream.frames.length ≤ stream.acks.length + 1

structure Sound (lib : Libraries Index) (bucketSize : TimeBucketSize)
    (system : System Index) : Prop where
  ledger : Ledger lib bucketSize (fun id => (system.streams id).frames)
    (fun id => (system.streams id).acks) system.pending system.log
  placed : ∀ id, Placed system id

theorem sound_start : Sound lib bucketSize (System.start : System Index) where
  ledger :=
    { distinct := List.nodup_nil
      known := fun submission hmem => absurd hmem List.not_mem_nil
      answered := fun submission hmem => absurd hmem List.not_mem_nil
      waiting := fun submission hmem => absurd hmem List.not_mem_nil
      acked := fun id position frame hframe => by simp [System.start] at hframe
      ordered := .nil }
  placed _ := rfl

theorem frames_put (system : System Index) (id : ℕ) (stream : Stream Index) :
    (fun other => ((system.put id stream).streams other).frames) =
      Function.update (fun other => (system.streams other).frames) id stream.frames := by
  funext other
  by_cases hid : other = id
  · subst hid
    simp [System.put]
  · simp [System.put, hid]

theorem acks_put (system : System Index) (id : ℕ) (stream : Stream Index) :
    (fun other => ((system.put id stream).streams other).acks) =
      Function.update (fun other => (system.streams other).acks) id stream.acks := by
  funext other
  by_cases hid : other = id
  · subst hid
    simp [System.put]
  · simp [System.put, hid]

/-- A stream that is not touched stays in place when the log grows and no submission of
its own appears. -/
theorem Placed.congr {system next : System Index} {id : ℕ} (hplaced : Placed system id)
    (hstream : next.streams id = system.streams id)
    (hlog : ∀ ticket ∈ system.log.map Submission.ticket,
      ticket ∈ next.log.map Submission.ticket)
    (hnone : ∀ position, (id, position) ∈
      (next.pending ++ next.log).map Submission.ticket →
        (id, position) ∈ (system.pending ++ system.log).map Submission.ticket) :
    Placed next id := by
  rw [Placed] at hplaced ⊢
  rw [hstream]
  cases hphase : (system.streams id).phase with
  | receiving => simpa only [hphase] using hplaced
  | proposing => simpa only [hphase] using hplaced
  | ended => simpa only [hphase] using hplaced
  | acking ack =>
      simp only [hphase] at hplaced ⊢
      refine ⟨hplaced.1, hplaced.2.imp ?_ ?_⟩
      · rintro ⟨hack, hquorum⟩
        exact ⟨hack, fun frame hframe hlevel => hlog _ (hquorum frame hframe hlevel)⟩
      · rintro ⟨hack, habsent⟩
        exact ⟨hack, fun hmem => habsent (hnone _ hmem)⟩

theorem Placed.put {system : System Index} {id other : ℕ} (hplaced : Placed system other)
    (hid : other ≠ id) (stream : Stream Index) : Placed (system.put id stream) other := by
  refine hplaced.congr ?_ (fun _ hmem => hmem) fun _ hmem => hmem
  exact Function.update_of_ne hid _ _

/-- A changed phase changes no frames and no answers. -/
theorem Sound.rephase {system : System Index} (hsound : Sound lib bucketSize system)
    {id : ℕ} {phase : Phase}
    (hplaced : Placed (system.put id { system.streams id with phase }) id) :
    Sound lib bucketSize (system.put id { system.streams id with phase }) where
  ledger := by
    rw [frames_put, acks_put, Function.update_eq_self, Function.update_eq_self]
    exact hsound.ledger
  placed other := by
    by_cases hid : other = id
    · exact hid ▸ hplaced
    · exact (hsound.placed other).put hid _

theorem Sound.received {system : System Index} (hsound : Sound lib bucketSize system)
    {id : ℕ} {frame : Frame Index} {phase : Phase}
    (hphase : (system.streams id).phase = .receiving)
    (hplaced : Placed (system.put id
      { system.streams id with
        frames := (system.streams id).frames ++ [frame], phase }) id) :
    Sound lib bucketSize (system.put id
      { system.streams id with
        frames := (system.streams id).frames ++ [frame], phase }) where
  ledger := by
    have hall := hsound.placed id
    simp only [Placed, hphase] at hall
    rw [frames_put, acks_put, Function.update_eq_self]
    exact hsound.ledger.receive frame hall
  placed other := by
    by_cases hid : other = id
    · exact hid ▸ hplaced
    · exact (hsound.placed other).put hid _

/-- A frame that has just been received has submitted nothing. -/
theorem Sound.fresh {system : System Index} (hsound : Sound lib bucketSize system)
    {id : ℕ} (hphase : (system.streams id).phase = .receiving) :
    (id, (system.streams id).acks.length) ∉
      (system.pending ++ system.log).map Submission.ticket := by
  have hall := hsound.placed id
  simp only [Placed, hphase] at hall
  intro hmem
  obtain ⟨submission, hsubmission, hticket⟩ := List.mem_map.mp hmem
  rw [Submission.ticket, Prod.mk.injEq] at hticket
  obtain ⟨rfl, hframe⟩ := hticket
  have hbound := hsound.ledger.lt_length hsubmission
  omega

theorem Sound.effect {system next : System Index} (hsound : Sound lib bucketSize system)
    (heffect : Effect lib bucketSize system next) : Sound lib bucketSize next := by
  cases heffect with
  | @answer id frame hphase =>
      have hall := hsound.placed id
      simp only [Placed, hphase] at hall
      refine hsound.received hphase ?_
      simp only [Placed, System.put, Function.update_self]
      exact ⟨by simp [hall], .inr ⟨trivial, hsound.fresh hphase⟩⟩
  | @fail id frame hphase =>
      have hall := hsound.placed id
      simp only [Placed, hphase] at hall
      refine hsound.received hphase ?_
      simp only [Placed, System.put, Function.update_self]
      simp [hall]
  | @propose id frame cmdBytes hphase hcommands =>
      have hall := hsound.placed id
      simp only [Placed, hphase] at hall
      refine ⟨?_, fun other => ?_⟩
      · have hreceived := hsound.ledger.receive frame hall
        simp only [frames_put, acks_put, Function.update_eq_self]
        refine hreceived.submit hall ?_ rfl hcommands ?_
        · rw [Function.update_self]
          exact List.getElem?_concat_length
        · rw [Submission.ticket, hall]
          exact hsound.fresh hphase
      · by_cases hid : other = id
        · subst hid
          simp only [Placed, System.put, Function.update_self]
          cases hlevel : frame.batch.ackLevel with
          | quorum => simp [hall]
          | noAck =>
              refine ⟨by simp [hall], .inl ⟨rfl, fun known hknown hquorum => ?_⟩⟩
              rw [← hall, List.getElem?_concat_length, Option.some.injEq] at hknown
              rw [← hknown, hlevel] at hquorum
              cases hquorum
        · refine (hsound.placed other).congr (Function.update_of_ne hid _ _)
            (fun _ hmem => hmem) ?_
          intro position hmem
          simp only [List.map_append, List.mem_append, List.map_cons, List.map_nil,
            List.mem_singleton] at hmem ⊢
          rcases hmem with (hpending | hnew) | hlogged
          · exact .inl hpending
          · exact absurd (congrArg Prod.fst hnew) hid
          · exact .inr hlogged
  | @commit position submission hpending =>
      refine ⟨hsound.ledger.commit hpending, fun id => (hsound.placed id).congr rfl ?_ ?_⟩
      · intro ticket hticket
        rw [List.map_append]
        exact List.mem_append_left _ hticket
      · intro place hmem
        exact ((perm_commit hpending system.log).map Submission.ticket).mem_iff.mp hmem
  | drop position =>
      refine ⟨hsound.ledger.drop position, fun id => (hsound.placed id).congr rfl
        (fun _ hmem => hmem) ?_⟩
      intro place hmem
      exact (((List.eraseIdx_sublist system.pending position).append
        (List.Sublist.refl system.log)).map _).mem hmem
  | @complete id hphase hlogged =>
      have hall := hsound.placed id
      simp only [Placed, hphase] at hall
      refine hsound.rephase ?_
      simp only [Placed, System.put, Function.update_self]
      exact ⟨hall, .inl ⟨trivial, fun _ _ _ => hlogged⟩⟩
  | @stop id =>
      refine hsound.rephase ?_
      have hall := hsound.placed id
      simp only [Placed, System.put, Function.update_self] at hall ⊢
      split at hall
      all_goals omega
  | @send id ack hphase =>
      have hall := hsound.placed id
      simp only [Placed, hphase] at hall
      refine ⟨?_, fun other => ?_⟩
      · rw [frames_put, acks_put, Function.update_eq_self]
        exact hsound.ledger.send hall.2
      · by_cases hid : other = id
        · subst hid
          simp only [Placed, System.put, Function.update_self]
          rw [List.length_append, List.length_singleton]
          exact hall.1
        · exact (hsound.placed other).put hid _

/-- The log holds every batch at most once.  Of the batches of a stream that ask for the
quorum it holds, in the order of the stream, every one that was acknowledged; a batch of
the stream that is in the log has been acknowledged, or is the last one received and has
not been answered.  The command is the one that the batch asks for. -/
theorem publish_stream_logs_once {actions : List (Action Index)} {system : System Index}
    (hrun : run (step lib bucketSize minAckQuorum) .start actions = some system) :
    (system.log.map Submission.ticket).Nodup ∧
      (∀ id position frame, (system.streams id).frames[position]? = some frame →
        frame.batch.ackLevel = .quorum →
        (system.streams id).acks[position]? = some ⟨true⟩ →
          (id, position) ∈ system.log.map Submission.ticket) ∧
      (∀ submission ∈ system.log, ∃ frame,
        (system.streams submission.stream).frames[submission.frame]? = some frame ∧
        Commands lib bucketSize frame submission.cmdBytes ∧
        ((system.streams submission.stream).acks[submission.frame]? = some ⟨true⟩ ∨
          submission.frame = (system.streams submission.stream).acks.length ∧
            (system.streams submission.stream).frames.length = submission.frame + 1)) ∧
      system.log.Pairwise fun first second => first.stream = second.stream →
        first.ackLevel = .quorum → second.ackLevel = .quorum →
          first.frame < second.frame := by
  have hsound : Sound lib bucketSize system := run_preserves
    (fun _ _ _ hsound hstep => hsound.effect (effect_of_step hstep)) sound_start hrun
  have hledger := hsound.ledger
  refine ⟨?_, hledger.acked, ?_, hledger.ordered⟩
  · exact hledger.distinct.sublist ((List.sublist_append_right _ _).map _)
  · intro submission hmem
    have hboth : submission ∈ system.pending ++ system.log :=
      List.mem_append_right _ hmem
    obtain ⟨frame, hframe, -, hcommands⟩ := hledger.known submission hboth
    refine ⟨frame, hframe, hcommands, (hledger.answered submission hboth).imp_right ?_⟩
    intro hlast
    have hbound := hledger.lt_length hboth
    have hplaced := hsound.placed submission.stream
    refine ⟨hlast, ?_⟩
    simp only [Placed] at hplaced hbound
    split at hplaced
    all_goals omega

/-- A batch of one message, published at 5. -/
def oneOrder (ackLevel : AckLevel) : Frame Bytes :=
  ⟨⟨[⟨"orders", [9], 0, 0, []⟩], ackLevel⟩, 5⟩

/-- Two streams: the first batch of stream 0 is committed after the batch of stream 1,
and the second one after its stream has given up. -/
def twoStreams : List (Action Bytes) :=
  [.receive 0 (oneOrder .quorum) true false, .receive 1 (oneOrder .noAck) true false,
    .commit 1, .commit 0, .complete 0, .send 0 false, .send 1 false,
    .receive 0 (oneOrder .quorum) true false, .abort 0, .commit 0]

theorem publish_stream_logs_once_twoStreams :
    ∃ system, run (step plainLibraries ⟨0, valid_zero⟩ false) .start twoStreams =
        some system ∧
      (0, 0) ∈ system.log.map Submission.ticket ∧
      (system.log.map Submission.ticket).Nodup := by
  have hexists : ∃ system, run (step plainLibraries ⟨0, valid_zero⟩ false) .start
      twoStreams = some system ∧
        (system.streams 0).frames[0]? = some (oneOrder .quorum) ∧
        (system.streams 0).acks[0]? = some ⟨true⟩ :=
    exists_finish_of_any (by decide +kernel)
  obtain ⟨system, hrun, hframe, hack⟩ := hexists
  obtain ⟨hdistinct, hacked, -, -⟩ := publish_stream_logs_once hrun
  exact ⟨system, hrun, hacked 0 0 _ hframe rfl hack, hdistinct⟩

end FutureQ.PublishStream
