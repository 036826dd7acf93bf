import FutureQ.Core.Transition
import FutureQ.Broker.Registry

/-!
# Subscribing

`Subscribe` reads the first frame of a client, checks who leads the cluster and
registers the consumer; then one goroutine sends messages, another one reads the
acknowledgements, and the call returns when either of them ends.  `readInit` hands on
a nil `SubscribeInit` when the client closes its side without a frame.
-/

namespace FutureQ.Subscribe

open FutureQ.ByteOrder
open FutureQ.Transition
open FutureQ.Consumers
open FutureQ.Registry

structure SubscribeInit where
  topic : String
  groupID : String
  deriving DecidableEq, Repr

/-- A `ConsumerFrame`, by its body. -/
inductive Frame where
  | init (body : SubscribeInit)
  | ack (deliveryTag : Bytes) (success : Bool)
  | empty
  deriving DecidableEq, Repr

def Frame.getInit : Frame → Option SubscribeInit
  | .init body => some body
  | .ack _ _ => none
  | .empty => none

def Frame.getAck : Frame → Option (Bytes × Bool)
  | .init _ => none
  | .ack deliveryTag success => some (deliveryTag, success)
  | .empty => none

inductive StreamError where
  | eof
  | canceled
  | deadlineExceeded
  | other (message : String)
  deriving DecidableEq, Repr

def StreamError.message : StreamError → String
  | .eof => "EOF"
  | .canceled => "context canceled"
  | .deadlineExceeded => "context deadline exceeded"
  | .other message => message

/-- What a client sends before its side ends, and how it ends. -/
structure Stream where
  frames : List Frame
  close : StreamError
  deriving DecidableEq, Repr

def Stream.recv (stream : Stream) : Except StreamError Frame × Stream :=
  match stream.frames with
  | [] => (.error stream.close, stream)
  | frame :: frames => (.ok frame, { stream with frames })

inductive Code where
  | internal
  | invalidArgument
  | failedPrecondition
  deriving DecidableEq, Repr

structure Status where
  code : Code
  message : String
  deriving DecidableEq, Repr

/-- Why the call ends before the consumer is registered. -/
inductive Failure where
  | status (status : Status)
  | nilDereference
  deriving DecidableEq, Repr

/-- `app.A.NodeHost` with its configured ID and what `GetLeaderID` answers. -/
structure Node where
  nodeID : UInt64
  leaderID : UInt64
  valid : Bool
  err : Option String
  deriving DecidableEq, Repr

def Node.isLeader (node : Node) : Bool :=
  node.err.isNone && node.valid && node.leaderID == node.nodeID

/-- `bodyType` is what `%T` prints for the body of a frame. -/
def readInit (bodyType : Frame → String) (stream : Stream) :
    Except Status (Option SubscribeInit) × Stream :=
  match stream.recv with
  | (.error err, stream) =>
      if err = .eof then (.ok none, stream)
      else (.error ⟨.internal, "failed to read init frame: " ++ err.message⟩, stream)
  | (.ok frame, stream) =>
      match frame.getInit with
      | none =>
          (.error ⟨.invalidArgument,
            "first frame must be a SubscribeInit; got " ++ bodyType frame⟩, stream)
      | some init =>
          if init.topic = "" then
            (.error ⟨.invalidArgument, "SubscribeInit.topic must not be empty"⟩, stream)
          else (.ok (some init), stream)

/-- Reading a field through a pointer. -/
def deref {α : Type} : Option α → Except Failure α
  | none => .error .nilDereference
  | some value => .ok value

/-- The log line of a node that does not lead reads `init.Topic`. -/
def checkLeadership (node : Option Node) (init : Option SubscribeInit) :
    Except Failure Unit :=
  match node with
  | none => .ok ()
  | some node =>
      if node.isLeader then .ok ()
      else
        (deref init).bind fun _ =>
          .error (.status ⟨.failedPrecondition, "node is not the cluster leader"⟩)

/-- The calls into the hub and the deleter. -/
inductive Call where
  | register (consumer : ConsumerEntry)
  | unregister (id : String)
  | removeInFlightForConsumer (id : String) (key : Bytes)
  | markDeleted (key : Bytes)
  deriving DecidableEq, Repr

/-- A `Subscribe` call whose goroutines run: `inHand` is the frame that `receiver`
is working on, `reading` and `sending` say that `receiver` and `sender` have not
ended, and `handled` are the frames that `receiver` is done with. -/
structure Session where
  consumer : ConsumerEntry
  calls : List Call
  stream : Stream
  inHand : Option Frame
  reading : Bool
  sending : Bool
  errCh : List (Option StreamError)
  returned : Option (Option Status)
  handled : List Frame
  deriving DecidableEq, Repr

def newSession (consumer : ConsumerEntry) (stream : Stream) : Session where
  consumer
  calls := [.register consumer]
  stream
  inHand := none
  reading := true
  sending := true
  errCh := []
  returned := none
  handled := []

/-- `Subscribe` up to the start of its goroutines. -/
def connect (bodyType : Frame → String) (node : Option Node) (consumerID : String)
    (stream : Stream) : Except Failure Session :=
  match readInit bodyType stream with
  | (.error status, _) => .error (.status status)
  | (.ok init, stream) =>
      (checkLeadership node init).bind fun _ =>
        (deref init).bind fun init =>
          .ok (newSession ⟨consumerID, init.topic, init.groupID⟩ stream)

/-- What `receiver` does about one frame. -/
def Frame.calls (frame : Frame) (consumerID : String) : List Call :=
  match frame.getAck with
  | none => []
  | some (deliveryTag, success) =>
      .removeInFlightForConsumer consumerID deliveryTag ::
        if success then [.markDeleted deliveryTag] else []

/-- What `Subscribe` returns for the error it finds in `errCh`. -/
def result : Option StreamError → Option Status
  | none => none
  | some .eof => none
  | some .canceled => none
  | some .deadlineExceeded => none
  | some (.other message) => some ⟨.internal, "stream error: " ++ message⟩

/-- `receiver` gets the next frame or the end of the stream, handles a frame, or finds
the stream cancelled after the return; `sender` ends with an error; `Subscribe`
takes an error and returns, which runs the deferred `Unregister`. -/
inductive Action where
  | recv
  | handle
  | recvCanceled
  | endSending (err : StreamError)
  | finish
  deriving DecidableEq, Repr

def step (session : Session) : Action → Option Session
  | .recv =>
      if session.reading = true ∧ session.inHand = none then
        match session.stream.recv with
        | (.ok frame, stream) => some { session with inHand := some frame, stream }
        | (.error err, stream) =>
            some { session with
              reading := false
              stream
              errCh := session.errCh ++ [if err = .eof then none else some err] }
      else none
  | .handle =>
      session.inHand.map fun frame =>
        { session with
          inHand := none
          calls := session.calls ++ frame.calls session.consumer.id
          handled := session.handled ++ [frame] }
  | .recvCanceled =>
      if session.returned.isSome = true ∧ session.reading = true ∧
          session.inHand = none then
        some { session with
          reading := false
          errCh := session.errCh ++ [some .canceled] }
      else none
  | .endSending err =>
      if session.sending = true then
        some { session with
          sending := false
          errCh := session.errCh ++ [some err] }
      else none
  | .finish =>
      match session.returned, session.errCh with
      | none, err :: errCh =>
          some { session with
            returned := some (result err)
            errCh
            calls := session.calls ++ [.unregister session.consumer.id] }
      | _, _ => none

/-! ## What a session should do -/

def Call.isRegister : Call → Bool
  | .register _ => true
  | _ => false

def Call.isUnregister : Call → Bool
  | .unregister _ => true
  | _ => false

def Call.marked : Call → Option Bytes
  | .markDeleted key => some key
  | _ => none

/-- The tag of a successful ACK. -/
def Frame.acked : Frame → Option Bytes
  | .ack deliveryTag true => some deliveryTag
  | _ => none

/-- Some run makes the call return. -/
def Returns (session : Session) : Prop :=
  ∃ more finish, run step session more = some finish ∧ finish.returned.isSome = true

/-- The consumer is registered once and unregistered once before the return; the
frames that were handled marked the tags of their successful ACKs and nothing else;
unless sending failed, the call returns only after the last frame; and it can
return. -/
structure Served (consumer : ConsumerEntry) (later : List Frame) (session : Session) :
    Prop where
  registers : session.calls.filter Call.isRegister = [.register consumer]
  unregisters : session.calls.filter Call.isUnregister =
    if session.returned.isSome then [.unregister consumer.id] else []
  marks : session.calls.filterMap Call.marked = session.handled.filterMap Frame.acked
  frames : later = session.handled ++ session.inHand.toList ++ session.stream.frames
  complete : session.returned.isSome = true → session.sending = true →
    session.handled = later
  returns : Returns session

/-- The client is turned away without a call into the hub, or its first frame names
the topic under which it is served. -/
def Handled (bodyType : Frame → String) (node : Option Node) (consumerID : String)
    (stream : Stream) : Prop :=
  match connect bodyType node consumerID stream with
  | .error .nilDereference => False
  | .error (.status _) => True
  | .ok session => ∃ init later, stream.frames = .init init :: later ∧
      init.topic ≠ "" ∧ ∀ actions finish, run step session actions = some finish →
        Served ⟨consumerID, init.topic, init.groupID⟩ later finish

/-! ## What a step does -/

inductive Effect (session : Session) : Session → Prop where
  | read (frame : Frame) (frames : List Frame) (hreading : session.reading = true)
      (hidle : session.inHand = none)
      (hframes : session.stream.frames = frame :: frames) :
      Effect session { session with
        inHand := some frame
        stream := { session.stream with frames } }
  | ended (err : Option StreamError) (hidle : session.inHand = none)
      (hframes : session.stream.frames = []) :
      Effect session { session with
        reading := false
        errCh := session.errCh ++ [err] }
  | handled (frame : Frame) (hframe : session.inHand = some frame) :
      Effect session { session with
        inHand := none
        calls := session.calls ++ frame.calls session.consumer.id
        handled := session.handled ++ [frame] }
  | canceled (hreturned : session.returned.isSome = true)
      (hreading : session.reading = true) (hidle : session.inHand = none) :
      Effect session { session with
        reading := false
        errCh := session.errCh ++ [some .canceled] }
  | sendingEnded (err : StreamError) :
      Effect session { session with
        sending := false
        errCh := session.errCh ++ [some err] }
  | finished (err : Option StreamError) (errCh : List (Option StreamError))
      (hopen : session.returned = none) (herrCh : session.errCh = err :: errCh) :
      Effect session { session with
        returned := some (result err)
        errCh
        calls := session.calls ++ [.unregister session.consumer.id] }

theorem effect_of_step {session next : Session} {action : Action}
    (hstep : step session action = some next) : Effect session next := by
  cases action with
  | recv =>
      rw [step, Stream.recv] at hstep
      split_ifs at hstep with hidle
      cases hframes : session.stream.frames with
      | nil =>
          simp only [hframes, Option.some.injEq] at hstep
          exact hstep ▸ .ended _ hidle.2 hframes
      | cons frame frames =>
          simp only [hframes, Option.some.injEq] at hstep
          exact hstep ▸ .read frame frames hidle.1 hidle.2 hframes
  | handle =>
      obtain ⟨frame, hframe, rfl⟩ := Option.map_eq_some_iff.mp hstep
      exact .handled frame hframe
  | recvCanceled =>
      simp only [step, Option.ite_none_right_eq_some, Option.some.injEq] at hstep
      obtain ⟨⟨hreturned, hreading, hidle⟩, rfl⟩ := hstep
      exact .canceled hreturned hreading hidle
  | endSending err =>
      simp only [step, Option.ite_none_right_eq_some, Option.some.injEq] at hstep
      obtain ⟨-, rfl⟩ := hstep
      exact .sendingEnded err
  | finish =>
      rw [step] at hstep
      cases hopen : session.returned with
      | some status => simp only [hopen, reduceCtorEq] at hstep
      | none =>
          cases herrCh : session.errCh with
          | nil => simp only [hopen, herrCh, reduceCtorEq] at hstep
          | cons err errCh =>
              simp only [hopen, herrCh, Option.some.injEq] at hstep
              exact hstep ▸ .finished err errCh hopen herrCh

/-! ## Sessions -/

structure Consistent (consumer : ConsumerEntry) (later : List Frame)
    (session : Session) : Prop where
  same : session.consumer = consumer
  registers : session.calls.filter Call.isRegister = [.register consumer]
  unregisters : session.calls.filter Call.isUnregister =
    if session.returned.isSome then [.unregister consumer.id] else []
  marks : session.calls.filterMap Call.marked = session.handled.filterMap Frame.acked
  frames : later = session.handled ++ session.inHand.toList ++ session.stream.frames
  waiting : session.returned = none → session.errCh = [] → session.reading = true
  posted : session.errCh ≠ [] → session.reading = false ∨ session.sending = false
  early : session.returned.isSome = true →
    session.reading = false ∨ session.sending = false
  stopped : session.reading = false →
    session.inHand = none ∧ (session.stream.frames = [] ∨ session.sending = false)

theorem consistent_newSession (consumer : ConsumerEntry) (stream : Stream) :
    Consistent consumer stream.frames (newSession consumer stream) := by
  constructor <;> simp [newSession, Call.isRegister, Call.isUnregister, Call.marked]

section Step

variable {consumer : ConsumerEntry} {later : List Frame} {session : Session}

/-- A frame asks for neither registration nor its end. -/
theorem filter_calls_eq_nil {counted : Call → Bool} {id : String}
    (hremove : ∀ tag, counted (.removeInFlightForConsumer id tag) = false)
    (hmark : ∀ tag, counted (.markDeleted tag) = false) (frame : Frame) :
    (frame.calls id).filter counted = [] := by
  rw [Frame.calls]
  cases frame with
  | ack deliveryTag success =>
      cases success with
      | true => simp [Frame.getAck, hremove, hmark]
      | false => simp [Frame.getAck, hremove]
  | init body => rfl
  | empty => rfl

/-- A successful ACK marks its tag, and no other frame marks anything. -/
theorem filterMap_marked_calls (frame : Frame) (id : String) :
    (frame.calls id).filterMap Call.marked = [frame].filterMap Frame.acked := by
  rw [Frame.calls]
  cases frame with
  | ack deliveryTag success => cases success <;> rfl
  | init body => rfl
  | empty => rfl

theorem Consistent.handle (hconsistent : Consistent consumer later session)
    {frame : Frame} (hframe : session.inHand = some frame) :
    Consistent consumer later
      { session with
        inHand := none
        calls := session.calls ++ frame.calls session.consumer.id
        handled := session.handled ++ [frame] } := by
  refine ⟨hconsistent.same, ?_, ?_, ?_, ?_, hconsistent.waiting, hconsistent.posted,
    hconsistent.early, ?_⟩
  · rw [List.filter_append, filter_calls_eq_nil (fun _ => rfl) (fun _ => rfl),
      List.append_nil]
    exact hconsistent.registers
  · rw [List.filter_append, filter_calls_eq_nil (fun _ => rfl) (fun _ => rfl),
      List.append_nil]
    exact hconsistent.unregisters
  · rw [List.filterMap_append, List.filterMap_append, filterMap_marked_calls,
      hconsistent.marks]
  · have hframes := hconsistent.frames
    rw [hframe] at hframes
    simpa using hframes
  · exact fun hstopped => ⟨rfl, (hconsistent.stopped hstopped).2⟩

theorem Consistent.finish (hconsistent : Consistent consumer later session)
    (hopen : session.returned = none) {err : Option StreamError}
    {errCh : List (Option StreamError)} (herrCh : session.errCh = err :: errCh) :
    Consistent consumer later
      { session with
        returned := some (result err)
        errCh
        calls := session.calls ++ [.unregister session.consumer.id] } := by
  have hposted := hconsistent.posted (by simp [herrCh])
  refine ⟨hconsistent.same, ?_, ?_, ?_, hconsistent.frames, ?_, fun _ => hposted,
    fun _ => hposted, hconsistent.stopped⟩
  · rw [List.filter_append, hconsistent.registers]
    rfl
  · rw [List.filter_append, hconsistent.unregisters, hopen, hconsistent.same]
    rfl
  · rw [List.filterMap_append, hconsistent.marks]
    exact List.append_nil _
  · intro hnone
    cases hnone

theorem Consistent.step {next : Session}
    (hconsistent : Consistent consumer later session) (heffect : Effect session next) :
    Consistent consumer later next := by
  cases heffect with
  | read frame frames hreading hidle hframes =>
      refine ⟨hconsistent.same, hconsistent.registers, hconsistent.unregisters,
        hconsistent.marks, ?_, hconsistent.waiting, hconsistent.posted,
        hconsistent.early, ?_⟩
      · rw [hconsistent.frames, hidle, hframes]
        simp
      · intro hstopped
        rw [hreading] at hstopped
        cases hstopped
  | ended err hidle hframes =>
      refine ⟨hconsistent.same, hconsistent.registers, hconsistent.unregisters,
        hconsistent.marks, hconsistent.frames, ?_, fun _ => .inl rfl, fun _ => .inl rfl,
        fun _ => ⟨hidle, .inl hframes⟩⟩
      intro _ hempty
      simp at hempty
  | handled frame hframe => exact hconsistent.handle hframe
  | canceled hreturned hreading hidle =>
      have hfailed : session.sending = false :=
        (hconsistent.early hreturned).resolve_left (by simp [hreading])
      refine ⟨hconsistent.same, hconsistent.registers, hconsistent.unregisters,
        hconsistent.marks, hconsistent.frames, ?_, fun _ => .inl rfl, fun _ => .inl rfl,
        fun _ => ⟨hidle, .inr hfailed⟩⟩
      intro hnone
      rw [hnone] at hreturned
      cases hreturned
  | sendingEnded err =>
      refine ⟨hconsistent.same, hconsistent.registers, hconsistent.unregisters,
        hconsistent.marks, hconsistent.frames, ?_, fun _ => .inr rfl, fun _ => .inr rfl,
        fun hstopped => ⟨(hconsistent.stopped hstopped).1, .inr rfl⟩⟩
      intro _ hempty
      simp at hempty
  | finished err errCh hopen herrCh => exact hconsistent.finish hopen herrCh

theorem Returns.head {next : Session} {action : Action}
    (hstep : Subscribe.step session action = some next) (hreturns : Returns next) :
    Returns session := by
  obtain ⟨more, finish, hrun, hfinish⟩ := hreturns
  exact ⟨action :: more, finish, run_cons_eq_some.mpr ⟨next, hstep, hrun⟩, hfinish⟩

theorem returns_of_errCh (hopen : session.returned = none)
    (herrCh : session.errCh ≠ []) : Returns session := by
  obtain ⟨err, errCh, herrCh⟩ := List.exists_cons_of_ne_nil herrCh
  have hfinish : Subscribe.step session .finish = some
      { session with
        returned := some (result err)
        errCh
        calls := session.calls ++ [.unregister session.consumer.id] } := by
    simp only [Subscribe.step, hopen, herrCh]
  exact .head hfinish ⟨[], _, rfl, rfl⟩

/-- `receiver` reads one frame after the other up to the end of the stream, and then
`Subscribe` has its error. -/
theorem returns_of_reading {frames : List Frame} {session : Session}
    (hframes : session.stream.frames = frames) (hopen : session.returned = none)
    (hreading : session.reading = true) (hidle : session.inHand = none) :
    Returns session := by
  induction frames generalizing session with
  | nil =>
      have hend : Subscribe.step session .recv = some
          { session with
            reading := false
            errCh := session.errCh ++
              [if session.stream.close = .eof then none else some session.stream.close] } := by
        rw [Subscribe.step, if_pos ⟨hreading, hidle⟩, Stream.recv, hframes]
      exact .head hend (returns_of_errCh hopen (by simp))
  | cons frame frames ih =>
      have hrecv : Subscribe.step session .recv = some
          { session with
            inHand := some frame
            stream := { session.stream with frames } } := by
        rw [Subscribe.step, if_pos ⟨hreading, hidle⟩, Stream.recv, hframes]
      have hhandle : Subscribe.step
          { session with
            inHand := some frame
            stream := { session.stream with frames } } .handle = some
          { session with
            inHand := none
            stream := { session.stream with frames }
            calls := session.calls ++ frame.calls session.consumer.id
            handled := session.handled ++ [frame] } := rfl
      exact .head hrecv (.head hhandle (ih rfl hopen hreading rfl))

theorem Consistent.returns (hconsistent : Consistent consumer later session) :
    Returns session := by
  cases hreturned : session.returned with
  | some status => exact ⟨[], session, rfl, by rw [hreturned]; rfl⟩
  | none =>
      by_cases herrCh : session.errCh = []
      · have hreading := hconsistent.waiting hreturned herrCh
        cases hframe : session.inHand with
        | none => exact returns_of_reading rfl hreturned hreading hframe
        | some frame =>
            have hhandle : Subscribe.step session .handle = some
                { session with
                  inHand := none
                  calls := session.calls ++ frame.calls session.consumer.id
                  handled := session.handled ++ [frame] } := by
              rw [Subscribe.step, hframe]
              rfl
            exact .head hhandle (returns_of_reading rfl hreturned hreading rfl)
      · exact returns_of_errCh hreturned herrCh

theorem Consistent.served (hconsistent : Consistent consumer later session) :
    Served consumer later session := by
  refine ⟨hconsistent.registers, hconsistent.unregisters, hconsistent.marks,
    hconsistent.frames, ?_, hconsistent.returns⟩
  intro hreturned hsending
  have hstopped := (hconsistent.early hreturned).resolve_right (by simp [hsending])
  obtain ⟨hidle, hread⟩ := hconsistent.stopped hstopped
  have hunread := hread.resolve_right (by simp [hsending])
  rw [hconsistent.frames, hidle, hunread]
  simp

end Step

/-! ## Clients -/

/-- In every mode, a client that closes its side without a frame makes `Subscribe`
dereference nil. -/
theorem connect_of_silent (bodyType : Frame → String) (node : Option Node)
    (consumerID : String) :
    connect bodyType node consumerID ⟨[], .eof⟩ = .error .nilDereference := by
  have hinit : readInit bodyType ⟨[], .eof⟩ = (.ok none, ⟨[], .eof⟩) := rfl
  rw [connect, hinit]
  cases node with
  | none => rfl
  | some node =>
      simp only [checkLeadership]
      split_ifs
      · rfl
      · rfl

theorem checkLeadership_some (node : Option Node) (init : SubscribeInit) :
    checkLeadership node (some init) = .ok () ∨
      ∃ status, checkLeadership node (some init) = .error (.status status) := by
  cases node with
  | none => exact .inl rfl
  | some node =>
      rw [checkLeadership]
      split_ifs
      · exact .inl rfl
      · exact .inr ⟨_, rfl⟩

/-- A client that sends a frame is turned away or served. -/
theorem handled_of_frame (bodyType : Frame → String) (node : Option Node)
    (consumerID : String) (frame : Frame) (later : List Frame) (close : StreamError) :
    Handled bodyType node consumerID ⟨frame :: later, close⟩ := by
  rw [Handled, connect, readInit, Stream.recv]
  cases frame with
  | ack deliveryTag success => trivial
  | empty => trivial
  | init body =>
      by_cases htopic : body.topic = ""
      · simp only [Frame.getInit, if_pos htopic]
      · simp only [Frame.getInit, if_neg htopic]
        rcases checkLeadership_some node body with hleader | ⟨status, hrefused⟩
        · simp only [hleader, Except.bind, deref]
          refine ⟨body, later, rfl, htopic, ?_⟩
          intro actions finish hrun
          have hconsistent := run_preserves
            (fun _ _ _ hsession hstep => Consistent.step hsession (effect_of_step hstep))
            (consistent_newSession ⟨consumerID, body.topic, body.groupID⟩ ⟨later, close⟩)
            hrun
          exact hconsistent.served
        · simp only [hrefused, Except.bind]

/-- Every client is handled except the one that closes its side without a frame. -/
theorem subscribe_handles_iff (bodyType : Frame → String) (node : Option Node)
    (consumerID : String) (stream : Stream) :
    Handled bodyType node consumerID stream ↔
      stream.frames ≠ [] ∨ stream.close ≠ .eof := by
  obtain ⟨frames, close⟩ := stream
  cases frames with
  | cons frame later =>
      exact iff_of_true (handled_of_frame bodyType node consumerID frame later close)
        (.inl (List.cons_ne_nil frame later))
  | nil =>
      by_cases hclose : close = .eof
      · subst hclose
        rw [Handled, connect_of_silent]
        simp
      · refine iff_of_true ?_ (.inr hclose)
        rw [Handled, connect, readInit, Stream.recv]
        simp only [if_neg hclose]

/-- A standalone broker and a Raft node that leads or does not lead all dereference
nil for a client that closes without a frame. -/
theorem silent_client_crashes :
    connect (fun _ => "") none "c" ⟨[], .eof⟩ = .error .nilDereference ∧
    connect (fun _ => "") (some ⟨1, 1, true, none⟩) "c" ⟨[], .eof⟩ =
      .error .nilDereference ∧
    connect (fun _ => "") (some ⟨1, 2, true, none⟩) "c" ⟨[], .eof⟩ =
      .error .nilDereference := by
  decide +kernel

end FutureQ.Subscribe
