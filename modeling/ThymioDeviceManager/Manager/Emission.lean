import ThymioDeviceManager.Manager.Groups
import ThymioDeviceManager.Manager.WriteQueue

/-! # Emission of events

`group::emit_events` passes every endpoint a callback with a copy of one shared
pointer to the callback of the request; the deleter of that pointer reports success.
An endpoint that cannot make its messages calls its callback at once with the error.
Otherwise it queues its callback with the messages, and posts it when the message it
comes with has been written. The callback goes with its queue when the device fails
or the endpoint does.
-/

namespace ThymioDeviceManager.Manager

open Library

inductive EmissionError where
  | tdm (e : TdmError)
  | device (value : Int)
  deriving DecidableEq, Repr

/-- A callback in a queue: a copy of the shared pointer of the emission, or that of
something else. -/
inductive QueuedCallback where
  | emission
  | other
  deriving DecidableEq, Repr

/-- A message in a queue; the mark tells those of the emission, the code does not see it. -/
structure QueuedMessage where
  message : UserMessage
  emitted : Bool
  deriving DecidableEq, Repr

def QueuedMessage.type (q : QueuedMessage) : Nat := q.message.type.toNat

structure Member where
  endpoint : Endpoint
  writer : AsebaEndpoint UserMessage Unit

structure Sender where
  writer : AsebaEndpoint QueuedMessage QueuedCallback
  inFlight : Bool

namespace Sender

def writeMessages (s : Sender) (messages : List QueuedMessage) (cb : Option QueuedCallback) : Sender :=
  let r := s.writer.writeMessages QueuedMessage.type messages cb
  { writer := r.1, inFlight := s.inFlight || r.2.isSome }

/-- `handle_write`, with the callback that it posts. -/
def handleWrite (s : Sender) (ec : Option EmissionError) :
    Sender × Option (QueuedCallback × Option EmissionError) :=
  let r := s.writer.handleWrite ec
  ({ writer := r.1, inFlight := r.2.2.isSome }, r.2.1)

end Sender

structure Emission where
  /-- The callback of the request is not empty. -/
  callback : Bool
  senders : List Sender
  /-- The posted callbacks that have not run, with their arguments. -/
  tasks : List (QueuedCallback × Option EmissionError) := []
  /-- The deleter has not run. -/
  pending : Bool := true
  answers : List (Option EmissionError) := []

namespace Emission

def held (s : Emission) : Bool :=
  s.senders.any (fun m => m.writer.msgQueue.any (·.2 = some .emission)) ||
    s.tasks.any (·.1 = .emission)

def answer (s : Emission) (ec : Option EmissionError) : Emission :=
  if s.callback then { s with answers := s.answers ++ [ec] } else s

/-- The deleter runs once the last copy is gone. -/
def release (s : Emission) : Emission :=
  if s.pending && !s.held then { s with pending := false }.answer none else s

/-- The queue as the emission finds it; the device has the front of it. -/
def joined (m : Member) : Sender where
  writer :=
    { msgQueue := m.writer.msgQueue.map fun cell => (⟨cell.1, false⟩, cell.2.map fun _ => .other),
      upgradingFirmware := m.writer.upgradingFirmware, rebooting := m.writer.rebooting,
      hasDevice := m.writer.hasDevice }
  inFlight := m.writer.hasDevice && !m.writer.msgQueue.isEmpty

/-- `aseba_endpoint::emit_events`: the queue after it, and the error it reports. -/
def emitTo (map : VariablesMap) (m : Member) : Sender × Option TdmError :=
  match m.endpoint.eventMessages map.entries with
  | .error e => (joined m, some e)
  | .ok messages => ((joined m).writeMessages (messages.map (⟨·, true⟩)) (some .emission), none)

/-- `group::emit_events`; its own copy of the pointer goes when it returns. -/
def emitEvents (members : List Member) (callback : Bool) (map : VariablesMap) : Emission :=
  let results := members.map (emitTo map)
  let started : Emission := { callback, senders := results.map (·.1) }
  ((results.filterMap (·.2)).foldl (fun s e => s.answer (some (.tdm e))) started).release

inductive Event where
  | written (index : Nat) (ec : Option EmissionError)
  /-- Another call of `write_messages` on an endpoint. -/
  | write (index : Nat) (messages : List UserMessage) (cb : Bool)
  | run (index : Nat)
  /-- An endpoint goes with its queue; a write that is under way keeps it. -/
  | gone (index : Nat)

def step (s : Emission) : Event → Option Emission
  | .written index ec =>
    match s.senders[index]? with
    | none => none
    | some m =>
      if m.inFlight then
        let (m', cb) := m.handleWrite ec
        some { s with
          senders := s.senders.set index m', tasks := s.tasks ++ cb.toList }.release
      else none
  | .write index messages cb =>
    s.senders[index]?.map fun m =>
      let m' := m.writeMessages (messages.map (⟨·, false⟩)) (if cb then some .other else none)
      { s with senders := s.senders.set index m' }.release
  | .run index =>
    s.tasks[index]?.map fun task =>
      let s := { s with tasks := s.tasks.eraseIdx index }
      match task with
      | (.emission, some ec) => (s.answer (some ec)).release
      | _ => s.release
  | .gone index =>
    match s.senders[index]? with
    | none => none
    | some m =>
      if m.inFlight then none
      else some { s with senders := s.senders.eraseIdx index }.release

end Emission

end ThymioDeviceManager.Manager
