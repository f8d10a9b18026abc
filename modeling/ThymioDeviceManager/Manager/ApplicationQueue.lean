import Mathlib.Tactic.Common
import ThymioDeviceManager.Library.Transition

/-! # The output queue of an application endpoint

`application_endpoint` reads one handshake and then requests, and writes
responses and notifications to its socket through a queue. Messages and requests
are left abstract. The system around the endpoint is its socket, with the writes
that are outstanding, and the strand, with the handlers posted on it by
`node_changed` and by the watched signals.

An endpoint lives as long as a pending read, a posted handler or an outstanding
write holds it. The handler of a request and the callbacks it leaves behind may
write to the socket at any later time.
-/

namespace ThymioDeviceManager.Manager

open Library

/-- `tdm::protocolVersion` and `tdm::minProtocolVersion`. -/
def tdmProtocolVersion : Nat := 1
def tdmMinProtocolVersion : Nat := 1

/-- The fields of `fb::ConnectionHandshake` that `handle_handshake` decides on;
the password is the C string that the field holds. -/
structure ConnectionHandshake where
  protocolVersion : Nat
  minProtocolVersion : Nat
  password : Option String
  deriving DecidableEq, Repr

namespace ConnectionHandshake

def compatible (hs : ConnectionHandshake) : Bool :=
  !(hs.protocolVersion < tdmMinProtocolVersion || tdmProtocolVersion < hs.minProtocolVersion)

/-- `app_token_manager::check_tdm_password`. -/
def checkTdmPassword (tdmPassword password : String) : Bool :=
  tdmPassword.isEmpty || password == tdmPassword

def carriesPassword (tdmPassword : String) (hs : ConnectionHandshake) : Bool :=
  match hs.password with
  | none => false
  | some password => checkTdmPassword tdmPassword password

end ConnectionHandshake

inductive Reader where
  | handshake
  | requests
  deriving DecidableEq, Repr

/-- An endpoint with its socket and its strand, on which `handlers` wait. `written` are the messages
that went to the socket and `received` those that came to `write_message`, in order. -/
structure Session (μ ρ : Type) where
  queue : List μ := []
  protocolVersion : Nat := 0
  networkLocal : Bool
  /-- The pending read, at first the one that `on_initialized` starts. -/
  reading : Option Reader := some .handshake
  pinging : Bool := false
  handlers : Nat := 0
  inFlight : List μ := []
  written : List μ := []
  received : List μ := []
  dispatched : List ρ := []
  deriving DecidableEq, Repr

namespace Session

variable {μ ρ : Type}

inductive Incoming (α : Type) where
  | error
  | otherMessage
  | message (a : α)
  deriving DecidableEq, Repr

inductive Event (μ ρ : Type) where
  /-- `node_changed`, or a watched signal, posts a handler on the strand. -/
  | post
  /-- The oldest posted handler runs; it has nothing to write when the object it
  is about is gone. -/
  | deliver (m : Option μ)
  /-- The read for the handshake completes. `reply` and `nodes` are the messages
  that `handle_handshake` builds when it comes to that. -/
  | handshake (hs : Incoming ConnectionHandshake) (reply nodes : μ)
  /-- The read for a request completes; its handler writes `responses`. -/
  | request (r : Incoming ρ) (responses : List μ)
  | answer (m : μ)
  | ping (m : μ)
  | complete (index : Nat) (failed : Bool)
  deriving DecidableEq, Repr

def alive (s : Session μ ρ) : Bool :=
  s.reading.isSome || decide (0 < s.handlers) || !s.inFlight.isEmpty

def doWriteMessage (s : Session μ ρ) (m : μ) : Session μ ρ :=
  { s with inFlight := s.inFlight ++ [m], written := s.written ++ [m] }

def writeMessage (s : Session μ ρ) (m : μ) : Session μ ρ :=
  let s := { s with queue := s.queue ++ [m], received := s.received ++ [m] }
  if 1 < s.queue.length ∨ s.protocolVersion = 0 then s
  else
    match s.queue with
    | [] => s
    | front :: _ => s.doWriteMessage front

/-- `handle_write` logs an error and goes on. The write that completes was for
a message of the queue, so the queue is not empty. -/
def handleWrite (s : Session μ ρ) : Session μ ρ :=
  match s.queue.tail with
  | [] => { s with queue := [] }
  | front :: rest => { s with queue := front :: rest }.doWriteMessage front

/-- The part of `handle_handshake` after the checks. -/
def completeHandshake (s : Session μ ρ) (reply nodes : μ) : Session μ ρ :=
  let s := s.writeMessage reply
  if s.protocolVersion = 0 then s
  else
    let s := s.writeMessage nodes
    { s with pinging := true, reading := some .requests }

def handleHandshake (tdmPassword : String) (s : Session μ ρ) (hs : Incoming ConnectionHandshake)
    (reply nodes : μ) : Session μ ρ :=
  let s := { s with reading := none }
  match hs with
  | .error => s
  | .otherMessage => s
  | .message hs =>
    if hs.compatible then
      let s := { s with protocolVersion := min hs.protocolVersion tdmProtocolVersion }
      if !s.networkLocal && !hs.carriesPassword tdmPassword then s
      else s.completeHandshake reply nodes
    else s.completeHandshake reply nodes

/-- `handle_read`: the next read is queued before the request is handled. -/
def handleRead (s : Session μ ρ) (r : Incoming ρ) (responses : List μ) : Session μ ρ :=
  match r with
  | .error => { s with reading := none }
  | .otherMessage => s
  | .message r =>
    responses.foldl writeMessage { s with dispatched := s.dispatched ++ [r] }

def step (tdmPassword : String) (s : Session μ ρ) : Event μ ρ → Option (Session μ ρ)
  | .post => if s.alive then some { s with handlers := s.handlers + 1 } else none
  | .deliver m =>
    if 0 < s.handlers then
      let s := { s with handlers := s.handlers - 1 }
      some (m.elim s s.writeMessage)
    else none
  | .handshake hs reply nodes =>
    if s.reading = some .handshake then some (s.handleHandshake tdmPassword hs reply nodes)
    else none
  | .request r responses =>
    if s.reading = some .requests then some (s.handleRead r responses) else none
  | .answer m => if s.dispatched.isEmpty then none else some (s.writeMessage m)
  | .ping m => if s.pinging && s.alive then some (s.writeMessage m) else none
  | .complete index _ =>
    if index < s.inFlight.length then
      some { s with inFlight := s.inFlight.eraseIdx index }.handleWrite
    else none

end Session

end ThymioDeviceManager.Manager
