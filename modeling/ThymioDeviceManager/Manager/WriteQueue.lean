import Mathlib.Tactic.Common
import Mathlib.Data.List.Basic
import ThymioDeviceManager.Library.Transition

/-! # The device write queue

`aseba_endpoint::write_messages` appends a batch to the queue of the endpoint,
`write_next` hands the front message to the device and `handle_write` runs when
the device is done with it. Messages and callbacks are left abstract: the code
only looks at the type of a message, and at whether a callback is empty.

The system around the queue is the device, with the writes it has not answered
yet, and the executor on which callbacks are posted. A node holds a weak pointer
to its endpoint, which is gone once nothing else holds it; a write that is under
way does.
-/

namespace ThymioDeviceManager.Manager

open Library

def messageGetExecutionState : Nat := 0xA007
def messageListNodes : Nat := 0xA011
def messageGetChangedVariables : Nat := 0xA014

variable {μ κ ε : Type}

structure AsebaEndpoint (μ κ : Type) where
  msgQueue : List (μ × Option κ) := []
  upgradingFirmware : Bool := false
  rebooting : Bool := false
  /-- `m_endpoint` holds a device, not `monostate`. -/
  hasDevice : Bool := true
  deriving DecidableEq, Repr

namespace AsebaEndpoint

def isRebooting (ep : AsebaEndpoint μ κ) : Bool := ep.upgradingFirmware || ep.rebooting

def writeNext (ep : AsebaEndpoint μ κ) : Option μ :=
  if ep.isRebooting && ep.msgQueue.isEmpty then none
  else if ep.upgradingFirmware || !ep.hasDevice then none
  else ep.msgQueue.head?.map (·.1)

/-- The loop of `write_messages` that moves `it` from the end towards the begin. -/
def insertPosition (type : μ → Nat) (queue : List (μ × Option κ)) : Nat → Nat
  | 0 => 0
  | it + 1 =>
    if it + 1 = queue.length then it + 1
    else
      match queue[it + 1]? with
      | none => it + 1
      | some (m, _) =>
        if type m ≠ messageListNodes ∧ type m ≠ messageGetExecutionState ∧
            type m ≠ messageGetChangedVariables then it + 1
        else insertPosition type queue it

/-- The queue after `write_messages`, which returns at once on an empty batch.
`insert` returns the position of the new element, so `it` does not move and the
callback goes to the message inserted last. -/
def enqueue (type : μ → Nat) (queue : List (μ × Option κ)) (messages : List μ) (cb : Option κ) :
    List (μ × Option κ) :=
  let it := insertPosition type queue queue.length
  let inserted := messages.foldl (fun q m => q.insertIdx it (m, none)) queue
  match cb with
  | none => inserted
  | some cb => inserted.modify it fun cell => (cell.1, some cb)

/-- The endpoint after the call, and the message that it hands to the device. -/
def writeMessages (type : μ → Nat) (ep : AsebaEndpoint μ κ) (messages : List μ)
    (cb : Option κ) : AsebaEndpoint μ κ × Option μ :=
  if messages.isEmpty then (ep, none)
  else
    let ep' := { ep with msgQueue := enqueue type ep.msgQueue messages cb }
    if messages.length < ep'.msgQueue.length then (ep', none) else (ep', ep'.writeNext)

/-- The endpoint after the completion of a write with error `ec`, the callback it
posts and the message it hands to the device. -/
def handleWrite (ep : AsebaEndpoint μ κ) (ec : Option ε) :
    AsebaEndpoint μ κ × Option (κ × Option ε) × Option μ :=
  match ep.msgQueue with
  | [] => (ep, none, none)
  | (_, cb) :: rest =>
    if ec.isSome then ({ ep with msgQueue := [] }, none, none)
    else
      let ep' := { ep with msgQueue := rest }
      (ep', cb.map (·, ec), ep'.writeNext)

end AsebaEndpoint

/-- An endpoint with its device and its executor. `handed`, `completed` and `posted` keep what was
done so far, in order. -/
structure Writing (μ κ ε : Type) where
  /-- What the weak pointers of the nodes lead to. -/
  endpoint : Option (AsebaEndpoint μ κ) := some {}
  inFlight : List μ := []
  handed : List μ := []
  completed : List (μ × Option ε) := []
  posted : List (κ × Option ε) := []
  deriving DecidableEq, Repr

namespace Writing

inductive Event (μ κ ε : Type) where
  /-- A call of `aseba_node::write_messages`; `write_message` passes a batch of one. -/
  | write (messages : List μ) (cb : Option κ)
  | complete (index : Nat) (ec : Option ε)
  /-- `aseba_endpoint::upgrade_firmware` gets past its test for wireless devices. -/
  | upgrade
  /-- The last owner of the endpoint lets it go. -/
  | destroy
  deriving DecidableEq, Repr

def writeMessages (type : μ → Nat) (s : Writing μ κ ε) (messages : List μ) (cb : Option κ) :
    Writing μ κ ε :=
  match s.endpoint with
  | none => s
  | some ep =>
    let (ep', next) := ep.writeMessages type messages cb
    { s with
      endpoint := some ep', inFlight := s.inFlight ++ next.toList,
      handed := s.handed ++ next.toList }

/-- The completion handler of a write holds the endpoint it was started by. -/
def complete (s : Writing μ κ ε) (ep : AsebaEndpoint μ κ) (index : Nat) (m : μ)
    (ec : Option ε) : Writing μ κ ε :=
  let (ep', cb, next) := ep.handleWrite ec
  { endpoint := some ep', inFlight := s.inFlight.eraseIdx index ++ next.toList,
    handed := s.handed ++ next.toList, completed := s.completed ++ [(m, ec)],
    posted := s.posted ++ cb.toList }

def step (type : μ → Nat) (s : Writing μ κ ε) : Event μ κ ε → Option (Writing μ κ ε)
  | .write messages cb => some (s.writeMessages type messages cb)
  | .complete index ec =>
    match s.endpoint, s.inFlight[index]? with
    | some ep, some m => some (s.complete ep index m ec)
    | _, _ => none
  | .upgrade => s.endpoint.map fun ep =>
      { s with endpoint := some { ep with upgradingFirmware := true } }
  | .destroy =>
    if s.endpoint.isSome && s.inFlight.isEmpty then some { s with endpoint := none } else none

def queued (s : Writing μ κ ε) : List (μ × Option κ) := (s.endpoint.map (·.msgQueue)).getD []

end Writing

end ThymioDeviceManager.Manager
