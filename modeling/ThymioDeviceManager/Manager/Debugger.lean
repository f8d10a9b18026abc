import ThymioDeviceManager.Compiler.Bytecode
import ThymioDeviceManager.Library.OrderedMap
import ThymioDeviceManager.Library.Transition

/-! # Breakpoints and stepping

The debugger half of `aseba_node`: `set_breakpoints` and `step_to_next_line` with
the handlers that complete or cancel their requests. A request is a record that
the node owns; the callback of a device write refers to it weakly, and finds it
only as long as it is the pending request of the node. The number of a record
tells it from the others.

The trace lists what the node sent, which results of the device reached it, and
which callbacks it posted. A write callback runs at any time after the write was
asked for, with any outcome, or is dropped with the queue of the endpoint.
-/

namespace ThymioDeviceManager.Manager

open Library Compiler

/-- A value of `boost::system::error_code` other than success. -/
inductive Failure where
  | operationCanceled
  | other (value : Int)
  deriving DecidableEq, Repr

abbrev SystemErrorCode := Option Failure

/-- The messages that the debugger sends; program counters are 16-bit words. -/
inductive DebugMessage where
  | breakpointSet (pc : UInt16)
  | breakpointClear (pc : UInt16)
  | breakpointClearAll
  | step
  deriving DecidableEq, Repr

/-- `fb::VMExecutionState`. -/
inductive VMExecutionState where
  | running
  | paused
  | stopped
  deriving DecidableEq, Repr

def vmEventActiveMask : UInt16 := 0x1
def vmStepByStepMask : UInt16 := 0x2

/-- `break_point_cb_data`. -/
structure BreakPointCbData (κ : Type) where
  id : Nat
  /-- The breakpoints whose results are awaited, by program counter. -/
  pending : OrderedMap Nat UInt32 := []
  set : List UInt32 := []
  error : SystemErrorCode := none
  cb : Option κ
  deriving DecidableEq, Repr

/-- `step_cb_data`; nothing reads `current_pc`. -/
structure StepCbData (κ : Type) where
  id : Nat
  currentLine : UInt16
  error : SystemErrorCode := none
  cb : Option κ
  deriving DecidableEq, Repr

/-- A callback of a device write, with the record it refers to. -/
inductive WriteCallback where
  | breakpoints (id : Nat)
  | step (id : Nat)
  deriving DecidableEq, Repr

/-- The arguments of a posted callback. -/
inductive Answer where
  | breakpoints (ec : SystemErrorCode) (set : List UInt32)
  | step (ec : SystemErrorCode)
  deriving DecidableEq, Repr

inductive Traced (κ : Type) where
  | sent (message : DebugMessage)
  /-- `BreakpointSetResult`. -/
  | received (pc success : UInt16)
  | posted (cb : Option κ) (answer : Answer)
  deriving DecidableEq, Repr

/-- A node with what it shares with its endpoint and the executor. -/
structure Debugger (κ : Type) where
  alive : Bool := true
  /-- The weak pointer to the endpoint still leads somewhere. -/
  hasEndpoint : Bool := true
  bytecode : List BytecodeElement := []
  breakpoints : List UInt32 := []
  vmState : VMExecutionState := .stopped
  vmLine : UInt32 := 0
  pendingBreakpointRequest : Option (BreakPointCbData κ) := none
  pendingStepRequest : Option (StepCbData κ) := none
  /-- The number of the next record. -/
  allocated : Nat := 0
  /-- The write callbacks that have not run. -/
  writes : List WriteCallback := []
  trace : List (Traced κ) := []
  deriving DecidableEq, Repr

/-- The lambda `pc_from_line`, whose parameter is an `int`. -/
def pcFromLine (bytecode : List BytecodeElement) (line : UInt32) : Option Nat :=
  bytecode.findIdx? fun e => (e.line.toNat : Int) = line.toInt32.toInt - 1

def lineFromPc (bytecode : List BytecodeElement) (pc : Nat) : UInt32 :=
  if 5 ≤ pc then
    match bytecode[pc]? with
    | some e => e.line.toUInt32 + 1
    | none => 0
  else 0

namespace Debugger

variable {κ : Type}

/-- `boost::asio::post` of a bound callback. -/
def post (s : Debugger κ) (cb : Option κ) (answer : Answer) : Debugger κ :=
  { s with trace := s.trace ++ [.posted cb answer] }

/-- `write_messages`; a callback that comes with nothing to write is dropped. -/
def writeMessages (s : Debugger κ) (messages : List DebugMessage) (cb : WriteCallback) :
    Debugger κ :=
  if !s.hasEndpoint || messages.isEmpty then s
  else { s with writes := s.writes ++ [cb], trace := s.trace ++ messages.map .sent }

def cancelPendingStepRequest (s : Debugger κ) : Debugger κ :=
  match s.pendingStepRequest with
  | none => s
  | some data =>
    let cleared := { s with pendingStepRequest := none }
    if data.cb.isSome then
      cleared.post data.cb (.step (some (data.error.getD .operationCanceled)))
    else cleared

theorem pendingStepRequest_cancelPendingStepRequest (s : Debugger κ) :
    s.cancelPendingStepRequest.pendingStepRequest = none := by
  unfold cancelPendingStepRequest
  cases h : s.pendingStepRequest with
  | none => exact h
  | some data =>
    dsimp only
    split <;> rfl

def cancelPendingBreakpointRequest (s : Debugger κ) : Debugger κ :=
  match s.pendingBreakpointRequest with
  | none => s
  | some data =>
    let cleared := { s with pendingBreakpointRequest := none }
    if data.cb.isSome then
      cleared.post data.cb (.breakpoints (some .operationCanceled) [])
    else cleared

theorem pendingBreakpointRequest_cancelPendingBreakpointRequest (s : Debugger κ) :
    s.cancelPendingBreakpointRequest.pendingBreakpointRequest = none := by
  unfold cancelPendingBreakpointRequest
  cases h : s.pendingBreakpointRequest with
  | none => exact h
  | some data =>
    dsimp only
    split <;> rfl

def handleStepRequest (s : Debugger κ) : Debugger κ :=
  match s.pendingStepRequest with
  | none => s
  | some data =>
    if s.vmState ≠ .paused then s.cancelPendingStepRequest
    else if s.vmLine ≠ data.currentLine.toUInt32 then
      { s with pendingStepRequest := none }.post data.cb (.step data.error)
    else s.writeMessages [.step] (.step data.id)

def stepToNextLine (s : Debugger κ) (cb : Option κ) : Debugger κ :=
  let s := s.cancelPendingStepRequest
  { s with
    pendingStepRequest := some { id := s.allocated, currentLine := s.vmLine.toUInt16, cb },
    allocated := s.allocated + 1 }.handleStepRequest

/-- The body of the loop over the requested breakpoints. -/
def addBreakpoint (bytecode : List BytecodeElement) (known : List UInt32)
    (r : List DebugMessage × BreakPointCbData κ) (b : UInt32) :
    List DebugMessage × BreakPointCbData κ :=
  if b ∈ known then (r.1, { r.2 with set := r.2.set.insert b })
  else
    match pcFromLine bytecode b with
    | none => r
    | some pc =>
      (r.1 ++ [.breakpointSet (UInt16.ofNat pc)], { r.2 with pending := r.2.pending.insert pc b })

/-- The loop over `m_breakpoints`. -/
def clearMessages (bytecode : List BytecodeElement) (known breakpoints : List UInt32) :
    List DebugMessage :=
  known.filterMap fun b =>
    if b ∈ breakpoints then none
    else (pcFromLine bytecode b).map fun pc => .breakpointClear (UInt16.ofNat pc)

/-- The messages of a call of `set_breakpoints`, and its record. -/
def breakpointRequest (s : Debugger κ) (breakpoints : List UInt32) (cb : Option κ) :
    List DebugMessage × BreakPointCbData κ :=
  let data : BreakPointCbData κ := { id := s.allocated, cb }
  if breakpoints.isEmpty then ([.breakpointClearAll], data)
  else
    let (messages, data) := breakpoints.foldl (addBreakpoint s.bytecode s.breakpoints) ([], data)
    (messages ++ clearMessages s.bytecode s.breakpoints breakpoints, data)

def setBreakpoints (s : Debugger κ) (breakpoints : List UInt32) (cb : Option κ) : Debugger κ :=
  let (messages, data) := s.breakpointRequest breakpoints cb
  let cancelled :=
    { s with
      breakpoints := breakpoints.dedup,
      allocated := s.allocated + 1 }.cancelPendingBreakpointRequest
  let requested :=
    if cb.isSome then { cancelled with pendingBreakpointRequest := some data } else cancelled
  let answered :=
    if messages.isEmpty then
      { requested with
        breakpoints := data.set,
        pendingBreakpointRequest := none }.post data.cb (.breakpoints data.error data.set)
    else requested
  answered.writeMessages messages (.breakpoints data.id)

def onBreakpointSetResult (s : Debugger κ) (pc success : UInt16) : Debugger κ :=
  let s := { s with trace := s.trace ++ [Traced.received pc success] }
  match s.pendingBreakpointRequest with
  | none => s
  | some r =>
    match r.pending.find? pc.toNat with
    | none => s
    | some b =>
      let r := { r with
        set := if success ≠ 0 then r.set.insert b else r.set,
        pending := r.pending.erase pc.toNat }
      if r.pending.isEmpty then
        { s with
          breakpoints := r.set,
          pendingBreakpointRequest := none }.post r.cb (.breakpoints r.error r.set)
      else { s with pendingBreakpointRequest := some r }

/-- `on_execution_state_message`, which also posts the callbacks of programs that
have been sent. -/
def onExecutionStateMessage (s : Debugger κ) (pc flags : UInt16) : Debugger κ :=
  { s with
    vmLine := lineFromPc s.bytecode pc.toNat,
    vmState :=
      if flags &&& vmStepByStepMask ≠ 0 then
        if flags &&& vmEventActiveMask ≠ 0 then .paused else .stopped
      else .running }.handleStepRequest

/-- `on_vm_runtime_error`, for any of the four messages. -/
def onVmRuntimeError (s : Debugger κ) (pc : UInt16) : Debugger κ :=
  let s := s.cancelPendingStepRequest
  { s with vmState := .stopped, vmLine := lineFromPc s.bytecode pc.toNat }

/-- The start of `compile_and_send_program` and `compile_and_save`, and what they
make of `m_bytecode`. -/
def recompile (s : Debugger κ) (bytecode : List BytecodeElement) : Debugger κ :=
  let s := { s with
    breakpoints := [] }.cancelPendingStepRequest.cancelPendingBreakpointRequest
  { s with bytecode }

/-- The lambda of `set_breakpoints`. -/
def breakpointsWritten (s : Debugger κ) (id : Nat) (ec : SystemErrorCode) : Debugger κ :=
  match s.pendingBreakpointRequest with
  | none => s
  | some data =>
    if data.id ≠ id then s
    else
      let data := { data with error := ec }
      if ec.isSome || data.pending.isEmpty then
        { s with
          breakpoints := data.set,
          pendingBreakpointRequest := none }.post data.cb (.breakpoints data.error data.set)
      else { s with pendingBreakpointRequest := some data }

/-- The lambda of `handle_step_request`. -/
def stepWritten (s : Debugger κ) (id : Nat) (ec : SystemErrorCode) : Debugger κ :=
  if ec.isNone then s
  else
    match s.pendingStepRequest with
    | none => s
    | some data =>
      if data.id ≠ id then s
      else { s with pendingStepRequest := some { data with error := ec } }.cancelPendingStepRequest

def written (s : Debugger κ) (ec : SystemErrorCode) : WriteCallback → Debugger κ
  | .breakpoints id => s.breakpointsWritten id ec
  | .step id => s.stepWritten id ec

/-- What `disconnect` and the destructor have in common. -/
def cancelPendingRequests (s : Debugger κ) : Debugger κ :=
  s.cancelPendingStepRequest.cancelPendingBreakpointRequest

inductive Event (κ : Type) where
  | setBreakpoints (breakpoints : List UInt32) (cb : Option κ)
  | stepToNextLine (cb : Option κ)
  | breakpointResult (pc success : UInt16)
  | executionState (pc flags : UInt16)
  | runtimeError (pc : UInt16)
  /-- `compile_and_send_program` or `compile_and_save`. -/
  | recompile (bytecode : List BytecodeElement)
  /-- `compile_and_send_aseba_command`, for the command that stops the motors. -/
  | command (bytecode : List BytecodeElement)
  /-- A write callback runs. -/
  | written (index : Nat) (ec : SystemErrorCode)
  /-- A write callback is dropped with the queue it waits in. -/
  | dropped (index : Nat)
  | endpointGone
  | disconnect
  /-- The last owner lets the node go; every write callback owns it. -/
  | destroy
  deriving DecidableEq, Repr

def step (s : Debugger κ) (e : Event κ) : Option (Debugger κ) :=
  if !s.alive then none
  else
    match e with
    | .setBreakpoints breakpoints cb => some (s.setBreakpoints breakpoints cb)
    | .stepToNextLine cb => some (s.stepToNextLine cb)
    | .breakpointResult pc success => some (s.onBreakpointSetResult pc success)
    | .executionState pc flags => some (s.onExecutionStateMessage pc flags)
    | .runtimeError pc => some (s.onVmRuntimeError pc)
    | .recompile bytecode => if s.hasEndpoint then some (s.recompile bytecode) else none
    | .command bytecode => if s.hasEndpoint then some { s with bytecode } else none
    | .written index ec =>
      s.writes[index]?.map fun cb => { s with writes := s.writes.eraseIdx index }.written ec cb
    | .dropped index =>
      s.writes[index]?.map fun _ => { s with writes := s.writes.eraseIdx index }
    | .endpointGone => some { s with hasEndpoint := false }
    | .disconnect => some s.cancelPendingRequests
    | .destroy =>
      if s.writes.isEmpty then some { s.cancelPendingRequests with alive := false } else none

end Debugger

end ThymioDeviceManager.Manager
