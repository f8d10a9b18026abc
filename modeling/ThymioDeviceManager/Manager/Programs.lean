import Mathlib.Data.Finset.Basic
import ThymioDeviceManager.Compiler.Compile

/-! # Programs of a node

`compile_and_send_program` and `compile_and_save` of `aseba_node`, with what they
call: `do_compile_program`, `sendBytecode`, `reset_known_variables`, the
cancellation of pending requests and the checksums of the ABO header. The signals
to applications that watch variables are left out, and so are the members of a
pending request that cancelling it does not read.

A compilation that fails leaves its tables as far as they have been built. The
model of the compiler does not keep them, so the variables map of a failed
compilation is an input (`leftVariables`).
-/

namespace ThymioDeviceManager.Manager

open Library Compiler

/-! ## Checksums and byte order -/

/-- `WStringToUTF8`. -/
def wStringToUTF8 (s : String) : List UInt8 :=
  s.toList.flatMap fun c =>
    let c := c.toNat
    if c < 0x80 then [c.toUInt8]
    else if c < 0x800 then [(((c >>> 6) &&& 0x1F) ||| 0xC0).toUInt8, ((c &&& 0x3F) ||| 0x80).toUInt8]
    else if c < 0xd800 then
      [(((c >>> 12) &&& 0x0F) ||| 0xE0).toUInt8, (((c >>> 6) &&& 0x3F) ||| 0x80).toUInt8,
        ((c &&& 0x3F) ||| 0x80).toUInt8]
    else ['?'.toNat.toUInt8]

/-- One turn of the loop of `crc_xmodem_update`. -/
def crcShift (crc : Word) : Word :=
  if crc &&& 0x8000 ≠ 0 then (crc <<< 1) ^^^ 0x1021 else crc <<< 1

/-- `crc_xmodem_update` for a byte. -/
def crcXModemUpdate (crc : Word) (data : UInt8) : Word :=
  Nat.iterate crcShift 8 (crc ^^^ (BitVec.ofNat 16 data.toNat <<< 8))

/-- `crcXModem` for a string, which has a terminating zero to complete a last word. -/
def crcXModemString (crc : Word) (s : String) : Word :=
  let utf8s := wStringToUTF8 s
  let bytes := if utf8s.length % 2 = 1 then utf8s ++ [0] else utf8s
  bytes.foldl crcXModemUpdate crc

/-- `crcXModem` for a word. -/
def crcXModem (crc v : Word) : Word :=
  crcXModemUpdate (crcXModemUpdate crc v.toNat.toUInt8) (v >>> 8).toNat.toUInt8

/-- `TargetDescription::crc`. -/
def descriptionCrc (td : TargetDescription) : Word :=
  let crc := crcXModem 0 (BitVec.ofNat 16 td.bytecodeSize)
  let crc := crcXModem crc (BitVec.ofNat 16 td.variablesSize)
  let crc := crcXModem crc (BitVec.ofNat 16 td.stackSize)
  let crc := td.namedVariables.foldl
    (fun crc v => crcXModemString (crcXModem crc (BitVec.ofNat 16 v.size)) v.name) crc
  let crc := td.localEvents.foldl crcXModemString crc
  td.nativeFunctions.foldl (fun crc f =>
    f.parameters.foldl
      (fun crc p => crcXModemString (crcXModem crc (BitVec.ofInt 16 p.size)) p.name)
      (crcXModemString crc f.name)) crc

def swapByteOrder (us : Word) : Word := (us >>> 8) ||| (us <<< 8)

/-! ## Messages -/

structure SetBytecode where
  dest : Word
  start : Word
  bytecode : List Word
  deriving DecidableEq, Repr

/-- `ASEBA_MAX_EVENT_ARG_COUNT - 2`. -/
def bytecodePayloadSize : Nat := 258 - 2

/-- The loop of `sendBytecode`, from word `start` on. -/
def sendBytecodeFrom (dest : Word) : Nat → Nat → List Word → List SetBytecode
  | 0, start, bytecode => [⟨dest, BitVec.ofNat 16 start, bytecode⟩]
  | count + 1, start, bytecode =>
    if bytecodePayloadSize < bytecode.length then
      ⟨dest, BitVec.ofNat 16 start, bytecode.take bytecodePayloadSize⟩ ::
        sendBytecodeFrom dest count (start + bytecodePayloadSize) (bytecode.drop bytecodePayloadSize)
    else [⟨dest, BitVec.ofNat 16 start, bytecode⟩]

/-- `sendBytecode`. A turn of the loop takes words away, so their number bounds the turns. -/
def sendBytecode (dest : Word) (bytecode : List Word) : List SetBytecode :=
  sendBytecodeFrom dest bytecode.length 0 bytecode

/-! ## Compilations -/

/-- `fb::ProgrammingLanguage`. -/
inductive ProgrammingLanguage where
  | aseba
  | aesl
  deriving DecidableEq, Repr

/-- The error codes that these functions make. -/
inductive NodeError where
  | unsupportedLanguage
  | operationCanceled
  deriving DecidableEq, Repr

/-- `compilation_result::result_data`. -/
structure ResultData where
  bytecodeSize : Nat
  variablesSize : Nat
  bytecodeTotalSize : Nat
  variablesTotalSize : Nat
  deriving DecidableEq, Repr

structure CompilationResult where
  error : Option TranslatableError := none
  result : Option ResultData := none
  deriving DecidableEq, Repr

/-- The surroundings of a compilation: what the environment of the compiler takes
from the process, the state of the compiler object, and the variables map that a
failed compilation leaves. -/
structure Host where
  isUtf8AlphaNum : Char → Bool := Char.isAlphanum
  unsetEndLine : UInt32 := 0
  compiler : CompilerState := {}
  leftVariables : Compiler.VariablesMap := []

def Host.environment (host : Host) (td : TargetDescription) (defs : CommonDefinitions) :
    Environment where
  targetDescription := td
  commonDefinitions := defs
  isUtf8AlphaNum := host.isUtf8AlphaNum
  unsetEndLine := host.unsetEndLine

/-- What the caller of `Compiler::compile` finds in its arguments and in the object. -/
structure CompilerReturn where
  error : Option TranslatableError
  bytecode : List BytecodeElement
  allocatedVariablesCount : Nat
  variablesMap : Compiler.VariablesMap

/-- The bytecode that a failed compilation leaves: linking writes it before it
checks its size. -/
def leftBytecode (env : Environment) (source : List Char) (s : CompilerState) :
    List BytecodeElement :=
  match frontEnd env source s with
  | .ok (program, s) =>
    match emitProgram program with
    | .ok emitted =>
      let p := emitted.fixup s.subroutineTable
      match verifyStackCalls env.targetDescription p with
      | .ok true =>
        match link env.targetDescription p s.subroutineTable with
        | .ok (_, bytecode, _) => bytecode
        | _ => []
      | _ => []
    | _ => []
  | _ => []

/-- `Compiler::compile` on an empty `bytecode`. -/
def Host.compile (host : Host) (env : Environment) (source : List Char) : Result CompilerReturn :=
  match Compiler.compile env source host.compiler with
  | .ok (c, s) => .ok ⟨none, c.bytecode, c.allocatedVariablesCount, s.variablesMap⟩
  | .throw e => .ok ⟨some e, leftBytecode env source host.compiler, 0, host.leftVariables⟩
  | .crash w => .crash w

/-! ## The node -/

structure AsebaVmVariable where
  name : List UInt8
  start : Nat
  size : Nat
  value : List Word := []
  deriving DecidableEq, Repr

/-- The members of `aseba_node` that loading a program reads or changes; `κ` is the
type of the callbacks of other requests. -/
structure ProgramNode (κ : Type) where
  id : Word
  name : String
  protocolVersion : Nat
  description : TargetDescription
  /-- The definitions of the endpoint, if it is alive. -/
  endpoint : Option CommonDefinitions
  bytecode : List BytecodeElement := []
  breakpoints : Finset Nat := ∅
  /-- `m_variables`. -/
  knownVariables : List AsebaVmVariable := []
  /-- `m_pending_step_request`: its error and its callback. -/
  pendingStepRequest : Option (Option NodeError × Option κ) := none
  /-- `m_pending_breakpoint_request`: its callback. -/
  pendingBreakpointRequest : Option (Option κ) := none
  resendAllVariables : Bool := false

variable {κ : Type}

namespace ProgramNode

/-- The node and the callbacks that are posted. -/
def cancelPendingStepRequest (node : ProgramNode κ) : ProgramNode κ × List (κ × NodeError) :=
  let posted := match node.pendingStepRequest with
    | some (error, some cb) => [(cb, error.getD .operationCanceled)]
    | _ => []
  ({ node with pendingStepRequest := none }, posted)

def cancelPendingBreakpointRequest (node : ProgramNode κ) :
    ProgramNode κ × List (κ × NodeError) :=
  let posted := match node.pendingBreakpointRequest with
    | some (some cb) => [(cb, .operationCanceled)]
    | _ => []
  ({ node with pendingBreakpointRequest := none }, posted)

/-- The loop of `reset_known_variables`; `start` and `size` are stored as `uint16_t`. -/
def insertVariable (known : List AsebaVmVariable) (var : String × Nat × Nat) :
    List AsebaVmVariable :=
  let (name, start, size) := var
  let before := known.takeWhile fun v => v.start < start
  let after := known.dropWhile fun v => v.start < start
  if after.head?.any fun v => v.start = start then known
  else
    before ++
      { name := wStringToUTF8 name, start := start % 2 ^ 16, size := size % 2 ^ 16 } :: after

def resetKnownVariables (node : ProgramNode κ) (map : Compiler.VariablesMap) : ProgramNode κ :=
  { node with knownVariables := map.foldl insertVariable [], resendAllVariables := true }

/-- What `do_compile_program` returns, and the bytecode. -/
def doCompileProgram (td : TargetDescription) (language : ProgrammingLanguage)
    (compiled : Result CompilerReturn) (bytecode : List BytecodeElement) :
    Result (Except NodeError CompilationResult × List BytecodeElement × Compiler.VariablesMap) :=
  if language = .aesl then .ok (.error .unsupportedLanguage, bytecode, [])
  else do
    let r ← compiled
    match r.error with
    | some e => pure (.ok { error := some e }, r.bytecode, r.variablesMap)
    | none => pure (.ok { result := some {
        bytecodeSize := r.bytecode.length
        variablesSize := r.allocatedVariablesCount
        bytecodeTotalSize := td.bytecodeSize
        variablesTotalSize := td.variablesSize } }, r.bytecode, r.variablesMap)

/-- What a call does: the node after it, the value it returns, the callbacks of
other requests that it posts, the batch it gives to `write_messages`, the
arguments of the calls of its own callback, and the result that the callback of
the batch carries. -/
structure Call (κ α : Type) where
  node : ProgramNode κ
  value : α
  posted : List (κ × NodeError)
  written : List SetBytecode := []
  answered : List (NodeError × CompilationResult) := []
  carried : Option CompilationResult := none

/-- The first lines of both functions: breakpoints and pending requests go. -/
def prepare (node : ProgramNode κ) : ProgramNode κ × List (κ × NodeError) :=
  let (node, steps) := cancelPendingStepRequest { node with breakpoints := ∅ }
  let (node, breakpoints) := cancelPendingBreakpointRequest node
  (node, steps ++ breakpoints)

def words (bytecode : List BytecodeElement) : List Word := bytecode.map (·.bytecode)

/-- `compile_and_send_program`. -/
def compileAndSendProgram (host : Host) (node : ProgramNode κ) (language : ProgrammingLanguage)
    (program : List Char) : Result (Call κ Unit) := do
  let (node, posted) := node.prepare
  match node.endpoint with
  | none => .crash .nullPointer
  | some defs =>
    let compiled := host.compile (host.environment node.description defs) program
    let (result, bytecode, variablesMap) ←
      doCompileProgram node.description language compiled node.bytecode
    let node := { node with bytecode }
    match result with
    | .error e => pure { node, value := (), posted, answered := [(e, {})] }
    | .ok result =>
      let messages := sendBytecode node.id (words node.bytecode)
      pure { node := node.resetKnownVariables variablesMap, value := (), posted
             written := messages, carried := some result }

/-- The header of the image after the version of the format; `_fwversion` may be
known without a value, which is then read outside its vector. -/
def firmwareVersion (known : List AsebaVmVariable) : Result (List Word) :=
  match known.find? fun v => v.name = wStringToUTF8 "_fwversion" with
  | none => .ok []
  | some v =>
    match v.value with
    | [] => .crash .outOfBounds
    | value :: _ => .ok [swapByteOrder value]

/-- The words 'A', 'B', 'O' and zero. -/
def aboMagic : List Word := [65, 66, 79, 0]

/-- `compile_and_save`. -/
def compileAndSave (host : Host) (node : ProgramNode κ) (language : ProgrammingLanguage)
    (program : List Char) : Result (Call κ (List Word)) := do
  let (node, posted) := node.prepare
  match node.endpoint with
  | none => .crash .nullPointer
  | some defs =>
    let compiled := host.compile (host.environment node.description defs) program
    let (result, bytecode, _) ←
      doCompileProgram node.description language compiled node.bytecode
    let node := { node with bytecode }
    let data := words node.bytecode
    match result with
    | .error e => pure { node, value := data, posted, answered := [(e, {})] }
    | .ok _ => do
      let version ← firmwareVersion node.knownVariables
      let header := aboMagic ++
        [0, swapByteOrder (BitVec.ofNat 16 node.protocolVersion), swapByteOrder 8] ++ version ++
        [swapByteOrder 1, swapByteOrder (crcXModemString 0 node.name),
          swapByteOrder (descriptionCrc node.description),
          swapByteOrder (BitVec.ofNat 16 data.length)]
      let overallCrc := data.foldl crcXModem 0
      pure { node, value := header ++ data.map swapByteOrder ++ [swapByteOrder overallCrc], posted }

end ProgramNode

end ThymioDeviceManager.Manager
