import ThymioDeviceManager.Library.Framing
import ThymioDeviceManager.Compiler.State

/-! # Bytecode vectors

`BytecodeElement`, `BytecodeVector` and `PreLinkBytecode`. A loop of the source
of the form `pc += element.getWordSize()` is a reader of the framing library:
its state is the number of words left until the next `pc`.
-/

namespace ThymioDeviceManager.Compiler

open Library Framing

/-- `bytecode >> 12`. -/
def opcode (w : Word) : Nat := (w >>> 12).toNat

/-- `bytecode & 0x0fff`. -/
def field (w : Word) : Nat := (w &&& 0x0fff).toNat

/-- The number of words of the instruction that starts with `w`. -/
def wordSize (w : Word) : Nat :=
  if opcode w = AsebaBytecodeId.largeImmediate.code ∨ opcode w = AsebaBytecodeId.loadIndirect.code ∨
      opcode w = AsebaBytecodeId.storeIndirect.code ∨
      opcode w = AsebaBytecodeId.conditionalBranch.code then 2
  else if opcode w = AsebaBytecodeId.emit.code then 3
  else 1

structure BytecodeElement where
  bytecode : Word
  line : UInt16 := 0
  deriving DecidableEq, Repr

def BytecodeElement.getWordSize (e : BytecodeElement) : Nat := wordSize e.bytecode

/-- The element for an `unsigned` value, of which the low sixteen bits are kept. -/
def BytecodeElement.of (value : Nat) (line : UInt32) : BytecodeElement :=
  { bytecode := BitVec.ofNat 16 value, line := line.toUInt16 }

structure BytecodeVector where
  elements : List BytecodeElement := []
  maxStackDepth : Nat := 0
  callDepth : Nat := 0
  lastLine : UInt32 := 0
  deriving DecidableEq, Repr

/-- `push_back`, which also records the line. -/
def BytecodeVector.pushBack (v : BytecodeVector) (e : BytecodeElement) : BytecodeVector :=
  { v with elements := v.elements ++ [e], lastLine := e.line.toUInt32 }

/-- The body of `changeStopToRetSub`. -/
def stopToRetSub (e : BytecodeElement) : BytecodeElement :=
  if opcode e.bytecode = AsebaBytecodeId.stop.code then
    { e with bytecode := BitVec.ofNat 16 (asebaBytecodeFromId .subRet) }
  else e

def BytecodeVector.changeStopToRetSub (v : BytecodeVector) : BytecodeVector :=
  { v with elements := visit BytecodeElement.getWordSize stopToRetSub 0 v.elements }

/-- `getTypeOfLast`; 16 is the invalid type. -/
def BytecodeVector.getTypeOfLast (v : BytecodeVector) : Nat :=
  (heads BytecodeElement.getWordSize 0 v.elements).foldl (fun _ p => opcode p.2.bytecode) 16

/-- The words of a linked bytecode, read as the loop of `getEventAddressesToIds` reads them. -/
def eventEntries : Nat → Nat → List Word → List (Nat × Nat)
  | pc, eventVectSize, id :: addr :: rest =>
    if pc < eventVectSize then (addr.toNat, id.toNat) :: eventEntries (pc + 2) eventVectSize rest
    else []
  | _, _, _ => []

/-- `getEventAddressesToIds`: later entries overwrite earlier ones. -/
def getEventAddressesToIds (bytecode : List BytecodeElement) : OrderedMap Nat Nat :=
  match bytecode.map BytecodeElement.bytecode with
  | [] => []
  | eventVectSize :: rest =>
    (eventEntries 1 eventVectSize.toNat rest).foldl (fun m p => m.insert p.1 p.2) []

/-- The vector that `PreLinkBytecode::current` points to. -/
inductive CurrentBytecode where
  | event (id : Nat)
  | subroutine (id : Nat)
  deriving DecidableEq, Repr

structure PreLinkBytecode where
  events : OrderedMap Nat BytecodeVector
  subroutines : OrderedMap Nat BytecodeVector
  current : CurrentBytecode
  deriving DecidableEq, Repr

/-- `PreLinkBytecode()`: the init event is there and current. -/
def PreLinkBytecode.new : PreLinkBytecode :=
  { events := [(eventInit, {})], subroutines := [], current := .event eventInit }

/-- Change the vector `current` points to. -/
def PreLinkBytecode.modifyAt (p : PreLinkBytecode) (current : CurrentBytecode)
    (f : BytecodeVector → BytecodeVector) : PreLinkBytecode :=
  match current with
  | .event id => { p with events := p.events.modify id f }
  | .subroutine id => { p with subroutines := p.subroutines.modify id f }

/-- The terminal of an event vector. -/
def closeEvent (v : BytecodeVector) : BytecodeVector :=
  v.pushBack (BytecodeElement.of (asebaBytecodeFromId .stop) v.lastLine)

/-- The terminal of a subroutine vector, added unless its last instruction already returns. -/
def closeSubroutine (line : UInt32) (v : BytecodeVector) : BytecodeVector :=
  if v.elements.isEmpty then
    v.pushBack (BytecodeElement.of (asebaBytecodeFromId .subRet) line)
  else
    let v := v.changeStopToRetSub
    if v.getTypeOfLast ≠ AsebaBytecodeId.subRet.code then
      v.pushBack (BytecodeElement.of (asebaBytecodeFromId .subRet) v.lastLine)
    else v

/-- `fixup`: empty events are cleared and every vector gets its terminal. -/
def PreLinkBytecode.fixup (p : PreLinkBytecode) (table : List SubroutineDescriptor) :
    PreLinkBytecode :=
  { p with
    events := (p.events.filter fun e => !e.2.elements.isEmpty).map fun e => (e.1, closeEvent e.2)
    subroutines := p.subroutines.map fun e =>
      (e.1, closeSubroutine ((table[e.1]?.map SubroutineDescriptor.line).getD 0) e.2) }

end ThymioDeviceManager.Compiler
