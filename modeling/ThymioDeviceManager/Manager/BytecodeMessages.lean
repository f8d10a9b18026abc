import ThymioDeviceManager.Manager.Programs

/-! # The messages of a bytecode

The two `sendBytecode` of `msg.cpp`, one for each kind of pointer. Their loops are copies of
each other; here they share one, with the function that makes a message. The counters are
`unsigned` and the start of a message has 16 bits.
-/

namespace ThymioDeviceManager.Manager

open Compiler

/-- `std::unique_ptr`. -/
structure UniquePtr (α : Type) where
  pointee : α
  deriving DecidableEq, Repr

/-- `std::shared_ptr`. -/
structure SharedPtr (α : Type) where
  pointee : α
  deriving DecidableEq, Repr

theorem bytecodePayloadSize_pos : 0 < bytecodePayloadSize := by decide

section

variable {P : Type} (make : SetBytecode → P) (dest : Word) (bytecode : List Word)

/-- The `while` loop of `sendBytecode`, and the block behind it. -/
def sendBytecodeLoop (messagesVector : List P) (bytecodeStart bytecodeCount : Nat) : List P :=
  if bytecodePayloadSize < bytecodeCount then
    let setBytecodeMessage : SetBytecode :=
      { dest
        start := BitVec.ofNat 16 bytecodeStart
        bytecode := (bytecode.drop bytecodeStart).take bytecodePayloadSize }
    sendBytecodeLoop (messagesVector ++ [make setBytecodeMessage])
      (bytecodeStart + bytecodePayloadSize) (bytecodeCount - bytecodePayloadSize)
  else
    let setBytecodeMessage : SetBytecode :=
      { dest, start := BitVec.ofNat 16 bytecodeStart, bytecode := bytecode.drop bytecodeStart }
    messagesVector ++ [make setBytecodeMessage]
termination_by bytecodeCount
decreasing_by
  have := bytecodePayloadSize_pos
  omega

end

/-- `sendBytecode` for a vector of `unique_ptr`. -/
def sendBytecodeUnique (messagesVector : List (UniquePtr SetBytecode)) (dest : Word)
    (bytecode : List Word) : List (UniquePtr SetBytecode) :=
  sendBytecodeLoop UniquePtr.mk dest bytecode messagesVector 0 (bytecode.length % 2 ^ 32)

/-- `sendBytecode` for a vector of `shared_ptr`. -/
def sendBytecodeShared (messagesVector : List (SharedPtr SetBytecode)) (dest : Word)
    (bytecode : List Word) : List (SharedPtr SetBytecode) :=
  sendBytecodeLoop SharedPtr.mk dest bytecode messagesVector 0 (bytecode.length % 2 ^ 32)

end ThymioDeviceManager.Manager
