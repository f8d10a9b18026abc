import ThymioDeviceManager.Compiler.Emit

/-! # Stack analysis and linking

`analysis.cpp` and `Compiler::link`. Depths are small numbers, so the sums of the
analysis are plain additions.
-/

namespace ThymioDeviceManager.Compiler

open Library Framing

/-- The identifiers of the `SUB_CALL` instructions met when decoding from the first word. -/
def calledIds (elements : List BytecodeElement) : List Nat :=
  (heads BytecodeElement.getWordSize 0 elements).filterMap fun p =>
    if opcode p.2.bytecode = AsebaBytecodeId.subCall.code then some (field p.2.bytecode) else none

/-- An event calls these subroutines: each starts one return address deep. -/
def markCalled (subroutines : OrderedMap Nat BytecodeVector) :
    List Nat → Result (OrderedMap Nat BytecodeVector)
  | [] => pure subroutines
  | id :: rest => do
    require (subroutines.find? id).isSome
    markCalled (subroutines.modify id fun v => { v with callDepth := 1 }) rest

/-- The loop over events; `none` is an overflow. -/
def verifyEvents (stackSize : Nat) (subroutines : OrderedMap Nat BytecodeVector) :
    List (Nat × BytecodeVector) → Result (Option (OrderedMap Nat BytecodeVector))
  | [] => pure (some subroutines)
  | (_, v) :: rest => do
    if v.maxStackDepth > stackSize then pure none
    else do
      let subroutines ← markCalled subroutines (calledIds v.elements)
      verifyEvents stackSize subroutines rest

/-- A subroutine at depth `myDepth` calls these: deepen the ones that were less deep. -/
def deepen (myDepth : Nat) (wasActivity : Bool) (subroutines : OrderedMap Nat BytecodeVector) :
    List Nat → Result (Bool × OrderedMap Nat BytecodeVector)
  | [] => pure (wasActivity, subroutines)
  | id :: rest =>
    match subroutines.find? id with
    | none => .crash .assertion
    | some dest =>
      if myDepth + 1 > dest.callDepth then
        deepen myDepth true
          (subroutines.modify id fun v => { v with callDepth := myDepth + 1 }) rest
      else deepen myDepth wasActivity subroutines rest

/-- One round over the subroutines, by identifier; `none` is an overflow. -/
def verifyRound (stackSize : Nat) (wasActivity : Bool)
    (subroutines : OrderedMap Nat BytecodeVector) :
    List Nat → Result (Option (Bool × OrderedMap Nat BytecodeVector))
  | [] => pure (some (wasActivity, subroutines))
  | id :: rest =>
    match subroutines.find? id with
    | none => .crash .assertion
    | some v =>
      if v.callDepth + v.maxStackDepth > stackSize then pure none
      else do
        let (wasActivity, subroutines) ←
          deepen v.callDepth wasActivity subroutines (calledIds v.elements)
        verifyRound stackSize wasActivity subroutines rest

/-- `do ... while(wasActivity)`. -/
def verifyRounds (stackSize : Nat) : Nat → OrderedMap Nat BytecodeVector → Result Bool
  | 0, _ => .crash .outOfFuel
  | fuel + 1, subroutines => do
    match ← verifyRound stackSize false subroutines (subroutines.map Prod.fst) with
    | none => pure false
    | some (wasActivity, subroutines) =>
      if wasActivity then verifyRounds stackSize fuel subroutines else pure true

/-- `verifyStackCalls`. A round with activity deepens some subroutine, and none gets deeper than
`stackSize + 1`, which bounds the number of rounds. -/
def verifyStackCalls (td : TargetDescription) (p : PreLinkBytecode) : Result Bool := do
  match ← verifyEvents td.stackSize p.subroutines p.events with
  | none => pure false
  | some subroutines =>
    verifyRounds td.stackSize (subroutines.length * (td.stackSize + 2) + 1) subroutines

/-! ## Linking -/

/-- The table at the head of the bytecode: the identifier and address of every event. -/
def eventTable : Nat → List (Nat × BytecodeVector) → List BytecodeElement
  | _, [] => []
  | addr, (id, v) :: rest =>
    BytecodeElement.of id 0 :: BytecodeElement.of addr 0 ::
      eventTable (addr + v.elements.length) rest

/-- The vectors one after the other. -/
def flatten (vectors : List (Nat × BytecodeVector)) : List BytecodeElement :=
  vectors.flatMap fun p => p.2.elements

/-- Record where the code of each subroutine starts. -/
def setAddresses : Nat → List (Nat × BytecodeVector) → List SubroutineDescriptor →
    List SubroutineDescriptor
  | _, [], table => table
  | addr, (id, v) :: rest, table =>
    setAddresses (addr + v.elements.length) rest
      (table.modify id fun d => { d with address := addr })

/-- The body of the loop that resolves call addresses. -/
def resolveElement (table : List SubroutineDescriptor) (e : BytecodeElement) :
    Result BytecodeElement :=
  if opcode e.bytecode = AsebaBytecodeId.subCall.code then
    match table[field e.bytecode]? with
    | none => .crash .assertion
    | some d =>
      .ok { e with bytecode := (e.bytecode &&& 0xf000) ||| BitVec.ofNat 16 d.address }
  else .ok e

/-- The loop itself; the size of a resolved word is read after it was changed. -/
def resolveCalls (table : List SubroutineDescriptor) :
    Nat → List BytecodeElement → Result (List BytecodeElement)
  | _, [] => pure []
  | 0, e :: rest => do
    let e ← resolveElement table e
    let rest ← resolveCalls table (e.getWordSize - 1) rest
    pure (e :: rest)
  | skip + 1, e :: rest => do
    let rest ← resolveCalls table skip rest
    pure (e :: rest)

/-- The words before call addresses are resolved: event table, events, subroutines. -/
def unresolvedBytecode (p : PreLinkBytecode) : List BytecodeElement :=
  let addr := p.events.length * 2 + 1
  BytecodeElement.of addr 0 :: eventTable addr p.events ++ flatten p.events ++
    flatten p.subroutines

/-- The subroutine table after linking has recorded the addresses. -/
def linkedTable (p : PreLinkBytecode) (table : List SubroutineDescriptor) :
    List SubroutineDescriptor :=
  let addr := p.events.length * 2 + 1
  setAddresses (addr + (flatten p.events).length) p.subroutines table

/-- `link`: the linked bytecode, and whether it fits the target. -/
def link (td : TargetDescription) (p : PreLinkBytecode) (table : List SubroutineDescriptor) :
    Result (Bool × List BytecodeElement × List SubroutineDescriptor) := do
  let table := linkedTable p table
  let bytecode ← resolveCalls table 0 (unresolvedBytecode p)
  pure (decide (bytecode.length ≤ td.bytecodeSize), bytecode, table)

end ThymioDeviceManager.Compiler
