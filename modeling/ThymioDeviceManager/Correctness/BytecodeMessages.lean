import ThymioDeviceManager.Correctness.PacketSizes
import ThymioDeviceManager.Library.Layout
import ThymioDeviceManager.Manager.BytecodeMessages

/-! # What the messages of a bytecode write

Both `sendBytecode` make the same messages, whose blocks tile the bytecode; so a device that
gets them in any order ends with the bytecode in its memory.
-/

namespace ThymioDeviceManager.Correctness

open Manager Library.Layout
open Compiler (Word)

namespace BytecodeMessages

/-! ## The loop -/

section Loop

variable {P : Type} {make : SetBytecode → P} {dest : Word} {bytecode : List Word}

/-- The loop adds the messages of the bytecode that is left. -/
theorem sendBytecodeLoop_eq (messagesVector : List P) {bytecodeStart bytecodeCount turns : Nat}
    (hcount : bytecodeCount = (bytecode.drop bytecodeStart).length)
    (hturns : bytecodeCount ≤ turns) :
    sendBytecodeLoop make dest bytecode messagesVector bytecodeStart bytecodeCount =
      messagesVector ++
        (sendBytecodeFrom dest turns bytecodeStart (bytecode.drop bytecodeStart)).map make := by
  have hpositive := bytecodePayloadSize_pos
  induction turns generalizing messagesVector bytecodeStart bytecodeCount with
  | zero =>
    rw [sendBytecodeLoop, if_neg (by omega)]
    rfl
  | succ turns ih =>
    rw [sendBytecodeLoop, sendBytecodeFrom, ← hcount]
    by_cases hlong : bytecodePayloadSize < bytecodeCount
    · rw [if_pos hlong, if_pos hlong, ih _ _ (by omega), List.drop_drop, List.append_assoc]
      · rfl
      · rw [hcount, ← List.length_drop, List.drop_drop]
    · rw [if_neg hlong, if_neg hlong]
      rfl

/-- The messages from a word on tile what is left. -/
theorem tiles_sendBytecodeFrom {turns start : Nat} (hlength : bytecode.length < 2 ^ 16)
    (hstart : start ≤ bytecode.length) (hturns : (bytecode.drop start).length ≤ turns) :
    Tiles (fun m : SetBytecode => m.start.toNat) (fun m => m.bytecode.length) start bytecode.length
      (sendBytecodeFrom dest turns start (bytecode.drop start)) := by
  have hword : (BitVec.ofNat 16 start).toNat = start := by
    rw [BitVec.toNat_ofNat]
    omega
  have hlast : start + (bytecode.drop start).length = bytecode.length := by
    rw [List.length_drop]
    omega
  induction turns generalizing start with
  | zero => exact ⟨hword, hlast⟩
  | succ turns ih =>
    have hpositive := bytecodePayloadSize_pos
    rw [sendBytecodeFrom]
    by_cases hlong : bytecodePayloadSize < (bytecode.drop start).length
    · have htake : ((bytecode.drop start).take bytecodePayloadSize).length = bytecodePayloadSize := by
        rw [List.length_take]
        omega
      rw [if_pos hlong, List.drop_drop]
      refine ⟨hword, ?_⟩
      dsimp only
      rw [htake]
      rw [List.length_drop] at hlong hturns hlast
      apply ih
      · omega
      · rw [List.length_drop]
        omega
      · rw [BitVec.toNat_ofNat]
        omega
      · rw [List.length_drop]
        omega
    · rw [if_neg hlong]
      exact ⟨hword, hlast⟩

/-- A message has the words of the bytecode at its start. -/
theorem partOf_sendBytecodeFrom {turns start : Nat} (hlength : bytecode.length < 2 ^ 16)
    (hstart : start ≤ bytecode.length) :
    ∀ m ∈ sendBytecodeFrom dest turns start (bytecode.drop start),
      m.dest = dest ∧ PartOf bytecode m.start.toNat m.bytecode := by
  have hword : (BitVec.ofNat 16 start).toNat = start := by
    rw [BitVec.toNat_ofNat]
    omega
  have hlast : PartOf bytecode start (bytecode.drop start) := by
    have hpart := @partOf_take_drop _ bytecode start (bytecode.length - start) (by omega)
    rwa [List.take_of_length_le (by rw [List.length_drop])] at hpart
  induction turns generalizing start with
  | zero =>
    intro m hm
    rw [sendBytecodeFrom, List.mem_singleton] at hm
    subst hm
    exact ⟨rfl, by rwa [hword]⟩
  | succ turns ih =>
    intro m hm
    rw [sendBytecodeFrom] at hm
    by_cases hlong : bytecodePayloadSize < (bytecode.drop start).length
    · rw [if_pos hlong, List.drop_drop] at hm
      rw [List.length_drop] at hlong
      rcases List.mem_cons.mp hm with rfl | hm
      · refine ⟨rfl, ?_⟩
        rw [hword]
        exact partOf_take_drop (by omega)
      · have hword' : (BitVec.ofNat 16 (start + bytecodePayloadSize)).toNat =
            start + bytecodePayloadSize := by
          rw [BitVec.toNat_ofNat]
          omega
        have hlast' := @partOf_take_drop _ bytecode (start + bytecodePayloadSize)
          (bytecode.length - (start + bytecodePayloadSize)) (by omega)
        rw [List.take_of_length_le (by rw [List.length_drop])] at hlast'
        exact ih (by omega) hword' hlast' m hm
    · rw [if_neg hlong, List.mem_singleton] at hm
      subst hm
      exact ⟨rfl, by rwa [hword]⟩

end Loop

/-! ## The messages -/

variable {dest : Word} {bytecode : List Word}

theorem sendBytecodeUnique_eq (messagesVector : List (UniquePtr SetBytecode))
    (hlength : bytecode.length < 2 ^ 32) :
    sendBytecodeUnique messagesVector dest bytecode =
      messagesVector ++ (sendBytecode dest bytecode).map UniquePtr.mk := by
  rw [sendBytecodeUnique, Nat.mod_eq_of_lt hlength]
  exact sendBytecodeLoop_eq messagesVector rfl (Nat.le_refl _)

theorem sendBytecodeShared_eq (messagesVector : List (SharedPtr SetBytecode))
    (hlength : bytecode.length < 2 ^ 32) :
    sendBytecodeShared messagesVector dest bytecode =
      messagesVector ++ (sendBytecode dest bytecode).map SharedPtr.mk := by
  rw [sendBytecodeShared, Nat.mod_eq_of_lt hlength]
  exact sendBytecodeLoop_eq messagesVector rfl (Nat.le_refl _)

/-- The first address behind the words of a message. -/
def stop (m : SetBytecode) : Nat := m.start.toNat + m.bytecode.length

/-- What a device does with a message. -/
def received (memory : List Word) (m : SetBytecode) : List Word :=
  overwrite memory m.start.toNat m.bytecode

/-- The messages for a node carry a bytecode in blocks of a limited size, which tile it. -/
structure Carries (dest : Word) (bytecode : List Word) (messages : List SetBytecode) : Prop where
  dest : ∀ m ∈ messages, m.dest = dest
  payload : ∀ m ∈ messages, m.bytecode.length ≤ 258 - 2
  disjoint : messages.Pairwise fun m m' =>
    stop m ≤ m'.start.toNat ∨ stop m' ≤ m.start.toNat
  covered : ∀ a, (∃ m ∈ messages, m.start.toNat ≤ a ∧ a < stop m) ↔ a < bytecode.length
  written : ∀ order memory : List _, order.Perm messages → bytecode.length ≤ memory.length →
    order.foldl received memory = bytecode ++ memory.drop bytecode.length

theorem sendBytecode_carries (hlength : bytecode.length < 2 ^ 16) :
    Carries dest bytecode (sendBytecode dest bytecode) := by
  have htiles : Tiles (fun m : SetBytecode => m.start.toNat) (fun m => m.bytecode.length) 0
      bytecode.length (sendBytecode dest bytecode) :=
    tiles_sendBytecodeFrom hlength (Nat.zero_le _) (Nat.le_refl _)
  have hparts : ∀ m ∈ sendBytecode dest bytecode,
      m.dest = dest ∧ PartOf bytecode m.start.toNat m.bytecode :=
    partOf_sendBytecodeFrom hlength (Nat.zero_le _)
  exact {
    dest := fun m hm => (hparts m hm).1
    payload := PacketSizes.length_sendBytecodeFrom_le (Nat.le_refl _)
    disjoint := htiles.pairwise.imp fun h => Or.inl h
    covered := fun a => by simpa [stop, sendBytecode] using htiles.covered_iff a
    written := fun order memory hperm hroom =>
      htiles.foldl_overwrite (fun m hm => (hparts m hm).2) hroom hperm }

end BytecodeMessages

open BytecodeMessages

/-- Both `sendBytecode` append the same messages, and these carry the bytecode. -/
theorem bytecode_messages_carry (dest : Word) (bytecode : List Word)
    (unique : List (UniquePtr SetBytecode)) (shared : List (SharedPtr SetBytecode))
    (hlength : bytecode.length ≤ 65535) :
    ∃ messages, Carries dest bytecode messages ∧
      sendBytecodeUnique unique dest bytecode = unique ++ messages.map UniquePtr.mk ∧
      sendBytecodeShared shared dest bytecode = shared ++ messages.map SharedPtr.mk :=
  ⟨sendBytecode dest bytecode, sendBytecode_carries (by omega), sendBytecodeUnique_eq _ (by omega),
    sendBytecodeShared_eq _ (by omega)⟩

/-- One word more than a message has room for. -/
theorem overfull_messages_carry :
    ∃ messages, Carries 1 (List.replicate 257 0) messages ∧
      sendBytecodeUnique [] 1 (List.replicate 257 0) = [] ++ messages.map UniquePtr.mk ∧
      sendBytecodeShared [] 1 (List.replicate 257 0) = [] ++ messages.map SharedPtr.mk :=
  bytecode_messages_carry 1 (List.replicate 257 0) [] [] (by rw [List.length_replicate]; decide)

end ThymioDeviceManager.Correctness
