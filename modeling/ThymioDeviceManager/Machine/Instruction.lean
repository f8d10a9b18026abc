import Mathlib.Tactic.Linarith
import ThymioDeviceManager.Compiler.Bytecode

/-! # Instructions of the virtual machine

The machine that runs the bytecode is not part of the repository. This module
fixes what is assumed of its instruction set: the instructions, the words that
encode them, and how the words at an address are decoded. Operands are numbers
without a bound; `Fits` says when an instruction survives its encoding.
-/

namespace ThymioDeviceManager.Machine

open Compiler

inductive Instruction where
  | stop
  | smallImmediate (value : Int)
  | largeImmediate (value : Word)
  | load (addr : Nat)
  | store (addr : Nat)
  | loadIndirect (addr size : Nat)
  | storeIndirect (addr size : Nat)
  | unaryArithmetic (op : AsebaUnaryOperator)
  | binaryArithmetic (op : AsebaBinaryOperator)
  | jump (displacement : Int)
  | conditionalBranch (op : AsebaBinaryOperator) (edge : Bool) (displacement : Int)
  | emit (id addr size : Nat)
  | nativeCall (id : Nat)
  | subCall (id : Nat)
  | subRet
  deriving DecidableEq, Repr

namespace Instruction

def id : Instruction → AsebaBytecodeId
  | stop => .stop
  | smallImmediate _ => .smallImmediate
  | largeImmediate _ => .largeImmediate
  | load _ => .load
  | store _ => .store
  | loadIndirect .. => .loadIndirect
  | storeIndirect .. => .storeIndirect
  | unaryArithmetic _ => .unaryArithmetic
  | binaryArithmetic _ => .binaryArithmetic
  | jump _ => .jump
  | conditionalBranch .. => .conditionalBranch
  | emit .. => .emit
  | nativeCall _ => .nativeCall
  | subCall _ => .subCall
  | subRet => .subRet

/-- The number of words of an instruction. -/
def size : Instruction → Nat
  | largeImmediate _ | loadIndirect .. | storeIndirect .. | conditionalBranch .. => 2
  | emit .. => 3
  | _ => 1

/-- The value or-ed to the opcode in the first word. A backward displacement is masked. -/
def operand : Instruction → Nat
  | stop | largeImmediate _ | subRet => 0
  | smallImmediate v => u32OfInt v &&& 0x0fff
  | load addr | store addr | loadIndirect addr _ | storeIndirect addr _ => addr
  | unaryArithmetic op => op.code
  | binaryArithmetic op => op.code
  | jump d => if 0 ≤ d then d.toNat else u32OfInt d &&& 0x0fff
  | conditionalBranch op edge _ => op.code ||| if edge then 1 <<< ifIsWhenBit else 0
  | emit id .. => id
  | nativeCall id | subCall id => id

/-- The words after the first. -/
def arguments : Instruction → List Word
  | largeImmediate v => [v]
  | loadIndirect _ size | storeIndirect _ size => [BitVec.ofNat 16 size]
  | conditionalBranch _ _ d => [BitVec.ofInt 16 d]
  | emit _ addr size => [BitVec.ofNat 16 addr, BitVec.ofNat 16 size]
  | _ => []

def headWord (i : Instruction) : Word := BitVec.ofNat 16 (asebaBytecodeFromId i.id ||| i.operand)

def encode (i : Instruction) : List Word := i.headWord :: i.arguments

/-- Every operand is in the range of its field. -/
def Fits : Instruction → Prop
  | load addr | store addr => addr < 4096
  | loadIndirect addr size | storeIndirect addr size => addr < 4096 ∧ size < 65536
  | smallImmediate v => -2048 ≤ v ∧ v ≤ 2047
  | jump d => -2048 ≤ d ∧ d ≤ 2047
  | conditionalBranch _ _ d => -32768 ≤ d ∧ d ≤ 32767
  | emit id addr size => id < 4096 ∧ addr < 65536 ∧ size < 65536
  | nativeCall id | subCall id => id < 4096
  | _ => True

instance : DecidablePred Fits := fun i => by
  cases i <;> unfold Fits <;> infer_instance

end Instruction

/-- A twelve-bit field read as a signed number. -/
def signed12 (n : Nat) : Int := if n < 2048 then n else n - 4096

/-- The instruction at the head of a list of words. -/
def decode : List Word → Option Instruction
  | [] => none
  | w :: rest =>
    match opcode w with
    | 0x0 => some .stop
    | 0x1 => some (.smallImmediate (signed12 (field w)))
    | 0x2 => rest[0]?.map .largeImmediate
    | 0x3 => some (.load (field w))
    | 0x4 => some (.store (field w))
    | 0x5 => rest[0]?.map fun n => .loadIndirect (field w) n.toNat
    | 0x6 => rest[0]?.map fun n => .storeIndirect (field w) n.toNat
    | 0x7 => (AsebaUnaryOperator.ofCode (field w &&& operatorMask)).map .unaryArithmetic
    | 0x8 => (AsebaBinaryOperator.ofCode (field w &&& operatorMask)).map .binaryArithmetic
    | 0x9 => some (.jump (signed12 (field w)))
    | 0xA => do
      let op ← AsebaBinaryOperator.ofCode (field w &&& operatorMask)
      let d ← rest[0]?
      pure (.conditionalBranch op ((field w).testBit ifIsWhenBit) d.toInt)
    | 0xB => do
      let addr ← rest[0]?
      let size ← rest[1]?
      pure (.emit (field w) addr.toNat size.toNat)
    | 0xC => some (.nativeCall (field w))
    | 0xD => some (.subCall (field w))
    | 0xE => some .subRet
    | _ => none

/-- The instruction at an address. -/
def fetch (code : List Word) (pc : Nat) : Option Instruction := decode (code.drop pc)

/-! ## Packing and unpacking -/

/-- The instruction word of an opcode and an operand. -/
def packed (id : AsebaBytecodeId) (v : Nat) : Word := BitVec.ofNat 16 (asebaBytecodeFromId id ||| v)

theorem opcode_eq (w : Word) : opcode w = w.toNat / 4096 := by
  simp [opcode, Nat.shiftRight_eq_div_pow]

theorem field_eq (w : Word) : field w = w.toNat % 4096 := by
  simp only [field, BitVec.toNat_and]
  exact Nat.and_two_pow_sub_one_eq_mod w.toNat 12

theorem field_lt (w : Word) : field w < 4096 := by
  rw [field_eq]
  exact Nat.mod_lt _ (by decide)

theorem opcode_lt (w : Word) : opcode w < 16 := by
  have := w.isLt
  rw [opcode_eq]
  omega

theorem packed_toNat (id : AsebaBytecodeId) {v : Nat} (h : v < 4096) :
    (packed id v).toNat = id.code * 4096 + v := by
  have hcode := id.code_lt
  have hor : id.code <<< 12 ||| v = id.code * 4096 + v := by
    rw [← Nat.shiftLeft_add_eq_or_of_lt (by omega : v < 2 ^ 12), Nat.shiftLeft_eq]
  simp only [packed, asebaBytecodeFromId, hor, BitVec.toNat_ofNat]
  omega

theorem opcode_packed (id : AsebaBytecodeId) {v : Nat} (h : v < 4096) :
    opcode (packed id v) = id.code := by
  rw [opcode_eq, packed_toNat id h]
  omega

theorem field_packed (id : AsebaBytecodeId) {v : Nat} (h : v < 4096) :
    field (packed id v) = v := by
  rw [field_eq, packed_toNat id h]
  omega

/-- An operand survives being or-ed into an instruction word exactly when it fits the field. -/
theorem unpack_packed_iff (id : AsebaBytecodeId) (v : Nat) :
    (opcode (packed id v) = id.code ∧ field (packed id v) = v) ↔ v < 4096 := by
  constructor
  · rintro ⟨-, h⟩
    rw [← h]
    exact field_lt _
  · intro h
    exact ⟨opcode_packed id h, field_packed id h⟩

theorem u32OfInt_and_mask (v : Int) : u32OfInt v &&& 0x0fff = (v % 4096).toNat := by
  rw [show (0x0fff : Nat) = 2 ^ 12 - 1 from rfl, Nat.and_two_pow_sub_one_eq_mod]
  unfold u32OfInt
  omega

theorem signed12_masked {v : Int} (h₁ : -2048 ≤ v) (h₂ : v ≤ 2047) :
    signed12 (u32OfInt v &&& 0x0fff) = v := by
  rw [u32OfInt_and_mask]
  unfold signed12
  split_ifs <;> omega

namespace Instruction

theorem branchOperand_lt (op : AsebaBinaryOperator) (edge : Bool) :
    (op.code ||| if edge then 1 <<< ifIsWhenBit else 0) < 4096 := by
  cases op <;> cases edge <;> decide

/-- The operand or-ed to the opcode leaves the opcode alone. -/
def Packs (i : Instruction) : Prop := i.operand < 4096

instance : DecidablePred Packs := fun i => inferInstanceAs (Decidable (i.operand < 4096))

theorem Fits.packs {i : Instruction} (h : i.Fits) : i.Packs := by
  unfold Packs
  cases i with
  | stop | largeImmediate | subRet => simp [operand]
  | smallImmediate v =>
    simp only [operand, u32OfInt_and_mask]
    omega
  | load | store | nativeCall | subCall => exact h
  | loadIndirect | storeIndirect | emit => exact h.1
  | unaryArithmetic op => exact op.code_lt.trans (by decide)
  | binaryArithmetic op => exact op.code_lt.trans (by decide)
  | jump d =>
    simp only [Fits] at h
    simp only [operand, u32OfInt_and_mask]
    split_ifs <;> omega
  | conditionalBranch op edge d => exact branchOperand_lt op edge

theorem opcode_headWord {i : Instruction} (h : i.Packs) : opcode i.headWord = i.id.code :=
  opcode_packed _ h

theorem field_headWord {i : Instruction} (h : i.Packs) : field i.headWord = i.operand :=
  field_packed _ h

/-- The size that the compiler reads off the first word is the number of words. -/
theorem wordSize_headWord {i : Instruction} (h : i.Packs) : wordSize i.headWord = i.size := by
  unfold wordSize
  rw [opcode_headWord h]
  cases i <;> rfl

@[simp] theorem length_encode (i : Instruction) : i.encode.length = i.size := by
  cases i <;> rfl

theorem size_pos (i : Instruction) : 0 < i.size := by
  cases i <;> simp [size]

theorem signed12_jump {d : Int} (h₁ : -2048 ≤ d) (h₂ : d ≤ 2047) :
    signed12 (jump d).operand = d := by
  simp only [operand]
  split_ifs with hd
  · unfold signed12
    split_ifs <;> omega
  · exact signed12_masked h₁ h₂

theorem toInt_ofInt {d : Int} (h₁ : -32768 ≤ d) (h₂ : d ≤ 32767) :
    (BitVec.ofInt 16 d).toInt = d := by
  rw [BitVec.toInt_ofInt]
  simp only [Int.bmod]
  split_ifs <;> omega

/-- An instruction whose operands fit is decoded from its own words. -/
theorem decode_encode {i : Instruction} (h : i.Fits) (rest : List Word) :
    decode (i.encode ++ rest) = some i := by
  have hop := opcode_headWord h.packs
  have hfield := field_headWord h.packs
  simp only [encode, List.cons_append, decode, hop, hfield]
  cases i with
  | stop | largeImmediate | load | store | nativeCall | subCall | subRet => rfl
  | smallImmediate v => simp only [id, AsebaBytecodeId.code, operand, signed12_masked h.1 h.2]
  | loadIndirect addr n | storeIndirect addr n =>
    simp [id, AsebaBytecodeId.code, operand, arguments, Nat.mod_eq_of_lt h.2]
  | unaryArithmetic op => cases op <;> rfl
  | binaryArithmetic op => cases op <;> rfl
  | jump d => simp only [id, AsebaBytecodeId.code, signed12_jump h.1 h.2]
  | conditionalBranch op edge d =>
    have hd := toInt_ofInt h.1 h.2
    cases op <;> cases edge <;>
      simp [id, AsebaBytecodeId.code, operand, arguments, hd, operatorMask, ifIsWhenBit,
        AsebaBinaryOperator.code, AsebaBinaryOperator.ofCode] <;> decide
  | emit id addr n =>
    simp [Instruction.id, AsebaBytecodeId.code, operand, arguments, Nat.mod_eq_of_lt h.2.1,
      Nat.mod_eq_of_lt h.2.2]

end Instruction

end ThymioDeviceManager.Machine
