import ThymioDeviceManager.Library.Realise
import ThymioDeviceManager.Machine.Arithmetic
import ThymioDeviceManager.Machine.Program

/-! # Running bytecode

The stack machine, one instruction at a time. The branch of an `if` or a `when`
remembers whether its condition was last true; the bit is part of the branch
instruction on the target and of the state here. A step goes on with a new state,
halts at `STOP`, or fails. An instruction that cannot be decoded, or that finds
too few words on the stack, makes the machine stuck.
-/

namespace ThymioDeviceManager.Machine

open Compiler Library

structure State where
  pc : Nat
  stack : List Word
  memory : Memory
  /-- By the address of the branch. -/
  wasTrue : Nat → Bool

/-- The native functions of a target: how many words each takes from the stack, and what it does
to the variables. -/
structure Natives where
  arity : Nat → Nat
  effect : Nat → List Word → Memory → Memory

/-- An address displaced by a signed number of words. -/
def displaced (pc : Nat) (d : Int) : Nat := (pc + d).toNat

variable (σ : WideShifts) (natives : Natives)

/-- The next state after an instruction, with the words it needs taken from the stack. -/
def execute (i : Instruction) (s : State) : Run (State ⊕ State) :=
  let next : State := { s with pc := s.pc + i.size }
  match i, s.stack with
  | .stop, _ => .ok (.inr s)
  | .smallImmediate v, stk => .ok (.inl { next with stack := word v :: stk })
  | .largeImmediate v, stk => .ok (.inl { next with stack := v :: stk })
  | .load addr, stk => .ok (.inl { next with stack := s.memory addr :: stk })
  | .store addr, v :: stk => .ok (.inl { next with stack := stk, memory := s.memory.write addr v })
  | .loadIndirect addr n, i :: stk => do
    let c ← cell addr n i
    .ok (.inl { next with stack := s.memory c :: stk })
  | .storeIndirect addr n, i :: v :: stk => do
    let c ← cell addr n i
    .ok (.inl { next with stack := stk, memory := s.memory.write c v })
  | .unaryArithmetic op, a :: stk => .ok (.inl { next with stack := unary op a :: stk })
  | .binaryArithmetic op, b :: a :: stk => do
    let v ← binary σ op a b
    .ok (.inl { next with stack := v :: stk })
  | .jump d, _ => .ok (.inl { s with pc := displaced s.pc d })
  | .conditionalBranch op edge d, b :: a :: stk => do
    let v ← binary σ op a b
    let taken := decide (v ≠ 0) && !(edge && s.wasTrue s.pc)
    .ok (.inl { s with
      pc := if taken then next.pc else displaced s.pc d
      stack := stk
      wasTrue := Function.update s.wasTrue s.pc (decide (v ≠ 0)) })
  | .emit .., _ => .ok (.inl next)
  | .nativeCall id, stk =>
    if natives.arity id ≤ stk.length then
      .ok (.inl { next with
        stack := stk.drop (natives.arity id)
        memory := natives.effect id (stk.take (natives.arity id)) s.memory })
    else .throw .stuck
  | .subCall addr, stk => .ok (.inl { s with pc := addr, stack := BitVec.ofNat 16 next.pc :: stk })
  | .subRet, r :: stk => .ok (.inl { s with pc := r.toNat, stack := stk })
  | _, _ => .throw .stuck

/-- One step. -/
def step (code : List Word) (s : State) : Run (State ⊕ State) :=
  match fetch code s.pc with
  | some i => execute σ natives i s
  | none => .throw .stuck

/-- At most `fuel` steps, to the state in which the machine halts. -/
def run (code : List Word) (fuel : Nat) (s : State) : Run State :=
  iterate .outOfFuel (step σ natives code) fuel s

/-! ## Code in place -/

/-- The instructions stand at an address, and every one can be decoded. -/
def CodeAt (code : List Word) (base : Nat) (is : List Instruction) : Prop :=
  AllFit is ∧ assemble is <+: code.drop base

variable {code : List Word} {base : Nat} {i : Instruction} {is js : List Instruction}

theorem CodeAt.append (h : CodeAt code base (is ++ js)) :
    CodeAt code base is ∧ CodeAt code (base + codeSize is) js := by
  obtain ⟨hfit, hcode⟩ := h
  obtain ⟨h₁, h₂⟩ := AllFit.append.mp hfit
  rw [assemble_append] at hcode
  obtain ⟨rest, hrest⟩ := hcode
  rw [List.append_assoc] at hrest
  refine ⟨⟨h₁, ⟨_, hrest⟩⟩, h₂, ⟨rest, ?_⟩⟩
  rw [← List.drop_drop, ← hrest, ← length_assemble is, List.drop_left]

theorem CodeAt.fetch (h : CodeAt code base (i :: is)) : fetch code base = some i := by
  obtain ⟨hfit, rest, hrest⟩ := h
  rw [assemble_cons, List.append_assoc] at hrest
  rw [Machine.fetch, ← hrest]
  exact Instruction.decode_encode (AllFit.cons.mp hfit).1 _

theorem CodeAt.tail (h : CodeAt code base (i :: is)) : CodeAt code (base + i.size) is := by
  have happend : CodeAt code base ([i] ++ is) := h
  simpa using happend.append.2

variable {σ natives}

theorem step_of_codeAt {s : State} (h : CodeAt code s.pc (i :: is)) :
    step σ natives code s = execute σ natives i s := by
  rw [step, h.fetch]

/-! ## One step of each instruction -/

section Steps

variable {pc : Nat} {stk : List Word} {m : Memory} {F : Nat → Bool} {a b v : Word}

theorem step_stop {s : State} (h : Machine.fetch code s.pc = some .stop) :
    step σ natives code s = .ok (.inr s) := by
  rw [step, h]
  rfl

theorem step_load {addr : Nat} (h : CodeAt code pc (.load addr :: is)) :
    step σ natives code ⟨pc, stk, m, F⟩ = .ok (.inl ⟨pc + 1, m addr :: stk, m, F⟩) := by
  rw [step_of_codeAt h]
  rfl

theorem step_store {addr : Nat} (h : CodeAt code pc (.store addr :: is)) :
    step σ natives code ⟨pc, v :: stk, m, F⟩ = .ok (.inl ⟨pc + 1, stk, m.write addr v, F⟩) := by
  rw [step_of_codeAt h]
  rfl

theorem step_loadIndirect {addr n : Nat} (h : CodeAt code pc (.loadIndirect addr n :: is)) :
    step σ natives code ⟨pc, a :: stk, m, F⟩ =
      (cell addr n a >>= fun c => .ok (.inl ⟨pc + 2, m c :: stk, m, F⟩)) := by
  rw [step_of_codeAt h]
  rfl

theorem step_storeIndirect {addr n : Nat} (h : CodeAt code pc (.storeIndirect addr n :: is)) :
    step σ natives code ⟨pc, a :: v :: stk, m, F⟩ =
      (cell addr n a >>= fun c => .ok (.inl ⟨pc + 2, stk, m.write c v, F⟩)) := by
  rw [step_of_codeAt h]
  rfl

theorem step_unary {op : AsebaUnaryOperator} (h : CodeAt code pc (.unaryArithmetic op :: is)) :
    step σ natives code ⟨pc, a :: stk, m, F⟩ = .ok (.inl ⟨pc + 1, unary op a :: stk, m, F⟩) := by
  rw [step_of_codeAt h]
  rfl

theorem step_binary {op : AsebaBinaryOperator} (h : CodeAt code pc (.binaryArithmetic op :: is)) :
    step σ natives code ⟨pc, b :: a :: stk, m, F⟩ =
      (binary σ op a b >>= fun v => .ok (.inl ⟨pc + 1, v :: stk, m, F⟩)) := by
  rw [step_of_codeAt h]
  rfl

theorem step_jump {d : Int} {s : State} (h : CodeAt code s.pc (.jump d :: is)) :
    step σ natives code s = .ok (.inl { s with pc := displaced s.pc d }) := by
  rw [step_of_codeAt h]
  rfl

/-- The state after a branch whose condition answered `c`. -/
def branched (pc : Nat) (edge : Bool) (d : Int) (stk : List Word) (m : Memory) (F : Nat → Bool)
    (c : Bool) : State where
  pc := if c && !(edge && F pc) then pc + 2 else displaced pc d
  stack := stk
  memory := m
  wasTrue := Function.update F pc c

theorem step_branch {op : AsebaBinaryOperator} {edge : Bool} {d : Int}
    (h : CodeAt code pc (.conditionalBranch op edge d :: is)) :
    step σ natives code ⟨pc, b :: a :: stk, m, F⟩ =
      (binary σ op a b >>= fun v => .ok (.inl (branched pc edge d stk m F (decide (v ≠ 0))))) := by
  rw [step_of_codeAt h]
  rfl

end Steps

end ThymioDeviceManager.Machine
