import ThymioDeviceManager.Machine.Execution

/-! # Runs that are observed

The machine hands the events that a program emits to its surroundings and keeps
nothing of them. An observed run collects them: each `EMIT` adds the identifier
and the words it sends, every other instruction adds nothing. The stack of a
target has a fixed size; what a target does when it is exceeded is unknown, so
here such a step makes the machine stuck.
-/

namespace ThymioDeviceManager.Machine

open Compiler Library

/-- An event sent by a program. -/
structure SentEvent where
  id : Nat
  words : List Word
  deriving DecidableEq, Repr

/-- The words of an event. -/
def eventWords (m : Memory) (addr size : Nat) : List Word := (List.range size).map fun i => m (addr + i)

/-- The machine, and the events sent so far. -/
structure Observed where
  state : State
  emitted : List SentEvent

/-- The machine before the first event. -/
def Observed.initial (m : Memory) : Observed := ⟨⟨0, [], m, fun _ => false⟩, []⟩

/-- What an instruction sends. -/
def Instruction.emission (m : Memory) : Instruction → List SentEvent
  | .emit id addr size => [⟨id, eventWords m addr size⟩]
  | _ => []

/-- What the next step sends. -/
def sent (code : List Word) (s : State) : List SentEvent :=
  (fetch code s.pc).elim [] fun i => i.emission s.memory

variable (σ : WideShifts) (natives : Natives) (code : List Word) (stackSize : Nat)

/-- One step on a stack of `stackSize` words. -/
def observedStep (x : Observed) : Run (Observed ⊕ Observed) := do
  match ← step σ natives code x.state with
  | .inl s =>
    if s.stack.length ≤ stackSize then pure (.inl ⟨s, x.emitted ++ sent code x.state⟩)
    else .throw .stuck
  | .inr s => pure (.inr ⟨s, x.emitted⟩)

/-- At most `fuel` steps, to the state in which the machine halts. -/
def observe (fuel : Nat) (x : Observed) : Run Observed :=
  iterate .outOfFuel (observedStep σ natives code stackSize) fuel x

/-- An event that reaches the machine, with what its surroundings do to the variables before the
handler runs. -/
structure Arrival where
  id : Nat
  input : Memory → Memory

/-- Where the handler of an event starts: the table at the head of the code is searched from its
first entry on. -/
def handlerAddress (code : List Word) (id : Nat) : Option Nat :=
  match code with
  | [] => none
  | size :: rest => OrderedMap.find? ((eventEntries 1 size.toNat rest).map Prod.swap) id

/-- Events served one after the other: each handler starts with an empty stack, and an event without
a handler is dropped. -/
def serveEvents (entry : Nat → Option Nat) (fuel : Nat) : List Arrival → Observed → Run Observed
  | [], x => pure x
  | a :: rest, x => do
    let m := a.input x.state.memory
    let y ← match entry a.id with
      | some addr => observe σ natives code stackSize fuel ⟨⟨addr, [], m, x.state.wasTrue⟩, x.emitted⟩
      | none => pure ⟨{ x.state with memory := m }, x.emitted⟩
    serveEvents entry fuel rest y

variable {σ natives code stackSize}

theorem CodeAt.lt_length {base : Nat} {i : Instruction} {is : List Instruction}
    (h : CodeAt code base (i :: is)) : base < code.length := by
  have hle := h.2.length_le
  have hpos := i.size_pos
  rw [length_assemble, codeSize_cons, List.length_drop] at hle
  omega

theorem sent_of_codeAt {s : State} {i : Instruction} {is : List Instruction}
    (h : CodeAt code s.pc (i :: is)) : sent code s = i.emission s.memory := by
  rw [sent, h.fetch]
  rfl

/-- A step of an instruction that sends nothing. -/
theorem observedStep_quiet {s s' : State} {l : List SentEvent}
    (hstep : step σ natives code s = .ok (.inl s')) (hsent : sent code s = [])
    (hroom : s'.stack.length ≤ stackSize) :
    observedStep σ natives code stackSize ⟨s, l⟩ = .ok (.inl ⟨s', l⟩) := by
  rw [observedStep, hstep]
  simp [hsent, hroom]

/-! ## Steps out of the straight line -/

section Steps

variable {pc : Nat} {stk : List Word} {m : Memory} {F : Nat → Bool} {is : List Instruction}

theorem execute_nativeCall {id : Nat} {taken : List Word} (harity : natives.arity id = taken.length) :
    execute σ natives (.nativeCall id) ⟨pc, taken ++ stk, m, F⟩ =
      .ok (.inl ⟨pc + 1, stk, natives.effect id taken m, F⟩) := by
  have hle : natives.arity id ≤ (taken ++ stk).length := by
    rw [harity, List.length_append]
    exact Nat.le_add_right _ _
  have hexecute : execute σ natives (.nativeCall id) ⟨pc, taken ++ stk, m, F⟩ =
      if natives.arity id ≤ (taken ++ stk).length then
        .ok (.inl ⟨pc + 1, (taken ++ stk).drop (natives.arity id),
          natives.effect id ((taken ++ stk).take (natives.arity id)) m, F⟩)
      else .throw .stuck := by
    cases taken ++ stk <;> rfl
  rw [hexecute, if_pos hle, harity, List.drop_left, List.take_left]

theorem step_nativeCall {id : Nat} {taken : List Word} (h : CodeAt code pc (.nativeCall id :: is))
    (harity : natives.arity id = taken.length) :
    step σ natives code ⟨pc, taken ++ stk, m, F⟩ =
      .ok (.inl ⟨pc + 1, stk, natives.effect id taken m, F⟩) := by
  rw [step_of_codeAt h, execute_nativeCall harity]

theorem step_subCall {addr : Nat} (h : CodeAt code pc (.subCall addr :: is)) :
    step σ natives code ⟨pc, stk, m, F⟩ =
      .ok (.inl ⟨addr, BitVec.ofNat 16 (pc + 1) :: stk, m, F⟩) := by
  rw [step_of_codeAt h]
  rfl

theorem step_subRet {r : Word} (h : CodeAt code pc (.subRet :: is)) :
    step σ natives code ⟨pc, r :: stk, m, F⟩ = .ok (.inl ⟨r.toNat, stk, m, F⟩) := by
  rw [step_of_codeAt h]
  rfl

theorem step_emit {id addr size : Nat} (h : CodeAt code pc (.emit id addr size :: is)) :
    step σ natives code ⟨pc, stk, m, F⟩ = .ok (.inl ⟨pc + 3, stk, m, F⟩) := by
  rw [step_of_codeAt h]
  rfl

end Steps

end ThymioDeviceManager.Machine
