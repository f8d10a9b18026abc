import ThymioDeviceManager.Correctness.VariableMirror

/-! # Polling covers the memory

When a full refresh is due, the requests of `request_variables` are consecutive
ranges of whole variables that cover the memory.
-/

namespace ThymioDeviceManager.Correctness

open Compiler Manager Library Layout

/-- The request for a range of words. -/
def rangeMessage (dest : UInt16) (range : Nat × Nat) : OutMessage :=
  .getVariables { dest, start := .ofNat range.1, length := .ofNat range.2 }

/-- A range of whole variables among `known`, of at most 256 words unless it is a single one. -/
def OfWholeVariables (known : List AsebaVmVariable) (range : Nat × Nat) : Prop :=
  ∃ group, group <:+: known ∧ Laid range.1 (range.1 + range.2) group ∧
    (range.2 ≤ maxEventArgCount - 2 ∨ ∃ v, group = [v])

section Polling

variable {known all : List AsebaVmVariable} {dest : UInt16}

theorem laid_append {lo middle hi : Nat} {group rest : List AsebaVmVariable}
    (h : Laid lo middle group) (h' : Laid middle hi rest) : Laid lo hi (group ++ rest) := by
  induction group generalizing lo with
  | nil =>
    have hmiddle : lo = middle := h
    exact hmiddle ▸ h'
  | cons v group ih => exact ⟨h.1, ih h.2⟩

/-- The loop, with the variables of the pending request in `group`. -/
theorem getVariablesMessages_covers {hi : Nat} (hhi : hi < 2 ^ 16) (group : List AsebaVmVariable)
    {start size : UInt16} (hgroup : Laid start.toNat (start.toNat + size.toNat) group)
    (hpending : size.toNat ≤ maxEventArgCount - 2 ∨ ∃ v, group = [v])
    (hknown : Laid (start.toNat + size.toNat) hi known) (hpart : group ++ known <:+: all) :
    ∃ ranges : List (Nat × Nat),
      ProgramNode.getVariablesMessages dest start size known = ranges.map (rangeMessage dest) ∧
        Tiles Prod.fst Prod.snd start.toNat hi ranges ∧
        ∀ range ∈ ranges, OfWholeVariables all range := by
  induction known generalizing start size group with
  | nil =>
    have hend : start.toNat + size.toNat = hi := hknown
    have hgroupInfix : group <:+: all := by simpa using hpart
    by_cases hsome : 0 < size
    · refine ⟨[(start.toNat, size.toNat)], ?_, ⟨rfl, hend⟩, ?_⟩
      · simp [ProgramNode.getVariablesMessages, hsome, rangeMessage]
      · simpa using ⟨group, hgroupInfix, hgroup, hpending⟩
    · refine ⟨[], by simp [ProgramNode.getVariablesMessages, hsome], ?_, by simp⟩
      rw [UInt16.lt_iff_toNat_lt, UInt16.toNat_zero] at hsome
      change start.toNat = hi
      omega
  | cons v known ih =>
    obtain ⟨hstart, hrest⟩ := hknown
    have hbound := Tiles.hi_eq hrest
    have hsize : (UInt16.ofNat v.size).toNat = v.size := by
      rw [UInt16.toNat_ofNat']
      omega
    have hnext : (start + size).toNat = start.toNat + size.toNat := by
      rw [UInt16.toNat_add]
      omega
    rw [ProgramNode.getVariablesMessages]
    by_cases hcut : size.toNat + v.size > maxEventArgCount - 2
    · -- the pending request is sent, and `v` is the first variable of the next one
      have hzero : (0 + UInt16.ofNat v.size).toNat = v.size := by rw [UInt16.zero_add, hsize]
      obtain ⟨ranges, hmessages, htiles, hwhole⟩ := @ih [v] (start + size)
        (0 + UInt16.ofNat v.size) ⟨hstart.trans hnext.symm, by rw [hzero]; rfl⟩
        (.inr ⟨v, rfl⟩) (by rw [hnext, hzero]; exact hrest)
        ((List.suffix_append group (v :: known)).isInfix.trans hpart)
      refine ⟨(start.toNat, size.toNat) :: ranges, ?_, ⟨rfl, hnext ▸ htiles⟩, ?_⟩
      · rw [if_pos hcut, hmessages]
        simp [rangeMessage]
      · rintro range hrange
        cases hrange with
        | head =>
          exact ⟨group, (List.prefix_append group (v :: known)).isInfix.trans hpart, hgroup,
            hpending⟩
        | tail _ hrange => exact hwhole range hrange
    · -- `v` joins the pending request
      have hsum : (size + UInt16.ofNat v.size).toNat = size.toNat + v.size := by
        rw [UInt16.toNat_add, hsize]
        omega
      rw [if_neg hcut]
      refine @ih (group ++ [v]) start (size + UInt16.ofNat v.size) ?_ (.inl ?_) ?_ ?_
      · rw [hsum]
        exact laid_append hgroup ⟨hstart, Nat.add_assoc _ _ _⟩
      · rw [hsum]
        exact Nat.not_lt.mp hcut
      · rw [hsum, ← Nat.add_assoc]
        exact hrest
      · rwa [List.append_assoc]

/-- The requests of a full refresh are, in order, ranges that follow each other from the first
word of the memory to its end. -/
theorem requestVariables_covers {κ : Type} {node : ProgramNode κ} {n : Nat}
    (hknown : Laid 0 n node.knownVariables) (hn : n ≤ 65535)
    (hfull : node.resendAllVariables = true ∨ node.protocolVersion < 100) :
    ∃ ranges : List (Nat × Nat),
      node.requestVariables.2 = ranges.map (rangeMessage node.dest) ∧
        Tiles Prod.fst Prod.snd 0 n ranges ∧
        ∀ range ∈ ranges, OfWholeVariables node.knownVariables range := by
  have hbranch : (!node.resendAllVariables && decide (node.protocolVersion ≥ 100)) = false := by
    cases hfull with
    | inl h => simp [h]
    | inr h => simp [h]
  rw [ProgramNode.requestVariables, hbranch]
  exact getVariablesMessages_covers (by omega) [] rfl (.inl (Nat.zero_le _)) hknown
    (List.infix_refl _)

end Polling

/-- A node with a variable that is larger than a request between two small ones. -/
def arrayNode : ProgramNode Unit :=
  newNode.node.resetKnownVariables [("array", 2, 300), ("id", 0, 2), ("last", 302, 1)]

theorem knownVariables_arrayNode : arrayNode.knownVariables =
    [newVariable ("id", 0, 2), newVariable ("array", 2, 300), newVariable ("last", 302, 1)] := by
  decide +kernel

/-- Three requests: the small variables do not fit beside the large one. -/
theorem arrayNode_covered :
    ∃ ranges : List (Nat × Nat),
      arrayNode.requestVariables.2 = ranges.map (rangeMessage 1) ∧
        Tiles Prod.fst Prod.snd 0 303 ranges ∧
        ∀ range ∈ ranges, OfWholeVariables arrayNode.knownVariables range := by
  refine @requestVariables_covers _ arrayNode 303 ?_ (by decide) (.inl rfl)
  rw [knownVariables_arrayNode]
  simp [Laid, Tiles, newVariable]

example : arrayNode.requestVariables.2 = [(0, 2), (2, 300), (302, 1)].map (rangeMessage 1) := by
  decide +kernel

end ThymioDeviceManager.Correctness
