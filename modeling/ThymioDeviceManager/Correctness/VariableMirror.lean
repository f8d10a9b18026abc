import Mathlib.Data.List.TakeWhile
import ThymioDeviceManager.Library.Layout
import ThymioDeviceManager.Manager.Variables

/-! # The mirror follows the memory of the device

The variables of a node, in the order of their addresses, are one flat memory. A
message that starts and ends anywhere in it replaces exactly the words it carries.
-/

namespace ThymioDeviceManager.Correctness

open Compiler Manager Library Layout

/-! ## Layouts -/

/-- The address ranges of a variables map tile `[0, n)`, and none is empty. -/
def TilesMemory (map : Compiler.VariablesMap) (n : Nat) : Prop :=
  Partition (fun e => e.2.1) (fun e => e.2.2) 0 n map

/-- The variables follow each other from `lo` to `hi`. -/
def Laid (lo hi : Nat) (known : List AsebaVmVariable) : Prop :=
  Tiles AsebaVmVariable.start AsebaVmVariable.size lo hi known

/-- A new variable for an entry of the map. -/
def newVariable (e : String × Nat × Nat) : AsebaVmVariable :=
  { name := wStringToUTF8 e.1, start := e.2.1, size := e.2.2 }

def Ascending (known : List AsebaVmVariable) : Prop :=
  known.Pairwise fun v w => v.start < w.start

section Reset

variable {known : List AsebaVmVariable} {e : String × Nat × Nat}

theorem lt_of_mem_dropWhile {start : Nat} (hknown : Ascending known)
    (hnew : ∀ v ∈ known, v.start ≠ start) :
    ∀ v ∈ known.dropWhile fun v => v.start < start, start < v.start := by
  induction known with
  | nil => simp
  | cons w known ih =>
    obtain ⟨hfirst, hknown⟩ := List.pairwise_cons.mp hknown
    obtain ⟨hne, hnew⟩ := List.forall_mem_cons.mp hnew
    by_cases hw : w.start < start
    · rw [List.dropWhile_cons_of_pos (by simpa using hw)]
      exact ih hknown hnew
    · rw [List.dropWhile_cons_of_neg (by simpa using hw)]
      have hlt : start < w.start := by omega
      intro v hv
      cases hv with
      | head => exact hlt
      | tail _ hv => exact hlt.trans (hfirst v hv)

/-- An entry is inserted in the order of the starts. -/
theorem insertVariable_eq (hstart : e.2.1 < 2 ^ 16) (hsize : e.2.2 < 2 ^ 16)
    (hknown : Ascending known) (hnew : ∀ v ∈ known, v.start ≠ e.2.1) :
    ProgramNode.insertVariable known e =
      (known.takeWhile fun v => v.start < e.2.1) ++
        newVariable e :: known.dropWhile fun v => v.start < e.2.1 := by
  have hafter := lt_of_mem_dropWhile hknown hnew
  have hfree : (known.dropWhile fun v => v.start < e.2.1).head?.any (fun v => v.start = e.2.1) =
      false := by
    cases hdrop : known.dropWhile fun v => v.start < e.2.1 with
    | nil => rfl
    | cons w after =>
      rw [hdrop] at hafter
      simpa using (hafter w List.mem_cons_self).ne'
  obtain ⟨name, start, size⟩ := e
  simp only [ProgramNode.insertVariable, hfree, Bool.false_eq_true, if_false, newVariable,
    Nat.mod_eq_of_lt hstart, Nat.mod_eq_of_lt hsize]

theorem insertVariable_perm (hstart : e.2.1 < 2 ^ 16) (hsize : e.2.2 < 2 ^ 16)
    (hknown : Ascending known) (hnew : ∀ v ∈ known, v.start ≠ e.2.1) :
    (ProgramNode.insertVariable known e).Perm (newVariable e :: known) ∧
      Ascending (ProgramNode.insertVariable known e) := by
  rw [insertVariable_eq hstart hsize hknown hnew]
  have hsplit := List.takeWhile_append_dropWhile (p := fun v : AsebaVmVariable => v.start < e.2.1)
    (l := known)
  have hbefore : ∀ v ∈ known.takeWhile (fun v => v.start < e.2.1), v.start < e.2.1 := by
    intro v hv
    simpa using List.mem_takeWhile_imp hv
  have hafter := lt_of_mem_dropWhile hknown hnew
  constructor
  · have hmiddle : ∀ before after : List AsebaVmVariable,
        (before ++ newVariable e :: after).Perm (newVariable e :: (before ++ after)) :=
      fun _ _ => List.perm_middle
    have hmoved := hmiddle (known.takeWhile fun v => v.start < e.2.1)
      (known.dropWhile fun v => v.start < e.2.1)
    rwa [hsplit] at hmoved
  · unfold Ascending at hknown ⊢
    rw [← hsplit, List.pairwise_append] at hknown
    rw [List.pairwise_append, List.pairwise_cons]
    refine ⟨hknown.1, ⟨hafter, hknown.2.1⟩, ?_⟩
    intro v hv w hw
    cases hw with
    | head => exact hbefore v hv
    | tail _ hw => exact (hbefore v hv).trans (hafter w hw)

/-- The loop of `reset_known_variables` on entries that start at different addresses. -/
theorem foldl_insertVariable_perm {map : List (String × Nat × Nat)}
    (hbound : ∀ e ∈ map, e.2.1 < 2 ^ 16 ∧ e.2.2 < 2 ^ 16) :
    ∀ known : List AsebaVmVariable, Ascending known →
      (map.Pairwise fun e e' => e.2.1 ≠ e'.2.1) →
      (∀ v ∈ known, ∀ e ∈ map, v.start ≠ e.2.1) →
      (map.foldl ProgramNode.insertVariable known).Perm (map.map newVariable ++ known) ∧
        Ascending (map.foldl ProgramNode.insertVariable known) := by
  induction map with
  | nil => exact fun known hknown _ _ => ⟨List.Perm.refl _, hknown⟩
  | cons e map ih =>
    intro known hknown hdistinct hnew
    obtain ⟨hfirst, hdistinct⟩ := List.pairwise_cons.mp hdistinct
    obtain ⟨hstart, hsize⟩ := hbound e List.mem_cons_self
    obtain ⟨hperm, hascending⟩ := insertVariable_perm hstart hsize hknown
      fun v hv => hnew v hv e List.mem_cons_self
    obtain ⟨hrest, hlast⟩ := ih (fun e he => hbound e (List.mem_cons_of_mem _ he)) _ hascending
      hdistinct (by
        intro v hv e' he'
        cases List.mem_cons.mp (hperm.mem_iff.mp hv) with
        | inl hv => exact hv ▸ hfirst e' he'
        | inr hv => exact hnew v hv e' (List.mem_cons_of_mem _ he'))
    refine ⟨?_, hlast⟩
    have hmoved : (map.map newVariable ++ newVariable e :: known).Perm
        (newVariable e :: (map.map newVariable ++ known)) := List.perm_middle
    exact hrest.trans ((hperm.append_left _).trans hmoved)

/-- The variables of a map that tiles the memory, in the order of their addresses. -/
theorem laid_resetKnownVariables {κ : Type} (node : ProgramNode κ) {map : Compiler.VariablesMap} {n : Nat}
    (hmap : TilesMemory map n) (hn : n ≤ 65535) :
    Laid 0 n (node.resetKnownVariables map).knownVariables ∧
      ∀ v ∈ (node.resetKnownVariables map).knownVariables, 0 < v.size ∧ v.value = [] := by
  have hbound : ∀ e ∈ map, e.2.1 < 2 ^ 16 ∧ e.2.2 < 2 ^ 16 := by
    intro e he
    have hinside := hmap.inside e he
    omega
  have hdistinct : map.Pairwise fun e e' => e.2.1 ≠ e'.2.1 := by
    refine hmap.disjoint.imp_of_mem ?_
    intro e e' he he' hapart
    have hsize := hmap.nonempty e he
    have hsize' := hmap.nonempty e' he'
    omega
  obtain ⟨hperm, hascending⟩ := foldl_insertVariable_perm hbound [] List.Pairwise.nil hdistinct
    (by simp)
  rw [List.append_nil] at hperm
  have hnew : Partition AsebaVmVariable.start AsebaVmVariable.size 0 n (map.map newVariable) :=
    hmap.map (fun _ => rfl) fun _ => rfl
  refine ⟨(hnew.perm hperm).tiles n.zero_le hascending, ?_⟩
  intro v hv
  obtain ⟨e, he, rfl⟩ := List.mem_map.mp (hperm.mem_iff.mp hv)
  exact ⟨hmap.nonempty e he, rfl⟩

end Reset

/-! ## Flat memory -/

/-- The words of a variable; words that are not known read as zero. -/
def wordsOf (v : AsebaVmVariable) : List Word := resize v.value v.size

/-- The mirror as one array. -/
def flat (known : List AsebaVmVariable) : List Word := known.flatMap wordsOf

theorem length_resize (value : List Word) (size : Nat) : (resize value size).length = size := by
  rw [resize, List.length_append, List.length_take, List.length_replicate]
  omega

theorem length_wordsOf (v : AsebaVmVariable) : (wordsOf v).length = v.size := length_resize _ _

theorem resize_of_length {value : List Word} {size : Nat} (h : value.length = size) :
    resize value size = value := by
  rw [resize, h, Nat.sub_self, List.replicate_zero, List.append_nil, List.take_of_length_le h.le]

theorem length_flat {lo hi : Nat} {known : List AsebaVmVariable} (h : Laid lo hi known) :
    lo + (flat known).length = hi := by
  rw [Tiles.hi_eq h, total, flat, List.length_flatMap]
  simp only [length_wordsOf]

/-! ## One variable -/

/-- What a message does not change of a variable. -/
def slot (v : AsebaVmVariable) : List UInt8 × Nat × Nat := (v.name, v.start, v.size)

section Variable

variable {v : AsebaVmVariable} {varStart : Nat}

theorem setVariable_fst (hstart : varStart ≤ v.size) (data : List Word) (u : VariableChanges) :
    (setVariable v varStart data u).1 =
      { v with value := overwrite (wordsOf v) varStart (data.take (countFor v varStart data)) } := by
  have hcount : (data.take (countFor v varStart data)).length = countFor v varStart data := by
    rw [List.length_take, countFor]
    omega
  unfold setVariable
  dsimp only
  split_ifs with hchange
  · simp only [overwrite, hcount, wordsOf, List.append_assoc]
  · simp only [Bool.or_eq_true, bne_iff_ne, ne_eq, not_or, not_not] at hchange
    have hsplit := List.take_append_drop (countFor v varStart data) ((wordsOf v).drop varStart)
    rw [List.drop_drop] at hsplit
    have hequal : ((wordsOf v).drop varStart).take (countFor v varStart data) =
        data.take (countFor v varStart data) := hchange.2
    have hsame : overwrite (wordsOf v) varStart (data.take (countFor v varStart data)) =
        wordsOf v := by
      rw [overwrite, hcount, ← hequal, List.append_assoc, hsplit, List.take_append_drop]
    rw [hsame, wordsOf]

theorem length_setVariable (hstart : varStart ≤ v.size) (data : List Word) (u : VariableChanges) :
    (setVariable v varStart data u).1.value.length = v.size := by
  rw [setVariable_fst hstart]
  have hfit : varStart + (data.take (countFor v varStart data)).length ≤ (wordsOf v).length := by
    rw [List.length_take, countFor, length_wordsOf]
    omega
  exact (length_overwrite hfit).trans (length_wordsOf v)

theorem slot_setVariable (hstart : varStart ≤ v.size) (data : List Word) (u : VariableChanges) :
    slot (setVariable v varStart data u).1 = slot v := by
  rw [setVariable_fst hstart]
  rfl

theorem wordsOf_setVariable (hstart : varStart ≤ v.size) (data : List Word)
    (u : VariableChanges) :
    wordsOf (setVariable v varStart data u).1 =
      overwrite (wordsOf v) varStart (data.take (countFor v varStart data)) := by
  have hlength := length_setVariable hstart data u
  rw [setVariable_fst hstart] at hlength ⊢
  exact resize_of_length hlength

end Variable

/-! ## All variables -/

section Variables

variable {known : List AsebaVmVariable}

theorem map_slot_setVariables (start : UInt16) (data : List Word) (u : VariableChanges) :
    (setVariables start data known u).1.map slot = known.map slot := by
  induction known generalizing start data u with
  | nil => rfl
  | cons v known ih =>
    unfold setVariables
    split_ifs with hdata hfound
    · rfl
    · have hoffset : start.toNat - v.start ≤ v.size := by omega
      have hslot := slot_setVariable hoffset data u
      rw [List.map_cons, List.map_cons, ih, hslot]
    · rw [List.map_cons, List.map_cons, ih]

theorem map_slot_setAreas (areas : List Protocol.Area) (u : VariableChanges) :
    (MirrorNode.setAreas known u areas).1.map slot = known.map slot := by
  induction areas generalizing known u with
  | nil => rfl
  | cons area areas ih => exact (ih _).trans (map_slot_setVariables _ _ _)

/-- A message changes neither the places of the variables nor their sizes. -/
theorem laid_of_map_slot {lo hi : Nat} {known known' : List AsebaVmVariable}
    (h : known'.map slot = known.map slot) (hlaid : Laid lo hi known) : Laid lo hi known' := by
  induction known' generalizing known lo with
  | nil =>
    cases known with
    | nil => exact hlaid
    | cons w known => cases h
  | cons v known' ih =>
    cases known with
    | nil => cases h
    | cons w known =>
      obtain ⟨hslot, hrest⟩ := List.cons.inj h
      simp only [slot, Prod.mk.injEq] at hslot
      refine ⟨hslot.2.1.trans hlaid.1, ?_⟩
      rw [hslot.2.2]
      exact ih hrest hlaid.2

theorem setVariables_nil (start : UInt16) (known : List AsebaVmVariable) (u : VariableChanges) :
    setVariables start [] known u = (known, u) := by
  cases known with
  | nil => rfl
  | cons v known => rw [setVariables, if_pos rfl]

/-- The loop writes the data at its place, when all of it is inside the variables. -/
theorem flat_setVariables {lo hi : Nat} (hlaid : Laid lo hi known) (hhi : hi < 2 ^ 16)
    {start : UInt16} {data : List Word} (hlo : lo ≤ start.toNat)
    (hfit : start.toNat + data.length ≤ hi) (u : VariableChanges) :
    flat (setVariables start data known u).1 = overwrite (flat known) (start.toNat - lo) data := by
  induction known generalizing lo start data u with
  | nil =>
    have hempty : data = [] := by
      have hlo : lo = hi := hlaid
      rw [← List.length_eq_zero_iff]
      omega
    rw [hempty, overwrite_nil]
    rfl
  | cons v known ih =>
    obtain ⟨hstart, hrest⟩ := hlaid
    have hlength : (wordsOf v).length = v.size := length_wordsOf v
    have hflat : flat (v :: known) = wordsOf v ++ flat known := rfl
    rw [setVariables, hflat]
    by_cases hdata : data = []
    · rw [if_pos hdata, hdata, overwrite_nil, hflat]
    rw [if_neg hdata]
    by_cases hfound : v.start ≤ start.toNat ∧ start.toNat < v.start + v.size
    · -- the data starts in this variable, and what does not fit goes on in the next one
      rw [if_pos hfound, hstart]
      have hoffset : start.toNat - lo ≤ v.size := by omega
      have hcount : countFor v (start.toNat - lo) data =
          min (v.size - (start.toNat - lo)) data.length := rfl
      have hnext : (start + UInt16.ofNat (countFor v (start.toNat - lo) data)).toNat =
          start.toNat + countFor v (start.toNat - lo) data := by
        rw [UInt16.toNat_add, UInt16.toNat_ofNat']
        omega
      change wordsOf (setVariable v _ data u).1 ++ flat (setVariables _ _ known _).1 = _
      rw [wordsOf_setVariable hoffset, overwrite_append_left _ _ _ (by omega), hlength]
      by_cases hshort : data.length ≤ v.size - (start.toNat - lo)
      · rw [hcount, Nat.min_eq_right hshort, List.take_of_length_le (Nat.le_refl _),
          List.take_of_length_le hshort, List.drop_of_length_le (Nat.le_refl _),
          List.drop_of_length_le hshort, setVariables_nil, overwrite_nil]
      · have hfull : countFor v (start.toNat - lo) data = v.size - (start.toNat - lo) := by omega
        have hlater : lo + v.size ≤ (start + UInt16.ofNat (v.size - (start.toNat - lo))).toNat := by
          rw [hfull] at hnext
          omega
        rw [hfull] at hnext ⊢
        rw [ih hrest hlater (by rw [List.length_drop]; omega)]
        congr 2
        omega
    · -- the data is behind this variable
      rw [if_neg hfound]
      have hbehind : lo + v.size ≤ start.toNat := by omega
      change wordsOf v ++ flat (setVariables start data known u).1 = _
      rw [ih hrest hbehind hfit, overwrite_append_right _ _ _ (by omega), hlength]
      congr 2
      omega

end Variables

/-! ## Every message -/

section Messages

variable {κ : Type}

theorem laid_afterMessages {lo hi : Nat} (messages : List (List Protocol.Area))
    {m : MirrorNode κ} (h : Laid lo hi m.node.knownVariables) :
    Laid lo hi (m.afterMessages messages).node.knownVariables := by
  induction messages generalizing m with
  | nil => exact h
  | cons areas messages ih => exact ih (laid_of_map_slot (map_slot_setAreas areas _) h)

/-- Whatever came before, data inside the memory replaces the words at its place and no other. -/
theorem setVariables_follows_memory (m : MirrorNode κ) {map : Compiler.VariablesMap} {n : Nat}
    (hmap : TilesMemory map n) (hn : n ≤ 65535) (messages : List (List Protocol.Area))
    {start : UInt16} {data : List Word} (hfit : start.toNat + data.length ≤ n)
    (u : VariableChanges) :
    let known := ((m.resetKnownVariables map).afterMessages messages).node.knownVariables
    flat (setVariables start data known u).1 = overwrite (flat known) start.toNat data ∧
      ∀ i, i < start.toNat ∨ start.toNat + data.length ≤ i →
        (flat (setVariables start data known u).1)[i]? = (flat known)[i]? := by
  intro known
  have hlaid : Laid 0 n known :=
    laid_afterMessages messages (laid_resetKnownVariables m.node hmap hn).1
  have hflat := flat_setVariables hlaid (by omega) start.toNat.zero_le hfit u
  rw [Nat.sub_zero] at hflat
  refine ⟨hflat, fun i hi => ?_⟩
  have hlength := length_flat hlaid
  rw [hflat, getElem?_overwrite (by omega), if_neg (by omega)]

end Messages

/-- Two variables, the second one before the first in the order of names. -/
def scalarAndPair : Compiler.VariablesMap := [("a", 2, 1), ("b", 0, 2)]

theorem tilesMemory_scalarAndPair : TilesMemory scalarAndPair 3 where
  nonempty := by decide
  inside := by decide
  disjoint := by decide
  covered := by
    intro a _ ha
    have hcases : a < 2 ∨ a = 2 := by omega
    cases hcases with
    | inl h => exact ⟨("b", 0, 2), by decide, a.zero_le, by simpa using h⟩
    | inr h => exact ⟨("a", 2, 1), by decide, h.ge, by simp [h]⟩

/-- A node that knows nothing yet. -/
def newNode : MirrorNode Unit where
  node := {
    id := 1
    name := "node"
    protocolVersion := 8
    description := ⟨1000, 1000, 32, [], [], []⟩
    endpoint := none }

/-- Data that starts in the middle of `b` and ends in `a`, after a message about `b`. -/
theorem twoVariables_follow :
    flat (setVariables 1 [8, 9] ((newNode.resetKnownVariables scalarAndPair).afterMessages
      [[⟨0, [5, 6]⟩]]).node.knownVariables {}).1 = [5, 8, 9] := by
  have hfit : (1 : UInt16).toNat + ([8, 9] : List Word).length ≤ 3 := by decide
  have h := (setVariables_follows_memory newNode tilesMemory_scalarAndPair (by decide)
    [[⟨0, [5, 6]⟩]] hfit {}).1
  rw [h]
  decide

end ThymioDeviceManager.Correctness
