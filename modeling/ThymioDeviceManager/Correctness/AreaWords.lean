import ThymioDeviceManager.Correctness.ChangeNotifications

/-! # The words that the areas of a message write

A message seen from the memory: each area gives words to some addresses, and an address
has in the end the word that it was given last. In the variables of a node, which tile
the memory, `set_variables` does nothing else.
-/

namespace ThymioDeviceManager.Correctness

open Compiler Manager Library Layout

/-! ## Words at addresses -/

/-- The word that data from `start` on has for an address. -/
def wordAt (start : Nat) (data : List Word) (a : Nat) : Option Word :=
  if start ≤ a then data[a - start]? else none

def areaWord (area : Protocol.Area) : Nat → Option Word :=
  wordAt area.start.toNat (area.values.map Int16.toBitVec)

/-- The word that the areas write last at an address. -/
def lastWord : List Protocol.Area → Nat → Option Word
  | [], _ => none
  | area :: areas, a => (lastWord areas a).or (areaWord area a)

def InVariable (v : AsebaVmVariable) (a : Nat) : Prop := v.start ≤ a ∧ a < v.start + v.size

/-- Whatever is written to the variable is known to be there. -/
def Leaves (w : Nat → Option Word) (v : AsebaVmVariable) : Prop :=
  ∀ a, InVariable v a → ∀ word, w a = some word →
    v.value.length = v.size ∧ v.value[a - v.start]? = some word

/-- The words of the variable once these are written; one that is not known counts as 0. -/
def wordsAfter (w : Nat → Option Word) (v : AsebaVmVariable) : List Word :=
  (List.range v.size).map fun i => (w (v.start + i)).getD ((wordsOf v)[i]?.getD 0)

/-- The first area that writes to a variable of this name what is not known to be there leaves these
words in it. -/
def FirstWrite (known : List AsebaVmVariable) (areas : List Protocol.Area) (name : List UInt8)
    (words : List Word) : Prop :=
  ∃ before area after front v rest, areas = before ++ area :: after ∧ known = front ++ v :: rest ∧
    (∀ b ∈ before, ∀ u ∈ known, u.name = name → Leaves (areaWord b) u) ∧
    (∀ u ∈ front, u.name = name → Leaves (areaWord area) u) ∧
    v.name = name ∧ ¬ Leaves (areaWord area) v ∧ words = wordsAfter (areaWord area) v

/-- What the message writes last to the variables of a name is what it has written first there. -/
def FirstWordsLast (known : List AsebaVmVariable) (areas : List Protocol.Area) : Prop :=
  ∀ name words, FirstWrite known areas name words → ∀ u ∈ known, u.name = name →
    (∃ b ∈ areas, ¬ Leaves (areaWord b) u) → wordsAfter (lastWord areas) u = words

/-! ## One variable -/

section Variable

variable {w w' : Nat → Option Word} {v : AsebaVmVariable}

theorem length_wordsAfter (w : Nat → Option Word) (v : AsebaVmVariable) :
    (wordsAfter w v).length = v.size := by
  simp [wordsAfter]

theorem getElem?_wordsAfter {i : Nat} (hi : i < v.size) :
    (wordsAfter w v)[i]? = some ((w (v.start + i)).getD ((wordsOf v)[i]?.getD 0)) := by
  simp [wordsAfter, hi]

theorem wordsAfter_congr (h : ∀ a, InVariable v a → w a = w' a) : wordsAfter w v = wordsAfter w' v := by
  apply List.map_congr_left
  intro i hi
  have hlt := List.mem_range.mp hi
  rw [h (v.start + i) ⟨by omega, by omega⟩]

theorem leaves_congr (h : ∀ a, InVariable v a → w a = w' a) : Leaves w v ↔ Leaves w' v := by
  constructor
  · intro hleaves a ha word hword
    exact hleaves a ha word (by rw [h a ha, hword])
  · intro hleaves a ha word hword
    exact hleaves a ha word (by rw [← h a ha, hword])

theorem wordsOf_of_length (h : v.value.length = v.size) : wordsOf v = v.value := resize_of_length h

/-- Words that are there already. -/
theorem wordsAfter_of_leaves (h : Leaves w v) : wordsAfter w v = wordsOf v := by
  apply List.ext_getElem?
  intro i
  by_cases hi : i < v.size
  · have hsome : (wordsOf v)[i]? = some ((wordsOf v)[i]?.getD 0) := by
      have hlt : i < (wordsOf v).length := by rwa [length_wordsOf]
      simp [List.getElem?_eq_getElem hlt]
    rw [getElem?_wordsAfter hi]
    cases hword : w (v.start + i) with
    | none => exact hsome.symm
    | some word =>
      obtain ⟨hlength, hvalue⟩ := h (v.start + i) ⟨by omega, by omega⟩ word hword
      rw [Nat.add_sub_cancel_left] at hvalue
      rw [wordsOf_of_length hlength, hvalue]
      rfl
  · rw [List.getElem?_eq_none (by rw [length_wordsAfter]; omega),
      List.getElem?_eq_none (by rw [length_wordsOf]; omega)]

/-- Two writes, one after the other. -/
theorem wordsAfter_or (w w' : Nat → Option Word) (v : AsebaVmVariable) :
    wordsAfter (fun a => (w a).or (w' a)) v = wordsAfter w { v with value := wordsAfter w' v } := by
  have hwords : wordsOf { v with value := wordsAfter w' v } = wordsAfter w' v :=
    wordsOf_of_length (length_wordsAfter w' v)
  apply List.map_congr_left
  intro i hi
  have hlt := List.mem_range.mp hi
  rw [hwords, getElem?_wordsAfter hlt]
  cases hword : w (v.start + i) <;> simp [hword]

theorem wordsAfter_of_wordsOf {u : AsebaVmVariable} (hsize : u.size = v.size)
    (hstart : u.start = v.start) (h : wordsOf u = wordsOf v) : wordsAfter w u = wordsAfter w v := by
  rw [wordsAfter, wordsAfter, hsize, hstart, h]

/-- A write that is not known to change nothing gives the variable another value. -/
theorem wordsAfter_ne (h : ¬ Leaves w v) : wordsAfter w v ≠ v.value := by
  intro heq
  apply h
  intro a ha word hword
  have hlength : v.value.length = v.size := by rw [← heq, length_wordsAfter]
  refine ⟨hlength, ?_⟩
  obtain ⟨hlo, hhi⟩ := ha
  rw [← heq, getElem?_wordsAfter (by omega), Nat.add_sub_cancel' hlo, hword]
  rfl

open Classical in
/-- The variable after a write. -/
noncomputable def afterWrite (w : Nat → Option Word) (v : AsebaVmVariable) : AsebaVmVariable :=
  if Leaves w v then v else { v with value := wordsAfter w v }

theorem afterWrite_of_leaves (h : Leaves w v) : afterWrite w v = v := if_pos h

theorem afterWrite_of_not_leaves (h : ¬ Leaves w v) :
    afterWrite w v = { v with value := wordsAfter w v } := if_neg h

theorem slot_afterWrite (w : Nat → Option Word) (v : AsebaVmVariable) :
    slot (afterWrite w v) = slot v := by
  by_cases h : Leaves w v
  · rw [afterWrite_of_leaves h]
  · rw [afterWrite_of_not_leaves h]
    rfl

theorem afterWrite_congr (h : ∀ a, InVariable v a → w a = w' a) : afterWrite w v = afterWrite w' v := by
  by_cases hleaves : Leaves w v
  · rw [afterWrite_of_leaves hleaves, afterWrite_of_leaves ((leaves_congr h).mp hleaves)]
  · rw [afterWrite_of_not_leaves hleaves,
      afterWrite_of_not_leaves fun h' => hleaves ((leaves_congr h).mpr h'), wordsAfter_congr h]

theorem afterWrite_of_none (h : ∀ a, InVariable v a → w a = none) : afterWrite w v = v := by
  apply afterWrite_of_leaves
  intro a ha word hword
  rw [h a ha] at hword
  cases hword

theorem value_afterWrite_eq_iff : v.value = (afterWrite w v).value ↔ Leaves w v := by
  by_cases h : Leaves w v
  · rw [afterWrite_of_leaves h]
    exact iff_of_true rfl h
  · rw [afterWrite_of_not_leaves h]
    exact iff_of_false (fun heq => wordsAfter_ne h heq.symm) h

theorem wordsOf_afterWrite (w : Nat → Option Word) (v : AsebaVmVariable) :
    wordsOf (afterWrite w v) = wordsAfter w v := by
  by_cases h : Leaves w v
  · rw [afterWrite_of_leaves h, wordsAfter_of_leaves h]
  · rw [afterWrite_of_not_leaves h]
    exact wordsOf_of_length (length_wordsAfter w v)

/-- A write to the variable that reaches it: the words are overwritten, all of them are known. -/
theorem afterWrite_of_some {a : Nat} {word : Word} (ha : InVariable v a) (hword : w a = some word) :
    afterWrite w v = { v with value := wordsAfter w v } := by
  by_cases h : Leaves w v
  · rw [afterWrite_of_leaves h, wordsAfter_of_leaves h, wordsOf_of_length (h a ha word hword).1]
  · exact afterWrite_of_not_leaves h

end Variable

/-! ## One area -/

section Area

variable {known : List AsebaVmVariable} {lo hi : Nat}

theorem wordAt_eq_none_of_lt {start a : Nat} (data : List Word) (h : a < start) :
    wordAt start data a = none := if_neg (by omega)

theorem wordAt_eq_none_of_le {start a : Nat} {data : List Word} (h : start + data.length ≤ a) :
    wordAt start data a = none := by
  rw [wordAt, if_pos (by omega), List.getElem?_eq_none (by omega)]

/-- The rest of the data, for the addresses that it has. -/
theorem wordAt_drop {start count : Nat} {data : List Word} {a : Nat} (ha : start + count ≤ a) :
    wordAt (start + count) (data.drop count) a = wordAt start data a := by
  have hle : start ≤ a := by omega
  rw [wordAt, wordAt, if_pos ha, if_pos hle, List.getElem?_drop]
  congr 1
  omega

/-- The words of a variable in which the data starts. -/
theorem overwrite_wordsOf {v : AsebaVmVariable} {start : Nat} (data : List Word)
    (h : InVariable v start) :
    overwrite (wordsOf v) (start - v.start) (data.take (countFor v (start - v.start) data)) =
      wordsAfter (wordAt start data) v := by
  obtain ⟨hlo, hhi⟩ := h
  have hcount : countFor v (start - v.start) data = min (v.size - (start - v.start)) data.length := rfl
  have htake : (data.take (countFor v (start - v.start) data)).length =
      countFor v (start - v.start) data := by
    rw [List.length_take]
    omega
  have hfit : start - v.start + (data.take (countFor v (start - v.start) data)).length ≤
      (wordsOf v).length := by
    rw [htake, length_wordsOf]
    omega
  apply List.ext_getElem?
  intro i
  rw [getElem?_overwrite hfit, htake]
  by_cases hi : i < v.size
  · have hold : (wordsOf v)[i]? = some ((wordsOf v)[i]?.getD 0) := by
      have hlt : i < (wordsOf v).length := by rwa [length_wordsOf]
      simp [List.getElem?_eq_getElem hlt]
    rw [getElem?_wordsAfter hi]
    split_ifs with hinside
    · have hindex : v.start + i - start = i - (start - v.start) := by omega
      have hlt : i - (start - v.start) < data.length := by omega
      have hle : start ≤ v.start + i := by omega
      rw [List.getElem?_take, if_pos (by omega), wordAt, if_pos hle, hindex,
        List.getElem?_eq_getElem hlt]
      rfl
    · have hnone : wordAt start data (v.start + i) = none := by
        unfold wordAt
        split_ifs with hle
        · rw [List.getElem?_eq_none]
          omega
        · rfl
      rw [hnone, hold]
      rfl
  · rw [if_neg (by omega), List.getElem?_eq_none (by rw [length_wordsOf]; omega),
      List.getElem?_eq_none (by rw [length_wordsAfter]; omega)]

/-- `set_variables` writes to each variable the words that the data has for it, and nothing else. -/
theorem setVariables_eq (hlaid : Laid lo hi known) (hhi : hi < 2 ^ 16) {start : UInt16}
    {data : List Word} (hlo : lo ≤ start.toNat) (u : VariableChanges) :
    (setVariables start data known u).1 = known.map (afterWrite (wordAt start.toNat data)) := by
  induction known generalizing lo start data u with
  | nil => rfl
  | cons v known ih =>
    obtain ⟨hstart, hrest⟩ := hlaid
    have hend := Tiles.hi_eq hrest
    by_cases hdata : data = []
    · have hsame : ∀ x ∈ v :: known, afterWrite (wordAt start.toNat data) x = id x := by
        intro x hx
        apply afterWrite_of_none
        intro a ha
        simp [hdata, wordAt]
      rw [List.map_congr_left hsame, List.map_id, hdata, setVariables_nil]
    rw [setVariables, if_neg hdata, List.map_cons]
    by_cases hfound : v.start ≤ start.toNat ∧ start.toNat < v.start + v.size
    · rw [if_pos hfound]
      have hoffset : start.toNat - v.start ≤ v.size := by omega
      have hcount : countFor v (start.toNat - v.start) data =
        min (v.size - (start.toNat - v.start)) data.length := rfl
      have hnext : (start + UInt16.ofNat (countFor v (start.toNat - v.start) data)).toNat =
          start.toNat + countFor v (start.toNat - v.start) data := by
        rw [UInt16.toNat_add, UInt16.toNat_ofNat']
        omega
      have hfirst : wordAt start.toNat data start.toNat = data[0]? := by simp [wordAt]
      have hsome : data[0]? = some (data.head hdata) := by
        rw [← List.head?_eq_getElem?, List.head?_eq_some_head hdata]
      dsimp only
      rw [setVariable_fst hoffset, overwrite_wordsOf data hfound,
        ← afterWrite_of_some hfound (hfirst.trans hsome)]
      congr 1
      -- what is left of the data starts behind this variable, or nothing is left
      by_cases hshort : data.length ≤ v.size - (start.toNat - v.start)
      · have hall : countFor v (start.toNat - v.start) data = data.length := by omega
        rw [hall, List.drop_of_length_le (Nat.le_refl _), setVariables_nil]
        have hsame : ∀ x ∈ known, afterWrite (wordAt start.toNat data) x = id x := by
          intro x hx
          have hbehind := Tiles.start_ge hrest hx
          apply afterWrite_of_none
          rintro a ⟨ha, -⟩
          exact wordAt_eq_none_of_le (by omega)
        rw [List.map_congr_left hsame, List.map_id]
      · have hfull : countFor v (start.toNat - v.start) data = v.size - (start.toNat - v.start) := by
          omega
        rw [ih hrest (by rw [hnext, hfull]; omega), hnext]
        apply List.map_congr_left
        intro x hx
        have hbehind := Tiles.start_ge hrest hx
        apply afterWrite_congr
        rintro a ⟨ha, -⟩
        exact wordAt_drop (by omega)
    · rw [if_neg hfound]
      have hbehind : lo + v.size ≤ start.toNat := by omega
      dsimp only
      rw [ih hrest hbehind]
      congr 1
      symm
      apply afterWrite_of_none
      rintro a ⟨-, ha⟩
      exact wordAt_eq_none_of_lt data (by omega)

theorem afterArea_eq (hlaid : Laid 0 hi known) (hhi : hi < 2 ^ 16) (area : Protocol.Area) :
    afterArea known area = known.map (afterWrite (areaWord area)) :=
  setVariables_eq hlaid hhi (Nat.zero_le _) {}

theorem laid_afterArea (hlaid : Laid 0 hi known) (area : Protocol.Area) :
    Laid 0 hi (afterArea known area) :=
  laid_of_map_slot (map_slot_setVariables _ _ _) hlaid

end Area

/-! ## A whole message -/

section Message

variable {known : List AsebaVmVariable} {hi : Nat} {v : AsebaVmVariable}

/-- The variable after the areas of a message. -/
noncomputable def afterWrites (areas : List Protocol.Area) (v : AsebaVmVariable) : AsebaVmVariable :=
  areas.foldl (fun v area => afterWrite (areaWord area) v) v

@[simp] theorem afterWrites_nil (v : AsebaVmVariable) : afterWrites [] v = v := rfl

@[simp] theorem afterWrites_cons (area : Protocol.Area) (areas : List Protocol.Area)
    (v : AsebaVmVariable) :
    afterWrites (area :: areas) v = afterWrites areas (afterWrite (areaWord area) v) := rfl

theorem slot_afterWrites (areas : List Protocol.Area) (v : AsebaVmVariable) :
    slot (afterWrites areas v) = slot v := by
  induction areas generalizing v with
  | nil => rfl
  | cons area areas ih => rw [afterWrites_cons, ih, slot_afterWrite]

/-- Each variable is written on its own. -/
theorem foldl_afterArea (hlaid : Laid 0 hi known) (hhi : hi < 2 ^ 16) (areas : List Protocol.Area) :
    areas.foldl afterArea known = known.map (afterWrites areas) := by
  induction areas generalizing known with
  | nil => exact (List.map_id known).symm
  | cons area areas ih =>
    rw [List.foldl_cons, ih (laid_afterArea hlaid area), afterArea_eq hlaid hhi, List.map_map]
    rfl

/-- An address of the variable has the word that was written there last. -/
theorem wordsOf_afterWrites (areas : List Protocol.Area) (v : AsebaVmVariable) :
    wordsOf (afterWrites areas v) = wordsAfter (lastWord areas) v := by
  induction areas generalizing v with
  | nil =>
    symm
    apply wordsAfter_of_leaves
    intro a ha word hword
    cases hword
  | cons area areas ih =>
    have hslot := slot_afterWrite (areaWord area) v
    simp only [slot, Prod.mk.injEq] at hslot
    have hwords : wordsOf { v with value := wordsAfter (areaWord area) v } =
        wordsAfter (areaWord area) v := wordsOf_of_length (length_wordsAfter _ v)
    calc wordsOf (afterWrites (area :: areas) v)
      _ = wordsAfter (lastWord areas) (afterWrite (areaWord area) v) := ih _
      _ = wordsAfter (lastWord areas) { v with value := wordsAfter (areaWord area) v } :=
          wordsAfter_of_wordsOf hslot.2.2 hslot.2.1
            ((wordsOf_afterWrite _ v).trans hwords.symm)
      _ = wordsAfter (lastWord (area :: areas)) v := (wordsAfter_or _ _ v).symm

/-- A variable that the message writes to is known from then on. -/
theorem length_afterWrites {areas : List Protocol.Area}
    (h : v.value.length = v.size ∨ ∃ b ∈ areas, ¬ Leaves (areaWord b) v) :
    (afterWrites areas v).value.length = v.size := by
  induction areas generalizing v with
  | nil => simpa using h
  | cons area areas ih =>
    by_cases hleaves : Leaves (areaWord area) v
    · rw [afterWrites_cons, afterWrite_of_leaves hleaves]
      apply ih
      simpa [hleaves] using h
    · rw [afterWrites_cons, afterWrite_of_not_leaves hleaves]
      exact ih (Or.inl (length_wordsAfter _ v))

theorem value_afterWrites {areas : List Protocol.Area}
    (h : ∃ b ∈ areas, ¬ Leaves (areaWord b) v) :
    (afterWrites areas v).value = wordsAfter (lastWord areas) v := by
  have hslot := slot_afterWrites areas v
  simp only [slot, Prod.mk.injEq] at hslot
  have hlength := length_afterWrites (Or.inr h)
  rw [← wordsOf_afterWrites, wordsOf_of_length (hlength.trans hslot.2.2.symm)]

/-- An area alters a variable when it writes to it what is not known to be there. -/
theorem altered_iff (hlaid : Laid 0 hi known) (hhi : hi < 2 ^ 16) (areas : List Protocol.Area)
    (i : Nat) : Altered i known areas ↔
      ∃ v, known[i]? = some v ∧ ∃ b ∈ areas, ¬ Leaves (areaWord b) v := by
  induction areas generalizing known with
  | nil => simp [Altered]
  | cons area areas ih =>
    rw [Altered, ih (laid_afterArea hlaid area), afterArea_eq hlaid hhi]
    cases hv : known[i]? with
    | none => simp [hv]
    | some v =>
      by_cases hleaves : Leaves (areaWord area) v
      · simp [hv, hleaves, afterWrite_of_leaves hleaves]
      · simp [hv, hleaves, value_afterWrite_eq_iff]

/-- The changes of one area. -/
theorem changedVariables_map (known : List AsebaVmVariable) (w : Nat → Option Word) :
    changedVariables known (known.map (afterWrite w)) =
      (known.filter fun v => v.value != (afterWrite w v).value).map (afterWrite w) := by
  induction known with
  | nil => rfl
  | cons v known ih =>
    rw [List.map_cons, changedVariables_cons, ih, List.filter_cons]
    by_cases h : v.value = (afterWrite w v).value
    · simp [h.symm]
    · simp [h]

/-- The first change of a name by one area. -/
theorem find_changedVariables {w : Nat → Option Word} {name : List UInt8} {c : AsebaVmVariable} :
    (changedVariables known (known.map (afterWrite w))).find? (fun v => v.name = name) = some c ↔
      ∃ front v rest, known = front ++ v :: rest ∧ (∀ u ∈ front, u.name = name → Leaves w u) ∧
        v.name = name ∧ ¬ Leaves w v ∧ c = afterWrite w v := by
  have hname (v : AsebaVmVariable) : (afterWrite w v).name = v.name :=
    congrArg Prod.fst (slot_afterWrite w v)
  rw [changedVariables_map, List.find?_map, List.find?_filter, Option.map_eq_some_iff]
  simp only [List.find?_eq_some_iff_append, Function.comp_apply, hname, bne_iff_ne, ne_eq,
    value_afterWrite_eq_iff, decide_eq_true_eq, Bool.not_eq_true', ← Bool.not_eq_true, not_and]
  constructor
  · rintro ⟨v, ⟨⟨hleaves, hv⟩, front, rest, hknown, hfront⟩, rfl⟩
    refine ⟨front, v, rest, hknown, ?_, hv, hleaves, rfl⟩
    intro u hu hun
    by_contra hul
    exact hfront u hu hul hun
  · rintro ⟨front, v, rest, hknown, hfront, hv, hleaves, rfl⟩
    refine ⟨v, ⟨⟨hleaves, hv⟩, front, rest, hknown, ?_⟩, rfl⟩
    intro u hu hul hun
    exact hul (hfront u hu hun)

/-- Areas that write to the variables of a name what they have are of no account. -/
theorem firstWrite_cons_iff {area : Protocol.Area} {areas : List Protocol.Area} {name : List UInt8}
    {words : List Word}
    (h : ∀ u ∈ known, u.name = name → Leaves (areaWord area) u) :
    FirstWrite (known.map (afterWrite (areaWord area))) areas name words ↔
      FirstWrite known (area :: areas) name words := by
  have hname (v : AsebaVmVariable) : (afterWrite (areaWord area) v).name = v.name :=
    congrArg Prod.fst (slot_afterWrite _ v)
  constructor
  · rintro ⟨before, area', after, front', v', rest', rfl, hknown, hbefore, hfront, hv, hleaves, rfl⟩
    obtain ⟨front, others, rfl, rfl, hothers⟩ := List.map_eq_append_iff.mp hknown
    obtain ⟨v, rest, rfl, rfl, rfl⟩ := List.map_eq_cons_iff.mp hothers
    rw [hname] at hv
    have hsame := afterWrite_of_leaves (h v (by simp) hv)
    rw [hsame] at hleaves ⊢
    refine ⟨area :: before, area', after, front, v, rest, rfl, rfl, ?_, ?_, hv, hleaves, rfl⟩
    · intro b hb u hu hun
      cases List.mem_cons.mp hb with
      | inl heq => exact heq ▸ h u hu hun
      | inr hb =>
        have hkept := afterWrite_of_leaves (h u hu hun)
        exact hbefore b hb u (hkept ▸ List.mem_map_of_mem hu) hun
    · intro u hu hun
      have hkept := afterWrite_of_leaves (h u (by simp [hu]) hun)
      exact hfront u (hkept ▸ List.mem_map_of_mem hu) hun
  · rintro ⟨before, area', after, front, v, rest, heq, rfl, hbefore, hfront, hv, hleaves, rfl⟩
    cases before with
    | nil =>
      cases heq
      exact absurd (h v (by simp) hv) hleaves
    | cons b before =>
      cases heq
      have hsame := afterWrite_of_leaves (h v (by simp) hv)
      refine ⟨before, area', after, front.map (afterWrite (areaWord area)), v,
        rest.map (afterWrite (areaWord area)), rfl, by simp [hsame], ?_, ?_, hv, hleaves, rfl⟩
      · intro b' hb' u' hu' hun
        obtain ⟨u, hu, rfl⟩ := List.mem_map.mp hu'
        rw [hname] at hun
        rw [afterWrite_of_leaves (h u hu hun)]
        exact hbefore b' (List.mem_cons_of_mem _ hb') u hu hun
      · intro u' hu' hun
        obtain ⟨u, hu, rfl⟩ := List.mem_map.mp hu'
        rw [hname] at hun
        rw [afterWrite_of_leaves (h u (by simp [hu]) hun)]
        exact hfront u hu hun

theorem exists_change_iff_firstWrite (hlaid : Laid 0 hi known) (hhi : hi < 2 ^ 16)
    (areas : List Protocol.Area) (name : List UInt8) (words : List Word) :
    (∃ c, (messageChanges known areas).find? (fun v => v.name = name) = some c ∧ c.value = words) ↔
      FirstWrite known areas name words := by
  induction areas generalizing known with
  | nil => simp [messageChanges, FirstWrite]
  | cons area areas ih =>
    rw [messageChanges, List.find?_append, afterArea_eq hlaid hhi]
    by_cases hleaves : ∀ u ∈ known, u.name = name → Leaves (areaWord area) u
    · have hnone : (changedVariables known (known.map (afterWrite (areaWord area)))).find?
          (fun v => v.name = name) = none := by
        rw [Option.eq_none_iff_forall_ne_some]
        intro c hc
        obtain ⟨front, v, rest, rfl, -, hv, hchanged, -⟩ := find_changedVariables.mp hc
        exact hchanged (hleaves v (by simp) hv)
      rw [hnone, Option.none_or, ← firstWrite_cons_iff hleaves]
      have hlaid' := laid_afterArea hlaid area
      rw [afterArea_eq hlaid hhi] at hlaid'
      exact ih hlaid'
    · obtain ⟨c, hc⟩ : ∃ c, (changedVariables known (known.map (afterWrite (areaWord area)))).find?
          (fun v => v.name = name) = some c := by
        rw [← Option.isSome_iff_exists, changedVariables_map, List.find?_isSome]
        simp only [not_forall] at hleaves
        obtain ⟨u, hu, hun, hchanged⟩ := hleaves
        have hname : (afterWrite (areaWord area) u).name = u.name :=
          congrArg Prod.fst (slot_afterWrite _ u)
        refine ⟨afterWrite (areaWord area) u, ?_, by simp [hname, hun]⟩
        apply List.mem_map_of_mem
        simp [hu, value_afterWrite_eq_iff, hchanged]
      rw [hc, Option.some_or]
      obtain ⟨front, v, rest, hknown, hfront, hv, hchanged, rfl⟩ := find_changedVariables.mp hc
      constructor
      · rintro ⟨_, ⟨⟩, rfl⟩
        refine ⟨[], area, areas, front, v, rest, rfl, hknown, by simp, hfront, hv, hchanged, ?_⟩
        rw [afterWrite_of_not_leaves hchanged]
      · rintro ⟨before, area', after, front', v', rest', heq, hknown', hbefore, hfront', hv',
          hchanged', rfl⟩
        cases before with
        | cons b before =>
          cases heq
          exact absurd (hbefore area List.mem_cons_self) hleaves
        | nil =>
          cases heq
          have hc' := find_changedVariables.mpr
            ⟨front', v', rest', hknown', hfront', hv', hchanged', rfl⟩
          rw [hc] at hc'
          rw [Option.some.inj hc', afterWrite_of_not_leaves hchanged']
          exact ⟨_, rfl, rfl⟩

theorem firstChangeLasts_iff (hlaid : Laid 0 hi known) (hhi : hi < 2 ^ 16)
    (areas : List Protocol.Area) : FirstChangeLasts known areas ↔ FirstWordsLast known areas := by
  have hname (u : AsebaVmVariable) : (afterWrites areas u).name = u.name :=
    congrArg Prod.fst (slot_afterWrites areas u)
  constructor
  · intro h name words hfirst u hu hun haltered
    obtain ⟨c, hc, rfl⟩ := (exists_change_iff_firstWrite hlaid hhi areas name words).mpr hfirst
    obtain ⟨i, hi⟩ := List.mem_iff_getElem?.mp hu
    rw [← value_afterWrites haltered]
    apply h name c hc i
    · rw [foldl_afterArea hlaid hhi, List.getElem?_map, hi, Option.map_some]
    · rw [hname, hun]
    · exact (altered_iff hlaid hhi areas i).mpr ⟨u, hi, haltered⟩
  · intro h name c hc i v hv hvn haltered
    obtain ⟨u, hu, haltered⟩ := (altered_iff hlaid hhi areas i).mp haltered
    rw [foldl_afterArea hlaid hhi, List.getElem?_map, hu, Option.map_some] at hv
    cases hv
    rw [hname] at hvn
    rw [value_afterWrites haltered]
    exact h name c.value ((exists_change_iff_firstWrite hlaid hhi areas name c.value).mp ⟨c, hc, rfl⟩)
      u (List.mem_of_getElem? hu) hvn haltered

end Message

/-- In every mirror that messages lead to, a further message is signalled with the final values exactly
when it writes last to the variables of a name what it has written first there. -/
theorem message_signals_final_iff {κ : Type} (m : MirrorNode κ) {map : Compiler.VariablesMap} {n : Nat}
    (hmap : TilesMemory map n) (hn : n ≤ 65535) (messages : List (List Protocol.Area))
    (areas : List Protocol.Area) :
    SignalsFinalValues ((m.resetKnownVariables map).afterMessages messages) areas ↔
      FirstWordsLast ((m.resetKnownVariables map).afterMessages messages).node.knownVariables
        areas := by
  have hlaid : Laid 0 n ((m.resetKnownVariables map).afterMessages messages).node.knownVariables :=
    laid_afterMessages messages (laid_resetKnownVariables m.node hmap hn).1
  rw [← firstChangeLasts_iff hlaid (by omega)]
  exact ⟨firstChangeLasts_of_signals, signals_of_firstChangeLasts⟩

/-- Two areas write the same word to `x`, which was not known. -/
theorem writtenTwice_signals_final :
    SignalsFinalValues (loneVariable.afterMessages []) [⟨0, [1]⟩, ⟨0, [1]⟩] := by
  have hmap : TilesMemory [("x", 0, 1)] 1 := by
    refine ⟨by decide, by decide, by decide, ?_⟩
    intro a _ ha
    exact ⟨("x", 0, 1), by decide, a.zero_le, ha⟩
  refine (message_signals_final_iff newNode hmap (by decide) [] _).mpr ?_
  have hknown : ((newNode.resetKnownVariables [("x", 0, 1)]).afterMessages []).node.knownVariables =
      [⟨wStringToUTF8 "x", 0, 1, []⟩] := by decide +kernel
  rw [hknown]
  rintro name words ⟨before, area, after, front, v, rest, hareas, hvars, -, -, -, -, rfl⟩ u hu - -
  have harea : area ∈ ([⟨0, [1]⟩, ⟨0, [1]⟩] : List Protocol.Area) := by simp [hareas]
  have hv : v ∈ [(⟨wStringToUTF8 "x", 0, 1, []⟩ : AsebaVmVariable)] := by simp [hvars]
  obtain rfl : area = ⟨0, [1]⟩ := by simpa using harea
  rw [List.mem_singleton.mp hu, List.mem_singleton.mp hv]
  decide

end ThymioDeviceManager.Correctness
