import ThymioDeviceManager.Manager.Variables
import ThymioDeviceManager.Correctness.SharedConstants

/-! # The words of a value

`to_aseba_variable` takes a value that holds as many integers as it is asked for, each of them in
the range of a word, and gives them in their order. What `aseba_variable_from_range` makes of words
is such a value.
-/

namespace ThymioDeviceManager.Correctness

open Library Manager

/-- The integers that a value holds. -/
inductive Holds : Property → List Int → Prop
  | null : Holds .null []
  | integral (v : Int64) : Holds (.integral v) [v.toInt]
  | array (vs : List Int64) : Holds (.array (vs.map .integral)) (vs.map Int64.toInt)

theorem numericCast_eq_some_iff {v : Int64} {n : Int16} :
    numericCast v = some n ↔ n.toInt = v.toInt := by
  refine ⟨SharedConstants.toInt_numericCast, fun h => ?_⟩
  have hle := Int16.le_toInt n
  have hlt := Int16.toInt_lt n
  rw [numericCast, if_pos (by omega)]
  congr 1
  rw [← Int16.toInt_inj, Int64.toInt_toInt16, h]
  exact Int.bmod_eq_of_le (by omega) (by omega)

theorem mapM_toInt16?_eq_some_iff {elements : List Property} {words : List Int16} :
    elements.mapM Property.toInt16? = some words ↔
      ∃ vs : List Int64, elements = vs.map .integral ∧
        words.map Int16.toInt = vs.map Int64.toInt := by
  induction elements generalizing words with
  | nil =>
    constructor
    · intro h
      cases h
      exact ⟨[], rfl, rfl⟩
    · rintro ⟨vs, hvs, hwords⟩
      obtain rfl : vs = [] := by simpa using hvs.symm
      obtain rfl : words = [] := by simpa using hwords
      rfl
  | cons p elements ih =>
    rw [List.mapM_cons]
    constructor
    · intro h
      obtain ⟨n, hn, h⟩ := Option.bind_eq_some_iff.mp h
      obtain ⟨rest, hrest, h⟩ := Option.bind_eq_some_iff.mp h
      cases h
      cases p with
      | integral v =>
        obtain ⟨vs, rfl, hwords⟩ := ih.mp hrest
        refine ⟨v :: vs, rfl, ?_⟩
        rw [List.map_cons, List.map_cons, hwords, SharedConstants.toInt_numericCast hn]
      | null => cases hn
      | boolean b => cases hn
      | floating bits => cases hn
      | string s => cases hn
      | array elements => cases hn
      | object members => cases hn
    · rintro ⟨vs, hvs, hwords⟩
      cases vs with
      | nil => cases hvs
      | cons v vs =>
        cases words with
        | nil => cases hwords
        | cons n words =>
          rw [List.map_cons, List.cons.injEq] at hvs
          rw [List.map_cons, List.map_cons, List.cons.injEq] at hwords
          obtain ⟨rfl, rfl⟩ := hvs
          have hn : Property.toInt16? (.integral v) = some n := numericCast_eq_some_iff.mpr hwords.1
          rw [hn, ih.mpr ⟨vs, rfl, hwords.2⟩]
          rfl

/-- What is accepted for a size, and what it gives. -/
theorem toAsebaVariable_eq_ok_iff {p : Property} {size : UInt16} {words : List Int16} :
    toAsebaVariable p size = .ok words ↔
      Holds p (words.map Int16.toInt) ∧ words.length = size.toNat := by
  cases p with
  | null =>
    rw [toAsebaVariable]
    constructor
    · intro h
      by_cases hsize : size = 0
      · rw [if_pos hsize] at h
        cases h
        exact ⟨.null, by rw [hsize]; rfl⟩
      · rw [if_neg hsize] at h
        cases h
    · rintro ⟨hholds, hlength⟩
      obtain rfl : words = [] := by
        generalize hmap : words.map Int16.toInt = integers at hholds
        cases hholds
        simpa using hmap
      rw [if_pos (UInt16.toNat_inj.mp hlength.symm)]
  | integral v =>
    rw [toAsebaVariable]
    constructor
    · intro h
      by_cases hsize : size = 1
      · rw [if_pos hsize] at h
        cases hv : numericCast v with
        | none =>
          rw [hv] at h
          cases h
        | some n =>
          rw [hv] at h
          cases h
          rw [List.map_singleton, SharedConstants.toInt_numericCast hv, hsize]
          exact ⟨.integral v, rfl⟩
      · rw [if_neg hsize] at h
        cases h
    · rintro ⟨hholds, hlength⟩
      generalize hmap : words.map Int16.toInt = integers at hholds
      cases hholds
      obtain ⟨n, rfl, hn⟩ := List.map_eq_singleton_iff.mp hmap
      rw [if_pos (UInt16.toNat_inj.mp hlength.symm), numericCast_eq_some_iff.mpr hn]
  | array elements =>
    rw [toAsebaVariable]
    constructor
    · intro h
      by_cases hsize : size.toNat = elements.length
      · rw [if_pos hsize] at h
        cases hwords : elements.mapM Property.toInt16? with
        | none =>
          rw [hwords] at h
          cases h
        | some vars =>
          rw [hwords] at h
          cases h
          obtain ⟨vs, rfl, hmap⟩ := mapM_toInt16?_eq_some_iff.mp hwords
          refine ⟨hmap ▸ .array vs, ?_⟩
          have hlength := congrArg List.length hmap
          simp only [List.length_map] at hlength hsize
          omega
      · rw [if_neg hsize] at h
        cases h
    · rintro ⟨hholds, hlength⟩
      generalize hmap : words.map Int16.toInt = integers at hholds
      cases hholds with
      | array vs =>
        have hcount := congrArg List.length hmap
        rw [List.length_map, List.length_map] at hcount
        rw [List.length_map, if_pos (by omega),
          mapM_toInt16?_eq_some_iff.mpr ⟨vs, rfl, hmap⟩]
  | boolean _ | floating _ | string _ | object _ =>
    constructor
    · intro h
      cases h
    · rintro ⟨hholds, _⟩
      cases hholds

/-- The words of a variable are what is held by what is made of them. -/
theorem holds_asebaVariableFromRange (v : List Int16) :
    Holds (asebaVariableFromRange (v.map Int16.toBitVec)) (v.map Int16.toInt) := by
  cases v with
  | nil => exact .null
  | cons n v =>
    have hint (m : Int16) : (Int64.ofInt m.toBitVec.toInt).toInt = m.toInt := by
      have hle := Int16.le_toInt m
      have hlt := Int16.toInt_lt m
      exact Int64.toInt_ofInt_of_le (by change _ ≤ m.toInt; omega) (by change m.toInt < _; omega)
    have harray := Holds.array ((n :: v).map fun m => Int64.ofInt m.toBitVec.toInt)
    simp only [List.map_map, Function.comp_def, hint] at harray
    simpa only [asebaVariableFromRange, List.length_map, List.length_cons, Nat.succ_ne_zero,
      if_false, List.map_map, Function.comp_def] using harray

/-- Words that become a value come back from it, and what a value is taken for are its integers. -/
theorem variable_values_convert :
    (∀ v : List Int16, v.length ≤ 65535 →
      toAsebaVariable (asebaVariableFromRange (v.map Int16.toBitVec)) (.ofNat v.length) = .ok v) ∧
      ∀ (p : Property) (n : UInt16) (words : List Int16), toAsebaVariable p n = .ok words →
        words.length = n.toNat ∧ Holds p (words.map Int16.toInt) := by
  constructor
  · intro v hv
    refine toAsebaVariable_eq_ok_iff.mpr ⟨holds_asebaVariableFromRange v, ?_⟩
    rw [UInt16.toNat_ofNat']
    exact (Nat.mod_eq_of_lt (by omega)).symm
  · intro p n words h
    obtain ⟨hholds, hlength⟩ := toAsebaVariable_eq_ok_iff.mp h
    exact ⟨hlength, hholds⟩

theorem threeWords_convert :
    toAsebaVariable (asebaVariableFromRange [1#16, -2#16, 32767#16]) 3 = .ok [1, -2, 32767] ∧
      Holds (.integral 5) [5] := by
  refine ⟨variable_values_convert.1 [1, -2, 32767] (by decide), ?_⟩
  exact (variable_values_convert.2 (.integral 5) 1 [5] rfl).2

end ThymioDeviceManager.Correctness
