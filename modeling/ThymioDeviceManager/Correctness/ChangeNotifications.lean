import ThymioDeviceManager.Correctness.VariableMirror

/-! # What watchers are told

The areas of one message share one map of changed values, and a name that is in the
map keeps its first value. The signal is right exactly when the first change of a
name is also its last word.
-/

namespace ThymioDeviceManager.Correctness

open Compiler Manager Library Layout

/-! ## Changes -/

/-- The variables after an area. -/
def afterArea (known : List AsebaVmVariable) (area : Protocol.Area) : List AsebaVmVariable :=
  (setVariables area.start (area.values.map Int16.toBitVec) known {}).1

/-- The variables whose value is another one, as they are after. -/
def changedVariables (before after : List AsebaVmVariable) : List AsebaVmVariable :=
  ((before.zip after).filter fun p => p.1.value != p.2.value).map Prod.snd

/-- The changes of a message, area after area. -/
def messageChanges : List AsebaVmVariable → List Protocol.Area → List AsebaVmVariable
  | _, [] => []
  | known, area :: areas =>
    changedVariables known (afterArea known area) ++ messageChanges (afterArea known area) areas

/-- The value (or the known size) of the variable at place `i` is altered by some area. -/
def Altered (i : Nat) : List AsebaVmVariable → List Protocol.Area → Prop
  | _, [] => False
  | known, area :: areas =>
    (known[i]?.map AsebaVmVariable.value ≠ (afterArea known area)[i]?.map AsebaVmVariable.value) ∨
      Altered i (afterArea known area) areas

/-- The signalled map holds exactly the altered variables, with the values they have after the
message. -/
def SignalsFinalValues {κ : Type} (m : MirrorNode κ) (areas : List Protocol.Area) : Prop :=
  ∀ name p, (m.onAreas areas).2.get? name = some p ↔
    ∃ i v, (m.onAreas areas).1.node.knownVariables[i]? = some v ∧ v.name = name ∧
      Altered i m.node.knownVariables areas ∧ p = asebaVariableFromRange v.value

/-- The first change of a name gives it the value that every altered variable of the name has after
the message. -/
def FirstChangeLasts (known : List AsebaVmVariable) (areas : List Protocol.Area) : Prop :=
  ∀ name c, (messageChanges known areas).find? (fun v => v.name = name) = some c →
    ∀ i v, (areas.foldl afterArea known)[i]? = some v → v.name = name → Altered i known areas →
      v.value = c.value

/-! ## One variable -/

/-- Signalled values are the same only for the same words. -/
theorem asebaVariableFromRange_injective {value value' : List Word}
    (h : asebaVariableFromRange value = asebaVariableFromRange value') : value = value' := by
  unfold asebaVariableFromRange at h
  split_ifs at h with hempty hempty' hempty'
  · rw [List.length_eq_zero_iff.mp hempty, List.length_eq_zero_iff.mp hempty']
  · refine List.map_injective_iff.mpr ?_ (Property.array.inj h)
    intro w w' hww
    have hint := Property.integral.inj hww
    have hbounds : ∀ w : Word, -2 ^ 63 ≤ w.toInt ∧ w.toInt < 2 ^ 63 := by
      intro w
      have hlo := BitVec.le_toInt w
      have hhi := BitVec.toInt_lt (x := w)
      omega
    have hint := congrArg Int64.toInt hint
    rw [Int64.toInt_ofInt_of_le (hbounds w).1 (hbounds w).2,
      Int64.toInt_ofInt_of_le (hbounds w').1 (hbounds w').2] at hint
    exact BitVec.eq_of_toInt_eq hint

section Variable

variable {v : AsebaVmVariable} {varStart : Nat} {data : List Word} {u : VariableChanges}

theorem vars_note (u : VariableChanges) (v : AsebaVmVariable) :
    (u.note v).vars = u.vars.insert v.name (asebaVariableFromRange v.value) := by
  unfold VariableChanges.note
  dsimp only
  split
  · split_ifs <;> rfl
  · rfl

/-- A variable is noted when its value has become another one. -/
theorem vars_setVariable (hstart : varStart ≤ v.size) (data : List Word) (u : VariableChanges) :
    (setVariable v varStart data u).2.vars =
      if v.value = (setVariable v varStart data u).1.value then u.vars
      else u.vars.insert v.name (asebaVariableFromRange (setVariable v varStart data u).1.value) := by
  have hlength := length_setVariable hstart data u
  have hname : (setVariable v varStart data u).1.name = v.name :=
    congrArg Prod.fst (slot_setVariable hstart data u)
  have hcount : (data.take (countFor v varStart data)).length = countFor v varStart data := by
    rw [List.length_take, countFor]
    omega
  -- the test of the loop against the value that the variable gets
  have htest : (v.value = (setVariable v varStart data u).1.value) ↔
      ¬ ((v.size != v.value.length) || ((resize v.value v.size).drop varStart).take
        (countFor v varStart data) != data.take (countFor v varStart data)) = true := by
    rw [Bool.or_eq_true, not_or, bne_iff_ne, not_not, bne_iff_ne, not_not]
    constructor
    · intro h
      have hsize : v.size = v.value.length := by rw [h, hlength]
      refine ⟨hsize, ?_⟩
      rw [setVariable_fst hstart] at h
      have hself : overwrite (wordsOf v) varStart (data.take (countFor v varStart data)) =
          wordsOf v := by
        rw [wordsOf, resize_of_length hsize.symm]
        rw [wordsOf, resize_of_length hsize.symm] at h
        exact h.symm
      rw [overwrite_eq_self_iff (by rw [hcount, countFor, length_wordsOf]; omega), hcount] at hself
      exact hself
    · rintro ⟨hsize, hequal⟩
      have hself : overwrite (wordsOf v) varStart (data.take (countFor v varStart data)) =
          wordsOf v := by
        rw [overwrite_eq_self_iff (by rw [hcount, countFor, length_wordsOf]; omega), hcount]
        exact hequal
      rw [setVariable_fst hstart, hself]
      exact (resize_of_length hsize.symm).symm
  rw [← hname, ← vars_note]
  by_cases hchange : v.value = (setVariable v varStart data u).1.value
  · rw [if_pos hchange]
    unfold setVariable
    rw [if_neg (htest.mp hchange)]
  · rw [if_neg hchange]
    have hpos := not_not.mp fun h => hchange (htest.mpr h)
    unfold setVariable
    dsimp only
    rw [if_pos hpos]

end Variable

/-! ## One area -/

section Area

variable {known : List AsebaVmVariable}

@[simp] theorem changedVariables_cons (v w : AsebaVmVariable) (before after : List AsebaVmVariable) :
    changedVariables (v :: before) (w :: after) =
      (if v.value = w.value then [] else [w]) ++ changedVariables before after := by
  unfold changedVariables
  by_cases h : v.value = w.value
  · simp [h]
  · simp [h]

theorem changedVariables_self (known : List AsebaVmVariable) : changedVariables known known = [] := by
  induction known with
  | nil => rfl
  | cons v known ih => simp [ih]

/-- What is noted so far does not matter to the variables. -/
theorem setVariables_fst (start : UInt16) (data : List Word) (u u' : VariableChanges) :
    (setVariables start data known u).1 = (setVariables start data known u').1 := by
  induction known generalizing start data u u' with
  | nil => rfl
  | cons v known ih =>
    unfold setVariables
    split_ifs with hdata hfound
    · rfl
    · have hoffset : start.toNat - v.start ≤ v.size := by omega
      dsimp only
      rw [setVariable_fst hoffset, setVariable_fst hoffset, ih]
    · dsimp only
      rw [ih]

/-- The map after an area: each change is inserted, in the order of the variables. -/
theorem vars_setVariables (start : UInt16) (data : List Word) (u : VariableChanges) :
    (setVariables start data known u).2.vars =
      (changedVariables known (setVariables start data known u).1).foldl
        (fun t v => t.insert v.name (asebaVariableFromRange v.value)) u.vars := by
  induction known generalizing start data u with
  | nil => rfl
  | cons v known ih =>
    unfold setVariables
    split_ifs with hdata hfound
    · rw [changedVariables_self]
      rfl
    · have hoffset : start.toNat - v.start ≤ v.size := by omega
      have hname : (setVariable v (start.toNat - v.start) data u).1.name = v.name :=
        congrArg Prod.fst (slot_setVariable hoffset data u)
      dsimp only
      rw [changedVariables_cons, List.foldl_append, ih, vars_setVariable hoffset]
      congr 1
      split_ifs
      · rfl
      · rw [List.foldl_cons, hname]
        rfl
    · dsimp only
      rw [changedVariables_cons, if_pos rfl, List.nil_append, ih]

end Area

/-! ## A whole message -/

section Message

variable {known : List AsebaVmVariable}

theorem setAreas_fst (areas : List Protocol.Area) (u : VariableChanges) :
    (MirrorNode.setAreas known u areas).1 = areas.foldl afterArea known := by
  induction areas generalizing known u with
  | nil => rfl
  | cons area areas ih =>
    have hfirst : (setVariables area.start (area.values.map Int16.toBitVec) known u).1 =
        afterArea known area := setVariables_fst _ _ _ _
    exact (ih _).trans (by rw [hfirst, List.foldl_cons])

/-- The map of a message: its changes are inserted one after the other. -/
theorem vars_setAreas (areas : List Protocol.Area) (u : VariableChanges) :
    (MirrorNode.setAreas known u areas).2.vars =
      (messageChanges known areas).foldl
        (fun t v => t.insert v.name (asebaVariableFromRange v.value)) u.vars := by
  induction areas generalizing known u with
  | nil => rfl
  | cons area areas ih =>
    have hfirst : (setVariables area.start (area.values.map Int16.toBitVec) known u).1 =
        afterArea known area := setVariables_fst _ _ _ _
    refine (ih _).trans ?_
    rw [messageChanges, List.foldl_append, vars_setVariables, hfirst]

/-- A name is in the map with its first change. -/
theorem get?_onAreas {κ : Type} (m : MirrorNode κ) (areas : List Protocol.Area)
    (name : List UInt8) :
    (m.onAreas areas).2.get? name =
      ((messageChanges m.node.knownVariables areas).find? fun v => v.name = name).map
        fun v => asebaVariableFromRange v.value := by
  change Table.get? (MirrorNode.setAreas m.node.knownVariables _ areas).2.vars name = _
  rw [vars_setAreas, Table.get?_foldl_insert]
  rfl

theorem knownVariables_onAreas {κ : Type} (m : MirrorNode κ) (areas : List Protocol.Area) :
    (m.onAreas areas).1.node.knownVariables = areas.foldl afterArea m.node.knownVariables :=
  setAreas_fst areas _

/-- A change of an area is a variable whose value is another one after it. -/
theorem mem_changedVariables {before after : List AsebaVmVariable}
    (h : after.map slot = before.map slot) {c : AsebaVmVariable} :
    c ∈ changedVariables before after ↔ ∃ i : Nat, after[i]? = some c ∧
      before[i]?.map AsebaVmVariable.value ≠ after[i]?.map AsebaVmVariable.value := by
  have hlength : after.length = before.length := by simpa using congrArg List.length h
  simp only [changedVariables, List.mem_map, List.mem_filter, bne_iff_ne, Prod.exists,
    exists_eq_right]
  constructor
  · rintro ⟨v, hmem, hne⟩
    obtain ⟨i, hi⟩ := List.mem_iff_getElem?.mp hmem
    obtain ⟨hv, hc⟩ := List.getElem?_zip_eq_some.mp hi
    exact ⟨i, hc, by simpa [hv, hc] using hne⟩
  · rintro ⟨i, hc, hne⟩
    obtain ⟨hi, -⟩ := List.getElem?_eq_some_iff.mp hc
    have hv : before[i]? = some before[i] := List.getElem?_eq_getElem (hlength ▸ hi)
    exact ⟨_, List.mem_iff_getElem?.mpr ⟨i, List.getElem?_zip_eq_some.mpr ⟨hv, hc⟩⟩,
      by simpa [hv, hc] using hne⟩

/-- The names that change are those of the altered variables. -/
theorem exists_change_iff (areas : List Protocol.Area) (name : List UInt8) :
    (∃ c ∈ messageChanges known areas, c.name = name) ↔
      ∃ (i : Nat) (v : AsebaVmVariable), (areas.foldl afterArea known)[i]? = some v ∧
        v.name = name ∧ Altered i known areas := by
  induction areas generalizing known with
  | nil => simp [messageChanges, Altered]
  | cons area areas ih =>
    have hslot : (afterArea known area).map slot = known.map slot := map_slot_setVariables _ _ _
    have hlater : (areas.foldl afterArea (afterArea known area)).map slot =
        (afterArea known area).map slot := by
      rw [← setAreas_fst areas {}]
      exact map_slot_setAreas areas {}
    have hname : ∀ i : Nat, (areas.foldl afterArea (afterArea known area))[i]?.map AsebaVmVariable.name =
        (afterArea known area)[i]?.map AsebaVmVariable.name := by
      intro i
      have hi := congrArg (fun l => l[i]?.map Prod.fst) hlater
      simpa [slot, Function.comp_def] using hi
    simp only [messageChanges, List.mem_append, or_and_right, exists_or, ih, List.foldl_cons,
      Altered, and_or_left]
    refine or_congr ?_ Iff.rfl
    constructor
    · rintro ⟨c, hc, hcname⟩
      obtain ⟨i, hi, hne⟩ := (mem_changedVariables hslot).mp hc
      have hlast := hname i
      rw [hi, Option.map_some, Option.map_eq_some_iff] at hlast
      obtain ⟨v, hv, hvname⟩ := hlast
      exact ⟨i, v, hv, hvname.trans hcname, hne⟩
    · rintro ⟨i, v, hv, hvname, hne⟩
      have hfirst := (hname i).symm
      rw [hv, Option.map_some, Option.map_eq_some_iff] at hfirst
      obtain ⟨c, hc, hcname⟩ := hfirst
      exact ⟨c, (mem_changedVariables hslot).mpr ⟨i, hc, hne⟩, hcname.trans hvname⟩

theorem firstChangeLasts_of_signals {κ : Type} {m : MirrorNode κ} {areas : List Protocol.Area}
    (h : SignalsFinalValues m areas) : FirstChangeLasts m.node.knownVariables areas := by
  unfold SignalsFinalValues at h
  rw [knownVariables_onAreas] at h
  intro name c hc i v hv hname haltered
  have hlast := (h name _).mpr ⟨i, v, hv, hname, haltered, rfl⟩
  rw [get?_onAreas, hc] at hlast
  exact (asebaVariableFromRange_injective (Option.some.inj hlast)).symm

theorem signals_of_firstChangeLasts {κ : Type} {m : MirrorNode κ} {areas : List Protocol.Area}
    (h : FirstChangeLasts m.node.knownVariables areas) : SignalsFinalValues m areas := by
  unfold SignalsFinalValues
  rw [knownVariables_onAreas]
  intro name p
  rw [get?_onAreas]
  constructor
  · intro hp
    obtain ⟨c, hc, rfl⟩ := Option.map_eq_some_iff.mp hp
    have hfound : c.name = name := by simpa using List.find?_some hc
    obtain ⟨i, v, hv, hname, haltered⟩ := (exists_change_iff areas name).mp
      ⟨c, List.mem_of_find?_eq_some hc, hfound⟩
    exact ⟨i, v, hv, hname, haltered, by rw [h name c hc i v hv hname haltered]⟩
  · rintro ⟨i, v, hv, hname, haltered, rfl⟩
    obtain ⟨c, hc, hcname⟩ := (exists_change_iff areas name).mpr ⟨i, v, hv, hname, haltered⟩
    have hsome : ((messageChanges m.node.knownVariables areas).find? fun v =>
        decide (v.name = name)).isSome = true := by
      rw [List.find?_isSome]
      exact ⟨c, hc, by simpa using hcname⟩
    obtain ⟨first, hfirst⟩ := Option.isSome_iff_exists.mp hsome
    rw [hfirst, Option.map_some, h name first hfirst i v hv hname haltered]

/-- A message with one area is signalled right when no two variables have one name. -/
theorem signalsFinalValues_of_area {κ : Type} {m : MirrorNode κ}
    (hnames : (m.node.knownVariables.map AsebaVmVariable.name).Nodup) (area : Protocol.Area) :
    SignalsFinalValues m [area] := by
  refine signals_of_firstChangeLasts fun name c hc i v hv hname _ => ?_
  have hslot : (afterArea m.node.knownVariables area).map slot =
      m.node.knownVariables.map slot := map_slot_setVariables _ _ _
  have hnodup : ((afterArea m.node.knownVariables area).map AsebaVmVariable.name).Nodup := by
    have hsame := congrArg (List.map Prod.fst) hslot
    simp only [List.map_map] at hsame
    change List.map AsebaVmVariable.name _ = List.map AsebaVmVariable.name _ at hsame
    rwa [hsame]
  rw [messageChanges, messageChanges, List.append_nil] at hc
  obtain ⟨j, hj, -⟩ := (mem_changedVariables hslot).mp (List.mem_of_find?_eq_some hc)
  have hcname : c.name = name := by simpa using List.find?_some hc
  have hplace : i = j := by
    refine (List.getElem?_inj ?_ hnodup).mp ?_
    · obtain ⟨hi, -⟩ := List.getElem?_eq_some_iff.mp hv
      simpa using hi
    · change (afterArea m.node.knownVariables area)[i]? = some v at hv
      rw [List.getElem?_map, List.getElem?_map, hv, hj, Option.map_some, Option.map_some, hname,
        hcname]
  subst hplace
  change (afterArea m.node.knownVariables area)[i]? = some v at hv
  rw [hv] at hj
  rw [Option.some.inj hj]

end Message

/-- A node with one variable, of one word. -/
def loneVariable : MirrorNode Unit := newNode.resetKnownVariables [("x", 0, 1)]

/-- Two areas of one message change `x` to 1 and to 2: watchers hear of 1, the mirror holds 2. -/
theorem changedTwice_signals_first : ¬ SignalsFinalValues loneVariable [⟨0, [1]⟩, ⟨0, [2]⟩] := by
  have hchanges : (messageChanges loneVariable.node.knownVariables
      [⟨0, [1]⟩, ⟨0, [2]⟩]).find? (fun v => v.name = wStringToUTF8 "x") =
        some ⟨wStringToUTF8 "x", 0, 1, [1]⟩ := by decide +kernel
  have hlast : ([⟨0, [1]⟩, ⟨0, [2]⟩] : List Protocol.Area).foldl afterArea
      loneVariable.node.knownVariables = [⟨wStringToUTF8 "x", 0, 1, [2]⟩] := by decide +kernel
  have hfirst : loneVariable.node.knownVariables[0]?.map AsebaVmVariable.value ≠
      (afterArea loneVariable.node.knownVariables ⟨0, [1]⟩)[0]?.map AsebaVmVariable.value := by
    decide +kernel
  intro h
  have hvalue := firstChangeLasts_of_signals h _ _ hchanges 0 _ (by rw [hlast]; rfl) rfl (.inl hfirst)
  exact absurd hvalue (by decide)

end ThymioDeviceManager.Correctness
