import Mathlib.Data.List.Nodup

/-! # Unordered maps

`std::unordered_map` as a list of entries with distinct keys, which the type
carries. The order of the list is an iteration order; nothing below depends on
it but the search for a value, which returns the first key that has it.
-/

namespace ThymioDeviceManager.Library

structure Table (κ α : Type) where
  entries : List (κ × α) := []
  distinct : (entries.map Prod.fst).Nodup := by first | exact List.nodup_nil | simp
  deriving DecidableEq

namespace Table

/-- No bindings. -/
def empty {κ α : Type} : Table κ α := ⟨[], List.nodup_nil⟩

variable {κ α : Type} [DecidableEq κ]

/-- `m.find(k)`. -/
def get? (t : Table κ α) (k : κ) : Option α := (t.entries.find? (·.1 = k)).map (·.2)

/-- `m.erase(k)`. -/
def erase (t : Table κ α) (k : κ) : Table κ α where
  entries := t.entries.filter (·.1 ≠ k)
  distinct := t.distinct.sublist (List.filter_sublist.map _)

/-- `m[k] = a`. -/
def assign (t : Table κ α) (k : κ) (a : α) : Table κ α where
  entries := (k, a) :: (t.erase k).entries
  distinct := by
    rw [List.map_cons, List.nodup_cons]
    exact ⟨by simp [erase], (t.erase k).distinct⟩

/-- `m.insert({k, a})`, which keeps an entry that is there. -/
def insert (t : Table κ α) (k : κ) (a : α) : Table κ α :=
  if (t.get? k).isSome then t else t.assign k a

/-- The key of the first entry with value `a`. -/
def keyOf? [DecidableEq α] (t : Table κ α) (a : α) : Option κ :=
  (t.entries.find? (·.2 = a)).map (·.1)

theorem mem_entries {t : Table κ α} {k : κ} {a : α} : (k, a) ∈ t.entries ↔ t.get? k = some a := by
  obtain ⟨entries, distinct⟩ := t
  unfold get?
  dsimp only
  induction entries with
  | nil => simp
  | cons e entries ih =>
    rw [List.map_cons, List.nodup_cons] at distinct
    obtain ⟨k', a'⟩ := e
    by_cases hk : k' = k
    · subst hk
      have habsent : (k', a) ∉ entries := fun h =>
        distinct.1 (List.mem_map.mpr ⟨(k', a), h, rfl⟩)
      simp [habsent, eq_comm]
    · have hne : k ≠ k' := fun h => hk h.symm
      simp [hk, hne, ih distinct.2]

@[simp] theorem get?_empty (k : κ) : ({} : Table κ α).get? k = none := rfl

@[simp] theorem get?_erase (t : Table κ α) (k k' : κ) :
    (t.erase k).get? k' = if k' = k then none else t.get? k' := by
  ext a
  rw [← mem_entries]
  by_cases hk : k' = k
  · simp [erase, hk]
  · simp [erase, hk, ← mem_entries]

@[simp] theorem get?_assign (t : Table κ α) (k k' : κ) (a : α) :
    (t.assign k a).get? k' = if k' = k then some a else t.get? k' := by
  ext b
  rw [← mem_entries]
  by_cases hk : k' = k
  · simp [assign, erase, hk, eq_comm]
  · simp [assign, erase, hk, ← mem_entries]

@[simp] theorem get?_insert (t : Table κ α) (k k' : κ) (a : α) :
    (t.insert k a).get? k' = if k' = k then some ((t.get? k).getD a) else t.get? k' := by
  unfold insert
  split
  · rename_i h
    obtain ⟨b, hb⟩ := Option.isSome_iff_exists.mp h
    by_cases hk : k' = k
    · simp [hk, hb]
    · simp [hk]
  · rename_i h
    rw [Option.not_isSome_iff_eq_none] at h
    simp [h]

/-- After a list of inserts, a key has the value it had, or else the first one in the list. -/
theorem get?_foldl_insert {β : Type} (key : β → κ) (value : β → α) (l : List β) (t : Table κ α)
    (k : κ) : (l.foldl (fun t b => t.insert (key b) (value b)) t).get? k =
      (t.get? k).or ((l.find? fun b => key b = k).map value) := by
  induction l generalizing t with
  | nil => simp
  | cons b l ih =>
    rw [List.foldl_cons, ih, get?_insert, List.find?_cons]
    by_cases hk : k = key b
    · subst hk
      cases t.get? (key b) <;> simp
    · have hne : key b ≠ k := fun h => hk h.symm
      simp [hk, hne]

/-- After a list of erasures, the keys that were not erased have their values. -/
theorem get?_foldl_erase {β : Type} (key : β → κ) (l : List β) (t : Table κ α) (k : κ) :
    (l.foldl (fun t b => t.erase (key b)) t).get? k =
      if k ∈ l.map key then none else t.get? k := by
  induction l generalizing t with
  | nil => simp
  | cons b l ih =>
    rw [List.foldl_cons, ih, get?_erase]
    by_cases hk : k = key b
    · simp [hk]
    · simp [hk]

theorem get?_keyOf? [DecidableEq α] {t : Table κ α} {a : α} {k : κ} (h : t.keyOf? a = some k) :
    t.get? k = some a := by
  unfold keyOf? at h
  obtain ⟨⟨k', a'⟩, hfind, rfl⟩ := Option.map_eq_some_iff.mp h
  have ha : a' = a := by simpa using List.find?_some hfind
  rw [← mem_entries, ← ha]
  exact List.mem_of_find?_eq_some hfind

theorem ne_of_keyOf?_none [DecidableEq α] {t : Table κ α} {a : α} (h : t.keyOf? a = none) (k : κ) :
    t.get? k ≠ some a := by
  intro hk
  have hmem := mem_entries.mpr hk
  simp [keyOf?] at h
  exact h k a hmem rfl

end Table

end ThymioDeviceManager.Library
