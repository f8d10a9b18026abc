import Mathlib.Data.List.Sort
import Mathlib.Order.Defs.LinearOrder

/-! # Ordered maps as association lists

`std::map` is an association list in increasing key order. Iteration is the
list itself; assignment through `operator[]` is `insert`. Only what a program
over such maps observes is kept: look-up after insertion, and the order.
-/

namespace ThymioDeviceManager.Library

/-- An association list; `insert` keeps it in increasing key order. -/
abbrev OrderedMap (κ α : Type) := List (κ × α)

namespace OrderedMap

variable {κ α : Type} [LinearOrder κ]

/-- `m.find(k)`. -/
def find? (m : OrderedMap κ α) (k : κ) : Option α :=
  match m with
  | [] => none
  | (k', a) :: rest => if k' = k then some a else find? rest k

/-- `m[k] = a`. -/
def insert (m : OrderedMap κ α) (k : κ) (a : α) : OrderedMap κ α :=
  match m with
  | [] => [(k, a)]
  | (k', a') :: rest =>
    if k' = k then (k, a) :: rest
    else if k < k' then (k, a) :: (k', a') :: rest
    else (k', a') :: insert rest k a

/-- Change the value stored under `k`; nothing happens when there is none. -/
def modify (m : OrderedMap κ α) (k : κ) (f : α → α) : OrderedMap κ α :=
  match m with
  | [] => []
  | (k', a) :: rest => if k' = k then (k', f a) :: rest else (k', a) :: modify rest k f

/-- `m.erase(k)`. -/
def erase (m : OrderedMap κ α) (k : κ) : OrderedMap κ α := m.filter (·.1 ≠ k)

@[simp] theorem find?_insert (m : OrderedMap κ α) (k k' : κ) (a : α) :
    (m.insert k a).find? k' = if k = k' then some a else m.find? k' := by
  induction m with
  | nil => simp [insert, find?]
  | cons p rest ih =>
    obtain ⟨x, b⟩ := p
    by_cases hx : x = k
    · subst hx
      by_cases h : x = k' <;> simp [insert, find?, h]
    · by_cases hlt : k < x
      · simp only [insert, if_neg hx, if_pos hlt]
        rw [find?]
      · by_cases h : k = k'
        · subst h
          simp [insert, find?, hx, hlt, ih]
        · simp [insert, find?, hx, hlt, ih, h]

@[simp] theorem find?_modify (m : OrderedMap κ α) (k k' : κ) (f : α → α) :
    (m.modify k f).find? k' = if k = k' then (m.find? k').map f else m.find? k' := by
  induction m with
  | nil => simp [modify, find?]
  | cons p rest ih =>
    obtain ⟨x, b⟩ := p
    by_cases hx : x = k
    · subst hx
      by_cases h : x = k' <;> simp [modify, find?, h]
    · by_cases h : k = k'
      · subst h
        simp [modify, find?, hx, ih]
      · simp [modify, find?, hx, ih, h]

theorem mem_of_find? {m : OrderedMap κ α} {k : κ} {a : α} (h : m.find? k = some a) :
    (k, a) ∈ m := by
  induction m with
  | nil => simp [find?] at h
  | cons p rest ih =>
    obtain ⟨x, b⟩ := p
    by_cases hx : x = k
    · subst hx
      simp only [find?, if_pos, Option.some.injEq] at h
      simp [h]
    · simp only [find?, if_neg hx] at h
      exact List.mem_cons_of_mem _ (ih h)

theorem mem_insert {m : OrderedMap κ α} {k : κ} {a : α} {p : κ × α} (h : p ∈ m.insert k a) :
    p = (k, a) ∨ p ∈ m := by
  induction m with
  | nil => simpa [insert] using h
  | cons q rest ih =>
    obtain ⟨x, b⟩ := q
    simp only [insert] at h
    split_ifs at h with hx hlt
    · rcases List.mem_cons.mp h with h | h
      · exact .inl h
      · exact .inr (List.mem_cons_of_mem _ h)
    · rcases List.mem_cons.mp h with h | h
      · exact .inl h
      · exact .inr h
    · rcases List.mem_cons.mp h with h | h
      · exact .inr (by simp [h])
      · exact (ih h).imp id (List.mem_cons_of_mem _)

theorem mem_insert_iff {m : OrderedMap κ α} {k : κ} (h : k ∉ m.map Prod.fst) {a : α} {p : κ × α} :
    p ∈ m.insert k a ↔ p = (k, a) ∨ p ∈ m := by
  induction m with
  | nil => simp [insert]
  | cons q rest ih =>
    obtain ⟨x, b⟩ := q
    obtain ⟨hne, hrest⟩ := not_or.mp (mt List.mem_cons.mpr h)
    have hx : ¬ x = k := fun heq => hne heq.symm
    simp only [insert, if_neg hx]
    split_ifs
    · exact List.mem_cons
    · rw [List.mem_cons, ih hrest, List.mem_cons]
      exact or_left_comm

/-- A key is found exactly when it is there. -/
theorem isSome_find?_iff {m : OrderedMap κ α} {k : κ} :
    (m.find? k).isSome ↔ k ∈ m.map Prod.fst := by
  induction m with
  | nil => simp [find?]
  | cons p rest ih =>
    obtain ⟨x, b⟩ := p
    by_cases hx : x = k
    · simp [find?, hx]
    · have hne : k ≠ x := fun h => hx h.symm
      rw [find?, if_neg hx, ih]
      simp [hne]

@[simp] theorem modify_keys (m : OrderedMap κ α) (k : κ) (f : α → α) :
    (m.modify k f).map Prod.fst = m.map Prod.fst := by
  induction m with
  | nil => rfl
  | cons p rest ih =>
    obtain ⟨x, b⟩ := p
    by_cases hx : x = k <;> simp [modify, hx, ih]

/-- What holds of all values, and is kept by a change, holds of all values after it. -/
theorem forall_modify {m : OrderedMap κ α} {k : κ} {f : α → α} {P : α → Prop}
    (hm : ∀ q ∈ m, P q.2) (hf : ∀ a, P a → P (f a)) : ∀ q ∈ m.modify k f, P q.2 := by
  induction m with
  | nil => simp [modify]
  | cons p rest ih =>
    obtain ⟨x, b⟩ := p
    obtain ⟨hb, hrest⟩ := List.forall_mem_cons.mp hm
    by_cases hx : x = k
    · simpa [modify, hx] using ⟨hf b hb, by simpa using hrest⟩
    · simpa [modify, hx] using ⟨hb, by simpa using ih hrest⟩

/-- Assigning a list of entries with distinct keys, one after the other. -/
theorem find?_foldl_insert {l : List (κ × α)} (hl : (l.map Prod.fst).Nodup) (m : OrderedMap κ α)
    (k : κ) (a : α) :
    OrderedMap.find? (l.foldl (fun m p => OrderedMap.insert m p.1 p.2) m) k = some a ↔
      (k, a) ∈ l ∨ k ∉ l.map Prod.fst ∧ m.find? k = some a := by
  induction l generalizing m with
  | nil => simp
  | cons p rest ih =>
    obtain ⟨x, b⟩ := p
    obtain ⟨hx, hrest⟩ := List.nodup_cons.mp hl
    rw [List.foldl_cons, ih hrest, find?_insert]
    by_cases h : x = k
    · subst h
      have hnot : (x, a) ∉ rest := fun hmem => hx (List.mem_map.mpr ⟨_, hmem, rfl⟩)
      simp [hnot, hx, eq_comm]
    · have h' : k ≠ x := fun he => h he.symm
      simp [h, h']

/-! ## Increasing keys -/

/-- The keys are in increasing order, so each occurs once. -/
def Ordered (m : OrderedMap κ α) : Prop := (m.map Prod.fst).Pairwise (· < ·)

theorem Ordered.nil : Ordered ([] : OrderedMap κ α) := List.Pairwise.nil

theorem ordered_cons {k : κ} {a : α} {m : OrderedMap κ α} :
    Ordered ((k, a) :: m) ↔ (∀ p ∈ m, k < p.1) ∧ Ordered m := by
  simp [Ordered]

theorem Ordered.insert {m : OrderedMap κ α} (h : Ordered m) (k : κ) (a : α) :
    Ordered (m.insert k a) := by
  induction m with
  | nil => simp [OrderedMap.insert, Ordered]
  | cons p rest ih =>
    obtain ⟨x, b⟩ := p
    obtain ⟨hlt, hrest⟩ := ordered_cons.mp h
    simp only [OrderedMap.insert]
    split_ifs with hx hk
    · subst hx
      exact ordered_cons.mpr ⟨hlt, hrest⟩
    · refine ordered_cons.mpr ⟨fun p hp => ?_, h⟩
      rcases List.mem_cons.mp hp with rfl | hp
      · exact hk
      · exact hk.trans (hlt p hp)
    · refine ordered_cons.mpr ⟨fun p hp => ?_, ih hrest⟩
      rcases mem_insert hp with rfl | hp
      · exact lt_of_le_of_ne (not_lt.mp hk) hx
      · exact hlt p hp

theorem Ordered.modify {m : OrderedMap κ α} (h : Ordered m) (k : κ) (f : α → α) :
    Ordered (m.modify k f) := by
  unfold Ordered
  rw [modify_keys]
  exact h

theorem Ordered.filter {m : OrderedMap κ α} (h : Ordered m) (p : κ × α → Bool) :
    Ordered (m.filter p) :=
  List.Pairwise.sublist (List.filter_sublist.map Prod.fst) h

theorem Ordered.find?_of_mem {m : OrderedMap κ α} (h : Ordered m) {k : κ} {a : α}
    (hmem : (k, a) ∈ m) : m.find? k = some a := by
  induction m with
  | nil => simp at hmem
  | cons p rest ih =>
    obtain ⟨x, b⟩ := p
    obtain ⟨hlt, hrest⟩ := ordered_cons.mp h
    rcases List.mem_cons.mp hmem with heq | hmem
    · obtain ⟨rfl, rfl⟩ := Prod.mk.inj heq
      simp [find?]
    · have : x ≠ k := (hlt _ hmem).ne
      simp [find?, this, ih hrest hmem]

/-- The values of a map, changed one by one. -/
def mapValues {β : Type} (f : α → β) (m : OrderedMap κ α) : OrderedMap κ β :=
  m.map fun p => (p.1, f p.2)

section MapValues

variable {β : Type} {f : α → β}

omit [LinearOrder κ] in
@[simp] theorem mapValues_cons (p : κ × α) (m : OrderedMap κ α) :
    mapValues f (p :: m) = (p.1, f p.2) :: mapValues f m := rfl

omit [LinearOrder κ] in
theorem mapValues_keys (m : OrderedMap κ α) : (m.mapValues f).map Prod.fst = m.map Prod.fst := by
  simp [mapValues]

@[simp] theorem find?_mapValues (m : OrderedMap κ α) (k : κ) :
    (m.mapValues f).find? k = (m.find? k).map f := by
  induction m with
  | nil => rfl
  | cons p m ih =>
    simp only [mapValues_cons, find?, ih]
    split_ifs <;> rfl

theorem mapValues_insert (m : OrderedMap κ α) (k : κ) (a : α) :
    (m.insert k a).mapValues f = (m.mapValues f).insert k (f a) := by
  induction m with
  | nil => rfl
  | cons p m ih =>
    simp only [mapValues_cons, insert]
    split_ifs
    all_goals simp [ih]

theorem mapValues_modify (m : OrderedMap κ α) (k : κ) {h : α → α} {h' : β → β}
    (hf : ∀ a, f (h a) = h' (f a)) : (m.modify k h).mapValues f = (m.mapValues f).modify k h' := by
  induction m with
  | nil => rfl
  | cons p m ih =>
    simp only [mapValues_cons, modify]
    split_ifs
    all_goals simp [ih, hf]

end MapValues

end OrderedMap

end ThymioDeviceManager.Library
