import Mathlib.Data.List.Forall2
import Mathlib.Tactic.Push

/-! # Lists of results

A function that may fail is applied to the elements of a list from left to right; the
first failure ends it. If none fails, the results are those of the elements.
-/

namespace ThymioDeviceManager.Library.Traverse

variable {ε α β : Type} {f : α → Except ε β} {l : List α} {l' : List β}

theorem mapM_cons (a : α) (l : List α) :
    (a :: l).mapM f = (f a).bind fun b => (l.mapM f).map (b :: ·) := by
  rw [List.mapM_cons]
  cases f a with
  | error e => rfl
  | ok b =>
    cases l.mapM f with
    | error e => rfl
    | ok l' => rfl

theorem forall₂_of_mapM (h : l.mapM f = .ok l') : List.Forall₂ (fun a b => f a = .ok b) l l' := by
  induction l generalizing l' with
  | nil =>
    cases h
    exact .nil
  | cons a l ih =>
    rw [mapM_cons] at h
    cases ha : f a with
    | error e =>
      rw [ha] at h
      cases h
    | ok b =>
      cases hl : l.mapM f with
      | error e =>
        rw [ha, hl] at h
        cases h
      | ok rest =>
        rw [ha, hl] at h
        cases h
        exact .cons ha (ih hl)

/-- The list has results exactly when every element has one. -/
theorem exists_mapM_iff : (∃ l', l.mapM f = .ok l') ↔ ∀ a ∈ l, ∃ b, f a = .ok b := by
  constructor
  · rintro ⟨l', h⟩
    have hresults := forall₂_of_mapM h
    clear h
    induction hresults with
    | nil => simp
    | cons ha hrest ih =>
      rw [List.forall_mem_cons]
      exact ⟨⟨_, ha⟩, ih⟩
  · intro h
    induction l with
    | nil => exact ⟨[], rfl⟩
    | cons a l ih =>
      obtain ⟨b, hb⟩ := h a List.mem_cons_self
      obtain ⟨rest, hrest⟩ := ih fun a' ha' => h a' (List.mem_cons_of_mem _ ha')
      exact ⟨b :: rest, by rw [mapM_cons, hb, hrest]; rfl⟩

/-- All results have a property exactly when the result of every element has it. -/
theorem forall_mem_iff {P : β → Prop} (h : l.mapM f = .ok l') :
    (∀ b ∈ l', P b) ↔ ∀ a ∈ l, ∀ b, f a = .ok b → P b := by
  have hresults := forall₂_of_mapM h
  clear h
  induction hresults with
  | nil => simp
  | cons ha hrest ih =>
    rw [List.forall_mem_cons, List.forall_mem_cons]
    refine and_congr ?_ ih
    simp [ha]

theorem eq_filterMap (h : l.mapM f = .ok l') : l' = l.filterMap fun a => (f a).toOption := by
  have hresults := forall₂_of_mapM h
  clear h
  induction hresults with
  | nil => rfl
  | cons ha _ ih =>
    rw [List.filterMap_cons, ha, ← ih]
    rfl

/-- Another order of the list gives the same results in another order. -/
theorem perm_of_perm {m : List α} {m' : List β} (hperm : m.Perm l) (h : l.mapM f = .ok l')
    (hm : m.mapM f = .ok m') : m'.Perm l' := by
  rw [eq_filterMap h, eq_filterMap hm]
  exact hperm.filterMap _

theorem error_or_ok (l : List α) : (∃ e, l.mapM f = .error e) ∨ ∃ l', l.mapM f = .ok l' := by
  cases l.mapM f with
  | error e => exact .inl ⟨e, rfl⟩
  | ok l' => exact .inr ⟨l', rfl⟩

/-- An error is the one of an element. -/
theorem error_of_mapM {e : ε} (h : l.mapM f = .error e) : ∃ a ∈ l, f a = .error e := by
  induction l with
  | nil => cases h
  | cons a l ih =>
    rw [mapM_cons] at h
    cases ha : f a with
    | error e' =>
      rw [ha] at h
      cases h
      exact ⟨a, List.mem_cons_self, ha⟩
    | ok b =>
      cases hl : l.mapM f with
      | error e' =>
        rw [ha, hl] at h
        cases h
        obtain ⟨a', hmem, ha'⟩ := ih hl
        exact ⟨a', List.mem_cons_of_mem _ hmem, ha'⟩
      | ok rest =>
        rw [ha, hl] at h
        cases h

/-- The list has no results exactly when some element has none. -/
theorem exists_error_iff : (∃ e, l.mapM f = .error e) ↔ ∃ a ∈ l, ∀ b, f a ≠ .ok b := by
  constructor
  · rintro ⟨e, he⟩
    by_contra hall
    push Not at hall
    obtain ⟨l', hl'⟩ := exists_mapM_iff.mpr hall
    rw [he] at hl'
    cases hl'
  · rintro ⟨a, ha, hnone⟩
    obtain h | h := error_or_ok l (f := f)
    · exact h
    · obtain ⟨b, hb⟩ := exists_mapM_iff.mp h a ha
      exact absurd hb (hnone b)

end ThymioDeviceManager.Library.Traverse
