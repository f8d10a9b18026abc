import Mathlib.Data.List.Count
import Mathlib.Data.List.Basic

/-! # Serving by key in turns

Elements wait in a list, and keys are called one after the other; each takes the first of the
elements that have it. Which elements are taken does not depend on the order of the keys: those of
a key are taken in turns.
-/

namespace ThymioDeviceManager.Library

variable {α κ : Type} [DecidableEq κ]

/-- The elements that are left when every key has taken the first of those that have it. -/
def leave (key : α → κ) : List κ → List α → List α
  | _, [] => []
  | keys, x :: xs =>
    if key x ∈ keys then leave key (keys.erase (key x)) xs else x :: leave key keys xs

/-- The elements that the keys take. -/
def taken (key : α → κ) : List κ → List α → List α
  | _, [] => []
  | keys, x :: xs =>
    if key x ∈ keys then x :: taken key (keys.erase (key x)) xs else taken key keys xs

/-- The element whose turn it is when as many elements with the key have been taken. -/
def turn (key : α → κ) (xs : List α) (k : κ) (n : Nat) : Option α :=
  (xs.filter fun x => key x = k)[n]?

/-- The elements without the first one that has the key. -/
def callKey (key : α → κ) (xs : List α) (k : κ) : List α := xs.eraseP fun x => key x = k

variable (key : α → κ)

theorem turn_zero (xs : List α) (k : κ) : turn key xs k 0 = xs.find? fun x => key x = k := by
  rw [turn, ← List.head?_eq_getElem?, List.head?_filter]

theorem turn_callKey (xs : List α) (k : κ) (n : Nat) :
    turn key (callKey key xs k) k n = turn key xs k (n + 1) := by
  unfold turn callKey
  induction xs with
  | nil => rfl
  | cons x xs ih =>
    by_cases hx : key x = k
    · simp [hx]
    · simpa [hx] using ih

theorem turn_callKey_of_ne {k k' : κ} (hne : k' ≠ k) (xs : List α) (n : Nat) :
    turn key (callKey key xs k') k n = turn key xs k n := by
  unfold turn callKey
  congr 1
  induction xs with
  | nil => rfl
  | cons x xs ih =>
    by_cases hx : key x = k'
    · simp [hx, hne]
    · simp [hx, List.filter_cons, ih]

theorem find?_eq_none_iff_map (xs : List α) (k : κ) :
    (xs.find? fun x => key x = k) = none ↔ k ∉ xs.map key := by
  simp [List.find?_eq_none]

theorem callKey_of_not_mem {xs : List α} {k : κ} (h : k ∉ xs.map key) : callKey key xs k = xs := by
  rw [callKey, List.eraseP_of_forall_not]
  intro x hx heq
  exact h (List.mem_map.mpr ⟨x, hx, by simpa using heq⟩)

theorem map_callKey (xs : List α) (k : κ) : (callKey key xs k).map key = (xs.map key).erase k := by
  induction xs with
  | nil => rfl
  | cons x xs ih =>
    unfold callKey at ih ⊢
    by_cases hx : key x = k
    · simp [hx]
    · simp [hx, ih, List.erase_cons_tail]

/-- A key that nobody has takes nothing. -/
theorem taken_cons_of_not_mem {k : κ} (keys : List κ) {xs : List α} (h : k ∉ xs.map key) :
    taken key (k :: keys) xs = taken key keys xs := by
  induction xs generalizing keys with
  | nil => rfl
  | cons x xs ih =>
    obtain ⟨hne, hxs⟩ : k ≠ key x ∧ k ∉ xs.map key := by simpa using h
    rw [taken, taken]
    by_cases hx : key x ∈ keys
    · rw [if_pos (List.mem_cons_of_mem _ hx), if_pos hx, List.erase_cons_tail (by simpa using hne),
        ih _ hxs]
    · rw [if_neg (by simpa [hne.symm] using hx), if_neg hx, ih _ hxs]

/-- The first key takes its element, and the others take theirs of what is left. -/
theorem mem_taken_cons {k : κ} {x : α} {xs : List α} (keys : List κ)
    (h : (xs.find? fun x => key x = k) = some x) (y : α) :
    y ∈ taken key (k :: keys) xs ↔ y = x ∨ y ∈ taken key keys (callKey key xs k) := by
  induction xs generalizing keys with
  | nil => simp at h
  | cons z xs ih =>
    by_cases hz : key z = k
    · obtain rfl : z = x := by simpa [hz] using h
      simp [taken, callKey, hz]
    · have hcall : callKey key (z :: xs) k = z :: callKey key xs k := by simp [callKey, hz]
      have hfind : (xs.find? fun x => key x = k) = some x := by simpa [hz] using h
      rw [hcall, taken, taken]
      by_cases hmem : key z ∈ keys
      · rw [if_pos (List.mem_cons_of_mem _ hmem), if_pos hmem,
          List.erase_cons_tail (by simpa using fun h => hz h.symm), List.mem_cons, List.mem_cons,
          ih _ hfind]
        exact or_left_comm
      · rw [if_neg (by simpa [hz] using hmem), if_neg hmem, ih _ hfind]

end ThymioDeviceManager.Library
