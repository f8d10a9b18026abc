import Mathlib.Data.Set.Basic
import Mathlib.Logic.Function.Basic

/-! # Stores with corresponding keys

Two functions, of which some keys of the one correspond to keys of the other. As
long as the correspondence is one-to-one, a write to corresponding keys keeps the
functions equal along it, and a write to a key without a partner is not seen.
-/

namespace ThymioDeviceManager.Library

variable {α β γ : Type}

/-- No two pairs share the left key or the right key only. -/
def OneToOne (pairs : Set (α × β)) : Prop := ∀ e ∈ pairs, ∀ e' ∈ pairs, e.1 = e'.1 ↔ e.2 = e'.2

/-- The functions have the same values at corresponding keys. -/
def EqualAlong (pairs : Set (α × β)) (f : α → γ) (g : β → γ) : Prop := ∀ e ∈ pairs, f e.1 = g e.2

/-- The pairs share neither left keys nor right keys. -/
def KeysApart (xs ys : List (α × β)) : Prop := ∀ e ∈ xs, ∀ e' ∈ ys, e.1 ≠ e'.1 ∧ e.2 ≠ e'.2

theorem keysApart_append {xs ys zs : List (α × β)} (hy : KeysApart xs ys) (hz : KeysApart xs zs) :
    KeysApart xs (ys ++ zs) := by
  intro e he e' he'
  obtain he' | he' := List.mem_append.mp he'
  · exact hy e he e' he'
  · exact hz e he e' he'

theorem oneToOne_singleton (e : α × β) : OneToOne {e' | e' ∈ [e]} := by
  intro a ha b hb
  rw [List.mem_singleton.mp ha, List.mem_singleton.mp hb]
  exact iff_of_true rfl rfl

theorem oneToOne_append {xs ys : List (α × β)} (hx : OneToOne {e | e ∈ xs})
    (hy : OneToOne {e | e ∈ ys}) (h : KeysApart xs ys) : OneToOne {e | e ∈ xs ++ ys} := by
  intro e he e' he'
  rcases List.mem_append.mp he with he | he <;> rcases List.mem_append.mp he' with he' | he'
  · exact hx e he e' he'
  · exact iff_of_false (h e he e' he').1 (h e he e' he').2
  · exact iff_of_false (h e' he' e he).1.symm (h e' he' e he).2.symm
  · exact hy e he e' he'

variable {pairs : Set (α × β)} {f : α → γ} {g : β → γ}

theorem EqualAlong.update [DecidableEq α] [DecidableEq β] (h : EqualAlong pairs f g)
    (hone : OneToOne pairs) {a : α} {b : β} (hmem : (a, b) ∈ pairs) (c : γ) :
    EqualAlong pairs (Function.update f a c) (Function.update g b c) := by
  intro e he
  have hiff := hone _ he _ hmem
  by_cases hkey : e.1 = a
  · rw [hkey, hiff.mp hkey, Function.update_self, Function.update_self]
  · rw [Function.update_of_ne hkey, Function.update_of_ne (mt hiff.mpr hkey)]
    exact h e he

/-- A key without a partner can be written. -/
theorem EqualAlong.update_left [DecidableEq α] (h : EqualAlong pairs f g) {a : α}
    (hmem : ∀ b, (a, b) ∉ pairs) (c : γ) : EqualAlong pairs (Function.update f a c) g := by
  intro e he
  have hkey : e.1 ≠ a := by
    intro hkey
    apply hmem e.2
    rw [← hkey]
    exact he
  rw [Function.update_of_ne hkey]
  exact h e he

end ThymioDeviceManager.Library
