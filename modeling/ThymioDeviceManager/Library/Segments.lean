import Mathlib.Data.List.Pairwise

/-! # Memories given by segments

A segment is a list of values with the address of the first one. Segments that are apart have
at most one value at an address.
-/

namespace ThymioDeviceManager.Library

abbrev Segment (α : Type) := Nat × List α

namespace Segment

variable {α : Type}

/-- The first address behind the segment. -/
def stop (s : Segment α) : Nat := s.1 + s.2.length

/-- The value of the segment at an address. -/
def HasAt (s : Segment α) (a : Nat) (x : α) : Prop := s.1 ≤ a ∧ s.2[a - s.1]? = some x

def Apart (s t : Segment α) : Prop := s.stop ≤ t.1 ∨ t.stop ≤ s.1

instance (s t : Segment α) : Decidable (Apart s t) := inferInstanceAs (Decidable (_ ∨ _))

/-- Some segment has the value at the address. -/
def Holds (segments : List (Segment α)) (a : Nat) (x : α) : Prop := ∃ s ∈ segments, HasAt s a x

variable {s t : Segment α} {segments : List (Segment α)} {a : Nat} {x y : α}

theorem exists_hasAt_iff : (∃ x, HasAt s a x) ↔ s.1 ≤ a ∧ a < s.stop := by
  unfold HasAt stop
  constructor
  · rintro ⟨x, hle, hx⟩
    have hlt := (List.getElem?_eq_some_iff.mp hx).1
    omega
  · rintro ⟨hle, hlt⟩
    have hin : a - s.1 < s.2.length := by omega
    exact ⟨s.2[a - s.1], hle, List.getElem?_eq_getElem hin⟩

theorem HasAt.mem_range (h : HasAt s a x) : s.1 ≤ a ∧ a < s.stop := exists_hasAt_iff.mp ⟨x, h⟩

/-- Segments that are apart share no address. -/
theorem Apart.not_hasAt (h : Apart s t) (hs : HasAt s a x) : ¬ HasAt t a y := by
  intro ht
  have hs := hs.mem_range
  have ht := ht.mem_range
  rcases h with h | h
  · omega
  · omega

/-- The two parts of a segment. -/
theorem hasAt_append {first : Nat} {u v : List α} :
    HasAt (first, u ++ v) a x ↔ HasAt (first, u) a x ∨ HasAt (first + u.length, v) a x := by
  unfold HasAt
  dsimp only
  by_cases hin : a - first < u.length
  · rw [List.getElem?_append_left hin]
    constructor
    · exact Or.inl
    · rintro (h | ⟨hle, hx⟩)
      · exact h
      · omega
  · rw [List.getElem?_append_right (by omega), List.getElem?_eq_none (by omega : u.length ≤ a - first)]
    have hsub : a - first - u.length = a - (first + u.length) := by omega
    rw [hsub]
    constructor
    · rintro ⟨hle, hx⟩
      have hlt := (List.getElem?_eq_some_iff.mp hx).1
      by_cases hfar : first + u.length ≤ a
      · exact Or.inr ⟨hfar, hx⟩
      · omega
    · rintro (⟨-, hx⟩ | ⟨hle, hx⟩)
      · cases hx
      · exact ⟨by omega, hx⟩

@[simp] theorem not_holds_nil : ¬ Holds [] a x := by
  simp [Holds]

theorem holds_cons : Holds (s :: segments) a x ↔ HasAt s a x ∨ Holds segments a x := by
  simp [Holds]

theorem holds_append {segments' : List (Segment α)} :
    Holds (segments ++ segments') a x ↔ Holds segments a x ∨ Holds segments' a x := by
  simp [Holds, or_and_right, exists_or]

theorem Holds.of_mem (h : s ∈ segments) (hs : HasAt s a x) : Holds segments a x := ⟨s, h, hs⟩

/-- Addresses of a segment that is apart from all others are theirs no more. -/
theorem not_holds_of_apart (h : ∀ t ∈ segments, Apart t s) (hs : HasAt s a x) :
    ¬ Holds segments a y := by
  rintro ⟨t, ht, hy⟩
  exact (h t ht).not_hasAt hy hs

end Segment

end ThymioDeviceManager.Library
