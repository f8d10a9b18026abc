import Mathlib.Order.Bounds.Basic
import Mathlib.Order.MinMax
import Mathlib.Tactic.Common

/-! # The distance of two words

The distance is the least number of insertions, deletions and substitutions that lead from one word
to the other. It obeys the recursion over the first letters: an edit changes the value of the
recursion by one at most, and the recursion is read off a sequence of edits.
-/

namespace ThymioDeviceManager.Library

variable {α : Type}

/-- One letter is inserted, deleted or replaced. -/
inductive Edit : List α → List α → Prop
  | insert (p s : List α) (b : α) : Edit (p ++ s) (p ++ b :: s)
  | delete (p s : List α) (a : α) : Edit (p ++ a :: s) (p ++ s)
  | substitute (p s : List α) (a b : α) : Edit (p ++ a :: s) (p ++ b :: s)

/-- A number of edits leads from one word to the other. -/
inductive Edits : Nat → List α → List α → Prop
  | refl (s : List α) : Edits 0 s s
  | step {n : Nat} {s s' t : List α} (h : Edit s s') (hrest : Edits n s' t) : Edits (n + 1) s t

theorem Edit.cons (c : α) {s t : List α} (h : Edit s t) : Edit (c :: s) (c :: t) := by
  cases h with
  | insert p s b => exact .insert (c :: p) s b
  | delete p s a => exact .delete (c :: p) s a
  | substitute p s a b => exact .substitute (c :: p) s a b

theorem Edit.reverse {s t : List α} (h : Edit s t) : Edit s.reverse t.reverse := by
  cases h with
  | insert p s b => simpa using Edit.insert s.reverse p.reverse b
  | delete p s a => simpa using Edit.delete s.reverse p.reverse a
  | substitute p s a b => simpa using Edit.substitute s.reverse p.reverse a b

namespace Edits

theorem cons (c : α) {n : Nat} {s t : List α} (h : Edits n s t) : Edits n (c :: s) (c :: t) := by
  induction h with
  | refl s => exact .refl (c :: s)
  | step h _ ih => exact .step (h.cons c) ih

theorem reverse {n : Nat} {s t : List α} (h : Edits n s t) : Edits n s.reverse t.reverse := by
  induction h with
  | refl s => exact .refl s.reverse
  | step h _ ih => exact .step h.reverse ih

/-- One more edit at the end. -/
theorem snoc {n : Nat} {s t t' : List α} (h : Edits n s t) (hlast : Edit t t') :
    Edits (n + 1) s t' := by
  induction h with
  | refl s => exact .step hlast (.refl t')
  | step h _ ih => exact .step h (ih hlast)

end Edits

variable [DecidableEq α]

/-- The recursion over the first letters. -/
def distance : List α → List α → Nat
  | [], t => t.length
  | a :: s, [] => (a :: s).length
  | a :: s, b :: t =>
    min (min (distance s (b :: t) + 1) (distance (a :: s) t + 1))
      (distance s t + if a = b then 0 else 1)

@[simp] theorem distance_nil_right (s : List α) : distance s [] = s.length := by
  cases s <;> simp [distance]

@[simp] theorem distance_nil_left (t : List α) : distance [] t = t.length := by
  simp [distance]

theorem distance_cons (a b : α) (s t : List α) : distance (a :: s) (b :: t) =
    min (min (distance s (b :: t) + 1) (distance (a :: s) t + 1))
      (distance s t + if a = b then 0 else 1) := by
  rw [distance]

theorem distance_self (s : List α) : distance s s = 0 := by
  induction s with
  | nil => simp
  | cons a s ih => simp [distance_cons, ih]

/-! ## The recursion is reached -/

theorem edits_distance (s t : List α) : Edits (distance s t) s t := by
  induction s generalizing t with
  | nil =>
    rw [distance_nil_left]
    induction t with
    | nil => exact .refl []
    | cons b t ih => exact ih.snoc (.insert [] t b)
  | cons a s ihs =>
    induction t with
    | nil =>
      have h := ihs []
      rw [distance_nil_right] at h ⊢
      exact .step (.delete [] s a) h
    | cons b t iht =>
      rw [distance_cons]
      have hdelete : Edits (distance s (b :: t) + 1) (a :: s) (b :: t) :=
        .step (.delete [] s a) (ihs (b :: t))
      have hinsert : Edits (distance (a :: s) t + 1) (a :: s) (b :: t) := iht.snoc (.insert [] t b)
      have hkeep : Edits (distance s t + if a = b then 0 else 1) (a :: s) (b :: t) := by
        by_cases h : a = b
        · subst h
          rw [if_pos rfl]
          exact (ihs t).cons a
        · rw [if_neg h]
          exact .step (.substitute [] s a b) ((ihs t).cons b)
      rcases min_choice (min (distance s (b :: t) + 1) (distance (a :: s) t + 1))
        (distance s t + if a = b then 0 else 1) with h | h
      · rw [h]
        rcases min_choice (distance s (b :: t) + 1) (distance (a :: s) t + 1) with h | h
        · rw [h]
          exact hdelete
        · rw [h]
          exact hinsert
      · rw [h]
        exact hkeep

/-! ## The recursion is a lower bound -/

theorem distance_cons_left_le (a : α) (s t : List α) : distance (a :: s) t ≤ distance s t + 1 := by
  cases t with
  | nil => simp
  | cons b t =>
    rw [distance_cons]
    omega

theorem distance_cons_right_le (b : α) (s t : List α) : distance s (b :: t) ≤ distance s t + 1 := by
  cases s with
  | nil => simp
  | cons a s =>
    rw [distance_cons]
    omega

theorem distance_cons_cons_le (a b : α) (s t : List α) :
    distance (a :: s) (b :: t) ≤ distance s t + 1 := by
  rw [distance_cons]
  split_ifs <;> omega

theorem distance_le_of_insert (a : α) (s t : List α) :
    distance s t ≤ distance (a :: s) t + 1 := by
  induction t with
  | nil =>
    simp only [distance_nil_right, List.length_cons]
    omega
  | cons b t ih =>
    have hright := distance_cons_right_le b s t
    rw [distance_cons]
    omega

theorem distance_le_of_substitute (a b : α) (s t : List α) :
    distance (a :: s) t ≤ distance (b :: s) t + 1 := by
  induction t with
  | nil => simp
  | cons c t ih =>
    have hleft := distance_cons_left_le a s (c :: t)
    have hright := distance_cons_right_le c (a :: s) t
    have hboth := distance_cons_cons_le a c s t
    rw [distance_cons b]
    omega

/-- What two words have in front does not matter. -/
theorem distance_cons_le_of_le {s s' : List α} (h : ∀ t, distance s t ≤ distance s' t + 1) (c : α)
    (t : List α) : distance (c :: s) t ≤ distance (c :: s') t + 1 := by
  induction t with
  | nil =>
    have hnil := h []
    simp only [distance_nil_right, List.length_cons] at hnil ⊢
    omega
  | cons b t ih =>
    have hall := h (b :: t)
    have hrest := h t
    rw [distance_cons, distance_cons]
    omega

theorem Edit.distance_le {s s' : List α} (h : Edit s s') (t : List α) :
    distance s t ≤ distance s' t + 1 := by
  cases h with
  | insert p s b =>
    induction p generalizing t with
    | nil => exact distance_le_of_insert b s t
    | cons c p ih => exact distance_cons_le_of_le ih c t
  | delete p s a =>
    induction p generalizing t with
    | nil => exact distance_cons_left_le a s t
    | cons c p ih => exact distance_cons_le_of_le ih c t
  | substitute p s a b =>
    induction p generalizing t with
    | nil => exact distance_le_of_substitute a b s t
    | cons c p ih => exact distance_cons_le_of_le ih c t

theorem Edits.distance_le {n : Nat} {s t : List α} (h : Edits n s t) : distance s t ≤ n := by
  induction h with
  | refl s => exact (distance_self s).le
  | step h _ ih => exact (h.distance_le _).trans (Nat.succ_le_succ ih)

/-- The recursion gives the least number of edits. -/
theorem isLeast_distance (s t : List α) : IsLeast {n | Edits n s t} (distance s t) :=
  ⟨edits_distance s t, fun _ h => h.distance_le⟩

theorem distance_reverse (s t : List α) : distance s.reverse t.reverse = distance s t := by
  refine Nat.le_antisymm (edits_distance s t).reverse.distance_le ?_
  simpa using (edits_distance s.reverse t.reverse).reverse.distance_le

end ThymioDeviceManager.Library
