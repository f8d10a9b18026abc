import Mathlib.Tactic.Common

/-! # Streams of variable-length records

A list of words is read as a sequence of records: the first word of a record
tells how many words it has, and the reader moves on by that many. The reader is
an automaton whose state `skip` is the number of words left until the next
record starts. A list is `Framed` when reading it from its first word ends
exactly at its end. Concatenation is where framing matters: the reader of
`l₁ ++ l₂` is in step with the reader of `l₂` when `l₁` is framed.
-/

namespace ThymioDeviceManager.Library.Framing

variable {α : Type} (size : α → Nat)

/-- The number of words still to skip after the list. -/
def leftover : Nat → List α → Nat
  | skip, [] => skip
  | 0, a :: l => leftover (size a - 1) l
  | skip + 1, _ :: l => leftover skip l

/-- Reading from the first word ends exactly at the end. -/
def Framed (l : List α) : Prop := leftover size 0 l = 0

instance (l : List α) : Decidable (Framed size l) := inferInstanceAs (Decidable (_ = _))

/-- The first words of the records, with their indices. -/
def heads : Nat → List α → List (Nat × α)
  | _, [] => []
  | 0, a :: l => (0, a) :: (heads (size a - 1) l).map fun p => (p.1 + 1, p.2)
  | skip + 1, _ :: l => (heads skip l).map fun p => (p.1 + 1, p.2)

/-- Rewrite the first word of every record. -/
def visit (f : α → α) : Nat → List α → List α
  | _, [] => []
  | 0, a :: l => f a :: visit f (size (f a) - 1) l
  | skip + 1, a :: l => a :: visit f skip l

@[simp] theorem leftover_nil (skip : Nat) : leftover size skip [] = skip := by
  cases skip <;> rfl

@[simp] theorem heads_nil (skip : Nat) : heads size skip [] = [] := by
  cases skip <;> rfl

@[simp] theorem visit_nil (f : α → α) (skip : Nat) : visit size f skip [] = [] := by
  cases skip <;> rfl

theorem leftover_append (skip : Nat) (l₁ l₂ : List α) :
    leftover size skip (l₁ ++ l₂) = leftover size (leftover size skip l₁) l₂ := by
  induction l₁ generalizing skip with
  | nil => simp
  | cons a l ih => cases skip <;> simp [leftover, ih]

theorem Framed.nil : Framed size ([] : List α) := rfl

theorem Framed.append {l₁ l₂ : List α} (h₁ : Framed size l₁) (h₂ : Framed size l₂) :
    Framed size (l₁ ++ l₂) := by
  unfold Framed at *
  rw [leftover_append, h₁, h₂]

theorem heads_append (skip : Nat) (l₁ l₂ : List α) :
    heads size skip (l₁ ++ l₂) =
      heads size skip l₁ ++
        (heads size (leftover size skip l₁) l₂).map fun p => (p.1 + l₁.length, p.2) := by
  induction l₁ generalizing skip with
  | nil => simp
  | cons a l ih =>
    cases skip <;>
      simp [heads, leftover, ih, Function.comp_def, Nat.add_assoc]

theorem heads_append_of_framed {l₁ : List α} (h : Framed size l₁) (l₂ : List α) :
    heads size 0 (l₁ ++ l₂) =
      heads size 0 l₁ ++ (heads size 0 l₂).map fun p => (p.1 + l₁.length, p.2) := by
  rw [heads_append, h]

/-- A head is a word of the list. -/
theorem getElem?_of_mem_heads {skip : Nat} {l : List α} {i : Nat} {a : α}
    (h : (i, a) ∈ heads size skip l) : l[i]? = some a := by
  induction l generalizing skip i with
  | nil => simp at h
  | cons b l ih =>
    cases skip with
    | zero =>
      rcases List.mem_cons.mp h with h | h
      · cases h
        rfl
      · obtain ⟨⟨j, c⟩, hj, heq⟩ := List.mem_map.mp h
        cases heq
        simpa using ih hj
    | succ k =>
      obtain ⟨⟨j, c⟩, hj, heq⟩ := List.mem_map.mp h
      cases heq
      simpa using ih hj

theorem visit_append (f : α → α) (skip : Nat) (l₁ l₂ : List α) :
    visit size f skip (l₁ ++ l₂) =
      visit size f skip l₁ ++ visit size f (leftover (size ∘ f) skip l₁) l₂ := by
  induction l₁ generalizing skip with
  | nil => simp
  | cons a l ih => cases skip <;> simp [visit, leftover, ih]

@[simp] theorem length_visit (f : α → α) (skip : Nat) (l : List α) :
    (visit size f skip l).length = l.length := by
  induction l generalizing skip with
  | nil => simp
  | cons a l ih => cases skip <;> simp [visit, ih]

section Rewriting

variable {f : α → α} {skip : Nat} {l : List α}

/-- Rewriting that keeps the sizes of the records leaves the reader in step. -/
theorem leftover_comp (h : ∀ p ∈ heads size skip l, size (f p.2) = size p.2) :
    leftover (size ∘ f) skip l = leftover size skip l := by
  induction l generalizing skip with
  | nil => simp
  | cons a l ih =>
    cases skip with
    | zero =>
      have ha : size (f a) = size a := h (0, a) (List.mem_cons_self ..)
      have hl : ∀ p ∈ heads size (size a - 1) l, size (f p.2) = size p.2 := fun p hp =>
        h (p.1 + 1, p.2) (List.mem_cons_of_mem _ (List.mem_map_of_mem hp))
      rw [leftover, leftover, Function.comp_apply, ha, ih hl]
    | succ k => exact ih fun p hp => h (p.1 + 1, p.2) (List.mem_map_of_mem hp)

theorem visit_append_of_framed {l₁ : List α} (hframed : Framed size l₁)
    (h : ∀ p ∈ heads size 0 l₁, size (f p.2) = size p.2) (l₂ : List α) :
    visit size f 0 (l₁ ++ l₂) = visit size f 0 l₁ ++ visit size f 0 l₂ := by
  rw [visit_append, leftover_comp size h, hframed]

theorem visit_eq_self (h : ∀ p ∈ heads size skip l, f p.2 = p.2) : visit size f skip l = l := by
  induction l generalizing skip with
  | nil => simp
  | cons a l ih =>
    cases skip with
    | zero =>
      have ha : f a = a := h (0, a) (List.mem_cons_self ..)
      have hl : ∀ p ∈ heads size (size a - 1) l, f p.2 = p.2 := fun p hp =>
        h (p.1 + 1, p.2) (List.mem_cons_of_mem _ (List.mem_map_of_mem hp))
      rw [visit, ha, ih hl]
    | succ k => rw [visit, ih fun p hp => h (p.1 + 1, p.2) (List.mem_map_of_mem hp)]

end Rewriting

/-! ## Records -/

theorem leftover_of_le {skip : Nat} {l : List α} (h : l.length ≤ skip) :
    leftover size skip l = skip - l.length := by
  induction l generalizing skip with
  | nil => simp
  | cons a l ih =>
    cases skip with
    | zero => simp at h
    | succ k =>
      rw [leftover, ih (by simpa using h), List.length_cons]
      omega

theorem heads_of_le {skip : Nat} {l : List α} (h : l.length ≤ skip) : heads size skip l = [] := by
  induction l generalizing skip with
  | nil => simp
  | cons a l ih =>
    cases skip with
    | zero => simp at h
    | succ k => rw [heads, ih (by simpa using h), List.map_nil]

theorem visit_of_le (f : α → α) {skip : Nat} {l : List α} (h : l.length ≤ skip) :
    visit size f skip l = l := by
  induction l generalizing skip with
  | nil => simp
  | cons a l ih =>
    cases skip with
    | zero => simp at h
    | succ k => rw [visit, ih (by simpa using h)]

/-- A whole record is framed. -/
theorem framed_record {a : α} {l : List α} (h : size a = l.length + 1) : Framed size (a :: l) := by
  unfold Framed
  rw [leftover, leftover_of_le size (by omega)]
  omega

theorem heads_record {a : α} {l : List α} (h : size a = l.length + 1) :
    heads size 0 (a :: l) = [(0, a)] := by
  rw [heads, heads_of_le size (by omega), List.map_nil]

theorem visit_record {f : α → α} {a : α} {l : List α} (h : size (f a) = l.length + 1) :
    visit size f 0 (a :: l) = f a :: l := by
  rw [visit, visit_of_le size f (by omega)]

section Map

variable {β : Type} (g : β → α)

theorem heads_map (skip : Nat) (l : List β) :
    heads size skip (l.map g) = (heads (size ∘ g) skip l).map fun p => (p.1, g p.2) := by
  induction l generalizing skip with
  | nil => simp
  | cons a l ih => cases skip <;> simp [heads, ih, Function.comp_def]

theorem leftover_map (skip : Nat) (l : List β) :
    leftover size skip (l.map g) = leftover (size ∘ g) skip l := by
  induction l generalizing skip with
  | nil => simp
  | cons a l ih => cases skip <;> simp [leftover, ih]

theorem visit_map (f : α → α) (f' : β → β) (hf : ∀ b, g (f' b) = f (g b)) (skip : Nat)
    (l : List β) :
    visit size f skip (l.map g) = (visit (size ∘ g) f' skip l).map g := by
  induction l generalizing skip with
  | nil => simp
  | cons a l ih => cases skip <;> simp [visit, ih, hf]

end Map

section SizePreserving

variable {f : α → α} (hf : ∀ a, size (f a) = size a)
include hf

/-- Word by word: a head is rewritten, every other word is kept. -/
theorem getElem?_visit (skip : Nat) (l : List α) (i : Nat) :
    (∃ a, (i, a) ∈ heads size skip l ∧ (Framing.visit size f skip l)[i]? = some (f a)) ∨
      ((∀ a, (i, a) ∉ heads size skip l) ∧ (Framing.visit size f skip l)[i]? = l[i]?) := by
  induction l generalizing skip i with
  | nil => simp
  | cons b l ih =>
    cases skip with
    | zero =>
      cases i with
      | zero => exact .inl ⟨b, by simp [heads], by simp [Framing.visit]⟩
      | succ i =>
        simpa [heads, Framing.visit, hf] using ih (size b - 1) i
    | succ k =>
      cases i with
      | zero => simp [heads, Framing.visit]
      | succ i => simpa [heads, Framing.visit] using ih k i

end SizePreserving

end ThymioDeviceManager.Library.Framing
