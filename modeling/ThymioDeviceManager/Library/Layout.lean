import Mathlib.Algebra.GroupWithZero.Nat
import Mathlib.Data.List.Perm.Basic
import Mathlib.Tactic.Common

/-! # Blocks that tile an interval

A list of blocks, each with a start and a size, tiles an interval when every block
starts where the one before ends. Writing into the memory that the blocks make up
splits at their boundaries.
-/

namespace ThymioDeviceManager.Library.Layout

/-! ## Tilings -/

section Tilings

variable {σ : Type} (start size : σ → Nat)

/-- The blocks follow each other from `lo` to `hi`. -/
def Tiles : Nat → Nat → List σ → Prop
  | lo, hi, [] => lo = hi
  | lo, hi, b :: blocks => start b = lo ∧ Tiles (lo + size b) hi blocks

/-- The size of all blocks together. -/
def total (blocks : List σ) : Nat := (blocks.map size).sum

@[simp] theorem total_nil : total size [] = 0 := rfl

@[simp] theorem total_cons (b : σ) (blocks : List σ) :
    total size (b :: blocks) = size b + total size blocks := rfl

variable {start size} {lo hi : Nat} {blocks : List σ}

theorem Tiles.hi_eq (h : Tiles start size lo hi blocks) : hi = lo + total size blocks := by
  induction blocks generalizing lo with
  | nil => exact h.symm
  | cons b blocks ih =>
    rw [ih h.2, total_cons, Nat.add_assoc]

theorem Tiles.start_ge (h : Tiles start size lo hi blocks) {b : σ} (hb : b ∈ blocks) :
    lo ≤ start b := by
  induction blocks generalizing lo with
  | nil => cases hb
  | cons c blocks ih =>
    cases hb with
    | head => exact Nat.le_of_eq h.1.symm
    | tail _ hb => exact Nat.le_trans (Nat.le_add_right _ _) (ih h.2 hb)

theorem Tiles.pairwise (h : Tiles start size lo hi blocks) :
    blocks.Pairwise fun b c => start b + size b ≤ start c := by
  induction blocks generalizing lo with
  | nil => exact List.Pairwise.nil
  | cons b blocks ih =>
    apply List.Pairwise.cons _ (ih h.2)
    intro c hc
    rw [h.1]
    exact Tiles.start_ge h.2 hc

/-- The blocks of a tiling cover its interval and nothing else. -/
theorem Tiles.covered_iff (h : Tiles start size lo hi blocks) (a : Nat) :
    (∃ b ∈ blocks, start b ≤ a ∧ a < start b + size b) ↔ lo ≤ a ∧ a < hi := by
  induction blocks generalizing lo with
  | nil =>
    have hlo : lo = hi := h
    simp
    omega
  | cons b blocks ih =>
    have hstart := h.1
    have hhi := h.2.hi_eq
    rw [List.exists_mem_cons_iff, ih h.2]
    omega

/-- Every address of `[lo, hi)` is in a block, blocks do not overlap, and none is empty. -/
structure Partition (start size : σ → Nat) (lo hi : Nat) (blocks : List σ) : Prop where
  nonempty : ∀ b ∈ blocks, 0 < size b
  inside : ∀ b ∈ blocks, lo ≤ start b ∧ start b + size b ≤ hi
  disjoint : blocks.Pairwise fun b c => start b + size b ≤ start c ∨ start c + size c ≤ start b
  covered : ∀ a, lo ≤ a → a < hi → ∃ b ∈ blocks, start b ≤ a ∧ a < start b + size b

theorem Partition.perm {blocks' : List σ} (h : Partition start size lo hi blocks)
    (hperm : blocks'.Perm blocks) : Partition start size lo hi blocks' where
  nonempty b hb := h.nonempty b (hperm.mem_iff.mp hb)
  inside b hb := h.inside b (hperm.mem_iff.mp hb)
  disjoint := hperm.symm.pairwise h.disjoint fun hbc => hbc.symm
  covered a hlo hhi := by
    obtain ⟨b, hb, hcover⟩ := h.covered a hlo hhi
    exact ⟨b, hperm.mem_iff.mpr hb, hcover⟩

theorem Partition.map {τ : Type} {start' size' : τ → Nat} {f : σ → τ}
    (h : Partition start size lo hi blocks) (hstart : ∀ b, start' (f b) = start b)
    (hsize : ∀ b, size' (f b) = size b) : Partition start' size' lo hi (blocks.map f) where
  nonempty := by simpa [hsize] using h.nonempty
  inside := by simpa [hstart, hsize] using h.inside
  disjoint := by
    rw [List.pairwise_map]
    simpa [hstart, hsize] using h.disjoint
  covered := by simpa [hstart, hsize] using h.covered

/-- In the order of their starts, the blocks of a partition follow each other. -/
theorem Partition.tiles (h : Partition start size lo hi blocks) (hlo : lo ≤ hi)
    (hsorted : blocks.Pairwise fun b c => start b < start c) : Tiles start size lo hi blocks := by
  induction blocks generalizing lo with
  | nil =>
    by_contra hne
    obtain ⟨b, hb, -⟩ := h.covered lo (Nat.le_refl lo) (Nat.lt_of_le_of_ne hlo hne)
    cases hb
  | cons b blocks ih =>
    obtain ⟨hfirst, hsorted⟩ := List.pairwise_cons.mp hsorted
    obtain ⟨hapart, hdisjoint⟩ := List.pairwise_cons.mp h.disjoint
    have hinside := h.inside b List.mem_cons_self
    have hpositive := h.nonempty b List.mem_cons_self
    have hstart : start b = lo := by
      obtain ⟨c, hc, hle, -⟩ := h.covered lo (Nat.le_refl lo) (by omega)
      cases hc with
      | head => omega
      | tail _ hc =>
        have hlt := hfirst c hc
        omega
    have hbehind : ∀ c ∈ blocks, lo + size b ≤ start c := by
      intro c hc
      have hlt := hfirst c hc
      have hdis := hapart c hc
      omega
    refine ⟨hstart, ih ⟨?_, ?_, hdisjoint, ?_⟩ (by omega) hsorted⟩
    · exact fun c hc => h.nonempty c (List.mem_cons_of_mem _ hc)
    · exact fun c hc => ⟨hbehind c hc, (h.inside c (List.mem_cons_of_mem _ hc)).2⟩
    · intro a ha hhi
      obtain ⟨c, hc, hcover⟩ := h.covered a (by omega) hhi
      cases hc with
      | head => omega
      | tail _ hc => exact ⟨c, hc, hcover⟩

end Tilings

/-! ## Writing -/

section Overwrite

variable {α : Type}

/-- The list with `data` in the place of what it has from `start` on. -/
def overwrite (l : List α) (start : Nat) (data : List α) : List α :=
  l.take start ++ data ++ l.drop (start + data.length)

@[simp] theorem overwrite_nil (l : List α) (start : Nat) : overwrite l start [] = l := by
  simp [overwrite]

theorem length_overwrite {l data : List α} {start : Nat} (h : start + data.length ≤ l.length) :
    (overwrite l start data).length = l.length := by
  simp only [overwrite, List.length_append, List.length_take, List.length_drop]
  omega

/-- Word by word: new data inside, old words outside. -/
theorem getElem?_overwrite {l data : List α} {start : Nat} (h : start + data.length ≤ l.length)
    (i : Nat) : (overwrite l start data)[i]? =
      if start ≤ i ∧ i < start + data.length then data[i - start]? else l[i]? := by
  have htake : (l.take start).length = start := by
    rw [List.length_take]
    omega
  unfold overwrite
  rw [List.append_assoc, List.getElem?_append, htake]
  split_ifs with hbefore hinside hinside
  · omega
  · rw [List.getElem?_take, if_pos hbefore]
  · rw [List.getElem?_append_left (by omega)]
  · rw [List.getElem?_append_right (by omega), List.getElem?_drop]
    congr 1
    omega

/-- The data is what the whole has at its place. -/
structure PartOf (whole : List α) (start : Nat) (data : List α) : Prop where
  inside : start + data.length ≤ whole.length
  same : ∀ i < data.length, data[i]? = whole[start + i]?

theorem partOf_take_drop {whole : List α} {start n : Nat} (h : start + n ≤ whole.length) :
    PartOf whole start ((whole.drop start).take n) where
  inside := by
    rw [List.length_take, List.length_drop]
    omega
  same i hi := by
    rw [List.length_take] at hi
    rw [List.getElem?_take, if_pos (by omega), List.getElem?_drop]

section Parts

variable {σ : Type} {start : σ → Nat} {data : σ → List α} {blocks : List σ} {whole memory : List α}

/-- Writing parts of a whole: the order does not matter, since each of them says the same about
an address that it has. -/
theorem getElem?_foldl_overwrite (hparts : ∀ b ∈ blocks, PartOf whole (start b) (data b))
    (hroom : whole.length ≤ memory.length) (a : Nat) :
    (blocks.foldl (fun m b => overwrite m (start b) (data b)) memory)[a]? =
      if ∃ b ∈ blocks, start b ≤ a ∧ a < start b + (data b).length then whole[a]?
      else memory[a]? := by
  induction blocks generalizing memory with
  | nil => simp
  | cons b blocks ih =>
    have hb := hparts b List.mem_cons_self
    have hfits : start b + (data b).length ≤ memory.length :=
      Nat.le_trans hb.inside hroom
    rw [List.foldl_cons, ih (fun c hc => hparts c (List.mem_cons_of_mem b hc))
      (by rwa [length_overwrite hfits]), getElem?_overwrite hfits]
    simp only [List.exists_mem_cons_iff]
    by_cases hlater : ∃ c ∈ blocks, start c ≤ a ∧ a < start c + (data c).length
    · rw [if_pos hlater, if_pos (Or.inr hlater)]
    · rw [if_neg hlater]
      by_cases hinside : start b ≤ a ∧ a < start b + (data b).length
      · rw [if_pos hinside, if_pos (Or.inl hinside), hb.same _ (by omega)]
        congr 1
        omega
      · rw [if_neg hinside, if_neg (not_or.mpr ⟨hinside, hlater⟩)]

/-- In any order, the parts of a tiling write the whole and nothing else. -/
theorem Tiles.foldl_overwrite {order : List σ}
    (h : Tiles start (fun b => (data b).length) 0 whole.length blocks)
    (hparts : ∀ b ∈ blocks, PartOf whole (start b) (data b)) (hroom : whole.length ≤ memory.length)
    (hperm : order.Perm blocks) :
    order.foldl (fun m b => overwrite m (start b) (data b)) memory =
      whole ++ memory.drop whole.length := by
  apply List.ext_getElem?
  intro a
  have hcovered : (∃ b ∈ order, start b ≤ a ∧ a < start b + (data b).length) ↔ a < whole.length := by
    simpa [hperm.mem_iff] using h.covered_iff a
  rw [getElem?_foldl_overwrite (fun b hb => hparts b (hperm.mem_iff.mp hb)) hroom, List.getElem?_append]
  by_cases ha : a < whole.length
  · rw [if_pos (hcovered.mpr ha), if_pos ha]
  · rw [if_neg (fun hc => ha (hcovered.mp hc)), if_neg ha, List.getElem?_drop]
    congr 1
    omega

end Parts

/-- A write that changes nothing. -/
theorem overwrite_eq_self_iff {l data : List α} {start : Nat}
    (h : start + data.length ≤ l.length) :
    overwrite l start data = l ↔ (l.drop start).take data.length = data := by
  have hsplit : l.take start ++ (l.drop start).take data.length ++ l.drop (start + data.length) =
      l := by
    rw [List.append_assoc, ← List.drop_drop, List.take_append_drop, List.take_append_drop]
  constructor
  · intro heq
    rw [overwrite] at heq
    rw [← heq, List.append_assoc, List.drop_append_of_le_length (by rw [List.length_take]; omega),
      List.drop_of_length_le (by rw [List.length_take]; omega), List.nil_append,
      List.take_append_of_le_length (Nat.le_refl _), List.take_of_length_le (Nat.le_refl _)]
  · intro heq
    rw [heq] at hsplit
    exact hsplit

/-- A write behind the first block. -/
theorem overwrite_append_right (a b : List α) {start : Nat} (data : List α)
    (h : a.length ≤ start) :
    overwrite (a ++ b) start data = a ++ overwrite b (start - a.length) data := by
  obtain ⟨k, rfl⟩ := Nat.exists_eq_add_of_le h
  simp only [overwrite, List.take_length_add_append, Nat.add_sub_cancel_left, Nat.add_assoc,
    List.drop_length_add_append, List.append_assoc]

/-- A write that starts in the first block: what does not fit goes on in the next. -/
theorem overwrite_append_left (a b : List α) {start : Nat} (data : List α)
    (h : start ≤ a.length) :
    overwrite (a ++ b) start data =
      overwrite a start (data.take (a.length - start)) ++
        overwrite b 0 (data.drop (a.length - start)) := by
  have hsplit := List.take_append_drop (a.length - start) data
  by_cases hfit : data.length ≤ a.length - start
  · rw [List.take_of_length_le hfit, List.drop_of_length_le hfit, overwrite_nil]
    simp only [overwrite, List.take_append_of_le_length h, List.append_assoc]
    rw [List.drop_append_of_le_length (by omega)]
  · have htake : (data.take (a.length - start)).length = a.length - start := by
      rw [List.length_take]
      omega
    have hdrop : start + data.length - a.length = (data.drop (a.length - start)).length := by
      rw [List.length_drop]
      omega
    simp only [overwrite, List.take_append_of_le_length h, htake, List.take_zero, List.nil_append,
      Nat.zero_add]
    rw [List.drop_append, List.drop_of_length_le (by omega), List.nil_append, hdrop,
      List.drop_of_length_le (i := start + (a.length - start)) (by omega), List.append_nil]
    simp only [List.append_assoc]
    rw [← List.append_assoc (List.take (a.length - start) data), hsplit]

end Overwrite

end ThymioDeviceManager.Library.Layout
