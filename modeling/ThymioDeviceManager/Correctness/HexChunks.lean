import Mathlib.Data.Finset.Max
import ThymioDeviceManager.Library.Segments
import ThymioDeviceManager.Manager.HexFile

/-! # Chunks of an image

A record that is added behind a chunk, or as a chunk of its own, has its bytes at their
addresses. A record that is added in front of a chunk has not: the chunk keeps its key, so the
bytes of the record are taken for those of the chunk, and what was there moves up. No later
record can mend this.
-/

namespace ThymioDeviceManager.Correctness

open Manager.HexFile Library Segment

namespace HexChunks

/-! ## Adding a record -/

/-- A chunk with the record behind it. -/
def behind (c r : Segment UInt8) : Segment UInt8 := (c.1, c.2 ++ r.2)

/-- A chunk with the record in front of it, under the key of the chunk. -/
def inFront (c r : Segment UInt8) : Segment UInt8 := (c.1, r.2 ++ c.2)

/-- What a record does to the chunks. -/
inductive Adds (data : Chunks) (r : Segment UInt8) : Chunks → Prop where
  | tail {pre post : Chunks} {c : Segment UInt8} (hdata : data = pre ++ c :: post)
      (hstop : stop c = r.1) : Adds data r (pre ++ behind c r :: post)
  | head {pre post : Chunks} {c : Segment UInt8} (hdata : data = pre ++ c :: post)
      (hfirst : stop r = c.1) (hpre : ∀ d ∈ pre, stop d ≠ r.1) (hc : stop c ≠ r.1) :
      Adds data r (pre ++ inFront c r :: post)
  | own (hdata : ∀ c ∈ data, stop c ≠ r.1 ∧ stop r ≠ c.1) :
      Adds data r (OrderedMap.insert data r.1 r.2)

theorem adds_of_fuse {data data' : Chunks} {r : Segment UInt8} (h : fuse r.1 r.2 data = some data') :
    Adds data r data' := by
  suffices hsplit : ∃ pre c post, data = pre ++ c :: post ∧ (∀ d ∈ pre, stop d ≠ r.1) ∧
      (stop c = r.1 ∧ data' = pre ++ behind c r :: post ∨
        stop c ≠ r.1 ∧ stop r = c.1 ∧ data' = pre ++ inFront c r :: post) by
    obtain ⟨pre, c, post, hdata, hpre, ⟨hstop, rfl⟩ | ⟨hc, hfirst, rfl⟩⟩ := hsplit
    · exact Adds.tail hdata hstop
    · exact Adds.head hdata hfirst hpre hc
  induction data generalizing data' with
  | nil => cases h
  | cons c data ih =>
    obtain ⟨first, chunk⟩ := c
    rw [fuse] at h
    split_ifs at h with htail hhead
    · cases h
      exact ⟨[], (first, chunk), data, rfl, by simp, Or.inl ⟨htail.symm, rfl⟩⟩
    · cases h
      exact ⟨[], (first, chunk), data, rfl, by simp, Or.inr ⟨fun h => htail h.symm, hhead, rfl⟩⟩
    · obtain ⟨data₁, hfuse, rfl⟩ := Option.map_eq_some_iff.mp h
      obtain ⟨pre, c, post, rfl, hpre, hc⟩ := ih hfuse
      refine ⟨(first, chunk) :: pre, c, post, rfl, ?_, ?_⟩
      · exact List.forall_mem_cons.mpr ⟨fun h => htail h.symm, hpre⟩
      · rcases hc with ⟨hstop, rfl⟩ | ⟨hne, hfirst, rfl⟩
        · exact Or.inl ⟨hstop, rfl⟩
        · exact Or.inr ⟨hne, hfirst, rfl⟩

theorem fuse_eq_none {data : Chunks} {r : Segment UInt8} (h : fuse r.1 r.2 data = none) :
    ∀ c ∈ data, stop c ≠ r.1 ∧ stop r ≠ c.1 := by
  induction data with
  | nil => simp
  | cons c data ih =>
    obtain ⟨first, chunk⟩ := c
    rw [fuse] at h
    split_ifs at h with htail hhead
    exact List.forall_mem_cons.mpr
      ⟨⟨fun h => htail h.symm, hhead⟩, ih (Option.map_eq_none_iff.mp h)⟩

theorem adds_addRecord (data : Chunks) (r : Segment UInt8) : Adds data r (addRecord data r.1 r.2) := by
  unfold addRecord
  cases h : fuse r.1 r.2 data with
  | none => exact Adds.own (fuse_eq_none h)
  | some data' => exact adds_of_fuse h

theorem hasAt_behind {c r : Segment UInt8} (h : stop c = r.1) {a : Nat} {x : UInt8} :
    HasAt (behind c r) a x ↔ HasAt c a x ∨ HasAt r a x := by
  have hr : (c.1 + c.2.length, r.2) = r := Prod.ext h rfl
  rw [behind, hasAt_append, hr]

theorem stop_behind {c r : Segment UInt8} (h : stop c = r.1) : stop (behind c r) = stop r := by
  unfold stop behind at *
  rw [List.length_append]
  omega

theorem holds_of_adds_nil {data data' : Chunks} {r : Segment UInt8} (hr : r.2 = [])
    (h : Adds data r data') (a : Nat) (x : UInt8) : Holds data' a x ↔ Holds data a x := by
  cases h with
  | @tail pre post c hdata hstop =>
    have hc : behind c r = c := Prod.ext rfl (by simp [behind, hr])
    rw [hdata, hc]
  | @head pre post c hdata hfirst hpre hstop =>
    have hc : inFront c r = c := Prod.ext rfl (by simp [inFront, hr])
    rw [hdata, hc]
  | own hdata =>
    have hkey : r.1 ∉ data.map Prod.fst := by
      intro hmem
      obtain ⟨c, hc, hfirst⟩ := List.mem_map.mp hmem
      exact (hdata c hc).2 (by rw [stop, hr, hfirst]; rfl)
    have hnone : ¬ HasAt r a x := by simp [HasAt, hr]
    unfold Holds
    simp only [OrderedMap.mem_insert_iff hkey, or_and_right, exists_or, exists_eq_left]
    exact or_iff_right hnone

/-! ## Records that do not overlap -/

/-- A record that has bytes, and none of the addresses of those before it. -/
structure Fresh (before : List (Segment UInt8)) (r : Segment UInt8) : Prop where
  nonempty : r.2 ≠ []
  apart : ∀ s ∈ before, Apart s r

/-- Every one of the records has bytes. -/
def Nonempty (before : List (Segment UInt8)) : Prop := ∀ s ∈ before, s.2 ≠ []

section Segments

variable {s t r : Segment UInt8} {before : List (Segment UInt8)}

theorem lt_stop (h : s.2 ≠ []) : s.1 < stop s := by
  have hlength := List.length_pos_iff.mpr h
  unfold stop
  omega

theorem exists_hasAt_first (h : s.2 ≠ []) : ∃ x, HasAt s s.1 x :=
  exists_hasAt_iff.mpr ⟨Nat.le_refl _, lt_stop h⟩

theorem exists_hasAt_last (h : s.2 ≠ []) : ∃ x, HasAt s (stop s - 1) x := by
  have hlt := lt_stop h
  exact exists_hasAt_iff.mpr (by omega)

/-- Records that are apart start at different addresses, and end at different ones. -/
theorem Fresh.first_ne (h : Fresh before r) (hs : s ∈ before) (hne : s.2 ≠ []) : s.1 ≠ r.1 := by
  have hs' := lt_stop hne
  have hr := lt_stop h.nonempty
  rcases h.apart s hs with h | h
  · omega
  · omega

theorem Fresh.stop_ne (h : Fresh before r) (hs : s ∈ before) (hne : s.2 ≠ []) : stop s ≠ stop r := by
  have hs' := lt_stop hne
  have hr := lt_stop h.nonempty
  rcases h.apart s hs with h | h
  · omega
  · omega

end Segments

/-! ## Chunks that have the bytes at their addresses -/

/-- If the record ends where an earlier one starts, it starts where an earlier one ends. -/
def Follows (before : List (Segment UInt8)) (r : Segment UInt8) : Prop :=
  (∃ s ∈ before, stop r = s.1) → ∃ t ∈ before, stop t = r.1

instance (before : List (Segment UInt8)) (r : Segment UInt8) : Decidable (Follows before r) :=
  inferInstanceAs (Decidable ((∃ s ∈ before, stop r = s.1) → ∃ t ∈ before, stop t = r.1))

/-- The chunks after records none of which has been added in front of a chunk. -/
structure Faithful (before : List (Segment UInt8)) (data : Chunks) : Prop where
  ordered : OrderedMap.Ordered data
  holds : ∀ a x, Holds data a x ↔ Holds before a x
  nonempty : ∀ c ∈ data, c.2 ≠ []
  first : ∀ c ∈ data, ∃ s ∈ before, s.1 = c.1
  stop : ∀ c ∈ data, ∃ s ∈ before, Segment.stop s = Segment.stop c
  key : ∀ s ∈ before, (∃ t ∈ before, Segment.stop t = s.1) ∨ ∃ c ∈ data, c.1 = s.1

/-- Some records have been added in front of chunks (`lost`). A chunk either is such a chunk, or has
bytes of the records at their addresses, and none of those that are lost. -/
structure Damaged (before lost : List (Segment UInt8)) (data : Chunks) : Prop where
  nonempty : lost ≠ []
  earlier : ∀ r ∈ lost, r ∈ before
  chunk : ∀ c ∈ data, (∃ r ∈ lost, stop r = c.1) ∨
    ∀ a x, HasAt c a x → Holds before a x ∧ ∀ r ∈ lost, ∀ y, ¬ HasAt r a y

theorem faithful_nil : Faithful [] [] where
  ordered := OrderedMap.Ordered.nil
  holds a x := Iff.rfl
  nonempty c hc := by cases hc
  first c hc := by cases hc
  stop c hc := by cases hc
  key s hs := by cases hs

section Steps

variable {before lost : List (Segment UInt8)} {data data' pre post : Chunks} {c r : Segment UInt8}

/-- Behind a record, either a chunk ends or another record goes on. -/
theorem Faithful.exists_stop (h : Faithful before data) (hr : Fresh before r)
    (hne : Nonempty before) {t : Segment UInt8} (ht : t ∈ before) (hstop : Segment.stop t = r.1) :
    ∃ d ∈ data, Segment.stop d = r.1 ∧ d.1 < r.1 := by
  have hlt := lt_stop (hne t ht)
  obtain ⟨x, hx⟩ := exists_hasAt_last (hne t ht)
  obtain ⟨d, hd, hat⟩ := (h.holds _ x).mpr (Holds.of_mem ht hx)
  have hrange := hat.mem_range
  refine ⟨d, hd, ?_, by omega⟩
  by_contra hmore
  obtain ⟨y, hy⟩ : ∃ y, HasAt d r.1 y := exists_hasAt_iff.mpr (by omega)
  obtain ⟨z, hz⟩ := exists_hasAt_first hr.nonempty
  exact not_holds_of_apart hr.apart hz ((h.holds _ y).mp (Holds.of_mem hd hy))

theorem Faithful.tail (h : Faithful before (pre ++ c :: post)) (hstop : Segment.stop c = r.1) :
    Faithful (before ++ [r]) (pre ++ behind c r :: post) := by
  have hc : c ∈ pre ++ c :: post := by simp
  obtain ⟨s₀, hs₀, hstop₀⟩ := h.stop c hc
  constructor
  case ordered =>
    have hordered := h.ordered
    unfold OrderedMap.Ordered at hordered ⊢
    simpa [behind] using hordered
  case holds =>
    intro a x
    have hold := h.holds a x
    simp only [holds_append, holds_cons, not_holds_nil, or_false] at hold ⊢
    rw [hasAt_behind hstop, ← hold]
    constructor
    · rintro (hpre | (hat | hat) | hpost)
      · exact Or.inl (Or.inl hpre)
      · exact Or.inl (Or.inr (Or.inl hat))
      · exact Or.inr hat
      · exact Or.inl (Or.inr (Or.inr hpost))
    · rintro ((hpre | hat | hpost) | hat)
      · exact Or.inl hpre
      · exact Or.inr (Or.inl (Or.inl hat))
      · exact Or.inr (Or.inr hpost)
      · exact Or.inr (Or.inl (Or.inr hat))
  case nonempty =>
    intro d hd
    rcases List.mem_append.mp hd with hd | hd
    · exact h.nonempty d (by simp [hd])
    rcases List.mem_cons.mp hd with rfl | hd
    · exact fun hnil => h.nonempty c hc (List.append_eq_nil_iff.mp hnil).1
    · exact h.nonempty d (by simp [hd])
  case first =>
    intro d hd
    obtain ⟨d', hd', hkey⟩ : ∃ d' ∈ pre ++ c :: post, d'.1 = d.1 := by
      rcases List.mem_append.mp hd with hd | hd
      · exact ⟨d, by simp [hd], rfl⟩
      rcases List.mem_cons.mp hd with rfl | hd
      · exact ⟨c, hc, rfl⟩
      · exact ⟨d, by simp [hd], rfl⟩
    obtain ⟨s, hs, hfirst⟩ := h.first d' hd'
    exact ⟨s, List.mem_append_left _ hs, hfirst.trans hkey⟩
  case stop =>
    intro d hd
    have hold : d ∈ pre ++ c :: post → ∃ s ∈ before ++ [r], Segment.stop s = Segment.stop d := by
      intro hd
      obtain ⟨s, hs, hstop⟩ := h.stop d hd
      exact ⟨s, List.mem_append_left _ hs, hstop⟩
    rcases List.mem_append.mp hd with hd | hd
    · exact hold (by simp [hd])
    rcases List.mem_cons.mp hd with rfl | hd
    · exact ⟨r, by simp, (stop_behind hstop).symm⟩
    · exact hold (by simp [hd])
  case key =>
    intro s hs
    rcases List.mem_append.mp hs with hs | hs
    · rcases h.key s hs with ⟨t, ht, htstop⟩ | ⟨d, hd, hkey⟩
      · exact Or.inl ⟨t, List.mem_append_left _ ht, htstop⟩
      · right
        rcases List.mem_append.mp hd with hd | hd
        · exact ⟨d, by simp [hd], hkey⟩
        rcases List.mem_cons.mp hd with rfl | hd
        · exact ⟨behind d r, by simp, hkey⟩
        · exact ⟨d, by simp [hd], hkey⟩
    · rw [List.mem_singleton.mp hs]
      exact Or.inl ⟨s₀, List.mem_append_left _ hs₀, hstop₀.trans hstop⟩

theorem Faithful.own (h : Faithful before data) (hr : Fresh before r) (hne : Nonempty before) :
    Faithful (before ++ [r]) (OrderedMap.insert data r.1 r.2) := by
  have hkey : r.1 ∉ data.map Prod.fst := by
    intro hmem
    obtain ⟨c, hc, hfirst⟩ := List.mem_map.mp hmem
    obtain ⟨s, hs, hs'⟩ := h.first c hc
    exact hr.first_ne hs (hne s hs) (hs'.trans hfirst)
  have hmem : ∀ c, c ∈ OrderedMap.insert data r.1 r.2 ↔ c = r ∨ c ∈ data :=
    fun c => OrderedMap.mem_insert_iff hkey
  constructor
  case ordered => exact h.ordered.insert _ _
  case holds =>
    intro a x
    have hnew : Holds (OrderedMap.insert data r.1 r.2) a x ↔ HasAt r a x ∨ Holds data a x := by
      unfold Holds
      simp only [hmem, or_and_right, exists_or, exists_eq_left]
    rw [hnew, h.holds, holds_append, holds_cons, or_iff_left not_holds_nil]
    exact Or.comm
  case nonempty =>
    intro c hc
    rcases (hmem c).mp hc with rfl | hc
    · exact hr.nonempty
    · exact h.nonempty c hc
  case first =>
    intro c hc
    rcases (hmem c).mp hc with rfl | hc
    · exact ⟨c, by simp, rfl⟩
    · obtain ⟨s, hs, hfirst⟩ := h.first c hc
      exact ⟨s, List.mem_append_left _ hs, hfirst⟩
  case stop =>
    intro c hc
    rcases (hmem c).mp hc with rfl | hc
    · exact ⟨c, by simp, rfl⟩
    · obtain ⟨s, hs, hstop⟩ := h.stop c hc
      exact ⟨s, List.mem_append_left _ hs, hstop⟩
  case key =>
    intro s hs
    rcases List.mem_append.mp hs with hs | hs
    · rcases h.key s hs with ⟨t, ht, hstop⟩ | ⟨c, hc, hfirst⟩
      · exact Or.inl ⟨t, List.mem_append_left _ ht, hstop⟩
      · exact Or.inr ⟨c, (hmem c).mpr (Or.inr hc), hfirst⟩
    · rw [List.mem_singleton.mp hs]
      exact Or.inr ⟨r, (hmem r).mpr (Or.inl rfl), rfl⟩

theorem Faithful.head (h : Faithful before (pre ++ c :: post)) (hr : Fresh before r)
    (hfirst : Segment.stop r = c.1) :
    Damaged (before ++ [r]) [r] (pre ++ inFront c r :: post) := by
  have hclean : ∀ d ∈ pre ++ c :: post, ∀ a x, HasAt d a x →
      Holds (before ++ [r]) a x ∧ ∀ s ∈ [r], ∀ y, ¬ HasAt s a y := by
    intro d hd a x hx
    have hbefore := (h.holds a x).mp (Holds.of_mem hd hx)
    refine ⟨holds_append.mpr (Or.inl hbefore), fun s hs y hy => ?_⟩
    rw [List.mem_singleton.mp hs] at hy
    exact not_holds_of_apart hr.apart hy hbefore
  constructor
  case nonempty => simp
  case earlier => exact fun s hs => List.mem_append_right _ hs
  case chunk =>
    intro d hd
    rcases List.mem_append.mp hd with hd | hd
    · exact Or.inr (hclean d (by simp [hd]))
    rcases List.mem_cons.mp hd with rfl | hd
    · exact Or.inl ⟨r, by simp, hfirst⟩
    · exact Or.inr (hclean d (by simp [hd]))

/-- A record that follows keeps the chunks faithful, and one that does not damages them. -/
theorem Faithful.step (h : Faithful before data) (hr : Fresh before r) (hne : Nonempty before)
    (hadds : Adds data r data') :
    Follows before r ∧ Faithful (before ++ [r]) data' ∨
      ¬ Follows before r ∧ Damaged (before ++ [r]) [r] data' := by
  cases hadds with
  | tail hdata hstop =>
    subst hdata
    obtain ⟨s, hs, hstop'⟩ := h.stop _ (List.mem_append_right _ List.mem_cons_self)
    exact Or.inl ⟨fun _ => ⟨s, hs, hstop'.trans hstop⟩, h.tail hstop⟩
  | head hdata hfirst hpre hc =>
    subst hdata
    refine Or.inr ⟨fun hfollows => ?_, h.head hr hfirst⟩
    obtain ⟨s, hs, hs'⟩ := h.first _ (List.mem_append_right _ List.mem_cons_self)
    obtain ⟨t, ht, hstop⟩ := hfollows ⟨s, hs, hfirst.trans hs'.symm⟩
    -- a chunk that ends where the record starts would have been found before
    obtain ⟨d, hd, hdstop, hdfirst⟩ := h.exists_stop hr hne ht hstop
    have hrlt := lt_stop hr.nonempty
    rcases List.mem_append.mp hd with hd | hd
    · exact hpre d hd hdstop
    rcases List.mem_cons.mp hd with rfl | hd
    · exact hc hdstop
    · have hordered := h.ordered
      unfold OrderedMap.Ordered at hordered
      rw [List.map_append, List.map_cons, List.pairwise_append, List.pairwise_cons] at hordered
      have hlater := hordered.2.1.1 d.1 (List.mem_map_of_mem hd)
      omega
  | own hdata =>
    refine Or.inl ⟨?_, h.own hr hne⟩
    rintro ⟨s, hs, hfirst⟩
    rcases h.key s hs with ⟨t, ht, hstop⟩ | ⟨c, hc, hkey⟩
    · exact absurd (hstop.trans hfirst.symm) (hr.stop_ne ht (hne t ht))
    · exact absurd (hfirst.trans hkey.symm) (hdata c hc).2

/-- Damage stays, whether or not another record is lost. -/
theorem Damaged.step (h : Damaged before lost data) (hr : Fresh before r)
    (hadds : Adds data r data') : ∃ lost', Damaged (before ++ [r]) lost' data' := by
  have hapart : ∀ s ∈ lost, ∀ a x, HasAt r a x → ∀ y, ¬ HasAt s a y :=
    fun s hs a x hx y hy => (hr.apart s (h.earlier s hs)).not_hasAt hy hx
  have hkeep : ∀ d ∈ data, (∃ s ∈ lost, stop s = d.1) ∨ ∀ a x, HasAt d a x →
      Holds (before ++ [r]) a x ∧ ∀ s ∈ lost, ∀ y, ¬ HasAt s a y := by
    intro d hd
    apply (h.chunk d hd).imp_right
    intro hclean a x hx
    exact ⟨holds_append.mpr (Or.inl (hclean a x hx).1), (hclean a x hx).2⟩
  have hnew : ∀ a x, HasAt r a x → Holds (before ++ [r]) a x ∧ ∀ s ∈ lost, ∀ y, ¬ HasAt s a y := by
    intro a x hx
    exact ⟨Holds.of_mem (List.mem_append_right _ List.mem_cons_self) hx, fun s hs => hapart s hs a x hx⟩
  cases hadds with
  | @tail pre post c hdata hstop =>
    subst hdata
    refine ⟨lost, h.nonempty, fun s hs => List.mem_append_left _ (h.earlier s hs), fun d hd => ?_⟩
    rcases List.mem_append.mp hd with hd | hd
    · exact hkeep d (by simp [hd])
    rcases List.mem_cons.mp hd with rfl | hd
    · apply (hkeep c (by simp)).imp_right
      intro hclean a x hx
      rcases (hasAt_behind hstop).mp hx with hx | hx
      · exact hclean a x hx
      · exact hnew a x hx
    · exact hkeep d (by simp [hd])
  | @head pre post c hdata hfirst hpre hc =>
    subst hdata
    -- the record is lost as well, and no clean chunk has any of its addresses
    have hkeep' : ∀ d ∈ pre ++ c :: post, (∃ s ∈ r :: lost, stop s = d.1) ∨ ∀ a x, HasAt d a x →
        Holds (before ++ [r]) a x ∧ ∀ s ∈ r :: lost, ∀ y, ¬ HasAt s a y := by
      intro d hd
      rcases h.chunk d hd with ⟨s, hs, hstop⟩ | hclean
      · exact Or.inl ⟨s, List.mem_cons_of_mem _ hs, hstop⟩
      · right
        intro a x hx
        obtain ⟨hbefore, hlost⟩ := hclean a x hx
        refine ⟨holds_append.mpr (Or.inl hbefore), List.forall_mem_cons.mpr ⟨fun y hy => ?_, hlost⟩⟩
        exact not_holds_of_apart hr.apart hy hbefore
    refine ⟨r :: lost, by simp, ?_, fun d hd => ?_⟩
    · exact List.forall_mem_cons.mpr ⟨by simp, fun s hs => List.mem_append_left _ (h.earlier s hs)⟩
    rcases List.mem_append.mp hd with hd | hd
    · exact hkeep' d (by simp [hd])
    rcases List.mem_cons.mp hd with rfl | hd
    · exact Or.inl ⟨r, List.mem_cons_self, hfirst⟩
    · exact hkeep' d (by simp [hd])
  | own hdata =>
    refine ⟨lost, h.nonempty, fun s hs => List.mem_append_left _ (h.earlier s hs), fun d hd => ?_⟩
    rcases OrderedMap.mem_insert hd with rfl | hd
    · exact Or.inr hnew
    · exact hkeep d hd

/-- Damaged chunks miss the first byte of the lost record that ends first. -/
theorem Damaged.not_holds (h : Damaged before lost data) (hne : Nonempty before) :
    ¬ ∀ a x, Holds data a x ↔ Holds before a x := by
  intro hholds
  obtain ⟨r, hr, hmin⟩ : ∃ r ∈ lost, ∀ s ∈ lost, stop r ≤ stop s := by
    have hsome : lost.toFinset.Nonempty := List.toFinset_nonempty_iff lost |>.mpr h.nonempty
    simpa using Finset.exists_min_image lost.toFinset stop hsome
  have hbefore := h.earlier r hr
  obtain ⟨x, hx⟩ := exists_hasAt_first (hne r hbefore)
  obtain ⟨c, hc, hat⟩ := (hholds r.1 x).mpr (Holds.of_mem hbefore hx)
  rcases h.chunk c hc with ⟨s, hs, hstop⟩ | hclean
  · have hrange := hat.mem_range
    have hle := hmin s hs
    have hlt := lt_stop (hne r hbefore)
    omega
  · exact (hclean r.1 x hat).2 r hr x hx

end Steps

/-! ## All records -/

/-- Every record follows those before it. -/
def AllFollow : (before : List (Segment UInt8)) → List (Segment UInt8) → Prop
  | _, [] => True
  | before, r :: records => Follows before r ∧ AllFollow (before ++ [r]) records

instance decidableAllFollow : ∀ before records : List (Segment UInt8),
    Decidable (AllFollow before records)
  | _, [] => inferInstanceAs (Decidable True)
  | before, r :: records =>
    have := decidableAllFollow (before ++ [r]) records
    inferInstanceAs (Decidable (Follows before r ∧ AllFollow (before ++ [r]) records))

theorem AllFollow.left {before records records' : List (Segment UInt8)}
    (h : AllFollow before (records ++ records')) : AllFollow before records := by
  induction records generalizing before with
  | nil => trivial
  | cons r records ih => exact ⟨h.1, ih h.2⟩

/-- The chunks of records. -/
def chunksFrom (data : Chunks) (records : List (Segment UInt8)) : Chunks :=
  records.foldl (fun data r => addRecord data r.1 r.2) data

theorem chunksFrom_append (data : Chunks) (records records' : List (Segment UInt8)) :
    chunksFrom data (records ++ records') = chunksFrom (chunksFrom data records) records' :=
  List.foldl_append

/-- Records without bytes change nothing. -/
theorem holds_chunksFrom_nil {records : List (Segment UInt8)} (h : ∀ s ∈ records, s.2 = [])
    (data : Chunks) (a : Nat) (x : UInt8) : Holds (chunksFrom data records) a x ↔ Holds data a x := by
  induction records generalizing data with
  | nil => exact Iff.rfl
  | cons r records ih =>
    obtain ⟨hr, hrecords⟩ := List.forall_mem_cons.mp h
    have hrun := ih hrecords (addRecord data r.1 r.2)
    exact hrun.trans (holds_of_adds_nil hr (adds_addRecord data r) a x)

section Runs

variable {before lost records : List (Segment UInt8)} {data : Chunks} {r : Segment UInt8}

theorem fresh_of_pairwise (hapart : (before ++ r :: records).Pairwise Apart)
    (hne : Nonempty (before ++ r :: records)) : Fresh before r where
  nonempty := hne r (by simp)
  apart s hs := (List.pairwise_append.mp hapart).2.2 s hs r List.mem_cons_self

theorem nonempty_before (hne : Nonempty (before ++ records)) : Nonempty before :=
  fun s hs => hne s (List.mem_append_left _ hs)

theorem Damaged.run (h : Damaged before lost data) (hapart : (before ++ records).Pairwise Apart)
    (hne : Nonempty (before ++ records)) :
    ∃ lost', Damaged (before ++ records) lost' (chunksFrom data records) := by
  induction records generalizing before lost data with
  | nil => exact ⟨lost, by simpa [chunksFrom] using h⟩
  | cons r records ih =>
    obtain ⟨lost', hnext⟩ := h.step (fresh_of_pairwise hapart hne) (adds_addRecord data r)
    rw [List.append_cons] at hapart hne ⊢
    exact ih hnext hapart hne

theorem Faithful.run (h : Faithful before data) (hapart : (before ++ records).Pairwise Apart)
    (hne : Nonempty (before ++ records)) :
    AllFollow before records ∧ Faithful (before ++ records) (chunksFrom data records) ∨
      ¬ AllFollow before records ∧
        ∃ lost, Damaged (before ++ records) lost (chunksFrom data records) := by
  induction records generalizing before data with
  | nil => exact Or.inl ⟨trivial, by simpa [chunksFrom] using h⟩
  | cons r records ih =>
    have hstep := h.step (fresh_of_pairwise hapart hne) (nonempty_before hne) (adds_addRecord data r)
    rw [List.append_cons] at hapart hne ⊢
    rcases hstep with ⟨hfollows, hnext⟩ | ⟨hnot, hnext⟩
    · rcases ih hnext hapart hne with ⟨hall, hrun⟩ | ⟨hnot, hrun⟩
      · exact Or.inl ⟨⟨hfollows, hall⟩, hrun⟩
      · exact Or.inr ⟨fun hall => hnot hall.2, hrun⟩
    · exact Or.inr ⟨fun hall => hnot hall.1, hnext.run hapart hne⟩

/-- Chunks have the bytes of the records at their addresses exactly when every record follows
those before it. -/
theorem holds_chunksFrom_iff (hapart : records.Pairwise Apart) (hne : Nonempty records) :
    (∀ a x, Holds (chunksFrom [] records) a x ↔ Holds records a x) ↔ AllFollow [] records := by
  rcases @Faithful.run [] records [] faithful_nil hapart hne with ⟨hall, hrun⟩ | ⟨hnot, lost, hrun⟩
  · exact iff_of_true hrun.holds hall
  · exact iff_of_false (hrun.not_holds hne) hnot

end Runs

end HexChunks

end ThymioDeviceManager.Correctness
