import ThymioDeviceManager.Correctness.MessageCodec

/-! # The areas of changed variables

An area is a header with its start and size, followed by its values. The decoder skips
empty areas, and stops where there is no header any more or where a header has more
values than there are bytes.
-/

namespace ThymioDeviceManager.Correctness

open Protocol Library Codec MessageCodec

namespace ChangedAreas

def headerBytes (start size : UInt16) : List UInt8 := Wire.toBytes start ++ Wire.toBytes size

/-- The bytes are those of the areas and of empty areas between them. -/
inductive AreasImage : List Area → List UInt8 → Prop
  | nil : AreasImage [] []
  | empty {areas : List Area} {bytes : List UInt8} (start : UInt16) (h : AreasImage areas bytes) :
      AreasImage areas (headerBytes start 0 ++ bytes)
  | area {areas : List Area} {bytes : List UInt8} (a : Area) (size : UInt16) (hsize : size ≠ 0)
      (hlength : a.values.length = size.toNat) (h : AreasImage areas bytes) :
      AreasImage (a :: areas)
        (headerBytes a.start size ++ (a.values.flatMap Wire.toBytes ++ bytes))

/-- The bytes end with the header of an area that is not empty, after whole areas. -/
def EndsInHeader (bytes : List UInt8) : Prop :=
  ∃ areas init start size, AreasImage areas init ∧ size ≠ 0 ∧ bytes = init ++ headerBytes start size

theorem length_headerBytes (start size : UInt16) : (headerBytes start size).length = 4 := by
  rw [headerBytes, List.length_append, Wire.length_toBytes, Wire.length_toBytes]
  rfl

theorem exists_header {rest : List UInt8} (h : 4 ≤ rest.length) :
    ∃ start size more, rest = headerBytes start size ++ more := by
  obtain ⟨l, more, rfl⟩ := exists_values (α := UInt16) 2 h
  obtain ⟨l, hl⟩ := l
  obtain ⟨start, size, rfl⟩ := List.length_eq_two.mp hl
  exact ⟨start, size, more, by simp [headerBytes]⟩

theorem headerBytes_inj {start start' size size' : UInt16} {rest rest' : List UInt8}
    (h : headerBytes start size ++ rest = headerBytes start' size' ++ rest') :
    start = start' ∧ size = size' ∧ rest = rest' := by
  have hlength : (headerBytes start size).length = (headerBytes start' size').length := by
    rw [length_headerBytes, length_headerBytes]
  obtain ⟨hheader, hrest⟩ := List.append_inj h hlength
  have hword : (Wire.toBytes start).length = (Wire.toBytes start').length := by
    rw [Wire.length_toBytes, Wire.length_toBytes]
  obtain ⟨hstart, hsize⟩ := List.append_inj hheader hword
  refine ⟨?_, ?_, hrest⟩
  · rw [← Wire.ofBytes_toBytes start, hstart, Wire.ofBytes_toBytes]
  · rw [← Wire.ofBytes_toBytes size, hsize, Wire.ofBytes_toBytes]

theorem length_values {values : List Int16} {size : UInt16} (h : values.length = size.toNat) :
    (values.flatMap Wire.toBytes).length = 2 * size.toNat := by
  rw [length_flatMap_toBytes, h]
  rfl

/-- There is no area at the front of the bytes: no header, or one that has more values
than there are bytes. -/
def Stuck (bytes : List UInt8) : Prop :=
  bytes.length < 4 ∨ ∃ start size more, size ≠ 0 ∧ bytes = headerBytes start size ++ more ∧
    more.length < size.toNat * 2

theorem Stuck.nil : Stuck [] := .inl (Nat.succ_pos 3)

theorem Stuck.header {size : UInt16} (start : UInt16) (hsize : size ≠ 0) :
    Stuck (headerBytes start size) := by
  refine .inr ⟨start, size, [], hsize, (List.append_nil _).symm, ?_⟩
  have hpositive : 0 < size.toNat := by
    apply Nat.pos_of_ne_zero
    intro h
    exact hsize (UInt16.toNat_inj.mp h)
  rw [List.length_nil]
  omega

theorem not_stuck_empty {start : UInt16} {bytes : List UInt8} :
    ¬ Stuck (headerBytes start 0 ++ bytes) := by
  rintro (hshort | ⟨start', size, more, hsize, heq, -⟩)
  · rw [List.length_append, length_headerBytes] at hshort
    omega
  · exact hsize (headerBytes_inj heq).2.1.symm

theorem not_stuck_area {start size : UInt16} {values : List Int16} {bytes : List UInt8}
    (hlength : values.length = size.toNat) :
    ¬ Stuck (headerBytes start size ++ (values.flatMap Wire.toBytes ++ bytes)) := by
  rintro (hshort | ⟨start', size', more, -, heq, hmore⟩)
  · rw [List.length_append, length_headerBytes] at hshort
    omega
  · obtain ⟨-, rfl, rfl⟩ := headerBytes_inj heq
    rw [List.length_append, length_values hlength] at hmore
    omega

/-- The whole areas at the front of the bytes are found in one way only. -/
theorem AreasImage.unique {areas areas' : List Area} {bytes bytes' rest rest' : List UInt8}
    (h : AreasImage areas bytes) (h' : AreasImage areas' bytes') (hrest : Stuck rest)
    (hrest' : Stuck rest') (heq : bytes ++ rest = bytes' ++ rest') : bytes = bytes' := by
  induction h generalizing areas' bytes' with
  | nil =>
    rw [List.nil_append] at heq
    cases h' with
    | nil => rfl
    | empty start h' =>
      rw [heq, List.append_assoc] at hrest
      exact absurd hrest not_stuck_empty
    | area a size hsize hlength h' =>
      rw [heq, List.append_assoc, List.append_assoc] at hrest
      exact absurd hrest (not_stuck_area hlength)
  | empty start h ih =>
    rw [List.append_assoc] at heq
    cases h' with
    | nil =>
      rw [← List.nil_append rest', ← heq] at hrest'
      exact absurd hrest' not_stuck_empty
    | empty start' h' =>
      rw [List.append_assoc] at heq
      obtain ⟨rfl, -, htail⟩ := headerBytes_inj heq
      rw [ih h' htail]
    | area a size hsize hlength h' =>
      rw [List.append_assoc] at heq
      exact absurd (headerBytes_inj heq).2.1.symm hsize
  | area a size hsize hlength h ih =>
    rw [List.append_assoc, List.append_assoc] at heq
    cases h' with
    | nil =>
      rw [← List.nil_append rest', ← heq] at hrest'
      exact absurd hrest' (not_stuck_area hlength)
    | empty start' h' =>
      rw [List.append_assoc] at heq
      exact absurd (headerBytes_inj heq).2.1 hsize
    | area a' size' hsize' hlength' h' =>
      rw [List.append_assoc, List.append_assoc] at heq
      obtain ⟨hstart, rfl, htail⟩ := headerBytes_inj heq
      have hvalues : (a.values.flatMap Wire.toBytes).length =
          (a'.values.flatMap Wire.toBytes).length := by
        rw [length_values hlength, length_values hlength']
      obtain ⟨hsame, htail⟩ := List.append_inj htail hvalues
      rw [hstart, hsame, ih h' htail]

/-- Whole areas do not end in a bare header. -/
theorem not_endsInHeader {areas : List Area} {bytes : List UInt8} (h : AreasImage areas bytes) :
    ¬ EndsInHeader bytes := by
  rintro ⟨areas', init, start, size, hinit, hsize, heq⟩
  have hsame := h.unique hinit Stuck.nil (Stuck.header start hsize) (by rw [List.append_nil, heq])
  have hlength := congrArg List.length heq
  rw [hsame, List.length_append, length_headerBytes] at hlength
  omega

/-! ## The loop -/

/-- How the loop has stopped: it has read whole areas and there is no header any more,
or the header it has read last has more values than there are bytes. -/
def Stopped (areas : List Area) (read left : List UInt8) : Prop :=
  AreasImage areas read ∧ left.length < 4 ∨
    ∃ init start size, AreasImage areas init ∧ size ≠ 0 ∧ read = init ++ headerBytes start size ∧
      left.length < size.toNat * 2

theorem Stopped.empty {areas : List Area} {read left : List UInt8} (h : Stopped areas read left)
    (start : UInt16) : Stopped areas (headerBytes start 0 ++ read) left := by
  cases h with
  | inl h => exact .inl ⟨AreasImage.empty start h.1, h.2⟩
  | inr h =>
    obtain ⟨init, start', size, hinit, hsize, rfl, hleft⟩ := h
    exact .inr ⟨_, start', size, AreasImage.empty start hinit, hsize, by rw [List.append_assoc],
      hleft⟩

theorem Stopped.area {areas : List Area} {read left : List UInt8} (h : Stopped areas read left)
    (a : Area) {size : UInt16} (hsize : size ≠ 0) (hlength : a.values.length = size.toNat) :
    Stopped (a :: areas) (headerBytes a.start size ++ (a.values.flatMap Wire.toBytes ++ read))
      left := by
  cases h with
  | inl h => exact .inl ⟨AreasImage.area a size hsize hlength h.1, h.2⟩
  | inr h =>
    obtain ⟨init, start', size', hinit, hsize', rfl, hleft⟩ := h
    refine .inr ⟨_, start', size', AreasImage.area a size hsize hlength hinit, hsize', ?_, hleft⟩
    simp only [List.append_assoc]

/-- On bytes that end in a bare header the loop stops behind it. -/
theorem Stopped.eq_nil {areas : List Area} {read left : List UInt8} (h : Stopped areas read left)
    (hends : EndsInHeader (read ++ left)) : left = [] := by
  obtain ⟨areas', init, start, size, hinit, hsize, heq⟩ := hends
  have hstuck := Stuck.header start hsize
  cases h with
  | inl h =>
    have hsame := h.1.unique hinit (.inl h.2) hstuck heq
    rw [hsame, List.append_cancel_left_eq] at heq
    rw [heq, length_headerBytes] at h
    omega
  | inr h =>
    obtain ⟨init', start', size', hinit', hsize', rfl, hleft⟩ := h
    rw [List.append_assoc] at heq
    have hsame := hinit'.unique hinit (.inr ⟨start', size', left, hsize', rfl, hleft⟩) hstuck heq
    rw [hsame, List.append_cancel_left_eq] at heq
    rw [← List.append_nil (headerBytes start size)] at heq
    exact (headerBytes_inj heq).2.2

/-- The two numbers of a header. -/
theorem reads_header {β : Type} {f : UInt16 → UInt16 → Serializing β} (start size : UInt16)
    (before after : List UInt8) :
    (get UInt16 >>= fun start => get UInt16 >>= fun size => f start size)
      (cut before (headerBytes start size ++ after)) =
        f start size (cut (before ++ headerBytes start size) after) := by
  rw [headerBytes, List.append_assoc, Stateful.bind_apply, reads_get start before, Outcome.ok_bind,
    Stateful.bind_apply, reads_get size, Outcome.ok_bind, List.append_assoc]

theorem deserializeAreas_run (fuel : Nat) {before rest : List UInt8} (hfuel : rest.length ≤ fuel) :
    ∃ areas read left, rest = read ++ left ∧ Stopped areas read left ∧
      ChangedVariables.deserializeAreas fuel (cut before rest) =
        .ok (areas, cut (before ++ read) left) := by
  induction fuel generalizing before rest with
  | zero =>
    obtain rfl : rest = [] := List.length_eq_zero_iff.mp (by omega)
    exact ⟨[], [], [], rfl, .inl ⟨AreasImage.nil, by simp⟩, by rw [List.append_nil]; rfl⟩
  | succ fuel ih =>
    rw [ChangedVariables.deserializeAreas]
    by_cases hheader : 4 ≤ rest.length
    · have hcond : 4 + (cut before rest).readPos ≤ (cut before rest).rawData.length := by
        simp only [cut, List.length_append]
        omega
      obtain ⟨start, size, more, rfl⟩ := exists_header hheader
      rw [List.length_append, length_headerBytes] at hfuel
      simp only [if_pos hcond, reads_header]
      by_cases hempty : size = 0
      · subst hempty
        obtain ⟨areas, read, left, rfl, hstopped, hrun⟩ :=
          @ih (before ++ headerBytes start 0) more (by omega)
        refine ⟨areas, headerBytes start 0 ++ read, left, by rw [List.append_assoc],
          hstopped.empty start, ?_⟩
        rw [if_pos rfl, hrun, List.append_assoc]
      · rw [if_neg hempty]
        by_cases hshort : more.length < size.toNat * 2
        · have hcond' : (cut (before ++ headerBytes start size) more).rawData.length -
              (cut (before ++ headerBytes start size) more).readPos < size.toNat * 2 := by
            simp only [cut, List.length_append]
            omega
          refine ⟨[], headerBytes start size, more, rfl, .inr ⟨[], start, size, AreasImage.nil,
            hempty, rfl, hshort⟩, ?_⟩
          simp only [if_pos hcond']
        · have hcond' : ¬ (cut (before ++ headerBytes start size) more).rawData.length -
              (cut (before ++ headerBytes start size) more).readPos < size.toNat * 2 := by
            simp only [cut, List.length_append]
            omega
          have hlong : Wire.size Int16 * size.toNat ≤ more.length := by
            change 2 * size.toNat ≤ more.length
            omega
          obtain ⟨values, more, rfl⟩ := exists_values size.toNat hlong
          obtain ⟨areas, read, left, rfl, hstopped, hrun⟩ :=
            @ih (before ++ headerBytes start size ++ values.val.flatMap Wire.toBytes) more
              (by rw [List.length_append] at hfuel; omega)
          refine ⟨{ start, values := values.val } :: areas, headerBytes start size ++
            (values.val.flatMap Wire.toBytes ++ read), left, by simp only [List.append_assoc],
            hstopped.area { start, values := values.val } hempty values.property, ?_⟩
          simp only [if_neg hcond']
          rw [Stateful.bind_apply, reads_getAll values, Outcome.ok_bind, Stateful.bind_apply, hrun]
          simp [Stateful.pure_apply]
    · have hcond : ¬ 4 + (cut before rest).readPos ≤ (cut before rest).rawData.length := by
        simp only [cut, List.length_append]
        omega
      refine ⟨[], [], rest, rfl, .inl ⟨AreasImage.nil, Nat.not_le.mp hheader⟩, ?_⟩
      simp only [if_neg hcond, List.append_nil]

/-- The decoder returns, with the areas of the buffer or of a buffer that ends early. -/
theorem deserializeSpecific_run (buffer : List UInt8) :
    ∃ areas read left, buffer = read ++ left ∧ Stopped areas read left ∧
      ChangedVariables.deserializeSpecific { rawData := buffer } =
        .ok ({ areas }, cut read left) := by
  obtain ⟨areas, read, left, heq, hstopped, hrun⟩ :=
    @deserializeAreas_run buffer.length [] buffer (Nat.le_refl _)
  refine ⟨areas, read, left, heq, hstopped, ?_⟩
  have hstart : (cut [] buffer) = { rawData := buffer } := rfl
  rw [hstart, List.nil_append] at hrun
  rw [ChangedVariables.deserializeSpecific, Stateful.bind_apply, hrun]
  rfl

end ChangedAreas

end ThymioDeviceManager.Correctness
