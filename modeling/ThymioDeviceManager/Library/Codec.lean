import ThymioDeviceManager.Library.Hoare

/-! # Codecs over byte buffers

A buffer is written at its end and read from its front. A codec is a computation on a
buffer: a writer appends bytes, a reader moves the position past the bytes of a value.
`Writes` and `Reads` say what a run does with known bytes; `Inverts` says, for
unknown bytes, which of them a value that was read stands for.
-/

namespace ThymioDeviceManager.Library

/-- Values that are represented by a fixed number of bytes. -/
class Wire (α : Type) where
  size : Nat
  toBytes : α → List UInt8
  ofBytes : List UInt8 → α
  length_toBytes : ∀ a, (toBytes a).length = size
  ofBytes_toBytes : ∀ a, ofBytes (toBytes a) = a
  toBytes_ofBytes : ∀ bytes, bytes.length = size → toBytes (ofBytes bytes) = bytes

structure ByteBuffer where
  rawData : List UInt8 := []
  readPos : Nat := 0
  deriving DecidableEq, Repr

abbrev CodecM (ε ω α : Type) := StateT ByteBuffer (Outcome ε ω) α

namespace Codec

variable {ε ω α β : Type}

/-- The buffer with `before` read and `rest` to be read. -/
def cut (before rest : List UInt8) : ByteBuffer :=
  { rawData := before ++ rest, readPos := before.length }

/-- A loop that makes `n` values. -/
def repeated (x : CodecM ε ω α) : (n : Nat) → CodecM ε ω { l : List α // l.length = n }
  | 0 => pure ⟨[], rfl⟩
  | n + 1 => do
    let a ← x
    let l ← repeated x n
    pure ⟨a :: l.val, by rw [List.length_cons, l.property]⟩

/-! ## Writing -/

section Writing

variable {x y : CodecM ε ω PUnit} {bytes bytes' : List UInt8}

/-- The computation appends the bytes. -/
def Writes (x : CodecM ε ω PUnit) (bytes : List UInt8) : Prop :=
  ∀ s, x s = .ok ((), { s with rawData := s.rawData ++ bytes })

theorem Writes.nil : Writes (pure () : CodecM ε ω PUnit) [] := by
  intro s
  simp [Stateful.pure_apply]

theorem Writes.seq (hx : Writes x bytes) (hy : Writes y bytes') :
    Writes (x >>= fun _ => y) (bytes ++ bytes') := by
  intro s
  rw [Stateful.bind_apply, hx s, Outcome.ok_bind, hy, List.append_assoc]

theorem Writes.forM {f : α → CodecM ε ω PUnit} {g : α → List UInt8} {l : List α}
    (h : ∀ a ∈ l, Writes (f a) (g a)) : Writes (l.forM f) (l.flatMap g) := by
  induction l with
  | nil => exact Writes.nil
  | cons a l ih =>
    exact (h a List.mem_cons_self).seq (ih fun b hb => h b (List.mem_cons_of_mem _ hb))

end Writing

/-! ## Reading known bytes -/

section Reading

variable {x : CodecM ε ω α} {f : α → CodecM ε ω β} {bytes bytes' after : List UInt8} {a : α} {b : β}

/-- In front of `after`, the computation reads the bytes and returns the value. -/
def Reads (x : CodecM ε ω α) (bytes after : List UInt8) (a : α) : Prop :=
  ∀ before, x (cut before (bytes ++ after)) = .ok (a, cut (before ++ bytes) after)

theorem Reads.ret (a : α) : Reads (pure a : CodecM ε ω α) [] after a := by
  intro before
  simp [Stateful.pure_apply]

theorem Reads.bind (hx : Reads x bytes (bytes' ++ after) a) (hf : Reads (f a) bytes' after b) :
    Reads (x >>= f) (bytes ++ bytes') after b := by
  intro before
  rw [Stateful.bind_apply, List.append_assoc, hx before, Outcome.ok_bind, hf, List.append_assoc]

theorem Reads.bindPure {g : α → β} (hx : Reads x bytes after a) :
    Reads (x >>= fun a => pure (g a)) bytes after (g a) := by
  have hret : Reads (pure (g a) : CodecM ε ω β) [] after (g a) := Reads.ret (g a)
  have h := Reads.bind (f := fun a => pure (g a)) (by simpa using hx) hret
  rwa [List.append_nil] at h

theorem Reads.repeated {g : α → List UInt8} {n : Nat} (l : { l : List α // l.length = n })
    (h : ∀ a ∈ l.val, ∀ after, Reads x (g a) after a) :
    Reads (repeated x n) (l.val.flatMap g) after l := by
  obtain ⟨l, rfl⟩ := l
  induction l with
  | nil => exact Reads.ret _
  | cons a l ih =>
    have hrest := ih fun b hb => h b (List.mem_cons_of_mem _ hb)
    exact (h a List.mem_cons_self _).bind hrest.bindPure

/-- A buffer that holds the bytes is read to its end. -/
theorem Reads.whole (hx : Reads x bytes [] a) :
    x { rawData := bytes } = .ok (a, { rawData := bytes, readPos := bytes.length }) := by
  have h := hx []
  simpa [cut] using h

end Reading

/-! ## Reading unknown bytes -/

section Inverting

variable {A : Prop} {x : CodecM ε ω α} {f : α → CodecM ε ω β} {I : α → List UInt8 → Prop}
  {J : α → β → List UInt8 → Prop}

/-- A value that is returned stands for the bytes that were read; a crash is possible
only if `A` holds. -/
def Inverts (A : Prop) (x : CodecM ε ω α) (I : α → List UInt8 → Prop) : Prop :=
  ∀ before rest, Triple (fun _ => A) (· = cut before rest) x fun a s =>
    ∃ bytes after, rest = bytes ++ after ∧ s = cut (before ++ bytes) after ∧ I a bytes

theorem Inverts.ret (a : α) : Inverts A (pure a : CodecM ε ω α) fun b bytes => b = a ∧ bytes = [] := by
  rintro before rest s rfl
  exact ⟨[], rest, rfl, by rw [List.append_nil], rfl, rfl⟩

theorem Inverts.bind (hx : Inverts A x I) (hf : ∀ a, Inverts A (f a) (J a)) :
    Inverts A (x >>= f) fun b bytes =>
      ∃ a bytes₁ bytes₂, bytes = bytes₁ ++ bytes₂ ∧ I a bytes₁ ∧ J a b bytes₂ := by
  intro before rest
  refine (hx before rest).bind fun a => ?_
  rintro s ⟨bytes₁, after, rfl, rfl, hI⟩
  have hrest : Triple (fun _ => A) (· = cut (before ++ bytes₁) after) (f a) fun b s =>
      ∃ bytes after', bytes₁ ++ after = bytes ++ after' ∧ s = cut (before ++ bytes) after' ∧
        ∃ a bytes₁ bytes₂, bytes = bytes₁ ++ bytes₂ ∧ I a bytes₁ ∧ J a b bytes₂ := by
    refine (hf a (before ++ bytes₁) after).post ?_
    rintro b s ⟨bytes₂, after', rfl, rfl, hJ⟩
    exact ⟨bytes₁ ++ bytes₂, after', by rw [List.append_assoc], by rw [List.append_assoc],
      a, bytes₁, bytes₂, rfl, hI, hJ⟩
  exact hrest _ rfl

theorem Inverts.mono {I' : α → List UInt8 → Prop} (hx : Inverts A x I)
    (h : ∀ a bytes, I a bytes → I' a bytes) : Inverts A x I' := by
  intro before rest
  refine (hx before rest).post ?_
  rintro a s ⟨bytes, after, hrest, hs, hI⟩
  exact ⟨bytes, after, hrest, hs, h a bytes hI⟩

theorem Inverts.crash {A' : Prop} (hx : Inverts A x I) (h : A → A') : Inverts A' x I := by
  rintro before rest s rfl
  have := hx before rest _ rfl
  revert this
  cases x (cut before rest) with
  | ok r => exact id
  | throw e => exact id
  | crash w => exact h

/-- The rule for a reader whose value is turned into another one. -/
theorem Inverts.bindPure {g : α → β} (hx : Inverts A x I) :
    Inverts A (x >>= fun a => pure (g a)) fun b bytes => ∃ a, b = g a ∧ I a bytes := by
  refine (hx.bind fun a => Inverts.ret (g a)).mono ?_
  rintro b bytes ⟨a, bytes₁, bytes₂, rfl, hI, rfl, rfl⟩
  exact ⟨a, rfl, by rwa [List.append_nil]⟩

/-- The bytes are those of the elements, one after the other. -/
inductive Listed (I : α → List UInt8 → Prop) : List α → List UInt8 → Prop
  | nil : Listed I [] []
  | cons {a : α} {l : List α} {bytes bytes' : List UInt8} (ha : I a bytes) (hl : Listed I l bytes') :
      Listed I (a :: l) (bytes ++ bytes')

theorem Inverts.repeated {n : Nat} (hx : Inverts A x I) :
    Inverts A (repeated x n) fun l bytes => Listed I l.val bytes := by
  induction n with
  | zero =>
    refine (Inverts.ret _).mono ?_
    rintro l bytes ⟨rfl, rfl⟩
    exact Listed.nil
  | succ n ih =>
    refine (hx.bind fun a => ih.bindPure).mono ?_
    rintro l bytes ⟨a, bytes₁, bytes₂, rfl, ha, l', rfl, hl⟩
    exact Listed.cons ha hl

theorem Listed.eq_flatMap {g : α → List UInt8} {l : List α} {bytes : List UInt8}
    (h : Listed (fun a bytes => bytes = g a) l bytes) : bytes = l.flatMap g := by
  induction h with
  | nil => rfl
  | cons ha _ ih => rw [ha, ih, List.flatMap_cons]

/-- A value that is read from the whole of a buffer stands for the buffer. -/
theorem Inverts.whole (hx : Inverts A x I) {buffer : List UInt8} {a : α} {s : ByteBuffer}
    (h : x { rawData := buffer } = .ok (a, s)) (hend : s.readPos = s.rawData.length) :
    I a buffer := by
  have hcut : x (cut [] buffer) = .ok (a, s) := h
  obtain ⟨bytes, after, rfl, rfl, hI⟩ := (hx [] buffer).of_ok rfl hcut
  have hafter : after = [] := by
    apply List.length_eq_zero_iff.mp
    simp only [cut, List.nil_append, List.length_append] at hend
    omega
  rwa [hafter, List.append_nil]

theorem Inverts.not_crashes (hx : Inverts False x I) (before rest : List UInt8) :
    ¬ (x (cut before rest)).Crashes := by
  have h := hx before rest _ rfl
  revert h
  cases x (cut before rest) with
  | ok r => exact fun _ => Outcome.crashes_ok r
  | throw e => exact fun _ => Outcome.crashes_throw e
  | crash w => exact False.elim

end Inverting

end Codec

end ThymioDeviceManager.Library
