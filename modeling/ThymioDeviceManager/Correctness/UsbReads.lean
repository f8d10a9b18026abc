import Mathlib.Order.Defs.LinearOrder
import ThymioDeviceManager.Manager.UsbReads

/-! # The read buffer of a USB device

The buffer is a queue of bytes as long as every transfer that `read_some` asks for itself gives what
its buffer still lacks. `read` takes as many bytes as its buffer has room for, committed or not, and
what is committed and what is copied are counted apart.
-/

namespace ThymioDeviceManager.Correctness

open Library Manager

/-! ## What the buffer is to do -/

/-- A copy stays in the storage, and a read in what is committed. -/
def AccessSound : BufferAccess → Prop
  | .copy b length => b.s.toNat + length ≤ b.v.length
  | .read b n => b.s.toNat ≤ b.v.length ∧ n ≤ b.s.toNat

structure Fifo (d : UsbReads) : Prop where
  committed_le : d.readBuffer.s.toNat ≤ d.readBuffer.v.length
  sound : ∀ a ∈ d.accesses, AccessSound a
  reported : d.copied.length = d.reported
  delivered : d.copied <+: d.committed

/-! ## When it does -/

/-- The sums of `reserve` stay below 2^64. -/
def NoWrap (s size bufferSize : UInt64) : Prop :=
  s.toNat + size.toNat + max (50 * bufferSize.toNat) 1 ≤ 18446744073709551616

instance (s size bufferSize : UInt64) : Decidable (NoWrap s size bufferSize) := Nat.decLe _ _

/-- What the committed bytes of the buffer are enough for is taken from the buffers of a caller. -/
def leftOver (s : UInt64) : List UInt64 → UInt64 × List UInt64
  | [] => (s, [])
  | size :: rest => if s < size then (s, size :: rest) else leftOver (s - size) rest

section

variable (readSize : UInt16) (transfers : Nat → BulkTransfer)

/-- The bytes that a transfer gives for a buffer of the caller. -/
def transferred (s size : UInt64) (i : Nat) : List UInt8 :=
  (transfers i).received (storageSize s size readSize.toUInt64 - s)

/-- Every transfer, with the `s` bytes that are there, is enough for its buffer; the transfers give
`given` bytes for `asked` of the buffers. -/
inductive Supplied : (s : UInt64) → (i : Nat) → List UInt64 → (given asked : Nat) → Prop
  | done (s : UInt64) (i : Nat) : Supplied s i [] 0 0
  | timeout {s size : UInt64} {i : Nat} (rest : List UInt64)
      (hstatus : (transfers i).status = .timeout) (hwrap : NoWrap s size readSize.toUInt64)
      (henough : size.toNat ≤ s.toNat + (transferred readSize transfers s size i).length) :
      Supplied s i (size :: rest) (transferred readSize transfers s size i).length size.toNat
  | success {s size : UInt64} {i given asked : Nat} {rest : List UInt64}
      (hstatus : (transfers i).status = .success) (hwrap : NoWrap s size readSize.toUInt64)
      (henough : size.toNat ≤ s.toNat + (transferred readSize transfers s size i).length)
      (hrest : Supplied (s + UInt64.ofNat (transferred readSize transfers s size i).length - size)
        (i + 1) rest given asked) :
      Supplied s i (size :: rest) ((transferred readSize transfers s size i).length + given)
        (size.toNat + asked)

/-- A transfer fails, and only empty buffers come before. -/
inductive FailedEmpty : (s : UInt64) → (i : Nat) → List UInt64 → Prop
  | error {s size : UInt64} {i : Nat} (rest : List UInt64)
      (hstatus : (transfers i).status = .error) (hwrap : NoWrap s size readSize.toUInt64) :
      FailedEmpty s i (size :: rest)
  | success {s : UInt64} {i : Nat} {rest : List UInt64}
      (hstatus : (transfers i).status = .success) (hwrap : NoWrap s 0 readSize.toUInt64)
      (hrest : FailedEmpty (s + UInt64.ofNat (transferred readSize transfers s 0 i).length) (i + 1)
        rest) : FailedEmpty s i (0 :: rest)

end

/-- The condition on what a device is asked. -/
def Supplies (d : UsbReads) : UsbEvent → Prop
  | .readSome buffers transfers =>
    let (s, rest) := leftOver d.readBuffer.s buffers
    (∃ n, Supplied d.readSize transfers s 0 rest n n) ∨
      (s = d.readBuffer.s ∧ FailedEmpty d.readSize transfers s 0 rest)
  | .commitBuffer bytes =>
    NoWrap d.readBuffer.s d.readSize.toUInt64 (UInt64.ofNat bytes.length) ∧
      d.readBuffer.s.toNat + bytes.length ≤
        (storageSize d.readBuffer.s d.readSize.toUInt64 (UInt64.ofNat bytes.length)).toNat
  | .readFromBuffer _ => True

/-! ## The storage -/

theorem toNat_max (a b : UInt64) : (max a b).toNat = max a.toNat b.toNat := by
  have hmax : max a b = if a ≤ b then b else a := rfl
  rw [hmax, Nat.max_def]
  simp only [UInt64.le_iff_toNat_le]
  split <;> rfl

/-- The storage has room for what `reserve` is asked for. -/
theorem NoWrap.le_storageSize {s size bufferSize : UInt64} (h : NoWrap s size bufferSize) :
    s.toNat + size.toNat ≤ (storageSize s size bufferSize).toNat := by
  rw [NoWrap] at h
  obtain ⟨unit, hunit⟩ : ∃ unit, unit = max (50 * bufferSize.toNat) 1 := ⟨_, rfl⟩
  have hmax : (max (50 * bufferSize) 1).toNat = unit := by
    have hmul : (50 * bufferSize).toNat = 50 * bufferSize.toNat := by
      have hfifty : (50 : UInt64).toNat = 50 := rfl
      rw [UInt64.toNat_mul, hfifty]
      exact Nat.mod_eq_of_lt (by omega)
    rw [toNat_max, hmul, hunit]
    rfl
  have hpos : 0 < unit := by omega
  have hsum : (s + size + max (50 * bufferSize) 1 - 1).toNat = s.toNat + size.toNat + unit - 1 := by
    rw [UInt64.toNat_sub, UInt64.toNat_add, UInt64.toNat_add, hmax]
    have hone : (1 : UInt64).toNat = 1 := rfl
    omega
  have hround : (s.toNat + size.toNat + unit - 1) / unit * unit ≤ s.toNat + size.toNat + unit - 1 :=
    Nat.div_mul_le_self _ _
  have hcover : s.toNat + size.toNat + unit - 1 <
      (s.toNat + size.toNat + unit - 1) / unit * unit + unit := by
    have := Nat.lt_div_mul_add (a := s.toNat + size.toNat + unit - 1) hpos
    omega
  have hsize : (storageSize s size bufferSize).toNat =
      (s.toNat + size.toNat + unit - 1) / unit * unit := by
    simp only [storageSize]
    rw [UInt64.toNat_mul, UInt64.toNat_div, hsum, hmax]
    exact Nat.mod_eq_of_lt (by omega)
  omega

@[simp] theorem length_resizeStorage (v : List UInt8) (n : Nat) :
    (resizeStorage v n).length = n := by
  simp only [resizeStorage, List.length_append, List.length_take, List.length_replicate]
  omega

theorem take_resizeStorage {v : List UInt8} {s n : Nat} (hs : s ≤ v.length) (hn : s ≤ n) :
    (resizeStorage v n).take s = v.take s := by
  rw [resizeStorage, List.take_append_of_le_length (by rw [List.length_take]; omega), List.take_take,
    Nat.min_eq_left hn]

/-! ## What holds between the calls -/

/-- The storage begins with the bytes that have been committed and not copied. -/
structure Queued (d : UsbReads) : Prop where
  committed_le : d.readBuffer.s.toNat ≤ d.readBuffer.v.length
  storage_lt : d.readBuffer.v.length < 18446744073709551616
  sound : ∀ a ∈ d.accesses, AccessSound a
  bytes : d.committed = d.copied ++ d.readBuffer.v.take d.readBuffer.s.toNat

theorem Queued.reserve {d : UsbReads} (h : Queued d) {size bufferSize : UInt64}
    (hwrap : NoWrap d.readBuffer.s size bufferSize) : Queued (d.reserve size bufferSize) := by
  have hroom := hwrap.le_storageSize
  constructor
  · simp only [UsbReads.reserve, UsbBuffer.reserve, length_resizeStorage]
    omega
  · simp only [UsbReads.reserve, UsbBuffer.reserve, length_resizeStorage]
    exact UInt64.toNat_lt _
  · exact h.sound
  · simp only [UsbReads.reserve, UsbBuffer.reserve]
    rw [take_resizeStorage h.committed_le (by omega)]
    exact h.bytes

section Fields

variable (d : UsbReads) (size bufferSize : UInt64) (bytes : List UInt8)

@[simp] theorem reserve_s : (d.reserve size bufferSize).readBuffer.s = d.readBuffer.s := rfl

@[simp] theorem reserve_readSize : (d.reserve size bufferSize).readSize = d.readSize := rfl

@[simp] theorem reserve_copied : (d.reserve size bufferSize).copied = d.copied := rfl

@[simp] theorem reserve_reported : (d.reserve size bufferSize).reported = d.reported := rfl

@[simp] theorem copyTo_s : (d.copyTo bytes).readBuffer.s = d.readBuffer.s := rfl

@[simp] theorem copyTo_readSize : (d.copyTo bytes).readSize = d.readSize := rfl

@[simp] theorem copyTo_copied : (d.copyTo bytes).copied = d.copied := rfl

@[simp] theorem copyTo_reported : (d.copyTo bytes).reported = d.reported := rfl

@[simp] theorem commit_s :
    (d.commit bytes).readBuffer.s = d.readBuffer.s + UInt64.ofNat bytes.length := rfl

@[simp] theorem commit_readSize : (d.commit bytes).readSize = d.readSize := rfl

@[simp] theorem commit_copied : (d.commit bytes).copied = d.copied := rfl

@[simp] theorem commit_reported : (d.commit bytes).reported = d.reported := rfl

@[simp] theorem readInto_readSize : (d.readInto size).readSize = d.readSize := rfl

@[simp] theorem readInto_reported : (d.readInto size).reported = d.reported := rfl

end Fields

/-- A copy leaves the size of the storage. -/
theorem length_copyTo (d : UsbReads) (bytes : List UInt8) :
    (d.copyTo bytes).readBuffer.v.length = d.readBuffer.v.length := by
  simp only [UsbReads.copyTo, UsbBuffer.copyTo, List.length_take, List.length_append,
    List.length_drop]
  omega

theorem Queued.copyTo {d : UsbReads} (h : Queued d) {bytes : List UInt8}
    (hroom : d.readBuffer.s.toNat + bytes.length ≤ d.readBuffer.v.length) :
    Queued (d.copyTo bytes) := by
  have hle := h.committed_le
  have hlength := length_copyTo d bytes
  constructor
  · rw [hlength]
    exact hle
  · rw [hlength]
    exact h.storage_lt
  · intro a ha
    simp only [UsbReads.copyTo, List.mem_append, List.mem_singleton] at ha
    obtain ha | rfl := ha
    · exact h.sound a ha
    · exact hroom
  · simp only [UsbReads.copyTo, UsbBuffer.copyTo]
    rw [List.take_take, Nat.min_eq_left hle, List.append_assoc,
      List.take_append_of_le_length (by rw [List.length_take]; omega), List.take_take,
      Nat.min_self]
    exact h.bytes

/-- The bytes that are copied are what the storage has behind the committed ones. -/
theorem take_copyTo {b : UsbBuffer} {bytes : List UInt8}
    (hroom : b.s.toNat + bytes.length ≤ b.v.length) :
    (b.copyTo bytes).v.take (b.s.toNat + bytes.length) = b.v.take b.s.toNat ++ bytes := by
  have hlength : (b.v.take b.s.toNat ++ bytes).length = b.s.toNat + bytes.length := by
    rw [List.length_append, List.length_take]
    omega
  rw [UsbBuffer.copyTo, List.take_take, Nat.min_eq_left hroom, ← hlength, List.take_left]

/-- The bytes that are copied and committed come behind those that wait. -/
theorem Queued.receive {d : UsbReads} (h : Queued d) {bytes : List UInt8}
    (hroom : d.readBuffer.s.toNat + bytes.length ≤ d.readBuffer.v.length) :
    Queued ((d.copyTo bytes).commit bytes) ∧
      ((d.copyTo bytes).commit bytes).readBuffer.s.toNat =
        d.readBuffer.s.toNat + bytes.length := by
  have hlt := h.storage_lt
  have hcopy := h.copyTo hroom
  have hlength := length_copyTo d bytes
  have hs : ((d.copyTo bytes).commit bytes).readBuffer.s.toNat =
      d.readBuffer.s.toNat + bytes.length := by
    change (d.readBuffer.s + UInt64.ofNat bytes.length).toNat = _
    have hbytes : bytes.length < UInt64.size := by
      have hsize : UInt64.size = 18446744073709551616 := rfl
      omega
    rw [UInt64.toNat_add, UInt64.toNat_ofNat_of_lt' hbytes]
    exact Nat.mod_eq_of_lt (by omega)
  refine ⟨⟨?_, hcopy.storage_lt, hcopy.sound, ?_⟩, hs⟩
  · rw [hs]
    change _ ≤ (d.copyTo bytes).readBuffer.v.length
    omega
  · rw [hs]
    change d.committed ++ bytes = d.copied ++ (d.readBuffer.copyTo bytes).v.take _
    rw [take_copyTo hroom, h.bytes, List.append_assoc]

/-- A read of no more than what is committed takes all that its buffer has room for. -/
theorem Queued.readInto {d : UsbReads} (h : Queued d) {size : UInt64}
    (hsize : size.toNat ≤ d.readBuffer.s.toNat) :
    Queued (d.readInto size) ∧ (d.readInto size).readBuffer.s = d.readBuffer.s - size ∧
      (d.readInto size).copied.length = d.copied.length + size.toNat := by
  have hle := h.committed_le
  have hn : d.readBuffer.readSize size = size := by
    have hlength := UInt64.toNat_ofNat_of_lt' h.storage_lt
    rw [UsbBuffer.readSize, ← UInt64.toNat_inj]
    have hmin : min size (UInt64.ofNat d.readBuffer.v.length) =
        if size ≤ UInt64.ofNat d.readBuffer.v.length then size
        else UInt64.ofNat d.readBuffer.v.length := rfl
    rw [hmin, if_pos (UInt64.le_iff_toNat_le.2 (by omega))]
  have hs : (d.readBuffer.s - size).toNat = d.readBuffer.s.toNat - size.toNat :=
    UInt64.toNat_sub_of_le _ _ (UInt64.le_iff_toNat_le.2 hsize)
  simp only [UsbReads.readInto, UsbBuffer.read, hn]
  refine ⟨⟨?_, ?_, ?_, ?_⟩, trivial, ?_⟩
  · rw [hs, List.length_drop]
    omega
  · rw [List.length_drop]
    have := h.storage_lt
    omega
  · intro a ha
    rw [List.mem_append, List.mem_singleton] at ha
    obtain ha | rfl := ha
    · exact h.sound a ha
    · exact ⟨hle, hsize⟩
  · have hsplit : d.readBuffer.v.take d.readBuffer.s.toNat = d.readBuffer.v.take size.toNat ++
        (d.readBuffer.v.drop size.toNat).take (d.readBuffer.s.toNat - size.toNat) := by
      rw [← List.take_add, Nat.add_sub_cancel' hsize]
    rw [hs, List.append_assoc, ← hsplit]
    exact h.bytes
  · rw [List.length_append, List.length_take]
    omega

/-! ## The operations -/

theorem readFromBuffer_spec (buffers : List UInt64) {d : UsbReads} (h : Queued d) (read : Nat) :
    ∃ d' read', d.readFromBuffer buffers read = (d', (leftOver d.readBuffer.s buffers).2, read') ∧
      Queued d' ∧ d'.readBuffer.s = (leftOver d.readBuffer.s buffers).1 ∧
      d'.readSize = d.readSize ∧ d'.reported = d.reported ∧
      d'.copied.length + read = d.copied.length + read' ∧
      d'.readBuffer.s.toNat + read' = d.readBuffer.s.toNat + read := by
  induction buffers generalizing d read with
  | nil => exact ⟨d, read, rfl, h, rfl, rfl, rfl, rfl, rfl⟩
  | cons size rest ih =>
    by_cases hless : d.readBuffer.s < size
    · refine ⟨d, read, ?_, h, ?_, rfl, rfl, rfl, rfl⟩
      · rw [UsbReads.readFromBuffer, if_pos hless, leftOver, if_pos hless]
      · rw [leftOver, if_pos hless]
    · have hsize : size.toNat ≤ d.readBuffer.s.toNat := by
        rw [UInt64.lt_iff_toNat_lt] at hless
        omega
      obtain ⟨hinv, hs, hcopied⟩ := h.readInto hsize
      obtain ⟨d', read', heq, hinv', hs', hreadSize, hreported, hcount, hcommitted⟩ :=
        ih hinv (read + size.toNat)
      rw [hs] at heq hs'
      refine ⟨d', read', ?_, hinv', ?_, hreadSize, hreported, ?_, ?_⟩
      · rw [UsbReads.readFromBuffer, if_neg hless, leftOver, if_neg hless, heq]
      · rw [leftOver, if_neg hless, hs']
      · omega
      · rw [hs, UInt64.toNat_sub_of_le _ _ (UInt64.le_iff_toNat_le.2 hsize)] at hcommitted
        omega

theorem length_reserve (d : UsbReads) (size bufferSize : UInt64) :
    (d.reserve size bufferSize).readBuffer.v.length =
      (storageSize d.readBuffer.s size bufferSize).toNat := length_resizeStorage _ _

/-- The capacity after `reserve`. -/
theorem writeCapacity_reserve (d : UsbReads) (size bufferSize : UInt64) :
    (d.reserve size bufferSize).readBuffer.writeCapacity =
      storageSize d.readBuffer.s size bufferSize - d.readBuffer.s := by
  simp [UsbReads.reserve, UsbBuffer.reserve, UsbBuffer.writeCapacity]

theorem room_of_noWrap {readSize : UInt16} (transfers : Nat → BulkTransfer) {s size : UInt64}
    (hwrap : NoWrap s size readSize.toUInt64) (i : Nat) :
    s.toNat + (transferred readSize transfers s size i).length ≤
      (storageSize s size readSize.toUInt64).toNat := by
  have hle := hwrap.le_storageSize
  have hcapacity := UInt64.toNat_sub_of_le (storageSize s size readSize.toUInt64) s
    (UInt64.le_iff_toNat_le.2 (by omega))
  rw [transferred, BulkTransfer.received, List.length_take]
  omega

/-- The device after a transfer and the read of its buffer. -/
def afterTransfer (size : UInt64) (bytes : List UInt8) (d : UsbReads) : UsbReads :=
  (((d.reserve size d.readSize.toUInt64).copyTo bytes).commit bytes).readInto size

theorem afterTransfer_readSize (size : UInt64) (bytes : List UInt8) (d : UsbReads) :
    (afterTransfer size bytes d).readSize = d.readSize := by
  rw [afterTransfer, readInto_readSize, commit_readSize, copyTo_readSize, reserve_readSize]

theorem afterTransfer_reported (size : UInt64) (bytes : List UInt8) (d : UsbReads) :
    (afterTransfer size bytes d).reported = d.reported := by
  rw [afterTransfer, readInto_reported, commit_reported, copyTo_reported, reserve_reported]

theorem Queued.transfer {d : UsbReads} (h : Queued d) {transfers : Nat → BulkTransfer}
    {size : UInt64} {i : Nat} {bytes : List UInt8} (hwrap : NoWrap d.readBuffer.s size d.readSize.toUInt64)
    (hbytes : bytes = transferred d.readSize transfers d.readBuffer.s size i)
    (henough : size.toNat ≤ d.readBuffer.s.toNat + bytes.length) :
    Queued (afterTransfer size bytes d) ∧
      (afterTransfer size bytes d).readBuffer.s =
        d.readBuffer.s + UInt64.ofNat bytes.length - size ∧
      (afterTransfer size bytes d).copied.length = d.copied.length + size.toNat := by
  have hroom := room_of_noWrap transfers hwrap i
  rw [← hbytes] at hroom
  rw [← length_reserve] at hroom
  obtain ⟨hinv, hs⟩ := (h.reserve hwrap).receive hroom
  rw [reserve_s] at hs
  rw [← hs] at henough
  obtain ⟨hread, hnext, hcopied⟩ := hinv.readInto henough
  refine ⟨hread, ?_, ?_⟩
  · rw [afterTransfer, hnext, commit_s, copyTo_s, reserve_s]
  · rw [afterTransfer, hcopied, commit_copied, copyTo_copied, reserve_copied]

section Direct

variable {transfers : Nat → BulkTransfer} {d : UsbReads} {size : UInt64} {i : Nat}
  (rest : List UInt64) (totalRead : Nat)

theorem readDirect_error (hstatus : (transfers i).status = .error) :
    d.readDirect transfers (size :: rest) i totalRead = ((d.reserve size d.readSize.toUInt64).copyTo
      (transferred d.readSize transfers d.readBuffer.s size i), none) := by
  simp only [UsbReads.readDirect, hstatus, writeCapacity_reserve, transferred]

theorem readDirect_timeout (hstatus : (transfers i).status = .timeout) :
    d.readDirect transfers (size :: rest) i totalRead =
      (afterTransfer size (transferred d.readSize transfers d.readBuffer.s size i) d,
        some (totalRead + (transferred d.readSize transfers d.readBuffer.s size i).length)) := by
  simp only [UsbReads.readDirect, hstatus, writeCapacity_reserve, transferred, afterTransfer]

theorem readDirect_success (hstatus : (transfers i).status = .success) :
    d.readDirect transfers (size :: rest) i totalRead =
      (afterTransfer size (transferred d.readSize transfers d.readBuffer.s size i) d).readDirect
        transfers rest (i + 1)
        (totalRead + (transferred d.readSize transfers d.readBuffer.s size i).length) := by
  simp only [UsbReads.readDirect, hstatus, writeCapacity_reserve, transferred, afterTransfer]

end Direct

theorem readDirect_supplied {readSize : UInt16} {transfers : Nat → BulkTransfer} {s : UInt64}
    {i given asked : Nat} {buffers : List UInt64}
    (hsupplied : Supplied readSize transfers s i buffers given asked) {d : UsbReads} (h : Queued d)
    (hs : d.readBuffer.s = s) (hsize : d.readSize = readSize) (totalRead : Nat) :
    ∃ d', d.readDirect transfers buffers i totalRead = (d', some (totalRead + given)) ∧ Queued d' ∧
      d'.reported = d.reported ∧ d'.copied.length = d.copied.length + asked := by
  induction hsupplied generalizing d totalRead with
  | done s i => exact ⟨d, rfl, h, rfl, rfl⟩
  | timeout rest hstatus hwrap henough =>
    subst hs hsize
    obtain ⟨hinv, _, hcopied⟩ := h.transfer hwrap rfl henough
    exact ⟨_, readDirect_timeout rest totalRead hstatus, hinv, afterTransfer_reported .., hcopied⟩
  | success hstatus hwrap henough _ ih =>
    subst hs hsize
    obtain ⟨hinv, hnext, hcopied⟩ := h.transfer hwrap rfl henough
    obtain ⟨d', heq, hinv', hreported, hcopied'⟩ :=
      ih hinv hnext (afterTransfer_readSize ..) (totalRead + _)
    refine ⟨d', ?_, hinv', hreported.trans (afterTransfer_reported ..), ?_⟩
    · rw [← Nat.add_assoc, ← heq, readDirect_success _ _ hstatus]
    · rw [hcopied', hcopied, Nat.add_assoc]

theorem readDirect_failedEmpty {readSize : UInt16} {transfers : Nat → BulkTransfer} {s : UInt64}
    {i : Nat} {buffers : List UInt64} (hfailed : FailedEmpty readSize transfers s i buffers)
    {d : UsbReads} (h : Queued d) (hs : d.readBuffer.s = s) (hsize : d.readSize = readSize)
    (totalRead : Nat) :
    ∃ d', d.readDirect transfers buffers i totalRead = (d', none) ∧ Queued d' ∧
      d'.reported = d.reported ∧ d'.copied.length = d.copied.length := by
  induction hfailed generalizing d totalRead with
  | @error s size i rest hstatus hwrap =>
    subst hs hsize
    have hroom := room_of_noWrap transfers hwrap i
    rw [← length_reserve] at hroom
    refine ⟨_, readDirect_error rest totalRead hstatus, (h.reserve hwrap).copyTo hroom, ?_, ?_⟩
    · rw [copyTo_reported, reserve_reported]
    · rw [copyTo_copied, reserve_copied]
  | @success s i rest hstatus hwrap _ ih =>
    subst hs hsize
    obtain ⟨hinv, hnext, hcopied⟩ := h.transfer hwrap rfl (Nat.zero_le _)
    rw [UInt64.sub_zero] at hnext
    obtain ⟨d', heq, hinv', hreported, hcopied'⟩ :=
      ih hinv hnext (afterTransfer_readSize ..) (totalRead + _)
    refine ⟨d', ?_, hinv', hreported.trans (afterTransfer_reported ..), ?_⟩
    · rw [← heq, readDirect_success _ _ hstatus]
    · rw [hcopied', hcopied]
      rfl

/-! ## Runs -/

theorem queued_opened (readSize : UInt16) : Queued (UsbReads.opened readSize) where
  committed_le := Nat.le_refl _
  storage_lt := Nat.zero_lt_succ _
  sound := by simp [UsbReads.opened]
  bytes := rfl

/-- What holds before and after a step that meets the condition. -/
def Told (d : UsbReads) : Prop := Queued d ∧ d.copied.length = d.reported

theorem Told.fifo {d : UsbReads} (h : Told d) : Fifo d where
  committed_le := h.1.committed_le
  sound := h.1.sound
  reported := h.2
  delivered := by
    rw [h.1.bytes]
    exact List.prefix_append _ _

theorem Queued.report {d : UsbReads} (h : Queued d) (n : Nat) : Queued (d.report n) where
  committed_le := h.committed_le
  storage_lt := h.storage_lt
  sound := h.sound
  bytes := h.bytes

theorem Told.readSome {d : UsbReads} (h : Told d) {buffers : List UInt64}
    {transfers : Nat → BulkTransfer} (hsupplies : Supplies d (.readSome buffers transfers)) :
    Told (d.readSome buffers transfers) := by
  obtain ⟨d₁, read, heq, hqueued, hs, hsize, hreported, hcount, hcommitted⟩ :=
    readFromBuffer_spec buffers h.1 0
  have htold := h.2
  simp only [Supplies] at hsupplies
  obtain ⟨n, hsupplied⟩ | ⟨hnone, hfailed⟩ := hsupplies
  · obtain ⟨d₂, heq₂, hqueued₂, hreported₂, hcount₂⟩ :=
      readDirect_supplied hsupplied hqueued hs hsize read
    simp only [UsbReads.readSome, heq, heq₂]
    refine ⟨hqueued₂.report _, ?_⟩
    change d₂.copied.length = d₂.reported + (read + n)
    omega
  · obtain ⟨d₂, heq₂, hqueued₂, hreported₂, hcount₂⟩ :=
      readDirect_failedEmpty hfailed hqueued hs hsize read
    simp only [UsbReads.readSome, heq, heq₂]
    refine ⟨hqueued₂, ?_⟩
    -- the buffers before were empty: the committed bytes are as many as they were
    rw [hs, hnone] at hcommitted
    omega

theorem Told.commitBuffer {d : UsbReads} (h : Told d) {bytes : List UInt8}
    (hsupplies : Supplies d (.commitBuffer bytes)) : Told (d.commitBuffer bytes) := by
  obtain ⟨hwrap, hroom⟩ := hsupplies
  rw [← length_reserve] at hroom
  refine ⟨((h.1.reserve hwrap).receive hroom).1, ?_⟩
  simp only [UsbReads.commitBuffer, commit_copied, copyTo_copied, reserve_copied, commit_reported,
    copyTo_reported, reserve_reported]
  exact h.2

theorem Told.readFromBuffer {d d' : UsbReads} (h : Told d) {buffers rest : List UInt64} {read : Nat}
    (heq : d.readFromBuffer buffers 0 = (d', rest, read)) : Told (d'.report read) := by
  obtain ⟨_, _, heq', hqueued, _, _, hreported, hcount, _⟩ := readFromBuffer_spec buffers h.1 0
  have htold := h.2
  rw [heq] at heq'
  cases heq'
  refine ⟨hqueued.report read, ?_⟩
  change d'.copied.length = d'.reported + read
  omega

theorem Told.step {d d' : UsbReads} (h : Told d) {e : UsbEvent} (hsupplies : Supplies d e)
    (hstep : d.step e = some d') : Told d' := by
  cases e with
  | readSome buffers transfers =>
    cases hstep
    exact h.readSome hsupplies
  | commitBuffer bytes =>
    cases hstep
    exact h.commitBuffer hsupplies
  | readFromBuffer buffers =>
    cases hstep
    exact h.readFromBuffer rfl

/-- The buffer is a queue in every run in which every transfer supplies its buffer. -/
theorem usb_buffer_fifo (readSize : UInt16) (events : List UsbEvent) (d : UsbReads)
    (hrun : Transition.run UsbReads.step (.opened readSize) events = some d)
    (hsupplies : Transition.Along UsbReads.step (fun _ d e => Supplies d e) []
      (.opened readSize) events) : Fifo d := by
  have hstep : ∀ (past : List UsbEvent) d e d', Told d → Supplies d e → UsbReads.step d e = some d' →
      Told d' := fun _ _ _ _ h hsupplies hstep => h.step hsupplies hstep
  have htold := Transition.invariant (I := fun _ d => Told d) hstep
    ⟨queued_opened readSize, rfl⟩ hsupplies hrun
  exact htold.fifo

theorem suppliedReads_fifo :
    Fifo ((((UsbReads.opened 8).commitBuffer [1, 2, 3]).readSome [2, 4]
      fun _ => { status := .timeout, bytes := [4, 5, 6, 7] })) := by
  refine usb_buffer_fifo 8 [.commitBuffer [1, 2, 3], .readSome [2, 4] _] _ rfl ?_
  refine ⟨⟨by decide +kernel, by decide +kernel⟩, fun d hd => ⟨?_, fun _ _ => trivial⟩⟩
  cases hd
  refine .inl ⟨4, ?_⟩
  exact .timeout [] rfl (by decide +kernel) (by decide +kernel)

/-- One byte is transferred for a buffer of four: the read takes three bytes that were never
committed, and the count of the committed bytes wraps. -/
theorem shortTransfer_not_fifo :
    ∃ d, Transition.run UsbReads.step (.opened 8)
        [.readSome [4] fun _ => { status := .success, bytes := [1] }] = some d ∧
      d.readBuffer.s = 18446744073709551613 ∧ d.copied = [1, 0, 0, 0] ∧ d.reported = 1 ∧
      ¬ Fifo d := by
  refine ⟨_, rfl, by decide +kernel, by decide +kernel, by decide +kernel, fun h => ?_⟩
  exact absurd h.reported (by decide +kernel)

end ThymioDeviceManager.Correctness
