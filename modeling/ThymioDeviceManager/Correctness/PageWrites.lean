import ThymioDeviceManager.Correctness.FirmwareUpgrade

/-! # How a page is written

The chunks of `send_page` are as long as the page, or 64 bytes, wherever they start. Whether
they keep to the page depends on how the device splits the writes before.
-/

namespace ThymioDeviceManager.Correctness

open Manager.FirmwareUpgrade FirmwareUpgrade

namespace PageWrites

/-! ## Replies -/

/-- How many bytes of a page of `size` bytes the device accepts with `k` replies, the first of
them at position `first`. -/
def acceptedBytes (d : Device) (size : Nat) : (first k : Nat) → Nat
  | _, 0 => 0
  | first, k + 1 => min (d.writes first).written (chunkSize size) + acceptedBytes d size (first + 1) k

/-- The first `k` replies are no failures. -/
def Succeed (d : Device) (first k : Nat) : Prop := ∀ j < k, (d.writes (first + j)).error = none

/-- A write fails or accepts at least one byte of what it is given. -/
def AcceptsOrFails (d : Device) (size : Nat) : Prop :=
  ∀ k, (d.writes k).error = none → 1 ≤ min (d.writes k).written (chunkSize size)

/-- As long as the writes succeed, what has been accepted leaves room for one more chunk, or is
no less than the page. -/
def LeavesRoom (d : Device) (first size : Nat) : Prop :=
  ∀ k, Succeed d first k → acceptedBytes d size first k < size →
    acceptedBytes d size first k + chunkSize size ≤ size

/-- Every write is given bytes of the page, and if the loop is left, the device has got the bytes
of the page in order. -/
structure SentInBounds (page : List UInt8) (a : Attempt) : Prop where
  inside : ∀ k chunk, a.chunks[k]? = some chunk →
    taken (a.chunks.take k) + chunk.1.length ≤ page.length
  whole : a.ack ≠ none → sent a.chunks = page

theorem succeed_succ {d : Device} {first k : Nat} :
    Succeed d first (k + 1) ↔ (d.writes first).error = none ∧ Succeed d (first + 1) k := by
  constructor
  · intro h
    refine ⟨h 0 (by omega), fun j hj => ?_⟩
    rw [Nat.add_assoc, Nat.add_comm 1 j]
    exact h (j + 1) (by omega)
  · rintro ⟨hfirst, hrest⟩ j hj
    cases j with
    | zero => exact hfirst
    | succ j =>
      rw [Nat.add_comm j 1, ← Nat.add_assoc]
      exact hrest j (by omega)

theorem acceptedBytes_succ (d : Device) (size first k : Nat) :
    acceptedBytes d size first (k + 1) =
      acceptedBytes d size first k + min (d.writes (first + k)).written (chunkSize size) := by
  induction k generalizing first with
  | zero => simp [acceptedBytes]
  | succ k ih =>
    have hlast : first + 1 + k = first + (k + 1) := by omega
    rw [acceptedBytes, ih, acceptedBytes, hlast, Nat.add_assoc]

/-! ## The loop -/

section Loop

variable {d : Device} {behind : Nat → UInt8} {data : List UInt8}

@[simp] theorem length_chunkAt (total : Nat) :
    (chunkAt behind data total).length = chunkSize data.length := by
  simp [chunkAt]

theorem write_written (total : Nat) (l : Link) :
    (write d (chunkAt behind data total) l).1.written =
      min (d.writes l.writes).written (chunkSize data.length) := by
  have hlength : (chunkAt behind data total).length = chunkSize data.length := length_chunkAt total
  rw [← hlength]
  rfl

/-- The loop that starts at `total` writes as long as the writes succeed and the page is not
sent, and so it is left. -/
structure Written (d : Device) (data : List UInt8) (total first : Nat) (error : Option DeviceError)
    (chunks : List (List UInt8 × WriteReply)) : Prop where
  count : ∀ k, k < chunks.length ↔
    Succeed d first k ∧ total + acceptedBytes d data.length first k < data.length
  chunk : ∀ k chunk, chunks[k]? = some chunk → chunk.1.length = chunkSize data.length ∧
    chunk.2.written = min (d.writes (first + k)).written (chunkSize data.length)
  left : error = none → Succeed d first chunks.length

theorem Written.done {total first : Nat} (h : ¬ total < data.length) :
    Written d data total first none [] where
  count k := by
    simp
    omega
  chunk k chunk hk := by simp at hk
  left _ j hj := by cases hj

theorem Written.more {total : Nat} {l : Link} {error : Option DeviceError}
    {chunks : List (List UInt8 × WriteReply)} (h : total < data.length)
    (hsucceeds : (d.writes l.writes).error = none)
    (hrest : Written d data (total + (write d (chunkAt behind data total) l).1.written)
      (l.writes + 1) error chunks) :
    Written d data total l.writes error
      ((chunkAt behind data total, (write d (chunkAt behind data total) l).1) :: chunks) where
  count k := by
    cases k with
    | zero => simpa [Succeed, acceptedBytes] using h
    | succ k =>
      rw [List.length_cons, Nat.add_lt_add_iff_right, hrest.count, succeed_succ, acceptedBytes,
        write_written, Nat.add_assoc, and_iff_right hsucceeds]
  chunk k chunk hk := by
    cases k with
    | zero =>
      cases hk
      exact ⟨length_chunkAt total, write_written total l⟩
    | succ k =>
      rw [Nat.add_comm k 1, ← Nat.add_assoc]
      exact hrest.chunk k chunk hk
  left herror := succeed_succ.mpr ⟨hsucceeds, hrest.left herror⟩

theorem Written.failed {total : Nat} {l : Link} {e : DeviceError} (h : total < data.length)
    (hfails : (d.writes l.writes).error = some e) :
    Written d data total l.writes (some e)
      [(chunkAt behind data total, (write d (chunkAt behind data total) l).1)] where
  count k := by
    cases k with
    | zero => simpa [Succeed, acceptedBytes] using h
    | succ k =>
      rw [succeed_succ, hfails]
      simp
  chunk k chunk hk := by
    cases k with
    | zero =>
      cases hk
      exact ⟨length_chunkAt total, write_written total l⟩
    | succ k => simp at hk
  left herror := by cases herror

theorem sendChunks_written (fuel : Nat) {total : Nat} {l l' : Link} {error : Option DeviceError}
    {chunks : List (List UInt8 × WriteReply)}
    (h : sendChunks d behind data fuel total l = some ((error, chunks), l')) :
    Written d data total l.writes error chunks := by
  induction fuel generalizing total l l' error chunks with
  | zero => cases h
  | succ fuel ih =>
    rw [sendChunks] at h
    split_ifs at h with hlt
    · dsimp only at h
      have hreply : (write d (chunkAt behind data total) l).1.error = (d.writes l.writes).error := rfl
      split at h
      · next e he =>
        cases h
        exact Written.failed hlt (hreply ▸ he)
      · next he =>
        obtain ⟨⟨⟨error', rest⟩, l₁⟩, hrec, h⟩ := Option.bind_eq_some_iff.mp h
        cases h
        exact (ih hrec).more hlt (hreply ▸ he)
    · cases h
      exact Written.done hlt

/-- What has been taken before a chunk is the sum of what was accepted. -/
theorem Written.taken_take {total first : Nat} {error : Option DeviceError}
    {chunks : List (List UInt8 × WriteReply)} (h : Written d data total first error chunks) {k : Nat}
    (hk : k ≤ chunks.length) :
    taken (chunks.take k) = acceptedBytes d data.length first k := by
  induction k with
  | zero => rfl
  | succ k ih =>
    have hget : chunks[k]? = some chunks[k] := List.getElem?_eq_getElem (by omega)
    rw [acceptedBytes_succ, ← ih (by omega), ← (h.chunk k _ hget).2, List.take_add_one, hget, taken,
      taken, List.map_append, List.sum_append]
    rfl

/-- Every write that succeeds brings the loop nearer to its end. -/
theorem exists_sendChunks (haccepts : AcceptsOrFails d data.length) (fuel : Nat) {total : Nat}
    (l : Link) (hfuel : data.length - total < fuel) :
    ∃ res, sendChunks d behind data fuel total l = some res := by
  induction fuel generalizing total l with
  | zero => cases hfuel
  | succ fuel ih =>
    rw [sendChunks]
    split_ifs with hlt
    · dsimp only
      split
      · exact ⟨_, rfl⟩
      · next he =>
        have hprogress := haccepts l.writes he
        have hwritten : (write d (chunkAt behind data total) l).1.written =
            min (d.writes l.writes).written (chunkSize data.length) := write_written total l
        obtain ⟨⟨⟨error, rest⟩, l₁⟩, hrec⟩ :=
          @ih (total + (write d (chunkAt behind data total) l).1.written)
            (write d (chunkAt behind data total) l).2 (by omega)
        exact ⟨_, by rw [hrec]; rfl⟩
    · exact ⟨_, rfl⟩

end Loop

/-! ## The page -/

section Page

variable {d : Device} {page : List UInt8} {first : Nat} {error : Option DeviceError}
  {chunks : List (List UInt8 × WriteReply)}

theorem inside_iff (h : Written d page 0 first error chunks) :
    (∀ k chunk, chunks[k]? = some chunk → taken (chunks.take k) + chunk.1.length ≤ page.length) ↔
      LeavesRoom d first page.length := by
  constructor
  · intro hinside k hsucceed hless
    have hk : k < chunks.length := (h.count k).mpr ⟨hsucceed, by rwa [Nat.zero_add]⟩
    have hget : chunks[k]? = some chunks[k] := List.getElem?_eq_getElem hk
    have hroom := hinside k _ hget
    rwa [h.taken_take (Nat.le_of_lt hk), (h.chunk k _ hget).1] at hroom
  · intro hroom k chunk hget
    have hk : k < chunks.length := (List.getElem?_eq_some_iff.mp hget).1
    obtain ⟨hsucceed, hless⟩ := (h.count k).mp hk
    rw [h.taken_take (Nat.le_of_lt hk), (h.chunk k _ hget).1]
    exact hroom k hsucceed (by rwa [Nat.zero_add] at hless)

/-- With room for every chunk, a loop without an error has sent as many bytes as the page has. -/
theorem taken_eq (h : Written d page 0 first none chunks) (hroom : LeavesRoom d first page.length) :
    taken chunks = page.length := by
  have hsucceed := h.left rfl
  have hall : ¬ acceptedBytes d page.length first chunks.length < page.length := by
    intro hless
    have := (h.count chunks.length).mpr ⟨hsucceed, by rwa [Nat.zero_add]⟩
    omega
  have htaken := h.taken_take (Nat.le_refl chunks.length)
  rw [List.take_length] at htaken
  rw [htaken]
  apply Nat.le_antisymm _ (Nat.not_lt.mp hall)
  cases hk : chunks.length with
  | zero => exact Nat.zero_le _
  | succ k =>
    obtain ⟨hbefore, hless⟩ := (h.count k).mp (by omega)
    have hlast := hroom k hbefore (by rwa [Nat.zero_add] at hless)
    rw [acceptedBytes_succ]
    omega

end Page

end PageWrites

open PageWrites

/-- A page is sent once and in bounds exactly if the device splits it so that every chunk that
is written fits. -/
theorem page_sent_in_bounds_iff (d : Device) (behind : Nat → UInt8) (fuel index : Nat)
    (page : Nat × List UInt8) (l : Link) (haccepts : AcceptsOrFails d page.2.length)
    (hfuel : page.2.length < fuel) :
    ∃ error l' a, sendPage d behind fuel index page l = some (error, l') ∧
      l'.attempts = l.attempts ++ [a] ∧
        (SentInBounds page.2 a ↔ LeavesRoom d (l.writes + 1) page.2.length) := by
  obtain ⟨⟨⟨error, chunks⟩, l₁⟩, hchunks⟩ : ∃ res,
      sendChunks d behind page.2 fuel 0 (write d (bootloaderWritePage 1 page.1) l).2 = some res :=
    exists_sendChunks haccepts fuel _ (by omega)
  have hwritten := sendChunks_written fuel hchunks
  obtain ⟨hconsecutive, hattempts, -⟩ := sendChunks_spec fuel hchunks
  have hiff : ∀ a : Attempt, a.chunks = chunks → (error.isSome → a.ack = none) →
      (SentInBounds page.2 a ↔ LeavesRoom d (l.writes + 1) page.2.length) := by
    intro a ha hack
    constructor
    · intro h
      exact (inside_iff hwritten).mp (ha ▸ h.inside)
    · intro hroom
      refine ⟨ha ▸ (inside_iff hwritten).mpr hroom, fun hne => ?_⟩
      cases error with
      | some e => exact absurd (hack rfl) hne
      | none => rw [ha, sent_eq_iff hconsecutive, taken_eq hwritten hroom]
  cases error with
  | some e =>
    let a : Attempt :=
      { index, header := (write d (bootloaderWritePage 1 page.1) l).1, chunks, ack := none }
    refine ⟨some e, l₁.attempt a, a, ?_, congrArg (· ++ _) hattempts, hiff a rfl fun _ => rfl⟩
    exact Option.bind_eq_some_iff.mpr ⟨((some e, chunks), l₁), hchunks, rfl⟩
  | none =>
    let a : Attempt :=
      { index, header := (write d (bootloaderWritePage 1 page.1) l).1, chunks
        ack := some (read d 8 l₁).1 }
    refine ⟨readAck (read d 8 l₁).1, (read d 8 l₁).2.attempt a, a, ?_, congrArg (· ++ _) hattempts,
      hiff a rfl fun h => by cases h⟩
    exact Option.bind_eq_some_iff.mpr ⟨((none, chunks), l₁), hchunks, rfl⟩

/-- A device that takes whatever it is given. -/
def quickDevice : Device where
  writes _ := { written := 64 }
  reads _ := { bytes := [] }
  opens _ := none

theorem quickDevice_sent : ∃ error l' a,
    sendPage quickDevice (fun _ => 0) 129 0 (0, List.replicate 128 1) {} = some (error, l') ∧
      l'.attempts = ({} : Link).attempts ++ [a] ∧
        (SentInBounds (List.replicate 128 1) a ↔
          LeavesRoom quickDevice (({} : Link).writes + 1) (List.replicate 128 (1 : UInt8)).length) :=
  page_sent_in_bounds_iff quickDevice (fun _ => 0) 129 0 (0, List.replicate 128 1) {}
    (fun _ _ => by rw [List.length_replicate]; exact (by decide : 1 ≤ min 64 (chunkSize 128)))
    (by rw [List.length_replicate]; decide)

/-- A device that takes one byte of a page first. -/
def slowDevice : Device where
  writes k := { written := if k = 1 then 1 else 64 }
  reads _ := { bytes := [] }
  opens _ := none

theorem slowDevice_overread :
    ¬ ∀ (d : Device) (fuel : Nat) (page : Nat × List UInt8) (error : Option DeviceError) (l' : Link)
      (a : Attempt), AcceptsOrFails d page.2.length → page.2.length < fuel →
        sendPage d (fun _ => 0) fuel 0 page {} = some (error, l') → l'.attempts = [a] →
          SentInBounds page.2 a := by
  intro h
  have haccepts : AcceptsOrFails slowDevice (0, List.replicate 64 (1 : UInt8)).2.length := by
    intro k _
    rw [List.length_replicate]
    change 1 ≤ min (if k = 1 then 1 else 64) 64
    split <;> decide
  have hsent := h slowDevice 65 (0, List.replicate 64 1) _ _ _ haccepts (by decide) rfl rfl
  have hsecond := hsent.inside 1 _ rfl
  revert hsecond
  decide

end ThymioDeviceManager.Correctness
