import Mathlib.Data.List.Nodup
import ThymioDeviceManager.Manager.FirmwareUpgrade
import ThymioDeviceManager.Correctness.MessageStream

/-! # What a reported upgrade has done

`send_page` takes every acknowledgement for a success and does not look at what became of
the message that announces a page. An upgrade that reports success has delivered the image
exactly when the device was kind: every page that it acknowledged was announced and taken
as a whole, and acknowledged with success.
-/

namespace ThymioDeviceManager.Correctness.FirmwareUpgrade

open Manager.FirmwareUpgrade Protocol Library

/-! ## Attempts -/

/-- The reply is taken for an acknowledgement. -/
def accepted (a : Attempt) : Bool := a.ack.any fun r => (readAck r).isNone

/-- The bytes of a page that the device has taken. -/
def sent (chunks : List (List UInt8 × WriteReply)) : List UInt8 :=
  chunks.flatMap fun c => c.1.take c.2.written

/-- How many bytes the device says to have taken. -/
def taken (chunks : List (List UInt8 × WriteReply)) : Nat := (chunks.map fun c => c.2.written).sum

/-- The page was announced, sent in full and answered by a `BOOTLOADER_ACK` of success. -/
structure Delivered (page : Nat × List UInt8) (a : Attempt) : Prop where
  announced : a.header.written = (bootloaderWritePage 1 page.1).length
  whole : sent a.chunks = page.2
  acknowledged : ∃ r, a.ack = some r ∧ r.error = none ∧ r.bytes.length = 8 ∧
    r.type = bootloaderAck ∧ r.code = 0

/-- The replies of a device that has taken the page in full, and acknowledged it with `SUCCESS` if
at all. -/
structure TakenInFull (page : Nat × List UInt8) (a : Attempt) : Prop where
  announced : a.header.written = 10
  whole : taken a.chunks = page.2.length
  code : ∀ r, a.ack = some r → r.code = 0

/-- The chunks are consecutive bytes from `total` on, as far as the device has taken them. -/
def Consecutive (behind : Nat → UInt8) (data : List UInt8) (total : Nat)
    (chunks : List (List UInt8 × WriteReply)) : Prop :=
  sent chunks = (List.range (taken chunks)).map fun i => byteAt behind data (total + i)

section Chunks

variable {d : Device} {behind : Nat → UInt8} {data : List UInt8}

theorem take_chunkAt {total n : Nat} (hn : n ≤ (chunkAt behind data total).length) :
    (chunkAt behind data total).take n =
      (List.range n).map fun i => byteAt behind data (total + i) := by
  rw [chunkAt, List.length_map, List.length_range] at hn
  rw [chunkAt, ← List.map_take, List.take_range, Nat.min_eq_left hn]

theorem Consecutive.cons {total : Nat} {r : WriteReply} {chunks : List (List UInt8 × WriteReply)}
    (hr : r.written ≤ (chunkAt behind data total).length)
    (h : Consecutive behind data (total + r.written) chunks) :
    Consecutive behind data total ((chunkAt behind data total, r) :: chunks) := by
  unfold Consecutive sent taken at *
  rw [List.flatMap_cons, List.map_cons, List.sum_cons, List.range_add, List.map_append, h,
    take_chunkAt hr, List.map_map]
  simp [Function.comp_def, Nat.add_assoc]

theorem sendChunks_spec (fuel : Nat) : ∀ {total : Nat} {l l' : Link} {error : Option DeviceError}
    {chunks : List (List UInt8 × WriteReply)},
    sendChunks d behind data fuel total l = some ((error, chunks), l') →
      Consecutive behind data total chunks ∧ l'.attempts = l.attempts ∧ l'.reports = l.reports := by
  induction fuel with
  | zero => intro total l l' error chunks h; cases h
  | succ fuel ih =>
    intro total l l' error chunks h
    have hlast : ∀ r : WriteReply, r.written ≤ (chunkAt behind data total).length →
        Consecutive behind data total [(chunkAt behind data total, r)] :=
      fun r hr => Consecutive.cons hr rfl
    have hwritten : (write d (chunkAt behind data total) l).1.written ≤
        (chunkAt behind data total).length := Nat.min_le_right _ _
    rw [sendChunks] at h
    split_ifs at h with hlt
    · dsimp only at h
      split at h
      · cases h
        exact ⟨hlast _ hwritten, rfl, rfl⟩
      · obtain ⟨⟨⟨error', rest⟩, l₁⟩, hrec, h⟩ := Option.bind_eq_some_iff.mp h
        cases h
        obtain ⟨hrest, hattempts, hreports⟩ := ih hrec
        exact ⟨hrest.cons hwritten, hattempts, hreports⟩
    · cases h
      exact ⟨rfl, rfl, rfl⟩

end Chunks

/-! ## Pages -/

section Pages

variable {d : Device} {behind : Nat → UInt8} {data : FirmwareData}

/-- An attempt at a page of the image, with consecutive chunks of it. -/
structure AttemptAt (behind : Nat → UInt8) (data : FirmwareData) (a : Attempt) : Prop where
  index : a.index < data.length
  consecutive : Consecutive behind (data.getD a.index (0, [])).2 0 a.chunks

/-- What holds when the last `page` pages have been sent: these are the pages with an accepted
attempt, each has one, and nobody has been told that the upgrade is complete. -/
structure Progress (behind : Nat → UInt8) (data : FirmwareData) (page : Nat) (l : Link) : Prop where
  attempts : ∀ a ∈ l.attempts, AttemptAt behind data a
  accepted : (l.attempts.filter accepted).map Attempt.index =
    (List.range page).map fun i => data.length - 1 - i
  incomplete : ∀ r ∈ l.reports, r.complete = false

theorem sendPage_spec {fuel index : Nat} {page : Nat × List UInt8} {l l' : Link}
    {error : Option DeviceError} (h : sendPage d behind fuel index page l = some (error, l')) :
    ∃ a : Attempt, a.index = index ∧ Consecutive behind page.2 0 a.chunks ∧
      accepted a = error.isNone ∧ l'.attempts = l.attempts ++ [a] ∧ l'.reports = l.reports := by
  obtain ⟨⟨⟨error', chunks⟩, l₁⟩, hchunks, h⟩ := Option.bind_eq_some_iff.mp h
  obtain ⟨hconsecutive, hattempts, hreports⟩ := sendChunks_spec fuel hchunks
  cases error' with
  | some e =>
    cases h
    exact ⟨_, rfl, hconsecutive, rfl, congrArg (· ++ _) hattempts, hreports⟩
  | none =>
    cases h
    refine ⟨_, rfl, hconsecutive, ?_, congrArg (· ++ _) hattempts, hreports⟩
    simp [accepted]

theorem Progress.sendPages {fuel : Nat} (left : Nat) : ∀ {page : Nat} {l l' : Link} {page' : Nat},
    left + page = data.length → Progress behind data page l →
    sendPages d behind data fuel left page l = some (page', l') →
      Progress behind data page' l' ∧ page' ≤ data.length := by
  induction left with
  | zero =>
    intro page l l' page' hpage hl h
    cases h
    exact ⟨hl, by omega⟩
  | succ left ih =>
    intro page l l' page' hpage hl h
    obtain ⟨⟨error, l₁⟩, hsend, h⟩ := Option.bind_eq_some_iff.mp h
    obtain ⟨a, hindex, hconsecutive, haccepted, hattempts, hreports⟩ := sendPage_spec hsend
    have hat : ∀ a' ∈ l₁.attempts, AttemptAt behind data a' := by
      intro a' ha'
      rw [hattempts] at ha'
      rcases List.mem_append.mp ha' with ha' | ha'
      · exact hl.attempts a' ha'
      · rw [List.mem_singleton.mp ha']
        exact ⟨by omega, by rw [hindex]; exact hconsecutive⟩
    cases error with
    | some e =>
      cases h
      refine ⟨⟨hat, ?_, by rw [hreports]; exact hl.incomplete⟩, by omega⟩
      rw [hattempts, List.filter_append, List.filter_singleton, haccepted]
      simpa using hl.accepted
    | none =>
      have hnext : left + (page + 1) = data.length := by omega
      suffices hl₁ : Progress behind data (page + 1) (l₁.report none (page, data.length) false) from
        ih hnext hl₁ h
      refine ⟨hat, ?_, fun r hr => ?_⟩
      · have hlast : a.index = data.length - 1 - page := by omega
        change (l₁.attempts.filter _).map _ = _
        rw [hattempts, List.filter_append, List.filter_singleton, haccepted, List.range_succ]
        simp [hl.accepted, hlast]
      · rcases List.mem_append.mp hr with hr | hr
        · exact hl.incomplete r (hreports ▸ hr)
        · rw [List.mem_singleton.mp hr]

/-- The callback has been told that the upgrade is complete, without an error. -/
def Completed (l : Link) : Prop := ∃ r ∈ l.reports, r.complete = true ∧ r.error = none

/-- Opening a device leaves what was done with the pages as it is. -/
def KeepsPages (reopen : Link → Option DeviceError × Link) : Prop :=
  ∀ l, (reopen l).2.attempts = l.attempts ∧ (reopen l).2.reports = l.reports

theorem Progress.upgradePages {reopen : Link → Option DeviceError × Link} (hreopen : KeepsPages reopen)
    (fuel : Nat) : ∀ {page : Nat} {l l' : Link}, page ≤ data.length → Progress behind data page l →
      upgradePages d behind data reopen fuel page l = some l' → Completed l' →
      ∃ l₁, Progress behind data data.length l₁ ∧ l'.attempts = l₁.attempts := by
  induction fuel with
  | zero => intro page l l' _ _ h; cases h
  | succ fuel ih =>
    intro page l l' hpage hl h hcompleted
    obtain ⟨⟨page₁, l₁⟩, hsend, h⟩ := Option.bind_eq_some_iff.mp h
    obtain ⟨h₁, hle⟩ := Progress.sendPages (data.length - page) (by omega) hl hsend
    dsimp only at h
    split_ifs at h with hall
    · cases h
      exact ⟨l₁, hall ▸ h₁, rfl⟩
    · obtain ⟨hattempts, hreports⟩ := hreopen l₁
      have h₂ : Progress behind data page₁ (reopen l₁).2 :=
        ⟨hattempts ▸ h₁.attempts, hattempts ▸ h₁.accepted, hreports ▸ h₁.incomplete⟩
      split at h
      · next e l₂ heq =>
        rw [heq] at h₂
        cases h
        obtain ⟨r, hr, hcomplete, hnone⟩ := hcompleted
        rcases List.mem_append.mp hr with hr | hr
        · rw [h₂.incomplete r hr] at hcomplete
          cases hcomplete
        · rw [List.mem_singleton.mp hr] at hnone
          cases hnone
      · next l₂ heq =>
        rw [heq] at h₂
        exact ih hle h₂ h hcompleted

theorem retrySerialDevice_keeps (n : Nat) : ∀ r : Option DeviceError × Link,
    (retrySerialDevice d n r).2.attempts = r.2.attempts ∧
      (retrySerialDevice d n r).2.reports = r.2.reports := by
  induction n with
  | zero => exact fun _ => ⟨rfl, rfl⟩
  | succ n ih =>
    rintro ⟨error, l⟩
    cases error with
    | none => exact ⟨rfl, rfl⟩
    | some e => exact ih (makeSerialDevice d l)

theorem tryMakeSerialDevice_keeps : KeepsPages (tryMakeSerialDevice d) :=
  fun l => retrySerialDevice_keeps 1001 (makeSerialDevice d l)

theorem getNodeId_keeps (l : Link) :
    (getNodeId d l).2.attempts = l.attempts ∧ (getNodeId d l).2.reports = l.reports := by
  unfold getNodeId
  dsimp only
  split
  · exact ⟨rfl, rfl⟩
  · split_ifs <;> exact ⟨rfl, rfl⟩

theorem progress_zero {l : Link} (hattempts : l.attempts = []) (hreports : l.reports = []) :
    Progress behind data 0 l :=
  ⟨by simp [hattempts], by simp [hattempts], by simp [hreports]⟩

/-- The run of either function on a device. -/
def Runs (d : Device) (behind : Nat → UInt8) (data : FirmwareData) (l : Link) : Prop :=
  ∃ id noReboot fuel, upgradeThymio2SerialEndpoint d behind data id noReboot fuel = some l ∨
    upgradeThymio2UsbEndpoint d behind data id noReboot fuel = some l

/-- A complete upgrade has exactly one accepted attempt at every page. -/
theorem Runs.progress {l : Link} (h : Runs d behind data l) (hcompleted : Completed l) :
    ∃ l₁, Progress behind data data.length l₁ ∧ l.attempts = l₁.attempts := by
  obtain ⟨id, noReboot, fuel, h | h⟩ := h
  · unfold upgradeThymio2SerialEndpoint at h
    have hopened := @tryMakeSerialDevice_keeps d {}
    split at h
    · next e l₁ heq =>
      rw [heq] at hopened
      cases h
      obtain ⟨r, hr, -, hnone⟩ := hcompleted
      rw [Link.report, hopened.2] at hr
      rw [List.mem_singleton.mp hr] at hnone
      cases hnone
    · next l₁ heq =>
      rw [heq] at hopened
      have hnode : ∀ b : Bool, (if id = 0 ∧ b then getNodeId d l₁ else (id, l₁)).2.attempts = [] ∧
          (if id = 0 ∧ b then getNodeId d l₁ else (id, l₁)).2.reports = [] := by
        intro b
        split_ifs
        · rw [(getNodeId_keeps l₁).1, (getNodeId_keeps l₁).2]
          exact hopened
        · exact hopened
      refine Progress.upgradePages tryMakeSerialDevice_keeps fuel (Nat.zero_le _)
        (progress_zero ?_ ?_) h hcompleted
      · split_ifs
        · exact (hnode _).1
        · exact (hnode _).1
      · split_ifs
        · exact (hnode _).2
        · exact (hnode _).2
  · unfold upgradeThymio2UsbEndpoint at h
    refine Progress.upgradePages (fun _ => ⟨rfl, rfl⟩) fuel (Nat.zero_le _) (progress_zero ?_ ?_) h
      hcompleted
    · split_ifs <;> rfl
    · split_ifs <;> rfl

end Pages

/-! ## The theorem -/

section Main

variable {d : Device} {behind : Nat → UInt8} {data : FirmwareData} {l : Link}

/-- Every page of the image was delivered. -/
def ImageDelivered (data : FirmwareData) (l : Link) : Prop :=
  ∀ k page, data[k]? = some page → ∃ a ∈ l.attempts, a.index = k ∧ Delivered page a

/-- Every page that the device has acknowledged was announced, taken as a whole, and acknowledged
with success. -/
def AcknowledgedRightly (data : FirmwareData) (l : Link) : Prop :=
  ∀ a ∈ l.attempts, accepted a = true → ∀ page, data[a.index]? = some page → TakenInFull page a

theorem readAck_eq_none_iff {r : ReadReply} :
    readAck r = none ↔ r.error = none ∧ r.bytes.length = 8 ∧ r.type = bootloaderAck := by
  unfold readAck
  cases r.error with
  | some e => simp
  | none => simp

theorem accepted_iff {a : Attempt} : accepted a = true ↔ ∃ r, a.ack = some r ∧ r.error = none ∧
    r.bytes.length = 8 ∧ r.type = bootloaderAck := by
  unfold accepted
  cases a.ack with
  | none => simp
  | some r => simp [← readAck_eq_none_iff]

theorem Delivered.accepted {page : Nat × List UInt8} {a : Attempt} (h : Delivered page a) :
    accepted a = true := by
  obtain ⟨r, hr, herror, hlength, htype, -⟩ := h.acknowledged
  exact accepted_iff.mpr ⟨r, hr, herror, hlength, htype⟩

/-- The device has the page as a whole when it has taken as many bytes. -/
theorem sent_eq_iff {page : List UInt8} {chunks : List (List UInt8 × WriteReply)}
    (h : Consecutive behind page 0 chunks) : sent chunks = page ↔ taken chunks = page.length := by
  constructor
  · intro hsent
    have hlength := congrArg List.length (h.symm.trans hsent)
    simpa using hlength
  · intro htaken
    rw [h, htaken]
    refine List.ext_getElem (by simp) fun i hi hi' => ?_
    simp [byteAt, hi']

theorem delivered_iff_takenInFull {page : Nat × List UInt8} {a : Attempt}
    (h : Consecutive behind page.2 0 a.chunks) :
    Delivered page a ↔ FirmwareUpgrade.accepted a = true ∧ TakenInFull page a := by
  constructor
  · intro hd
    obtain ⟨r, hr, -, -, -, hcode⟩ := hd.acknowledged
    refine ⟨hd.accepted, hd.announced, (sent_eq_iff h).mp hd.whole, fun r' hr' => ?_⟩
    cases hr.symm.trans hr'
    exact hcode
  · rintro ⟨haccepted, hk⟩
    obtain ⟨r, hr, herror, hlength, htype⟩ := accepted_iff.mp haccepted
    exact ⟨hk.announced, (sent_eq_iff h).mpr hk.whole, r, hr, herror, hlength, htype, hk.code r hr⟩

theorem Progress.exists_accepted (h : Progress behind data data.length l) {k : Nat}
    (hk : k < data.length) : ∃ a ∈ l.attempts, a.index = k ∧ FirmwareUpgrade.accepted a = true := by
  have hmem : k ∈ (l.attempts.filter FirmwareUpgrade.accepted).map Attempt.index := by
    rw [h.accepted]
    exact List.mem_map.mpr ⟨data.length - 1 - k, List.mem_range.mpr (by omega), by omega⟩
  obtain ⟨a, ha, rfl⟩ := List.mem_map.mp hmem
  obtain ⟨ha, haccepted⟩ := List.mem_filter.mp ha
  exact ⟨a, ha, rfl, haccepted⟩

theorem Progress.accepted_unique (h : Progress behind data data.length l) {a b : Attempt}
    (ha : a ∈ l.attempts) (hb : b ∈ l.attempts) (hindex : a.index = b.index)
    (haccepted : FirmwareUpgrade.accepted a = true) (hbaccepted : FirmwareUpgrade.accepted b = true) :
    a = b := by
  have hnodup : ((l.attempts.filter FirmwareUpgrade.accepted).map Attempt.index).Nodup := by
    rw [h.accepted]
    refine List.Nodup.map_on (fun i hi j hj hij => ?_) List.nodup_range
    rw [List.mem_range] at hi hj
    omega
  exact List.inj_on_of_nodup_map hnodup (List.mem_filter.mpr ⟨ha, haccepted⟩)
    (List.mem_filter.mpr ⟨hb, hbaccepted⟩) hindex

theorem Progress.delivered_iff (h : Progress behind data data.length l) :
    ImageDelivered data l ↔ AcknowledgedRightly data l := by
  have hpage : ∀ a ∈ l.attempts, ∀ page, data[a.index]? = some page →
      (Delivered page a ↔ FirmwareUpgrade.accepted a = true ∧ TakenInFull page a) := by
    intro a ha page hpage
    have hconsecutive := (h.attempts a ha).consecutive
    rw [List.getD_eq_getElem?_getD, hpage] at hconsecutive
    exact delivered_iff_takenInFull hconsecutive
  constructor
  · intro hdelivered a ha haccepted page hp
    obtain ⟨b, hb, hindex, hd⟩ := hdelivered a.index page hp
    obtain rfl := h.accepted_unique ha hb hindex.symm haccepted hd.accepted
    exact ((hpage a ha page hp).mp hd).2
  · intro hright k page hp
    obtain ⟨hk, -⟩ := List.getElem?_eq_some_iff.mp hp
    obtain ⟨a, ha, rfl, haccepted⟩ := h.exists_accepted hk
    exact ⟨a, ha, rfl, (hpage a ha page hp).mpr ⟨haccepted, hright a ha haccepted page hp⟩⟩

/-- An upgrade that reports success has delivered the image exactly when every page that the
device has acknowledged was announced, taken as a whole, and acknowledged with success. -/
theorem completed_delivered_iff (hrun : Runs d behind data l) (hcompleted : Completed l) :
    ImageDelivered data l ↔ AcknowledgedRightly data l := by
  obtain ⟨l₁, hprogress, hattempts⟩ := hrun.progress hcompleted
  have hiff := hprogress.delivered_iff
  unfold ImageDelivered AcknowledgedRightly at *
  rwa [hattempts]

/-- A device that takes what it is given and answers with this error code. -/
def answering (code : UInt8) : Device where
  writes _ := { written := 64 }
  reads _ := { bytes := [2, 0, 0, 0, 0x06, 0x80, code, 0] }
  opens _ := none

/-- An image of one page. -/
def onePage : FirmwareData := [(3, List.replicate 64 0xff)]

theorem onePage_completed (code : UInt8) (q : Attempt → Bool)
    (h : (upgradeThymio2UsbEndpoint (answering code) (fun _ => 0) onePage 1 false 3).any (fun l =>
      l.reports.any (fun r => r.complete && r.error.isNone) && l.attempts.all q) = true) :
    ∃ l, Runs (answering code) (fun _ => 0) onePage l ∧ Completed l ∧
      ∀ a ∈ l.attempts, q a = true := by
  cases hrun : upgradeThymio2UsbEndpoint (answering code) (fun _ => 0) onePage 1 false 3 with
  | none =>
    rw [hrun] at h
    cases h
  | some l =>
    rw [hrun, Option.any_some, Bool.and_eq_true, List.any_eq_true] at h
    obtain ⟨⟨r, hr, hreport⟩, hq⟩ := h
    obtain ⟨hcomplete, hnone⟩ := Bool.and_eq_true_iff.mp hreport
    exact ⟨l, ⟨1, false, 3, .inr hrun⟩, ⟨r, hr, hcomplete, Option.isNone_iff_eq_none.mp hnone⟩,
      List.all_eq_true.mp hq⟩

/-- An image that the device takes. -/
theorem takenPage_delivered : ∃ l, Runs (answering 0) (fun _ => 0) onePage l ∧ Completed l ∧
    (ImageDelivered onePage l ↔ AcknowledgedRightly onePage l) := by
  obtain ⟨l, hrun, hcompleted, -⟩ := onePage_completed 0 (fun _ => true) (by decide +kernel)
  exact ⟨l, hrun, hcompleted, completed_delivered_iff hrun hcompleted⟩

/-- A page that the bootloader could not write is reported as a success. -/
theorem refusedPage_reported : ∃ l, Runs (answering 2) (fun _ => 0) onePage l ∧ Completed l ∧
    ¬ ImageDelivered onePage l := by
  obtain ⟨l, hrun, hcompleted, hcodes⟩ := onePage_completed 2
    (fun a => a.ack.all fun r => r.code ≠ 0) (by decide +kernel)
  refine ⟨l, hrun, hcompleted, fun h => ?_⟩
  obtain ⟨a, ha, -, hd⟩ := h 0 (3, List.replicate 64 0xff) rfl
  obtain ⟨r, hr, -, -, -, hcode⟩ := hd.acknowledged
  have hne := hcodes a ha
  rw [hr] at hne
  simp [hcode] at hne

end Main

end ThymioDeviceManager.Correctness.FirmwareUpgrade
