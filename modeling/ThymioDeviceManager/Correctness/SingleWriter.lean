import ThymioDeviceManager.Correctness.DeviceWrites

/-! # One writer, and no stall

Whether a call of `write_messages` starts a write is inferred from the length of
the queue after the insertion. On an open device that is not being upgraded a
queue with messages always has a write under way: a call that leaves the writing
to others finds the queue non-empty, and a completion either empties the queue
or goes on with its front.
-/

namespace ThymioDeviceManager.Correctness

open Manager Library

variable {μ κ ε : Type} {type : μ → Nat}

/-- The endpoint can write: a queue that is not empty is being written. -/
structure Flowing (ep : AsebaEndpoint μ κ) (inFlight : List μ) : Prop where
  hasDevice : ep.hasDevice = true
  upgrading : ep.upgradingFirmware = false
  busy : ep.msgQueue ≠ [] → inFlight ≠ []

theorem writeNext_ne_none {ep : AsebaEndpoint μ κ} (hdevice : ep.hasDevice = true)
    (hupgrading : ep.upgradingFirmware = false) (hqueue : ep.msgQueue ≠ []) :
    ep.writeNext.toList ≠ [] := by
  obtain ⟨cell, rest, hcons⟩ := List.exists_cons_of_ne_nil hqueue
  simp [AsebaEndpoint.writeNext, hdevice, hupgrading, hcons]

theorem Flowing.writeMessages {ep : AsebaEndpoint μ κ} {inFlight : List μ}
    (h : Flowing ep inFlight) (messages : List μ) (cb : Option κ) :
    Flowing (ep.writeMessages type messages cb).1
      (inFlight ++ (ep.writeMessages type messages cb).2.toList) := by
  by_cases hempty : messages = []
  · subst hempty
    simpa [AsebaEndpoint.writeMessages] using h
  have hfalse : messages.isEmpty = false := by simpa using hempty
  simp only [AsebaEndpoint.writeMessages, hfalse, Bool.false_eq_true, if_false,
    enqueue_eq type ep.msgQueue hempty]
  split
  · rename_i hlength
    -- someone else's message was there before
    have hqueue : ep.msgQueue ≠ [] := by
      intro hnil
      simp [hnil, length_batchCells] at hlength
    exact ⟨h.hasDevice, h.upgrading, fun _ => by simpa using h.busy hqueue⟩
  · refine ⟨h.hasDevice, h.upgrading, fun hqueue => ?_⟩
    apply List.append_ne_nil_of_right_ne_nil
    exact writeNext_ne_none h.hasDevice h.upgrading hqueue

theorem Flowing.handleWrite {ep : AsebaEndpoint μ κ} {inFlight : List μ}
    (h : Flowing ep inFlight) (others : List μ) (ec : Option ε) :
    Flowing (ep.handleWrite ec).1 (others ++ (ep.handleWrite ec).2.2.toList) := by
  unfold AsebaEndpoint.handleWrite
  cases hqueue : ep.msgQueue with
  | nil => exact ⟨h.hasDevice, h.upgrading, fun hne => absurd hqueue hne⟩
  | cons cell rest =>
    cases ec with
    | some ec => exact ⟨h.hasDevice, h.upgrading, fun hne => absurd rfl hne⟩
    | none =>
      refine ⟨h.hasDevice, h.upgrading, fun hne => ?_⟩
      apply List.append_ne_nil_of_right_ne_nil
      exact writeNext_ne_none h.hasDevice h.upgrading hne

/-- The endpoint, if it is still there, can write as long as no upgrade began. -/
def KeepsFlowing (past : List (Writing.Event μ κ ε)) (s : Writing μ κ ε) : Prop :=
  .upgrade ∉ past → ∀ ep, s.endpoint = some ep → Flowing ep s.inFlight

theorem KeepsFlowing.step {past : List (Writing.Event μ κ ε)} {s t : Writing μ κ ε}
    {e : Writing.Event μ κ ε} (hs : KeepsFlowing past s) (h : s.step type e = some t) :
    KeepsFlowing (past ++ [e]) t := by
  intro hpast ep' hep'
  obtain ⟨hold, he⟩ : .upgrade ∉ past ∧ .upgrade ≠ e := by simpa using hpast
  cases e with
  | write messages cb =>
    cases h
    cases hep : s.endpoint with
    | none => simp [Writing.writeMessages, hep] at hep'
    | some ep =>
      simp only [Writing.writeMessages, hep] at hep' ⊢
      cases hep'
      exact (hs hold ep hep).writeMessages messages cb
  | complete index ec =>
    simp only [Writing.step] at h
    split at h
    · rename_i ep m hep hm
      cases h
      cases hep'
      exact (hs hold ep hep).handleWrite (s.inFlight.eraseIdx index) ec
    · cases h
  | upgrade => exact absurd rfl he
  | destroy =>
    simp only [Writing.step] at h
    split at h
    · cases h
      cases hep'
    · cases h

/-- A call adds its cells behind the cells that wait. -/
theorem queued_writeMessages (s : Writing μ κ ε) (messages : List μ) (cb : Option κ) :
    s.queued <+: (s.writeMessages type messages cb).queued := by
  cases hep : s.endpoint with
  | none => simp [Writing.writeMessages, hep]
  | some ep =>
    by_cases hempty : messages = []
    · simp [Writing.writeMessages, Writing.queued, hep, hempty, writeMessages_nil]
    simp only [Writing.writeMessages, Writing.queued, hep, Option.map_some, Option.getD_some,
      writeMessages_eq type ep hempty]
    exact List.prefix_append _ _

/-- A call that finds a write under way leaves the writing to its completion. -/
theorem OneWriter.inFlight_writeMessages {s : Writing μ κ ε} (hs : OneWriter s)
    (hflight : s.inFlight ≠ []) (messages : List μ) (cb : Option κ) :
    (s.writeMessages type messages cb).inFlight = s.inFlight := by
  obtain hnone | ⟨m, cb', rest, hqueued, -⟩ := hs
  · exact absurd hnone hflight
  have hmoves : Moves s (.write messages cb) (s.writeMessages type messages cb) :=
    writeMessages_moves messages cb
  generalize s.writeMessages type messages cb = t at hmoves
  cases hmoves with
  | dropped => rfl
  | queues messages cb ep next hmessages halive hep hqueue hnext =>
    obtain rfl | ⟨hnil, -⟩ := hnext
    · exact List.append_nil _
    · rw [hnil] at hqueued
      cases hqueued

/-- One write at most, for the front of the queue; a call changes neither; the
queue never stalls. -/
structure SingleWriter (type : μ → Nat) (events : List (Writing.Event μ κ ε))
    (s : Writing μ κ ε) : Prop where
  one : s.inFlight.length ≤ 1
  front : ∀ m ∈ s.inFlight, ∃ cb rest, s.queued = (m, cb) :: rest
  behind : ∀ messages cb, s.queued <+: (s.writeMessages type messages cb).queued
  leaves : s.inFlight ≠ [] → ∀ messages cb,
    (s.writeMessages type messages cb).inFlight = s.inFlight
  flows : .upgrade ∉ events → s.queued ≠ [] → s.inFlight.length = 1

theorem OneWriter.length_le (s : Writing μ κ ε) (hs : OneWriter s) : s.inFlight.length ≤ 1 := by
  obtain hnone | ⟨m, cb, rest, -, hflight⟩ := hs
  · simp [hnone]
  · simp [hflight]

theorem OneWriter.front {s : Writing μ κ ε} (hs : OneWriter s) {m : μ} (hm : m ∈ s.inFlight) :
    ∃ cb rest, s.queued = (m, cb) :: rest := by
  obtain hnone | ⟨m', cb, rest, hqueued, hflight⟩ := hs
  · simp [hnone] at hm
  · obtain rfl : m = m' := by simpa [hflight] using hm
    exact ⟨cb, rest, hqueued⟩

/-- On an endpoint that starts with an open device and nothing to write. -/
theorem single_writer (type : μ → Nat) (rebooting : Bool) (events : List (Writing.Event μ κ ε))
    (s : Writing μ κ ε)
    (hrun : Transition.run (Writing.step type) { endpoint := some { rebooting } } events = some s) :
    SingleWriter type events s := by
  have hinv : OneWriter s ∧ KeepsFlowing events s := by
    rw [← List.nil_append events]
    refine Transition.invariant_run (I := fun past s => OneWriter s ∧ KeepsFlowing past s)
      (fun past s e t hs h => ⟨(step_moves hs.1 h).oneWriter hs.1, hs.2.step h⟩) ?_ hrun
    refine ⟨.inl rfl, fun _ ep hep => ?_⟩
    cases hep
    exact ⟨rfl, rfl, fun hne => absurd rfl hne⟩
  obtain ⟨hwriter, hflowing⟩ := hinv
  refine ⟨hwriter.length_le, fun m hm => hwriter.front hm, queued_writeMessages s,
    fun hflight => hwriter.inFlight_writeMessages hflight, fun hupgrade hqueued => ?_⟩
  have hflight : s.inFlight ≠ [] := by
    cases hep : s.endpoint with
    | none => simp [Writing.queued, hep] at hqueued
    | some ep => exact (hflowing hupgrade ep hep).busy (by simpa [Writing.queued, hep] using hqueued)
  have hlength := hwriter.length_le
  have hpos := List.length_pos_iff.mpr hflight
  omega

/-- Two calls, a failed write that empties the queue, and a third call. -/
def writesAfterError : List (Writing.Event Nat Unit Unit) :=
  [.write [0xA002] none, .write [0xA003, 0xA005] (some ()), .complete 0 (some ()),
    .write [0xA005] none]

theorem writesAfterError_single_writer :
    Transition.run (Writing.step id) { endpoint := some {} } writesAfterError = some {
        endpoint := some { msgQueue := [(0xA005, none)] }, inFlight := [0xA005],
        handed := [0xA002, 0xA005], completed := [(0xA002, some ())] } ∧
      SingleWriter id writesAfterError {
        endpoint := some { msgQueue := [(0xA005, none)] }, inFlight := [0xA005],
        handed := [0xA002, 0xA005], completed := [(0xA002, some ())] } :=
  ⟨by decide, single_writer id false writesAfterError _ (by decide)⟩

end ThymioDeviceManager.Correctness
