import ThymioDeviceManager.Correctness.MessageDecoding
import ThymioDeviceManager.Correctness.MessageRoundTrip
import ThymioDeviceManager.Manager.DeviceMessages

/-! # Which messages about a device come back from their bytes

`DeviceInfo` and `GetNodeDescriptionFragment` read what they write. `SetDeviceInfo` reads two
numbers as bytes that it has written as words, and `GetDeviceInfo` reads nothing, so these two
never come back.
-/

namespace ThymioDeviceManager.Correctness

open Manager Library Codec MessageCodec MessageRoundTrip
open Protocol (add get Serializing)

namespace DeviceMessages

/-- The bytes of the message turn every object of its class into the message, and all of them
are read. -/
def Restored (m : DeviceMessage) : Prop :=
  ∀ object : DeviceMessage, object.SameClass m →
    RoundTrips m.serializeSpecific object.deserializeSpecific m

/-- The classes that read what they write; a `DeviceInfo` has one byte for its information type. -/
def Symmetric : DeviceMessage → Prop
  | .setDeviceInfo _ | .getDeviceInfo _ => False
  | .deviceInfo m => m.info.toNat < 256
  | .getNodeDescriptionFragment _ => True

/-! ## Readers -/

section Readers

variable {α β : Type} {x : Serializing PUnit} {y : Serializing α} {g : α → β} {a : α} {b : β}
  {bytes bytes' : List UInt8}

/-- A run that has written has only one choice of bytes. -/
theorem writes_unique (h : Writes x bytes) (h' : Writes x bytes') : bytes = bytes' := by
  have heq := (h {}).symm.trans (h' {})
  simpa using heq

/-- What a reader of the written bytes returns is what comes back. -/
theorem roundTrips_iff (hwrites : Writes x bytes)
    (hreads : y { rawData := bytes } = .ok (a, { rawData := bytes, readPos := bytes.length })) (b : α) :
    RoundTrips x y b ↔ a = b := by
  constructor
  · rintro ⟨bytes', hwrites', hreads'⟩
    rw [← writes_unique hwrites hwrites', hreads] at hreads'
    simpa using hreads'
  · rintro rfl
    exact ⟨bytes, hwrites, hreads⟩

/-- A reader whose values stand for other bytes than those written brings nothing back. -/
theorem not_roundTrips {I : α → List UInt8 → Prop} (hwrites : Writes x bytes)
    (hy : Inverts False y I) (hI : ¬ I a bytes) : ¬ RoundTrips x y a := by
  rintro ⟨bytes', hwrites', hreads⟩
  rw [← writes_unique hwrites hwrites'] at hreads
  exact hI (hy.whole hreads rfl)

end Readers

/-! ## The classes -/

theorem setDeviceInfo_writes (m : SetDeviceInfo) :
    Writes m.serializeSpecific (Wire.toBytes m.dest ++ (Wire.toBytes m.info.toUInt16 ++
      (Wire.toBytes (UInt16.ofNat m.data.length) ++ m.data.flatMap Wire.toBytes))) :=
  (writes_add _).seq ((writes_add _).seq ((writes_add _).seq (writes_addAll _)))

/-- Two bytes, and one each for the type and the size. -/
theorem setDeviceInfo_inverts : Inverts False SetDeviceInfo.deserializeSpecific
    fun m bytes => bytes.length = 4 + m.data.length := by
  refine (MessageDecoding.cmdMessage_inverts.bind fun _ =>
    inverts_get.bind fun _ => inverts_get.bind fun _ =>
    (inverts_getAll _).bindPure).mono ?_
  rintro m bytes ⟨cmd, _, _, rfl, rfl, info, _, _, rfl, rfl, size, _, _, rfl, rfl, data, rfl, rfl⟩
  have hdata := length_flatMap_toBytes data.val
  have hsize : Wire.size UInt8 = 1 := rfl
  simp only [List.length_append, Wire.length_toBytes, hdata, hsize]
  change 2 + (1 + (1 + 1 * data.val.length)) = _
  omega

/-- The size is written in two bytes more than it is read from. -/
theorem not_restored_setDeviceInfo (m : SetDeviceInfo) : ¬ Restored (.setDeviceInfo m) := by
  intro h
  have hinverts : Inverts False (DeviceMessage.setDeviceInfo m).deserializeSpecific
      fun m' bytes => bytes.length = 4 + m'.size := by
    refine setDeviceInfo_inverts.bindPure.mono ?_
    rintro _ bytes ⟨m', rfl, hlength⟩
    exact hlength
  apply not_roundTrips (setDeviceInfo_writes m) hinverts ?_ (h (.setDeviceInfo m) trivial)
  have hdata := length_flatMap_toBytes m.data
  have hsize : Wire.size UInt8 = 1 := rfl
  simp only [List.length_append, Wire.length_toBytes, hdata, hsize]
  change ¬ 2 + (2 + (2 + 1 * m.data.length)) = 4 + m.data.length
  omega

theorem not_restored_getDeviceInfo (m : GetDeviceInfo) : ¬ Restored (.getDeviceInfo m) := by
  intro h
  have hwrites : Writes m.serializeSpecific (Wire.toBytes m.dest ++ Wire.toBytes m.info) :=
    (writes_add _).seq (writes_add _)
  have hinverts : Inverts False (DeviceMessage.getDeviceInfo m).deserializeSpecific
      fun _ bytes => bytes = [] := by
    refine (Inverts.ret m).bindPure.mono ?_
    rintro _ bytes ⟨_, rfl, rfl, hbytes⟩
    exact hbytes
  exact not_roundTrips hwrites hinverts (by simp [Wire.toBytes, Protocol.bytesOfWord])
    (h (.getDeviceInfo m) trivial)

theorem restored_deviceInfo_iff (m : Protocol.DeviceInfo) (hcount : m.data.length ≤ 255) :
    Restored (.deviceInfo m) ↔ m.info.toNat < 256 := by
  have hwrites : Writes m.serializeSpecific (Wire.toBytes m.info.toUInt8 ++
      (Wire.toBytes (UInt8.ofNat m.data.length) ++ m.data.flatMap Wire.toBytes)) :=
    (writes_add _).seq ((writes_add _).seq (writes_addAll _))
  have hreads : Reads Protocol.DeviceInfo.deserializeSpecific (Wire.toBytes m.info.toUInt8 ++
      (Wire.toBytes (UInt8.ofNat m.data.length) ++ m.data.flatMap Wire.toBytes)) []
      { m with info := m.info.toUInt8.toUInt32 } :=
    (reads_get _).bind ((reads_get _).bind
      (reads_getAll ⟨m.data, (toNat_ofNat_byte hcount).symm⟩).bindPure)
  have hback := roundTrips_iff hwrites (hreads.bindPure (g := DeviceMessage.deviceInfo)).whole
  constructor
  · intro h
    have hinfo := (hback _).mp (h (.deviceInfo m) trivial)
    have hbyte : m.info.toUInt8.toUInt32 = m.info := by
      injection hinfo with hinfo
      exact congrArg Protocol.DeviceInfo.info hinfo
    rw [← hbyte, UInt8.toNat_toUInt32]
    exact m.info.toUInt8.toNat_lt
  · intro hinfo object hclass
    cases object with
    | deviceInfo object =>
      apply (hback _).mpr
      rw [toUInt32_toUInt8 hinfo]
    | _ => exact hclass.elim

theorem restored_getNodeDescriptionFragment (m : GetNodeDescriptionFragment) :
    Restored (.getNodeDescriptionFragment m) := by
  intro object hclass
  have hwrites : Writes m.serializeSpecific
      (Wire.toBytes m.dest ++ (Wire.toBytes m.version ++ Wire.toBytes m.fragment)) :=
    (writes_add _).seq ((writes_add _).seq (writes_add _))
  have hreads : Reads GetNodeDescriptionFragment.deserializeSpecific
      (Wire.toBytes m.dest ++ (Wire.toBytes m.version ++ Wire.toBytes m.fragment)) [] m :=
    (cmdMessage_reads _ _).bind ((reads_get _).bind (reads_get _).bindPure)
  cases object with
  | getNodeDescriptionFragment object => exact roundTrips_of_reads hwrites hreads.bindPure
  | _ => exact hclass.elim

end DeviceMessages

open DeviceMessages

/-- Of the messages about a device, exactly those of the symmetric classes come back. -/
theorem device_message_restored_iff (m : DeviceMessage) (hsize : m.size ≤ 255) :
    Restored m ↔ Symmetric m := by
  cases m with
  | setDeviceInfo m => exact iff_of_false (not_restored_setDeviceInfo m) id
  | getDeviceInfo m => exact iff_of_false (not_restored_getDeviceInfo m) id
  | deviceInfo m => exact restored_deviceInfo_iff m hsize
  | getNodeDescriptionFragment m => exact iff_of_true (restored_getNodeDescriptionFragment m) trivial

/-- A device tells its name. -/
theorem tellName_restored :
    Restored (.deviceInfo { info := 2, data := [65, 66] }) ↔
      Symmetric (.deviceInfo { info := 2, data := [65, 66] }) :=
  device_message_restored_iff (.deviceInfo { info := 2, data := [65, 66] }) (by decide)

/-- A device is given a name. -/
def setName : DeviceMessage := .setDeviceInfo { dest := 1, info := 2, data := [65, 66] }

theorem setName_not_restored : ¬ ∀ m : DeviceMessage, m.size ≤ 255 → Restored m :=
  fun h => not_restored_setDeviceInfo _ (h setName (by decide))

end ThymioDeviceManager.Correctness
