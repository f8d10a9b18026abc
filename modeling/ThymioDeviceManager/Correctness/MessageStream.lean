import ThymioDeviceManager.Protocol.MessageStream
import ThymioDeviceManager.Correctness.MessageCodec

/-! # Framing

The size of a frame is copied to the front of the buffer with the width of an `int`, so
it covers the source that stands behind it. What is read back is the list of messages
with all sources zero.
-/

namespace ThymioDeviceManager.Correctness

open Protocol Library Codec MessageCodec

namespace MessageStream

/-! ## Frames -/

theorem toUInt32_size {n : Nat} (h : n ≤ 65529) :
    ((UInt16.ofNat (6 + n)).toUInt32.toInt32 - 6).toUInt32 = UInt32.ofNat n := by
  have hsix : (6 : Int32).toUInt32 = 6 := rfl
  have htotal : (UInt16.ofNat (6 + n)).toUInt32.toNat = 6 + n := by
    rw [UInt16.toNat_toUInt32, UInt16.toNat_ofNat']
    exact Nat.mod_eq_of_lt (by omega)
  have hle : (6 : UInt32) ≤ (UInt16.ofNat (6 + n)).toUInt32 := by
    rw [UInt32.le_iff_toNat_le, htotal]
    exact Nat.le_add_right 6 n
  rw [Int32.toUInt32_sub, hsix]
  change (UInt16.ofNat (6 + n)).toUInt32 - 6 = _
  apply UInt32.toNat_inj.mp
  rw [UInt32.toNat_sub_of_le _ _ hle, htotal, UInt32.toNat_ofNat']
  change 6 + n - 6 = n % 2 ^ 32
  omega

theorem intBytes_size {n : Nat} (h : n ≤ 65529) :
    intBytes ((UInt16.ofNat (6 + n)).toUInt32.toInt32 - 6) =
      Wire.toBytes (UInt16.ofNat n) ++ Wire.toBytes (0 : UInt16) := by
  unfold intBytes
  simp only [toUInt32_size h]
  change [(UInt32.ofNat n).toUInt8, (UInt32.ofNat n >>> 8).toUInt8, (UInt32.ofNat n >>> 16).toUInt8,
    (UInt32.ofNat n >>> 24).toUInt8] = [(UInt16.ofNat n).toUInt8, (UInt16.ofNat n >>> 8).toUInt8, 0, 0]
  congr 1
  · apply UInt8.toNat_inj.mp
    simp
  congr 1
  · apply UInt8.toNat_inj.mp
    simp [Nat.shiftRight_eq_div_pow]
    omega
  congr 1
  · apply UInt8.toNat_inj.mp
    simp [Nat.shiftRight_eq_div_pow]
    omega
  congr 1
  · apply UInt8.toNat_inj.mp
    simp [Nat.shiftRight_eq_div_pow]
    omega

/-- The source is lost under the two high bytes of the size. -/
theorem writeState_eq {x : Serializing PUnit} {payload : List UInt8} (hx : Writes x payload)
    (h : payload.length ≤ 65529) (source type : UInt16) :
    writeState source type x = .ok (Wire.toBytes (UInt16.ofNat payload.length) ++
      (Wire.toBytes (0 : UInt16) ++ (Wire.toBytes type ++ payload))) := by
  have hwrites := (writes_add (0 : UInt16)).seq ((writes_add source).seq ((writes_add type).seq hx))
  have hlength : (Wire.toBytes (0 : UInt16) ++ (Wire.toBytes source ++
      (Wire.toBytes type ++ payload))).length = 6 + payload.length := by
    simp only [List.length_append, Wire.length_toBytes]
    change 2 + (2 + (2 + payload.length)) = _
    omega
  rw [writeState, hwrites {}, Outcome.ok_bind]
  have hdrop : (Wire.toBytes (0 : UInt16) ++ (Wire.toBytes source ++
      (Wire.toBytes type ++ payload))).drop 4 = Wire.toBytes type ++ payload := rfl
  simp only [List.nil_append, hlength, intBytes_size h, hdrop, List.append_assoc]
  rfl

/-! ## Operations -/

/-- What comes back of a message. -/
def received (p : Packet) : Packet := { p with source := 0 }

def frameBytes (p : Packet) : List UInt8 :=
  Wire.toBytes (UInt16.ofNat p.payload.length) ++
    (Wire.toBytes (0 : UInt16) ++ (Wire.toBytes p.type ++ p.payload))

theorem frame_eq {p : Packet} (h : p.payload.length ≤ 65529) : p.frame = .ok (frameBytes p) :=
  writeState_eq (fun _ => rfl) h p.source p.type

/-- The first read of an operation fills in the header. -/
theorem run_header {fuel : Nat} {header stream : List UInt8} (h : header.length = 6) :
    ReadState.run (fuel + 1) {} .header (header ++ stream) =
      ReadState.run fuel (ReadState.parseHeader { headerBuffer := header })
        (if wordOfBytes (header.take 2) = 0 then
          (ReadState.parseHeader { headerBuffer := header }).finish false 0
        else .data (wordOfBytes (header.take 2)).toNat) stream := by
  have hlong : ¬ (header ++ stream).length < 6 := by
    rw [List.length_append]
    omega
  have hsize : (ReadState.parseHeader { headerBuffer := header }).size =
      wordOfBytes (header.take 2) := rfl
  simp only [ReadState.run, hlong, List.take_left' h, List.drop_left' h, h, ReadState.onRead,
    decide_false, Bool.not_false, Bool.true_and, hsize]
  by_cases hempty : wordOfBytes (header.take 2) = 0
  · simp [hempty]
  · simp [hempty]

@[simp] theorem run_done (fuel : Nat) (s : ReadState) (packet : Option Packet)
    (stream : List UInt8) : ReadState.run fuel s (.done packet) stream = (packet, stream) := by
  cases fuel <;> rfl

/-- The size tells the data phase. -/
theorem onRead_data {s : ReadState} (hsize : s.size ≠ 0) :
    s.onRead false s.size.toNat =
      (s, .done (some { source := s.source, type := s.type, payload := s.dataBuffer })) := by
  have hnat : s.size.toNat ≠ 0 := fun h => hsize (UInt16.toNat_inj.mp h)
  simp [ReadState.onRead, ReadState.finish, hsize, hnat]

/-- The second read of an operation fills in the data. -/
theorem run_data {fuel : Nat} {s : ReadState} {payload stream : List UInt8}
    (hlength : payload.length = s.size.toNat) (hsize : s.size ≠ 0) :
    ReadState.run (fuel + 1) s (.data s.size.toNat) (payload ++ stream) =
      (some { source := s.source, type := s.type, payload }, stream) := by
  have hlong : ¬ (payload ++ stream).length < s.size.toNat := by
    rw [List.length_append]
    omega
  have hread : ({ s with dataBuffer := payload } : ReadState).onRead false s.size.toNat =
      ({ s with dataBuffer := payload },
        .done (some { source := s.source, type := s.type, payload })) := onRead_data hsize
  simp only [ReadState.run, hlong, List.take_left' hlength, List.drop_left' hlength, hlength,
    decide_false, hread, run_done]

/-- The first six bytes of a frame. -/
def headerBytes (p : Packet) : List UInt8 :=
  Wire.toBytes (UInt16.ofNat p.payload.length) ++ (Wire.toBytes (0 : UInt16) ++ Wire.toBytes p.type)

theorem parseHeader_headerBytes {p : Packet} (h : p.payload.length ≤ 65529) :
    ReadState.parseHeader { headerBuffer := headerBytes p } =
      { size := UInt16.ofNat p.payload.length, source := 0, type := p.type,
        headerBuffer := headerBytes p, dataBuffer := List.replicate p.payload.length 0 } := by
  have hsize : wordOfBytes ((headerBytes p).take 2) = UInt16.ofNat p.payload.length :=
    wordOfBytes_bytesOfWord _
  have hsource : wordOfBytes (((headerBytes p).drop 2).take 2) = 0 := wordOfBytes_bytesOfWord _
  have htype : wordOfBytes (((headerBytes p).drop 4).take 2) = p.type :=
    wordOfBytes_bytesOfWord _
  have hlength : (UInt16.ofNat p.payload.length).toNat = p.payload.length := by
    rw [UInt16.toNat_ofNat']
    exact Nat.mod_eq_of_lt (by omega)
  simp only [ReadState.parseHeader, hsize, hsource, htype, hlength]

/-- An operation takes one frame from the stream. -/
theorem readAsebaMessage_frameBytes {p : Packet} (h : p.payload.length ≤ 65529)
    (rest : List UInt8) :
    readAsebaMessage (frameBytes p ++ rest) = (some (received p), rest) := by
  have hlength : (UInt16.ofNat p.payload.length).toNat = p.payload.length := by
    rw [UInt16.toNat_ofNat']
    exact Nat.mod_eq_of_lt (by omega)
  have hsplit : frameBytes p ++ rest = headerBytes p ++ (p.payload ++ rest) := by
    simp only [frameBytes, headerBytes, List.append_assoc]
  have hsize : wordOfBytes ((headerBytes p).take 2) = UInt16.ofNat p.payload.length :=
    wordOfBytes_bytesOfWord _
  have hheader : (headerBytes p).length = 6 := rfl
  rw [readAsebaMessage, hsplit, run_header hheader, hsize, parseHeader_headerBytes h]
  by_cases hempty : p.payload = []
  · simp [hempty, received, ReadState.finish]
  · have hnonzero : UInt16.ofNat p.payload.length ≠ 0 := by
      intro hzero
      rw [hzero] at hlength
      exact hempty (List.length_eq_zero_iff.mp hlength.symm)
    rw [if_neg hnonzero]
    exact run_data hlength.symm hnonzero

theorem frames_eq {packets : List Packet} (h : ∀ p ∈ packets, p.payload.length ≤ 65529) :
    frames packets = .ok (packets.flatMap frameBytes) := by
  induction packets with
  | nil => rfl
  | cons p packets ih =>
    rw [frames, frame_eq (h p List.mem_cons_self),
      ih fun p' hp' => h p' (List.mem_cons_of_mem _ hp')]
    rfl

theorem length_frameBytes (p : Packet) : (frameBytes p).length = 6 + p.payload.length := by
  simp only [frameBytes, List.length_append, Wire.length_toBytes]
  change 2 + (2 + (2 + p.payload.length)) = _
  omega

theorem readAll_frameBytes {packets : List Packet}
    (h : ∀ p ∈ packets, p.payload.length ≤ 65529) {fuel : Nat}
    (hfuel : (packets.flatMap frameBytes).length ≤ fuel) :
    readAll fuel (packets.flatMap frameBytes) = packets.map received := by
  induction packets generalizing fuel with
  | nil =>
    cases fuel with
    | zero => rfl
    | succ fuel => rfl
  | cons p packets ih =>
    rw [List.flatMap_cons, List.length_append, length_frameBytes] at hfuel
    obtain ⟨fuel, rfl⟩ : ∃ n, fuel = n + 1 := ⟨fuel - 1, by omega⟩
    rw [List.flatMap_cons, readAll, readAsebaMessage_frameBytes (h p List.mem_cons_self)]
    simp only [List.map_cons]
    rw [ih (fun p' hp' => h p' (List.mem_cons_of_mem _ hp')) (by omega)]

/-- Messages come back as they were sent exactly when their sources are zero. -/
theorem framing_round_trip_iff {packets : List Packet}
    (h : ∀ p ∈ packets, p.payload.length ≤ 65529) :
    ∃ stream, frames packets = .ok stream ∧
      (readAll stream.length stream = packets ↔ ∀ p ∈ packets, p.source = 0) := by
  refine ⟨_, frames_eq h, ?_⟩
  rw [readAll_frameBytes h (Nat.le_refl _)]
  have hmap : packets.map received = packets ↔ ∀ p ∈ packets, received p = p := by
    have hid := List.map_inj_left (l := packets) (f := received) (g := id)
    rwa [List.map_id] at hid
  rw [hmap]
  refine forall_congr' fun p => imp_congr_right fun _ => ?_
  constructor
  · intro heq
    exact (congrArg Packet.source heq).symm
  · intro hzero
    obtain ⟨source, type, payload⟩ := p
    cases hzero
    rfl

/-- An event without data between two with data. -/
def threePackets : List Packet :=
  [{ source := 0, type := 3, payload := [1, 2] }, { source := 0, type := 5, payload := [] },
    { source := 0, type := 4, payload := [3] }]

theorem threePackets_come_back :
    ∃ stream, frames threePackets = .ok stream ∧
      (readAll stream.length stream = threePackets ↔ ∀ p ∈ threePackets, p.source = 0) :=
  framing_round_trip_iff (by decide)

/-- The source of a message is lost. -/
theorem sourceOne_lost :
    ∃ stream, frames [{ source := 1, type := 0x9001, payload := [7] }] = .ok stream ∧
      readAll stream.length stream ≠ [{ source := 1, type := 0x9001, payload := [7] }] :=
  ⟨[1, 0, 0, 0, 1, 0x90, 7], by decide, by decide⟩

end MessageStream

end ThymioDeviceManager.Correctness
