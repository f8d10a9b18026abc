import ThymioDeviceManager.Correctness.MessageCodec

/-! # Decoding undoes encoding

For each class, the bytes that its encoder writes and the run of its decoder on them.
The counts of two lists are written without a check that they fit, so these lists have
to be short enough for the message to come back.
-/

namespace ThymioDeviceManager.Correctness

open Protocol Library Codec Text MessageCodec

namespace MessageRoundTrip

/-! ## What fits the wire -/

/-- The codes are convertible and there is a length byte for their encoding. -/
def StringFits (s : WString) : Prop := Convertible s ∧ (wStringToUTF8 s).length ≤ 255

/-- The strings and numbers of a message fit their places, and so do the lists of a
description. -/
def Fits : (c : MessageClass) → c.Content → Prop
  | .description, m => StringFits m.name ∧
      (m.protocolVersion.toNat < 65536 ∧ m.bytecodeSize.toNat < 65536 ∧
        m.stackSize.toNat < 65536 ∧ m.variablesSize.toNat < 65536) ∧
      m.namedVariables.length ≤ 65535 ∧ m.localEvents.length ≤ 65535 ∧
        m.nativeFunctions.length ≤ 65535
  | .deviceInfo, m => m.info.toNat < 256
  | .namedVariableDescription, m => StringFits m.name ∧ m.size.toNat < 65536
  | .localEventDescription, m => StringFits m.name ∧ StringFits m.description
  | .nativeFunctionDescription, m => StringFits m.name ∧ StringFits m.description ∧
      ∀ p ∈ m.parameters, StringFits p.name ∧ -32768 ≤ p.size.toInt ∧ p.size.toInt ≤ 32767
  | .nodeSpecificError, m => StringFits m.message
  | _, _ => True

/-- There is a count for the bytes of a device information and for the parameters of a
native function. -/
def CountsFit : (c : MessageClass) → c.Content → Prop
  | .deviceInfo, m => m.data.length ≤ 255
  | .nativeFunctionDescription, m => m.parameters.length ≤ 65535
  | _, _ => True

/-- The messages are equal, except that a description gets lists of the same lengths and
that only a failed programming has an address. -/
def Agrees : (c : MessageClass) → c.Content → c.Content → Prop
  | .description, m, m' => m.name = m'.name ∧ m.protocolVersion = m'.protocolVersion ∧
      m.bytecodeSize = m'.bytecodeSize ∧ m.stackSize = m'.stackSize ∧
      m.variablesSize = m'.variablesSize ∧ m.namedVariables.length = m'.namedVariables.length ∧
      m.localEvents.length = m'.localEvents.length ∧
      m.nativeFunctions.length = m'.nativeFunctions.length
  | .bootloaderAck, m, m' => m.errorCode = m'.errorCode ∧
      (m.errorCode = BootloaderAck.programmingFailed → m.errorAddress = m'.errorAddress)
  | _, m, m' => m = m'

/-! ## The classes -/

/-- The decoder reads `b` from the whole of what the encoder writes. -/
def RoundTrips {β : Type} (x : Serializing PUnit) (y : Serializing β) (b : β) : Prop :=
  ∃ bytes, Writes x bytes ∧
    y { rawData := bytes } = .ok (b, { rawData := bytes, readPos := bytes.length })

theorem roundTrips_of_reads {β : Type} {x : Serializing PUnit} {y : Serializing β} {b : β}
    {bytes : List UInt8} (hx : Writes x bytes) (hy : Reads y bytes [] b) : RoundTrips x y b :=
  ⟨bytes, hx, hy.whole⟩

theorem userMessage_roundTrips (m : UserMessage) :
    RoundTrips m.serializeSpecific UserMessage.deserializeSpecific m := by
  refine ⟨_, writes_addAll m.data, ?_⟩
  have hlength : (m.data.flatMap Wire.toBytes).length = 2 * m.data.length :=
    length_flatMap_toBytes m.data
  have hhalf : m.data.length = (m.data.flatMap Wire.toBytes).length / 2 := by omega
  have hdata : Reads (repeated (get Int16) _) (m.data.flatMap Wire.toBytes) [] ⟨m.data, hhalf⟩ :=
    reads_getAll ⟨m.data, hhalf⟩
  have hread := hdata.bindPure (g := fun data => UserMessage.mk data.val)
  rw [UserMessage.deserializeSpecific, if_neg (by rw [hlength]; omega)]
  exact hread.whole

theorem cmdMessage_reads (m : CmdMessage) (after : List UInt8) :
    Reads CmdMessage.deserializeSpecific (Wire.toBytes m.dest) after m :=
  (reads_get m.dest).bindPure

theorem cmdMessage_roundTrips (m : CmdMessage) :
    RoundTrips m.serializeSpecific CmdMessage.deserializeSpecific m :=
  roundTrips_of_reads (writes_add m.dest) (cmdMessage_reads m [])

theorem bootloaderDescription_roundTrips (m : BootloaderDescription) :
    RoundTrips m.serializeSpecific BootloaderDescription.deserializeSpecific m :=
  roundTrips_of_reads ((writes_add _).seq ((writes_add _).seq (writes_add _)))
    ((reads_get _).bind ((reads_get _).bind (reads_get _).bindPure))

theorem bootloaderDataRead_roundTrips (m : BootloaderDataRead) :
    RoundTrips m.serializeSpecific BootloaderDataRead.deserializeSpecific m :=
  roundTrips_of_reads (writes_addAll _) (reads_getAll m.data).bindPure

theorem bootloaderAck_roundTrips (m : BootloaderAck) : ∃ m',
    RoundTrips m.serializeSpecific BootloaderAck.deserializeSpecific m' ∧
      Agrees .bootloaderAck m m' := by
  by_cases hfailed : m.errorCode = BootloaderAck.programmingFailed
  · refine ⟨m, ⟨Wire.toBytes m.errorCode ++ Wire.toBytes m.errorAddress, ?_, Reads.whole ?_⟩, rfl,
      fun _ => rfl⟩
    · refine (writes_add _).seq ?_
      rw [if_pos hfailed]
      exact writes_add _
    · refine (reads_get _).bind ?_
      rw [if_pos hfailed]
      exact (reads_get _).bindPure
  · refine ⟨{ errorCode := m.errorCode }, ⟨Wire.toBytes m.errorCode ++ [], ?_, Reads.whole ?_⟩, rfl,
      fun h => absurd h hfailed⟩
    · refine (writes_add _).seq ?_
      rw [if_neg hfailed]
      exact Writes.nil
    · refine (reads_get _).bind ?_
      rw [if_neg hfailed]
      exact Reads.ret _

theorem versionMessage_roundTrips (m : VersionMessage) :
    RoundTrips m.serializeSpecific VersionMessage.deserializeSpecific m :=
  roundTrips_of_reads (writes_add _) (reads_get _).bindPure

theorem getNodeDescription_roundTrips (m : GetNodeDescription) :
    RoundTrips m.serializeSpecific GetNodeDescription.deserializeSpecific m :=
  roundTrips_of_reads ((writes_add _).seq (writes_add _))
    ((cmdMessage_reads _ _).bind (reads_get _).bindPure)

/-! ## Numbers that fit -/

theorem toUInt32_toUInt16 {v : UInt32} (h : v.toNat < 65536) : v.toUInt16.toUInt32 = v := by
  apply UInt32.toNat_inj.mp
  rw [UInt16.toNat_toUInt32, UInt32.toNat_toUInt16]
  exact Nat.mod_eq_of_lt h

theorem toUInt32_toUInt8 {v : UInt32} (h : v.toNat < 256) : v.toUInt8.toUInt32 = v := by
  apply UInt32.toNat_inj.mp
  rw [UInt8.toNat_toUInt32, UInt32.toNat_toUInt8]
  exact Nat.mod_eq_of_lt h

theorem toInt32_toInt16 {v : Int32} (h : -32768 ≤ v.toInt) (h' : v.toInt ≤ 32767) :
    v.toInt16.toInt32 = v := by
  apply Int32.toInt_inj.mp
  rw [Int16.toInt_toInt32, Int32.toInt_toInt16]
  exact Int.bmod_eq_of_le (by omega) (by omega)

theorem toNat_ofNat_word {n : Nat} (h : n ≤ 65535) : (UInt16.ofNat n).toNat = n := by
  rw [UInt16.toNat_ofNat']
  exact Nat.mod_eq_of_lt (by omega)

theorem toNat_ofNat_byte {n : Nat} (h : n ≤ 255) : (UInt8.ofNat n).toNat = n := by
  rw [UInt8.toNat_ofNat']
  exact Nat.mod_eq_of_lt (by omega)

/-! ## Texts and lists -/

theorem description_roundTrips (m : Description) (h : Fits .description m) : ∃ m',
    RoundTrips m.serializeSpecific Description.deserializeSpecific m' ∧
      Agrees .description m m' := by
  obtain ⟨⟨hconvertible, hlength⟩, ⟨hversion, hbytecode, hstack, hvariables⟩, hnamed, hlocal,
    hnative⟩ := h
  refine ⟨_, roundTrips_of_reads
    ((writes_addString hlength).seq ((writes_add _).seq ((writes_add _).seq ((writes_add _).seq
      ((writes_add _).seq ((writes_add _).seq ((writes_add _).seq (writes_add _))))))))
    ((reads_getWString hconvertible hlength).bind ((reads_get _).bind ((reads_get _).bind
      ((reads_get _).bind ((reads_get _).bind ((reads_get _).bind ((reads_get _).bind
        (reads_get _).bindPure))))))),
    rfl, ?_, ?_, ?_, ?_, ?_, ?_, ?_⟩
  · exact (toUInt32_toUInt16 hversion).symm
  · exact (toUInt32_toUInt16 hbytecode).symm
  · exact (toUInt32_toUInt16 hstack).symm
  · exact (toUInt32_toUInt16 hvariables).symm
  · simp only [List.length_replicate, toNat_ofNat_word hnamed]
  · simp only [List.length_replicate, toNat_ofNat_word hlocal]
  · simp only [List.length_replicate, toNat_ofNat_word hnative]

theorem deviceInfo_roundTrips (m : DeviceInfo) (h : Fits .deviceInfo m)
    (hcount : CountsFit .deviceInfo m) :
    RoundTrips m.serializeSpecific DeviceInfo.deserializeSpecific m := by
  have hsize := toNat_ofNat_byte hcount
  have hread : Reads DeviceInfo.deserializeSpecific
      (Wire.toBytes m.info.toUInt8 ++ (Wire.toBytes (UInt8.ofNat m.data.length) ++
        m.data.flatMap Wire.toBytes)) [] { info := m.info.toUInt8.toUInt32, data := m.data } := by
    refine (reads_get _).bind ((reads_get _).bind ?_)
    exact (reads_getAll ⟨m.data, hsize.symm⟩).bindPure
  rw [toUInt32_toUInt8 h] at hread
  exact roundTrips_of_reads ((writes_add _).seq ((writes_add _).seq (writes_addAll _))) hread

theorem namedVariable_roundTrips (m : NamedVariable) (h : Fits .namedVariableDescription m) :
    RoundTrips m.serializeSpecific NamedVariable.deserializeSpecific m := by
  obtain ⟨⟨hconvertible, hlength⟩, hsize⟩ := h
  have hname : Reads getWString (stringBytes (wStringToUTF8 m.name)) [] m.name :=
    reads_getWString hconvertible hlength
  have hread := (reads_get m.size.toUInt16).bind (f := fun size => do
    let name ← getWString
    pure (NamedVariable.mk name size.toUInt32)) hname.bindPure
  rw [toUInt32_toUInt16 hsize] at hread
  exact roundTrips_of_reads ((writes_add m.size.toUInt16.toInt16).seq (writes_addString hlength))
    hread

theorem localEvent_roundTrips (m : LocalEvent) (h : Fits .localEventDescription m) :
    RoundTrips m.serializeSpecific LocalEvent.deserializeSpecific m := by
  obtain ⟨⟨hname, hnameLength⟩, hdescription, hdescriptionLength⟩ := h
  exact roundTrips_of_reads ((writes_addString hnameLength).seq (writes_addString hdescriptionLength))
    ((reads_getWString hname hnameLength).bind
      (reads_getWString hdescription hdescriptionLength).bindPure)

/-- The bytes of a parameter. -/
def parameterBytes (p : NativeFunctionParameter) : List UInt8 :=
  Wire.toBytes p.size.toInt16 ++ stringBytes (wStringToUTF8 p.name)

theorem parameter_reads {p : NativeFunctionParameter} (hname : StringFits p.name)
    (hlow : -32768 ≤ p.size.toInt) (hhigh : p.size.toInt ≤ 32767) (after : List UInt8) :
    Reads NativeFunctionParameter.deserializeSpecific (parameterBytes p) after p := by
  have hread : Reads NativeFunctionParameter.deserializeSpecific (parameterBytes p) after
      { name := p.name, size := p.size.toInt16.toInt32 } :=
    (reads_get _).bind (reads_getWString hname.1 hname.2).bindPure
  rwa [toInt32_toInt16 hlow hhigh] at hread

theorem nativeFunction_roundTrips (m : NativeFunction) (h : Fits .nativeFunctionDescription m)
    (hcount : CountsFit .nativeFunctionDescription m) :
    RoundTrips m.serializeSpecific NativeFunction.deserializeSpecific m := by
  obtain ⟨hname, hdescription, hparameters⟩ := h
  have hsize := toNat_ofNat_word hcount
  have hloop : Reads (repeated NativeFunctionParameter.deserializeSpecific
      (UInt16.ofNat m.parameters.length).toNat) (m.parameters.flatMap parameterBytes) []
        ⟨m.parameters, hsize.symm⟩ := by
    refine Reads.repeated ⟨m.parameters, hsize.symm⟩ fun p hp after => ?_
    obtain ⟨hname, hlow, hhigh⟩ := hparameters p hp
    exact parameter_reads hname hlow hhigh after
  refine roundTrips_of_reads ((writes_addString hname.2).seq ((writes_addString hdescription.2).seq
    ((writes_add _).seq (Writes.forM (g := parameterBytes) ?_)))) ?_
  · intro p hp
    exact (writes_add _).seq (writes_addString (hparameters p hp).1.2)
  · exact (reads_getWString hname.1 hname.2).bind ((reads_getWString hdescription.1
      hdescription.2).bind ((reads_get _).bind hloop.bindPure))

/-! ## Lists up to the end -/

theorem variables_roundTrips (m : Variables) :
    RoundTrips m.serializeSpecific Variables.deserializeSpecific m := by
  have hlength : (m.values.flatMap Wire.toBytes).length = 2 * m.values.length :=
    length_flatMap_toBytes m.values
  have hread : Reads Variables.deserializeSpecific
      (Wire.toBytes m.start ++ ([] ++ m.values.flatMap Wire.toBytes)) [] m := by
    refine (reads_get _).bind (reads_wordsLeft.bind ?_)
    exact (reads_getAll ⟨m.values, by simp [hlength]⟩).bindPure
  exact roundTrips_of_reads ((writes_add _).seq (writes_addAll _)) hread

theorem setVariables_roundTrips (m : SetVariables) :
    RoundTrips m.serializeSpecific SetVariables.deserializeSpecific m := by
  have hlength : (m.values.flatMap Wire.toBytes).length = 2 * m.values.length :=
    length_flatMap_toBytes m.values
  have hread : Reads SetVariables.deserializeSpecific (Wire.toBytes m.dest ++
      (Wire.toBytes m.start ++ ([] ++ m.values.flatMap Wire.toBytes))) [] m := by
    refine (cmdMessage_reads _ _).bind ((reads_get _).bind (reads_wordsLeft.bind ?_))
    exact (reads_getAll ⟨m.values, by simp [hlength]⟩).bindPure
  exact roundTrips_of_reads ((writes_add _).seq ((writes_add _).seq (writes_addAll _))) hread

theorem setBytecode_roundTrips (m : SetBytecode) :
    RoundTrips m.serializeSpecific SetBytecode.deserializeSpecific m := by
  have hlength : (m.bytecode.flatMap Wire.toBytes).length = 2 * m.bytecode.length :=
    length_flatMap_toBytes m.bytecode
  have hread : Reads SetBytecode.deserializeSpecific (Wire.toBytes m.dest ++
      (Wire.toBytes m.start ++ ([] ++ m.bytecode.flatMap Wire.toBytes))) [] m := by
    refine (cmdMessage_reads _ _).bind ((reads_get _).bind (reads_wordsLeft.bind ?_))
    exact (reads_getAll ⟨m.bytecode, by simp [hlength]⟩).bindPure
  exact roundTrips_of_reads ((writes_add _).seq ((writes_add _).seq (writes_addAll _))) hread

/-! ## Messages of numbers -/

theorem arrayAccessOutOfBounds_roundTrips (m : ArrayAccessOutOfBounds) :
    RoundTrips m.serializeSpecific ArrayAccessOutOfBounds.deserializeSpecific m :=
  roundTrips_of_reads ((writes_add _).seq ((writes_add _).seq (writes_add _)))
    ((reads_get _).bind ((reads_get _).bind (reads_get _).bindPure))

theorem pcMessage_roundTrips (m : PcMessage) :
    RoundTrips m.serializeSpecific PcMessage.deserializeSpecific m :=
  roundTrips_of_reads (writes_add _) (reads_get _).bindPure

theorem nodeSpecificError_roundTrips (m : NodeSpecificError) (h : Fits .nodeSpecificError m) :
    RoundTrips m.serializeSpecific NodeSpecificError.deserializeSpecific m :=
  roundTrips_of_reads ((writes_add _).seq (writes_addString h.2))
    ((reads_get _).bind (reads_getWString h.1 h.2).bindPure)

theorem executionStateChanged_roundTrips (m : ExecutionStateChanged) :
    RoundTrips m.serializeSpecific ExecutionStateChanged.deserializeSpecific m :=
  roundTrips_of_reads ((writes_add _).seq (writes_add _))
    ((reads_get _).bind (reads_get _).bindPure)

theorem breakpointSetResult_roundTrips (m : BreakpointSetResult) :
    RoundTrips m.serializeSpecific BreakpointSetResult.deserializeSpecific m :=
  roundTrips_of_reads ((writes_add _).seq (writes_add _))
    ((reads_get _).bind (reads_get _).bindPure)

theorem bootloaderPage_roundTrips (m : BootloaderPage) :
    RoundTrips m.serializeSpecific BootloaderPage.deserializeSpecific m :=
  roundTrips_of_reads ((writes_add _).seq (writes_add _))
    ((cmdMessage_reads _ _).bind (reads_get _).bindPure)

theorem bootloaderPageDataWrite_roundTrips (m : BootloaderPageDataWrite) :
    RoundTrips m.serializeSpecific BootloaderPageDataWrite.deserializeSpecific m :=
  roundTrips_of_reads ((writes_add _).seq (writes_addAll _))
    ((cmdMessage_reads _ _).bind (reads_getAll m.data).bindPure)

theorem breakpointMessage_roundTrips (m : BreakpointMessage) :
    RoundTrips m.serializeSpecific BreakpointMessage.deserializeSpecific m :=
  roundTrips_of_reads ((writes_add _).seq (writes_add _))
    ((cmdMessage_reads _ _).bind (reads_get _).bindPure)

theorem getVariables_roundTrips (m : GetVariables) :
    RoundTrips m.serializeSpecific GetVariables.deserializeSpecific m :=
  roundTrips_of_reads ((writes_add _).seq ((writes_add _).seq (writes_add _)))
    ((cmdMessage_reads _ _).bind ((reads_get _).bind (reads_get _).bindPure))

theorem disconnected_roundTrips :
    RoundTrips (pure () : Serializing PUnit) (pure () : Serializing PUnit) () :=
  roundTrips_of_reads Writes.nil (Reads.ret ())

/-! ## All classes -/

theorem class_roundTrips (c : MessageClass) (m : c.Content) (hclass : c ≠ .changedVariables)
    (hfits : Fits c m) (hcount : CountsFit c m) :
    ∃ m', RoundTrips (c.serializeSpecific m) c.deserializeSpecific m' ∧ Agrees c m m' := by
  cases c with
  | userMessage => exact ⟨m, userMessage_roundTrips m, rfl⟩
  | bootloaderDescription => exact ⟨m, bootloaderDescription_roundTrips m, rfl⟩
  | bootloaderDataRead => exact ⟨m, bootloaderDataRead_roundTrips m, rfl⟩
  | bootloaderAck => exact bootloaderAck_roundTrips m
  | listNodes | nodePresent | getDescription => exact ⟨m, versionMessage_roundTrips m, rfl⟩
  | getNodeDescription => exact ⟨m, getNodeDescription_roundTrips m, rfl⟩
  | description => exact description_roundTrips m hfits
  | deviceInfo => exact ⟨m, deviceInfo_roundTrips m hfits hcount, rfl⟩
  | namedVariableDescription => exact ⟨m, namedVariable_roundTrips m hfits, rfl⟩
  | localEventDescription => exact ⟨m, localEvent_roundTrips m hfits, rfl⟩
  | nativeFunctionDescription => exact ⟨m, nativeFunction_roundTrips m hfits hcount, rfl⟩
  | disconnected => exact ⟨m, disconnected_roundTrips, rfl⟩
  | variablesMessage => exact ⟨m, variables_roundTrips m, rfl⟩
  | changedVariables => exact absurd rfl hclass
  | arrayAccessOutOfBounds => exact ⟨m, arrayAccessOutOfBounds_roundTrips m, rfl⟩
  | divisionByZero | eventExecutionKilled => exact ⟨m, pcMessage_roundTrips m, rfl⟩
  | nodeSpecificError => exact ⟨m, nodeSpecificError_roundTrips m hfits, rfl⟩
  | executionStateChanged => exact ⟨m, executionStateChanged_roundTrips m, rfl⟩
  | breakpointSetResult => exact ⟨m, breakpointSetResult_roundTrips m, rfl⟩
  | bootloaderReset | reset | run | pause | step | stop | getExecutionState
  | breakpointClearAll | getChangedVariables | writeBytecode | reboot | sleep =>
    exact ⟨m, cmdMessage_roundTrips m, rfl⟩
  | bootloaderReadPage | bootloaderWritePage => exact ⟨m, bootloaderPage_roundTrips m, rfl⟩
  | bootloaderPageDataWrite => exact ⟨m, bootloaderPageDataWrite_roundTrips m, rfl⟩
  | setBytecode => exact ⟨m, setBytecode_roundTrips m, rfl⟩
  | breakpointSet | breakpointClear => exact ⟨m, breakpointMessage_roundTrips m, rfl⟩
  | getVariables => exact ⟨m, getVariables_roundTrips m, rfl⟩
  | setVariables => exact ⟨m, setVariables_roundTrips m, rfl⟩

/-- What a message is serialized as is read, to its end, as a message that agrees with it. -/
def ComesBack (m : Message) : Prop :=
  ∃ buffer content, m.serializeSpecific {} = .ok ((), buffer) ∧
    Message.create m.source m.type { rawData := buffer.rawData } =
      .ok (some { source := m.source, type := m.type, content }) ∧
    Agrees (createMessage m.type) m.content content

/-- Decoding undoes encoding for every message whose parts fit their places. -/
theorem create_serializeSpecific (m : Message) (hclass : createMessage m.type ≠ .changedVariables)
    (hfits : Fits (createMessage m.type) m.content)
    (hcount : CountsFit (createMessage m.type) m.content) : ComesBack m := by
  obtain ⟨content, ⟨bytes, hwrites, hread⟩, hagrees⟩ :=
    class_roundTrips (createMessage m.type) m.content hclass hfits hcount
  have hwritten : m.serializeSpecific {} = .ok ((), { rawData := bytes }) := hwrites {}
  refine ⟨{ rawData := bytes }, content, hwritten, ?_, hagrees⟩
  rw [create_of_ok hread]
  simp

/-- A native function with a parameter of a template size. -/
def dotProduct : NativeFunction where
  name := [100, 111, 116]
  description := [0xe9, 0x20ac]
  parameters := [{ name := [120], size := -1 }]

theorem dotProduct_comes_back :
    ComesBack { source := 1, type := 0x9003, content := dotProduct } :=
  create_serializeSpecific { source := 1, type := 0x9003, content := dotProduct } (by decide)
    (by
      refine ⟨⟨?_, by decide⟩, ⟨?_, by decide⟩, ?_⟩
      · decide
      · decide
      · intro p hp
        obtain rfl : p = { name := [120], size := -1 } := by simpa [dotProduct] using hp
        exact ⟨⟨by decide, by decide⟩, by decide, by decide⟩)
    (by
      change dotProduct.parameters.length ≤ 65535
      decide)

/-- The count of 256 bytes is written as zero. -/
theorem not_comesBack_of_length {m : DeviceInfo} (h : m.data.length = 256) :
    ¬ ComesBack { type := 0x900D, content := m } := by
  rintro ⟨buffer, content, hwritten, hcreate, -⟩
  have hwrites : Writes m.serializeSpecific (Wire.toBytes m.info.toUInt8 ++
      (Wire.toBytes (UInt8.ofNat m.data.length) ++ m.data.flatMap Wire.toBytes)) :=
    (writes_add _).seq ((writes_add _).seq (writes_addAll _))
  have hread : Reads DeviceInfo.deserializeSpecific
      (Wire.toBytes m.info.toUInt8 ++ (Wire.toBytes (0 : UInt8) ++ []))
        (m.data.flatMap Wire.toBytes) { info := m.info.toUInt8.toUInt32, data := [] } :=
    (reads_get _).bind ((reads_get _).bind (Reads.ret _))
  have hbuffer : buffer.rawData = Wire.toBytes m.info.toUInt8 ++
      (Wire.toBytes (0 : UInt8) ++ m.data.flatMap Wire.toBytes) := by
    have heq := (hwrites {}).symm.trans hwritten
    rw [h] at heq
    exact (congrArg (fun r => r.2.rawData) (Outcome.ok.inj heq)).symm
  have hrun : DeviceInfo.deserializeSpecific { rawData := buffer.rawData } =
      .ok ({ info := m.info.toUInt8.toUInt32, data := [] },
        { rawData := buffer.rawData, readPos := 2 }) := by
    rw [hbuffer]
    exact hread []
  have hlength : buffer.rawData.length = 258 := by
    have hdata : (m.data.flatMap Wire.toBytes).length = 1 * m.data.length :=
      length_flatMap_toBytes m.data
    rw [hbuffer, List.length_append, List.length_append, Wire.length_toBytes, Wire.length_toBytes,
      hdata, h]
    rfl
  have hnull : Message.create 0 0x900D { rawData := buffer.rawData } = .ok none := by
    have hcreated := @create_of_ok 0 0x900D _ _ _ hrun
    rw [hcreated]
    simp [hlength]
  rw [hnull] at hcreate
  cases hcreate

/-- A device information of 256 bytes. -/
def longDeviceInfo : DeviceInfo := { info := 2, data := List.replicate 256 0 }

theorem longDeviceInfo_lost :
    createMessage 0x900D ≠ .changedVariables ∧ Fits (createMessage 0x900D) longDeviceInfo ∧
      ¬ ComesBack { type := 0x900D, content := longDeviceInfo } := by
  refine ⟨by decide, ?_, not_comesBack_of_length (List.length_replicate ..)⟩
  change (2 : UInt32).toNat < 256
  decide

end MessageRoundTrip

end ThymioDeviceManager.Correctness
