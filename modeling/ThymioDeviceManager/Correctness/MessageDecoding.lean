import ThymioDeviceManager.Correctness.MessageTexts
import ThymioDeviceManager.Correctness.ChangedAreas

/-! # Decoding accepts only images of encoding

A message that is read from a buffer is written as that buffer again. The decoder of
changed variables stops at a header without enough values; when nothing follows the
header, the buffer is used up and the message is accepted all the same.
-/

namespace ThymioDeviceManager.Correctness

open Protocol Library Codec Text MessageCodec MessageTexts ChangedAreas

namespace MessageDecoding

/-- What `MessageDecoding` says of a class: when its decoder crashes, and that a message
which uses up a buffer with valid texts is written as the buffer. -/
structure Decodes (c : MessageClass) : Prop where
  crashes_iff : ∀ buffer, (c.deserializeSpecific { rawData := buffer }).Crashes ↔
    OverreadsIn (textFields c buffer)
  writes : ∀ buffer content s, c.deserializeSpecific { rawData := buffer } = .ok (content, s) →
    s.readPos = s.rawData.length → (∀ text ∈ textFields c buffer, ValidUtf8 text) →
      Writes (c.serializeSpecific content) buffer

/-- A decoder without texts. -/
theorem decodes_of_inverts {c : MessageClass} (htexts : ∀ buffer, textFields c buffer = [])
    (h : Inverts False c.deserializeSpecific fun m bytes => Writes (c.serializeSpecific m) bytes) :
    Decodes c where
  crashes_iff buffer := by
    rw [htexts]
    exact iff_of_false (h.not_crashes [] buffer) id
  writes _ _ _ hrun hend _ := h.whole hrun hend

/-- A decoder with texts, whose values stand for bytes that determine them. -/
theorem decodes_of_texts {c : MessageClass} {I : c.Content → List UInt8 → Prop}
    (hcrashes : ∀ buffer, (c.deserializeSpecific (cut [] buffer)).Crashes ↔
      OverreadsIn (textFields c buffer))
    (h : Inverts True c.deserializeSpecific I)
    (hI : ∀ m bytes, I m bytes → (∀ text ∈ textFields c bytes, ValidUtf8 text) →
      Writes (c.serializeSpecific m) bytes) : Decodes c where
  crashes_iff := hcrashes
  writes buffer content _ hrun hend hvalid := hI content buffer (h.whole hrun hend) hvalid

/-! ## Messages of numbers -/

theorem userMessage_decodes : Decodes .userMessage where
  crashes_iff buffer := by
    have hread : Inverts False
        (repeated (get Int16) (buffer.length / 2) >>= fun data => pure (UserMessage.mk data.val)) _ :=
      (inverts_getAll _).bindPure
    refine iff_of_false ?_ id
    change ¬ (UserMessage.deserializeSpecific { rawData := buffer }).Crashes
    rw [UserMessage.deserializeSpecific]
    split
    · exact Outcome.crashes_throw _
    · exact hread.not_crashes [] buffer
  writes buffer content s hrun hend _ := by
    change UserMessage.deserializeSpecific { rawData := buffer } = .ok (content, s) at hrun
    rw [UserMessage.deserializeSpecific] at hrun
    split at hrun
    · cases hrun
    · obtain ⟨data, rfl, hbytes⟩ :=
        ((inverts_getAll (buffer.length / 2)).bindPure (g := fun data => UserMessage.mk data.val)).whole
          hrun hend
      have hwrites := writes_addAll data.val
      rwa [← hbytes] at hwrites

theorem cmdMessage_inverts :
    Inverts False CmdMessage.deserializeSpecific fun m bytes => bytes = Wire.toBytes m.dest := by
  refine inverts_get.bindPure.mono ?_
  rintro m bytes ⟨dest, rfl, rfl⟩
  rfl

theorem cmdMessage_writes : Inverts False CmdMessage.deserializeSpecific fun m bytes =>
    Writes m.serializeSpecific bytes := by
  refine cmdMessage_inverts.mono ?_
  rintro m bytes rfl
  exact writes_add _

theorem bootloaderDescription_writes :
    Inverts False BootloaderDescription.deserializeSpecific fun m bytes =>
      Writes m.serializeSpecific bytes := by
  refine (inverts_get.bind fun _ => inverts_get.bind fun _ => inverts_get.bindPure).mono ?_
  rintro m bytes ⟨pageSize, _, _, rfl, rfl, pagesStart, _, _, rfl, rfl, pagesCount, rfl, rfl⟩
  exact (writes_add _).seq ((writes_add _).seq (writes_add _))

theorem bootloaderDataRead_writes :
    Inverts False BootloaderDataRead.deserializeSpecific fun m bytes =>
      Writes m.serializeSpecific bytes := by
  refine (inverts_getAll 4).bindPure.mono ?_
  rintro m bytes ⟨data, rfl, rfl⟩
  exact writes_addAll _

theorem bootloaderAck_writes :
    Inverts False BootloaderAck.deserializeSpecific fun m bytes =>
      Writes m.serializeSpecific bytes := by
  have hrest : ∀ errorCode : UInt16, Inverts False
      (if errorCode = BootloaderAck.programmingFailed then do
        let errorAddress ← get UInt16
        pure (BootloaderAck.mk errorCode errorAddress)
      else pure { errorCode }) fun m bytes =>
        m.errorCode = errorCode ∧
          bytes = if errorCode = BootloaderAck.programmingFailed then Wire.toBytes m.errorAddress
            else [] := by
    intro errorCode
    split
    · refine inverts_get.bindPure.mono ?_
      rintro m bytes ⟨errorAddress, rfl, rfl⟩
      exact ⟨rfl, rfl⟩
    · refine (Inverts.ret _).mono ?_
      rintro m bytes ⟨rfl, rfl⟩
      exact ⟨rfl, rfl⟩
  refine (inverts_get.bind hrest).mono ?_
  rintro m bytes ⟨errorCode, _, _, rfl, rfl, rfl, rfl⟩
  refine (writes_add _).seq ?_
  split
  · exact writes_add _
  · exact Writes.nil

theorem versionMessage_writes :
    Inverts False VersionMessage.deserializeSpecific fun m bytes =>
      Writes m.serializeSpecific bytes := by
  refine inverts_get.bindPure.mono ?_
  rintro m bytes ⟨version, rfl, rfl⟩
  exact writes_add _

theorem getNodeDescription_writes :
    Inverts False GetNodeDescription.deserializeSpecific fun m bytes =>
      Writes m.serializeSpecific bytes := by
  refine (cmdMessage_inverts.bind fun _ => inverts_get.bindPure).mono ?_
  rintro m bytes ⟨cmd, _, _, rfl, rfl, version, rfl, rfl⟩
  exact (writes_add _).seq (writes_add _)

theorem deviceInfo_writes :
    Inverts False DeviceInfo.deserializeSpecific fun m bytes =>
      Writes m.serializeSpecific bytes := by
  refine (inverts_get.bind fun _ => inverts_get.bind fun size : UInt8 =>
    (inverts_getAll size.toNat).bindPure).mono ?_
  rintro m bytes ⟨info, _, _, rfl, rfl, size, _, _, rfl, rfl, data, rfl, rfl⟩
  have hinfo : info.toUInt32.toUInt8 = info := by simp
  have hsize : UInt8.ofNat data.val.length = size := by rw [data.property, UInt8.ofNat_toNat]
  exact (writes_add_eq hinfo).seq ((writes_add_eq hsize).seq (writes_addAll _))

theorem variables_writes :
    Inverts False Variables.deserializeSpecific fun m bytes => Writes m.serializeSpecific bytes := by
  refine (inverts_get.bind fun _ => inverts_wordsLeft.bind fun n =>
    (inverts_getAll n).bindPure).mono ?_
  rintro m bytes ⟨start, _, _, rfl, rfl, n, _, _, rfl, rfl, values, rfl, rfl⟩
  exact (writes_add _).seq (writes_addAll _)

theorem arrayAccessOutOfBounds_writes :
    Inverts False ArrayAccessOutOfBounds.deserializeSpecific fun m bytes =>
      Writes m.serializeSpecific bytes := by
  refine (inverts_get.bind fun _ => inverts_get.bind fun _ => inverts_get.bindPure).mono ?_
  rintro m bytes ⟨pc, _, _, rfl, rfl, size, _, _, rfl, rfl, index, rfl, rfl⟩
  exact (writes_add _).seq ((writes_add _).seq (writes_add _))

theorem pcMessage_writes :
    Inverts False PcMessage.deserializeSpecific fun m bytes => Writes m.serializeSpecific bytes := by
  refine inverts_get.bindPure.mono ?_
  rintro m bytes ⟨pc, rfl, rfl⟩
  exact writes_add _

theorem executionStateChanged_writes :
    Inverts False ExecutionStateChanged.deserializeSpecific fun m bytes =>
      Writes m.serializeSpecific bytes := by
  refine (inverts_get.bind fun _ => inverts_get.bindPure).mono ?_
  rintro m bytes ⟨pc, _, _, rfl, rfl, flags, rfl, rfl⟩
  exact (writes_add _).seq (writes_add _)

theorem breakpointSetResult_writes :
    Inverts False BreakpointSetResult.deserializeSpecific fun m bytes =>
      Writes m.serializeSpecific bytes := by
  refine (inverts_get.bind fun _ => inverts_get.bindPure).mono ?_
  rintro m bytes ⟨pc, _, _, rfl, rfl, success, rfl, rfl⟩
  exact (writes_add _).seq (writes_add _)

theorem bootloaderPage_writes :
    Inverts False BootloaderPage.deserializeSpecific fun m bytes =>
      Writes m.serializeSpecific bytes := by
  refine (cmdMessage_inverts.bind fun _ => inverts_get.bindPure).mono ?_
  rintro m bytes ⟨cmd, _, _, rfl, rfl, pageNumber, rfl, rfl⟩
  exact (writes_add _).seq (writes_add _)

theorem bootloaderPageDataWrite_writes :
    Inverts False BootloaderPageDataWrite.deserializeSpecific fun m bytes =>
      Writes m.serializeSpecific bytes := by
  refine (cmdMessage_inverts.bind fun _ => (inverts_getAll 4).bindPure).mono ?_
  rintro m bytes ⟨cmd, _, _, rfl, rfl, data, rfl, rfl⟩
  exact (writes_add _).seq (writes_addAll _)

theorem setBytecode_writes :
    Inverts False SetBytecode.deserializeSpecific fun m bytes =>
      Writes m.serializeSpecific bytes := by
  refine (cmdMessage_inverts.bind fun _ => inverts_get.bind fun _ => inverts_wordsLeft.bind fun n =>
    (inverts_getAll n).bindPure).mono ?_
  rintro m bytes ⟨cmd, _, _, rfl, rfl, start, _, _, rfl, rfl, n, _, _, rfl, rfl, bytecode, rfl, rfl⟩
  exact (writes_add _).seq ((writes_add _).seq (writes_addAll _))

theorem breakpointMessage_writes :
    Inverts False BreakpointMessage.deserializeSpecific fun m bytes =>
      Writes m.serializeSpecific bytes := by
  refine (cmdMessage_inverts.bind fun _ => inverts_get.bindPure).mono ?_
  rintro m bytes ⟨cmd, _, _, rfl, rfl, pc, rfl, rfl⟩
  exact (writes_add _).seq (writes_add _)

theorem getVariables_writes :
    Inverts False GetVariables.deserializeSpecific fun m bytes =>
      Writes m.serializeSpecific bytes := by
  refine (cmdMessage_inverts.bind fun _ => inverts_get.bind fun _ =>
    inverts_get.bindPure).mono ?_
  rintro m bytes ⟨cmd, _, _, rfl, rfl, start, _, _, rfl, rfl, length, rfl, rfl⟩
  exact (writes_add _).seq ((writes_add _).seq (writes_add _))

theorem setVariables_writes :
    Inverts False SetVariables.deserializeSpecific fun m bytes =>
      Writes m.serializeSpecific bytes := by
  refine (cmdMessage_inverts.bind fun _ => inverts_get.bind fun _ => inverts_wordsLeft.bind fun n =>
    (inverts_getAll n).bindPure).mono ?_
  rintro m bytes ⟨cmd, _, _, rfl, rfl, start, _, _, rfl, rfl, n, _, _, rfl, rfl, values, rfl, rfl⟩
  exact (writes_add _).seq ((writes_add _).seq (writes_addAll _))

theorem disconnected_writes :
    Inverts False (pure () : Serializing PUnit) fun _ bytes =>
      Writes (pure () : Serializing PUnit) bytes := by
  refine (Inverts.ret _).mono ?_
  rintro m bytes ⟨-, rfl⟩
  exact Writes.nil

/-! ## Messages with texts -/

/-- The bytes are a string with its length, which is decoded as `w`. -/
def TextImage (w : WString) (bytes : List UInt8) : Prop :=
  ∃ s, bytes = stringBytes s ∧ s.length ≤ 255 ∧ utf8ToWString s = .ok w

theorem textImage_inverts : Inverts True getWString TextImage := inverts_getWString

theorem word_inverts {α : Type} [Wire α] :
    Inverts True (get α) fun v bytes => bytes = Wire.toBytes v :=
  inverts_get.crash False.elim

/-- A valid text is written as it was read. -/
theorem writes_text {w : WString} {s : List UInt8} (hlength : s.length ≤ 255)
    (hs : utf8ToWString s = .ok w) (hvalid : ValidUtf8 s) :
    Writes (addString (wStringToUTF8 w)) (stringBytes s) := by
  rw [wStringToUTF8_of_validUtf8 hvalid hs]
  exact writes_addString hlength

theorem textsAt_stringBytes {s : List UInt8} (h : s.length ≤ 255) (gaps : List Nat)
    (after : List UInt8) :
    textsAt (0 :: gaps) (stringBytes s ++ after) =
      (s :: (textsAt gaps after).1, (textsAt gaps after).2) := by
  simp only [textsAt, List.drop_zero, nextText_stringBytes h]

theorem textsAt_word {α : Type} [Wire α] (hsize : Wire.size α = 2) (v : α) {s : List UInt8}
    (h : s.length ≤ 255) (gaps : List Nat) (after : List UInt8) :
    textsAt (2 :: gaps) (Wire.toBytes v ++ (stringBytes s ++ after)) =
      (s :: (textsAt gaps after).1, (textsAt gaps after).2) := by
  have hlength : (Wire.toBytes v).length = 2 := by rw [Wire.length_toBytes, hsize]
  simp only [textsAt, List.drop_left' hlength, nextText_stringBytes h]

theorem description_decodes : Decodes .description := by
  refine decodes_of_texts (fun _ => description_crashes)
    (textImage_inverts.bind fun _ => word_inverts.bind fun _ => word_inverts.bind fun _ =>
      word_inverts.bind fun _ => word_inverts.bind fun _ => word_inverts.bind fun _ =>
        word_inverts.bind fun _ => word_inverts.bindPure) ?_
  rintro m bytes ⟨name, _, _, rfl, ⟨s, rfl, hlength, hs⟩, protocolVersion, _, _, rfl, rfl,
    bytecodeSize, _, _, rfl, rfl, stackSize, _, _, rfl, rfl, variablesSize, _, _, rfl, rfl,
    namedVariables, _, _, rfl, rfl, localEvents, _, _, rfl, rfl, nativeFunctions, rfl, rfl⟩ hvalid
  have htext := writes_text hlength hs (hvalid s (by
    simp [textFields, textsAt_stringBytes hlength]))
  have hword : ∀ v : UInt16, v.toUInt32.toUInt16 = v := by simp
  have hcount : ∀ {β : Type} (v : UInt16) (b : β),
      UInt16.ofNat (List.replicate v.toNat b).length = v := by simp
  exact htext.seq ((writes_add_eq (hword _)).seq ((writes_add_eq (hword _)).seq
    ((writes_add_eq (hword _)).seq ((writes_add_eq (hword _)).seq ((writes_add_eq (hcount _ _)).seq
      ((writes_add_eq (hcount _ _)).seq (writes_add_eq (hcount _ _))))))))

theorem namedVariable_decodes : Decodes .namedVariableDescription := by
  refine decodes_of_texts (fun _ => namedVariable_crashes)
    (word_inverts.bind fun _ => textImage_inverts.bindPure) ?_
  rintro m bytes ⟨size, _, _, rfl, rfl, name, rfl, s, rfl, hlength, hs⟩ hvalid
  have htext := writes_text hlength hs (hvalid s (by
    have h := textsAt_word rfl size hlength [] []
    rw [List.append_nil] at h
    simp [textFields, h]))
  have hbytes : Wire.toBytes size = Wire.toBytes size.toUInt32.toUInt16.toInt16 := by
    rw [UInt16.toUInt16_toUInt32]
    rfl
  rw [hbytes]
  exact (writes_add _).seq htext

theorem nodeSpecificError_decodes : Decodes .nodeSpecificError := by
  refine decodes_of_texts (fun _ => nodeSpecificError_crashes)
    (word_inverts.bind fun _ => textImage_inverts.bindPure) ?_
  rintro m bytes ⟨pc, _, _, rfl, rfl, message, rfl, s, rfl, hlength, hs⟩ hvalid
  have htext := writes_text hlength hs (hvalid s (by
    have h := textsAt_word rfl pc hlength [] []
    rw [List.append_nil] at h
    simp [textFields, h]))
  exact (writes_add _).seq htext

theorem localEvent_decodes : Decodes .localEventDescription := by
  refine decodes_of_texts (fun _ => localEvent_crashes)
    (textImage_inverts.bind fun _ => textImage_inverts.bindPure) ?_
  rintro m bytes ⟨name, _, _, rfl, ⟨s, rfl, hlength, hs⟩, description, rfl, s', rfl, hlength',
    hs'⟩ hvalid
  have hfields : textFields .localEventDescription (stringBytes s ++ stringBytes s') = [s, s'] := by
    have h := textsAt_stringBytes hlength' [] []
    rw [List.append_nil] at h
    rw [textFields, textsAt_stringBytes hlength, h]
    rfl
  rw [hfields] at hvalid
  exact (writes_text hlength hs (hvalid s (by simp))).seq
    (writes_text hlength' hs' (hvalid s' (by simp)))

/-- The bytes of a parameter as it is read. -/
def ParameterImage (p : NativeFunctionParameter) (bytes : List UInt8) : Prop :=
  ∃ s, bytes = Wire.toBytes p.size.toInt16 ++ stringBytes s ∧ s.length ≤ 255 ∧
    utf8ToWString s = .ok p.name

theorem parameter_inverts :
    Inverts True NativeFunctionParameter.deserializeSpecific ParameterImage := by
  refine (word_inverts.bind fun _ => textImage_inverts.bindPure).mono ?_
  rintro p bytes ⟨size, _, _, rfl, rfl, name, rfl, s, rfl, hlength, hs⟩
  exact ⟨s, by simp, hlength, hs⟩

/-- The loop over parameters with valid texts. -/
theorem writes_parameters {l : List NativeFunctionParameter} {bytes : List UInt8}
    (h : Codec.Listed ParameterImage l bytes)
    (hvalid : ∀ text ∈ (textsAt (List.replicate l.length 2) bytes).1, ValidUtf8 text) :
    Writes (l.forM NativeFunctionParameter.serializeSpecific) bytes := by
  induction h with
  | nil => exact Writes.nil
  | @cons p l bytes bytes' hp hl ih =>
    obtain ⟨s, rfl, hlength, hs⟩ := hp
    rw [List.length_cons, List.replicate_succ, List.append_assoc,
      textsAt_word rfl p.size.toInt16 hlength] at hvalid
    have htext := writes_text hlength hs (hvalid s List.mem_cons_self)
    refine ((writes_add _).seq htext).seq (ih fun text hmem => ?_)
    exact hvalid text (List.mem_cons_of_mem _ hmem)

theorem parameterTexts_word (size : UInt16) (bytes : List UInt8) :
    parameterTexts (Wire.toBytes size ++ bytes) =
      (textsAt (List.replicate size.toNat 2) bytes).1 := by
  have hlength : (Wire.toBytes size).length = 2 := Wire.length_toBytes size
  have hword : wordOfBytes (Wire.toBytes size) = size := Wire.ofBytes_toBytes size
  rw [parameterTexts, List.take_left' hlength, List.drop_left' hlength, hword]

theorem nativeFunction_decodes : Decodes .nativeFunctionDescription := by
  refine decodes_of_texts (fun _ => nativeFunction_crashes)
    (textImage_inverts.bind fun _ => textImage_inverts.bind fun _ => word_inverts.bind fun size =>
      (parameter_inverts.repeated (n := size.toNat)).bindPure) ?_
  rintro m bytes ⟨name, _, _, rfl, ⟨s, rfl, hlength, hs⟩, description, _, _, rfl,
    ⟨s', rfl, hlength', hs'⟩, size, _, _, rfl, rfl, l, rfl, hl⟩ hvalid
  rw [textFields_nativeFunction, nextText_stringBytes hlength] at hvalid
  simp only [nextText_stringBytes hlength', parameterTexts_word, List.forall_mem_cons] at hvalid
  obtain ⟨hname, hdescription, hparameters⟩ := hvalid
  have hcount : UInt16.ofNat l.val.length = size := by rw [l.property, UInt16.ofNat_toNat]
  rw [← l.property] at hparameters
  exact (writes_text hlength hs hname).seq ((writes_text hlength' hs' hdescription).seq
    ((writes_add_eq hcount).seq (writes_parameters hl hparameters)))

/-! ## All classes -/

theorem class_decodes (c : MessageClass) (hclass : c ≠ .changedVariables) : Decodes c := by
  cases c with
  | userMessage => exact userMessage_decodes
  | bootloaderDescription => exact decodes_of_inverts (fun _ => rfl) bootloaderDescription_writes
  | bootloaderDataRead => exact decodes_of_inverts (fun _ => rfl) bootloaderDataRead_writes
  | bootloaderAck => exact decodes_of_inverts (fun _ => rfl) bootloaderAck_writes
  | listNodes | nodePresent | getDescription =>
    exact decodes_of_inverts (fun _ => rfl) versionMessage_writes
  | getNodeDescription => exact decodes_of_inverts (fun _ => rfl) getNodeDescription_writes
  | description => exact description_decodes
  | deviceInfo => exact decodes_of_inverts (fun _ => rfl) deviceInfo_writes
  | namedVariableDescription => exact namedVariable_decodes
  | localEventDescription => exact localEvent_decodes
  | nativeFunctionDescription => exact nativeFunction_decodes
  | disconnected => exact decodes_of_inverts (fun _ => rfl) disconnected_writes
  | variablesMessage => exact decodes_of_inverts (fun _ => rfl) variables_writes
  | changedVariables => exact absurd rfl hclass
  | arrayAccessOutOfBounds => exact decodes_of_inverts (fun _ => rfl) arrayAccessOutOfBounds_writes
  | divisionByZero | eventExecutionKilled => exact decodes_of_inverts (fun _ => rfl) pcMessage_writes
  | nodeSpecificError => exact nodeSpecificError_decodes
  | executionStateChanged => exact decodes_of_inverts (fun _ => rfl) executionStateChanged_writes
  | breakpointSetResult => exact decodes_of_inverts (fun _ => rfl) breakpointSetResult_writes
  | bootloaderReset | reset | run | pause | step | stop | getExecutionState
  | breakpointClearAll | getChangedVariables | writeBytecode | reboot | sleep =>
    exact decodes_of_inverts (fun _ => rfl) cmdMessage_writes
  | bootloaderReadPage | bootloaderWritePage =>
    exact decodes_of_inverts (fun _ => rfl) bootloaderPage_writes
  | bootloaderPageDataWrite => exact decodes_of_inverts (fun _ => rfl) bootloaderPageDataWrite_writes
  | setBytecode => exact decodes_of_inverts (fun _ => rfl) setBytecode_writes
  | breakpointSet | breakpointClear =>
    exact decodes_of_inverts (fun _ => rfl) breakpointMessage_writes
  | getVariables => exact decodes_of_inverts (fun _ => rfl) getVariables_writes
  | setVariables => exact decodes_of_inverts (fun _ => rfl) setVariables_writes

/-- The message stands for the buffer: it is written as the buffer, if the texts there
are valid, and changed variables are the areas of the buffer. -/
def StandsFor : (c : MessageClass) → c.Content → List UInt8 → Prop
  | .changedVariables, m, buffer => AreasImage m.areas buffer
  | c, m, buffer => (∀ text ∈ textFields c buffer, ValidUtf8 text) →
      c.serializeSpecific m {} = .ok ((), { rawData := buffer })

/-- `Message::create` returns, without a read where there is nothing to read, the null
pointer or a message of this source and type that stands for the buffer. -/
def AcceptsImages (source type : UInt16) (buffer : List UInt8) : Prop :=
  Message.create source type { rawData := buffer } = .ok none ∨
    ∃ content, Message.create source type { rawData := buffer } =
        .ok (some { source, type, content }) ∧ StandsFor (createMessage type) content buffer

theorem standsFor_of_ne {c : MessageClass} (hclass : c ≠ .changedVariables) {m : c.Content}
    {buffer : List UInt8} : StandsFor c m buffer ↔
      ((∀ text ∈ textFields c buffer, ValidUtf8 text) →
        c.serializeSpecific m {} = .ok ((), { rawData := buffer })) := by
  cases c with
  | changedVariables => exact absurd rfl hclass
  | _ => rfl

/-- The same of the decoder of a class. -/
def ClassAccepts (c : MessageClass) (buffer : List UInt8) : Prop :=
  match c.deserializeSpecific { rawData := buffer } with
  | .ok (content, s) => s.readPos = s.rawData.length → StandsFor c content buffer
  | .throw _ => True
  | .crash _ => False

theorem acceptsImages_iff_class {source type : UInt16} {buffer : List UInt8} :
    AcceptsImages source type buffer ↔ ClassAccepts (createMessage type) buffer := by
  unfold AcceptsImages ClassAccepts Message.create
  cases (createMessage type).deserializeSpecific { rawData := buffer } with
  | ok r =>
    obtain ⟨content, s⟩ := r
    by_cases hend : s.readPos = s.rawData.length
    · simp [hend]
    · simp [hend]
  | throw e => simp
  | crash fault => simp

theorem classAccepts_of_decodes {c : MessageClass} (hclass : c ≠ .changedVariables)
    (h : Decodes c) (buffer : List UInt8) :
    ClassAccepts c buffer ↔ ¬ OverreadsIn (textFields c buffer) := by
  have hcrashes := h.crashes_iff buffer
  have hwrites := h.writes buffer
  unfold ClassAccepts
  rw [← hcrashes]
  cases hrun : c.deserializeSpecific { rawData := buffer } with
  | ok r =>
    obtain ⟨content, s⟩ := r
    simp only [Outcome.crashes_ok, not_false_eq_true, iff_true]
    intro hend
    rw [standsFor_of_ne hclass]
    intro hvalid
    exact hwrites content s hrun hend hvalid {}
  | throw e => simp
  | crash fault => simp

theorem classAccepts_changedVariables (buffer : List UInt8) :
    ClassAccepts .changedVariables buffer ↔ ¬ EndsInHeader buffer := by
  obtain ⟨areas, read, left, rfl, hstopped, hrun⟩ := deserializeSpecific_run buffer
  have hrun' : MessageClass.changedVariables.deserializeSpecific { rawData := read ++ left } =
      .ok ({ areas }, cut read left) := hrun
  have hend : (cut read left).readPos = (cut read left).rawData.length ↔ left = [] := by
    simp only [cut, List.length_append]
    constructor
    · exact fun h => List.length_eq_zero_iff.mp (by omega)
    · rintro rfl
      simp
  unfold ClassAccepts
  simp only [hrun', hend]
  constructor
  · intro himage hends
    have hall := hstopped.eq_nil hends
    exact not_endsInHeader (himage hall) hends
  · rintro hnot rfl
    rw [List.append_nil] at hnot ⊢
    cases hstopped with
    | inl h => exact h.1
    | inr h =>
      obtain ⟨init, start, size, hinit, hsize, heq, -⟩ := h
      exact absurd ⟨areas, init, start, size, hinit, hsize, heq⟩ hnot

/-- `Message::create` accepts only images of encoding exactly when no text that it comes
to makes it read too far, and the areas of changed variables do not end in a bare header. -/
theorem accepts_images_iff (source type : UInt16) (buffer : List UInt8) :
    AcceptsImages source type buffer ↔
      ¬ OverreadsIn (textFields (createMessage type) buffer) ∧
        ¬ (createMessage type = .changedVariables ∧ EndsInHeader buffer) := by
  rw [acceptsImages_iff_class]
  by_cases hclass : createMessage type = .changedVariables
  · have hnone : textFields .changedVariables buffer = [] := rfl
    rw [hclass, classAccepts_changedVariables, hnone]
    simp [OverreadsIn]
  · rw [classAccepts_of_decodes hclass (class_decodes _ hclass)]
    simp [hclass]

/-- A header for five values is accepted without them. -/
theorem bareHeader_accepted :
    Message.create 1 0x900E { rawData := [0, 0, 5, 0] } =
        .ok (some { source := 1, type := 0x900E, content := ChangedVariables.mk [] }) ∧
      ¬ AcceptsImages 1 0x900E [0, 0, 5, 0] := by
  have hends : EndsInHeader [0, 0, 5, 0] :=
    ⟨[], [], 0, 5, AreasImage.nil, by decide, by decide⟩
  refine ⟨rfl, fun h => ?_⟩
  exact (classAccepts_changedVariables _).mp (acceptsImages_iff_class.mp h) hends

end MessageDecoding

end ThymioDeviceManager.Correctness
