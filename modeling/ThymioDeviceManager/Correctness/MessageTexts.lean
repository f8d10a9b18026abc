import ThymioDeviceManager.Correctness.MessageCodec

/-! # The texts of a message

The strings in the bytes of a message, found without the decoder, and the runs of the
decoder on them: it reads behind a string exactly when it comes to one that
`UTF8ToWString` reads behind.
-/

namespace ThymioDeviceManager.Correctness

open Protocol Library Codec Text MessageCodec

namespace MessageTexts

/-! ## Where they are -/

/-- The string that starts with its length, and what follows it. -/
def nextText : List UInt8 → Option (List UInt8 × List UInt8)
  | [] => none
  | len :: rest =>
    if len.toNat ≤ rest.length then some (rest.take len.toNat, rest.drop len.toNat) else none

/-- The strings behind gaps of these sizes as far as they are there, and what follows
the last. -/
def textsAt : List Nat → List UInt8 → List (List UInt8) × List UInt8
  | [], rest => ([], rest)
  | gap :: gaps, rest =>
    match nextText (rest.drop gap) with
    | none => ([], [])
    | some (s, after) => (s :: (textsAt gaps after).1, (textsAt gaps after).2)

/-- The strings of a message; the parameters of a native function are counted behind its
description. -/
def textFields : MessageClass → List UInt8 → List (List UInt8)
  | .description, bytes => (textsAt [0] bytes).1
  | .namedVariableDescription, bytes | .nodeSpecificError, bytes => (textsAt [2] bytes).1
  | .localEventDescription, bytes => (textsAt [0, 0] bytes).1
  | .nativeFunctionDescription, bytes =>
    let (texts, after) := textsAt [0, 0] bytes
    texts ++
      (textsAt (List.replicate (wordOfBytes (after.take 2)).toNat 2) (after.drop 2)).1
  | _, _ => []

/-- One of the texts is read behind, and those before it are accepted. -/
def OverreadsIn : List (List UInt8) → Prop
  | [] => False
  | s :: texts => Overreads s ∨ (∃ w, utf8ToWString s = .ok w) ∧ OverreadsIn texts

theorem nextText_stringBytes {s : List UInt8} (h : s.length ≤ 255) (after : List UInt8) :
    nextText (stringBytes s ++ after) = some (s, after) := by
  have hlength : (UInt8.ofNat s.length).toNat = s.length := by
    rw [UInt8.toNat_ofNat']
    exact Nat.mod_eq_of_lt (by omega)
  simp [stringBytes, nextText, hlength]

theorem eq_of_nextText {rest s after : List UInt8} (h : nextText rest = some (s, after)) :
    rest = stringBytes s ++ after ∧ s.length ≤ 255 := by
  cases rest with
  | nil => cases h
  | cons len rest =>
    simp only [nextText] at h
    split at h
    · rename_i hlen
      cases h
      have hlt := len.toNat_lt
      have hlength : (rest.take len.toNat).length = len.toNat := by
        rw [List.length_take]
        omega
      refine ⟨?_, by omega⟩
      rw [stringBytes, hlength, UInt8.ofNat_toNat, List.cons_append, List.take_append_drop]
    · cases h

/-! ## Runs of the decoder -/

theorem repeated_get_throws {n : Nat} {before rest : List UInt8} (h : rest.length < n) :
    repeated (get UInt8) n (cut before rest) = .throw .deserialization := by
  induction n generalizing before rest with
  | zero => omega
  | succ n ih =>
    rw [repeated, Stateful.bind_apply, get_cut]
    cases rest with
    | nil => rfl
    | cons b rest =>
      have hlong : ¬ (b :: rest).length < Wire.size UInt8 := Nat.not_lt.mpr (Nat.succ_pos _)
      have hrest : (List.drop (Wire.size UInt8) (b :: rest)).length < n := by
        have hsize : Wire.size UInt8 = 1 := rfl
        rw [hsize, List.drop_one, List.tail_cons]
        simpa using h
      rw [if_neg hlong, Outcome.ok_bind, Stateful.bind_apply, ih hrest]
      rfl

theorem getWString_cut (before rest : List UInt8) :
    getWString (cut before rest) =
      match nextText rest with
      | none => .throw .deserialization
      | some (s, after) =>
        (utf8ToWString s).bind fun w => .ok (w, cut (before ++ stringBytes s) after) := by
  cases hnext : nextText rest with
  | some found =>
    obtain ⟨s, after⟩ := found
    obtain ⟨rfl, hlength⟩ := eq_of_nextText hnext
    rw [getWString, Stateful.bind_apply, reads_getString hlength before, Outcome.ok_bind]
    rfl
  | none =>
    have hstring : getString (cut before rest) = .throw .deserialization := by
      rw [getString, Stateful.bind_apply, get_cut]
      cases rest with
      | nil => rfl
      | cons len rest =>
        have hlong : ¬ (len :: rest).length < Wire.size UInt8 := Nat.not_lt.mpr (Nat.succ_pos _)
        have hshort : rest.length < len.toNat := by
          simp only [nextText] at hnext
          split at hnext
          · cases hnext
          · omega
        have hthrow : repeated (get UInt8) len.toNat (cut (before ++ [len]) rest) =
            .throw .deserialization := repeated_get_throws hshort
        rw [if_neg hlong, Outcome.ok_bind, Stateful.bind_apply]
        change (repeated (get UInt8) len.toNat (cut (before ++ [len]) rest) >>= _) = _
        rw [hthrow]
        rfl
    rw [getWString, Stateful.bind_apply, hstring]
    rfl

section Crashes

variable {α β : Type} [Wire α] {before rest : List UInt8}

theorem crashes_get_bind {f : α → Serializing β} :
    ((get α >>= f) (cut before rest)).Crashes ↔ Wire.size α ≤ rest.length ∧
      (f (Wire.ofBytes (rest.take (Wire.size α)))
        (cut (before ++ rest.take (Wire.size α)) (rest.drop (Wire.size α)))).Crashes := by
  rw [Stateful.bind_apply, get_cut]
  by_cases hshort : rest.length < Wire.size α
  · rw [if_pos hshort]
    simp [Nat.not_le.mpr hshort]
  · rw [if_neg hshort, Outcome.ok_bind]
    simp [Nat.not_lt.mp hshort]

/-- The decoder crashes on the text or behind it. -/
theorem crashes_getWString_bind {f : WString → Serializing β} :
    ((getWString >>= f) (cut before rest)).Crashes ↔ ∃ s after, nextText rest = some (s, after) ∧
      (Overreads s ∨ ∃ w, utf8ToWString s = .ok w ∧
        (f w (cut (before ++ stringBytes s) after)).Crashes) := by
  rw [Stateful.bind_apply, getWString_cut]
  cases hnext : nextText rest with
  | none => simp
  | some found =>
    obtain ⟨s, after⟩ := found
    have hover := utf8ToWString_crashes_iff s
    cases hs : utf8ToWString s with
    | ok w =>
      have hnot : ¬ Overreads s := by
        rw [← hover, hs]
        exact Outcome.crashes_ok w
      simp [Outcome.bind, hnot, hs]
    | throw e =>
      have hnot : ¬ Overreads s := by
        rw [← hover, hs]
        exact Outcome.crashes_throw e
      simp [Outcome.bind, hnot, hs]
    | crash fault =>
      have hyes : Overreads s := by
        rw [← hover, hs]
        exact Outcome.crashes_crash fault
      simp [Outcome.bind, hyes, hs]

/-- The same when nothing crashes behind the text. -/
theorem crashes_lastText {f : WString → Serializing β}
    (h : ∀ w before rest, ¬ (f w (cut before rest)).Crashes) :
    ((getWString >>= f) (cut before rest)).Crashes ↔ OverreadsIn (textsAt [0] rest).1 := by
  rw [crashes_getWString_bind]
  simp only [h, and_false, exists_false, or_false, textsAt, List.drop_zero]
  cases nextText rest with
  | none => simp [OverreadsIn]
  | some found =>
    obtain ⟨s, after⟩ := found
    simp [OverreadsIn]

/-- A text behind a number is where the gap of two bytes ends. -/
theorem crashes_word_bind {f : α → Serializing β} {gaps : List Nat} (hsize : Wire.size α = 2)
    (h : ∀ v before rest, (f v (cut before rest)).Crashes ↔
      OverreadsIn (textsAt (0 :: gaps) rest).1) :
    ((get α >>= f) (cut before rest)).Crashes ↔ OverreadsIn (textsAt (2 :: gaps) rest).1 := by
  rw [crashes_get_bind, h, hsize]
  simp only [textsAt, List.drop_zero]
  by_cases hshort : rest.length < 2
  · have hnil : rest.drop 2 = [] := List.drop_eq_nil_of_le (by omega)
    simp [hnil, nextText, OverreadsIn]
  · simp [Nat.not_lt.mp hshort]

end Crashes

section Classes

variable {before rest : List UInt8}

theorem description_crashes :
    (Description.deserializeSpecific (cut before rest)).Crashes ↔
      OverreadsIn (textFields .description rest) :=
  crashes_lastText fun _ =>
    (inverts_get.bind fun _ => inverts_get.bind fun _ => inverts_get.bind fun _ =>
      inverts_get.bind fun _ => inverts_get.bind fun _ => inverts_get.bind fun _ =>
        inverts_get.bindPure).not_crashes

theorem namedVariable_crashes :
    (NamedVariable.deserializeSpecific (cut before rest)).Crashes ↔
      OverreadsIn (textFields .namedVariableDescription rest) :=
  crashes_word_bind rfl fun _ _ _ => crashes_lastText fun _ => (Inverts.ret _).not_crashes

theorem nodeSpecificError_crashes :
    (NodeSpecificError.deserializeSpecific (cut before rest)).Crashes ↔
      OverreadsIn (textFields .nodeSpecificError rest) :=
  crashes_word_bind rfl fun _ _ _ => crashes_lastText fun _ => (Inverts.ret _).not_crashes

/-- A text that more texts follow. -/
theorem crashes_text_bind {β : Type} {f : WString → Serializing β}
    {T : List UInt8 → List (List UInt8)}
    (h : ∀ w before rest, (f w (cut before rest)).Crashes ↔ OverreadsIn (T rest)) :
    ((getWString >>= f) (cut before rest)).Crashes ↔
      OverreadsIn (match nextText rest with
        | none => []
        | some (s, after) => s :: T after) := by
  rw [crashes_getWString_bind]
  simp only [h]
  cases nextText rest with
  | none => simp [OverreadsIn]
  | some found =>
    obtain ⟨s, after⟩ := found
    simp [OverreadsIn]

theorem textsAt_cons (gaps : List Nat) (rest : List UInt8) :
    (textsAt (0 :: gaps) rest).1 = match nextText rest with
      | none => []
      | some (s, after) => s :: (textsAt gaps after).1 := by
  simp only [textsAt, List.drop_zero]
  cases nextText rest <;> rfl

theorem localEvent_crashes :
    (LocalEvent.deserializeSpecific (cut before rest)).Crashes ↔
      OverreadsIn (textFields .localEventDescription rest) := by
  rw [textFields, textsAt_cons]
  exact crashes_text_bind fun _ _ _ => crashes_lastText fun _ => (Inverts.ret _).not_crashes

theorem parameter_bind {β : Type} (f : NativeFunctionParameter → Serializing β) :
    (NativeFunctionParameter.deserializeSpecific >>= f) =
      get Int16 >>= fun size => getWString >>= fun name => f { name, size := size.toInt32 } := by
  simp only [NativeFunctionParameter.deserializeSpecific, bind_assoc, pure_bind]

theorem parameters_crashes (n : Nat) :
    (repeated NativeFunctionParameter.deserializeSpecific n (cut before rest)).Crashes ↔
      OverreadsIn (textsAt (List.replicate n 2) rest).1 := by
  induction n generalizing before rest with
  | zero => exact Iff.of_eq rfl
  | succ n ih =>
    rw [List.replicate_succ, repeated, parameter_bind]
    refine crashes_word_bind rfl fun size before rest => ?_
    rw [textsAt_cons]
    refine crashes_text_bind fun name before rest => ?_
    have hrest := @ih before rest
    rw [← hrest, Stateful.bind_apply, Outcome.crashes_bind]
    simp [Stateful.pure_apply]

/-- The texts of the parameters, which are counted before them. -/
def parameterTexts (rest : List UInt8) : List (List UInt8) :=
  (textsAt (List.replicate (wordOfBytes (rest.take 2)).toNat 2) (rest.drop 2)).1

theorem parameterTexts_of_short (h : rest.length < 2) : parameterTexts rest = [] := by
  have hcount : wordOfBytes (rest.take 2) = 0 := by
    match rest, h with
    | [], _ => rfl
    | [b], _ => rfl
  rw [parameterTexts, hcount]
  rfl

theorem textFields_nativeFunction (rest : List UInt8) :
    textFields .nativeFunctionDescription rest = match nextText rest with
      | none => []
      | some (s, after) => s :: match nextText after with
        | none => []
        | some (s', after') => s' :: parameterTexts after' := by
  have hnil : parameterTexts [] = [] := parameterTexts_of_short (Nat.succ_pos 1)
  change (textsAt [0, 0] rest).1 ++ parameterTexts (textsAt [0, 0] rest).2 = _
  simp only [textsAt, List.drop_zero]
  cases nextText rest with
  | none => simp [hnil]
  | some found =>
    obtain ⟨s, after⟩ := found
    cases hafter : nextText after with
    | none => simp [hafter, hnil]
    | some found' => simp [hafter]

theorem nativeFunction_crashes :
    (NativeFunction.deserializeSpecific (cut before rest)).Crashes ↔
      OverreadsIn (textFields .nativeFunctionDescription rest) := by
  rw [textFields_nativeFunction]
  refine crashes_text_bind (T := fun rest => match nextText rest with
    | none => []
    | some (s, after) => s :: parameterTexts after) fun name before rest => ?_
  refine crashes_text_bind fun description before rest => ?_
  rw [crashes_get_bind, Stateful.bind_apply, Outcome.crashes_bind, parameters_crashes]
  by_cases hshort : rest.length < 2
  · have hsize : Wire.size UInt16 = 2 := rfl
    simp [parameterTexts_of_short hshort, hsize, Nat.not_le.mpr hshort, OverreadsIn]
  · have hsize : Wire.size UInt16 = 2 := rfl
    simp [Stateful.pure_apply, hsize, Nat.not_lt.mp hshort]
    rfl

end Classes

end MessageTexts

end ThymioDeviceManager.Correctness
