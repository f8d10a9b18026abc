import ThymioDeviceManager.Protocol.Message
import ThymioDeviceManager.Correctness.Text

/-! # Messages and their bytes

What the functions of the serialization buffer write and read, and from it what the
classes of messages do.
-/

namespace ThymioDeviceManager.Correctness

open Protocol Library Codec Text

namespace MessageCodec

variable {α : Type} [Wire α] {after : List UInt8}

/-! ## The buffer -/

theorem writes_add (v : α) : Writes (add v) (Wire.toBytes v) := fun _ => rfl

theorem writes_add_eq {v w : α} (h : v = w) : Writes (add v) (Wire.toBytes w) := by
  rw [h]
  exact writes_add w

theorem get_cut (before rest : List UInt8) :
    get α (cut before rest) =
      if rest.length < Wire.size α then .throw .deserialization
      else .ok (Wire.ofBytes (rest.take (Wire.size α)),
        cut (before ++ rest.take (Wire.size α)) (rest.drop (Wire.size α))) := by
  unfold Protocol.get
  by_cases hshort : rest.length < Wire.size α
  · have hthrow : (cut before rest).rawData.length < (cut before rest).readPos + Wire.size α := by
      simp only [cut, List.length_append]
      omega
    rw [if_pos hthrow, if_pos hshort]
  · have hlong : ¬ (cut before rest).rawData.length < (cut before rest).readPos + Wire.size α := by
      simp only [cut, List.length_append]
      omega
    have hcopy : copyBytes (cut before rest).rawData (cut before rest).readPos (Wire.size α) =
        .ok (rest.take (Wire.size α)) := by
      rw [copyBytes, if_pos (Nat.not_lt.mp hlong)]
      simp [cut]
    rw [if_neg hlong, if_neg hshort, hcopy, Outcome.ok_bind]
    simp only [cut, List.append_assoc, List.take_append_drop, List.length_append, List.length_take]
    rw [Nat.min_eq_left (Nat.not_lt.mp hshort)]
    rfl

theorem reads_get (v : α) : Reads (get α) (Wire.toBytes v) after v := by
  intro before
  have hlength := Wire.length_toBytes v
  have hlong : ¬ (Wire.toBytes v ++ after).length < Wire.size α := by
    rw [List.length_append]
    omega
  rw [get_cut, if_neg hlong, List.take_left' hlength, List.drop_left' hlength,
    Wire.ofBytes_toBytes]

theorem inverts_get : Inverts False (get α) fun v bytes => bytes = Wire.toBytes v := by
  rintro before rest s rfl
  rw [get_cut]
  by_cases hshort : rest.length < Wire.size α
  · rw [if_pos hshort]
    trivial
  · rw [if_neg hshort]
    have hlength : (rest.take (Wire.size α)).length = Wire.size α := by
      rw [List.length_take]
      omega
    exact ⟨_, _, (List.take_append_drop _ _).symm, rfl, (Wire.toBytes_ofBytes _ hlength).symm⟩

theorem writes_addAll (l : List α) : Writes (l.forM add) (l.flatMap Wire.toBytes) :=
  Writes.forM fun v _ => writes_add v

theorem reads_getAll {n : Nat} (l : { l : List α // l.length = n }) :
    Reads (repeated (get α) n) (l.val.flatMap Wire.toBytes) after l :=
  Reads.repeated l fun v _ _ => reads_get v

theorem length_flatMap_toBytes (l : List α) :
    (l.flatMap Wire.toBytes).length = Wire.size α * l.length := by
  induction l with
  | nil => rfl
  | cons v l ih =>
    rw [List.flatMap_cons, List.length_append, ih, Wire.length_toBytes, List.length_cons,
      Nat.mul_succ]
    omega

theorem inverts_getAll (n : Nat) :
    Inverts False (repeated (get α) n) fun l bytes => bytes = l.val.flatMap Wire.toBytes :=
  inverts_get.repeated.mono fun _ _ h => h.eq_flatMap

/-- Enough bytes are those of some values. -/
theorem exists_values (n : Nat) {rest : List UInt8} (h : Wire.size α * n ≤ rest.length) :
    ∃ (l : { l : List α // l.length = n }) (more : List UInt8),
      rest = l.val.flatMap Wire.toBytes ++ more := by
  induction n generalizing rest with
  | zero => exact ⟨⟨[], rfl⟩, rest, rfl⟩
  | succ n ih =>
    rw [Nat.mul_succ] at h
    have hlength : (rest.take (Wire.size α)).length = Wire.size α := by
      rw [List.length_take]
      omega
    have hdrop : Wire.size α * n ≤ (rest.drop (Wire.size α)).length := by
      rw [List.length_drop]
      omega
    obtain ⟨l, more, hmore⟩ := ih hdrop
    refine ⟨⟨Wire.ofBytes (rest.take (Wire.size α)) :: l.val, by simp [l.property]⟩, more, ?_⟩
    rw [List.flatMap_cons, Wire.toBytes_ofBytes _ hlength, List.append_assoc, ← hmore,
      List.take_append_drop]

theorem reads_wordsLeft : Reads wordsLeft [] after (after.length / 2) := by
  intro before
  simp [wordsLeft, cut]

theorem inverts_wordsLeft : Inverts False wordsLeft fun _ bytes => bytes = [] := by
  rintro before rest s rfl
  exact ⟨[], rest, rfl, by rw [List.append_nil], rfl⟩

/-! ## Strings -/

/-- A string with its length before it. -/
def stringBytes (s : List UInt8) : List UInt8 := UInt8.ofNat s.length :: s

theorem flatMap_toBytes (s : List UInt8) : s.flatMap Wire.toBytes = s := by
  change s.flatMap (fun v => [v]) = s
  rw [List.flatMap_singleton']

theorem writes_addString {s : List UInt8} (h : s.length ≤ 255) :
    Writes (addString s) (stringBytes s) := by
  have hall := writes_addAll s
  rw [flatMap_toBytes] at hall
  rw [addString, if_neg (by omega)]
  exact (writes_add _).seq hall

theorem reads_getString {s : List UInt8} (h : s.length ≤ 255) :
    Reads getString (stringBytes s) after s := by
  have hall : Reads (repeated (get UInt8) s.length) s after ⟨s, rfl⟩ := by
    have hall : Reads (repeated (get UInt8) s.length) (s.flatMap Wire.toBytes) after ⟨s, rfl⟩ :=
      reads_getAll ⟨s, rfl⟩
    rwa [flatMap_toBytes] at hall
  have hlength : (UInt8.ofNat s.length).toNat = s.length := by
    simp
    omega
  change Reads getString (Wire.toBytes (UInt8.ofNat s.length) ++ s) after s
  refine (reads_get (UInt8.ofNat s.length)).bind ?_
  rw [hlength]
  exact hall.bindPure

theorem inverts_getString :
    Inverts False getString fun s bytes => bytes = stringBytes s ∧ s.length ≤ 255 := by
  refine (inverts_get.bind fun len : UInt8 => (inverts_getAll len.toNat).bindPure).mono ?_
  rintro s bytes ⟨len, bytes₁, bytes₂, rfl, rfl, l, rfl, rfl⟩
  have hlen := len.toNat_lt
  refine ⟨?_, ?_⟩
  · rw [stringBytes, l.property, flatMap_toBytes, UInt8.ofNat_toNat]
    rfl
  · rw [l.property]
    omega

theorem reads_getWString {s : WString} (hs : Convertible s)
    (h : (wStringToUTF8 s).length ≤ 255) :
    Reads getWString (stringBytes (wStringToUTF8 s)) after s := by
  have hlift : Reads (liftM (utf8ToWString (wStringToUTF8 s)) : Serializing WString) [] after s := by
    intro before
    rw [utf8ToWString_wStringToUTF8 hs, Stateful.lift_ok, List.append_nil]
    rfl
  have hread := Reads.bind (f := fun s => (liftM (utf8ToWString s) : Serializing WString))
    (by simpa using reads_getString h) hlift
  rwa [List.append_nil] at hread

/-- What is left of `getWString` once the string has been read may read behind it. -/
theorem inverts_getWString :
    Inverts True getWString fun w bytes =>
      ∃ s, bytes = stringBytes s ∧ s.length ≤ 255 ∧ utf8ToWString s = .ok w := by
  have hlift : ∀ s : List UInt8, Inverts True (liftM (utf8ToWString s) : Serializing WString)
      fun w bytes => utf8ToWString s = .ok w ∧ bytes = [] := by
    rintro s before rest s' rfl
    cases hs : utf8ToWString s with
    | ok w => exact ⟨[], rest, rfl, by rw [List.append_nil], rfl, rfl⟩
    | throw e => trivial
    | crash f => trivial
  refine ((inverts_getString.crash False.elim).bind hlift).mono ?_
  rintro w bytes ⟨s, bytes₁, bytes₂, rfl, ⟨rfl, hlength⟩, hw, rfl⟩
  exact ⟨s, by rw [List.append_nil], hlength, hw⟩

/-! ## Creation -/

/-- A message is made of what has been read, if nothing is left. -/
theorem create_of_ok {source type : UInt16} {buffer s : SerializationBuffer}
    {content : (createMessage type).Content}
    (h : (createMessage type).deserializeSpecific buffer = .ok (content, s)) :
    Message.create source type buffer =
      if s.readPos ≠ s.rawData.length then .ok none
      else .ok (some { source, type, content }) := by
  rw [Message.create, h]

end MessageCodec

end ThymioDeviceManager.Correctness
