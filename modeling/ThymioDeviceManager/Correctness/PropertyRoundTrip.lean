import Mathlib.Data.List.Forall2
import Mathlib.Data.List.TakeWhile
import ThymioDeviceManager.Manager.PropertyFlexbuffer

/-! # Properties that survive the wire

The reader asks for a vector before it asks for a map, and a map is a vector to the library: an
object comes back as the array of its values. A boolean comes back as an integer, which is what a
property makes of a `bool`. Everything else comes back as it was.
-/

namespace ThymioDeviceManager.Correctness

open Library Manager

/-! ## What the library is to do -/

/-- A value that a builder writes. -/
inductive FlexValue where
  | null
  | bool (value : Bool)
  | int (value : Int64)
  | double (bits : UInt64)
  | string (value : String)
  | vector (elements : List FlexValue)
  | map (members : List (String × FlexValue))

namespace FlexValue

mutual

/-- The calls that write a value. -/
def calls : FlexValue → List BuilderCall
  | .null => [.null]
  | .bool value => [.bool value]
  | .int value => [.int value]
  | .double bits => [.double bits]
  | .string value => [.string value]
  | .vector elements => .startVector :: (elementCalls elements ++ [.endVector false false])
  | .map members => .startMap :: (memberCalls members ++ [.endMap])

def elementCalls : List FlexValue → List BuilderCall
  | [] => []
  | v :: vs => v.calls ++ elementCalls vs

def memberCalls : List (String × FlexValue) → List BuilderCall
  | [] => []
  | m :: ms => .key m.1 :: (m.2.calls ++ memberCalls ms)

end

/-- The types that a reference tells of itself. -/
inductive Kind where
  | null
  | bool
  | int
  | double
  | string
  | vector
  | map
  deriving DecidableEq

def kind : FlexValue → Kind
  | .null => .null
  | .bool _ => .bool
  | .int _ => .int
  | .double _ => .double
  | .string _ => .string
  | .vector _ => .vector
  | .map _ => .map

end FlexValue

/-- The tests of a reference of a kind; a map is a vector too. -/
structure HasKind {Reference : Type} (lib : FlexBuffers Reference) (r : Reference)
    (kind : FlexValue.Kind) : Prop where
  isIntOrUint : lib.isIntOrUint r = (kind = .int : Bool)
  isFloat : lib.isFloat r = (kind = .double : Bool)
  isBool : lib.isBool r = (kind = .bool : Bool)
  isNull : lib.isNull r = (kind = .null : Bool)
  isString : lib.isString r = (kind = .string : Bool)
  isVector : lib.isVector r = (kind = .vector ∨ kind = .map : Bool)
  isMap : lib.isMap r = (kind = .map : Bool)

/-- The reference is one to the value. The members of a map are in an order of the library. -/
inductive Refers {Reference : Type} (lib : FlexBuffers Reference) : Reference → FlexValue → Prop
  | null {r : Reference} (h : HasKind lib r .null) : Refers lib r .null
  | bool {r : Reference} {value : Bool} (h : HasKind lib r .bool) (hvalue : lib.asBool r = value) :
      Refers lib r (.bool value)
  | int {r : Reference} {value : Int64} (h : HasKind lib r .int) (hvalue : lib.asInt r = value) :
      Refers lib r (.int value)
  | double {r : Reference} {bits : UInt64} (h : HasKind lib r .double)
      (hvalue : lib.asDouble r = bits) : Refers lib r (.double bits)
  | string {r : Reference} {value : String} (h : HasKind lib r .string)
      (hvalue : lib.asString r = value) : Refers lib r (.string value)
  | vector {r : Reference} {elements : List FlexValue} (h : HasKind lib r .vector)
      (helements : List.Forall₂ (Refers lib) (lib.asVector r) elements) :
      Refers lib r (.vector elements)
  | map {r : Reference} {members sorted : List (String × FlexValue)} (h : HasKind lib r .map)
      (hsorted : sorted.Perm members) (hkeys : lib.keys r = sorted.map fun m => some m.1)
      (hvalues : List.Forall₂ (Refers lib) (lib.asVector r) (sorted.map (·.2)))
      (hget : ∀ m ∈ members, Refers lib (lib.get r m.1) m.2) : Refers lib r (.map members)

/-- The keys of every map in the value are distinct and have no null character. -/
inductive FlexValue.Proper : FlexValue → Prop
  | null : Proper .null
  | bool (value : Bool) : Proper (.bool value)
  | int (value : Int64) : Proper (.int value)
  | double (bits : UInt64) : Proper (.double bits)
  | string (value : String) : Proper (.string value)
  | vector {elements : List FlexValue} (h : ∀ v ∈ elements, Proper v) : Proper (.vector elements)
  | map {members : List (String × FlexValue)} (hdistinct : (members.map (·.1)).Nodup)
      (hkeys : ∀ m ∈ members, '\x00' ∉ m.1.toList) (h : ∀ m ∈ members, Proper m.2) :
      Proper (.map members)

/-- What is written is read back. -/
def ReadsBack {Reference : Type} (lib : FlexBuffers Reference) : Prop :=
  ∀ v : FlexValue, v.Proper → Refers lib (lib.root (v.calls ++ [.finish])) v

/-! ## What is written of a property -/

mutual

def writtenOf : Property → FlexValue
  | .null => .null
  | .boolean e => .bool e
  | .integral e => .int e
  | .floating e => .double e
  | .string e => .string e
  | .array e => .vector (writtenElements e)
  | .object e => .map (writtenMembers e)

def writtenElements : List Property → List FlexValue
  | [] => []
  | v :: e => writtenOf v :: writtenElements e

def writtenMembers : List (String × Property) → List (String × FlexValue)
  | [] => []
  | v :: e => (v.1, writtenOf v.2) :: writtenMembers e

end

mutual

theorem serialize_eq_calls : ∀ p, serializeToFlexbuffer p = (writtenOf p).calls
  | .null => rfl
  | .boolean _ => rfl
  | .integral _ => rfl
  | .floating _ => rfl
  | .string _ => rfl
  | .array e => by
    rw [serializeToFlexbuffer, writtenOf, FlexValue.calls, serializeElements_eq e]
  | .object e => by
    rw [serializeToFlexbuffer, writtenOf, FlexValue.calls, serializeMembers_eq e]

theorem serializeElements_eq : ∀ e, serializeElements e = FlexValue.elementCalls (writtenElements e)
  | [] => rfl
  | v :: e => by
    rw [serializeElements, writtenElements, FlexValue.elementCalls, serialize_eq_calls v,
      serializeElements_eq e]

theorem serializeMembers_eq : ∀ e, serializeMembers e = FlexValue.memberCalls (writtenMembers e)
  | [] => rfl
  | v :: e => by
    rw [serializeMembers, writtenMembers, FlexValue.memberCalls, serialize_eq_calls v.2,
      serializeMembers_eq e]

end

theorem writtenElements_eq (e : List Property) : writtenElements e = e.map writtenOf := by
  induction e with
  | nil => rfl
  | cons v e ih => rw [writtenElements, ih, List.map_cons]

theorem writtenMembers_eq (e : List (String × Property)) :
    writtenMembers e = e.map fun v => (v.1, writtenOf v.2) := by
  induction e with
  | nil => rfl
  | cons v e ih => rw [writtenMembers, ih, List.map_cons]

/-- No string in the property has a null character; the keys of an object are distinct. -/
inductive NoNul : Property → Prop
  | null : NoNul .null
  | boolean (value : Bool) : NoNul (.boolean value)
  | integral (value : Int64) : NoNul (.integral value)
  | floating (bits : UInt64) : NoNul (.floating bits)
  | string {value : String} (h : '\x00' ∉ value.toList) : NoNul (.string value)
  | array {elements : List Property} (h : ∀ p ∈ elements, NoNul p) : NoNul (.array elements)
  | object {members : List (String × Property)} (hdistinct : (members.map (·.1)).Nodup)
      (hkeys : ∀ m ∈ members, '\x00' ∉ m.1.toList) (h : ∀ m ∈ members, NoNul m.2) :
      NoNul (.object members)

theorem NoNul.proper {p : Property} (h : NoNul p) : (writtenOf p).Proper := by
  induction h with
  | null => exact .null
  | boolean value => exact .bool value
  | integral value => exact .int value
  | floating bits => exact .double bits
  | string _ => exact .string _
  | array _ ih =>
    rw [writtenOf, writtenElements_eq]
    refine .vector ?_
    rintro v hv
    obtain ⟨p, hp, rfl⟩ := List.mem_map.1 hv
    exact ih p hp
  | object hdistinct hkeys _ ih =>
    rw [writtenOf, writtenMembers_eq]
    refine .map ?_ ?_ ?_
    · simpa [List.map_map, Function.comp_def] using hdistinct
    · rintro m hm
      obtain ⟨v, hv, rfl⟩ := List.mem_map.1 hm
      exact hkeys v hv
    · rintro m hm
      obtain ⟨v, hv, rfl⟩ := List.mem_map.1 hm
      exact ih v hv

/-! ## Reading -/

/-- No object and no boolean is in the property. -/
inductive Plain : Property → Prop
  | null : Plain .null
  | integral (value : Int64) : Plain (.integral value)
  | floating (bits : UInt64) : Plain (.floating bits)
  | string (value : String) : Plain (.string value)
  | array {elements : List Property} (h : ∀ p ∈ elements, Plain p) : Plain (.array elements)

theorem cStr_eq {s : String} (h : '\x00' ∉ s.toList) : cStr s = s := by
  have hall : s.toList.takeWhile (· ≠ '\x00') = s.toList := by
    rw [List.takeWhile_eq_self_iff]
    intro c hc
    have hne : c ≠ '\x00' := fun he => h (he ▸ hc)
    simpa using hne
  rw [cStr, hall, String.ofList_toList]

section

variable {Reference : Type} {read : Reference → Option (Except FlexbufferError Property)}

/-- The loop gives the properties that the elements give, one after the other. -/
theorem readElements_eq_ok {rs : List Reference} {ps : List Property} :
    readElements read rs = some (.ok ps) ↔
      List.Forall₂ (fun r p => read r = some (.ok p)) rs ps := by
  induction rs generalizing ps with
  | nil =>
    rw [readElements, List.forall₂_nil_left_iff]
    simp [eq_comm]
  | cons r rs ih =>
    rw [List.forall₂_cons_left_iff]
    cases hr : read r with
    | none => simp [readElements, hr]
    | some result =>
      cases result with
      | error e => simp [readElements, hr]
      | ok p =>
        simp only [readElements, hr, Option.map_eq_some_iff]
        constructor
        · rintro ⟨rest, hrest, hmap⟩
          cases rest with
          | error e => cases hmap
          | ok qs =>
            obtain rfl : p :: qs = ps := by simpa [Except.map] using hmap
            exact ⟨p, qs, rfl, ih.1 hrest, rfl⟩
        · rintro ⟨q, qs, hq, hqs, rfl⟩
          obtain rfl : p = q := by simpa using hq
          exact ⟨.ok qs, ih.2 hqs, rfl⟩

end

theorem exists_of_forall₂ {α β : Type} {R S : α → β → Prop} {as : List α} {bs : List β}
    (hR : List.Forall₂ R as bs) (hS : List.Forall₂ S as bs) {b : β} (hb : b ∈ bs) :
    ∃ a, R a b ∧ S a b := by
  induction hR with
  | nil => cases hb
  | cons hr _ ih =>
    cases hS with | cons hs hS =>
    cases hb with
    | head => exact ⟨_, hr, hs⟩
    | tail _ hb => exact ih hS hb

section

variable {Reference : Type} {lib : FlexBuffers Reference}

theorem forall₂_written {rs : List Reference} {e : List Property}
    (h : List.Forall₂ (Refers lib) rs (writtenElements e)) :
    List.Forall₂ (fun r p => Refers lib r (writtenOf p)) rs e := by
  rwa [writtenElements_eq, List.forall₂_map_right_iff] at h

/-- The elements have one bound on the nesting. -/
theorem read_all {rs : List Reference} {e : List Property}
    (h : ∀ p ∈ e, ∀ r, Refers lib r (writtenOf p) →
      ∃ least, ∀ depth, least ≤ depth → flexbufferToProperty lib depth r = some (.ok p))
    (hrefers : List.Forall₂ (fun r p => Refers lib r (writtenOf p)) rs e) :
    ∃ least, ∀ depth, least ≤ depth →
      List.Forall₂ (fun r p => flexbufferToProperty lib depth r = some (.ok p)) rs e := by
  induction hrefers with
  | nil => exact ⟨0, fun _ _ => .nil⟩
  | @cons r p rs e hr _ ih =>
    obtain ⟨first, hfirst⟩ := h p (List.mem_cons_self ..) r hr
    obtain ⟨rest, hrest⟩ := ih fun q hq => h q (List.mem_cons_of_mem _ hq)
    refine ⟨max first rest, fun depth hdepth => .cons (hfirst depth ?_) (hrest depth ?_)⟩
    · exact (Nat.le_max_left ..).trans hdepth
    · exact (Nat.le_max_right ..).trans hdepth

/-- The branch that reads a reference of a kind: a map is read as a vector. -/
def readKind (lib : FlexBuffers Reference) (depth : Nat) (r : Reference) :
    FlexValue.Kind → Option (Except FlexbufferError Property)
  | .null => some (.ok .null)
  | .bool => some (.ok (.ofBool (lib.asBool r)))
  | .int => some (.ok (.integral (lib.asInt r)))
  | .double => some (.ok (.floating (lib.asDouble r)))
  | .string => some (.ok (.string (cStr (lib.asString r))))
  | .vector | .map =>
    (readElements (flexbufferToProperty lib depth) (lib.asVector r)).map (·.map .array)

/-- The chain of the type tests comes to the branch of the kind. -/
theorem flexbufferToProperty_of_kind {r : Reference} {kind : FlexValue.Kind}
    (h : HasKind lib r kind) (depth : Nat) :
    flexbufferToProperty lib (depth + 1) r = readKind lib depth r kind := by
  rw [flexbufferToProperty, h.isIntOrUint, h.isFloat, h.isBool, h.isNull, h.isString, h.isVector]
  cases kind <;> rfl

/-- A branch that needs no more nesting is the one of all depths. -/
theorem read_of_kind {r : Reference} {kind : FlexValue.Kind} {p : Property} (h : HasKind lib r kind)
    {least : Nat} (hread : ∀ depth, least ≤ depth → readKind lib depth r kind = some (.ok p)) :
    ∃ least, ∀ depth, least ≤ depth → flexbufferToProperty lib depth r = some (.ok p) := by
  refine ⟨least + 1, fun depth hdepth => ?_⟩
  obtain ⟨d, rfl⟩ : ∃ d, depth = d + 1 := ⟨depth - 1, by omega⟩
  rw [flexbufferToProperty_of_kind h]
  exact hread d (by omega)

/-- Enough nesting reads a plain property back. -/
theorem Plain.read {p : Property} (h : Plain p) (hnul : NoNul p) :
    ∀ r, Refers lib r (writtenOf p) →
      ∃ least, ∀ depth, least ≤ depth → flexbufferToProperty lib depth r = some (.ok p) := by
  induction h with
  | null =>
    intro r hrefers
    cases hrefers with | null hk =>
    exact read_of_kind hk fun depth (_ : 0 ≤ depth) => rfl
  | integral value =>
    intro r hrefers
    cases hrefers with | int hk hvalue =>
    refine read_of_kind hk fun depth (_ : 0 ≤ depth) => ?_
    rw [readKind, hvalue]
  | floating bits =>
    intro r hrefers
    cases hrefers with | double hk hvalue =>
    refine read_of_kind hk fun depth (_ : 0 ≤ depth) => ?_
    rw [readKind, hvalue]
  | string value =>
    intro r hrefers
    cases hrefers with | string hk hvalue =>
    cases hnul with | string hnul =>
    refine read_of_kind hk fun depth (_ : 0 ≤ depth) => ?_
    rw [readKind, hvalue, cStr_eq hnul]
  | array _ ih =>
    intro r hrefers
    cases hrefers with | vector hk helements =>
    cases hnul with | array hnul =>
    obtain ⟨least, hleast⟩ := read_all (fun p hp r => ih p hp (hnul p hp) r)
      (forall₂_written helements)
    refine read_of_kind hk fun depth (hdepth : least ≤ depth) => ?_
    rw [readKind, readElements_eq_ok.2 (hleast depth hdepth)]
    rfl

/-- An array is read of its elements alone. -/
theorem elements_of_array {elements : List Property}
    {read : Option (Except FlexbufferError (List Property))}
    (h : read.map (·.map Property.array) = some (.ok (.array elements))) :
    read = some (.ok elements) := by
  obtain ⟨result, rfl, hmap⟩ := Option.map_eq_some_iff.1 h
  cases result with
  | error e => cases hmap
  | ok ps =>
    cases hmap
    rfl

/-- What comes back as it was is plain. -/
theorem plain_of_read {depth : Nat} {r : Reference} {p : Property}
    (hrefers : Refers lib r (writtenOf p))
    (h : flexbufferToProperty lib depth r = some (.ok p)) : Plain p := by
  induction depth generalizing r p with
  | zero => cases h
  | succ depth ih =>
    cases p with
    | null => exact .null
    | integral value => exact .integral value
    | floating bits => exact .floating bits
    | string value => exact .string value
    | boolean value =>
      -- the integer of the boolean is what comes back
      cases hrefers with | bool hk _ =>
      rw [flexbufferToProperty_of_kind hk] at h
      cases h
    | object members =>
      -- the reference is one to a vector too
      cases hrefers with | map hk _ _ _ _ =>
      rw [flexbufferToProperty_of_kind hk, readKind, Option.map_eq_some_iff] at h
      obtain ⟨result, -, hmap⟩ := h
      cases result with
      | error e => cases hmap
      | ok ps => cases hmap
    | array elements =>
      cases hrefers with | vector hk helements =>
      rw [flexbufferToProperty_of_kind hk] at h
      refine .array fun p hp => ?_
      obtain ⟨r, hr, hread⟩ := exists_of_forall₂ (forall₂_written helements)
        (readElements_eq_ok.1 (elements_of_array h)) hp
      exact ih hr hread

theorem ReadsBack.refers (hlib : ReadsBack lib) {p : Property} (hp : NoNul p) :
    Refers lib (lib.root (propertyToFlexbuffer p)) (writtenOf p) := by
  rw [propertyToFlexbuffer, serialize_eq_calls]
  exact hlib _ hp.proper

end

/-- A property is read back from what is written of it when it is plain, and only then: an object
comes back as the array of its values, a boolean as an integer. -/
theorem property_read_back_iff {Reference : Type} (lib : FlexBuffers Reference)
    (hlib : ReadsBack lib) (p : Property) (hp : NoNul p) :
    (∃ depth, flexbufferToProperty lib depth (lib.root (propertyToFlexbuffer p)) = some (.ok p)) ↔
      Plain p := by
  constructor
  · rintro ⟨depth, h⟩
    exact plain_of_read (hlib.refers hp) h
  · intro h
    obtain ⟨least, hleast⟩ := h.read hp _ (hlib.refers hp)
    exact ⟨least, hleast least (Nat.le_refl _)⟩

/-! ## A library -/

/-- A vector or a map that is open: what is in it, and the key of what comes next. -/
structure OpenValue where
  members : List (String × FlexValue)
  name : String

/-- A value goes into the innermost open one. -/
def OpenValue.put (v : FlexValue) (o : OpenValue) : OpenValue :=
  { o with members := o.members ++ [(o.name, v)] }

def build : List OpenValue → BuilderCall → List OpenValue
  | o :: s, .null => o.put .null :: s
  | o :: s, .bool value => o.put (.bool value) :: s
  | o :: s, .int value => o.put (.int value) :: s
  | o :: s, .double bits => o.put (.double bits) :: s
  | o :: s, .string value => o.put (.string value) :: s
  | o :: s, .startVector => { members := [], name := "" } :: o :: s
  | v :: o :: s, .endVector _ _ => o.put (.vector (v.members.map (·.2))) :: s
  | o :: s, .startMap => { members := [], name := "" } :: o :: s
  | o :: s, .key name => { o with name := name } :: s
  | v :: o :: s, .endMap => o.put (.map v.members) :: s
  | s, _ => s

/-- The last value that the calls write at the root. -/
def built (calls : List BuilderCall) : FlexValue :=
  ((calls.foldl build [{ members := [], name := "" }]).head?.bind
    fun o => o.members.getLast?.map (·.2)).getD .null

mutual

theorem foldl_calls (v : FlexValue) (o : OpenValue) (s : List OpenValue) :
    v.calls.foldl build (o :: s) = o.put v :: s := by
  cases v with
  | null => rfl
  | bool value => rfl
  | int value => rfl
  | double bits => rfl
  | string value => rfl
  | vector elements =>
    rw [FlexValue.calls, List.foldl_cons, List.foldl_append, build, foldl_elementCalls elements]
    simp [build, List.map_map, Function.comp_def]
  | map members =>
    obtain ⟨name, h⟩ := foldl_memberCalls members { members := [], name := "" } (o :: s)
    rw [FlexValue.calls, List.foldl_cons, List.foldl_append, build, h]
    simp [build]

theorem foldl_elementCalls (vs : List FlexValue) (o : OpenValue) (s : List OpenValue) :
    (FlexValue.elementCalls vs).foldl build (o :: s) =
      { o with members := o.members ++ vs.map fun v => (o.name, v) } :: s := by
  cases vs with
  | nil => simp [FlexValue.elementCalls]
  | cons v vs =>
    rw [FlexValue.elementCalls, List.foldl_append, foldl_calls v, foldl_elementCalls vs]
    simp [OpenValue.put]

theorem foldl_memberCalls (ms : List (String × FlexValue)) (o : OpenValue) (s : List OpenValue) :
    ∃ name, (FlexValue.memberCalls ms).foldl build (o :: s) =
      { members := o.members ++ ms, name := name } :: s := by
  cases ms with
  | nil => exact ⟨o.name, by simp [FlexValue.memberCalls]⟩
  | cons m ms =>
    obtain ⟨name, h⟩ := foldl_memberCalls ms
      (({ o with name := m.1 } : OpenValue).put m.2) s
    refine ⟨name, ?_⟩
    rw [FlexValue.memberCalls, List.foldl_cons, List.foldl_append, build, foldl_calls m.2, h]
    simp [OpenValue.put]

end

theorem built_calls (v : FlexValue) : built (v.calls ++ [.finish]) = v := by
  rw [built, List.foldl_append, foldl_calls]
  rfl

/-- References are the values themselves. -/
def valuesLibrary : FlexBuffers FlexValue where
  root := built
  isIntOrUint v := v.kind = .int
  isFloat v := v.kind = .double
  isBool v := v.kind = .bool
  isNull v := v.kind = .null
  isString v := v.kind = .string
  isVector v := v.kind = .vector ∨ v.kind = .map
  isMap v := v.kind = .map
  asInt
    | .int value => value
    | _ => 0
  asDouble
    | .double bits => bits
    | _ => 0
  asBool
    | .bool value => value
    | _ => false
  asString
    | .string value => value
    | _ => ""
  asVector
    | .vector elements => elements
    | .map members => members.map (·.2)
    | _ => []
  keys
    | .map members => members.map fun m => some m.1
    | _ => []
  get
    | .map members => fun k => ((members.find? (·.1 = k)).map (·.2)).getD .null
    | _ => fun _ => .null

theorem find?_member {members : List (String × FlexValue)} (h : (members.map (·.1)).Nodup)
    {m : String × FlexValue} (hm : m ∈ members) : members.find? (·.1 = m.1) = some m := by
  induction members with
  | nil => cases hm
  | cons x members ih =>
    rw [List.map_cons, List.nodup_cons] at h
    cases hm with
    | head => simp
    | tail _ hm =>
      have hne : x.1 ≠ m.1 := fun he => h.1 (he ▸ List.mem_map_of_mem hm)
      rw [List.find?_cons_of_neg (by simpa using hne)]
      exact ih h.2 hm

theorem hasKind_valuesLibrary (v : FlexValue) : HasKind valuesLibrary v v.kind := by
  constructor <;> rfl

theorem refers_self {v : FlexValue} (h : v.Proper) : Refers valuesLibrary v v := by
  induction h with
  | null => exact .null (hasKind_valuesLibrary _)
  | bool value => exact .bool (hasKind_valuesLibrary _) rfl
  | int value => exact .int (hasKind_valuesLibrary _) rfl
  | double bits => exact .double (hasKind_valuesLibrary _) rfl
  | string value => exact .string (hasKind_valuesLibrary _) rfl
  | vector _ ih =>
    refine .vector (hasKind_valuesLibrary _) ?_
    exact List.forall₂_same.2 ih
  | @map members hdistinct _ _ ih =>
    refine .map (hasKind_valuesLibrary _) (List.Perm.refl members) rfl ?_ ?_
    · refine List.forall₂_same.2 fun v hv => ?_
      obtain ⟨m, hm, rfl⟩ := List.mem_map.1 hv
      exact ih m hm
    · intro m hm
      have hget : valuesLibrary.get (.map members) m.1 = m.2 := by
        simp [valuesLibrary, find?_member hdistinct hm]
      rw [hget]
      exact ih m hm

theorem readsBack_valuesLibrary : ReadsBack valuesLibrary := by
  intro v hv
  have hroot : valuesLibrary.root (v.calls ++ [.finish]) = v := built_calls v
  rw [hroot]
  exact refers_self hv

theorem nestedArray_read_back :
    NoNul (.array [.integral 1, .array [.null]]) ∧
      ∃ depth, flexbufferToProperty valuesLibrary depth
        (valuesLibrary.root (propertyToFlexbuffer (.array [.integral 1, .array [.null]]))) =
          some (.ok (.array [.integral 1, .array [.null]])) := by
  have hnul : NoNul (.array [.integral 1, .array [.null]]) := by
    refine .array ?_
    simp only [List.mem_cons, List.not_mem_nil, or_false]
    rintro p (rfl | rfl)
    · exact .integral 1
    · refine .array ?_
      simp only [List.mem_cons, List.not_mem_nil, or_false]
      rintro p rfl
      exact .null
  refine ⟨hnul, (property_read_back_iff valuesLibrary readsBack_valuesLibrary _ hnul).2 ?_⟩
  refine .array ?_
  simp only [List.mem_cons, List.not_mem_nil, or_false]
  rintro p (rfl | rfl)
  · exact .integral 1
  · refine .array ?_
    simp only [List.mem_cons, List.not_mem_nil, or_false]
    rintro p rfl
    exact .null

/-- `{"a": 1}` comes back as `[1]`. -/
theorem object_not_read_back :
    flexbufferToProperty valuesLibrary 2
        (valuesLibrary.root (propertyToFlexbuffer (.object [("a", .integral 1)]))) =
      some (.ok (.array [.integral 1])) ∧
      ¬ ∀ (Reference : Type) (lib : FlexBuffers Reference), ReadsBack lib → ∀ p, NoNul p →
        ∃ depth, flexbufferToProperty lib depth (lib.root (propertyToFlexbuffer p)) =
          some (.ok p) := by
  refine ⟨rfl, fun h => ?_⟩
  have hnul : NoNul (.object [("a", .integral 1)]) := by
    refine .object (by simp) ?_ ?_
    · simp only [List.mem_cons, List.not_mem_nil, or_false]
      rintro m rfl
      decide
    · simp only [List.mem_cons, List.not_mem_nil, or_false]
      rintro m rfl
      exact .integral 1
  obtain ⟨depth, hread⟩ := h FlexValue valuesLibrary readsBack_valuesLibrary _ hnul
  cases plain_of_read (readsBack_valuesLibrary.refers hnul) hread

end ThymioDeviceManager.Correctness
