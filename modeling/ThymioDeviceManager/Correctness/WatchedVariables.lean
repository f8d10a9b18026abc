import ThymioDeviceManager.Correctness.ChangeNotifications
import ThymioDeviceManager.Library.Transition
import ThymioDeviceManager.Manager.Watching

/-! # Watching applications know the variables

However the messages of the device, new programs, requests to watch and the
deferred handlers of the endpoints follow each other: once its handlers have run, an
application that watches a node knows the value of every variable that the node
knows, unless one message changed a variable twice.
-/

namespace ThymioDeviceManager.Correctness

open Compiler Manager Library Transition

/-! ## What a node knows -/

/-- No two variables have one name. -/
def NamesApart (known : List AsebaVmVariable) : Prop := (known.map AsebaVmVariable.name).Nodup

/-- The value of the variable with this name, if the device has sent one. -/
def knownValue (known : List AsebaVmVariable) (name : List UInt8) : Option Property :=
  (known.find? fun v => v.name = name && v.value != []).map fun v => asebaVariableFromRange v.value

section Known

variable {known : List AsebaVmVariable} {name : List UInt8}

theorem knownValue_eq_some {p : Property} (h : knownValue known name = some p) :
    ∃ v ∈ known, v.name = name ∧ v.value ≠ [] ∧ p = asebaVariableFromRange v.value := by
  obtain ⟨v, hv, rfl⟩ := Option.map_eq_some_iff.mp h
  have hfound := List.find?_some hv
  simp only [Bool.and_eq_true, decide_eq_true_eq, bne_iff_ne] at hfound
  exact ⟨v, List.mem_of_find?_eq_some hv, hfound.1, hfound.2, rfl⟩

theorem eq_of_name_eq (hnames : NamesApart known) {v w : AsebaVmVariable} (hv : v ∈ known)
    (hw : w ∈ known) (h : v.name = w.name) : v = w :=
  List.inj_on_of_nodup_map hnames hv hw h

theorem knownValue_of_mem (hnames : NamesApart known) {v : AsebaVmVariable} (hv : v ∈ known)
    (hvalue : v.value ≠ []) : knownValue known v.name = some (asebaVariableFromRange v.value) := by
  cases hfind : known.find? fun w => w.name = v.name && w.value != [] with
  | none =>
    rw [List.find?_eq_none] at hfind
    have hnot := hfind v hv
    simp [hvalue] at hnot
  | some w =>
    have hfound := List.find?_some hfind
    simp only [Bool.and_eq_true, decide_eq_true_eq] at hfound
    have hsame := eq_of_name_eq hnames (List.mem_of_find?_eq_some hfind) hv hfound.1
    rw [knownValue, hfind, hsame]
    rfl

/-- A map of all variables has each of them with its value. -/
theorem get?_variablesMap (hnames : NamesApart known) (value : AsebaVmVariable → Property)
    {v : AsebaVmVariable} (hv : v ∈ known) :
    (variablesMap value known).get? v.name = some (value v) := by
  rw [variablesMap, Table.get?_foldl_insert]
  cases hfind : known.find? fun w => w.name = v.name with
  | none =>
    rw [List.find?_eq_none] at hfind
    have hnot := hfind v hv
    simp at hnot
  | some w =>
    have hname : w.name = v.name := by simpa using List.find?_some hfind
    rw [eq_of_name_eq hnames (List.mem_of_find?_eq_some hfind) hv hname]
    rfl

theorem get?_variablesMap_of_forall_ne (value : AsebaVmVariable → Property)
    (h : ∀ v ∈ known, v.name ≠ name) : (variablesMap value known).get? name = none := by
  rw [variablesMap, Table.get?_foldl_insert]
  have hnone : (known.find? fun w => w.name = name) = none := by
    rw [List.find?_eq_none]
    intro v hv
    simpa using h v hv
  rw [hnone]
  rfl

end Known

/-! ## Messages of the device -/

section Messages

variable {known : List AsebaVmVariable}

theorem map_slot_foldl_afterArea (known : List AsebaVmVariable) (areas : List Protocol.Area) :
    (areas.foldl afterArea known).map slot = known.map slot := by
  rw [← setAreas_fst areas {}]
  exact map_slot_setAreas areas {}

theorem value_of_not_altered (areas : List Protocol.Area) {i : Nat}
    (h : ¬ Altered i known areas) :
    (areas.foldl afterArea known)[i]?.map AsebaVmVariable.value =
      known[i]?.map AsebaVmVariable.value := by
  induction areas generalizing known with
  | nil => rfl
  | cons area areas ih =>
    rw [Altered, not_or, not_not] at h
    exact (ih h.2).trans h.1.symm

/-- What no area alters stays as it was. -/
theorem getElem?_of_not_altered (areas : List Protocol.Area) {i : Nat}
    (h : ¬ Altered i known areas) : (areas.foldl afterArea known)[i]? = known[i]? := by
  have hslot : (areas.foldl afterArea known)[i]?.map slot = known[i]?.map slot := by
    rw [← List.getElem?_map, map_slot_foldl_afterArea, List.getElem?_map]
  have hvalue := value_of_not_altered areas h
  cases hafter : (areas.foldl afterArea known)[i]? with
  | none =>
    rw [hafter] at hslot
    exact (Option.map_eq_none_iff.mp hslot.symm).symm
  | some w =>
    rw [hafter] at hslot hvalue
    obtain ⟨v, hbefore, hv⟩ := Option.map_eq_some_iff.mp hslot.symm
    rw [hbefore] at hvalue ⊢
    obtain ⟨name, start, size, value⟩ := v
    obtain ⟨name', start', size', value'⟩ := w
    simp only [Option.map_some, Option.some.injEq, slot, Prod.mk.injEq] at hv hvalue
    obtain ⟨rfl, rfl, rfl⟩ := hv
    rw [hvalue]

theorem namesApart_foldl_afterArea (h : NamesApart known) (areas : List Protocol.Area) :
    NamesApart (areas.foldl afterArea known) := by
  have hnames : (areas.foldl afterArea known).map AsebaVmVariable.name =
      known.map AsebaVmVariable.name := by
    have hslot := congrArg (List.map Prod.fst) (map_slot_foldl_afterArea known areas)
    simpa only [List.map_map, Function.comp_def, slot] using hslot
  rw [NamesApart, hnames]
  exact h

/-- The map of a message announces the values after it. -/
theorem announces_onAreas {κ : Type} {m : MirrorNode κ} {areas : List Protocol.Area}
    (hnames : NamesApart m.node.knownVariables) (h : SignalsFinalValues m areas) :
    Announces (m.onAreas areas).2 (knownValue m.node.knownVariables)
      (knownValue (m.onAreas areas).1.node.knownVariables) := by
  intro name p hp
  obtain ⟨v, hv, rfl, hvalue, rfl⟩ := knownValue_eq_some hp
  obtain ⟨i, hi⟩ := List.mem_iff_getElem?.mp hv
  by_cases haltered : Altered i m.node.knownVariables areas
  · left
    exact (h v.name _).mpr ⟨i, v, hi, rfl, haltered, rfl⟩
  · right
    have hafter := hi
    rw [knownVariables_onAreas] at hafter
    have hbefore := hafter
    rw [getElem?_of_not_altered areas haltered] at hbefore
    constructor
    · rw [Option.eq_none_iff_forall_ne_some]
      intro q hq
      obtain ⟨j, w, hj, hname, hwaltered, -⟩ := (h v.name q).mp hq
      -- names are apart, so it would be the altered one
      have hsame : i = j := by
        have hapart := namesApart_foldl_afterArea hnames areas
        rw [knownVariables_onAreas] at hj
        rw [NamesApart] at hapart
        apply (List.getElem?_inj _ hapart).mp
        · rw [List.getElem?_map, List.getElem?_map, hafter, hj, Option.map_some, Option.map_some,
            hname]
        · obtain ⟨hlt, -⟩ := List.getElem?_eq_some_iff.mp hafter
          rwa [List.length_map]
      exact haltered (hsame ▸ hwaltered)
    · exact knownValue_of_mem hnames (List.mem_of_getElem? hbefore) hvalue

end Messages

/-! ## New variables -/

section Reset

theorem insertVariable_cases (known : List AsebaVmVariable) (e : String × Nat × Nat) :
    ProgramNode.insertVariable known e = known ∨
      ∃ v, v.name = wStringToUTF8 e.1 ∧ v.value = [] ∧
        (ProgramNode.insertVariable known e).Perm (v :: known) := by
  obtain ⟨name, start, size⟩ := e
  simp only [ProgramNode.insertVariable]
  split_ifs
  · exact .inl rfl
  · right
    refine ⟨{ name := wStringToUTF8 name, start := start % 2 ^ 16, size := size % 2 ^ 16 }, rfl, rfl,
      ?_⟩
    apply List.perm_middle.trans
    rw [List.takeWhile_append_dropWhile]

theorem value_of_mem_reset {map : List (String × Nat × Nat)} {known : List AsebaVmVariable}
    (hknown : ∀ v ∈ known, v.value = []) :
    ∀ v ∈ map.foldl ProgramNode.insertVariable known, v.value = [] := by
  induction map generalizing known with
  | nil => exact hknown
  | cons e map ih =>
    apply ih
    obtain hsame | ⟨v, -, hvalue, hperm⟩ := insertVariable_cases known e
    · rw [hsame]
      exact hknown
    · intro w hw
      obtain rfl | hw := List.mem_cons.mp (hperm.mem_iff.mp hw)
      · exact hvalue
      · exact hknown w hw

theorem namesApart_reset {map : List (String × Nat × Nat)} {known : List AsebaVmVariable}
    (h : (map.map (fun e => wStringToUTF8 e.1) ++ known.map AsebaVmVariable.name).Nodup) :
    NamesApart (map.foldl ProgramNode.insertVariable known) := by
  induction map generalizing known with
  | nil => exact h
  | cons e map ih =>
    apply ih
    obtain hsame | ⟨v, hname, -, hperm⟩ := insertVariable_cases known e
    · rw [hsame]
      exact h.sublist (List.sublist_cons_self ..)
    · rw [List.map_cons, List.cons_append] at h
      have hmoved := List.perm_middle.nodup_iff.mpr h
      apply (List.Perm.append_left _ (hperm.map _)).nodup_iff.mpr
      rw [List.map_cons, hname]
      exact hmoved

variable {κ : Type} {m : MirrorNode κ} {map : Compiler.VariablesMap}

/-- Of new variables nothing is known. -/
theorem knownValue_reset (name : List UInt8) :
    knownValue (m.resetKnownVariables map).node.knownVariables name = none := by
  rw [Option.eq_none_iff_forall_ne_some]
  intro p hp
  obtain ⟨v, hv, -, hvalue, -⟩ := knownValue_eq_some hp
  exact hvalue (value_of_mem_reset (by simp) v hv)

/-- Names that are no longer used are announced as null, and nothing else is. -/
theorem get?_removed {name : List UInt8} {p : Property}
    (h : (m.removed map).get? name = some p) : p = .null := by
  rw [MirrorNode.removed, Table.get?_foldl_erase] at h
  split_ifs at h
  have hempty : (Table.empty : ChangedValues).get? name = none := rfl
  rw [variablesMap, Table.get?_foldl_insert, hempty, Option.none_or] at h
  obtain ⟨v, -, rfl⟩ := Option.map_eq_some_iff.mp h
  rfl

theorem get?_removed_of_mem {v : AsebaVmVariable} (hnames : NamesApart m.node.knownVariables)
    (hv : v ∈ m.node.knownVariables)
    (hgone : ∀ w ∈ (m.resetKnownVariables map).node.knownVariables, w.name ≠ v.name) :
    (m.removed map).get? v.name = some .null := by
  rw [MirrorNode.removed, Table.get?_foldl_erase, if_neg]
  · exact get?_variablesMap hnames _ hv
  · intro hmem
    obtain ⟨w, hw, hname⟩ := List.mem_map.mp hmem
    exact hgone w hw hname

end Reset

/-! ## Applications -/

section Applications

variable {κ α : Type}

/-- What an application knows once its deferred handlers have run. -/
def posted (w : WatchedNode κ α) (app : α) : List ChangedValues := w.told app ++ w.deferred app

theorem posted_signal (w : WatchedNode κ α) (map : ChangedValues) (app : α) :
    posted (w.signal map) app = if w.watching app then posted w app ++ [map] else posted w app := by
  unfold posted WatchedNode.signal
  dsimp only
  split_ifs
  · rw [List.append_assoc]
  · rfl

theorem posted_defer_self [DecidableEq α] (w : WatchedNode κ α) (app : α) (map : ChangedValues) :
    posted (w.defer app map) app = posted w app ++ [map] := by
  unfold posted WatchedNode.defer
  simp

theorem posted_defer_of_ne [DecidableEq α] (w : WatchedNode κ α) {app other : α}
    (h : other ≠ app) (map : ChangedValues) : posted (w.defer app map) other = posted w other := by
  unfold posted WatchedNode.defer
  simp [h]

theorem posted_nodeVariablesChanged [DecidableEq α] {w w' : WatchedNode κ α} {app : α}
    (h : w.step (.nodeVariablesChanged app) = some w') :
    posted w' = posted w ∧ w'.mirror = w.mirror ∧ w'.watching = w.watching := by
  simp only [WatchedNode.step] at h
  cases hqueue : w.deferred app with
  | nil =>
    rw [hqueue] at h
    cases h
  | cons map deferred =>
    rw [hqueue] at h
    cases h
    refine ⟨?_, rfl, rfl⟩
    funext other
    unfold posted
    by_cases hother : other = app
    · subst hother
      simp [hqueue]
    · simp [hother]

/-- The application knows every value that the node knows. -/
def FollowsValues (w : WatchedNode κ α) (app : α) : Prop :=
  ∀ name p, knownValue w.mirror.node.knownVariables name = some p →
    lastTold (posted w app) name = some p

/-- Of a name that no variable has, the application knows at most that it is null. -/
def ForgetsNames (w : WatchedNode κ α) (app : α) : Prop :=
  ∀ name, (∀ v ∈ w.mirror.node.knownVariables, v.name ≠ name) →
    ∀ p ∈ lastTold (posted w app) name, p = .null

/-- The conditions on the events: the variables of a map have different names, and a message that
changes a variable several times does so with the last value first. -/
def FirstChangesLast (_ : List (WatchEvent α)) (w : WatchedNode κ α) : WatchEvent α → Prop
  | .changedVariablesMessage msg => FirstChangeLasts w.mirror.node.knownVariables msg.areas
  | .programSent map | .descriptionReceived map => (map.map fun e => wStringToUTF8 e.1).Nodup
  | _ => True

/-- The node has variables with different names. A watching application knows their values; one that
never stopped watching knows nothing else, and before it watches it was told nothing. -/
structure WatchersFollow (past : List (WatchEvent α)) (w : WatchedNode κ α) : Prop where
  apart : NamesApart w.mirror.node.knownVariables
  values : ∀ app, w.watching app = true → FollowsValues w app
  names : ∀ app, .watchNode app false ∉ past → ForgetsNames w app
  silent : ∀ app, .watchNode app false ∉ past → w.watching app = false → posted w app = []

theorem not_mem_of_snoc {past : List (WatchEvent α)} {e : WatchEvent α} {app : α}
    (h : .watchNode app false ∉ past ++ [e]) : .watchNode app false ∉ past :=
  fun hmem => h (List.mem_append_left _ hmem)

variable {past : List (WatchEvent α)} {w : WatchedNode κ α} {e : WatchEvent α}

theorem WatchersFollow.onAreas (h : WatchersFollow past w) {areas : List Protocol.Area}
    (hfinal : SignalsFinalValues w.mirror areas) :
    WatchersFollow (past ++ [e])
      (({ w with mirror := (w.mirror.onAreas areas).1 } : WatchedNode κ α).signal
        (w.mirror.onAreas areas).2) := by
  have hafter := knownVariables_onAreas w.mirror areas
  have hnames : ∀ {name}, (∀ v ∈ (w.mirror.onAreas areas).1.node.knownVariables, v.name ≠ name) →
      ∀ v ∈ w.mirror.node.knownVariables, v.name ≠ name := by
    intro name hname v hv hv'
    have hslot := map_slot_foldl_afterArea w.mirror.node.knownVariables areas
    rw [← hafter] at hslot
    have hmem : slot v ∈ (w.mirror.onAreas areas).1.node.knownVariables.map slot := by
      rw [hslot]
      exact List.mem_map_of_mem hv
    obtain ⟨v', hmem', hsame⟩ := List.mem_map.mp hmem
    exact hname v' hmem' ((congrArg Prod.fst hsame).trans hv')
  constructor
  · change NamesApart (w.mirror.onAreas areas).1.node.knownVariables
    rw [hafter]
    exact namesApart_foldl_afterArea h.apart areas
  · intro app (hwatching : w.watching app = true) name p hp
    rw [posted_signal, if_pos hwatching]
    exact lastTold_of_announces (announces_onAreas h.apart hfinal) (h.values app hwatching) name p hp
  · intro app hpast name hname
    have hold := h.names app (not_mem_of_snoc hpast) name (hnames hname)
    rw [posted_signal]
    split_ifs
    · apply lastTold_snoc_of_forall hold
      intro p hp
      obtain ⟨i, v, hi, hv, -⟩ := (hfinal name p).mp hp
      exact absurd hv (hname v (List.mem_of_getElem? hi))
    · exact hold
  · intro app hpast (hwatching : w.watching app = false)
    simp only [posted_signal, hwatching, Bool.false_eq_true, if_false]
    exact h.silent app (not_mem_of_snoc hpast) hwatching

theorem WatchersFollow.reset (h : WatchersFollow past w) {map : Compiler.VariablesMap}
    (hmap : (map.map fun e => wStringToUTF8 e.1).Nodup) :
    WatchersFollow (past ++ [e])
      (({ w with mirror := w.mirror.resetKnownVariables map } : WatchedNode κ α).signal
        (w.mirror.removed map)) := by
  constructor
  · exact namesApart_reset (by simpa using hmap)
  · intro app _ name p hp
    change knownValue (w.mirror.resetKnownVariables map).node.knownVariables name = some p at hp
    rw [knownValue_reset] at hp
    cases hp
  · intro app hpast name hname p hp
    rw [posted_signal] at hp
    split_ifs at hp with hwatching
    · rw [lastTold_snoc, Option.mem_def, Option.or_eq_some_iff] at hp
      obtain hp | ⟨hnone, hp⟩ := hp
      · exact get?_removed hp
      · apply h.names app (not_mem_of_snoc hpast) name _ p hp
        rintro v hv rfl
        rw [get?_removed_of_mem h.apart hv hname] at hnone
        cases hnone
    · have hsilent := h.silent app (not_mem_of_snoc hpast) (Bool.eq_false_iff.mpr hwatching)
      change p ∈ lastTold (posted w app) name at hp
      rw [hsilent] at hp
      cases hp
  · intro app hpast (hwatching : w.watching app = false)
    simp only [posted_signal, hwatching, Bool.false_eq_true, if_false]
    exact h.silent app (not_mem_of_snoc hpast) hwatching

/-- A signal with the value of every variable. -/
theorem WatchersFollow.signal_nodeVariables (h : WatchersFollow past w) :
    WatchersFollow past (w.signal w.mirror.nodeVariables) := by
  constructor
  · exact h.apart
  · intro app (hwatching : w.watching app = true) name p hp
    obtain ⟨v, hv, rfl, -, rfl⟩ := knownValue_eq_some hp
    rw [posted_signal, if_pos hwatching, lastTold_snoc, MirrorNode.nodeVariables,
      get?_variablesMap h.apart _ hv, Option.some_or]
  · intro app hpast name hname
    have hold := h.names app hpast name hname
    rw [posted_signal]
    split_ifs
    · apply lastTold_snoc_of_forall hold
      intro p hp
      have hnone : w.mirror.nodeVariables.get? name = none :=
        get?_variablesMap_of_forall_ne _ hname
      rw [hnone] at hp
      cases hp
    · exact hold
  · intro app hpast (hwatching : w.watching app = false)
    simp only [posted_signal, hwatching, Bool.false_eq_true, if_false]
    exact h.silent app hpast hwatching

variable [DecidableEq α]

theorem WatchersFollow.watchNode (h : WatchersFollow past w) (app : α) (wanted : Bool) :
    WatchersFollow (past ++ [.watchNode app wanted]) (w.watchNode app wanted) := by
  cases wanted with
  | false =>
    rw [WatchedNode.watchNode, if_neg Bool.false_ne_true]
    refine ⟨h.apart, ?_, fun other hpast => h.names other (not_mem_of_snoc hpast), ?_⟩
    · intro other (hwatching : Function.update w.watching app false other = true)
      by_cases hother : other = app
      · rw [hother, Function.update_self] at hwatching
        cases hwatching
      · rw [Function.update_of_ne hother] at hwatching
        exact h.values other hwatching
    · intro other hpast (hwatching : Function.update w.watching app false other = false)
      have hother : other ≠ app := by
        rintro rfl
        exact hpast (by simp)
      rw [Function.update_of_ne hother] at hwatching
      exact h.silent other (not_mem_of_snoc hpast) hwatching
  | true =>
    rw [WatchedNode.watchNode, if_pos rfl]
    by_cases hwatches : w.watching app = true
    · have hsame : Function.update w.watching app true = w.watching := by
        rw [← hwatches, Function.update_eq_self]
      simp only [hwatches, if_true, hsame]
      exact ⟨h.apart, h.values, fun other hpast => h.names other (not_mem_of_snoc hpast),
        fun other hpast => h.silent other (not_mem_of_snoc hpast)⟩
    · have hnot : w.watching app = false := Bool.eq_false_iff.mpr hwatches
      simp only [hnot, Bool.false_eq_true, if_false]
      refine ⟨h.apart, ?_, ?_, ?_⟩
      · intro other hwatching name p hp
        change lastTold (posted (w.defer app w.mirror.nodeVariables) other) name = some p
        by_cases hother : other = app
        · obtain ⟨v, hv, rfl, -, rfl⟩ := knownValue_eq_some hp
          have hknown : w.mirror.nodeVariables.get? v.name = some (asebaVariableFromRange v.value) :=
            get?_variablesMap h.apart _ hv
          rw [hother, posted_defer_self, lastTold_snoc, hknown, Option.some_or]
        · change Function.update w.watching app true other = true at hwatching
          rw [Function.update_of_ne hother] at hwatching
          rw [posted_defer_of_ne w hother]
          exact h.values other hwatching name p hp
      · intro other hpast name hname
        change ∀ p ∈ lastTold (posted (w.defer app w.mirror.nodeVariables) other) name, p = .null
        by_cases hother : other = app
        · have hnone : w.mirror.nodeVariables.get? name = none :=
            get?_variablesMap_of_forall_ne _ hname
          have hpast := not_mem_of_snoc hpast
          rw [hother] at hpast
          rw [hother, posted_defer_self, h.silent app hpast hnot, lastTold_snoc, hnone]
          exact fun p hp => nomatch hp
        · rw [posted_defer_of_ne w hother]
          exact h.names other (not_mem_of_snoc hpast) name hname
      · intro other hpast (hwatching : Function.update w.watching app true other = false)
        change posted (w.defer app w.mirror.nodeVariables) other = []
        have hother : other ≠ app := by
          rintro rfl
          rw [Function.update_self] at hwatching
          cases hwatching
        rw [Function.update_of_ne hother] at hwatching
        rw [posted_defer_of_ne w hother]
        exact h.silent other (not_mem_of_snoc hpast) hwatching

theorem WatchersFollow.step (h : WatchersFollow past w) {w' : WatchedNode κ α} (hallowed : FirstChangesLast past w e)
    (hstep : w.step e = some w') : WatchersFollow (past ++ [e]) w' := by
  cases e with
  | variablesMessage msg =>
    cases hstep
    exact h.onAreas (signalsFinalValues_of_area h.apart _)
  | changedVariablesMessage msg =>
    cases hstep
    exact h.onAreas (signals_of_firstChangeLasts hallowed)
  | programSent map =>
    cases hstep
    exact (h.reset hallowed).signal_nodeVariables
  | descriptionReceived map =>
    cases hstep
    exact h.reset hallowed
  | watchNode app wanted =>
    cases hstep
    exact h.watchNode app wanted
  | nodeVariablesChanged app =>
    obtain ⟨hposted, hmirror, hwatching⟩ := posted_nodeVariablesChanged hstep
    constructor
    · rw [hmirror]
      exact h.apart
    · intro other hother
      unfold FollowsValues
      rw [hposted, hmirror]
      exact h.values other (hwatching ▸ hother)
    · intro other hpast
      unfold ForgetsNames
      rw [hposted, hmirror]
      exact h.names other (not_mem_of_snoc hpast)
    · intro other hpast hother
      rw [hposted]
      exact h.silent other (not_mem_of_snoc hpast) (hwatching ▸ hother)

/-- Once its deferred handlers have run, an application that watches a node knows every value that
the node knows; and if it never stopped watching, the names that no variable has any more are null
to it, or it never heard of them. -/
theorem watchers_know_variables {m : MirrorNode κ} (hnames : NamesApart m.node.knownVariables)
    {events : List (WatchEvent α)} {w : WatchedNode κ α}
    (horderly : Along WatchedNode.step FirstChangesLast [] (.unwatched m) events)
    (hrun : run WatchedNode.step (.unwatched m) events = some w) (app : α)
    (hwatching : w.watching app = true) :
    (∀ v ∈ w.mirror.node.knownVariables, v.value ≠ [] →
      lastTold (w.told app ++ w.deferred app) v.name = some (asebaVariableFromRange v.value)) ∧
    (.watchNode app false ∉ events → ∀ name, (∀ v ∈ w.mirror.node.knownVariables, v.name ≠ name) →
      ∀ p ∈ lastTold (w.told app ++ w.deferred app) name, p = .null) := by
  have hinit : WatchersFollow [] (WatchedNode.unwatched m : WatchedNode κ α) :=
    ⟨hnames, nofun, fun _ _ _ _ _ hp => (by cases hp), fun _ _ _ => rfl⟩
  have hend : WatchersFollow ([] ++ events) w :=
    invariant (fun past s e t hs hallowed hstep => hs.step hallowed hstep) hinit horderly hrun
  constructor
  · intro v hv hvalue
    exact hend.values app hwatching v.name _ (knownValue_of_mem hend.apart hv hvalue)
  · exact hend.names app

end Applications

/-- An application watches, the device sends 5 for `x`, a program with the variable `y` in its place
is sent, and the device sends 7. -/
def replacedVariable : List (WatchEvent Unit) :=
  [.watchNode () true, .variablesMessage ⟨0, [5]⟩, .programSent [("y", 0, 1)],
    .variablesMessage ⟨0, [7]⟩, .nodeVariablesChanged ()]

/-- The application ends up with 7 for `y`, and with nothing but null for `x`. -/
theorem replacedVariable_known :
    ∃ w : WatchedNode Unit Unit, run WatchedNode.step (.unwatched loneVariable) replacedVariable = some w ∧
      lastTold (w.told () ++ w.deferred ()) (wStringToUTF8 "y") = some (.array [.integral 7]) ∧
      ∀ p ∈ lastTold (w.told () ++ w.deferred ()) (wStringToUTF8 "x"), p = .null := by
  have hend : (run WatchedNode.step (.unwatched loneVariable : WatchedNode Unit Unit)
      replacedVariable).any (fun w => w.watching () &&
        decide (w.mirror.node.knownVariables = [⟨wStringToUTF8 "y", 0, 1, [7]⟩])) = true := by
    decide +kernel
  obtain ⟨w, hrun, hw⟩ := (Option.any_eq_true ..).mp hend
  obtain ⟨hwatching, hknown⟩ := (Bool.and_eq_true ..).mp hw
  have hknown := of_decide_eq_true hknown
  have hnames : NamesApart loneVariable.node.knownVariables := by
    unfold NamesApart
    decide +kernel
  have hapart : ([("y", 0, 1)].map fun e : String × Nat × Nat => wStringToUTF8 e.1).Nodup := by
    decide +kernel
  have horderly : Along WatchedNode.step FirstChangesLast []
      (.unwatched loneVariable : WatchedNode Unit Unit) replacedVariable :=
    ⟨trivial, fun _ _ => ⟨trivial, fun _ _ => ⟨hapart, fun _ _ => ⟨trivial, fun _ _ =>
      ⟨trivial, fun _ _ => trivial⟩⟩⟩⟩⟩
  obtain ⟨hvalues, hgone⟩ := watchers_know_variables hnames horderly hrun () hwatching
  refine ⟨w, hrun, ?_, ?_⟩
  · have hy := hvalues ⟨wStringToUTF8 "y", 0, 1, [7]⟩ (by rw [hknown]; exact List.mem_singleton_self _)
      (by decide)
    rw [hy]
    rfl
  · apply hgone
    · simp [replacedVariable]
    · rw [hknown]
      decide +kernel

end ThymioDeviceManager.Correctness
