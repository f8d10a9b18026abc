import ThymioDeviceManager.Correctness.GroupMembership

/-! # Shared variables and constants

A group replaces its variables as a whole; an endpoint patches its constants entry
by entry, so it keeps the names that a new map no longer has. Attaching an endpoint
gives it the events of the group but not its variables.
-/

namespace ThymioDeviceManager.Correctness

open Manager Library

namespace SharedConstants

open GroupMembership

variable {s t : Groups}

/-- The constants that the integers among the variables stand for. -/
def constantsOf (vars : List (String × Property)) : List NamedValue :=
  vars.filterMap fun entry =>
    match entry.2 with
    | .integral v => some { name := utf8ToWString entry.1, value := v.toInt }
    | _ => none

/-- All values are integers in the range of `int16_t`. -/
def Int16Values (vars : List (String × Property)) : Prop :=
  ∀ entry ∈ vars, entry.2.toInt16?.isSome

/-- Variables whose names become the same constant have the same value. -/
def Consonant (vars : List (String × Property)) : Prop :=
  ∀ c ∈ constantsOf vars, ∀ c' ∈ constantsOf vars, c.name = c'.name → c = c'

theorem toInt_numericCast {v : Int64} {n : Int16} (h : numericCast v = some n) :
    n.toInt = v.toInt := by
  unfold numericCast at h
  split at h
  · rename_i hrange
    cases h
    rw [Int64.toInt_toInt16]
    exact Int.bmod_eq_of_le (by omega) (by omega)
  · cases h

theorem exists_of_int16 {p : Property} (h : p.toInt16?.isSome) :
    ∃ v n, p = .integral v ∧ numericCast v = some n := by
  cases p with
  | integral v =>
    obtain ⟨n, hn⟩ := Option.isSome_iff_exists.mp h
    exact ⟨v, n, rfl, hn⟩
  | null => cases h
  | boolean b => cases h
  | floating bits => cases h
  | string s => cases h
  | array elements => cases h
  | object members => cases h

/-! ## The patched constants -/

theorem mem_erased {constants : List NamedValue} (h : (constants.map (·.name)).Nodup)
    (name : String) (c : NamedValue) :
    c ∈ constants.eraseP (fun v : NamedValue => v.name = name) ↔ c ∈ constants ∧ c.name ≠ name := by
  induction constants with
  | nil => simp
  | cons v constants ih =>
    obtain ⟨hv, hrest⟩ := List.nodup_cons.mp h
    change v.name ∉ constants.map (·.name) at hv
    by_cases hname : v.name = name
    · rw [List.eraseP_cons_of_pos (by simpa using hname)]
      constructor
      · intro hc
        refine ⟨List.mem_cons_of_mem _ hc, fun heq => hv ?_⟩
        rw [hname, ← heq]
        exact List.mem_map_of_mem hc
      · rintro ⟨hc, hne⟩
        obtain rfl | hc := List.mem_cons.mp hc
        · exact absurd hname hne
        · exact hc
    · rw [List.eraseP_cons_of_neg (by simpa using hname), List.mem_cons, List.mem_cons, ih hrest]
      constructor
      · rintro (rfl | ⟨hc, hne⟩)
        · exact ⟨.inl rfl, hname⟩
        · exact ⟨.inr hc, hne⟩
      · rintro ⟨rfl | hc, hne⟩
        · exact .inl rfl
        · exact .inr ⟨hc, hne⟩

theorem nodup_patched {constants : List NamedValue} (h : (constants.map (·.name)).Nodup)
    (name : String) (value : Int) :
    ((constants.eraseP (fun v : NamedValue => v.name = name) ++
      [({ name, value } : NamedValue)]).map (·.name)).Nodup := by
  have hsub : (constants.eraseP fun v : NamedValue => v.name = name).Sublist constants :=
    List.eraseP_sublist
  have herased := h.sublist (hsub.map (·.name))
  have hnot : name ∉ (constants.eraseP fun v : NamedValue => v.name = name).map (·.name) := by
    intro hmem
    obtain ⟨c, hc, hname⟩ := List.mem_map.mp hmem
    exact ((mem_erased h name c).mp hc).2 hname
  simpa using herased.concat hnot

/-- What the loop leaves: the old constants whose names the map does not have, and
those of the map. -/
theorem patchConstants_spec {vars : List (String × Property)} (hvalues : Int16Values vars)
    (hconsonant : Consonant vars) {constants : List NamedValue}
    (hnodup : (constants.map (·.name)).Nodup) :
    ((Endpoint.patchConstants constants vars).map (·.name)).Nodup ∧
      ∀ c, c ∈ Endpoint.patchConstants constants vars ↔
        c ∈ constantsOf vars ∨ c ∈ constants ∧ c.name ∉ (constantsOf vars).map (·.name) := by
  induction vars generalizing constants with
  | nil => simpa [Endpoint.patchConstants, constantsOf] using hnodup
  | cons entry vars ih =>
    obtain ⟨name, p⟩ := entry
    obtain ⟨v, n, rfl, hn⟩ := exists_of_int16 (hvalues (name, p) (by simp))
    have hvalue := toInt_numericCast hn
    have hcons : constantsOf ((name, .integral v) :: vars) =
        { name := utf8ToWString name, value := v.toInt } :: constantsOf vars := rfl
    have hrest : Consonant vars := fun c hc c' hc' =>
      hconsonant c (List.mem_cons_of_mem _ hc) c' (List.mem_cons_of_mem _ hc')
    have hpatched := nodup_patched hnodup (utf8ToWString name) n.toInt
    obtain ⟨hnames, hmem⟩ := ih (fun entry h => hvalues entry (by simp [h])) hrest hpatched
    have hstep : Endpoint.patchConstants constants ((name, .integral v) :: vars) =
        Endpoint.patchConstants (constants.eraseP (fun v => v.name = utf8ToWString name) ++
          [{ name := utf8ToWString name, value := n.toInt }]) vars := by
      simp [Endpoint.patchConstants, hn]
    rw [hstep]
    refine ⟨hnames, fun c => ?_⟩
    rw [hmem, hcons, List.mem_cons, List.map_cons, List.mem_cons, List.mem_append, mem_erased hnodup,
      List.mem_singleton, hvalue]
    constructor
    · rintro (hc | ⟨⟨hc, hne⟩ | rfl, hnot⟩)
      · exact .inl (.inr hc)
      · exact .inr ⟨hc, not_or.mpr ⟨hne, hnot⟩⟩
      · exact .inl (.inl rfl)
    · rintro ((rfl | hc) | ⟨hc, hnot⟩)
      · by_cases hlater : utf8ToWString name ∈ (constantsOf vars).map (·.name)
        · -- a later entry makes the same constant
          obtain ⟨c', hc', hsame⟩ := List.mem_map.mp hlater
          have heq := hconsonant _ (List.mem_cons_self ..) c' (List.mem_cons_of_mem _ hc') hsame.symm
          exact .inl (heq ▸ hc')
        · exact .inr ⟨.inr rfl, hlater⟩
      · exact .inl hc
      · exact .inr ⟨.inl ⟨hc, fun h => hnot (.inl h)⟩, fun h => hnot (.inr h)⟩

/-! ## Agreement -/

/-- The names of the constants are distinct, and they are the integers of the
variables of the group. -/
def ConstantsAt (s : Groups) (e : Endpoint) : Prop :=
  (e.constants.map (·.name)).Nodup ∧ ∀ g, e.group = some g →
    ∀ c, c ∈ e.constants ↔ c ∈ constantsOf (s.groups g).sharedVariables.entries

/-- The constants of every endpoint are the shared variables of its group. -/
def ConstantsAgree (s : Groups) : Prop := ∀ ep e, s.endpoints ep = some e → ConstantsAt s e

/-- An endpoint is in the list of its group. -/
def MembersListed (s : Groups) : Prop :=
  ∀ ep e g, s.endpoints ep = some e → e.group = some g → ep ∈ (s.groups g).endpoints

/-- What the variables of the group `g` do no harm to: a member that has no other
names, and a former member that has the same constants anyway. -/
def FitsAt (g : Nat) (vars : List (String × Property)) (e : Endpoint) : Prop :=
  Consonant vars ∧
    if e.group = some g then ∀ c ∈ e.constants, c.name ∈ (constantsOf vars).map (·.name)
    else ∀ c ∈ constantsOf vars, c ∈ e.constants

instance (g : Nat) (vars : List (String × Property)) (e : Endpoint) : Decidable (FitsAt g vars e) :=
  inferInstanceAs (Decidable ((∀ c ∈ constantsOf vars, ∀ c' ∈ constantsOf vars, _ → _) ∧ ite _ _ _))

/-- The variables fit every endpoint that the group passes them to. -/
def fits (s : Groups) (g : Nat) (vars : VariablesMap) : Bool :=
  (s.endpointsOf g).all fun i => (s.endpoints i).all fun e => FitsAt g vars.entries e

/-- The endpoint has the constants of the group that it is attached to. -/
def attachedInStep (s : Groups) (g ep : Nat) : Bool :=
  (s.endpoints ep).all fun e =>
    (∀ c ∈ e.constants, c ∈ constantsOf (s.groups g).sharedVariables.entries) ∧
      ∀ c ∈ constantsOf (s.groups g).sharedVariables.entries, c ∈ e.constants

/-- A call keeps the names that the endpoints have; an endpoint is attached when it
has the constants already. -/
def keepsInStep (s : Groups) (e : Groups.Event) : Bool :=
  match e with
  | .setSharedVariables g map => fits s g map
  | .loadCode g constants _ => fits s g (Groups.loadedVariables constants)
  | e => (attached? s e).all fun target => attachedInStep s target.1 target.2

/-- The values that a call of `set_shared_variables` passes are 16-bit integers. -/
def SharesInt16 : Groups.Event → Prop
  | .setSharedVariables _ map => Int16Values map.entries
  | _ => True

instance : (e : Groups.Event) → Decidable (SharesInt16 e)
  | .setSharedVariables _ map =>
    inferInstanceAs (Decidable (∀ entry ∈ map.entries, entry.2.toInt16?.isSome = true))
  | .endpointCreated => .isTrue trivial
  | .endpointDestroyed _ => .isTrue trivial
  | .nodeAffiliated _ _ => .isTrue trivial
  | .attachToEndpoint _ _ => .isTrue trivial
  | .setEventsTable _ _ => .isTrue trivial
  | .loadCode _ _ _ => .isTrue trivial
  | .held _ => .isTrue trivial
  | .released _ => .isTrue trivial

theorem int16Values_loadedVariables (constants : List (String × Property)) :
    Int16Values (Groups.loadedVariables constants).entries := by
  have hstep : ∀ (map : VariablesMap) (c : String × Property), Int16Values map.entries →
      Int16Values (c.2.toInt16?.elim map fun v => map.insert c.1 (.integral v.toInt64)).entries := by
    intro map c hmap
    cases c.2.toInt16? with
    | none => exact hmap
    | some v =>
      rw [Option.elim_some]
      unfold Table.insert
      split
      · exact hmap
      · intro entry hentry
        obtain rfl | hentry := List.mem_cons.mp hentry
        · have hlt := v.toInt_lt
          have hle := v.le_toInt
          have hv' : v.toInt64.toInt = v.toInt := Int16.toInt_toInt64 v
          simp only [Property.toInt16?, numericCast, hv']
          split
          · rfl
          · omega
        · exact hmap entry (List.mem_filter.mp hentry).1
  have hfold : ∀ (l : List (String × Property)) (map : VariablesMap), Int16Values map.entries →
      Int16Values (l.foldl (fun map c =>
        c.2.toInt16?.elim map fun v => map.insert c.1 (.integral v.toInt64)) map).entries := by
    intro l
    induction l with
    | nil => exact fun map hmap => hmap
    | cons c l ih => exact fun map hmap => ih _ (hstep map c hmap)
  have hloaded : Groups.loadedVariables constants = constants.foldl (fun map c =>
      c.2.toInt16?.elim map fun v => map.insert c.1 (.integral v.toInt64)) {} := by
    unfold Groups.loadedVariables
    congr
    funext map c
    cases c.2.toInt16? <;> rfl
  rw [hloaded]
  exact hfold constants {} (by intro entry hentry; cases hentry)

section Steps

/-- Nothing changes but what constants do not depend on. -/
theorem ConstantsAgree.of_same (hs : ConstantsAgree s)
    (hconstants : ∀ i e, t.endpoints i = some e →
      ∃ e', s.endpoints i = some e' ∧ e'.group = e.group ∧ e'.constants = e.constants)
    (hvariables : ∀ g, (t.groups g).sharedVariables = (s.groups g).sharedVariables) :
    ConstantsAgree t := by
  intro i e he
  obtain ⟨e', he', hgroup, hsame⟩ := hconstants i e he
  obtain ⟨hnodup, hagree⟩ := hs i e' he'
  refine ⟨hsame ▸ hnodup, fun g hg => ?_⟩
  rw [hvariables, ← hsame]
  exact hagree g (hgroup.trans hg)

theorem MembersListed.of_reshapes (hs : MembersListed s) (h : Reshapes s t) : MembersListed t := by
  intro i e g he hg
  obtain ⟨e', he', hgroup⟩ := h.endpoints i e he
  rw [h.lists]
  exact hs i e' g he' (hgroup.trans hg)

theorem fitsAt_patched {g : Nat} {vars : VariablesMap} {e : Endpoint}
    (hvalues : Int16Values vars.entries) (hnodup : (e.constants.map (·.name)).Nodup)
    (hfits : FitsAt g vars.entries e) :
    ((e.setSharedVariables vars).constants.map (·.name)).Nodup ∧
      ∀ c, c ∈ (e.setSharedVariables vars).constants ↔
        if e.group = some g then c ∈ constantsOf vars.entries else c ∈ e.constants := by
  obtain ⟨hconsonant, hnames⟩ := hfits
  obtain ⟨hnodup', hmem⟩ := patchConstants_spec hvalues hconsonant hnodup
  refine ⟨hnodup', fun c => (hmem c).trans ?_⟩
  by_cases hg : e.group = some g
  · rw [if_pos hg] at hnames ⊢
    constructor
    · rintro (hc | ⟨hc, hnot⟩)
      · exact hc
      · exact absurd (hnames c hc) hnot
    · exact .inl
  · rw [if_neg hg] at hnames ⊢
    constructor
    · rintro (hc | ⟨hc, -⟩)
      · exact hnames c hc
      · exact hc
    · intro hc
      by_cases hname : c.name ∈ (constantsOf vars.entries).map (·.name)
      · obtain ⟨c', hc', hsame⟩ := List.mem_map.mp hname
        obtain rfl : c' = c := List.inj_on_of_nodup_map hnodup (hnames c' hc') hc hsame
        exact .inl hc'
      · exact .inr ⟨hc, hname⟩

theorem ConstantsAgree.setSharedVariables (hb : Bookkept s) (hlisted : MembersListed s)
    (hs : ConstantsAgree s) {g : Nat} {map : VariablesMap} (hvalues : Int16Values map.entries)
    (hfits : fits s g map = true) : ConstantsAgree (s.setSharedVariables g map) := by
  intro i e he
  rw [setSharedVariables_eq hb] at he ⊢
  dsimp only at he
  split at he
  · rename_i hmem
    obtain ⟨e', he', rfl⟩ := Option.map_eq_some_iff.mp he
    have hfitsAt : FitsAt g map.entries e' := by
      have hall := List.all_eq_true.mp hfits i (List.mem_filter.mpr ⟨hmem, by simp [he']⟩)
      simpa [he'] using hall
    obtain ⟨hnodup, hpatched⟩ := fitsAt_patched hvalues (hs i e' he').1 hfitsAt
    refine ⟨hnodup, fun gi hgi c => (hpatched c).trans ?_⟩
    by_cases hg : gi = g
    · subst hg
      have hgroup : e'.group = some gi := hgi
      simp [hgroup]
    · have hgroup : e'.group = some gi := hgi
      simpa [hgroup, hg] using (hs i e' he').2 gi hgi c
  · rename_i hmem
    obtain ⟨hnodup, hagree⟩ := hs i e he
    refine ⟨hnodup, fun gi hgi => ?_⟩
    have hg : gi ≠ g := by
      rintro rfl
      exact hmem (hlisted i e gi he hgi)
    simpa [hg] using hagree gi hgi

theorem ConstantsAgree.setEventsTable (hb : Bookkept s) (hs : ConstantsAgree s) (g : Nat)
    (events : List EventEntry) : ConstantsAgree (s.setEventsTable g events) := by
  refine hs.of_same (fun i e he => ?_) fun g' => ?_
  · rw [setEventsTable_eq hb] at he
    dsimp only at he
    split at he
    · obtain ⟨e', he', rfl⟩ := Option.map_eq_some_iff.mp he
      exact ⟨e', he', rfl, rfl⟩
    · exact ⟨e, he, rfl, rfl⟩
  · rw [setEventsTable_eq hb]
    by_cases hg : g' = g
    · subst hg
      simp
    · simp [hg]

theorem ConstantsAgree.attach (hs : ConstantsAgree s) {g ep : Nat}
    (hkeeps : attachedInStep s g ep = true) : ConstantsAgree (s.attachToEndpoint g ep) := by
  intro i e he
  rw [endpoints_attach] at he
  split at he
  · rename_i hi
    subst hi
    obtain ⟨e', he', rfl⟩ := Option.map_eq_some_iff.mp he
    refine ⟨(hs i e' he').1, fun g' hg' c => ?_⟩
    obtain rfl : g = g' := by simpa using hg'
    rw [sharedVariables_attach]
    have hsame : (∀ c ∈ e'.constants, c ∈ constantsOf (s.groups g).sharedVariables.entries) ∧
        ∀ c ∈ constantsOf (s.groups g).sharedVariables.entries, c ∈ e'.constants := by
      simpa [attachedInStep, he'] using hkeeps
    exact ⟨hsame.1 c, hsame.2 c⟩
  · obtain ⟨hnodup, hagree⟩ := hs i e he
    refine ⟨hnodup, fun g' hg' => ?_⟩
    rw [sharedVariables_attach]
    exact hagree g' hg'

theorem MembersListed.attach (hs : MembersListed s) {g ep : Nat} (hep : (s.endpoints ep).isSome) :
    MembersListed (s.attachToEndpoint g ep) := by
  intro i e g' he hg'
  rw [endpoints_attach] at he
  rw [mem_endpoints_attach hep]
  split at he
  · rename_i hi
    obtain ⟨e', -, rfl⟩ := Option.map_eq_some_iff.mp he
    obtain rfl : g = g' := by simpa using hg'
    exact .inr ⟨rfl, hi⟩
  · exact .inl (hs i e g' he hg')

theorem constantsAgree_withNewEndpoint (hb : Bookkept s) (hs : ConstantsAgree s) :
    ConstantsAgree (withNewEndpoint s) := by
  intro i e he
  by_cases hi : i = s.nextEndpoint
  · subst hi
    obtain rfl : {} = e := by simpa [withNewEndpoint] using he
    exact ⟨List.nodup_nil, fun g hg => by cases hg⟩
  · have he' : s.endpoints i = some e := by simpa [withNewEndpoint, hi] using he
    obtain ⟨hnodup, hagree⟩ := hs i e he'
    refine ⟨hnodup, fun g hg => ?_⟩
    have howned : s.owned g = true := (owned_iff hb.fresh g).mpr (.inl ⟨i, e, he', hg⟩)
    rw [groups_withNewEndpoint (hb.born g howned)]
    exact hagree g hg

theorem membersListed_withNewEndpoint (hb : Bookkept s) (hs : MembersListed s) :
    MembersListed (withNewEndpoint s) := by
  intro i e g he hg
  by_cases hi : i = s.nextEndpoint
  · subst hi
    obtain rfl : {} = e := by simpa [withNewEndpoint] using he
    cases hg
  · have he' : s.endpoints i = some e := by simpa [withNewEndpoint, hi] using he
    have howned : s.owned g = true := (owned_iff hb.fresh g).mpr (.inl ⟨i, e, he', hg⟩)
    rw [groups_withNewEndpoint (hb.born g howned)]
    exact hs i e g he' hg

theorem ConstantsAgree.createEndpoint (hb : Bookkept s) (hs : ConstantsAgree s) :
    ConstantsAgree s.createEndpoint := by
  refine (constantsAgree_withNewEndpoint hb hs).attach ?_
  simp [attachedInStep, withNewEndpoint, constantsOf]

theorem MembersListed.createEndpoint (hb : Bookkept s) (hs : MembersListed s) :
    MembersListed s.createEndpoint :=
  (membersListed_withNewEndpoint hb hs).attach (by simp [withNewEndpoint])

/-- What holds along a run. -/
structure Sharing (s : Groups) : Prop where
  bookkept : Bookkept s
  listed : MembersListed s
  agree : ConstantsAgree s

/-- An operation that keeps the endpoints as they are. -/
theorem Sharing.of_reshapes (hs : Sharing s) (h : Reshapes s t)
    (hendpoints : ∀ i e, t.endpoints i = some e → s.endpoints i = some e)
    (hgroups : t.groups = s.groups) : Sharing t := by
  refine ⟨h.bookkept hs.bookkept, hs.listed.of_reshapes h,
    hs.agree.of_same (fun i e he => ⟨e, hendpoints i e he, rfl, rfl⟩) fun g => ?_⟩
  rw [hgroups]

theorem Sharing.setSharedVariables (hs : Sharing s) {g : Nat} {map : VariablesMap}
    (hvalues : Int16Values map.entries) (hfits : fits s g map = true) :
    Sharing (s.setSharedVariables g map) :=
  have hreshapes := reshapes_setSharedVariables hs.bookkept g map
  ⟨hreshapes.bookkept hs.bookkept, hs.listed.of_reshapes hreshapes,
    hs.agree.setSharedVariables hs.bookkept hs.listed hvalues hfits⟩

theorem Sharing.setEventsTable (hs : Sharing s) (g : Nat) (events : List EventEntry) :
    Sharing (s.setEventsTable g events) :=
  have hreshapes := reshapes_setEventsTable hs.bookkept g events
  ⟨hreshapes.bookkept hs.bookkept, hs.listed.of_reshapes hreshapes,
    hs.agree.setEventsTable hs.bookkept g events⟩

theorem Sharing.attach (hs : Sharing s) {g ep : Nat} {e : Endpoint} (hg : s.owned g = true)
    (hep : s.endpoints ep = some e) (hkeeps : attachedInStep s g ep = true) :
    Sharing (s.attachToEndpoint g ep) :=
  ⟨hs.bookkept.attach hep (hs.bookkept.born g hg), hs.listed.attach (by simp [hep]),
    hs.agree.attach hkeeps⟩

theorem Sharing.ghosts (hs : Sharing s) (uuid : Nat) (ep : Option Nat) :
    Sharing ({ s with
      ghostGroups := s.ghostGroups.erase uuid }.saveGroupAffiliation uuid ep) :=
  hs.of_reshapes (reshapes_ghosts hs.bookkept.fresh uuid ep)
    (fun i e he => by simpa using he) (by simp)

theorem Sharing.step (hs : Sharing s) {e : Groups.Event} (hkeeps : keepsInStep s e = true)
    (hvalues : SharesInt16 e) (h : s.step e = some t) : Sharing t := by
  cases e with
  | endpointCreated =>
    cases h
    exact ⟨bookkept_createEndpoint hs.bookkept, hs.listed.createEndpoint hs.bookkept,
      hs.agree.createEndpoint hs.bookkept⟩
  | endpointDestroyed ep =>
    obtain ⟨e, -, rfl⟩ := Option.map_eq_some_iff.mp h
    refine hs.of_reshapes (reshapes_destroy hs.bookkept.fresh ep) (fun i e he => ?_) rfl
    by_cases hi : i = ep
    · subst hi
      simp at he
    · simpa [hi] using he
  | nodeAffiliated uuid ep =>
    cases h
    rw [affiliate_eq]
    cases hattached : attached? s (.nodeAffiliated uuid ep) with
    | none => exact hs.ghosts uuid ep
    | some target =>
      obtain ⟨g, ep'⟩ := target
      obtain ⟨howned, e, he⟩ := owned_of_attached hs.bookkept.fresh hattached
      have hin : attachedInStep s g ep' = true := by
        simpa [keepsInStep, hattached] using hkeeps
      exact (hs.attach howned he hin).ghosts uuid ep
  | attachToEndpoint g ep =>
    obtain ⟨⟨howned, hep⟩, rfl⟩ : (s.owned g = true ∧ (s.endpoints ep).isSome = true) ∧
        s.attachToEndpoint g ep = t := by
      simpa [Groups.step] using h
    obtain ⟨e, he⟩ := Option.isSome_iff_exists.mp hep
    exact hs.attach howned he (by simpa [keepsInStep, attached?] using hkeeps)
  | setEventsTable g events =>
    obtain ⟨-, rfl⟩ : s.owned g = true ∧ s.setEventsTable g events = t := by
      simpa [Groups.step] using h
    exact hs.setEventsTable g events
  | setSharedVariables g map =>
    obtain ⟨-, rfl⟩ : s.owned g = true ∧ s.setSharedVariables g map = t := by
      simpa [Groups.step] using h
    exact hs.setSharedVariables hvalues hkeeps
  | loadCode g constants events =>
    obtain ⟨-, rfl⟩ : s.owned g = true ∧ s.loadCode g constants events = t := by
      simpa [Groups.step] using h
    exact (hs.setSharedVariables (int16Values_loadedVariables constants) hkeeps).setEventsTable g _
  | held g =>
    obtain ⟨howned, rfl⟩ : s.owned g = true ∧ { s with held := g :: s.held } = t := by
      simpa [Groups.step] using h
    exact hs.of_reshapes (reshapes_hold hs.bookkept.fresh howned) (fun i e he => he) rfl
  | released g =>
    obtain ⟨-, rfl⟩ : g ∈ s.held ∧ { s with held := s.held.erase g } = t := by
      simpa [Groups.step] using h
    exact hs.of_reshapes (reshapes_release hs.bookkept.fresh g) (fun i e he => he) rfl

end Steps

/-- In every run whose calls share 16-bit integers, keep the names that the endpoints
have, and attach endpoints that have the constants already. -/
theorem constants_agree (events : List Groups.Event) (hvalues : ∀ e ∈ events, SharesInt16 e)
    (hkeeps : Transition.Along Groups.step (fun _ s e => keepsInStep s e = true) [] {} events)
    (s : Groups) (hrun : Transition.run Groups.step {} events = some s) : ConstantsAgree s := by
  have hstart : Sharing {} := by
    refine ⟨bookkept_start, fun ep e g he hg => ?_, fun ep e he => ?_⟩
    · cases he
    · cases he
  have hinv := Transition.invariant (I := fun _ s => Sharing s)
    (fun past s e t hs hallowed h => hs.step hallowed.1 hallowed.2 h) hstart
    (hkeeps.and_mem hvalues) hrun
  exact hinv.agree

/-- Two variables, one of which changes, and a third one. -/
def sharedInSteps : List Groups.Event :=
  [.endpointCreated, .setSharedVariables 0 { entries := [("speed", .integral 200), ("turn", .integral (-5))] },
    .nodeAffiliated 1 (some 0),
    .setSharedVariables 0 { entries :=
      [("turn", .integral 7), ("speed", .integral 200), ("limit", .integral 3)] }]

theorem sharedInSteps_agrees :
    ∃ s, Transition.run Groups.step {} sharedInSteps = some s ∧
      (s.endpoints 0).map (·.constants) = some [{ name := "turn", value := 7 },
        { name := "speed", value := 200 }, { name := "limit", value := 3 }] ∧
      ConstantsAgree s := by
  have hthere : (Transition.run Groups.step {} sharedInSteps).any (fun s =>
      (s.endpoints 0).map (·.constants) = some [{ name := "turn", value := 7 },
        { name := "speed", value := 200 }, { name := "limit", value := 3 }]) = true := by decide +kernel
  obtain ⟨s, hrun, hconstants⟩ := (Option.any_eq_true _ _).mp hthere
  exact ⟨s, hrun, by simpa using hconstants,
    constants_agree sharedInSteps (by decide) (by decide +kernel) s hrun⟩

/-- The second map does not have the name of the first. -/
def sharedInTurn : List Groups.Event :=
  [.endpointCreated, .setSharedVariables 0 { entries := [("speed", .integral 200)] },
    .setSharedVariables 0 { entries := [("turn", .integral 7)] }]

theorem sharedInTurn_stale :
    ¬ ∀ events s, (∀ e ∈ events, SharesInt16 e) →
      Transition.run Groups.step {} events = some s → ConstantsAgree s := by
  intro h
  have hstale : (Transition.run Groups.step {} sharedInTurn).any (fun s =>
      (s.endpoints 0).any (fun e => e.group = some 0 && e.constants.contains ⟨"speed", 200⟩) &&
        !(constantsOf (s.groups 0).sharedVariables.entries).contains ⟨"speed", 200⟩) = true := by
    decide +kernel
  obtain ⟨s, hrun, hs⟩ := (Option.any_eq_true _ _).mp hstale
  simp only [Bool.and_eq_true, Option.any_eq_true, decide_eq_true_eq, Bool.not_eq_true',
    List.contains_eq_mem, decide_eq_false_iff_not] at hs
  obtain ⟨⟨e, he, hgroup, hmem⟩, hnot⟩ := hs
  have hagree := h sharedInTurn s (by decide) hrun 0 e he
  exact hnot ((hagree.2 0 hgroup _).mp hmem)

end SharedConstants

end ThymioDeviceManager.Correctness
