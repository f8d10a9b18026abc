import Mathlib.Data.List.Nodup
import ThymioDeviceManager.Manager.Groups

/-! # Group membership and events tables

An endpoint that is attached to another group stays in the list of the group it
leaves. That does no harm when nothing owns the group any more, and it is the only
way in which the two sides of a membership come apart.
-/

namespace ThymioDeviceManager.Correctness

open Manager Library

namespace GroupMembership

variable {s t : Groups}

/-! ## What the operations leave -/

section Frames

variable (s) (g ep : Nat) (f : Endpoint → Endpoint) (h : Group → Group)

@[simp] theorem endpoints_updateEndpoint (i : Nat) :
    (s.updateEndpoint ep f).endpoints i =
      if i = ep then (s.endpoints ep).map f else s.endpoints i := by
  unfold Groups.updateEndpoint
  by_cases hi : i = ep
  · subst hi
    simp
  · simp [hi]

@[simp] theorem groups_updateEndpoint : (s.updateEndpoint ep f).groups = s.groups := rfl
@[simp] theorem ghostGroups_updateEndpoint : (s.updateEndpoint ep f).ghostGroups = s.ghostGroups := rfl
@[simp] theorem held_updateEndpoint : (s.updateEndpoint ep f).held = s.held := rfl
@[simp] theorem nextEndpoint_updateEndpoint :
    (s.updateEndpoint ep f).nextEndpoint = s.nextEndpoint := rfl
@[simp] theorem nextGroup_updateEndpoint : (s.updateEndpoint ep f).nextGroup = s.nextGroup := rfl

@[simp] theorem groups_updateGroup (i : Nat) :
    (s.updateGroup g h).groups i = if i = g then h (s.groups g) else s.groups i := by
  unfold Groups.updateGroup
  by_cases hi : i = g
  · subst hi
    simp
  · simp [hi]

@[simp] theorem endpoints_updateGroup : (s.updateGroup g h).endpoints = s.endpoints := rfl
@[simp] theorem ghostGroups_updateGroup : (s.updateGroup g h).ghostGroups = s.ghostGroups := rfl
@[simp] theorem held_updateGroup : (s.updateGroup g h).held = s.held := rfl
@[simp] theorem nextEndpoint_updateGroup : (s.updateGroup g h).nextEndpoint = s.nextEndpoint := rfl
@[simp] theorem nextGroup_updateGroup : (s.updateGroup g h).nextGroup = s.nextGroup := rfl

/-- The loop over the endpoints of a group changes each of them once. -/
theorem foldl_updateEndpoint {l : List Nat} (hl : l.Nodup) :
    l.foldl (fun s ep => s.updateEndpoint ep f) s =
      { s with endpoints := fun i => if i ∈ l then (s.endpoints i).map f else s.endpoints i } := by
  induction l generalizing s with
  | nil => simp
  | cons ep l ih =>
    obtain ⟨hep, hl⟩ := List.nodup_cons.mp hl
    rw [List.foldl_cons, ih _ hl]
    unfold Groups.updateEndpoint
    congr 1
    funext i
    by_cases hi : i = ep
    · subst hi
      simp [hep]
    · simp [hi]

end Frames

/-! ## Owners -/

/-- Something else than an endpoint owns the group. -/
def OwnedElsewhere (s : Groups) (g : Nat) : Prop :=
  (∃ uuid, s.ghostGroups.get? uuid = some g) ∨ g ∈ s.held

/-- Endpoints that have not been made are not there. -/
def Fresh (s : Groups) : Prop := ∀ i, s.nextEndpoint ≤ i → s.endpoints i = none

theorem any_endpoint_iff (hs : Fresh s) (P : Nat → Bool) (g : Nat) :
    (List.range s.nextEndpoint).any (fun i => P i && (s.endpoints i).any (·.group = some g)) = true ↔
      ∃ i e, P i = true ∧ s.endpoints i = some e ∧ e.group = some g := by
  simp only [List.any_eq_true, List.mem_range, Bool.and_eq_true, Option.any_eq_true,
    decide_eq_true_eq]
  constructor
  · rintro ⟨i, -, hP, e, he, hg⟩
    exact ⟨i, e, hP, he, hg⟩
  · rintro ⟨i, e, hP, he, hg⟩
    refine ⟨i, Nat.lt_of_not_le fun hle => ?_, hP, e, he, hg⟩
    rw [hs i hle] at he
    cases he

theorem ghost_iff (g : Nat) :
    (s.ghostGroups.entries.any (·.2 = g) || s.held.contains g) = true ↔ OwnedElsewhere s g := by
  simp only [Bool.or_eq_true, List.any_eq_true, decide_eq_true_eq, List.contains_iff_mem,
    OwnedElsewhere, ← Table.mem_entries, Prod.exists]
  constructor
  · rintro (⟨uuid, g', hmem, rfl⟩ | hheld)
    · exact .inl ⟨uuid, hmem⟩
    · exact .inr hheld
  · rintro (⟨uuid, hmem⟩ | hheld)
    · exact .inl ⟨uuid, g, hmem, rfl⟩
    · exact .inr hheld

theorem owned_iff (hs : Fresh s) (g : Nat) :
    s.owned g = true ↔
      (∃ i e, s.endpoints i = some e ∧ e.group = some g) ∨ OwnedElsewhere s g := by
  have hany := any_endpoint_iff hs (fun _ => true) g
  simp only [Bool.true_and, true_and] at hany
  unfold Groups.owned
  rw [Bool.or_assoc, Bool.or_eq_true, hany, ghost_iff]

theorem ownedBesides_iff (hs : Fresh s) (ep g : Nat) :
    s.ownedBesides ep g = true ↔
      (∃ i e, i ≠ ep ∧ s.endpoints i = some e ∧ e.group = some g) ∨ OwnedElsewhere s g := by
  have hany := any_endpoint_iff hs (fun i => i ≠ ep) g
  simp only [decide_eq_true_eq] at hany
  unfold Groups.ownedBesides
  rw [Bool.or_assoc, Bool.or_eq_true, hany, ghost_iff]

/-! ## Attaching -/

section Attach

variable {g ep : Nat}

theorem endpoints_attach (i : Nat) :
    (s.attachToEndpoint g ep).endpoints i =
      if i = ep then
        (s.endpoints ep).map fun e =>
          { e with group := some g, events := Endpoint.asebaEvents (s.groups g).eventsTable }
      else s.endpoints i := by
  unfold Groups.attachToEndpoint
  split <;> simp [Endpoint.setEventsTable]

theorem mem_endpoints_attach (hep : (s.endpoints ep).isSome) (i g' : Nat) :
    i ∈ ((s.attachToEndpoint g ep).groups g').endpoints ↔
      i ∈ (s.groups g').endpoints ∨ g' = g ∧ i = ep := by
  unfold Groups.attachToEndpoint
  split
  · rename_i hmem
    rw [groups_updateEndpoint]
    have hlisted := (List.mem_filter.mp hmem).1
    constructor
    · exact .inl
    · rintro (h | ⟨rfl, rfl⟩)
      · exact h
      · exact hlisted
  · by_cases hg : g' = g
    · subst hg
      simp
    · simp [hg]

theorem nodup_endpoints_attach (hep : (s.endpoints ep).isSome)
    (hs : ∀ g, (s.groups g).endpoints.Nodup) (g' : Nat) :
    ((s.attachToEndpoint g ep).groups g').endpoints.Nodup := by
  unfold Groups.attachToEndpoint
  split
  · exact hs g'
  · rename_i hmem
    have hnot : ep ∉ (s.groups g).endpoints :=
      fun h => hmem (List.mem_filter.mpr ⟨h, hep⟩)
    by_cases hg : g' = g
    · subst hg
      simpa using (hs g').concat hnot
    · simpa [hg] using hs g'

/-- Attaching changes nothing of a group but the list of its endpoints. -/
theorem group_attach {α : Type} (field : Group → α)
    (hfield : ∀ (group : Group) ids, field { group with endpoints := ids } = field group) (g' : Nat) :
    field ((s.attachToEndpoint g ep).groups g') = field (s.groups g') := by
  unfold Groups.attachToEndpoint
  split
  · rfl
  · by_cases hg : g' = g
    · subst hg
      simp [hfield]
    · simp [hg]

theorem eventsTable_attach (g' : Nat) :
    ((s.attachToEndpoint g ep).groups g').eventsTable = (s.groups g').eventsTable :=
  group_attach Group.eventsTable (fun _ _ => rfl) g'

theorem sharedVariables_attach (g' : Nat) :
    ((s.attachToEndpoint g ep).groups g').sharedVariables = (s.groups g').sharedVariables :=
  group_attach Group.sharedVariables (fun _ _ => rfl) g'

theorem ownedElsewhere_attach (g' : Nat) :
    OwnedElsewhere (s.attachToEndpoint g ep) g' ↔ OwnedElsewhere s g' := by
  unfold Groups.attachToEndpoint
  split <;> rfl

theorem nextEndpoint_attach : (s.attachToEndpoint g ep).nextEndpoint = s.nextEndpoint := by
  unfold Groups.attachToEndpoint
  split <;> rfl

theorem nextGroup_attach : (s.attachToEndpoint g ep).nextGroup = s.nextGroup := by
  unfold Groups.attachToEndpoint
  split <;> rfl

end Attach

/-! ## Bookkeeping -/

/-- Names are used once, and the lists of the groups hold names that are in use. -/
structure Bookkept (s : Groups) : Prop where
  fresh : Fresh s
  listed : ∀ g, ∀ i ∈ (s.groups g).endpoints, i < s.nextEndpoint
  nodup : ∀ g, (s.groups g).endpoints.Nodup
  born : ∀ g, s.owned g = true → g < s.nextGroup

/-- An operation that makes no group and gives none a new owner. -/
theorem Bookkept.of_owners (hs : Bookkept s) (hfresh : Fresh t)
    (hendpoint : t.nextEndpoint = s.nextEndpoint) (hgroup : t.nextGroup = s.nextGroup)
    (hlists : ∀ g, (t.groups g).endpoints = (s.groups g).endpoints)
    (howned : ∀ g, t.owned g = true → s.owned g = true) : Bookkept t := by
  refine ⟨hfresh, fun g i hi => ?_, fun g => ?_, fun g hg => ?_⟩
  · rw [hendpoint]
    rw [hlists] at hi
    exact hs.listed g i hi
  · rw [hlists]
    exact hs.nodup g
  · rw [hgroup]
    exact hs.born g (howned g hg)

section Attach

variable {g ep : Nat} {e : Endpoint}

theorem fresh_attach (hs : Fresh s) (hep : s.endpoints ep = some e) :
    Fresh (s.attachToEndpoint g ep) := by
  intro i hi
  rw [nextEndpoint_attach] at hi
  rw [endpoints_attach]
  split
  · rename_i heq
    subst heq
    rw [hs i hi] at hep
    cases hep
  · exact hs i hi

/-- The owners after attaching: the group attached, and what was owned by others
than the endpoint. -/
theorem owned_attach (hs : Fresh s) (hep : s.endpoints ep = some e) (g' : Nat) :
    (s.attachToEndpoint g ep).owned g' = true ↔ g' = g ∨ s.ownedBesides ep g' = true := by
  rw [owned_iff (fresh_attach hs hep), ownedBesides_iff hs, ownedElsewhere_attach]
  constructor
  · rintro (⟨i, e', he', hg'⟩ | hother)
    · rw [endpoints_attach] at he'
      split at he'
      · rw [hep] at he'
        cases he'
        cases hg'
        exact .inl rfl
      · rename_i hi
        exact .inr (.inl ⟨i, e', hi, he', hg'⟩)
    · exact .inr (.inr hother)
  · rintro (rfl | ⟨i, e', hi, he', hg'⟩ | hother)
    · refine .inl ⟨ep, { e with
        group := some g',
        events := Endpoint.asebaEvents (s.groups g').eventsTable }, ?_, rfl⟩
      simp [endpoints_attach, hep]
    · refine .inl ⟨i, e', ?_, hg'⟩
      simp [endpoints_attach, hi, he']
    · exact .inr hother

theorem owned_of_ownedBesides (hs : Fresh s) {g' : Nat} (h : s.ownedBesides ep g' = true) :
    s.owned g' = true := by
  rw [ownedBesides_iff hs] at h
  rw [owned_iff hs]
  exact h.imp (fun ⟨i, e, _, he, hg⟩ => ⟨i, e, he, hg⟩) id

theorem Bookkept.attach (hs : Bookkept s) (hep : s.endpoints ep = some e) (hg : g < s.nextGroup) :
    Bookkept (s.attachToEndpoint g ep) := by
  have hsome : (s.endpoints ep).isSome := by simp [hep]
  refine ⟨fresh_attach hs.fresh hep, fun g' i hi => ?_,
    nodup_endpoints_attach hsome hs.nodup, fun g' hg' => ?_⟩
  · rw [nextEndpoint_attach]
    rcases (mem_endpoints_attach hsome i g').mp hi with hi | ⟨-, rfl⟩
    · exact hs.listed g' i hi
    · refine Nat.lt_of_not_le fun hle => ?_
      rw [hs.fresh i hle] at hep
      cases hep
  · rw [nextGroup_attach]
    rcases (owned_attach hs.fresh hep g').mp hg' with rfl | hg'
    · exact hg
    · exact hs.born g' (owned_of_ownedBesides hs.fresh hg')

end Attach

/-! ## The other operations -/

/-- Changing the group record and all endpoints that it lists. -/
theorem updateAll_eq (hs : Bookkept s) (g : Nat) (f : Endpoint → Endpoint) (h : Group → Group) :
    (s.endpointsOf g).foldl (fun s ep => s.updateEndpoint ep f) (s.updateGroup g h) =
      { s with
        groups := Function.update s.groups g (h (s.groups g)),
        endpoints := fun i =>
          if i ∈ (s.groups g).endpoints then (s.endpoints i).map f else s.endpoints i } := by
  have hnodup : (s.endpointsOf g).Nodup := (hs.nodup g).sublist List.filter_sublist
  rw [foldl_updateEndpoint _ _ hnodup]
  unfold Groups.updateGroup
  congr 1
  funext i
  cases he : s.endpoints i with
  | none => simp
  | some e => simp [Groups.endpointsOf, he]

theorem setEventsTable_eq (hs : Bookkept s) (g : Nat) (events : List EventEntry) :
    s.setEventsTable g events =
      { s with
        groups := Function.update s.groups g { s.groups g with eventsTable := events },
        endpoints := fun i =>
          if i ∈ (s.groups g).endpoints then (s.endpoints i).map (·.setEventsTable events)
          else s.endpoints i } :=
  updateAll_eq hs g _ _

theorem setSharedVariables_eq (hs : Bookkept s) (g : Nat) (map : VariablesMap) :
    s.setSharedVariables g map =
      { s with
        groups := Function.update s.groups g { s.groups g with sharedVariables := map },
        endpoints := fun i =>
          if i ∈ (s.groups g).endpoints then (s.endpoints i).map (·.setSharedVariables map)
          else s.endpoints i } :=
  updateAll_eq hs g _ _

/-- A change that keeps who belongs to whom and gives no group a new owner. -/
structure Reshapes (s t : Groups) : Prop where
  lists : ∀ g, (t.groups g).endpoints = (s.groups g).endpoints
  endpoints : ∀ i e, t.endpoints i = some e → ∃ e', s.endpoints i = some e' ∧ e'.group = e.group
  owned : ∀ g, t.owned g = true → s.owned g = true
  nextEndpoint : t.nextEndpoint = s.nextEndpoint
  nextGroup : t.nextGroup = s.nextGroup

theorem fresh_of_endpoints (hs : Fresh s)
    (hendpoints : ∀ i e, t.endpoints i = some e → ∃ e', s.endpoints i = some e' ∧ e'.group = e.group)
    (hnext : t.nextEndpoint = s.nextEndpoint) : Fresh t := by
  intro i hi
  cases he : t.endpoints i with
  | none => rfl
  | some e =>
    obtain ⟨e', he', -⟩ := hendpoints i e he
    rw [hnext] at hi
    rw [hs i hi] at he'
    cases he'

theorem Reshapes.of_owners (hs : Fresh s)
    (hlists : ∀ g, (t.groups g).endpoints = (s.groups g).endpoints)
    (hendpoints : ∀ i e, t.endpoints i = some e → ∃ e', s.endpoints i = some e' ∧ e'.group = e.group)
    (howners : ∀ g, OwnedElsewhere t g → s.owned g = true)
    (hendpoint : t.nextEndpoint = s.nextEndpoint) (hgroup : t.nextGroup = s.nextGroup) :
    Reshapes s t := by
  refine ⟨hlists, hendpoints, fun g hg => ?_, hendpoint, hgroup⟩
  rcases (owned_iff (fresh_of_endpoints hs hendpoints hendpoint) g).mp hg with ⟨i, e, he, hg⟩ | hg
  · obtain ⟨e', he', hsame⟩ := hendpoints i e he
    exact (owned_iff hs g).mpr (.inl ⟨i, e', he', hsame.trans hg⟩)
  · exact howners g hg

theorem Reshapes.trans {u : Groups} (hst : Reshapes s t) (htu : Reshapes t u) : Reshapes s u where
  lists g := (htu.lists g).trans (hst.lists g)
  endpoints i e he := by
    obtain ⟨e', he', hsame⟩ := htu.endpoints i e he
    obtain ⟨e'', he'', hsame'⟩ := hst.endpoints i e' he'
    exact ⟨e'', he'', hsame'.trans hsame⟩
  owned g h := hst.owned g (htu.owned g h)
  nextEndpoint := htu.nextEndpoint.trans hst.nextEndpoint
  nextGroup := htu.nextGroup.trans hst.nextGroup

theorem Reshapes.bookkept (h : Reshapes s t) (hs : Bookkept s) : Bookkept t :=
  hs.of_owners (fresh_of_endpoints hs.fresh h.endpoints h.nextEndpoint) h.nextEndpoint h.nextGroup
    h.lists h.owned

theorem owned_of_elsewhere (hs : Fresh s) {g : Nat} (h : OwnedElsewhere s g) : s.owned g = true :=
  (owned_iff hs g).mpr (.inr h)

theorem reshapes_updateAll (hs : Fresh s) (g : Nat) (gr : Group)
    (hgr : gr.endpoints = (s.groups g).endpoints)
    (f : Endpoint → Endpoint) (hf : ∀ e, (f e).group = e.group) :
    Reshapes s { s with
      groups := Function.update s.groups g gr,
      endpoints := fun i =>
        if i ∈ (s.groups g).endpoints then (s.endpoints i).map f else s.endpoints i } := by
  refine .of_owners hs (fun g' => ?_) (fun i e he => ?_) (fun g' h => owned_of_elsewhere hs h) rfl rfl
  · by_cases hg : g' = g
    · subst hg
      simp [hgr]
    · simp [hg]
  · dsimp only at he
    split at he
    · obtain ⟨e', he', rfl⟩ := Option.map_eq_some_iff.mp he
      exact ⟨e', he', (hf e').symm⟩
    · exact ⟨e, he, rfl⟩

theorem reshapes_setEventsTable (hs : Bookkept s) (g : Nat) (events : List EventEntry) :
    Reshapes s (s.setEventsTable g events) := by
  rw [setEventsTable_eq hs]
  exact reshapes_updateAll hs.fresh g { s.groups g with eventsTable := events } rfl _ fun e => rfl

theorem reshapes_setSharedVariables (hs : Bookkept s) (g : Nat) (map : VariablesMap) :
    Reshapes s (s.setSharedVariables g map) := by
  rw [setSharedVariables_eq hs]
  exact reshapes_updateAll hs.fresh g { s.groups g with sharedVariables := map } rfl _ fun e => rfl

theorem reshapes_destroy (hs : Fresh s) (ep : Nat) :
    Reshapes s { s with endpoints := Function.update s.endpoints ep none } := by
  refine .of_owners hs (fun g => rfl) (fun i e he => ?_) (fun g h => owned_of_elsewhere hs h) rfl rfl
  by_cases hi : i = ep
  · subst hi
    simp at he
  · exact ⟨e, by simpa [hi] using he, rfl⟩

theorem reshapes_hold (hs : Fresh s) {g : Nat} (hg : s.owned g = true) :
    Reshapes s { s with held := g :: s.held } := by
  refine .of_owners hs (fun g => rfl) (fun i e he => ⟨e, he, rfl⟩) (fun g' h => ?_) rfl rfl
  rcases h with h | h
  · exact owned_of_elsewhere hs (.inl h)
  · obtain rfl | h := List.mem_cons.mp h
    · exact hg
    · exact owned_of_elsewhere hs (.inr h)

theorem reshapes_release (hs : Fresh s) (g : Nat) :
    Reshapes s { s with held := s.held.erase g } := by
  refine .of_owners hs (fun g => rfl) (fun i e he => ⟨e, he, rfl⟩) (fun g' h => ?_) rfl rfl
  exact owned_of_elsewhere hs (h.imp id List.mem_of_mem_erase)

theorem reshapes_forget (hs : Fresh s) (uuid : Nat) :
    Reshapes s { s with ghostGroups := s.ghostGroups.erase uuid } := by
  refine .of_owners hs (fun g => rfl) (fun i e he => ⟨e, he, rfl⟩) (fun g' h => ?_) rfl rfl
  refine owned_of_elsewhere hs (h.imp ?_ id)
  rintro ⟨uuid', h⟩
  refine ⟨uuid', ?_⟩
  by_cases heq : uuid' = uuid
  · simp [heq] at h
  · simpa [heq] using h

@[simp] theorem endpoints_saveGroupAffiliation (uuid : Nat) (ep : Option Nat) :
    (s.saveGroupAffiliation uuid ep).endpoints = s.endpoints := by
  unfold Groups.saveGroupAffiliation
  split <;> rfl

@[simp] theorem groups_saveGroupAffiliation (uuid : Nat) (ep : Option Nat) :
    (s.saveGroupAffiliation uuid ep).groups = s.groups := by
  unfold Groups.saveGroupAffiliation
  split <;> rfl

theorem reshapes_saveGroupAffiliation (hs : Fresh s) (uuid : Nat) (ep : Option Nat) :
    Reshapes s (s.saveGroupAffiliation uuid ep) := by
  unfold Groups.saveGroupAffiliation
  split
  · rename_i g hg
    obtain ⟨e, he, hgroup⟩ := Option.bind_eq_some_iff.mp hg
    obtain ⟨i, -, hi⟩ := Option.bind_eq_some_iff.mp he
    refine .of_owners hs (fun g => rfl) (fun i e he => ⟨e, he, rfl⟩) (fun g' h => ?_) rfl rfl
    rcases h with ⟨uuid', h⟩ | h
    · by_cases heq : uuid' = uuid
      · obtain rfl : g = g' := by simpa [heq] using h
        exact (owned_iff hs g).mpr (.inl ⟨i, e, hi, hgroup⟩)
      · exact owned_of_elsewhere hs (.inl ⟨uuid', by simpa [heq] using h⟩)
    · exact owned_of_elsewhere hs (.inr h)
  · exact .of_owners hs (fun g => rfl) (fun i e he => ⟨e, he, rfl⟩)
      (fun g h => owned_of_elsewhere hs h) rfl rfl

/-! ## Every step keeps the books -/

/-- A new endpoint with a new group, before it is attached to it. -/
def withNewEndpoint (s : Groups) : Groups :=
  { s with
    endpoints := Function.update s.endpoints s.nextEndpoint (some {}),
    groups := Function.update s.groups s.nextGroup {},
    nextEndpoint := s.nextEndpoint + 1,
    nextGroup := s.nextGroup + 1 }

theorem createEndpoint_eq :
    s.createEndpoint = (withNewEndpoint s).attachToEndpoint s.nextGroup s.nextEndpoint := rfl

theorem groups_withNewEndpoint {g : Nat} (hg : g < s.nextGroup) :
    (withNewEndpoint s).groups g = s.groups g := by
  have hne : g ≠ s.nextGroup := by omega
  simp [withNewEndpoint, hne]

theorem fresh_withNewEndpoint (hs : Fresh s) : Fresh (withNewEndpoint s) := by
  intro i hi
  change s.nextEndpoint + 1 ≤ i at hi
  have hne : i ≠ s.nextEndpoint := by omega
  simpa [withNewEndpoint, hne] using hs i (by omega)

theorem owned_withNewEndpoint (hs : Fresh s) {g : Nat} (hg : (withNewEndpoint s).owned g = true) :
    s.owned g = true := by
  refine (owned_iff hs g).mpr (((owned_iff (fresh_withNewEndpoint hs) g).mp hg).imp ?_ id)
  rintro ⟨i, e, he, hgroup⟩
  by_cases hi : i = s.nextEndpoint
  · subst hi
    obtain rfl : {} = e := by simpa [withNewEndpoint] using he
    cases hgroup
  · exact ⟨i, e, by simpa [withNewEndpoint, hi] using he, hgroup⟩

theorem bookkept_withNewEndpoint (hs : Bookkept s) : Bookkept (withNewEndpoint s) := by
  refine ⟨fresh_withNewEndpoint hs.fresh, fun g i hi => ?_, fun g => ?_, fun g hg => ?_⟩
  · change i < s.nextEndpoint + 1
    by_cases hg : g = s.nextGroup
    · subst hg
      simp [withNewEndpoint] at hi
    · have hlt := hs.listed g i (by simpa [withNewEndpoint, hg] using hi)
      omega
  · by_cases hg : g = s.nextGroup
    · subst hg
      simp [withNewEndpoint]
    · simpa [withNewEndpoint, hg] using hs.nodup g
  · exact Nat.lt_succ_of_lt (hs.born g (owned_withNewEndpoint hs.fresh hg))

theorem bookkept_createEndpoint (hs : Bookkept s) : Bookkept s.createEndpoint :=
  (bookkept_withNewEndpoint hs).attach (e := {}) (by simp) (Nat.lt_succ_self _)

theorem owned_restoredGroup (hs : Fresh s) {uuid ep g : Nat}
    (h : s.restoredGroup uuid ep = some g) :
    s.owned g = true ∧ ∃ e, s.endpoints ep = some e := by
  unfold Groups.restoredGroup at h
  split at h
  · rename_i g' e hghost he
    have hg : g' = g := by
      split at h
      · simpa using h
      · split at h
        · simpa using h
        · cases h
    subst hg
    exact ⟨owned_of_elsewhere hs (.inl ⟨uuid, hghost⟩), e, he⟩
  · cases h

/-- The endpoint that an event attaches, with the group. -/
def attached? (s : Groups) : Groups.Event → Option (Nat × Nat)
  | .nodeAffiliated uuid (some ep) => (s.restoredGroup uuid ep).map (·, ep)
  | .attachToEndpoint g ep => some (g, ep)
  | _ => none

theorem owned_of_attached {uuid : Nat} {ep : Option Nat} {g i : Nat} (hs : Fresh s)
    (h : attached? s (.nodeAffiliated uuid ep) = some (g, i)) :
    s.owned g = true ∧ ∃ e, s.endpoints i = some e := by
  cases ep with
  | none => cases h
  | some ep =>
    obtain ⟨g', hg', heq⟩ := Option.map_eq_some_iff.mp h
    obtain ⟨rfl, rfl⟩ := Prod.mk.inj heq
    exact owned_restoredGroup hs hg'

/-- An affiliation is an attachment, if there is one, and a change of the ghosts. -/
theorem affiliate_eq (uuid : Nat) (ep : Option Nat) :
    s.affiliate uuid ep =
      let attached :=
        match attached? s (.nodeAffiliated uuid ep) with
        | some (g, ep) => s.attachToEndpoint g ep
        | none => s
      { attached with
        ghostGroups := attached.ghostGroups.erase uuid }.saveGroupAffiliation uuid ep := by
  unfold Groups.affiliate Groups.restoreGroupAffiliation attached?
  cases ep <;> rfl

theorem reshapes_ghosts (hs : Fresh s) (uuid : Nat) (ep : Option Nat) :
    Reshapes s ({ s with
      ghostGroups := s.ghostGroups.erase uuid }.saveGroupAffiliation uuid ep) := by
  have hforget := reshapes_forget hs uuid
  have hfresh := fresh_of_endpoints hs hforget.endpoints hforget.nextEndpoint
  exact hforget.trans (reshapes_saveGroupAffiliation hfresh uuid ep)

theorem Bookkept.step {e : Groups.Event} (hs : Bookkept s) (h : s.step e = some t) : Bookkept t := by
  cases e with
  | endpointCreated =>
    cases h
    exact bookkept_createEndpoint hs
  | endpointDestroyed ep =>
    obtain ⟨e, -, rfl⟩ := Option.map_eq_some_iff.mp h
    exact (reshapes_destroy hs.fresh ep).bookkept hs
  | nodeAffiliated uuid ep =>
    cases h
    rw [affiliate_eq]
    cases hattached : attached? s (.nodeAffiliated uuid ep) with
    | none => exact (reshapes_ghosts hs.fresh uuid ep).bookkept hs
    | some target =>
      obtain ⟨g, ep'⟩ := target
      obtain ⟨howned, e, he⟩ := owned_of_attached hs.fresh hattached
      have hbookkept : Bookkept (s.attachToEndpoint g ep') := hs.attach he (hs.born g howned)
      exact (reshapes_ghosts hbookkept.fresh uuid ep).bookkept hbookkept
  | attachToEndpoint g ep =>
    obtain ⟨⟨howned, hep⟩, rfl⟩ : (s.owned g = true ∧ (s.endpoints ep).isSome = true) ∧
        s.attachToEndpoint g ep = t := by
      simpa [Groups.step] using h
    obtain ⟨e, he⟩ := Option.isSome_iff_exists.mp hep
    exact hs.attach he (hs.born g howned)
  | setEventsTable g events =>
    obtain ⟨-, rfl⟩ : s.owned g = true ∧ s.setEventsTable g events = t := by
      simpa [Groups.step] using h
    exact (reshapes_setEventsTable hs g events).bookkept hs
  | setSharedVariables g map =>
    obtain ⟨-, rfl⟩ : s.owned g = true ∧ s.setSharedVariables g map = t := by
      simpa [Groups.step] using h
    exact (reshapes_setSharedVariables hs g map).bookkept hs
  | loadCode g constants events =>
    obtain ⟨-, rfl⟩ : s.owned g = true ∧ s.loadCode g constants events = t := by
      simpa [Groups.step] using h
    have hvariables := (reshapes_setSharedVariables hs g (Groups.loadedVariables constants)).bookkept hs
    exact (reshapes_setEventsTable hvariables g _).bookkept hvariables
  | held g =>
    obtain ⟨howned, rfl⟩ : s.owned g = true ∧ { s with held := g :: s.held } = t := by
      simpa [Groups.step] using h
    exact (reshapes_hold hs.fresh howned).bookkept hs
  | released g =>
    obtain ⟨-, rfl⟩ : g ∈ s.held ∧ { s with held := s.held.erase g } = t := by
      simpa [Groups.step] using h
    exact (reshapes_release hs.fresh g).bookkept hs

/-! ## Agreement -/

/-- The endpoint is listed by the group it owns, and by no other group that is
there. -/
def ListedAt (s : Groups) (ep : Nat) (e : Endpoint) : Prop :=
  ∃ g, e.group = some g ∧ ∀ g', s.owned g' = true → (ep ∈ (s.groups g').endpoints ↔ g' = g)

/-- The endpoint has the events of the table of its group. -/
def EventsAt (s : Groups) (e : Endpoint) : Prop :=
  ∀ g, e.group = some g → e.events = Endpoint.asebaEvents (s.groups g).eventsTable

/-- Every endpoint is a member of exactly one group, and has its events. -/
def MembershipAgrees (s : Groups) : Prop :=
  ∀ ep e, s.endpoints ep = some e → ListedAt s ep e ∧ EventsAt s e

theorem ListedAt.of_reshapes (h : Reshapes s t) {i : Nat} {e e' : Endpoint}
    (he : ListedAt s i e') (hsame : e'.group = e.group) : ListedAt t i e := by
  obtain ⟨g, hg, hlisted⟩ := he
  refine ⟨g, hsame ▸ hg, fun g' hg' => ?_⟩
  rw [h.lists]
  exact hlisted g' (h.owned g' hg')

theorem MembershipAgrees.of_reshapes (hs : MembershipAgrees s) (h : Reshapes s t)
    (hevents : ∀ i e, t.endpoints i = some e →
      ∃ e', s.endpoints i = some e' ∧ e'.group = e.group ∧ e'.events = e.events)
    (htables : ∀ g, (t.groups g).eventsTable = (s.groups g).eventsTable) : MembershipAgrees t := by
  intro i e he
  obtain ⟨e', he', hgroup, heq⟩ := hevents i e he
  obtain ⟨hlisted, hevents'⟩ := hs i e' he'
  refine ⟨hlisted.of_reshapes h hgroup, fun g hg => ?_⟩
  rw [← heq, htables]
  exact hevents' g (hgroup.trans hg)

theorem MembershipAgrees.setEventsTable (hb : Bookkept s) (hs : MembershipAgrees s) {g : Nat}
    (hg : s.owned g = true) (events : List EventEntry) :
    MembershipAgrees (s.setEventsTable g events) := by
  have hreshapes := reshapes_setEventsTable hb g events
  intro i e he
  obtain ⟨e', he', hgroup⟩ := hreshapes.endpoints i e he
  obtain ⟨hlisted, hevents⟩ := hs i e' he'
  refine ⟨hlisted.of_reshapes hreshapes hgroup, fun gi hgi => ?_⟩
  have hmem : i ∈ (s.groups g).endpoints ↔ g = gi := by
    obtain ⟨g', hg', hiff⟩ := hlisted
    obtain rfl : g' = gi := by simpa [hgroup, hgi] using hg'.symm
    exact hiff g hg
  rw [setEventsTable_eq hb] at he ⊢
  by_cases hsame : g = gi
  · subst hsame
    obtain rfl : e'.setEventsTable events = e := by simpa [hmem, he'] using he
    simp [Endpoint.setEventsTable]
  · have hne : gi ≠ g := fun h => hsame h.symm
    obtain rfl : e' = e := by simpa [hmem, hsame, he'] using he
    simpa [hne] using hevents gi (hgroup.trans hgi)

theorem MembershipAgrees.setSharedVariables (hb : Bookkept s) (hs : MembershipAgrees s) (g : Nat)
    (map : VariablesMap) : MembershipAgrees (s.setSharedVariables g map) := by
  refine hs.of_reshapes (reshapes_setSharedVariables hb g map) (fun i e he => ?_) fun g' => ?_
  · rw [setSharedVariables_eq hb] at he
    dsimp only at he
    split at he
    · obtain ⟨e', he', rfl⟩ := Option.map_eq_some_iff.mp he
      exact ⟨e', he', rfl, rfl⟩
    · exact ⟨e, he, rfl, rfl⟩
  · rw [setSharedVariables_eq hb]
    by_cases hg : g' = g
    · subst hg
      simp
    · simp [hg]

/-- Attaching keeps the agreement of the other endpoints and brings about that of
the endpoint, when the groups that list it besides the new one have no owner left. -/
theorem agrees_attach (hb : Bookkept s) {g ep : Nat} {e : Endpoint} (hep : s.endpoints ep = some e)
    (hothers : ∀ i e, i ≠ ep → s.endpoints i = some e → ListedAt s i e ∧ EventsAt s e)
    (hgroup : s.owned g = true ∨ (s.groups g).endpoints = [])
    (hleft : ∀ g', g' ≠ g → s.ownedBesides ep g' = true → ep ∉ (s.groups g').endpoints) :
    MembershipAgrees (s.attachToEndpoint g ep) := by
  have hsome : (s.endpoints ep).isSome := by simp [hep]
  intro i e' he'
  rw [endpoints_attach] at he'
  split at he'
  · rename_i hi
    subst hi
    rw [hep] at he'
    obtain rfl : { e with
        group := some g, events := Endpoint.asebaEvents (s.groups g).eventsTable } = e' := by
      simpa using he'
    refine ⟨⟨g, rfl, fun g' hg' => ?_⟩, fun g' hg' => ?_⟩
    · rw [mem_endpoints_attach hsome]
      constructor
      · rintro (hlisted | ⟨rfl, -⟩)
        · by_contra hne
          rcases (owned_attach hb.fresh hep g').mp hg' with h | h
          · exact hne h
          · exact hleft g' hne h hlisted
        · rfl
      · rintro rfl
        exact .inr ⟨rfl, rfl⟩
    · obtain rfl : g = g' := by simpa using hg'
      rw [eventsTable_attach]
  · rename_i hi
    obtain ⟨⟨gi, hgi, hlisted⟩, hevents⟩ := hothers i e' hi he'
    refine ⟨⟨gi, hgi, fun g' hg' => ?_⟩, fun g' hg' => ?_⟩
    · have hmem : i ∈ ((s.attachToEndpoint g ep).groups g').endpoints ↔ i ∈ (s.groups g').endpoints := by
        rw [mem_endpoints_attach hsome]
        simp [hi]
      rw [hmem]
      have howned : s.owned gi = true := (owned_iff hb.fresh gi).mpr (.inl ⟨i, e', he', hgi⟩)
      rcases (owned_attach hb.fresh hep g').mp hg' with rfl | h
      · rcases hgroup with hg | hnil
        · exact hlisted g' hg
        · -- the group is new, so nobody is in it
          rw [hnil]
          constructor
          · rintro ⟨⟩
          · rintro rfl
            have hmember := (hlisted g' howned).mpr rfl
            rw [hnil] at hmember
            exact hmember
      · exact hlisted g' (owned_of_ownedBesides hb.fresh h)
    · rw [eventsTable_attach]
      exact hevents g' hg'

theorem MembershipAgrees.createEndpoint (hb : Bookkept s) (hs : MembershipAgrees s) :
    MembershipAgrees s.createEndpoint := by
  have hnew := bookkept_withNewEndpoint hb
  rw [createEndpoint_eq]
  refine agrees_attach hnew (e := {}) (by simp [withNewEndpoint]) (fun i e hi he => ?_) (.inr ?_) ?_
  · have he' : s.endpoints i = some e := by simpa [withNewEndpoint, hi] using he
    obtain ⟨⟨g, hg, hlisted⟩, hevents⟩ := hs i e he'
    refine ⟨⟨g, hg, fun g' hg' => ?_⟩, fun g' hg' => ?_⟩
    · have howned := owned_withNewEndpoint hb.fresh hg'
      rw [groups_withNewEndpoint (hb.born g' howned)]
      exact hlisted g' howned
    · have howned : s.owned g' = true := (owned_iff hb.fresh g').mpr (.inl ⟨i, e, he', hg'⟩)
      rw [groups_withNewEndpoint (hb.born g' howned)]
      exact hevents g' hg'
  · simp [withNewEndpoint]
  · intro g' hne howned hlisted
    have hlisted' : s.nextEndpoint ∈ (s.groups g').endpoints := by
      simpa [withNewEndpoint, hne] using hlisted
    exact absurd (hb.listed g' _ hlisted') (Nat.lt_irrefl _)

theorem MembershipAgrees.ghosts (hb : Fresh s) (hs : MembershipAgrees s) (uuid : Nat)
    (ep : Option Nat) :
    MembershipAgrees ({ s with
      ghostGroups := s.ghostGroups.erase uuid }.saveGroupAffiliation uuid ep) := by
  refine hs.of_reshapes (reshapes_ghosts hb uuid ep) (fun i e he => ⟨e, ?_, rfl, rfl⟩) fun g => ?_
  · rwa [endpoints_saveGroupAffiliation] at he
  · rw [groups_saveGroupAffiliation]

theorem owned_setSharedVariables (hb : Bookkept s) (g : Nat) (map : VariablesMap) {g' : Nat}
    (h : s.owned g' = true) : (s.setSharedVariables g map).owned g' = true := by
  have hfresh := ((reshapes_setSharedVariables hb g map).bookkept hb).fresh
  rw [owned_iff hfresh, setSharedVariables_eq hb]
  refine ((owned_iff hb.fresh g').mp h).imp ?_ id
  rintro ⟨i, e, he, hg⟩
  by_cases hi : i ∈ (s.groups g).endpoints
  · exact ⟨i, e.setSharedVariables map, by simp [hi, he], hg⟩
  · exact ⟨i, e, by simp [hi, he], hg⟩

/-- Nothing else owns the group that an endpoint leaves for another one. -/
def leavesFreely (s : Groups) (e : Groups.Event) : Bool :=
  match attached? s e with
  | none => true
  | some (g, ep) =>
    match (s.endpoints ep).bind (·.group) with
    | none => true
    | some former => former = g || !s.ownedBesides ep former

theorem MembershipAgrees.attach (hb : Bookkept s) (hs : MembershipAgrees s) {g ep : Nat}
    (hg : s.owned g = true) {e : Endpoint} (hep : s.endpoints ep = some e)
    (hleaves : ∀ former, e.group = some former → former = g ∨ s.ownedBesides ep former = false) :
    MembershipAgrees (s.attachToEndpoint g ep) := by
  refine agrees_attach hb hep (fun i e _ he => hs i e he) (.inl hg) fun g' hne howned hlisted => ?_
  obtain ⟨former, hformer, hiff⟩ := (hs ep e hep).1
  obtain rfl : g' = former := (hiff g' (owned_of_ownedBesides hb.fresh howned)).mp hlisted
  rcases hleaves g' hformer with h | h
  · exact hne h
  · rw [h] at howned
    cases howned

theorem MembershipAgrees.step (hb : Bookkept s) (hs : MembershipAgrees s) {e : Groups.Event}
    (hleaves : leavesFreely s e = true) (h : s.step e = some t) : MembershipAgrees t := by
  have hsame : ∀ t : Groups, t.endpoints = s.endpoints → t.groups = s.groups → Reshapes s t →
      MembershipAgrees t := by
    intro t hendpoints hgroups hreshapes
    refine hs.of_reshapes hreshapes (fun i e he => ⟨e, ?_, rfl, rfl⟩) fun g => ?_
    · rw [← hendpoints]
      exact he
    · rw [hgroups]
  cases e with
  | endpointCreated =>
    cases h
    exact hs.createEndpoint hb
  | endpointDestroyed ep =>
    obtain ⟨e, -, rfl⟩ := Option.map_eq_some_iff.mp h
    refine hs.of_reshapes (reshapes_destroy hb.fresh ep) (fun i e he => ⟨e, ?_, rfl, rfl⟩) fun g => rfl
    by_cases hi : i = ep
    · subst hi
      simp at he
    · simpa [hi] using he
  | nodeAffiliated uuid ep =>
    cases h
    rw [affiliate_eq]
    cases hattached : attached? s (.nodeAffiliated uuid ep) with
    | none => exact hs.ghosts hb.fresh uuid ep
    | some target =>
      obtain ⟨g, ep'⟩ := target
      obtain ⟨howned, e, he⟩ := owned_of_attached hb.fresh hattached
      have hagrees : MembershipAgrees (s.attachToEndpoint g ep') := by
        refine hs.attach hb howned he fun former hformer => ?_
        simpa [leavesFreely, hattached, he, hformer] using hleaves
      exact hagrees.ghosts (fresh_attach hb.fresh he) uuid ep
  | attachToEndpoint g ep =>
    obtain ⟨⟨howned, hep⟩, rfl⟩ : (s.owned g = true ∧ (s.endpoints ep).isSome = true) ∧
        s.attachToEndpoint g ep = t := by
      simpa [Groups.step] using h
    obtain ⟨e, he⟩ := Option.isSome_iff_exists.mp hep
    refine hs.attach hb howned he fun former hformer => ?_
    simpa [leavesFreely, attached?, he, hformer] using hleaves
  | setEventsTable g events =>
    obtain ⟨howned, rfl⟩ : s.owned g = true ∧ s.setEventsTable g events = t := by
      simpa [Groups.step] using h
    exact hs.setEventsTable hb howned events
  | setSharedVariables g map =>
    obtain ⟨-, rfl⟩ : s.owned g = true ∧ s.setSharedVariables g map = t := by
      simpa [Groups.step] using h
    exact hs.setSharedVariables hb g map
  | loadCode g constants events =>
    obtain ⟨howned, rfl⟩ : s.owned g = true ∧ s.loadCode g constants events = t := by
      simpa [Groups.step] using h
    have hvariables := (reshapes_setSharedVariables hb g (Groups.loadedVariables constants)).bookkept hb
    exact (hs.setSharedVariables hb g _).setEventsTable hvariables
      (owned_setSharedVariables hb g _ howned) _
  | held g =>
    obtain ⟨howned, rfl⟩ : s.owned g = true ∧ { s with held := g :: s.held } = t := by
      simpa [Groups.step] using h
    exact hsame _ rfl rfl (reshapes_hold hb.fresh howned)
  | released g =>
    obtain ⟨-, rfl⟩ : g ∈ s.held ∧ { s with held := s.held.erase g } = t := by
      simpa [Groups.step] using h
    exact hsame _ rfl rfl (reshapes_release hb.fresh g)

theorem bookkept_start : Bookkept {} := by
  refine ⟨fun i _ => rfl, by simp, by simp, fun g hg => ?_⟩
  simp [Groups.owned] at hg

/-- In every run whose endpoints all leave a group to which nothing else holds. -/
theorem membership_agrees (events : List Groups.Event)
    (hleaves : Transition.Along Groups.step (fun _ s e => leavesFreely s e = true) [] {} events)
    (s : Groups) (hrun : Transition.run Groups.step {} events = some s) : MembershipAgrees s := by
  have hinv := Transition.invariant (I := fun _ s => Bookkept s ∧ MembershipAgrees s)
    (fun past s e t hs hleaves h => ⟨hs.1.step h, hs.2.step hs.1 hleaves h⟩)
    ⟨bookkept_start, fun ep e he => by cases he⟩ hleaves hrun
  exact hinv.2

/-- A robot is unplugged and comes back under the uuid that it has shown before. -/
def replugged : List Groups.Event :=
  [.endpointCreated, .nodeAffiliated 1 (some 0), .setEventsTable 0 [{ name := "ping", size := 1 }],
    .endpointDestroyed 0, .endpointCreated, .nodeAffiliated 1 (some 1),
    .setEventsTable 0 [{ name := "pong", size := 2 }]]

theorem replugged_agrees :
    ∃ s, Transition.run Groups.step {} replugged = some s ∧ (s.endpoints 1).isSome ∧
      MembershipAgrees s := by
  have hthere : (Transition.run Groups.step {} replugged).any
      (fun s => (s.endpoints 1).isSome) = true := by decide
  obtain ⟨s, hrun, hsome⟩ := (Option.any_eq_true _ _).mp hthere
  exact ⟨s, hrun, hsome, membership_agrees replugged (by decide) s hrun⟩

/-- The same, but the node is there under a random uuid before the robot has told
its own. -/
def repluggedLate : List Groups.Event :=
  [.endpointCreated, .nodeAffiliated 1 (some 0), .endpointDestroyed 0, .endpointCreated,
    .nodeAffiliated 2 (some 1), .nodeAffiliated 1 (some 1)]

theorem repluggedLate_listed_twice :
    ¬ ∀ events s, Transition.run Groups.step {} events = some s → MembershipAgrees s := by
  intro h
  have htwice : (Transition.run Groups.step {} repluggedLate).any (fun s =>
      (s.endpoints 1).isSome && s.owned 0 && s.owned 1 &&
        (s.groups 0).endpoints.contains 1 && (s.groups 1).endpoints.contains 1) = true := by decide
  obtain ⟨s, hrun, hs⟩ := (Option.any_eq_true _ _).mp htwice
  simp only [Bool.and_eq_true, List.contains_iff_mem] at hs
  obtain ⟨⟨⟨⟨hsome, howned⟩, howned'⟩, hlisted⟩, hlisted'⟩ := hs
  obtain ⟨e, he⟩ := Option.isSome_iff_exists.mp hsome
  obtain ⟨⟨g, -, hiff⟩, -⟩ := h repluggedLate s hrun 1 e he
  have hzero := (hiff 0 howned).mp hlisted
  have hone := (hiff 1 howned').mp hlisted'
  omega

end GroupMembership

end ThymioDeviceManager.Correctness
