import Mathlib.Data.Finset.Card
import ThymioDeviceManager.Correctness.ScratchpadAssignment

/-! # Announced scratchpads

`modified` has every scratchpad that gets another node, but nothing is announced when the last loop is left
by its `return`. This is so when there are more scratchpads without a node than there are free
nodes: filling a slot takes away one of each.
-/

namespace ThymioDeviceManager.Correctness

open Manager Manager.Scratchpads ScratchpadAssignment

namespace ScratchpadAnnouncements

variable {connected : List GroupNode} {pads : List Scratchpad} {slots slots' : List Slot}
  {allowed : List Slot → Nat → Prop}

/-! ## Modified scratchpads -/

/-- Every scratchpad with another node than before is modified. -/
def Marked (pads : List Scratchpad) (slots : List Slot) : Prop :=
  List.Forall₂ (fun s t => t.1.nodeid ≠ s.nodeid → t.2 = true) pads slots

theorem marked_cleared (connected : List GroupNode) (pads : List Scratchpad) :
    Marked pads (cleared connected pads) := by
  induction pads with
  | nil => exact List.Forall₂.nil
  | cons s pads ih =>
    refine List.Forall₂.cons ?_ ih
    beta_reduce
    unfold clearSlot
    split_ifs
    · exact fun h => absurd rfl h
    · exact fun _ => rfl

theorem Marked.getElem? {i : Nat} {s : Scratchpad} {t : Slot} (h : Marked pads slots)
    (hs : pads[i]? = some s) (ht : slots[i]? = some t) (hne : t.1.nodeid ≠ s.nodeid) :
    t.2 = true := by
  induction h generalizing i with
  | nil => cases hs
  | cons hmarked hrest ih =>
    cases i with
    | zero =>
      cases hs
      cases ht
      exact hmarked hne
    | succ i => exact ih hs ht

theorem marked_reassign {pre post : List Slot} {s : Slot} (id : Nat)
    (h : Marked pads (pre ++ s :: post)) : Marked pads (pre ++ reassign id s :: post) := by
  induction pre generalizing pads with
  | nil =>
    cases h with
    | cons hs hpost => exact List.Forall₂.cons (fun _ => rfl) hpost
  | cons t pre ih =>
    cases h with
    | cons ht hrest => exact List.Forall₂.cons ht (ih hrest)

theorem marked_assigned : Marked pads (assigned connected pads).1 := by
  have hfills := fills_known_assignMatching.trans (rested_assigned connected pads).fills.known
  refine Fills.keep (fun slots slots' hfill h => ?_) hfills (marked_cleared connected pads)
  cases hfill with
  | mk hnil hid => exact marked_reassign _ h

/-! ## Slots and nodes -/

/-- How many scratchpads have no node. -/
def nilCount (slots : List Slot) : Nat := slots.countP fun s => s.1.nodeid = 0

/-- The uuids of the free nodes. -/
def freeIds (connected : List GroupNode) (slots : List Slot) : Finset Nat :=
  (uuids connected).toFinset \ (usedIds slots).toFinset

theorem freeIds_eq_empty (h : freeNodes connected slots = []) : freeIds connected slots = ∅ := by
  rw [freeIds, Finset.sdiff_eq_empty_iff_subset]
  intro id hid
  obtain ⟨n, hn, rfl⟩ := List.mem_map.mp (List.mem_toFinset.mp hid)
  by_contra hused
  have hfree := mem_freeNodes.mpr ⟨hn, fun hmem => hused (List.mem_toFinset.mpr hmem)⟩
  rw [h] at hfree
  cases hfree

section Counts

variable (hzero : 0 ∉ uuids connected)

include hzero

theorem ne_zero_of_known {id : Nat} (h : id ∈ uuids connected) : id ≠ 0 :=
  fun hid => hzero (hid ▸ h)

/-- A step takes one slot and one uuid. -/
theorem counts_reassign (pre post : List Slot) {s : Slot} {id : Nat} (hnil : s.1.nodeid = 0)
    (hid : id ∈ uuids connected) :
    nilCount (pre ++ s :: post) = nilCount (pre ++ reassign id s :: post) + 1 ∧
      freeIds connected (pre ++ reassign id s :: post) =
        (freeIds connected (pre ++ s :: post)).erase id := by
  have hne := ne_zero_of_known hzero hid
  constructor
  · simp only [nilCount, List.countP_append, List.countP_cons, nodeid_reassign, hnil, hne,
      decide_true, decide_false, if_true, Bool.false_eq_true, if_false]
    omega
  · have hused : (usedIds (pre ++ reassign id s :: post)).toFinset =
        insert id (usedIds (pre ++ s :: post)).toFinset := by
      rw [usedIds_append, usedIds_append, usedIds_cons_of_nil hnil, usedIds_cons hne]
      ext i
      simp only [nodeid_reassign, List.mem_toFinset, List.mem_append, List.mem_cons,
        Finset.mem_insert]
      exact or_left_comm
    rw [freeIds, hused, Finset.sdiff_insert, freeIds]

/-- There are nodes for all scratchpads, and stay so. -/
theorem Fill.enough (h : Fill (Known connected) slots slots')
    (henough : nilCount slots ≤ (freeIds connected slots).card) :
    nilCount slots' ≤ (freeIds connected slots').card := by
  cases h with
  | @mk pre post s id hnil hid =>
    obtain ⟨hcount, hfree⟩ := counts_reassign hzero pre post hnil hid
    have hcard := Finset.pred_card_le_card_erase (s := freeIds connected (pre ++ s :: post)) (a := id)
    rw [hfree]
    omega

/-- There are not, and a free node is only taken for one of them. -/
theorem Fill.lack (h : Fill (Free connected) slots slots')
    (hlack : (freeIds connected slots).card < nilCount slots) :
    (freeIds connected slots').card < nilCount slots' := by
  cases h with
  | @mk pre post s id hnil hid =>
    obtain ⟨hcount, hfree⟩ := counts_reassign hzero pre post hnil hid.1
    have hmem : id ∈ freeIds connected (pre ++ s :: post) := by
      rw [freeIds, Finset.mem_sdiff, List.mem_toFinset, List.mem_toFinset]
      exact hid
    have hcard := Finset.card_erase_add_one hmem
    rw [hfree]
    omega

end Counts

/-! ## The first loop -/

/-- The scratchpads that have no connected node. -/
def unassigned (connected : List GroupNode) (pads : List Scratchpad) : List Scratchpad :=
  pads.filter fun s => !(s.nodeid ∈ uuids connected)

/-- The connected nodes that no scratchpad has. -/
def unusedIds (connected : List GroupNode) (pads : List Scratchpad) : Finset Nat :=
  (uuids connected).toFinset \ (pads.map (·.nodeid)).toFinset

theorem clearSlot_of_mem {s : Slot} (h : s.1.nodeid ∈ uuids connected) : clearSlot connected s = s :=
  if_pos h

theorem clearSlot_of_not_mem {s : Slot} (h : s.1.nodeid ∉ uuids connected) :
    clearSlot connected s = reassign 0 s :=
  if_neg h

theorem nilCount_cleared (hzero : 0 ∉ uuids connected) (pads : List Scratchpad) :
    nilCount (cleared connected pads) = (unassigned connected pads).length := by
  rw [nilCount, cleared, List.countP_map, unassigned, ← List.countP_eq_length_filter]
  apply List.countP_congr
  intro s _
  by_cases h : s.nodeid ∈ uuids connected
  · have hne : s.nodeid ≠ 0 := ne_zero_of_known hzero h
    simp [clearSlot_of_mem (s := (s, false)) h, h, hne]
  · simp [clearSlot_of_not_mem (s := (s, false)) h, h]

theorem freeIds_cleared (hzero : 0 ∉ uuids connected) (pads : List Scratchpad) :
    freeIds connected (cleared connected pads) = unusedIds connected pads := by
  ext id
  rw [freeIds, unusedIds, Finset.mem_sdiff, Finset.mem_sdiff]
  apply and_congr_right
  intro hid
  rw [List.mem_toFinset] at hid
  rw [List.mem_toFinset, List.mem_toFinset, mem_usedIds, List.mem_map]
  apply not_congr
  constructor
  · rintro ⟨hne, t, ht, rfl⟩
    obtain ⟨s, hs, rfl⟩ := List.mem_map.mp ht
    refine ⟨s, hs, ?_⟩
    by_cases h : s.nodeid ∈ uuids connected
    · rw [clearSlot_of_mem (s := (s, false)) h]
    · rw [clearSlot_of_not_mem (s := (s, false)) h] at hne
      exact absurd rfl hne
  · rintro ⟨s, hs, rfl⟩
    refine ⟨ne_zero_of_known hzero hid, _, List.mem_map_of_mem hs, ?_⟩
    rw [clearSlot_of_mem (s := (s, false)) hid]

/-! ## No free node -/

theorem assign_of_no_free (predicate : GroupNode → Scratchpad → Bool)
    (h : freeNodes connected slots = []) : assign predicate connected slots = slots := by
  rw [assign, h]
  rfl

theorem assignRest_of_no_free {done rest : List Slot} (h : freeNodes connected (done ++ rest) = []) :
    (assignRest connected done rest).1 = done ++ rest := by
  induction rest generalizing done with
  | nil => rw [assignRest, List.append_nil]
  | cons s rest ih =>
    rw [assignRest, h]
    split_ifs
    · rfl
    · have hrest := @ih (done ++ [s])
      rw [List.append_assoc, List.singleton_append] at hrest
      exact hrest h

theorem assigned_of_no_free (h : freeNodes connected (cleared connected pads) = []) :
    (assigned connected pads).1 = cleared connected pads := by
  have hmatching : assignMatching connected pads = cleared connected pads := by
    change assign _ connected (assign _ connected (assign _ connected (cleared connected pads))) = _
    rw [assign_of_no_free _ h, assign_of_no_free _ h, assign_of_no_free _ h]
  rw [assigned, hmatching]
  exact @assignRest_of_no_free connected [] _ h

theorem freeNodes_eq_nil (h : freeIds connected slots = ∅) : freeNodes connected slots = [] := by
  rw [List.eq_nil_iff_forall_not_mem]
  intro n hn
  obtain ⟨hmem, hunused⟩ := mem_freeNodes.mp hn
  have hid : n.uuid ∈ freeIds connected slots := by
    rw [freeIds, Finset.mem_sdiff, List.mem_toFinset, List.mem_toFinset]
    exact ⟨List.mem_map_of_mem hmem, hunused⟩
  rw [h] at hid
  exact absurd hid (Finset.notMem_empty _)

/-! ## The return -/

theorem nilCount_pos {s : Slot} (hs : s ∈ slots) (hnil : s.1.nodeid = 0) : 0 < nilCount slots :=
  List.countP_pos_iff.mpr ⟨s, hs, by simpa using hnil⟩

/-- With nodes for all scratchpads the last loop is not left by the `return`. -/
theorem not_returned (hzero : 0 ∉ uuids connected)
    (h : (unassigned connected pads).length ≤ (unusedIds connected pads).card) :
    (assigned connected pads).2 = false := by
  rw [← nilCount_cleared hzero, ← freeIds_cleared hzero] at h
  have hfills := fills_known_assignMatching.trans (rested_assigned connected pads).fills.known
  have henough := Fills.keep (fun _ _ hfill => Fill.enough hzero hfill) hfills h
  by_contra hreturned
  obtain ⟨hfree, s, hs, hnil⟩ :=
    (rested_assigned connected pads).returned (Bool.not_eq_false _ ▸ hreturned)
  rw [freeIds_eq_empty hfree, Finset.card_empty] at henough
  have hpos := nilCount_pos hs hnil
  omega

/-- A node without a uuid is free at all times. -/
theorem not_returned_of_nil (h : 0 ∈ uuids connected) : (assigned connected pads).2 = false := by
  by_contra hreturned
  obtain ⟨hfree, -⟩ := (rested_assigned connected pads).returned (Bool.not_eq_false _ ▸ hreturned)
  obtain ⟨n, hn, hnil⟩ := List.mem_map.mp h
  have hmem : n ∈ freeNodes connected (assigned connected pads).1 :=
    mem_freeNodes.mpr ⟨hn, fun hused => (mem_usedIds.mp hused).1 hnil⟩
  rw [hfree] at hmem
  cases hmem

/-- Without, it is, if the nodes have different uuids. -/
theorem returned (hzero : 0 ∉ uuids connected) (hnodup : (uuids connected).Nodup)
    (h : (unusedIds connected pads).card < (unassigned connected pads).length) :
    (assigned connected pads).2 = true := by
  rw [← nilCount_cleared hzero, ← freeIds_cleared hzero] at h
  have hfills := (fills_assignMatching hnodup).trans (rested_assigned connected pads).fills
  have hlack := Fills.keep (fun _ _ hfill => Fill.lack hzero hfill) hfills h
  by_contra hleft
  have hall := (rested_assigned connected pads).left (Bool.not_eq_true _ ▸ hleft) hzero (by simp)
  have hnone : nilCount (assigned connected pads).1 = 0 := by
    rw [nilCount, List.countP_eq_zero]
    simpa using hall
  omega

end ScratchpadAnnouncements

open ScratchpadAnnouncements

/-- Every scratchpad that has another node after `assign_scratchpads` is announced. -/
def AnnouncesReassigned (nodes : List GroupNode) (pads : List Scratchpad) : Prop :=
  ∀ (i : Nat) (s s' : Scratchpad), pads[i]? = some s →
    (assignScratchpads nodes pads).1[i]? = some s' → s'.nodeid ≠ s.nodeid →
      s' ∈ (assignScratchpads nodes pads).2

/-- There are nodes for all scratchpads without one, or else nothing changes. -/
def NodesSuffice (connected : List GroupNode) (pads : List Scratchpad) : Prop :=
  0 ∈ uuids connected ∨ (unassigned connected pads).length ≤ (unusedIds connected pads).card ∨
    unusedIds connected pads = ∅ ∧ ∀ s ∈ unassigned connected pads, s.nodeid = 0

namespace ScratchpadAnnouncements

variable {nodes : List GroupNode} {pads : List Scratchpad}

theorem getElem?_assignScratchpads {i : Nat} {s' : Scratchpad}
    (h : (assignScratchpads nodes pads).1[i]? = some s') :
    ∃ t, (assigned (connectedNodes nodes) pads).1[i]? = some t ∧ t.1 = s' :=
  Option.map_eq_some_iff.mp (List.getElem?_map.symm.trans h)

theorem announces_of_not_returned (h : (assigned (connectedNodes nodes) pads).2 = false) :
    AnnouncesReassigned nodes pads := by
  intro i s s' hs hs' hne
  obtain ⟨t, ht, rfl⟩ := getElem?_assignScratchpads hs'
  have hmarked : t.2 = true := marked_assigned.getElem? hs ht hne
  have hannounced : (assignScratchpads nodes pads).2 =
      ((assigned (connectedNodes nodes) pads).1.filter (·.2)).map (·.1) := by
    unfold assigned at h
    simp [assignScratchpads, assigned, h]
  rw [hannounced]
  exact List.mem_map_of_mem (List.mem_filter.mpr ⟨List.mem_of_getElem? ht, hmarked⟩)

/-- Nothing changes. -/
theorem announces_of_no_change (hzero : 0 ∉ uuids (connectedNodes nodes))
    (hfree : unusedIds (connectedNodes nodes) pads = ∅)
    (hnil : ∀ s ∈ unassigned (connectedNodes nodes) pads, s.nodeid = 0) :
    AnnouncesReassigned nodes pads := by
  intro i s s' hs hs' hne
  obtain ⟨t, ht, rfl⟩ := getElem?_assignScratchpads hs'
  rw [← freeIds_cleared hzero] at hfree
  rw [assigned_of_no_free (freeNodes_eq_nil hfree), cleared, List.getElem?_map, hs] at ht
  cases ht
  replace hne : (clearSlot (connectedNodes nodes) (s, false)).1.nodeid ≠ s.nodeid := hne
  by_cases hmem : s.nodeid ∈ uuids (connectedNodes nodes)
  · rw [clearSlot_of_mem (s := (s, false)) hmem] at hne
    exact absurd rfl hne
  · have hs0 : s.nodeid = 0 :=
      hnil s (List.mem_filter.mpr ⟨List.mem_of_getElem? hs, by simpa using hmem⟩)
    rw [clearSlot_of_not_mem (s := (s, false)) hmem, hs0] at hne
    exact absurd rfl hne

/-- Where the loop is left by the `return`, a scratchpad with another node is not announced. -/
theorem nodeid_eq_of_returned (h : (assigned (connectedNodes nodes) pads).2 = true)
    (hannounces : AnnouncesReassigned nodes pads) {i : Nat} {s : Scratchpad} {t : Slot}
    (hs : pads[i]? = some s) (ht : (assigned (connectedNodes nodes) pads).1[i]? = some t) :
    t.1.nodeid = s.nodeid := by
  by_contra hne
  have hmap : (assignScratchpads nodes pads).1[i]? = some t.1 := by
    change ((assigned (connectedNodes nodes) pads).1.map (·.1))[i]? = some t.1
    rw [List.getElem?_map, ht]
    rfl
  have hnone : (assignScratchpads nodes pads).2 = [] := by
    unfold assigned at h
    simp [assignScratchpads, h]
  have hmem := hannounces i s t.1 hs hmap hne
  rw [hnone] at hmem
  cases hmem

theorem length_assigned : (assigned (connectedNodes nodes) pads).1.length = pads.length :=
  (marked_assigned.length_eq).symm

/-- Without nodes for all scratchpads, something changes unless no node is free. -/
theorem suffice_of_announces (hnodup : (uuids (connectedNodes nodes)).Nodup)
    (hannounces : AnnouncesReassigned nodes pads) : NodesSuffice (connectedNodes nodes) pads := by
  by_cases hzero : 0 ∈ uuids (connectedNodes nodes)
  · exact Or.inl hzero
  by_cases henough : (unassigned (connectedNodes nodes) pads).length ≤
      (unusedIds (connectedNodes nodes) pads).card
  · exact Or.inr (Or.inl henough)
  have hreturned := returned hzero hnodup (Nat.lt_of_not_le henough)
  have hsame := @nodeid_eq_of_returned nodes pads hreturned hannounces
  obtain ⟨hfree, -⟩ := (rested_assigned (connectedNodes nodes) pads).returned hreturned
  refine Or.inr (Or.inr ⟨?_, ?_⟩)
  · -- a node that was free is given to a scratchpad
    rw [Finset.eq_empty_iff_forall_notMem]
    intro id hid
    obtain ⟨hknown, hunused⟩ := Finset.mem_sdiff.mp hid
    have hused : id ∈ usedIds (assigned (connectedNodes nodes) pads).1 := by
      by_contra hnot
      have hmem : id ∈ freeIds (connectedNodes nodes) (assigned (connectedNodes nodes) pads).1 := by
        rw [freeIds, Finset.mem_sdiff]
        exact ⟨hknown, fun h => hnot (List.mem_toFinset.mp h)⟩
      rw [freeIds_eq_empty hfree] at hmem
      exact absurd hmem (Finset.notMem_empty _)
    obtain ⟨-, t, ht, rfl⟩ := mem_usedIds.mp hused
    obtain ⟨i, hi, hget⟩ := List.mem_iff_getElem.mp ht
    have hi' : i < pads.length := length_assigned ▸ hi
    have hold := hsame (List.getElem?_eq_getElem hi') (List.getElem?_eq_some_iff.mpr ⟨hi, hget⟩)
    apply hunused
    rw [List.mem_toFinset, hold]
    exact List.mem_map_of_mem (List.getElem_mem hi')
  · -- a scratchpad with another node has lost it
    intro s hs
    obtain ⟨hmem, hunknown⟩ := List.mem_filter.mp hs
    obtain ⟨i, hi, rfl⟩ := List.mem_iff_getElem.mp hmem
    have hi' : i < (assigned (connectedNodes nodes) pads).1.length := length_assigned ▸ hi
    have hold := hsame (List.getElem?_eq_getElem hi) (List.getElem?_eq_getElem hi')
    have hnow := mem_uuids_assigned _ (List.getElem_mem hi')
    rw [hold] at hnow
    rcases hnow with hnil | hknown
    · exact hnil
    · simp [hknown] at hunknown

end ScratchpadAnnouncements

/-- Every scratchpad that gets another node is announced if there are nodes enough, and where the nodes
have different uuids, only then. -/
theorem reassigned_announced (nodes : List GroupNode) (pads : List Scratchpad) :
    (NodesSuffice (connectedNodes nodes) pads → AnnouncesReassigned nodes pads) ∧
      (((connectedNodes nodes).map (·.uuid)).Nodup → AnnouncesReassigned nodes pads →
        NodesSuffice (connectedNodes nodes) pads) := by
  refine ⟨?_, suffice_of_announces⟩
  by_cases hzero : 0 ∈ uuids (connectedNodes nodes)
  · exact fun _ => announces_of_not_returned (not_returned_of_nil hzero)
  rintro (hnil | henough | ⟨hfree, hnil⟩)
  · exact absurd hnil hzero
  · exact announces_of_not_returned (not_returned hzero henough)
  · exact announces_of_no_change hzero hfree hnil

/-- One scratchpad for one node. -/
theorem oneScratchpad_announced :
    AnnouncesReassigned [⟨1, .available, 10, "left"⟩] [{ scratchpadId := 0 }] :=
  (reassigned_announced [⟨1, .available, 10, "left"⟩] [{ scratchpadId := 0 }]).1
    (Or.inr (Or.inl (by decide)))

/-- Two scratchpads for one node. -/
def twoScratchpads : List Scratchpad := [{ scratchpadId := 0 }, { scratchpadId := 1 }]

theorem oneNode_not_announced :
    ¬ AnnouncesReassigned [⟨1, .available, 10, "left"⟩] twoScratchpads := by
  intro h
  have hfirst := h 0 { scratchpadId := 0 } { scratchpadId := 0, nodeid := 1 } rfl (by decide)
    (by decide)
  exact absurd hfirst (by decide)

end ThymioDeviceManager.Correctness
