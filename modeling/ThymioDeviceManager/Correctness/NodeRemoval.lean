import ThymioDeviceManager.Correctness.ConnectedNodes

/-! # Removing a node of an endpoint

The loop of `aseba_endpoint::remove_node` looks at the first entry of the node table again and
again. It ends just where this is the entry to remove, or there is none.
-/

namespace ThymioDeviceManager.Correctness

open Manager Registration

/-- The node with the uuid is disconnected and removed, and nothing else happens to the nodes and
the tables. -/
structure RemovesNode (s : Network) (ep uuid : Nat) (table : List Nat) (s' : Network) : Prop where
  removed : s'.endpoints ep = some (table.filter fun r => (s.nodes r).map (·.uuid) ≠ some uuid)
  otherTables : ∀ e, e ≠ ep → s'.endpoints e = s.endpoints e
  disconnected : ∀ r ∈ table, (s.nodes r).map (·.uuid) = some uuid →
    (s'.nodes r).map (·.status) = some .disconnected
  otherNodes : ∀ r, r ∉ table ∨ (s.nodes r).map (·.uuid) ≠ some uuid → s'.nodes r = s.nodes r

/-- The call comes back. -/
def RemoveNodeReturns (s : Network) (ep uuid : Nat) (s' : Network) : Prop :=
  ∃ fuel, s.removeNodeLoop ep uuid 0 fuel = some s'

variable {s s' : Network} {ep uuid r : Nat} {table rest : List Nat}

/-- A round either ends the loop, or comes back to where it started. -/
theorem removeNodeLoop_succ (s : Network) (ep uuid fuel : Nat) :
    s.removeNodeLoop ep uuid 0 (fuel + 1) =
      (s.endpointRemoveNode ep uuid).or (s.removeNodeLoop ep uuid 0 fuel) := by
  rw [Network.removeNodeLoop, Network.endpointRemoveNode]
  cases s.endpoints ep with
  | none => rfl
  | some table =>
    cases table with
    | nil => rfl
    | cons r rest =>
      dsimp only [List.getElem?_cons_zero]
      split_ifs
      · rfl
      · rfl

/-- What the loop comes to, if it does, is what one look at the table comes to. -/
theorem removeNodeLoop_eq (s : Network) (ep uuid fuel : Nat) :
    s.removeNodeLoop ep uuid 0 (fuel + 1) = s.endpointRemoveNode ep uuid := by
  induction fuel with
  | zero =>
    rw [removeNodeLoop_succ, Network.removeNodeLoop, Option.or_none]
  | succ fuel ih => rw [removeNodeLoop_succ, ih, Option.or_self]

theorem removeNodeReturns_iff :
    RemoveNodeReturns s ep uuid s' ↔ s.endpointRemoveNode ep uuid = some s' := by
  constructor
  · rintro ⟨fuel, h⟩
    cases fuel with
    | zero => cases h
    | succ fuel => rwa [removeNodeLoop_eq] at h
  · exact fun h => ⟨1, (removeNodeLoop_eq s ep uuid 0).trans h⟩

/-- A first entry that is the one to remove is removed. -/
theorem removesNode_of_first {s : Network} (htable : s.endpoints ep = some (r :: rest))
    (hr : (s.nodes r).map (·.uuid) = some uuid)
    (hrest : ∀ t ∈ rest, (s.nodes t).map (·.uuid) ≠ some uuid) :
    RemovesNode s ep uuid (r :: rest)
      { s.setOtherStatus r .disconnected with
        endpoints :=
          Function.update (s.setOtherStatus r .disconnected).endpoints ep (some rest) } where
  removed := by
    rw [List.filter_cons_of_neg (by simpa using hr), List.filter_eq_self.mpr (by simpa using hrest)]
    exact Function.update_self ..
  otherTables e he := by
    rw [setOtherStatus_endpoints]
    exact Function.update_of_ne he ..
  disconnected t ht huuid := by
    rcases List.mem_cons.mp ht with rfl | ht
    · obtain ⟨node, hnode, -⟩ := Option.map_eq_some_iff.mp hr
      change ((s.setOtherStatus t .disconnected).nodes t).map _ = _
      rw [setOtherStatus_nodes, Network.updateNode]
      simp [hnode]
    · exact absurd huuid (hrest t ht)
  otherNodes t ht := by
    have hne : t ≠ r := by
      rintro rfl
      rcases ht with hnot | hnot
      · exact hnot List.mem_cons_self
      · exact hnot hr
    change (s.setOtherStatus r .disconnected).nodes t = _
    rw [setOtherStatus_nodes, Network.updateNode]
    exact Function.update_of_ne hne ..

/-- The call comes back and does what it is to do just if the first node of the table, in its
order, is the one to remove, or there is none. -/
theorem node_removed_iff (htable : s.endpoints ep = some table)
    (hdistinct : table.Pairwise fun r t => ∀ id, (s.nodes r).map (·.uuid) = some id →
      (s.nodes t).map (·.uuid) ≠ some id) :
    (∃ s', RemoveNodeReturns s ep uuid s' ∧ RemovesNode s ep uuid table s') ↔
      ∀ r ∈ table.head?, (s.nodes r).map (·.uuid) = some uuid := by
  simp only [removeNodeReturns_iff]
  cases table with
  | nil =>
    have hreturns : s.endpointRemoveNode ep uuid = some s := by
      rw [Network.endpointRemoveNode, htable]
    have hremoves : RemovesNode s ep uuid [] s :=
      ⟨htable, fun _ _ => rfl, fun _ h => absurd h List.not_mem_nil, fun _ _ => rfl⟩
    simpa using ⟨s, hreturns, hremoves⟩
  | cons r rest =>
    obtain ⟨hfirst, -⟩ := List.pairwise_cons.mp hdistinct
    by_cases hr : (s.nodes r).map (·.uuid) = some uuid
    · have hremoves := removesNode_of_first htable hr fun t ht => hfirst t ht uuid hr
      have hreturns : s.endpointRemoveNode ep uuid = some
          { s.setOtherStatus r .disconnected with
            endpoints :=
              Function.update (s.setOtherStatus r .disconnected).endpoints ep (some rest) } := by
        rw [Network.endpointRemoveNode, htable]
        exact if_pos hr
      exact ⟨fun _ t ht => by cases ht; exact hr, fun _ => ⟨_, hreturns, hremoves⟩⟩
    · have hnone : s.endpointRemoveNode ep uuid = none := by
        rw [Network.endpointRemoveNode, htable]
        exact if_neg hr
      rw [hnone]
      exact ⟨fun ⟨_, h, _⟩ => (by cases h), fun h => absurd (h r rfl) hr⟩

/-- A dongle with two robots. -/
def dongle : Network where
  nodes n :=
    if n = 0 then some { uuid := 5, status := .available, endpoint := 0 }
    else if n = 1 then some { uuid := 7, status := .available, endpoint := 0 }
    else none
  endpoints e := if e = 0 then some [0, 1] else none

theorem firstRobot_removed :
    ∃ s', RemoveNodeReturns dongle 0 5 s' ∧ RemovesNode dongle 0 5 [0, 1] s' :=
  (@node_removed_iff dongle 0 5 [0, 1] rfl
    (List.pairwise_pair.mpr fun id h => by cases h; decide)).mpr fun r h => by cases h; rfl

theorem secondRobot_not_removed : ¬ ∃ s', RemoveNodeReturns dongle 0 7 s' := by
  rintro ⟨s', h⟩
  rw [removeNodeReturns_iff] at h
  cases h

end ThymioDeviceManager.Correctness
