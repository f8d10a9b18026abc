import ThymioDeviceManager.Correctness.ConnectedNodes

/-! # Which of two nodes with one uuid is removed

When a node reports a uuid that another one is registered under, the endpoint of the other
is asked to remove the node with this uuid. It looks at the first node of its table only:
if that is not the old node, either the loop never ends or another node with the same uuid
goes, which may be the one that has just reported it.
-/

namespace ThymioDeviceManager.Correctness

open Manager Library

namespace Registration

/-! ## The node that is removed -/

/-- The old node, and no other, is removed from its endpoint and disconnected, and the node
that reported the uuid is registered under it. -/
structure Evicted (s t : Network) (n old : Nat) : Prop where
  removed : ∀ ep m, m ∈ (t.endpoints ep).getD [] ↔ m ∈ (s.endpoints ep).getD [] ∧ m ≠ old
  disconnected : ∀ m, t.nodes m =
    if m = old then (s.nodes m).map fun node => { node with status := .disconnected }
    else s.nodes m
  registered : ∀ node, s.nodes n = some node → t.asebaNodes.get? node.uuid = some n

section Eviction

variable {s network : Network} {n old uuid : Nat} {node oldNode : AsebaNode}

/-- The state in which the duplicate is looked for: the node has its new uuid and is not
registered. -/
def reported (s : Network) (n uuid : Nat) : Network :=
  (s.removeNode n).updateNode n fun node => { node with uuid }

theorem reported_nodes_of_ne {m : Nat} (hne : m ≠ n) : (reported s n uuid).nodes m = s.nodes m := by
  simp [reported, Network.updateNode, hne, removeNode_nodes]

theorem reported_endpoints : (reported s n uuid).endpoints = s.endpoints :=
  removeNode_endpoints s n

/-- The endpoint of the old node looks at the first node of its table. -/
theorem removeDuplicatedNode_eq (hold : s.nodes old = some oldNode) (hne : old ≠ n)
    (hreg : s.asebaNodes.get? node.uuid = some old) :
    s.removeDuplicatedNode n node =
      { s with asebaNodes := s.asebaNodes.erase node.uuid }.endpointRemoveNode oldNode.endpoint
        node.uuid := by
  simp only [Network.removeDuplicatedNode, hreg, if_neg hne, hold]

theorem removeDuplicatedNode_first (hs : Consistent s) (hold : s.nodes old = some oldNode)
    (hne : old ≠ n) (hreg : s.asebaNodes.get? node.uuid = some old) {rest : List Nat}
    (htable : s.endpoints oldNode.endpoint = some (old :: rest)) :
    ∃ network, s.removeDuplicatedNode n node = some network ∧
      network.nodes = (s.updateNode old fun node => { node with status := .disconnected }).nodes ∧
      network.endpoints = Function.update s.endpoints oldNode.endpoint (some rest) ∧
      ∀ id m, network.asebaNodes.get? id = some m ↔ s.asebaNodes.get? id = some m ∧ m ≠ old := by
  have huuid : (s.nodes old).map (·.uuid) = some node.uuid := by
    rw [hold, Option.map_some, hs.registered _ old oldNode hreg hold]
  rw [removeDuplicatedNode_eq hold hne hreg]
  unfold Network.endpointRemoveNode
  rw [htable]
  dsimp only
  rw [if_pos huuid]
  refine ⟨_, rfl, ?_, ?_, fun id m => ?_⟩
  · exact setOtherStatus_nodes _ old .disconnected
  · rw [setOtherStatus_endpoints]
  · have herased : ({ s with asebaNodes := s.asebaNodes.erase node.uuid } :
        Network).asebaNodes.get? id = some m ↔ s.asebaNodes.get? id = some m ∧ m ≠ old := by
      rw [Table.get?_erase]
      constructor
      · intro h
        split at h
        · cases h
        · rename_i hid
          refine ⟨h, ?_⟩
          rintro rfl
          exact hid (hs.once hold id node.uuid h hreg)
      · rintro ⟨h, hm⟩
        rw [if_neg]
        · exact h
        · rintro rfl
          rw [hreg] at h
          cases h
          exact hm rfl
    constructor
    · intro h
      exact herased.mp (setOtherStatus_get? h)
    · intro h
      exact setOtherStatus_get?_of_ne h.2 (herased.mpr h)

theorem removeDuplicatedNode_drops (hold : s.nodes old = some oldNode) (hne : old ≠ n)
    (hreg : s.asebaNodes.get? node.uuid = some old) {first : Nat} {rest : List Nat}
    (htable : s.endpoints oldNode.endpoint = some (first :: rest))
    (h : s.removeDuplicatedNode n node = some network) :
    network.endpoints oldNode.endpoint = some rest := by
  rw [removeDuplicatedNode_eq hold hne hreg] at h
  unfold Network.endpointRemoveNode at h
  rw [htable] at h
  dsimp only at h
  split at h
  · cases h
    exact Function.update_self _ _ _
  · cases h

end Eviction

section Report

variable {s t : Registry} {n old uuid depth : Nat} {node oldNode : AsebaNode}

theorem reported_node (hn : s.network.nodes n = some node) :
    (reported s.network n uuid).nodes n = some { node with uuid } := by
  simp [reported, Network.updateNode, removeNode_nodes, hn]

theorem reported_orderly (hs : Orderly (fun _ => False) s.network)
    (hn : s.network.nodes n = some node) : Orderly (· = n) (reported s.network n uuid) :=
  (hs.forget n).change (hs.toConsistent.rename hn uuid) fun _ => rfl

theorem handleNodeUuidChange_eq_some (hn : s.network.nodes n = some node) :
    (s.withUuid n uuid).handleNodeUuidChange depth n = some t ↔
      ∃ network next, (reported s.network n uuid).removeDuplicatedNode n { node with uuid } =
          some network ∧
        ({ s with network }.insert n { node with uuid }).restoreGroupAffiliation
          (Registry.addNode depth) [] { node with uuid } = some next ∧
        t = next.saveGroupAffiliation { node with uuid } := by
  have hn' : (s.withUuid n uuid).network.nodes n = some { node with uuid } := by
    simp [Registry.withUuid, Network.updateNode, hn]
  unfold Registry.handleNodeUuidChange
  simp only [hn', forgetNode_eq, withUuid_forgotten]
  constructor
  · intro h
    obtain ⟨network, hnetwork, h⟩ := Option.bind_eq_some_iff.mp h
    obtain ⟨next, hnext, h⟩ := Option.bind_eq_some_iff.mp h
    cases h
    exact ⟨network, next, hnetwork, hnext, rfl⟩
  · rintro ⟨network, next, hnetwork, hnext, rfl⟩
    exact Option.bind_eq_some_iff.mpr
      ⟨network, hnetwork, Option.bind_eq_some_iff.mpr ⟨next, hnext, rfl⟩⟩

/-- Both nodes carry the uuid, the old one is registered under it, and their endpoints list
them. -/
structure Duplicated (s : Network) (n old uuid : Nat) (node oldNode : AsebaNode) : Prop where
  reporting : s.nodes n = some node
  listed : s.listed n = true
  live : s.nodes old = some oldNode
  oldListed : s.listed old = true
  other : old ≠ n
  registered : s.asebaNodes.get? uuid = some old

/-- The old node is the first that the loop of its endpoint looks at, and the node is not
disconnected when its endpoint announces its nodes for a group that comes back. -/
def findsOld (s : Registry) (n old uuid : Nat) : Bool :=
  (s.network.nodes n).any fun node => (s.network.nodes old).any fun oldNode =>
    (s.network.endpoints oldNode.endpoint).any (·.head? == some old) &&
      (node.status != .disconnected || (s.groups.restoredGroup uuid node.endpoint).isNone)

theorem Duplicated.findsOld_iff (hd : Duplicated s.network n old uuid node oldNode) :
    findsOld s n old uuid = true ↔
      (∃ rest, s.network.endpoints oldNode.endpoint = some (old :: rest)) ∧
        (node.status = .disconnected → s.groups.restoredGroup uuid node.endpoint = none) := by
  have hfirst : (s.network.endpoints oldNode.endpoint).any (·.head? == some old) = true ↔
      ∃ rest, s.network.endpoints oldNode.endpoint = some (old :: rest) := by
    cases s.network.endpoints oldNode.endpoint with
    | none => simp
    | some table =>
      cases table with
      | nil => simp
      | cons first rest => simp
  simp only [findsOld, hd.reporting, hd.live, Option.any_some, Bool.and_eq_true, hfirst,
    Bool.or_eq_true, bne_iff_ne, Option.isNone_iff_eq_none]
  tauto

theorem mem_of_listed {s : Network} (hn : s.nodes n = some node) (h : s.listed n = true) :
    n ∈ (s.endpoints node.endpoint).getD [] := by
  simpa [Network.listed, hn] using h

/-- What the removal of the old node leaves, and that the node can be registered. -/
structure Replaced (s : Registry) (n old uuid : Nat) (node oldNode : AsebaNode) (rest : List Nat)
    (network : Network) : Prop where
  nodes : ∀ m, network.nodes m =
    if m = old then ((s.withUuid n uuid).network.nodes m).map fun node =>
      { node with status := .disconnected }
    else (s.withUuid n uuid).network.nodes m
  endpoints : network.endpoints = Function.update s.network.endpoints oldNode.endpoint (some rest)
  orderly : Orderly (fun _ => False)
    ({ s with network }.insert n { node with uuid } : Registry).network
  registered : ({ s with network }.insert n { node with uuid } :
    Registry).network.asebaNodes.get? uuid = some n

theorem Duplicated.replace (hs : Orderly (fun _ => False) s.network)
    (hd : Duplicated s.network n old uuid node oldNode) {rest : List Nat}
    (htable : s.network.endpoints oldNode.endpoint = some (old :: rest)) :
    ∃ network, (reported s.network n uuid).removeDuplicatedNode n { node with uuid } =
      some network ∧ Replaced s n old uuid node oldNode rest network := by
  have hr : Orderly (· = n) (reported s.network n uuid) := reported_orderly hs hd.reporting
  have hold : (reported s.network n uuid).nodes old = some oldNode := by
    rw [reported_nodes_of_ne hd.other, hd.live]
  have hreg : (reported s.network n uuid).asebaNodes.get? ({ node with uuid } : AsebaNode).uuid =
      some old := removeNode_get?_of_ne hd.other hd.registered
  have htable' : (reported s.network n uuid).endpoints oldNode.endpoint = some (old :: rest) := by
    rw [reported_endpoints, htable]
  obtain ⟨network, hnetwork, hnodes, hendpoints, hregistry⟩ :=
    removeDuplicatedNode_first hr.toConsistent hold hd.other hreg htable'
  have hevicts : evictsDuplicate (reported s.network n uuid) n
      ({ node with uuid } : AsebaNode).uuid := by
    simp only [evictsDuplicate, hreg]
    simp [hold, htable']
  have hfree : network.asebaNodes.get? uuid = none := by
    cases hkey : network.asebaNodes.get? uuid with
    | none => rfl
    | some m =>
      obtain ⟨hm, hne⟩ := (hregistry uuid m).mp hkey
      rw [hreg] at hm
      cases hm
      exact absurd rfl hne
  have hn : network.nodes n = some { node with uuid } := by
    rw [hnodes]
    simp [Network.updateNode, hd.other.symm, reported_node hd.reporting]
  have hcalms := removeDuplicatedNode_calms hevicts hnetwork
  refine ⟨network, hnetwork, fun m => ?_, ?_, (hr.calm hcalms).insert hn rfl hfree, ?_⟩
  · rw [hnodes]
    have hsame : (reported s.network n uuid).nodes m = (s.withUuid n uuid).network.nodes m := by
      unfold reported Registry.withUuid Network.updateNode
      rw [removeNode_nodes]
    by_cases hm : m = old
    · subst hm
      simp [Network.updateNode, hsame]
    · simp [Network.updateNode, hm, hsame]
  · rw [hendpoints, reported_endpoints]
  · change (network.asebaNodes.insert uuid n).get? uuid = some n
    rw [Table.get?_insert, if_pos rfl, hfree]
    rfl

theorem Replaced.evicted {rest : List Nat} {network : Network}
    (hs : Orderly (fun _ => False) s.network)
    (hd : Duplicated s.network n old uuid node oldNode)
    (htable : s.network.endpoints oldNode.endpoint = some (old :: rest))
    (hr : Replaced s n old uuid node oldNode rest network) (hnodes : t.network.nodes = network.nodes)
    (hendpoints : t.network.endpoints = network.endpoints)
    (hreg : t.network.asebaNodes.get? uuid = some n) :
    Evicted (s.withUuid n uuid).network t.network n old where
  removed ep m := by
    change m ∈ (t.network.endpoints ep).getD [] ↔ m ∈ (s.network.endpoints ep).getD [] ∧ m ≠ old
    rw [hendpoints, hr.endpoints]
    by_cases hep : ep = oldNode.endpoint
    · subst hep
      have hnodup := hs.nodup oldNode.endpoint
      rw [htable, Option.getD_some, List.nodup_cons] at hnodup
      rw [Function.update_self, htable, Option.getD_some, Option.getD_some, List.mem_cons]
      constructor
      · intro hm
        refine ⟨.inr hm, ?_⟩
        rintro rfl
        exact hnodup.1 hm
      · rintro ⟨hm, hne⟩
        exact hm.resolve_left hne
    · rw [Function.update_of_ne hep]
      refine ⟨fun hm => ⟨hm, ?_⟩, And.left⟩
      rintro rfl
      obtain ⟨x, hx, rfl⟩ := hs.housed ep m hm
      rw [hd.live] at hx
      cases hx
      exact hep rfl
  disconnected m := by
    rw [hnodes]
    exact hr.nodes m
  registered x hx := by
    have hn : (s.withUuid n uuid).network.nodes n = some { node with uuid } := by
      simp [Registry.withUuid, Network.updateNode, hd.reporting]
    rw [hn] at hx
    cases hx
    exact hreg

/-- The node that announces itself is still in the table of its endpoint. -/
theorem Replaced.announced {rest : List Nat} {network : Network}
    (hd : Duplicated s.network n old uuid node oldNode)
    (htable : s.network.endpoints oldNode.endpoint = some (old :: rest))
    (hr : Replaced s n old uuid node oldNode rest network) :
    n ∈ (network.endpoints node.endpoint).getD [] := by
  have hlisted := mem_of_listed hd.reporting hd.listed
  rw [hr.endpoints]
  by_cases hep : node.endpoint = oldNode.endpoint
  · rw [hep, htable, Option.getD_some, List.mem_cons] at hlisted
    rw [hep, Function.update_self, Option.getD_some]
    exact hlisted.resolve_left hd.other.symm
  · rw [Function.update_of_ne hep]
    exact hlisted

theorem Replaced.gone_iff {rest : List Nat} {network : Network}
    (hd : Duplicated s.network n old uuid node oldNode)
    (hr : Replaced s n old uuid node oldNode rest network) :
    Gone network n ↔ node.status = .disconnected := by
  have hn : network.nodes n = some { node with uuid } := by
    rw [hr.nodes, if_neg hd.other.symm]
    simp [Registry.withUuid, Network.updateNode, hd.reporting]
  simp [Gone, hn]

theorem evicted_iff_findsOld (hs : Orderly (fun _ => False) s.network)
    (hd : Duplicated s.network n old uuid node oldNode) :
    (∃ depth t, (s.withUuid n uuid).handleNodeUuidChange depth n = some t ∧
      Evicted (s.withUuid n uuid).network t.network n old) ↔ findsOld s n old uuid = true := by
  rw [hd.findsOld_iff]
  constructor
  · rintro ⟨depth, t, ht, hevicted⟩
    obtain ⟨network, next, hnetwork, hnext, rfl⟩ :=
      (handleNodeUuidChange_eq_some hd.reporting).mp ht
    have holdListed := mem_of_listed hd.live hd.oldListed
    obtain ⟨first, rest, htable⟩ : ∃ first rest,
        s.network.endpoints oldNode.endpoint = some (first :: rest) := by
      cases htable : s.network.endpoints oldNode.endpoint with
      | none => simp [htable] at holdListed
      | some table =>
        cases table with
        | nil => simp [htable] at holdListed
        | cons first rest => exact ⟨first, rest, rfl⟩
    -- what the endpoint drops stays away
    have hfirst : first = old := by
      by_contra hne
      have hold : (reported s.network n uuid).nodes old = some oldNode := by
        rw [reported_nodes_of_ne hd.other, hd.live]
      have hreg : (reported s.network n uuid).asebaNodes.get?
          ({ node with uuid } : AsebaNode).uuid = some old :=
        removeNode_get?_of_ne hd.other hd.registered
      have hdropped := removeDuplicatedNode_drops hold hd.other hreg
        (by rw [reported_endpoints, htable]) hnetwork
      have hthere : first ∈ (next.network.endpoints oldNode.endpoint).getD [] := by
        refine (hevicted.removed _ first).mpr ⟨?_, hne⟩
        change first ∈ (s.network.endpoints oldNode.endpoint).getD []
        simp [htable]
      have hsettles := restoreGroupAffiliation_settles (addNode_settles depth) hnext
      have hrest : first ∈ rest := by
        have hmem := (hsettles.tables oldNode.endpoint).subset hthere
        change first ∈ (network.endpoints oldNode.endpoint).getD [] at hmem
        rwa [hdropped] at hmem
      have hnodup := hs.nodup oldNode.endpoint
      rw [htable, Option.getD_some, List.nodup_cons] at hnodup
      exact hnodup.1 hrest
    subst hfirst
    refine ⟨⟨rest, htable⟩, fun hdisc => ?_⟩
    by_contra hrestored
    obtain ⟨network', hnetwork', hr⟩ := hd.replace hs htable
    rw [hnetwork] at hnetwork'
    cases hnetwork'
    have hspec := (restoreGroupAffiliation_announces hr.orderly hnext).2 hrestored
    have hn : (s.withUuid n uuid).network.nodes n = some { node with uuid } := by
      simp [Registry.withUuid, Network.updateNode, hd.reporting]
    have hreg := hevicted.registered _ hn
    have hannounced : n ∈ (network.endpoints node.endpoint).getD [] := hr.announced hd htable
    have hgone : Gone network n := (hr.gone_iff hd).mpr hdisc
    exact ((hspec.registry _ _).mp hreg).2 ⟨hannounced, hgone⟩
  · rintro ⟨⟨rest, htable⟩, hstatus⟩
    obtain ⟨network, hnetwork, hr⟩ := hd.replace hs htable
    obtain ⟨next, hnext⟩ := restoreGroupAffiliation_returns { node with uuid } hr.orderly 0
    obtain ⟨hsame, hannounces⟩ := restoreGroupAffiliation_announces hr.orderly hnext
    refine ⟨1, next.saveGroupAffiliation { node with uuid },
      (handleNodeUuidChange_eq_some hd.reporting).mpr ⟨network, next, hnetwork, hnext, rfl⟩, ?_⟩
    by_cases hrestored : s.groups.restoredGroup uuid node.endpoint = none
    · have hspec := hsame hrestored
      have hnodes : next.network.nodes = network.nodes := by
        rw [hspec]
        rfl
      have hendpoints : next.network.endpoints = network.endpoints := by
        rw [hspec]
        rfl
      have hreg : next.network.asebaNodes.get? uuid = some n := by
        rw [hspec]
        exact hr.registered
      exact hr.evicted hs hd htable hnodes hendpoints hreg
    · have hspec := hannounces hrestored
      refine hr.evicted hs hd htable hspec.nodes hspec.endpoints ?_
      refine (hspec.registry uuid n).mpr ⟨hr.registered, fun hgone => ?_⟩
      exact hrestored (hstatus ((hr.gone_iff hd).mp hgone.2))

end Report

/-- In every run whose removals have all met the old node. -/
theorem evicted_iff (events : List Registry.Event)
    (hevicts : Transition.Along Registry.step (fun _ s e => evictsOld s e = true) [] {} events)
    (s : Registry) (hrun : Transition.run Registry.step {} events = some s) (n old uuid : Nat)
    (node oldNode : AsebaNode) (hd : Duplicated s.network n old uuid node oldNode) :
    (∃ depth t, (s.withUuid n uuid).handleNodeUuidChange depth n = some t ∧
      Evicted (s.withUuid n uuid).network t.network n old) ↔ findsOld s n old uuid = true := by
  have hs : Orderly (fun _ => False) s.network := by
    refine Transition.invariant (I := fun _ s => Orderly (fun _ => False) s.network) ?_
      Orderly.start hevicts hrun
    intro past s e t hs hallowed h
    exact hs.step hallowed h
  exact evicted_iff_findsOld hs hd

/-- A robot with the uuid 1, and another endpoint with a node that will report the same. -/
def twoEndpoints : List Registry.Event :=
  [.endpointConnected, .nodeConnected 0 11 [0] 2, .deviceInfo 0 (some 1) 0 2, .endpointConnected,
    .nodeConnected 1 12 [1] 2]

/-- The same on one dongle, whose table lists the new node first. -/
def oneDongle : List Registry.Event :=
  [.endpointConnected, .nodeConnected 0 11 [0] 2, .deviceInfo 0 (some 1) 0 2,
    .nodeConnected 0 12 [1, 0] 2]

/-- The two nodes of a state, if it duplicates a uuid in this way. -/
def duplicated? (s : Network) (n old uuid : Nat) : Bool :=
  (s.nodes n).isSome && s.listed n && (s.nodes old).isSome && s.listed old && old != n &&
    s.asebaNodes.get? uuid == some old

theorem duplicated_of_bool {s : Network} {n old uuid : Nat} (h : duplicated? s n old uuid = true) :
    ∃ node oldNode, Duplicated s n old uuid node oldNode := by
  simp only [duplicated?, Bool.and_eq_true, bne_iff_ne, beq_iff_eq] at h
  obtain ⟨⟨⟨⟨⟨hn, hlisted⟩, hold⟩, holdListed⟩, hne⟩, hreg⟩ := h
  obtain ⟨node, hn⟩ := Option.isSome_iff_exists.mp hn
  obtain ⟨oldNode, hold⟩ := Option.isSome_iff_exists.mp hold
  exact ⟨node, oldNode, hn, hlisted, hold, holdListed, hne, hreg⟩

theorem twoEndpoints_evicted :
    ∃ s t, Transition.run Registry.step {} twoEndpoints = some s ∧
      (∃ depth, (s.withUuid 1 1).handleNodeUuidChange depth 1 = some t) ∧
      Evicted (s.withUuid 1 1).network t.network 1 0 := by
  have hstate : (Transition.run Registry.step {} twoEndpoints).any
      (fun s => duplicated? s.network 1 0 1 && findsOld s 1 0 1) = true := by decide
  obtain ⟨s, hrun, hs⟩ := (Option.any_eq_true _ _).mp hstate
  obtain ⟨hdup, hfinds⟩ := Bool.and_eq_true_iff.mp hs
  obtain ⟨node, oldNode, hd⟩ := duplicated_of_bool hdup
  obtain ⟨depth, t, ht, hevicted⟩ :=
    (evicted_iff twoEndpoints (by decide) s hrun 1 0 1 node oldNode hd).mpr hfinds
  exact ⟨s, t, hrun, ⟨depth, ht⟩, hevicted⟩

/-- The node that reports the uuid is removed, and the old one stays. -/
theorem oneDongle_evicts_new :
    ¬ ∀ events s n old uuid node oldNode, Transition.run Registry.step {} events = some s →
      Duplicated s.network n old uuid node oldNode →
      ∀ depth t, (s.withUuid n uuid).handleNodeUuidChange depth n = some t →
        Evicted (s.withUuid n uuid).network t.network n old := by
  intro h
  have hstate : (Transition.run Registry.step {} oneDongle).any
      (fun s => duplicated? s.network 1 0 1 &&
        ((s.withUuid 1 1).handleNodeUuidChange 2 1).any fun t =>
          t.network.endpoints 0 == some [0]) = true := by decide
  obtain ⟨s, hrun, hs⟩ := (Option.any_eq_true _ _).mp hstate
  obtain ⟨hdup, hafter⟩ := Bool.and_eq_true_iff.mp hs
  obtain ⟨node, oldNode, hd⟩ := duplicated_of_bool hdup
  obtain ⟨t, ht, htable⟩ := (Option.any_eq_true _ _).mp hafter
  have hevicted := h oneDongle s 1 0 1 node oldNode hrun hd 2 t ht
  have htable : t.network.endpoints 0 = some [0] := by simpa using htable
  have hgone := (hevicted.removed 0 0).mp (by simp [htable])
  exact hgone.2 rfl

end Registration

end ThymioDeviceManager.Correctness
