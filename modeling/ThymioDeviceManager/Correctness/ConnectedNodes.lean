import ThymioDeviceManager.Correctness.LockRelease
import ThymioDeviceManager.Correctness.RegistryConsistency

/-! # Connected nodes are registered

Attaching a group to an endpoint sets the status of its nodes again, and would register the
connected ones. They are registered already, as long as every duplicate that is dropped from
the registry is the node that its endpoint removes: a node that is dropped only from the
registry stays connected.
-/

namespace ThymioDeviceManager.Correctness

open Manager Library

namespace Registration

/-! ## Connected nodes are registered -/

/-- Connected nodes are registered, those in `skip` excepted; the table of an endpoint lists
live nodes of the endpoint, each of them once. -/
structure Orderly (skip : Nat → Prop) (s : Network) : Prop extends Consistent s where
  announced : ∀ m node, s.nodes m = some node → node.status = .connected → ¬ skip m →
    s.asebaNodes.get? node.uuid = some m
  housed : ∀ ep m, m ∈ (s.endpoints ep).getD [] →
    ∃ node, s.nodes m = some node ∧ node.endpoint = ep
  nodup : ∀ ep, ((s.endpoints ep).getD []).Nodup

/-- No node becomes connected, connected ones stay registered, and the tables lose nodes
at most. -/
structure Calms (s t : Network) : Prop extends KeepsUuids s t where
  connected : ∀ m node, t.nodes m = some node → node.status = .connected →
    ∃ old, s.nodes m = some old ∧ old.status = .connected
  housed : ∀ ep m node, m ∈ (t.endpoints ep).getD [] → s.nodes m = some node →
    ∃ node', t.nodes m = some node' ∧ node'.endpoint = node.endpoint
  stays : ∀ id m node, t.nodes m = some node → node.status = .connected →
    s.asebaNodes.get? id = some m → t.asebaNodes.get? id = some m
  tables : ∀ ep, ((t.endpoints ep).getD []).Sublist ((s.endpoints ep).getD [])

section Calms

variable {skip : Nat → Prop} {s t u : Network} {n m : Nat} {node : AsebaNode}

theorem Calms.refl (s : Network) : Calms s s where
  toKeepsUuids := .refl s
  connected _ node hm hstatus := ⟨node, hm, hstatus⟩
  housed _ _ node _ hm := ⟨node, hm, rfl⟩
  stays _ _ _ _ _ h := h
  tables _ := .refl _

theorem Calms.trans (hst : Calms s t) (htu : Calms t u) : Calms s u where
  toKeepsUuids := hst.toKeepsUuids.trans htu.toKeepsUuids
  connected m node hm hstatus := by
    obtain ⟨mid, hmid, hstatus⟩ := htu.connected m node hm hstatus
    exact hst.connected m mid hmid hstatus
  housed ep m node hlisted hm := by
    obtain ⟨mid, hmid, hendpoint⟩ := hst.housed ep m node ((htu.tables ep).subset hlisted) hm
    obtain ⟨new, hnew, hendpoint'⟩ := htu.housed ep m mid hlisted hmid
    exact ⟨new, hnew, hendpoint'.trans hendpoint⟩
  stays id m node hm hstatus hid := by
    obtain ⟨mid, hmid, hstatus'⟩ := htu.connected m node hm hstatus
    exact htu.stays id m node hm hstatus (hst.stays id m mid hmid hstatus' hid)
  tables ep := (htu.tables ep).trans (hst.tables ep)

theorem Orderly.calm (hs : Orderly skip s) (h : Calms s t) : Orderly skip t where
  toConsistent := hs.toConsistent.keep h.toKeepsUuids
  announced m node hm hstatus hskip := by
    obtain ⟨old, hold, hstatus'⟩ := h.connected m node hm hstatus
    obtain ⟨old', hold', huuid⟩ := h.uuid m node hm
    rw [hold] at hold'
    cases hold'
    rw [huuid]
    exact h.stays _ m node hm hstatus (hs.announced m old hold hstatus' hskip)
  housed ep m hlisted := by
    obtain ⟨old, hold, rfl⟩ := hs.housed ep m ((h.tables ep).subset hlisted)
    exact h.housed _ m old hlisted hold
  nodup ep := (hs.nodup ep).sublist (h.tables ep)

theorem Orderly.weaken (hs : Orderly (fun _ => False) s) (skip : Nat → Prop) : Orderly skip s :=
  { hs with announced := fun m node hm hstatus _ => hs.announced m node hm hstatus not_false }

theorem Calms.apps (s : Network) (apps : Nat → Option Application) : Calms s { s with apps } :=
  { Calms.refl s with }

/-- A change of a node that keeps its uuid and endpoint and does not connect it. -/
theorem Calms.updateNode (s : Network) (n : Nat) {f : AsebaNode → AsebaNode}
    (huuid : ∀ node, (f node).uuid = node.uuid)
    (hendpoint : ∀ node, (f node).endpoint = node.endpoint)
    (hstatus : ∀ node, (f node).status = .connected → node.status = .connected) :
    Calms s (s.updateNode n f) where
  toKeepsUuids := .updateNode s n huuid
  connected m node hm hconnected := by
    obtain ⟨old, rfl, hold, rfl⟩ | ⟨-, hm⟩ := updateNode_eq_some hm
    · exact ⟨old, hold, hstatus old hconnected⟩
    · exact ⟨node, hm, hconnected⟩
  housed ep m node _ hm := by
    by_cases h : m = n
    · subst h
      exact ⟨f node, by simp [Network.updateNode, hm], hendpoint node⟩
    · exact ⟨node, by simp [Network.updateNode, h, hm], rfl⟩
  stays _ _ _ _ _ h := h
  tables _ := .refl _

/-- The entries of the other nodes stay. -/
theorem removeNode_get?_of_ne {id : Nat} (hne : m ≠ n) (h : s.asebaNodes.get? id = some m) :
    (s.removeNode n).asebaNodes.get? id = some m := by
  unfold Network.removeNode
  split
  · exact h
  · rename_i key hkey
    have hid : id ≠ key := by
      rintro rfl
      rw [Table.get?_keyOf? hkey] at h
      cases h
      exact hne rfl
    change (s.asebaNodes.erase key).get? id = some m
    rw [Table.get?_erase, if_neg hid]
    exact h

theorem setOtherStatus_nodes (s : Network) (n : Nat) (status : Status) :
    (s.setOtherStatus n status).nodes =
      (s.updateNode n fun node => { node with status }).nodes := by
  unfold Network.setOtherStatus Network.setNodeStatus
  dsimp only
  split
  · exact removeNode_nodes _ n
  · split <;> rfl

theorem setOtherStatus_get?_of_ne {id : Nat} {status : Status} (hne : m ≠ n)
    (h : s.asebaNodes.get? id = some m) :
    (s.setOtherStatus n status).asebaNodes.get? id = some m := by
  unfold Network.setOtherStatus Network.setNodeStatus
  dsimp only
  split
  · exact removeNode_get?_of_ne hne h
  · split <;> exact h

theorem setOtherStatus_get? {id : Nat} {status : Status}
    (h : (s.setOtherStatus n status).asebaNodes.get? id = some m) :
    s.asebaNodes.get? id = some m := by
  unfold Network.setOtherStatus Network.setNodeStatus at h
  dsimp only at h
  split at h
  · have hkept := removeNode_get? h
    exact hkept
  · split at h <;> exact h

theorem Calms.setOtherStatus (s : Network) (n : Nat) {status : Status}
    (hstatus : status ≠ .connected) : Calms s (s.setOtherStatus n status) := by
  have hupdated := Calms.updateNode s n (f := fun node => { node with status }) (fun _ => rfl)
    (fun _ => rfl) fun _ h => absurd h hstatus
  have hnodes := setOtherStatus_nodes s n status
  refine ⟨keepsUuids_setOtherStatus s n status, ?_, ?_, ?_, ?_⟩
  · intro m node hm
    rw [hnodes] at hm
    exact hupdated.connected m node hm
  · intro ep m node hlisted hm
    rw [setOtherStatus_endpoints] at hlisted
    rw [hnodes]
    exact hupdated.housed ep m node hlisted hm
  · intro id m node hm hconnected hid
    rw [hnodes] at hm
    obtain ⟨old, rfl, -, rfl⟩ | ⟨hne, -⟩ := updateNode_eq_some hm
    · exact absurd hconnected hstatus
    · exact setOtherStatus_get?_of_ne hne hid
  · intro ep
    rw [setOtherStatus_endpoints]

theorem calms_permits : Permits Calms where
  refl := .refl
  trans := .trans
  setOtherStatus s n _ h := .setOtherStatus s n h
  hold s n _ := .updateNode s n (fun _ => rfl) (fun _ => rfl) fun _ h => h
  apps s apps := .apps s apps

theorem Calms.ofTables (s : Network) {endpoints : Nat → Option (List Nat)} (nextEndpoint : Nat)
    (h : ∀ ep, ((endpoints ep).getD []).Sublist ((s.endpoints ep).getD [])) :
    Calms s { s with endpoints, nextEndpoint } where
  toKeepsUuids := .of_frame rfl rfl rfl
  connected _ node hm hstatus := ⟨node, hm, hstatus⟩
  housed _ _ node _ hm := ⟨node, hm, rfl⟩
  stays _ _ _ _ _ h := h
  tables := h

/-- The table of one endpoint loses nodes. -/
theorem Calms.updateTable (s : Network) (ep nextEndpoint : Nat) {table : Option (List Nat)}
    (h : (table.getD []).Sublist ((s.endpoints ep).getD [])) :
    Calms s { s with endpoints := Function.update s.endpoints ep table, nextEndpoint } := by
  refine .ofTables s nextEndpoint fun ep' => ?_
  by_cases hep : ep' = ep
  · subst hep
    rwa [Function.update_self]
  · rw [Function.update_of_ne hep]

end Calms

/-! ## Removing a duplicate -/

section Duplicates

variable {skip : Nat → Prop} {s t : Network} {n : Nat} {node : AsebaNode}

/-- A change that settles is calm when it drops the entries of no connected nodes. -/
theorem Calms.of_settles (h : Settles s t)
    (hstays : ∀ id m node, t.nodes m = some node → node.status = .connected →
      s.asebaNodes.get? id = some m → t.asebaNodes.get? id = some m) : Calms s t where
  toKeepsUuids := .of_quiet h.toQuiet
  connected m node hm hstatus := by
    obtain ⟨old, hold, -, -, hsame | hdisc⟩ := h.toQuiet.of_node hm
    · exact ⟨old, hold, hsame.symm.trans hstatus⟩
    · rw [hdisc] at hstatus
      cases hstatus
  housed _ m node _ hm := by
    obtain hsame | hdisc := h.toQuiet.nodes m
    · exact ⟨node, hsame.trans hm, rfl⟩
    · exact ⟨{ node with status := .disconnected }, by rw [hdisc, hm]; rfl, rfl⟩
  stays := hstays
  tables := h.tables

theorem endpointRemoveNode_calms {ep uuid : Nat} (h : s.endpointRemoveNode ep uuid = some t) :
    Calms s t := by
  have hsettles := endpointRemoveNode_settles h
  refine .of_settles hsettles ?_
  unfold Network.endpointRemoveNode at h
  split at h
  · rename_i r rest _
    split at h
    · cases h
      exact (Calms.setOtherStatus s r (by decide)).stays
    · cases h
  · cases h
    exact fun _ _ _ _ _ hid => hid

/-- The endpoint disconnects the first node of its table. -/
theorem endpointRemoveNode_gone {ep uuid old : Nat} {rest : List Nat}
    (htable : s.endpoints ep = some (old :: rest)) (h : s.endpointRemoveNode ep uuid = some t)
    (hold : t.nodes old = some node) : node.status = .disconnected := by
  unfold Network.endpointRemoveNode at h
  rw [htable] at h
  dsimp only at h
  split at h
  · cases h
    change (s.setOtherStatus old .disconnected).nodes old = some node at hold
    rw [setOtherStatus_nodes] at hold
    obtain ⟨x, -, -, rfl⟩ | ⟨hne, -⟩ := updateNode_eq_some hold
    · rfl
    · exact absurd rfl hne
  · cases h

theorem removeDuplicatedNode_calms (hevicts : evictsDuplicate s n node.uuid)
    (h : s.removeDuplicatedNode n node = some t) : Calms s t := by
  refine .of_settles (removeDuplicatedNode_settles h) fun id m x hm hstatus hid => ?_
  unfold Network.removeDuplicatedNode at h
  split at h
  · cases h
    exact hid
  · rename_i old hold
    split at h
    · cases h
      exact hid
    · rename_i hne
      -- the entry that is dropped is that of the old node, which does not stay connected
      have herased : ∀ {u : Network}, id ≠ node.uuid →
          Calms { s with asebaNodes := s.asebaNodes.erase node.uuid } u → u = t →
          t.asebaNodes.get? id = some m := by
        rintro u hkey hcalms rfl
        refine hcalms.stays id m x hm hstatus ?_
        rw [Table.get?_erase, if_neg hkey]
        exact hid
      dsimp only at h
      by_cases hkey : id = node.uuid
      · subst hkey
        rw [hid] at hold
        cases hold
        split at h
        · rename_i hgone
          cases h
          rw [hgone] at hm
          cases hm
        · rename_i oldNode hnode
          simp only [evictsDuplicate, hid, Option.all_some, beq_iff_eq, hne, hnode,
            Bool.or_eq_true, false_or] at hevicts
          obtain ⟨y, hy, hconnected⟩ := (endpointRemoveNode_calms h).connected m x hm hstatus
          rw [hnode] at hy
          cases hy
          rcases hevicts with hdisc | hfirst
          · rw [hdisc] at hconnected
            cases hconnected
          · obtain ⟨table, htable, hhead⟩ := (Option.any_eq_true _ _).mp hfirst
            obtain ⟨rest, rfl⟩ : ∃ rest, table = m :: rest := by
              cases table with
              | nil => simp at hhead
              | cons r rest => exact ⟨rest, by simpa using hhead⟩
            have hfirst' : ({ s with asebaNodes := s.asebaNodes.erase node.uuid } : Network).endpoints
                oldNode.endpoint = some (m :: rest) := htable
            rw [endpointRemoveNode_gone hfirst' h hm] at hstatus
            cases hstatus
      · split at h
        · cases h
          exact herased hkey (.refl _) rfl
        · exact herased hkey (endpointRemoveNode_calms h) rfl

end Duplicates

/-! ## Setting the status of registered nodes again -/

/-- The node is disconnected. -/
def Gone (s : Network) (m : Nat) : Prop := ∃ node, s.nodes m = some node ∧ node.status = .disconnected

/-- The disconnected ones among the nodes have left the registry; nothing else happened. -/
structure Announces (table : List Nat) (s t : Network) : Prop where
  nodes : t.nodes = s.nodes
  endpoints : t.endpoints = s.endpoints
  next : t.nextNode = s.nextNode
  registry : ∀ id m, t.asebaNodes.get? id = some m ↔
    s.asebaNodes.get? id = some m ∧ ¬ (m ∈ table ∧ Gone s m)

section Announces

variable {s t u : Network} {n m : Nat} {node : AsebaNode} {table : List Nat}

theorem Announces.nil (s : Network) : Announces [] s s := ⟨rfl, rfl, rfl, by simp⟩

theorem Announces.cons (hst : Announces [m] s t) (htu : Announces table t u) :
    Announces (m :: table) s u where
  nodes := htu.nodes.trans hst.nodes
  endpoints := htu.endpoints.trans hst.endpoints
  next := htu.next.trans hst.next
  registry id k := by
    have hgone : Gone t k ↔ Gone s k := by
      unfold Gone
      rw [hst.nodes]
    rw [htu.registry, hst.registry, hgone]
    simp only [List.mem_cons, List.not_mem_nil, or_false]
    tauto

theorem Announces.calms (h : Announces table s t) : Calms s t where
  uuid k x hk := ⟨x, h.nodes ▸ hk, rfl⟩
  registry id k hid := .inl ((h.registry id k).mp hid).1
  next := h.next
  connected k x hk hstatus := ⟨x, h.nodes ▸ hk, hstatus⟩
  housed _ _ x _ hk := ⟨x, h.nodes ▸ hk, rfl⟩
  stays id k x hk hstatus hid := by
    refine (h.registry id k).mpr ⟨hid, ?_⟩
    rintro ⟨-, y, hy, hdisc⟩
    rw [h.nodes, hy] at hk
    cases hk
    rw [hdisc] at hstatus
    cases hstatus
  tables ep := by rw [h.endpoints]

/-- A status other than `connected`, set again. -/
theorem announces_setOtherStatus (hs : Consistent s) (hm : s.nodes m = some node) :
    Announces [m] s (s.setOtherStatus m node.status) := by
  have hself : (s.updateNode m fun old => { old with status := node.status }) = s :=
    updateNode_self hm rfl
  have hgone : Gone s m ↔ node.status = .disconnected := by
    simp [Gone, hm]
  unfold Network.setOtherStatus
  rw [hself]
  by_cases hdisc : node.status = .disconnected
  · rw [if_pos hdisc]
    refine ⟨removeNode_nodes s m, removeNode_endpoints s m, (removeNode_quiet s m).next, ?_⟩
    intro id k
    constructor
    · intro h
      refine ⟨removeNode_get? h, fun hk => ?_⟩
      rw [List.mem_singleton.mp hk.1] at h
      exact hs.removeNode_absent hm id h
    · rintro ⟨h, hk⟩
      refine removeNode_get?_of_ne ?_ h
      rintro rfl
      exact hk ⟨List.mem_singleton_self k, hgone.mpr hdisc⟩
  · rw [if_neg hdisc]
    have hframe : ∀ id k, s.asebaNodes.get? id = some k ↔
        s.asebaNodes.get? id = some k ∧ ¬ (k ∈ [m] ∧ Gone s k) := by
      intro id k
      refine ⟨fun h => ⟨h, ?_⟩, And.left⟩
      rintro ⟨hk, hgone'⟩
      rw [List.mem_singleton.mp hk] at hgone'
      exact hdisc (hgone.mp hgone')
    unfold Network.setNodeStatus
    split
    · exact ⟨rfl, rfl, rfl, hframe⟩
    · exact ⟨rfl, rfl, rfl, hframe⟩

end Announces

section Nested

variable {s t : Registry} {n m : Nat} {node : AsebaNode} {iterators : List Nat}

/-- `add_node` finds a registered node and leaves it at that. -/
theorem addNode_registered {depth : Nat} (hm : s.network.nodes m = some node)
    (hreg : s.network.asebaNodes.get? node.uuid = some m) :
    Registry.addNode (depth + 1) iterators s m = some s := by
  obtain ⟨key, hkey⟩ : ∃ key, s.network.asebaNodes.keyOf? m = some key := by
    cases hkey : s.network.asebaNodes.keyOf? m with
    | none => exact absurd hreg (Table.ne_of_keyOf?_none hkey _)
    | some key => exact ⟨key, rfl⟩
  simp [Registry.addNode, Registry.addNodeWith, hm, Network.removeDuplicatedNode, hreg, hkey]

theorem Announces.of_same {table : List Nat} {network : Network}
    (hm : ∀ k ∈ table, ¬ Gone network k) : Announces table network network :=
  ⟨rfl, rfl, rfl, fun _ k => ⟨fun h => ⟨h, fun hk => hm k hk.1 hk.2⟩, And.left⟩⟩

theorem announce_announces (hs : Orderly (fun _ => False) s.network) {depth : Nat}
    (h : s.announce (Registry.addNode depth iterators) m = some t) :
    t.groups = s.groups ∧ Announces [m] s.network t.network := by
  unfold Registry.announce at h
  split at h
  · rename_i hnone
    cases h
    refine ⟨rfl, .of_same ?_⟩
    rintro k hk ⟨x, hx, -⟩
    rw [List.mem_singleton.mp hk, hnone] at hx
    cases hx
  · rename_i node hm
    unfold Registry.setStatusWith at h
    split at h
    · rename_i hconnected
      rw [updateNode_self hm rfl] at h
      cases depth with
      | zero => cases h
      | succ depth =>
        rw [addNode_registered hm (hs.announced m node hm hconnected not_false)] at h
        cases h
        refine ⟨rfl, .of_same ?_⟩
        rintro k hk ⟨x, hx, hdisc⟩
        rw [List.mem_singleton.mp hk, hm] at hx
        cases hx
        rw [hconnected] at hdisc
        cases hdisc
    · cases h
      exact ⟨rfl, announces_setOtherStatus hs.toConsistent hm⟩

theorem announce_returns (hs : Orderly (fun _ => False) s.network) (depth : Nat) :
    ∃ t, s.announce (Registry.addNode (depth + 1) iterators) m = some t := by
  unfold Registry.announce
  split
  · exact ⟨s, rfl⟩
  · rename_i node hm
    unfold Registry.setStatusWith
    split
    · rename_i hconnected
      rw [updateNode_self hm rfl]
      exact ⟨s, addNode_registered hm (hs.announced m node hm hconnected not_false)⟩
    · exact ⟨_, rfl⟩

section Fold

variable {table : List Nat}

theorem foldlM_announces {depth : Nat} (hs : Orderly (fun _ => False) s.network)
    (h : table.foldlM (Registry.announce (Registry.addNode depth iterators)) s = some t) :
    Announces table s.network t.network := by
  induction table generalizing s with
  | nil =>
    cases h
    exact .nil _
  | cons m table ih =>
    rw [List.foldlM_cons] at h
    obtain ⟨next, hnext, hrest⟩ := Option.bind_eq_some_iff.mp h
    have hfirst := (announce_announces hs hnext).2
    exact hfirst.cons (ih (hs.calm hfirst.calms) hrest)

theorem foldlM_returns (hs : Orderly (fun _ => False) s.network) (depth : Nat) :
    ∃ t, table.foldlM (Registry.announce (Registry.addNode (depth + 1) iterators)) s = some t := by
  induction table generalizing s with
  | nil => exact ⟨s, rfl⟩
  | cons m table ih =>
    obtain ⟨next, hnext⟩ := @announce_returns s m iterators hs depth
    obtain ⟨t, ht⟩ := ih (hs.calm (announce_announces hs hnext).2.calms)
    exact ⟨t, by rw [List.foldlM_cons, hnext]; exact ht⟩

end Fold

theorem attachToEndpointWith_announces {depth g ep : Nat} (hs : Orderly (fun _ => False) s.network)
    (h : s.attachToEndpointWith (Registry.addNode depth iterators) g ep = some t) :
    Announces ((s.network.endpoints ep).getD []) s.network t.network := by
  unfold Registry.attachToEndpointWith at h
  exact foldlM_announces (s := { s with groups := s.groups.attachToEndpoint g ep }) hs h

theorem restoredGroup_eq_some {s : Groups} {uuid ep g : Nat} (h : s.restoredGroup uuid ep = some g) :
    s.ghostGroups.get? uuid = some g := by
  unfold Groups.restoredGroup at h
  split at h
  · rename_i g' e hghost _
    rw [hghost]
    split at h
    · exact h
    · split at h
      · exact h
      · cases h
  · cases h

/-- A group comes back, and its endpoint announces its nodes, or nothing happens to the
nodes. -/
theorem restoreGroupAffiliation_announces {depth : Nat} (hs : Orderly (fun _ => False) s.network)
    (h : s.restoreGroupAffiliation (Registry.addNode depth) iterators node = some t) :
    (s.groups.restoredGroup node.uuid node.endpoint = none → t.network = s.network) ∧
      (s.groups.restoredGroup node.uuid node.endpoint ≠ none →
        Announces ((s.network.endpoints node.endpoint).getD []) s.network t.network) := by
  unfold Registry.restoreGroupAffiliation at h
  split at h
  · rename_i hghost
    have hnone : s.groups.restoredGroup node.uuid node.endpoint = none := by
      cases hrestored : s.groups.restoredGroup node.uuid node.endpoint with
      | none => rfl
      | some g =>
        rw [restoredGroup_eq_some hrestored] at hghost
        cases hghost
    cases h
    exact ⟨fun _ => rfl, fun hsome => absurd hnone hsome⟩
  · rename_i hnone
    exact ⟨fun _ => eraseGhostGroup_network h, fun hsome => absurd hnone hsome⟩
  · rename_i hsome
    obtain ⟨next, hnext, h⟩ := Option.bind_eq_some_iff.mp h
    rw [eraseGhostGroup_network h, hsome]
    exact ⟨fun hnone => (nomatch hnone), fun _ => attachToEndpointWith_announces hs hnext⟩

theorem restoreGroupAffiliation_returns (node : AsebaNode)
    (hs : Orderly (fun _ => False) s.network) (depth : Nat) :
    ∃ t, s.restoreGroupAffiliation (Registry.addNode (depth + 1)) [] node = some t := by
  have herase : ∀ u : Registry, ∃ t, u.eraseGhostGroup [] node.uuid = some t :=
    fun u => ⟨_, if_neg (by simp)⟩
  unfold Registry.restoreGroupAffiliation
  split
  · exact ⟨s, rfl⟩
  · exact herase s
  · rename_i g _ _
    obtain ⟨u, hu⟩ : ∃ u, s.attachToEndpointWith (Registry.addNode (depth + 1) [node.uuid]) g
        node.endpoint = some u :=
      foldlM_returns (s := { s with groups := s.groups.attachToEndpoint g node.endpoint }) hs depth
    obtain ⟨t, ht⟩ := herase u
    exact ⟨t, by rw [hu]; exact ht⟩

theorem Orderly.restoreGroupAffiliation {depth : Nat} (hs : Orderly (fun _ => False) s.network)
    (h : s.restoreGroupAffiliation (Registry.addNode depth) iterators node = some t) :
    Orderly (fun _ => False) t.network := by
  obtain ⟨hsame, hannounces⟩ := restoreGroupAffiliation_announces hs h
  by_cases hrestored : s.groups.restoredGroup node.uuid node.endpoint = none
  · rw [hsame hrestored]
    exact hs
  · exact hs.calm (hannounces hrestored).calms

end Nested

/-! ## Runs in which the old node is removed -/

section Operations

variable {skip : Nat → Prop} {s t : Network} {n : Nat} {node : AsebaNode}

/-- The duplicate of a node is another node. -/
theorem evictsDuplicate_mono {uuid : Nat} (hendpoints : t.endpoints = s.endpoints)
    (hothers : ∀ old, t.asebaNodes.get? uuid = some old → old ≠ n →
      s.asebaNodes.get? uuid = some old ∧ t.nodes old = s.nodes old)
    (h : evictsDuplicate s n uuid) : evictsDuplicate t n uuid := by
  unfold evictsDuplicate at h ⊢
  rw [hendpoints]
  cases hold : t.asebaNodes.get? uuid with
  | none => rfl
  | some old =>
    by_cases hne : old = n
    · simp [hne]
    · obtain ⟨hreg, hnode⟩ := hothers old hold hne
      simpa [hreg, hnode] using h

/-- The node leaves the registry. -/
theorem Orderly.forget (hs : Orderly (fun _ => False) s) (n : Nat) :
    Orderly (· = n) (s.removeNode n) where
  toConsistent := hs.toConsistent.settle (removeNode_settles s n)
  announced m x hm hstatus hne := by
    rw [removeNode_nodes] at hm
    exact removeNode_get?_of_ne hne (hs.announced m x hm hstatus not_false)
  housed ep m hlisted := by
    rw [removeNode_endpoints] at hlisted
    rw [removeNode_nodes]
    exact hs.housed ep m hlisted
  nodup ep := by
    rw [removeNode_endpoints]
    exact hs.nodup ep

/-- A node that is not registered may change but for its endpoint. -/
theorem Orderly.change (hs : Orderly (· = n) s) {f : AsebaNode → AsebaNode}
    (hconsistent : Consistent (s.updateNode n f))
    (hendpoint : ∀ node, (f node).endpoint = node.endpoint) :
    Orderly (· = n) (s.updateNode n f) where
  toConsistent := hconsistent
  announced m x hm hstatus hne := by
    obtain ⟨-, rfl, -⟩ | ⟨-, hm⟩ := updateNode_eq_some hm
    · exact absurd rfl hne
    · exact hs.announced m x hm hstatus hne
  housed ep m hlisted := by
    obtain ⟨x, hx, rfl⟩ := hs.housed ep m hlisted
    by_cases h : m = n
    · subst h
      exact ⟨f x, by simp [Network.updateNode, hx], hendpoint x⟩
    · exact ⟨x, by simp [Network.updateNode, h, hx], rfl⟩
  nodup := hs.nodup

theorem Orderly.insert (hs : Orderly (· = n) s) (hn : s.nodes n = some node) {uuid : Nat}
    (huuid : node.uuid = uuid) (hfree : s.asebaNodes.get? uuid = none) :
    Orderly (fun _ => False) { s with asebaNodes := s.asebaNodes.insert uuid n } where
  toConsistent := hs.toConsistent.keep (.of_quiet (insert_quiet hn huuid))
  announced m x hm hstatus _ := by
    change (s.asebaNodes.insert uuid n).get? x.uuid = some m
    rw [Table.get?_insert]
    by_cases hmn : m = n
    · subst hmn
      rw [hn] at hm
      cases hm
      rw [if_pos huuid, hfree]
      rfl
    · have hreg := hs.announced m x hm hstatus hmn
      rw [if_neg]
      · exact hreg
      · rintro heq
        rw [heq, hfree] at hreg
        cases hreg
  housed := hs.housed
  nodup := hs.nodup

/-- The node is registered, or not connected. -/
theorem Orderly.close (hs : Orderly (· = n) s)
    (h : ∀ node, s.nodes n = some node → node.status = .connected →
      s.asebaNodes.get? node.uuid = some n) :
    Orderly (fun _ => False) s where
  toConsistent := hs.toConsistent
  announced m x hm hstatus _ := by
    by_cases hmn : m = n
    · subst hmn
      exact h x hm hstatus
    · exact hs.announced m x hm hstatus hmn
  housed := hs.housed
  nodup := hs.nodup

end Operations

section Registering

variable {s t : Registry} {n : Nat} {node : AsebaNode} {depth : Nat} {iterators : List Nat}

theorem Orderly.register {network : Network} (hs : Orderly (· = n) s.network)
    (hn : s.network.nodes n = some node) (hevicts : evictsDuplicate s.network n node.uuid)
    (hnetwork : s.network.removeDuplicatedNode n node = some network)
    (habsent : s.network.asebaNodes.get? node.uuid ≠ some n)
    (h : ({ s with network }.insert n node).restoreGroupAffiliation (Registry.addNode depth)
      iterators node = some t) : Orderly (fun _ => False) t.network := by
  obtain ⟨new, hnew, huuid⟩ := (removeDuplicatedNode_quiet hnetwork).exists_node hn
  have hfree := removeDuplicatedNode_get? habsent hnetwork
  have hremoved := hs.calm (removeDuplicatedNode_calms hevicts hnetwork)
  exact Orderly.restoreGroupAffiliation (s := { s with network }.insert n node)
    (hremoved.insert hnew huuid hfree) h

theorem Orderly.addNode (hs : Orderly (· = n) s.network)
    (hevicts : ∀ node, s.network.nodes n = some node → evictsDuplicate s.network n node.uuid)
    (h : Registry.addNode depth iterators s n = some t) : Orderly (fun _ => False) t.network := by
  cases depth with
  | zero => cases h
  | succ depth =>
    unfold Registry.addNode Registry.addNodeWith at h
    split at h
    · rename_i hnone
      cases h
      refine hs.close fun x hx _ => ?_
      rw [hnone] at hx
      cases hx
    · rename_i node hn
      obtain ⟨network, hnetwork, h⟩ := Option.bind_eq_some_iff.mp h
      have hremoved := hs.calm (removeDuplicatedNode_calms (hevicts node hn) hnetwork)
      split at h
      · rename_i key hkey
        cases h
        have hreg := Table.get?_keyOf? hkey
        refine hremoved.close fun x hx _ => ?_
        rw [hremoved.registered key n x hreg hx]
        exact hreg
      · rename_i hkey
        obtain ⟨next, hnext, h⟩ := Option.bind_eq_some_iff.mp h
        cases h
        have habsent : s.network.asebaNodes.get? node.uuid ≠ some n := by
          intro hreg
          simp only [Network.removeDuplicatedNode, hreg, if_true, Option.some.injEq] at hnetwork
          rw [← hnetwork] at hkey
          exact Table.ne_of_keyOf?_none hkey _ hreg
        exact (hs.register hn (hevicts node hn) hnetwork habsent hnext).calm (.apps _ _)

theorem Orderly.handleNodeUuidChange (hs : Orderly (· = n) (s.network.removeNode n))
    (hn : s.network.nodes n = some node)
    (habsent : (s.network.removeNode n).asebaNodes.get? node.uuid ≠ some n)
    (hevicts : evictsDuplicate (s.network.removeNode n) n node.uuid)
    (h : s.handleNodeUuidChange depth n = some t) : Orderly (fun _ => False) t.network := by
  unfold Registry.handleNodeUuidChange at h
  simp only [hn, forgetNode_eq] at h
  obtain ⟨network, hnetwork, h⟩ := Option.bind_eq_some_iff.mp h
  obtain ⟨next, hnext, h⟩ := Option.bind_eq_some_iff.mp h
  cases h
  have hn' : (s.network.removeNode n).nodes n = some node := by rw [removeNode_nodes, hn]
  have hregistered : Orderly (fun _ => False) next.network :=
    Orderly.register (s := { s with network := s.network.removeNode n }) hs hn' hevicts hnetwork
      habsent hnext
  exact hregistered

theorem evictsDuplicate_forgotten {uuid : Nat} (hevicts : evictsDuplicate s.network n uuid) :
    evictsDuplicate ((s.network.removeNode n).updateNode n fun node => { node with uuid }) n
      uuid := by
  refine evictsDuplicate_mono (removeNode_endpoints s.network n) (fun old hold hne => ?_) hevicts
  refine ⟨removeNode_get? hold, ?_⟩
  simp [Network.updateNode, hne, removeNode_nodes]

/-- From the report of a uuid to the new entry of the node. -/
theorem Orderly.withUuid (hs : Orderly (fun _ => False) s.network)
    (hn : s.network.nodes n = some node) {uuid : Nat} (hevicts : evictsDuplicate s.network n uuid)
    (h : (s.withUuid n uuid).handleNodeUuidChange depth n = some t) :
    Orderly (fun _ => False) t.network := by
  have hrenamed := hs.toConsistent.rename hn uuid
  have hn' : (s.withUuid n uuid).network.nodes n = some { node with uuid } := by
    simp [Registry.withUuid, Network.updateNode, hn]
  refine Orderly.handleNodeUuidChange ?_ hn' ?_ ?_ h
  · rw [withUuid_forgotten]
    exact (hs.forget n).change hrenamed fun _ => rfl
  · rw [withUuid_forgotten]
    exact hs.toConsistent.removeNode_absent hn uuid
  · rw [withUuid_forgotten]
    exact evictsDuplicate_forgotten hevicts

end Registering

/-- The event removes no node from the registry but a disconnected one or, as the duplicate
of another, one that its endpoint finds. -/
def evictsOld (s : Registry) : Registry.Event → Bool
  | .addNode n _ | .handleNodeUuidChange n _ =>
    (s.network.nodes n).all fun node => evictsDuplicate s.network n node.uuid
  | .removeNode n => (s.network.nodes n).all fun node => node.status != .connected
  | .setStatus n status _ => status != .connected ||
    (s.network.nodes n).all fun node => evictsDuplicate s.network n node.uuid
  | .deviceInfo n data random _ =>
    (s.network.nodes n).all fun node => evictsDuplicate s.network n (node.readUuid data random)
  | .nodeConnected _ uuid _ _ => evictsDuplicate s.network s.network.nextNode uuid
  | _ => true

section Steps

variable {s t : Registry} {n depth : Nat}

theorem Orderly.setStatus {status : Status} (hs : Orderly (· = n) s.network)
    (hsame : status ≠ .connected → Orderly (fun _ => False) s.network)
    (hevicts : status = .connected → ∀ node, s.network.nodes n = some node →
      evictsDuplicate s.network n node.uuid)
    (h : s.setStatus depth n status = some t) : Orderly (fun _ => False) t.network := by
  unfold Registry.setStatus Registry.setStatusWith at h
  split at h
  · rename_i hconnected
    refine Orderly.addNode ?_ (fun node hn => ?_) h
    · refine hs.change ?_ fun _ => rfl
      exact hs.toConsistent.keep (.updateNode _ n fun _ => rfl)
    · obtain ⟨old, -, hold, rfl⟩ | ⟨hne, -⟩ := updateNode_eq_some hn
      · have hfits := hevicts hconnected old hold
        refine evictsDuplicate_mono (s := s.network) rfl (fun m hm hne => ⟨hm, ?_⟩) hfits
        simp [Network.updateNode, hne]
      · exact absurd rfl hne
  · rename_i hother
    cases h
    exact (hsame hother).calm (.setOtherStatus _ n hother)

theorem Orderly.createNode {s : Network} (hs : Orderly (fun _ => False) s) (ep uuid : Nat) :
    Orderly (· = s.nextNode) (s.createNode ep uuid) where
  toConsistent := hs.toConsistent.createNode ep uuid
  announced m x hm hstatus hne := by
    obtain ⟨rfl, -⟩ | ⟨-, hm⟩ := createNode_eq_some hm
    · exact absurd rfl hne
    · exact hs.announced m x hm hstatus not_false
  housed ep' m hlisted := by
    obtain ⟨x, hx, hendpoint⟩ := hs.housed ep' m hlisted
    refine ⟨x, ?_, hendpoint⟩
    have hne : m ≠ s.nextNode := by
      rintro rfl
      rw [(hs.fresh _ (Nat.le_refl _)).1] at hx
      cases hx
    exact (Function.update_of_ne hne _ _).trans hx
  nodup := hs.nodup

/-- A new node is at its endpoint, whose table does not list it yet. -/
theorem connected_housed {s t : Registry} (hs : Orderly (fun _ => False) s.network)
    {ep uuid depth : Nat}
    (h : Registry.setStatus depth { s with network := s.network.createNode ep uuid }
      s.network.nextNode .connected = some t) :
    ∃ node, t.network.nodes s.network.nextNode = some node ∧ node.endpoint = ep ∧
      s.network.nextNode ∉ (t.network.endpoints ep).getD [] := by
  unfold Registry.setStatus Registry.setStatusWith at h
  rw [if_pos rfl] at h
  have hsettles := addNode_settles depth [] _ _ _ h
  have hnew : ((s.network.createNode ep uuid).updateNode s.network.nextNode fun node =>
      { node with status := .connected }).nodes s.network.nextNode =
      some { uuid, endpoint := ep, status := .connected } := by
    simp [Network.updateNode, Network.createNode]
  have habsent : s.network.nextNode ∉ (t.network.endpoints ep).getD [] := by
    intro hlisted
    obtain ⟨x, hx, -⟩ := hs.housed ep _ ((hsettles.tables ep).subset hlisted)
    rw [(hs.fresh _ (Nat.le_refl _)).1] at hx
    cases hx
  obtain hsame | hdisc := hsettles.toQuiet.nodes s.network.nextNode
  · exact ⟨_, hsame.trans hnew, rfl, habsent⟩
  · exact ⟨{ uuid, endpoint := ep, status := .disconnected }, by rw [hdisc, hnew]; rfl, rfl, habsent⟩

/-- A new node gets into the table of its endpoint. -/
theorem Orderly.extend {s : Network} {node : AsebaNode} {table : List Nat} {ep : Nat}
    (hs : Orderly (fun _ => False) s) (hperm : table.isPerm (n :: (s.endpoints ep).getD []))
    (hn : s.nodes n = some node) (hendpoint : node.endpoint = ep)
    (habsent : n ∉ (s.endpoints ep).getD []) :
    Orderly (fun _ => False)
      { s with endpoints := Function.update s.endpoints ep (some table) } where
  toConsistent := hs.toConsistent.keep (.of_frame rfl rfl rfl)
  announced := hs.announced
  housed ep' m hlisted := by
    by_cases hep : ep' = ep
    · subst hep
      simp only [Function.update_self, Option.getD_some] at hlisted
      rcases List.mem_cons.mp ((List.isPerm_iff.mp hperm).subset hlisted) with rfl | hm
      · exact ⟨node, hn, hendpoint⟩
      · exact hs.housed ep' m hm
    · simp only [Function.update_of_ne hep] at hlisted
      exact hs.housed ep' m hlisted
  nodup ep' := by
    by_cases hep : ep' = ep
    · subst hep
      simp only [Function.update_self, Option.getD_some]
      exact (List.isPerm_iff.mp hperm).nodup_iff.mpr
        (List.nodup_cons.mpr ⟨habsent, hs.nodup ep'⟩)
    · simp only [Function.update_of_ne hep]
      exact hs.nodup ep'

theorem Orderly.networkStep {s t : Network} {e : Network.Event} (hs : Orderly (fun _ => False) s)
    (he : Registry.staysInNetwork e = true) (h : s.step e = some t) :
    Orderly (fun _ => False) t := by
  by_cases hunresponsive : ∃ n, e = .unresponsive n
  · obtain ⟨n, rfl⟩ := hunresponsive
    simp only [Network.step] at h
    split at h
    · rename_i node hn
      split at h
      · cases h
        refine (hs.calm (.setOtherStatus s n (by decide))).calm (.updateTable _ _ _ ?_)
        rw [setOtherStatus_endpoints]
        cases s.endpoints node.endpoint with
        | none => exact .refl _
        | some table => exact List.erase_sublist
      · cases h
    · cases h
  · by_cases hdestroyed : ∃ n, e = .nodeDestroyed n
    · obtain ⟨n, rfl⟩ := hdestroyed
      have hkeeps := keepsUuids_step he h
      simp only [Network.step] at h
      split at h
      · rename_i hgone
        cases h
        refine ⟨hs.toConsistent.keep hkeeps, fun m x hm => ?_, fun ep m hlisted => ?_, hs.nodup⟩
        · exact hs.announced m x (nodeDestroyed_eq_some hm).2
        · obtain ⟨x, hx, rfl⟩ := hs.housed ep m hlisted
          refine ⟨x, ?_, rfl⟩
          have hne : m ≠ n := by
            rintro rfl
            refine hgone.2 ?_
            simpa [Network.listed, hx] using hlisted
          exact (Function.update_of_ne hne _ _).trans hx
      · cases h
    · exact hs.calm (calms_permits.step he (fun n hn => hunresponsive ⟨n, hn⟩)
        (fun n hn => hdestroyed ⟨n, hn⟩) h)

theorem Orderly.connectNode (hs : Orderly (fun _ => False) s.network) {ep uuid : Nat}
    {table : List Nat} (hevicts : evictsDuplicate s.network s.network.nextNode uuid)
    (h : s.connectNode depth ep uuid table = some t) : Orderly (fun _ => False) t.network := by
  unfold Registry.connectNode at h
  split at h
  · obtain ⟨next, hnext, h⟩ := Option.bind_eq_some_iff.mp h
    split at h
    · rename_i hperm
      cases h
      obtain ⟨node, hnode, hendpoint, habsent⟩ := connected_housed hs hnext
      have hlisted : Orderly (fun _ => False) next.network := by
        refine Orderly.setStatus (hs.createNode ep uuid) (fun h => absurd rfl h)
          (fun _ x hx => ?_) hnext
        obtain ⟨-, rfl⟩ | ⟨hne, -⟩ := createNode_eq_some hx
        · refine evictsDuplicate_mono (s := s.network) rfl (fun m hm hne => ⟨hm, ?_⟩) hevicts
          exact Function.update_of_ne hne _ _
        · exact absurd rfl hne
      exact hlisted.extend hperm hnode hendpoint habsent
    · cases h
  · cases h

theorem Orderly.step {e : Registry.Event} (hs : Orderly (fun _ => False) s.network)
    (hevicts : evictsOld s e = true) (h : s.step e = some t) :
    Orderly (fun _ => False) t.network := by
  cases e with
  | addNode n depth =>
    refine Orderly.addNode (hs.weaken _) (fun node hn => ?_) h
    simpa [evictsOld, hn] using hevicts
  | handleNodeUuidChange n depth =>
    cases hn : s.network.nodes n with
    | none =>
      simp only [Registry.step, Registry.handleNodeUuidChange, hn] at h
      cases h
      exact hs
    | some node =>
      have hfits : evictsDuplicate s.network n node.uuid := by
        simpa [evictsOld, hn] using hevicts
      refine Orderly.handleNodeUuidChange (hs.forget n) hn
        (hs.toConsistent.removeNode_absent hn _) ?_ h
      refine evictsDuplicate_mono (removeNode_endpoints s.network n) (fun old hold _ => ?_) hfits
      exact ⟨removeNode_get? hold, by rw [removeNode_nodes]⟩
  | removeNode n =>
    cases h
    refine (hs.forget n).close fun node hn hconnected => ?_
    rw [removeNode_nodes] at hn
    simp [evictsOld, hn, hconnected] at hevicts
  | setStatus n status depth =>
    refine Orderly.setStatus (hs.weaken _) (fun _ => hs) (fun hstatus node hn => ?_) h
    simpa [evictsOld, hstatus, hn] using hevicts
  | deviceInfo n data random depth =>
    simp only [Registry.step] at h
    unfold Registry.onDeviceInfo at h
    split at h
    · cases h
      exact hs
    · rename_i node hn
      obtain ⟨next, hnext, h⟩ := Option.bind_eq_some_iff.mp h
      have hfits : evictsDuplicate s.network n (node.readUuid data random) := by
        simpa [evictsOld, hn] using hevicts
      have hreported := hs.withUuid hn hfits hnext
      exact Orderly.setStatus (hreported.weaken _) (fun _ => hreported)
        (fun hstatus => absurd hstatus (by decide)) h
  | nodeConnected ep uuid table depth => exact hs.connectNode hevicts h
  | endpointConnected =>
    cases h
    exact hs.calm (.updateTable _ _ _ (List.nil_sublist _))
  | endpointDestroyed ep =>
    simp only [Registry.step] at h
    obtain ⟨network, hnetwork, h⟩ := Option.bind_eq_some_iff.mp h
    obtain ⟨groups, -, h⟩ := Option.bind_eq_some_iff.mp h
    cases h
    simp only [Network.step] at hnetwork
    split at hnetwork
    · cases hnetwork
      exact (hs.calm (calms_permits.destroyEndpoint _ _)).calm
        (.updateTable _ _ _ (List.nil_sublist _))
    · cases hnetwork
  | attachToEndpoint g ep depth =>
    simp only [Registry.step] at h
    split at h
    · exact hs.calm (attachToEndpointWith_announces hs h).calms
    · cases h
  | network e =>
    simp only [Registry.step] at h
    split at h
    · rename_i he
      obtain ⟨network, hnetwork, rfl⟩ := Option.map_eq_some_iff.mp h
      exact hs.networkStep he hnetwork
    · cases h
  | groups e =>
    simp only [Registry.step] at h
    split at h
    · obtain ⟨groups, -, rfl⟩ := Option.map_eq_some_iff.mp h
      exact hs
    · cases h

end Steps

theorem Orderly.start : Orderly (fun _ => False) {} where
  toConsistent := .start
  announced _ _ hm := by cases hm
  housed _ _ hm := by cases hm
  nodup _ := List.nodup_nil

end Registration

end ThymioDeviceManager.Correctness
