import ThymioDeviceManager.Correctness.Locking
import ThymioDeviceManager.Manager.Registry

/-! # The registry lists nodes under their uuids

Every operation of the registry, with all the operations that it calls in turn, keeps the
uuids of the nodes and makes entries for nodes under their own uuids only. The one call
that a node makes after its uuid has changed begins by dropping the old entry of the node.
-/

namespace ThymioDeviceManager.Correctness

open Manager Library

namespace Registration

/-! ## What the operations keep -/

/-- The nodes that are there after the operation were there before it, with the same uuids,
and new entries of the registry are for nodes under their uuids. -/
structure KeepsUuids (s t : Network) : Prop where
  uuid : ∀ n node, t.nodes n = some node → ∃ old, s.nodes n = some old ∧ node.uuid = old.uuid
  registry : ∀ id n, t.asebaNodes.get? id = some n →
    s.asebaNodes.get? id = some n ∨ ∃ node, s.nodes n = some node ∧ node.uuid = id
  next : t.nextNode = s.nextNode

section KeepsUuids

variable {s t u : Network} {n a : Nat}

theorem KeepsUuids.refl (s : Network) : KeepsUuids s s :=
  ⟨fun _ node h => ⟨node, h, rfl⟩, fun _ _ h => .inl h, rfl⟩

theorem KeepsUuids.of_quiet (h : Quiet s t) : KeepsUuids s t where
  uuid n node hn := by
    obtain ⟨old, hold, huuid, -, -⟩ := h.of_node hn
    exact ⟨old, hold, huuid⟩
  registry := h.registry
  next := h.next

theorem KeepsUuids.of_frame (hnodes : t.nodes = s.nodes) (hregistry : t.asebaNodes = s.asebaNodes)
    (hnext : t.nextNode = s.nextNode) : KeepsUuids s t :=
  ⟨fun _ node h => ⟨node, hnodes ▸ h, rfl⟩, fun _ _ h => .inl (hregistry ▸ h), hnext⟩

theorem KeepsUuids.updateNode (s : Network) (n : Nat) {f : AsebaNode → AsebaNode}
    (hf : ∀ node, (f node).uuid = node.uuid) : KeepsUuids s (s.updateNode n f) where
  uuid m node h := by
    obtain ⟨old, rfl, hold, rfl⟩ | ⟨-, h⟩ := updateNode_eq_some h
    · exact ⟨old, hold, hf old⟩
    · exact ⟨node, h, rfl⟩
  registry _ _ h := .inl h
  next := rfl

/-- The registry lists no node twice, and under its uuid; unused numbers occur nowhere. -/
structure Consistent (s : Network) : Prop where
  registered : ∀ id n node, s.asebaNodes.get? id = some n → s.nodes n = some node →
    node.uuid = id
  fresh : ∀ n, s.nextNode ≤ n → s.nodes n = none ∧ ∀ id, s.asebaNodes.get? id ≠ some n

theorem Consistent.keep (hs : Consistent s) (h : KeepsUuids s t) : Consistent t where
  registered id n node hid hn := by
    obtain ⟨old, hold, huuid⟩ := h.uuid n node hn
    obtain hreg | ⟨old', hold', huuid'⟩ := h.registry id n hid
    · exact huuid.trans (hs.registered id n old hreg hold)
    · rw [hold] at hold'
      cases hold'
      exact huuid.trans huuid'
  fresh n hn := by
    rw [h.next] at hn
    obtain ⟨hnone, hreg⟩ := hs.fresh n hn
    constructor
    · cases hnode : t.nodes n with
      | none => rfl
      | some node =>
        obtain ⟨old, hold, -⟩ := h.uuid n node hnode
        rw [hnone] at hold
        cases hold
    · intro id hid
      obtain hid | ⟨old, hold, -⟩ := h.registry id n hid
      · exact hreg id hid
      · rw [hnone] at hold
        cases hold

theorem KeepsUuids.trans (hst : KeepsUuids s t) (htu : KeepsUuids t u) : KeepsUuids s u where
  uuid n node h := by
    obtain ⟨mid, hmid, huuid⟩ := htu.uuid n node h
    obtain ⟨old, hold, huuid'⟩ := hst.uuid n mid hmid
    exact ⟨old, hold, huuid.trans huuid'⟩
  registry id n h := by
    obtain h | ⟨mid, hmid, rfl⟩ := htu.registry id n h
    · exact hst.registry id n h
    · obtain ⟨old, hold, huuid⟩ := hst.uuid n mid hmid
      exact .inr ⟨old, hold, huuid.symm⟩
  next := htu.next.trans hst.next

theorem keepsUuids_setOtherStatus (s : Network) (n : Nat) (status : Status) :
    KeepsUuids s (s.setOtherStatus n status) := by
  refine KeepsUuids.trans ?_ (.of_quiet (setOtherStatus_quiet s n status))
  exact .updateNode s n fun _ => rfl

end KeepsUuids

/-! ## Applications -/

/-- A relation between the states before and after that allows what the applications do. -/
structure Permits (R : Network → Network → Prop) : Prop where
  refl : ∀ s, R s s
  trans : ∀ {s t u}, R s t → R t u → R s u
  setOtherStatus : ∀ s n status, status ≠ .connected → R s (s.setOtherStatus n status)
  hold : ∀ s n app, R s (s.updateNode n fun node => { node with connectedApp := app })
  apps : ∀ (s : Network) apps, R s { s with apps }

section Permits

variable {R : Network → Network → Prop} (hR : Permits R) {s t : Network}

include hR

theorem Permits.destroyEndpoint (s : Network) (table : List Nat) :
    R s (s.destroyEndpoint table) := by
  unfold Network.destroyEndpoint
  induction table generalizing s with
  | nil => exact hR.refl s
  | cons n table ih => exact hR.trans (hR.setOtherStatus s n .disconnected (by decide)) (ih _)

theorem Permits.nodeLock (s : Network) (n a : Nat) : R s (s.nodeLock n a).1 := by
  unfold Network.nodeLock
  split
  · exact hR.refl s
  · split
    · exact hR.refl s
    · split
      · exact hR.refl s
      · exact hR.trans (hR.hold s n (some a)) (hR.setOtherStatus _ n .busy (by decide))

theorem Permits.nodeUnlock (s : Network) (n a : Nat) : R s (s.nodeUnlock n a) := by
  unfold Network.nodeUnlock
  split
  · exact hR.refl s
  · split
    · exact hR.refl s
    · exact hR.trans (hR.hold s n none) (hR.setOtherStatus _ n .available (by decide))

theorem Permits.lockNode (s : Network) (a id : Nat) : R s (s.lockNode a id) := by
  unfold Network.lockNode
  split
  · exact hR.refl s
  · rename_i n _
    have hlock : R s ((s.updateLocked a (·.assign id n)).nodeLock n a).1 :=
      hR.trans (hR.apps s _) (hR.nodeLock _ n a)
    dsimp only
    split
    · exact hlock
    · exact hR.trans hlock (hR.apps _ _)

theorem Permits.unlockNode (s : Network) (a id : Nat) : R s (s.unlockNode a id) := by
  unfold Network.unlockNode
  split
  · exact hR.refl s
  · rename_i n _
    have hunlisted : R s (s.updateLocked a (·.erase id)) := hR.apps s _
    exact hR.trans hunlisted (hR.nodeUnlock _ n a)

theorem Permits.destroyApplication (s : Network) (a : Nat) (app : Application) :
    R s (s.destroyApplication a app) := by
  unfold Network.destroyApplication
  generalize app.lockedNodes.entries = entries
  refine hR.trans (hR.apps s (Function.update s.apps a none)) ?_
  generalize { s with apps := Function.update s.apps a none } = s
  induction entries generalizing s with
  | nil => exact hR.refl s
  | cons e entries ih => exact hR.trans (hR.nodeUnlock s e.2 a) (ih _)

/-- The events that leave the tables and the lives of the nodes alone. -/
theorem Permits.step {e : Network.Event} (he : Registry.staysInNetwork e = true)
    (hunresponsive : ∀ n, e ≠ .unresponsive n) (hdestroyed : ∀ n, e ≠ .nodeDestroyed n)
    (h : s.step e = some t) : R s t := by
  cases step_cases h with
  | appConnected ha => exact hR.apps s _
  | @appDestroyed a app ha => exact hR.destroyApplication s a app
  | @lock a id app ha => exact hR.lockNode s a id
  | @unlock a id => exact hR.unlockNode s a id
  | @deliver a lockedNodes change pending ha =>
    refine hR.trans (hR.apps s (Function.update s.apps a (some ⟨lockedNodes, pending⟩))) ?_
    unfold Network.doNodeChanged
    split
    · exact hR.apps _ _
    · exact hR.refl _
  | @described n => exact hR.setOtherStatus s n .available (by decide)
  | @upgrade n _ _ _ _ => exact hR.setOtherStatus s n .upgrading (by decide)
  | @endpointStopped _ table => exact hR.destroyEndpoint s table
  | @unresponsive n endpoints => exact absurd rfl (hunresponsive n)
  | @nodeDestroyed n => exact absurd rfl (hdestroyed n)
  | endpointConnected => cases he
  | nodeConnected hnext => cases he
  | uuidReply hn ht => cases he
  | statusAgain ht => cases he
  | endpointDestroyed => cases he

end Permits

theorem keepsUuids_permits : Permits KeepsUuids where
  refl := .refl
  trans := .trans
  setOtherStatus s n status _ := keepsUuids_setOtherStatus s n status
  hold s n _ := .updateNode s n fun _ => rfl
  apps _ _ := .of_frame rfl rfl rfl

theorem keepsUuids_step {s t : Network} {e : Network.Event}
    (he : Registry.staysInNetwork e = true) (h : s.step e = some t) : KeepsUuids s t := by
  by_cases hunresponsive : ∃ n, e = .unresponsive n
  · obtain ⟨n, rfl⟩ := hunresponsive
    cases step_cases h with
    | unresponsive =>
      exact (keepsUuids_setOtherStatus s n .disconnected).trans (.of_quiet (endpoints_quiet _ _))
  · by_cases hdestroyed : ∃ n, e = .nodeDestroyed n
    · obtain ⟨n, rfl⟩ := hdestroyed
      cases step_cases h with
      | nodeDestroyed =>
        refine ⟨fun m node hm => ⟨node, (nodeDestroyed_eq_some hm).2, rfl⟩, fun _ _ h => .inl h, rfl⟩
    · exact keepsUuids_permits.step he (fun n hn => hunresponsive ⟨n, hn⟩)
        (fun n hn => hdestroyed ⟨n, hn⟩) h

/-! ## Operations that call each other -/

/-- A quiet change that at most takes nodes from the tables of the endpoints. -/
structure Settles (s t : Network) : Prop extends Quiet s t where
  tables : ∀ ep, ((t.endpoints ep).getD []).Sublist ((s.endpoints ep).getD [])

section Settles

variable {s t u : Network} {n : Nat} {node : AsebaNode}

theorem Settles.refl (s : Network) : Settles s s := ⟨.refl s, fun _ => .refl _⟩

theorem Settles.trans (hst : Settles s t) (htu : Settles t u) : Settles s u :=
  ⟨hst.toQuiet.trans htu.toQuiet, fun ep => (htu.tables ep).trans (hst.tables ep)⟩

theorem Settles.of_endpoints (h : Quiet s t) (hendpoints : t.endpoints = s.endpoints) :
    Settles s t := ⟨h, fun _ => hendpoints ▸ .refl _⟩

theorem setOtherStatus_endpoints (s : Network) (n : Nat) (status : Status) :
    (s.setOtherStatus n status).endpoints = s.endpoints := by
  unfold Network.setOtherStatus Network.removeNode Network.setNodeStatus
  dsimp only
  split <;> split <;> rfl

theorem removeNode_settles (s : Network) (n : Nat) : Settles s (s.removeNode n) := by
  refine .of_endpoints (removeNode_quiet s n) ?_
  unfold Network.removeNode
  split <;> rfl

theorem endpointRemoveNode_settles {ep uuid : Nat} (h : s.endpointRemoveNode ep uuid = some t) :
    Settles s t := by
  refine ⟨endpointRemoveNode_quiet h, fun ep' => ?_⟩
  unfold Network.endpointRemoveNode at h
  split at h
  · rename_i r rest htable
    split at h
    · cases h
      by_cases hep : ep' = ep
      · subst hep
        simp only [Function.update_self, htable, Option.getD_some]
        exact List.sublist_cons_self r rest
      · simp only [Function.update_of_ne hep, setOtherStatus_endpoints]
        exact .refl _
    · cases h
  · cases h
    exact .refl _

theorem removeDuplicatedNode_settles (h : s.removeDuplicatedNode n node = some t) :
    Settles s t := by
  unfold Network.removeDuplicatedNode at h
  split at h
  · cases h
    exact .refl s
  · split at h
    · cases h
      exact .refl s
    · have herased : Settles s { s with asebaNodes := s.asebaNodes.erase node.uuid } :=
        .of_endpoints (erase_quiet s _) rfl
      dsimp only at h
      split at h
      · cases h
        exact herased
      · exact herased.trans (endpointRemoveNode_settles h)

end Settles

section Nested

variable {s t : Registry} {n : Nat} {node : AsebaNode}

/-- An operation that registers nodes is quiet. -/
def Settling (addNode : Registry → Nat → Option Registry) : Prop :=
  ∀ s n t, addNode s n = some t → Settles s.network t.network

theorem Settling.announce {addNode : Registry → Nat → Option Registry} (hadd : Settling addNode)
    (h : s.announce addNode n = some t) : Settles s.network t.network := by
  unfold Registry.announce at h
  split at h
  · cases h
    exact .refl _
  · rename_i node hnode
    have hself : (s.network.updateNode n fun old => { old with status := node.status }) =
        s.network := updateNode_self hnode rfl
    unfold Registry.setStatusWith at h
    split at h
    · rw [hself] at h
      exact hadd _ _ _ h
    · cases h
      have hquiet := setOtherStatus_quiet s.network n node.status
      rw [hself] at hquiet
      exact .of_endpoints hquiet (setOtherStatus_endpoints _ _ _)

theorem Settling.attachToEndpointWith {addNode : Registry → Nat → Option Registry}
    (hadd : Settling addNode) {g ep : Nat} (h : s.attachToEndpointWith addNode g ep = some t) :
    Settles s.network t.network := by
  unfold Registry.attachToEndpointWith at h
  generalize (s.network.endpoints ep).getD [] = table at h
  generalize hstart : { s with groups := s.groups.attachToEndpoint g ep } = start at h
  have hnetwork : s.network = start.network := by rw [← hstart]
  rw [hnetwork]
  clear hstart hnetwork
  induction table generalizing start with
  | nil =>
    cases h
    exact .refl _
  | cons m table ih =>
    rw [List.foldlM_cons] at h
    obtain ⟨next, hnext, hrest⟩ := Option.bind_eq_some_iff.mp h
    exact (hadd.announce hnext).trans (ih next hrest)

theorem eraseGhostGroup_network {iterators : List Nat} {uuid : Nat}
    (h : s.eraseGhostGroup iterators uuid = some t) : t.network = s.network := by
  unfold Registry.eraseGhostGroup at h
  split at h
  · cases h
  · cases h
    rfl

theorem restoreGroupAffiliation_settles {addNode : List Nat → Registry → Nat → Option Registry}
    (hadd : ∀ iterators, Settling (addNode iterators)) {iterators : List Nat}
    (h : s.restoreGroupAffiliation addNode iterators node = some t) :
    Settles s.network t.network := by
  unfold Registry.restoreGroupAffiliation at h
  split at h
  · cases h
    exact .refl _
  · rw [eraseGhostGroup_network h]
    exact .refl _
  · obtain ⟨next, hnext, h⟩ := Option.bind_eq_some_iff.mp h
    rw [eraseGhostGroup_network h]
    exact (hadd _).attachToEndpointWith hnext

/-- What `add_node` and `handle_node_uuid_change` do with a node that is not registered. -/
theorem insert_settles {addNode : List Nat → Registry → Nat → Option Registry}
    (hadd : ∀ iterators, Settling (addNode iterators)) {iterators : List Nat} {network : Network}
    (hnode : s.network.nodes n = some node) (hsettles : Settles s.network network)
    (h : ({ s with network }.insert n node).restoreGroupAffiliation addNode iterators node =
      some t) : Settles s.network t.network := by
  obtain ⟨node', hnode', huuid'⟩ := hsettles.toQuiet.exists_node hnode
  have hinsert : Settles network
      { network with asebaNodes := network.asebaNodes.insert node.uuid n } :=
    .of_endpoints (insert_quiet hnode' huuid') rfl
  exact (hsettles.trans hinsert).trans (restoreGroupAffiliation_settles hadd h)

/-- By induction on the depth of the calls. -/
theorem addNode_settles (depth : Nat) : ∀ iterators, Settling (Registry.addNode depth iterators) := by
  induction depth with
  | zero =>
    intro iterators s n t h
    cases h
  | succ depth ih =>
    intro iterators s n t h
    unfold Registry.addNode Registry.addNodeWith at h
    split at h
    · cases h
      exact .refl _
    · rename_i node hnode
      obtain ⟨network, hnetwork, h⟩ := Option.bind_eq_some_iff.mp h
      have hremoved := removeDuplicatedNode_settles hnetwork
      split at h
      · cases h
        exact hremoved
      · obtain ⟨next, hnext, h⟩ := Option.bind_eq_some_iff.mp h
        cases h
        exact (insert_settles ih hnode hremoved hnext).trans
          (.of_endpoints (signal_quiet _ _ _ _) rfl)

theorem handleNodeUuidChange_settles {depth : Nat} (hnode : s.network.nodes n = some node)
    (h : s.handleNodeUuidChange depth n = some t) :
    Settles (s.network.removeNode n) t.network := by
  unfold Registry.handleNodeUuidChange at h
  simp only [hnode, forgetNode_eq] at h
  obtain ⟨network, hnetwork, h⟩ := Option.bind_eq_some_iff.mp h
  obtain ⟨next, hnext, h⟩ := Option.bind_eq_some_iff.mp h
  cases h
  have hforgotten : ({ s with network := s.network.removeNode n } : Registry).network.nodes n =
      some node := by rw [removeNode_nodes, hnode]
  have hregistered : Settles (s.network.removeNode n) next.network :=
    insert_settles (addNode_settles depth) hforgotten (removeDuplicatedNode_settles hnetwork) hnext
  exact hregistered

theorem setStatus_keepsUuids {depth : Nat} {status : Status}
    (h : s.setStatus depth n status = some t) : KeepsUuids s.network t.network := by
  unfold Registry.setStatus Registry.setStatusWith at h
  split at h
  · refine KeepsUuids.trans ?_ (.of_quiet (addNode_settles depth [] _ _ _ h).toQuiet)
    exact .updateNode _ n fun _ => rfl
  · cases h
    exact keepsUuids_setOtherStatus _ n status

end Nested

/-! ## Runs -/

section Runs

variable {s t : Network} {n : Nat} {node : AsebaNode}

theorem Consistent.settle (hs : Consistent s) (h : Settles s t) : Consistent t :=
  hs.keep (.of_quiet h.toQuiet)

theorem Consistent.start : Consistent {} := ⟨by simp, by simp⟩

theorem Consistent.once (hs : Consistent s) (hn : s.nodes n = some node) (id id' : Nat)
    (hid : s.asebaNodes.get? id = some n) (hid' : s.asebaNodes.get? id' = some n) : id = id' :=
  (hs.registered id n node hid hn).symm.trans (hs.registered id' n node hid' hn)

theorem Consistent.removeNode_absent (hs : Consistent s) (hn : s.nodes n = some node) (id : Nat) :
    (s.removeNode n).asebaNodes.get? id ≠ some n :=
  Correctness.removeNode_absent (hs.once hn) id

/-- A node that has left the registry may get another uuid. -/
theorem Consistent.rename (hs : Consistent s) (hn : s.nodes n = some node) (uuid : Nat) :
    Consistent ((s.removeNode n).updateNode n fun node => { node with uuid }) where
  registered id m x hid hm := by
    obtain ⟨old, rfl, -, -⟩ | ⟨-, hm⟩ := updateNode_eq_some hm
    · exact absurd hid (hs.removeNode_absent hn id)
    · exact (hs.keep (.of_quiet (removeNode_quiet s n))).registered id m x hid hm
  fresh m hm := by
    obtain ⟨hnone, hreg⟩ := (hs.keep (.of_quiet (removeNode_quiet s n))).fresh m hm
    refine ⟨?_, hreg⟩
    by_cases h : m = n
    · subst h
      simp [Network.updateNode, hnone]
    · simp [Network.updateNode, h, hnone]

theorem Consistent.createNode (hs : Consistent s) (ep uuid : Nat) :
    Consistent (s.createNode ep uuid) where
  registered id m x hid hm := by
    obtain ⟨rfl, -⟩ | ⟨-, hm⟩ := createNode_eq_some hm
    · exact absurd hid ((hs.fresh _ (Nat.le_refl _)).2 id)
    · exact hs.registered id m x hid hm
  fresh m hm := by
    have hlt : s.nextNode < m := hm
    obtain ⟨hnone, hreg⟩ := hs.fresh m (by omega)
    refine ⟨?_, hreg⟩
    change Function.update s.nodes s.nextNode _ m = none
    rw [Function.update_of_ne (by omega)]
    exact hnone

end Runs

section Steps

variable {s t : Registry} {n : Nat} {node : AsebaNode}

/-- The node leaves the registry before its duplicate is looked for. -/
theorem withUuid_forgotten (s : Registry) (n uuid : Nat) :
    (s.withUuid n uuid).network.removeNode n =
      (s.network.removeNode n).updateNode n fun node => { node with uuid } :=
  removeNode_updateNode s.network n _

theorem Consistent.onDeviceInfo (hs : Consistent s.network) {depth random : Nat}
    {data : Option Nat} (h : s.onDeviceInfo depth n data random = some t) :
    Consistent t.network := by
  unfold Registry.onDeviceInfo at h
  split at h
  · cases h
    exact hs
  · rename_i node hn
    obtain ⟨next, hnext, h⟩ := Option.bind_eq_some_iff.mp h
    have hrenamed : (s.withUuid n (node.readUuid data random)).network.nodes n =
        some { node with uuid := node.readUuid data random } := by
      simp [Registry.withUuid, Network.updateNode, hn]
    have hsettles := handleNodeUuidChange_settles hrenamed hnext
    rw [withUuid_forgotten] at hsettles
    exact ((hs.rename hn _).settle hsettles).keep (setStatus_keepsUuids h)

theorem Consistent.connectNode (hs : Consistent s.network) {depth ep uuid : Nat}
    {table : List Nat} (h : s.connectNode depth ep uuid table = some t) :
    Consistent t.network := by
  unfold Registry.connectNode at h
  split at h
  · obtain ⟨next, hnext, h⟩ := Option.bind_eq_some_iff.mp h
    split at h
    · cases h
      exact ((hs.createNode ep uuid).keep (setStatus_keepsUuids hnext)).keep
        (.of_quiet (endpoints_quiet _ _))
    · cases h
  · cases h

theorem Consistent.step {e : Registry.Event} (hs : Consistent s.network) (h : s.step e = some t) :
    Consistent t.network := by
  cases e with
  | addNode n depth => exact hs.settle (addNode_settles depth [] _ _ _ h)
  | handleNodeUuidChange n depth =>
    cases hn : s.network.nodes n with
    | none =>
      simp only [Registry.step, Registry.handleNodeUuidChange, hn] at h
      cases h
      exact hs
    | some node =>
      exact (hs.settle (removeNode_settles _ n)).settle (handleNodeUuidChange_settles hn h)
  | removeNode n =>
    cases h
    exact hs.settle (removeNode_settles _ n)
  | setStatus n status depth => exact hs.keep (setStatus_keepsUuids h)
  | deviceInfo n data random depth => exact hs.onDeviceInfo h
  | nodeConnected ep uuid table depth => exact hs.connectNode h
  | endpointConnected =>
    cases h
    exact hs.keep (.of_frame rfl rfl rfl)
  | endpointDestroyed ep =>
    simp only [Registry.step] at h
    obtain ⟨network, hnetwork, h⟩ := Option.bind_eq_some_iff.mp h
    obtain ⟨groups, -, h⟩ := Option.bind_eq_some_iff.mp h
    cases h
    cases step_cases hnetwork with
    | @endpointDestroyed _ table _ =>
      exact (hs.keep (keepsUuids_permits.destroyEndpoint _ table)).keep (.of_quiet (endpoints_quiet _ _))
  | attachToEndpoint g ep depth =>
    simp only [Registry.step] at h
    split at h
    · exact hs.settle ((addNode_settles depth []).attachToEndpointWith h)
    · cases h
  | network e =>
    simp only [Registry.step] at h
    split at h
    · rename_i he
      obtain ⟨network, hnetwork, rfl⟩ := Option.map_eq_some_iff.mp h
      exact hs.keep (keepsUuids_step he hnetwork)
    · cases h
  | groups e =>
    simp only [Registry.step] at h
    split at h
    · obtain ⟨groups, -, rfl⟩ := Option.map_eq_some_iff.mp h
      exact hs
    · cases h

end Steps

/-- A live node that is not disconnected is registered at most once, under its uuid, and a
search for a uuid finds a node that has it. -/
structure WellRegistered (s : Network) : Prop where
  once : ∀ n node, s.nodes n = some node → node.status ≠ .disconnected →
    ∀ id id', s.asebaNodes.get? id = some n → s.asebaNodes.get? id' = some n → id = id'
  keyed : ∀ n node, s.nodes n = some node → node.status ≠ .disconnected →
    ∀ id, s.asebaNodes.get? id = some n → id = node.uuid
  found : ∀ id n, s.nodeFromId id = some n → ∃ node, s.nodes n = some node ∧ node.uuid = id

theorem Consistent.wellRegistered {s : Network} (hs : Consistent s) : WellRegistered s where
  once n node hn _ := hs.once hn
  keyed n node hn _ id hid := (hs.registered id n node hid hn).symm
  found id n h := by
    obtain ⟨hid, hsome⟩ := Option.filter_eq_some_iff.mp h
    obtain ⟨node, hn⟩ := Option.isSome_iff_exists.mp hsome
    exact ⟨node, hn, hs.registered id n node hid hn⟩

/-- After every sequence of calls. -/
theorem run_wellRegistered (events : List Registry.Event) (s : Registry)
    (hrun : Transition.run Registry.step {} events = some s) : WellRegistered s.network := by
  have hs : Consistent s.network :=
    Transition.preserved (I := fun s : Registry => Consistent s.network)
      (fun _ _ _ hs h => hs.step h) Consistent.start hrun
  exact hs.wellRegistered

/-- A robot is seen on a second endpoint, which it brings into the group of the first. -/
def movedRobot : List Registry.Event :=
  [.endpointConnected, .nodeConnected 0 11 [0] 2, .deviceInfo 0 (some 1) 0 2,
    .groups (.setEventsTable 0 [{ name := "ping", size := 1 }]), .endpointConnected,
    .nodeConnected 1 12 [1] 2, .deviceInfo 1 (some 1) 0 2]

theorem movedRobot_wellRegistered :
    ∃ s, Transition.run Registry.step {} movedRobot = some s ∧
      s.network.nodeFromId 1 = some 1 ∧ WellRegistered s.network := by
  have hfound : (Transition.run Registry.step {} movedRobot).any
      (fun s => s.network.nodeFromId 1 == some 1) = true := by decide
  obtain ⟨s, hrun, hnode⟩ := (Option.any_eq_true _ _).mp hfound
  exact ⟨s, hrun, by simpa using hnode, run_wellRegistered movedRobot s hrun⟩

end Registration

end ThymioDeviceManager.Correctness
