import ThymioDeviceManager.Manager.Network

/-! # Who holds a node

A lock is recorded in the node (`m_connected_app`) and, under the uuid of the
node, in the application (`m_locked_nodes`). Registering, removing and announcing
nodes touches neither (`Quiet`), whatever it calls in turn, so that only a few
operations matter: locking and unlocking, the delivery of a `disconnected`
notification, and the two handlers that make a node available without looking at
its lock.
-/

namespace ThymioDeviceManager.Correctness

open Manager Library

/-! ## What a step does -/

/-- The outcomes of a step, event by event. -/
inductive Steps (s : Network) : Network.Event → Network → Prop
  | appConnected {a : Nat} (ha : s.apps a = none) :
    Steps s (.appConnected a) { s with apps := Function.update s.apps a (some {}) }
  | appDestroyed {a : Nat} {app : Application} (ha : s.apps a = some app) :
    Steps s (.appDestroyed a) (s.destroyApplication a app)
  | lock {a id : Nat} {app : Application} (ha : s.apps a = some app) :
    Steps s (.lock a id) (s.lockNode a id)
  | unlock {a id : Nat} : Steps s (.unlock a id) (s.unlockNode a id)
  | deliver {a : Nat} {lockedNodes : Table Nat Nat} {change : NodeChanged}
      {pending : List NodeChanged} (ha : s.apps a = some ⟨lockedNodes, change :: pending⟩) :
    Steps s (.deliver a)
      ({ s with apps := Function.update s.apps a (some ⟨lockedNodes, pending⟩) }.doNodeChanged a
        change)
  | endpointConnected :
    Steps s .endpointConnected { s with
      endpoints := Function.update s.endpoints s.nextEndpoint (some []),
      nextEndpoint := s.nextEndpoint + 1 }
  | nodeConnected {ep uuid depth : Nat} {table : List Nat} {attaches : Nat → Bool} {next : Network}
      (hnext : Network.setStatus attaches depth (s.createNode ep uuid) s.nextNode .connected =
        some next) :
    Steps s (.nodeConnected ep uuid table depth attaches)
      { next with endpoints := Function.update next.endpoints ep (some table) }
  | uuidReply {n random depth : Nat} {data : Option Nat} {attaches : Nat → Bool} {node : AsebaNode}
      {t : Network} (hn : s.nodes n = some node)
      (ht : s.onUuid attaches depth n node data random = some t) :
    Steps s (.uuidReply n data random depth attaches) t
  | described {n : Nat} : Steps s (.described n) (s.setOtherStatus n .available)
  | statusAgain {n depth : Nat} {attaches : Nat → Bool} {t : Network}
      (ht : s.refresh attaches depth n = some t) : Steps s (.statusAgain n depth attaches) t
  | upgrade {n : Nat} {wireless : Bool} {node : AsebaNode} (hn : s.nodes n = some node)
      (havailable : node.status = .available) :
    Steps s (.upgrade n wireless) (s.setOtherStatus n .upgrading)
  | unresponsive {n : Nat} {endpoints : Nat → Option (List Nat)} :
    Steps s (.unresponsive n) { s.setOtherStatus n .disconnected with endpoints }
  | endpointStopped {ep : Nat} {table : List Nat} :
    Steps s (.endpointStopped ep) (s.destroyEndpoint table)
  | endpointDestroyed {ep : Nat} {table : List Nat} {endpoints : Nat → Option (List Nat)} :
    Steps s (.endpointDestroyed ep) { s.destroyEndpoint table with endpoints }
  | nodeDestroyed {n : Nat} :
    Steps s (.nodeDestroyed n) { s with nodes := Function.update s.nodes n none }

section Cases

variable {s t : Network} {n : Nat}

theorem guard_eq_some {α : Type} {p : Prop} [Decidable p] {x y : α}
    (h : (if p then some x else none) = some y) : p ∧ x = y := by
  split at h
  · rename_i hp
    exact ⟨hp, Option.some.inj h⟩
  · cases h

theorem step_appDestroyed {a : Nat} (h : s.step (.appDestroyed a) = some t) :
    Steps s (.appDestroyed a) t := by
  simp only [Network.step] at h
  split at h
  · rename_i app ha
    obtain ⟨-, rfl⟩ := guard_eq_some h
    exact .appDestroyed ha
  · cases h

theorem step_deliver {a : Nat} (h : s.step (.deliver a) = some t) : Steps s (.deliver a) t := by
  simp only [Network.step] at h
  split at h
  · rename_i ha
    cases h
    exact .deliver ha
  · cases h

theorem step_nodeConnected {ep uuid depth : Nat} {table : List Nat} {attaches : Nat → Bool}
    (h : s.step (.nodeConnected ep uuid table depth attaches) = some t) :
    Steps s (.nodeConnected ep uuid table depth attaches) t := by
  simp only [Network.step] at h
  split at h
  · obtain ⟨next, hnext, h⟩ := Option.bind_eq_some_iff.mp h
    obtain ⟨-, rfl⟩ := guard_eq_some h
    exact .nodeConnected hnext
  · cases h

theorem step_uuidReply {random depth : Nat} {data : Option Nat} {attaches : Nat → Bool}
    (h : s.step (.uuidReply n data random depth attaches) = some t) :
    Steps s (.uuidReply n data random depth attaches) t := by
  simp only [Network.step] at h
  split at h
  · rename_i node hn
    split at h
    · exact .uuidReply hn h
    · cases h
  · cases h

theorem step_upgrade {wireless : Bool} (h : s.step (.upgrade n wireless) = some t) :
    Steps s (.upgrade n wireless) t := by
  simp only [Network.step, Network.upgradeFirmware] at h
  split at h
  · cases h
  · rename_i node hn
    split at h
    · cases h
    · rename_i hpasses
      cases h
      exact .upgrade hn (by simp_all)

theorem step_unresponsive (h : s.step (.unresponsive n) = some t) :
    Steps s (.unresponsive n) t := by
  simp only [Network.step] at h
  split at h
  · obtain ⟨-, rfl⟩ := guard_eq_some h
    exact .unresponsive
  · cases h

end Cases

theorem step_cases {s t : Network} {e : Network.Event} (h : s.step e = some t) : Steps s e t := by
  cases e with
  | appConnected a =>
    obtain ⟨ha, rfl⟩ := guard_eq_some h
    exact .appConnected (Option.isNone_iff_eq_none.mp ha)
  | appDestroyed a => exact step_appDestroyed h
  | lock a id =>
    obtain ⟨ha, rfl⟩ := guard_eq_some h
    obtain ⟨app, ha⟩ := Option.isSome_iff_exists.mp ha
    exact .lock ha
  | unlock a id =>
    obtain ⟨-, rfl⟩ := guard_eq_some h
    exact .unlock
  | deliver a => exact step_deliver h
  | endpointConnected =>
    cases h
    exact .endpointConnected
  | nodeConnected ep uuid table depth attaches => exact step_nodeConnected h
  | uuidReply n data random depth attaches => exact step_uuidReply h
  | described n =>
    obtain ⟨-, rfl⟩ := guard_eq_some h
    exact .described
  | statusAgain n depth attaches =>
    simp only [Network.step] at h
    split at h
    · exact .statusAgain h
    · cases h
  | upgrade n wireless => exact step_upgrade h
  | unresponsive n => exact step_unresponsive h
  | endpointStopped ep =>
    obtain ⟨table, -, rfl⟩ := Option.map_eq_some_iff.mp h
    exact .endpointStopped
  | endpointDestroyed ep =>
    simp only [Network.step] at h
    split at h
    · cases h
      exact .endpointDestroyed
    · cases h
  | nodeDestroyed n =>
    obtain ⟨-, rfl⟩ := guard_eq_some h
    exact .nodeDestroyed

/-! ## Operations of the registry -/

/-- The locks, uuids and endpoints of the nodes stay, and at most the status
changes, to `disconnected`; new registry entries are for existing nodes under
their uuids. -/
structure Quiet (s t : Network) : Prop where
  nodes : ∀ n, t.nodes n = s.nodes n ∨
    t.nodes n = (s.nodes n).map fun node => { node with status := .disconnected }
  locked : ∀ a, (t.apps a).map (·.lockedNodes) = (s.apps a).map (·.lockedNodes)
  registry : ∀ id n, t.asebaNodes.get? id = some n →
    s.asebaNodes.get? id = some n ∨ ∃ node, s.nodes n = some node ∧ node.uuid = id
  next : t.nextNode = s.nextNode

section Quiet

variable {attaches : Nat → Bool} {s t u : Network} {n : Nat} {node : AsebaNode}

theorem Quiet.refl (s : Network) : Quiet s s :=
  ⟨fun _ => .inl rfl, fun _ => rfl, fun _ _ h => .inl h, rfl⟩

theorem Quiet.of_node (h : Quiet s t) (ht : t.nodes n = some node) :
    ∃ old, s.nodes n = some old ∧ node.uuid = old.uuid ∧ node.connectedApp = old.connectedApp ∧
      (node.status = old.status ∨ node.status = .disconnected) := by
  obtain hn | hn := h.nodes n
  · exact ⟨node, hn ▸ ht, rfl, rfl, .inl rfl⟩
  · rw [hn] at ht
    obtain ⟨old, hold, rfl⟩ := Option.map_eq_some_iff.mp ht
    exact ⟨old, hold, rfl, rfl, .inr rfl⟩

/-- A node keeps its uuid. -/
theorem Quiet.exists_node (h : Quiet s t) (hn : s.nodes n = some node) :
    ∃ new, t.nodes n = some new ∧ new.uuid = node.uuid := by
  obtain hsame | hdisc := h.nodes n
  · exact ⟨node, hsame.trans hn, rfl⟩
  · exact ⟨{ node with status := .disconnected }, by rw [hdisc, hn]; rfl, rfl⟩

theorem Quiet.trans (hst : Quiet s t) (htu : Quiet t u) : Quiet s u where
  nodes n := by
    obtain h | h := htu.nodes n <;> obtain h' | h' := hst.nodes n <;> rw [h, h']
    · exact .inl rfl
    · exact .inr rfl
    · exact .inr rfl
    · exact .inr (by simp [Option.map_map, Function.comp_def])
  locked a := (htu.locked a).trans (hst.locked a)
  registry id n h := by
    obtain h | ⟨node, hnode, huuid⟩ := htu.registry id n h
    · exact hst.registry id n h
    · obtain ⟨old, hold, holdUuid, -, -⟩ := hst.of_node hnode
      exact .inr ⟨old, hold, holdUuid ▸ huuid⟩
  next := htu.next.trans hst.next

theorem signal_quiet (s : Network) (n id : Nat) (status : Status) :
    Quiet s (s.signal n id status) where
  nodes _ := .inl rfl
  locked a := by
    simp [Network.signal, Option.map_map, Function.comp_def]
  registry _ _ h := .inl h
  next := rfl

theorem erase_quiet (s : Network) (id : Nat) :
    Quiet s { s with asebaNodes := s.asebaNodes.erase id } where
  nodes _ := .inl rfl
  locked _ := rfl
  registry id' n h := by
    rw [Table.get?_erase] at h
    split at h
    · cases h
    · exact .inl h
  next := rfl

theorem endpoints_quiet (s : Network) (endpoints : Nat → Option (List Nat)) :
    Quiet s { s with endpoints } :=
  ⟨fun _ => .inl rfl, fun _ => rfl, fun _ _ h => .inl h, rfl⟩

theorem removeNode_quiet (s : Network) (n : Nat) : Quiet s (s.removeNode n) := by
  unfold Network.removeNode
  split
  · exact .refl _
  · exact (erase_quiet s _).trans (signal_quiet _ _ _ _)

theorem setNodeStatus_quiet (s : Network) (n : Nat) (status : Status) :
    Quiet s (s.setNodeStatus n status) := by
  unfold Network.setNodeStatus
  split
  · exact .refl _
  · exact signal_quiet _ _ _ _

/-- Apart from the status that it assigns, `set_status` is quiet. -/
theorem setOtherStatus_quiet (s : Network) (n : Nat) (status : Status) :
    Quiet (s.updateNode n fun node => { node with status }) (s.setOtherStatus n status) := by
  unfold Network.setOtherStatus
  dsimp only
  split
  · exact removeNode_quiet _ n
  · exact setNodeStatus_quiet _ n status

theorem disconnect_quiet (s : Network) (n : Nat) : Quiet s (s.setOtherStatus n .disconnected) := by
  have hupdate : Quiet s (s.updateNode n fun node => { node with status := .disconnected }) := by
    refine ⟨?_, fun _ => rfl, fun _ _ h => .inl h, rfl⟩
    intro m
    by_cases hm : m = n
    · subst hm
      exact .inr (by simp [Network.updateNode])
    · exact .inl (by simp [Network.updateNode, hm])
  exact hupdate.trans (setOtherStatus_quiet s n .disconnected)

theorem endpointRemoveNode_quiet {ep uuid : Nat} (h : s.endpointRemoveNode ep uuid = some t) :
    Quiet s t := by
  unfold Network.endpointRemoveNode at h
  split at h
  · split at h
    · cases h
      exact (disconnect_quiet s _).trans (endpoints_quiet _ _)
    · cases h
  · cases h
    exact .refl _

theorem removeDuplicatedNode_quiet (h : s.removeDuplicatedNode n node = some t) : Quiet s t := by
  unfold Network.removeDuplicatedNode at h
  split at h
  · cases h
    exact .refl _
  · split at h
    · cases h
      exact .refl _
    · dsimp only at h
      split at h
      · cases h
        exact erase_quiet s _
      · exact (erase_quiet s _).trans (endpointRemoveNode_quiet h)

theorem foldlM_quiet {refresh : Network → Nat → Option Network}
    (hrefresh : ∀ s m t, refresh s m = some t → Quiet s t) {table : List Nat}
    (h : table.foldlM refresh s = some t) : Quiet s t := by
  induction table generalizing s with
  | nil =>
    cases h
    exact .refl _
  | cons m table ih =>
    rw [List.foldlM_cons] at h
    obtain ⟨next, hnext, hrest⟩ := Option.bind_eq_some_iff.mp h
    exact (hrefresh s m next hnext).trans (ih hrest)

theorem restoreGroupAffiliation_quiet {refresh : Network → Nat → Option Network}
    (hrefresh : ∀ s m t, refresh s m = some t → Quiet s t)
    (h : s.restoreGroupAffiliation attaches refresh n node = some t) : Quiet s t := by
  unfold Network.restoreGroupAffiliation at h
  split at h
  · split at h
    · exact foldlM_quiet hrefresh h
    · cases h
      exact .refl _
  · cases h
    exact .refl _

theorem insert_quiet {uuid : Nat} (hn : s.nodes n = some node) (huuid : node.uuid = uuid) :
    Quiet s { s with asebaNodes := s.asebaNodes.insert uuid n } where
  nodes _ := .inl rfl
  locked _ := rfl
  registry id m h := by
    rw [Table.get?_insert] at h
    split at h
    · rename_i hid
      subst hid
      cases hold : s.asebaNodes.get? id with
      | some old =>
        rw [hold] at h
        exact .inl h
      | none =>
        rw [hold] at h
        cases h
        exact .inr ⟨node, hn, huuid⟩
    · exact .inl h
  next := rfl

theorem addNode_quiet {refresh : Network → Nat → Option Network}
    (hrefresh : ∀ s m t, refresh s m = some t → Quiet s t) (hn : s.nodes n = some node)
    (h : s.addNode attaches refresh n node = some t) : Quiet s t := by
  unfold Network.addNode at h
  obtain ⟨s₁, h₁, h⟩ := Option.bind_eq_some_iff.mp h
  have hq₁ := removeDuplicatedNode_quiet h₁
  split at h
  · cases h
    exact hq₁
  · obtain ⟨s₂, h₂, h⟩ := Option.bind_eq_some_iff.mp h
    cases h
    obtain ⟨node₁, hnode₁, huuid⟩ := hq₁.exists_node hn
    exact ((hq₁.trans (insert_quiet hnode₁ huuid)).trans
      (restoreGroupAffiliation_quiet hrefresh h₂)).trans (signal_quiet _ _ _ _)

theorem updateNode_self {f : AsebaNode → AsebaNode} (hn : s.nodes n = some node)
    (hf : f node = node) : s.updateNode n f = s := by
  have hnodes : Function.update s.nodes n ((s.nodes n).map f) = s.nodes := by
    rw [hn, Option.map_some, hf, ← hn, Function.update_eq_self]
  unfold Network.updateNode
  rw [hnodes]

theorem updateNode_eq_some {m : Nat} {f : AsebaNode → AsebaNode}
    (h : (s.updateNode n f).nodes m = some node) :
    (∃ old, m = n ∧ s.nodes n = some old ∧ node = f old) ∨ m ≠ n ∧ s.nodes m = some node := by
  by_cases hm : m = n
  · subst hm
    simp only [Network.updateNode, Function.update_self] at h
    obtain ⟨old, hold, rfl⟩ := Option.map_eq_some_iff.mp h
    exact .inl ⟨old, rfl, hold, rfl⟩
  · simp only [Network.updateNode, Function.update_of_ne hm] at h
    exact .inr ⟨hm, h⟩

/-- Setting the status that a node has is quiet. -/
theorem refresh_quiet {depth : Nat} (h : s.refresh attaches depth n = some t) : Quiet s t := by
  induction depth generalizing s n t with
  | zero =>
    unfold Network.refresh at h
    split at h
    · cases h
      exact .refl _
    · cases h
  | succ depth ih =>
    unfold Network.refresh at h
    split at h
    · cases h
      exact .refl _
    · rename_i node hnode
      unfold Network.setStatus at h
      have hself : (s.updateNode n fun old => { old with status := node.status }) = s :=
        updateNode_self hnode rfl
      split at h
      · dsimp only at h
        rw [hself, hnode] at h
        exact addNode_quiet (fun s m t h => ih h) hnode h
      · cases h
        have hquiet := setOtherStatus_quiet s n node.status
        rwa [hself] at hquiet

theorem setStatus_connected_quiet {depth : Nat} (hn : s.nodes n = some node)
    (h : Network.setStatus attaches depth s n .connected = some t) :
    Quiet (s.updateNode n fun node => { node with status := .connected }) t := by
  cases depth with
  | zero => cases h
  | succ depth =>
    have hnode : (s.updateNode n fun node => { node with status := .connected }).nodes n =
        some { node with status := .connected } := by
      simp [Network.updateNode, hn]
    unfold Network.setStatus at h
    rw [if_pos rfl] at h
    dsimp only at h
    rw [hnode] at h
    exact addNode_quiet (fun s m t h => refresh_quiet h) hnode h

theorem forgetNode_eq (s : Network) (n : Nat) : s.forgetNode n = s.removeNode n := by
  unfold Network.forgetNode Network.removeNode
  split <;> rfl

theorem handleNodeUuidChange_quiet {refresh : Network → Nat → Option Network}
    (hrefresh : ∀ s m t, refresh s m = some t → Quiet s t) (hn : s.nodes n = some node)
    (h : s.handleNodeUuidChange attaches refresh n node = some t) : Quiet (s.removeNode n) t := by
  unfold Network.handleNodeUuidChange at h
  rw [forgetNode_eq] at h
  obtain ⟨s₁, h₁, h⟩ := Option.bind_eq_some_iff.mp h
  have hq₁ := removeDuplicatedNode_quiet h₁
  obtain ⟨node₁, hnode₁, huuid⟩ := ((removeNode_quiet s n).trans hq₁).exists_node hn
  exact (hq₁.trans (insert_quiet hnode₁ huuid)).trans (restoreGroupAffiliation_quiet hrefresh h)

theorem removeNode_updateNode (s : Network) (n : Nat) (f : AsebaNode → AsebaNode) :
    (s.updateNode n f).removeNode n = (s.removeNode n).updateNode n f := by
  unfold Network.removeNode Network.updateNode
  dsimp only
  split <;> rfl

end Quiet

/-! ## Entries of the applications -/

section Entries

variable {s t : Network} {a b id n : Nat}

/-- The node that `m_locked_nodes` of an application has under `id`. -/
def entry (s : Network) (a id : Nat) : Option Nat :=
  (s.apps a).bind fun app => app.lockedNodes.get? id

theorem Quiet.entry_eq (h : Quiet s t) (a id : Nat) : entry t a id = entry s a id := by
  have hlocked := h.locked a
  unfold entry
  cases hs : s.apps a <;> cases ht : t.apps a <;> simp_all

theorem entry_updateLocked (s : Network) (a b id : Nat) (f : Table Nat Nat → Table Nat Nat) :
    entry (s.updateLocked a f) b id =
      if b = a then (s.apps a).bind fun app => (f app.lockedNodes).get? id else entry s b id := by
  unfold entry Network.updateLocked
  by_cases hb : b = a
  · subst hb
    cases s.apps b <;> simp
  · simp [hb]

theorem entry_erase (s : Network) (a b id id' : Nat) :
    entry (s.updateLocked a (·.erase id)) b id' =
      if b = a ∧ id' = id then none else entry s b id' := by
  rw [entry_updateLocked]
  by_cases hb : b = a
  · subst hb
    by_cases hid : id' = id
    · subst hid
      cases hs : s.apps b <;> simp
    · cases hs : s.apps b <;> simp [hid, entry, hs]
  · simp [hb]

theorem entry_assign {app : Application} (h : s.apps a = some app) (b id id' n : Nat) :
    entry (s.updateLocked a (·.assign id n)) b id' =
      if b = a ∧ id' = id then some n else entry s b id' := by
  rw [entry_updateLocked]
  by_cases hb : b = a
  · subst hb
    by_cases hid : id' = id
    · subst hid
      simp [h]
    · simp [hid, entry, h]
  · simp [hb]

end Entries

/-! ## Lock authority -/

/-- The registry lists nodes under their uuids, an application lists the nodes
that it holds under their uuids, and unused numbers occur nowhere. -/
structure Owned (s : Network) : Prop where
  registry : ∀ id n node, s.asebaNodes.get? id = some n → s.nodes n = some node → node.uuid = id
  entries : ∀ a id n node, entry s a id = some n → s.nodes n = some node →
    node.connectedApp = some a ∧ node.uuid = id
  fresh : ∀ n, s.nextNode ≤ n →
    s.nodes n = none ∧ (∀ id, s.asebaNodes.get? id ≠ some n) ∧ ∀ a id, entry s a id ≠ some n

section Owned

variable {attaches : Nat → Bool} {s t : Network} {a id n : Nat} {node : AsebaNode}

theorem Owned.quiet (hs : Owned s) (h : Quiet s t) : Owned t where
  registry id n node hid hn := by
    obtain ⟨old, hold, huuid, -, -⟩ := h.of_node hn
    obtain hreg | ⟨old', hold', huuid'⟩ := h.registry id n hid
    · exact huuid.trans (hs.registry id n old hreg hold)
    · rw [hold] at hold'
      cases hold'
      exact huuid.trans huuid'
  entries a id n node hentry hn := by
    obtain ⟨old, hold, huuid, happ, -⟩ := h.of_node hn
    rw [h.entry_eq] at hentry
    rw [huuid, happ]
    exact hs.entries a id n old hentry hold
  fresh n hn := by
    rw [h.next] at hn
    obtain ⟨hnone, hreg, hent⟩ := hs.fresh n hn
    refine ⟨?_, fun id hid => ?_, fun a id => ?_⟩
    · obtain h' | h' := h.nodes n
      · exact h'.trans hnone
      · rw [h', hnone]
        rfl
    · obtain hid | ⟨old, hold, -⟩ := h.registry id n hid
      · exact hreg id hid
      · rw [hnone] at hold
        cases hold
    · rw [h.entry_eq]
      exact hent a id

/-- A change of a node that keeps its uuid where it is registered, and its uuid
and its lock where an application lists it. -/
theorem Owned.updateNode (hs : Owned s) {f : AsebaNode → AsebaNode}
    (hregistry : ∀ id node, s.asebaNodes.get? id = some n → s.nodes n = some node →
      (f node).uuid = id)
    (hentries : ∀ a id node, entry s a id = some n → s.nodes n = some node →
      (f node).connectedApp = some a ∧ (f node).uuid = id) : Owned (s.updateNode n f) := by
  refine ⟨?_, ?_, ?_⟩
  · intro id m node hid hm
    obtain ⟨old, rfl, hold, rfl⟩ | ⟨-, hm⟩ := updateNode_eq_some hm
    · exact hregistry id old hid hold
    · exact hs.registry id m node hid hm
  · intro a id m node hentry hm
    obtain ⟨old, rfl, hold, rfl⟩ | ⟨-, hm⟩ := updateNode_eq_some hm
    · exact hentries a id old hentry hold
    · exact hs.entries a id m node hentry hm
  · intro m hm
    obtain ⟨hnone, hreg, hent⟩ := hs.fresh m hm
    refine ⟨?_, hreg, hent⟩
    by_cases h : m = n
    · subst h
      simp [Network.updateNode, hnone]
    · simp [Network.updateNode, h, hnone]

theorem Owned.setOtherStatus (hs : Owned s) (n : Nat) (status : Status) :
    Owned (s.setOtherStatus n status) := by
  refine Owned.quiet ?_ (setOtherStatus_quiet s n status)
  exact hs.updateNode (fun id => hs.registry id n) fun a id => hs.entries a id n

/-- New entries are for nodes that the application holds, under their uuids. -/
theorem Owned.withEntries (hs : Owned s) (hnodes : t.nodes = s.nodes)
    (hregistry : t.asebaNodes = s.asebaNodes) (hnext : t.nextNode = s.nextNode)
    (hentries : ∀ a id n, entry t a id = some n → entry s a id = some n ∨
      ∃ node, s.nodes n = some node ∧ node.connectedApp = some a ∧ node.uuid = id) : Owned t where
  registry id n node hid hn := hs.registry id n node (hregistry ▸ hid) (hnodes ▸ hn)
  entries a id n node hentry hn := by
    rw [hnodes] at hn
    obtain hentry | ⟨old, hold, happ, huuid⟩ := hentries a id n hentry
    · exact hs.entries a id n node hentry hn
    · rw [hn] at hold
      cases hold
      exact ⟨happ, huuid⟩
  fresh n hn := by
    obtain ⟨hnone, hreg, hent⟩ := hs.fresh n (hnext ▸ hn)
    refine ⟨hnodes ▸ hnone, hregistry ▸ hreg, fun a id hentry => ?_⟩
    obtain hentry | ⟨old, hold, -⟩ := hentries a id n hentry
    · exact hent a id hentry
    · rw [hnone] at hold
      cases hold

theorem Owned.eraseEntry (hs : Owned s) (a id : Nat) : Owned (s.updateLocked a (·.erase id)) := by
  refine hs.withEntries rfl rfl rfl fun b id' n h => .inl ?_
  rw [entry_erase] at h
  split at h
  · cases h
  · exact h

theorem Owned.assignEntry (hs : Owned s) {app : Application} (ha : s.apps a = some app)
    (hn : s.nodes n = some node) (happ : node.connectedApp = some a) (huuid : node.uuid = id) :
    Owned (s.updateLocked a (·.assign id n)) := by
  refine hs.withEntries rfl rfl rfl fun b id' m h => ?_
  rw [entry_assign ha] at h
  split at h
  · rename_i heq
    obtain ⟨rfl, rfl⟩ := heq
    cases h
    exact .inr ⟨node, hn, happ, huuid⟩
  · exact .inl h

theorem Owned.nodeUnlock (hs : Owned s) (n : Nat) (hno : ∀ id, entry s a id ≠ some n) :
    Owned (s.nodeUnlock n a) := by
  unfold Network.nodeUnlock
  split
  · exact hs
  · rename_i node hnode
    split
    · exact hs
    · rename_i happ
      refine Owned.setOtherStatus ?_ n .available
      refine hs.updateNode (fun id => hs.registry id n) fun b id old hentry hold => ?_
      have hb := (hs.entries b id n old hentry hold).1
      rw [hnode] at hold
      cases hold
      -- the holder lists the node, and `a` does not
      obtain rfl : a = b := by simp_all
      exact absurd hentry (hno id)

theorem nodeUnlock_entry (s : Network) (n a b id : Nat) :
    entry (s.nodeUnlock n a) b id = entry s b id := by
  unfold Network.nodeUnlock
  split
  · rfl
  · split
    · rfl
    · exact (setOtherStatus_quiet _ n .available).entry_eq b id

/-- The three outcomes of `lock_node` for a registered node. -/
theorem lockNode_cases (hid : s.asebaNodes.get? id = some n) (hn : s.nodes n = some node) :
    (node.connectedApp = some a ∧ s.lockNode a id = s.updateLocked a (·.assign id n)) ∨
    (node.connectedApp ≠ some a ∧ s.lockNode a id =
      (s.updateLocked a (·.assign id n)).updateLocked a (·.erase id)) ∨
    (node.connectedApp = none ∧ node.status = .available ∧ s.lockNode a id =
      ((s.updateNode n fun node => { node with connectedApp := some a }).updateLocked a
        (·.assign id n)).setOtherStatus n .busy) := by
  have hfrom : s.nodeFromId id = some n := by
    simp [Network.nodeFromId, hid, hn]
  have hn' : (s.updateLocked a (·.assign id n)).nodes n = some node := hn
  by_cases happ : node.connectedApp = some a
  · have hlock : (s.updateLocked a (·.assign id n)).nodeLock n a =
        (s.updateLocked a (·.assign id n), true) := by
      simp [Network.nodeLock, hn', happ]
    exact .inl ⟨happ, by simp only [Network.lockNode, hfrom, hlock, if_true]⟩
  · by_cases hrefused : node.connectedApp ≠ none ∨ node.status ≠ .available
    · have hlock : (s.updateLocked a (·.assign id n)).nodeLock n a =
          (s.updateLocked a (·.assign id n), false) := by
        simp only [Network.nodeLock, hn', if_neg happ, if_pos hrefused]
      exact .inr (.inl ⟨happ, by simp [Network.lockNode, hfrom, hlock]⟩)
    · have hlock : (s.updateLocked a (·.assign id n)).nodeLock n a =
          (((s.updateNode n fun node => { node with connectedApp := some a }).updateLocked a
            (·.assign id n)).setOtherStatus n .busy, true) := by
        simp only [Network.nodeLock, hn', if_neg happ, if_neg hrefused]
        rfl
      obtain ⟨hnone, havailable⟩ := not_or.mp hrefused
      rw [not_not] at hnone havailable
      exact .inr (.inr ⟨hnone, havailable, by simp only [Network.lockNode, hfrom, hlock, if_true]⟩)

theorem Owned.lockNode (hs : Owned s) {app : Application} (ha : s.apps a = some app) (id : Nat) :
    Owned (s.lockNode a id) := by
  cases hid : s.nodeFromId id with
  | none =>
    unfold Network.lockNode
    rw [hid]
    exact hs
  | some n =>
    obtain ⟨hreg, hsome⟩ := Option.filter_eq_some_iff.mp hid
    obtain ⟨node, hn⟩ := Option.isSome_iff_exists.mp hsome
    have huuid := hs.registry id n node hreg hn
    obtain ⟨happ, heq⟩ | ⟨-, heq⟩ | ⟨hnone, -, heq⟩ := lockNode_cases (a := a) hreg hn
    · rw [heq]
      exact hs.assignEntry ha hn happ huuid
    · rw [heq]
      refine hs.withEntries rfl rfl rfl fun b id' m h => .inl ?_
      rw [entry_erase] at h
      split at h
      · cases h
      · rename_i hne
        rwa [entry_assign ha, if_neg hne] at h
    · rw [heq]
      refine Owned.setOtherStatus ?_ n .busy
      have howned : Owned (s.updateNode n fun node => { node with connectedApp := some a }) := by
        refine hs.updateNode (fun id => hs.registry id n) fun b id' old hentry hold => ?_
        have hb := (hs.entries b id' n old hentry hold).1
        rw [hn] at hold
        cases hold
        rw [hnone] at hb
        cases hb
      have hn' : (s.updateNode n fun node => { node with connectedApp := some a }).nodes n =
          some { node with connectedApp := some a } := by
        simp [Network.updateNode, hn]
      exact howned.assignEntry ha hn' rfl huuid

theorem Owned.unlockNode (hs : Owned s) (a id : Nat) : Owned (s.unlockNode a id) := by
  unfold Network.unlockNode
  split
  · exact hs
  · rename_i n hentry
    cases hn : s.nodes n with
    | none =>
      have hnone : (s.updateLocked a (·.erase id)).nodes n = none := hn
      unfold Network.nodeUnlock
      rw [hnone]
      exact hs.eraseEntry a id
    | some node =>
      refine (hs.eraseEntry a id).nodeUnlock n fun id' h => ?_
      rw [entry_erase] at h
      split at h
      · cases h
      · rename_i hne
        have huuid := (hs.entries a id n node hentry hn).2
        have huuid' := (hs.entries a id' n node h hn).2
        exact hne ⟨rfl, huuid'.symm.trans huuid⟩

theorem Owned.destroyApplication (hs : Owned s) (a : Nat) (app : Application) :
    Owned (s.destroyApplication a app) := by
  have hgone : Owned { s with apps := Function.update s.apps a none } := by
    refine hs.withEntries rfl rfl rfl fun b id n h => .inl ?_
    by_cases hb : b = a
    · subst hb
      simp [entry] at h
    · simpa [entry, hb] using h
  have hnone : ∀ id, entry { s with apps := Function.update s.apps a none } a id = none := by
    intro id
    simp [entry]
  unfold Network.destroyApplication
  generalize { s with apps := Function.update s.apps a none } = s₀ at hgone hnone
  induction app.lockedNodes.entries generalizing s₀ with
  | nil => exact hgone
  | cons e rest ih =>
    refine ih _ (hgone.nodeUnlock e.2 fun id => by simp [hnone id]) fun id => ?_
    rw [nodeUnlock_entry]
    exact hnone id

theorem removeNode_nodes (s : Network) (n : Nat) : (s.removeNode n).nodes = s.nodes := by
  unfold Network.removeNode
  split <;> rfl

/-- A node that is registered once is not registered any more. -/
theorem removeNode_absent
    (honce : ∀ id id', s.asebaNodes.get? id = some n → s.asebaNodes.get? id' = some n → id = id')
    (id : Nat) : (s.removeNode n).asebaNodes.get? id ≠ some n := by
  unfold Network.removeNode
  split
  · rename_i hkey
    exact Table.ne_of_keyOf?_none hkey id
  · rename_i key hkey
    intro h
    change (s.asebaNodes.erase key).get? id = some n at h
    rw [Table.get?_erase] at h
    split at h
    · cases h
    · rename_i hne
      exact hne (honce id key h (Table.get?_keyOf? hkey))

theorem Owned.removeNode_absent (hs : Owned s) (hn : s.nodes n = some node) (id : Nat) :
    (s.removeNode n).asebaNodes.get? id ≠ some n :=
  Correctness.removeNode_absent
    (fun id id' h h' => (hs.registry id n node h hn).symm.trans (hs.registry id' n node h' hn)) id

/-- The reply of a uuid registers the node again and makes it available. -/
theorem onUuid_quiet {depth random : Nat} {data : Option Nat} (hn : s.nodes n = some node)
    (h : s.onUuid attaches depth n node data random = some t) :
    ∃ next, Quiet ((s.removeNode n).updateNode n fun old =>
        { old with uuid := node.readUuid data random }) next ∧
      t = next.setOtherStatus n .available := by
  unfold Network.onUuid at h
  obtain ⟨next, hnext, h⟩ := Option.bind_eq_some_iff.mp h
  cases h
  refine ⟨next, ?_, rfl⟩
  have hn' : (s.updateNode n fun old => { old with uuid := node.readUuid data random }).nodes n =
      some { node with uuid := node.readUuid data random } := by
    simp [Network.updateNode, hn]
  have hquiet := handleNodeUuidChange_quiet (fun s m t h => refresh_quiet h) hn' hnext
  rwa [removeNode_updateNode] at hquiet

/-- A node that has left the registry may change its uuid, unless it is held. -/
theorem Owned.rename (hs : Owned s) (hn : s.nodes n = some node) {uuid : Nat}
    (hkeeps : node.connectedApp ≠ none → uuid = node.uuid) :
    Owned ((s.removeNode n).updateNode n fun old => { old with uuid }) := by
  refine (hs.quiet (removeNode_quiet s n)).updateNode ?_ ?_
  · intro id old hid
    exact absurd hid (hs.removeNode_absent hn id)
  · intro a id old hentry hold
    rw [removeNode_nodes, hn] at hold
    cases hold
    rw [(removeNode_quiet s n).entry_eq] at hentry
    obtain ⟨happ, huuid⟩ := hs.entries a id n node hentry hn
    exact ⟨happ, (hkeeps (by simp [happ])).trans huuid⟩

theorem Owned.onUuid (hs : Owned s) {depth random : Nat} {data : Option Nat}
    (hn : s.nodes n = some node)
    (hkeeps : node.connectedApp ≠ none → node.readUuid data random = node.uuid)
    (h : s.onUuid attaches depth n node data random = some t) : Owned t := by
  obtain ⟨next, hquiet, rfl⟩ := onUuid_quiet hn h
  exact ((hs.rename hn hkeeps).quiet hquiet).setOtherStatus n .available

theorem createNode_eq_some {ep uuid m : Nat} (h : (s.createNode ep uuid).nodes m = some node) :
    (m = s.nextNode ∧ node = { uuid, endpoint := ep }) ∨ m ≠ s.nextNode ∧ s.nodes m = some node := by
  change Function.update s.nodes s.nextNode (some { uuid, endpoint := ep }) m = some node at h
  by_cases hm : m = s.nextNode
  · subst hm
    rw [Function.update_self] at h
    cases h
    exact .inl ⟨rfl, rfl⟩
  · rw [Function.update_of_ne hm] at h
    exact .inr ⟨hm, h⟩

theorem Owned.createNode (hs : Owned s) (ep uuid : Nat) : Owned (s.createNode ep uuid) := by
  obtain ⟨-, hreg, hent⟩ := hs.fresh s.nextNode (Nat.le_refl _)
  refine ⟨?_, ?_, ?_⟩
  · intro id m node hid hm
    obtain ⟨rfl, -⟩ | ⟨-, hm⟩ := createNode_eq_some hm
    · exact absurd hid (hreg id)
    · exact hs.registry id m node hid hm
  · intro a id m node hentry hm
    obtain ⟨rfl, -⟩ | ⟨-, hm⟩ := createNode_eq_some hm
    · exact absurd hentry (hent a id)
    · exact hs.entries a id m node hentry hm
  · intro m hm
    have hlt : s.nextNode < m := hm
    obtain ⟨hnone, hrest⟩ := hs.fresh m (by omega)
    refine ⟨?_, hrest⟩
    change Function.update s.nodes s.nextNode _ m = none
    rw [Function.update_of_ne (by omega)]
    exact hnone

theorem Owned.nodeConnected (hs : Owned s) {depth ep uuid : Nat}
    (h : Network.setStatus attaches depth (s.createNode ep uuid) s.nextNode .connected =
      some t) : Owned t := by
  have hcreated := hs.createNode ep uuid
  have hquiet := setStatus_connected_quiet (Function.update_self _ _ _) h
  refine Owned.quiet ?_ hquiet
  exact hcreated.updateNode (fun id => hcreated.registry id _) fun a id => hcreated.entries a id _

theorem Owned.destroyEndpoint (hs : Owned s) (table : List Nat) : Owned (s.destroyEndpoint table) := by
  unfold Network.destroyEndpoint
  induction table generalizing s with
  | nil => exact hs
  | cons n table ih => exact ih (hs.setOtherStatus n .disconnected)

/-- The uuid of a node does not change while an application holds it. -/
def keepsUuid (s : Network) : Network.Event → Bool
  | .uuidReply n data random _ _ => (s.nodes n).all fun node =>
    node.connectedApp.isNone || node.readUuid data random == node.uuid
  | _ => true

theorem nodeDestroyed_eq_some {m : Nat}
    (h : Function.update s.nodes n none m = some node) : m ≠ n ∧ s.nodes m = some node := by
  by_cases hm : m = n
  · subst hm
    simp at h
  · exact ⟨hm, by rwa [Function.update_of_ne hm] at h⟩

theorem Owned.step {e : Network.Event} (hs : Owned s) (hkeeps : keepsUuid s e)
    (h : s.step e = some t) : Owned t := by
  cases step_cases h with
  | @appConnected a ha =>
    refine hs.withEntries rfl rfl rfl fun b id n hentry => .inl ?_
    by_cases hb : b = a
    · subst hb
      simp [entry] at hentry
    · simpa [entry, hb] using hentry
  | @appDestroyed a app ha => exact hs.destroyApplication a app
  | @lock a id app ha => exact hs.lockNode ha id
  | @unlock a id => exact hs.unlockNode a id
  | @deliver a lockedNodes change pending ha =>
    have hpopped : Owned { s with
        apps := Function.update s.apps a (some ⟨lockedNodes, pending⟩) } := by
      refine hs.withEntries rfl rfl rfl fun b id n hentry => .inl ?_
      by_cases hb : b = a
      · subst hb
        simpa [entry, ha] using hentry
      · simpa [entry, hb] using hentry
    unfold Network.doNodeChanged
    split
    · exact hpopped.eraseEntry a _
    · exact hpopped
  | endpointConnected => exact hs.withEntries rfl rfl rfl fun a id n hentry => .inl hentry
  | nodeConnected hnext => exact (hs.nodeConnected hnext).quiet (endpoints_quiet _ _)
  | @uuidReply n random depth data attaches node _ hn ht =>
    refine hs.onUuid hn (fun hheld => ?_) ht
    have hsame : node.connectedApp = none ∨ node.readUuid data random = node.uuid := by
      simpa [keepsUuid, hn] using hkeeps
    exact hsame.resolve_left hheld
  | @described n => exact hs.setOtherStatus n .available
  | statusAgain ht => exact hs.quiet (refresh_quiet ht)
  | @upgrade n _ _ _ _ => exact hs.setOtherStatus n .upgrading
  | @unresponsive n _ => exact (hs.setOtherStatus n .disconnected).quiet (endpoints_quiet _ _)
  | @endpointStopped _ table => exact hs.destroyEndpoint table
  | @endpointDestroyed _ table _ => exact (hs.destroyEndpoint table).quiet (endpoints_quiet _ _)
  | @nodeDestroyed n =>
    refine ⟨?_, ?_, ?_⟩
    · intro id m node hid hm
      exact hs.registry id m node hid (nodeDestroyed_eq_some hm).2
    · intro a id m node hentry hm
      exact hs.entries a id m node hentry (nodeDestroyed_eq_some hm).2
    · intro m hm
      obtain ⟨hnone, hreg, hent⟩ := hs.fresh m hm
      refine ⟨?_, hreg, hent⟩
      by_cases h : m = n
      · subst h
        simp
      · simp [h, hnone]

end Owned

/-- Whatever an application gets from `get_locked_node` records it as its holder;
no two applications get the same node. -/
structure Exclusive (s : Network) : Prop where
  authority : ∀ a id n node, s.getLockedNode a id = some n → s.nodes n = some node →
    node.connectedApp = some a
  exclusion : ∀ a b id id' n, s.getLockedNode a id = some n → s.getLockedNode b id' = some n →
    a = b

theorem getLockedNode_eq_some {s : Network} {a id n : Nat} (h : s.getLockedNode a id = some n) :
    entry s a id = some n ∧ ∃ node, s.nodes n = some node := by
  obtain ⟨hentry, hsome⟩ := Option.filter_eq_some_iff.mp h
  exact ⟨hentry, Option.isSome_iff_exists.mp hsome⟩

theorem Owned.exclusive {s : Network} (hs : Owned s) : Exclusive s where
  authority a id n node h hn := (hs.entries a id n node (getLockedNode_eq_some h).1 hn).1
  exclusion a b id id' n h h' := by
    obtain ⟨hentry, node, hn⟩ := getLockedNode_eq_some h
    have ha := (hs.entries a id n node hentry hn).1
    have hb := (hs.entries b id' n node (getLockedNode_eq_some h').1 hn).1
    rw [ha] at hb
    exact Option.some.inj hb

theorem Owned.start : Owned {} :=
  ⟨by simp, by simp [entry], by simp [entry]⟩

/-- In every run in which no node changes its uuid while an application holds it. -/
theorem lock_authority (events : List Network.Event)
    (hkeeps : Transition.Along Network.step (fun _ s e => keepsUuid s e) [] {} events) (s : Network)
    (hrun : Transition.run Network.step {} events = some s) : Exclusive s := by
  have hs : Owned s := by
    refine Transition.invariant (I := fun _ s => Owned s) ?_ Owned.start hkeeps hrun
    intro past s e t hs hallowed h
    exact hs.step hallowed h
  exact hs.exclusive

/-- An application, and a node with uuid 1 that has become available. -/
def oneNode : List Network.Event :=
  [.endpointConnected, .appConnected 7, .nodeConnected 0 1 [0] 1 (fun _ => false),
    .uuidReply 0 (some 1) 5 1 (fun _ => false)]

/-- The application locks the node, and a late reply gives it another uuid; the
application locks it under the new one and unlocks it. -/
def lockedTwice : List Network.Event :=
  oneNode ++ [.lock 7 1, .uuidReply 0 (some 2) 5 1 (fun _ => false), .lock 7 2, .unlock 7 2]

theorem lockedTwice_not_exclusive :
    ¬ ∀ events s, Transition.run Network.step {} events = some s → Exclusive s := by
  intro h
  have hlocked : (Transition.run Network.step {} lockedTwice).bind (·.getLockedNode 7 1) =
      some 0 := by decide
  have hnode : (Transition.run Network.step {} lockedTwice).bind (·.nodes 0) =
      some { uuid := 2, status := .available, connectedApp := none, endpoint := 0 } := by decide
  obtain ⟨s, hrun, hlocked⟩ := Option.bind_eq_some_iff.mp hlocked
  rw [hrun] at hnode
  cases (h lockedTwice s hrun).authority 7 1 0 _ hlocked hnode

/-- The application locks the node and keeps it. -/
def lockedOnce : List Network.Event := oneNode ++ [.lock 7 1]

theorem lockedOnce_exclusive :
    ∃ s, Transition.run Network.step {} lockedOnce = some s ∧ s.getLockedNode 7 1 = some 0 ∧
      Exclusive s := by
  have hlocked : (Transition.run Network.step {} lockedOnce).bind (·.getLockedNode 7 1) =
      some 0 := by decide
  obtain ⟨s, hrun, hlocked⟩ := Option.bind_eq_some_iff.mp hlocked
  exact ⟨s, hrun, hlocked, lock_authority lockedOnce (by decide) s hrun⟩

/-! ## The status of a locked node -/

/-- A node that an application holds is not available. -/
def HeldUnavailable (s : Network) : Prop :=
  ∀ n node, s.nodes n = some node → node.connectedApp ≠ none → node.status ≠ .available

section HeldUnavailable

variable {attaches : Nat → Bool} {s t : Network} {a id n : Nat} {node : AsebaNode}

theorem HeldUnavailable.quiet (hs : HeldUnavailable s) (h : Quiet s t) : HeldUnavailable t := by
  intro n node hn hheld
  obtain ⟨old, hold, -, happ, hstatus | hstatus⟩ := h.of_node hn
  · rw [hstatus]
    exact hs n old hold (happ ▸ hheld)
  · rw [hstatus]
    decide

theorem HeldUnavailable.updateNode (hs : HeldUnavailable s) {f : AsebaNode → AsebaNode}
    (hf : ∀ node, s.nodes n = some node → (f node).connectedApp ≠ none →
      (f node).status ≠ .available) : HeldUnavailable (s.updateNode n f) := by
  intro m node hm
  obtain ⟨old, rfl, hold, rfl⟩ | ⟨-, hm⟩ := updateNode_eq_some hm
  · exact hf old hold
  · exact hs m node hm

theorem HeldUnavailable.setOtherStatus (hs : HeldUnavailable s) {status : Status}
    (h : status ≠ .available ∨ ∀ node, s.nodes n = some node → node.connectedApp = none) :
    HeldUnavailable (s.setOtherStatus n status) := by
  refine HeldUnavailable.quiet (hs.updateNode ?_) (setOtherStatus_quiet s n status)
  intro node hn hheld
  rcases h with h | h
  · exact h
  · exact absurd (h node hn) hheld

theorem HeldUnavailable.lockNode (hs : HeldUnavailable s) (a id : Nat) :
    HeldUnavailable (s.lockNode a id) := by
  cases hid : s.nodeFromId id with
  | none =>
    unfold Network.lockNode
    rw [hid]
    exact hs
  | some n =>
    obtain ⟨hreg, hsome⟩ := Option.filter_eq_some_iff.mp hid
    obtain ⟨node, hn⟩ := Option.isSome_iff_exists.mp hsome
    obtain ⟨-, heq⟩ | ⟨-, heq⟩ | ⟨-, -, heq⟩ := lockNode_cases (a := a) hreg hn
    · rw [heq]
      exact hs
    · rw [heq]
      exact hs
    · rw [heq]
      -- the node is busy as soon as it is held
      intro m node hm
      obtain ⟨old, hold, -, happ, hstatus⟩ := (setOtherStatus_quiet _ n .busy).of_node hm
      obtain ⟨x, rfl, -, rfl⟩ | ⟨hne, hold⟩ := updateNode_eq_some hold
      · intro _ havailable
        rcases hstatus with hstatus | hstatus <;> rw [havailable] at hstatus <;> cases hstatus
      · replace hold : s.nodes m = some old := by
          simpa [Network.updateNode, Network.updateLocked, hne] using hold
        rw [happ]
        intro hheld havailable
        rcases hstatus with hstatus | hstatus
        · exact hs m old hold hheld (hstatus ▸ havailable)
        · rw [havailable] at hstatus
          cases hstatus

theorem HeldUnavailable.nodeUnlock (hs : HeldUnavailable s) (n a : Nat) :
    HeldUnavailable (s.nodeUnlock n a) := by
  unfold Network.nodeUnlock
  split
  · exact hs
  · split
    · exact hs
    · refine HeldUnavailable.setOtherStatus (n := n) ?_ (.inr ?_)
      · refine hs.updateNode fun node _ hheld => ?_
        exact absurd rfl hheld
      · intro node hn
        obtain ⟨x, -, -, rfl⟩ | ⟨hne, -⟩ := updateNode_eq_some hn
        · rfl
        · exact absurd rfl hne

theorem HeldUnavailable.onUuid (hs : HeldUnavailable s) {depth random : Nat} {data : Option Nat}
    (hn : s.nodes n = some node) (hfree : node.connectedApp = none)
    (h : s.onUuid attaches depth n node data random = some t) : HeldUnavailable t := by
  obtain ⟨next, hquiet, rfl⟩ := onUuid_quiet hn h
  have hs' : HeldUnavailable ((s.removeNode n).updateNode n fun old =>
      { old with uuid := node.readUuid data random }) := by
    refine (hs.quiet (removeNode_quiet s n)).updateNode fun old hold => ?_
    rw [removeNode_nodes] at hold
    exact hs n old hold
  refine (hs'.quiet hquiet).setOtherStatus (.inr fun new hnew => ?_)
  obtain ⟨old, hold, -, happ, -⟩ := hquiet.of_node hnew
  simp only [Network.updateNode, removeNode_nodes, Function.update_self, hn, Option.map_some] at hold
  cases hold
  exact happ.trans hfree

theorem HeldUnavailable.nodeConnected (hs : HeldUnavailable s) {depth ep uuid : Nat}
    (h : Network.setStatus attaches depth (s.createNode ep uuid) s.nextNode .connected = some t) :
    HeldUnavailable t := by
  have hcreated : HeldUnavailable (s.createNode ep uuid) := by
    intro m node hm
    obtain ⟨-, rfl⟩ | ⟨-, hm⟩ := createNode_eq_some hm
    · exact fun hheld => absurd rfl hheld
    · exact hs m node hm
  have hquiet := setStatus_connected_quiet (Function.update_self _ _ _) h
  refine HeldUnavailable.quiet (hcreated.updateNode fun node _ _ => ?_) hquiet
  exact fun h => nomatch h

theorem HeldUnavailable.destroyEndpoint (hs : HeldUnavailable s) (table : List Nat) :
    HeldUnavailable (s.destroyEndpoint table) := by
  unfold Network.destroyEndpoint
  induction table generalizing s with
  | nil => exact hs
  | cons n table ih => exact ih (hs.setOtherStatus (.inl (by decide)))

/-- A uuid, or the end of a description, arrives only for nodes that nobody holds. -/
def offersFreeNodes (s : Network) : Network.Event → Bool
  | .uuidReply n _ _ _ _ => (s.nodes n).all fun node => node.connectedApp.isNone
  | .described n => (s.nodes n).all fun node => node.connectedApp.isNone
  | _ => true

theorem HeldUnavailable.step {e : Network.Event} (hs : HeldUnavailable s)
    (hoffers : offersFreeNodes s e) (h : s.step e = some t) : HeldUnavailable t := by
  cases step_cases h with
  | appConnected ha => exact hs
  | @appDestroyed a app ha =>
    unfold Network.destroyApplication
    have hgone : HeldUnavailable { s with apps := Function.update s.apps a none } := hs
    generalize { s with apps := Function.update s.apps a none } = s₀ at hgone
    induction app.lockedNodes.entries generalizing s₀ with
    | nil => exact hgone
    | cons e rest ih => exact ih _ (hgone.nodeUnlock e.2 a)
  | @lock a id _ _ => exact hs.lockNode a id
  | @unlock a id =>
    unfold Network.unlockNode
    split
    · exact hs
    · exact HeldUnavailable.nodeUnlock (s := s.updateLocked a (·.erase id)) hs _ a
  | deliver ha =>
    unfold Network.doNodeChanged
    split <;> exact hs
  | endpointConnected => exact hs
  | nodeConnected hnext =>
    have hcreated := hs.nodeConnected hnext
    exact hcreated
  | uuidReply hn ht => exact hs.onUuid hn (by simpa [offersFreeNodes, hn] using hoffers) ht
  | @described n =>
    refine hs.setOtherStatus (.inr fun node hn => ?_)
    simpa [offersFreeNodes, hn] using hoffers
  | statusAgain ht => exact hs.quiet (refresh_quiet ht)
  | upgrade _ _ => exact hs.setOtherStatus (.inl (by decide))
  | @unresponsive n _ => exact hs.setOtherStatus (n := n) (.inl (by decide))
  | @endpointStopped _ table => exact hs.destroyEndpoint table
  | @endpointDestroyed _ table _ => exact hs.destroyEndpoint table
  | nodeDestroyed =>
    intro m node hm
    exact hs m node (nodeDestroyed_eq_some hm).2

end HeldUnavailable

/-- A held node is not advertised as available, and its firmware is not upgraded. -/
structure NotOffered (s : Network) : Prop where
  status : HeldUnavailable s
  upgrade : ∀ n node wireless, s.nodes n = some node → node.connectedApp ≠ none →
    s.upgradeFirmware n wireless = none

/-- In every run in which a uuid or the end of a description arrives only for nodes
that nobody holds. -/
theorem locked_not_offered (events : List Network.Event)
    (hoffers : Transition.Along Network.step (fun _ s e => offersFreeNodes s e) [] {} events)
    (s : Network) (hrun : Transition.run Network.step {} events = some s) : NotOffered s := by
  have hs : HeldUnavailable s := by
    refine Transition.invariant (I := fun _ s => HeldUnavailable s) ?_ ?_ hoffers hrun
    · intro past s e t hs hallowed h
      exact hs.step hallowed h
    · intro n node hn
      cases hn
  refine ⟨hs, fun n node wireless hn hheld => ?_⟩
  simp [Network.upgradeFirmware, hn, hs n node hn hheld]

theorem lockedOnce_not_offered :
    ∃ s, Transition.run Network.step {} lockedOnce = some s ∧ s.getLockedNode 7 1 = some 0 ∧
      NotOffered s := by
  have hlocked : (Transition.run Network.step {} lockedOnce).bind (·.getLockedNode 7 1) =
      some 0 := by decide
  obtain ⟨s, hrun, hlocked⟩ := Option.bind_eq_some_iff.mp hlocked
  exact ⟨s, hrun, hlocked, locked_not_offered lockedOnce (by decide) s hrun⟩

/-- The reply to a request for the uuid that was sent again arrives after the lock. -/
def repliedTwice : List Network.Event :=
  lockedOnce ++ [.uuidReply 0 (some 1) 5 1 (fun _ => false)]

theorem repliedTwice_offered :
    ¬ ∀ events s, Transition.run Network.step {} events = some s → NotOffered s := by
  intro h
  have hnode : (Transition.run Network.step {} repliedTwice).bind (·.nodes 0) =
      some { uuid := 1, status := .available, connectedApp := some 7, endpoint := 0 } := by decide
  obtain ⟨s, hrun, hnode⟩ := Option.bind_eq_some_iff.mp hnode
  exact (h repliedTwice s hrun).status 0 _ hnode (by simp) rfl

end ThymioDeviceManager.Correctness
