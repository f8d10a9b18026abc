import ThymioDeviceManager.Correctness.Locking

/-! # No leaked lock

The destructor of an application releases the nodes that it lists. A node that
records an application is listed by it as long as no `disconnected` notification
under its uuid is on the way: such a notification is posted by the registry for
the node that it has under the uuid, so the node has to be registered, and it is
posted for a node that stays when its uuid is replied again. `Listed` is the
invariant; the steps that break it are named by `releasesLocks`.
-/

namespace ThymioDeviceManager.Correctness

open Manager Library

/-- A `disconnected` notification for `id` waits on the strand of the application. -/
def undelivered (s : Network) (a id : Nat) : Bool :=
  (s.apps a).any fun app => app.pending.any fun c => c.status == .disconnected && c.id == id

/-- Connected nodes are registered, those in `skip` excepted. Held nodes that are
not disconnected are registered and listed by their holder, with no `disconnected`
notification for their uuid on the way. -/
structure Listed (skip : Nat → Prop) (s : Network) : Prop where
  connected : ∀ n node, s.nodes n = some node → node.status = .connected → ¬ skip n →
    s.asebaNodes.get? node.uuid = some n
  held : ∀ n node a, s.nodes n = some node → node.status ≠ .disconnected →
    node.connectedApp = some a →
    s.asebaNodes.get? node.uuid = some n ∧ entry s a node.uuid = some n ∧
      undelivered s a node.uuid = false

section Operations

variable {attaches : Nat → Bool} {skip : Nat → Prop} {s t : Network} {a id n : Nat}
  {node : AsebaNode}

theorem undelivered_signal (s : Network) (n id a id' : Nat) (status : Status)
    (h : status ≠ .disconnected ∨ id ≠ id') :
    undelivered (s.signal n id status) a id' = undelivered s a id' := by
  have hnew : (status == .disconnected && id == id') = false := by
    rcases h with h | h <;> simp [h]
  unfold undelivered Network.signal
  dsimp only
  cases s.apps a with
  | none => rfl
  | some app =>
    simp only [Option.map_some, Option.any_some, List.any_append, List.any_cons, List.any_nil,
      hnew, Bool.or_false]

theorem Listed.signal (hs : Listed skip s) {status : Status} (h : status ≠ .disconnected) :
    Listed skip (s.signal n id status) where
  connected := hs.connected
  held m node b hm hstatus happ := by
    obtain ⟨hreg, hentry, hpending⟩ := hs.held m node b hm hstatus happ
    refine ⟨hreg, ?_, ?_⟩
    · rw [(signal_quiet s n id status).entry_eq]
      exact hentry
    · rw [undelivered_signal _ _ _ _ _ _ (.inl h)]
      exact hpending

/-- Removing the registration of a node that is gone, or that nobody holds. -/
theorem Listed.removeNode (hs : Listed skip s)
    (hn : ∀ node, s.nodes n = some node →
      node.status = .disconnected ∨ node.connectedApp = none ∧ skip n) :
    Listed skip (s.removeNode n) := by
  unfold Network.removeNode
  split
  · exact hs
  · rename_i key hkey
    have hreg := Table.get?_keyOf? hkey
    -- another node is registered under another uuid
    have hother : ∀ m (node : AsebaNode), m ≠ n → s.asebaNodes.get? node.uuid = some m →
        (s.asebaNodes.erase key).get? node.uuid = some m ∧ key ≠ node.uuid := by
      intro m node hne hm
      have hkeys : node.uuid ≠ key := by
        rintro heq
        rw [heq, hreg] at hm
        exact hne (Option.some.inj hm).symm
      rw [Table.get?_erase, if_neg hkeys]
      exact ⟨hm, hkeys.symm⟩
    constructor
    · intro m node hm hstatus hskip
      have hne : m ≠ n := by
        rintro rfl
        rcases hn node hm with h | ⟨-, h⟩
        · simp [h] at hstatus
        · exact hskip h
      exact (hother m node hne (hs.connected m node hm hstatus hskip)).1
    · intro m node b hm hstatus happ
      have hne : m ≠ n := by
        rintro rfl
        rcases hn node hm with h | ⟨h, -⟩
        · exact hstatus h
        · simp [h] at happ
      obtain ⟨hreg', hentry, hpending⟩ := hs.held m node b hm hstatus happ
      obtain ⟨hkept, hkeys⟩ := hother m node hne hreg'
      refine ⟨hkept, ?_, ?_⟩
      · rw [(signal_quiet _ n key .disconnected).entry_eq]
        exact hentry
      · rw [undelivered_signal _ _ _ _ _ _ (.inr hkeys)]
        exact hpending

/-- A change of a node that keeps the others, and this one if it is to be listed. -/
theorem Listed.updateNode (hs : Listed skip s) {f : AsebaNode → AsebaNode}
    (hconnected : ∀ old, s.nodes n = some old → (f old).status = .connected → ¬ skip n →
      s.asebaNodes.get? (f old).uuid = some n)
    (hheld : ∀ old a, s.nodes n = some old → (f old).status ≠ .disconnected →
      (f old).connectedApp = some a → s.asebaNodes.get? (f old).uuid = some n ∧
        entry s a (f old).uuid = some n ∧ undelivered s a (f old).uuid = false) :
    Listed skip (s.updateNode n f) where
  connected m node hm := by
    obtain ⟨old, rfl, hold, rfl⟩ | ⟨-, hm⟩ := updateNode_eq_some hm
    · exact hconnected old hold
    · exact hs.connected m node hm
  held m node b hm := by
    obtain ⟨old, rfl, hold, rfl⟩ | ⟨-, hm⟩ := updateNode_eq_some hm
    · exact hheld old b hold
    · exact hs.held m node b hm

theorem Listed.setNodeStatus (hs : Listed skip s) {status : Status} (h : status ≠ .disconnected) :
    Listed skip (s.setNodeStatus n status) := by
  unfold Network.setNodeStatus
  split
  · exact hs
  · exact hs.signal h

theorem Listed.disconnect (hs : Listed skip s) (n : Nat) :
    Listed skip (s.setOtherStatus n .disconnected) := by
  unfold Network.setOtherStatus
  rw [if_pos rfl]
  have hupdate : Listed skip (s.updateNode n fun node => { node with status := .disconnected }) :=
    hs.updateNode (fun _ _ h => absurd h (by simp)) fun _ _ _ h => absurd rfl h
  refine hupdate.removeNode fun node hnode => .inl ?_
  obtain ⟨x, -, -, rfl⟩ | ⟨hne, -⟩ := updateNode_eq_some hnode
  · rfl
  · exact absurd rfl hne

/-- A status other than `connected` and `disconnected`, for a node that nobody holds
or that is not disconnected. -/
theorem Listed.setOtherStatus (hs : Listed skip s) {status : Status}
    (hconnected : status ≠ .connected) (hdisconnected : status ≠ .disconnected)
    (hn : ∀ node, s.nodes n = some node →
      node.connectedApp = none ∨ node.status ≠ .disconnected) :
    Listed skip (s.setOtherStatus n status) := by
  unfold Network.setOtherStatus
  dsimp only
  rw [if_neg hdisconnected]
  refine Listed.setNodeStatus ?_ hdisconnected
  refine hs.updateNode (fun old _ h => absurd h hconnected) fun old a hold _ happ => ?_
  rcases hn old hold with hfree | hstatus
  · simp only at happ
    rw [hfree] at happ
    cases happ
  · exact hs.held n old a hold hstatus happ

theorem Listed.endpoints (hs : Listed skip s) (endpoints : Nat → Option (List Nat)) :
    Listed skip { s with endpoints } := ⟨hs.connected, hs.held⟩

/-- Dropping the entry of a node that is gone. -/
theorem Listed.erase (hs : Listed skip s) {old : Nat} (hid : s.asebaNodes.get? id = some old)
    (hold : ∀ node, s.nodes old = some node → node.status = .disconnected) :
    Listed skip { s with asebaNodes := s.asebaNodes.erase id } := by
  have hother : ∀ m node, s.nodes m = some node → node.status ≠ .disconnected →
      s.asebaNodes.get? node.uuid = some m → (s.asebaNodes.erase id).get? node.uuid = some m := by
    intro m node hm hstatus hreg
    have hne : node.uuid ≠ id := by
      intro heq
      rw [heq, hid] at hreg
      cases hreg
      exact hstatus (hold node hm)
    rw [Table.get?_erase, if_neg hne]
    exact hreg
  constructor
  · intro m node hm hstatus hskip
    exact hother m node hm (by simp [hstatus]) (hs.connected m node hm hstatus hskip)
  · intro m node b hm hstatus happ
    obtain ⟨hreg, hrest⟩ := hs.held m node b hm hstatus happ
    exact ⟨hother m node hm hstatus hreg, hrest⟩

/-- The node that `remove_duplicated_node` drops for a node with this uuid is gone,
or it is the one that its endpoint finds. -/
def evictsDuplicate (s : Network) (n uuid : Nat) : Bool :=
  (s.asebaNodes.get? uuid).all fun old => old == n || (s.nodes old).all fun oldNode =>
    oldNode.status == .disconnected ||
      (s.endpoints oldNode.endpoint).any fun table => table.head? == some old

theorem Listed.endpointRemoveNode (hs : Listed skip s) {ep uuid : Nat}
    (h : s.endpointRemoveNode ep uuid = some t) : Listed skip t := by
  unfold Network.endpointRemoveNode at h
  split at h
  · split at h
    · cases h
      exact (hs.disconnect _).endpoints _
    · cases h
  · cases h
    exact hs

theorem Listed.removeDuplicatedNode (hs : Listed skip s) (howned : Owned s)
    (hevicts : evictsDuplicate s n node.uuid) (h : s.removeDuplicatedNode n node = some t) :
    Listed skip t := by
  unfold Network.removeDuplicatedNode at h
  split at h
  · cases h
    exact hs
  · rename_i old hold
    split at h
    · cases h
      exact hs
    · rename_i hne
      dsimp only at h
      split at h
      · rename_i hnone
        cases h
        refine hs.erase hold fun x hx => ?_
        rw [hnone] at hx
        cases hx
      · rename_i oldNode hnode
        simp only [evictsDuplicate, hold, Option.all_some, beq_iff_eq, hne, hnode, Bool.or_eq_true,
          false_or] at hevicts
        rcases hevicts with hdisc | hfound
        · have herased := hs.erase hold fun x hx => by
            rw [hnode] at hx
            cases hx
            exact hdisc
          exact herased.endpointRemoveNode h
        · -- the endpoint finds the old node, which is disconnected after its entry is dropped
          obtain ⟨rest, htable⟩ : ∃ rest, s.endpoints oldNode.endpoint = some (old :: rest) := by
            cases htable : s.endpoints oldNode.endpoint with
            | none => simp [htable] at hfound
            | some table => cases table <;> simp_all
          have huuid := howned.registry node.uuid old oldNode hold hnode
          unfold Network.endpointRemoveNode at h
          simp only [htable, hnode, Option.map_some, huuid, if_true] at h
          cases h
          refine Listed.endpoints ?_ _
          have hupdate : Listed skip
              (s.updateNode old fun node => { node with status := .disconnected }) :=
            hs.updateNode (fun _ _ h => absurd h (by simp)) fun _ _ _ h => absurd rfl h
          have hgone : ∀ x, (s.updateNode old fun node =>
              { node with status := .disconnected }).nodes old = some x →
              x.status = .disconnected := by
            intro x hx
            obtain ⟨y, -, -, rfl⟩ | ⟨hne, -⟩ := updateNode_eq_some hx
            · rfl
            · exact absurd rfl hne
          unfold Network.setOtherStatus
          rw [if_pos rfl]
          exact (hupdate.erase hold hgone).removeNode fun x hx => .inl (hgone x hx)

/-- No entry under the uuid is left. -/
theorem removeDuplicatedNode_get? (hne : s.asebaNodes.get? node.uuid ≠ some n)
    (h : s.removeDuplicatedNode n node = some t) : t.asebaNodes.get? node.uuid = none := by
  have hshrinks : ∀ (u : Network) m, u.asebaNodes.get? node.uuid = none →
      (u.setOtherStatus m .disconnected).asebaNodes.get? node.uuid = none := by
    intro u m hu
    unfold Network.setOtherStatus Network.removeNode
    rw [if_pos rfl]
    split
    · exact hu
    · change (u.asebaNodes.erase _).get? node.uuid = none
      rw [Table.get?_erase]
      split
      · rfl
      · exact hu
  unfold Network.removeDuplicatedNode at h
  split at h
  · rename_i hnone
    cases h
    exact hnone
  · rename_i old hold
    split at h
    · rename_i heq
      rw [heq] at hold
      exact absurd hold hne
    · dsimp only at h
      split at h
      · cases h
        simp
      · unfold Network.endpointRemoveNode at h
        split at h
        · split at h
          · cases h
            exact hshrinks _ _ (by simp)
          · cases h
        · cases h
          simp

/-- Registering a node under its free uuid. -/
theorem Listed.insert (hs : Listed (· = n) s) (hn : s.nodes n = some node) {uuid : Nat}
    (huuid : node.uuid = uuid) (habsent : s.asebaNodes.get? uuid = none) :
    Listed (fun _ => False) { s with asebaNodes := s.asebaNodes.insert uuid n } := by
  have hkept : ∀ id m, s.asebaNodes.get? id = some m →
      (s.asebaNodes.insert uuid n).get? id = some m := by
    intro id m hid
    rw [Table.get?_insert]
    split
    · rename_i heq
      rw [heq, habsent] at hid
      cases hid
    · exact hid
  constructor
  · intro m x hm hstatus _
    by_cases h : m = n
    · subst h
      rw [hn] at hm
      cases hm
      change (s.asebaNodes.insert uuid m).get? node.uuid = some m
      rw [Table.get?_insert, if_pos huuid, habsent]
      rfl
    · exact hkept _ _ (hs.connected m x hm hstatus h)
  · intro m x b hm hstatus happ
    obtain ⟨hreg, hrest⟩ := hs.held m x b hm hstatus happ
    exact ⟨hkept _ _ hreg, hrest⟩

/-- Setting the status of a node again; a connected one is registered, so that
nothing is added. -/
theorem Listed.refresh (hs : Listed (fun _ => False) s) {depth : Nat}
    (h : s.refresh attaches depth n = some t) : Listed (fun _ => False) t := by
  unfold Network.refresh at h
  split at h
  · cases h
    exact hs
  · rename_i node hn
    cases depth with
    | zero => cases h
    | succ depth =>
      unfold Network.setStatus at h
      by_cases hconnected : node.status = .connected
      · have hreg := hs.connected n node hn hconnected not_false
        have hself : (s.updateNode n fun old => { old with status := node.status }) = s :=
          updateNode_self hn rfl
        have hkey : ∃ key, s.asebaNodes.keyOf? n = some key := by
          cases hkey : s.asebaNodes.keyOf? n with
          | none => exact absurd hreg (Table.ne_of_keyOf?_none hkey _)
          | some key => exact ⟨key, rfl⟩
        obtain ⟨key, hkey⟩ := hkey
        rw [if_pos hconnected] at h
        dsimp only at h
        rw [hself, hn] at h
        simp only [Network.addNode, Network.removeDuplicatedNode, hreg, if_true, Option.bind_eq_bind,
          Option.bind_some, hkey] at h
        cases h
        exact hs
      · rw [if_neg hconnected] at h
        cases h
        by_cases hdisc : node.status = .disconnected
        · rw [hdisc]
          exact hs.disconnect n
        · refine hs.setOtherStatus hconnected hdisc fun x hx => .inr ?_
          rw [hn] at hx
          cases hx
          exact hdisc

theorem Listed.restoreGroupAffiliation {depth : Nat} (hs : Listed (fun _ => False) s)
    (h : s.restoreGroupAffiliation attaches (fun s m => s.refresh attaches depth m) n node =
      some t) : Listed (fun _ => False) t := by
  unfold Network.restoreGroupAffiliation at h
  split at h
  · rename_i table _
    split at h
    · clear * - hs h
      induction table generalizing s with
      | nil =>
        cases h
        exact hs
      | cons m table ih =>
        rw [List.foldlM_cons] at h
        obtain ⟨next, hnext, hrest⟩ := Option.bind_eq_some_iff.mp h
        exact ih (hs.refresh hnext) hrest
    · cases h
      exact hs
  · cases h
    exact hs

/-- From the removal of duplicates to the restored group, for a node that is not
registered. -/
theorem Listed.register {depth : Nat} (hs : Listed (· = n) s) (howned : Owned s)
    (hn : s.nodes n = some node) (habsent : ∀ id, s.asebaNodes.get? id ≠ some n)
    (hevicts : evictsDuplicate s n node.uuid) {next : Network}
    (hnext : s.removeDuplicatedNode n node = some next)
    (h : { next with asebaNodes := next.asebaNodes.insert node.uuid n }.restoreGroupAffiliation
      attaches (fun s m => s.refresh attaches depth m) n node = some t) :
    Listed (fun _ => False) t := by
  have hlisted := hs.removeDuplicatedNode howned hevicts hnext
  obtain ⟨new, hnew, huuid⟩ := (removeDuplicatedNode_quiet hnext).exists_node hn
  have hfree := removeDuplicatedNode_get? (habsent node.uuid) hnext
  exact (hlisted.insert hnew huuid hfree).restoreGroupAffiliation h

theorem removeNode_get? {id m : Nat} (h : (s.removeNode n).asebaNodes.get? id = some m) :
    s.asebaNodes.get? id = some m := by
  unfold Network.removeNode at h
  split at h
  · exact h
  · change (s.asebaNodes.erase _).get? id = some m at h
    rw [Table.get?_erase] at h
    split at h
    · cases h
    · exact h

theorem removeNode_endpoints (s : Network) (n : Nat) : (s.removeNode n).endpoints = s.endpoints := by
  unfold Network.removeNode
  split <;> rfl

theorem evictsDuplicate_rename (howned : Owned s) (hn : s.nodes n = some node) {uuid : Nat}
    (hevicts : evictsDuplicate s n uuid) :
    evictsDuplicate ((s.removeNode n).updateNode n fun old => { old with uuid }) n uuid := by
  unfold evictsDuplicate
  cases hold : (s.removeNode n).asebaNodes.get? uuid with
  | none => simp [Network.updateNode, hold]
  | some old =>
    have hne : old ≠ n := by
      rintro rfl
      exact howned.removeNode_absent hn uuid hold
    simpa [evictsDuplicate, removeNode_get? hold, Network.updateNode, hold, hne, removeNode_nodes,
      removeNode_endpoints] using hevicts

theorem Listed.onUuid {depth random : Nat} {data : Option Nat} (hs : Listed (fun _ => False) s)
    (howned : Owned s) (hn : s.nodes n = some node) (hfree : node.connectedApp = none)
    (hevicts : evictsDuplicate s n (node.readUuid data random))
    (h : s.onUuid attaches depth n node data random = some t) : Listed (fun _ => False) t := by
  have hskip : Listed (· = n) s := ⟨fun m x hm hst _ => hs.connected m x hm hst not_false, hs.held⟩
  -- the node leaves the registry and gets its new uuid
  have hremoved : Listed (· = n) (s.removeNode n) := by
    refine hskip.removeNode fun x hx => .inr ?_
    rw [hn] at hx
    cases hx
    exact ⟨hfree, rfl⟩
  have hrenamed : Listed (· = n) ((s.removeNode n).updateNode n fun old =>
      { old with uuid := node.readUuid data random }) := by
    refine hremoved.updateNode (fun _ _ _ h => absurd rfl h) fun old a hold _ happ => ?_
    rw [removeNode_nodes, hn] at hold
    cases hold
    simp only at happ
    rw [hfree] at happ
    cases happ
  have hn' : ((s.removeNode n).updateNode n fun old =>
      { old with uuid := node.readUuid data random }).nodes n =
      some { node with uuid := node.readUuid data random } := by
    simp [Network.updateNode, removeNode_nodes, hn]
  obtain ⟨last, hlast, h⟩ := Option.bind_eq_some_iff.mp h
  cases h
  have hquiet := handleNodeUuidChange_quiet (fun s m t h => refresh_quiet h)
    (by simp [Network.updateNode, hn]) hlast
  rw [removeNode_updateNode] at hquiet
  unfold Network.handleNodeUuidChange at hlast
  rw [forgetNode_eq, removeNode_updateNode] at hlast
  obtain ⟨next, hnext, hlast⟩ := Option.bind_eq_some_iff.mp hlast
  have hregistered := hrenamed.register (howned.rename hn (by simp [hfree])) hn'
    (howned.removeNode_absent hn) (evictsDuplicate_rename howned hn hevicts) hnext hlast
  -- the node is still free when it becomes available
  refine hregistered.setOtherStatus (by decide) (by decide) fun x hx => .inl ?_
  obtain ⟨old, hold, -, happ, -⟩ := hquiet.of_node hx
  rw [hn'] at hold
  cases hold
  exact happ.trans hfree

theorem Listed.nodeConnected {depth ep uuid : Nat} (hs : Listed (fun _ => False) s)
    (howned : Owned s) (hevicts : evictsDuplicate s s.nextNode uuid)
    (h : Network.setStatus attaches depth (s.createNode ep uuid) s.nextNode .connected = some t) :
    Listed (fun _ => False) t := by
  have hcreated : Listed (· = s.nextNode) ((s.createNode ep uuid).updateNode s.nextNode fun node =>
      { node with status := .connected }) := by
    constructor
    · intro m node hm hstatus hskip
      obtain ⟨-, rfl, -⟩ | ⟨-, hm⟩ := updateNode_eq_some hm
      · exact absurd rfl hskip
      · obtain ⟨rfl, -⟩ | ⟨-, hm⟩ := createNode_eq_some hm
        · exact absurd rfl hskip
        · exact hs.connected m node hm hstatus not_false
    · intro m node b hm hstatus happ
      obtain ⟨old, rfl, hold, rfl⟩ | ⟨-, hm⟩ := updateNode_eq_some hm
      · obtain ⟨-, rfl⟩ | ⟨hne, -⟩ := createNode_eq_some hold
        · cases happ
        · exact absurd rfl hne
      · obtain ⟨-, rfl⟩ | ⟨-, hm⟩ := createNode_eq_some hm
        · cases happ
        · exact hs.held m node b hm hstatus happ
  have howned' : Owned ((s.createNode ep uuid).updateNode s.nextNode fun node =>
      { node with status := .connected }) :=
    (howned.createNode ep uuid).updateNode (fun id => (howned.createNode ep uuid).registry id _)
      fun a id => (howned.createNode ep uuid).entries a id _
  have habsent := (howned.fresh s.nextNode (Nat.le_refl _)).2.1
  have hevicts' : evictsDuplicate ((s.createNode ep uuid).updateNode s.nextNode fun node =>
      { node with status := .connected }) s.nextNode uuid := by
    cases hold : s.asebaNodes.get? uuid with
    | none => simp [evictsDuplicate, Network.updateNode, Network.createNode, hold]
    | some old =>
      have hne : old ≠ s.nextNode := by
        rintro rfl
        exact habsent uuid hold
      simpa [evictsDuplicate, Network.updateNode, Network.createNode, hold, hne] using hevicts
  have hn : ((s.createNode ep uuid).updateNode s.nextNode fun node =>
      { node with status := .connected }).nodes s.nextNode =
      some { uuid, status := .connected, endpoint := ep } := by
    simp [Network.updateNode, Network.createNode]
  cases depth with
  | zero => cases h
  | succ depth =>
    unfold Network.setStatus at h
    rw [if_pos rfl] at h
    dsimp only at h
    rw [hn] at h
    unfold Network.addNode at h
    obtain ⟨next, hnext, h⟩ := Option.bind_eq_some_iff.mp h
    have hfree := removeDuplicatedNode_get? (habsent uuid) hnext
    split at h
    · -- the new node is not registered yet
      rename_i key hkey
      obtain ⟨new, hnew, huuid⟩ := (removeDuplicatedNode_quiet hnext).exists_node hn
      have hreg := Table.get?_keyOf? hkey
      have hkeys := (howned'.quiet (removeDuplicatedNode_quiet hnext)).registry key _ new hreg hnew
      rw [← hkeys, huuid, hfree] at hreg
      cases hreg
    · obtain ⟨last, hlast, h⟩ := Option.bind_eq_some_iff.mp h
      cases h
      exact (hcreated.register howned' hn habsent hevicts' hnext hlast).signal (by decide)

theorem undelivered_updateLocked (s : Network) (a b id : Nat) (f : Table Nat Nat → Table Nat Nat) :
    undelivered (s.updateLocked a f) b id = undelivered s b id := by
  unfold undelivered Network.updateLocked
  by_cases hb : b = a
  · subst hb
    cases s.apps b <;> simp
  · simp [hb]

/-- Entries may change where no node that is to be listed is registered. -/
theorem Listed.updateLocked (hs : Listed skip s) {f : Table Nat Nat → Table Nat Nat}
    (hf : ∀ n node, s.nodes n = some node → node.status ≠ .disconnected →
      node.connectedApp = some a → s.asebaNodes.get? node.uuid = some n →
      entry s a node.uuid = some n → entry (s.updateLocked a f) a node.uuid = some n) :
    Listed skip (s.updateLocked a f) where
  connected := hs.connected
  held n node b hn hstatus happ := by
    obtain ⟨hreg, hentry, hpending⟩ := hs.held n node b hn hstatus happ
    refine ⟨hreg, ?_, ?_⟩
    · by_cases hb : b = a
      · subst hb
        exact hf n node hn hstatus happ hreg hentry
      · rw [entry_updateLocked, if_neg hb]
        exact hentry
    · rw [undelivered_updateLocked]
      exact hpending

theorem Listed.lockNode (hs : Listed skip s) (howned : Owned s) {app : Application}
    (ha : s.apps a = some app)
    (hdelivered : ∀ n node, s.nodeFromId id = some n → s.nodes n = some node →
      node.connectedApp = none → node.status = .available → undelivered s a id = false) :
    Listed skip (s.lockNode a id) := by
  cases hid : s.nodeFromId id with
  | none =>
    unfold Network.lockNode
    rw [hid]
    exact hs
  | some n =>
    obtain ⟨hreg, hsome⟩ := Option.filter_eq_some_iff.mp hid
    obtain ⟨node, hn⟩ := Option.isSome_iff_exists.mp hsome
    have huuid := howned.registry id n node hreg hn
    obtain ⟨happ, heq⟩ | ⟨happ, heq⟩ | ⟨hfree, havailable, heq⟩ := lockNode_cases (a := a) hreg hn
    · rw [heq]
      refine hs.updateLocked fun m x _ _ _ hm hentry => ?_
      rw [entry_assign ha]
      split
      · rename_i heq'
        rw [heq'.2, hreg] at hm
        exact hm
      · exact hentry
    · rw [heq]
      have hsame : ∀ m x, s.nodes m = some x → x.status ≠ .disconnected →
          x.connectedApp = some a → s.asebaNodes.get? x.uuid = some m → x.uuid ≠ id := by
        intro m x hm _ hx hreg' hkey
        rw [hkey, hreg] at hreg'
        cases hreg'
        rw [hn] at hm
        cases hm
        exact happ hx
      have hassigned : Listed skip (s.updateLocked a (·.assign id n)) := by
        refine hs.updateLocked fun m x hm hst hx hreg' hentry => ?_
        rw [entry_assign ha, if_neg fun h => hsame m x hm hst hx hreg' h.2]
        exact hentry
      refine hassigned.updateLocked fun m x hm hst hx hreg' hentry => ?_
      rw [entry_erase, if_neg fun h => hsame m x hm hst hx hreg' h.2]
      exact hentry
    · rw [heq]
      have hassigned : Listed skip (s.updateLocked a (·.assign id n)) := by
        refine hs.updateLocked fun m x _ _ _ hm hentry => ?_
        rw [entry_assign ha]
        split
        · rename_i heq'
          rw [heq'.2, hreg] at hm
          exact hm
        · exact hentry
      have hheld : Listed skip ((s.updateLocked a (·.assign id n)).updateNode n fun node =>
          { node with connectedApp := some a }) := by
        refine hassigned.updateNode (fun old => hassigned.connected n old) fun old b hold _ hb => ?_
        cases hb
        change s.nodes n = some old at hold
        rw [hn] at hold
        cases hold
        refine ⟨?_, ?_, ?_⟩
        · change s.asebaNodes.get? node.uuid = some n
          rw [huuid]
          exact hreg
        · change entry (s.updateLocked a (·.assign id n)) a node.uuid = some n
          rw [entry_assign ha, if_pos ⟨rfl, huuid⟩]
        · change undelivered (s.updateLocked a (·.assign id n)) a node.uuid = false
          rw [undelivered_updateLocked, huuid]
          exact hdelivered n node hid hn hfree havailable
      refine hheld.setOtherStatus (by decide) (by decide) fun x hx => .inr ?_
      obtain ⟨old, -, hold, rfl⟩ | ⟨hne, -⟩ := updateNode_eq_some hx
      · change s.nodes n = some old at hold
        rw [hn] at hold
        cases hold
        simp [havailable]
      · exact absurd rfl hne

/-- A node that an application releases need not be listed any more. -/
theorem Listed.release (hs : Listed skip s) (n : Nat) :
    Listed skip (s.updateNode n fun node => { node with connectedApp := none }) :=
  hs.updateNode (fun old => hs.connected n old) fun _ _ _ _ h => nomatch h

theorem release_free {x : AsebaNode}
    (hx : (s.updateNode n fun node => { node with connectedApp := none }).nodes n = some x) :
    x.connectedApp = none := by
  obtain ⟨old, -, -, rfl⟩ | ⟨hne, -⟩ := updateNode_eq_some hx
  · rfl
  · exact absurd rfl hne

theorem Listed.unlockNode (hs : Listed skip s) (howned : Owned s) (a id : Nat) :
    Listed skip (s.unlockNode a id) := by
  unfold Network.unlockNode
  split
  · exact hs
  · rename_i n hentry
    cases hn : s.nodes n with
    | none =>
      have hgone : (s.updateLocked a (·.erase id)).nodeUnlock n a =
          s.updateLocked a (·.erase id) := by
        have hn' : (s.updateLocked a (·.erase id)).nodes n = none := hn
        simp only [Network.nodeUnlock, hn']
      rw [hgone]
      refine hs.updateLocked fun m x hm _ _ _ hentry' => ?_
      rw [entry_erase, if_neg]
      · exact hentry'
      · rintro ⟨-, hid⟩
        rw [hid] at hentry'
        cases hentry.symm.trans hentry'
        rw [hn] at hm
        cases hm
    | some node =>
      have happ := (howned.entries a id n node hentry hn).1
      have hunlock : (s.updateLocked a (·.erase id)).nodeUnlock n a =
          ((s.updateNode n fun node => { node with connectedApp := none }).updateLocked a
            (·.erase id)).setOtherStatus n .available := by
        have hn' : (s.updateLocked a (·.erase id)).nodes n = some node := hn
        simp only [Network.nodeUnlock, hn', happ, ne_eq, not_true_eq_false, if_false]
        rfl
      rw [hunlock]
      have hfree : ∀ x, (s.updateNode n fun node => { node with connectedApp := none }).nodes n =
          some x → x.connectedApp = none := fun x hx => release_free hx
      have herased : Listed skip ((s.updateNode n fun node =>
          { node with connectedApp := none }).updateLocked a (·.erase id)) := by
        refine (hs.release n).updateLocked fun m x hm _ hx _ hentry' => ?_
        rw [entry_erase, if_neg]
        · exact hentry'
        · rintro ⟨-, hid⟩
          rw [hid] at hentry'
          cases hentry.symm.trans hentry'
          rw [hfree x hm] at hx
          cases hx
      exact herased.setOtherStatus (by decide) (by decide) fun x hx => .inl (hfree x hx)

/-- As `Listed`, for the time in which an application that is gone unlocks its nodes. -/
structure Unlocking (a : Nat) (rest : List (Nat × Nat)) (s : Network) : Prop where
  connected : ∀ n node, s.nodes n = some node → node.status = .connected →
    s.asebaNodes.get? node.uuid = some n
  held : ∀ n node b, s.nodes n = some node → node.status ≠ .disconnected →
    node.connectedApp = some b → b ≠ a →
    s.asebaNodes.get? node.uuid = some n ∧ entry s b node.uuid = some n ∧
      undelivered s b node.uuid = false
  left : ∀ n node, s.nodes n = some node → node.status ≠ .disconnected →
    node.connectedApp = some a → ∃ e ∈ rest, e.2 = n

/-- Announcing a status leaves all but the strands as it was. -/
theorem setNodeStatus_frame (s : Network) (n : Nat) (status : Status)
    (h : status ≠ .disconnected) :
    (s.setNodeStatus n status).nodes = s.nodes ∧
      (s.setNodeStatus n status).asebaNodes = s.asebaNodes ∧
      ∀ b id, undelivered (s.setNodeStatus n status) b id = undelivered s b id := by
  unfold Network.setNodeStatus
  split
  · exact ⟨rfl, rfl, fun _ _ => rfl⟩
  · exact ⟨rfl, rfl, fun b id => undelivered_signal s n _ b id status (.inl h)⟩

theorem Unlocking.nodeUnlock {e : Nat × Nat} {rest : List (Nat × Nat)}
    (hs : Unlocking a (e :: rest) s) : Unlocking a rest (s.nodeUnlock e.2 a) := by
  -- the other nodes that the application holds are still to come
  have hleft : ∀ n node, s.nodes n = some node → node.status ≠ .disconnected →
      node.connectedApp = some a → n ≠ e.2 → ∃ e' ∈ rest, e'.2 = n := by
    intro n node hn hstatus happ hne
    obtain ⟨e', he', rfl⟩ := hs.left n node hn hstatus happ
    rcases List.mem_cons.mp he' with rfl | he'
    · exact absurd rfl hne
    · exact ⟨e', he', rfl⟩
  unfold Network.nodeUnlock
  split
  · rename_i hnone
    refine ⟨hs.connected, hs.held, fun n node hn hstatus happ => ?_⟩
    refine hleft n node hn hstatus happ ?_
    rintro rfl
    rw [hnone] at hn
    cases hn
  · rename_i node hnode
    split
    · rename_i hother
      refine ⟨hs.connected, hs.held, fun n x hn hstatus happ => ?_⟩
      refine hleft n x hn hstatus happ ?_
      rintro rfl
      rw [hnode] at hn
      cases hn
      exact hother happ
    · have hentry := nodeUnlock_entry s e.2 a
      rename_i hheld
      simp only [Network.nodeUnlock, hnode, if_neg hheld] at hentry
      unfold Network.setOtherStatus at hentry ⊢
      dsimp only at hentry ⊢
      rw [if_neg (by decide)] at hentry ⊢
      obtain ⟨hnodes, hregistry, hpending⟩ := setNodeStatus_frame
        ((s.updateNode e.2 fun node => { node with connectedApp := none }).updateNode e.2
          fun node => { node with status := .available }) e.2 .available (by decide)
      -- the node that is released is neither connected nor held
      have hcases : ∀ m x, (((s.updateNode e.2 fun node =>
          { node with connectedApp := none }).updateNode e.2 fun node =>
          { node with status := .available }).setNodeStatus e.2 .available).nodes m = some x →
          x.status = .available ∧ x.connectedApp = none ∨ m ≠ e.2 ∧ s.nodes m = some x := by
        intro m x hm
        rw [hnodes] at hm
        obtain ⟨old, -, hold, rfl⟩ | ⟨hne, hm⟩ := updateNode_eq_some hm
        · have hfree : old.connectedApp = none := release_free hold
          exact .inl ⟨rfl, hfree⟩
        · obtain ⟨-, rfl, -⟩ | ⟨-, hm⟩ := updateNode_eq_some hm
          · exact absurd rfl hne
          · exact .inr ⟨hne, hm⟩
      constructor
      · intro m x hm hstatus
        rw [hregistry]
        obtain ⟨havailable, -⟩ | ⟨-, hm⟩ := hcases m x hm
        · rw [havailable] at hstatus
          cases hstatus
        · exact hs.connected m x hm hstatus
      · intro m x b hm hstatus happ hb
        obtain ⟨-, hfree⟩ | ⟨-, hm⟩ := hcases m x hm
        · rw [hfree] at happ
          cases happ
        · rw [hregistry, hentry, hpending]
          exact hs.held m x b hm hstatus happ hb
      · intro m x hm hstatus happ
        obtain ⟨-, hfree⟩ | ⟨hne, hm⟩ := hcases m x hm
        · rw [hfree] at happ
          cases happ
        · exact hleft m x hm hstatus happ hne

theorem Listed.destroyApplication (hs : Listed (fun _ => False) s) {app : Application}
    (ha : s.apps a = some app) : Listed (fun _ => False) (s.destroyApplication a app) := by
  have hstart : Unlocking a app.lockedNodes.entries
      { s with apps := Function.update s.apps a none } := by
    constructor
    · intro n node hn hstatus
      exact hs.connected n node hn hstatus not_false
    · intro n node b hn hstatus happ hb
      have hlisted := hs.held n node b hn hstatus happ
      simpa [entry, undelivered, hb] using hlisted
    · intro n node hn hstatus happ
      obtain ⟨-, hentry, -⟩ := hs.held n node a hn hstatus happ
      simp only [entry, ha, Option.bind_some] at hentry
      exact ⟨(node.uuid, n), Table.mem_entries.mpr hentry, rfl⟩
  unfold Network.destroyApplication
  generalize app.lockedNodes.entries = rest at hstart ⊢
  generalize { s with apps := Function.update s.apps a none } = s₀ at hstart
  induction rest generalizing s₀ with
  | nil =>
    refine ⟨fun n node hn hstatus _ => hstart.connected n node hn hstatus, ?_⟩
    intro n node b hn hstatus happ
    refine hstart.held n node b hn hstatus happ ?_
    rintro rfl
    obtain ⟨e, he, -⟩ := hstart.left n node hn hstatus happ
    cases he
  | cons e rest ih => exact ih _ hstart.nodeUnlock

theorem Listed.destroyEndpoint (hs : Listed skip s) (table : List Nat) :
    Listed skip (s.destroyEndpoint table) := by
  unfold Network.destroyEndpoint
  induction table generalizing s with
  | nil => exact hs
  | cons n table ih => exact ih (hs.disconnect n)

theorem Listed.deliver (hs : Listed skip s) {lockedNodes : Table Nat Nat} {change : NodeChanged}
    {pending : List NodeChanged} (ha : s.apps a = some ⟨lockedNodes, change :: pending⟩) :
    Listed skip ({ s with apps := Function.update s.apps a (some ⟨lockedNodes, pending⟩)
      }.doNodeChanged a change) := by
  have hpopped : Listed skip
      { s with apps := Function.update s.apps a (some ⟨lockedNodes, pending⟩) } := by
    refine ⟨hs.connected, fun n node b hn hstatus happ => ?_⟩
    obtain ⟨hreg, hentry, hpending⟩ := hs.held n node b hn hstatus happ
    by_cases hb : b = a
    · subst hb
      refine ⟨hreg, by simpa [entry, ha] using hentry, ?_⟩
      simp only [undelivered, ha, Option.any_some, List.any_cons, Bool.or_eq_false_iff] at hpending
      simpa [undelivered] using hpending.2
    · exact ⟨hreg, by simpa [entry, hb] using hentry, by simpa [undelivered, hb] using hpending⟩
  unfold Network.doNodeChanged
  split
  · rename_i hdisc
    -- a held node has no such notification on the way
    refine hpopped.updateLocked fun n node hn hstatus happ _ hentry => ?_
    have hpending := (hs.held n node a hn hstatus happ).2.2
    rw [entry_erase, if_neg]
    · exact hentry
    · rintro ⟨-, hid⟩
      simp [undelivered, ha, hdisc, hid] at hpending
  · exact hpopped

/-- No uuid is replied for a held node, no description ends for one that was
disconnected, no lock is granted while a `disconnected` notification under the uuid
waits on the strand of the application, and duplicates are evicted. -/
def releasesLocks (s : Network) : Network.Event → Bool
  | .uuidReply n data random _ _ => (s.nodes n).all fun node =>
    node.connectedApp.isNone && evictsDuplicate s n (node.readUuid data random)
  | .nodeConnected _ uuid _ _ _ => evictsDuplicate s s.nextNode uuid
  | .described n => (s.nodes n).all fun node =>
    node.connectedApp.isNone || node.status != .disconnected
  | .lock a id => (s.nodeFromId id).all fun n => (s.nodes n).all fun node =>
    node.connectedApp.isSome || node.status != .available || !undelivered s a id
  | _ => true

theorem keepsUuid_of_releasesLocks {e : Network.Event} (h : releasesLocks s e) : keepsUuid s e := by
  cases e with
  | uuidReply n data random depth attaches =>
    cases hn : s.nodes n with
    | none => simp [keepsUuid, hn]
    | some node =>
      simp only [releasesLocks, hn, Option.all_some, Bool.and_eq_true] at h
      simp [keepsUuid, hn, h.1]
  | _ => rfl

theorem Listed.step {e : Network.Event} (hs : Listed (fun _ => False) s) (howned : Owned s)
    (hreleases : releasesLocks s e) (h : s.step e = some t) : Listed (fun _ => False) t := by
  cases step_cases h with
  | @appConnected a ha =>
    refine ⟨hs.connected, fun n node b hn hstatus happ => ?_⟩
    have hlisted := hs.held n node b hn hstatus happ
    have hb : b ≠ a := by
      rintro rfl
      simp [entry, ha] at hlisted
    simpa [entry, undelivered, hb] using hlisted
  | appDestroyed ha => exact hs.destroyApplication ha
  | @lock a id app ha =>
    refine hs.lockNode howned ha fun n node hid hn hfree havailable => ?_
    simpa [releasesLocks, hid, hn, hfree, havailable] using hreleases
  | @unlock a id => exact hs.unlockNode howned a id
  | deliver ha => exact hs.deliver ha
  | endpointConnected => exact ⟨hs.connected, hs.held⟩
  | nodeConnected hnext => exact (hs.nodeConnected howned hreleases hnext).endpoints _
  | @uuidReply n random depth data attaches node _ hn ht =>
    simp only [releasesLocks, hn, Option.all_some, Bool.and_eq_true, Option.isNone_iff_eq_none]
      at hreleases
    exact hs.onUuid howned hn hreleases.1 hreleases.2 ht
  | @described n =>
    refine hs.setOtherStatus (by decide) (by decide) fun node hn => ?_
    simpa [releasesLocks, hn] using hreleases
  | statusAgain ht => exact hs.refresh ht
  | @upgrade n _ node hn havailable =>
    refine hs.setOtherStatus (by decide) (by decide) fun x hx => .inr ?_
    rw [hn] at hx
    cases hx
    simp [havailable]
  | @unresponsive n _ => exact (hs.disconnect n).endpoints _
  | @endpointStopped _ table => exact hs.destroyEndpoint table
  | @endpointDestroyed _ table _ => exact (hs.destroyEndpoint table).endpoints _
  | nodeDestroyed =>
    constructor
    · intro m node hm
      exact hs.connected m node (nodeDestroyed_eq_some hm).2
    · intro m node b hm
      exact hs.held m node b (nodeDestroyed_eq_some hm).2

end Operations

/-- A node that is not disconnected records no application that is gone. -/
def NoLeakedLock (s : Network) : Prop :=
  ∀ n node a, s.nodes n = some node → node.status ≠ .disconnected →
    node.connectedApp = some a → (s.apps a).isSome

theorem Listed.noLeakedLock {skip : Nat → Prop} {s : Network} (hs : Listed skip s) :
    NoLeakedLock s := by
  intro n node a hn hstatus happ
  have hentry := (hs.held n node a hn hstatus happ).2.1
  cases ha : s.apps a with
  | none => simp [entry, ha] at hentry
  | some app => rfl

/-- In every run whose steps meet `releasesLocks`. -/
theorem no_leaked_lock (events : List Network.Event)
    (hreleases : Transition.Along Network.step (fun _ s e => releasesLocks s e) [] {} events)
    (s : Network) (hrun : Transition.run Network.step {} events = some s) : NoLeakedLock s := by
  have hs : Owned s ∧ Listed (fun _ => False) s := by
    refine Transition.invariant (I := fun _ s => Owned s ∧ Listed (fun _ => False) s) ?_ ?_
      hreleases hrun
    · rintro past s e t ⟨howned, hlisted⟩ hallowed h
      exact ⟨howned.step (keepsUuid_of_releasesLocks hallowed) h, hlisted.step howned hallowed h⟩
    · exact ⟨Owned.start, fun _ _ h => (nomatch h), fun _ _ _ h => (nomatch h)⟩
  exact hs.2.noLeakedLock

/-- The application locks the node once it has been told that it is available. -/
def lockedWhenTold : List Network.Event :=
  oneNode ++ [.deliver 7, .deliver 7, .deliver 7, .lock 7 1, .deliver 7]

theorem lockedWhenTold_released :
    ∃ s, Transition.run Network.step {} (lockedWhenTold ++ [.appDestroyed 7]) = some s ∧
      s.nodes 0 = some { uuid := 1, status := .available, connectedApp := none, endpoint := 0 } ∧
      NoLeakedLock s := by
  have hnode : (Transition.run Network.step {} (lockedWhenTold ++ [.appDestroyed 7])).bind
      (·.nodes 0) = some { uuid := 1, status := .available, connectedApp := none, endpoint := 0 } := by
    decide
  obtain ⟨s, hrun, hnode⟩ := Option.bind_eq_some_iff.mp hnode
  exact ⟨s, hrun, hnode, no_leaked_lock _ (by decide) s hrun⟩

/-- The uuid is replied again. The application hears that the node is gone and
forgets it, and goes away itself; the node still records it. -/
def repliedWhileHeld : List Network.Event :=
  lockedWhenTold ++
    [.uuidReply 0 (some 1) 5 1 (fun _ => false), .deliver 7, .deliver 7, .appDestroyed 7]

theorem repliedWhileHeld_leaked :
    ¬ ∀ events s, Transition.run Network.step {} events = some s → NoLeakedLock s := by
  intro h
  have hnode : (Transition.run Network.step {} repliedWhileHeld).bind (·.nodes 0) =
      some { uuid := 1, status := .available, connectedApp := some 7, endpoint := 0 } := by decide
  have happ : ((Transition.run Network.step {} repliedWhileHeld).bind (·.apps 7)).isNone := by
    decide
  obtain ⟨s, hrun, hnode⟩ := Option.bind_eq_some_iff.mp hnode
  have hsome := h repliedWhileHeld s hrun 0 _ 7 hnode (by decide) rfl
  rw [hrun, Option.bind_some, Option.isNone_iff_eq_none] at happ
  simp [happ] at hsome

end ThymioDeviceManager.Correctness
