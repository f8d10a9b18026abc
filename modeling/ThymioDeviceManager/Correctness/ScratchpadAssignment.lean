import Mathlib.Logic.Relation
import ThymioDeviceManager.Manager.Scratchpads

/-! # The assignment of scratchpads

Whatever its loops look for, `assign_scratchpads` only ever does one thing to a scratchpad after the first
loop: one without a node gets one. The nodes it gets them from were free when a loop started, and
are still free as long as no two of them have the same uuid.
-/

namespace ThymioDeviceManager.Correctness

open Manager Manager.Scratchpads

namespace ScratchpadAssignment

/-! ## Filling slots -/

/-- A scratchpad without a node gets one. -/
inductive Fill (allowed : List Slot → Nat → Prop) : List Slot → List Slot → Prop
  | mk {pre post : List Slot} {s : Slot} {id : Nat} (hnil : s.1.nodeid = 0)
      (hid : allowed (pre ++ s :: post) id) :
      Fill allowed (pre ++ s :: post) (pre ++ reassign id s :: post)

abbrev Fills (allowed : List Slot → Nat → Prop) : List Slot → List Slot → Prop :=
  Relation.ReflTransGen (Fill allowed)

def uuids (connected : List GroupNode) : List Nat := connected.map (·.uuid)

/-- A node has the uuid. -/
def Known (connected : List GroupNode) (_ : List Slot) (id : Nat) : Prop := id ∈ uuids connected

/-- A node has the uuid, and no scratchpad has the node. -/
def Free (connected : List GroupNode) (slots : List Slot) (id : Nat) : Prop :=
  id ∈ uuids connected ∧ id ∉ usedIds slots

variable {connected : List GroupNode} {slots slots' pre post : List Slot} {s : Slot} {id : Nat}
  {allowed : List Slot → Nat → Prop}

theorem mem_usedIds : id ∈ usedIds slots ↔ id ≠ 0 ∧ ∃ s ∈ slots, s.1.nodeid = id := by
  simp [usedIds, and_comm]

theorem usedIds_append (slots slots' : List Slot) :
    usedIds (slots ++ slots') = usedIds slots ++ usedIds slots' := by
  simp [usedIds]

theorem usedIds_cons_of_nil (h : s.1.nodeid = 0) : usedIds (s :: slots) = usedIds slots := by
  simp [usedIds, h]

theorem usedIds_cons (h : s.1.nodeid ≠ 0) : usedIds (s :: slots) = s.1.nodeid :: usedIds slots := by
  simp [usedIds, h]

@[simp] theorem nodeid_reassign : (reassign id s).1.nodeid = id := rfl

theorem mem_freeNodes {n : GroupNode} :
    n ∈ freeNodes connected slots ↔ n ∈ connected ∧ n.uuid ∉ usedIds slots := by
  simp [freeNodes]

theorem Free.known (h : Free connected slots id) : Known connected slots id := h.1

theorem free_of_mem {n : GroupNode} (h : n ∈ freeNodes connected slots) :
    Free connected slots n.uuid :=
  ⟨List.mem_map_of_mem (mem_freeNodes.mp h).1, (mem_freeNodes.mp h).2⟩

/-! ## The loops -/

theorem fills_assignFirst (p : Scratchpad → Bool) (hid : allowed slots id) :
    Fills allowed slots (assignFirst p id slots) := by
  suffices hsplit : assignFirst p id slots = slots ∨ ∃ pre s post, slots = pre ++ s :: post ∧
      s.1.nodeid = 0 ∧ assignFirst p id slots = pre ++ reassign id s :: post by
    rcases hsplit with h | ⟨pre, s, post, rfl, hnil, h⟩
    · rw [h]
    · rw [h]
      exact Relation.ReflTransGen.single (Fill.mk hnil hid)
  clear hid
  induction slots with
  | nil => exact Or.inl rfl
  | cons s slots ih =>
    rw [assignFirst]
    split_ifs with h
    · have hnil : s.1.nodeid = 0 := by simpa using (Bool.and_eq_true_iff.mp h).1
      exact Or.inr ⟨[], s, slots, rfl, hnil, rfl⟩
    · rcases ih with h | ⟨pre, t, post, rfl, hnil, h⟩
      · exact Or.inl (by rw [h])
      · exact Or.inr ⟨s :: pre, t, post, rfl, hnil, by rw [h]; rfl⟩

/-- A node that is given away is the only one that is free no longer. -/
theorem mem_usedIds_assignFirst {p : Scratchpad → Bool} {i : Nat}
    (h : i ∈ usedIds (assignFirst p id slots)) : i = id ∨ i ∈ usedIds slots := by
  induction slots with
  | nil => exact Or.inr h
  | cons s slots ih =>
    rw [assignFirst] at h
    split_ifs at h
    · obtain ⟨hne, t, ht, rfl⟩ := mem_usedIds.mp h
      rcases List.mem_cons.mp ht with rfl | ht
      · exact Or.inl rfl
      · exact Or.inr (mem_usedIds.mpr ⟨hne, t, List.mem_cons_of_mem _ ht, rfl⟩)
    · obtain ⟨hne, t, ht, rfl⟩ := mem_usedIds.mp h
      rcases List.mem_cons.mp ht with rfl | ht
      · exact Or.inr (mem_usedIds.mpr ⟨hne, t, List.mem_cons_self, rfl⟩)
      · apply (ih (mem_usedIds.mpr ⟨hne, t, ht, rfl⟩)).imp_right
        intro hold
        obtain ⟨-, u, hu, heq⟩ := mem_usedIds.mp hold
        exact mem_usedIds.mpr ⟨hne, u, List.mem_cons_of_mem _ hu, heq⟩

section Passes

variable (predicate : GroupNode → Scratchpad → Bool)

theorem fills_known_assign : Fills (Known connected) slots (assign predicate connected slots) := by
  have hall : ∀ l : List GroupNode, (∀ n ∈ l, n ∈ connected) → ∀ slots,
      Fills (Known connected) slots
        (l.foldl (fun slots n => assignFirst (predicate n) n.uuid slots) slots) := by
    intro l
    induction l with
    | nil => exact fun _ _ => Relation.ReflTransGen.refl
    | cons n l ih =>
      intro hl slots
      have hfirst : Fills (Known connected) slots (assignFirst (predicate n) n.uuid slots) :=
        fills_assignFirst _ (List.mem_map_of_mem (hl n List.mem_cons_self))
      exact hfirst.trans (ih (fun m hm => hl m (List.mem_cons_of_mem _ hm)) _)
  exact hall _ (fun n hn => (mem_freeNodes.mp hn).1) slots

/-- With distinct uuids, the nodes that a loop has not come to are free. -/
theorem fills_assign (hnodup : (uuids connected).Nodup) :
    Fills (Free connected) slots (assign predicate connected slots) := by
  have hall : ∀ l : List GroupNode, (l.map (·.uuid)).Nodup → ∀ slots,
      (∀ n ∈ l, Free connected slots n.uuid) → Fills (Free connected) slots
        (l.foldl (fun slots n => assignFirst (predicate n) n.uuid slots) slots) := by
    intro l
    induction l with
    | nil => exact fun _ _ _ => Relation.ReflTransGen.refl
    | cons n l ih =>
      intro hl slots hfree
      obtain ⟨hn, hl⟩ := List.nodup_cons.mp hl
      have hfirst : Fills (Free connected) slots (assignFirst (predicate n) n.uuid slots) :=
        fills_assignFirst _ (hfree n List.mem_cons_self)
      refine hfirst.trans (ih hl _ fun m hm => ?_)
      obtain ⟨hknown, hunused⟩ := hfree m (List.mem_cons_of_mem _ hm)
      refine ⟨hknown, fun hused => ?_⟩
      rcases mem_usedIds_assignFirst hused with heq | hused
      · exact hn (List.mem_map.mpr ⟨m, hm, heq⟩)
      · exact hunused hused
  have hsublist : ((freeNodes connected slots).map (·.uuid)).Sublist (uuids connected) :=
    List.filter_sublist.map _
  exact hall _ (hnodup.sublist hsublist) slots fun n hn => free_of_mem hn

end Passes

/-- What the last loop leaves, from slots the first of which (`done`) it has come to: if it is left by the
`return`, no node is free for a scratchpad, and otherwise all scratchpads have nodes. -/
structure Rested (connected : List GroupNode) (done slots : List Slot) (r : List Slot × Bool) :
    Prop where
  fills : Fills (Free connected) slots r.1
  returned : r.2 = true → freeNodes connected r.1 = [] ∧ ∃ s ∈ r.1, s.1.nodeid = 0
  left : r.2 = false → 0 ∉ uuids connected → (∀ s ∈ done, s.1.nodeid ≠ 0) →
    ∀ s ∈ r.1, s.1.nodeid ≠ 0

theorem forall_mem_concat {P : Slot → Prop} {done : List Slot} (hdone : ∀ t ∈ done, P t) (hs : P s) :
    ∀ t ∈ done ++ [s], P t := by
  intro t ht
  rcases List.mem_append.mp ht with ht | ht
  · exact hdone t ht
  · rw [List.mem_singleton.mp ht]
    exact hs

theorem rested_assignRest (done rest : List Slot) :
    Rested connected done (done ++ rest) (assignRest connected done rest) := by
  induction rest generalizing done with
  | nil =>
    rw [assignRest, List.append_nil]
    constructor
    case fills => exact Relation.ReflTransGen.refl
    case returned => exact fun h => Bool.noConfusion h
    case left => exact fun _ _ hdone => hdone
  | cons s rest ih =>
    rw [assignRest]
    split_ifs with hnil
    · split
      · next hfree =>
        constructor
        case fills => exact Relation.ReflTransGen.refl
        case returned => exact fun _ => ⟨hfree, s, by simp, hnil⟩
        case left => exact fun h => Bool.noConfusion h
      · next n free hfree =>
        have hn : Free connected (done ++ s :: rest) n.uuid :=
          free_of_mem (hfree ▸ List.mem_cons_self)
        have hrest := ih (done ++ [reassign n.uuid s])
        rw [List.append_assoc, List.singleton_append] at hrest
        constructor
        case fills => exact Relation.ReflTransGen.head (Fill.mk hnil hn) hrest.fills
        case returned => exact hrest.returned
        case left =>
          intro hfalse hzero hdone
          apply hrest.left hfalse hzero (forall_mem_concat hdone _)
          exact fun heq => hzero (heq ▸ hn.1)
    · have hrest := ih (done ++ [s])
      rw [List.append_assoc, List.singleton_append] at hrest
      constructor
      case fills => exact hrest.fills
      case returned => exact hrest.returned
      case left =>
        exact fun hfalse hzero hdone => hrest.left hfalse hzero (forall_mem_concat hdone hnil)

/-! ## What filling keeps -/

/-- Scratchpads without a node, and scratchpads with one of the nodes. -/
theorem Fill.mem_uuids (h : Fill (Known connected) slots slots')
    (hslots : ∀ s ∈ slots, s.1.nodeid = 0 ∨ s.1.nodeid ∈ uuids connected) :
    ∀ s ∈ slots', s.1.nodeid = 0 ∨ s.1.nodeid ∈ uuids connected := by
  cases h with
  | @mk pre post s id hnil hid =>
    intro t ht
    rcases List.mem_append.mp ht with ht | ht
    · exact hslots t (by simp [ht])
    rcases List.mem_cons.mp ht with rfl | ht
    · exact Or.inr hid
    · exact hslots t (by simp [ht])

theorem Fill.nodup (h : Fill (Free connected) slots slots') (hslots : (usedIds slots).Nodup) :
    (usedIds slots').Nodup := by
  cases h with
  | @mk pre post s id hnil hid =>
    obtain ⟨-, hunused⟩ := hid
    rw [usedIds_append, usedIds_cons_of_nil hnil] at hslots hunused
    rw [usedIds_append]
    by_cases hzero : id = 0
    · rwa [usedIds_cons_of_nil hzero]
    · rw [usedIds_cons hzero, nodeid_reassign]
      exact List.nodup_middle.mpr (List.nodup_cons.mpr ⟨hunused, hslots⟩)

/-- A step lemma that becomes one about all loops. -/
theorem Fills.keep {P : List Slot → Prop} (hstep : ∀ slots slots', Fill allowed slots slots' →
    P slots → P slots') (h : Fills allowed slots slots') (hslots : P slots) : P slots' := by
  induction h with
  | refl => exact hslots
  | tail _ hlast ih => exact hstep _ _ hlast ih

theorem Fills.known (h : Fills (Free connected) slots slots') :
    Fills (Known connected) slots slots' := by
  have hstep : ∀ u v, Fill (Free connected) u v → Fill (Known connected) u v := by
    intro u v huv
    cases huv with
    | mk hnil hid => exact Fill.mk hnil hid.known
  exact Relation.ReflTransGen.mono hstep _ _ h

/-! ## The whole assignment -/

section Assignment

variable {pads : List Scratchpad}

/-- The slots after the first loop. -/
def cleared (connected : List GroupNode) (pads : List Scratchpad) : List Slot :=
  pads.map fun s => clearSlot connected (s, false)

theorem fills_known_assignMatching :
    Fills (Known connected) (cleared connected pads) (assignMatching connected pads) :=
  ((fills_known_assign _).trans (fills_known_assign _)).trans (fills_known_assign _)

theorem fills_assignMatching (hnodup : (uuids connected).Nodup) :
    Fills (Free connected) (cleared connected pads) (assignMatching connected pads) :=
  ((fills_assign _ hnodup).trans (fills_assign _ hnodup)).trans (fills_assign _ hnodup)

/-- The slots after all loops, and whether the last one was left by the `return`. -/
def assigned (connected : List GroupNode) (pads : List Scratchpad) : List Slot × Bool :=
  assignRest connected [] (assignMatching connected pads)

theorem rested_assigned (connected : List GroupNode) (pads : List Scratchpad) :
    Rested connected [] (assignMatching connected pads) (assigned connected pads) :=
  rested_assignRest [] (assignMatching connected pads)

theorem mem_uuids_cleared :
    ∀ s ∈ cleared connected pads, s.1.nodeid = 0 ∨ s.1.nodeid ∈ uuids connected := by
  intro t ht
  obtain ⟨s, hs, rfl⟩ := List.mem_map.mp ht
  unfold clearSlot
  split_ifs with h
  · exact Or.inr h
  · exact Or.inl rfl

/-- The nodes of the scratchpads, without nil. -/
def nodeids (pads : List Scratchpad) : List Nat :=
  (pads.map (·.nodeid)).filter fun id => !(id = 0)

theorem usedIds_eq (slots : List Slot) : usedIds slots = nodeids (slots.map (·.1)) := by
  rw [usedIds, nodeids, List.map_map]
  rfl

theorem nodeids_append (pads pads' : List Scratchpad) :
    nodeids (pads ++ pads') = nodeids pads ++ nodeids pads' := by
  simp [nodeids]

/-- The first loop only takes nodes away. -/
theorem usedIds_cleared_sublist : (usedIds (cleared connected pads)).Sublist (nodeids pads) := by
  induction pads with
  | nil => exact List.Sublist.refl _
  | cons s pads ih =>
    have hcons := nodeids_append [s] pads
    rw [List.singleton_append] at hcons
    unfold cleared at ih ⊢
    rw [List.map_cons, hcons]
    unfold clearSlot
    split_ifs with h
    · by_cases hnil : s.nodeid = 0
      · rw [usedIds_cons_of_nil hnil]
        exact ih.trans (List.sublist_append_right _ _)
      · have hone : nodeids [s] = [s.nodeid] := by simp [nodeids, hnil]
        rw [usedIds_cons hnil, hone]
        exact ih.cons_cons _
    · rw [usedIds_cons_of_nil rfl]
      exact ih.trans (List.sublist_append_right _ _)

/-- Every scratchpad after the assignment has no node or one of the nodes. -/
theorem mem_uuids_assigned :
    ∀ s ∈ (assigned connected pads).1,
      s.1.nodeid = 0 ∨ s.1.nodeid ∈ uuids connected := by
  have hfills := fills_known_assignMatching.trans (rested_assigned connected pads).fills.known
  exact Fills.keep (fun _ _ hfill => hfill.mem_uuids) hfills mem_uuids_cleared

theorem nodup_assigned (hnodup : (uuids connected).Nodup) (hpads : (nodeids pads).Nodup) :
    (usedIds (assigned connected pads).1).Nodup := by
  have hfills := (fills_assignMatching hnodup).trans (rested_assigned connected pads).fills
  exact Fills.keep (fun _ _ hfill => hfill.nodup) hfills (hpads.sublist usedIds_cleared_sublist)

end Assignment

end ScratchpadAssignment

open ScratchpadAssignment ScratchpadGroup

/-- No two scratchpads have the same node. -/
def MatchedScratchpads (pads : List Scratchpad) : Prop :=
  pads.Pairwise fun s t => s.nodeid ≠ 0 → t.nodeid ≠ 0 → s.nodeid ≠ t.nodeid

/-- The scratchpads have connected nodes only, and if one has no node, no connected node is left. -/
structure AssignedScratchpads (g : ScratchpadGroup) : Prop where
  known : ∀ s ∈ g.scratchpads, s.nodeid ≠ 0 → ∃ n ∈ connectedNodes g.nodes, n.uuid = s.nodeid
  complete : (∃ s ∈ g.scratchpads, s.nodeid = 0) →
    ∀ n ∈ connectedNodes g.nodes, ∃ s ∈ g.scratchpads, s.nodeid = n.uuid

/-- The uuids of the connected nodes are different and not nil. -/
structure LiveNodes (nodes : List GroupNode) : Prop where
  nodup : ((connectedNodes nodes).map (·.uuid)).Nodup
  not_nil : 0 ∉ (connectedNodes nodes).map (·.uuid)

/-- `assign_scratchpads` is called. -/
def Assigns : ScratchpadGroup.Event → Prop
  | .assignScratchpads | .loadCode .aesl (some _) => True
  | _ => False

namespace ScratchpadAssignment

theorem matched_iff {pads : List Scratchpad} : MatchedScratchpads pads ↔ (nodeids pads).Nodup := by
  simp [MatchedScratchpads, nodeids, List.Nodup, List.pairwise_filter, List.pairwise_map]

variable {g : ScratchpadGroup}

theorem assigned_assignScratchpads (hlive : LiveNodes g.nodes) :
    AssignedScratchpads g.assignScratchpads := by
  have hrest := rested_assigned (connectedNodes g.nodes) g.scratchpads
  constructor
  case known =>
    intro s hs hne
    obtain ⟨t, ht, rfl⟩ := List.mem_map.mp hs
    exact List.mem_map.mp ((mem_uuids_assigned t ht).resolve_left hne)
  case complete =>
    rintro ⟨s, hs, hnil⟩ n (hn : n ∈ connectedNodes g.nodes)
    obtain ⟨t, ht, rfl⟩ := List.mem_map.mp hs
    cases hreturned : (assigned (connectedNodes g.nodes) g.scratchpads).2 with
    | false => exact absurd hnil (hrest.left hreturned hlive.not_nil (by simp) t ht)
    | true =>
      -- no node is free, so this one is in use
      have hused : n.uuid ∈ usedIds (assigned (connectedNodes g.nodes) g.scratchpads).1 := by
        by_contra hunused
        have hfree := mem_freeNodes.mpr ⟨hn, hunused⟩
        rw [(hrest.returned hreturned).1] at hfree
        cases hfree
      obtain ⟨-, u, hu, huuid⟩ := mem_usedIds.mp hused
      exact ⟨u.1, List.mem_map_of_mem hu, huuid⟩

theorem matched_assignScratchpads (hlive : LiveNodes g.nodes)
    (hmatched : MatchedScratchpads g.scratchpads) :
    MatchedScratchpads g.assignScratchpads.scratchpads := by
  rw [matched_iff] at hmatched ⊢
  have hnodup := nodup_assigned hlive.nodup hmatched
  rw [usedIds_eq] at hnodup
  exact hnodup

/-! ## The other steps -/

/-- A function that changes no node leaves the nodes. -/
theorem nodeids_modify (pads : List Scratchpad) (i : Nat) {f : Scratchpad → Scratchpad}
    (hf : ∀ s, (f s).nodeid = s.nodeid) : nodeids (pads.modify i f) = nodeids pads := by
  have hmap : (pads.modify i f).map (·.nodeid) = pads.map (·.nodeid) := by
    apply List.ext_getElem?
    intro j
    rw [List.getElem?_map, List.getElem?_map, List.getElem?_modify]
    cases pads[j]? with
    | none => rfl
    | some s =>
      by_cases hij : i = j
      · simp [hij, hf]
      · simp [hij]
  rw [nodeids, hmap]
  rfl

theorem nodeids_setText (g : ScratchpadGroup) (i : Nat) (text : String)
    (language : ProgrammingLanguage) :
    nodeids (g.setText i text language).scratchpads = nodeids g.scratchpads :=
  nodeids_modify _ _ fun _ => rfl

theorem findOrCreate_cases (g : ScratchpadGroup) (p : Scratchpad → Bool)
    (f : Scratchpad → Scratchpad) :
    (g.findOrCreate p f).1 = g ∨
      (∀ s ∈ g.scratchpads, p s = false) ∧ (g.findOrCreate p f).1 = g.createScratchpad f := by
  unfold findOrCreate
  cases h : g.scratchpads.findIdx? p with
  | some i => exact Or.inl rfl
  | none => exact Or.inr ⟨List.findIdx?_eq_none_iff.mp h, rfl⟩

theorem nodeids_loadNode (g : ScratchpadGroup) (node : NodeInfo) :
    nodeids (g.loadNode node).scratchpads = nodeids g.scratchpads ∧
      (g.loadNode node).nodes = g.nodes := by
  have hfind : ∀ preferred name id,
      nodeids (g.findOrCreateScratchPad preferred name id).1.scratchpads = nodeids g.scratchpads ∧
        (g.findOrCreateScratchPad preferred name id).1.nodes = g.nodes := by
    intro preferred name id
    unfold findOrCreateScratchPad
    generalize hf : (fun s : Scratchpad => { s with
      preferredNodeId := preferred.getD s.preferredNodeId
      name := name.getD s.name
      asebaId := id.getD s.asebaId }) = f
    rcases findOrCreate_cases g _ f with h | ⟨-, h⟩
    · rw [h]
      exact ⟨rfl, rfl⟩
    · rw [h, ← hf]
      simp [createScratchpad, nodeids]
  unfold loadNode
  cases node.id with
  | monostate => exact ⟨(nodeids_setText ..).trans (hfind ..).1, (hfind ..).2⟩
  | asebaId id => exact ⟨(nodeids_setText ..).trans (hfind ..).1, (hfind ..).2⟩
  | nodeId id => exact ⟨(nodeids_setText ..).trans (hfind ..).1, (hfind ..).2⟩

theorem nodeids_foldl_loadNode (nodes : List NodeInfo) (g : ScratchpadGroup) :
    nodeids (nodes.foldl loadNode g).scratchpads = nodeids g.scratchpads ∧
      (nodes.foldl loadNode g).nodes = g.nodes := by
  induction nodes generalizing g with
  | nil => exact ⟨rfl, rfl⟩
  | cons node nodes ih =>
    obtain ⟨hids, hnodes⟩ := nodeids_loadNode g node
    obtain ⟨hids', hnodes'⟩ := ih (g.loadNode node)
    exact ⟨hids'.trans hids, hnodes'.trans hnodes⟩

/-- A new scratchpad for a node is made only where no other one has the node. -/
theorem matched_setNodeScratchpad (id : Nat) (content : String) (language : ProgrammingLanguage)
    (h : MatchedScratchpads g.scratchpads) :
    MatchedScratchpads (g.setNodeScratchpad id content language).scratchpads := by
  rw [matched_iff] at h ⊢
  change (nodeids (setText _ _ content language).scratchpads).Nodup
  rw [nodeids_setText]
  rcases findOrCreate_cases g (fun s => s.nodeid = id) (fun s => { s with nodeid := id }) with
    hfound | ⟨hnone, hnew⟩
  · change (nodeids (g.findOrCreate _ _).1.scratchpads).Nodup
    rw [hfound]
    exact h
  · change (nodeids (g.findOrCreate _ _).1.scratchpads).Nodup
    rw [hnew]
    change (nodeids (g.scratchpads ++ [_])).Nodup
    rw [nodeids_append, List.nodup_append]
    refine ⟨h, ?_, ?_⟩
    · unfold nodeids
      exact (List.nodup_singleton _).filter _
    · intro i hi j hj
      have hj' : j = id := by
        have hmem := List.mem_of_mem_filter hj
        simpa using hmem
      obtain ⟨s, hs, rfl⟩ := List.mem_map.mp (List.mem_of_mem_filter hi)
      have hne := hnone s hs
      rw [hj']
      simpa using hne

theorem nodes_setNodeScratchpad (id : Nat) (content : String) (language : ProgrammingLanguage) :
    (g.setNodeScratchpad id content language).nodes = g.nodes := by
  rcases findOrCreate_cases g (fun s => s.nodeid = id) (fun s => { s with nodeid := id }) with
    hfound | ⟨-, hnew⟩
  · change (g.findOrCreate _ _).1.nodes = _
    rw [hfound]
  · change (g.findOrCreate _ _).1.nodes = _
    rw [hnew]
    rfl

theorem matched_nil : MatchedScratchpads [] := List.Pairwise.nil

theorem liveNodes_nil : LiveNodes [] := ⟨List.nodup_nil, List.not_mem_nil⟩

/-- What `load_code` has when it assigns the scratchpads. -/
theorem exists_loaded (g : ScratchpadGroup) (nodes : List NodeInfo) :
    ∃ g' : ScratchpadGroup, g.loadCode .aesl (some nodes) = g'.assignScratchpads ∧
      g'.nodes = g.nodes ∧ MatchedScratchpads g'.scratchpads := by
  refine ⟨_, rfl, ?_, ?_⟩
  · exact (nodeids_foldl_loadNode nodes _).2
  · rw [matched_iff, (nodeids_foldl_loadNode nodes _).1]
    exact List.nodup_nil

/-- The group that a step of this kind leaves the assignment to. -/
theorem exists_assigned {e : Event} (he : Assigns e) (g : ScratchpadGroup) :
    ∃ g' : ScratchpadGroup, g.step e = g'.assignScratchpads ∧ g'.nodes = g.nodes := by
  cases e with
  | assignScratchpads => exact ⟨g, rfl, rfl⟩
  | loadCode language nodes? =>
    match language, nodes?, he with
    | .aesl, some nodes, _ =>
      obtain ⟨g', hload, hnodes, -⟩ := exists_loaded g nodes
      exact ⟨g', hload, hnodes⟩
  | setNodeScratchpad id content language => exact he.elim
  | nodesChange nodes => exact he.elim

theorem matched_step {e : Event} (hlive : LiveNodes g.nodes)
    (he : ∀ nodes, e = .nodesChange nodes → LiveNodes nodes)
    (hmatched : MatchedScratchpads g.scratchpads) :
    LiveNodes (g.step e).nodes ∧ MatchedScratchpads (g.step e).scratchpads := by
  cases e with
  | setNodeScratchpad id content language =>
    refine ⟨?_, matched_setNodeScratchpad id content language hmatched⟩
    rw [step, nodes_setNodeScratchpad]
    exact hlive
  | loadCode language nodes? =>
    match language, nodes? with
    | .aesl, some nodes =>
      obtain ⟨g', hload, hnodes, hmatched'⟩ := exists_loaded g nodes
      rw [step, hload]
      rw [← hnodes] at hlive
      exact ⟨hlive, matched_assignScratchpads hlive hmatched'⟩
    | .aesl, none => exact ⟨hlive, hmatched⟩
    | .aseba, _ => exact ⟨hlive, hmatched⟩
  | nodesChange nodes => exact ⟨he nodes rfl, hmatched⟩
  | assignScratchpads => exact ⟨hlive, matched_assignScratchpads hlive hmatched⟩

theorem matched_run {events : List Event}
    (hevents : ∀ nodes, .nodesChange nodes ∈ events → LiveNodes nodes) :
    LiveNodes (run events).nodes ∧ MatchedScratchpads (run events).scratchpads := by
  suffices hfoldl : ∀ g : ScratchpadGroup, LiveNodes g.nodes → MatchedScratchpads g.scratchpads →
      LiveNodes (events.foldl step g).nodes ∧ MatchedScratchpads (events.foldl step g).scratchpads from
    hfoldl {} liveNodes_nil matched_nil
  induction events with
  | nil => exact fun g hlive hmatched => ⟨hlive, hmatched⟩
  | cons e events ih =>
    intro g hlive hmatched
    obtain ⟨hlive', hmatched'⟩ := matched_step (e := e) hlive
      (fun nodes h => hevents nodes (h ▸ List.mem_cons_self)) hmatched
    exact ih (fun nodes h => hevents nodes (List.mem_cons_of_mem _ h)) _ hlive' hmatched'

end ScratchpadAssignment

/-- In every run no two scratchpads have the same node. When the scratchpads have just been
assigned, they have connected nodes only, and as many as there are. -/
theorem scratchpads_matched (events : List ScratchpadGroup.Event)
    (hlive : ∀ nodes, .nodesChange nodes ∈ events → LiveNodes nodes) :
    MatchedScratchpads (run events).scratchpads ∧
      ∀ e, events.getLast? = some e → Assigns e → AssignedScratchpads (run events) := by
  refine ⟨(matched_run hlive).2, fun e hlast he => ?_⟩
  obtain ⟨before, rfl⟩ := List.getLast?_eq_some_iff.mp hlast
  have hbefore := (matched_run fun nodes h => hlive nodes (List.mem_append_left _ h)).1
  obtain ⟨g, hstep, hnodes⟩ := exists_assigned he (run before)
  have hrun : run (before ++ [e]) = g.assignScratchpads := by
    rw [run, List.foldl_append]
    exact hstep
  rw [hrun]
  exact assigned_assignScratchpads (hnodes ▸ hbefore)

/-- Three scratchpads for two robots, one of which goes away. -/
def classroomEvents : List ScratchpadGroup.Event :=
  [.nodesChange [⟨1, .available, 10, "left"⟩, ⟨2, .ready, 20, "right"⟩],
    .setNodeScratchpad 1 "onevent" .aseba,
    .loadCode .aesl (some [⟨some "right", .monostate, "var x"⟩, ⟨none, .asebaId 10, "var y"⟩,
      ⟨some "middle", .nodeId 3, "var z"⟩]),
    .nodesChange [⟨1, .disconnected, 10, "left"⟩, ⟨2, .ready, 20, "right"⟩],
    .assignScratchpads]

theorem classroom_matched :
    MatchedScratchpads (run classroomEvents).scratchpads ∧
      ∀ e, classroomEvents.getLast? = some e → Assigns e → AssignedScratchpads (run classroomEvents) := by
  refine scratchpads_matched classroomEvents fun nodes h => ?_
  simp only [classroomEvents, List.mem_cons, Event.nodesChange.injEq, reduceCtorEq, List.not_mem_nil,
    or_false, false_or] at h
  rcases h with rfl | rfl
  · exact ⟨by decide, by decide⟩
  · exact ⟨by decide, by decide⟩

end ThymioDeviceManager.Correctness
