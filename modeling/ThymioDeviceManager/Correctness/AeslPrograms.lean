import ThymioDeviceManager.Library.Traverse
import ThymioDeviceManager.Manager.AeslFiles
import ThymioDeviceManager.Correctness.ScratchpadAssignment

/-! # The programs of aesl files

`load_code` looks for a scratchpad for every node of a file, by its id or by its name, among those
it has just made for the nodes before it. A node that finds one takes it over: there is no
scratchpad for the other node any more. Names that are not there are equal, and the number that
scratchpads have without an aseba id is an aseba id too.
-/

namespace ThymioDeviceManager.Correctness

open Library Manager Manager.Scratchpads

namespace AeslPrograms

open ScratchpadAssignment ScratchpadGroup

variable {reader : TextReader} {e m : AeslNode} {s : Scratchpad} {g : ScratchpadGroup}

/-- The id of a node, which is of no kind if it has none. -/
def idOf (reader : TextReader) (e : AeslNode) : NodeInfoId :=
  AeslDocument.parseNodeId reader (e.nodeId.getD "")

def nameOf (e : AeslNode) : String := e.name.getD ""

/-- What an accepted node is parsed to. -/
def infoOf (reader : TextReader) (e : AeslNode) : NodeInfo :=
  { name := some (nameOf e), id := idOf reader e, code := e.text.getD "" }

/-! ## Accepted documents -/

theorem parseNode_eq_ok {n : NodeInfo} (h : AeslDocument.parseNode reader e = .ok n) :
    n = infoOf reader e := by
  obtain ⟨name, nodeId, text⟩ := e
  cases text with
  | none => cases h
  | some code =>
    unfold AeslDocument.parseNode at h
    dsimp only at h
    split_ifs at h
    cases h
    rfl

theorem parseNodes_eq_ok {doc : AeslDocument} {nodes : List NodeInfo}
    (h : doc.parseNodes reader = .ok nodes) : nodes = doc.nodes.map (infoOf reader) := by
  have hall := Traverse.forall₂_of_mapM h
  clear h
  generalize doc.nodes = elements at hall
  induction hall with
  | nil => rfl
  | cons hn _ ih => rw [List.map_cons, ← ih, parseNode_eq_ok hn]

theorem idOf_ne_nil : idOf reader e ≠ .nodeId 0 := by
  unfold idOf AeslDocument.parseNodeId
  split
  · next uuid _ =>
    split_ifs with hversion
    · intro hnil
      cases hnil
      rw [reader.nil_version] at hversion
      cases hversion
    · exact fun h => by cases h
  · split
    · split_ifs
      · exact fun h => by cases h
      · exact fun h => by cases h
    · exact fun h => by cases h

/-! ## Scratchpads of nodes -/

/-- The uuid in the id of a node. -/
def preferredOf : NodeInfoId → Nat
  | .nodeId id => id
  | _ => 0

/-- The aseba id in the id of a node. -/
def asebaOf : NodeInfoId → UInt16
  | .asebaId id => id
  | _ => -1

/-- The scratchpad that is made for a node. -/
structure Exact (reader : TextReader) (e : AeslNode) (s : Scratchpad) : Prop where
  nodeid : s.nodeid = 0
  preferred : s.preferredNodeId = preferredOf (idOf reader e)
  aseba : s.asebaId = asebaOf (idOf reader e)
  name : s.name = nameOf e
  text : s.text = e.text.getD ""

/-- What `load_code` asks of the scratchpads for a node. -/
def foundFor (id : NodeInfoId) (name : String) (s : Scratchpad) : Bool :=
  match id with
  | .monostate => s.name = name
  | .asebaId id => s.asebaId = id || s.name = name
  | .nodeId id => s.nodeid = id || s.preferredNodeId = id || s.name = name

/-- A scratchpad is found, and stays one of as many, or a new one follows the others. -/
theorem findOrCreate_setText (g : ScratchpadGroup) (p : Scratchpad → Bool)
    (f : Scratchpad → Scratchpad) (text : String) (language : ProgrammingLanguage) :
    (∃ t ∈ g.scratchpads, p t) ∧ ((g.findOrCreate p f).1.setText (g.findOrCreate p f).2 text
        language).scratchpads.length = g.scratchpads.length ∨
      (∀ t ∈ g.scratchpads, ¬ p t) ∧ ((g.findOrCreate p f).1.setText (g.findOrCreate p f).2 text
        language).scratchpads = g.scratchpads ++
          [{ f { scratchpadId := g.generated } with text, language := some language }] := by
  unfold findOrCreate
  cases h : g.scratchpads.findIdx? p with
  | some i =>
    obtain ⟨hi, hp, -⟩ := List.findIdx?_eq_some_iff_getElem.mp h
    exact Or.inl ⟨⟨_, List.getElem_mem hi, hp⟩, List.length_modify _ _ _⟩
  | none =>
    refine Or.inr ⟨fun t ht => ?_, ?_⟩
    · simpa using List.findIdx?_eq_none_iff.mp h t ht
    · unfold setText createScratchpad
      dsimp only
      rw [List.modify_eq_take_drop]
      simp

theorem loadNode_cases (reader : TextReader) (g : ScratchpadGroup) (e : AeslNode) :
    (∃ t ∈ g.scratchpads, foundFor (idOf reader e) (nameOf e) t) ∧
        (g.loadNode (infoOf reader e)).scratchpads.length = g.scratchpads.length ∨
      (∀ t ∈ g.scratchpads, ¬ foundFor (idOf reader e) (nameOf e) t) ∧
        ∃ t, Exact reader e t ∧
          (g.loadNode (infoOf reader e)).scratchpads = g.scratchpads ++ [t] := by
  have hpad : ∀ preferred id (p : Scratchpad → Bool),
      (∀ s : Scratchpad, (preferred.any (fun i => s.nodeid = i) ||
        preferred.any (fun i => s.preferredNodeId = i) || id.any (fun i => s.asebaId = i) ||
        (some (nameOf e)).any (fun name => s.name = name)) = p s) →
      let r := g.findOrCreateScratchPad preferred (some (nameOf e)) id
      (∃ t ∈ g.scratchpads, p t) ∧ (r.1.setText r.2 (e.text.getD "") .aesl).scratchpads.length =
          g.scratchpads.length ∨
        (∀ t ∈ g.scratchpads, ¬ p t) ∧ (r.1.setText r.2 (e.text.getD "") .aesl).scratchpads =
          g.scratchpads ++ [{
            scratchpadId := g.generated
            language := some .aesl
            preferredNodeId := preferred.getD 0
            name := nameOf e
            asebaId := id.getD (-1)
            text := e.text.getD "" }] := by
    intro preferred id p hp
    obtain rfl := funext hp
    exact findOrCreate_setText g _ _ (e.text.getD "") .aesl
  unfold loadNode infoOf
  dsimp only
  cases hid : idOf reader e with
  | monostate =>
    refine (hpad none none (foundFor .monostate (nameOf e)) fun s => by simp [foundFor]).imp_right ?_
    exact fun h => ⟨h.1, _, ⟨rfl, by rw [hid]; rfl, by rw [hid]; rfl, rfl, rfl⟩, h.2⟩
  | asebaId id =>
    refine (hpad none (some id) (foundFor (.asebaId id) (nameOf e)) fun s => by
      simp [foundFor]).imp_right ?_
    exact fun h => ⟨h.1, _, ⟨rfl, by rw [hid]; rfl, by rw [hid]; rfl, rfl, rfl⟩, h.2⟩
  | nodeId id =>
    refine (hpad (some id) none (foundFor (.nodeId id) (nameOf e)) fun s => by
      simp [foundFor]).imp_right ?_
    exact fun h => ⟨h.1, _, ⟨rfl, by rw [hid]; rfl, by rw [hid]; rfl, rfl, rfl⟩, h.2⟩

/-! ## Nodes that share a scratchpad -/

/-- The nodes have other names, and an id that scratchpads have without an aseba id does not come
behind a node without one. -/
def Apart (reader : TextReader) (m e : AeslNode) : Prop :=
  nameOf m ≠ nameOf e ∧ (idOf reader e = .asebaId (-1) → ∃ id, idOf reader m = .asebaId id)

/-- Ids that are there are different. -/
def DistinctIds (reader : TextReader) (nodes : List AeslNode) : Prop :=
  nodes.Pairwise fun m e => idOf reader m = idOf reader e → idOf reader e = .monostate

theorem foundFor_iff (hs : Exact reader m s)
    (hids : idOf reader m = idOf reader e → idOf reader e = .monostate) :
    foundFor (idOf reader e) (nameOf e) s ↔ ¬ Apart reader m e := by
  unfold Apart
  rw [not_and_or, not_not]
  cases hid : idOf reader e with
  | monostate => simp [foundFor, hs.name]
  | nodeId id =>
    have hne : id ≠ 0 := by
      rintro rfl
      exact idOf_ne_nil hid
    have hpreferred : s.preferredNodeId ≠ id := by
      rw [hs.preferred]
      rw [hid] at hids
      cases hm : idOf reader m with
      | monostate => exact hne.symm
      | asebaId _ => exact hne.symm
      | nodeId i =>
        rintro rfl
        cases hids hm
    simp [foundFor, hs.nodeid, hs.name, hne.symm, hpreferred]
  | asebaId id =>
    rw [hid] at hids
    have haseba : s.asebaId = id ↔ id = -1 ∧ ¬ ∃ id, idOf reader m = .asebaId id := by
      rw [hs.aseba]
      cases hm : idOf reader m with
      | monostate => simp [asebaOf, eq_comm]
      | nodeId _ => simp [asebaOf, eq_comm]
      | asebaId i =>
        have hne : i ≠ id := by
          rintro rfl
          cases hids hm
        simp [asebaOf, hne]
    simp only [foundFor, Bool.or_eq_true, decide_eq_true_eq, haseba, hs.name,
      NodeInfoId.asebaId.injEq]
    tauto

theorem exists_foundFor_iff {nodes : List AeslNode} {pads : List Scratchpad}
    (hexact : List.Forall₂ (Exact reader) nodes pads)
    (hids : ∀ m ∈ nodes, idOf reader m = idOf reader e → idOf reader e = .monostate) :
    (∃ t ∈ pads, foundFor (idOf reader e) (nameOf e) t) ↔ ¬ ∀ m ∈ nodes, Apart reader m e := by
  induction hexact with
  | nil => simp
  | @cons m t nodes pads ht hexact ih =>
    rw [List.forall_mem_cons] at hids
    rw [List.exists_mem_cons_iff, ih hids.2, List.forall_mem_cons, not_and_or,
      foundFor_iff ht hids.1]

/-- The scratchpads of all nodes that come apart, or else fewer than there are nodes. -/
theorem foldl_loadNode (hg : g.scratchpads = []) (nodes : List AeslNode)
    (hids : DistinctIds reader nodes) :
    nodes.Pairwise (Apart reader) ∧ List.Forall₂ (Exact reader) nodes
        ((nodes.map (infoOf reader)).foldl loadNode g).scratchpads ∨
      ¬ nodes.Pairwise (Apart reader) ∧
        ((nodes.map (infoOf reader)).foldl loadNode g).scratchpads.length < nodes.length := by
  induction nodes using List.reverseRecOn with
  | nil => exact Or.inl ⟨List.Pairwise.nil, by rw [List.map_nil, List.foldl_nil, hg]; exact .nil⟩
  | append_singleton nodes e ih =>
    obtain ⟨hids, -, hlast⟩ := List.pairwise_append.mp hids
    replace hlast := fun m hm => hlast m hm e (List.mem_singleton_self e)
    rw [List.map_append, List.foldl_append, List.map_singleton, List.foldl_cons, List.foldl_nil,
      List.length_append, List.length_singleton, List.pairwise_append]
    generalize (nodes.map (infoOf reader)).foldl loadNode g = g' at ih ⊢
    rcases ih hids with ⟨hapart, hexact⟩ | ⟨hnot, hlen⟩
    · have hfound := exists_foundFor_iff hexact hlast
      have hlength := hexact.length_eq
      rcases loadNode_cases reader g' e with ⟨htaken, hsame⟩ | ⟨hnone, t, ht, hnew⟩
      · refine Or.inr ⟨fun h => hfound.mp htaken fun m hm => ?_, by omega⟩
        exact h.2.2 m hm e (List.mem_singleton_self e)
      · have hlast : ∀ m ∈ nodes, Apart reader m e := by
          by_contra hnot
          obtain ⟨s, hs, hmatch⟩ := hfound.mpr hnot
          exact hnone s hs hmatch
        refine Or.inl ⟨⟨hapart, List.pairwise_singleton _ _, fun m hm a ha => ?_⟩, ?_⟩
        · rw [List.mem_singleton.mp ha]
          exact hlast m hm
        · rw [hnew]
          exact List.rel_append hexact (.cons ht .nil)
    · refine Or.inr ⟨fun h => hnot h.1, ?_⟩
      rcases loadNode_cases reader g' e with ⟨-, hsame⟩ | ⟨-, t, -, hnew⟩
      · omega
      · rw [hnew, List.length_append, List.length_singleton]
        omega

/-- A scratchpad without its node. -/
def withoutNode (s : Scratchpad) : Scratchpad := { s with nodeid := 0 }

theorem withoutNode_fill {allowed : List Slot → Nat → Prop} {slots slots' : List Slot}
    (h : Fill allowed slots slots') :
    slots'.map (fun s => withoutNode s.1) = slots.map fun s => withoutNode s.1 := by
  cases h with
  | mk hnil hid =>
    rw [List.map_append, List.map_append, List.map_cons, List.map_cons]
    rfl

/-- The assignment only changes which nodes the scratchpads have. -/
theorem map_withoutNode_assign (g : ScratchpadGroup) :
    g.assignScratchpads.scratchpads.map withoutNode = g.scratchpads.map withoutNode := by
  have hfills := fills_known_assignMatching.trans
    (rested_assigned (connectedNodes g.nodes) g.scratchpads).fills.known
  have hcleared : (cleared (connectedNodes g.nodes) g.scratchpads).map (fun s => withoutNode s.1) =
      g.scratchpads.map withoutNode := by
    rw [cleared, List.map_map]
    apply List.map_congr_left
    intro s _
    rw [Function.comp_apply, clearSlot]
    split_ifs <;> rfl
  have hkeep := Fills.keep (P := fun slots => slots.map (fun s => withoutNode s.1) =
    g.scratchpads.map withoutNode) (fun _ _ hfill hslots => (withoutNode_fill hfill).trans hslots)
    hfills hcleared
  rw [← hkeep]
  change (List.map (fun s : Slot => s.1) _).map withoutNode = _
  rw [List.map_map]
  rfl

end AeslPrograms

open AeslPrograms

/-- The scratchpad has the id, the name and the code of the node. -/
structure KeepsNode (reader : TextReader) (e : AeslNode) (s : Scratchpad) : Prop where
  id : match idOf reader e with
    | .nodeId id => s.preferredNodeId = id
    | .asebaId id => s.asebaId = id
    | .monostate => True
  name : s.name = nameOf e
  code : s.text = e.text.getD ""

/-- There is exactly one scratchpad for each node. -/
def KeepsPrograms (reader : TextReader) (nodes : List AeslNode) (pads : List Scratchpad) : Prop :=
  ∃ pads', pads'.Perm pads ∧ List.Forall₂ (KeepsNode reader) nodes pads'

theorem KeepsNode.congr {reader : TextReader} {e : AeslNode} {s t : Scratchpad}
    (h : KeepsNode reader e s) (hst : withoutNode t = withoutNode s) : KeepsNode reader e t := by
  obtain ⟨⟩ := s
  obtain ⟨⟩ := t
  cases hst
  exact ⟨h.id, h.name, h.code⟩

theorem AeslPrograms.Exact.carries {reader : TextReader} {e : AeslNode} {s : Scratchpad}
    (h : Exact reader e s) : KeepsNode reader e s where
  id := by
    have hpreferred := h.preferred
    have haseba := h.aseba
    cases hid : idOf reader e with
    | monostate => trivial
    | asebaId id => rwa [hid] at haseba
    | nodeId id => rwa [hid] at hpreferred
  name := h.name
  code := h.text

theorem forall₂_carries {reader : TextReader} {nodes : List AeslNode} {pads pads' : List Scratchpad}
    (hexact : List.Forall₂ (Exact reader) nodes pads)
    (hpads : pads'.map withoutNode = pads.map withoutNode) :
    List.Forall₂ (KeepsNode reader) nodes pads' := by
  induction hexact generalizing pads' with
  | nil =>
    rw [List.map_eq_nil_iff.mp hpads]
    exact .nil
  | cons he _ ih =>
    obtain ⟨t, pads', rfl, ht, hrest⟩ := List.map_eq_cons_iff.mp hpads
    exact .cons (he.carries.congr ht) (ih hrest)

theorem pads_loadCode {reader : TextReader} {g : CodeGroup} {doc : AeslDocument}
    (h : (g.loadCode reader .aesl (some doc)).2 = none) :
    (g.loadCode reader .aesl (some doc)).1.pads =
      g.pads.loadCode .aesl (some (doc.nodes.map (infoOf reader))) := by
  unfold CodeGroup.loadCode at h ⊢
  rw [if_neg (by decide)] at h ⊢
  dsimp only at h ⊢
  split at h
  next hnodes => rw [← parseNodes_eq_ok hnodes]
  next => cases h

/-- A file whose nodes have different ids keeps their programs just if no node takes over the
scratchpad of another. A file that is not accepted changes nothing. -/
theorem aesl_programs_kept (reader : TextReader) (g : CodeGroup) :
    (∀ language doc?, (g.loadCode reader language doc?).2 ≠ none →
      (g.loadCode reader language doc?).1 = g) ∧
    ∀ doc, (g.loadCode reader .aesl (some doc)).2 = none → DistinctIds reader doc.nodes →
      (KeepsPrograms reader doc.nodes (g.loadCode reader .aesl (some doc)).1.pads.scratchpads ↔
        doc.nodes.Pairwise (Apart reader)) := by
  constructor
  · intro language doc? hrejected
    unfold CodeGroup.loadCode at hrejected ⊢
    split_ifs at hrejected ⊢
    · rfl
    · cases doc? with
      | none => rfl
      | some doc =>
        dsimp only at hrejected ⊢
        split at hrejected
        · exact absurd rfl hrejected
        · rfl
  · intro doc haccepted hids
    rw [pads_loadCode haccepted]
    -- the group without its scratchpads, which the nodes are loaded into
    generalize hempty : ({ g.pads.announce (g.pads.scratchpads.map fun s =>
      { s with deleted := true }) with scratchpads := [] } : ScratchpadGroup) = empty
    have hpads := map_withoutNode_assign
      ((doc.nodes.map (infoOf reader)).foldl ScratchpadGroup.loadNode empty)
    have hloaded := foldl_loadNode (g := empty) (by rw [← hempty]) doc.nodes hids
    have hlength := congrArg List.length hpads
    rw [List.length_map, List.length_map] at hlength
    subst hempty
    change KeepsPrograms reader doc.nodes
      (ScratchpadGroup.assignScratchpads (List.foldl _ _ _)).scratchpads ↔ _
    rcases hloaded with ⟨hapart, hexact⟩ | ⟨hnot, hfewer⟩
    · exact ⟨fun _ => hapart, fun _ => ⟨_, List.Perm.refl _, forall₂_carries hexact hpads⟩⟩
    · refine ⟨fun hkeeps => ?_, fun h => absurd h hnot⟩
      obtain ⟨pads', hperm, hall⟩ := hkeeps
      have hcount := hall.length_eq.trans hperm.length_eq
      rw [hlength] at hcount
      exact absurd hcount (by omega)

/-- The texts of two numbers are read. -/
def digitReader : TextReader where
  toInt16? _ := none
  toUInt64? _ := none
  uuid? _ := none
  hasVersion _ := false
  nil_version := rfl
  asLlong text := if text = "1" then 1 else if text = "2" then 2 else 0
  toUInt16? v := if 0 ≤ v ∧ v ≤ 65535 then some v.toUInt64.toUInt16 else none

def emptyGroup : CodeGroup := { groups := {}, group := 0, pads := {} }

/-- Two nodes with names. -/
def namedNodes : AeslDocument where
  nodes := [⟨some "left", some "1", some "a = 1"⟩, ⟨some "right", some "2", some "b = 2"⟩]

/-- Two nodes without a name. -/
def unnamedNodes : AeslDocument where
  nodes := [⟨none, some "1", some "a = 1"⟩, ⟨none, some "2", some "b = 2"⟩]

theorem namedNodes_kept :
    KeepsPrograms digitReader namedNodes.nodes
      (emptyGroup.loadCode digitReader .aesl (some namedNodes)).1.pads.scratchpads :=
  ((aesl_programs_kept digitReader emptyGroup).2 namedNodes (by decide)
    (List.pairwise_pair.mpr fun h => absurd h (by decide))).mpr
    (List.pairwise_pair.mpr ⟨by decide, fun h => absurd h (by decide)⟩)

theorem unnamedNodes_not_kept :
    (emptyGroup.loadCode digitReader .aesl (some unnamedNodes)).2 = none ∧
    DistinctIds digitReader unnamedNodes.nodes ∧ ¬ KeepsPrograms digitReader unnamedNodes.nodes
      (emptyGroup.loadCode digitReader .aesl (some unnamedNodes)).1.pads.scratchpads := by
  refine ⟨by decide, List.pairwise_pair.mpr fun h => absurd h (by decide), ?_⟩
  rintro ⟨pads', hperm, hall⟩
  exact absurd (hall.length_eq.trans hperm.length_eq) (by decide)

end ThymioDeviceManager.Correctness
