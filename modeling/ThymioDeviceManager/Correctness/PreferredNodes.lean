import Mathlib.Data.List.TakeWhile
import ThymioDeviceManager.Library.Turns
import ThymioDeviceManager.Correctness.ScratchpadAssignment

/-! # The nodes that scratchpads prefer

`assign_scratchpads` never looks at `preferred_node_id`: the loop that is to match by node id
compares the `nodeid` that has just been found nil. A scratchpad gets the node it prefers by its
aseba id, by its name, or because it is its turn.
-/

namespace ThymioDeviceManager.Correctness

open Library Manager Manager.Scratchpads

namespace PreferredNodes

open ScratchpadAssignment

/-! ## Serving the scratchpads of a list -/

section Serve

variable {α κ : Type} [DecidableEq κ] (f : α → κ) (g : Scratchpad → κ) (uuid : α → Nat)

/-- Every scratchpad without a node gets the first of the nodes that are left with its key. -/
def serve : List α → List Scratchpad → List Scratchpad
  | _, [] => []
  | xs, s :: pads =>
    if s.nodeid = 0 then
      { s with nodeid := ((xs.find? fun x => f x = g s).map uuid).getD 0 } ::
        serve (callKey f xs (g s)) pads
    else s :: serve xs pads

/-- The scratchpads without a node. -/
def waiting (pads : List Scratchpad) : List Scratchpad := pads.filter fun s => s.nodeid = 0

variable {f g uuid} {xs : List α} {pads : List Scratchpad} {p s : Scratchpad} {i : Nat}

theorem waiting_cons_of_nil (h : s.nodeid = 0) : waiting (s :: pads) = s :: waiting pads := by
  simp [waiting, h]

theorem waiting_cons_of_ne (h : s.nodeid ≠ 0) : waiting (s :: pads) = waiting pads := by
  simp [waiting, h]

theorem serve_cons_of_ne (h : s.nodeid ≠ 0) :
    serve f g uuid xs (s :: pads) = s :: serve f g uuid xs pads := by
  rw [serve, if_neg h]

theorem serve_cons_of_nil (h : s.nodeid = 0) : serve f g uuid xs (s :: pads) =
    { s with nodeid := ((xs.find? fun x => f x = g s).map uuid).getD 0 } ::
      serve f g uuid (callKey f xs (g s)) pads := by
  rw [serve, if_pos h]

theorem take_serve : (serve f g uuid xs pads).take i = serve f g uuid xs (pads.take i) := by
  induction pads generalizing xs i with
  | nil => simp [serve]
  | cons s pads ih =>
    cases i with
    | zero => rfl
    | succ i =>
      by_cases h : s.nodeid = 0
      · rw [serve_cons_of_nil h, List.take_succ_cons, List.take_succ_cons, serve_cons_of_nil h, ih]
      · rw [serve_cons_of_ne h, List.take_succ_cons, List.take_succ_cons, serve_cons_of_ne h, ih]

theorem serve_getElem?_of_ne (hp : pads[i]? = some p) (h : p.nodeid ≠ 0) :
    (serve f g uuid xs pads)[i]? = some p := by
  induction pads generalizing xs i with
  | nil => simp at hp
  | cons s pads ih =>
    cases i with
    | zero =>
      cases hp
      rw [serve_cons_of_ne h]
      rfl
    | succ i =>
      rw [List.getElem?_cons_succ] at hp
      by_cases hs : s.nodeid = 0
      · rw [serve_cons_of_nil hs, List.getElem?_cons_succ, ih hp]
      · rw [serve_cons_of_ne hs, List.getElem?_cons_succ, ih hp]

/-- A scratchpad gets the node whose turn it is after the scratchpads before it that have its key. -/
theorem serve_getElem? (hp : pads[i]? = some p) (h : p.nodeid = 0) :
    (serve f g uuid xs pads)[i]? = some { p with
      nodeid := ((turn f xs (g p)
        ((waiting (pads.take i)).countP fun s => g s = g p)).map uuid).getD 0 } := by
  induction pads generalizing xs i with
  | nil => simp at hp
  | cons s pads ih =>
    cases i with
    | zero =>
      cases hp
      rw [serve_cons_of_nil h, ← turn_zero]
      rfl
    | succ i =>
      rw [List.getElem?_cons_succ] at hp
      rw [List.take_succ_cons]
      by_cases hs : s.nodeid = 0
      · rw [serve_cons_of_nil hs, List.getElem?_cons_succ, ih hp, waiting_cons_of_nil hs]
        by_cases hkey : g s = g p
        · rw [List.countP_cons_of_pos (by simpa using hkey), hkey, turn_callKey]
        · rw [List.countP_cons_of_neg (by simpa using hkey), turn_callKey_of_ne _ hkey]
      · rw [serve_cons_of_ne hs, List.getElem?_cons_succ, ih hp, waiting_cons_of_ne hs]

variable (hxs : ∀ x ∈ xs, uuid x ≠ 0)

include hxs

theorem uuid_ne_of_callKey (k : κ) : ∀ x ∈ callKey f xs k, uuid x ≠ 0 :=
  fun x hx => hxs x (List.mem_of_mem_eraseP hx)

/-- The scratchpads that are left take part in the next round. -/
theorem waiting_serve :
    waiting (serve f g uuid xs pads) = leave g (xs.map f) (waiting pads) := by
  induction pads generalizing xs with
  | nil => rfl
  | cons s pads ih =>
    by_cases hs : s.nodeid = 0
    · have hrest := ih (uuid_ne_of_callKey (f := f) hxs (g s))
      rw [map_callKey] at hrest
      rw [serve_cons_of_nil hs, waiting_cons_of_nil hs, leave]
      cases hfind : xs.find? fun x => f x = g s with
      | none =>
        have hnot := (find?_eq_none_iff_map f xs (g s)).mp hfind
        rw [if_neg hnot, waiting_cons_of_nil rfl, hrest, List.erase_of_not_mem hnot]
        congr 1
        cases s
        cases hs
        rfl
      | some x =>
        have hne : uuid x ≠ 0 := hxs x (List.mem_of_find?_eq_some hfind)
        have hmem : g s ∈ xs.map f := by
          by_contra hnot
          rw [(find?_eq_none_iff_map f xs (g s)).mpr hnot] at hfind
          cases hfind
        rw [if_pos hmem, waiting_cons_of_ne (by simpa using hne), hrest]
    · rw [serve_cons_of_ne hs, waiting_cons_of_ne hs, waiting_cons_of_ne hs, ih hxs]

/-- The nodes that scratchpads have afterwards. -/
theorem mem_nodeids_serve (id : Nat) : id ∈ nodeids (serve f g uuid xs pads) ↔
    id ∈ nodeids pads ∨ id ∈ (taken f ((waiting pads).map g) xs).map uuid := by
  induction pads generalizing xs with
  | nil =>
    have hnone : taken f [] xs = [] := by
      clear hxs
      induction xs with
      | nil => rfl
      | cons x xs ih => simpa [taken] using ih
    simp [serve, nodeids, waiting, hnone]
  | cons s pads ih =>
    have hsplit : ∀ t : Scratchpad, ∀ l, id ∈ nodeids (t :: l) ↔
        (id ≠ 0 ∧ t.nodeid = id) ∨ id ∈ nodeids l := by
      intro t l
      simp only [nodeids, List.map_cons, List.filter_cons]
      split_ifs with ht
      · rw [List.mem_cons]
        grind
      · grind
    by_cases hs : s.nodeid = 0
    · have hrest := ih (uuid_ne_of_callKey (f := f) hxs (g s))
      rw [serve_cons_of_nil hs, waiting_cons_of_nil hs, hsplit, hsplit, hrest, List.map_cons]
      cases hfind : xs.find? fun x => f x = g s with
      | none =>
        have hnot := (find?_eq_none_iff_map f xs (g s)).mp hfind
        rw [taken_cons_of_not_mem f _ hnot, callKey_of_not_mem f hnot]
        simp [hs, or_assoc]
      | some x =>
        have hne : uuid x ≠ 0 := hxs x (List.mem_of_find?_eq_some hfind)
        simp only [List.mem_map, mem_taken_cons f _ hfind]
        grind
    · rw [serve_cons_of_ne hs, waiting_cons_of_ne hs, hsplit, hsplit, ih hxs, or_assoc]

end Serve

/-! ## The loops -/

section Loops

variable {connected : List GroupNode} {slots : List Slot}

theorem serve_nil {α κ : Type} [DecidableEq κ] {f : α → κ} {g : Scratchpad → κ} {uuid : α → Nat}
    (pads : List Scratchpad) : serve f g uuid [] pads = pads := by
  induction pads with
  | nil => rfl
  | cons s pads ih =>
    by_cases hs : s.nodeid = 0
    · have hcall : callKey f [] (g s) = [] := rfl
      rw [serve_cons_of_nil hs, hcall, ih]
      congr 1
      cases s
      cases hs
      rfl
    · rw [serve_cons_of_ne hs, ih]

/-- A node without uuid is given to nobody. -/
theorem map_assignFirst_zero (p : Scratchpad → Bool) :
    (assignFirst p 0 slots).map (·.1) = slots.map (·.1) := by
  induction slots with
  | nil => rfl
  | cons s slots ih =>
    rw [assignFirst]
    split_ifs with h
    · have hnil : s.1.nodeid = 0 := by simpa using (Bool.and_eq_true_iff.mp h).1
      rw [List.map_cons, List.map_cons]
      congr 1
      obtain ⟨⟨⟩, b⟩ := s
      cases hnil
      rfl
    · rw [List.map_cons, List.map_cons, ih]

section Pass

variable {κ : Type} [DecidableEq κ] (f : GroupNode → κ) (g : Scratchpad → κ)

/-- A node that is given away first is the first one of those that are given away. -/
theorem serve_assignFirst {n : GroupNode} (hn : n.uuid ≠ 0) (xs : List GroupNode) :
    serve f g GroupNode.uuid xs ((assignFirst (fun s => g s = f n) n.uuid slots).map (·.1)) =
      serve f g GroupNode.uuid (n :: xs) (slots.map (·.1)) := by
  induction slots generalizing xs with
  | nil => rfl
  | cons s slots ih =>
    rw [assignFirst, List.map_cons]
    by_cases hs : s.1.nodeid = 0
    · rw [serve_cons_of_nil hs]
      by_cases hkey : g s.1 = f n
      · have hcall : callKey f (n :: xs) (g s.1) = xs := by simp [callKey, hkey]
        rw [if_pos (by simp [hs, hkey]), hcall, List.map_cons, serve_cons_of_ne (by exact hn),
          List.find?_cons_of_pos (by simp [hkey])]
        rfl
      · have hcall : callKey f (n :: xs) (g s.1) = n :: callKey f xs (g s.1) := by
          simp [callKey, Ne.symm hkey]
        rw [if_neg (by simp [hs, hkey]), hcall, List.map_cons, serve_cons_of_nil hs, ih,
          List.find?_cons_of_neg (by simpa using Ne.symm hkey)]
    · rw [if_neg (by simp [hs]), serve_cons_of_ne hs, List.map_cons, serve_cons_of_ne hs, ih]

theorem map_assign : (assign (fun n s => g s = f n) connected slots).map (·.1) =
    serve f g GroupNode.uuid ((freeNodes connected slots).filter fun n => n.uuid ≠ 0)
      (slots.map (·.1)) := by
  unfold assign
  generalize freeNodes connected slots = free
  induction free generalizing slots with
  | nil => exact (serve_nil _).symm
  | cons n free ih =>
    rw [List.foldl_cons, ih]
    by_cases hn : n.uuid = 0
    · rw [hn, map_assignFirst_zero, List.filter_cons_of_neg (by simpa using hn)]
    · rw [serve_assignFirst f g hn, List.filter_cons_of_pos (by simpa using hn)]

end Pass

/-- The first of the loops that match gives nobody a node: it looks for a node without uuid. -/
theorem map_assign_nodeid :
    (assign (fun n s => s.nodeid = n.uuid) connected slots).map (·.1) = slots.map (·.1) := by
  unfold assign
  generalize freeNodes connected slots = free
  induction free generalizing slots with
  | nil => rfl
  | cons n free ih =>
    rw [List.foldl_cons, ih]
    by_cases hn : n.uuid = 0
    · rw [hn, map_assignFirst_zero]
    · suffices hnone : assignFirst (fun s => s.nodeid = n.uuid) n.uuid slots = slots by rw [hnone]
      clear ih
      induction slots with
      | nil => rfl
      | cons s slots ih =>
        rw [assignFirst, if_neg, ih]
        simp only [Bool.and_eq_true, decide_eq_true_eq, not_and]
        exact fun hs heq => hn (heq ▸ hs)

/-- The uuids that the last loop gives away, in turn: it stops at a node without uuid. -/
def inTurn (ids : List Nat) : List Nat := (ids.takeWhile fun id => id ≠ 0).eraseDups

/-- What is filtered before the first nil is what is filtered if nil stays. -/
theorem takeWhile_filter_of_zero {keep : Nat → Bool} (hkeep : keep 0 = true) (ids : List Nat) :
    (ids.filter keep).takeWhile (fun i => i ≠ 0) = (ids.takeWhile fun i => i ≠ 0).filter keep := by
  induction ids with
  | nil => rfl
  | cons i ids ih =>
    by_cases hi : i = 0
    · subst hi
      simp [hkeep]
    · cases hcase : keep i with
      | true => simpa [hi, hcase] using ih
      | false => simpa [hi, hcase] using ih

theorem inTurn_cons {id : Nat} (hid : id ≠ 0) (ids : List Nat) :
    inTurn (id :: ids) = id :: inTurn ((id :: ids).filter fun i => !(i == id)) := by
  have hkeep : (!((0 : Nat) == id)) = true := by simpa using hid.symm
  rw [inTurn, List.takeWhile_cons_of_pos (by simpa using hid), List.eraseDups_cons, inTurn,
    List.filter_cons_of_neg (by simp), takeWhile_filter_of_zero hkeep]

theorem map_freeNodes_reassign {done rest : List Slot} {s : Slot} (hs : s.1.nodeid = 0) {id : Nat}
    (hid : id ≠ 0) :
    (freeNodes connected (done ++ reassign id s :: rest)).map (·.uuid) =
      ((freeNodes connected (done ++ s :: rest)).map (·.uuid)).filter fun i => !(i == id) := by
  have hused : ∀ i, i ∈ usedIds (done ++ reassign id s :: rest) ↔
      i = id ∨ i ∈ usedIds (done ++ s :: rest) := by
    intro i
    rw [usedIds_append, usedIds_append, usedIds_cons_of_nil hs, usedIds_cons (by exact hid)]
    simp only [List.mem_append, List.mem_cons, nodeid_reassign]
    exact or_left_comm
  rw [freeNodes, freeNodes, List.filter_map, List.filter_filter]
  congr 1
  apply List.filter_congr
  intro n _
  rw [Bool.eq_iff_iff]
  simp [hused]

/-- The last loop serves the scratchpads that are left. -/
theorem map_assignRest (done rest : List Slot) :
    (assignRest connected done rest).1.map (·.1) = done.map (·.1) ++
      serve (fun _ => ()) (fun _ => ()) id
        (inTurn ((freeNodes connected (done ++ rest)).map (·.uuid))) (rest.map (·.1)) := by
  induction rest generalizing done with
  | nil => simp [assignRest, serve]
  | cons s rest ih =>
    rw [assignRest, List.map_cons]
    split_ifs with hs
    · split
      · next hfree =>
        rw [hfree, List.map_append]
        exact congrArg _ (serve_nil _).symm
      · next n free hfree =>
        rw [ih, List.map_append, List.append_assoc, List.append_assoc, List.singleton_append,
          List.map_singleton, List.singleton_append, serve_cons_of_nil hs]
        congr 1
        by_cases hn : n.uuid = 0
        · have hsame : freeNodes connected (done ++ reassign 0 s :: rest) =
              freeNodes connected (done ++ s :: rest) := by
            rw [freeNodes, freeNodes, usedIds_append, usedIds_append, usedIds_cons_of_nil hs,
              usedIds_cons_of_nil rfl]
          rw [hn, hsame, hfree, List.map_cons, hn]
          rfl
        · have hall : (freeNodes connected (done ++ reassign n.uuid s :: rest)).map (·.uuid) = _ :=
            map_freeNodes_reassign hs hn
          rw [hfree, List.map_cons] at hall
          rw [hfree, List.map_cons, hall, inTurn_cons hn]
          rfl
    · rw [ih, List.map_append, List.append_assoc, List.append_assoc, List.singleton_append,
        serve_cons_of_ne hs]
      rfl

end Loops

/-! ## The whole assignment -/

/-- What a loop finds: the nodes that no scratchpad has, and the scratchpads without a node, all
of them and those before a scratchpad. -/
structure Round where
  nodes : List GroupNode
  pads : List Scratchpad
  before : List Scratchpad

namespace Round

variable {κ : Type} [DecidableEq κ] (f : GroupNode → κ) (g : Scratchpad → κ)

/-- The node with the key of the scratchpad whose turn it is. -/
def turnOf (r : Round) (p : Scratchpad) : Option GroupNode :=
  turn f r.nodes (g p) (r.before.countP fun s => g s = g p)

/-- What is left for the next loop; with a node go the others that have its uuid. -/
def next (r : Round) : Round where
  nodes := r.nodes.filter fun n => n.uuid ∉ (taken f (r.pads.map g) r.nodes).map (·.uuid)
  pads := leave g (r.nodes.map f) r.pads
  before := leave g (r.nodes.map f) r.before

end Round

/-- A scratchpad whose node is not connected has none. -/
def detach (connected : List GroupNode) (s : Scratchpad) : Scratchpad :=
  if s.nodeid ∈ uuids connected then s else { s with nodeid := 0 }

/-- The round of the loop that looks at the aseba ids. -/
def firstRound (connected : List GroupNode) (pads : List Scratchpad) (i : Nat) : Round where
  nodes := connected.filter fun n => n.uuid ≠ 0 ∧ n.uuid ∉ pads.map (·.nodeid)
  pads := waiting (pads.map (detach connected))
  before := waiting ((pads.take i).map (detach connected))

/-- The uuids of the nodes that the last loop gives away. -/
def lastNodes (connected : List GroupNode) (r : Round) : List Nat :=
  ((uuids (connected.takeWhile fun n => n.uuid ≠ 0)).filter (· ∈ r.nodes.map (·.uuid))).eraseDups

section Assignment

variable {connected : List GroupNode} {pads : List Scratchpad} {i : Nat} {p : Scratchpad}

theorem map_cleared :
    (pads.map fun s => clearSlot connected (s, false)).map (·.1) = pads.map (detach connected) := by
  rw [List.map_map]
  apply List.map_congr_left
  intro s _
  rw [Function.comp_apply, clearSlot, detach, uuids]
  split_ifs with h
  · rfl
  · rfl

/-- Nodes and scratchpads at a time are those of a round. -/
structure At (connected : List GroupNode) (slots : List Slot) (i : Nat) (r : Round) : Prop where
  nodes : (freeNodes connected slots).filter (fun n => n.uuid ≠ 0) = r.nodes
  pads : waiting (slots.map (·.1)) = r.pads
  before : waiting ((slots.map (·.1)).take i) = r.before

theorem At.nonzero {slots : List Slot} {r : Round} (h : At connected slots i r) :
    ∀ n ∈ r.nodes, n.uuid ≠ 0 := by
  rw [← h.nodes]
  exact fun n hn => by simpa using (List.mem_filter.mp hn).2

theorem At.next {κ : Type} [DecidableEq κ] {f : GroupNode → κ} {g : Scratchpad → κ}
    {slots : List Slot} {r : Round} (h : At connected slots i r) :
    At connected (assign (fun n s => g s = f n) connected slots) i (r.next f g) where
  nodes := by
    have hused : ∀ id, id ∈ usedIds (assign (fun n s => g s = f n) connected slots) ↔
        id ∈ usedIds slots ∨ id ∈ (taken f (r.pads.map g) r.nodes).map (·.uuid) := by
      intro id
      rw [usedIds_eq, map_assign, h.nodes, mem_nodeids_serve h.nonzero, h.pads, usedIds_eq]
    change _ = r.nodes.filter fun n => n.uuid ∉ (taken f (r.pads.map g) r.nodes).map (·.uuid)
    generalize (taken f (r.pads.map g) r.nodes).map (·.uuid) = ids at hused ⊢
    rw [← h.nodes, freeNodes, freeNodes, List.filter_filter, List.filter_filter, List.filter_filter]
    apply List.filter_congr
    intro n _
    rw [Bool.eq_iff_iff]
    simp only [Bool.and_eq_true, decide_eq_true_eq, Bool.not_eq_true', decide_eq_false_iff_not,
      hused]
    tauto
  pads := by
    rw [map_assign, h.nodes, waiting_serve h.nonzero, h.pads]
    rfl
  before := by
    rw [map_assign, h.nodes, take_serve, waiting_serve h.nonzero, h.before]
    rfl

theorem detach_of_nil (h : p.nodeid = 0) : detach connected p = p := by
  unfold detach
  split_ifs
  · rfl
  · cases p
    cases h
    rfl

/-- A connected node is with the scratchpad it was with. -/
theorem mem_nodeids_detach {id : Nat} (hne : id ≠ 0) (hid : id ∈ uuids connected) :
    id ∈ nodeids (pads.map (detach connected)) ↔ id ∈ pads.map (·.nodeid) := by
  rw [nodeids, List.mem_filter, List.map_map, List.mem_map, List.mem_map]
  constructor
  · rintro ⟨⟨s, hs, heq⟩, -⟩
    rw [Function.comp_apply, detach] at heq
    split_ifs at heq
    · exact ⟨s, hs, heq⟩
    · exact absurd heq.symm hne
  · rintro ⟨s, hs, rfl⟩
    refine ⟨⟨s, hs, ?_⟩, by simpa using hne⟩
    rw [Function.comp_apply, detach, if_pos hid]

theorem at_cleared (connected : List GroupNode) (pads : List Scratchpad) (i : Nat) :
    At connected (assign (fun n s => s.nodeid = n.uuid) connected
      (pads.map fun s => clearSlot connected (s, false))) i (firstRound connected pads i) where
  nodes := by
    rw [freeNodes, usedIds_eq, map_assign_nodeid, map_cleared, List.filter_filter, firstRound]
    apply List.filter_congr
    intro n hn
    have hknown : n.uuid ∈ uuids connected := List.mem_map_of_mem hn
    have hmem : n.uuid ≠ 0 → (n.uuid ∈ nodeids (pads.map (detach connected)) ↔
        n.uuid ∈ pads.map (·.nodeid)) := fun hne => mem_nodeids_detach hne hknown
    rw [Bool.eq_iff_iff]
    simp only [Bool.and_eq_true, decide_eq_true_eq, Bool.not_eq_true', decide_eq_false_iff_not]
    constructor
    · exact fun h => ⟨h.1, fun hheld => h.2 ((hmem h.1).mpr hheld)⟩
    · exact fun h => ⟨h.1, fun hheld => h.2 ((hmem h.1).mp hheld)⟩
  pads := by rw [map_assign_nodeid, map_cleared]; rfl
  before := by rw [map_assign_nodeid, map_cleared, ← List.map_take]; rfl

theorem At.inTurn_eq {slots : List Slot} {r : Round} (h : At connected slots i r) :
    inTurn ((freeNodes connected slots).map (·.uuid)) = lastNodes connected r := by
  have hzero : (!decide (0 ∈ usedIds slots)) = true := by simp [usedIds]
  have hfree : (freeNodes connected slots).map (·.uuid) =
      (uuids connected).filter fun id => !(id ∈ usedIds slots) := by
    rw [freeNodes, uuids, List.filter_map]
    rfl
  have htake : uuids (connected.takeWhile fun n => n.uuid ≠ 0) =
      (uuids connected).takeWhile fun id => id ≠ 0 := by
    rw [uuids, uuids, List.takeWhile_map]
    rfl
  rw [inTurn, hfree, takeWhile_filter_of_zero hzero, lastNodes, htake]
  congr 1
  apply List.filter_congr
  intro id hid
  have hne : id ≠ 0 := by simpa using List.mem_takeWhile_imp hid
  obtain ⟨n, hn, rfl⟩ := List.mem_map.mp ((List.takeWhile_sublist _).subset hid)
  rw [Bool.eq_iff_iff, Bool.not_eq_true', decide_eq_false_iff_not, decide_eq_true_eq, ← h.nodes]
  constructor
  · intro hunused
    exact List.mem_map_of_mem (List.mem_filter.mpr
      ⟨mem_freeNodes.mpr ⟨hn, hunused⟩, by simpa using hne⟩)
  · intro hmem
    obtain ⟨m, hm, heq⟩ := List.mem_map.mp hmem
    rw [← heq]
    exact (mem_freeNodes.mp (List.mem_filter.mp hm).1).2

section Turn

variable {κ : Type} [DecidableEq κ] {f : GroupNode → κ} {g : Scratchpad → κ} {slots : List Slot}
  {r : Round}

theorem At.getElem?_assign (h : At connected slots i r) (hp : (slots.map (·.1))[i]? = some p)
    (hnil : p.nodeid = 0) :
    ((assign (fun n s => g s = f n) connected slots).map (·.1))[i]? =
      some { p with nodeid := ((r.turnOf f g p).map (·.uuid)).getD 0 } := by
  rw [map_assign, h.nodes, serve_getElem? hp hnil, h.before]
  rfl

theorem At.getElem?_assign_of_none (h : At connected slots i r)
    (hp : (slots.map (·.1))[i]? = some p) (hnil : p.nodeid = 0) (hturn : r.turnOf f g p = none) :
    ((assign (fun n s => g s = f n) connected slots).map (·.1))[i]? = some p := by
  rw [h.getElem?_assign hp hnil, hturn]
  congr 1
  cases p
  cases hnil
  rfl

theorem getElem?_assign_of_ne (hp : (slots.map (·.1))[i]? = some p) (hne : p.nodeid ≠ 0) :
    ((assign (fun n s => g s = f n) connected slots).map (·.1))[i]? = some p := by
  rw [map_assign, serve_getElem?_of_ne hp hne]

end Turn

theorem getD_zero_eq_iff {o : Option Nat} {id : Nat} (hid : id ≠ 0) :
    o.getD 0 = id ↔ o = some id := by
  cases o with
  | none => simpa using hid.symm
  | some i => exact Option.some_inj.symm

/-- What the last loop leaves. -/
def restedPads (connected : List GroupNode) (slots : List Slot) : List Scratchpad :=
  (assignRest connected [] slots).1.map (·.1)

theorem restedPads_of_ne {slots : List Slot} (hp : (slots.map (·.1))[i]? = some p)
    (hne : p.nodeid ≠ 0) : (restedPads connected slots)[i]? = some p := by
  rw [restedPads, map_assignRest]
  exact serve_getElem?_of_ne hp hne

theorem At.restedPads_getElem? {slots : List Slot} {r : Round} (h : At connected slots i r)
    (hp : (slots.map (·.1))[i]? = some p) (hnil : p.nodeid = 0) :
    (restedPads connected slots)[i]? = some { p with
      nodeid := ((lastNodes connected r)[r.before.length]?).getD 0 } := by
  rw [restedPads, map_assignRest, List.map_nil, List.nil_append, serve_getElem? hp hnil, h.before,
    List.nil_append, h.inTurn_eq]
  simp [turn]

end Assignment

end PreferredNodes

open PreferredNodes

/-- The scratchpad at `i` has no node and prefers one that is neither connected nor disconnected
and that no scratchpad has; no other scratchpad without a node prefers it. -/
structure Prefers (nodes : List GroupNode) (pads : List Scratchpad) (i : Nat) (p : Scratchpad)
    (n : GroupNode) : Prop where
  pad : pads[i]? = some p
  without : p.nodeid = 0
  node : n ∈ connectedNodes nodes
  preferred : p.preferredNodeId = n.uuid
  free : ∀ s ∈ pads, s.nodeid ≠ n.uuid
  only : ∀ (j : Nat) (hj : j < pads.length), j ≠ i → pads[j].nodeid = 0 →
    pads[j].preferredNodeId ≠ n.uuid

/-- `assign_scratchpads` gives the node to the scratchpad at `i`. -/
def GetsNode (nodes : List GroupNode) (pads : List Scratchpad) (i : Nat) (n : GroupNode) : Prop :=
  (assignScratchpads nodes pads).1[i]?.map (·.nodeid) = some n.uuid

/-- The node with the aseba id of the scratchpad whose turn it is has the uuid; or there is none,
and the node with its name whose turn it is has the uuid; or there is none either, and the uuid is
that of the node whose turn it is among those that are left. -/
def TurnComes (connected : List GroupNode) (pads : List Scratchpad) (i : Nat) (p : Scratchpad)
    (id : Nat) : Prop :=
  let byId := firstRound connected pads i
  let byName := byId.next (·.nativeId) (·.asebaId)
  let last := byName.next (·.friendlyName) (·.name)
  match byId.turnOf (·.nativeId) (·.asebaId) p with
  | some n => n.uuid = id
  | none =>
    match byName.turnOf (·.friendlyName) (·.name) p with
    | some n => n.uuid = id
    | none => (lastNodes connected last)[last.before.length]? = some id

theorem preferred_assigned_iff {nodes : List GroupNode} {pads : List Scratchpad} {i : Nat}
    {p : Scratchpad} {n : GroupNode} (h : Prefers nodes pads i p n) :
    GetsNode nodes pads i n ↔ TurnComes (connectedNodes nodes) pads i p n.uuid := by
  have hne : n.uuid ≠ 0 := by
    have hfree := h.free p (List.mem_of_getElem? h.pad)
    rw [h.without] at hfree
    exact hfree.symm
  have hfirst := at_cleared (connectedNodes nodes) pads i
  have hp : ((assign (fun n s => s.nodeid = n.uuid) (connectedNodes nodes)
      (pads.map fun s => clearSlot (connectedNodes nodes) (s, false))).map (·.1))[i]? = some p := by
    rw [map_assign_nodeid, map_cleared, List.getElem?_map, h.pad, Option.map_some,
      detach_of_nil h.without]
  have hsecond := hfirst.next (f := (·.nativeId)) (g := (·.asebaId))
  have hthird := hsecond.next (f := (·.friendlyName)) (g := (·.name))
  change (restedPads _ (assign _ _ (assign _ _ _)))[i]?.map _ = _ ↔ _
  unfold TurnComes
  dsimp only
  split
  next m hturn =>
    have hm : m.uuid ≠ 0 :=
      hfirst.nonzero m (List.mem_of_mem_filter (List.mem_of_getElem? hturn))
    have hbyId := hfirst.getElem?_assign (f := (·.nativeId)) (g := (·.asebaId)) hp h.without
    rw [hturn] at hbyId
    rw [restedPads_of_ne (getElem?_assign_of_ne hbyId hm) hm]
    exact Option.some_inj
  next hturn =>
    have hbyId := hfirst.getElem?_assign_of_none hp h.without hturn
    split
    next m hturn' =>
      have hm : m.uuid ≠ 0 :=
        hsecond.nonzero m (List.mem_of_mem_filter (List.mem_of_getElem? hturn'))
      have hbyName := hsecond.getElem?_assign (f := (·.friendlyName)) (g := (·.name)) hbyId h.without
      rw [hturn'] at hbyName
      rw [restedPads_of_ne hbyName hm]
      exact Option.some_inj
    next hturn' =>
      have hbyName := hsecond.getElem?_assign_of_none hbyId h.without hturn'
      rw [hthird.restedPads_getElem? hbyName h.without]
      exact Option.some_inj.trans (getD_zero_eq_iff hne)

/-- A scratchpad with the aseba id of the node it prefers, and another one. -/
def matchingPads : List Scratchpad :=
  [{ scratchpadId := 0 }, { scratchpadId := 1, preferredNodeId := 2, asebaId := 11 }]

def twoNodes : List GroupNode := [⟨1, .available, 10, "left"⟩, ⟨2, .available, 11, "right"⟩]

theorem matchingPads_assigned : GetsNode twoNodes matchingPads 1 ⟨2, .available, 11, "right"⟩ :=
  (preferred_assigned_iff (p := { scratchpadId := 1, preferredNodeId := 2, asebaId := 11 })
    ⟨rfl, rfl, by decide, rfl, by decide, by decide⟩).mpr (rfl : (2 : Nat) = 2)

/-- A scratchpad that prefers the second of two nodes gets the first one. -/
theorem secondNode_not_assigned :
    Prefers twoNodes [{ scratchpadId := 0, preferredNodeId := 2 }] 0
        { scratchpadId := 0, preferredNodeId := 2 } ⟨2, .available, 11, "right"⟩ ∧
      ¬ GetsNode twoNodes [{ scratchpadId := 0, preferredNodeId := 2 }] 0
        ⟨2, .available, 11, "right"⟩ :=
  ⟨⟨rfl, rfl, by decide, rfl, by decide, by decide⟩, by unfold GetsNode; decide⟩

end ThymioDeviceManager.Correctness
