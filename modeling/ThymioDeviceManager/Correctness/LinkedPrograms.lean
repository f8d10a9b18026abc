import ThymioDeviceManager.Correctness.CallDepths
import ThymioDeviceManager.Correctness.InstalledPrograms

/-! # Linked programs

What the linker makes of an accepted program is an installed program: the scan
that resolves the calls meets exactly the calls of the vectors, each of which the
stack analysis has looked up, so that every call goes to the start of its
subroutine and every vector stands where the table or the calls say.
-/

namespace ThymioDeviceManager.Correctness

open Compiler Library OrderedMap Framing Machine Realise Semantics

/-! ## Calls that the analysis has looked up -/

/-- The maps hold the same code. -/
def SameVectors (subs subs' : OrderedMap Nat BytecodeVector) : Prop :=
  ∀ k, (subs'.find? k).map BytecodeVector.elements = (subs.find? k).map BytecodeVector.elements

theorem SameVectors.refl (subs : OrderedMap Nat BytecodeVector) : SameVectors subs subs :=
  fun _ => rfl

theorem SameVectors.trans {a b c : OrderedMap Nat BytecodeVector} (h : SameVectors a b)
    (h' : SameVectors b c) : SameVectors a c := fun k => (h' k).trans (h k)

theorem SameVectors.isSome {subs subs' : OrderedMap Nat BytecodeVector} (h : SameVectors subs subs')
    (k : Nat) : (subs'.find? k).isSome = (subs.find? k).isSome := by
  simpa using congrArg Option.isSome (h k)

theorem sameVectors_setDepth (subs : OrderedMap Nat BytecodeVector) (id d : Nat) :
    SameVectors subs (subs.modify id fun v => { v with callDepth := d }) := by
  intro k
  rw [find?_modify]
  split_ifs
  · rw [Option.map_map]
    rfl
  · rfl

theorem markCalled_ok {subs subs' : OrderedMap Nat BytecodeVector} {ids : List Nat}
    (h : markCalled subs ids = .ok subs') :
    (∀ id ∈ ids, (subs.find? id).isSome) ∧ SameVectors subs subs' := by
  induction ids generalizing subs with
  | nil =>
    cases h
    exact ⟨by simp, .refl _⟩
  | cons id rest ih =>
    obtain ⟨_, hfound, h⟩ := Outcome.bind_eq_ok.mp h
    obtain ⟨hrest, hsame⟩ := ih h
    have hset := sameVectors_setDepth subs id 1
    refine ⟨fun k hk => ?_, hset.trans hsame⟩
    rcases List.mem_cons.mp hk with rfl | hk
    · simpa [require] using hfound
    · rw [← hset.isSome]
      exact hrest k hk

theorem verifyEvents_ok {n : Nat} {subs subs' : OrderedMap Nat BytecodeVector}
    {events : List (Nat × BytecodeVector)} (h : verifyEvents n subs events = .ok (some subs')) :
    (∀ e ∈ events, ∀ id ∈ calledIds e.2.elements, (subs.find? id).isSome) ∧
      SameVectors subs subs' := by
  induction events generalizing subs with
  | nil =>
    cases h
    exact ⟨by simp, .refl _⟩
  | cons e rest ih =>
    rw [verifyEvents] at h
    split_ifs at h
    · cases h
    obtain ⟨marked, hmark, h⟩ := Outcome.bind_eq_ok.mp h
    obtain ⟨hcalls, hset⟩ := markCalled_ok hmark
    obtain ⟨hrest, hsame⟩ := ih h
    refine ⟨fun e' he id hid => ?_, hset.trans hsame⟩
    rcases List.mem_cons.mp he with rfl | he
    · exact hcalls id hid
    · rw [← hset.isSome]
      exact hrest e' he id hid

theorem deepen_ok {d : Nat} {b : Bool} {subs : OrderedMap Nat BytecodeVector} {ids : List Nat}
    {r : Bool × OrderedMap Nat BytecodeVector} (h : deepen d b subs ids = .ok r) :
    (∀ id ∈ ids, (subs.find? id).isSome) ∧ SameVectors subs r.2 := by
  induction ids generalizing subs b with
  | nil =>
    cases h
    exact ⟨by simp, .refl _⟩
  | cons id rest ih =>
    rw [deepen] at h
    cases hdest : subs.find? id with
    | none =>
      rw [hdest] at h
      cases h
    | some dest =>
      rw [hdest] at h
      dsimp only at h
      have hid : (subs.find? id).isSome := by rw [hdest]; rfl
      split_ifs at h
      · have hset := sameVectors_setDepth subs id (d + 1)
        obtain ⟨hrest, hsame⟩ := ih h
        refine ⟨fun k hk => ?_, hset.trans hsame⟩
        rcases List.mem_cons.mp hk with rfl | hk
        · exact hid
        · rw [← hset.isSome]
          exact hrest k hk
      · obtain ⟨hrest, hsame⟩ := ih h
        refine ⟨fun k hk => ?_, hsame⟩
        rcases List.mem_cons.mp hk with rfl | hk
        · exact hid
        · exact hrest k hk

theorem verifyRound_ok {n : Nat} {b : Bool} {subs : OrderedMap Nat BytecodeVector} {ids : List Nat}
    {r : Bool × OrderedMap Nat BytecodeVector} (h : verifyRound n b subs ids = .ok (some r)) :
    ∀ k ∈ ids, ∀ v, subs.find? k = some v →
      ∀ id ∈ calledIds v.elements, (subs.find? id).isSome := by
  induction ids generalizing subs b with
  | nil => simp
  | cons k rest ih =>
    rw [verifyRound] at h
    cases hv : subs.find? k with
    | none =>
      rw [hv] at h
      cases h
    | some v =>
      rw [hv] at h
      dsimp only at h
      split_ifs at h
      · cases h
      obtain ⟨⟨b', subs'⟩, hdeepen, h⟩ := Outcome.bind_eq_ok.mp h
      obtain ⟨hcalls, hsame⟩ := deepen_ok hdeepen
      intro k' hk' v' hv' id hid
      rcases List.mem_cons.mp hk' with rfl | hk'
      · cases hv.symm.trans hv'
        exact hcalls id hid
      · have hcode := hsame k'
        rw [hv'] at hcode
        obtain ⟨w, hw, hwv⟩ := Option.map_eq_some_iff.mp hcode
        rw [← hsame.isSome]
        refine ih h k' hk' w hw id ?_
        rwa [hwv]

/-- Every call of a program that the analysis accepts names a vector. -/
theorem calls_of_verified {td : TargetDescription} {p : PreLinkBytecode}
    (h : verifyStackCalls td p = .ok true) :
    ∀ e ∈ p.events ++ p.subroutines, Ordered p.subroutines →
      ∀ id ∈ calledIds e.2.elements, (p.subroutines.find? id).isSome := by
  obtain ⟨marked, hevents, h⟩ := Outcome.bind_eq_ok.mp h
  cases marked with
  | none => cases h
  | some subs =>
    obtain ⟨hcalls, hsame⟩ := verifyEvents_ok hevents
    dsimp only at h
    rw [verifyRounds] at h
    obtain ⟨round, hround, h⟩ := Outcome.bind_eq_ok.mp h
    cases round with
    | none => cases h
    | some r =>
      intro e he hordered id hid
      rcases List.mem_append.mp he with he | he
      · exact hcalls e he id hid
      · have hfind := hordered.find?_of_mem he
        have hcode := hsame e.1
        rw [hfind] at hcode
        obtain ⟨w, hw, hwv⟩ := Option.map_eq_some_iff.mp hcode
        have hkey : e.1 ∈ subs.map Prod.fst := isSome_find?_iff.mp (by rw [hw]; rfl)
        rw [← hsame.isSome]
        exact verifyRound_ok hround e.1 hkey w hw id (by rwa [hwv])

/-! ## The scan -/

/-- The words as the scan leaves them, when the calls it meets have small addresses. -/
theorem resolveCalls_visit {table : List SubroutineDescriptor} {skip : Nat}
    {l out : List BytecodeElement}
    (hsmall : ∀ q ∈ heads BytecodeElement.getWordSize skip l, isCall q.2 →
      ∀ d, table[field q.2.bytecode]? = some d → d.address < 4096)
    (h : resolveCalls table skip l = .ok out) :
    (∀ q ∈ heads BytecodeElement.getWordSize skip l, isCall q.2 →
      field q.2.bytecode < table.length) ∧
      out = visit BytecodeElement.getWordSize (resolved table) skip l := by
  induction l generalizing skip out with
  | nil =>
    have hnil : resolveCalls table skip [] = .ok [] := by cases skip <;> rfl
    cases hnil.symm.trans h
    simp
  | cons e l ih =>
    cases skip with
    | zero =>
      simp only [resolveCalls, Outcome.bind_eq_ok, resolveElement_eq_ok, Outcome.pure_eq,
        Outcome.ok.injEq] at h
      obtain ⟨e', ⟨he, rfl⟩, rest, hrest, rfl⟩ := h
      have hsize : (resolved table e).getWordSize = e.getWordSize := by
        unfold resolved
        split
        next d hd =>
          split_ifs with hcall
          · have ha := hsmall (0, e) (List.mem_cons_self ..) hcall d hd
            simp only [BytecodeElement.getWordSize, wordSize, opcode_resolve _ ha]
          · rfl
        next => rfl
      rw [hsize] at hrest
      obtain ⟨hvalid, rfl⟩ := ih (fun q hq => hsmall (q.1 + 1, q.2)
        (List.mem_cons_of_mem _ (List.mem_map_of_mem hq))) hrest
      refine ⟨fun q hq hcall => ?_, by rw [visit, hsize]⟩
      rcases List.mem_cons.mp hq with rfl | hq
      · exact he hcall
      · obtain ⟨a, ha, rfl⟩ := List.mem_map.mp hq
        exact hvalid a ha hcall
    | succ k =>
      simp only [resolveCalls, Outcome.bind_eq_ok, Outcome.pure_eq, Outcome.ok.injEq] at h
      obtain ⟨rest, hrest, rfl⟩ := h
      obtain ⟨hvalid, rfl⟩ := ih (fun q hq => hsmall (q.1 + 1, q.2) (List.mem_map_of_mem hq)) hrest
      refine ⟨fun q hq hcall => ?_, rfl⟩
      obtain ⟨a, ha, rfl⟩ := List.mem_map.mp hq
      exact hvalid a ha hcall

/-- The word that the scan writes for a word it meets. -/
def resolvedWord (table : List SubroutineDescriptor) (w : Word) : Word :=
  match table[field w]? with
  | some d =>
    if opcode w = AsebaBytecodeId.subCall.code then (w &&& 0xf000) ||| BitVec.ofNat 16 d.address
    else w
  | none => w

theorem bytecode_resolved (table : List SubroutineDescriptor) (e : BytecodeElement) :
    (resolved table e).bytecode = resolvedWord table e.bytecode := by
  unfold resolved resolvedWord isCall
  cases table[field e.bytecode]? with
  | some d => by_cases hcall : opcode e.bytecode = AsebaBytecodeId.subCall.code <;> simp [hcall]
  | none => rfl

theorem eq_of_opcode_field {w w' : Word} (hop : opcode w = opcode w') (hfield : field w = field w') :
    w = w' := by
  apply BitVec.eq_of_toNat_eq
  rw [opcode_eq, opcode_eq] at hop
  rw [field_eq, field_eq] at hfield
  omega

/-- An instruction with its call resolved. -/
def linkedInstruction (start : Nat → Nat) : Instruction → Instruction
  | .subCall id => .subCall (start id)
  | i => i

section Rewriting

variable {table : List SubroutineDescriptor} {start : Nat → Nat} {is : List Instruction}

/-- The calls of a sequence go where the table says. -/
def CallsResolved (table : List SubroutineDescriptor) (start : Nat → Nat) (is : List Instruction) :
    Prop :=
  ∀ id, .subCall id ∈ is → ∃ d, table[id]? = some d ∧ d.address = start id ∧ d.address < 4096

theorem linkedInstruction_fits (h : CallsResolved table start is) (hfit : AllFit is) :
    AllFit (is.map (linkedInstruction start)) := by
  intro i hi
  obtain ⟨j, hj, rfl⟩ := List.mem_map.mp hi
  cases j with
  | subCall id =>
    obtain ⟨d, -, hstart, hlt⟩ := h id hj
    rw [hstart] at hlt
    exact hlt
  | _ => exact hfit _ hj

theorem resolvedWord_headWord (h : CallsResolved table start is) (hfit : AllFit is) {i : Instruction}
    (hi : i ∈ is) : resolvedWord table i.headWord = (linkedInstruction start i).headWord := by
  have hop := Instruction.opcode_headWord (hfit i hi).packs
  unfold resolvedWord
  cases i with
  | subCall id =>
    obtain ⟨d, hd, hstart, hlt⟩ := h id hi
    have hid : field (Instruction.subCall id).headWord = id :=
      Instruction.field_headWord (hfit _ hi).packs
    have hlinked : (Instruction.subCall (start id)).Packs := hstart ▸ hlt
    rw [hid, hd]
    dsimp only
    rw [if_pos (by rw [hop]; rfl)]
    refine eq_of_opcode_field ?_ ?_
    · rw [opcode_resolve _ hlt, hop]
      exact (Instruction.opcode_headWord hlinked).symm
    · rw [field_resolve _ hlt, hstart]
      exact (Instruction.field_headWord hlinked).symm
  | _ =>
    split
    · rw [if_neg (by rw [hop]; simp [Instruction.id, AsebaBytecodeId.code])]
      rfl
    · rfl

/-- The scan turns the words of a sequence into those of the sequence with its calls resolved. -/
theorem visit_resolved {l : List BytecodeElement} (hl : l.map BytecodeElement.bytecode = assemble is)
    (h : CallsResolved table start is) (hfit : AllFit is) :
    (visit BytecodeElement.getWordSize (resolved table) 0 l).map BytecodeElement.bytecode =
      assemble (is.map (linkedInstruction start)) := by
  have hmap := visit_map wordSize BytecodeElement.bytecode (resolvedWord table) (resolved table)
    (bytecode_resolved table) 0 l
  have hfits := linkedInstruction_fits h hfit
  rw [← visit_assemble (f := resolvedWord table) fun i hi =>
    ⟨resolvedWord_headWord h hfit hi, ?_, (hfits _ (List.mem_map_of_mem hi)).packs⟩, ← hl]
  · exact hmap.symm
  · cases i <;> rfl

end Rewriting

/-! ## Vectors in the output -/

theorem placedFrom_append (base : Nat) (vs ws : List (Nat × BytecodeVector)) :
    placedFrom base (vs ++ ws) = placedFrom base vs ++ placedFrom (base + (flatten vs).length) ws := by
  induction vs generalizing base with
  | nil => simp [placedFrom, flatten]
  | cons e rest ih =>
    obtain ⟨id, v⟩ := e
    have hlength : (flatten ((id, v) :: rest)).length = v.elements.length + (flatten rest).length := by
      simp [flatten]
    simp only [List.cons_append, placedFrom, ih, hlength, Nat.add_assoc]

theorem placed_eq (p : PreLinkBytecode) :
    placedEvents p ++ placedSubroutines p = placedFrom (tableSize p) (p.events ++ p.subroutines) :=
  (placedFrom_append _ _ _).symm

theorem placedFrom_end {base : Nat} {vs : List (Nat × BytecodeVector)} {q : Nat × Nat × BytecodeVector}
    (hq : q ∈ placedFrom base vs) :
    base ≤ q.1 ∧ q.1 + q.2.2.elements.length ≤ base + (flatten vs).length := by
  obtain ⟨pre, post, rfl, hstart⟩ := mem_placedFrom.mp hq
  have hlength : (flatten (pre ++ q.2 :: post)).length =
      (flatten pre).length + (q.2.2.elements.length + (flatten post).length) := by
    rw [flatten_append, List.length_append]
    simp [flatten]
  omega

theorem placedFrom_disjoint {base : Nat} {vs : List (Nat × BytecodeVector)}
    {q q' : Nat × Nat × BytecodeVector} (hq : q ∈ placedFrom base vs) (hq' : q' ∈ placedFrom base vs)
    (hne : q.2 ≠ q'.2) :
    q.1 + q.2.2.elements.length ≤ q'.1 ∨ q'.1 + q'.2.2.elements.length ≤ q.1 := by
  induction vs generalizing base with
  | nil => cases hq
  | cons e rest ih =>
    obtain ⟨id, v⟩ := e
    rcases List.mem_cons.mp hq with rfl | hq <;> rcases List.mem_cons.mp hq' with rfl | hq'
    · exact absurd rfl hne
    · exact .inl (placedFrom_end hq').1
    · exact .inr (placedFrom_end hq).1
    · exact ih hq hq'

theorem length_unresolvedBytecode (p : PreLinkBytecode) : (unresolvedBytecode p).length =
    tableSize p + (flatten (p.events ++ p.subroutines)).length := by
  rw [unresolvedBytecode_eq, List.length_append, length_header, flatten_append]

/-- The scan steps over the table without meeting a call. -/
theorem header_scan {p : PreLinkBytecode} (hsize : (unresolvedBytecode p).length ≤ 4096)
    (hids : ∀ e ∈ p.events, HarmlessId e.1) :
    Framed BytecodeElement.getWordSize (header p) ∧
      ∀ q ∈ heads BytecodeElement.getWordSize 0 (header p), ¬ isCall q.2 := by
  rw [length_unresolvedBytecode, flatten_append, List.length_append] at hsize
  have haddr : tableSize p + (flatten p.events).length ≤ 4096 := by omega
  obtain ⟨htable, hcalls⟩ := table_scan hids haddr
  obtain ⟨hone, hnot⟩ := number_word (n := tableSize p) (by omega) 0
  have hfirst : Framed BytecodeElement.getWordSize [BytecodeElement.of (tableSize p) 0] :=
    framed_record _ hone
  have hcons : header p = [BytecodeElement.of (tableSize p) 0] ++
      eventTable (tableSize p) p.events := rfl
  rw [hcons, heads_append_of_framed _ hfirst, heads_record _ hone]
  refine ⟨hfirst.append _ htable, fun q hq => ?_⟩
  rcases List.mem_append.mp hq with hq | hq
  · rw [List.mem_singleton.mp hq]
    exact hnot
  · obtain ⟨⟨j, a⟩, hj, rfl⟩ := List.mem_map.mp hq
    exact hcalls j a hj

/-- What the linker is given: an ordered map of subroutines, framed vectors that are not empty and
call subroutines that exist, and events whose identifiers do not disturb the scan. -/
structure Linkable (p : PreLinkBytecode) : Prop where
  subroutines : Ordered p.subroutines
  nonempty : ∀ e ∈ p.events ++ p.subroutines, e.2.elements ≠ []
  framed : ∀ e ∈ p.events ++ p.subroutines, Framed BytecodeElement.getWordSize e.2.elements
  calls : ∀ e ∈ p.events ++ p.subroutines, ∀ id ∈ calledIds e.2.elements,
    (p.subroutines.find? id).isSome
  harmless : ∀ e ∈ p.events, HarmlessId e.1
  size : (unresolvedBytecode p).length ≤ 4096

section Output

variable {p : PreLinkBytecode} {table : List SubroutineDescriptor} (hp : Linkable p)

include hp

/-- The table of a linked program holds the start of every subroutine. -/
theorem Linkable.start {q : Nat × Nat × BytecodeVector} (hq : q ∈ placedSubroutines p)
    {d : SubroutineDescriptor} (hd : (linkedTable p table)[q.2.1]? = some d) : d.address = q.1 := by
  have hnodup : (p.subroutines.map Prod.fst).Nodup := hp.subroutines.imp fun h => Nat.ne_of_lt h
  have hget : (linkedTable p table)[q.2.1]? = _ := getElem?_setAddresses hnodup hq
  rw [hd] at hget
  obtain ⟨d', -, rfl⟩ := Option.map_eq_some_iff.mp hget.symm
  rfl

theorem Linkable.exists_placed {id : Nat} (h : (p.subroutines.find? id).isSome) :
    ∃ q ∈ placedSubroutines p, q.2.1 = id ∧ q.1 < 4096 := by
  obtain ⟨v, hv⟩ := Option.isSome_iff_exists.mp h
  have hmem := mem_of_find? hv
  obtain ⟨pre, post, hvs⟩ := List.append_of_mem hmem
  have hq : (tableSize p + (flatten p.events).length + (flatten pre).length, id, v) ∈
      placedSubroutines p := mem_placedFrom.mpr ⟨pre, post, hvs, rfl⟩
  have hend : tableSize p + (flatten p.events).length + (flatten pre).length + v.elements.length ≤
      tableSize p + (flatten (p.events ++ p.subroutines)).length :=
    (placedFrom_end (placed_eq p ▸ List.mem_append_right (placedEvents p) hq)).2
  have hpos : 0 < v.elements.length :=
    List.length_pos_of_ne_nil (hp.nonempty _ (List.mem_append_right p.events hmem))
  have hsize := hp.size
  rw [length_unresolvedBytecode] at hsize
  exact ⟨_, hq, rfl, by omega⟩

/-- A call that the scan meets is a call of a vector. -/
theorem Linkable.met {q : Nat × BytecodeElement}
    (hq : q ∈ heads BytecodeElement.getWordSize 0 (unresolvedBytecode p)) (hcall : isCall q.2) :
    (p.subroutines.find? (field q.2.bytecode)).isSome := by
  obtain ⟨⟨i, id⟩, hsite, rfl⟩ := List.mem_map.mp
    ((scan_of_harmless hp.size hp.framed hp.harmless q.1).mp ⟨q.2, hq, hcall⟩)
  obtain ⟨e, he, -, hid⟩ := getElem?_callSite hsite
  have : q.2 = e := by simpa [getElem?_of_mem_heads _ hq] using he
  rw [this, hid]
  obtain ⟨q', hq', j, e', hj, hcall', rfl, -⟩ := mem_callSites.mp hsite
  have hmem : q'.2 ∈ p.events ++ p.subroutines := by
    rw [placed_eq] at hq'
    obtain ⟨pre, post, hvs, -⟩ := mem_placedFrom.mp hq'
    simp [hvs]
  refine hp.calls _ hmem _ (mem_calledIds.mpr ⟨j, ?_⟩)
  exact List.mem_map.mpr ⟨(j, e'), List.mem_filter.mpr ⟨hj, hcall'⟩, rfl⟩

theorem Linkable.output {td : TargetDescription} {fits : Bool} {out : List BytecodeElement}
    {table' : List SubroutineDescriptor} (h : link td p table = .ok (fits, out, table')) :
    (∀ q ∈ heads BytecodeElement.getWordSize 0 (unresolvedBytecode p), isCall q.2 →
        ∃ d q', (linkedTable p table)[field q.2.bytecode]? = some d ∧ q' ∈ placedSubroutines p ∧
          q'.2.1 = field q.2.bytecode ∧ d.address = q'.1 ∧ d.address < 4096) ∧
      out = visit BytecodeElement.getWordSize (resolved (linkedTable p table)) 0
        (unresolvedBytecode p) := by
  obtain ⟨out', hrun, hpure⟩ := Outcome.bind_eq_ok.mp h
  obtain ⟨-, rfl, -⟩ : _ ∧ out' = out ∧ _ := by simpa using hpure
  have hsmall : ∀ q ∈ heads BytecodeElement.getWordSize 0 (unresolvedBytecode p), isCall q.2 →
      ∀ d, (linkedTable p table)[field q.2.bytecode]? = some d →
        ∃ q' ∈ placedSubroutines p, q'.2.1 = field q.2.bytecode ∧ d.address = q'.1 ∧
          d.address < 4096 := by
    intro q hq hcall d hd
    obtain ⟨q', hq', hid, hlt⟩ := hp.exists_placed (hp.met hq hcall)
    rw [← hid] at hd
    have hstart := hp.start hq' hd
    exact ⟨q', hq', hid, hstart, hstart ▸ hlt⟩
  obtain ⟨hvalid, hout⟩ := resolveCalls_visit (fun q hq hcall d hd =>
    (hsmall q hq hcall d hd).choose_spec.2.2.2) hrun
  refine ⟨fun q hq hcall => ?_, hout⟩
  obtain ⟨d, hd⟩ := Option.isSome_iff_exists.mp (by
    simpa using hvalid q hq hcall : ((linkedTable p table)[field q.2.bytecode]?).isSome)
  obtain ⟨q', hq', hid, hstart, hlt⟩ := hsmall q hq hcall d hd
  exact ⟨d, q', hd, hq', hid, hstart, hlt⟩

/-- A call of a vector goes to the start of a subroutine. -/
theorem Linkable.called {td : TargetDescription} {fits : Bool} {out : List BytecodeElement}
    {table' : List SubroutineDescriptor} (h : link td p table = .ok (fits, out, table'))
    {q : Nat × Nat × BytecodeVector} (hq : q ∈ placedEvents p ++ placedSubroutines p) {id : Nat}
    (hid : id ∈ calledIds q.2.2.elements) :
    ∃ d q', (linkedTable p table)[id]? = some d ∧ q' ∈ placedSubroutines p ∧ q'.2.1 = id ∧
      d.address = q'.1 ∧ d.address < 4096 := by
  obtain ⟨j, hj⟩ := mem_calledIds.mp hid
  have hsite : (q.1 + j, id) ∈ callSites p :=
    List.mem_flatMap.mpr ⟨q, hq, List.mem_map.mpr ⟨(j, id), hj, rfl⟩⟩
  obtain ⟨e, hmem, hcall⟩ := (scan_of_harmless hp.size hp.framed hp.harmless (q.1 + j)).mpr
    (List.mem_map.mpr ⟨_, hsite, rfl⟩)
  obtain ⟨e', he', -, hfield⟩ := getElem?_callSite hsite
  have heq : e = e' := by simpa [getElem?_of_mem_heads _ hmem] using he'
  have hmet := (hp.output h).1 (q.1 + j, e) hmem hcall
  rwa [heq, hfield] at hmet

/-- The instructions of a vector stand in the output, its calls resolved. -/
theorem Linkable.codeAt {td : TargetDescription} {fits : Bool} {out : List BytecodeElement}
    {table' : List SubroutineDescriptor} (h : link td p table = .ok (fits, out, table'))
    {q : Nat × Nat × BytecodeVector} (hq : q ∈ placedEvents p ++ placedSubroutines p)
    {is : List Instruction} (hwords : q.2.2.words = assemble is) (hfit : AllFit is)
    {start : Nat → Nat} (hcalls : CallsResolved (linkedTable p table) start is) :
    CodeAt (out.map BytecodeElement.bytecode) q.1 (is.map (linkedInstruction start)) := by
  obtain ⟨hmet, rfl⟩ := hp.output h
  obtain ⟨hheader, hquiet⟩ := header_scan hp.size hp.harmless
  rw [placed_eq] at hq
  obtain ⟨pre, post, hvs, hstart⟩ := mem_placedFrom.mp hq
  have hsizes : ∀ a ∈ heads BytecodeElement.getWordSize 0 (unresolvedBytecode p),
      (resolved (linkedTable p table) a.2).getWordSize = a.2.getWordSize := by
    intro a ha
    by_cases hcall : isCall a.2
    · obtain ⟨d, -, hd, -, -, -, hlt⟩ := hmet a ha hcall
      simp only [resolved, hd, hcall, if_true, BytecodeElement.getWordSize, wordSize,
        opcode_resolve _ hlt]
    · rw [resolved_of_not_call _ hcall]
  -- the words before the vector, the vector and the words after it
  have hsplit : unresolvedBytecode p =
      (header p ++ flatten pre) ++ (q.2.2.elements ++ flatten post) := by
    rw [unresolvedBytecode_eq, ← flatten_append, hvs, flatten_append, List.append_assoc]
    simp [flatten]
  have hpre : Framed BytecodeElement.getWordSize (header p ++ flatten pre) :=
    hheader.append _ (framed_flatten fun e he => hp.framed e (by simp [hvs, he]))
  have hvector : Framed BytecodeElement.getWordSize q.2.2.elements :=
    hp.framed q.2 (by simp [hvs])
  rw [hsplit] at hsizes
  rw [heads_append_of_framed _ hpre, heads_append_of_framed _ hvector] at hsizes
  have hout : visit BytecodeElement.getWordSize (resolved (linkedTable p table)) 0
      (unresolvedBytecode p) =
      visit BytecodeElement.getWordSize (resolved (linkedTable p table)) 0 (header p ++ flatten pre) ++
        (visit BytecodeElement.getWordSize (resolved (linkedTable p table)) 0 q.2.2.elements ++
          visit BytecodeElement.getWordSize (resolved (linkedTable p table)) 0 (flatten post)) := by
    rw [hsplit, visit_append_of_framed _ hpre fun a ha => hsizes a (List.mem_append_left _ ha),
      visit_append_of_framed _ hvector fun a ha => hsizes (a.1 + _, a.2)
        (List.mem_append_right _ (List.mem_map_of_mem (List.mem_append_left _ ha)))]
  have hlength : (visit BytecodeElement.getWordSize (resolved (linkedTable p table)) 0
      (header p ++ flatten pre)).length = q.1 := by
    rw [length_visit, List.length_append, length_header, hstart]
  refine ⟨linkedInstruction_fits hcalls hfit, ?_⟩
  rw [hout, List.map_append, List.map_append, visit_resolved hwords hcalls hfit, ← hlength,
    ← List.length_map (f := BytecodeElement.bytecode), List.drop_left]
  exact List.prefix_append _ _

end Output

/-! ## Vectors of an accepted program -/

theorem framed_assemble {is : List Instruction} (h : AllPack is) : Framed wordSize (assemble is) := by
  induction is with
  | nil => exact .nil _
  | cons i is ih =>
    obtain ⟨hi, his⟩ := AllPack.cons.mp h
    exact (framed_record wordSize (wordSize_head_eq hi) : Framed wordSize i.encode).append _ (ih his)

theorem framed_of_words {v : BytecodeVector} {is : List Instruction} (hv : v.words = assemble is)
    (h : AllPack is) : Framed BytecodeElement.getWordSize v.elements := by
  have hwords := framed_assemble h
  rw [← hv, Framed, BytecodeVector.words, leftover_map] at hwords
  exact hwords

/-- A call in the instructions of a vector is met when decoding it. -/
theorem mem_calledIds_of_words {v : BytecodeVector} {is : List Instruction}
    (hv : v.words = assemble is) (h : AllFit is) {id : Nat} (hid : .subCall id ∈ is) :
    id ∈ calledIds v.elements := by
  obtain ⟨pre, post, hsplit⟩ := List.append_of_mem hid
  have hpos : (codeSize pre, (Instruction.subCall id).headWord) ∈ heads wordSize 0 v.words := by
    rw [hv, heads_assemble h.allPack]
    exact List.mem_map.mpr ⟨(codeSize pre, .subCall id),
      mem_positions.mpr ⟨pre, post, hsplit, (Nat.zero_add _).symm⟩, rfl⟩
  rw [heads_words] at hpos
  obtain ⟨q, hq, heq⟩ := List.mem_map.mp hpos
  have hword : q.2.bytecode = (Instruction.subCall id).headWord := congrArg Prod.snd heq
  refine List.mem_filterMap.mpr ⟨q, hq, ?_⟩
  rw [hword, Instruction.opcode_headWord (h _ hid).packs, Instruction.field_headWord (h _ hid).packs]
  rfl

section Accepted

variable {program : List (Toplevel (Statement Comparison))} {emitted : PreLinkBytecode}
  {table : List SubroutineDescriptor} (hfit : OperandsFit program)
  (hemit : emitProgram program = .ok emitted)

include hfit

theorem closedVector_fits {key : CurrentBytecode} (hkey : HasCode program key) :
    AllFit (closedVector program key) := by
  have hvector := hfit key (declared_of_hasCode hkey)
  cases key with
  | event id => exact AllFit.append.mpr ⟨hvector, by decide⟩
  | subroutine id =>
    unfold closedVector closeInstructions
    split_ifs
    · exact allFit_map_retSub hvector
    · exact AllFit.append.mpr ⟨allFit_map_retSub hvector, by decide⟩

omit hfit

theorem mem_closedVector {key : CurrentBytecode} {id : Nat} :
    .subCall id ∈ closedVector program key ↔ .subCall id ∈ vectorInstructions program key := by
  have hret : ∀ is : List Instruction, .subCall id ∈ is.map retSub ↔ .subCall id ∈ is := by
    intro is
    constructor
    · intro h
      obtain ⟨j, hj, heq⟩ := List.mem_map.mp h
      cases j <;> cases heq
      exact hj
    · exact fun h => List.mem_map.mpr ⟨_, h, rfl⟩
  cases key with
  | event id => simp [closedVector]
  | subroutine id =>
    unfold closedVector closeInstructions
    split_ifs
    · exact hret _
    · rw [List.mem_append, hret]
      simp

include hemit

variable (table) in
theorem fixup_ordered :
    Ordered (emitted.fixup table).events ∧ Ordered (emitted.fixup table).subroutines := by
  obtain ⟨hwf, -, -⟩ := emitProgram_spec hemit
  have hevents : (emitted.fixup table).events.map Prod.fst =
      (emitted.events.filter fun e => !e.2.elements.isEmpty).map Prod.fst := by
    simp [PreLinkBytecode.fixup, Function.comp_def]
  have hsubs : (emitted.fixup table).subroutines.map Prod.fst =
      emitted.subroutines.map Prod.fst := by
    simp [PreLinkBytecode.fixup, Function.comp_def]
  rw [Ordered, Ordered, hevents, hsubs]
  exact ⟨hwf.events.filter _, hwf.subroutines⟩

variable (table) in
/-- The vectors that stay are those that have code. -/
theorem mem_events_iff {id : Nat} :
    (∃ v, (id, v) ∈ (emitted.fixup table).events) ↔ HasCode program (.event id) := by
  obtain ⟨hwf, hwords, hkeys⟩ := emitProgram_spec hemit
  have hid := hwords (.event id)
  constructor
  · rintro ⟨v, hv⟩ hnil
    obtain ⟨⟨k, v₀⟩, hmem, heq⟩ := List.mem_map.mp hv
    obtain ⟨rfl, -⟩ := Prod.mk.inj heq
    obtain ⟨hmem, hne⟩ := List.mem_filter.mp hmem
    rw [PreLinkBytecode.wordsAt, PreLinkBytecode.lookup, hwf.events.find?_of_mem hmem, hnil] at hid
    rw [List.map_eq_nil_iff.mp hid] at hne
    cases hne
  · intro hcode
    cases hfind : emitted.lookup (.event id) with
    | none =>
      rw [PreLinkBytecode.wordsAt, hfind] at hid
      have hsize := congrArg List.length hid
      rw [length_assemble] at hsize
      exact absurd (codeSize_eq_zero.mp hsize.symm) hcode
    | some v =>
      rw [PreLinkBytecode.wordsAt, hfind] at hid
      refine ⟨closeEvent v, List.mem_map.mpr
        ⟨(id, v), List.mem_filter.mpr ⟨mem_of_find? hfind, ?_⟩, rfl⟩⟩
      cases helements : v.elements with
      | nil =>
        rw [Option.elim_some, BytecodeVector.words, helements] at hid
        have hsize := congrArg List.length hid
        rw [length_assemble] at hsize
        exact absurd (codeSize_eq_zero.mp hsize.symm) hcode
      | cons e es => rfl

theorem event_words {id : Nat} {v : BytecodeVector} (hv : (id, v) ∈ (emitted.fixup table).events) :
    v.words = assemble (closedVector program (.event id)) := fixup_event_words hemit table hv

include hfit

theorem subroutine_words {id : Nat} {v : BytecodeVector}
    (hv : (id, v) ∈ (emitted.fixup table).subroutines) :
    v.words = assemble (closedVector program (.subroutine id)) :=
  fixup_subroutine_words hemit table hv (hfit _ (List.mem_cons_of_mem _
    ((fixup_subroutine_iff hemit table id).mp ⟨v, hv⟩))).allPack

/-- Every vector consists of the words of a closed vector that has code. -/
theorem vector_words {e : Nat × BytecodeVector}
    (he : e ∈ (emitted.fixup table).events ++ (emitted.fixup table).subroutines) :
    ∃ key, HasCode program key ∧ e.2.words = assemble (closedVector program key) := by
  rcases List.mem_append.mp he with he | he
  · exact ⟨.event e.1, (mem_events_iff table hemit).mp ⟨e.2, he⟩, event_words hemit he⟩
  · exact ⟨.subroutine e.1, (fixup_subroutine_iff hemit table e.1).mp ⟨e.2, he⟩,
      subroutine_words hfit hemit he⟩

omit hfit hemit in
theorem closedVector_ne_nil (key : CurrentBytecode) : closedVector program key ≠ [] := by
  cases key with
  | event id => simp [closedVector]
  | subroutine id =>
    unfold closedVector closeInstructions
    split_ifs with h
    · exact List.ne_nil_of_mem (List.mem_of_getLast? h)
    · simp

theorem linkable_of_backEnd {td : TargetDescription} {p : PreLinkBytecode}
    {out : List BytecodeElement} {table' : List SubroutineDescriptor}
    (hback : backEnd td table program = .ok (p, out, table'))
    (hids : ∀ e ∈ p.events, HarmlessId e.1) (hsize : out.length ≤ 4096) : Linkable p := by
  obtain ⟨emitted', hemit', rfl, hverify, hlink⟩ := backEnd_eq_ok hback
  cases hemit.symm.trans hemit'
  have hordered : Ordered (emitted.fixup table).subroutines := (fixup_ordered table hemit).2
  refine ⟨hordered, fun e he hnil => ?_, fun e he => ?_, fun e he => ?_, hids, ?_⟩
  · obtain ⟨key, -, hwords⟩ := vector_words hfit hemit he
    rw [BytecodeVector.words, hnil] at hwords
    have hlength := congrArg List.length hwords
    rw [length_assemble] at hlength
    exact closedVector_ne_nil key (codeSize_eq_zero.mp hlength.symm)
  · obtain ⟨key, hkey, hwords⟩ := vector_words hfit hemit he
    exact framed_of_words hwords (closedVector_fits hfit hkey).allPack
  · exact calls_of_verified hverify e he hordered
  · obtain ⟨out', hrun, hpure⟩ := Outcome.bind_eq_ok.mp hlink
    obtain ⟨-, rfl, -⟩ : _ ∧ out' = out ∧ _ := by simpa using hpure
    rwa [← length_resolveCalls hrun]

end Accepted

/-! ## Addresses -/

/-- Where a vector stands in the linked program. -/
def addressOf (p : PreLinkBytecode) : CurrentBytecode → Nat
  | .event id => (find? ((placedEvents p).map fun q => (q.2.1, q.1)) id).getD 0
  | .subroutine id => (find? ((placedSubroutines p).map fun q => (q.2.1, q.1)) id).getD 0

theorem placed_keys (base : Nat) (vs : List (Nat × BytecodeVector)) :
    ((placedFrom base vs).map fun q => (q.2.1, q.1)).map Prod.fst = vs.map Prod.fst := by
  induction vs generalizing base with
  | nil => rfl
  | cons e rest ih => simp [placedFrom, ih]

theorem find?_placed {base : Nat} {vs : List (Nat × BytecodeVector)} (h : Ordered vs)
    {q : Nat × Nat × BytecodeVector} (hq : q ∈ placedFrom base vs) :
    find? ((placedFrom base vs).map fun q => (q.2.1, q.1)) q.2.1 = some q.1 := by
  refine Ordered.find?_of_mem ?_ (List.mem_map_of_mem (f := fun q => (q.2.1, q.1)) hq)
  rw [Ordered, placed_keys]
  exact h

/-- The vector at the address of a key. -/
theorem exists_placedFrom (base : Nat) {vs : List (Nat × BytecodeVector)} {id : Nat} {v : BytecodeVector}
    (hv : (id, v) ∈ vs) : ∃ addr, (addr, id, v) ∈ placedFrom base vs := by
  obtain ⟨pre, post, hvs⟩ := List.append_of_mem hv
  exact ⟨_, mem_placedFrom.mpr ⟨pre, post, hvs, rfl⟩⟩

/-- A closed vector leaves by its exit only, so relocating it is resolving its calls. -/
theorem relocated_closedVector (program : List (Toplevel (Statement Comparison)))
    (key : CurrentBytecode) (start : Nat → Nat) :
    (closedVector program key).map (relocated (exitOf key) start) =
      (closedVector program key).map (linkedInstruction start) := by
  refine List.map_congr_left fun i hi => ?_
  cases key with
  | event id => cases i <;> rfl
  | subroutine id =>
    have hret : ∀ is : List Instruction, i ∈ is.map retSub → i ≠ .stop := by
      rintro is h rfl
      obtain ⟨j, -, heq⟩ := List.mem_map.mp h
      cases j <;> cases heq
    have hstop : i ≠ .stop := by
      unfold closedVector closeInstructions at hi
      split_ifs at hi
      · exact hret _ hi
      · rcases List.mem_append.mp hi with hi | hi
        · exact hret _ hi
        · rw [List.mem_singleton.mp hi]
          nofun
    cases i <;> first | rfl | exact absurd rfl hstop

section Installation

variable {program : List (Toplevel (Statement Comparison))} {table : List SubroutineDescriptor}
  {td : TargetDescription} {p : PreLinkBytecode} {out : List BytecodeElement}
  {table' : List SubroutineDescriptor} (hfit : OperandsFit program)
  (hback : backEnd td table program = .ok (p, out, table'))

include hfit hback

/-- A vector that has code is placed at its address. -/
theorem placed_of_hasCode {key : CurrentBytecode} (hkey : HasCode program key) :
    ∃ v, v.words = assemble (closedVector program key) ∧
      match key with
      | .event id => (addressOf p key, id, v) ∈ placedEvents p
      | .subroutine id => (addressOf p key, id, v) ∈ placedSubroutines p := by
  obtain ⟨emitted, hemit, rfl, -, -⟩ := backEnd_eq_ok hback
  cases key with
  | event id =>
    obtain ⟨v, hv⟩ := (mem_events_iff table hemit).mpr hkey
    obtain ⟨addr, hq⟩ := exists_placedFrom (tableSize (emitted.fixup table)) hv
    have haddr : addressOf (emitted.fixup table) (.event id) = addr := by
      rw [addressOf, placedEvents, find?_placed (fixup_ordered table hemit).1 hq]
      rfl
    exact ⟨v, event_words hemit hv, by rw [haddr]; exact hq⟩
  | subroutine id =>
    obtain ⟨v, hv⟩ := (fixup_subroutine_iff hemit table id).mpr hkey
    obtain ⟨addr, hq⟩ := exists_placedFrom (tableSize (emitted.fixup table) +
      (flatten (emitted.fixup table).events).length) hv
    have haddr : addressOf (emitted.fixup table) (.subroutine id) = addr := by
      rw [addressOf, placedSubroutines, find?_placed (fixup_ordered table hemit).2 hq]
      rfl
    exact ⟨v, subroutine_words hfit hemit hv, by rw [haddr]; exact hq⟩

variable (hids : ∀ e ∈ p.events, e.1 < 65536 ∧ HarmlessId e.1) (hsize : out.length ≤ 4096)

include hids hsize

/-- The machine finds the handlers at their addresses. -/
theorem handlerAddress_linked (id : Nat) :
    handlerAddress (out.map BytecodeElement.bytecode) id =
      if vectorInstructions program (.event id) = [] then none
      else some (addressOf p (.event id)) := by
  obtain ⟨emitted, hemit, rfl, -, hlink⟩ := backEnd_eq_ok hback
  have hp := linkable_of_backEnd hfit hemit hback (fun e he => (hids e he).2) hsize
  obtain ⟨-, rfl⟩ := hp.output hlink
  obtain ⟨hheader, hquiet⟩ := header_scan hp.size hp.harmless
  set resolve := resolved (linkedTable (emitted.fixup table) table) with hresolve
  have hstay : ∀ q ∈ heads BytecodeElement.getWordSize 0 (header (emitted.fixup table)),
      resolve q.2 = q.2 := fun q hq => resolved_of_not_call _ (hquiet q hq)
  have hlength := hp.size
  rw [length_unresolvedBytecode, flatten_append, List.length_append] at hlength
  have hhead : (BytecodeElement.of (tableSize (emitted.fixup table)) 0).bytecode.toNat =
      1 + (emitted.fixup table).events.length * 2 := by
    simp only [BytecodeElement.of, BitVec.toNat_ofNat]
    rw [Nat.mod_eq_of_lt (by omega), tableSize, Nat.add_comm]
  have hfind : handlerAddress ((visit BytecodeElement.getWordSize resolve 0
      (unresolvedBytecode (emitted.fixup table))).map BytecodeElement.bytecode) id =
      find? ((placedEvents (emitted.fixup table)).map fun q => (q.2.1, q.1)) id := by
    rw [unresolvedBytecode_eq, visit_append_of_framed _ hheader fun q hq => by rw [hstay q hq],
      visit_eq_self _ hstay, header, List.cons_append, List.map_cons, List.map_append]
    simp only [handlerAddress, hhead]
    rw [eventEntries_eventTable _ _ _ _ (fun e he => (hids e he).1) (by omega), List.map_map]
    rfl
  rw [hfind]
  split_ifs with hnil
  · rw [← Option.not_isSome_iff_eq_none, isSome_find?_iff, placedEvents, placed_keys]
    rintro hmem
    obtain ⟨⟨k, v⟩, hv, rfl⟩ := List.mem_map.mp hmem
    exact (mem_events_iff table hemit).mp ⟨v, hv⟩ hnil
  · obtain ⟨v, hv⟩ := (mem_events_iff table hemit).mpr hnil
    obtain ⟨addr, hq⟩ := exists_placedFrom (tableSize (emitted.fixup table)) hv
    have hfound := find?_placed (fixup_ordered table hemit).1 hq
    rw [addressOf, placedEvents, hfound]
    rfl

/-- What the back end makes of a program is the program, installed. -/
theorem installed_of_backEnd :
    Installed program (out.map BytecodeElement.bytecode) (addressOf p)
      (handlerAddress (out.map BytecodeElement.bytecode)) := by
  obtain ⟨emitted, hemit, hfixup, -, hlink⟩ := backEnd_eq_ok hback
  have hp : Linkable p := linkable_of_backEnd hfit hemit hback (fun e he => (hids e he).2) hsize
  have hplaced : ∀ {key}, HasCode program key → ∃ q ∈ placedEvents p ++ placedSubroutines p,
      q.1 = addressOf p key ∧ q.2.2.words = assemble (closedVector program key) := by
    intro key hkey
    obtain ⟨v, hwords, hq⟩ := placed_of_hasCode hfit hback hkey
    cases key with
    | event id => exact ⟨_, List.mem_append_left _ hq, rfl, hwords⟩
    | subroutine id => exact ⟨_, List.mem_append_right _ hq, rfl, hwords⟩
  have hcalls : ∀ {key}, HasCode program key → ∀ id, .subCall id ∈ closedVector program key →
      HasCode program (.subroutine id) ∧ ∃ d, (linkedTable p table)[id]? = some d ∧
        d.address = addressOf p (.subroutine id) ∧ d.address < 4096 := by
    intro key hkey id hid
    obtain ⟨q, hq, -, hwords⟩ := hplaced hkey
    obtain ⟨d, q', hd, hq', rfl, hstart, hlt⟩ := hp.called hlink hq
      (mem_calledIds_of_words hwords (closedVector_fits hfit hkey) hid)
    have haddr : addressOf p (.subroutine q'.2.1) = q'.1 := by
      rw [addressOf, placedSubroutines, find?_placed hp.subroutines hq']
      rfl
    obtain ⟨pre, post, hvs, -⟩ := mem_placedFrom.mp hq'
    have hmem : q'.2 ∈ p.subroutines := by simp [hvs]
    rw [hfixup] at hmem
    exact ⟨(fixup_subroutine_iff hemit table q'.2.1).mp ⟨q'.2.2, hmem⟩, d, hd,
      hstart.trans haddr.symm, hlt⟩
  refine ⟨fun key hkey => ?_, fun key hkey id hid => (hcalls hkey id (mem_closedVector.mpr hid)).1,
    fun key key' hkey hkey' hne => ?_, handlerAddress_linked hfit hback hids hsize, ?_⟩
  · obtain ⟨q, hq, haddr, hwords⟩ := hplaced hkey
    rw [relocated_closedVector, ← haddr]
    exact hp.codeAt hlink hq hwords (closedVector_fits hfit hkey) fun id hid => (hcalls hkey id hid).2
  · obtain ⟨v, hwords, hq⟩ := placed_of_hasCode hfit hback hkey
    obtain ⟨v', hwords', hq'⟩ := placed_of_hasCode hfit hback hkey'
    have hlength : v.elements.length = codeSize (closedVector program key) := by
      simpa [BytecodeVector.words] using congrArg List.length hwords
    have hlength' : v'.elements.length = codeSize (closedVector program key') := by
      simpa [BytecodeVector.words] using congrArg List.length hwords'
    rw [← hlength, ← hlength']
    cases key with
    | event id =>
      cases key' with
      | event id' => exact placedFrom_disjoint hq hq' fun h => hne (by rw [(Prod.mk.inj h).1])
      | subroutine id' => exact .inl ((placedFrom_end hq).2.trans (placedFrom_end hq').1)
    | subroutine id =>
      cases key' with
      | event id' => exact .inr ((placedFrom_end hq').2.trans (placedFrom_end hq).1)
      | subroutine id' => exact placedFrom_disjoint hq hq' fun h => hne (by rw [(Prod.mk.inj h).1])
  · rw [List.length_map]
    omega

end Installation

end ThymioDeviceManager.Correctness
