import ThymioDeviceManager.Machine.Instruction
import ThymioDeviceManager.Compiler.Compile

/-! # Linking

`link` lays the vectors out one after the other behind a table of events, and
then scans the whole output, the table included, as a stream of instructions to
resolve the calls. The layout is right by construction. The scan is right when
it meets a `SUB_CALL` word exactly at the `SUB_CALL` instructions of the vectors:
the words of the table are data, and one that looks like an instruction of
another size, or like a call, breaks it.
-/

namespace ThymioDeviceManager.Correctness

open Compiler Library OrderedMap Framing Machine

/-! ## Layout -/

/-- Vectors one after the other, each with its start, from an address on. -/
def placedFrom : Nat → List (Nat × BytecodeVector) → List (Nat × Nat × BytecodeVector)
  | _, [] => []
  | addr, (id, v) :: rest => (addr, id, v) :: placedFrom (addr + v.elements.length) rest

/-- The number of words before the code. -/
def tableSize (p : PreLinkBytecode) : Nat := p.events.length * 2 + 1

def placedEvents (p : PreLinkBytecode) : List (Nat × Nat × BytecodeVector) :=
  placedFrom (tableSize p) p.events

def placedSubroutines (p : PreLinkBytecode) : List (Nat × Nat × BytecodeVector) :=
  placedFrom (tableSize p + (flatten p.events).length) p.subroutines

/-- The word is a `SUB_CALL`. -/
def isCall (e : BytecodeElement) : Bool := opcode e.bytecode = AsebaBytecodeId.subCall.code

/-- The `SUB_CALL` instructions of a vector, with the identifiers they name. -/
def vectorCalls (v : BytecodeVector) : List (Nat × Nat) :=
  ((heads BytecodeElement.getWordSize 0 v.elements).filter fun p => isCall p.2).map fun p =>
    (p.1, field p.2.bytecode)

/-- The addresses of the `SUB_CALL` instructions in the output, with the identifiers they name. -/
def callSites (p : PreLinkBytecode) : List (Nat × Nat) :=
  (placedEvents p ++ placedSubroutines p).flatMap fun q =>
    (vectorCalls q.2.2).map fun c => (q.1 + c.1, c.2)

/-- What fixing up a generated program guarantees: ordered maps, closed vectors, one vector for
each entry of the subroutine table, and calls of subroutines that exist. -/
structure Prelinked (p : PreLinkBytecode) (table : List SubroutineDescriptor) : Prop where
  ordered : Ordered p.events
  eventIds : ∀ e ∈ p.events, e.1 < 65536
  nonempty : ∀ e ∈ p.events ++ p.subroutines, e.2.elements ≠ []
  subroutineIds : p.subroutines.map Prod.fst = List.range table.length
  calls : ∀ e ∈ p.events ++ p.subroutines, ∀ c ∈ vectorCalls e.2, c.2 < table.length

/-- The output of the linker is the prelinked program: the table gives the start of every event,
the code of an event is there, every call goes to the start of the subroutine it names, and no
other word was changed. -/
structure LinkedCorrectly (p : PreLinkBytecode) (out : List BytecodeElement) : Prop where
  table : ∀ addr id, (getEventAddressesToIds out).find? addr = some id ↔
    ∃ v, (addr, id, v) ∈ placedEvents p
  events : ∀ q ∈ placedEvents p, ∀ j < q.2.2.elements.length,
    q.1 + j ∉ (callSites p).map Prod.fst → out[q.1 + j]? = q.2.2.elements[j]?
  calls : ∀ i id, (i, id) ∈ callSites p → ∃ addr v e, (addr, id, v) ∈ placedSubroutines p ∧
    out[i]? = some e ∧ isCall e ∧ field e.bytecode = addr
  others : ∀ i, i ∉ (callSites p).map Prod.fst → out[i]? = (unresolvedBytecode p)[i]?

/-- The scan of the output stops on a `SUB_CALL` word exactly at the calls of the vectors. -/
def ScanMeetsCalls (p : PreLinkBytecode) : Prop :=
  ∀ i, (∃ e, (i, e) ∈ heads BytecodeElement.getWordSize 0 (unresolvedBytecode p) ∧ isCall e) ↔
    i ∈ (callSites p).map Prod.fst

theorem mem_placedFrom {base : Nat} {vs : List (Nat × BytecodeVector)}
    {q : Nat × Nat × BytecodeVector} :
    q ∈ placedFrom base vs ↔
      ∃ pre post, vs = pre ++ q.2 :: post ∧ q.1 = base + (flatten pre).length := by
  constructor
  · intro h
    induction vs generalizing base with
    | nil => simp [placedFrom] at h
    | cons p rest ih =>
      obtain ⟨id, v⟩ := p
      rcases List.mem_cons.mp h with rfl | h
      · exact ⟨[], rest, rfl, by simp [flatten]⟩
      · obtain ⟨pre, post, rfl, hq⟩ := ih h
        refine ⟨(id, v) :: pre, post, rfl, ?_⟩
        rw [hq]
        simp [flatten, Nat.add_assoc]
  · rintro ⟨pre, post, rfl, hq⟩
    induction pre generalizing base with
    | nil =>
      obtain ⟨a, id, v⟩ := q
      simp only [flatten, List.flatMap_nil, List.length_nil, Nat.add_zero] at hq
      subst hq
      exact List.mem_cons_self ..
    | cons p pre ih =>
      obtain ⟨id, v⟩ := p
      refine List.mem_cons_of_mem _ (ih ?_)
      rw [hq]
      simp [flatten, Nat.add_assoc]

theorem length_eventTable (addr : Nat) (events : List (Nat × BytecodeVector)) :
    (eventTable addr events).length = events.length * 2 := by
  induction events generalizing addr with
  | nil => rfl
  | cons p rest ih =>
    simp [eventTable, ih]
    omega

/-- The table and the word before it. -/
def header (p : PreLinkBytecode) : List BytecodeElement :=
  BytecodeElement.of (tableSize p) 0 :: eventTable (tableSize p) p.events

theorem length_header (p : PreLinkBytecode) : (header p).length = tableSize p := by
  simp [header, length_eventTable, tableSize]

theorem unresolvedBytecode_eq (p : PreLinkBytecode) :
    unresolvedBytecode p = header p ++ (flatten p.events ++ flatten p.subroutines) := by
  simp [unresolvedBytecode, header, tableSize]

theorem flatten_append (vs ws : List (Nat × BytecodeVector)) :
    flatten (vs ++ ws) = flatten vs ++ flatten ws := by
  simp [flatten]

/-- A word of a placed vector is in the output at its place. -/
theorem getElem?_unresolved {p : PreLinkBytecode} {q : Nat × Nat × BytecodeVector}
    (hq : q ∈ placedEvents p ++ placedSubroutines p) {j : Nat} {e : BytecodeElement}
    (hj : q.2.2.elements[j]? = some e) : (unresolvedBytecode p)[q.1 + j]? = some e := by
  obtain ⟨pre, post, hcode, haddr⟩ : ∃ pre post,
      flatten p.events ++ flatten p.subroutines = pre ++ q.2.2.elements ++ post ∧
        q.1 = tableSize p + pre.length := by
    rcases List.mem_append.mp hq with hq | hq
    · obtain ⟨pre, post, hvs, haddr⟩ := mem_placedFrom.mp hq
      refine ⟨flatten pre, flatten post ++ flatten p.subroutines, ?_, haddr⟩
      rw [hvs, flatten_append]
      simp [flatten]
    · obtain ⟨pre, post, hvs, haddr⟩ := mem_placedFrom.mp hq
      refine ⟨flatten p.events ++ flatten pre, flatten post, ?_, ?_⟩
      · rw [hvs, flatten_append]
        simp [flatten]
      · rw [haddr, List.length_append, Nat.add_assoc]
  have hlt : j < q.2.2.elements.length := (List.getElem?_eq_some_iff.mp hj).1
  rw [unresolvedBytecode_eq, hcode, haddr, ← length_header, Nat.add_assoc,
    List.getElem?_append_right (by omega), Nat.add_sub_cancel_left, List.append_assoc,
    List.getElem?_append_right (by omega), Nat.add_sub_cancel_left,
    List.getElem?_append_left hlt, hj]

theorem mem_callSites {p : PreLinkBytecode} {i id : Nat} :
    (i, id) ∈ callSites p ↔ ∃ q ∈ placedEvents p ++ placedSubroutines p, ∃ j e,
      (j, e) ∈ heads BytecodeElement.getWordSize 0 q.2.2.elements ∧ isCall e ∧
        field e.bytecode = id ∧ i = q.1 + j := by
  simp only [callSites, vectorCalls, List.mem_flatMap, List.mem_map, List.mem_filter,
    Prod.exists, Prod.mk.injEq]
  constructor
  · rintro ⟨a, k, v, hq, j, f, ⟨j', e, ⟨hmem, hcall⟩, rfl, rfl⟩, rfl, rfl⟩
    exact ⟨a, k, v, hq, j', e, hmem, hcall, rfl, rfl⟩
  · rintro ⟨a, k, v, hq, j, e, hmem, hcall, rfl, rfl⟩
    exact ⟨a, k, v, hq, j, _, ⟨j, e, ⟨hmem, hcall⟩, rfl, rfl⟩, rfl, rfl⟩

/-- At a call site, the output before resolution holds a call of the identifier. -/
theorem getElem?_callSite {p : PreLinkBytecode} {i id : Nat} (h : (i, id) ∈ callSites p) :
    ∃ e, (unresolvedBytecode p)[i]? = some e ∧ isCall e ∧ field e.bytecode = id := by
  obtain ⟨q, hq, j, e, hmem, hcall, hid, rfl⟩ := mem_callSites.mp h
  exact ⟨e, getElem?_unresolved hq (getElem?_of_mem_heads _ hmem), hcall, hid⟩

theorem callSite_id_lt {p : PreLinkBytecode} {table : List SubroutineDescriptor}
    (hp : Prelinked p table) {i id : Nat} (h : (i, id) ∈ callSites p) : id < table.length := by
  obtain ⟨q, hq, j, e, hmem, hcall, hid, -⟩ := mem_callSites.mp h
  have hvec : q.2 ∈ p.events ++ p.subroutines := by
    rcases List.mem_append.mp hq with hq | hq
    · obtain ⟨pre, post, hvs, -⟩ := mem_placedFrom.mp hq
      simp [hvs]
    · obtain ⟨pre, post, hvs, -⟩ := mem_placedFrom.mp hq
      simp [hvs]
  refine hp.calls q.2 hvec (j, id) ?_
  exact List.mem_map.mpr ⟨(j, e), List.mem_filter.mpr ⟨hmem, hcall⟩, by rw [hid]⟩

/-! ## Resolution of one word -/

/-- A word after the scan stopped on it. -/
def resolved (table : List SubroutineDescriptor) (e : BytecodeElement) : BytecodeElement :=
  match table[field e.bytecode]? with
  | some d =>
    if isCall e then { e with bytecode := (e.bytecode &&& 0xf000) ||| BitVec.ofNat 16 d.address }
    else e
  | none => e

theorem resolved_of_not_call (table : List SubroutineDescriptor) {e : BytecodeElement}
    (h : ¬ isCall e) : resolved table e = e := by
  unfold resolved
  split <;> simp [h]

theorem opcode_resolve (w : Word) {a : Nat} (ha : a < 4096) :
    opcode ((w &&& 0xf000) ||| BitVec.ofNat 16 a) = opcode w := by
  have hw := opcode_lt w
  have ha' : (BitVec.ofNat 16 a) >>> 12 = 0#16 := by
    apply BitVec.eq_of_toNat_eq
    rw [BitVec.toNat_ushiftRight, BitVec.toNat_ofNat, Nat.shiftRight_eq_div_pow]
    simp
    omega
  unfold opcode at hw ⊢
  rw [BitVec.ushiftRight_or_distrib, BitVec.ushiftRight_and_distrib, ha', BitVec.or_zero,
    BitVec.toNat_and]
  exact Nat.and_two_pow_sub_one_of_lt_two_pow (n := 4) hw

theorem field_resolve (w : Word) {a : Nat} (ha : a < 4096) :
    field ((w &&& 0xf000) ||| BitVec.ofNat 16 a) = a := by
  have hmask : (w &&& 0xf000) &&& 0x0fff = 0#16 := by
    rw [BitVec.and_assoc]
    exact BitVec.and_zero
  have ha' : (BitVec.ofNat 16 a) &&& 0x0fff = BitVec.ofNat 16 a := by
    apply BitVec.eq_of_toNat_eq
    have := field_eq (BitVec.ofNat 16 a)
    unfold field at this
    rw [this, BitVec.toNat_ofNat]
    omega
  unfold field
  rw [BitVec.and_or_distrib_right, hmask, BitVec.zero_or, ha', BitVec.toNat_ofNat]
  omega

section Resolution

variable {table : List SubroutineDescriptor} (hsmall : ∀ d ∈ table, d.address < 4096)
include hsmall

theorem resolved_call {e : BytecodeElement} {d : SubroutineDescriptor} (hcall : isCall e)
    (hd : table[field e.bytecode]? = some d) :
    isCall (resolved table e) ∧ field (resolved table e).bytecode = d.address := by
  have ha := hsmall d (List.mem_of_getElem? hd)
  have heq : resolved table e =
      { e with bytecode := (e.bytecode &&& 0xf000) ||| BitVec.ofNat 16 d.address } := by
    simp [resolved, hd, hcall]
  rw [heq]
  constructor
  · simp only [isCall, decide_eq_true_eq] at hcall ⊢
    rw [opcode_resolve _ ha, hcall]
  · exact field_resolve _ ha

theorem getWordSize_resolved (e : BytecodeElement) :
    (resolved table e).getWordSize = e.getWordSize := by
  unfold resolved
  split
  next d hd =>
    split_ifs
    · simp only [BytecodeElement.getWordSize, wordSize,
        opcode_resolve _ (hsmall d (List.mem_of_getElem? hd))]
    · rfl
  next => rfl

omit hsmall in
theorem resolveElement_eq_ok {e e' : BytecodeElement} :
    resolveElement table e = .ok e' ↔
      (isCall e → field e.bytecode < table.length) ∧ e' = resolved table e := by
  unfold resolveElement resolved isCall
  by_cases hcall : opcode e.bytecode = AsebaBytecodeId.subCall.code
  · cases hd : table[field e.bytecode]? with
    | none =>
      have := List.getElem?_eq_none_iff.mp hd
      simp [hcall, this]
    | some d =>
      have hlt := (List.getElem?_eq_some_iff.mp hd).1
      simp only [hcall, if_true, decide_true, Outcome.ok.injEq]
      exact ⟨fun h => ⟨fun _ => hlt, h.symm⟩, fun h => h.2.symm⟩
  · cases hd : table[field e.bytecode]? <;>
      simp only [hcall, if_false, decide_false, Outcome.ok.injEq, Bool.false_eq_true] <;>
      exact ⟨fun h => ⟨nofun, h.symm⟩, fun h => h.2.symm⟩

/-- The scan returns when every call it meets names an entry of the table, and then it has
rewritten the words it stopped on. -/
theorem resolveCalls_eq_ok {skip : Nat} {l out : List BytecodeElement} :
    resolveCalls table skip l = .ok out ↔
      (∀ i e, (i, e) ∈ heads BytecodeElement.getWordSize skip l → isCall e →
        field e.bytecode < table.length) ∧
      out = visit BytecodeElement.getWordSize (resolved table) skip l := by
  induction l generalizing skip out with
  | nil =>
    have hnil : resolveCalls table skip [] = .ok [] := by cases skip <;> rfl
    rw [hnil, visit_nil, Outcome.ok.injEq]
    exact ⟨fun h => ⟨by simp, h.symm⟩, fun h => h.2.symm⟩
  | cons e l ih =>
    cases skip with
    | zero =>
      simp only [resolveCalls, Outcome.bind_eq_ok, resolveElement_eq_ok, ih, Outcome.pure_eq,
        Outcome.ok.injEq]
      constructor
      · rintro ⟨e', ⟨he, rfl⟩, rest, ⟨hrest, rfl⟩, rfl⟩
        rw [getWordSize_resolved hsmall] at hrest
        refine ⟨fun i a hmem hcall => ?_, rfl⟩
        rcases List.mem_cons.mp hmem with heq | hmem
        · cases heq
          exact he hcall
        · obtain ⟨⟨j, b⟩, hj, heq⟩ := List.mem_map.mp hmem
          cases heq
          exact hrest j _ hj hcall
      · rintro ⟨hall, rfl⟩
        refine ⟨_, ⟨hall 0 e (by simp [heads]), rfl⟩, _, ⟨fun i a hmem hcall => ?_, rfl⟩, rfl⟩
        rw [getWordSize_resolved hsmall] at hmem
        refine hall (i + 1) a ?_ hcall
        exact List.mem_cons_of_mem _ (List.mem_map.mpr ⟨(i, a), hmem, rfl⟩)
    | succ k =>
      simp only [resolveCalls, Outcome.bind_eq_ok, ih, Outcome.pure_eq, Outcome.ok.injEq]
      constructor
      · rintro ⟨rest, ⟨hrest, rfl⟩, rfl⟩
        refine ⟨fun i a hmem hcall => ?_, rfl⟩
        obtain ⟨⟨j, b⟩, hj, heq⟩ := List.mem_map.mp hmem
        cases heq
        exact hrest j _ hj hcall
      · rintro ⟨hall, rfl⟩
        refine ⟨_, ⟨fun i a hmem hcall => ?_, rfl⟩, rfl⟩
        exact hall (i + 1) a (List.mem_map.mpr ⟨(i, a), hmem, rfl⟩) hcall

end Resolution

/-! ## Addresses of subroutines -/

theorem length_setAddresses (base : Nat) (vs : List (Nat × BytecodeVector))
    (table : List SubroutineDescriptor) : (setAddresses base vs table).length = table.length := by
  induction vs generalizing base table with
  | nil => rfl
  | cons p rest ih => simp [setAddresses, ih]

theorem getElem?_setAddresses_of_not_mem {base : Nat} {vs : List (Nat × BytecodeVector)}
    {table : List SubroutineDescriptor} {k : Nat} (h : k ∉ vs.map Prod.fst) :
    (setAddresses base vs table)[k]? = table[k]? := by
  induction vs generalizing base table with
  | nil => rfl
  | cons p rest ih =>
    obtain ⟨id, v⟩ := p
    simp only [List.map_cons, List.mem_cons, not_or] at h
    have hne : id ≠ k := fun he => h.1 he.symm
    rw [setAddresses, ih h.2, List.getElem?_modify_ne _ _ hne]

theorem getElem?_setAddresses {base : Nat} {vs : List (Nat × BytecodeVector)}
    {table : List SubroutineDescriptor} (hvs : (vs.map Prod.fst).Nodup)
    {q : Nat × Nat × BytecodeVector} (hq : q ∈ placedFrom base vs) :
    (setAddresses base vs table)[q.2.1]? =
      table[q.2.1]?.map fun d => { d with address := q.1 } := by
  induction vs generalizing base table with
  | nil => simp [placedFrom] at hq
  | cons p rest ih =>
    obtain ⟨id, v⟩ := p
    obtain ⟨hid, hrest⟩ := List.nodup_cons.mp hvs
    rcases List.mem_cons.mp hq with rfl | hq'
    · rw [setAddresses, getElem?_setAddresses_of_not_mem hid, List.getElem?_modify_eq]
      rfl
    · have hne : id ≠ q.2.1 := by
        rintro rfl
        obtain ⟨pre, post, hpre, -⟩ := mem_placedFrom.mp hq'
        exact hid (by simp [hpre])
      rw [setAddresses, ih hrest hq', List.getElem?_modify_ne _ _ hne]

section Placed

variable {p : PreLinkBytecode} {table : List SubroutineDescriptor} (hp : Prelinked p table)
include hp

theorem flatten_length_ge {vs : List (Nat × BytecodeVector)}
    (h : ∀ e ∈ vs, e ∈ p.events ++ p.subroutines) : vs.length ≤ (flatten vs).length := by
  induction vs with
  | nil => simp
  | cons e rest ih =>
    have hpos : 0 < e.2.elements.length :=
      List.length_pos_of_ne_nil (hp.nonempty e (h e (List.mem_cons_self ..)))
    have := ih fun e' he' => h e' (List.mem_cons_of_mem _ he')
    simp only [flatten, List.flatMap_cons, List.length_append, List.length_cons] at this ⊢
    omega

/-- A subroutine starts behind the table and behind the subroutines of smaller identifier. -/
theorem subroutine_start {q : Nat × Nat × BytecodeVector} (hq : q ∈ placedSubroutines p) :
    q.2.1 < q.1 ∧ q.1 < (unresolvedBytecode p).length := by
  obtain ⟨pre, post, hvs, haddr⟩ := mem_placedFrom.mp hq
  have hid : q.2.1 = pre.length := by
    have hget := congrArg (fun l => l[pre.length]?) hp.subroutineIds
    simp only [hvs, List.map_append, List.map_cons] at hget
    rw [List.getElem?_append_right (by simp), List.length_map, Nat.sub_self] at hget
    have hget' : (List.range table.length)[pre.length]? = some q.2.1 := hget.symm
    obtain ⟨hlt, hval⟩ := List.getElem?_eq_some_iff.mp hget'
    rw [← hval, List.getElem_range]
  have hpre := flatten_length_ge hp fun e (he : e ∈ pre) => by simp [hvs, he]
  have hne := List.length_pos_of_ne_nil (hp.nonempty q.2 (by simp [hvs]))
  have hlen : (unresolvedBytecode p).length =
      tableSize p + ((flatten p.events).length + (flatten p.subroutines).length) := by
    rw [unresolvedBytecode_eq, List.length_append, length_header, List.length_append]
  have hsubs : (flatten p.subroutines).length =
      (flatten pre).length + (q.2.2.elements.length + (flatten post).length) := by
    rw [hvs, flatten_append, List.length_append]
    simp [flatten]
  have htable : 0 < tableSize p := by simp [tableSize]
  omega

/-- After linking, the table holds the start of every subroutine. -/
theorem getElem?_linkedTable {id : Nat} (hid : id < table.length) :
    ∃ q ∈ placedSubroutines p, q.2.1 = id ∧
      ∃ d, (linkedTable p table)[id]? = some d ∧ d.address = q.1 := by
  have hmem : id ∈ p.subroutines.map Prod.fst := by
    rw [hp.subroutineIds]
    exact List.mem_range.mpr hid
  obtain ⟨⟨k, v⟩, he, rfl⟩ := List.mem_map.mp hmem
  obtain ⟨pre, post, hvs⟩ := List.append_of_mem he
  set q : Nat × Nat × BytecodeVector :=
    (tableSize p + (flatten p.events).length + (flatten pre).length, k, v) with hqdef
  have hq : q ∈ placedSubroutines p := mem_placedFrom.mpr ⟨pre, post, hvs, rfl⟩
  have hnodup : (p.subroutines.map Prod.fst).Nodup := by
    rw [hp.subroutineIds]
    exact List.nodup_range
  have hget := @getElem?_setAddresses _ _ table hnodup q hq
  rw [List.getElem?_eq_getElem hid] at hget
  exact ⟨q, hq, rfl, _, hget, rfl⟩

theorem linkedTable_small (hsize : (unresolvedBytecode p).length ≤ 4096) :
    ∀ d ∈ linkedTable p table, d.address < 4096 := by
  intro d hd
  obtain ⟨id, hid, hget⟩ := List.getElem_of_mem hd
  have hlen : (linkedTable p table).length = table.length := length_setAddresses _ _ _
  obtain ⟨q, hq, rfl, d', hd', haddr⟩ := getElem?_linkedTable hp (hlen ▸ hid)
  rw [List.getElem?_eq_getElem hid, hget, Option.some.injEq] at hd'
  have := (subroutine_start hp hq).2
  rw [hd', haddr]
  omega

end Placed

/-! ## The table of events -/

/-- The reader of the table finds the events and their starts. -/
theorem eventEntries_eventTable (events : List (Nat × BytecodeVector)) (addr pc : Nat)
    (more : List Word) (hids : ∀ e ∈ events, e.1 < 65536)
    (haddr : addr + (flatten events).length < 65536) :
    eventEntries pc (pc + events.length * 2)
        ((eventTable addr events).map BytecodeElement.bytecode ++ more) =
      (placedFrom addr events).map fun q => (q.1, q.2.1) := by
  induction events generalizing addr pc with
  | nil =>
    simp only [eventTable, List.map_nil, List.nil_append, List.length_nil, Nat.zero_mul,
      Nat.add_zero, placedFrom]
    match more with
    | [] => rfl
    | [_] => rfl
    | _ :: _ :: _ => simp [eventEntries]
  | cons e rest ih =>
    obtain ⟨id, v⟩ := e
    have hid : id < 65536 := hids (id, v) (List.mem_cons_self ..)
    have hlen : (flatten ((id, v) :: rest)).length =
        v.elements.length + (flatten rest).length := by simp [flatten]
    have hrest := ih (addr + v.elements.length) (pc + 2)
      (fun e he => hids e (List.mem_cons_of_mem _ he)) (by omega)
    have hsize : pc + 2 + rest.length * 2 = pc + (rest.length + 1) * 2 := by omega
    rw [hsize] at hrest
    simp only [eventTable, List.map_cons, List.cons_append, List.length_cons, eventEntries,
      placedFrom, BytecodeElement.of, BitVec.toNat_ofNat]
    rw [if_pos (by omega), hrest, Nat.mod_eq_of_lt hid, Nat.mod_eq_of_lt (by omega)]

theorem placedFrom_starts {events : List (Nat × BytecodeVector)}
    (hne : ∀ e ∈ events, e.2.elements ≠ []) (addr : Nat) :
    (∀ q ∈ placedFrom addr events, addr ≤ q.1) ∧
      ((placedFrom addr events).map Prod.fst).Pairwise (· < ·) := by
  induction events generalizing addr with
  | nil => simp [placedFrom]
  | cons e rest ih =>
    obtain ⟨id, v⟩ := e
    have hpos : 0 < v.elements.length :=
      List.length_pos_of_ne_nil (hne (id, v) (List.mem_cons_self ..))
    obtain ⟨hle, hsorted⟩ := ih (fun e he => hne e (List.mem_cons_of_mem _ he))
      (addr + v.elements.length)
    simp only [placedFrom, List.map_cons, List.pairwise_cons, List.mem_cons]
    refine ⟨?_, ?_, hsorted⟩
    · rintro q (rfl | hq)
      · exact Nat.le_refl _
      · exact (Nat.le_add_right _ _).trans (hle q hq)
    · intro a ha
      obtain ⟨q, hq, rfl⟩ := List.mem_map.mp ha
      have := hle q hq
      omega

/-- Reading the table of an output that starts with it. -/
theorem getEventAddressesToIds_header {p : PreLinkBytecode} {table : List SubroutineDescriptor}
    (hp : Prelinked p table) (hsize : (unresolvedBytecode p).length ≤ 4096)
    (rest : List BytecodeElement) (addr id : Nat) :
    (getEventAddressesToIds (header p ++ rest)).find? addr = some id ↔
      ∃ v, (addr, id, v) ∈ placedEvents p := by
  have hlen : tableSize p + (flatten p.events).length ≤ 4096 := by
    have := hsize
    rw [unresolvedBytecode_eq, List.length_append, length_header, List.length_append] at this
    omega
  have hentries := eventEntries_eventTable p.events (tableSize p) 1
    (rest.map BytecodeElement.bytecode) hp.eventIds (by omega)
  have hword : (BytecodeElement.of (tableSize p) 0).bytecode.toNat = 1 + p.events.length * 2 := by
    simp only [BytecodeElement.of, BitVec.toNat_ofNat]
    rw [Nat.mod_eq_of_lt (by omega), tableSize, Nat.add_comm]
  have hkeys : (((placedEvents p).map fun q => (q.1, q.2.1)).map Prod.fst).Nodup := by
    have hsorted := (placedFrom_starts (fun e he => hp.nonempty e (List.mem_append_left _ he))
      (tableSize p)).2
    rw [List.map_map]
    exact hsorted.imp fun h => Nat.ne_of_lt h
  simp only [getEventAddressesToIds, header, List.cons_append, List.map_cons, List.map_append,
    hword, hentries]
  rw [← placedEvents, find?_foldl_insert hkeys]
  simp [find?]

/-! ## The scan and the output -/

/-- Resolving the calls keeps the number of words. -/
theorem length_resolveCalls {table : List SubroutineDescriptor} {skip : Nat}
    {l out : List BytecodeElement} (h : resolveCalls table skip l = .ok out) :
    out.length = l.length := by
  induction l generalizing skip out with
  | nil =>
    have hnil : resolveCalls table skip [] = .ok [] := by cases skip <;> rfl
    cases hnil.symm.trans h
    rfl
  | cons e l ih =>
    cases skip with
    | zero =>
      obtain ⟨e', -, h⟩ := Outcome.bind_eq_ok.mp h
      obtain ⟨rest, hrest, hpure⟩ := Outcome.bind_eq_ok.mp h
      cases hpure
      rw [List.length_cons, List.length_cons, ih hrest]
    | succ k =>
      obtain ⟨rest, hrest, hpure⟩ := Outcome.bind_eq_ok.mp h
      cases hpure
      rw [List.length_cons, List.length_cons, ih hrest]

/-- Linking returns the output of the scan. -/
theorem link_eq_ok {td : TargetDescription} {p : PreLinkBytecode}
    {table : List SubroutineDescriptor} (hp : Prelinked p table)
    (hsize : (unresolvedBytecode p).length ≤ 4096) {fits : Bool} {out : List BytecodeElement}
    {table' : List SubroutineDescriptor} (h : link td p table = .ok (fits, out, table')) :
    (∀ i e, (i, e) ∈ heads BytecodeElement.getWordSize 0 (unresolvedBytecode p) → isCall e →
        field e.bytecode < table.length) ∧
      out = visit BytecodeElement.getWordSize (resolved (linkedTable p table)) 0
        (unresolvedBytecode p) := by
  simp only [link, Outcome.bind_eq_ok, resolveCalls_eq_ok (linkedTable_small hp hsize),
    Outcome.pure_eq, Outcome.ok.injEq, Prod.mk.injEq] at h
  obtain ⟨_, ⟨hvalid, rfl⟩, -, rfl, -⟩ := h
  have hlen : (linkedTable p table).length = table.length := length_setAddresses _ _ _
  exact ⟨hlen ▸ hvalid, rfl⟩

/-- A resolved call holds the start of the subroutine it named, which is never the identifier. -/
theorem resolved_callee {p : PreLinkBytecode} {table : List SubroutineDescriptor}
    (hp : Prelinked p table) (hsize : (unresolvedBytecode p).length ≤ 4096)
    {e : BytecodeElement} (hcall : isCall e) (hid : field e.bytecode < table.length) :
    isCall (resolved (linkedTable p table) e) ∧
      ∃ v, (field (resolved (linkedTable p table) e).bytecode, field e.bytecode, v) ∈
        placedSubroutines p := by
  obtain ⟨⟨a, k, v⟩, hq, hk, d, hd, haddr⟩ := getElem?_linkedTable hp hid
  obtain ⟨hcall', hfield⟩ := resolved_call (linkedTable_small hp hsize) hcall hd
  refine ⟨hcall', v, ?_⟩
  rw [hfield, haddr, ← hk]
  exact hq

theorem callSite_ge {p : PreLinkBytecode} {i id : Nat} (h : (i, id) ∈ callSites p) : tableSize p ≤ i := by
  obtain ⟨q, hq, j, e, -, -, -, rfl⟩ := mem_callSites.mp h
  rcases List.mem_append.mp hq with hq | hq
  · obtain ⟨_, _, -, haddr⟩ := mem_placedFrom.mp hq
    omega
  · obtain ⟨_, _, -, haddr⟩ := mem_placedFrom.mp hq
    omega

section Main

variable {td : TargetDescription} {p : PreLinkBytecode} {table : List SubroutineDescriptor}
  (hp : Prelinked p table) (hsize : (unresolvedBytecode p).length ≤ 4096)
include hp hsize

/-- A scan that meets exactly the calls links the program correctly. -/
theorem linked_of_scan (hscan : ScanMeetsCalls p) :
    ∃ fits out table', link td p table = .ok (fits, out, table') ∧ LinkedCorrectly p out := by
  have hsmall := linkedTable_small hp hsize
  have hlen : (linkedTable p table).length = table.length := length_setAddresses _ _ _
  have hvalid : ∀ i e, (i, e) ∈ heads BytecodeElement.getWordSize 0 (unresolvedBytecode p) →
      isCall e → field e.bytecode < table.length := by
    intro i e hmem hcall
    obtain ⟨⟨i', id⟩, hsite, rfl⟩ := List.mem_map.mp ((hscan i).mp ⟨e, hmem, hcall⟩)
    obtain ⟨e', he', -, hid⟩ := getElem?_callSite hsite
    have : e = e' := by simpa [getElem?_of_mem_heads _ hmem] using he'
    rw [this, hid]
    exact callSite_id_lt hp hsite
  set out := visit BytecodeElement.getWordSize (resolved (linkedTable p table)) 0
    (unresolvedBytecode p) with hout
  have hok : resolveCalls (linkedTable p table) 0 (unresolvedBytecode p) = .ok out :=
    (resolveCalls_eq_ok hsmall).mpr ⟨hlen.symm ▸ hvalid, hout⟩
  have hothers : ∀ i, i ∉ (callSites p).map Prod.fst → out[i]? = (unresolvedBytecode p)[i]? := by
    intro i hi
    rcases getElem?_visit BytecodeElement.getWordSize (getWordSize_resolved hsmall) 0
      (unresolvedBytecode p) i with ⟨e, hmem, hget⟩ | ⟨-, hget⟩
    · have hcall : ¬ isCall e := fun hc => hi ((hscan i).mp ⟨e, hmem, hc⟩)
      rw [hget, resolved_of_not_call _ hcall, getElem?_of_mem_heads _ hmem]
    · exact hget
  refine ⟨decide (out.length ≤ td.bytecodeSize), out, linkedTable p table, ?_, ?_, ?_, ?_, hothers⟩
  · simp only [link, hok, Outcome.ok_bind, Outcome.pure_eq]
  · -- the table is not a call site, so the scan left it alone
    have hhead : out = header p ++ out.drop (tableSize p) := by
      have htake : out.take (tableSize p) = header p := by
        apply List.ext_getElem?
        intro i
        rw [List.getElem?_take]
        split_ifs with hi
        · have hnot : i ∉ (callSites p).map Prod.fst := by
            intro hmem
            obtain ⟨⟨i', id⟩, hsite, rfl⟩ := List.mem_map.mp hmem
            exact absurd (callSite_ge hsite) (by simpa using hi)
          rw [hothers i hnot, unresolvedBytecode_eq,
            List.getElem?_append_left (by rwa [length_header])]
        · rw [eq_comm, List.getElem?_eq_none_iff, length_header]
          omega
      rw [← htake, List.take_append_drop]
    intro addr id
    rw [hhead]
    exact getEventAddressesToIds_header hp hsize _ addr id
  · intro q hq j hj hnot
    rw [hothers _ hnot, List.getElem?_eq_getElem hj]
    exact getElem?_unresolved (List.mem_append_left _ hq) (List.getElem?_eq_getElem hj)
  · intro i id hsite
    obtain ⟨e, hmem, hcall⟩ := (hscan i).mpr (List.mem_map.mpr ⟨(i, id), hsite, rfl⟩)
    obtain ⟨e', he', -, hid⟩ := getElem?_callSite hsite
    have heq : e = e' := by simpa [getElem?_of_mem_heads _ hmem] using he'
    rw [← heq] at hid
    obtain ⟨hcall', v, hv⟩ := resolved_callee hp hsize hcall (hvalid i e hmem hcall)
    rw [hid] at hv
    rcases getElem?_visit BytecodeElement.getWordSize (getWordSize_resolved hsmall) 0
      (unresolvedBytecode p) i with ⟨a, ha, hget⟩ | ⟨hno, -⟩
    · have : a = e := by
        have h₁ := getElem?_of_mem_heads _ ha
        rw [getElem?_of_mem_heads _ hmem] at h₁
        exact (Option.some.inj h₁).symm
      subst this
      exact ⟨_, v, _, hv, hget, hcall', rfl⟩
    · exact absurd hmem (hno e)

/-- A correctly linked output comes from a scan that met exactly the calls: a word that the scan
changed, or failed to change, shows in the output. -/
theorem scan_of_linked {fits : Bool} {out : List BytecodeElement}
    {table' : List SubroutineDescriptor} (hlink : link td p table = .ok (fits, out, table'))
    (hcorrect : LinkedCorrectly p out) : ScanMeetsCalls p := by
  have hsmall := linkedTable_small hp hsize
  obtain ⟨hvalid, hout⟩ := link_eq_ok hp hsize hlink
  intro i
  have hget := getElem?_visit BytecodeElement.getWordSize (getWordSize_resolved hsmall) 0
    (unresolvedBytecode p) i
  rw [← hout] at hget
  constructor
  · rintro ⟨e, hmem, hcall⟩
    by_contra hnot
    obtain ⟨-, v, hv⟩ := resolved_callee hp hsize hcall (hvalid i e hmem hcall)
    have hgt := (subroutine_start hp hv).1
    rcases hget with ⟨a, ha, hget⟩ | ⟨hno, -⟩
    · have hae : some a = some e := by
        rw [← getElem?_of_mem_heads _ ha, ← getElem?_of_mem_heads _ hmem]
      have hae := Option.some.inj hae
      subst hae
      rw [hcorrect.others i hnot, getElem?_of_mem_heads _ hmem, Option.some.injEq] at hget
      rw [← hget] at hgt
      exact Nat.lt_irrefl _ hgt
    · exact hno e hmem
  · intro hmem
    obtain ⟨⟨i', id⟩, hsite, rfl⟩ := List.mem_map.mp hmem
    obtain ⟨e, he, hcall, hid⟩ := getElem?_callSite hsite
    obtain ⟨addr, v, e', hv, he', -, hfield⟩ := hcorrect.calls _ _ hsite
    rcases hget with ⟨a, ha, -⟩ | ⟨-, hget⟩
    · have hae : some a = some e := by rw [← getElem?_of_mem_heads _ ha, ← he]
      have hae := Option.some.inj hae
      subst hae
      exact ⟨a, ha, hcall⟩
    · rw [he', he, Option.some.injEq] at hget
      have hgt := (subroutine_start hp hv).1
      rw [hget, hid] at hfield
      simp only at hgt
      omega

end Main

/-! ## When the scan meets exactly the calls -/

section Framed

variable {vs : List (Nat × BytecodeVector)}
  (hframed : ∀ e ∈ vs, Framed BytecodeElement.getWordSize e.2.elements)
include hframed

theorem framed_flatten : Framed BytecodeElement.getWordSize (flatten vs) := by
  induction vs with
  | nil => exact Framed.nil _
  | cons e rest ih =>
    have he := hframed e (List.mem_cons_self ..)
    have hrest := ih fun e' he' => hframed e' (List.mem_cons_of_mem _ he')
    simpa [flatten] using he.append _ hrest

/-- In framed vectors, the scan stops at the instructions of each of them. -/
theorem mem_heads_flatten (base i : Nat) (e : BytecodeElement) :
    (i, e) ∈ heads BytecodeElement.getWordSize 0 (flatten vs) ↔
      ∃ q ∈ placedFrom base vs, ∃ j,
        (j, e) ∈ heads BytecodeElement.getWordSize 0 q.2.2.elements ∧ base + i = q.1 + j := by
  induction vs generalizing base i with
  | nil => simp [flatten, placedFrom]
  | cons p rest ih =>
    obtain ⟨id, v⟩ := p
    have hv : Framed BytecodeElement.getWordSize v.elements := hframed _ (List.mem_cons_self ..)
    have hrest := fun i => ih (fun e' he' => hframed e' (List.mem_cons_of_mem _ he'))
      (base + v.elements.length) i
    have hcons : flatten ((id, v) :: rest) = v.elements ++ flatten rest := by simp [flatten]
    rw [hcons, heads_append_of_framed _ hv, List.mem_append]
    simp only [placedFrom, List.mem_cons, exists_eq_or_imp]
    constructor
    · rintro (h | h)
      · exact .inl ⟨i, h, rfl⟩
      · obtain ⟨⟨k, a⟩, hk, heq⟩ := List.mem_map.mp h
        obtain ⟨rfl, rfl⟩ := Prod.mk.inj heq
        obtain ⟨q, hq, j, hj, hsum⟩ := (hrest k).mp hk
        exact .inr ⟨q, hq, j, hj, by omega⟩
    · rintro (⟨j, hj, hsum⟩ | ⟨q, hq, j, hj, hsum⟩)
      · obtain rfl : i = j := by omega
        exact .inl hj
      · obtain ⟨pre, post, -, haddr⟩ := mem_placedFrom.mp hq
        refine .inr (List.mem_map.mpr ⟨(i - v.elements.length, e), ?_, ?_⟩)
        · exact (hrest _).mpr ⟨q, hq, j, hj, by omega⟩
        · rw [Prod.mk.injEq]
          exact ⟨by omega, rfl⟩

end Framed

/-- A number up to 4096 looks like an instruction of one word that is not a call. -/
theorem number_word {n : Nat} (h : n ≤ 4096) (line : UInt32) :
    (BytecodeElement.of n line).getWordSize = 1 ∧ ¬ isCall (BytecodeElement.of n line) := by
  have hop : opcode (BytecodeElement.of n line).bytecode = n / 4096 := by
    rw [opcode_eq, BytecodeElement.of, BitVec.toNat_ofNat]
    omega
  have hle : n / 4096 = 0 ∨ n / 4096 = 1 := by omega
  rcases hle with h0 | h0 <;>
    simp [BytecodeElement.getWordSize, wordSize, isCall, hop, h0, AsebaBytecodeId.code]

/-- An identifier that looks like neither `EMIT` nor `SUB_CALL` does not disturb the scan. -/
def HarmlessId (id : Nat) : Prop :=
  opcode (BitVec.ofNat 16 id) ≠ AsebaBytecodeId.emit.code ∧
    opcode (BitVec.ofNat 16 id) ≠ AsebaBytecodeId.subCall.code

theorem wordSize_of_not_emit {w : Word} (h : opcode w ≠ AsebaBytecodeId.emit.code) :
    wordSize w = 1 ∨ wordSize w = 2 := by
  unfold wordSize
  split_ifs
  · exact .inr rfl
  · exact .inl rfl

theorem entry_scan {id addr : Nat} (hid : HarmlessId id) (haddr : addr ≤ 4096) :
    Framed BytecodeElement.getWordSize [BytecodeElement.of id 0, BytecodeElement.of addr 0] ∧
      ∀ i e, (i, e) ∈ heads BytecodeElement.getWordSize 0
        [BytecodeElement.of id 0, BytecodeElement.of addr 0] → ¬ isCall e := by
  obtain ⟨hone, hnot⟩ := number_word haddr 0
  have hidnot : ¬ isCall (BytecodeElement.of id 0) := by
    simpa [isCall, BytecodeElement.of] using hid.2
  have hsize : (BytecodeElement.of id 0).getWordSize = 1 ∨
      (BytecodeElement.of id 0).getWordSize = 2 := wordSize_of_not_emit hid.1
  rcases hsize with hs | hs
  · refine ⟨by simp [Framed, leftover, hs, hone], fun i e hmem => ?_⟩
    simp only [heads, hs, Nat.sub_self, List.map_nil, List.map_cons, List.mem_cons,
      List.not_mem_nil, or_false, Prod.mk.injEq] at hmem
    rcases hmem with ⟨-, rfl⟩ | ⟨-, rfl⟩
    · exact hidnot
    · exact hnot
  · refine ⟨by simp [Framed, leftover, hs], fun i e hmem => ?_⟩
    simp only [heads, hs, Nat.add_one_sub_one, List.map_nil, List.mem_cons, List.not_mem_nil,
      or_false, Prod.mk.injEq] at hmem
    exact hmem.2 ▸ hidnot

theorem table_scan {events : List (Nat × BytecodeVector)} {addr : Nat}
    (hids : ∀ e ∈ events, HarmlessId e.1) (haddr : addr + (flatten events).length ≤ 4096) :
    Framed BytecodeElement.getWordSize (eventTable addr events) ∧
      ∀ i e, (i, e) ∈ heads BytecodeElement.getWordSize 0 (eventTable addr events) →
        ¬ isCall e := by
  induction events generalizing addr with
  | nil => exact ⟨Framed.nil _, by simp [eventTable]⟩
  | cons p rest ih =>
    obtain ⟨id, v⟩ := p
    have hlen : (flatten ((id, v) :: rest)).length =
        v.elements.length + (flatten rest).length := by simp [flatten]
    have hid := hids (id, v) (List.mem_cons_self ..)
    obtain ⟨hentry, hcalls⟩ := entry_scan hid (show addr ≤ 4096 by omega)
    obtain ⟨hframed, hrest⟩ := ih (fun e he => hids e (List.mem_cons_of_mem _ he))
      (show addr + v.elements.length + (flatten rest).length ≤ 4096 by omega)
    have hcons : eventTable addr ((id, v) :: rest) =
        [BytecodeElement.of id 0, BytecodeElement.of addr 0] ++
          eventTable (addr + v.elements.length) rest := rfl
    rw [hcons, heads_append_of_framed _ hentry]
    refine ⟨hentry.append _ hframed, fun i e hmem => ?_⟩
    rcases List.mem_append.mp hmem with hmem | hmem
    · exact hcalls i e hmem
    · obtain ⟨⟨j, a⟩, hj, heq⟩ := List.mem_map.mp hmem
      cases heq
      exact hrest j _ hj

/-- Framed vectors and harmless event identifiers are enough. -/
theorem scan_of_harmless {p : PreLinkBytecode}
    (hsize : (unresolvedBytecode p).length ≤ 4096)
    (hframed : ∀ e ∈ p.events ++ p.subroutines, Framed BytecodeElement.getWordSize e.2.elements)
    (hids : ∀ e ∈ p.events, HarmlessId e.1) : ScanMeetsCalls p := by
  have hlen : tableSize p + (flatten p.events).length ≤ 4096 := by
    have := hsize
    rw [unresolvedBytecode_eq, List.length_append, length_header, List.length_append] at this
    omega
  obtain ⟨htable, hcalls⟩ := table_scan hids hlen
  obtain ⟨hone, hnot⟩ := number_word (n := tableSize p) (by omega) 0
  have hfirst : Framed BytecodeElement.getWordSize [BytecodeElement.of (tableSize p) 0] :=
    framed_record _ hone
  have hheader : Framed BytecodeElement.getWordSize (header p) := hfirst.append _ htable
  have hheadercalls : ∀ i e, (i, e) ∈ heads BytecodeElement.getWordSize 0 (header p) →
      ¬ isCall e := by
    intro i e hmem
    have hcons : header p = [BytecodeElement.of (tableSize p) 0] ++
        eventTable (tableSize p) p.events := rfl
    rw [hcons, heads_append_of_framed _ hfirst, heads_record _ hone] at hmem
    rcases List.mem_append.mp hmem with hmem | hmem
    · rw [List.mem_singleton] at hmem
      cases hmem
      exact hnot
    · obtain ⟨⟨j, a⟩, hj, heq⟩ := List.mem_map.mp hmem
      cases heq
      exact hcalls j _ hj
  have hevents := fun e he => hframed e (List.mem_append_left _ he)
  have hsubs := fun e he => hframed e (List.mem_append_right _ he)
  intro i
  rw [unresolvedBytecode_eq, heads_append_of_framed _ hheader,
    heads_append_of_framed _ (framed_flatten hevents), length_header]
  simp only [List.mem_append, List.mem_map, List.map_append, List.map_map, Prod.exists]
  constructor
  · rintro ⟨e, (hmem | ⟨k, a, hk, heq⟩ | ⟨k, a, hk, heq⟩), hcall⟩
    · exact absurd hcall (hheadercalls i e hmem)
    · obtain ⟨rfl, rfl⟩ := Prod.mk.inj heq
      obtain ⟨q, hq, j, hj, hsum⟩ := (mem_heads_flatten hevents (tableSize p) k _).mp hk
      refine ⟨k + tableSize p, field a.bytecode, mem_callSites.mpr
        ⟨q, List.mem_append_left _ hq, j, a, hj, hcall, rfl, by omega⟩, rfl⟩
    · obtain ⟨rfl, rfl⟩ := Prod.mk.inj heq
      obtain ⟨q, hq, j, hj, hsum⟩ := (mem_heads_flatten hsubs
        (tableSize p + (flatten p.events).length) k _).mp hk
      refine ⟨k + (flatten p.events).length + tableSize p, field a.bytecode, mem_callSites.mpr
        ⟨q, List.mem_append_right _ hq, j, a, hj, hcall, rfl, by omega⟩, rfl⟩
  · rintro ⟨_, id, hsite, rfl⟩
    obtain ⟨q, hq, j, e, hj, hcall, -, rfl⟩ := mem_callSites.mp hsite
    rcases List.mem_append.mp hq with hq | hq
    · obtain ⟨pre, post, -, haddr⟩ := mem_placedFrom.mp hq
      have hk := (mem_heads_flatten hevents (tableSize p) (q.1 + j - tableSize p) e).mpr
        ⟨q, hq, j, hj, by omega⟩
      refine ⟨e, .inr (.inl ⟨_, e, hk, ?_⟩), hcall⟩
      rw [Prod.mk.injEq]
      exact ⟨by omega, rfl⟩
    · obtain ⟨pre, post, -, haddr⟩ := mem_placedFrom.mp hq
      have hk := (mem_heads_flatten hsubs (tableSize p + (flatten p.events).length)
        (q.1 + j - (tableSize p + (flatten p.events).length)) e).mpr ⟨q, hq, j, hj, by omega⟩
      refine ⟨e, .inr (.inr ⟨_, e, hk, ?_⟩), hcall⟩
      simp only [Function.comp_apply, Prod.mk.injEq]
      exact ⟨by omega, trivial⟩

/-! ## Linked programs -/

/-- A prelinked program is linked correctly exactly when the scan meets a `SUB_CALL` word at the
calls of the vectors and nowhere else, as it does when the vectors are framed and no event
identifier looks like `EMIT` or `SUB_CALL`. -/
theorem link_correct_iff {td : TargetDescription} {p : PreLinkBytecode}
    {table : List SubroutineDescriptor} (hp : Prelinked p table)
    (hsize : (unresolvedBytecode p).length ≤ 4096) :
    ((∃ fits out table', link td p table = .ok (fits, out, table') ∧ LinkedCorrectly p out) ↔
        ScanMeetsCalls p) ∧
      ((∀ e ∈ p.events ++ p.subroutines,
          Framed BytecodeElement.getWordSize e.2.elements) →
        (∀ e ∈ p.events, HarmlessId e.1) → ScanMeetsCalls p) := by
  refine ⟨⟨?_, linked_of_scan hp hsize⟩, scan_of_harmless hsize⟩
  rintro ⟨fits, out, table', hlink, hcorrect⟩
  exact scan_of_linked hp hsize hlink hcorrect

/-- An event that calls a subroutine. -/
def callingProgram : PreLinkBytecode where
  events := [(0xfffe, { elements := [⟨0xd000, 1⟩, ⟨0x0000, 1⟩] })]
  subroutines := [(0, { elements := [⟨0x1001, 2⟩, ⟨0x4000, 2⟩, ⟨0xe000, 2⟩] })]
  current := .subroutine 0

theorem callingProgram_linked :
    ∃ fits out table', link ⟨100, 100, 32, [], ["tick"], []⟩ callingProgram [⟨"s", 0, 2⟩] =
      .ok (fits, out, table') ∧ LinkedCorrectly callingProgram out := by
  have hp : Prelinked callingProgram [⟨"s", 0, 2⟩] := by
    constructor
    · exact List.pairwise_singleton _ _
    all_goals decide
  have hsize : (unresolvedBytecode callingProgram).length ≤ 4096 := by decide
  have hids : ∀ e ∈ callingProgram.events, HarmlessId e.1 := by
    unfold HarmlessId
    decide
  obtain ⟨hiff, hscan⟩ := link_correct_iff hp hsize
  exact hiff.mpr (hscan (by decide) hids)

/-- A handler for the local event number 8191, whose identifier is `0xDFFF`. -/
def distantLocalEvent : List (Toplevel (Statement Comparison)) :=
  [.eventDecl {} 0xdfff, .statement (.ret {})]

/-- The identifier is taken for a call of a subroutine that does not exist. -/
theorem distantLocalEvent_not_linked :
    ∃ emitted, emitProgram distantLocalEvent = .ok emitted ∧ Prelinked (emitted.fixup []) [] ∧
      (unresolvedBytecode (emitted.fixup [])).length ≤ 4096 ∧
      ¬ ∃ fits out table', link ⟨100, 100, 32, [], [], []⟩ (emitted.fixup []) [] =
        .ok (fits, out, table') ∧ LinkedCorrectly (emitted.fixup []) out := by
  refine ⟨_, rfl, ?_, by decide, ?_⟩
  · constructor
    · exact List.pairwise_singleton _ _
    all_goals decide
  · rintro ⟨fits, out, table', hlink, -⟩
    cases hlink

end ThymioDeviceManager.Correctness
