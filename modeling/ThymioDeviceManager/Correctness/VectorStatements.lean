import ThymioDeviceManager.Compiler.Compile
import ThymioDeviceManager.Semantics.Statement
import ThymioDeviceManager.Semantics.Vector

/-! # Vector statements mean simultaneous assignment

The scalar assignments that a vector statement expands to leave in the declared
variables what the statement means. Where the left variable is read on the right
the values go through a temporary above the declared variables; where it is not,
no assignment disturbs the operands of a later one. The expansion counts
components in a 32-bit `unsigned`, which a tuple can exceed.
-/

namespace ThymioDeviceManager.Correctness

open Compiler Library Machine Semantics

/-! ## Sizes -/

mutual

/-- The number of components, without a bound. -/
def componentCount : VNode → Nat
  | .binaryArithmetic _ _ _ right => componentCount right
  | .unaryArithmetic _ _ child => componentCount child
  | .immediate .. => 1
  | .tupleVector _ children => tupleCount children
  | .memoryVector _ _ arraySize _ => arraySize
  | .memoryAt _ _ _ _ (.tupleVector _ [.immediate _ c, .immediate _ d]) => (d - c + 1).toNat
  | .memoryAt .. => 1

def tupleCount : List VNode → Nat
  | [] => 0
  | c :: rest => componentCount c + tupleCount rest

end

mutual

/-- The components of every tuple can be counted in an `unsigned`, whose largest value means that
there is no size. -/
def SizesFit : VNode → Prop
  | .binaryArithmetic _ _ left right => SizesFit left ∧ SizesFit right
  | .unaryArithmetic _ _ child => SizesFit child
  | .immediate .. => True
  | .tupleVector _ children => tupleCount children < eNoval ∧ SizesFitList children
  | .memoryVector .. => True
  | .memoryAt _ _ _ _ index => SizesFit index

def SizesFitList : List VNode → Prop
  | [] => True
  | c :: rest => SizesFit c ∧ SizesFitList rest

end

theorem sizesFitList_iff {cs : List VNode} : SizesFitList cs ↔ ∀ c ∈ cs, SizesFit c := by
  induction cs with
  | nil => simp [SizesFitList]
  | cons c rest ih => simp [SizesFitList, ih]

section Values

variable {σ : WideShifts} {m m' : Memory} {V : Nat}

theorem length_zipBinary {op : AsebaBinaryOperator} {as bs vs : List Word}
    (h : zipBinary σ op as bs = .ok vs) : vs.length = min as.length bs.length := by
  induction as generalizing bs vs with
  | nil =>
    cases h
    simp
  | cons a as ih =>
    cases bs with
    | nil =>
      cases h
      simp
    | cons b bs =>
      simp only [zipBinary, Outcome.bind_eq_ok, Outcome.pure_eq, Outcome.ok.injEq] at h
      obtain ⟨v, -, ws, hws, rfl⟩ := h
      simp [ih hws]

theorem getElem?_zipBinary {op : AsebaBinaryOperator} {as bs vs : List Word} {i : Nat} {a b : Word}
    (h : zipBinary σ op as bs = .ok vs) (ha : as[i]? = some a) (hb : bs[i]? = some b) :
    ∃ v, vs[i]? = some v ∧ binary σ op a b = .ok v := by
  induction as generalizing bs vs i with
  | nil => cases ha
  | cons x as ih =>
    cases bs with
    | nil => cases hb
    | cons y bs =>
      simp only [zipBinary, Outcome.bind_eq_ok, Outcome.pure_eq, Outcome.ok.injEq] at h
      obtain ⟨v, hv, ws, hws, rfl⟩ := h
      cases i with
      | zero =>
        cases ha
        cases hb
        exact ⟨v, rfl, hv⟩
      | succ i =>
        rw [List.getElem?_cons_succ] at ha hb ⊢
        exact ih hws ha hb

theorem slice_eq_ok {addr n : Nat} {c d : Int} {cells : List Nat} :
    slice addr n c d = .ok cells ↔
      (0 ≤ c ∧ c ≤ d ∧ d < n) ∧ cells = List.range' (addr + c.toNat) (d - c + 1).toNat := by
  unfold slice
  split_ifs with h
  · simp only [h, Outcome.ok.injEq, true_and, and_self, @eq_comm _ cells]
  · simp only [h, false_and]

/-- A constant index is one element or a slice. -/
theorem constantCells_eq_ok {addr n : Nat} {cs : List VNode} {cells : List Nat}
    (h : constantCells addr n cs = .ok cells) :
    ∃ pos c, (cs = [.immediate pos c] ∧ slice addr n c c = .ok cells) ∨
      ∃ pos' d, cs = [.immediate pos c, .immediate pos' d] ∧ slice addr n c d = .ok cells := by
  unfold constantCells at h
  split at h
  · exact ⟨_, _, Or.inl ⟨rfl, h⟩⟩
  · exact ⟨_, _, Or.inr ⟨_, _, rfl, h⟩⟩
  · cases h

/-- The cells of a constant index belong to the array. -/
theorem has_of_mem_constantCells {addr n a : Nat} {cs : List VNode} {cells : List Nat}
    (h : constantCells addr n cs = .ok cells) (ha : a ∈ cells) : addr ≤ a ∧ a < addr + n := by
  obtain ⟨pos, c, ⟨-, hs⟩ | ⟨_, d, -, hs⟩⟩ := constantCells_eq_ok h
  · obtain ⟨hb, rfl⟩ := slice_eq_ok.mp hs
    rw [List.mem_range'_1] at ha
    omega
  · obtain ⟨hb, rfl⟩ := slice_eq_ok.mp hs
    rw [List.mem_range'_1] at ha
    omega

theorem placed_binary {pos : SourcePos} {op : AsebaBinaryOperator} {l r : VNode} :
    Placed V (.binaryArithmetic pos op l r) ↔ Placed V l ∧ Placed V r := by
  simp only [Placed, regions, List.mem_append, or_imp, forall_and]

theorem placed_memoryAt {pos : SourcePos} {addr n : Nat} {name : String} {i : VNode} :
    Placed V (.memoryAt pos addr n name i) ↔ addr + n ≤ V ∧ Placed V i := by
  simp only [Placed, regions, List.mem_cons, forall_eq_or_imp]

theorem placed_tuple {pos : SourcePos} {cs : List VNode} :
    Placed V (.tupleVector pos cs) ↔ ∀ c ∈ cs, Placed V c := by
  simp only [Placed, regions, mem_tupleRegions]
  exact ⟨fun h c hc r hr => h r ⟨c, hc, hr⟩, fun h r ⟨c, hc, hr⟩ => h c hc r hr⟩

/-- The size computed for a constant index is the number of cells. -/
theorem getVectorSize_constant {pos ipos : SourcePos} {addr n size : Nat} {name : String}
    {cs : List VNode} {cells : List Nat} (hV : addr + n < 2 ^ 16)
    (hsize : (VNode.memoryAt pos addr n name (.tupleVector ipos cs)).getVectorSize = .ok size)
    (h : constantCells addr n cs = .ok cells) :
    size = componentCount (.memoryAt pos addr n name (.tupleVector ipos cs)) ∧
      cells.length = size ∧ size < 2 ^ 16 := by
  obtain ⟨p, c, ⟨rfl, hs⟩ | ⟨p', d, rfl, hs⟩⟩ := constantCells_eq_ok h
  · obtain ⟨hb, rfl⟩ := slice_eq_ok.mp hs
    cases hsize
    refine ⟨rfl, ?_, by decide⟩
    rw [List.length_range']
    omega
  · obtain ⟨hb, rfl⟩ := slice_eq_ok.mp hs
    simp only [VNode.getVectorSize] at hsize
    change (if d < 0 ∨ d ≥ intOfU32 n then _ else _) = _ at hsize
    split_ifs at hsize
    · cases hsize
    · obtain ⟨-, rfl⟩ := sliceLength_eq_ok.mp hsize
      have hnat : u32OfInt (d - c + 1) = (d - c + 1).toNat := by
        unfold u32OfInt
        omega
      rw [hnat, List.length_range']
      exact ⟨rfl, rfl, by omega⟩

theorem tupleSize_count {cs : List VNode} {n : Nat} {vs : List Word}
    (ih : ∀ c ∈ cs, ∀ n vs, c.getVectorSize = .ok n → values σ m c = .ok vs →
      n = componentCount c ∧ vs.length = n)
    (hfit : tupleCount cs < eNoval) (hn : VNode.tupleSize cs = .ok n)
    (hvs : tupleValues σ m cs = .ok vs) : n = tupleCount cs ∧ vs.length = n := by
  induction cs generalizing n vs with
  | nil =>
    cases hn
    cases hvs
    exact ⟨rfl, rfl⟩
  | cons c rest ihrest =>
    simp only [VNode.tupleSize, tupleValues, tupleCount, Outcome.bind_eq_ok, Outcome.pure_eq,
      Outcome.ok.injEq] at hn hvs hfit ⊢
    obtain ⟨k, hk, kr, hkr, rfl⟩ := hn
    obtain ⟨ws, hws, wr, hwr, rfl⟩ := hvs
    obtain ⟨hcount, hlen⟩ := ih c (List.mem_cons_self ..) k ws hk hws
    obtain ⟨hcountr, hlenr⟩ := ihrest (fun c hc => ih c (List.mem_cons_of_mem _ hc))
      (by omega) hkr hwr
    have hsum : u32 (k + kr) = k + kr := u32_of_lt (by unfold eNoval at hfit; omega)
    rw [hsum, List.length_append, hlen, hlenr]
    exact ⟨by omega, rfl⟩

/-- The size of an expression is the number of its values. -/
theorem getVectorSize_count (hV : V < 2 ^ 16) (e : VNode) : ∀ n vs, Placed V e → SizesFit e →
    e.getVectorSize = .ok n → values σ m e = .ok vs →
    n = componentCount e ∧ vs.length = n ∧ n < eNoval := by
  induction e using VNode.induct with
  | binary pos op l r ihl ihr =>
    intro n vs hp hs hn hvs
    simp only [VNode.getVectorSize, values, Outcome.bind_eq_ok] at hn hvs
    obtain ⟨k, hk, kr, hkr, hn⟩ := hn
    obtain ⟨as, has, bs, hbs, hvs⟩ := hvs
    obtain ⟨hpl, hpr⟩ := placed_binary.mp hp
    obtain ⟨-, hlen, hlt⟩ := ihl k as hpl hs.1 hk has
    obtain ⟨hcount, hlenr, hltr⟩ := ihr kr bs hpr hs.2 hkr hbs
    rw [if_neg (Nat.ne_of_lt hlt)] at hn
    split_ifs at hn with hne
    · cases hn
    · cases hn
      rw [length_zipBinary hvs]
      exact ⟨by rw [componentCount]; omega, by omega, hlt⟩
  | unary pos op c ih =>
    intro n vs hp hs hn hvs
    simp only [values, Outcome.bind_eq_ok, Outcome.pure_eq, Outcome.ok.injEq] at hvs
    obtain ⟨as, has, rfl⟩ := hvs
    have := ih n as hp hs hn has
    rwa [List.length_map]
  | immediate pos v =>
    intro n vs _ _ hn hvs
    cases hn
    cases hvs
    exact ⟨rfl, rfl, by decide⟩
  | tuple pos cs ih =>
    intro n vs hp hs hn hvs
    have hfit := sizesFitList_iff.mp hs.2
    have hplaced := placed_tuple.mp hp
    obtain ⟨hcount, hlen⟩ := tupleSize_count (fun c hc n vs hn hvs =>
      have h := ih c hc n vs (hplaced c hc) (hfit c hc) hn hvs
      ⟨h.1, h.2.1⟩) hs.1 hn hvs
    exact ⟨hcount, hlen, hcount ▸ hs.1⟩
  | memory pos addr n name =>
    intro k vs hp _ hk hvs
    cases hk
    cases hvs
    have := hp ⟨addr, n, name⟩ (List.mem_singleton.mpr rfl)
    refine ⟨rfl, by simp, ?_⟩
    change addr + n ≤ V at this
    unfold eNoval
    omega
  | memoryAt pos addr n name i ih =>
    intro k vs hp hs hk hvs
    obtain ⟨hreg, hpi⟩ := placed_memoryAt.mp hp
    cases i with
    | tupleVector ipos cs =>
      simp only [values, Outcome.bind_eq_ok, Outcome.pure_eq, Outcome.ok.injEq] at hvs
      obtain ⟨cells, hcells, rfl⟩ := hvs
      obtain ⟨hcount, hlen, hlt⟩ := getVectorSize_constant (by omega) hk hcells
      refine ⟨hcount, by rw [List.length_map, hlen], ?_⟩
      unfold eNoval
      omega
    | binaryArithmetic | unaryArithmetic | immediate | memoryVector | memoryAt =>
      cases hk
      simp only [values, Outcome.bind_eq_ok, Outcome.pure_eq, Outcome.ok.injEq] at hvs
      obtain ⟨_, -, _, -, rfl⟩ := hvs
      exact ⟨rfl, rfl, by decide⟩

/-! ## Components -/

theorem getVectorAddr_constant {pos ipos : SourcePos} {addr n a : Nat} {name : String}
    {cs : List VNode} {cells : List Nat} (hV : addr + n < 2 ^ 16)
    (ha : (VNode.memoryAt pos addr n name (.tupleVector ipos cs)).getVectorAddr = .ok a)
    (h : constantCells addr n cs = .ok cells) :
    ∃ c d : Int, (0 ≤ c ∧ c ≤ d ∧ d < n) ∧ a = addr + c.toNat ∧
      cells = List.range' (addr + c.toNat) (d - c + 1).toNat := by
  have hshift : ∀ c : Int, 0 ≤ c → c < n → shiftedAddr pos addr n name c = .ok a →
      a = addr + c.toNat := by
    intro c h₀ hn hc
    unfold shiftedAddr at hc
    split_ifs at hc
    · cases hc
    · cases hc
      unfold u32OfInt
      omega
  simp only [VNode.getVectorAddr, Outcome.bind_eq_ok] at ha
  obtain ⟨shift, hshift', ha⟩ := ha
  obtain ⟨p, c, ⟨rfl, hs⟩ | ⟨p', d, rfl, hs⟩⟩ := constantCells_eq_ok h
  · obtain ⟨hb, rfl⟩ := slice_eq_ok.mp hs
    cases hshift'
    exact ⟨shift, shift, hb, hshift shift hb.1 hb.2.2 ha, rfl⟩
  · obtain ⟨hb, rfl⟩ := slice_eq_ok.mp hs
    cases hshift'
    exact ⟨shift, d, hb, hshift shift hb.1 (by omega) ha, rfl⟩

/-- The pointer of a direct access is the cell of the component. -/
theorem directPointer_constant {pos ipos : SourcePos} {addr n p i : Nat} {name : String}
    {cs : List VNode} {cells : List Nat} (hV : addr + n < 2 ^ 16)
    (hp : (VNode.memoryAt pos addr n name (.tupleVector ipos cs)).directPointer pos addr n name i =
      .ok p) (h : constantCells addr n cs = .ok cells) : cells[i]? = some p := by
  simp only [VNode.directPointer, Outcome.bind_eq_ok] at hp
  obtain ⟨size, hsize, _, hreq, a, ha, hp⟩ := hp
  split_ifs at hp
  · cases hp
  · cases hp
    have hi : i < size := by simpa [require] using hreq
    obtain ⟨-, hlen, -⟩ := getVectorSize_constant hV hsize h
    obtain ⟨c, d, hb, rfl, rfl⟩ := getVectorAddr_constant hV ha h
    rw [List.length_range'] at hlen
    rw [List.getElem?_range' (by omega), Nat.one_mul, u32_of_lt (by omega)]

theorem directPointer_memory {pos : SourcePos} {addr n p i : Nat} {name : String}
    (hV : addr + n < 2 ^ 16)
    (hp : (VNode.memoryVector pos addr n name).directPointer pos addr n name i = .ok p) :
    (List.range' addr n)[i]? = some p := by
  simp only [VNode.directPointer, VNode.getVectorSize, VNode.getVectorAddr, Outcome.pure_eq,
    Outcome.ok_bind, Outcome.bind_eq_ok] at hp
  obtain ⟨_, hreq, a, ha, hp⟩ := hp
  have hi : i < n := by simpa [require] using hreq
  unfold shiftedAddr at ha
  split_ifs at ha hp
  all_goals try cases ha
  all_goals try cases hp
  have haddr : u32OfInt (addr + 0) = addr := by
    unfold u32OfInt
    omega
  rw [List.getElem?_range' hi, haddr, u32_of_lt (by omega), Nat.one_mul]

theorem expandTuple_eval {cs : List VNode} {i prev : Nat} {r : Node} {vs : List Word}
    (hV : V < 2 ^ 16) (hp : ∀ c ∈ cs, Placed V c) (hs : ∀ c ∈ cs, SizesFit c)
    (ih : ∀ c ∈ cs, ∀ i r vs, c.expandVectorialNodes i = .ok r → values σ m c = .ok vs →
      ∃ v, vs[i]? = some v ∧ r.eval σ m = .ok v)
    (hle : prev ≤ i) (h : VNode.expandTuple cs i prev = .ok r)
    (hvs : tupleValues σ m cs = .ok vs) : ∃ v, vs[i - prev]? = some v ∧ r.eval σ m = .ok v := by
  induction cs generalizing prev vs with
  | nil => cases h
  | cons c rest ihrest =>
    have hc := List.mem_cons_self (a := c) (l := rest)
    simp only [VNode.expandTuple, tupleValues, Outcome.bind_eq_ok, Outcome.pure_eq,
      Outcome.ok.injEq] at h hvs
    obtain ⟨k, hk, h⟩ := h
    obtain ⟨ws, hws, wr, hwr, rfl⟩ := hvs
    obtain ⟨-, hlen, -⟩ := getVectorSize_count hV c k ws (hp c hc) (hs c hc) hk hws
    split_ifs at h with hlt
    · obtain ⟨v, hv, hr⟩ := ih c hc _ r ws h hws
      refine ⟨v, ?_, hr⟩
      rw [List.getElem?_append_left (by omega)]
      exact hv
    · obtain ⟨v, hv, hr⟩ := ihrest (fun c hc => hp c (List.mem_cons_of_mem _ hc))
        (fun c hc => hs c (List.mem_cons_of_mem _ hc))
        (fun c hc => ih c (List.mem_cons_of_mem _ hc)) (by omega) h hwr
      refine ⟨v, ?_, hr⟩
      rw [List.getElem?_append_right (by omega), ← hv]
      congr 1
      omega

/-- An index that is not a tuple is computed at run time. -/
def IsComputed (index : VNode) : Prop := ∀ pos cs, index ≠ .tupleVector pos cs

theorem computed_or_tuple (index : VNode) :
    IsComputed index ∨ ∃ pos cs, index = .tupleVector pos cs := by
  cases index with
  | tupleVector pos cs => exact Or.inr ⟨pos, cs, rfl⟩
  | binaryArithmetic | unaryArithmetic | immediate | memoryVector | memoryAt =>
    exact Or.inl fun _ _ => nofun

theorem getVectorSize_indexed {pos : SourcePos} {addr n : Nat} {name : String} {index : VNode}
    (h : IsComputed index) : (VNode.memoryAt pos addr n name index).getVectorSize = .ok 1 := by
  cases index <;> first | rfl | exact absurd rfl (h _ _)

theorem expand_indexed {pos : SourcePos} {addr n i : Nat} {name : String} {index : VNode}
    (h : IsComputed index) :
    (VNode.memoryAt pos addr n name index).expandVectorialNodes i = (do
      require (i < 1)
      let index ← index.expandVectorialNodes i
      pure (.arrayRead pos addr n name index)) := by
  cases index <;> first | rfl | exact absurd rfl (h _ _)

theorem expandWrite_indexed {pos : SourcePos} {addr n i : Nat} {name : String} {index : VNode}
    (h : IsComputed index) :
    (VNode.memoryAt pos addr n name index).expandWrite i = (do
      require (i < 1)
      let index ← index.expandVectorialNodes i
      pure (.arrayWrite pos addr n name index)) := by
  cases index <;> first | rfl | exact absurd rfl (h _ _)

theorem values_indexed {pos : SourcePos} {addr n : Nat} {name : String} {index : VNode}
    (h : IsComputed index) :
    values σ m (.memoryAt pos addr n name index) = (do
      let i ← values σ m index
      let c ← indexedCell addr n i
      pure [m c]) := by
  cases index <;> first | rfl | exact absurd rfl (h _ _)

theorem locations_indexed {pos : SourcePos} {addr n : Nat} {name : String} {index : VNode}
    (h : IsComputed index) :
    locations σ m (.memoryAt pos addr n name index) = (do
      let i ← values σ m index
      let c ← indexedCell addr n i
      pure [c]) := by
  cases index <;> first | rfl | exact absurd rfl (h _ _)

theorem indexedCell_of_getElem? {addr n c : Nat} {ws : List Word} {v : Word}
    (hv : ws[0]? = some v) (hc : indexedCell addr n ws = .ok c) : cell addr n v = .ok c := by
  cases ws with
  | nil => cases hv
  | cons w ws =>
    cases hv
    exact hc

/-- The scalar expression of a component evaluates to that component. -/
theorem expandVectorialNodes_eval (hV : V < 2 ^ 16) (e : VNode) : ∀ i r vs, Placed V e →
    SizesFit e → e.expandVectorialNodes i = .ok r → values σ m e = .ok vs →
    ∃ v, vs[i]? = some v ∧ r.eval σ m = .ok v := by
  induction e using VNode.induct with
  | binary pos op l r ihl ihr =>
    intro i e' vs hp hs h hvs
    simp only [VNode.expandVectorialNodes, values, Outcome.bind_eq_ok, Outcome.pure_eq,
      Outcome.ok.injEq] at h hvs
    obtain ⟨l', hl', r', hr', rfl⟩ := h
    obtain ⟨as, has, bs, hbs, hvs⟩ := hvs
    obtain ⟨hpl, hpr⟩ := placed_binary.mp hp
    obtain ⟨a, ha, hla⟩ := ihl i l' as hpl hs.1 hl' has
    obtain ⟨b, hb, hrb⟩ := ihr i r' bs hpr hs.2 hr' hbs
    obtain ⟨v, hv, hop⟩ := getElem?_zipBinary hvs ha hb
    exact ⟨v, hv, eval_binary_eq_ok.mpr ⟨a, hla, b, hrb, hop⟩⟩
  | unary pos op c ih =>
    intro i e' vs hp hs h hvs
    simp only [VNode.expandVectorialNodes, values, Outcome.bind_eq_ok, Outcome.pure_eq,
      Outcome.ok.injEq] at h hvs
    obtain ⟨c', hc', rfl⟩ := h
    obtain ⟨as, has, rfl⟩ := hvs
    obtain ⟨a, ha, hca⟩ := ih i c' as hp hs hc' has
    exact ⟨unary op a, by simp [ha], eval_unary_eq_ok.mpr ⟨a, hca, rfl⟩⟩
  | immediate pos v =>
    intro i e' vs _ _ h hvs
    simp only [VNode.expandVectorialNodes, Outcome.bind_eq_ok, Outcome.pure_eq,
      Outcome.ok.injEq] at h
    obtain ⟨_, hi, rfl⟩ := h
    obtain rfl : i = 0 := by simpa [require] using hi
    cases hvs
    exact ⟨word v, rfl, rfl⟩
  | tuple pos cs ih =>
    intro i e' vs hp hs h hvs
    have hfit := sizesFitList_iff.mp hs.2
    have hplaced := placed_tuple.mp hp
    exact expandTuple_eval hV hplaced hfit
      (fun c hc i r vs h hvs => ih c hc i r vs (hplaced c hc) (hfit c hc) h hvs)
      (Nat.zero_le i) h hvs
  | memory pos addr n name =>
    intro i e' vs hp _ h hvs
    have hreg : addr + n ≤ V := hp ⟨addr, n, name⟩ (List.mem_singleton.mpr rfl)
    simp only [VNode.expandVectorialNodes, Outcome.bind_eq_ok, Outcome.pure_eq,
      Outcome.ok.injEq] at h
    obtain ⟨p, hp, rfl⟩ := h
    cases hvs
    exact ⟨m p, by rw [List.getElem?_map, directPointer_memory (by omega) hp]; rfl, rfl⟩
  | memoryAt pos addr n name idx ih =>
    intro i e' vs hp hs h hvs
    obtain ⟨hreg, hpi⟩ := placed_memoryAt.mp hp
    rcases computed_or_tuple idx with hcomp | ⟨ipos, cs, rfl⟩
    · rw [expand_indexed hcomp] at h
      rw [values_indexed hcomp] at hvs
      simp only [Outcome.bind_eq_ok, Outcome.pure_eq, Outcome.ok.injEq] at h hvs
      obtain ⟨_, hi, i', hi', rfl⟩ := h
      obtain rfl : i = 0 := by simpa [require] using hi
      obtain ⟨ws, hws, c, hc, rfl⟩ := hvs
      obtain ⟨v, hv, hev⟩ := ih 0 i' ws hpi hs hi' hws
      refine ⟨m c, rfl, eval_arrayRead_eq_ok.mpr ⟨v, hev, c, ?_, rfl⟩⟩
      exact indexedCell_of_getElem? hv hc
    · simp only [VNode.expandVectorialNodes, values, Outcome.bind_eq_ok, Outcome.pure_eq,
        Outcome.ok.injEq] at h hvs
      obtain ⟨p, hp, rfl⟩ := h
      obtain ⟨cells, hcells, rfl⟩ := hvs
      exact ⟨m p, by rw [List.getElem?_map, directPointer_constant (by omega) hp hcells]; rfl, rfl⟩

/-! ## What an expression depends on -/

theorem indexedCell_has {addr n c : Nat} {ws : List Word} (hV : addr + n < 2 ^ 16)
    (h : indexedCell addr n ws = .ok c) : addr ≤ c ∧ c < addr + n := by
  cases ws with
  | nil => cases h
  | cons w ws =>
    obtain ⟨hlt, rfl⟩ := cell_eq_ok.mp h
    rw [u32_of_lt (by omega)]
    omega

theorem tupleValues_congr {cs : List VNode}
    (h : ∀ c ∈ cs, values σ m c = values σ m' c) : tupleValues σ m cs = tupleValues σ m' cs := by
  induction cs with
  | nil => rfl
  | cons c rest ih =>
    rw [tupleValues, tupleValues, h c (List.mem_cons_self ..),
      ih fun c hc => h c (List.mem_cons_of_mem _ hc)]

/-- The components depend on the cells of the arrays only. -/
theorem values_congr (hV : V < 2 ^ 16) (e : VNode) : Placed V e →
    (∀ r ∈ regions e, ∀ a, r.Has a → m a = m' a) → values σ m e = values σ m' e := by
  induction e using VNode.induct with
  | binary pos op l r ihl ihr =>
    intro hp h
    obtain ⟨hpl, hpr⟩ := placed_binary.mp hp
    rw [values, values, ihl hpl fun x hx => h x (List.mem_append_left _ hx),
      ihr hpr fun x hx => h x (List.mem_append_right _ hx)]
  | unary pos op c ih =>
    intro hp h
    rw [values, values, ih hp h]
  | immediate pos v => exact fun _ _ => rfl
  | tuple pos cs ih =>
    intro hp h
    rw [values, values]
    exact tupleValues_congr fun c hc => ih c hc (placed_tuple.mp hp c hc)
      fun r hr => h r (mem_tupleRegions.mpr ⟨c, hc, hr⟩)
  | memory pos addr n name =>
    intro hp h
    rw [values, values]
    congr 1
    refine List.map_congr_left fun a ha => h _ (List.mem_singleton.mpr rfl) a ?_
    rw [List.mem_range'_1] at ha
    exact ha
  | memoryAt pos addr n name i ih =>
    intro hp h
    obtain ⟨hreg, hpi⟩ := placed_memoryAt.mp hp
    have hcell : ∀ a, addr ≤ a ∧ a < addr + n → m a = m' a :=
      h ⟨addr, n, name⟩ (List.mem_cons_self ..)
    rcases computed_or_tuple i with hcomp | ⟨ipos, cs, rfl⟩
    · rw [values_indexed hcomp, values_indexed hcomp,
        ih hpi fun r hr => h r (List.mem_cons_of_mem _ hr)]
      refine bind_congr fun ws => ?_
      cases hc : indexedCell addr n ws with
      | ok c => exact congrArg (fun v => Outcome.ok [v]) (hcell c (indexedCell_has (by omega) hc))
      | throw e => rfl
      | crash w => rfl
    · rw [values, values]
      cases hc : constantCells addr n cs with
      | ok cells =>
        exact congrArg Outcome.ok (List.map_congr_left fun a ha =>
          hcell a (has_of_mem_constantCells hc ha))
      | throw e => rfl
      | crash w => rfl

/-! ## The left side -/

/-- The array of the node on the left of an assignment. -/
def region? : VNode → Option Region
  | .memoryVector _ arrayAddr arraySize arrayName => some ⟨arrayAddr, arraySize, arrayName⟩
  | .memoryAt _ arrayAddr arraySize arrayName _ => some ⟨arrayAddr, arraySize, arrayName⟩
  | _ => none

theorem memoryName?_eq (e : VNode) : e.memoryName? = (region? e).map Region.name := by
  cases e <;> rfl

theorem mem_regions_of_region? {e : VNode} {r : Region} (h : region? e = some r) :
    r ∈ regions e := by
  cases e with
  | memoryVector | memoryAt =>
    cases h
    simp [regions]
  | binaryArithmetic | unaryArithmetic | immediate | tupleVector => cases h

/-- The locations of a left side, and the cells its components are expanded to. -/
theorem locations_spec {left : VNode} {reg : Region} {ls : List Nat} (hV : V < 2 ^ 16)
    (hreg : region? left = some reg) (hp : Placed V left) (hs : SizesFit left)
    (hls : locations σ m left = .ok ls) :
    (∀ a ∈ ls, reg.Has a) ∧ (∀ n, left.getVectorSize = .ok n → ls.length = n ∧ n < 2 ^ 16) ∧
      (∀ i l, left.expandWrite i = .ok l → ∃ a, ls[i]? = some a ∧ l.locate σ m = .ok a) ∧
      (ls.length ≠ 1 → ∀ m', locations σ m' left = .ok ls) := by
  cases left with
  | memoryVector pos addr n name =>
    cases hreg
    cases hls
    have hregion : addr + n ≤ V := hp ⟨addr, n, name⟩ (List.mem_singleton.mpr rfl)
    refine ⟨?_, ?_, ?_, fun _ _ => rfl⟩
    · intro a ha
      rw [List.mem_range'_1] at ha
      exact ha
    · intro k hk
      cases hk
      exact ⟨by simp, by omega⟩
    · intro i l hl
      simp only [VNode.expandWrite, Outcome.bind_eq_ok, Outcome.pure_eq, Outcome.ok.injEq] at hl
      obtain ⟨p, hp, rfl⟩ := hl
      exact ⟨p, directPointer_memory (by omega) hp, rfl⟩
  | memoryAt pos addr n name idx =>
    cases hreg
    obtain ⟨hregion, hpi⟩ := placed_memoryAt.mp hp
    rcases computed_or_tuple idx with hcomp | ⟨ipos, cs, rfl⟩
    · rw [locations_indexed hcomp] at hls
      simp only [Outcome.bind_eq_ok, Outcome.pure_eq, Outcome.ok.injEq] at hls
      obtain ⟨ws, hws, c, hc, rfl⟩ := hls
      refine ⟨?_, ?_, ?_, fun h => absurd rfl h⟩
      · intro a ha
        obtain rfl := List.mem_singleton.mp ha
        have hhas : addr ≤ a ∧ a < addr + n := indexedCell_has (by omega) hc
        exact hhas
      · intro k hk
        rw [getVectorSize_indexed hcomp] at hk
        cases hk
        exact ⟨rfl, by decide⟩
      · intro i l hl
        rw [expandWrite_indexed hcomp] at hl
        simp only [Outcome.bind_eq_ok, Outcome.pure_eq, Outcome.ok.injEq] at hl
        obtain ⟨_, hi, i', hi', rfl⟩ := hl
        obtain rfl : i = 0 := by simpa [require] using hi
        obtain ⟨v, hv, hev⟩ := expandVectorialNodes_eval hV idx 0 i' ws hpi hs hi' hws
        refine ⟨c, rfl, ?_⟩
        rw [LeftNode.locate, hev]
        exact indexedCell_of_getElem? hv hc
    · rw [locations] at hls
      refine ⟨fun a ha => has_of_mem_constantCells hls ha, ?_, ?_, fun _ _ => hls⟩
      · intro k hk
        exact (getVectorSize_constant (by omega) hk hls).2
      · intro i l hl
        simp only [VNode.expandWrite, Outcome.bind_eq_ok, Outcome.pure_eq, Outcome.ok.injEq] at hl
        obtain ⟨p, hp, rfl⟩ := hl
        exact ⟨p, directPointer_constant (by omega) hp hls, rfl⟩
  | binaryArithmetic | unaryArithmetic | immediate | tupleVector => cases hreg

/-! ## The assignments of the components -/

/-- The memory when the first `k` components have been written. -/
def written (m : Memory) (ls : List Nat) (vs : List Word) (k : Nat) : Memory :=
  writeAll m (ls.take k) (vs.take k)

theorem written_succ {ls : List Nat} {vs : List Word} {k a : Nat} {v : Word}
    (ha : ls[k]? = some a) (hv : vs[k]? = some v) :
    written m ls vs (k + 1) = (written m ls vs k).write a v := by
  obtain ⟨hkl, -⟩ := List.getElem?_eq_some_iff.mp ha
  obtain ⟨hkv, -⟩ := List.getElem?_eq_some_iff.mp hv
  unfold written
  rw [List.take_add_one, List.take_add_one, ha, hv, Option.toList_some, Option.toList_some,
    writeAll_append _ _ _ _ (by simp; omega)]
  rfl

/-- The operands of every component keep their meaning while the components before it are
written, so the assignments of all components write the values to the locations. -/
theorem execAssignments_components {left right : VNode} {reg : Region} {ls : List Nat}
    {vs : List Word} {pos : SourcePos} (hV : V < 2 ^ 16) (hreg : region? left = some reg)
    (hpl : Placed V left) (hpr : Placed V right) (hsl : SizesFit left) (hsr : SizesFit right)
    (hstable : ∀ k < ls.length,
      locations σ (written m ls vs k) left = .ok ls ∧ values σ (written m ls vs k) right = .ok vs)
    (count : Nat) : ∀ i code w, i + count = ls.length →
      expandComponents pos left right i count = .ok code → w.memory = written m ls vs i →
      ∃ w', execAssignments σ code w = .ok w' ∧ w'.memory = written m ls vs ls.length := by
  induction count with
  | zero =>
    intro i code w hi h hw
    cases h
    rw [Nat.add_zero] at hi
    exact ⟨w, rfl, by rw [hw, hi]⟩
  | succ count ih =>
    intro i code w hi h hw
    simp only [expandComponents, Outcome.bind_eq_ok, Outcome.pure_eq, Outcome.ok.injEq] at h
    obtain ⟨l, hl, r, hr, rest, hrest, rfl⟩ := h
    obtain ⟨hls, hvs⟩ := hstable i (by omega)
    obtain ⟨-, -, hwrite, -⟩ := locations_spec hV hreg hpl hsl hls
    obtain ⟨a, ha, hlocate⟩ := hwrite i l hl
    obtain ⟨v, hv, heval⟩ := expandVectorialNodes_eval hV right i r vs hpr hsr hr hvs
    have hstep : execAssignment σ ⟨pos, l, r⟩ w = .ok (w.write a v) := by
      simp only [execAssignment, hw, heval, hlocate, Outcome.ok_bind, Outcome.pure_eq]
    obtain ⟨w', hexec, hw'⟩ := ih (i + 1) rest (w.write a v) (by omega) hrest (by
      rw [written_succ ha hv, ← hw]
      rfl)
    refine ⟨w', ?_, hw'⟩
    rw [execAssignments, hstep]
    exact hexec

/-! ## Temporaries -/

/-- The array is below the free memory, or among the temporaries in use. -/
def Live (free V used : Nat) (r : Region) : Prop :=
  r.addr + r.size ≤ free ∨ (V - used ≤ r.addr ∧ r.addr + r.size ≤ V)

theorem Live.mono {free used used' : Nat} {r : Region} (h : Live free V used r)
    (hle : used ≤ used') : Live free V used' r := by
  rcases h with h | h
  · exact Or.inl h
  · exact Or.inr (by omega)

theorem Live.placed {free used : Nat} {r : Region} (h : Live free V used r) (hfree : free ≤ V) :
    r.addr + r.size ≤ V := by
  rcases h with h | h <;> omega

/-- Memory taken for a temporary lies between the declared variables and the temporaries in
use. -/
theorem allocateTemporaryMemory_eq_ok {env : Environment} {pos : SourcePos} {size addr : Nat}
    {s s' : CompilerState} (hV : env.targetDescription.variablesSize < 2 ^ 16)
    (hfit : s.freeVariableIndex + s.endVariableIndex ≤ env.targetDescription.variablesSize)
    (hsize : size < 2 ^ 31)
    (h : allocateTemporaryMemory env pos size s = .ok (addr, s')) :
    s' = { s with endVariableIndex := s.endVariableIndex + size } ∧
      s.freeVariableIndex + s.endVariableIndex + size ≤ env.targetDescription.variablesSize ∧
      addr = env.targetDescription.variablesSize - s.endVariableIndex - size := by
  simp only [allocateTemporaryMemory, Stateful.bind_eq_ok, Stateful.get_apply, Outcome.ok.injEq,
    Prod.mk.injEq, Stateful.set_apply] at h
  obtain ⟨_, _, ⟨rfl, rfl⟩, _, _, ⟨-, rfl⟩, h⟩ := h
  have hend : u32 (s.endVariableIndex + size) = s.endVariableIndex + size := u32_of_lt (by omega)
  rw [hend, u32_of_lt (by omega)] at h
  split_ifs at h with hle
  · cases h
  · cases h
    refine ⟨rfl, by omega, ?_⟩
    unfold u32Sub
    omega

theorem allocateTemporaryVariable_eq_ok {env : Environment} {pos : SourcePos} {right temp : VNode}
    {size : Nat} {s s' : CompilerState} (hV : env.targetDescription.variablesSize < 2 ^ 16)
    (hfit : s.freeVariableIndex + s.endVariableIndex ≤ env.targetDescription.variablesSize)
    (hright : right.getVectorSize = .ok size) (hsize : size < 2 ^ 31)
    (h : allocateTemporaryVariable env pos right s = .ok (temp, s')) :
    s' = { s with endVariableIndex := s.endVariableIndex + size, uid := s.uid + 1 } ∧
      s.freeVariableIndex + s.endVariableIndex + size ≤ env.targetDescription.variablesSize ∧
      temp = .memoryVector pos (env.targetDescription.variablesSize - s.endVariableIndex - size)
        size s!"temp{s.uid}" := by
  simp only [allocateTemporaryVariable, Stateful.bind_eq_ok, Stateful.lift_eq_ok,
    Stateful.get_apply, Stateful.set_apply, Stateful.pure_apply, Outcome.ok.injEq,
    Prod.mk.injEq, hright] at h
  obtain ⟨_, _, ⟨rfl, rfl⟩, addr, s₁, hmem, _, _, ⟨rfl, rfl⟩, _, _, ⟨-, rfl⟩, rfl, rfl⟩ := h
  obtain ⟨rfl, hle, rfl⟩ := allocateTemporaryMemory_eq_ok hV hfit hsize hmem
  exact ⟨rfl, hle, rfl⟩

/-! ## Aliasing -/

theorem matchNameList_iff {name : String} {cs : List VNode} :
    VNode.matchNameList name cs = true ↔ ∃ c ∈ cs, c.matchName name = true := by
  induction cs with
  | nil => simp [VNode.matchNameList]
  | cons c rest ih => simp [VNode.matchNameList, ih]

/-- The name check finds every array of that name. -/
theorem matchName_iff {name : String} (e : VNode) :
    e.matchName name = true ↔ ∃ r ∈ regions e, r.name = name := by
  induction e using VNode.induct with
  | binary pos op l r ihl ihr =>
    simp only [VNode.matchName, Bool.or_eq_true, ihl, ihr, regions, List.mem_append, or_and_right,
      exists_or]
  | unary pos op c ih => exact ih
  | immediate pos v => simp [VNode.matchName, regions]
  | tuple pos cs ih =>
    simp only [VNode.matchName, matchNameList_iff, regions, mem_tupleRegions]
    constructor
    · rintro ⟨c, hc, h⟩
      obtain ⟨r, hr, hname⟩ := (ih c hc).mp h
      exact ⟨r, ⟨c, hc, hr⟩, hname⟩
    · rintro ⟨r, ⟨c, hc, hr⟩, hname⟩
      exact ⟨c, hc, (ih c hc).mpr ⟨r, hr, hname⟩⟩
  | memory pos a n name' => simp [VNode.matchName, regions]
  | memoryAt pos a n name' i ih => simp [VNode.matchName, regions, ih]

/-- Where no array on the right overlaps the array on the left, or there is at most one component,
writing some components changes neither the locations nor the values. -/
theorem stable_of_apart {left right : VNode} {reg : Region} {ls : List Nat} {vs : List Word}
    (hV : V < 2 ^ 16) (hreg : region? left = some reg) (hpl : Placed V left)
    (hpr : Placed V right) (hsl : SizesFit left) (hls : locations σ m left = .ok ls)
    (hvs : values σ m right = .ok vs)
    (hapart : 1 < ls.length → ∀ r ∈ regions right, r.Apart reg) :
    ∀ k < ls.length, locations σ (written m ls vs k) left = .ok ls ∧
      values σ (written m ls vs k) right = .ok vs := by
  intro k hk
  obtain ⟨hhas, -, -, hindep⟩ := locations_spec hV hreg hpl hsl hls
  by_cases hone : ls.length = 1
  · obtain rfl : k = 0 := by omega
    exact ⟨hls, hvs⟩
  · refine ⟨hindep hone _, ?_⟩
    rw [← hvs]
    refine values_congr hV right hpr fun r hr a ha => ?_
    apply writeAll_of_not_mem
    intro hmem
    exact (hapart (by omega) r hr).not_has ha (hhas a (List.mem_of_mem_take hmem))

/-! ## Expansion of an assignment -/

theorem execAssignments_append (as bs : List Assignment) (w : World) :
    execAssignments σ (as ++ bs) w = (execAssignments σ as w >>= execAssignments σ bs) := by
  induction as generalizing w with
  | nil => rfl
  | cons a rest ih =>
    rw [List.cons_append, execAssignments, execAssignments, bind_assoc]
    exact bind_congr ih

/-- The step of `expandAssignment` that applies. -/
theorem expandAssignment_eq_ok {env : Environment} {fuel n : Nat} {pos : SourcePos}
    {left right : VNode} {reg : Region} {s s' : CompilerState} {code : List Assignment}
    (hreg : region? left = some reg) (hn : left.getVectorSize = .ok n)
    (h : expandAssignment env fuel ⟨pos, left, right⟩ s = .ok (code, s')) :
    (¬ (right.matchName reg.name = true ∧ 1 < n) ∧ s' = s ∧
        expandComponents pos left right 0 n = .ok code) ∨
      ∃ fuel' temp s₁ s₂ first second, fuel = fuel' + 1 ∧ 1 < n ∧
        allocateTemporaryVariable env pos right s = .ok (temp, s₁) ∧
        expandAssignment env fuel' ⟨pos, temp, right⟩ s₁ = .ok (first, s₂) ∧
        expandAssignment env fuel' ⟨pos, left, temp⟩ s₂ = .ok (second, s') ∧
        code = first ++ second := by
  have hname : left.memoryName? = some reg.name := by
    rw [memoryName?_eq, hreg]
    rfl
  cases fuel with
  | zero =>
    simp only [expandAssignment, hname, hn, Stateful.bind_eq_ok, Stateful.lift_eq_ok] at h
    obtain ⟨_, _, ⟨hsize, rfl⟩, h⟩ := h
    cases hsize
    split_ifs at h with hmatch
    rw [Stateful.lift_eq_ok] at h
    exact Or.inl ⟨by simpa using hmatch, h.2, h.1⟩
  | succ fuel' =>
    simp only [expandAssignment, hname, hn, Stateful.bind_eq_ok, Stateful.lift_eq_ok] at h
    obtain ⟨_, _, ⟨hsize, rfl⟩, h⟩ := h
    cases hsize
    split_ifs at h with hmatch
    · simp only [Stateful.bind_eq_ok, Stateful.pure_apply, Outcome.ok.injEq, Prod.mk.injEq] at h
      obtain ⟨temp, s₁, htemp, first, s₂, hfirst, second, s₃, hsecond, rfl, rfl⟩ := h
      have hlt : 1 < n := by
        rw [Bool.and_eq_true, decide_eq_true_iff] at hmatch
        exact hmatch.2
      exact Or.inr ⟨fuel', temp, s₁, s₂, first, second, rfl, hlt, htemp, hfirst, hsecond, rfl⟩
    · rw [Stateful.lift_eq_ok] at h
      exact Or.inl ⟨by simpa using hmatch, h.2, h.1⟩

/-- Two sides of one size, over arrays that are in use and of which two with different names do
not overlap. -/
structure Ready (σ : WideShifts) (V free used : Nat) (m : Memory) (left right : VNode)
    (reg : Region) (ls : List Nat) (vs : List Word) : Prop where
  region : region? left = some reg
  fits : free + used ≤ V
  leftLive : ∀ r ∈ regions left, Live free V used r
  rightLive : ∀ r ∈ regions right, Live free V used r
  apart : ∀ r ∈ regions right, r.name ≠ reg.name → r.Apart reg
  leftFit : SizesFit left
  rightFit : SizesFit right
  leftSize : left.getVectorSize = .ok ls.length
  rightSize : right.getVectorSize = .ok ls.length
  locations : locations σ m left = .ok ls
  values : values σ m right = .ok vs

namespace Ready

variable {free used : Nat} {left right : VNode} {reg : Region} {ls : List Nat} {vs : List Word}

theorem placedLeft (h : Ready σ V free used m left right reg ls vs) : Placed V left :=
  fun r hr => (h.leftLive r hr).placed (by have := h.fits; omega)

theorem placedRight (h : Ready σ V free used m left right reg ls vs) : Placed V right :=
  fun r hr => (h.rightLive r hr).placed (by have := h.fits; omega)

theorem length_values (h : Ready σ V free used m left right reg ls vs) (hV : V < 2 ^ 16) :
    vs.length = ls.length :=
  (getVectorSize_count hV right _ vs h.placedRight h.rightFit h.rightSize h.values).2.1

theorem length_lt (h : Ready σ V free used m left right reg ls vs) (hV : V < 2 ^ 16) :
    ls.length < 2 ^ 16 :=
  ((locations_spec hV h.region h.placedLeft h.leftFit h.locations).2.1 _ h.leftSize).2

/-- The assignment of the right side to a temporary below those in use. -/
theorem toTemporary (h : Ready σ V free used m left right reg ls vs) (pos : SourcePos)
    (name : String) (hfit : free + used + ls.length ≤ V) :
    Ready σ V free (used + ls.length) m
      (.memoryVector pos (V - used - ls.length) ls.length name) right
      ⟨V - used - ls.length, ls.length, name⟩ (List.range' (V - used - ls.length) ls.length) vs where
  region := rfl
  fits := by omega
  leftLive := by
    intro r hr
    obtain rfl := List.mem_singleton.mp hr
    refine Or.inr ⟨?_, ?_⟩
    all_goals simp only
    all_goals omega
  rightLive r hr := (h.rightLive r hr).mono (by omega)
  apart r hr _ := by
    have hlive := h.rightLive r hr
    unfold Live at hlive
    unfold Region.Apart
    simp only
    omega
  leftFit := trivial
  rightFit := h.rightFit
  leftSize := by rw [List.length_range']; rfl
  rightSize := by rw [List.length_range']; exact h.rightSize
  locations := rfl
  values := h.values

/-- The assignment of that temporary to the left side, in a memory where it holds the values. -/
theorem fromTemporary (h : Ready σ V free used m left right reg ls vs) (hV : V < 2 ^ 16)
    (pos : SourcePos) (name : String) {used' : Nat} (hlt : 1 < ls.length)
    (hused : used + ls.length ≤ used') (hfit : free + used' ≤ V)
    (hvalues : (List.range' (V - used - ls.length) ls.length).map m' = vs) :
    Ready σ V free used' m' left (.memoryVector pos (V - used - ls.length) ls.length name)
      reg ls vs where
  region := h.region
  fits := hfit
  leftLive r hr := (h.leftLive r hr).mono (by omega)
  rightLive := by
    intro r hr
    obtain rfl := List.mem_singleton.mp hr
    refine Or.inr ⟨?_, ?_⟩
    all_goals simp only
    all_goals omega
  apart := by
    intro r hr _
    obtain rfl := List.mem_singleton.mp hr
    have hlive := h.leftLive reg (mem_regions_of_region? h.region)
    unfold Live at hlive
    unfold Region.Apart
    simp only
    omega
  leftFit := h.leftFit
  rightFit := trivial
  leftSize := h.leftSize
  rightSize := rfl
  locations := (locations_spec hV h.region h.placedLeft h.leftFit h.locations).2.2.2 (by omega) m'
  values := congrArg Outcome.ok hvalues

end Ready

/-- What the assignments of an expanded vector assignment do, outside the temporaries that the
expansion takes. -/
theorem expandAssignment_exec {env : Environment} (hV : env.targetDescription.variablesSize < 2 ^ 16)
    (fuel : Nat) : ∀ pos left right reg ls vs code s s' w,
      Ready σ env.targetDescription.variablesSize s.freeVariableIndex s.endVariableIndex w.memory
        left right reg ls vs →
      expandAssignment env fuel ⟨pos, left, right⟩ s = .ok (code, s') →
      s'.freeVariableIndex = s.freeVariableIndex ∧ s.endVariableIndex ≤ s'.endVariableIndex ∧
        s.freeVariableIndex + s'.endVariableIndex ≤ env.targetDescription.variablesSize ∧
        ∃ w', execAssignments σ code w = .ok w' ∧
          ∀ a, ¬ (env.targetDescription.variablesSize - s'.endVariableIndex ≤ a ∧
              a < env.targetDescription.variablesSize - s.endVariableIndex) →
            w'.memory a = writeAll w.memory ls vs a := by
  generalize hsize : env.targetDescription.variablesSize = V at hV
  induction fuel using Nat.strong_induction_on with
  | _ fuel ih =>
  intro pos left right reg ls vs code s s' w hready h
  obtain ⟨hmatch, rfl, hcode⟩ | ⟨fuel', temp, s₁, s₂, first, second, rfl, hlt, htemp, hfirst,
    hsecond, rfl⟩ := expandAssignment_eq_ok hready.region hready.leftSize h
  · -- no temporary: the right side does not read the left array, or there is one component
    have hapart : 1 < ls.length → ∀ r ∈ regions right, r.Apart reg := by
      intro hlt r hr
      refine hready.apart r hr fun hname => hmatch ⟨?_, hlt⟩
      exact (matchName_iff right).mpr ⟨r, hr, hname⟩
    have hstable := stable_of_apart hV hready.region hready.placedLeft hready.placedRight
      hready.leftFit hready.locations hready.values hapart
    obtain ⟨w', hexec, hw'⟩ := execAssignments_components hV hready.region hready.placedLeft
      hready.placedRight hready.leftFit hready.rightFit hstable ls.length 0 code w (by omega)
      hcode rfl
    refine ⟨rfl, le_rfl, hready.fits, w', hexec, fun a _ => ?_⟩
    rw [hw', written, List.take_length, List.take_of_length_le (hready.length_values hV).le]
  · -- through a temporary, whose own assignment may in turn need one
    obtain ⟨rfl, hfit, rfl⟩ := allocateTemporaryVariable_eq_ok (hsize ▸ hV) (hsize ▸ hready.fits)
      hready.rightSize ((hready.length_lt hV).trans (by decide)) htemp
    rw [hsize] at hfit hfirst hsecond
    have hto := hready.toTemporary pos s!"temp{s.uid}" hfit
    obtain ⟨hfree₂, hend₂, hfit₂, w₁, hexec₁, hw₁⟩ :=
      ih fuel' (Nat.lt_succ_self _) _ _ _ _ _ _ _ _ _ w hto hfirst
    simp only at hfree₂ hend₂ hfit₂ hw₁
    have hread : (List.range' (V - s.endVariableIndex - ls.length) ls.length).map w₁.memory = vs := by
      have hlen : (List.range' (V - s.endVariableIndex - ls.length) ls.length).length = vs.length := by
        rw [List.length_range', hready.length_values hV]
      rw [← map_writeAll (m := w.memory) List.nodup_range' hlen]
      refine List.map_congr_left fun a ha => ?_
      rw [List.mem_range'_1] at ha
      exact hw₁ a (by omega)
    have hfrom := hready.fromTemporary hV pos s!"temp{s.uid}" hlt hend₂ hfit₂ hread
    rw [← hfree₂] at hfrom
    obtain ⟨hfree₃, hend₃, hfit₃, w₂, hexec₂, hw₂⟩ :=
      ih fuel' (Nat.lt_succ_self _) _ _ _ _ _ _ _ _ _ w₁ hfrom hsecond
    refine ⟨hfree₃.trans hfree₂, by omega, by omega, w₂, ?_, fun a ha => ?_⟩
    · rw [execAssignments_append, hexec₁]
      exact hexec₂
    · rw [hw₂ a (by omega)]
      apply writeAll_congr
      rw [hw₁ a (by omega)]
      apply writeAll_of_not_mem
      rw [List.mem_range'_1]
      omega

/-! ## Statements -/

theorem region?_of_locations {left : VNode} {ls : List Nat} (h : locations σ m left = .ok ls) :
    ∃ reg, region? left = some reg := by
  cases left with
  | memoryVector | memoryAt => exact ⟨_, rfl⟩
  | binaryArithmetic | unaryArithmetic | immediate | tupleVector => cases h

theorem tupleSize_ones (pos : SourcePos) (n : Nat) (hn : n < 2 ^ 32) :
    VNode.tupleSize (List.replicate n (.immediate pos 1)) = .ok n := by
  induction n with
  | zero => rfl
  | succ n ih =>
    rw [List.replicate_succ, VNode.tupleSize, ih (by omega)]
    change Outcome.ok (u32 (1 + n)) = _
    rw [u32_of_lt (by omega), Nat.add_comm]

theorem tupleCount_ones (pos : SourcePos) (n : Nat) :
    tupleCount (List.replicate n (.immediate pos 1)) = n := by
  induction n with
  | zero => rfl
  | succ n ih =>
    rw [List.replicate_succ, tupleCount, ih, componentCount, Nat.add_comm]

theorem tupleValues_ones (pos : SourcePos) (n : Nat) :
    tupleValues σ m (List.replicate n (.immediate pos 1)) = .ok (List.replicate n 1) := by
  induction n with
  | zero => rfl
  | succ n ih =>
    rw [List.replicate_succ, tupleValues, ih]
    rfl

theorem getVectorSize_binary {pos : SourcePos} {op : AsebaBinaryOperator} {left right : VNode}
    {n : Nat} (hl : left.getVectorSize = .ok n) (hr : right.getVectorSize = .ok n) :
    (VNode.binaryArithmetic pos op left right).getVectorSize = .ok n := by
  simp only [VNode.getVectorSize, hl, hr, Outcome.ok_bind, ne_eq, not_true_eq_false, if_false,
    ite_self, Outcome.pure_eq]

theorem checkSizes_eq_ok {pos : SourcePos} {left right : VNode} {u : Unit}
    (h : checkSizes pos left right = .ok u) :
    ∃ n, left.getVectorSize = .ok n ∧ right.getVectorSize = .ok n := by
  simp only [checkSizes, Outcome.bind_eq_ok] at h
  obtain ⟨n, hl, k, hr, h⟩ := h
  split_ifs at h with hne
  · cases h
  · have heq : n = k := not_not.mp hne
    exact ⟨n, hl, heq ▸ hr⟩

/-- The plain assignment that a statement is turned into has the locations and the values of the
statement, and reads no other array. -/
theorem expandAbstractNodes_spec {st st' : VStatement} {ls : List Nat} {vs : List Word}
    (hV : V < 2 ^ 16) (hplaced : ∀ e ∈ operands st, Placed V e)
    (hfit : ∀ e ∈ operands st, SizesFit e) (hcheck : st.checkVectorSize = .ok ())
    (h : st.expandAbstractNodes = .ok st') (hassigned : assigned σ m st = .ok (ls, vs)) :
    ∃ pos left right, st' = .assignment ⟨pos, left, right⟩ ∧
      (∀ r, r ∈ regions left ∨ r ∈ regions right → ∃ e ∈ operands st, r ∈ regions e) ∧
      SizesFit left ∧ SizesFit right ∧ locations σ m left = .ok ls ∧
      values σ m right = .ok vs ∧
      ∃ n, left.getVectorSize = .ok n ∧ right.getVectorSize = .ok n := by
  cases st with
  | assignment code =>
    obtain ⟨pos, left, right⟩ := code
    cases h
    simp only [assigned, Outcome.bind_eq_ok, Outcome.pure_eq, Outcome.ok.injEq,
      Prod.mk.injEq] at hassigned
    obtain ⟨vs, hvs, ls, hls, rfl, rfl⟩ := hassigned
    simp only [operands, List.forall_mem_cons] at hfit
    refine ⟨pos, left, right, rfl, ?_, hfit.1, hfit.2.1, hls, hvs, checkSizes_eq_ok hcheck⟩
    rintro r (hr | hr)
    · exact ⟨left, by simp [operands], hr⟩
    · exact ⟨right, by simp [operands], hr⟩
  | arithmeticAssignment pos op left right =>
    cases h
    simp only [assigned, Outcome.bind_eq_ok, Outcome.pure_eq, Outcome.ok.injEq,
      Prod.mk.injEq] at hassigned
    obtain ⟨as, has, bs, hbs, vs, hvs, ls, hls, rfl, rfl⟩ := hassigned
    obtain ⟨n, hn, hn'⟩ := checkSizes_eq_ok hcheck
    simp only [operands, List.forall_mem_cons] at hfit
    refine ⟨pos, left, .binaryArithmetic pos op left right, rfl, ?_, hfit.1,
      ⟨hfit.1, hfit.2.1⟩, hls, ?_, n, hn, getVectorSize_binary hn hn'⟩
    · simp only [regions, List.mem_append]
      rintro r (hr | hr | hr)
      · exact ⟨left, by simp [operands], hr⟩
      · exact ⟨left, by simp [operands], hr⟩
      · exact ⟨right, by simp [operands], hr⟩
    · simp only [values, has, hbs, Outcome.ok_bind]
      exact hvs
  | unaryArithmeticAssignment pos op left =>
    simp only [VStatement.expandAbstractNodes, expandUnaryArithmeticAssignment,
      Outcome.bind_eq_ok, Outcome.pure_eq, Outcome.ok.injEq] at h
    obtain ⟨n, hn, rfl⟩ := h
    simp only [assigned, Outcome.bind_eq_ok, Outcome.pure_eq, Outcome.ok.injEq,
      Prod.mk.injEq] at hassigned
    obtain ⟨as, has, vs, hvs, ls, hls, rfl, rfl⟩ := hassigned
    simp only [operands, List.forall_mem_cons] at hfit hplaced
    obtain ⟨-, hlen, hlt⟩ := getVectorSize_count hV left n as hplaced.1 hfit.1 hn has
    have hlt' : n < 2 ^ 32 := by
      unfold eNoval at hlt
      omega
    have hones : SizesFit (.tupleVector pos (List.replicate n (.immediate pos 1))) := by
      refine ⟨by rwa [tupleCount_ones], sizesFitList_iff.mpr fun c hc => ?_⟩
      rw [List.eq_of_mem_replicate hc]
      trivial
    refine ⟨pos, left, _, rfl, ?_, hfit.1, ⟨hfit.1, hones⟩, hls, ?_, n, hn,
      getVectorSize_binary hn (tupleSize_ones pos n hlt')⟩
    · simp only [regions, List.mem_append, mem_tupleRegions]
      rintro r (hr | hr | ⟨c, hc, hr⟩)
      · exact ⟨left, by simp [operands], hr⟩
      · exact ⟨left, by simp [operands], hr⟩
      · rw [List.eq_of_mem_replicate hc] at hr
        cases hr
    · simp only [values, has, tupleValues_ones, Outcome.ok_bind]
      rw [← hvs, List.map_const', hlen]
  | block | ifWhen | ifWhenElse | whileLoop | emitEvent | callSub | call | ret => cases hassigned

end Values

/-! ## The theorem -/

section Statements

variable {σ : WideShifts} {env : Environment} {s s' : CompilerState} {st st' : VStatement}
  {code : Statement Node} {ls : List Nat} {vs : List Word}

theorem execList_assignments (callees : Callees) (fuel : Nat) (as : List Assignment) :
    ∀ w w' φ, execAssignments σ as w = .ok w' →
      ∃ φ', execList σ callees fuel (as.map (Statement.assignment (κ := Node))) ⟨w, φ⟩ =
        .ok ⟨.running, w', φ'⟩ := by
  induction as with
  | nil =>
    intro w w' φ h
    cases h
    exact ⟨φ, rfl⟩
  | cons a rest ih =>
    intro w w' φ h
    simp only [execAssignments, Outcome.bind_eq_ok] at h
    obtain ⟨w₁, hw₁, h⟩ := h
    obtain ⟨φ', hrest⟩ := ih w₁ w' φ.right h
    refine ⟨.join φ.root φ.left φ', ?_⟩
    simp only [List.map_cons, execList, exec, hw₁, hrest, Outcome.ok_bind, Outcome.pure_eq]

/-- An accepted assignment, compound assignment, `++` or `--` whose tuples have fewer than
`2^32 - 1` components assigns simultaneously: its scalar statements leave in the declared variables
the values of the right side in the memory before, at the locations of the left side, and nothing
else changes there. -/
theorem vector_statement_simultaneous (hV : env.targetDescription.variablesSize < 2 ^ 16)
    (hlayout : Layout s.variablesMap s.freeVariableIndex)
    (hspace : s.freeVariableIndex + s.endVariableIndex ≤ env.targetDescription.variablesSize)
    (hscoped : ∀ e ∈ operands st, Scoped s.variablesMap e)
    (hfit : ∀ e ∈ operands st, SizesFit e)
    (hcheck : st.checkVectorSize = .ok ()) (habstract : st.expandAbstractNodes = .ok st')
    (hexpand : st'.expandVectorialNodes env s = .ok (code, s'))
    (callees : Callees) (fuel : Nat) (w : World) (φ : Flags)
    (hassigned : assigned σ w.memory st = .ok (ls, vs)) :
    ∃ w' φ', exec σ callees fuel code ⟨w, φ⟩ = .ok ⟨.running, w', φ'⟩ ∧
      ∀ a < s.freeVariableIndex, w'.memory a = writeAll w.memory ls vs a := by
  have hbelow : ∀ e ∈ operands st, ∀ r ∈ regions e, r.addr + r.size ≤ s.freeVariableIndex :=
    fun e he r hr => hlayout.below _ _ _ (hscoped e he r hr)
  obtain ⟨pos, left, right, rfl, hregions, hfl, hfr, hls, hvs, n, hn, hn'⟩ :=
    expandAbstractNodes_spec hV (fun e he r hr => by have := hbelow e he r hr; omega) hfit hcheck
      habstract hassigned
  obtain ⟨reg, hreg⟩ := region?_of_locations hls
  have hlive : ∀ r, r ∈ regions left ∨ r ∈ regions right →
      Live s.freeVariableIndex env.targetDescription.variablesSize s.endVariableIndex r := by
    intro r hr
    obtain ⟨e, he, hr⟩ := hregions r hr
    exact Or.inl (hbelow e he r hr)
  have hpl : Placed env.targetDescription.variablesSize left :=
    fun r hr => (hlive r (Or.inl hr)).placed (by omega)
  have hlen : ls.length = n :=
    ((locations_spec hV hreg hpl hfl hls).2.1 n hn).1
  have hready : Ready σ env.targetDescription.variablesSize s.freeVariableIndex
      s.endVariableIndex w.memory left right reg ls vs := by
    refine ⟨hreg, hspace, fun r hr => hlive r (Or.inl hr), fun r hr => hlive r (Or.inr hr), ?_,
      hfl, hfr, hlen ▸ hn, hlen ▸ hn', hls, hvs⟩
    intro r hr hname
    obtain ⟨e, he, hre⟩ := hregions r (Or.inr hr)
    obtain ⟨e', he', hre'⟩ := hregions reg (Or.inl (mem_regions_of_region? hreg))
    exact hlayout.apart _ _ _ _ _ _ hname (hscoped e he r hre) (hscoped e' he' reg hre')
  simp only [VStatement.expandVectorialNodes, Stateful.bind_eq_ok, Stateful.pure_apply,
    Outcome.ok.injEq, Prod.mk.injEq] at hexpand
  obtain ⟨as, s₁, hassignments, rfl, rfl⟩ := hexpand
  obtain ⟨-, -, hfit', w', hexec, hw'⟩ :=
    expandAssignment_exec hV _ _ _ _ _ _ _ _ _ _ _ hready hassignments
  obtain ⟨φ', hlist⟩ := execList_assignments callees fuel as w w' φ hexec
  exact ⟨w', φ', hlist, fun a ha => hw' a (by omega)⟩

end Statements

/-! ## A swap, and a tuple that is too long -/

/-- A target with room for 40000 words. -/
def roomyTarget : TargetDescription where
  bytecodeSize := 1000
  variablesSize := 40000
  stackSize := 32
  namedVariables := []
  localEvents := []
  nativeFunctions := []

/-- The compiler after `var a[2]`. -/
def afterPair : CompilerState := { variablesMap := [("a", 0, 2)], freeVariableIndex := 2 }

/-- `a = [a[1], a[0]]`. -/
def swapPair : VStatement :=
  .assignment ⟨{}, .memoryVector {} 0 2 "a",
    .tupleVector {} [.memoryAt {} 0 2 "a" (.tupleOf {} 1), .memoryAt {} 0 2 "a" (.tupleOf {} 0)]⟩

/-- The layout of a map that is given as a list. -/
theorem layout_of_forall_mem {vars : VariablesMap} {free : Nat}
    (hbelow : ∀ p ∈ vars, p.2.1 + p.2.2 ≤ free)
    (hapart : ∀ p ∈ vars, ∀ q ∈ vars, p.1 ≠ q.1 →
      p.2.1 + p.2.2 ≤ q.2.1 ∨ q.2.1 + q.2.2 ≤ p.2.1) : Layout vars free where
  below := fun name addr size h => hbelow (name, addr, size) (OrderedMap.mem_of_find? h)
  apart := fun name name' addr size addr' size' hne h h' =>
    hapart (name, addr, size) (OrderedMap.mem_of_find? h) (name', addr', size')
      (OrderedMap.mem_of_find? h') hne

/-- Two different words. -/
def fiveSeven : World := ⟨fun a => if a = 0 then 5 else 7, []⟩

theorem swapPair_swaps :
    ∃ code s', swapPair.expandVectorialNodes (asciiEnvironment roomyTarget ⟨[], []⟩) afterPair =
        .ok (code, s') ∧
      ∃ w' φ', exec emptyingShifts (fun _ w => .ok w) 0 code ⟨fiveSeven, Flags.initial⟩ =
          .ok ⟨.running, w', φ'⟩ ∧ w'.memory 0 = 7 ∧ w'.memory 1 = 5 := by
  have hassigned : assigned emptyingShifts fiveSeven.memory swapPair = .ok ([0, 1], [7, 5]) := rfl
  have hscoped : ∀ e ∈ operands swapPair, Scoped afterPair.variablesMap e := by
    intro e he r hr
    simp only [operands, swapPair, List.mem_cons, List.not_mem_nil, or_false] at he
    rcases he with rfl | rfl
    · simp only [regions, List.mem_singleton] at hr
      subst hr
      rfl
    · simp only [regions, tupleRegions, VNode.tupleOf, List.append_nil, List.mem_append,
        List.mem_singleton, or_self] at hr
      subst hr
      rfl
  have hfit : ∀ e ∈ operands swapPair, SizesFit e := by
    intro e he
    simp only [operands, swapPair, List.mem_cons, List.not_mem_nil, or_false] at he
    rcases he with rfl | rfl
    · trivial
    · simp [SizesFit, SizesFitList, tupleCount, componentCount, VNode.tupleOf, eNoval]
  have hexpand : (swapPair.expandVectorialNodes (asciiEnvironment roomyTarget ⟨[], []⟩)
      afterPair).toOption.isSome := rfl
  cases hrun : swapPair.expandVectorialNodes (asciiEnvironment roomyTarget ⟨[], []⟩) afterPair with
  | ok r =>
    obtain ⟨w', φ', hexec, hw'⟩ := vector_statement_simultaneous (by decide)
      (layout_of_forall_mem (by decide) (by decide)) (by decide) hscoped hfit rfl rfl hrun
      (fun _ w => .ok w) 0 fiveSeven Flags.initial hassigned
    refine ⟨r.1, r.2, rfl, w', φ', hexec, ?_, ?_⟩
    · exact (hw' 0 (by decide)).trans rfl
    · exact (hw' 1 (by decide)).trans rfl
  | throw e =>
    rw [hrun] at hexpand
    cases hexpand
  | crash w =>
    rw [hrun] at hexpand
    cases hexpand

/-- The size of a tuple that repeats one array wraps around. -/
theorem tupleSize_replicate (pos : SourcePos) (addr size : Nat) (name : String) (n : Nat) :
    VNode.tupleSize (List.replicate n (.memoryVector pos addr size name)) =
      .ok (u32 (n * size)) := by
  induction n with
  | zero =>
    rw [Nat.zero_mul]
    rfl
  | succ n ih =>
    rw [List.replicate_succ, VNode.tupleSize, ih]
    change Outcome.ok (u32 (size + u32 (n * size))) = _
    congr 1
    unfold u32
    rw [Nat.add_mod_mod, Nat.add_mul, Nat.one_mul, Nat.add_comm]

theorem tupleValues_replicate_succ {σ : WideShifts} {m : Memory} {e : VNode} {v : Word}
    {vs : List Word} (h : values σ m e = .ok (v :: vs)) (n : Nat) :
    ∃ ws, tupleValues σ m (List.replicate (n + 1) e) = .ok (v :: ws) := by
  induction n with
  | zero => exact ⟨vs ++ [], by rw [List.replicate_one, tupleValues, h]; rfl⟩
  | succ n ih =>
    obtain ⟨ws, hws⟩ := ih
    refine ⟨vs ++ v :: ws, ?_⟩
    rw [List.replicate_succ, tupleValues, h, hws]
    rfl

/-- The compiler after `var a[32768]`, `var b` and `var c`. -/
def afterLarge : CompilerState where
  variablesMap := [("a", 0, 32768), ("b", 32768, 1), ("c", 32769, 1)]
  freeVariableIndex := 32770

/-- `[a, ..., a]`, with `a` repeated so that the number of components is `2^32`. -/
def longTuple : VNode :=
  .tupleVector {} (List.replicate (131071 + 1) (.memoryVector {} 0 32768 "a"))

/-- `c = [[a, ..., a], b]`. -/
def assignLongTuple : VStatement :=
  .assignment ⟨{}, .memoryVector {} 32769 1 "c",
    .tupleVector {} [longTuple, .memoryVector {} 32768 1 "b"]⟩

theorem getVectorSize_longTuple : longTuple.getVectorSize = .ok 0 :=
  tupleSize_replicate {} 0 32768 "a" (131071 + 1)

/-- Word zero is one, the others are zero. -/
def oneFirst : World := ⟨fun a => if a = 0 then 1 else 0, []⟩

theorem expandComponents_longTuple :
    expandComponents {} (.memoryVector {} 32769 1 "c")
        (.tupleVector {} [longTuple, .memoryVector {} 32768 1 "b"]) 0 1 =
      .ok [⟨{}, .store {} 32769, .load {} 32768⟩] := by
  have hright : (VNode.tupleVector {} [longTuple, .memoryVector {} 32768 1 "b"]).expandVectorialNodes
      0 = .ok (.load {} 32768) := by
    rw [VNode.expandVectorialNodes, VNode.expandTuple, getVectorSize_longTuple]
    rfl
  rw [expandComponents, hright]
  rfl

theorem values_longTuple :
    ∃ vs, values emptyingShifts oneFirst.memory
      (.tupleVector {} [longTuple, .memoryVector {} 32768 1 "b"]) = .ok (1 :: vs) := by
  have harray : values emptyingShifts oneFirst.memory (.memoryVector {} 0 32768 "a") =
      .ok (1 :: (List.range' 1 32767).map oneFirst.memory) := by
    rw [values, List.range'_succ]
    rfl
  obtain ⟨ws, hws⟩ := tupleValues_replicate_succ harray 131071
  refine ⟨ws ++ [0], ?_⟩
  rw [values, tupleValues, longTuple, values, hws]
  rfl

theorem expandAssignment_scalar {env : Environment} {pos : SourcePos} {left right : VNode}
    {name : String} {code : List Assignment} {s : CompilerState} (fuel : Nat)
    (hname : left.memoryName? = some name) (hsize : left.getVectorSize = .ok 1)
    (h : expandComponents pos left right 0 1 = .ok code) :
    expandAssignment env fuel ⟨pos, left, right⟩ s = .ok (code, s) := by
  cases fuel with
  | zero => simp [expandAssignment, hname, hsize, h, Stateful.bind_apply, Stateful.lift_ok]
  | succ fuel => simp [expandAssignment, hname, hsize, h, Stateful.bind_apply, Stateful.lift_ok]

/-- The size of the inner tuple is computed as zero, so the statement is accepted and `c` receives
`b`; the first component of the right side is the first word of `a`. -/
theorem assignLongTuple_not_simultaneous :
    Layout afterLarge.variablesMap afterLarge.freeVariableIndex ∧
      (∀ e ∈ operands assignLongTuple, Scoped afterLarge.variablesMap e) ∧
      assignLongTuple.checkVectorSize = .ok () ∧
      assignLongTuple.expandAbstractNodes = .ok assignLongTuple ∧
      ∃ code ls vs w' φ', assignLongTuple.expandVectorialNodes
          (asciiEnvironment roomyTarget ⟨[], []⟩) afterLarge = .ok (code, afterLarge) ∧
        assigned emptyingShifts oneFirst.memory assignLongTuple = .ok (ls, vs) ∧
        exec emptyingShifts (fun _ w => .ok w) 0 code ⟨oneFirst, Flags.initial⟩ =
          .ok ⟨.running, w', φ'⟩ ∧
        w'.memory 32769 ≠ writeAll oneFirst.memory ls vs 32769 := by
  refine ⟨layout_of_forall_mem (by decide) (by decide), ?_, ?_, rfl, ?_⟩
  · intro e he r hr
    simp only [operands, assignLongTuple, List.mem_cons, List.not_mem_nil, or_false] at he
    rcases he with rfl | rfl
    · simp only [regions, List.mem_singleton] at hr
      subst hr
      rfl
    · simp only [regions, tupleRegions, longTuple, List.mem_append, List.mem_singleton,
        mem_tupleRegions, List.not_mem_nil, or_false] at hr
      rcases hr with ⟨c, hc, hr⟩ | rfl
      · rw [List.eq_of_mem_replicate hc, regions, List.mem_singleton] at hr
        subst hr
        rfl
      · rfl
  · change checkSizes _ _ (.tupleVector {} [longTuple, .memoryVector {} 32768 1 "b"]) = _
    rw [checkSizes, VNode.getVectorSize, VNode.getVectorSize, VNode.tupleSize,
      getVectorSize_longTuple]
    rfl
  · obtain ⟨vs, hvs⟩ := values_longTuple
    refine ⟨.block {} [.assignment ⟨{}, .store {} 32769, .load {} 32768⟩], [32769], 1 :: vs,
      oneFirst.write 32769 0, _, ?_, ?_, rfl, ?_⟩
    · rw [assignLongTuple, VStatement.expandVectorialNodes, Stateful.bind_apply, VAssignment.expand,
        expandAssignment_scalar _ rfl rfl expandComponents_longTuple]
      rfl
    · rw [assignLongTuple, assigned, hvs]
      rfl
    · change (0 : Word) ≠ 1
      decide

end ThymioDeviceManager.Correctness
