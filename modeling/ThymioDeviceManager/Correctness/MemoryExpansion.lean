import ThymioDeviceManager.Correctness.MemoryBounds
import ThymioDeviceManager.Correctness.ProgramParsing
import ThymioDeviceManager.Correctness.VectorStatements

/-! # Addresses through the expansions

The parser builds trees over the variables of the program, and the expansions
turn each access to such a tree into scalar ones. The bounds that are checked on
the way keep the scalar accesses inside the variable, and memory for a temporary
is taken between the variables and the temporaries in use.
-/

namespace ThymioDeviceManager.Correctness

open Compiler Library

/-! ## Trees over the variables -/

/-- The memory nodes of the tree have the property `M` of their address and size. A constant index
is one value, or two in order. -/
inductive Bounded (M : Nat → Nat → Prop) : VNode → Prop
  | binary {pos : SourcePos} {op : AsebaBinaryOperator} {l r : VNode} (hl : Bounded M l)
      (hr : Bounded M r) : Bounded M (.binaryArithmetic pos op l r)
  | unary {pos : SourcePos} {op : AsebaUnaryOperator} {c : VNode} (h : Bounded M c) :
      Bounded M (.unaryArithmetic pos op c)
  | immediate {pos : SourcePos} {v : Int} : Bounded M (.immediate pos v)
  | tuple {pos : SourcePos} {cs : List VNode} (h : ∀ c ∈ cs, Bounded M c) :
      Bounded M (.tupleVector pos cs)
  | whole {pos : SourcePos} {name : String} {addr size : Nat} (h : M addr size) :
      Bounded M (.memoryVector pos addr size name)
  | element {pos ipos cpos : SourcePos} {name : String} {addr size : Nat} {c : Int}
      (h : M addr size) :
      Bounded M (.memoryAt pos addr size name (.tupleVector ipos [.immediate cpos c]))
  | slice {pos ipos cpos dpos : SourcePos} {name : String} {addr size : Nat} {c d : Int}
      (h : M addr size) (hle : c ≤ d) :
      Bounded M (.memoryAt pos addr size name
        (.tupleVector ipos [.immediate cpos c, .immediate dpos d]))
  | computed {pos : SourcePos} {name : String} {addr size : Nat} {index : VNode} (h : M addr size)
      (hi : Bounded M index)
      (hne : ∀ ipos cs, index = .tupleVector ipos cs → isImmediateVector cs = false) :
      Bounded M (.memoryAt pos addr size name index)

section Bounded

variable {M : Nat → Nat → Prop} {V : VariablesMap} {e : VNode}

/-- The parser puts every constant in a tuple of its own. -/
theorem isImmediateVector_of_readable {cs : List VNode} (hne : cs ≠ [])
    (h : ∀ c ∈ cs, Readable V c) : isImmediateVector cs = false := by
  cases cs with
  | nil => exact absurd rfl hne
  | cons c rest =>
    have hc := h c (List.mem_cons_self ..)
    cases hc <;> rfl

theorem bounded_of_readable (hV : ∀ name addr size, V.find? name = some (addr, size) → M addr size)
    (he : Readable V e) : Bounded M e := by
  induction he with
  | binary _ _ ihl ihr => exact .binary ihl ihr
  | unary _ ih => exact .unary ih
  | value => exact .tuple (by simpa using Bounded.immediate)
  | tuple _ _ ih => exact .tuple ih
  | whole h => exact .whole (hV _ _ _ h)
  | element h => exact .element (hV _ _ _ h)
  | slice h _ _ _ _ hle => exact .slice (hV _ _ _ h) hle
  | computed h hi _ ih =>
    cases hi with
    | value => exact .element (hV _ _ _ h)
    | tuple hne hcs =>
      refine .computed (hV _ _ _ h) ih ?_
      rintro _ _ ⟨⟩
      exact isImmediateVector_of_readable hne hcs
    | binary | unary | whole | element | slice | computed =>
      exact .computed (hV _ _ _ h) ih (by simp)

theorem Bounded.memoryAt {pos : SourcePos} {name : String} {addr size : Nat} {index : VNode}
    (h : Bounded M (.memoryAt pos addr size name index)) : M addr size ∧ Bounded M index := by
  cases h with
  | element h => exact ⟨h, .tuple (by simpa using Bounded.immediate)⟩
  | slice h =>
    refine ⟨h, .tuple fun c hc => ?_⟩
    simp only [List.mem_cons, List.not_mem_nil, or_false] at hc
    rcases hc with rfl | rfl <;> exact .immediate
  | computed h hi => exact ⟨h, hi⟩

theorem u32OfInt_lt (v : Int) : u32OfInt v < 2 ^ 32 := by
  unfold u32OfInt
  omega

theorem getVectorSize_memoryAt_lt {pos : SourcePos} {name : String} {addr n size : Nat}
    {index : VNode} (h : (VNode.memoryAt pos addr n name index).getVectorSize = .ok size) :
    size < 2 ^ 32 := by
  obtain hindex | ⟨ipos, cs, rfl⟩ := computed_or_tuple index
  · rw [getVectorSize_indexed hindex] at h
    cases h
    norm_num
  · simp only [VNode.getVectorSize, Outcome.bind_eq_ok] at h
    obtain ⟨count, -, h⟩ := h
    split_ifs at h
    · cases h
      norm_num
    · simp only [Outcome.bind_eq_ok] at h
      obtain ⟨_, -, im0, -, im1, -, h⟩ := h
      split_ifs at h
      · cases h
      · obtain ⟨-, rfl⟩ := sliceLength_eq_ok.mp h
        exact u32OfInt_lt _
    · cases h

/-- Sizes are computed with 32 bits. -/
theorem Bounded.getVectorSize_lt (hM : ∀ addr size, M addr size → size < 2 ^ 32)
    (he : Bounded M e) : ∀ size, e.getVectorSize = .ok size → size < 2 ^ 32 := by
  induction he with
  | binary _ _ ihl ihr =>
    intro size h
    simp only [VNode.getVectorSize, Outcome.bind_eq_ok] at h
    obtain ⟨k, hk, k', hk', h⟩ := h
    split_ifs at h <;> cases h
    · exact ihr _ hk'
    · exact ihl _ hk
  | unary _ ih =>
    intro size h
    exact ih size (by simpa [VNode.getVectorSize] using h)
  | immediate =>
    intro size h
    cases h
    norm_num
  | @tuple _ cs _ _ =>
    intro size h
    rw [VNode.getVectorSize] at h
    cases cs with
    | nil =>
      cases h
      norm_num
    | cons c rest =>
      simp only [VNode.tupleSize, Outcome.bind_eq_ok, Outcome.pure_eq, Outcome.ok.injEq] at h
      obtain ⟨_, -, _, -, rfl⟩ := h
      exact u32_lt _
  | whole h =>
    intro size hsize
    cases hsize
    exact hM _ _ h
  | element | slice | computed => exact fun size h => getVectorSize_memoryAt_lt h

end Bounded

/-! ## Ranges that are accessed directly -/

/-- A memory node whose address is known. -/
def Direct : VNode → Prop
  | .memoryVector .. => True
  | .memoryAt _ _ _ _ (.tupleVector ..) => True
  | _ => False

section Direct

variable {n : Nat} {e : VNode}

theorem intOfU32_of_lt {k : Nat} (h : k < 2 ^ 31) : intOfU32 k = k := by
  change Int.bmod k 4294967296 = k
  rw [Int.bmod_def]
  split_ifs <;> omega

theorem shiftedAddr_eq_ok {pos : SourcePos} {a size addr : Nat} {name : String} {shift : Int}
    (hrange : a + size < 2 ^ 31) (h : shiftedAddr pos a size name shift = .ok addr) :
    0 ≤ shift ∧ shift < size ∧ (addr : Int) = a + shift := by
  unfold shiftedAddr at h
  rw [intOfU32_of_lt (by omega)] at h
  split_ifs at h with hbound
  · cases h
  · cases h
    unfold u32OfInt
    omega

/-- The range of a memory node whose address is known lies in the memory. -/
theorem direct_range (hn : n ≤ 4096) (he : Bounded (WithinMemory n) e) (hdirect : Direct e)
    {addr size : Nat} (haddr : e.getVectorAddr = .ok addr) (hsize : e.getVectorSize = .ok size) :
    0 < size ∧ addr + size ≤ n := by
  cases he with
  | binary | unary | immediate | tuple => exact hdirect.elim
  | whole h =>
    have hrange := h.1
    obtain ⟨hlow, hhigh, heq⟩ := shiftedAddr_eq_ok (by omega) haddr
    cases hsize
    omega
  | element h =>
    have hrange := h.1
    obtain ⟨hlow, hhigh, heq⟩ := shiftedAddr_eq_ok (by omega) haddr
    cases hsize
    omega
  | @slice _ _ _ _ _ _ k c d h hle =>
    have hrange := h.1
    obtain ⟨hlow, hhigh, heq⟩ := shiftedAddr_eq_ok (by omega) haddr
    change (if d < 0 ∨ d ≥ intOfU32 k then _ else _) = _ at hsize
    rw [intOfU32_of_lt (by omega)] at hsize
    split_ifs at hsize with hbound
    · cases hsize
    · obtain ⟨-, rfl⟩ := sliceLength_eq_ok.mp hsize
      unfold u32OfInt
      omega
  | @computed _ _ _ _ index h hi hne =>
    -- the tuple is not made of constants, so asking for its address stops the compiler
    obtain hindex | ⟨ipos, cs, rfl⟩ := computed_or_tuple index
    · cases index <;> first | exact hdirect.elim | exact absurd rfl (hindex _ _)
    · simp only [VNode.getVectorAddr, getImmediateValue, hne ipos cs rfl, require,
        Outcome.bind_eq_ok, Outcome.assert_eq_ok] at haddr
      obtain ⟨_, ⟨_, -, _, -, _, hfalse, -⟩, -⟩ := haddr
      cases hfalse

/-- A direct access is to a word of the memory. -/
theorem directPointer_lt (hn : n ≤ 4096) (he : Bounded (WithinMemory n) e) (hdirect : Direct e)
    {pos : SourcePos} {a k i p : Nat} {name : String}
    (h : e.directPointer pos a k name i = .ok p) : p < n := by
  simp only [VNode.directPointer, require, Outcome.bind_eq_ok, Outcome.assert_eq_ok,
    decide_eq_true_eq] at h
  obtain ⟨size, hsize, _, hi, addr, haddr, h⟩ := h
  obtain ⟨hpos, hrange⟩ := direct_range hn he hdirect haddr hsize
  split_ifs at h
  · cases h
  · cases h
    rw [u32_of_lt (by omega)]
    omega

end Direct

/-! ## The second expansion of expressions -/

section Expansion

variable {n : Nat} {e : VNode}

theorem expandTuple_mem {cs : List VNode} {i prev : Nat} {r : Node}
    (h : VNode.expandTuple cs i prev = .ok r) :
    ∃ c ∈ cs, ∃ j, c.expandVectorialNodes j = .ok r := by
  induction cs generalizing prev with
  | nil => cases h
  | cons c rest ih =>
    simp only [VNode.expandTuple, Outcome.bind_eq_ok] at h
    obtain ⟨k, -, h⟩ := h
    split_ifs at h
    · exact ⟨c, List.mem_cons_self .., _, h⟩
    · obtain ⟨d, hd, hr⟩ := ih h
      exact ⟨d, List.mem_cons_of_mem _ hd, hr⟩

theorem expandMemoryAt_inside (hn : n ≤ 4096) {pos : SourcePos} {a k i : Nat} {name : String}
    {index : VNode} {r : Node} (he : Bounded (WithinMemory n) (.memoryAt pos a k name index))
    (ih : ∀ i r, index.expandVectorialNodes i = .ok r → nodeInside n r)
    (h : (VNode.memoryAt pos a k name index).expandVectorialNodes i = .ok r) : nodeInside n r := by
  obtain hindex | ⟨ipos, cs, rfl⟩ := computed_or_tuple index
  · simp only [expand_indexed hindex, Outcome.bind_eq_ok, Outcome.pure_eq, Outcome.ok.injEq] at h
    obtain ⟨_, -, r', hr', rfl⟩ := h
    exact ⟨ih _ _ hr', he.memoryAt.1⟩
  · simp only [VNode.expandVectorialNodes, Outcome.bind_eq_ok, Outcome.pure_eq,
      Outcome.ok.injEq] at h
    obtain ⟨p, hp, rfl⟩ := h
    exact directPointer_lt hn he trivial hp

/-- The scalar components of a tree over the memory access nothing else. -/
theorem expandVectorialNodes_inside (hn : n ≤ 4096) (he : Bounded (WithinMemory n) e) :
    ∀ i r, e.expandVectorialNodes i = .ok r → nodeInside n r := by
  induction e using VNode.induct with
  | binary pos op l r ihl ihr =>
    cases he with
    | binary hl hr =>
      intro i r h
      simp only [VNode.expandVectorialNodes, Outcome.bind_eq_ok, Outcome.pure_eq,
        Outcome.ok.injEq] at h
      obtain ⟨l', hl', r', hr', rfl⟩ := h
      exact ⟨ihl hl _ _ hl', ihr hr _ _ hr'⟩
  | unary pos op c ih =>
    cases he with
    | unary hc =>
      intro i r h
      simp only [VNode.expandVectorialNodes, Outcome.bind_eq_ok, Outcome.pure_eq,
        Outcome.ok.injEq] at h
      obtain ⟨c', hc', rfl⟩ := h
      have hinside := ih hc _ _ hc'
      exact hinside
  | immediate pos v =>
    intro i r h
    simp only [VNode.expandVectorialNodes, Outcome.bind_eq_ok, Outcome.pure_eq,
      Outcome.ok.injEq] at h
    obtain ⟨_, -, rfl⟩ := h
    trivial
  | tuple pos cs ih =>
    cases he with
    | tuple hcs =>
      intro i r h
      rw [VNode.expandVectorialNodes] at h
      obtain ⟨c, hc, j, hr⟩ := expandTuple_mem h
      exact ih c hc (hcs c hc) j r hr
  | memory pos a k name =>
    intro i r h
    simp only [VNode.expandVectorialNodes, Outcome.bind_eq_ok, Outcome.pure_eq,
      Outcome.ok.injEq] at h
    obtain ⟨p, hp, rfl⟩ := h
    exact directPointer_lt hn he trivial hp
  | memoryAt pos a k name index ih =>
    intro i r h
    exact expandMemoryAt_inside hn he (ih he.memoryAt.2) h

theorem expandWrite_inside (hn : n ≤ 4096) (he : Bounded (WithinMemory n) e) {i : Nat} {l : LeftNode}
    (h : e.expandWrite i = .ok l) : leftInside n l := by
  cases e with
  | binaryArithmetic | unaryArithmetic | immediate | tupleVector => cases h
  | memoryVector pos a k name =>
    simp only [VNode.expandWrite, Outcome.bind_eq_ok, Outcome.pure_eq, Outcome.ok.injEq] at h
    obtain ⟨p, hp, rfl⟩ := h
    exact directPointer_lt hn he trivial hp
  | memoryAt pos a k name index =>
    obtain hindex | ⟨ipos, cs, rfl⟩ := computed_or_tuple index
    · simp only [expandWrite_indexed hindex, Outcome.bind_eq_ok, Outcome.pure_eq,
        Outcome.ok.injEq] at h
      obtain ⟨_, -, r', hr', rfl⟩ := h
      exact ⟨expandVectorialNodes_inside hn he.memoryAt.2 _ _ hr', he.memoryAt.1⟩
    · simp only [VNode.expandWrite, Outcome.bind_eq_ok, Outcome.pure_eq, Outcome.ok.injEq] at h
      obtain ⟨p, hp, rfl⟩ := h
      exact directPointer_lt hn he trivial hp

theorem expandComponents_inside (hn : n ≤ 4096) {pos : SourcePos} {left right : VNode}
    (hl : Bounded (WithinMemory n) left) (hr : Bounded (WithinMemory n) right) (count : Nat) :
    ∀ index code, expandComponents pos left right index count = .ok code →
      ∀ a ∈ code, assignmentInside n a := by
  induction count with
  | zero =>
    intro index code h
    cases h
    simp
  | succ count ih =>
    intro index code h
    simp only [expandComponents, Outcome.bind_eq_ok, Outcome.pure_eq, Outcome.ok.injEq] at h
    obtain ⟨l, hl', r, hr', rest, hrest, rfl⟩ := h
    have hfirst : assignmentInside n ⟨pos, l, r⟩ :=
      ⟨expandVectorialNodes_inside hn hr _ _ hr', expandWrite_inside hn hl hl'⟩
    exact List.forall_mem_cons.mpr ⟨hfirst, ih _ _ hrest⟩

end Expansion

/-! ## Assignments -/

/-- The temporaries in use leave the variables alone. -/
def Room (env : Environment) (s : CompilerState) : Prop :=
  s.freeVariableIndex + s.endVariableIndex ≤ env.targetDescription.variablesSize

section Assignments

variable {env : Environment} {s s' : CompilerState} {right : VNode}

/-- A vector whose size is null or not an `int` has no component that can be accessed. -/
theorem memoryVector_stuck {pos : SourcePos} {addr size : Nat} {name : String} (ha : addr < 2 ^ 32)
    (hlt : size < 2 ^ 32) (hsize : ¬ (0 < size ∧ size < 2 ^ 31)) (i : Nat) :
    (∀ r, (VNode.memoryVector pos addr size name).expandVectorialNodes i ≠ .ok r) ∧
      ∀ l, (VNode.memoryVector pos addr size name).expandWrite i ≠ .ok l := by
  have hpointer : ∀ p, (VNode.memoryVector pos addr size name).directPointer pos addr size name i ≠
      .ok p := by
    intro p h
    simp only [VNode.directPointer, Outcome.bind_eq_ok] at h
    obtain ⟨_, -, _, -, a, haddr, -⟩ := h
    exact hsize (getVectorAddr_memoryVector ha hlt haddr).2
  constructor
  · intro r h
    obtain ⟨p, hp, -⟩ := Outcome.bind_eq_ok.mp h
    exact hpointer p hp
  · intro l h
    obtain ⟨p, hp, -⟩ := Outcome.bind_eq_ok.mp h
    exact hpointer p hp

/-- The node of a temporary has the size of the right side. -/
theorem allocateTemporaryVariable_node {pos : SourcePos} {temp : VNode}
    (h : allocateTemporaryVariable env pos right s = .ok (temp, s')) :
    ∃ addr size name, temp = .memoryVector pos addr size name ∧ right.getVectorSize = .ok size ∧
      addr < 2 ^ 32 := by
  simp only [allocateTemporaryVariable, Stateful.bind_eq_ok, Stateful.lift_eq_ok,
    Stateful.get_apply, Stateful.set_apply, Stateful.pure_apply, Outcome.ok.injEq,
    Prod.mk.injEq] at h
  obtain ⟨size, _, ⟨hsize, rfl⟩, addr, s₁, hmem, _, _, ⟨rfl, rfl⟩, _, _, ⟨-, rfl⟩, rfl, rfl⟩ := h
  refine ⟨addr, size, _, rfl, hsize, ?_⟩
  simp only [allocateTemporaryMemory, Stateful.bind_eq_ok, Stateful.get_apply, Outcome.ok.injEq,
    Prod.mk.injEq, Stateful.set_apply] at hmem
  obtain ⟨_, _, ⟨rfl, rfl⟩, _, _, ⟨-, rfl⟩, h⟩ := hmem
  split_ifs at h
  · cases h
  · cases h
    exact Nat.mod_lt _ (by norm_num)

/-- Only a memory node that has a size can be assigned to. -/
theorem expandAssignment_left {fuel : Nat} {pos : SourcePos} {left : VNode}
    {code : List Assignment} (h : expandAssignment env fuel ⟨pos, left, right⟩ s = .ok (code, s')) :
    ∃ reg n, region? left = some reg ∧ left.getVectorSize = .ok n := by
  cases hreg : region? left with
  | none =>
    have hname : left.memoryName? = none := by rw [memoryName?_eq, hreg, Option.map_none]
    cases fuel <;> simp only [expandAssignment, hname] at h <;> cases h
  | some reg =>
    have hname : left.memoryName? = some reg.name := by rw [memoryName?_eq, hreg, Option.map_some]
    cases fuel <;> simp only [expandAssignment, hname, Stateful.bind_eq_ok,
      Stateful.lift_eq_ok] at h <;> obtain ⟨n, _, ⟨hn, -⟩, -⟩ := h <;> exact ⟨reg, n, rfl, hn⟩

theorem expandComponents_first {pos : SourcePos} {left : VNode} {n : Nat} {code : List Assignment}
    (hn : 0 < n) (h : expandComponents pos left right 0 n = .ok code) :
    (∃ l, left.expandWrite 0 = .ok l) ∧ ∃ r, right.expandVectorialNodes 0 = .ok r := by
  obtain ⟨n, rfl⟩ := Nat.exists_eq_succ_of_ne_zero hn.ne'
  simp only [expandComponents, Outcome.bind_eq_ok] at h
  obtain ⟨l, hl, r, hr, -⟩ := h
  exact ⟨⟨l, hl⟩, r, hr⟩

/-- An assignment does not read a variable of null size, nor one whose size is not an `int`. -/
theorem expandAssignment_stuck {pos : SourcePos} {left : VNode} {size n : Nat}
    (hn : left.getVectorSize = .ok n) (hpos : 0 < n) (hlt : size < 2 ^ 32)
    (hsize : ¬ (0 < size ∧ size < 2 ^ 31)) (fuel : Nat) :
    ∀ tpos addr name s r, addr < 2 ^ 32 →
      expandAssignment env fuel ⟨pos, left, .memoryVector tpos addr size name⟩ s ≠ .ok r := by
  induction fuel using Nat.strong_induction_on with
  | _ fuel ih =>
    rintro tpos addr name s ⟨code, s'⟩ ha h
    obtain ⟨reg, n', hreg, hn'⟩ := expandAssignment_left h
    cases hn.symm.trans hn'
    obtain ⟨-, -, hcode⟩ | ⟨fuel', temp, s₁, s₂, first, second, rfl, -, htemp, -, hsecond, -⟩ :=
      expandAssignment_eq_ok hreg hn h
    · obtain ⟨-, r, hr⟩ := expandComponents_first hpos hcode
      exact (memoryVector_stuck ha hlt hsize 0).1 r hr
    · obtain ⟨addr', size', name', rfl, hsize', ha'⟩ := allocateTemporaryVariable_node htemp
      cases hsize'
      exact ih fuel' (Nat.lt_succ_self _) _ _ _ _ _ ha' hsecond

/-- Expanding an assignment keeps the room for the variables and the accesses inside the memory. -/
theorem expandAssignment_inside (hV : env.targetDescription.variablesSize ≤ 4096) (fuel : Nat) :
    ∀ pos left right s code s', Bounded (WithinMemory env.targetDescription.variablesSize) left →
      Bounded (WithinMemory env.targetDescription.variablesSize) right → Room env s →
      expandAssignment env fuel ⟨pos, left, right⟩ s = .ok (code, s') →
        (∀ a ∈ code, assignmentInside env.targetDescription.variablesSize a) ∧ Room env s' := by
  induction fuel using Nat.strong_induction_on with
  | _ fuel ih =>
    intro pos left right s code s' hl hr hroom h
    obtain ⟨reg, n, hreg, hn⟩ := expandAssignment_left h
    obtain ⟨-, rfl, hcode⟩ | ⟨fuel', temp, s₁, s₂, first, second, rfl, hpos, htemp, hfirst,
      hsecond, rfl⟩ := expandAssignment_eq_ok hreg hn h
    · exact ⟨expandComponents_inside hV hl hr n 0 code hcode, hroom⟩
    · obtain ⟨addr, size, name, rfl, hsize, ha⟩ := allocateTemporaryVariable_node htemp
      have hlt : size < 2 ^ 32 :=
        hr.getVectorSize_lt (fun _ _ h => by have := h.1; omega) size hsize
      -- otherwise the temporary could not be read back
      have hint : 0 < size ∧ size < 2 ^ 31 := by
        by_contra hstuck
        exact expandAssignment_stuck hn (by omega) hlt hstuck fuel' _ _ _ _ _ ha hsecond
      obtain ⟨rfl, hfit, hnode⟩ :=
        allocateTemporaryVariable_eq_ok (by omega) hroom hsize hint.2 htemp
      have hwithin : WithinMemory env.targetDescription.variablesSize addr size := by
        cases hnode
        unfold WithinMemory
        omega
      have hroom₁ : Room env { s with
          endVariableIndex := s.endVariableIndex + size, uid := s.uid + 1 } := by
        unfold Room
        dsimp only
        omega
      obtain ⟨hcode₁, hroom₂⟩ := ih fuel' (Nat.lt_succ_self _) _ _ _ _ _ _ (.whole hwithin) hr
        hroom₁ hfirst
      obtain ⟨hcode₂, hroom₃⟩ := ih fuel' (Nat.lt_succ_self _) _ _ _ _ _ _ hl (.whole hwithin)
        hroom₂ hsecond
      refine ⟨fun a ha => ?_, hroom₃⟩
      rcases List.mem_append.mp ha with ha | ha
      · exact hcode₁ a ha
      · exact hcode₂ a ha

end Assignments

/-! ## The sizes of a native call -/

/-- The size that is stored for a template. -/
def storedSize (v : Int) : Option Nat := if 0 ≤ v then some (u32OfInt v) else none

def stored (sizes : TemplateSizes) (template : Nat) : Option Nat :=
  sizes.templateParameters[template]?.bind storedSize

section Sizes

theorem filterMap_range {α β : Type} (f : α → Option β) (l : List α) :
    (List.range l.length).filterMap (fun k => l[k]?.bind f) = l.filterMap f := by
  induction l with
  | nil => rfl
  | cons a l ih =>
    rw [List.length_cons, List.range_succ_eq_map, List.filterMap_cons, List.filterMap_map,
      List.filterMap_cons]
    simp only [Function.comp_def, List.getElem?_cons_succ, List.getElem?_cons_zero,
      Option.bind_some, ih]

theorem passed_eq_stored (l : List Int) :
    (l.filter (0 ≤ ·)).map u32OfInt = l.filterMap storedSize := by
  induction l with
  | nil => rfl
  | cons v l ih =>
    by_cases h : 0 ≤ v
    · simp [storedSize, h, ih]
    · simp [storedSize, h, ih]

theorem templateSize_cons {p : NativeFunctionParameter} {ps : List NativeFunctionParameter}
    {size : Nat} {ns : List Nat} (k : Nat) :
    templateSize (p :: ps) (size :: ns) k =
      if p.size = -(k + 1 : Int) then some size else templateSize ps ns k := by
  unfold templateSize
  rw [List.zip_cons_cons, List.find?_cons]
  split_ifs with h
  · rw [decide_eq_true h]
    rfl
  · rw [decide_eq_false h]

theorem storedSize_word {size : Nat} (h : size < 2 ^ 31) :
    storedSize (intOfU32 size) = some size := by
  rw [intOfU32_of_lt h, storedSize, if_pos (Int.natCast_nonneg _)]
  congr 1
  unfold u32OfInt
  omega

theorem stored_eq (sizes : TemplateSizes) (k : Nat) :
    stored sizes k = storedSize (sizes.templateParameters.getD k (-1)) := by
  rw [stored, List.getD_eq_getElem?_getD]
  cases sizes.templateParameters[k]? with
  | none => rfl
  | some v => rfl

/-- What the check of one argument stores. -/
theorem checkArgSize_eq_ok {name : String} {pos : SourcePos} {i size : Nat}
    {p : NativeFunctionParameter} {first second : TemplateSizes} (hsize : size < 2 ^ 31)
    (h : checkArgSize name pos i size p first = .ok second) :
    (0 < p.size → u32OfInt p.size = size) ∧
    second.templateArgs = first.templateArgs ++ (if p.size = 0 then [size] else []) ∧
    second.templateParameters.length = first.templateParameters.length ∧
    (∀ k < first.templateParameters.length, stored second k =
      if p.size = -(k + 1 : Int) then some size else stored first k) ∧
    ∀ k v, stored first k = some v → stored second k = some v := by
  unfold checkArgSize at h
  dsimp only at h
  split_ifs at h with hpos hne hneg hstored hdiff
  · cases h
  · cases h
    refine ⟨fun _ => (not_not.mp hne).symm, by simp [hpos.ne'], rfl, fun k _ => ?_, fun _ _ h => h⟩
    rw [if_neg (by omega)]
  · cases h
    have hindex : ∀ k : Nat, (-p.size - 1).toNat = k ↔ p.size = -(k + 1 : Int) := by omega
    have hnone : stored first (-p.size - 1).toNat = none := by
      rw [stored_eq, storedSize, if_neg (not_le.mpr hstored)]
    refine ⟨fun h => absurd h hpos, by simp [hneg.ne], List.length_set, fun k hk => ?_,
      fun k v hv => ?_⟩
    · rw [stored]
      by_cases heq : p.size = -(k + 1 : Int)
      · rw [if_pos heq, (hindex k).mpr heq, List.getElem?_set_self hk, Option.bind_some]
        exact storedSize_word hsize
      · rw [if_neg heq, List.getElem?_set_ne fun h => heq ((hindex k).mp h)]
        rfl
    · rw [stored, List.getElem?_set_ne, ← hv, stored]
      rintro rfl
      rw [hnone] at hv
      cases hv
  · cases h
  · cases h
    have hsome : stored first (-p.size - 1).toNat = some size := by
      rw [stored_eq, storedSize, if_pos (not_lt.mp hstored), not_not.mp hdiff]
    refine ⟨fun h => absurd h hpos, by simp [hneg.ne], rfl, fun k hk => ?_, fun _ _ h => h⟩
    split_ifs with heq
    · rw [← hsome]
      congr 1
      omega
    · rfl
  · cases h
    have hzero : p.size = 0 := by omega
    refine ⟨fun h => absurd h hpos, by simp [hzero], rfl, fun k hk => ?_, fun _ _ h => h⟩
    rw [if_neg (by omega)]
    rfl

/-- What the checks of all arguments store: each template has the size of its first argument, and
every argument the size of its template. -/
theorem gathered_spec {ps : List NativeFunctionParameter} {ns : List Nat}
    {first third : TemplateSizes} (h : Gathered ps ns first third) (hns : ∀ n ∈ ns, n < 2 ^ 31) :
    ns.length = ps.length ∧
    third.templateArgs = first.templateArgs ++
      ((ps.zip ns).filter fun p => p.1.size = 0).map Prod.snd ∧
    third.templateParameters.length = first.templateParameters.length ∧
    (∀ k < first.templateParameters.length,
      stored third k = (stored first k).or (templateSize ps ns k)) ∧
    ∀ p ∈ ps.zip ns, (0 < p.1.size → u32OfInt p.1.size = p.2) ∧
      ∀ k < first.templateParameters.length, p.1.size = -(k + 1 : Int) → stored third k = some p.2 := by
  induction h with
  | nil => exact ⟨rfl, by simp, rfl, fun k _ => by simp [templateSize], by simp⟩
  | @cons _ _ _ size p ps ns first second third h hrest ih =>
    obtain ⟨hsize, hns⟩ := List.forall_mem_cons.mp hns
    obtain ⟨hdeclared, hargs, hlength, hstored, hkept⟩ := checkArgSize_eq_ok hsize h
    obtain ⟨hlen, hargs', hlength', hstored', hall⟩ := ih hns
    rw [hlength] at hlength' hstored' hall
    refine ⟨by rw [List.length_cons, List.length_cons, hlen], ?_, hlength', fun k hk => ?_, ?_⟩
    · rw [hargs', hargs, List.zip_cons_cons, List.filter_cons]
      by_cases hzero : p.size = 0 <;> simp [hzero]
    · rw [hstored' k hk, hstored k hk, templateSize_cons]
      by_cases heq : p.size = -(k + 1 : Int)
      · have hsecond := hstored k hk
        rw [if_pos heq] at hsecond ⊢
        rw [if_pos heq]
        cases hfirst : stored first k with
        | none => rfl
        | some v =>
          rw [hkept k v hfirst] at hsecond
          rw [Option.some_or, Option.some_or, hsecond]
      · rw [if_neg heq, if_neg heq]
    · rw [List.zip_cons_cons]
      refine List.forall_mem_cons.mpr ⟨⟨hdeclared, fun k hk heq => ?_⟩, hall⟩
      rw [hstored' k hk, hstored k hk, if_pos heq, Option.some_or]

theorem foldl_min_le (ps : List NativeFunctionParameter) :
    ∀ m : Int, ps.foldl (fun m p => min p.size m) m ≤ m ∧
      ∀ p ∈ ps, ps.foldl (fun m p => min p.size m) m ≤ p.size := by
  induction ps with
  | nil => simp
  | cons p ps ih =>
    intro m
    rw [List.foldl_cons]
    obtain ⟨hm, hall⟩ := ih (min p.size m)
    exact ⟨hm.trans (min_le_right _ _),
      List.forall_mem_cons.mpr ⟨hm.trans (min_le_left _ _), hall⟩⟩

/-- A call passes the sizes that its arguments have. -/
theorem passedSizes_of_gathered {ps : List NativeFunctionParameter} {ns : List Nat}
    {sizes : TemplateSizes} (h : Gathered ps ns (initialSizes ps) sizes)
    (hns : ∀ n ∈ ns, n < 2 ^ 31) :
    passedSizes sizes = sizesPassed ps ns ∧ (∀ p ∈ ps.zip ns, SizeAgrees ps ns p) ∧
      ns.length = ps.length := by
  obtain ⟨hlen, hargs, hlength, hstored, hall⟩ := gathered_spec h hns
  have hcount : (initialSizes ps).templateParameters.length = templateCount ps := List.length_replicate
  have hinitial : ∀ k < templateCount ps, stored (initialSizes ps) k = none := by
    intro k hk
    change ((List.replicate (templateCount ps) (-1 : Int))[k]?).bind storedSize = none
    rw [List.getElem?_replicate_of_lt hk]
    rfl
  rw [hcount] at hlength hstored hall
  have htemplate : ∀ k < templateCount ps, stored sizes k = templateSize ps ns k := by
    intro k hk
    rw [hstored k hk, hinitial k hk, Option.none_or]
  refine ⟨?_, fun p hp => ⟨(hall p hp).1, fun hneg => ?_⟩, hlen⟩
  · rw [passedSizes, hargs, passed_eq_stored, ← filterMap_range, hlength, sizesPassed]
    congr 1
    exact List.filterMap_congr fun k hk => htemplate k (List.mem_range.mp hk)
  · have hmem := List.of_mem_zip hp
    have hk : (-p.1.size - 1).toNat < templateCount ps := by
      have := (foldl_min_le ps 0).2 p.1 hmem.1
      unfold templateCount
      omega
    rw [← htemplate _ hk]
    exact (hall p hp).2 _ hk (by omega)

end Sizes

/-! ## Statements -/

section Statements

variable {env : Environment} {s s' : CompilerState}

/-- The trees of the expressions of a program, when the memory has `n` words. -/
abbrev InMemory (n : Nat) : VNode → Prop := Bounded (WithinMemory n)

/-- A range of words that lies in a memory of `n` words. -/
def Fits (n addr size : Nat) : Prop := addr + size ≤ n

theorem Fits.withinMemory {n addr size : Nat} (hn : n ≤ 4096) (h : Fits n addr size) (hpos : 0 < size) :
    WithinMemory n addr size := by
  unfold Fits at h
  unfold WithinMemory
  omega

/-- The address of a memory node is known, or there is none. -/
theorem direct_of_addr {pos : SourcePos} {a k addr : Nat} {name : String} {i : VNode}
    (h : (VNode.memoryAt pos a k name i).getVectorAddr = .ok addr) (hne : addr ≠ eNoval) :
    Direct (.memoryAt pos a k name i) := by
  cases i with
  | tupleVector => trivial
  | binaryArithmetic | unaryArithmetic | immediate | memoryVector | memoryAt =>
    cases h
    exact absurd rfl hne

theorem callArg_inside (hV : env.targetDescription.variablesSize ≤ 4096) {arg : VCallArg}
    {arg' : CallArg} {size : Nat}
    (h : ArgFormed (InMemory env.targetDescription.variablesSize)
      (Fits env.targetDescription.variablesSize) arg size)
    (hroom : Room env s) (hok : arg.expandVectorialNodes env s = .ok (arg', s')) :
    argInside env.targetDescription.variablesSize arg' ∧
      StaticInside env.targetDescription.variablesSize arg' size ∧ size < 2 ^ 31 ∧ Room env s' := by
  cases h with
  | @memory _ e addr _ he haddr hsize hnode =>
    cases hok
    have hdirect : Direct e := by
      obtain ⟨_, _, _, _, rfl⟩ | ⟨⟨_, _, _, _, _, rfl⟩, hne⟩ := hnode
      · trivial
      · exact direct_of_addr haddr hne
    obtain ⟨-, hrange⟩ := direct_range hV he hdirect haddr hsize
    exact ⟨trivial, hrange, by omega, hroom⟩
  | temporary hright hsize hpos hlt htemp =>
    simp only [VCallArg.expandVectorialNodes, Stateful.bind_eq_ok, Stateful.pure_apply,
      Outcome.ok.injEq, Prod.mk.injEq] at hok
    obtain ⟨code, s₁, hcode, rfl, rfl⟩ := hok
    obtain ⟨hinside, hroom'⟩ := expandAssignment_inside hV _ _ _ _ _ _ _
      (.whole (htemp.withinMemory hV hpos)) hright hroom hcode
    exact ⟨hinside, htemp, hlt, hroom'⟩
  | element he htemp =>
    simp only [VCallArg.expandVectorialNodes, Stateful.bind_eq_ok, Stateful.lift_eq_ok,
      Stateful.pure_apply, Outcome.ok.injEq, Prod.mk.injEq] at hok
    obtain ⟨index, _, ⟨hindex, rfl⟩, rfl, rfl⟩ := hok
    have hinside := expandVectorialNodes_inside hV he.memoryAt.2 _ _ hindex
    exact ⟨⟨hinside, htemp, he.memoryAt.1⟩, trivial, by norm_num, hroom⟩

theorem expandCallArgs_inside (hV : env.targetDescription.variablesSize ≤ 4096)
    {args : List VCallArg} {ns : List Nat}
    (h : List.Forall₂ (ArgFormed (InMemory env.targetDescription.variablesSize)
      (Fits env.targetDescription.variablesSize)) args ns) :
    ∀ args' s s', Room env s → expandCallArgs env args s = .ok (args', s') →
      (∀ a ∈ args', argInside env.targetDescription.variablesSize a) ∧
      List.Forall₂ (StaticInside env.targetDescription.variablesSize) args' ns ∧
      (∀ n ∈ ns, n < 2 ^ 31) ∧ Room env s' := by
  induction h with
  | nil =>
    intro args' s s' hroom hok
    cases hok
    exact ⟨by simp, .nil, by simp, hroom⟩
  | cons harg _ ih =>
    intro args' s s' hroom hok
    simp only [expandCallArgs, Stateful.bind_eq_ok, Stateful.pure_apply, Outcome.ok.injEq,
      Prod.mk.injEq] at hok
    obtain ⟨a, s₁, ha, rest, s₂, hrest, rfl, rfl⟩ := hok
    obtain ⟨hinside, hstatic, hlt, hroom₁⟩ := callArg_inside hV harg hroom ha
    obtain ⟨hinside', hstatic', hlt', hroom₂⟩ := ih _ _ _ hroom₁ hrest
    exact ⟨List.forall_mem_cons.mpr ⟨hinside, hinside'⟩, .cons hstatic hstatic',
      List.forall_mem_cons.mpr ⟨hlt, hlt'⟩, hroom₂⟩

/-- The statements of a program, when the memory has the words of the target. -/
abbrev FormedInMemory (env : Environment) : VStatement → Prop :=
  Formed env (InMemory env.targetDescription.variablesSize)
    (Fits env.targetDescription.variablesSize)

theorem expandAbstractList_mem {cs cs' : List VStatement}
    (h : VStatement.expandAbstractList cs = .ok cs') :
    ∀ x ∈ cs', ∃ c ∈ cs, c.expandAbstractNodes = .ok x := by
  induction cs generalizing cs' with
  | nil =>
    cases h
    simp
  | cons c rest ih =>
    simp only [VStatement.expandAbstractList, Outcome.bind_eq_ok, Outcome.pure_eq,
      Outcome.ok.injEq] at h
    obtain ⟨c', hc', rest', hrest', rfl⟩ := h
    intro x hx
    rcases List.mem_cons.mp hx with rfl | hx
    · exact ⟨c, List.mem_cons_self .., hc'⟩
    · obtain ⟨d, hd, hx⟩ := ih hrest' x hx
      exact ⟨d, List.mem_cons_of_mem _ hd, hx⟩

/-- The first expansion keeps the trees over the memory. -/
theorem Formed.expandAbstract {st : VStatement} (h : FormedInMemory env st) :
    ∀ st', st.expandAbstractNodes = .ok st' → FormedInMemory env st' := by
  induction h with
  | @block pos cs _ ih =>
    intro st' hok
    simp only [VStatement.expandAbstractNodes, Outcome.bind_eq_ok, Outcome.pure_eq,
      Outcome.ok.injEq] at hok
    obtain ⟨cs', hcs', rfl⟩ := hok
    refine .block fun x hx => ?_
    obtain ⟨c, hc, hx⟩ := expandAbstractList_mem hcs' x hx
    exact ih c hc x hx
  | assignment hl hr =>
    intro st' hok
    cases hok
    exact .assignment hl hr
  | arithmeticAssignment hl hr =>
    intro st' hok
    cases hok
    exact .assignment hl (.binary hl hr)
  | unaryArithmeticAssignment he =>
    intro st' hok
    simp only [VStatement.expandAbstractNodes, expandUnaryArithmeticAssignment, Outcome.bind_eq_ok,
      Outcome.pure_eq, Outcome.ok.injEq] at hok
    obtain ⟨size, -, rfl⟩ := hok
    refine .assignment he (.binary he (.tuple fun c hc => ?_))
    rw [(List.mem_replicate.mp hc).2]
    exact .immediate
  | ifWhen hcond _ iht =>
    intro st' hok
    simp only [VStatement.expandAbstractNodes, Outcome.bind_eq_ok, Outcome.pure_eq,
      Outcome.ok.injEq] at hok
    obtain ⟨t', ht', rfl⟩ := hok
    exact .ifWhen hcond (iht _ ht')
  | ifWhenElse hcond _ _ iht ihf =>
    intro st' hok
    simp only [VStatement.expandAbstractNodes, Outcome.bind_eq_ok, Outcome.pure_eq,
      Outcome.ok.injEq] at hok
    obtain ⟨t', ht', f', hf', rfl⟩ := hok
    exact .ifWhenElse hcond (iht _ ht') (ihf _ hf')
  | whileLoop hcond _ ihb =>
    intro st' hok
    simp only [VStatement.expandAbstractNodes, Outcome.bind_eq_ok, Outcome.pure_eq,
      Outcome.ok.injEq] at hok
    obtain ⟨b', hb', rfl⟩ := hok
    exact .whileLoop hcond (ihb _ hb')
  | emitNothing hid =>
    intro st' hok
    cases hok
    exact .emitNothing hid
  | emitMemory hid he hnode haddr hne hsize =>
    intro st' hok
    cases hok
    exact .emitMemory hid he hnode haddr hne hsize
  | emitTemporary hid hright hsize hpos hlt htemp =>
    intro st' hok
    cases hok
    exact .emitTemporary hid hright hsize hpos hlt htemp
  | callSub =>
    intro st' hok
    cases hok
    exact .callSub
  | call hfunction hargs hsizes =>
    intro st' hok
    cases hok
    exact .call hfunction hargs hsizes
  | ret =>
    intro st' hok
    cases hok
    exact .ret

/-- The second expansion of a statement, as it is done in the memory that is left. -/
def ExpandsInside (env : Environment) (st : VStatement) : Prop :=
  ∀ st' s s', Room env s → st.expandVectorialNodes env s = .ok (st', s') →
    TreeInside env (fun _ => True) st' ∧ Room env s'

theorem expandVectorialList_inside {cs : List VStatement} (h : ∀ c ∈ cs, ExpandsInside env c) :
    ∀ cs' s s', Room env s → VStatement.expandVectorialList env cs s = .ok (cs', s') →
      (∀ c ∈ cs', TreeInside env (fun _ => True) c) ∧ Room env s' := by
  induction cs with
  | nil =>
    intro cs' s s' hroom hok
    cases hok
    exact ⟨by simp, hroom⟩
  | cons c rest ih =>
    intro cs' s s' hroom hok
    simp only [VStatement.expandVectorialList, Stateful.bind_eq_ok, Stateful.pure_apply,
      Outcome.ok.injEq, Prod.mk.injEq] at hok
    obtain ⟨c', s₁, hc', rest', s₂, hrest', rfl, rfl⟩ := hok
    obtain ⟨hfirst, hothers⟩ := List.forall_mem_cons.mp h
    obtain ⟨hinside, hroom₁⟩ := hfirst _ _ _ hroom hc'
    obtain ⟨hinside', hroom₂⟩ := ih hothers _ _ _ hroom₁ hrest'
    exact ⟨List.forall_mem_cons.mpr ⟨hinside, hinside'⟩, hroom₂⟩

theorem Formed.expandsInside (hV : env.targetDescription.variablesSize ≤ 4096) {st : VStatement}
    (h : FormedInMemory env st) : ExpandsInside env st := by
  induction h with
  | block _ ih =>
    intro st' s s' hroom hok
    simp only [VStatement.expandVectorialNodes, Stateful.bind_eq_ok, Stateful.pure_apply,
      Outcome.ok.injEq, Prod.mk.injEq] at hok
    obtain ⟨cs', s₁, hcs', rfl, rfl⟩ := hok
    obtain ⟨hinside, hroom'⟩ := expandVectorialList_inside ih _ _ _ hroom hcs'
    exact ⟨.block hinside, hroom'⟩
  | assignment hl hr =>
    intro st' s s' hroom hok
    simp only [VStatement.expandVectorialNodes, Stateful.bind_eq_ok, Stateful.pure_apply,
      Outcome.ok.injEq, Prod.mk.injEq] at hok
    obtain ⟨code, s₁, hcode, rfl, rfl⟩ := hok
    obtain ⟨hinside, hroom'⟩ := expandAssignment_inside hV _ _ _ _ _ _ _ hl hr hroom hcode
    refine ⟨.block fun c hc => ?_, hroom'⟩
    obtain ⟨a, ha, rfl⟩ := List.mem_map.mp hc
    exact .assignment (hinside a ha)
  | arithmeticAssignment | unaryArithmeticAssignment =>
    intro st' s s' _ hok
    cases hok
  | ifWhen hcond _ iht =>
    intro st' s s' hroom hok
    simp only [VStatement.expandVectorialNodes, Stateful.bind_eq_ok, Stateful.lift_eq_ok,
      Stateful.pure_apply, Outcome.ok.injEq, Prod.mk.injEq] at hok
    obtain ⟨cond', _, ⟨hc, rfl⟩, t', s₁, ht', rfl, rfl⟩ := hok
    obtain ⟨hinside, hroom'⟩ := iht _ _ _ hroom ht'
    exact ⟨.ifWhen (expandVectorialNodes_inside hV hcond _ _ hc) hinside, hroom'⟩
  | ifWhenElse hcond _ _ iht ihf =>
    intro st' s s' hroom hok
    simp only [VStatement.expandVectorialNodes, Stateful.bind_eq_ok, Stateful.lift_eq_ok,
      Stateful.pure_apply, Outcome.ok.injEq, Prod.mk.injEq] at hok
    obtain ⟨cond', _, ⟨hc, rfl⟩, t', s₁, ht', f', s₂, hf', rfl, rfl⟩ := hok
    obtain ⟨hinside, hroom₁⟩ := iht _ _ _ hroom ht'
    obtain ⟨hinside', hroom₂⟩ := ihf _ _ _ hroom₁ hf'
    exact ⟨.ifWhenElse (expandVectorialNodes_inside hV hcond _ _ hc) hinside hinside', hroom₂⟩
  | whileLoop hcond _ ihb =>
    intro st' s s' hroom hok
    simp only [VStatement.expandVectorialNodes, Stateful.bind_eq_ok, Stateful.lift_eq_ok,
      Stateful.pure_apply, Outcome.ok.injEq, Prod.mk.injEq] at hok
    obtain ⟨cond', _, ⟨hc, rfl⟩, b', s₁, hb', rfl, rfl⟩ := hok
    obtain ⟨hinside, hroom'⟩ := ihb _ _ _ hroom hb'
    exact ⟨.whileLoop (expandVectorialNodes_inside hV hcond _ _ hc) hinside, hroom'⟩
  | emitNothing hid =>
    intro st' s s' hroom hok
    cases hok
    exact ⟨.emitEvent hid (Nat.zero_le _) (by simp), hroom⟩
  | @emitMemory _ _ addr size e hid he hnode haddr hne hsize =>
    intro st' s s' hroom hok
    cases hok
    have hdirect : Direct e := by
      cases e with
      | memoryVector => trivial
      | memoryAt => exact direct_of_addr haddr hne
      | binaryArithmetic | unaryArithmetic | immediate | tupleVector => cases hnode
    obtain ⟨-, hrange⟩ := direct_range hV he hdirect haddr hsize
    exact ⟨.emitEvent hid hrange (by simp), hroom⟩
  | emitTemporary hid hright hsize hpos hlt htemp =>
    intro st' s s' hroom hok
    simp only [VStatement.expandVectorialNodes, Stateful.bind_eq_ok, Stateful.pure_apply,
      Outcome.ok.injEq, Prod.mk.injEq] at hok
    obtain ⟨code, s₁, hcode, rfl, rfl⟩ := hok
    obtain ⟨hinside, hroom'⟩ := expandAssignment_inside hV _ _ _ _ _ _ _
      (.whole (htemp.withinMemory hV hpos)) hright hroom hcode
    exact ⟨.emitEvent hid htemp hinside, hroom'⟩
  | callSub =>
    intro st' s s' hroom hok
    cases hok
    exact ⟨.callSub trivial, hroom⟩
  | @call pos funcId f args ns sizes hfunction hargs hsizes =>
    intro st' s s' hroom hok
    simp only [VStatement.expandVectorialNodes, Stateful.bind_eq_ok, Stateful.pure_apply,
      Outcome.ok.injEq, Prod.mk.injEq] at hok
    obtain ⟨args', s₁, hargs', rfl, rfl⟩ := hok
    obtain ⟨hinside, hstatic, hlt, hroom'⟩ := expandCallArgs_inside hV hargs _ _ _ hroom hargs'
    obtain ⟨hpassed, hagree, hlen⟩ := passedSizes_of_gathered hsizes hlt
    exact ⟨.call hinside ⟨f, ns, hfunction, hpassed, hagree, hstatic, hlen⟩, hroom'⟩
  | ret =>
    intro st' s s' hroom hok
    cases hok
    exact ⟨.ret, hroom⟩

end Statements

end ThymioDeviceManager.Correctness
