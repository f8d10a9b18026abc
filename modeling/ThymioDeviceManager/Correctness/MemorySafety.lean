import ThymioDeviceManager.Correctness.MemoryExpansion
import ThymioDeviceManager.Correctness.SubroutineNumbers

/-! # Memory safety of generated code

The variables of the target and of the program lie one after the other at the
start of the memory, temporaries at its end. A declaration whose size wraps around
is accepted by the parser, but its initial value is then never expanded.
-/

namespace ThymioDeviceManager.Correctness

open Compiler Library

/-! ## Formed statements over other properties -/

section Mono

variable {env : Environment} {R R' : VNode → Prop} {P : Nat → Nat → Prop}

theorem ArgFormed.mono (hR : ∀ e, R e → R' e) {a : VCallArg} {size : Nat}
    (h : ArgFormed R P a size) : ArgFormed R' P a size := by
  cases h with
  | memory he haddr hsize hnode => exact .memory (hR _ he) haddr hsize hnode
  | temporary he hsize hpos hlt htemp => exact .temporary (hR _ he) hsize hpos hlt htemp
  | element he htemp => exact .element (hR _ he) htemp

theorem Formed.mono (hR : ∀ e, R e → R' e) {st : VStatement} (h : Formed env R P st) :
    Formed env R' P st := by
  induction h with
  | block _ ih => exact .block ih
  | assignment hl hr => exact .assignment (hR _ hl) (hR _ hr)
  | arithmeticAssignment hl hr => exact .arithmeticAssignment (hR _ hl) (hR _ hr)
  | unaryArithmeticAssignment he => exact .unaryArithmeticAssignment (hR _ he)
  | ifWhen hcond _ iht => exact .ifWhen (hR _ hcond) iht
  | ifWhenElse hcond _ _ iht ihf => exact .ifWhenElse (hR _ hcond) iht ihf
  | whileLoop hcond _ ihb => exact .whileLoop (hR _ hcond) ihb
  | emitNothing hid => exact .emitNothing hid
  | emitMemory hid he hnode haddr hne hsize => exact .emitMemory hid (hR _ he) hnode haddr hne hsize
  | emitTemporary hid he hsize hpos hlt htemp =>
    exact .emitTemporary hid (hR _ he) hsize hpos hlt htemp
  | callSub => exact .callSub
  | call hfunction hargs hsizes =>
    exact .call hfunction (hargs.imp fun _ _ h => h.mono hR) hsizes
  | ret => exact .ret

end Mono

/-! ## Constant expressions -/

/-- The values of a host `int`. -/
def IsInt32 (v : Int) : Prop := -2 ^ 31 ≤ v ∧ v < 2 ^ 31

/-- The constants of a tree are values of a host `int`. -/
def int32Node : Node → Prop
  | .binaryArithmetic _ _ left right => int32Node left ∧ int32Node right
  | .unaryArithmetic _ _ child => int32Node child
  | .immediate _ value => IsInt32 value
  | .load .. => True
  | .arrayRead _ _ _ _ index => int32Node index

section Constants

theorem int32_ofBool (b : Bool) : IsInt32 (ofBool b) := by
  cases b <;> simp [ofBool, IsInt32]

theorem isInt32_of_int32 {v r : Int} (h : int32 v = .ok r) : IsInt32 r := by
  unfold int32 at h
  split_ifs at h with hv
  · cases h
    exact hv

theorem isInt32_bitwise (f : BitVec 32 → BitVec 32 → BitVec 32) (a b : Int) :
    IsInt32 (bitwise f a b) :=
  ⟨BitVec.le_toInt _, BitVec.toInt_lt⟩

theorem isInt32_shiftRight {a : Int} (ha : IsInt32 a) (n : Nat) : IsInt32 (a / 2 ^ n) := by
  obtain ⟨hlow, hhigh⟩ := ha
  have hpow : (1 : Int) ≤ 2 ^ n := one_le_pow₀ (by norm_num)
  constructor
  · rw [Int.le_ediv_iff_mul_le (by omega)]
    nlinarith
  · rw [Int.ediv_lt_iff_lt_mul (by omega)]
    nlinarith

theorem isInt32_tmod {a : Int} (ha : IsInt32 a) (b : Int) : IsInt32 (a.tmod b) := by
  obtain ⟨hlow, hhigh⟩ := ha
  have hle : (a.tmod b).natAbs ≤ a.natAbs := by
    rw [Int.natAbs_tmod]
    exact Nat.mod_le _ _
  by_cases hpos : 0 ≤ a
  · have := Int.tmod_nonneg b hpos
    unfold IsInt32
    omega
  · have hneg := Int.tmod_nonneg (a := -a) b (by omega)
    rw [Int.neg_tmod] at hneg
    unfold IsInt32
    omega

theorem isInt32_foldBinary {pos : SourcePos} {op : AsebaBinaryOperator} {a b r : Int}
    (ha : IsInt32 a) (h : foldBinary pos op a b = .ok r) : IsInt32 r := by
  cases op with
  | shiftLeft =>
    simp only [foldBinary] at h
    split_ifs at h
    cases h
    exact ⟨Int.le_bmod (m := 2 ^ 32) (by norm_num), Int.bmod_lt (m := 2 ^ 32) (by norm_num)⟩
  | shiftRight =>
    simp only [foldBinary] at h
    split_ifs at h
    cases h
    exact isInt32_shiftRight ha _
  | add | sub | mult => exact isInt32_of_int32 h
  | div =>
    simp only [foldBinary] at h
    split_ifs at h
    · cases h
    · exact isInt32_of_int32 h
  | mod =>
    simp only [foldBinary] at h
    split_ifs at h
    · cases h
    · obtain ⟨_, -, hpure⟩ := Outcome.bind_eq_ok.mp h
      cases hpure
      exact isInt32_tmod ha b
  | bitOr | bitXor | bitAnd =>
    cases h
    exact isInt32_bitwise _ _ _
  | equal | notEqual | biggerThan | biggerEqualThan | smallerThan | smallerEqualThan | or | and =>
    cases h
    exact int32_ofBool _

theorem isInt32_foldUnary {pos : SourcePos} {op : AsebaUnaryOperator} {a r : Int}
    (ha : IsInt32 a) (h : foldUnary pos op a = .ok r) : IsInt32 r := by
  cases op with
  | sub => exact isInt32_of_int32 h
  | abs =>
    simp only [foldUnary] at h
    split_ifs at h
    · cases h
    · exact isInt32_of_int32 h
  | bitNot =>
    cases h
    obtain ⟨hlow, hhigh⟩ := ha
    unfold IsInt32
    omega
  | not =>
    cases h
    exact int32_ofBool _

theorem isInt32_absorbing {op : AsebaBinaryOperator} {a b : Option Int} {v : Int}
    (h : absorbingResult op a b = some v) : IsInt32 v := by
  unfold absorbingResult at h
  split at h
  all_goals first
    | (split_ifs at h; cases h; unfold IsInt32; norm_num)
    | cases h

theorem stripTwos_le (fuel : Nat) (n : Int) (i : Nat) : (stripTwos fuel n i).2 ≤ i + fuel := by
  induction fuel generalizing n i with
  | zero => simp [stripTwos]
  | succ fuel ih =>
    rw [stripTwos]
    split_ifs
    · have := ih (n / 2) (i + 1)
      omega
    · simp

theorem isInt32_shiftFromPOT (v : Int) : IsInt32 (shiftFromPOT v) := by
  have := stripTwos_le 32 v 0
  unfold shiftFromPOT IsInt32
  split_ifs <;> omega

theorem optimizeBinary_int32 {pos : SourcePos} {op : AsebaBinaryOperator} {l r e : Node}
    (hl : int32Node l) (hr : int32Node r) (h : optimizeBinary pos op l r = .ok e) :
    int32Node e := by
  unfold optimizeBinary at h
  split at h
  · rename_i a b ha hb
    obtain ⟨v, hv, hpure⟩ := Outcome.bind_eq_ok.mp h
    cases hpure
    obtain ⟨p, rfl⟩ := immediate?_eq_some.mp ha
    exact isInt32_foldBinary hl hv
  · split at h
    · rename_i survivor _
      cases h
      cases survivor
      · exact hl
      · exact hr
    · split at h
      · rename_i v hv
        cases h
        exact isInt32_absorbing hv
      · unfold reduceStrength at h
        split at h
        · split_ifs at h <;> cases h
          · exact ⟨hl, isInt32_shiftFromPOT _⟩
          · exact ⟨hl, isInt32_shiftFromPOT _⟩
          · exact ⟨hl, hr⟩
        · cases h
          exact ⟨hl, hr⟩

theorem optimize_int32 {e e' : Node} (he : int32Node e) (h : e.optimize = .ok e') :
    int32Node e' := by
  induction e generalizing e' with
  | binaryArithmetic pos op l r ihl ihr =>
    simp only [Node.optimize, Outcome.bind_eq_ok] at h
    obtain ⟨l', hl, r', hr, h⟩ := h
    exact optimizeBinary_int32 (ihl he.1 hl) (ihr he.2 hr) h
  | unaryArithmetic pos op c ih =>
    simp only [Node.optimize, Outcome.bind_eq_ok] at h
    obtain ⟨c', hc, h⟩ := h
    have hchild := ih he hc
    cases c' with
    | immediate p v =>
      obtain ⟨v', hv, hpure⟩ := Outcome.bind_eq_ok.mp h
      cases hpure
      exact isInt32_foldUnary hchild hv
    | binaryArithmetic p op' l r =>
      simp only [optimizeUnary] at h
      split_ifs at h
      · exact deMorgan_keeps (fun _ _ _ _ => Iff.rfl) hchild h
      · cases h
        exact hchild
    | unaryArithmetic | load | arrayRead =>
      cases h
      exact hchild
  | immediate | load =>
    cases h
    exact he
  | arrayRead pos addr size name i ih =>
    simp only [Node.optimize, Outcome.bind_eq_ok] at h
    obtain ⟨i', hi, h⟩ := h
    split at h
    · obtain ⟨p, hp, hpure⟩ := Outcome.bind_eq_ok.mp h
      cases hpure
      trivial
    · cases h
      have hindex := ih he hi
      exact hindex

/-- The constants that a source text holds are small, so those of a component are. -/
theorem expandReadable_int32 {V : VariablesMap} {e : VNode} (he : Readable V e) :
    ∀ i r, e.expandVectorialNodes i = .ok r → int32Node r := by
  induction he with
  | binary _ _ ihl ihr =>
    intro i r h
    simp only [VNode.expandVectorialNodes, Outcome.bind_eq_ok, Outcome.pure_eq,
      Outcome.ok.injEq] at h
    obtain ⟨l', hl', r', hr', rfl⟩ := h
    exact ⟨ihl _ _ hl', ihr _ _ hr'⟩
  | unary _ ih =>
    intro i r h
    simp only [VNode.expandVectorialNodes, Outcome.bind_eq_ok, Outcome.pure_eq,
      Outcome.ok.injEq] at h
    obtain ⟨c', hc', rfl⟩ := h
    have hchild := ih _ _ hc'
    exact hchild
  | value hv =>
    intro i r h
    rw [VNode.tupleOf, VNode.expandVectorialNodes] at h
    obtain ⟨c, hc, j, hr⟩ := expandTuple_mem h
    rw [List.mem_singleton.mp hc] at hr
    simp only [VNode.expandVectorialNodes, Outcome.bind_eq_ok, Outcome.pure_eq,
      Outcome.ok.injEq] at hr
    obtain ⟨_, -, rfl⟩ := hr
    obtain ⟨hlow, hhigh⟩ := hv
    exact ⟨by omega, by omega⟩
  | tuple _ _ ih =>
    intro i r h
    rw [VNode.expandVectorialNodes] at h
    obtain ⟨c, hc, j, hr⟩ := expandTuple_mem h
    exact ih c hc j r hr
  | whole =>
    intro i r h
    simp only [VNode.expandVectorialNodes, Outcome.bind_eq_ok, Outcome.pure_eq,
      Outcome.ok.injEq] at h
    obtain ⟨_, -, rfl⟩ := h
    trivial
  | element | slice =>
    intro i r h
    simp only [VNode.expandVectorialNodes, Outcome.bind_eq_ok, Outcome.pure_eq,
      Outcome.ok.injEq] at h
    obtain ⟨_, -, rfl⟩ := h
    trivial
  | @computed _ _ _ _ _ index _ _ _ _ ih =>
    intro i r h
    obtain hindex | ⟨ipos, cs, rfl⟩ := computed_or_tuple index
    · simp only [expand_indexed hindex, Outcome.bind_eq_ok, Outcome.pure_eq, Outcome.ok.injEq] at h
      obtain ⟨_, -, r', hr', rfl⟩ := h
      have hchild := ih _ _ hr'
      exact hchild
    · simp only [VNode.expandVectorialNodes, Outcome.bind_eq_ok, Outcome.pure_eq,
        Outcome.ok.injEq] at h
      obtain ⟨_, -, rfl⟩ := h
      trivial

theorem isInt32_of_evaluates {V : VariablesMap} {v : Int} (h : Evaluates (Readable V) v) :
    IsInt32 v := by
  obtain ⟨pos, e, he, hv⟩ := h
  simp only [expectConstantExpression, Outcome.bind_eq_ok] at hv
  obtain ⟨scalar, hscalar, optimized, hopt, hv⟩ := hv
  have hint := optimize_int32 (expandReadable_int32 he _ _ hscalar) hopt
  split at hv
  · cases hv
    exact hint
  · cases hv

/-- A declared size is a positive `int`, or left open. -/
theorem declaredSize_lt {V : VariablesMap} {size : Nat} (h : DeclaredSize (Readable V) size) :
    size = eNoval ∨ size < 2 ^ 31 := by
  obtain rfl | rfl | ⟨v, hpos, hv, rfl⟩ := h
  · exact .inr (by norm_num)
  · exact .inl rfl
  · obtain ⟨-, hhigh⟩ := isInt32_of_evaluates hv
    refine .inr ?_
    unfold u32OfInt
    omega

end Constants

/-! ## The variables -/

/-- Every word of every variable of the target has an address that fits its field, and so does
every word of its memory. -/
structure AddressesFit (td : TargetDescription) : Prop where
  memory : td.variablesSize ≤ 4096
  named : ∀ name addr size, td.getVariablesMap.1.find? name = some (addr, size) →
    addr < 4096 ∧ addr + size ≤ 4096

/-- The names of the variables of the target are distinct. -/
def DistinctNames (td : TargetDescription) : Prop :=
  (td.namedVariables.map NamedVariable.name).Nodup

/-- The variables that are known lie before the free memory, in the memory of the target. -/
structure Layout (env : Environment) (k : CompilerState) : Prop where
  fits : k.freeVariableIndex ≤ env.targetDescription.variablesSize
  placed : ∀ name addr size, k.variablesMap.find? name = some (addr, size) →
    addr < 4096 ∧ addr + size ≤ k.freeVariableIndex

/-- What holds of the variables also when a size wraps around. -/
structure Sized (env : Environment) (k : CompilerState) : Prop where
  fits : k.freeVariableIndex ≤ env.targetDescription.variablesSize
  sized : ∀ name addr size, k.variablesMap.find? name = some (addr, size) → size < 2 ^ 32

section Layout

variable {env : Environment} {k k' : CompilerState}

/-- The variables of a list, one after the other. -/
def placeVariables (l : List NamedVariable) : VariablesMap × Nat :=
  l.foldl (fun acc v => (acc.1.insert v.name (acc.2, v.size), u32 (acc.2 + v.size))) ([], 0)

theorem placeVariables_append (l : List NamedVariable) (v : NamedVariable) :
    placeVariables (l ++ [v]) = ((placeVariables l).1.insert v.name ((placeVariables l).2, v.size),
      u32 ((placeVariables l).2 + v.size)) := by
  rw [placeVariables, List.foldl_append]
  rfl

theorem find?_placeVariables_append {l : List NamedVariable} {v : NamedVariable} {name : String}
    {r : Nat × Nat} (h : (placeVariables (l ++ [v])).1.find? name = some r) :
    (v.name = name ∧ r = ((placeVariables l).2, v.size)) ∨
      v.name ≠ name ∧ (placeVariables l).1.find? name = some r := by
  rw [placeVariables_append, OrderedMap.find?_insert] at h
  split_ifs at h with heq
  · cases h
    exact .inl ⟨heq, rfl⟩
  · exact .inr ⟨heq, h⟩

theorem mem_of_find?_placeVariables (l : List NamedVariable) : ∀ name r,
    (placeVariables l).1.find? name = some r → name ∈ l.map NamedVariable.name := by
  induction l using List.reverseRecOn with
  | nil =>
    intro name r h
    cases h
  | append_singleton l v ih =>
    intro name r h
    rw [List.map_append, List.mem_append]
    obtain ⟨rfl, -⟩ | ⟨-, h⟩ := find?_placeVariables_append h
    · exact .inr (List.mem_singleton_self _)
    · exact .inl (ih name r h)

/-- Variables whose addresses fit do not wrap around. -/
theorem placed_of_named (l : List NamedVariable) (hl : (l.map NamedVariable.name).Nodup)
    (hfit : ∀ name addr size, (placeVariables l).1.find? name = some (addr, size) →
      addr < 4096 ∧ addr + size ≤ 4096) :
    (placeVariables l).2 ≤ 4096 ∧ ∀ name addr size,
      (placeVariables l).1.find? name = some (addr, size) → addr + size ≤ (placeVariables l).2 := by
  induction l using List.reverseRecOn with
  | nil =>
    refine ⟨Nat.zero_le _, fun name addr size h => ?_⟩
    cases h
  | append_singleton l v ih =>
    rw [List.map_append, List.nodup_append] at hl
    obtain ⟨hnodup, -, hfresh⟩ := hl
    have hkept : ∀ name r, (placeVariables l).1.find? name = some r →
        (placeVariables (l ++ [v])).1.find? name = some r := by
      intro name r h
      have hne : v.name ≠ name := by
        rintro rfl
        exact hfresh _ (mem_of_find?_placeVariables l _ _ h) _ (List.mem_singleton_self _) rfl
      rw [placeVariables_append, OrderedMap.find?_insert, if_neg hne, h]
    obtain ⟨hle, hplaced⟩ := ih hnodup fun name addr size h => hfit name addr size (hkept _ _ h)
    have hlast := hfit v.name (placeVariables l).2 v.size (by
      rw [placeVariables_append, OrderedMap.find?_insert, if_pos rfl])
    have hfree : (placeVariables (l ++ [v])).2 = (placeVariables l).2 + v.size := by
      rw [placeVariables_append, u32_of_lt (by omega)]
    rw [hfree]
    refine ⟨hlast.2, fun name addr size h => ?_⟩
    obtain ⟨-, heq⟩ | ⟨-, h⟩ := find?_placeVariables_append h
    · cases heq
      exact le_rfl
    · have := hplaced name addr size h
      omega

theorem layout_buildMaps {s : CompilerState} (hfit : AddressesFit env.targetDescription)
    (hnames : DistinctNames env.targetDescription)
    (hfree : (buildMaps env s).freeVariableIndex ≤ env.targetDescription.variablesSize) :
    Layout env (buildMaps env s) := by
  obtain ⟨-, hplaced⟩ := placed_of_named env.targetDescription.namedVariables hnames hfit.named
  exact ⟨hfree, fun name addr size h => ⟨(hfit.named name addr size h).1, hplaced name addr size h⟩⟩

theorem Layout.sized (h : Layout env k) (hV : env.targetDescription.variablesSize ≤ 4096) :
    Sized env k := by
  refine ⟨h.fits, fun name addr size hfind => ?_⟩
  have := h.fits
  have := (h.placed name addr size hfind).2
  omega

theorem find?_declare {name name' : String} {size : Nat} {r : Nat × Nat}
    (h : (declare k name size).variablesMap.find? name' = some r) :
    (name = name' ∧ r = (k.freeVariableIndex, size)) ∨ k.variablesMap.find? name' = some r := by
  rw [declare, OrderedMap.find?_insert] at h
  split_ifs at h with heq
  · cases h
    exact .inl ⟨heq, rfl⟩
  · exact .inr h

theorem Sized.size_lt (h : Sized env k) {e : VNode} (he : Readable k.variablesMap e) {size : Nat}
    (hsize : e.getVectorSize = .ok size) : size < 2 ^ 32 :=
  (bounded_of_readable (M := fun _ k => k < 2 ^ 32) h.sized he).getVectorSize_lt
    (fun _ _ h => h) size hsize

/-- The size of a declaration is an `int`, or that of an initial value that cannot be stored. -/
theorem Declares.size_cases (h : Sized env k) {name : String} {size : Nat}
    {init : Option VAssignment} (hd : Declares env k name size init) :
    size < 2 ^ 31 ∨ size < 2 ^ 32 ∧ ∃ a pos, init = some a ∧ Readable k.variablesMap a.right ∧
      a.left = .memoryVector pos k.freeVariableIndex size name := by
  cases init with
  | none =>
    obtain heq | hlt := declaredSize_lt (hd.declared rfl)
    · exact absurd heq hd.bounded
    · exact .inl hlt
  | some a =>
    obtain ⟨hright, ⟨pos, hleft⟩, hdeclared | hsize⟩ := hd.initial a rfl
    · obtain heq | hlt := declaredSize_lt hdeclared
      · exact absurd heq hd.bounded
      · exact .inl hlt
    · exact .inr ⟨h.size_lt hright hsize, a, pos, rfl, hright, hleft⟩

theorem Sized.declare (h : Sized env k) {name : String} {size : Nat} {init : Option VAssignment}
    (hd : Declares env k name size init) : Sized env (declare k name size) := by
  refine ⟨hd.fits, fun name' addr size' hfind => ?_⟩
  obtain ⟨-, heq⟩ | hfind := find?_declare hfind
  · cases heq
    obtain hlt | ⟨hlt, -⟩ := hd.size_cases h
    · omega
    · exact hlt
  · exact h.sized name' addr size' hfind

theorem Sized.declarations (h : Sized env k) {cs : List (Toplevel VStatement)}
    (hcs : Declarations env k cs k') : Sized env k' := by
  induction hcs with
  | nil => exact h
  | cons hd _ ih => exact ih (h.declare hd)

/-- A size that is an `int` cannot wrap around. -/
theorem Layout.declare (h : Layout env k) (hV : env.targetDescription.variablesSize ≤ 4096)
    {name : String} {size : Nat} {init : Option VAssignment} (hd : Declares env k name size init)
    (hlt : size < 2 ^ 31) :
    Layout env (declare k name size) ∧ (declare k name size).freeVariableIndex =
      k.freeVariableIndex + size := by
  have hfits := h.fits
  have hpos := hd.pos
  have hle := hd.fits
  have hfree : (Correctness.declare k name size).freeVariableIndex = k.freeVariableIndex + size :=
    u32_of_lt (by omega)
  rw [u32_of_lt (by omega)] at hle
  refine ⟨⟨hfree ▸ hle, fun name' addr size' hfind => ?_⟩, hfree⟩
  rw [hfree]
  obtain ⟨-, heq⟩ | hfind := find?_declare hfind
  · cases heq
    omega
  · have := h.placed name' addr size' hfind
    omega

end Layout

/-! ## Initial values -/

/-- The assignment of an initial value: it reads variables that were declared before. -/
structure InitialValue (env : Environment) (st : VStatement) (apos pos : SourcePos)
    (addr size : Nat) (name : String) (right : VNode) : Prop where
  shape : st = .assignment ⟨apos, .memoryVector pos addr size name, right⟩
  leftWithin : WithinMemory env.targetDescription.variablesSize addr size
  rightInMemory : InMemory env.targetDescription.variablesSize right
  apart : right.matchName name = false

section InitialValues

variable {env : Environment} {k k' : CompilerState}

theorem readable_not_matches {V : VariablesMap} {e : VNode} {name : String}
    (he : Readable V e) (h : V.find? name = none) : e.matchName name = false := by
  have hne : ∀ name' r, V.find? name' = some r → name' ≠ name := by
    rintro name' r hsome rfl
    rw [h] at hsome
    cases hsome
  induction he with
  | binary _ _ ihl ihr => rw [VNode.matchName, ihl, ihr, Bool.or_false]
  | unary _ ih => rwa [VNode.matchName]
  | value => rfl
  | @tuple _ cs _ _ ih =>
    rw [VNode.matchName, ← Bool.not_eq_true, matchNameList_iff]
    rintro ⟨c, hc, hmatch⟩
    rw [ih c hc] at hmatch
    cases hmatch
  | whole hfind => simpa [VNode.matchName] using hne _ _ hfind
  | element hfind | slice hfind =>
    simpa [VNode.matchName, VNode.matchNameList] using hne _ _ hfind
  | computed hfind _ _ ih => simpa [VNode.matchName, ih] using hne _ _ hfind

theorem expandAssignment_apart {fuel : Nat} {apos pos : SourcePos} {addr size : Nat} {name : String}
    {right : VNode} {s s' : CompilerState} {code : List Assignment}
    (hapart : right.matchName name = false)
    (h : expandAssignment env fuel ⟨apos, .memoryVector pos addr size name, right⟩ s =
      .ok (code, s')) :
    s' = s ∧ expandComponents apos (.memoryVector pos addr size name) right 0 size = .ok code := by
  cases fuel <;>
    simp only [expandAssignment, VNode.memoryName?, VNode.getVectorSize, hapart, Bool.false_and,
      Bool.false_eq_true, if_false, Stateful.bind_eq_ok, Stateful.lift_eq_ok, Outcome.pure_eq,
      Outcome.ok.injEq] at h <;>
    obtain ⟨_, _, ⟨rfl, rfl⟩, hcode, rfl⟩ := h <;>
    exact ⟨rfl, hcode⟩

theorem initialValue_inside (hV : env.targetDescription.variablesSize ≤ 4096) {st : VStatement}
    {apos pos : SourcePos} {addr size : Nat} {name : String} {right : VNode}
    (h : InitialValue env st apos pos addr size name right) {st' : Statement Node}
    {s s' : CompilerState} (hok : st.expandVectorialNodes env s = .ok (st', s')) :
    TreeInside env (fun _ => True) st' := by
  rw [h.shape] at hok
  simp only [VStatement.expandVectorialNodes, Stateful.bind_eq_ok, Stateful.pure_apply,
    Outcome.ok.injEq, Prod.mk.injEq] at hok
  obtain ⟨code, s₁, hcode, rfl, rfl⟩ := hok
  obtain ⟨-, hcomponents⟩ := expandAssignment_apart h.apart hcode
  refine .block fun c hc => ?_
  obtain ⟨a, ha, rfl⟩ := List.mem_map.mp hc
  exact .assignment
    (expandComponents_inside hV (.whole h.leftWithin) h.rightInMemory _ _ _ hcomponents a ha)

/-- When the initial values are expanded, no size has wrapped around. -/
theorem Declarations.layout (hV : env.targetDescription.variablesSize ≤ 4096)
    {cs : List (Toplevel VStatement)} (hcs : Declarations env k cs k') (h : Layout env k)
    (hok : ∀ a, .statement (.assignment a) ∈ cs → ∃ s r, a.expand env s = .ok r) :
    Layout env k' ∧ ∀ c ∈ cs, ∃ st apos pos addr size name right,
      c = .statement st ∧ InitialValue env st apos pos addr size name right := by
  induction hcs with
  | nil => exact ⟨h, by simp⟩
  | @cons k k' name size init rest hd hrest ih =>
    have hlt : size < 2 ^ 31 := by
      obtain hlt | ⟨hlt, a, pos, rfl, hright, hleft⟩ := hd.size_cases (h.sized hV)
      · exact hlt
      · by_contra hlarge
        obtain ⟨apos, left, right⟩ := a
        cases hleft
        obtain ⟨s, ⟨code, s'⟩, hcode⟩ := hok _ (List.mem_append_left _ (List.mem_singleton_self _))
        obtain ⟨-, hcomponents⟩ :=
          expandAssignment_apart (readable_not_matches hright hd.fresh) hcode
        obtain ⟨⟨l, hl⟩, -⟩ := expandComponents_first hd.pos hcomponents
        have hfree := h.fits
        exact (memoryVector_stuck (by omega) hlt (fun h => hlarge h.2) 0).2 l hl
    obtain ⟨hlayout, hfree⟩ := h.declare hV hd hlt
    obtain ⟨hfinal, hinitial⟩ :=
      ih hlayout fun a ha => hok a (List.mem_append_right _ ha)
    refine ⟨hfinal, fun c hc => ?_⟩
    rcases List.mem_append.mp hc with hc | hc
    · obtain ⟨a, ha, rfl⟩ := List.mem_map.mp hc
      obtain ⟨hright, ⟨pos, hleft⟩, -⟩ := hd.initial a (by simpa using ha)
      obtain ⟨apos, left, right⟩ := a
      cases hleft
      have hfits := hlayout.fits
      have hpos := hd.pos
      rw [hfree] at hfits
      refine ⟨_, apos, pos, k.freeVariableIndex, size, name, right, rfl, rfl, ?_, ?_, ?_⟩
      · unfold WithinMemory
        omega
      · refine bounded_of_readable (fun name addr size hfind => ?_) hright
        have := h.fits
        have := h.placed name addr size hfind
        unfold WithinMemory
        omega
      · exact readable_not_matches hright hd.fresh
    · exact hinitial c hc

end InitialValues

/-! ## Programs -/

section Programs

variable {env : Environment}

/-- What the statement parser relies on: there is room for the temporaries in use. -/
theorem contract_of_sized {k : CompilerState} (h : Sized env k)
    (hV : env.targetDescription.variablesSize ≤ 4096) (m : Nat) :
    Contract env (fun _ => True)
      (Frozen k m fun e => k.freeVariableIndex + e ≤ env.targetDescription.variablesSize)
      k.variablesMap (Readable k.variablesMap) (Fits env.targetDescription.variablesSize) where
  frame := frozen_frame _ _ _
  builds := builds_readable _
  constant _ _ _ _ _ := trivial
  size _ _ _ _ := trivial
  addr _ _ _ _ := trivial
  sizeLt _ _ he hsize := h.size_lt he hsize
  doubleFree _ _ _ _ _ := trivial
  tupleIndex _ _ _ _ _ _ _ _ := trivial
  temporary := by
    intro s size hs hpos hlt hle
    have hend := hs.atEnd
    rw [hs.sameFree, u32_of_lt (n := s.endVariableIndex + size) (by omega),
      u32_of_lt (by omega)] at hle
    refine ⟨?_, fun uid => ⟨hs.sameVariables, hs.sameFunctions, hs.sameEvents, hs.sameFree, ?_,
      hs.numbering.congr rfl rfl⟩⟩
    · unfold Fits u32Sub
      omega
    · rw [u32_of_lt (by omega)]
      omega
  events _ _ _ _ _ _ := trivial
  functions _ _ _ _ _ _ := trivial

theorem expandProgram_inside (hfit : AddressesFit env.targetDescription) {k k' : CompilerState}
    (hlayout : Layout env k) {program declarations statements : List (Toplevel VStatement)}
    (hprogram : ProgramFormed env (Fits env.targetDescription.variablesSize) k k' program
      declarations statements) {s s' : CompilerState} {e m : Nat}
    (hs : Frozen k' m (fun i => if statements = [] then i = e
      else k'.freeVariableIndex + i ≤ env.targetDescription.variablesSize) s)
    {expanded : List (Toplevel (Statement Node))}
    (h : expandProgram env program s = .ok (expanded, s')) :
    ∀ st, .statement st ∈ expanded →
      TreeInside env (fun _ => True) st := by
  have hV := hfit.memory
  simp only [expandProgram, Stateful.bind_eq_ok, Stateful.lift_eq_ok] at h
  obtain ⟨_, s₁, ⟨-, hs₁⟩, abstracted, s₂, ⟨habstract, hs₂⟩, hvectorial⟩ := h
  rw [hs₂, hs₁] at hvectorial
  have hok : ∀ a, .statement (.assignment a) ∈ declarations → ∃ s r, a.expand env s = .ok r := by
    intro a ha
    have hmem : .statement (.assignment a) ∈ program := by
      rw [hprogram.split]
      exact List.mem_append_left _ ha
    obtain ⟨y, hmem', hy⟩ := Passed.exists_after (mapStatements_passed habstract) hmem
    cases hy
    obtain ⟨_, -, s₁, r, hr⟩ := Passed.exists_after (mapStatements_passedRun hvectorial) hmem'
    obtain ⟨code, s₂, hcode, -⟩ := Stateful.bind_eq_ok.mp hr
    exact ⟨s₁, _, hcode⟩
  obtain ⟨hlayout', hinitial⟩ := hprogram.declarations.layout hV hlayout hok
  by_cases hempty : statements = []
  · -- the object may hold any number of temporaries, but initial values need none
    intro y hy
    obtain ⟨x, hx, s₁, s₂, hxy⟩ := Passed.exists_before (mapStatements_passedRun hvectorial) hy
    obtain ⟨x₀, hx₀, habs⟩ := Passed.exists_before (mapStatements_passed habstract) hx
    rw [hprogram.split, hempty, List.append_nil] at hx₀
    obtain ⟨_, apos, pos, addr, size, name, right, ⟨⟩, hvalue⟩ := hinitial _ hx₀
    rw [hvalue.shape] at habs
    cases habs
    rw [hvalue.shape] at hvalue
    exact initialValue_inside hV hvalue hxy
  · have hroom : Room env s := by
      have := hs.atEnd
      rw [if_neg hempty] at this
      rw [Room, hs.sameFree]
      exact this
    have hformed : ∀ y, .statement y ∈ abstracted → FormedInMemory env y := by
      intro y hy
      obtain ⟨x, hx, hxy⟩ := Passed.exists_before (mapStatements_passed habstract) hy
      apply Formed.expandAbstract _ y hxy
      rw [hprogram.split] at hx
      rcases List.mem_append.mp hx with hx | hx
      · obtain ⟨_, apos, pos, addr, size, name, right, ⟨⟩, hvalue⟩ := hinitial _ hx
        rw [hvalue.shape]
        exact .assignment (.whole hvalue.leftWithin) hvalue.rightInMemory
      · have hformed : Formed env _ _ x := hprogram.statements _ hx
        refine hformed.mono fun e he => bounded_of_readable (fun name addr size hfind => ?_) he
        have := hlayout'.fits
        have := hlayout'.placed name addr size hfind
        unfold WithinMemory
        omega
    have hrun := mapStatements_run (J := Room env) (G := FormedInMemory env)
      (fun x y s s' hx hs hy => (hx.expandsInside hV y s s' hs hy).2) hformed hroom hvectorial
    intro y hy
    obtain ⟨x, hx, s₁, s₂, hs₁, hxy⟩ := Passed.exists_before hrun.1 hy
    exact ((hformed x hx).expandsInside hV y s₁ s₂ hs₁ hxy).1

/-- The statements of a compiled program keep to the memory, and call subroutines of the program. -/
theorem compile_inside {source : List Char} {s s' : CompilerState} {c : Compilation}
    (hfit : AddressesFit env.targetDescription) (hnames : DistinctNames env.targetDescription)
    (h : compile env source s = .ok (c, s')) :
    ∀ x, .statement x ∈ c.program → CodeInside env (· < subroutineCount c.program) x := by
  obtain ⟨s₁, hfront, -, -⟩ := compile_eq_ok h
  simp only [frontEnd, Stateful.bind_eq_ok, Stateful.get_apply, Outcome.ok.injEq, Prod.mk.injEq,
    Stateful.lift_eq_ok] at hfront
  obtain ⟨program, s₂, hparse, expanded, s₃, hexpand, _, _, ⟨rfl, rfl⟩, hanalyse, -⟩ := hfront
  have hV := hfit.memory
  have hcontract : (buildMaps env s).freeVariableIndex ≤ env.targetDescription.variablesSize →
      ∀ cs k', Declarations env (buildMaps env s) cs k' →
        (∀ m, Contract env (fun _ => True)
          (Frozen k' m fun e => k'.freeVariableIndex + e ≤ env.targetDescription.variablesSize)
          k'.variablesMap (Readable k'.variablesMap) (Fits env.targetDescription.variablesSize)) ∧
        k'.freeVariableIndex + 0 ≤ env.targetDescription.variablesSize := by
    intro hfree cs k' hcs
    have hsized := ((layout_buildMaps hfit hnames hfree).sized hV).declarations hcs
    exact ⟨contract_of_sized hsized hV, hsized.fits⟩
  obtain ⟨hfree, k', declarations, statements, hprogram, hfrozen⟩ :=
    (parseSource_triple (I := fun k' e => k'.freeVariableIndex + e ≤
      env.targetDescription.variablesSize) source s (fun _ _ _ _ _ _ => trivial)
      (fun _ _ _ _ _ => trivial) (fun _ _ => trivial) hcontract).of_ok rfl hparse
  have hinside := expandProgram_inside hfit (layout_buildMaps hfit hnames hfree) hprogram hfrozen
    hexpand
  intro x hx
  refine (analyseProgram_inside hV hinside hanalyse x hx).mono ?_
  rintro id ⟨name, hname⟩
  rw [expandProgram_keepsNames hexpand] at hname
  rw [subroutineCount_analyseProgram hanalyse, subroutineCount_expandProgram hexpand]
  exact hfrozen.numbering.below name id hname

/-- A target with a variable and a function that copies vectors of one size. -/
def copyTarget : TargetDescription where
  bytecodeSize := 200
  variablesSize := 20
  stackSize := 32
  namedVariables := [⟨"args", 4⟩]
  localEvents := []
  nativeFunctions := [⟨"copy", [⟨"dest", -1⟩, ⟨"src", -1⟩]⟩]

/-- Variables, slices, a computed index, temporaries, an event and a native call. -/
def everyAddress : List Char :=
  ("var a[3]\nvar b[2] = [1, 2]\nvar i\na[0:1] = a[1:2]\na[i] = args[3]\n" ++
    "emit e b\nemit e [i, 1]\ncall copy(a[1:2], b + [1, 1])").toList

end Programs

end ThymioDeviceManager.Correctness
