import ThymioDeviceManager.Correctness.StatementRuns
import ThymioDeviceManager.Correctness.ProgramParsing

/-! # Two runs of the expansion

A vector assignment that reads its own variable goes through a temporary. Whether
it does is decided by names, those of temporaries included: as long as nothing that
goes through a temporary names a variable like one, the expansion is the same under
any numbering.
-/

namespace ThymioDeviceManager.Correctness

open Compiler Library

/-! ## Names that may be taken for temporaries -/

/-- An expression that names a variable like a temporary. -/
def Mistakable (e : VNode) : Prop := ∃ i, e.matchName (temporaryName i) = true

/-- An assignment that goes through a temporary: a vector that is read on the right side. -/
def Copied (a : VAssignment) : Prop :=
  ∃ name size, a.left.memoryName? = some name ∧ a.right.matchName name = true ∧
    a.left.getVectorSize = .ok size ∧ 1 < size

/-- The value of a temporary does not name a variable like one, unless it is a single word. -/
def CodeClear (a : VAssignment) : Prop :=
  ∀ size, a.left.getVectorSize = .ok size → 1 < size → ¬ Mistakable a.right

inductive ArgClear : VCallArg → Prop
  | address {pos : SourcePos} {value : Nat} : ArgClear (.address pos value)
  | evaluated {pos : SourcePos} {code : VAssignment} {value : Nat} (h : CodeClear code) :
      ArgClear (.evaluated pos code value)
  | loadNativeArg {pos : SourcePos} {temp addr size : Nat} {name : String} {index : VNode} :
      ArgClear (.loadNativeArg pos temp addr size name index)

/-- Nothing in a statement that goes through a temporary names a variable like one. -/
inductive Clear : VStatement → Prop
  | block {pos : SourcePos} {cs : List VStatement} (h : ∀ c ∈ cs, Clear c) : Clear (.block pos cs)
  | assignment {code : VAssignment} (h : Copied code → ¬ Mistakable code.right) :
      Clear (.assignment code)
  | arithmeticAssignment {pos : SourcePos} {op : AsebaBinaryOperator} {l r : VNode}
      (h : Copied ⟨pos, l, .binaryArithmetic pos op l r⟩ →
        ¬ Mistakable (.binaryArithmetic pos op l r)) :
      Clear (.arithmeticAssignment pos op l r)
  | unaryArithmeticAssignment {pos : SourcePos} {op : AsebaBinaryOperator} {e : VNode}
      (h : Copied ⟨pos, e, e⟩ → ¬ Mistakable e) : Clear (.unaryArithmeticAssignment pos op e)
  | ifWhen {pos : SourcePos} {edge : Bool} {line : UInt32} {cond : VNode} {t : VStatement}
      (ht : Clear t) : Clear (.ifWhen pos edge line cond t)
  | ifWhenElse {pos : SourcePos} {edge : Bool} {line : UInt32} {cond : VNode} {t f : VStatement}
      (ht : Clear t) (hf : Clear f) : Clear (.ifWhenElse pos edge line cond t f)
  | whileLoop {pos : SourcePos} {cond : VNode} {b : VStatement} (hb : Clear b) :
      Clear (.whileLoop pos cond b)
  | emitMemory {pos : SourcePos} {id addr size : Nat} : Clear (.emitEvent pos id addr size none)
  | emitTemporary {pos : SourcePos} {id addr size : Nat} {code : VAssignment}
      (h : CodeClear code) : Clear (.emitEvent pos id addr size (some code))
  | callSub {pos : SourcePos} {name : String} : Clear (.callSub pos name)
  | call {pos : SourcePos} {funcId : Nat} {templates : List Nat} {args : List VCallArg}
      (h : ∀ a ∈ args, ArgClear a) : Clear (.call pos funcId templates args)
  | ret {pos : SourcePos} : Clear (.ret pos)

/-! ## Assignments -/

section Assignments

variable {env : Environment} {I : Nat → Nat → Prop}

/-- The scalar assignments of a vector assignment that needs no temporary. -/
def expandDirectly (a : VAssignment) : Result (List Assignment) :=
  match a.left.memoryName? with
  | none => fail a.pos .incorrectLeftValue [.text a.left.toNodeName]
  | some _ => do
    let size ← a.left.getVectorSize
    expandComponents a.pos a.left a.right 0 size

theorem expandAssignment_of_not_copied {a : VAssignment} (h : ¬ Copied a) (fuel : Nat) :
    expandAssignment env fuel a = (liftM (expandDirectly a) : CompilerM (List Assignment)) := by
  obtain ⟨pos, left, right⟩ := a
  unfold expandAssignment expandDirectly
  dsimp only
  cases hname : left.memoryName? with
  | none => rfl
  | some name =>
    funext s
    dsimp only
    cases hsize : left.getVectorSize with
    | throw e => rfl
    | crash w => rfl
    | ok size =>
      have hdirect : (right.matchName name && decide (size > 1)) = false := by
        rw [Bool.and_eq_false_iff]
        by_contra hboth
        obtain ⟨hread, hbig⟩ := not_or.mp hboth
        exact h ⟨name, size, hname, by simpa using hread, hsize, by simpa using hbig⟩
      simp only [Stateful.bind_apply, Stateful.lift_ok, Outcome.ok_bind, hdirect]
      rfl

theorem expandAssignment_copied {pos : SourcePos} {left right : VNode}
    (h : Copied ⟨pos, left, right⟩) (fuel : Nat) :
    expandAssignment env (fuel + 1) ⟨pos, left, right⟩ = (do
      let tempVar ← allocateTemporaryVariable env pos right
      let first ← expandAssignment env fuel ⟨pos, tempVar, right⟩
      let second ← expandAssignment env fuel ⟨pos, left, tempVar⟩
      pure (first ++ second)) := by
  obtain ⟨name, size, hname, hread, hsize, hbig⟩ := h
  dsimp only at hname hread hsize
  funext s
  rw [expandAssignment]
  simp only [hname, hsize, hread, hbig, Stateful.bind_apply, Stateful.lift_ok, Outcome.ok_bind,
    decide_true, Bool.and_self, if_true]

theorem SameTemporary.directPointer {e e' : VNode} (h : SameTemporary e e') (pos : SourcePos)
    (addr size : Nat) (name name' : String) (index : Nat) :
    (e.directPointer pos addr size name index).Alike SameError Eq
      (e'.directPointer pos addr size name' index) := by
  unfold VNode.directPointer
  rw [h.getVectorSize]
  refine (Outcome.Alike.refl SameError.refl fun _ _ => rfl).bind fun n _ hn => ?_
  subst hn
  refine (Outcome.Alike.refl SameError.refl fun _ _ => rfl).bind fun _ _ _ => ?_
  refine h.getVectorAddr.bind fun a a' ha => ?_
  subst ha
  dsimp only
  split_ifs
  · exact .throw ⟨rfl, rfl⟩
  · exact .ok rfl

theorem SameTemporary.expandWrite {e e' : VNode} (h : SameTemporary e e') (index : Nat) :
    (e.expandWrite index).Alike SameError Eq (e'.expandWrite index) := by
  have hpointer := h.directPointer
  obtain ⟨pos, addr, size, i, j, rfl, rfl⟩ := h
  refine (hpointer pos addr size _ _ index).bind fun p p' hp => ?_
  rw [hp]
  exact .ok rfl

theorem SameTemporary.expandVectorialNodes {e e' : VNode} (h : SameTemporary e e') (index : Nat) :
    (e.expandVectorialNodes index).Alike SameError Eq (e'.expandVectorialNodes index) := by
  have hpointer := h.directPointer
  obtain ⟨pos, addr, size, i, j, rfl, rfl⟩ := h
  refine (hpointer pos addr size _ _ index).bind fun p p' hp => ?_
  rw [hp]
  exact .ok rfl

theorem expandComponents_alike {pos : SourcePos} {l l' r r' : VNode}
    (hl : ∀ index, (l.expandWrite index).Alike SameError Eq (l'.expandWrite index))
    (hr : ∀ index,
      (r.expandVectorialNodes index).Alike SameError Eq (r'.expandVectorialNodes index))
    (count : Nat) : ∀ index, (expandComponents pos l r index count).Alike SameError Eq
      (expandComponents pos l' r' index count) := by
  induction count with
  | zero => exact fun _ => .ok rfl
  | succ count ih =>
    intro index
    refine (hl index).bind fun _ _ hl => (hr index).bind fun _ _ hr =>
      (ih (index + 1)).bind fun _ _ hrest => ?_
    rw [hl, hr, hrest]
    exact .ok rfl

theorem SameTemporary.not_mistaken {pos : SourcePos} {e e' right : VNode} (h : SameTemporary e e')
    (hclear : CodeClear ⟨pos, e, right⟩) : ¬ Copied ⟨pos, e, right⟩ ∧ ¬ Copied ⟨pos, e', right⟩ := by
  obtain ⟨tpos, addr, size, i, j, rfl, rfl⟩ := h
  refine ⟨?_, ?_⟩
  all_goals
    rintro ⟨name, n, hname, hread, hsize, hbig⟩
    cases hname
    cases hsize
    exact hclear size rfl hbig ⟨_, hread⟩

theorem expandDirectly_alike {pos : SourcePos} {l l' r r' : VNode}
    (hname : l.memoryName?.isSome = l'.memoryName?.isSome)
    (hsize : l.getVectorSize = l'.getVectorSize)
    (hl : ∀ index, (l.expandWrite index).Alike SameError Eq (l'.expandWrite index))
    (hr : ∀ index,
      (r.expandVectorialNodes index).Alike SameError Eq (r'.expandVectorialNodes index)) :
    (expandDirectly ⟨pos, l, r⟩).Alike SameError Eq (expandDirectly ⟨pos, l', r'⟩) := by
  unfold expandDirectly
  dsimp only
  cases hl₁ : l.memoryName? with
  | none =>
    cases hl₂ : l'.memoryName? with
    | none => exact .throw ⟨rfl, rfl⟩
    | some name' => simp [hl₁, hl₂] at hname
  | some name =>
    cases hl₂ : l'.memoryName? with
    | none => simp [hl₁, hl₂] at hname
    | some name' =>
      dsimp only
      rw [← hsize]
      refine (Outcome.Alike.refl SameError.refl fun _ _ => rfl).bind fun n n' hn => ?_
      subst hn
      exact expandComponents_alike hl hr n 0

theorem alike_same {α : Type} (x : Result α) : x.Alike SameError Eq x :=
  Outcome.Alike.refl SameError.refl fun _ _ => rfl

/-- Storing the value of a temporary. -/
theorem paired_store {pos : SourcePos} {e e' right : VNode} (h : SameTemporary e e')
    (hclear : CodeClear ⟨pos, e, right⟩) (fuel fuel' : Nat) :
    Paired I Eq (expandAssignment env fuel ⟨pos, e, right⟩)
      (expandAssignment env fuel' ⟨pos, e', right⟩) := by
  obtain ⟨hdirect, hdirect'⟩ := h.not_mistaken hclear
  rw [expandAssignment_of_not_copied hdirect, expandAssignment_of_not_copied hdirect']
  refine Paired.lift (expandDirectly_alike ?_ h.getVectorSize h.expandWrite fun _ => alike_same _)
  obtain ⟨tpos, addr, size, i, j, rfl, rfl⟩ := h
  rfl

/-- Fetching it. -/
theorem paired_fetch {pos : SourcePos} {left e e' : VNode} (h : SameTemporary e e')
    (hleft : ∀ i, left.memoryName? ≠ some (temporaryName i)) (fuel fuel' : Nat) :
    Paired I Eq (expandAssignment env fuel ⟨pos, left, e⟩)
      (expandAssignment env fuel' ⟨pos, left, e'⟩) := by
  have hdirect : ∀ tpos addr size i, ¬ Copied ⟨pos, left, .memoryVector tpos addr size
      (temporaryName i)⟩ := by
    rintro tpos addr size i ⟨name, n, hname, hread, -, -⟩
    have hname : left.memoryName? = some name := hname
    have hread : temporaryName i = name := by simpa [VNode.matchName] using hread
    exact hleft i (hread ▸ hname)
  have halike := fun index => h.expandVectorialNodes index
  obtain ⟨tpos, addr, size, i, j, rfl, rfl⟩ := h
  rw [expandAssignment_of_not_copied (hdirect _ _ _ _),
    expandAssignment_of_not_copied (hdirect _ _ _ _)]
  exact Paired.lift (expandDirectly_alike rfl rfl (fun _ => alike_same _) halike)

theorem steady_expand_of_not_copied {a : VAssignment} (h : ¬ Copied a) : Steady I (a.expand env) := by
  unfold VAssignment.expand
  rw [expandAssignment_of_not_copied h]
  exact steady_lift _

/-- An assignment of the program. -/
theorem steady_expand {a : VAssignment} (hclear : Copied a → ¬ Mistakable a.right) :
    Steady Eq (a.expand env) := by
  by_cases hcopied : Copied a
  · obtain ⟨pos, left, right⟩ := a
    have hclear := hclear hcopied
    have hname : ∀ i, left.memoryName? ≠ some (temporaryName i) := by
      intro i hi
      obtain ⟨name, _, hname, hread, -, -⟩ := hcopied
      have hname : left.memoryName? = some name := hname
      rw [hi] at hname
      cases hname
      exact hclear ⟨i, hread⟩
    change Paired Eq Eq (expandAssignment env (right.memoryCount + 1 + 1) ⟨pos, left, right⟩)
      (expandAssignment env (right.memoryCount + 1 + 1) ⟨pos, left, right⟩)
    rw [expandAssignment_copied hcopied]
    refine (paired_allocateTemporaryVariable pos right).bind fun temp temp' h => ?_
    refine (paired_store h (fun _ _ _ => hclear) _ _).bind fun first first' hfirst => ?_
    refine (paired_fetch h hname _ _).bind fun second second' hsecond => ?_
    rw [hfirst, hsecond]
    exact .ret rfl
  · exact steady_expand_of_not_copied hcopied

theorem SameCode.checkVectorSize {a b : VAssignment} (h : SameCode a b) :
    a.checkVectorSize = b.checkVectorSize := by
  unfold VAssignment.checkVectorSize checkSizes
  rw [h.pos, h.left.getVectorSize, h.right]

/-- The assignment that the parser made for a temporary. -/
theorem SameCode.expand {a b : VAssignment} (h : SameCode a b) (hclear : CodeClear a) :
    Paired I Eq (a.expand env) (b.expand env) := by
  obtain ⟨pos, left, right⟩ := a
  obtain ⟨pos', left', right'⟩ := b
  obtain ⟨hpos, hleft, hright⟩ := h
  dsimp only at hpos hright hleft
  subst hpos hright
  exact paired_store hleft hclear _ _

theorem expandAssignment_withUnset (line : UInt32) (fuel : Nat) : ∀ a,
    expandAssignment (withUnset env line) fuel a = expandAssignment env fuel a := by
  induction fuel with
  | zero =>
    rintro ⟨pos, left, right⟩
    simp only [expandAssignment]
  | succ fuel ih =>
    rintro ⟨pos, left, right⟩
    simp only [expandAssignment, ih]
    rfl

theorem expand_withUnset (line : UInt32) (a : VAssignment) :
    a.expand (withUnset env line) = a.expand env := expandAssignment_withUnset line _ a

end Assignments

/-! ## Scalar statements up to the unset lines -/

mutual

/-- A scalar tree with `g` of the end lines of its `if` nodes. -/
def mapLines {κ : Type} (g : UInt32 → UInt32) : Statement κ → Statement κ
  | .block pos cs => .block pos (mapLinesList g cs)
  | .assignment a => .assignment a
  | .ifWhen pos edge line cond t => .ifWhen pos edge (g line) cond (mapLines g t)
  | .ifWhenElse pos edge line cond t f =>
    .ifWhenElse pos edge (g line) cond (mapLines g t) (mapLines g f)
  | .whileLoop pos cond b => .whileLoop pos cond (mapLines g b)
  | .emitEvent pos id addr size code => .emitEvent pos id addr size code
  | .callSub pos name id => .callSub pos name id
  | .call pos funcId templates args => .call pos funcId templates args
  | .ret pos => .ret pos

def mapLinesList {κ : Type} (g : UInt32 → UInt32) : List (Statement κ) → List (Statement κ)
  | [] => []
  | s :: rest => mapLines g s :: mapLinesList g rest

end

/-- Two scalar trees with the same lines, as far as `g` looks. -/
def SameLines {κ : Type} (g : UInt32 → UInt32) (s t : Statement κ) : Prop :=
  mapLines g s = mapLines g t

section Statements

variable {env : Environment} {g : UInt32 → UInt32} {line : UInt32}

theorem SameArg.checkVectorSize {a b : VCallArg} (h : SameArg a b) :
    a.checkVectorSize = b.checkVectorSize := by
  cases h with
  | address pos value => rfl
  | evaluated h => simp only [VCallArg.checkVectorSize, h.checkVectorSize]
  | loadNativeArg pos temp addr size name index => rfl

theorem sameArgs_check {as bs : List VCallArg} (h : List.Forall₂ SameArg as bs) :
    checkCallArgs as = checkCallArgs bs := by
  induction h with
  | nil => rfl
  | cons h _ ih => simp only [checkCallArgs, h.checkVectorSize, ih]

theorem forall₂_of_zip {α β : Type} {R : α → β → Prop} {cs : List α} {ds : List β}
    (hlength : cs.length = ds.length) (h : ∀ p ∈ cs.zip ds, R p.1 p.2) : List.Forall₂ R cs ds :=
  List.forall₂_iff_zip.mpr ⟨hlength, fun hp => h _ hp⟩

theorem SameStatement.checkVectorSize {a b : VStatement} (h : SameStatement g a b) :
    a.checkVectorSize = b.checkVectorSize := by
  induction h with
  | block hlength _ ih =>
    have hlist : ∀ cs ds : List VStatement,
        List.Forall₂ (fun c d => c.checkVectorSize = d.checkVectorSize) cs ds →
          VStatement.checkVectorSizeList cs = VStatement.checkVectorSizeList ds := by
      intro cs ds h
      induction h with
      | nil => rfl
      | cons h _ ih => simp only [VStatement.checkVectorSizeList, h, ih]
    exact hlist _ _ (forall₂_of_zip hlength ih)
  | ifWhen _ ih => simp only [VStatement.checkVectorSize, ih]
  | ifWhenElse _ _ _ iht ihf => simp only [VStatement.checkVectorSize, iht, ihf]
  | whileLoop _ ih => simp only [VStatement.checkVectorSize, ih]
  | emitTemporary h => simp only [VStatement.checkVectorSize, h.checkVectorSize]
  | call h => simp only [VStatement.checkVectorSize, sameArgs_check h]
  | _ => rfl

/-- `e opop` is `e = e op [1, ..., 1]`. -/
theorem clear_ones {pos : SourcePos} {op : AsebaBinaryOperator} {e : VNode} {n : Nat}
    (h : Copied ⟨pos, e, e⟩ → ¬ Mistakable e) :
    Clear (expandArithmeticAssignment pos op e
      (.tupleVector pos (List.replicate n (.immediate pos 1)))) := by
  have hones : ∀ name, VNode.matchNameList name (List.replicate n (.immediate pos 1)) = false := by
    intro name
    induction n with
    | zero => rfl
    | succ n ih => simpa [List.replicate_succ, VNode.matchNameList, VNode.matchName] using ih
  have hmatch : ∀ name, (VNode.binaryArithmetic pos op e
      (.tupleVector pos (List.replicate n (.immediate pos 1)))).matchName name = e.matchName name := by
    intro name
    simp [VNode.matchName, hones]
  refine .assignment fun hcopied ⟨i, hi⟩ => h ?_ ⟨i, hmatch _ ▸ hi⟩
  obtain ⟨name, size, hname, hread, hsize, hbig⟩ := hcopied
  exact ⟨name, size, hname, hmatch _ ▸ hread, hsize, hbig⟩

theorem SameStatement.expandAbstractNodes {a b : VStatement} (h : SameStatement g a b)
    (hclear : Clear a) : a.expandAbstractNodes.Alike SameError
      (fun a' b' => SameStatement g a' b' ∧ Clear a') b.expandAbstractNodes := by
  induction h with
  | block hlength _ ih =>
    cases hclear with
    | block hclear =>
    have hlist : ∀ cs ds : List VStatement, List.Forall₂ (fun c d => Clear c →
        c.expandAbstractNodes.Alike SameError (fun a' b' => SameStatement g a' b' ∧ Clear a')
          d.expandAbstractNodes) cs ds → (∀ c ∈ cs, Clear c) →
        (VStatement.expandAbstractList cs).Alike SameError
          (fun cs' ds' => List.Forall₂ (SameStatement g) cs' ds' ∧ ∀ c ∈ cs', Clear c)
          (VStatement.expandAbstractList ds) := by
      intro cs ds h
      induction h with
      | nil => exact fun _ => .ok ⟨.nil, by simp⟩
      | cons h _ ih =>
        intro hclear
        refine (h (hclear _ List.mem_cons_self)).bind fun c d hcd => ?_
        refine (ih fun c hc => hclear c (List.mem_cons_of_mem _ hc)).bind fun cs ds hcs => ?_
        refine .ok ⟨.cons hcd.1 hcs.1, fun x hx => ?_⟩
        rcases List.mem_cons.mp hx with rfl | hx
        · exact hcd.2
        · exact hcs.2 x hx
    exact (hlist _ _ (forall₂_of_zip hlength ih) hclear).bind fun cs ds h =>
      .ok ⟨.ofList h.1, .block h.2⟩
  | assignment code => exact .ok ⟨.assignment code, hclear⟩
  | arithmeticAssignment pos op l r =>
    cases hclear with
    | arithmeticAssignment h => exact .ok ⟨.assignment _, .assignment h⟩
  | unaryArithmeticAssignment pos op e =>
    cases hclear with
    | unaryArithmeticAssignment h =>
      refine (alike_same e.getVectorSize).bind fun n n' hn => ?_
      subst hn
      exact .ok ⟨.assignment _, clear_ones h⟩
  | ifWhen _ ih =>
    cases hclear with
    | ifWhen ht => exact (ih ht).bind fun t t' h => .ok ⟨.ifWhen h.1, .ifWhen h.2⟩
  | ifWhenElse hline _ _ iht ihf =>
    cases hclear with
    | ifWhenElse ht hf =>
      exact (iht ht).bind fun t t' ht => (ihf hf).bind fun f f' hf =>
        .ok ⟨.ifWhenElse hline ht.1 hf.1, .ifWhenElse ht.2 hf.2⟩
  | whileLoop _ ih =>
    cases hclear with
    | whileLoop hb => exact (ih hb).bind fun b b' h => .ok ⟨.whileLoop h.1, .whileLoop h.2⟩
  | emitMemory pos id addr size => exact .ok ⟨.emitMemory _ _ _ _, hclear⟩
  | emitTemporary h => exact .ok ⟨.emitTemporary h, hclear⟩
  | callSub pos name => exact .ok ⟨.callSub _ _, hclear⟩
  | call h => exact .ok ⟨.call h, hclear⟩
  | ret pos => exact .ok ⟨.ret _, hclear⟩

theorem SameArg.expandVectorialNodes {a b : VCallArg} (h : SameArg a b) (hclear : ArgClear a) :
    Paired Eq Eq (a.expandVectorialNodes env) (b.expandVectorialNodes (withUnset env line)) := by
  cases h with
  | address pos value => exact .ret rfl
  | evaluated h =>
    cases hclear with
    | evaluated hclear =>
      simp only [VCallArg.expandVectorialNodes, expand_withUnset]
      exact (h.expand hclear).bind fun _ _ hcode => .ret (hcode ▸ rfl)
  | loadNativeArg pos temp addr size name index => exact (steady_lift _).bind fun _ => .ret rfl

theorem sameArgs_expand {as bs : List VCallArg} (h : List.Forall₂ SameArg as bs)
    (hclear : ∀ a ∈ as, ArgClear a) :
    Paired Eq Eq (expandCallArgs env as) (expandCallArgs (withUnset env line) bs) := by
  induction h with
  | nil => exact .ret rfl
  | cons h _ ih =>
    refine (h.expandVectorialNodes (hclear _ List.mem_cons_self)).bind fun a a' ha => ?_
    refine (ih fun a ha => hclear a (List.mem_cons_of_mem _ ha)).bind fun as as' has => ?_
    rw [ha, has]
    exact .ret rfl

/-- The scalar trees of two runs are the same but for the unset lines. -/
theorem SameStatement.expandVectorialNodes {a b : VStatement} (h : SameStatement g a b)
    (hclear : Clear a) : Paired Eq (SameLines g) (a.expandVectorialNodes env)
      (b.expandVectorialNodes (withUnset env line)) := by
  induction h with
  | block hlength _ ih =>
    cases hclear with
    | block hclear =>
    have hlist : ∀ cs ds : List VStatement, List.Forall₂ (fun c d => Clear c →
        Paired Eq (SameLines g) (c.expandVectorialNodes env)
          (d.expandVectorialNodes (withUnset env line))) cs ds → (∀ c ∈ cs, Clear c) →
        Paired Eq (fun xs ys => mapLinesList g xs = mapLinesList g ys)
          (VStatement.expandVectorialList env cs)
          (VStatement.expandVectorialList (withUnset env line) ds) := by
      intro cs ds h
      induction h with
      | nil => exact fun _ => .ret rfl
      | cons h _ ih =>
        intro hclear
        refine (h (hclear _ List.mem_cons_self)).bind fun x y hxy => ?_
        refine (ih fun c hc => hclear c (List.mem_cons_of_mem _ hc)).bind fun xs ys hxs => ?_
        exact .ret (congrArg₂ List.cons hxy hxs)
    exact (hlist _ _ (forall₂_of_zip hlength ih) hclear).bind fun xs ys h =>
      .ret (congrArg (Statement.block _) h)
  | assignment code =>
    cases hclear with
    | assignment h =>
      simp only [VStatement.expandVectorialNodes, expand_withUnset]
      exact (steady_expand h).bind fun _ => .ret rfl
  | arithmeticAssignment pos op l r => exact .crash _
  | unaryArithmeticAssignment pos op e => exact .crash _
  | ifWhen _ ih =>
    cases hclear with
    | ifWhen ht =>
      exact (steady_lift _).bind fun _ => (ih ht).bind fun _ _ h =>
        .ret (congrArg (Statement.ifWhen _ _ (g _) _) h)
  | ifWhenElse hline _ _ iht ihf =>
    cases hclear with
    | ifWhenElse ht hf =>
      refine (steady_lift _).bind fun _ => (iht ht).bind fun _ _ ht => (ihf hf).bind fun _ _ hf => ?_
      refine .ret ?_
      unfold SameLines at ht hf ⊢
      simp only [mapLines, hline, ht, hf]
  | whileLoop _ ih =>
    cases hclear with
    | whileLoop hb =>
      exact (steady_lift _).bind fun _ => (ih hb).bind fun _ _ h =>
        .ret (congrArg (Statement.whileLoop _ _) h)
  | emitMemory pos id addr size => exact .ret rfl
  | emitTemporary h =>
    cases hclear with
    | emitTemporary hclear =>
      simp only [VStatement.expandVectorialNodes, expand_withUnset]
      exact (h.expand hclear).bind fun _ _ hcode => .ret (hcode ▸ rfl)
  | callSub pos name => exact .ret rfl
  | call h =>
    cases hclear with
    | call hclear =>
      exact (sameArgs_expand h hclear).bind fun _ _ hargs => .ret (hargs ▸ rfl)
  | ret pos => exact .ret rfl

end Statements

end ThymioDeviceManager.Correctness
