import ThymioDeviceManager.Correctness.ExpansionRuns

/-! # Two runs of the compiler

The passes over a whole program, for two compilations that start from any two
objects. Declarations come first and never need a temporary; from the first
statement on, the two objects use their memory alike. What the unset fields of
`if` nodes hold reaches the line that a vector is closed with, and no word.
-/

namespace ThymioDeviceManager.Correctness

open Compiler Library

/-- A change of the statements of a program node. -/
def mapToplevel {σ τ : Type} (f : σ → τ) : Toplevel σ → Toplevel τ
  | .statement s => .statement (f s)
  | .eventDecl pos id => .eventDecl pos id
  | .subDecl pos id => .subDecl pos id

/-- The program with `g` of the end lines of its `if` nodes. -/
def mapProgram {κ : Type} (g : UInt32 → UInt32) (program : List (Toplevel (Statement κ))) :
    List (Toplevel (Statement κ)) :=
  program.map (mapToplevel (mapLines g))

section Passes

variable {m : Type → Type} [Monad m] [LawfulMonad m] {σ τ : Type}

theorem mapStatements_append (f : σ → m τ) (ps qs : List (Toplevel σ)) :
    mapStatements f (ps ++ qs) = (do
      let xs ← mapStatements f ps
      let ys ← mapStatements f qs
      pure (xs ++ ys)) := by
  induction ps with
  | nil => simp [mapStatements]
  | cons p ps ih =>
    cases p with
    | statement s => simp [mapStatements, ih]
    | eventDecl pos id => simp [mapStatements, ih]
    | subDecl pos id => simp [mapStatements, ih]

end Passes

section Programs

variable {env : Environment} {g : UInt32 → UInt32} {line : UInt32}

/-! ## Declarations -/

/-- The assignments of initial values, which name what was declared before. -/
def Straight (declarations : List (Toplevel VStatement)) : Prop :=
  ∀ c ∈ declarations, ∃ a, c = .statement (.assignment a) ∧ ¬ Copied a

theorem Readable.names {V : VariablesMap} {e : VNode} {name : String} (h : Readable V e)
    (hname : e.matchName name = true) : V.find? name ≠ none := by
  have hfound : ∀ {n : String} {p : Nat × Nat}, V.find? n = some p → n = name →
      V.find? name ≠ none := by
    rintro n p hp rfl
    simp [hp]
  induction h with
  | binary _ _ ihl ihr =>
    simp only [VNode.matchName, Bool.or_eq_true] at hname
    exact hname.elim ihl ihr
  | unary _ ih => exact ih hname
  | value _ => simp [VNode.tupleOf, VNode.matchName, VNode.matchNameList] at hname
  | tuple _ _ ih =>
    rename_i cs _ _
    have hchild : ∀ cs : List VNode, VNode.matchNameList name cs = true →
        ∃ c ∈ cs, c.matchName name = true := by
      intro cs
      induction cs with
      | nil => simp [VNode.matchNameList]
      | cons c cs ih => simpa [VNode.matchNameList] using fun h => h.imp_right ih
    obtain ⟨c, hc, hmatch⟩ := hchild cs hname
    exact ih c hc hmatch
  | whole h => exact hfound h (by simpa [VNode.matchName] using hname)
  | element h _ _ _ =>
    exact hfound h (by simpa [VNode.matchName, VNode.matchNameList] using hname)
  | slice h _ _ _ _ _ _ _ =>
    exact hfound h (by simpa [VNode.matchName, VNode.matchNameList] using hname)
  | computed h _ _ ih =>
    simp only [VNode.matchName, Bool.or_eq_true] at hname
    rcases hname with hname | hname
    · exact hfound h (by simpa using hname)
    · exact ih hname

theorem Declarations.straight {k k' : CompilerState} {declarations : List (Toplevel VStatement)}
    (h : Declarations env k declarations k') : Straight declarations := by
  induction h with
  | nil => simp [Straight]
  | cons h _ ih =>
    intro c hc
    rcases List.mem_append.mp hc with hc | hc
    · obtain ⟨a, ha, rfl⟩ := List.mem_map.mp hc
      have ha := Option.mem_toList.mp ha
      refine ⟨a, rfl, ?_⟩
      rintro ⟨name, size, hname, hread, -, -⟩
      obtain ⟨hreadable, ⟨pos, hleft⟩, -⟩ := h.initial a ha
      rw [hleft] at hname
      cases hname
      exact hreadable.names hread h.fresh
    · exact ih c hc

theorem Straight.cons {c : Toplevel VStatement} {rest : List (Toplevel VStatement)}
    (h : Straight (c :: rest)) : (∃ a, c = .statement (.assignment a) ∧ ¬ Copied a) ∧ Straight rest :=
  ⟨h c List.mem_cons_self, fun c hc => h c (List.mem_cons_of_mem _ hc)⟩

theorem Straight.expandAbstract {declarations : List (Toplevel VStatement)}
    (h : Straight declarations) :
    (mapStatements VStatement.expandAbstractNodes declarations : Result _) = .ok declarations := by
  induction declarations with
  | nil => rfl
  | cons c rest ih =>
    obtain ⟨⟨a, rfl, -⟩, hrest⟩ := h.cons
    simp [mapStatements, VStatement.expandAbstractNodes, ih hrest]

theorem Straight.expandVectorial {declarations : List (Toplevel VStatement)} {I : Nat → Nat → Prop}
    (h : Straight declarations) :
    Paired I Eq (mapStatements (VStatement.expandVectorialNodes env) declarations)
      (mapStatements (VStatement.expandVectorialNodes (withUnset env line)) declarations) := by
  induction declarations with
  | nil => exact .ret rfl
  | cons c rest ih =>
    obtain ⟨⟨a, rfl, hdirect⟩, hrest⟩ := h.cons
    simp only [mapStatements, VStatement.expandVectorialNodes, expand_withUnset, bind_assoc, pure_bind]
    refine (steady_expand_of_not_copied hdirect).bind fun code => (ih hrest).bind fun xs ys hxs => ?_
    exact .ret (hxs ▸ rfl)

/-! ## Statements -/

theorem sameProgram_check {ps qs : List (Toplevel VStatement)}
    (h : List.Forall₂ (SameToplevel g) ps qs) : checkProgram ps = checkProgram qs := by
  induction h with
  | nil => rfl
  | cons h _ ih =>
    cases h with
    | statement h => simp only [checkProgram, h.checkVectorSize, ih]
    | eventDecl pos id => simpa only [checkProgram] using ih
    | subDecl pos id => simpa only [checkProgram] using ih

/-- Nothing in the statements that goes through a temporary names a variable like one. -/
def ClearProgram (program : List (Toplevel VStatement)) : Prop :=
  ∀ s, .statement s ∈ program → Clear s

theorem ClearProgram.cons {c : Toplevel VStatement} {rest : List (Toplevel VStatement)}
    (h : ClearProgram (c :: rest)) : (∀ s, c = .statement s → Clear s) ∧ ClearProgram rest :=
  ⟨fun s hs => h s (hs ▸ List.mem_cons_self), fun s hs => h s (List.mem_cons_of_mem _ hs)⟩

theorem sameProgram_expandAbstract {ps qs : List (Toplevel VStatement)}
    (h : List.Forall₂ (SameToplevel g) ps qs) (hclear : ClearProgram ps) :
    (mapStatements VStatement.expandAbstractNodes ps : Result _).Alike SameError
      (fun ps' qs' => List.Forall₂ (SameToplevel g) ps' qs' ∧ ClearProgram ps')
      (mapStatements VStatement.expandAbstractNodes qs) := by
  induction h with
  | nil => exact .ok ⟨.nil, by simp [ClearProgram]⟩
  | cons h _ ih =>
    obtain ⟨hfirst, hrest⟩ := hclear.cons
    cases h with
    | statement h =>
      refine (h.expandAbstractNodes (hfirst _ rfl)).bind fun s t hst => (ih hrest).bind fun ps qs hps =>
        .ok ⟨.cons (.statement hst.1) hps.1, fun s' hs' => ?_⟩
      rcases List.mem_cons.mp hs' with hs' | hs'
      · cases hs'
        exact hst.2
      · exact hps.2 s' hs'
    | eventDecl pos id =>
      refine (ih hrest).bind fun ps qs hps => .ok ⟨.cons (.eventDecl pos id) hps.1, fun s' hs' => ?_⟩
      exact hps.2 s' (List.mem_of_ne_of_mem (by simp) hs')
    | subDecl pos id =>
      refine (ih hrest).bind fun ps qs hps => .ok ⟨.cons (.subDecl pos id) hps.1, fun s' hs' => ?_⟩
      exact hps.2 s' (List.mem_of_ne_of_mem (by simp) hs')

theorem sameProgram_expandVectorial {ps qs : List (Toplevel VStatement)}
    (h : List.Forall₂ (SameToplevel g) ps qs) (hclear : ClearProgram ps) :
    Paired Eq (fun xs ys => mapProgram g xs = mapProgram g ys)
      (mapStatements (VStatement.expandVectorialNodes env) ps)
      (mapStatements (VStatement.expandVectorialNodes (withUnset env line)) qs) := by
  induction h with
  | nil => exact .ret rfl
  | cons h _ ih =>
    obtain ⟨hfirst, hrest⟩ := hclear.cons
    cases h with
    | statement h =>
      refine (h.expandVectorialNodes (hfirst _ rfl)).bind fun s t hst => (ih hrest).bind
        fun xs ys hxs => .ret ?_
      exact congrArg₂ List.cons (congrArg Toplevel.statement hst) hxs
    | eventDecl pos id => exact (ih hrest).bind fun xs ys hxs => .ret (congrArg (_ :: ·) hxs)
    | subDecl pos id => exact (ih hrest).bind fun xs ys hxs => .ret (congrArg (_ :: ·) hxs)

/-! ## The expansions -/

theorem Straight.same {declarations : List (Toplevel VStatement)} (h : Straight declarations) :
    List.Forall₂ (SameToplevel g) declarations declarations := by
  refine List.forall₂_same.mpr fun c hc => ?_
  obtain ⟨a, rfl, -⟩ := h c hc
  exact .statement (.assignment a)

/-- The trees after the first pass, with the declarations as they were. -/
structure SameAbstract (g : UInt32 → UInt32) (declarations statements : List (Toplevel VStatement))
    (ps qs : List (Toplevel VStatement)) : Prop where
  split : ∃ ss ts, ps = declarations ++ ss ∧ qs = declarations ++ ts ∧
    List.Forall₂ (SameToplevel g) ss ts ∧ ClearProgram ss ∧ (statements = [] → ss = [])

theorem SameProgram.expandAbstract {program program' declarations statements :
    List (Toplevel VStatement)} (h : SameProgram env g program program' declarations statements)
    (hstraight : Straight declarations) (hclear : ClearProgram statements) :
    (mapStatements VStatement.expandAbstractNodes program : Result _).Alike SameError
      (SameAbstract g declarations statements)
      (mapStatements VStatement.expandAbstractNodes program') := by
  obtain ⟨rfl, -, statements', rfl, hsame⟩ := h
  rw [mapStatements_append, mapStatements_append, hstraight.expandAbstract]
  by_cases hempty : statements = []
  · subst hempty
    cases hsame
    exact .ok ⟨[], [], rfl, rfl, .nil, by simp [ClearProgram], fun _ => rfl⟩
  · exact (sameProgram_expandAbstract hsame hclear).bind fun ss ts h =>
      .ok ⟨ss, ts, rfl, rfl, h.1, h.2, fun h => absurd h hempty⟩

theorem SameAbstract.expandVectorial {declarations statements ps qs : List (Toplevel VStatement)}
    (h : SameAbstract g declarations statements ps qs) (hstraight : Straight declarations) :
    Relates SameError (Matched fun e e' => statements ≠ [] → e = e')
      (mapStatements (VStatement.expandVectorialNodes env) ps)
      (mapStatements (VStatement.expandVectorialNodes (withUnset env line)) qs)
      fun xs s ys t => mapProgram g xs = mapProgram g ys ∧ Matched (fun _ _ => True) s t := by
  obtain ⟨ss, ts, rfl, rfl, hsame, hclear, hempty⟩ := h.split
  rw [mapStatements_append, mapStatements_append]
  refine Relates.bind hstraight.expandVectorial fun xs xs' => Relates.assume ?_
  rintro rfl
  have hjoin : ∀ ys ys', mapProgram g ys = mapProgram g ys' →
      mapProgram g (xs ++ ys) = mapProgram g (xs ++ ys') := by
    intro ys ys' h
    unfold mapProgram at h ⊢
    rw [List.map_append, List.map_append, h]
  by_cases hnone : statements = []
  · obtain rfl := hempty hnone
    cases hsame
    exact Relates.ret fun s t hst => ⟨rfl, trivial, hst.same⟩
  · refine Relates.bind ((sameProgram_expandVectorial hsame hclear).pre
      fun s t hst => ⟨hst.atEnd hnone, hst.same⟩) fun ys ys' => Relates.assume fun hys => ?_
    exact Relates.ret fun s t hst => ⟨hjoin _ _ hys, trivial, hst.same⟩

/-- The scalar trees of two runs are the same but for the unset lines. -/
theorem SameProgram.expandProgram {program program' declarations statements :
    List (Toplevel VStatement)} (h : SameProgram env g program program' declarations statements)
    (hstraight : Straight declarations) (hclear : ClearProgram statements) :
    Relates SameError (Matched fun e e' => statements ≠ [] → e = e') (expandProgram env program)
      (expandProgram (withUnset env line) program') fun xs s ys t =>
        mapProgram g xs = mapProgram g ys ∧ Matched (fun _ _ => True) s t := by
  have hcheck : checkProgram program = checkProgram program' := by
    obtain ⟨rfl, -, statements', rfl, hsame⟩ := h
    exact sameProgram_check (List.rel_append hstraight.same hsame)
  unfold Compiler.expandProgram
  rw [hcheck]
  refine (steady_lift _).relates fun _ => ?_
  refine Relates.bind (Q := fun ps s qs t => SameAbstract g declarations statements ps qs ∧
    Matched (fun e e' => statements ≠ [] → e = e') s t)
    (Relates.lift (h.expandAbstract hstraight hclear) fun _ _ h _ _ hst => ⟨h, hst⟩)
    fun ps qs => Relates.assume fun h => h.expandVectorial hstraight

end Programs

/-! ## Passes over scalar trees -/

section Scalar

variable {g : UInt32 → UInt32}

theorem typeCheck_mapLines (subroutines : OrderedMap String Nat) (s : Statement Node) :
    (mapLines g s).typeCheck subroutines = mapLines g <$> s.typeCheck subroutines := by
  induction s using Statement.induct with
  | block pos cs ih =>
    have hlist : Statement.typeCheckList subroutines (mapLinesList g cs) =
        mapLinesList g <$> Statement.typeCheckList subroutines cs := by
      induction cs with
      | nil => rfl
      | cons c rest ihrest =>
        rw [mapLinesList, Statement.typeCheckList, Statement.typeCheckList, ih c List.mem_cons_self,
          ihrest fun c hc => ih c (List.mem_cons_of_mem _ hc)]
        simp [mapLinesList]
    simp [mapLines, Statement.typeCheck, hlist]
  | ifWhen pos e l c t iht => simp [mapLines, Statement.typeCheck, iht]
  | ifWhenElse pos e l c t f iht ihf => simp [mapLines, Statement.typeCheck, iht, ihf]
  | whileLoop pos c b ihb => simp [mapLines, Statement.typeCheck, ihb]
  | _ => simp [mapLines, Statement.typeCheck]

theorem isVoid_mapLines {κ : Type} (s : Option (Statement κ)) :
    isVoid (s.map (mapLines g)) = isVoid s := by
  cases s with
  | none => rfl
  | some s =>
    cases s with
    | block pos cs => cases cs <;> rfl
    | _ => rfl

theorem foldIfWhen_mapLines (pos : SourcePos) (edge : Bool) (line : UInt32) (cond : Node)
    (t f : Option (Statement Comparison)) :
    foldIfWhen pos edge (g line) cond (t.map (mapLines g)) (f.map (mapLines g)) =
      Option.map (mapLines g) <$> foldIfWhen pos edge line cond t f := by
  unfold foldIfWhen
  rw [isVoid_mapLines, isVoid_mapLines]
  split
  · rfl
  · cases cond with
    | immediate ipos value =>
      dsimp only
      split_ifs <;> rfl
    | binaryArithmetic bpos op l r =>
      cases t <;> cases f <;> rfl
    | _ => rfl

theorem foldWhile_mapLines (pos : SourcePos) (cond : Node) (b : Option (Statement Comparison)) :
    foldWhile pos cond (b.map (mapLines g)) = Option.map (mapLines g) <$> foldWhile pos cond b := by
  unfold foldWhile
  rw [isVoid_mapLines]
  cases cond with
  | immediate ipos value =>
    dsimp only
    split_ifs <;> rfl
  | binaryArithmetic bpos op l r =>
    dsimp only
    split_ifs
    · rfl
    · cases b <;> rfl
  | _ =>
    dsimp only
    split_ifs <;> rfl

theorem optimize_mapLines (s : Statement Node) :
    (mapLines g s).optimize = Option.map (mapLines g) <$> s.optimize := by
  induction s using Statement.induct with
  | block pos cs ih =>
    have hlist : Statement.optimizeList (mapLinesList g cs) =
        mapLinesList g <$> Statement.optimizeList cs := by
      induction cs with
      | nil => rfl
      | cons c rest ihrest =>
        rw [mapLinesList, Statement.optimizeList, Statement.optimizeList, ih c List.mem_cons_self,
          ihrest fun c hc => ih c (List.mem_cons_of_mem _ hc)]
        simp only [bind_map_left, map_bind, map_pure, isVoid_mapLines]
        refine bind_congr fun s => bind_congr fun ss => ?_
        split_ifs
        · rfl
        · cases s <;> rfl
    simp [mapLines, Statement.optimize, hlist]
  | ifWhen pos e l c t iht =>
    simp only [mapLines, Statement.optimize, iht, bind_map_left, map_bind]
    refine bind_congr fun cond => bind_congr fun t => ?_
    exact foldIfWhen_mapLines pos e l cond t none
  | ifWhenElse pos e l c t f iht ihf =>
    simp only [mapLines, Statement.optimize, iht, ihf, bind_map_left, map_bind]
    exact bind_congr fun cond => bind_congr fun t => bind_congr fun f =>
      foldIfWhen_mapLines pos e l cond t f
  | whileLoop pos c b ihb =>
    simp only [mapLines, Statement.optimize, ihb, bind_map_left, map_bind]
    exact bind_congr fun cond => bind_congr fun b => foldWhile_mapLines pos cond b
  | _ => simp [mapLines, Statement.optimize]

theorem mapStatements_mapProgram {κ : Type} (f : Statement κ → Result (Statement κ))
    (hf : ∀ s, f (mapLines g s) = mapLines g <$> f s) (program : List (Toplevel (Statement κ))) :
    (mapStatements f (mapProgram g program) : Result _) =
      mapProgram g <$> mapStatements f program := by
  induction program with
  | nil => rfl
  | cons c rest ih =>
    unfold mapProgram at ih
    cases c with
    | statement s => simp [mapProgram, mapToplevel, mapStatements, hf, ih]
    | eventDecl pos id => simp [mapProgram, mapToplevel, mapStatements, ih]
    | subDecl pos id => simp [mapProgram, mapToplevel, mapStatements, ih]

theorem optimizeProgram_mapProgram (program : List (Toplevel (Statement Node))) :
    optimizeProgram (mapProgram g program) = mapProgram g <$> optimizeProgram program := by
  induction program with
  | nil => rfl
  | cons c rest ih =>
    unfold mapProgram at ih
    cases c with
    | statement s =>
      simp only [mapProgram, List.map_cons, mapToplevel, optimizeProgram, optimize_mapLines, ih,
        bind_map_left, map_bind, map_pure, isVoid_mapLines]
      refine bind_congr fun s => bind_congr fun ss => ?_
      split_ifs
      · rfl
      · cases s <;> rfl
    | eventDecl pos id => simp [mapProgram, mapToplevel, optimizeProgram, ih]
    | subDecl pos id => simp [mapProgram, mapToplevel, optimizeProgram, ih]

theorem analyseProgram_mapProgram (subroutines : OrderedMap String Nat)
    (program : List (Toplevel (Statement Node))) :
    analyseProgram subroutines (mapProgram g program) =
      mapProgram g <$> analyseProgram subroutines program := by
  unfold analyseProgram
  rw [mapStatements_mapProgram _ (typeCheck_mapLines subroutines)]
  simp [optimizeProgram_mapProgram]

/-- Type check and optimisation of programs that differ in the unset lines. -/
theorem analyseProgram_alike {xs ys : List (Toplevel (Statement Node))}
    (h : mapProgram g xs = mapProgram g ys) (subroutines : OrderedMap String Nat) :
    (analyseProgram subroutines xs).Alike SameError
      (fun xs ys => mapProgram g xs = mapProgram g ys) (analyseProgram subroutines ys) := by
  refine Outcome.Alike.of_map_eq SameError.refl ?_
  rw [← analyseProgram_mapProgram, ← analyseProgram_mapProgram, h]

end Scalar

/-! ## The front end -/

section FrontEnd

variable {env : Environment} {g : UInt32 → UInt32} {line : UInt32} {s₀ : CompilerState}
  {source : List Char}

/-- Nothing in the tree of a text that goes through a temporary names a variable like one. -/
def ClearSource (env : Environment) (source : List Char) (s₀ : CompilerState) : Prop :=
  ∀ program s, parseSource env source s₀ = .ok (program, s) → ClearProgram program

theorem ClearSource.triple (h : ClearSource env source s₀) :
    Triple (fun _ => True) (fun s => s = s₀) (parseSource env source)
      fun program _ => ClearProgram program := by
  rintro s rfl
  cases hparse : parseSource env source s with
  | ok p => exact h _ _ hparse
  | throw e => trivial
  | crash w => trivial

/-- Optimised programs of two runs are the same but for the unset lines. -/
theorem paired_frontEnd (hg : g env.unsetEndLine = g line) (hclear : ClearSource env source s₀) :
    Relates SameError (fun s _ => s = s₀) (frontEnd env source)
      (frontEnd (withUnset env line) source) fun xs s ys t =>
        mapProgram g xs = mapProgram g ys ∧ Matched (fun _ _ => True) s t := by
  refine Relates.bind (((paired_parseSource hg source).and_triple hclear.triple).pre
    fun s t hs => ⟨trivial, hs⟩) fun program program' => ?_
  refine Relates.pre (P := fun s t => ∃ declarations statements,
    (SameProgram env g program program' declarations statements ∧ ClearProgram program) ∧
      Matched (fun e e' => statements ≠ [] → e = e') s t)
    (Relates.ofExists fun declarations => Relates.ofExists fun statements => Relates.assume ?_)
    fun s t ⟨⟨ds, ss, hsame, hst⟩, hprogram⟩ => ⟨ds, ss, ⟨hsame, hprogram⟩, hst⟩
  rintro ⟨hsame, hprogram⟩
  obtain ⟨k, k', hdeclared⟩ := hsame.declared
  have hstatements : ClearProgram statements := by
    intro x hx
    rw [hsame.split] at hprogram
    exact hprogram x (List.mem_append_right _ hx)
  refine Relates.bind (hsame.expandProgram hdeclared.straight hstatements) fun xs ys =>
    Relates.assume fun hxs => ?_
  refine Relates.bindGet fun s t hst => ?_
  have htable : t.subroutineReverseTable = s.subroutineReverseTable := by
    obtain ⟨e, u, rfl⟩ := hst.same
    rfl
  rw [htable]
  refine Relates.lift (analyseProgram_alike hxs _) ?_
  rintro xs ys hxs _ _ ⟨rfl, rfl⟩
  exact ⟨hxs, hst⟩

end FrontEnd

end ThymioDeviceManager.Correctness
