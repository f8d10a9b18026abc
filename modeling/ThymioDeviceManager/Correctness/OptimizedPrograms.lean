import ThymioDeviceManager.Compiler.Compile
import ThymioDeviceManager.Correctness.CompiledPrograms
import ThymioDeviceManager.Correctness.Statements
import ThymioDeviceManager.Library.Correspondence
import ThymioDeviceManager.Semantics.Program

/-! # Optimised programs do the same

The optimiser drops tests and moves the others to new places, and a `when` of a
subroutine is shared by all callers. The tests that are kept correspond one to
one to tests of the original; the two stores agree along this correspondence all
through a run, across handlers, subroutines and events.
-/

namespace ThymioDeviceManager.Correctness

open Compiler Library Machine Semantics

/-! ## The tests that are kept -/

/-- The paths of a test before and after optimisation. -/
abbrev KeptTest := List Bool × List Bool

/-- The tests of a part that stands at `p` in the original and at `q` in what is left. -/
def beneath (p q : List Bool) (xs : List KeptTest) : List KeptTest :=
  xs.map fun e => (p ++ e.1, q ++ e.2)

@[simp] theorem beneath_nil (p q : List Bool) : beneath p q [] = [] := rfl

theorem mem_beneath {p q : List Bool} {xs : List KeptTest} {e : KeptTest} :
    e ∈ beneath p q xs ↔ ∃ d ∈ xs, (p ++ d.1, q ++ d.2) = e := List.mem_map

/-- The tests kept of an `if` or `when`, by what is left of its blocks and by the constant its
condition stands for. -/
def keptOfTest (void : Bool) (constant : Option Int) (xs ys : List KeptTest) : List KeptTest :=
  if void then []
  else
    match constant with
    | some v => if v ≠ 0 then beneath [false] [] xs else beneath [true] [] ys
    | none => ([], []) :: (beneath [false] [false] xs ++ beneath [true] [true] ys)

@[simp] theorem keptOfTest_void (constant : Option Int) (xs ys : List KeptTest) :
    keptOfTest true constant xs ys = [] := rfl

@[simp] theorem keptOfTest_constant (v : Int) (xs ys : List KeptTest) :
    keptOfTest false (some v) xs ys =
      if v ≠ 0 then beneath [false] [] xs else beneath [true] [] ys := rfl

@[simp] theorem keptOfTest_folded (xs ys : List KeptTest) :
    keptOfTest false none xs ys =
      ([], []) :: (beneath [false] [false] xs ++ beneath [true] [true] ys) := rfl

/-- The tests kept of a loop. -/
def keptOfLoop (void : Bool) (constant : Option Int) (xs : List KeptTest) : List KeptTest :=
  if void || constant.isSome then [] else ([], []) :: beneath [false] [false] xs

mutual

/-- The tests of a statement that optimisation keeps. -/
def keptTests : Statement Node → List KeptTest
  | .block _ children => keptTestsList children
  | .ifWhen _ _ _ cond trueBlock =>
    keptOfTest (vanishes trueBlock) (constant? cond) (keptTests trueBlock) []
  | .ifWhenElse _ _ _ cond trueBlock falseBlock =>
    keptOfTest (vanishes trueBlock && vanishes falseBlock) (constant? cond) (keptTests trueBlock)
      (keptTests falseBlock)
  | .whileLoop _ cond body => keptOfLoop (vanishes body) (constant? cond) (keptTests body)
  | _ => []

def keptTestsList : List (Statement Node) → List KeptTest
  | [] => []
  | s :: rest =>
    if vanishes s then beneath [true] [] (keptTestsList rest)
    else beneath [false] [false] (keptTests s) ++ beneath [true] [true] (keptTestsList rest)

end

mutual

theorem keptTests_of_vanishes : ∀ {s : Statement Node}, vanishes s = true → keptTests s = []
  | .block _ children, h => keptTestsList_of_vanishes h
  | .ifWhen _ _ _ cond t, h => by
    rw [keptTests]
    unfold keptOfTest
    split_ifs with ht
    · rfl
    · simp only [vanishes, ht, Bool.false_or, decide_eq_true_eq] at h
      simp [h]
  | .ifWhenElse _ _ _ cond t f, h => by
    rw [keptTests]
    unfold keptOfTest
    split_ifs with htf
    · rfl
    · simp only [vanishes, htf, Bool.false_or] at h
      cases hconst : constant? cond with
      | none =>
        rw [hconst] at h
        cases h
      | some v =>
        rw [hconst] at h
        by_cases h0 : v = 0
        · have hf := keptTests_of_vanishes (s := f) (by simpa [h0] using h)
          simp [h0, hf]
        · have ht := keptTests_of_vanishes (s := t) (by simpa [h0] using h)
          simp [h0, ht]
  | .whileLoop _ cond b, h => by
    rw [keptTests, keptOfLoop, if_pos]
    simp only [vanishes, Bool.or_eq_true, decide_eq_true_eq] at h
    obtain h | h := h
    · simp [h]
    · simp [h]
  | .assignment .., h => rfl
  | .emitEvent .., h => rfl
  | .callSub .., h => rfl
  | .call .., h => rfl
  | .ret .., h => rfl

theorem keptTestsList_of_vanishes : ∀ {l : List (Statement Node)}, vanishesList l = true →
    keptTestsList l = []
  | [], h => rfl
  | s :: rest, h => by
    simp only [vanishesList, Bool.and_eq_true] at h
    rw [keptTestsList, if_pos h.1, keptTestsList_of_vanishes h.2, beneath_nil]

end

/-! ### One test, one place -/

theorem oneToOne_beneath {xs : List KeptTest} (h : OneToOne {e | e ∈ xs}) (p q : List Bool) :
    OneToOne {e | e ∈ beneath p q xs} := by
  intro e he e' he'
  obtain ⟨d, hd, rfl⟩ := mem_beneath.mp he
  obtain ⟨d', hd', rfl⟩ := mem_beneath.mp he'
  simpa using h d hd d' hd'

theorem oneToOne_nil : OneToOne {e : KeptTest | e ∈ ([] : List KeptTest)} :=
  fun _ he => nomatch he

/-- The two sides of a fork have no path in common. -/
theorem keysApart_fork (xs ys : List KeptTest) :
    KeysApart (beneath [false] [false] xs) (beneath [true] [true] ys) := by
  intro e he e' he'
  obtain ⟨d, -, rfl⟩ := mem_beneath.mp he
  obtain ⟨d', -, rfl⟩ := mem_beneath.mp he'
  simp

theorem keysApart_root (b : Bool) (xs : List KeptTest) :
    KeysApart [([], [])] (beneath [b] [b] xs) := by
  intro e he e' he'
  obtain rfl := List.mem_singleton.mp he
  obtain ⟨d', -, rfl⟩ := mem_beneath.mp he'
  simp

theorem oneToOne_keptOfTest {void : Bool} {constant : Option Int} {xs ys : List KeptTest}
    (hx : OneToOne {e | e ∈ xs}) (hy : OneToOne {e | e ∈ ys}) :
    OneToOne {e | e ∈ keptOfTest void constant xs ys} := by
  unfold keptOfTest
  split_ifs
  · exact oneToOne_nil
  · split
    · split_ifs
      · exact oneToOne_beneath hx _ _
      · exact oneToOne_beneath hy _ _
    · apply oneToOne_append (oneToOne_singleton ([], []))
      · exact oneToOne_append (oneToOne_beneath hx _ _) (oneToOne_beneath hy _ _)
          (keysApart_fork xs ys)
      · exact keysApart_append (keysApart_root false xs) (keysApart_root true ys)

mutual

theorem oneToOne_keptTests : ∀ s : Statement Node, OneToOne {e | e ∈ keptTests s}
  | .block _ children => oneToOne_keptTestsList children
  | .ifWhen _ _ _ cond t => oneToOne_keptOfTest (oneToOne_keptTests t) oneToOne_nil
  | .ifWhenElse _ _ _ cond t f =>
    oneToOne_keptOfTest (oneToOne_keptTests t) (oneToOne_keptTests f)
  | .whileLoop _ cond b => by
    rw [keptTests, keptOfLoop]
    split_ifs
    · exact oneToOne_nil
    · exact oneToOne_append (oneToOne_singleton ([], []))
        (oneToOne_beneath (oneToOne_keptTests b) _ _) (keysApart_root false _)
  | .assignment .. => oneToOne_nil
  | .emitEvent .. => oneToOne_nil
  | .callSub .. => oneToOne_nil
  | .call .. => oneToOne_nil
  | .ret .. => oneToOne_nil

theorem oneToOne_keptTestsList : ∀ l : List (Statement Node), OneToOne {e | e ∈ keptTestsList l}
  | [] => oneToOne_nil
  | s :: rest => by
    rw [keptTestsList]
    split_ifs
    · exact oneToOne_beneath (oneToOne_keptTestsList rest) _ _
    · exact oneToOne_append (oneToOne_beneath (oneToOne_keptTests s) _ _)
        (oneToOne_beneath (oneToOne_keptTestsList rest) _ _) (keysApart_fork _ _)

end

/-! ### Parts of a vector -/

/-- Of the kept tests `xs`, those below the path `p` are `ys`, and they have gone below `q`. -/
def PartAt (xs ys : List KeptTest) (p q : List Bool) : Prop :=
  ∀ a b, (p ++ a, b) ∈ xs ↔ ∃ b', b = q ++ b' ∧ (a, b') ∈ ys

namespace PartAt

variable {xs ys zs : List KeptTest} {p q p' q' : List Bool}

theorem refl (xs : List KeptTest) : PartAt xs xs [] [] := by
  intro a b
  simp

theorem trans (h : PartAt xs ys p q) (h' : PartAt ys zs p' q') :
    PartAt xs zs (p ++ p') (q ++ q') := by
  intro a b
  rw [List.append_assoc, h]
  constructor
  · rintro ⟨c, rfl, hc⟩
    obtain ⟨b', rfl, hb'⟩ := (h' a c).mp hc
    exact ⟨b', (List.append_assoc q q' b').symm, hb'⟩
  · rintro ⟨b', rfl, hb'⟩
    exact ⟨q' ++ b', List.append_assoc q q' b', (h' a _).mpr ⟨b', rfl, hb'⟩⟩

/-- Nothing is kept, wherever it would go. -/
theorem nil (h : PartAt xs [] p q) (p' q' : List Bool) : PartAt xs [] (p ++ p') q' := by
  intro a b
  rw [List.append_assoc, h]
  simp

theorem root (h : PartAt xs (([], []) :: ys) p q) : (p, q) ∈ xs := by
  have hmem := (h [] q).mpr ⟨[], by simp, List.mem_cons_self⟩
  rwa [List.append_nil] at hmem

theorem not_root (h : PartAt xs ys p q) (hroot : ∀ b, ([], b) ∉ ys) (b : List Bool) :
    (p, b) ∉ xs := by
  intro hb
  rw [← List.append_nil p, h] at hb
  obtain ⟨b', -, hb'⟩ := hb
  exact hroot b' hb'

end PartAt

theorem within_beneath (p q : List Bool) (xs : List KeptTest) : PartAt (beneath p q xs) xs p q := by
  intro a b
  simp only [mem_beneath, Prod.mk.injEq, List.append_cancel_left_eq, Prod.exists]
  constructor
  · rintro ⟨a', b', hmem, rfl, rfl⟩
    exact ⟨b', rfl, hmem⟩
  · rintro ⟨b', rfl, hmem⟩
    exact ⟨a, b', hmem, rfl, rfl⟩

/-- Tests elsewhere do not matter. -/
theorem PartAt.congr {xs xs' ys : List KeptTest} {p q : List Bool} (h : PartAt xs' ys p q)
    (hsame : ∀ a b, (p ++ a, b) ∈ xs ↔ (p ++ a, b) ∈ xs') : PartAt xs ys p q := by
  intro a b
  rw [hsame, h]

theorem within_left (xs ys : List KeptTest) :
    PartAt (beneath [false] [false] xs ++ beneath [true] [true] ys) xs [false] [false] := by
  apply (within_beneath _ _ xs).congr
  intro a b
  simp [mem_beneath]

theorem within_right (xs ys : List KeptTest) :
    PartAt (beneath [false] [false] xs ++ beneath [true] [true] ys) ys [true] [true] := by
  apply (within_beneath _ _ ys).congr
  intro a b
  simp [mem_beneath]

theorem PartAt.cons_root {xs ys : List KeptTest} {b : Bool} (h : PartAt xs ys [b] [b]) :
    PartAt (([], []) :: xs) ys [b] [b] := by
  apply h.congr
  intro a c
  simp

theorem not_root_beneath (b : Bool) (q : List Bool) (xs : List KeptTest) (c : List Bool) :
    ([], c) ∉ beneath [b] q xs := by
  simp [mem_beneath]

/-! ## Stores before and after -/

/-- The kept tests of all vectors, with the vector. -/
def keptPlaces (kept : CurrentBytecode → List KeptTest) : Set (TestPlace × TestPlace) :=
  {e | ∃ key p q, (p, q) ∈ kept key ∧ e = ((key, p), (key, q))}

theorem oneToOne_keptPlaces {kept : CurrentBytecode → List KeptTest}
    (h : ∀ key, OneToOne {e | e ∈ kept key}) : OneToOne (keptPlaces kept) := by
  rintro _ ⟨key, p, q, he, rfl⟩ _ ⟨key', p', q', he', rfl⟩
  simp only [Prod.mk.injEq]
  apply and_congr_right
  rintro rfl
  exact h key (p, q) he (p', q') he'

/-- The same variables and events; every test that is kept remembers the same. -/
structure StoresAgree (kept : CurrentBytecode → List KeptTest) (x y : Store) : Prop where
  memory : x.memory = y.memory
  emitted : x.emitted = y.emitted
  wasTrue : EqualAlong (keptPlaces kept) x.wasTrue y.wasTrue

namespace StoresAgree

variable {kept : CurrentBytecode → List KeptTest} {x y : Store} {key : CurrentBytecode}
  {p q : List Bool}

/-- A kept test is evaluated on both sides. -/
theorem remember (h : StoresAgree kept x y) (hone : ∀ key, OneToOne {e | e ∈ kept key})
    (hmem : (p, q) ∈ kept key) (b : Bool) :
    StoresAgree kept (x.remember (key, p) b) (y.remember (key, q) b) where
  memory := h.memory
  emitted := h.emitted
  wasTrue := h.wasTrue.update (oneToOne_keptPlaces hone) ⟨key, p, q, hmem, rfl⟩ b

/-- A test that is dropped is evaluated by the original alone. -/
theorem remember_left (h : StoresAgree kept x y) (hmem : ∀ q, (p, q) ∉ kept key) (b : Bool) :
    StoresAgree kept (x.remember (key, p) b) y where
  memory := h.memory
  emitted := h.emitted
  wasTrue := by
    apply h.wasTrue.update_left
    rintro _ ⟨_, _, q, hq, heq⟩
    cases heq
    exact hmem q hq

theorem wasTrue_eq (h : StoresAgree kept x y) (hmem : (p, q) ∈ kept key) :
    x.wasTrue (key, p) = y.wasTrue (key, q) := h.wasTrue _ ⟨key, p, q, hmem, rfl⟩

/-- Both sides change the variables and send events, no test is evaluated. -/
theorem effect (h : StoresAgree kept x y) (m : Memory) (es : List SentEvent) :
    StoresAgree kept { x with memory := m, emitted := x.emitted ++ es }
      { y with memory := m, emitted := y.emitted ++ es } where
  memory := rfl
  emitted := congrArg (· ++ es) h.emitted
  wasTrue := h.wasTrue

theorem withMemory (h : StoresAgree kept x y) (m : Memory) :
    StoresAgree kept { x with memory := m } { y with memory := m } where
  memory := rfl
  emitted := h.emitted
  wasTrue := h.wasTrue

end StoresAgree

/-- Whenever the original ends, what is left of it ends in the same way, from agreeing stores in
agreeing stores. -/
def Matches (kept : CurrentBytecode → List KeptTest) (run run' : Store → Run Completion) : Prop :=
  ∀ x y r, StoresAgree kept x y → run x = .ok r →
    ∃ y', run' y = .ok (r.1, y') ∧ StoresAgree kept r.2 y'

theorem matches_pass (kept : CurrentBytecode → List KeptTest) : Matches kept pass pass := by
  intro x y r hxy hr
  cases hr
  exact ⟨y, rfl, hxy⟩

theorem Matches.of_pass {kept : CurrentBytecode → List KeptTest} {run : Store → Run Completion}
    (h : Matches kept run pass) {x y : Store} {r : Completion} (hxy : StoresAgree kept x y)
    (hr : run x = .ok r) : r.1 = .running ∧ StoresAgree kept r.2 y := by
  obtain ⟨y', hy', hagree⟩ := h x y r hxy hr
  obtain ⟨hstatus, rfl⟩ := Prod.mk.inj (Outcome.ok.inj hy')
  exact ⟨hstatus.symm, hagree⟩

/-! ## Statements -/

section Statements

variable {σ : WideShifts} {natives : Natives} {fuel : Nat} {key : CurrentBytecode}
  {kept : CurrentBytecode → List KeptTest}

theorem runTest_eq_ok {κ : Type} [Condition κ] {edge : Bool} {cond : κ} {place : TestPlace}
    {t f : Store → Run Completion} {x : Store} {r : Completion} :
    runTest σ edge cond place t f x = .ok r ↔
      ∃ b, Condition.holds σ x.memory cond = .ok b ∧
        (if b && !(edge && x.wasTrue place) then t else f) (x.remember place b) = .ok r := by
  simp only [runTest, Outcome.bind_eq_ok]
  apply exists_congr
  intro b
  apply and_congr_right
  intro _
  split_ifs <;> rfl

theorem runRound_eq_ok {κ : Type} [Condition κ] {cond : κ} {place : TestPlace}
    {body : Store → Run Completion} {x : Store} {o : Store ⊕ Completion} :
    runRound σ cond place body x = .ok o ↔
      (Condition.holds σ x.memory cond = .ok true ∧
        ∃ r, body (x.remember place true) = .ok r ∧
          o = match r.1 with | .running => .inl r.2 | .returned => .inr r) ∨
      (Condition.holds σ x.memory cond = .ok false ∧
        o = .inr (.running, x.remember place false)) := by
  simp only [runRound, Outcome.bind_eq_ok]
  constructor
  · rintro ⟨b, hb, h⟩
    cases b with
    | true =>
      left
      obtain ⟨⟨status, y⟩, hr, h⟩ := Outcome.bind_eq_ok.mp h
      refine ⟨hb, (status, y), hr, ?_⟩
      cases status <;> exact (Outcome.ok.inj h).symm
    | false =>
      right
      exact ⟨hb, (Outcome.ok.inj h).symm⟩
  · rintro (⟨hb, ⟨status, y⟩, hr, rfl⟩ | ⟨hb, rfl⟩)
    · refine ⟨true, hb, Outcome.bind_eq_ok.mpr ⟨(status, y), hr, ?_⟩⟩
      cases status <;> rfl
    · exact ⟨false, hb, rfl⟩

/-- A null statement does nothing. -/
def runOption (σ : WideShifts) (natives : Natives) (call : Nat → Store → Run Store) (fuel : Nat)
    (key : CurrentBytecode) (o : Option (Statement Comparison)) (path : List Bool) :
    Store → Run Completion :=
  match o with
  | some s => runStatement σ natives call fuel key s path
  | none => pass

variable {call call' : Nat → Store → Run Store}

theorem runOption_of_isVoid {o : Option (Statement Comparison)} (h : isVoid o = true)
    (path : List Bool) : runOption σ natives call fuel key o path = pass := by
  funext x
  cases o with
  | none => rfl
  | some s =>
    cases s with
    | block pos children =>
      cases children with
      | nil => rfl
      | cons => cases h
    | _ => cases h

theorem runOption_foldedTest (pos : SourcePos) (edge : Bool) (line : UInt32) (cond : Comparison)
    (t f : Option (Statement Comparison)) (path : List Bool) :
    runOption σ natives call fuel key (some (foldedTest pos edge line cond t f)) path =
      runTest σ edge cond (key, path) (runOption σ natives call fuel key t (path ++ [false]))
        (runOption σ natives call fuel key f (path ++ [true])) := by
  funext x
  cases t <;> cases f <;> rfl

/-- A statement without control flow: both sides change the same variables and send the same
events. -/
theorem matches_effect {s : Statement Node} {s' : Statement Comparison} {p q : List Bool}
    (h : ∀ x r, runStatement σ natives call fuel key s p x = .ok r →
      ∃ m es, r = (.running, { x with memory := m, emitted := x.emitted ++ es }) ∧
        ∀ y : Store, y.memory = x.memory → runStatement σ natives call' fuel key s' q y =
          .ok (.running, { y with memory := m, emitted := y.emitted ++ es })) :
    Matches kept (runStatement σ natives call fuel key s p)
      (runOption σ natives call' fuel key (some s') q) := by
  intro x y r hxy hr
  obtain ⟨m, es, rfl, hy⟩ := h x r hr
  exact ⟨_, hy y hxy.memory.symm, hxy.effect m es⟩

theorem matches_assignment {code : Assignment} {o : Option (Statement Comparison)} {p q : List Bool}
    (hk : SubexpressionsKept σ (.assignment code))
    (h : (Statement.assignment code : Statement Node).optimize = .ok o) :
    Matches kept (runStatement σ natives call fuel key (.assignment code : Statement Node) p)
      (runOption σ natives call' fuel key o q) := by
  simp only [Statement.optimize, Outcome.bind_eq_ok, Outcome.pure_eq, Outcome.ok.injEq] at h
  obtain ⟨code', hcode, rfl⟩ := h
  apply matches_effect
  intro x r hr
  simp only [runStatement, Outcome.bind_eq_ok, Outcome.pure_eq, Outcome.ok.injEq] at hr ⊢
  obtain ⟨w, hw, rfl⟩ := hr
  refine ⟨w.memory, [], by rw [List.append_nil], fun y hy => ⟨w, ?_, by rw [List.append_nil]⟩⟩
  rw [Store.world, hy]
  exact execAssignment_optimize hk hcode hw

theorem matches_emitEvent {pos : SourcePos} {id addr n : Nat} {code : List Assignment}
    {o : Option (Statement Comparison)} {p q : List Bool}
    (hk : SubexpressionsKept σ (.emitEvent pos id addr n code))
    (h : (Statement.emitEvent pos id addr n code : Statement Node).optimize = .ok o) :
    Matches kept
      (runStatement σ natives call fuel key (.emitEvent pos id addr n code : Statement Node) p)
      (runOption σ natives call' fuel key o q) := by
  simp only [Statement.optimize, Outcome.bind_eq_ok, Outcome.pure_eq, Outcome.ok.injEq] at h
  obtain ⟨code', hcode, rfl⟩ := h
  apply matches_effect
  intro x r hr
  simp only [runStatement, Outcome.bind_eq_ok, Outcome.pure_eq, Outcome.ok.injEq] at hr ⊢
  obtain ⟨w, hw, rfl⟩ := hr
  refine ⟨w.memory, [⟨id, eventWords w.memory addr n⟩], rfl, fun y hy => ⟨w, ?_, rfl⟩⟩
  rw [Store.world, hy]
  exact execAssignments_optimize hk hcode hw

theorem matches_call {pos : SourcePos} {f : Nat} {ts : List Nat} {args : List CallArg}
    {o : Option (Statement Comparison)} {p q : List Bool}
    (hk : SubexpressionsKept σ (.call pos f ts args))
    (h : (Statement.call pos f ts args : Statement Node).optimize = .ok o) :
    Matches kept (runStatement σ natives call fuel key (.call pos f ts args : Statement Node) p)
      (runOption σ natives call' fuel key o q) := by
  simp only [Statement.optimize, Outcome.bind_eq_ok, Outcome.pure_eq, Outcome.ok.injEq] at h
  obtain ⟨args', hargs, rfl⟩ := h
  have hall := List.forall₂_reverse_iff.mpr (forall₂_of_optimizeCallArgs hargs)
  apply matches_effect
  intro x r hr
  simp only [runStatement, Outcome.bind_eq_ok, Outcome.pure_eq, Outcome.ok.injEq] at hr ⊢
  obtain ⟨⟨vs, w⟩, hvs, rfl⟩ := hr
  refine ⟨_, [], by rw [List.append_nil], fun y hy => ⟨(vs, w), ?_, by rw [List.append_nil]⟩⟩
  rw [Store.world, hy]
  exact execCallArgs_optimize (fun a ha => hk a (List.mem_reverse.mp ha)) hall hvs

/-- A statement of which nothing is left, before others. -/
theorem matches_droppedHead {run rest rest' : Store → Run Completion} (hrun : Matches kept run pass)
    (hrest : Matches kept rest rest') :
    Matches kept (fun x => do
      let r ← run x
      match r.1 with
      | .running => rest r.2
      | .returned => pure r) rest' := by
  intro x y r hxy hr
  obtain ⟨⟨status, z⟩, hz, hr⟩ := Outcome.bind_eq_ok.mp hr
  obtain ⟨rfl, hzy⟩ := hrun.of_pass hxy hz
  exact hrest z y r hzy hr

/-- A statement that is kept, before others. -/
theorem matches_keptHead {run run' rest rest' : Store → Run Completion} (hrun : Matches kept run run')
    (hrest : Matches kept rest rest') :
    Matches kept (fun x => do
      let r ← run x
      match r.1 with
      | .running => rest r.2
      | .returned => pure r) (fun x => do
      let r ← run' x
      match r.1 with
      | .running => rest' r.2
      | .returned => pure r) := by
  intro x y r hxy hr
  obtain ⟨⟨status, z⟩, hz, hr⟩ := Outcome.bind_eq_ok.mp hr
  obtain ⟨z', hz', hzz⟩ := hrun x y _ hxy hz
  cases status with
  | running =>
    obtain ⟨y', hy', hagree⟩ := hrest z z' r hzz hr
    exact ⟨y', Outcome.bind_eq_ok.mpr ⟨_, hz', hy'⟩, hagree⟩
  | returned =>
    cases hr
    exact ⟨z', Outcome.bind_eq_ok.mpr ⟨_, hz', rfl⟩, hzz⟩

/-- A loop whose rounds leave the stores in agreement with one that does nothing. -/
theorem matches_idleLoop {cond : Node} {b : Store → Run Completion} {p : List Bool}
    (hnext : ∀ x z y, StoresAgree kept x y → runRound σ cond (key, p) b x = .ok (.inl z) →
      StoresAgree kept z y)
    (hdone : ∀ x r y, StoresAgree kept x y → runRound σ cond (key, p) b x = .ok (.inr r) →
      r.1 = .running ∧ StoresAgree kept r.2 y) :
    Matches kept (iterate .outOfFuel (runRound σ cond (key, p) b) fuel) pass := by
  intro x y r hxy hr
  have hend : r.1 = .running ∧ StoresAgree kept r.2 y :=
    Iterate.invariant (I := fun c => StoresAgree kept c y) (fun c c' hcy => hnext c c' y hcy)
      (fun c r hcy => hdone c r y hcy) hxy hr
  exact ⟨y, by rw [hend.1]; rfl, hend.2⟩

/-- A loop whose condition is a constant is never entered. -/
theorem matches_constantLoop {cond cond' : Node} {b : Store → Run Completion} {p q : List Bool}
    (hroot : cond.isConditionRoot = true) (hk : Kept σ cond) (hc : cond.optimize = .ok cond')
    (hconst : constant? cond = some 0) (hpart : PartAt (kept key) [] p q) :
    Matches kept (iterate .outOfFuel (runRound σ cond (key, p) b) fuel) pass := by
  apply matches_idleLoop
  · intro x z y _ hround
    obtain ⟨hb, -⟩ | ⟨-, hend⟩ := runRound_eq_ok.mp hround
    · have hfalse := holds_of_constant hroot hk hc hconst hb
      cases hfalse
    · cases hend
  · intro x r y hxy hround
    obtain ⟨hb, -⟩ | ⟨-, hend⟩ := runRound_eq_ok.mp hround
    · have hfalse := holds_of_constant hroot hk hc hconst hb
      cases hfalse
    · cases hend
      exact ⟨rfl, hxy.remember_left (hpart.not_root (by simp)) false⟩

/-- A loop whose body is empty only evaluates its condition. -/
theorem matches_emptyLoop {cond : Node} {b : Store → Run Completion} {p q : List Bool}
    (hb : Matches kept b pass) (hpart : PartAt (kept key) [] p q) :
    Matches kept (iterate .outOfFuel (runRound σ cond (key, p) b) fuel) pass := by
  have hdropped : ∀ x y d, StoresAgree kept x y → StoresAgree kept (x.remember (key, p) d) y :=
    fun x y d hxy => hxy.remember_left (hpart.not_root (by simp)) d
  apply matches_idleLoop
  · intro x z y hxy hround
    obtain ⟨-, e, he, hnext⟩ | ⟨-, hend⟩ := runRound_eq_ok.mp hround
    · obtain ⟨hstatus, hagree⟩ := hb.of_pass (hdropped x y true hxy) he
      rw [hstatus] at hnext
      cases hnext
      exact hagree
    · cases hend
  · intro x r y hxy hround
    obtain ⟨-, e, he, hnext⟩ | ⟨-, hend⟩ := runRound_eq_ok.mp hround
    · rw [(hb.of_pass (hdropped x y true hxy) he).1] at hnext
      cases hnext
    · cases hend
      exact ⟨rfl, hdropped x y false hxy⟩

variable (hone : ∀ key, OneToOne {e | e ∈ kept key})

include hone

/-- A test, with what was made of it. -/
theorem matches_test {pos : SourcePos} {edge : Bool} {line : UInt32} {cond cond' : Node}
    {t f : Store → Run Completion} {t' f' o : Option (Statement Comparison)}
    {xs ys : List KeptTest} {p q : List Bool} (hroot : cond.isConditionRoot = true)
    (hk : Kept σ cond) (hc : cond.optimize = .ok cond')
    (h : foldIfWhen pos edge line cond' t' f' = .ok o)
    (hwhen : edge = true → ∀ v ∈ constant? cond, v ≠ 0 → (isVoid t' && isVoid f') = true)
    (hx : isVoid t' = true → xs = []) (hy : isVoid f' = true → ys = [])
    (iht : ∀ q, PartAt (kept key) xs (p ++ [false]) q →
      Matches kept t (runOption σ natives call' fuel key t' q))
    (ihf : ∀ q, PartAt (kept key) ys (p ++ [true]) q →
      Matches kept f (runOption σ natives call' fuel key f' q))
    (hpart : PartAt (kept key) (keptOfTest (isVoid t' && isVoid f') (constant? cond) xs ys) p q) :
    Matches kept (runTest σ edge cond (key, p) t f) (runOption σ natives call' fuel key o q) := by
  intro x y r hxy hr
  obtain ⟨b, hb, hr⟩ := runTest_eq_ok.mp hr
  obtain ⟨hv, hv', rfl⟩ | ⟨hv, v, hconst, rfl⟩ | ⟨hv, hconst, p', op, l, e, rfl, rfl⟩ :=
    foldIfWhen_cases hc h
  · -- both blocks are empty
    rw [hv, hv', Bool.and_self, keptOfTest_void] at hpart
    have hdropped := hxy.remember_left (hpart.not_root (by simp)) b
    have ht := iht q (hx hv ▸ hpart.nil [false] q)
    have hf := ihf q (hy hv' ▸ hpart.nil [true] q)
    rw [runOption_of_isVoid hv] at ht
    rw [runOption_of_isVoid hv'] at hf
    split_ifs at hr
    · exact ht _ _ _ hdropped hr
    · exact hf _ _ _ hdropped hr
  · -- the condition is a constant
    rw [holds_of_constant hroot hk hc hconst hb] at hr
    rw [hv, hconst, keptOfTest_constant] at hpart
    by_cases h0 : v = 0
    · simp only [h0, ne_eq, not_true_eq_false, if_false, decide_false, Bool.false_and,
        Bool.false_eq_true] at hpart hr ⊢
      have hdropped := hxy.remember_left (hpart.not_root (not_root_beneath true [] ys)) false
      apply ihf _ _ _ _ _ hdropped hr
      simpa using hpart.trans (within_beneath [true] [] ys)
    · have hedge : edge = false := by
        by_contra hedge
        have hvoid := hwhen (by simpa using hedge) v hconst h0
        rw [hv] at hvoid
        cases hvoid
      simp only [h0, ne_eq, not_false_eq_true, if_true, decide_true, hedge, Bool.false_and,
        Bool.not_false, Bool.and_self] at hpart hr ⊢
      have hdropped := hxy.remember_left (hpart.not_root (not_root_beneath false [] xs)) true
      apply iht _ _ _ _ _ hdropped hr
      simpa using hpart.trans (within_beneath [false] [] xs)
  · -- the comparison is folded into the branch
    rw [hv, hconst, keptOfTest_folded] at hpart
    have hb' := holds_folded hk hc hb
    have hagree := hxy.remember hone hpart.root b
    rw [runOption_foldedTest]
    rw [hxy.wasTrue_eq hpart.root] at hr
    have hmatch : Matches kept (if b && !(edge && y.wasTrue (key, q)) then t else f)
        (if b && !(edge && y.wasTrue (key, q)) then runOption σ natives call' fuel key t' (q ++ [false])
          else runOption σ natives call' fuel key f' (q ++ [true])) := by
      split_ifs
      · exact iht _ (hpart.trans (within_left xs ys).cons_root)
      · exact ihf _ (hpart.trans (within_right xs ys).cons_root)
    obtain ⟨y', hy', hagree'⟩ := hmatch _ _ _ hagree hr
    exact ⟨y', runTest_eq_ok.mpr ⟨b, hxy.memory ▸ hb', hy'⟩, hagree'⟩

/-- A loop that is kept goes round as the original does. -/
theorem matches_keptLoop {cond : Node} {pos : SourcePos} {op : AsebaBinaryOperator} {l e : Node}
    {b b' : Store → Run Completion} {xs : List KeptTest} {p q : List Bool} (hk : Kept σ cond)
    (hc : cond.optimize = .ok (.binaryArithmetic pos op l e)) (hbody : Matches kept b b')
    (hpart : PartAt (kept key) (([], []) :: xs) p q) :
    Matches kept (iterate .outOfFuel (runRound σ cond (key, p) b) fuel)
      (iterate .outOfFuel (runRound σ (⟨op, l, e⟩ : Comparison) (key, q) b') fuel) := by
  intro x y r hxy hr
  have hsim : ∃ r', iterate .outOfFuel (runRound σ (⟨op, l, e⟩ : Comparison) (key, q) b') fuel y =
      .ok r' ∧ (r'.1 = r.1 ∧ StoresAgree kept r.2 r'.2) := by
    apply Iterate.simulation (R := StoresAgree kept)
      (Q := fun (r r' : Completion) => r'.1 = r.1 ∧ StoresAgree kept r.2 r'.2) _ _ hxy hr
    · intro c c' d hcc hround
      have hagree := fun b => hcc.remember hone hpart.root b
      obtain ⟨hb, ⟨status, z⟩, hz, hnext⟩ | ⟨-, hend⟩ := runRound_eq_ok.mp hround
      · obtain ⟨z', hz', hzz⟩ := hbody _ _ _ (hagree true) hz
        cases status with
        | running =>
          cases hnext
          exact ⟨z', runRound_eq_ok.mpr (.inl ⟨hcc.memory ▸ holds_folded hk hc hb, _, hz', rfl⟩),
            hzz⟩
        | returned => cases hnext
      · cases hend
    · intro c c' d hcc hround
      have hagree := fun b => hcc.remember hone hpart.root b
      obtain ⟨hb, ⟨status, z⟩, hz, hnext⟩ | ⟨hb, hend⟩ := runRound_eq_ok.mp hround
      · obtain ⟨z', hz', hzz⟩ := hbody _ _ _ (hagree true) hz
        cases status with
        | running => cases hnext
        | returned =>
          cases hnext
          exact ⟨(.returned, z'),
            runRound_eq_ok.mpr (.inl ⟨hcc.memory ▸ holds_folded hk hc hb, _, hz', rfl⟩), rfl, hzz⟩
      · cases hend
        exact ⟨_, runRound_eq_ok.mpr (.inr ⟨hcc.memory ▸ holds_folded hk hc hb, rfl⟩), rfl,
          hagree false⟩
  obtain ⟨⟨status, y'⟩, hy', rfl, hagree⟩ := hsim
  exact ⟨y', hy', hagree⟩

/-- A loop, with what was made of it. -/
theorem matches_loop {pos : SourcePos} {cond cond' : Node} {b : Store → Run Completion}
    {b' o : Option (Statement Comparison)} {xs : List KeptTest} {p q : List Bool}
    (hroot : cond.isConditionRoot = true) (hk : Kept σ cond) (hc : cond.optimize = .ok cond')
    (h : foldWhile pos cond' b' = .ok o) (hx : isVoid b' = true → xs = [])
    (ih : ∀ q, PartAt (kept key) xs (p ++ [false]) q →
      Matches kept b (runOption σ natives call' fuel key b' q))
    (hpart : PartAt (kept key) (keptOfLoop (isVoid b') (constant? cond) xs) p q) :
    Matches kept (iterate .outOfFuel (runRound σ cond (key, p) b) fuel)
      (runOption σ natives call' fuel key o q) := by
  obtain ⟨hconst, rfl⟩ | ⟨hconst, hv, rfl⟩ | ⟨hconst, hv, p', op, l, e, rfl, rfl⟩ :=
    foldWhile_cases hc h
  · rw [hconst, keptOfLoop, Option.isSome_some, Bool.or_true, if_pos rfl] at hpart
    exact matches_constantLoop hroot hk hc hconst hpart
  · rw [hv, keptOfLoop, Bool.true_or, if_pos rfl] at hpart
    have hb := ih q (hx hv ▸ hpart.nil [false] q)
    rw [runOption_of_isVoid hv] at hb
    exact matches_emptyLoop hb hpart
  · obtain ⟨body, rfl⟩ : ∃ body, b' = some body := by
      cases b' with
      | none => cases hv
      | some body => exact ⟨body, rfl⟩
    rw [hv, hconst, keptOfLoop, Option.isSome_none, Bool.or_false, if_neg Bool.false_ne_true]
      at hpart
    have hbody := ih (q ++ [false]) (hpart.trans (within_beneath [false] [false] xs).cons_root)
    exact matches_keptLoop hone hk hc hbody hpart

variable (hcall : ∀ id x y z, StoresAgree kept x y → call id x = .ok z →
  ∃ z', call' id y = .ok z' ∧ StoresAgree kept z z')

include hcall

set_option linter.unusedSectionVars false in
mutual

/-- What is left of a statement does what the statement did. -/
theorem matches_optimize : ∀ {s : Statement Node} {o : Option (Statement Comparison)}
    {p q : List Bool}, TestsConditions s → SubexpressionsKept σ s → NoConstantWhen s →
    s.optimize = .ok o → PartAt (kept key) (keptTests s) p q →
    Matches kept (runStatement σ natives call fuel key s p) (runOption σ natives call' fuel key o q)
  | .block pos children, o, p, q, ht, hk, hw, h, hpart => by
    simp only [Statement.optimize, Outcome.bind_eq_ok, Outcome.pure_eq, Outcome.ok.injEq] at h
    obtain ⟨os, hos, rfl⟩ := h
    exact matches_optimizeList ht hk hw hos hpart
  | .assignment code, o, p, q, ht, hk, hw, h, hpart => matches_assignment hk h
  | .ifWhen pos edge line cond t, o, p, q, ht, hk, hw, h, hpart => by
    simp only [Statement.optimize, Outcome.bind_eq_ok] at h
    obtain ⟨cond', hc, t', ht', h⟩ := h
    have hvoid := isVoid_optimize ht'
    rw [keptTests, ← hvoid, ← Bool.and_true (isVoid t'), ← isVoid_none] at hpart
    refine matches_test hone ht.1 hk.1 hc h ?_ ?_ (fun _ => rfl) ?_ (fun _ _ => matches_pass kept)
      hpart
    · intro hedge v hv h0
      rw [hvoid, hw.2 hedge v hv h0]
      rfl
    · intro hv
      exact keptTests_of_vanishes (hvoid ▸ hv)
    · intro q hq
      exact matches_optimize ht.2 hk.2 hw.1 ht' hq
  | .ifWhenElse pos edge line cond t f, o, p, q, ht, hk, hw, h, hpart => by
    simp only [Statement.optimize, Outcome.bind_eq_ok] at h
    obtain ⟨cond', hc, t', ht', f', hf', h⟩ := h
    have hvt := isVoid_optimize ht'
    have hvf := isVoid_optimize hf'
    rw [keptTests, ← hvt, ← hvf] at hpart
    refine matches_test hone ht.1 hk.1 hc h ?_ ?_ ?_ ?_ ?_ hpart
    · intro hedge v hv h0
      obtain ⟨h₁, h₂⟩ := hw.2.2 hedge v hv h0
      rw [hvt, hvf, h₁, h₂]
      rfl
    · intro hv
      exact keptTests_of_vanishes (hvt ▸ hv)
    · intro hv
      exact keptTests_of_vanishes (hvf ▸ hv)
    · intro q hq
      exact matches_optimize ht.2.1 hk.2.1 hw.1 ht' hq
    · intro q hq
      exact matches_optimize ht.2.2 hk.2.2 hw.2.1 hf' hq
  | .whileLoop pos cond b, o, p, q, ht, hk, hw, h, hpart => by
    simp only [Statement.optimize, Outcome.bind_eq_ok] at h
    obtain ⟨cond', hc, b', hb', h⟩ := h
    have hvoid := isVoid_optimize hb'
    rw [keptTests, ← hvoid] at hpart
    apply matches_loop hone ht.1 hk.1 hc h _ _ hpart
    · intro hv
      exact keptTests_of_vanishes (hvoid ▸ hv)
    · intro q hq
      exact matches_optimize ht.2 hk.2 hw hb' hq
  | .emitEvent pos id addr n code, o, p, q, ht, hk, hw, h, hpart => matches_emitEvent hk h
  | .callSub pos name id, o, p, q, ht, hk, hw, h, hpart => by
    cases h
    intro x y r hxy hr
    simp only [runStatement, Outcome.bind_eq_ok, Outcome.pure_eq, Outcome.ok.injEq] at hr
    obtain ⟨z, hz, rfl⟩ := hr
    obtain ⟨z', hz', hagree⟩ := hcall id x y z hxy hz
    exact ⟨z', by rw [runOption, runStatement, hz']; rfl, hagree⟩
  | .call pos f ts args, o, p, q, ht, hk, hw, h, hpart => matches_call hk h
  | .ret pos, o, p, q, ht, hk, hw, h, hpart => by
    cases h
    intro x y r hxy hr
    cases hr
    exact ⟨y, rfl, hxy⟩

theorem matches_optimizeList : ∀ {l : List (Statement Node)} {os : List (Statement Comparison)}
    {p q : List Bool}, TestsConditionsList l → SubexpressionsKeptList σ l → NoConstantWhenList l →
    Statement.optimizeList l = .ok os → PartAt (kept key) (keptTestsList l) p q →
    Matches kept (runStatements σ natives call fuel key l p)
      (runStatements σ natives call' fuel key os q)
  | [], os, p, q, ht, hk, hw, h, hpart => by
    cases h
    exact matches_pass kept
  | s :: rest, os, p, q, ht, hk, hw, h, hpart => by
    simp only [Statement.optimizeList, Outcome.bind_eq_ok, Outcome.pure_eq, Outcome.ok.injEq] at h
    obtain ⟨o, ho, os', hos', rfl⟩ := h
    have hvoid := isVoid_optimize ho
    cases hv : isVoid o with
    | true =>
      rw [hv] at hvoid
      rw [keptTestsList, if_pos hvoid.symm] at hpart
      rw [if_pos rfl]
      have hs : PartAt (kept key) (keptTests s) (p ++ [false]) q := by
        rw [keptTests_of_vanishes hvoid.symm]
        intro a b
        rw [List.append_assoc, hpart]
        simp [mem_beneath]
      have hfirst := matches_optimize ht.1 hk.1 hw.1 ho hs
      rw [runOption_of_isVoid hv] at hfirst
      have hrest : PartAt (kept key) (keptTestsList rest) (p ++ [true]) q := by
        simpa using hpart.trans (within_beneath [true] [] (keptTestsList rest))
      exact matches_droppedHead hfirst (matches_optimizeList ht.2 hk.2 hw.2 hos' hrest)
    | false =>
      rw [hv] at hvoid
      rw [keptTestsList, if_neg (Bool.eq_false_iff.mp hvoid.symm)] at hpart
      rw [if_neg Bool.false_ne_true]
      obtain ⟨s', rfl⟩ : ∃ s', o = some s' := by
        cases o with
        | none => cases hv
        | some s' => exact ⟨s', rfl⟩
      have hs := hpart.trans (within_left (keptTests s) (keptTestsList rest))
      have hrest := hpart.trans (within_right (keptTests s) (keptTestsList rest))
      exact matches_keptHead (matches_optimize ht.1 hk.1 hw.1 ho hs)
        (matches_optimizeList ht.2 hk.2 hw.2 hos' hrest)

end

end Statements

/-! ## Programs -/

section Programs

variable {program : List (Toplevel (Statement Node))}
  {optimized : List (Toplevel (Statement Comparison))}

/-- The statements of a program, whichever vector they belong to. -/
def ForStatements (P : Statement Node → Prop) (program : List (Toplevel (Statement Node))) : Prop :=
  ∀ s, .statement s ∈ program → P s

theorem mem_of_mem_statementsOf {τ : Type} {key current : CurrentBytecode}
    {program : List (Toplevel τ)} {s : τ} (h : s ∈ statementsOf key current program) :
    .statement s ∈ program := by
  induction program generalizing current with
  | nil => cases h
  | cons node rest ih =>
    cases node with
    | statement s' =>
      rw [statementsOf] at h
      split_ifs at h
      · obtain rfl | h := List.mem_cons.mp h
        · exact List.mem_cons_self
        · exact List.mem_cons_of_mem _ (ih h)
      · exact List.mem_cons_of_mem _ (ih h)
    | eventDecl pos id => exact List.mem_cons_of_mem _ (ih h)
    | subDecl pos id => exact List.mem_cons_of_mem _ (ih h)

/-- The optimisation of a program is the optimisation of each of its vectors. -/
theorem optimizeList_statementsOf (h : optimizeProgram program = .ok optimized)
    (key current : CurrentBytecode) :
    Statement.optimizeList (statementsOf key current program) =
      .ok (statementsOf key current optimized) := by
  induction program generalizing current optimized with
  | nil =>
    cases h
    rfl
  | cons node rest ih =>
    cases node with
    | statement s =>
      simp only [optimizeProgram, Outcome.bind_eq_ok, Outcome.pure_eq, Outcome.ok.injEq] at h
      obtain ⟨o, ho, rest', hrest', rfl⟩ := h
      have hrest := ih hrest' current
      rw [statementsOf]
      split_ifs with hkey hvoid hvoid
      · rw [Statement.optimizeList, ho, hrest]
        simp [hvoid]
      · obtain ⟨s', rfl⟩ : ∃ s', o = some s' := by
          cases o with
          | none => exact absurd rfl hvoid
          | some s' => exact ⟨s', rfl⟩
        rw [Statement.optimizeList, ho, hrest]
        simp [hvoid, statementsOf, hkey]
      · exact hrest
      · obtain ⟨s', rfl⟩ : ∃ s', o = some s' := by
          cases o with
          | none => exact absurd rfl hvoid
          | some s' => exact ⟨s', rfl⟩
        rw [hrest]
        simp [statementsOf, hkey]
    | eventDecl pos id =>
      simp only [optimizeProgram, Outcome.bind_eq_ok, Outcome.pure_eq, Outcome.ok.injEq] at h
      obtain ⟨rest', hrest', rfl⟩ := h
      exact ih hrest' (.event id)
    | subDecl pos id =>
      simp only [optimizeProgram, Outcome.bind_eq_ok, Outcome.pure_eq, Outcome.ok.injEq] at h
      obtain ⟨rest', hrest', rfl⟩ := h
      exact ih hrest' (.subroutine id)

/-- A property of lists that is one of each of their statements. -/
theorem list_of_statements {P : Statement Node → Prop} {Q : List (Statement Node) → Prop}
    (hnil : Q []) (hcons : ∀ s rest, P s → Q rest → Q (s :: rest))
    (h : ForStatements P program) (key current : CurrentBytecode) :
    Q (statementsOf key current program) := by
  have hall : ∀ l : List (Statement Node), (∀ s ∈ l, P s) → Q l := by
    intro l hl
    induction l with
    | nil => exact hnil
    | cons s rest ih =>
      apply hcons s rest (hl s List.mem_cons_self)
      exact ih fun s hs => hl s (List.mem_cons_of_mem _ hs)
  exact hall _ fun s hs => h s (mem_of_mem_statementsOf hs)

variable {σ : WideShifts} {natives : Natives}

section Runs

variable (h : optimizeProgram program = .ok optimized)
  (ht : ForStatements TestsConditions program)
  (hk : ForStatements (SubexpressionsKept σ) program)
  (hw : ForStatements NoConstantWhen program)

/-- The kept tests of the vectors of a program. -/
def programTestsKept (program : List (Toplevel (Statement Node))) (key : CurrentBytecode) :
    List KeptTest := keptTestsList (vectorsOf program key)

include h ht hk hw

theorem matches_vector (key : CurrentBytecode) {fuel : Nat} {call call' : Nat → Store → Run Store}
    (hcall : ∀ id x y z, StoresAgree (programTestsKept program) x y → call id x = .ok z →
      ∃ z', call' id y = .ok z' ∧ StoresAgree (programTestsKept program) z z') :
    Matches (programTestsKept program)
      (runStatements σ natives call fuel key (vectorsOf program key) [])
      (runStatements σ natives call' fuel key (vectorsOf optimized key) []) := by
  apply matches_optimizeList (fun key => oneToOne_keptTestsList _) hcall
  · exact list_of_statements trivial (fun _ _ => And.intro) ht key _
  · exact list_of_statements trivial (fun _ _ => And.intro) hk key _
  · exact list_of_statements trivial (fun _ _ => And.intro) hw key _
  · exact optimizeList_statementsOf h key _
  · exact PartAt.refl _

theorem runSubroutine_optimized (fuel id : Nat) (x y z : Store)
    (hxy : StoresAgree (programTestsKept program) x y)
    (hrun : runSubroutine σ natives (vectorsOf program) fuel id x = .ok z) :
    ∃ z', runSubroutine σ natives (vectorsOf optimized) fuel id y = .ok z' ∧
      StoresAgree (programTestsKept program) z z' := by
  induction fuel generalizing id x y z with
  | zero => cases hrun
  | succ fuel ih =>
    simp only [runSubroutine, Outcome.bind_eq_ok, Outcome.pure_eq, Outcome.ok.injEq] at hrun ⊢
    obtain ⟨r, hr, rfl⟩ := hrun
    obtain ⟨y', hy', hagree⟩ := matches_vector h ht hk hw (.subroutine id) ih x y r hxy hr
    exact ⟨y', ⟨_, hy', rfl⟩, hagree⟩

theorem runHandler_optimized (fuel id : Nat) (x y z : Store)
    (hxy : StoresAgree (programTestsKept program) x y)
    (hrun : runHandler σ natives (vectorsOf program) fuel id x = .ok z) :
    ∃ z', runHandler σ natives (vectorsOf optimized) fuel id y = .ok z' ∧
      StoresAgree (programTestsKept program) z z' := by
  simp only [runHandler, Outcome.bind_eq_ok, Outcome.pure_eq, Outcome.ok.injEq] at hrun ⊢
  obtain ⟨r, hr, rfl⟩ := hrun
  obtain ⟨y', hy', hagree⟩ := matches_vector h ht hk hw (.event id)
    (runSubroutine_optimized h ht hk hw fuel) x y r hxy hr
  exact ⟨y', ⟨_, hy', rfl⟩, hagree⟩

theorem runEvents_optimized (fuel : Nat) (arrivals : List Arrival) (x y z : Store)
    (hxy : StoresAgree (programTestsKept program) x y)
    (hrun : runEvents σ natives (vectorsOf program) fuel arrivals x = .ok z) :
    ∃ z', runEvents σ natives (vectorsOf optimized) fuel arrivals y = .ok z' ∧
      StoresAgree (programTestsKept program) z z' := by
  induction arrivals generalizing x y with
  | nil =>
    cases hrun
    exact ⟨y, rfl, hxy⟩
  | cons a rest ih =>
    simp only [runEvents, Outcome.bind_eq_ok] at hrun ⊢
    obtain ⟨x₁, hx₁, hrun⟩ := hrun
    have hin := hxy.withMemory (a.input x.memory)
    obtain ⟨y₁, hy₁, hagree⟩ := runHandler_optimized h ht hk hw fuel a.id _ _ _ hin hx₁
    rw [hxy.memory] at hy₁
    obtain ⟨z', hz', hagree'⟩ := ih x₁ y₁ hagree hrun
    exact ⟨z', ⟨y₁, hy₁, hz'⟩, hagree'⟩

end Runs

theorem testsConditions_of_check {subs : OrderedMap String Nat}
    {parsed : List (Toplevel (Statement Node))}
    (hcheck : mapStatements (Statement.typeCheck subs) parsed = .ok program) :
    ForStatements TestsConditions program := by
  intro s hs
  obtain ⟨s₀, -, htyped⟩ := Passed.exists_before (mapStatements_passed hcheck) hs
  exact testsConditions_of_typeCheck htyped

/-- Whenever a program that passed the type check handles its events, the optimised program handles
them too: the variables end with the same values, and the same events were sent in between. -/
theorem optimizeProgram_keeps_runs {subs : OrderedMap String Nat}
    {parsed : List (Toplevel (Statement Node))}
    (hcheck : mapStatements (Statement.typeCheck subs) parsed = .ok program)
    (h : optimizeProgram program = .ok optimized)
    (hk : ForStatements (SubexpressionsKept σ) program)
    (hw : ForStatements NoConstantWhen program) (fuel : Nat) (arrivals : List Arrival) (m : Memory)
    (x : Store)
    (hrun : runEvents σ natives (vectorsOf program) fuel arrivals (Store.initial m) = .ok x) :
    ∃ y, runEvents σ natives (vectorsOf optimized) fuel arrivals (Store.initial m) = .ok y ∧
      y.memory = x.memory ∧ y.emitted = x.emitted := by
  have hinit : StoresAgree (programTestsKept program) (Store.initial m) (Store.initial m) :=
    ⟨rfl, rfl, fun _ _ => rfl⟩
  obtain ⟨y, hy, hagree⟩ := runEvents_optimized h (testsConditions_of_check hcheck) hk hw fuel
    arrivals _ _ x hinit hrun
  exact ⟨y, hy, hagree.memory.symm, hagree.emitted.symm⟩

end Programs

/-- An empty block, then `when x == 1 do y = 2 end`, with `x` and `y` at the addresses 0 and 1. -/
def idleThenWhen : List (Toplevel (Statement Node)) :=
  [.statement (.block {} []), .statement (setWhen (.load {} 0))]

/-- What is left of it: the test has moved to another place. -/
def whenAlone : List (Toplevel (Statement Comparison)) :=
  [.statement (.ifWhen {} true 0 ⟨.equal, .load {} 0, .immediate {} 1⟩
    (.block {} [.assignment ⟨{}, .store {} 1, .immediate {} 2⟩]))]

/-- Between two initialisations `y` is set to 7; the `when` does not fire again. -/
theorem whenAlone_fires_once :
    ∃ y, runEvents emptyingShifts copyNative (vectorsOf whenAlone) 1
        [⟨eventInit, id⟩, ⟨eventInit, fun m => m.write 1 7⟩] (Store.initial fun _ => 1) = .ok y ∧
      y.memory 1 = 7 ∧ y.emitted = [] := by
  have hrun : (runEvents emptyingShifts copyNative (vectorsOf idleThenWhen) 1
      [⟨eventInit, id⟩, ⟨eventInit, fun m => m.write 1 7⟩] (Store.initial fun _ => 1)).toOption.any
        (fun x => decide (x.memory 1 = 7 ∧ x.emitted = [])) = true := by decide +kernel
  obtain ⟨x, hx, hvalues⟩ := Outcome.exists_ok_of_any hrun
  obtain ⟨hx1, hsent⟩ := of_decide_eq_true hvalues
  have hkept : ForStatements (SubexpressionsKept emptyingShifts) idleThenWhen := by
    intro s hs
    simp only [idleThenWhen, List.mem_cons, Toplevel.statement.injEq, List.not_mem_nil,
      or_false] at hs
    obtain rfl | rfl := hs
    · trivial
    · refine ⟨fun m v e' h hv => ?_, assignment_kept _ _ _ _, trivial⟩
      cases h
      exact hv
  have hwhen : ForStatements NoConstantWhen idleThenWhen := by
    intro s hs
    simp only [idleThenWhen, List.mem_cons, Toplevel.statement.injEq, List.not_mem_nil,
      or_false] at hs
    obtain rfl | rfl := hs
    · trivial
    · refine ⟨⟨trivial, trivial⟩, fun _ v hv => ?_⟩
      cases hv
  have hcheck : mapStatements (Statement.typeCheck []) idleThenWhen = .ok idleThenWhen := rfl
  have hopt : optimizeProgram idleThenWhen = .ok whenAlone := rfl
  obtain ⟨y, hy, hmemory, hemitted⟩ :=
    optimizeProgram_keeps_runs hcheck hopt hkept hwhen 1 _ _ x hx
  exact ⟨y, hy, by rw [hmemory, hx1], by rw [hemitted, hsent]⟩

end ThymioDeviceManager.Correctness
