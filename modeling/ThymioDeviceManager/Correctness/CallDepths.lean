import ThymioDeviceManager.Library.LongestChain
import ThymioDeviceManager.Correctness.Linking

/-! # The analysis of call depths

`verifyStackCalls` deepens subroutines round after round until nothing changes or one
does not fit the stack. Every depth it has on the way is the length of a chain of
calls, and at the end no chain is longer than the depth of where it ends.
-/

namespace ThymioDeviceManager.Correctness

open Compiler Library OrderedMap

/-! ## Call chains -/

/-- Subroutine `id` calls subroutine `callee`. -/
def CallsOf (p : PreLinkBytecode) (id callee : Nat) : Prop :=
  ∃ v, p.subroutines.find? id = some v ∧ callee ∈ calledIds v.elements

/-- A chain starts in a subroutine, before its first call, or with a call of an event. -/
def StartsAt (p : PreLinkBytecode) (id n : Nat) : Prop :=
  n = 0 ∧ (p.subroutines.find? id).isSome ∨
    n = 1 ∧ ∃ e ∈ p.events, id ∈ calledIds e.2.elements

/-- A chain of `n` calls that starts in an event or in a subroutine ends in subroutine `id`. -/
abbrev CallChain (p : PreLinkBytecode) (n id : Nat) : Prop :=
  Chain (StartsAt p) (CallsOf p) n id

/-- No event and no chain of calls needs more stack than there is. -/
structure StackSuffices (stackSize : Nat) (p : PreLinkBytecode) : Prop where
  events : ∀ e ∈ p.events, e.2.maxStackDepth ≤ stackSize
  chains : ∀ n id v, CallChain p n id → p.subroutines.find? id = some v →
    n + v.maxStackDepth ≤ stackSize

/-- What the analysis is given: vectors with fresh call depths, that call subroutines that exist. -/
structure Analysable (p : PreLinkBytecode) : Prop where
  fresh : ∀ id v, p.subroutines.find? id = some v → v.callDepth = 0
  eventCalls : ∀ e ∈ p.events, ∀ id ∈ calledIds e.2.elements, (p.subroutines.find? id).isSome
  calls : ∀ id callee, CallsOf p id callee → (p.subroutines.find? callee).isSome

/-! ## Depths -/

/-- The call depth of a subroutine, 0 if there is none. -/
def depthOf (subs : OrderedMap Nat BytecodeVector) (id : Nat) : Nat :=
  ((subs.find? id).map BytecodeVector.callDepth).getD 0

theorem depthOf_of_find? {subs : OrderedMap Nat BytecodeVector} {id : Nat} {v : BytecodeVector}
    (h : subs.find? id = some v) : depthOf subs id = v.callDepth := by
  rw [depthOf, h]
  rfl

/-- The subroutines of `p` with depths that chains of calls have, within `bound`. -/
structure Deepened (p : PreLinkBytecode) (bound : Nat) (subs : OrderedMap Nat BytecodeVector) :
    Prop where
  keys : subs.map Prod.fst = p.subroutines.map Prod.fst
  code : ∀ id, (subs.find? id).map (fun v => (v.elements, v.maxStackDepth)) =
    (p.subroutines.find? id).map fun v => (v.elements, v.maxStackDepth)
  attained : ∀ id v, subs.find? id = some v → CallChain p v.callDepth id
  bounded : ∀ id v, subs.find? id = some v → v.callDepth ≤ bound

/-- The depths may only have grown. -/
def Deeper (subs subs' : OrderedMap Nat BytecodeVector) : Prop :=
  ∀ id, depthOf subs id ≤ depthOf subs' id

theorem Deeper.refl (subs : OrderedMap Nat BytecodeVector) : Deeper subs subs := fun _ => le_rfl

theorem Deeper.trans {a b c : OrderedMap Nat BytecodeVector} (hab : Deeper a b)
    (hbc : Deeper b c) : Deeper a c := fun id => (hab id).trans (hbc id)

section Depths

variable {p : PreLinkBytecode} {bound : Nat} {subs : OrderedMap Nat BytecodeVector} {id : Nat}

theorem Deepened.find_original (h : Deepened p bound subs) {v : BytecodeVector}
    (hv : subs.find? id = some v) : ∃ v₀, p.subroutines.find? id = some v₀ ∧
      v₀.elements = v.elements ∧ v₀.maxStackDepth = v.maxStackDepth := by
  have hcode := h.code id
  rw [hv, Option.map_some] at hcode
  obtain ⟨v₀, hv₀, heq⟩ := Option.map_eq_some_iff.mp hcode.symm
  exact ⟨v₀, hv₀, (Prod.mk.inj heq).1, (Prod.mk.inj heq).2⟩

theorem Deepened.exists_find (h : Deepened p bound subs)
    (hid : (p.subroutines.find? id).isSome) : ∃ v, subs.find? id = some v := by
  obtain ⟨v₀, hv₀⟩ := Option.isSome_iff_exists.mp hid
  have hcode := h.code id
  rw [hv₀, Option.map_some] at hcode
  obtain ⟨v, hv, -⟩ := Option.map_eq_some_iff.mp hcode
  exact ⟨v, hv⟩

theorem Deepened.callsOf (h : Deepened p bound subs) {v : BytecodeVector} {callee : Nat}
    (hv : subs.find? id = some v) (hcall : callee ∈ calledIds v.elements) :
    CallsOf p id callee := by
  obtain ⟨v₀, hv₀, helements, -⟩ := h.find_original hv
  exact ⟨v₀, hv₀, helements ▸ hcall⟩

/-- The subroutines with one of them at another depth. -/
def setDepth (subs : OrderedMap Nat BytecodeVector) (id depth : Nat) :
    OrderedMap Nat BytecodeVector :=
  subs.modify id fun v => { v with callDepth := depth }

theorem depthOf_setDepth (subs : OrderedMap Nat BytecodeVector) (id depth id' : Nat) :
    depthOf (setDepth subs id depth) id' =
      if id = id' ∧ (subs.find? id).isSome then depth else depthOf subs id' := by
  unfold depthOf setDepth
  rw [find?_modify]
  by_cases hid : id = id'
  · subst hid
    cases subs.find? id <;> simp
  · simp [hid]

theorem deeper_setDepth {depth : Nat} (hdepth : depthOf subs id ≤ depth) :
    Deeper subs (setDepth subs id depth) := by
  intro id'
  rw [depthOf_setDepth]
  split_ifs with h
  · exact h.1 ▸ hdepth
  · exact le_rfl

/-- A subroutine takes the depth of a chain that ends there. -/
theorem Deepened.setDepth (h : Deepened p bound subs) {depth : Nat} (hchain : CallChain p depth id)
    (hdepth : depth ≤ bound) : Deepened p bound (setDepth subs id depth) := by
  have hfind : ∀ id' v, (Correctness.setDepth subs id depth).find? id' = some v →
      subs.find? id' = some v ∨ id = id' ∧ v.callDepth = depth := by
    intro id' v hv
    rw [Correctness.setDepth, find?_modify] at hv
    split_ifs at hv with hid
    · obtain ⟨w, -, rfl⟩ := Option.map_eq_some_iff.mp hv
      exact .inr ⟨hid, rfl⟩
    · exact .inl hv
  constructor
  · rw [Correctness.setDepth, modify_keys, h.keys]
  · intro id'
    rw [← h.code id', Correctness.setDepth, find?_modify]
    split_ifs with hid
    · subst hid
      cases subs.find? id <;> rfl
    · rfl
  · intro id' v hv
    rcases hfind id' v hv with hv | ⟨rfl, rfl⟩
    · exact h.attained id' v hv
    · exact hchain
  · intro id' v hv
    rcases hfind id' v hv with hv | ⟨rfl, rfl⟩
    · exact h.bounded id' v hv
    · exact hdepth

end Depths

/-! ## Events -/

section Events

variable {p : PreLinkBytecode} {subs : OrderedMap Nat BytecodeVector}

/-- Depths as the loop over the events leaves them: at most one call deep. -/
abbrev Shallow (p : PreLinkBytecode) (subs : OrderedMap Nat BytecodeVector) : Prop :=
  Deepened p 1 subs

theorem Deepened.depthOf_le {bound : Nat} (h : Deepened p bound subs) (id : Nat) :
    depthOf subs id ≤ bound := by
  unfold depthOf
  cases hv : subs.find? id with
  | none => exact Nat.zero_le _
  | some v => exact h.bounded id v hv

theorem markCalled_spec (hA : Analysable p) {e : Nat × BytecodeVector} (he : e ∈ p.events) :
    ∀ (ids : List Nat) (subs : OrderedMap Nat BytecodeVector),
      (∀ id ∈ ids, id ∈ calledIds e.2.elements) → Shallow p subs →
      ∃ subs', markCalled subs ids = .ok subs' ∧ Shallow p subs' ∧ Deeper subs subs' ∧
        ∀ id ∈ ids, 1 ≤ depthOf subs' id := by
  intro ids
  induction ids with
  | nil => exact fun subs _ h => ⟨subs, rfl, h, .refl subs, fun id hid => by cases hid⟩
  | cons id ids ih =>
    intro subs hids h
    have hcalled := hids id List.mem_cons_self
    obtain ⟨v, hv⟩ := h.exists_find (hA.eventCalls e he id hcalled)
    have hdeeper := deeper_setDepth (h.depthOf_le id)
    obtain ⟨subs', hrun, hshallow, hdeeper', hmarked⟩ := ih (setDepth subs id 1)
      (fun id' hid' => hids id' (List.mem_cons_of_mem id hid'))
      (h.setDepth (.root (.inr ⟨rfl, e, he, hcalled⟩)) le_rfl)
    refine ⟨subs', ?_, hshallow, hdeeper.trans hdeeper', fun id' hid' => ?_⟩
    · rw [markCalled, hv]
      exact hrun
    · rcases List.mem_cons.mp hid' with rfl | hid'
      · have hset : depthOf (setDepth subs id' 1) id' = 1 := by
          rw [depthOf_setDepth, hv]
          simp
        exact hset ▸ hdeeper' id'
      · exact hmarked id' hid'

/-- The loop over the events ends with an event that does not fit, or with all that they call
one deep. -/
theorem verifyEvents_spec (stackSize : Nat) (hA : Analysable p) :
    ∀ (evs : List (Nat × BytecodeVector)) (subs : OrderedMap Nat BytecodeVector),
      (∀ e ∈ evs, e ∈ p.events) → Shallow p subs →
      (verifyEvents stackSize subs evs = .ok none ∧ ∃ e ∈ p.events, stackSize < e.2.maxStackDepth) ∨
      ∃ subs', verifyEvents stackSize subs evs = .ok (some subs') ∧ Shallow p subs' ∧
        Deeper subs subs' ∧ ∀ e ∈ evs, e.2.maxStackDepth ≤ stackSize ∧
          ∀ id ∈ calledIds e.2.elements, 1 ≤ depthOf subs' id := by
  intro evs
  induction evs with
  | nil => exact fun subs _ h => .inr ⟨subs, rfl, h, .refl subs, fun e he => by cases he⟩
  | cons e evs ih =>
    intro subs hevs h
    have he := hevs e List.mem_cons_self
    by_cases hfits : e.2.maxStackDepth > stackSize
    · exact .inl ⟨by rw [verifyEvents, if_pos hfits]; rfl, e, he, hfits⟩
    · obtain ⟨subs₁, hmark, h₁, hdeeper₁, hcalled⟩ := markCalled_spec hA he _ subs (fun _ h => h) h
      have hrun : verifyEvents stackSize subs (e :: evs) = verifyEvents stackSize subs₁ evs := by
        rw [verifyEvents, if_neg hfits, hmark]
        rfl
      rw [hrun]
      refine (ih subs₁ (fun e' he' => hevs e' (List.mem_cons_of_mem e he')) h₁).imp_right ?_
      rintro ⟨subs', hok, h', hdeeper', hall⟩
      refine ⟨subs', hok, h', hdeeper₁.trans hdeeper', fun e' he' => ?_⟩
      rcases List.mem_cons.mp he' with rfl | he'
      · exact ⟨not_lt.mp hfits, fun id hid => (hcalled id hid).trans (hdeeper' id)⟩
      · exact hall e' he'

end Events

/-! ## Rounds -/

section Rounds

variable {p : PreLinkBytecode} {stackSize : Nat}

/-- Some subroutine has got deeper. -/
def Active (subs subs' : OrderedMap Nat BytecodeVector) : Prop :=
  ∃ id, depthOf subs id < depthOf subs' id

theorem deepen_spec (hA : Analysable p) {caller depth : Nat} (hcaller : CallChain p depth caller)
    (hdepth : depth ≤ stackSize) :
    ∀ (ids : List Nat) (subs : OrderedMap Nat BytecodeVector) (wasActivity : Bool),
      (∀ id ∈ ids, CallsOf p caller id) → Deepened p (stackSize + 1) subs →
      ∃ activity subs', deepen depth wasActivity subs ids = .ok (activity, subs') ∧
        Deepened p (stackSize + 1) subs' ∧ Deeper subs subs' ∧
        (activity = true → wasActivity = true ∨ Active subs subs') ∧
        (activity = false → wasActivity = false ∧ subs' = subs ∧
          ∀ id ∈ ids, depth + 1 ≤ depthOf subs id) := by
  intro ids
  induction ids with
  | nil =>
    intro subs wasActivity _ h
    exact ⟨wasActivity, subs, rfl, h, .refl subs, .inl,
      fun hw => ⟨hw, rfl, fun id hid => by cases hid⟩⟩
  | cons id ids ih =>
    intro subs wasActivity hids h
    have hcall := hids id List.mem_cons_self
    have hrest := fun id' (hid' : id' ∈ ids) => hids id' (List.mem_cons_of_mem id hid')
    obtain ⟨v, hv⟩ := h.exists_find (hA.calls caller id hcall)
    by_cases hlow : depth + 1 > v.callDepth
    · have hdeeper : depthOf subs id < depthOf (setDepth subs id (depth + 1)) id := by
        rw [depthOf_setDepth, depthOf_of_find? hv, hv, if_pos ⟨rfl, rfl⟩]
        exact hlow
      have hset := deeper_setDepth (depthOf_of_find? hv ▸ hlow.le)
      obtain ⟨activity, subs', hrun, h', hdeeper', hactive, hquiet⟩ := ih (setDepth subs id (depth + 1))
        true hrest (h.setDepth (hcaller.step hcall) (by omega))
      refine ⟨activity, subs', ?_, h', hset.trans hdeeper', fun _ => ?_, fun hno => ?_⟩
      · rw [deepen, hv]
        simp only [if_pos hlow]
        exact hrun
      · exact .inr ⟨id, hdeeper.trans_le (hdeeper' id)⟩
      · cases (hquiet hno).1
    · obtain ⟨activity, subs', hrun, h', hdeeper', hactive, hquiet⟩ := ih subs wasActivity hrest h
      refine ⟨activity, subs', ?_, h', hdeeper', hactive, fun hno => ?_⟩
      · rw [deepen, hv]
        simp only [if_neg hlow]
        exact hrun
      · obtain ⟨hwas, hsame, hdeep⟩ := hquiet hno
        refine ⟨hwas, hsame, fun id' hid' => ?_⟩
        rcases List.mem_cons.mp hid' with rfl | hid'
        · rw [depthOf_of_find? hv]
          exact not_lt.mp hlow
        · exact hdeep id' hid'

/-- A subroutine fits the stack at its depth, and what it calls is deeper. -/
def Settled (stackSize : Nat) (subs : OrderedMap Nat BytecodeVector) (id : Nat) : Prop :=
  ∀ v, subs.find? id = some v → v.callDepth + v.maxStackDepth ≤ stackSize ∧
    ∀ callee ∈ calledIds v.elements, v.callDepth + 1 ≤ depthOf subs callee

/-- Some chain of calls does not fit the stack. -/
def Overflows (stackSize : Nat) (p : PreLinkBytecode) : Prop :=
  ∃ n id v, CallChain p n id ∧ p.subroutines.find? id = some v ∧ stackSize < n + v.maxStackDepth

/-- A round finds a chain that does not fit, or makes some subroutine deeper, or leaves the
subroutines as they are, all of them settled. -/
theorem verifyRound_spec (hA : Analysable p) :
    ∀ (ids : List Nat) (subs : OrderedMap Nat BytecodeVector) (wasActivity : Bool),
      (∀ id ∈ ids, (p.subroutines.find? id).isSome) → Deepened p (stackSize + 1) subs →
      (verifyRound stackSize wasActivity subs ids = .ok none ∧ Overflows stackSize p) ∨
      ∃ activity subs', verifyRound stackSize wasActivity subs ids = .ok (some (activity, subs')) ∧
        Deepened p (stackSize + 1) subs' ∧ Deeper subs subs' ∧
        (activity = true → wasActivity = true ∨ Active subs subs') ∧
        (activity = false → wasActivity = false ∧ subs' = subs ∧
          ∀ id ∈ ids, Settled stackSize subs id) := by
  intro ids
  induction ids with
  | nil =>
    intro subs wasActivity _ h
    exact .inr ⟨wasActivity, subs, rfl, h, .refl subs, .inl,
      fun hw => ⟨hw, rfl, fun id hid => by cases hid⟩⟩
  | cons id ids ih =>
    intro subs wasActivity hids h
    obtain ⟨v, hv⟩ := h.exists_find (hids id List.mem_cons_self)
    have hchain := h.attained id v hv
    by_cases hfits : v.callDepth + v.maxStackDepth > stackSize
    · obtain ⟨v₀, hv₀, -, hmax⟩ := h.find_original hv
      refine .inl ⟨?_, v.callDepth, id, v₀, hchain, hv₀, hmax ▸ hfits⟩
      rw [verifyRound, hv]
      simp only [if_pos hfits]
      rfl
    · obtain ⟨activity₁, subs₁, hdeepen, h₁, hdeeper₁, hactive₁, hquiet₁⟩ :=
        deepen_spec hA hchain (by omega) (calledIds v.elements) subs wasActivity
          (fun _ hcall => h.callsOf hv hcall) h
      have hrun : verifyRound stackSize wasActivity subs (id :: ids) =
          verifyRound stackSize activity₁ subs₁ ids := by
        rw [verifyRound, hv]
        simp only [if_neg hfits]
        rw [hdeepen]
        rfl
      rw [hrun]
      refine (ih subs₁ activity₁ (fun id' hid' => hids id' (List.mem_cons_of_mem id hid'))
        h₁).imp_right ?_
      rintro ⟨activity, subs', hok, h', hdeeper', hactive, hquiet⟩
      refine ⟨activity, subs', hok, h', hdeeper₁.trans hdeeper', fun hyes => ?_, fun hno => ?_⟩
      · rcases hactive hyes with hyes | ⟨id', hlt⟩
        · exact (hactive₁ hyes).imp_right fun ⟨id', hlt⟩ => ⟨id', hlt.trans_le (hdeeper' id')⟩
        · exact .inr ⟨id', (hdeeper₁ id').trans_lt hlt⟩
      · obtain ⟨hno₁, rfl, hsettled⟩ := hquiet hno
        obtain ⟨hwas, rfl, hcallees⟩ := hquiet₁ hno₁
        refine ⟨hwas, rfl, fun id' hid' => ?_⟩
        rcases List.mem_cons.mp hid' with rfl | hid'
        · intro w hw
          cases hv.symm.trans hw
          exact ⟨not_lt.mp hfits, hcallees⟩
        · exact hsettled id' hid'

/-- What deepens has been taken from the slack of the depths. -/
theorem Deepened.slack_lt {subs subs' : OrderedMap Nat BytecodeVector}
    (h' : Deepened p (stackSize + 1) subs')
    (hdeeper : Deeper subs subs') (hactive : Active subs subs') :
    slack (stackSize + 1) (p.subroutines.map Prod.fst) (depthOf subs') <
      slack (stackSize + 1) (p.subroutines.map Prod.fst) (depthOf subs) := by
  obtain ⟨id, hlt⟩ := hactive
  refine Library.slack_lt hdeeper ?_ hlt (h'.depthOf_le id)
  rw [← h'.keys, ← isSome_find?_iff]
  by_contra hnone
  have hzero : depthOf subs' id = 0 := by
    rw [depthOf, Option.not_isSome_iff_eq_none.mp hnone]
    rfl
  omega

/-- When all subroutines are settled and what the events call is deep enough, no chain of calls
is longer than the depth of where it ends. -/
theorem not_overflows_of_settled {subs : OrderedMap Nat BytecodeVector}
    (h : Deepened p (stackSize + 1) subs)
    (hcalled : ∀ e ∈ p.events, ∀ id ∈ calledIds e.2.elements, 1 ≤ depthOf subs id)
    (hsettled : ∀ id, (p.subroutines.find? id).isSome → Settled stackSize subs id) :
    ¬ Overflows stackSize p := by
  have hle : ∀ {n id}, CallChain p n id → n ≤ depthOf subs id := by
    intro n id hchain
    refine hchain.le_of_closed ?_ ?_
    · rintro i m (⟨rfl, -⟩ | ⟨rfl, e, he, hid⟩)
      · exact Nat.zero_le _
      · exact hcalled e he i hid
    · rintro i j ⟨v₀, hv₀, hcall⟩
      have hsome : (p.subroutines.find? i).isSome := by rw [hv₀]; rfl
      obtain ⟨v, hv⟩ := h.exists_find hsome
      obtain ⟨v₁, hv₁, helements, -⟩ := h.find_original hv
      cases hv₀.symm.trans hv₁
      rw [depthOf_of_find? hv]
      exact (hsettled i hsome v hv).2 j (helements ▸ hcall)
  rintro ⟨n, id, v₀, hchain, hv₀, hlt⟩
  have hsome : (p.subroutines.find? id).isSome := by rw [hv₀]; rfl
  obtain ⟨v, hv⟩ := h.exists_find hsome
  obtain ⟨v₁, hv₁, -, hmax⟩ := h.find_original hv
  cases hv₀.symm.trans hv₁
  have hfits := (hsettled id hsome v hv).1
  have hn := hle hchain
  rw [depthOf_of_find? hv] at hn
  omega

/-- The rounds end, with the answer whether some chain overflows. -/
theorem verifyRounds_spec (hA : Analysable p) (fuel : Nat) :
    ∀ {subs : OrderedMap Nat BytecodeVector}, Deepened p (stackSize + 1) subs →
      (∀ e ∈ p.events, ∀ id ∈ calledIds e.2.elements, 1 ≤ depthOf subs id) →
      slack (stackSize + 1) (p.subroutines.map Prod.fst) (depthOf subs) < fuel →
      ∃ b, verifyRounds stackSize fuel subs = .ok b ∧ (b = true ↔ ¬ Overflows stackSize p) := by
  induction fuel with
  | zero => exact fun _ _ hlt => absurd hlt (Nat.not_lt_zero _)
  | succ fuel ih =>
    intro subs h hcalled hlt
    have hkeys : ∀ id, id ∈ subs.map Prod.fst ↔ (p.subroutines.find? id).isSome := fun id => by
      rw [h.keys, isSome_find?_iff]
    rcases verifyRound_spec hA _ subs false (fun id => (hkeys id).mp) h with
      ⟨hround, hover⟩ | ⟨activity, subs', hround, h', hdeeper, hactive, hquiet⟩
    · refine ⟨false, by rw [verifyRounds, hround]; rfl, ?_⟩
      simpa using hover
    · cases activity with
      | true =>
        have hslack := h'.slack_lt hdeeper ((hactive rfl).resolve_left (by decide))
        obtain ⟨b, hrun, hb⟩ := ih h'
          (fun e he id hid => (hcalled e he id hid).trans (hdeeper id)) (by omega)
        exact ⟨b, by rw [verifyRounds, hround]; exact hrun, hb⟩
      | false =>
        obtain ⟨-, -, hsettled⟩ := hquiet rfl
        refine ⟨true, by rw [verifyRounds, hround]; rfl, iff_of_true rfl ?_⟩
        exact not_overflows_of_settled h hcalled fun id hid => hsettled id ((hkeys id).mpr hid)

end Rounds

/-! ## Generated programs -/

variable {p : PreLinkBytecode}

/-- The call depths of the subroutines are those of new vectors. -/
def Fresh (p : PreLinkBytecode) : Prop := ∀ q ∈ p.subroutines, q.2.callDepth = 0

theorem Fresh.modifyAt (h : Fresh p) (current : CurrentBytecode) {f : BytecodeVector → BytecodeVector}
    (hf : ∀ v, (f v).callDepth = v.callDepth) : Fresh (p.modifyAt current f) := by
  cases current with
  | event id => exact h
  | subroutine id =>
    exact forall_modify (P := fun v : BytecodeVector => v.callDepth = 0) h
      fun v hv => (hf v).trans hv

theorem Fresh.emitToplevel (h : Fresh p) {c : Toplevel (Statement Comparison)}
    {p' : PreLinkBytecode} (hc : emitToplevel p c = .ok p') : Fresh p' := by
  cases c with
  | statement s =>
    obtain ⟨code, -, heq⟩ := Outcome.bind_eq_ok.mp hc
    cases heq
    exact h.modifyAt _ fun _ => rfl
  | eventDecl pos id =>
    obtain ⟨-, -, heq⟩ := Outcome.bind_eq_ok.mp hc
    cases heq
    exact h
  | subDecl pos id =>
    obtain ⟨-, -, heq⟩ := Outcome.bind_eq_ok.mp hc
    cases heq
    intro q hq
    rcases mem_insert hq with rfl | hq
    · rfl
    · exact h q hq

theorem Fresh.emitChildren {children : List (Toplevel (Statement Comparison))}
    {p' : PreLinkBytecode} (h : Fresh p) (hc : emitChildren p children = .ok p') : Fresh p' := by
  induction children generalizing p with
  | nil =>
    cases hc
    exact h
  | cons c rest ih =>
    obtain ⟨q, hq, hrest⟩ := Outcome.bind_eq_ok.mp hc
    exact ih (h.emitToplevel hq) hrest

theorem Fresh.recordStackDepths (children : List (Toplevel (Statement Comparison))) :
    ∀ {p : PreLinkBytecode} {current : CurrentBytecode} {depth : Nat}, Fresh p →
      Fresh (recordStackDepths p current depth children) := by
  induction children with
  | nil => exact fun h => h.modifyAt _ fun _ => rfl
  | cons c rest ih =>
    intro p current depth h
    cases c with
    | statement s => exact ih h
    | eventDecl pos id => exact ih (h.modifyAt _ fun _ => rfl)
    | subDecl pos id => exact ih (h.modifyAt _ fun _ => rfl)

theorem closeSubroutine_callDepth (line : UInt32) (v : BytecodeVector) :
    (closeSubroutine line v).callDepth = v.callDepth := by
  unfold closeSubroutine
  dsimp only
  split_ifs <;> rfl

/-- The analysis is given new vectors. -/
theorem fresh_emitted {children : List (Toplevel (Statement Comparison))}
    {emitted : PreLinkBytecode} (h : emitProgram children = .ok emitted)
    (table : List SubroutineDescriptor) : Fresh (emitted.fixup table) := by
  obtain ⟨q, hq, heq⟩ := Outcome.bind_eq_ok.mp h
  cases heq
  have hnew : Fresh PreLinkBytecode.new := fun _ hmem => by cases hmem
  have hfresh : Fresh (recordStackDepths q (.event eventInit) 0 children) :=
    .recordStackDepths children (hnew.emitChildren hq)
  intro v hv
  obtain ⟨w, hw, rfl⟩ := List.mem_map.mp hv
  exact (closeSubroutine_callDepth _ _).trans (hfresh w hw)

theorem mem_calledIds {v : BytecodeVector} {id : Nat} :
    id ∈ calledIds v.elements ↔ ∃ i, (i, id) ∈ vectorCalls v := by
  simp [calledIds, vectorCalls, isCall, and_assoc]

/-- What fixing up a generated program guarantees is enough for the analysis. -/
theorem Prelinked.analysable {table : List SubroutineDescriptor} (hp : Prelinked p table)
    (hfresh : Fresh p) : Analysable p := by
  have hfound : ∀ id < table.length, (p.subroutines.find? id).isSome := by
    intro id hid
    rw [isSome_find?_iff, hp.subroutineIds]
    exact List.mem_range.mpr hid
  refine ⟨fun id v hv => hfresh _ (mem_of_find? hv), fun e he id hid => ?_, ?_⟩
  · obtain ⟨i, hi⟩ := mem_calledIds.mp hid
    exact hfound id (hp.calls e (List.mem_append_left _ he) _ hi)
  · rintro id callee ⟨v, hv, hcall⟩
    obtain ⟨i, hi⟩ := mem_calledIds.mp hcall
    exact hfound callee (hp.calls _ (List.mem_append_right _ (mem_of_find? hv)) _ hi)

/-! ## The analysis -/

theorem deepened_fresh (hA : Analysable p) {bound : Nat} : Deepened p bound p.subroutines where
  keys := rfl
  code _ := rfl
  attained id v hv := by
    rw [hA.fresh id v hv]
    exact .root (.inl ⟨rfl, by rw [hv]; rfl⟩)
  bounded id v hv := by
    rw [hA.fresh id v hv]
    exact Nat.zero_le _

theorem Deepened.mono {bound bound' : Nat} {subs : OrderedMap Nat BytecodeVector}
    (h : Deepened p bound subs) (hle : bound ≤ bound') : Deepened p bound' subs :=
  { h with bounded := fun id v hv => (h.bounded id v hv).trans hle }

theorem stackSuffices_iff {stackSize : Nat} : StackSuffices stackSize p ↔
    (∀ e ∈ p.events, e.2.maxStackDepth ≤ stackSize) ∧ ¬ Overflows stackSize p := by
  constructor
  · rintro ⟨hevents, hchains⟩
    exact ⟨hevents, fun ⟨n, id, v, hchain, hv, hlt⟩ => absurd (hchains n id v hchain hv) (by omega)⟩
  · rintro ⟨hevents, hover⟩
    refine ⟨hevents, fun n id v hchain hv => ?_⟩
    by_contra hlt
    exact hover ⟨n, id, v, hchain, hv, by omega⟩

theorem not_stackSuffices_of_cycle {stackSize id : Nat} (h : Relation.TransGen (CallsOf p) id id) :
    ¬ StackSuffices stackSize p := by
  have hfound : ∃ v, p.subroutines.find? id = some v := by
    obtain ⟨callee, ⟨v, hv, -⟩, -⟩ := Relation.TransGen.head'_iff.mp h
    exact ⟨v, hv⟩
  obtain ⟨v, hv⟩ := hfound
  have hstart : CallChain p 0 id := .root (.inl ⟨rfl, by rw [hv]; rfl⟩)
  obtain ⟨n, hlt, hchain⟩ := hstart.exists_gt_of_cycle h stackSize
  intro hs
  have := hs.chains n id v hchain hv
  omega

theorem verifyStackCalls_spec (td : TargetDescription) (hA : Analysable p) :
    ∃ b, verifyStackCalls td p = .ok b ∧ (b = true ↔ StackSuffices td.stackSize p) := by
  rw [stackSuffices_iff]
  rcases verifyEvents_spec td.stackSize hA p.events p.subroutines (fun _ he => he)
    (deepened_fresh hA) with ⟨hrun, e, he, hlt⟩ | ⟨subs, hrun, h, -, hevents⟩
  · refine ⟨false, by rw [verifyStackCalls, hrun]; rfl, ?_⟩
    simp only [Bool.false_eq_true, false_iff, not_and]
    exact fun hfits => absurd (hfits e he) (by omega)
  · have hlength : subs.length = p.subroutines.length := by
      simpa using congrArg List.length h.keys
    have hslack := slack_le (td.stackSize + 1) (p.subroutines.map Prod.fst) (depthOf subs)
    rw [List.length_map] at hslack
    obtain ⟨b, hrounds, hb⟩ := verifyRounds_spec hA
      (subs.length * (td.stackSize + 2) + 1) (h.mono (by omega))
      (fun e he => (hevents e he).2) (by
        rw [hlength]
        exact Nat.lt_succ_of_le (hslack.trans (Nat.mul_le_mul_left _ (by omega))))
    refine ⟨b, by rw [verifyStackCalls, hrun]; exact hrounds, hb.trans ?_⟩
    exact ⟨fun hover => ⟨fun e he => (hevents e he).1, hover⟩, And.right⟩

/-- The analysis ends. It accepts exactly when the stack suffices for all events and chains of
calls, and so no recursive program. -/
theorem verifyStackCalls_exact (td : TargetDescription) (hA : Analysable p) :
    ∃ b, verifyStackCalls td p = .ok b ∧ (b = true ↔ StackSuffices td.stackSize p) ∧
      ((∃ id, Relation.TransGen (CallsOf p) id id) → b = false) := by
  obtain ⟨b, hrun, hb⟩ := verifyStackCalls_spec td hA
  refine ⟨b, hrun, hb, fun ⟨id, hcycle⟩ => ?_⟩
  rw [← Bool.not_eq_true, hb]
  exact not_stackSuffices_of_cycle hcycle

/-- Two subroutines that call each other, and an event that calls none of them. -/
def mutualCalls : PreLinkBytecode where
  events := [(0xfffe, { elements := [⟨0x0000, 1⟩] })]
  subroutines := [(0, { elements := [⟨0xd001, 2⟩, ⟨0xe000, 2⟩] }),
    (1, { elements := [⟨0xd000, 3⟩, ⟨0xe000, 3⟩] })]
  current := .subroutine 0

theorem mutualCalls_rejected : Analysable mutualCalls ∧
    ∃ b, verifyStackCalls ⟨100, 100, 32, [], [], []⟩ mutualCalls = .ok b ∧
      (b = true ↔ StackSuffices 32 mutualCalls) ∧
      ((∃ id, Relation.TransGen (CallsOf mutualCalls) id id) → b = false) := by
  have hp : Prelinked mutualCalls [⟨"a", 0, 2⟩, ⟨"b", 0, 3⟩] := by
    constructor
    · exact List.pairwise_singleton _ _
    all_goals decide
  have hfresh : ∀ q ∈ mutualCalls.subroutines, q.2.callDepth = 0 := by decide
  have hA : Analysable mutualCalls := hp.analysable hfresh
  exact ⟨hA, verifyStackCalls_exact ⟨100, 100, 32, [], [], []⟩ hA⟩

end ThymioDeviceManager.Correctness
