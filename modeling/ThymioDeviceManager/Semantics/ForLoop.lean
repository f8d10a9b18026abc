import Mathlib.Tactic.Ring
import ThymioDeviceManager.Semantics.Statement

/-! # The rounds of a loop

Where the body of a loop starts, round by round, and the values that a range with a
step names. A loop whose condition tests a counter that its body moves by the step
visits the values of the range, as long as the counter stays within 16 bits.
-/

namespace ThymioDeviceManager.Semantics

open Compiler Library Machine

/-! ## Ranges -/

/-- The number of values from `start` in steps that do not pass `last`. -/
def rangeCount (start last step : Int) : Nat := (last - start).natAbs / step.natAbs + 1

/-- `start`, `start + step`, ... as far as they do not pass `last`. -/
def rangeValues (start last step : Int) : List Int :=
  (List.range (rangeCount start last step)).map fun i : Nat => start + step * i

/-- The value does not pass the end of a range. -/
def withinRange (last step v : Int) : Prop := if 0 < step then v ≤ last else last ≤ v

/-- The range goes from `start` to `last` in the direction of its step. -/
def Advances (start last step : Int) : Prop := 0 < step ∧ start ≤ last ∨ step < 0 ∧ last ≤ start

theorem withinRange_iff {start last step : Int} (h : Advances start last step) (i : Nat) :
    withinRange last step (start + step * i) ↔ i < rangeCount start last step := by
  have hstep : 0 < step.natAbs := by
    rcases h with ⟨h, -⟩ | ⟨h, -⟩ <;> omega
  rw [rangeCount, Nat.lt_succ_iff, Nat.le_div_iff_mul_le hstep, ← Int.ofNat_le, Int.natCast_mul,
    Int.natCast_natAbs, Int.natCast_natAbs, withinRange]
  rcases h with ⟨hpos, hle⟩ | ⟨hneg, hle⟩
  · rw [if_pos hpos, abs_of_pos hpos, abs_of_nonneg (by omega), mul_comm step]
    omega
  · rw [if_neg (by omega), abs_of_neg hneg, abs_of_nonpos (by omega), mul_comm step, mul_neg]
    omega

/-- A 16-bit value. -/
def FitsWord (v : Int) : Prop := -32768 ≤ v ∧ v ≤ 32767

instance (v : Int) : Decidable (FitsWord v) := inferInstanceAs (Decidable (_ ∧ _))

theorem toInt_word {v : Int} (h : FitsWord v) : (word v).toInt = v := by
  obtain ⟨hlow, hhigh⟩ := h
  rw [word, BitVec.toInt_ofInt]
  exact Int.bmod_eq_of_le (by omega) (by omega)

/-! ## Rounds -/

section Rounds

variable (σ : WideShifts) {κ : Type} [Condition κ]

/-- The configurations in which a loop starts its body, in order. -/
def loopStarts (cond : κ) (body : Config → Run Ending) : Nat → Config → Run (List Config)
  | 0, _ => .crash .outOfFuel
  | fuel + 1, c => do
    let b ← Condition.holds σ c.world.memory cond
    if b then
      let e ← body c
      match e.status with
      | .running => do
        let rest ← loopStarts cond body fuel ⟨e.world, e.flags⟩
        pure (c :: rest)
      | .returned => pure [c]
    else pure []

variable {σ} {cond : κ} {body : Config → Run Ending}

theorem loopStarts_round {fuel : Nat} {c : Config} {e : Ending}
    (hcond : Condition.holds σ c.world.memory cond = .ok true) (hbody : body c = .ok e)
    (he : e.status = .running) : loopStarts σ cond body (fuel + 1) c =
      (loopStarts σ cond body fuel ⟨e.world, e.flags⟩ >>= fun rest => pure (c :: rest)) := by
  rw [loopStarts, hcond]
  simp only [Outcome.ok_bind, if_true, hbody, he]

theorem loopStarts_done {fuel : Nat} {c : Config}
    (hcond : Condition.holds σ c.world.memory cond = .ok false) :
    loopStarts σ cond body (fuel + 1) c = .ok [] := by
  rw [loopStarts, hcond]
  rfl

theorem iterate_round {fuel : Nat} {c : Config} {e : Ending}
    (hcond : Condition.holds σ c.world.memory cond = .ok true) (hbody : body c = .ok e)
    (he : e.status = .running) :
    iterate .outOfFuel (whileRound σ cond body) (fuel + 1) c =
      iterate .outOfFuel (whileRound σ cond body) fuel ⟨e.world, e.flags⟩ := by
  rw [Iterate.iterate_succ, whileRound, hcond]
  simp only [Outcome.ok_bind, if_true, hbody, he, Outcome.pure_eq]

theorem iterate_done {fuel : Nat} {c : Config}
    (hcond : Condition.holds σ c.world.memory cond = .ok false) :
    iterate .outOfFuel (whileRound σ cond body) (fuel + 1) c =
      .ok ⟨.running, c.world, c.flags⟩ := by
  rw [Iterate.iterate_succ, whileRound, hcond]
  rfl

end Rounds

/-! ## Counters -/

section Counters

variable {σ : WideShifts} {κ : Type} [Condition κ] {cond : κ} {body : Nat → Config → Run Ending}
  {addr : Nat} {last step : Int}

/-- The counter, as a number. -/
def counter (addr : Nat) (c : Config) : Int := (c.world.memory addr).toInt

/-- The condition of a loop tests the counter against the end of the range. -/
def TestsRange (σ : WideShifts) (cond : κ) (addr : Nat) (last step : Int) : Prop :=
  ∀ m : Memory, ∃ b, Condition.holds σ m cond = .ok b ∧
    (b = true ↔ withinRange last step (m addr).toInt)

/-- The body falls through if it has fuel enough, with the counter moved by the step. -/
def MovesCounter (body : Nat → Config → Run Ending) (addr : Nat) (step : Int) : Prop :=
  ∀ c, ∃ e n, (∀ fuel ≥ n, body fuel c = .ok e) ∧ e.status = .running ∧
    e.world.memory addr = c.world.memory addr + word step

theorem TestsRange.holds_true (h : TestsRange σ cond addr last step) {c : Config}
    (hc : withinRange last step (counter addr c)) :
    Condition.holds σ c.world.memory cond = .ok true := by
  obtain ⟨b, hb, hiff⟩ := h c.world.memory
  rw [hb, hiff.mpr hc]

theorem TestsRange.holds_false (h : TestsRange σ cond addr last step) {c : Config}
    (hc : ¬ withinRange last step (counter addr c)) :
    Condition.holds σ c.world.memory cond = .ok false := by
  obtain ⟨b, hb, hiff⟩ := h c.world.memory
  rw [hb, Bool.eq_false_iff.mpr fun hb => hc (hiff.mp hb)]

/-- As long as the counter stays in the range, each round starts with the next value. -/
theorem loop_unroll (hcond : TestsRange σ cond addr last step) (hbody : MovesCounter body addr step)
    (n : Nat) : ∀ (c : Config) (v : Int), c.world.memory addr = word v →
      (∀ i < n, FitsWord (v + step * i) ∧ withinRange last step (v + step * i)) →
      ∃ cs c' m, c'.world.memory addr = word (v + step * n) ∧
        cs.map (counter addr) = (List.range n).map (fun i : Nat => v + step * i) ∧
        ∀ fuel ≥ m, ∀ k, iterate .outOfFuel (whileRound σ cond (body fuel)) (k + n) c =
            iterate .outOfFuel (whileRound σ cond (body fuel)) k c' ∧
          loopStarts σ cond (body fuel) (k + n) c =
            (loopStarts σ cond (body fuel) k c' >>= fun rest => pure (cs ++ rest)) := by
  induction n with
  | zero =>
    intro c v hv _
    refine ⟨[], c, 0, by simpa using hv, rfl, fun fuel _ k => ⟨rfl, ?_⟩⟩
    exact (bind_pure _).symm
  | succ n ih =>
    intro c v hv hrange
    obtain ⟨hfits, hin⟩ := hrange 0 (Nat.succ_pos n)
    have hcounter : counter addr c = v := by
      rw [counter, hv, toInt_word (by simpa using hfits)]
    have htrue := hcond.holds_true (c := c) (by rw [hcounter]; simpa using hin)
    obtain ⟨e, m, he, hrun, hmoved⟩ := hbody c
    have hnext : e.world.memory addr = word (v + step) := by
      rw [hmoved, hv, word, word, word, BitVec.ofInt_add]
    have hshift : ∀ i : Nat, v + step + step * i = v + step * ((i + 1 : Nat) : Int) := by
      intro i
      push_cast
      ring
    obtain ⟨cs, c', m', hc', hcs, hloop⟩ := ih ⟨e.world, e.flags⟩ (v + step) hnext fun i hi => by
      rw [hshift]
      exact hrange (i + 1) (by omega)
    refine ⟨c :: cs, c', max m m', by rw [hc', hshift], ?_, fun fuel hfuel k => ?_⟩
    · rw [List.map_cons, hcs, hcounter, List.range_succ_eq_map, List.map_cons, List.map_map]
      simp [hshift, Function.comp_def]
    · obtain ⟨hiterate, hstarts⟩ := hloop fuel (le_of_max_le_right hfuel) k
      have hround := he fuel (le_of_max_le_left hfuel)
      rw [← Nat.add_assoc, iterate_round htrue hround hrun, loopStarts_round htrue hround hrun,
        hiterate, hstarts]
      refine ⟨rfl, ?_⟩
      rw [bind_assoc]
      rfl

theorem loopStarts_cons {body : Config → Run Ending} {fuel : Nat} {c : Config} {cs : List Config}
    (hcond : Condition.holds σ c.world.memory cond = .ok true)
    (h : loopStarts σ cond body fuel c = .ok cs) : cs ≠ [] := by
  cases fuel with
  | zero => cases h
  | succ fuel =>
    rw [loopStarts, hcond] at h
    simp only [Outcome.ok_bind, if_true] at h
    obtain ⟨e, -, h⟩ := Outcome.bind_eq_ok.mp h
    split at h
    · obtain ⟨rest, -, h⟩ := Outcome.bind_eq_ok.mp h
      cases h
      exact List.cons_ne_nil _ _
    · cases h
      exact List.cons_ne_nil _ _

/-- The values of a range lie between its ends. -/
theorem fitsWord_value {start : Int} (hdir : Advances start last step) (hstart : FitsWord start)
    (hlast : FitsWord last) {i : Nat} (hi : i < rangeCount start last step) :
    FitsWord (start + step * i) := by
  have hin := (withinRange_iff hdir i).mpr hi
  unfold FitsWord withinRange at *
  rcases hdir with ⟨hpos, -⟩ | ⟨hneg, -⟩
  · have : 0 ≤ step * (i : Int) := Int.mul_nonneg hpos.le (Int.natCast_nonneg i)
    rw [if_pos hpos] at hin
    omega
  · have : step * (i : Int) ≤ 0 := Int.mul_nonpos_of_nonpos_of_nonneg hneg.le (Int.natCast_nonneg i)
    rw [if_neg (by omega)] at hin
    omega

/-- A counter that leaves 16 bits comes back on the other side, before the end of the range. -/
theorem withinRange_wrapped {start : Int} (hdir : Advances start last step)
    (hlast : FitsWord last) (hstep : FitsWord step)
    (hout : ¬ FitsWord (start + step * rangeCount start last step)) :
    withinRange last step (word (start + step * rangeCount start last step)).toInt := by
  obtain ⟨n, hn⟩ : ∃ n, rangeCount start last step = n + 1 := ⟨_, rfl⟩
  have hbefore := (withinRange_iff hdir n).mpr (by omega)
  have hafter := (withinRange_iff hdir (n + 1)).not.mpr (by omega)
  have hmul : step * ((n + 1 : Nat) : Int) = step * n + step := by
    push_cast
    ring
  rw [hn] at hout ⊢
  rw [hmul] at hout hafter ⊢
  rw [word, BitVec.toInt_ofInt]
  unfold withinRange FitsWord at *
  generalize step * (n : Int) = x at *
  rcases hdir with ⟨hpos, -⟩ | ⟨hneg, -⟩
  · simp only [if_pos hpos] at *
    have hwrap : Int.bmod (start + (x + step)) (2 ^ 16) = start + (x + step) - 65536 :=
      (Int.bmod_eq_iff (by decide)).mpr ⟨by omega, by omega, by omega⟩
    omega
  · have hnot : ¬ 0 < step := by omega
    simp only [if_neg hnot] at *
    have hwrap : Int.bmod (start + (x + step)) (2 ^ 16) = start + (x + step) + 65536 :=
      (Int.bmod_eq_iff (by decide)).mpr ⟨by omega, by omega, by omega⟩
    omega

/-- A loop over a range ends and visits its values in order exactly when the step from the last
value stays within 16 bits. -/
theorem loop_visits_iff {start : Int} (hcond : TestsRange σ cond addr last step)
    (hbody : MovesCounter body addr step) (hdir : Advances start last step)
    (hstart : FitsWord start) (hlast : FitsWord last) (hstep : FitsWord step) {c : Config}
    (hc : c.world.memory addr = word start) :
    (∃ n, ∀ fuel ≥ n, ∃ e cs, iterate .outOfFuel (whileRound σ cond (body fuel)) fuel c = .ok e ∧
        e.status = .running ∧ loopStarts σ cond (body fuel) fuel c = .ok cs ∧
        cs.map (counter addr) = rangeValues start last step) ↔
      FitsWord (start + step * rangeCount start last step) := by
  obtain ⟨cs, c', m, hc', hcs, hloop⟩ := loop_unroll hcond hbody (rangeCount start last step) c start
    hc fun i hi => ⟨fitsWord_value hdir hstart hlast hi, (withinRange_iff hdir i).mpr hi⟩
  constructor
  · rintro ⟨n, hn⟩
    by_contra hout
    obtain ⟨e, cs', -, -, hrun, hvalues⟩ :=
      hn (n + m + 1 + rangeCount start last step) (by omega)
    rw [(hloop _ (by omega) (n + m + 1)).2] at hrun
    have hin := withinRange_wrapped hdir hlast hstep hout
    rw [← hc'] at hin
    obtain ⟨rest, hrest, heq⟩ := Outcome.bind_eq_ok.mp hrun
    cases heq
    have hlength := congrArg List.length hvalues
    have hcount := congrArg List.length hcs
    have hrest' := List.length_pos_iff.mpr (loopStarts_cons (hcond.holds_true hin) hrest)
    simp only [List.length_map, List.length_append, List.length_range, rangeValues] at hlength hcount
    omega
  · intro hfits
    have hout : ¬ withinRange last step (counter addr c') := by
      rw [counter, hc', toInt_word hfits, withinRange_iff hdir]
      exact lt_irrefl _
    have hfalse := hcond.holds_false hout
    refine ⟨m + 1 + rangeCount start last step, fun fuel hfuel => ?_⟩
    obtain ⟨k, hk⟩ : ∃ k, fuel = k + 1 + rangeCount start last step :=
      ⟨fuel - 1 - rangeCount start last step, by omega⟩
    obtain ⟨hiterate, hstarts⟩ := hloop fuel (by omega) (k + 1)
    rw [← hk, iterate_done hfalse] at hiterate
    rw [← hk, loopStarts_done hfalse] at hstarts
    exact ⟨_, cs, hiterate, rfl, by simpa using hstarts, hcs⟩

end Counters

end ThymioDeviceManager.Semantics
