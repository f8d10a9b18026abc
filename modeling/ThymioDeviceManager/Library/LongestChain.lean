import Mathlib.Algebra.GroupWithZero.Nat
import Mathlib.Logic.Relation
import Mathlib.Algebra.Order.BigOperators.Group.List
import Mathlib.Algebra.Order.Group.Nat

/-! # The longest chains of a graph

A chain starts at a root, with a length that the root gives it, and gets one longer
with every edge. A function that is large enough at the roots and grows along the
edges bounds the chains; on a cycle they have no bound. The slack of a bounded
function says how often it can still be raised.
-/

namespace ThymioDeviceManager.Library

variable {ι : Type} {root : ι → Nat → Prop} {edge : ι → ι → Prop}

/-- A chain of length `n` ends in `i`. -/
inductive Chain (root : ι → Nat → Prop) (edge : ι → ι → Prop) : Nat → ι → Prop
  | root {i : ι} {n : Nat} : root i n → Chain root edge n i
  | step {n : Nat} {i j : ι} : Chain root edge n i → edge i j → Chain root edge (n + 1) j

namespace Chain

/-- A function that grows along the edges bounds the chains. -/
theorem le_of_closed {d : ι → Nat} (hroot : ∀ i n, root i n → n ≤ d i)
    (hedge : ∀ i j, edge i j → d i + 1 ≤ d j) {n : Nat} {i : ι} (h : Chain root edge n i) :
    n ≤ d i := by
  induction h with
  | root hi => exact hroot _ _ hi
  | step h hij ih =>
    have := hedge _ _ hij
    omega

theorem exists_longer {n : Nat} {i j : ι} (h : Chain root edge n i)
    (hij : Relation.TransGen edge i j) : ∃ m, n < m ∧ Chain root edge m j := by
  induction hij with
  | single hij => exact ⟨n + 1, n.lt_succ_self, h.step hij⟩
  | tail _ hjk ih =>
    obtain ⟨m, hlt, hm⟩ := ih
    exact ⟨m + 1, by omega, hm.step hjk⟩

/-- The chains that run through a cycle have no bound. -/
theorem exists_gt_of_cycle {n : Nat} {i : ι} (h : Chain root edge n i)
    (hcycle : Relation.TransGen edge i i) (bound : Nat) : ∃ m, bound < m ∧ Chain root edge m i := by
  induction bound with
  | zero =>
    obtain ⟨m, hlt, hm⟩ := h.exists_longer hcycle
    exact ⟨m, by omega, hm⟩
  | succ bound ih =>
    obtain ⟨m, hlt, hm⟩ := ih
    obtain ⟨m', hlt', hm'⟩ := hm.exists_longer hcycle
    exact ⟨m', by omega, hm'⟩

end Chain

/-! ## Slack -/

/-- How often a function can be raised at the given places before it is `bound` everywhere. -/
def slack (bound : Nat) (keys : List ι) (d : ι → Nat) : Nat := (keys.map fun k => bound - d k).sum

theorem slack_le (bound : Nat) (keys : List ι) (d : ι → Nat) :
    slack bound keys d ≤ keys.length * bound := by
  unfold slack
  induction keys with
  | nil => simp
  | cons k keys ih =>
    simp only [List.map_cons, List.sum_cons, List.length_cons, Nat.succ_mul]
    omega

/-- Raising a bounded function somewhere, and lowering it nowhere, takes slack. -/
theorem slack_lt {bound : Nat} {keys : List ι} {d d' : ι → Nat} (hle : ∀ k, d k ≤ d' k) {k : ι}
    (hk : k ∈ keys) (hlt : d k < d' k) (hbound : d' k ≤ bound) :
    slack bound keys d' < slack bound keys d := by
  refine List.sum_lt_sum _ _ (fun i _ => ?_) ⟨k, hk, by omega⟩
  have := hle i
  omega

end ThymioDeviceManager.Library
