import Mathlib.Data.List.Basic
import ThymioDeviceManager.Compiler.State
import ThymioDeviceManager.Library.EditDistance

/-! # Suggestions for misspelt names

A row of `editDistance` holds the distances of what has been read of the first word to the
beginnings of the second. The recursion of the distance is over the first letters and that of the
rows over the last, so the words are read backwards.
-/

namespace ThymioDeviceManager.Correctness

open Compiler Library

/-! ## The rows -/

/-- The distances of `p` to `q`, to `q` with the first letter of `ds` and so on. -/
def distances (p q : List Char) : List Char → List Nat
  | [] => [distance p.reverse q.reverse]
  | d :: ds => distance p.reverse q.reverse :: distances p (q ++ [d]) ds

theorem distances_eq_cons (p q ds : List Char) :
    ∃ rest, distances p q ds = distance p.reverse q.reverse :: rest := by
  cases ds with
  | nil => exact ⟨[], rfl⟩
  | cons d ds => exact ⟨distances p (q ++ [d]) ds, rfl⟩

/-- The distances to longer beginnings, from those of a word without its last letter. -/
theorem editDistanceRow_distances (c : Char) (p q ds : List Char) :
    distance (p ++ [c]).reverse q.reverse ::
        editDistanceRow c ds (distances p q ds) (distance (p ++ [c]).reverse q.reverse) =
      distances (p ++ [c]) q ds := by
  induction ds generalizing q with
  | nil => rfl
  | cons d ds ih =>
    obtain ⟨rest, hrest⟩ := distances_eq_cons p (q ++ [d]) ds
    have hcell : distance (p ++ [c]).reverse (q ++ [d]).reverse =
        min (min (distance p.reverse (q ++ [d]).reverse + 1)
          (distance (p ++ [c]).reverse q.reverse + 1))
          (distance p.reverse q.reverse + if c = d then 0 else 1) := by
      simp only [List.reverse_append, List.reverse_singleton, List.singleton_append, distance_cons]
    rw [distances, distances, hrest, editDistanceRow, ← hcell, ← hrest, ih (q ++ [d])]

/-- The row before the first letter counts the letters. -/
theorem distances_nil (q ds : List Char) :
    distances [] q ds = List.range' q.length (ds.length + 1) := by
  induction ds generalizing q with
  | nil => simp [distances]
  | cons d ds ih =>
    rw [distances, ih, List.length_cons]
    simp [List.range'_succ]

theorem foldl_rows (s1 s2 p : List Char) :
    s1.foldl (fun row c => (row.headD 0 + 1) :: editDistanceRow c s2 row (row.headD 0 + 1))
      (distances p [] s2) = distances (p ++ s1) [] s2 := by
  induction s1 generalizing p with
  | nil => simp
  | cons c s1 ih =>
    obtain ⟨rest, hrest⟩ := distances_eq_cons p [] s2
    have hhead : (distances p [] s2).headD 0 + 1 = distance (p ++ [c]).reverse [].reverse := by
      simp [hrest]
    rw [List.foldl_cons, hhead, editDistanceRow_distances, ih, List.append_assoc,
      List.singleton_append]

theorem getLastD_distances (p q ds : List Char) :
    (distances p q ds).getLastD 0 = distance p.reverse (q ++ ds).reverse := by
  induction ds generalizing q with
  | nil => simp [distances]
  | cons d ds ih =>
    obtain ⟨rest, hrest⟩ := distances_eq_cons p (q ++ [d]) ds
    have hstep := ih (q ++ [d])
    rw [distances]
    rw [hrest] at hstep ⊢
    simpa using hstep

theorem editDistance_eq (s1 s2 : List Char) : editDistance s1 s2 = distance s1 s2 := by
  have hstart : List.range (s2.length + 1) = distances [] [] s2 := by
    rw [distances_nil, List.range_eq_range']
    rfl
  simp only [editDistance, hstart, foldl_rows, getLastD_distances, List.nil_append]
  exact distance_reverse s1 s2

/-! ## The best key -/

section

variable {α : Type} (name : String)

/-- One key is compared with the best so far. -/
def better (best : Option (String × Nat)) (p : String × α) : Option (String × Nat) :=
  let d := editDistance name.toList p.1.toList
  match best with
  | some (_, bestDist) => if d < bestDist ∧ d < 3 then some (p.1, d) else best
  | none => if d < 3 then some (p.1, d) else none

/-- The best of the keys that have been looked at. -/
structure BestOf (keys : List String) (best : Option (String × Nat)) : Prop where
  none_iff : best = none ↔ ∀ k ∈ keys, 3 ≤ editDistance name.toList k.toList
  some_of : ∀ key d, best = some (key, d) → key ∈ keys ∧ d = editDistance name.toList key.toList ∧
    d < 3 ∧ ∀ k ∈ keys, d ≤ editDistance name.toList k.toList

variable {name}

theorem forall_append_key {keys : List String} {key : String} (n : Nat) :
    (∀ k ∈ keys ++ [key], n ≤ editDistance name.toList k.toList) ↔
      (∀ k ∈ keys, n ≤ editDistance name.toList k.toList) ∧
        n ≤ editDistance name.toList key.toList := by
  simp only [List.mem_append, List.mem_singleton, or_imp, forall_and, forall_eq]

/-- A key that is near, and nearer than the others are, is the best of all. -/
theorem bestOf_nearer {keys : List String} {key : String}
    (hlt : editDistance name.toList key.toList < 3)
    (hleast : ∀ k ∈ keys,
      editDistance name.toList key.toList ≤ editDistance name.toList k.toList) :
    BestOf name (keys ++ [key]) (some (key, editDistance name.toList key.toList)) := by
  constructor
  · rw [forall_append_key]
    exact ⟨fun hsome => (by cases hsome), fun hall => absurd hall.2 (by omega)⟩
  · rintro key' d heq
    cases heq
    exact ⟨by simp, rfl, hlt, (forall_append_key _).mpr ⟨hleast, Nat.le_refl _⟩⟩

theorem BestOf.step {keys : List String} {best : Option (String × Nat)} (h : BestOf name keys best)
    (p : String × α) : BestOf name (keys ++ [p.1]) (better name best p) := by
  cases best with
  | none =>
    have hnone := h.none_iff.mp rfl
    by_cases hlt : editDistance name.toList p.1.toList < 3
    · have hbetter : better name none p = some (p.1, editDistance name.toList p.1.toList) := by
        simp [better, hlt]
      rw [hbetter]
      exact bestOf_nearer hlt fun k hk => (hlt.trans_le (hnone k hk)).le
    · have hbetter : better name none p = none := by simp [better, hlt]
      rw [hbetter]
      refine ⟨?_, fun key d' heq => by cases heq⟩
      rw [forall_append_key]
      exact ⟨fun _ => ⟨hnone, by omega⟩, fun _ => rfl⟩
  | some b =>
    obtain ⟨key, bestDist⟩ := b
    obtain ⟨hmem, hdist, hbound, hleast⟩ := h.some_of key bestDist rfl
    by_cases hlt : editDistance name.toList p.1.toList < bestDist ∧
        editDistance name.toList p.1.toList < 3
    · have hbetter : better name (some (key, bestDist)) p =
          some (p.1, editDistance name.toList p.1.toList) := by
        simp [better, hlt]
      rw [hbetter]
      exact bestOf_nearer hlt.2 fun k hk => (hlt.1.trans_le (hleast k hk)).le
    · have hbetter : better name (some (key, bestDist)) p = some (key, bestDist) := by
        simp only [better, if_neg hlt]
      rw [hbetter]
      refine ⟨?_, ?_⟩
      · rw [forall_append_key]
        refine ⟨fun hsome => (by cases hsome), fun hall => ?_⟩
        have hkey := hall.1 key hmem
        omega
      · rintro key' d' heq
        cases heq
        refine ⟨by simp [hmem], hdist, hbound, (forall_append_key bestDist).mpr ⟨hleast, ?_⟩⟩
        omega

theorem bestOf_foldl (map : List (String × α)) {keys : List String} {best : Option (String × Nat)}
    (h : BestOf name keys best) :
    BestOf name (keys ++ map.map (·.1)) (map.foldl (better name) best) := by
  induction map generalizing keys best with
  | nil => simpa using h
  | cons p map ih =>
    have hstep := ih (h.step p)
    rwa [List.append_assoc, List.singleton_append] at hstep

/-- The key that is proposed, if one is. -/
theorem bestGuess_cases (map : OrderedMap String α) (name : String) :
    (bestGuess map name = none ∧ ∀ k ∈ map.map (·.1), 3 ≤ editDistance name.toList k.toList) ∨
      ∃ key, bestGuess map name = some key ∧ key ∈ map.map (·.1) ∧
        editDistance name.toList key.toList < 3 ∧
        ∀ k ∈ map.map (·.1),
          editDistance name.toList key.toList ≤ editDistance name.toList k.toList := by
  have hempty : BestOf name [] none := ⟨by simp, fun key d heq => by cases heq⟩
  have hbest := bestOf_foldl map hempty
  rw [List.nil_append] at hbest
  have hguess : bestGuess map name = (map.foldl (better name) none).map Prod.fst := rfl
  rw [hguess]
  cases hfold : map.foldl (better name) none with
  | none => exact .inl ⟨rfl, hbest.none_iff.mp hfold⟩
  | some b =>
    obtain ⟨key, d⟩ := b
    obtain ⟨hmem, hd, hlt, hleast⟩ := hbest.some_of key d hfold
    exact .inr ⟨key, rfl, hmem, hd ▸ hlt, fun k hk => hd ▸ hleast k hk⟩

end

/-- `editDistance` is the least number of edits; a name that is not found is answered with a key
whenever one is nearer than three edits, and then with a nearest one. -/
theorem suggestions_nearest :
    (∀ s1 s2 : List Char, IsLeast {n | Edits n s1 s2} (editDistance s1 s2)) ∧
      ∀ (α : Type) (map : OrderedMap String α) (name : String) (pos : SourcePos)
        (notFoundError misspelledError : ErrorCode), map.find? name = none →
        ((∃ bestName, findInTable map name pos notFoundError misspelledError =
            fail pos misspelledError [.text name, .text bestName]) ↔
          ∃ k ∈ map.map (·.1), editDistance name.toList k.toList < 3) ∧
        (∀ bestName, findInTable map name pos notFoundError misspelledError =
            fail pos misspelledError [.text name, .text bestName] →
          bestName ∈ map.map (·.1) ∧ ∀ k ∈ map.map (·.1),
            editDistance name.toList bestName.toList ≤ editDistance name.toList k.toList) ∧
        ((∀ k ∈ map.map (·.1), 3 ≤ editDistance name.toList k.toList) →
          findInTable map name pos notFoundError misspelledError =
            fail pos notFoundError [.text name]) := by
  constructor
  · intro s1 s2
    rw [editDistance_eq]
    exact isLeast_distance s1 s2
  intro α map name pos notFoundError misspelledError habsent
  obtain ⟨hnone, hfar⟩ | ⟨key, hsome, hmem, hlt, hleast⟩ := bestGuess_cases map name
  · have hfail : findInTable map name pos notFoundError misspelledError =
        fail pos notFoundError [.text name] := by
      simp only [findInTable, habsent, hnone]
    rw [hfail]
    refine ⟨⟨?_, ?_⟩, ?_, fun _ => rfl⟩
    · rintro ⟨bestName, hbest⟩
      simp [fail] at hbest
    · rintro ⟨k, hk, hnear⟩
      exact absurd (hfar k hk) (by omega)
    · intro bestName hbest
      simp [fail] at hbest
  · have hfail : findInTable map name pos notFoundError misspelledError =
        fail pos misspelledError [.text name, .text key] := by
      simp only [findInTable, habsent, hsome]
    rw [hfail]
    refine ⟨⟨fun _ => ⟨key, hmem, hlt⟩, fun _ => ⟨key, rfl⟩⟩, ?_, fun hfar => ?_⟩
    · intro bestName hbest
      simp only [fail, Outcome.throw.injEq, TranslatableError.mk.injEq, List.cons.injEq, true_and,
        ErrorArg.text.injEq, and_true] at hbest
      rw [← hbest]
      exact ⟨hmem, hleast⟩
    · exact absurd (hfar key hmem) (by omega)

theorem misspeltName_suggested :
    ∃ bestName, findInTable [("motor", 1), ("timer", 2)] "tmer" {} .variableNotDefined
      .variableNotDefinedGuess = fail {} .variableNotDefinedGuess [.text "tmer", .text bestName] :=
  (suggestions_nearest.2 Nat [("motor", 1), ("timer", 2)] "tmer" {} .variableNotDefined
    .variableNotDefinedGuess (by decide)).1.mpr ⟨"timer", by decide, by decide⟩

end ThymioDeviceManager.Correctness
