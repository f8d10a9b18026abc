import ThymioDeviceManager.Library.Table

/-! # What a reader of partial maps knows

Maps are sent one after the other, and the reader keeps the last value of every
key. The reader follows the sender as long as every map has the new value of each
key whose value changed.
-/

namespace ThymioDeviceManager.Library

variable {κ α : Type} [DecidableEq κ]

/-- The value of a key in the last of the maps that have it. -/
def lastTold (maps : List (Table κ α)) (k : κ) : Option α :=
  maps.foldl (fun last t => (t.get? k).or last) none

@[simp] theorem lastTold_nil (k : κ) : lastTold ([] : List (Table κ α)) k = none := rfl

@[simp] theorem lastTold_snoc (maps : List (Table κ α)) (t : Table κ α) (k : κ) :
    lastTold (maps ++ [t]) k = (t.get? k).or (lastTold maps k) := by
  rw [lastTold, List.foldl_append]
  rfl

/-- Every value of the state `after` is in the map, or it is a value of `before` and the map does not
mention it. -/
def Announces (t : Table κ α) (before after : κ → Option α) : Prop :=
  ∀ k a, after k = some a → t.get? k = some a ∨ (t.get? k = none ∧ before k = some a)

/-- A reader that knows every value of the sender goes on knowing it. -/
theorem lastTold_of_announces {maps : List (Table κ α)} {t : Table κ α} {before after : κ → Option α}
    (h : Announces t before after)
    (hmaps : ∀ k a, before k = some a → lastTold maps k = some a) (k : κ) (a : α)
    (hk : after k = some a) : lastTold (maps ++ [t]) k = some a := by
  rw [lastTold_snoc]
  obtain htold | ⟨hsilent, hbefore⟩ := h k a hk
  · rw [htold, Option.some_or]
  · rw [hsilent, Option.none_or]
    exact hmaps k a hbefore

/-- A property that the values of a key had, and that its value in the next map has. -/
theorem lastTold_snoc_of_forall {maps : List (Table κ α)} {t : Table κ α} {P : α → Prop} {k : κ}
    (hmaps : ∀ a ∈ lastTold maps k, P a) (ht : ∀ a ∈ t.get? k, P a) :
    ∀ a ∈ lastTold (maps ++ [t]) k, P a := by
  intro a ha
  rw [lastTold_snoc, Option.mem_def, Option.or_eq_some_iff] at ha
  obtain ha | ⟨-, ha⟩ := ha
  · exact ht a ha
  · exact hmaps a ha

end ThymioDeviceManager.Library
