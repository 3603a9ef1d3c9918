/-! # Expected slots

The slots that an evaluation tries to fill form a set. It is held in ascending order, which is
the order in which the winning effects are applied.
-/

namespace PriorityRules

/-- Put a slot where it belongs in an ascending list, unless it is there already. -/
def insertSlot (slot : Int) : List Int → List Int
  | [] => [slot]
  | s :: rest =>
    if slot < s then slot :: s :: rest
    else if slot = s then s :: rest
    else s :: insertSlot slot rest

theorem mem_insertSlot {slot s : Int} {ids : List Int} :
    s ∈ insertSlot slot ids ↔ s = slot ∨ s ∈ ids := by
  induction ids with
  | nil => simp [insertSlot]
  | cons t rest ih =>
    rw [insertSlot]
    split
    · simp
    · split
      · rename_i h; subst h; simp
      · simp only [List.mem_cons, ih]
        constructor <;> rintro (h | h | h) <;> simp [h]

theorem pairwise_insertSlot {slot : Int} {ids : List Int} (h : ids.Pairwise (· < ·)) :
    (insertSlot slot ids).Pairwise (· < ·) := by
  induction ids with
  | nil => simp [insertSlot]
  | cons t rest ih =>
    obtain ⟨hlow, hrest⟩ := List.pairwise_cons.mp h
    rw [insertSlot]
    split
    · rename_i hlt
      refine List.pairwise_cons.mpr ⟨?_, h⟩
      intro s hs
      rcases List.mem_cons.mp hs with rfl | hs
      · exact hlt
      · exact Int.lt_trans hlt (hlow s hs)
    · split
      · exact h
      · refine List.pairwise_cons.mpr ⟨?_, ih hrest⟩
        intro s hs
        rcases mem_insertSlot.mp hs with rfl | hs
        · omega
        · exact hlow s hs

structure Slots where
  ids : List Int := []
  ascending : ids.Pairwise (· < ·) := by simp

namespace Slots

def insert (s : Slots) (slot : Int) : Slots :=
  ⟨insertSlot slot s.ids, pairwise_insertSlot s.ascending⟩

def insertAll (s : Slots) (slots : List Int) : Slots := slots.foldl insert s

theorem mem_insertAll {s : Slots} {slots : List Int} {slot : Int} :
    slot ∈ (s.insertAll slots).ids ↔ slot ∈ slots ∨ slot ∈ s.ids := by
  induction slots generalizing s with
  | nil => simp [insertAll]
  | cons first rest ih =>
    have : s.insertAll (first :: rest) = (s.insert first).insertAll rest := rfl
    rw [this, ih]
    simp only [insert, mem_insertSlot, List.mem_cons, or_assoc, or_left_comm]

end Slots

end PriorityRules
