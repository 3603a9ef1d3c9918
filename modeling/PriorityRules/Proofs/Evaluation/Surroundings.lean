import PriorityRules.Proofs.Evaluation.Exactness
import PriorityRules.Proofs.Evaluation.Renaming

/-! # Tags among other tags

What a conjunction comes to depends on the tags that it leads to. Other tags may stand behind those
or in front of them, where they move the numbers on: the answer, or the path that is reported
instead, stays the same.
-/

namespace PriorityRules

variable {A M : Type}

section Within

variable {σ : Nat → Nat} {n : Nat} (hσ : ∀ id < n, σ id = id)
include hσ

theorem Predicate.rename_of_within {q : Predicate A} (h : q.Within n) : q.rename σ = q := by
  induction q with
  | atom a => rfl
  | compare c => rfl
  | tag id => exact congrArg Predicate.tag (hσ id h)
  | not q ih => exact congrArg Predicate.not (ih h)

theorem Group.rename_of_within {g : Group A} (h : ∀ q ∈ g, q.Within n) : Group.rename σ g = g :=
  (List.map_congr_left fun q hq => Predicate.rename_of_within hσ (h q hq)).trans (List.map_id g)

theorem Tag.rename_of_within {t : Tag A} (h : ∀ g ∈ t.groups, ∀ q ∈ g, q.Within n) :
    t.rename σ = t := by
  have hgroups : t.groups.map (Group.rename σ) = t.groups :=
    (List.map_congr_left fun g hg => Group.rename_of_within hσ (h g hg)).trans (List.map_id _)
  rw [Tag.rename, hgroups]

end Within

/-- What a conjunction comes to when no tag is decided or open yet. -/
def Ruleset.answer (r : Ruleset A M) (holds : A → Bool) (numbers : List Float)
    (conditions : Group A) : Except EvaluationFault Bool :=
  let S : Situation A := ⟨r.tags, holds, numbers⟩
  (Evaluation.testAll S (Evaluation.decideTag S []) (.condition 0) 0 conditions {}).1

namespace Ruleset

variable {r r' : Ruleset A M} (holds : A → Bool) (numbers : List Float) {conditions : Group A}

theorem answer_rename {σ : Nat → Nat} (hσ : σ.Injective)
    (htags : ∀ id, r'.tags[σ id]? = r.tags[id]?.map (Tag.rename σ)) :
    r'.answer holds numbers (Group.rename σ conditions) = r.answer holds numbers conditions := by
  have hembeds : Situation.Embeds σ ⟨r.tags, holds, numbers⟩ ⟨r'.tags, holds, numbers⟩ :=
    ⟨hσ, htags, rfl, rfl⟩
  have hmirrors := Evaluation.testAll_mirrors hembeds (Evaluation.decideTag_mirrors hembeds [])
    (.condition 0) 0 conditions {}
  change Evaluation.testAll _ _ (.condition 0) 0 _ {} = _ at hmirrors
  rw [answer, ← List.map_nil (f := σ), hmirrors, answer]

/-- Tags that stand behind those of a ruleset do not bear on its conjunctions. -/
theorem answer_of_append {more : List (Tag A)}
    (hr : ∀ t ∈ r.tags, ∀ g ∈ t.groups, ∀ q ∈ g, q.Within r.tags.length)
    (htags : r'.tags = r.tags ++ more) (h : ∀ q ∈ conditions, q.Within r.tags.length) :
    r'.answer holds numbers conditions = r.answer holds numbers conditions := by
  -- a number that no tag of `r` has goes past the new tags, so that no tag of `r'` has it either
  let σ := fun id => if id < r.tags.length then id else id + more.length
  have hstays : ∀ id < r.tags.length, σ id = id := fun id hid => if_pos hid
  have hpasses : ∀ id, r.tags.length ≤ id → σ id = id + more.length :=
    fun id hid => if_neg (Nat.not_lt_of_le hid)
  have hinjective : σ.Injective := by
    intro i j hij
    simp only [σ] at hij
    split at hij <;> split at hij <;> omega
  have hrename : r'.answer holds numbers (Group.rename σ conditions) =
      r.answer holds numbers conditions := by
    refine answer_rename holds numbers hinjective fun id => ?_
    rw [htags]
    rcases Nat.lt_or_ge id r.tags.length with hid | hid
    · rw [hstays id hid, List.getElem?_append_left hid, List.getElem?_eq_getElem hid,
        Option.map_some, Tag.rename_of_within hstays (hr _ (List.getElem_mem hid))]
    · rw [hpasses id hid, List.getElem?_eq_none hid, Option.map_none]
      apply List.getElem?_eq_none
      rw [List.length_append]
      exact Nat.add_le_add_right hid _
  rwa [Group.rename_of_within hstays h] at hrename

/-- A conjunction keeps its answer when its tags are put behind other tags. -/
theorem answer_of_behind {before : List (Tag A)}
    (htags : r'.tags = before ++ r.tags.map (Tag.rename (· + before.length))) :
    r'.answer holds numbers (Group.rename (· + before.length) conditions) =
      r.answer holds numbers conditions := by
  refine answer_rename holds numbers (fun i j hij => Nat.add_right_cancel hij) fun id => ?_
  rw [htags, List.getElem?_append_right (Nat.le_add_left _ _), Nat.add_sub_cancel,
    List.getElem?_map]

end Ruleset

end PriorityRules
