import PriorityRules.Ruleset
import PriorityRules.Slots

/-! # Rules by level

While a text is read its rules are kept by level. There is one tier for each level met so far, in
ascending order of the levels, and a tier holds its rules in text order. The rules of the ruleset
are those of the tiers from the highest one down.
-/

namespace PriorityRules.Reading

variable {A M : Type}

structure Tier (A M : Type) where
  level : Int
  rules : List (Rule A M)

/-- Put a rule behind those of its level; the first rule of a level gets a tier of its own. -/
def addRule (rule : Rule A M) : List (Tier A M) → List (Tier A M)
  | [] => [⟨rule.level, [rule]⟩]
  | tier :: rest =>
    if rule.level < tier.level then ⟨rule.level, [rule]⟩ :: tier :: rest
    else if rule.level = tier.level then { tier with rules := tier.rules ++ [rule] } :: rest
    else tier :: addRule rule rest

theorem map_level_addRule (rule : Rule A M) (tiers : List (Tier A M)) :
    (addRule rule tiers).map (·.level) = insertSlot rule.level (tiers.map (·.level)) := by
  induction tiers with
  | nil => rfl
  | cons tier rest ih =>
    rw [addRule, List.map_cons, insertSlot]
    split
    · rfl
    · split
      · rfl
      · rw [List.map_cons, ih]

theorem uniform_addRule {rule : Rule A M} {tiers : List (Tier A M)}
    (h : ∀ tier ∈ tiers, ∀ r ∈ tier.rules, r.level = tier.level) :
    ∀ tier ∈ addRule rule tiers, ∀ r ∈ tier.rules, r.level = tier.level := by
  induction tiers with
  | nil => simp [addRule]
  | cons first rest ih =>
    obtain ⟨hfirst, hrest⟩ := List.forall_mem_cons.mp h
    rw [addRule]
    split
    · exact List.forall_mem_cons.mpr ⟨by simp, h⟩
    · split
      · rename_i heq
        refine List.forall_mem_cons.mpr ⟨?_, hrest⟩
        simpa [or_imp, forall_and] using ⟨hfirst, heq⟩
      · exact List.forall_mem_cons.mpr ⟨hfirst, ih hrest⟩

theorem ascending_nil : (([] : List (Tier A M)).map (·.level)).Pairwise (· < ·) := .nil

structure Tiers (A M : Type) where
  list : List (Tier A M)
  ascending : (list.map (·.level)).Pairwise (· < ·)
  /-- A tier holds rules of its level only. -/
  uniform : ∀ tier ∈ list, ∀ rule ∈ tier.rules, rule.level = tier.level

namespace Tiers

def empty : Tiers A M := ⟨[], ascending_nil, nofun⟩

def add (t : Tiers A M) (rule : Rule A M) : Tiers A M where
  list := addRule rule t.list
  ascending := map_level_addRule rule t.list ▸ pairwise_insertSlot t.ascending
  uniform := uniform_addRule t.uniform

/-- The rules of all tiers, the highest tier first. -/
def inOrder (t : Tiers A M) : List (Rule A M) := t.list.reverse.flatMap (·.rules)

end Tiers

end PriorityRules.Reading
