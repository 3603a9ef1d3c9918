import PriorityRules.Reading.Ledger
import PriorityRules.Reading.Tiers

/-! # Ledgers and tiers under a map

A map of entries that keeps their names can be applied before or after an operation on the ledger,
and so can a map of rules that keeps their levels, before or after a rule is added.
-/

namespace PriorityRules.Reading

variable {A M : Type}

def Tier.map (f : Rule A M → Rule A M) (tier : Tier A M) : Tier A M :=
  { tier with rules := tier.rules.map f }

theorem addRule_map {f : Rule A M → Rule A M} (hf : ∀ rule, (f rule).level = rule.level)
    (rule : Rule A M) (tiers : List (Tier A M)) :
    addRule (f rule) (tiers.map (Tier.map f)) = (addRule rule tiers).map (Tier.map f) := by
  induction tiers with
  | nil => simp [addRule, Tier.map, hf]
  | cons tier rest ih =>
    rw [List.map_cons, addRule, addRule, hf]
    by_cases hlt : rule.level < tier.level
    · simp [hlt, Tier.map]
    · by_cases heq : rule.level = tier.level
      · simp [heq, Tier.map]
      · simp [hlt, heq, Tier.map, ← ih]

namespace Ledger

variable {f : Entry A → Entry A} {l : Ledger A} {name : String} {line : Nat}
variable (hname : ∀ e, (f e).name = e.name)
include hname

theorem names_map : names (l.map f) = l.names := by
  rw [names, names, List.map_map]
  exact List.map_congr_left fun e _ => hname e

theorem position_map : position (l.map f) name = l.position name := by
  rw [position_eq_idxOf, position_eq_idxOf, names_map hname]

theorem mention_map (hnew : f ⟨name, none, none⟩ = ⟨name, none, none⟩) :
    mention (l.map f) name = (l.mention name).map f := by
  have hany : (l.map f).any (·.name = name) = l.any (·.name = name) := by
    simp [Function.comp_def, hname]
  rw [mention, mention, hany]
  split
  · rfl
  · simp [hnew]

theorem update_map {change change' : Entry A → Entry A} (h : ∀ e, change' (f e) = f (change e)) :
    update (l.map f) name change' = (l.update name change).map f := by
  rw [update, update, List.map_map, List.map_map]
  apply List.map_congr_left
  intro e _
  by_cases heq : e.name = name <;> simp [heq, hname, h]

end Ledger

end PriorityRules.Reading
