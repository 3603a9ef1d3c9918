import PriorityRules.Proofs.Reading.Denotation

/-! # Rulesets against their texts

Each rule line of a text that is read has a rule and each block has a tag, and there are no others.
The predicates stand where their tokens do, and each is what its token stands for.
-/

namespace PriorityRules

variable {A M : Type}

namespace Reading

/-- The rules are those of the rule lines and the tags those of the blocks, with one predicate for
each condition, in the same place, that stands to it as `R` says. -/
structure Renders (R : Token → Predicate A → Prop) (items : List Item) (r : Ruleset A M) :
    Prop where
  rule_of_line : ∀ line level conditions words, Item.rule line level conditions words ∈ items →
    ∃ rule ∈ r.rules, rule.line = line ∧ rule.level = level ∧
      List.Forall₂ R conditions rule.conditions
  line_of_rule : ∀ rule ∈ r.rules, ∃ conditions words,
    Item.rule rule.line rule.level conditions words ∈ items ∧
      List.Forall₂ R conditions rule.conditions
  tag_of_block : ∀ name body, Item.block name body ∈ items →
    ∃ tag ∈ r.tags, tag.name = String.ofList name ∧
      List.Forall₂ (List.Forall₂ R) (body.flatMap runs) tag.groups
  block_of_tag : ∀ tag ∈ r.tags, ∃ name body, Item.block name body ∈ items ∧
    tag.name = String.ofList name ∧ List.Forall₂ (List.Forall₂ R) (body.flatMap runs) tag.groups

section WellFormed

variable {V : Vocabulary A M} {items : List Item} {text : String}

theorem rule_mem_of_line {line : Nat} {level : Int} {conditions words : List Token}
    (h : Item.rule line level conditions words ∈ items) :
    ⟨level, line, V.predicates (place (items.flatMap Item.mentions)) conditions,
      V.effectsOf words⟩ ∈ (rulesetOf V items text).rules :=
  List.mem_mergeSort.mpr (List.mem_filterMap.mpr ⟨_, h, rfl⟩)

theorem WellFormed.tag_mem_of_block (h : WellFormed V items) {name : Token}
    {body : List (List Token)} (hblock : Item.block name body ∈ items) :
    ⟨String.ofList name, (body.flatMap runs).map
      (V.predicates (place (items.flatMap Item.mentions)))⟩ ∈ (rulesetOf V items text).tags := by
  have hopened : String.ofList name ∈ (Item.block name body).mentions :=
    List.mem_append_left _ (List.mem_singleton_self _)
  obtain ⟨tag, hat, hname, hmem⟩ :=
    h.tag_at_place text (List.mem_flatMap.mpr ⟨_, hblock, hopened⟩)
  have htag := h.tag_unique hmem (List.mem_filterMap.mpr ⟨_, hblock, rfl⟩) hname
  exact htag ▸ List.mem_of_getElem? hat

/-- What holds of all conditions of the items and what they stand for holds in the ruleset. -/
theorem WellFormed.renders (h : WellFormed V items) {R : Token → Predicate A → Prop}
    (hR : ∀ item ∈ items, ∀ token ∈ item.conditions, ∀ p,
      V.interpret (place (items.flatMap Item.mentions)) token = .ok p → R token p) :
    Renders R items (rulesetOf V items text) := by
  have hread : ∀ item ∈ items, ∀ tokens, tokens ⊆ item.conditions →
      List.Forall₂ R tokens (V.predicates (place (items.flatMap Item.mentions)) tokens) :=
    fun item hitem tokens htokens => (h.forall₂_predicates hitem htokens).imp
      fun token p ⟨htoken, hp⟩ => hR item hitem token htoken p hp
  have hgroups : ∀ name body, Item.block name body ∈ items →
      List.Forall₂ (List.Forall₂ R) (body.flatMap runs) ((body.flatMap runs).map
        (V.predicates (place (items.flatMap Item.mentions)))) := by
    intro name body hblock
    apply List.forall₂_map_right_iff.mpr
    exact List.forall₂_same.mpr fun run hrun => hread _ hblock run (run_subset hrun)
  constructor
  · intro line level conditions words hitem
    exact ⟨_, rule_mem_of_line hitem, rfl, rfl, hread _ hitem conditions fun _ => id⟩
  · intro rule hrule
    obtain ⟨line, level, conditions, words, hitem, rfl⟩ := line_of_rule hrule
    exact ⟨conditions, words, hitem, hread _ hitem conditions fun _ => id⟩
  · intro name body hblock
    exact ⟨_, h.tag_mem_of_block hblock, rfl, hgroups name body hblock⟩
  · intro tag htag
    obtain ⟨name, body, hblock, rfl⟩ := block_of_tag htag
    exact ⟨name, body, hblock, rfl, hgroups name body hblock⟩

end WellFormed

end Reading

end PriorityRules
