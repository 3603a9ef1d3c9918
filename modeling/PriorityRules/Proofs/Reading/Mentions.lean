import PriorityRules.Proofs.Reading.Concatenation
import PriorityRules.Proofs.Reading.Renderings

/-! # Tags in the order of mention

A text mentions a tag where a block opens it and where a condition refers to it. The tags of the
ruleset stand in the order of their first mentions, and a reference carries the position of the
name it is written with.
-/

namespace PriorityRules

variable {A M : Type}

namespace Reading

section FirstMention

variable {α : Type} [BEq α] [LawfulBEq α] {names : List α}

theorem idxOf_snoc_of_mem {name other : α} (h : other ∈ names) :
    (names ++ [name]).idxOf other = names.idxOf other := by
  rw [List.idxOf_append, if_pos h]

/-- Without repetitions, names stand in the order in which they first occur. -/
theorem eraseDups_pairwise_idxOf (names : List α) :
    names.eraseDups.Pairwise fun name other => names.idxOf name < names.idxOf other := by
  induction names using List.reverseRecOn with
  | nil => exact .nil
  | append_singleton names name ih =>
    have hearlier : names.eraseDups.Pairwise fun first second =>
        (names ++ [name]).idxOf first < (names ++ [name]).idxOf second := by
      refine ih.imp_of_mem fun {first second} hfirst hsecond hlt => ?_
      rw [idxOf_snoc_of_mem (List.mem_eraseDups.mp hfirst),
        idxOf_snoc_of_mem (List.mem_eraseDups.mp hsecond)]
      exact hlt
    rw [eraseDups_snoc]
    split
    · exact hearlier
    · rename_i hnew
      refine List.pairwise_append.mpr ⟨hearlier, List.pairwise_singleton _ _, ?_⟩
      intro first hfirst last hlast
      rw [List.mem_singleton.mp hlast, idxOf_snoc_of_mem (List.mem_eraseDups.mp hfirst),
        List.idxOf_append, if_neg hnew]
      exact Nat.lt_add_left _ (List.idxOf_lt_length_of_mem (List.mem_eraseDups.mp hfirst))

end FirstMention

/-- The predicate refers to a tag just if the token names one, under any number of negations, and
the list has the name at the position that the predicate carries. -/
def Carries (names : List String) (token : Token) (p : Predicate A) : Prop :=
  Option.Rel (fun name id => names[id]? = some name) token.referred? p.target?

variable {V : Vocabulary A M} {items : List Item} {text : String}

theorem WellFormed.mem_tagNames_iff (h : WellFormed V items) {name : String} :
    name ∈ (rulesetOf V items text).tagNames ↔ name ∈ items.filterMap Item.opened? := by
  rw [h.tagNames_eq, List.mem_eraseDups]
  exact ⟨mentions_opened_iff.mpr h.opened name, opened_mentioned⟩

/-- What a condition of the items stands for carries the position of the name in the condition. -/
theorem WellFormed.carries (h : WellFormed V items) {item : Item} (hitem : item ∈ items)
    {token : Token} (htoken : token ∈ item.conditions) {p : Predicate A}
    (hp : V.interpret (place (items.flatMap Item.mentions)) token = .ok p) :
    Carries (rulesetOf V items text).tagNames token p := by
  rw [Carries, Vocabulary.target_of_interpret hp]
  cases href : token.referred? with
  | none => exact .none
  | some name => exact .some (h.tagNames_at_place hitem htoken href)

end Reading

namespace Vocabulary

open Reading

variable {V : Vocabulary A M} {text : String} {r : Ruleset A M}

/-- The tag names of a text that is read are the names that its blocks open, each of them once. They
stand in the order in which the text first mentions them, and every reference to a tag, in a rule or
in a group of a tag, carries the position of the name that stands in the text. -/
theorem tagNames_in_order_of_mention (h : (V.read text).outcome = .ok r) :
    (∃ items, Layout 1 (tokenLines text) items) ∧
      ∀ items, Layout 1 (tokenLines text) items →
        r.tagNames.Nodup ∧ (∀ name, name ∈ r.tagNames ↔ name ∈ items.filterMap Item.opened?) ∧
          (∀ name ∈ r.tagNames, name ∈ items.flatMap Item.mentions) ∧
          r.tagNames.Pairwise (fun name other =>
            (items.flatMap Item.mentions).idxOf name <
              (items.flatMap Item.mentions).idxOf other) ∧
          Renders (Carries r.tagNames) items r := by
  obtain ⟨items, hlayout, _⟩ := exists_items_of_read h
  refine ⟨⟨items, hlayout⟩, fun items hlayout => ?_⟩
  obtain ⟨hwell, rfl⟩ := (outcome_read_of_layout V text r hlayout).mp h
  refine ⟨?_, fun name => hwell.mem_tagNames_iff, fun name hname => ?_, ?_, ?_⟩
  · rw [hwell.tagNames_eq]
    exact nodup_eraseDups _
  · exact opened_mentioned (hwell.mem_tagNames_iff.mp hname)
  · rw [hwell.tagNames_eq]
    exact eraseDups_pairwise_idxOf _
  · exact hwell.renders fun item hitem token htoken p hp => hwell.carries hitem htoken hp

/-- The first tag is opened last, the second refers to itself and to tags opened below it. -/
def lamps : Ruleset String String where
  rules := [⟨1, 1, [.not (.not (.tag 0)), .atom "lit"], [⟨1, "wait"⟩]⟩]
  tags := [⟨"far", [[.tag 2]]⟩, ⟨"near", [[.tag 1, .not (.tag 2)], [.tag 0]]⟩,
    ⟨"late", [[.atom "lit"]]⟩]
  source := some "1 !!%far lit -> wait\nnear [ %near !%late, %far ]\nlate [ lit ]\nfar [ %late ]"

def lampItems : List Item :=
  [.rule 1 1 ["!!%far".toList, "lit".toList] ["wait".toList],
    .block "near".toList [["%near", "!%late", ",", "%far"].map String.toList],
    .block "late".toList [["lit".toList]], .block "far".toList [["%late".toList]]]

theorem verbatim_reads_lamps :
    (verbatim.read
        "1 !!%far lit -> wait\nnear [ %near !%late, %far ]\nlate [ lit ]\nfar [ %late ]").outcome =
        .ok lamps ∧
      lamps.tagNames = ["far", "near", "late"] ∧ lamps.tagNames.Nodup ∧
      lamps.tagNames.Pairwise (fun name other =>
        (lampItems.flatMap Item.mentions).idxOf name <
          (lampItems.flatMap Item.mentions).idxOf other) ∧
      Renders (Carries lamps.tagNames) lampItems lamps := by
  have hread : (verbatim.read
      "1 !!%far lit -> wait\nnear [ %near !%late, %far ]\nlate [ lit ]\nfar [ %late ]").outcome =
        .ok lamps := by
    rfl
  have hfar : Layout 4 [["far", "[", "%late", "]"].map String.toList]
      [.block "far".toList [["%late".toList]]] :=
    .block (by decide) (@Enclosed.closed ["%late".toList] (by decide)) .done
  have hlate : Layout 3 (["late", "[", "lit", "]"].map String.toList :: _)
      (.block "late".toList [["lit".toList]] :: _) :=
    .block (by decide) (@Enclosed.closed ["lit".toList] (by decide)) hfar
  have hnear : Layout 2
      (["near", "[", "%near", "!%late", ",", "%far", "]"].map String.toList :: _)
      (.block "near".toList [["%near", "!%late", ",", "%far"].map String.toList] :: _) :=
    .block (by decide)
      (@Enclosed.closed (["%near", "!%late", ",", "%far"].map String.toList) (by decide)) hlate
  have hlayout : Layout 1
      (tokenLines
        "1 !!%far lit -> wait\nnear [ %near !%late, %far ]\nlate [ lit ]\nfar [ %late ]")
      lampItems :=
    @Layout.rule 1 "1".toList 1 ["!!%far".toList, "lit".toList] ["wait".toList] _ _ (by decide)
      (by decide) hnear
  obtain ⟨honce, -, -, hordered, hrenders⟩ := (tagNames_in_order_of_mention hread).2 _ hlayout
  exact ⟨hread, rfl, honce, hordered, hrenders⟩

end Vocabulary

end PriorityRules
