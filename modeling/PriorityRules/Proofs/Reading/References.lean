import PriorityRules.Proofs.Evaluation.References
import PriorityRules.Proofs.Reading.Acceptance

/-! # References of rulesets

In a ruleset that has been read, the tags stand in the order in which the text first mentions
them, and every reference leads to one of them.
-/

namespace PriorityRules

variable {A M : Type} {V : Vocabulary A M}

namespace Vocabulary

variable {position : String → Nat} {token : Token} {p : Predicate A} {n : Nat}

/-- A predicate refers to a tag just if its token names one, and then by the position of the
name. -/
theorem target_of_interpret (h : V.interpret position token = .ok p) :
    p.target? = token.referred?.map position := by
  induction token using Token.negations generalizing p with
  | sign => cases h
  | negation inner hinner ih =>
    rw [interpret_negation hinner] at h
    obtain ⟨q, hq, rfl⟩ := map_eq_ok.mp h
    rw [Token.referred?, Predicate.target?]
    exact ih hq
  | plain token hplain =>
    rw [interpret_plain hplain] at h
    unfold interpretPlain at h
    split at h
    · cases h
    · rename_i name hname
      cases h
      rw [Token.referred?]
      · rfl
      · exact hname
    · obtain ⟨c, _, rfl⟩ := map_eq_ok.mp h
      rfl
    · rename_i hsign hreference _
      split at h
      · obtain ⟨a, _, rfl⟩ := map_eq_ok.mp (mapError_eq_ok.mp h)
        rw [Token.referred?]
        · rfl
        · exact hplain
        · exact hsign
        · exact hreference
      · cases h

theorem within_of_interpret (h : V.interpret position token = .ok p)
    (hname : ∀ name ∈ token.referred?, position name < n) : p.Within n := by
  apply Predicate.within_of_target
  intro id hid
  rw [target_of_interpret h] at hid
  obtain ⟨name, href, rfl⟩ := Option.map_eq_some_iff.mp hid
  exact hname name href

end Vocabulary

namespace Reading

variable {items : List Item} {text : String}

theorem predicates_within {names : List String} {tokens : List Token}
    (hnames : ∀ name ∈ references tokens, name ∈ names) :
    ∀ q ∈ V.predicates (place names) tokens, q.Within names.eraseDups.length := by
  intro q hq
  obtain ⟨token, htoken, hread⟩ := List.mem_filterMap.mp hq
  have hi : V.interpret (place names) token = .ok q := toOption_eq_some.mp hread
  apply Vocabulary.within_of_interpret hi
  intro name href
  have hmem := hnames name (List.mem_filterMap.mpr ⟨token, htoken, href⟩)
  exact List.idxOf_lt_length_of_mem (List.mem_eraseDups.mpr hmem)

theorem WellFormed.tagNames_eq (h : WellFormed V items) :
    (rulesetOf V items text).tagNames = (items.flatMap Item.mentions).eraseDups := by
  rw [Ruleset.tagNames, rulesetOf, List.map_filterMap]
  refine (List.filterMap_congr fun name hname => ?_).trans List.filterMap_some
  have hopened := mentions_opened_iff.mpr h.opened name (List.mem_eraseDups.mp hname)
  rw [← map_name_tags (V := V), ← Accounts.find?_isSome_iff] at hopened
  obtain ⟨tag, htag⟩ := Option.isSome_iff_exists.mp hopened
  rw [htag]
  exact congrArg some (by simpa using List.find?_some htag)

theorem WellFormed.closed (h : WellFormed V items) : (rulesetOf V items text).Closed := by
  have hlength : (rulesetOf V items text).tags.length =
      (items.flatMap Item.mentions).eraseDups.length := by
    rw [← h.tagNames_eq, Ruleset.tagNames, List.length_map]
  have hmentioned : ∀ item ∈ items, ∀ tokens, tokens ⊆ item.conditions →
      ∀ name ∈ references tokens, name ∈ items.flatMap Item.mentions := by
    intro item hitem tokens hsub name hname
    apply List.mem_flatMap.mpr
    exact ⟨item, hitem, List.mem_append_right _ (List.filterMap_subset _ hsub hname)⟩
  constructor
  · intro rule hrule
    rw [hlength]
    obtain ⟨item, hitem, hread⟩ := List.mem_filterMap.mp (List.mem_mergeSort.mp hrule)
    cases item with
    | rule line level conditions words =>
      cases hread
      exact predicates_within (hmentioned _ hitem conditions fun _ h => h)
    | block name body => cases hread
  · intro tag htag group hgroup
    rw [hlength]
    obtain ⟨name, _, hfind⟩ := List.mem_filterMap.mp htag
    obtain ⟨item, hitem, hread⟩ := List.mem_filterMap.mp (List.mem_of_find?_eq_some hfind)
    cases item with
    | rule line level conditions words => cases hread
    | block name body =>
      cases hread
      obtain ⟨run, hrun, rfl⟩ := List.mem_map.mp hgroup
      exact predicates_within (hmentioned _ hitem run (run_subset hrun))

end Reading

/-- Every reference in a ruleset that has been read leads to one of its tags. -/
theorem Vocabulary.closed_of_read {text : String} {r : Ruleset A M}
    (h : (V.read text).outcome = .ok r) : r.Closed := by
  obtain ⟨items, _, hwell, rfl⟩ := exists_items_of_read h
  exact hwell.closed

end PriorityRules
