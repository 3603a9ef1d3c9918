import PriorityRules.Proofs.Evaluation.Surroundings
import PriorityRules.Proofs.Reading.Reordering

/-! # One text behind another

Two texts that load and open different tags load together as well. The rules of the second one
stand further down, and its tags have greater numbers; apart from that the two do not bear on each
other: every conjunction comes to what it comes to in its own text.
-/

namespace PriorityRules

variable {A M : Type} {V : Vocabulary A M}

theorem Vocabulary.tokenLines_append {first second : String}
    (hend : first = "" ∨ first.toList.getLast? = some '\n') :
    tokenLines (first ++ second) = tokenLines first ++ tokenLines second := by
  obtain ⟨lines, hlines, hfirst⟩ :=
    Reading.exists_lines_of_feed (hend.imp_left (congrArg String.toList))
  have halone := Reading.lines_flatMap_feed hlines []
  rw [List.append_nil, ← hfirst, Text.lines, List.map_nil, List.append_nil] at halone
  rw [tokenLines, String.toList_append, hfirst, Reading.lines_flatMap_feed hlines, ← halone]
  rfl

namespace Reading

def Item.moveDown (lines : Nat) : Item → Item
  | rule line level conditions words => rule (line + lines) level conditions words
  | block name body => block name body

section MoveDown

variable {n line : Nat} {lines others : List (List Token)} {items rest : List Item}

theorem map_unnumbered_moveDown (n : Nat) (items : List Item) :
    (items.map (Item.moveDown n)).map Item.unnumbered = items.map Item.unnumbered := by
  rw [List.map_map]
  apply List.map_congr_left
  intro item _
  cases item <;> rfl

theorem flatMap_mentions_moveDown : (items.map (Item.moveDown n)).flatMap Item.mentions =
    items.flatMap Item.mentions := by
  rw [← flatMap_mentions_unnumbered, map_unnumbered_moveDown, flatMap_mentions_unnumbered]

theorem Layout.moveDown (h : Layout line lines items) (n : Nat) :
    Layout (line + n) lines (items.map (Item.moveDown n)) := by
  induction h with
  | done => exact .done
  | skipped hskipped _ ih =>
    rw [Nat.add_right_comm] at ih
    exact .skipped hskipped ih
  | rule hlevel harrow _ ih =>
    rw [Nat.add_right_comm] at ih
    exact .rule hlevel harrow ih
  | block hname henclosed _ ih =>
    rw [Nat.add_right_comm, Nat.add_right_comm _ 1] at ih
    exact .block hname henclosed ih

theorem Layout.append (h : Layout line lines items)
    (hrest : Layout (line + lines.length) others rest) :
    Layout line (lines ++ others) (items ++ rest) := by
  induction h with
  | done => exact hrest
  | skipped hskipped _ ih =>
    rw [List.length_cons, ← Nat.add_assoc, Nat.add_right_comm] at hrest
    exact .skipped hskipped (ih hrest)
  | rule hlevel harrow _ ih =>
    rw [List.length_cons, ← Nat.add_assoc, Nat.add_right_comm] at hrest
    exact .rule hlevel harrow (ih hrest)
  | @block line name first used body lines items hname henclosed _ ih =>
    have hlength : line + ((name :: ['['] :: first) :: (used ++ lines)).length =
        line + 1 + used.length + lines.length := by
      rw [List.length_cons, List.length_append]
      omega
    rw [hlength] at hrest
    rw [List.cons_append, List.append_assoc]
    exact .block hname henclosed (ih hrest)

theorem opened_mentioned {name : String} (h : name ∈ items.filterMap Item.opened?) :
    name ∈ items.flatMap Item.mentions := by
  obtain ⟨item, hitem, hname⟩ := List.mem_filterMap.mp h
  exact List.mem_flatMap.mpr
    ⟨item, hitem, List.mem_append_left _ (Option.mem_toList.mpr hname)⟩

theorem WellFormed.append (h : WellFormed V items) (hrest : WellFormed V rest)
    (hnames : (items.flatMap Item.mentions).Disjoint (rest.flatMap Item.mentions)) :
    WellFormed V (items ++ rest) := by
  constructor
  · exact List.forall_mem_append.mpr ⟨h.accepted, hrest.accepted⟩
  · rw [List.filterMap_append]
    exact h.once.append hrest.once fun name hname hname' =>
      hnames (opened_mentioned hname) (opened_mentioned hname')
  · rw [List.filterMap_append, List.forall_mem_append]
    exact ⟨fun item hitem name hname => List.mem_append_left _ (h.opened item hitem name hname),
      fun item hitem name hname => List.mem_append_right _ (hrest.opened item hitem name hname)⟩

theorem WellFormed.moveDown (h : WellFormed V items) (n : Nat) :
    WellFormed V (items.map (Item.moveDown n)) := by
  rw [← wellFormed_unnumbered, map_unnumbered_moveDown]
  exact wellFormed_unnumbered.mpr h

end MoveDown

section Place

variable {names others : List String} {name : String}

theorem eraseDups_append_of_disjoint (h : names.Disjoint others) :
    (names ++ others).eraseDups = names.eraseDups ++ others.eraseDups := by
  rw [List.eraseDups_append]
  congr 2
  apply List.filter_eq_self.mpr
  intro name hname
  simpa using fun hmem => h hmem hname

theorem place_append_left (hname : name ∈ names) :
    place (names ++ others) name = place names name := by
  obtain ⟨more, hmore⟩ := prefix_eraseDups (List.prefix_append names others)
  rw [place, ← hmore, List.idxOf_append, if_pos (List.mem_eraseDups.mpr hname), place]

theorem place_append_right (h : names.Disjoint others) (hname : name ∈ others) :
    place (names ++ others) name = place others name + names.eraseDups.length := by
  have hnew : name ∉ names.eraseDups := fun hmem => h (List.mem_eraseDups.mp hmem) hname
  rw [place, eraseDups_append_of_disjoint h, List.idxOf_append, if_neg hnew, place]

end Place

section Congr

variable {position position' : String → Nat}

theorem predicates_congr {tokens : List Token}
    (h : ∀ name ∈ references tokens, position name = position' name) :
    V.predicates position tokens = V.predicates position' tokens := by
  apply List.filterMap_congr
  intro token htoken
  rw [Vocabulary.interpret_congr fun name href =>
    h name (List.mem_filterMap.mpr ⟨token, htoken, href⟩)]

theorem Item.rule?_congr {item : Item}
    (h : ∀ name ∈ item.mentions, position name = position' name) :
    item.rule? V position = item.rule? V position' := by
  cases item with
  | block name body => rfl
  | rule line level conditions words =>
    have hconditions : V.predicates position conditions = V.predicates position' conditions :=
      predicates_congr h
    rw [rule?, rule?, hconditions]

theorem Item.tag?_congr {item : Item}
    (h : ∀ name ∈ item.mentions, position name = position' name) :
    item.tag? V position = item.tag? V position' := by
  cases item with
  | rule line level conditions words => rfl
  | block name body =>
    have hruns : (body.flatMap runs).map (V.predicates position) =
        (body.flatMap runs).map (V.predicates position') := by
      apply List.map_congr_left
      intro run hrun
      apply predicates_congr
      intro other hother
      exact h other (List.mem_append_right _ (List.filterMap_subset _ (run_subset hrun) hother))
    rw [tag?, tag?, hruns]

end Congr

end Reading

def Rule.moveDown (lines tags : Nat) (rule : Rule A M) : Rule A M :=
  { rule.rename (· + tags) with line := rule.line + lines }

namespace Reading

/-- Where tags in front and behind bear different names, each name leads to a tag on its side. -/
theorem lookups_append {names others : List String} (h : names.Disjoint others)
    {tags more : List (Tag A)} (htags : ∀ tag ∈ tags, tag.name ∈ names)
    (hmore : ∀ tag ∈ more, tag.name ∈ others) :
    ((names ++ others).eraseDups.filterMap fun name => (tags ++ more).find? (·.name = name)) =
      (names.eraseDups.filterMap fun name => tags.find? (·.name = name)) ++
        others.eraseDups.filterMap fun name => more.find? (·.name = name) := by
  rw [eraseDups_append_of_disjoint h, List.filterMap_append]
  congr 1
  · apply List.filterMap_congr
    intro name hname
    have hnone : more.find? (·.name = name) = none := by
      rw [List.find?_eq_none]
      intro tag htag heq
      exact h (List.mem_eraseDups.mp hname) (of_decide_eq_true heq ▸ hmore tag htag)
    rw [List.find?_append, hnone, Option.or_none]
  · apply List.filterMap_congr
    intro name hname
    have hnone : tags.find? (·.name = name) = none := by
      rw [List.find?_eq_none]
      intro tag htag heq
      exact h (of_decide_eq_true heq ▸ htags tag htag) (List.mem_eraseDups.mp hname)
    rw [List.find?_append, hnone, Option.none_or]

section Rulesets

variable {items others : List Item} {n : Nat}
  (hnames : (items.flatMap Item.mentions).Disjoint (others.flatMap Item.mentions))

theorem flatMap_mentions_append :
    (items ++ others.map (Item.moveDown n)).flatMap Item.mentions =
      items.flatMap Item.mentions ++ others.flatMap Item.mentions := by
  rw [List.flatMap_append, flatMap_mentions_moveDown]

theorem position_front {item : Item} (hitem : item ∈ items) :
    ∀ name ∈ item.mentions,
      place (items.flatMap Item.mentions ++ others.flatMap Item.mentions) name =
        place (items.flatMap Item.mentions) name :=
  fun _ hname => place_append_left (List.mem_flatMap.mpr ⟨item, hitem, hname⟩)

theorem rules_front :
    items.filterMap (Item.rule? V
        (place (items.flatMap Item.mentions ++ others.flatMap Item.mentions))) =
      items.filterMap (Item.rule? V (place (items.flatMap Item.mentions))) :=
  List.filterMap_congr fun _ hitem => Item.rule?_congr (position_front hitem)

theorem name_mentioned {position : String → Nat} {tag : Tag A}
    (h : tag ∈ items.filterMap (Item.tag? V position)) :
    tag.name ∈ items.flatMap Item.mentions :=
  opened_mentioned (map_name_tags (V := V) ▸ List.mem_map_of_mem h)

theorem tags_front :
    items.filterMap (Item.tag? V
        (place (items.flatMap Item.mentions ++ others.flatMap Item.mentions))) =
      items.filterMap (Item.tag? V (place (items.flatMap Item.mentions))) :=
  List.filterMap_congr fun _ hitem => Item.tag?_congr (position_front hitem)

include hnames

theorem position_behind {item : Item} (hitem : item ∈ others) :
    ∀ name ∈ item.mentions,
      place (items.flatMap Item.mentions ++ others.flatMap Item.mentions) name =
        ((· + (items.flatMap Item.mentions).eraseDups.length) ∘
          place (others.flatMap Item.mentions)) name :=
  fun _ hname => place_append_right hnames (List.mem_flatMap.mpr ⟨item, hitem, hname⟩)

theorem rules_behind :
    (others.map (Item.moveDown n)).filterMap (Item.rule? V
        (place (items.flatMap Item.mentions ++ others.flatMap Item.mentions))) =
      (others.filterMap (Item.rule? V (place (others.flatMap Item.mentions)))).map
        (Rule.moveDown n (items.flatMap Item.mentions).eraseDups.length) := by
  rw [List.filterMap_map, List.map_filterMap]
  apply List.filterMap_congr
  intro item hitem
  have hrule := Item.rule?_congr (V := V) (position_behind hnames hitem)
  rw [Item.rule?_rename] at hrule
  cases item with
  | block name body => rfl
  | rule line level conditions words =>
    have hconditions := congrArg Rule.conditions (Option.some.inj hrule)
    simp only [Rule.rename] at hconditions
    simp [Item.moveDown, Item.rule?, Rule.moveDown, Rule.rename, hconditions]

theorem tags_behind :
    (others.map (Item.moveDown n)).filterMap (Item.tag? V
        (place (items.flatMap Item.mentions ++ others.flatMap Item.mentions))) =
      (others.filterMap (Item.tag? V (place (others.flatMap Item.mentions)))).map
        (Tag.rename (· + (items.flatMap Item.mentions).eraseDups.length)) := by
  rw [List.filterMap_map, List.map_filterMap]
  apply List.filterMap_congr
  intro item hitem
  rw [← Item.tag?_rename, ← Item.tag?_congr (position_behind hnames hitem)]
  cases item <;> rfl

/-- The tags of the first items come first, and those of the others follow under greater
numbers. -/
theorem tags_rulesetOf_append (hitems : WellFormed V items) (text first second : String) :
    (rulesetOf V (items ++ others.map (Item.moveDown n)) text).tags =
      (rulesetOf V items first).tags ++
        (rulesetOf V others second).tags.map
          (Tag.rename (· + (rulesetOf V items first).tags.length)) := by
  rw [hitems.length_tags]
  simp only [rulesetOf]
  rw [flatMap_mentions_append, List.filterMap_append, tags_front, tags_behind hnames,
    lookups_append hnames]
  · congr 1
    refine Eq.trans ?_ List.map_filterMap.symm
    apply List.filterMap_congr
    intro name _
    exact List.find?_map
  · exact fun tag htag => name_mentioned htag
  · intro tag htag
    obtain ⟨other, hother, rfl⟩ := List.mem_map.mp htag
    have hname : other.name ∈ others.flatMap Item.mentions := name_mentioned hother
    exact hname

/-- The rules are those of the first items and, further down, those of the others. -/
theorem rules_rulesetOf_append (hitems : WellFormed V items) (text first second : String) :
    SortedByLevel
      ((rulesetOf V items first).rules ++ (rulesetOf V others second).rules.map
        (Rule.moveDown n (rulesetOf V items first).tags.length))
      (rulesetOf V (items ++ others.map (Item.moveDown n)) text).rules := by
  rw [hitems.length_tags]
  simp only [rulesetOf]
  rw [flatMap_mentions_append, List.filterMap_append, rules_front, rules_behind hnames,
    inOrder_map (Rule.moveDown n _) fun _ => rfl]
  generalize items.filterMap _ = rules, List.map (Rule.moveDown n _) _ = more
  have hmerged : Ruleset.inOrder (rules ++ more) =
      Ruleset.inOrder (Ruleset.inOrder rules ++ Ruleset.inOrder more) :=
    Ruleset.inOrder_eq_of_atLevel fun level => by simp
  rw [hmerged]
  exact Ruleset.inOrder_sortedByLevel

end Rulesets

end Reading

namespace Vocabulary

open Reading

/-- Two texts that are read and open different tags are also read one behind the other. The rules
are those of both, brought into order, and the tags of the second text follow those of the first.
Whatever holds and whatever the numbers are, the conditions of each rule come to the same truth
value or to the same circular reference as in the text of the rule. -/
theorem read_append {first second : String} {ra rb : Ruleset A M}
    (hend : first = "" ∨ first.toList.getLast? = some '\n')
    (ha : (V.read first).outcome = .ok ra) (hb : (V.read second).outcome = .ok rb)
    (hnames : ra.tagNames.Disjoint rb.tagNames) :
    let down := Rule.moveDown (Text.lines first.toList).length ra.tags.length
    ∃ r, (V.read (first ++ second)).outcome = .ok r ∧
      SortedByLevel (ra.rules ++ rb.rules.map down) r.rules ∧
      r.tags = ra.tags ++ rb.tags.map (Tag.rename (· + ra.tags.length)) ∧
      ∀ (holds : A → Bool) (numbers : List Float),
        (∀ rule ∈ ra.rules,
          r.answer holds numbers rule.conditions = ra.answer holds numbers rule.conditions) ∧
        ∀ rule ∈ rb.rules,
          r.answer holds numbers (down rule).conditions =
            rb.answer holds numbers rule.conditions := by
  intro down
  obtain ⟨items, hlayout, hitems, rfl⟩ := exists_items_of_read ha
  obtain ⟨others, hlayout', hothers, rfl⟩ := exists_items_of_read hb
  rw [hitems.tagNames_eq, hothers.tagNames_eq] at hnames
  have hmentions : (items.flatMap Item.mentions).Disjoint (others.flatMap Item.mentions) :=
    fun name hname hname' => hnames (List.mem_eraseDups.mpr hname) (List.mem_eraseDups.mpr hname')
  have hboth : Layout 1 (tokenLines (first ++ second))
      (items ++ others.map (Item.moveDown (Text.lines first.toList).length)) := by
    rw [tokenLines_append hend]
    apply hlayout.append
    rw [tokenLines, List.length_map]
    exact hlayout'.moveDown _
  have hwell : WellFormed V
      (items ++ others.map (Item.moveDown (Text.lines first.toList).length)) := by
    apply hitems.append (hothers.moveDown _)
    rwa [flatMap_mentions_moveDown]
  have htags := tags_rulesetOf_append hmentions hitems (first ++ second) first second
    (n := (Text.lines first.toList).length)
  refine ⟨_, (V.outcome_read_of_layout _ _ hboth).mpr ⟨hwell, rfl⟩,
    rules_rulesetOf_append hmentions hitems _ _ _, htags, fun holds numbers => ⟨?_, ?_⟩⟩
  · intro rule hrule
    exact Ruleset.answer_of_append holds numbers hitems.closed.tags htags
      (hitems.closed.rules rule hrule)
  · intro rule _
    exact Ruleset.answer_of_behind holds numbers htags

/-- The rulesets of two texts. The tag of the second one refers to itself. -/
def openDoor : Ruleset String String where
  rules := [⟨1, 1, [.tag 0], [⟨1, "shut"⟩]⟩]
  tags := [⟨"open", [[.atom "seen"]]⟩]
  source := some "1 %open -> shut\nopen [ seen ]\n"

def shutDoor : Ruleset String String where
  rules := [⟨2, 1, [.atom "bell", .not (.tag 0)], [⟨1, "open"⟩]⟩, ⟨1, 3, [], [⟨1, "wait"⟩]⟩]
  tags := [⟨"shut", [[.tag 0]]⟩]
  source := some "2 bell !%shut -> open\nshut [ %shut ]\n1 -> wait"

theorem verbatim_reads_both_doors :
    (verbatim.read "1 %open -> shut\nopen [ seen ]\n").outcome = .ok openDoor ∧
      (verbatim.read "2 bell !%shut -> open\nshut [ %shut ]\n1 -> wait").outcome =
        .ok shutDoor ∧
      openDoor.tagNames.Disjoint shutDoor.tagNames ∧
      ∃ r, (verbatim.read ("1 %open -> shut\nopen [ seen ]\n" ++
          "2 bell !%shut -> open\nshut [ %shut ]\n1 -> wait")).outcome = .ok r ∧
        SortedByLevel (openDoor.rules ++ shutDoor.rules.map (Rule.moveDown 2 1)) r.rules ∧
        r.tagNames = ["open", "shut"] ∧ r.answer (fun _ => true) [] [.tag 0] = .ok true ∧
        r.answer (fun _ => true) [] [.atom "bell", .not (.tag 1)] =
          .error (.circularTag ["shut", "shut"]) := by
  have hopen : (verbatim.read "1 %open -> shut\nopen [ seen ]\n").outcome = .ok openDoor := by
    rfl
  have hshut : (verbatim.read "2 bell !%shut -> open\nshut [ %shut ]\n1 -> wait").outcome =
      .ok shutDoor := by
    rfl
  have hnames : openDoor.tagNames.Disjoint shutDoor.tagNames := by
    simp [Ruleset.tagNames, openDoor, shutDoor]
  obtain ⟨r, hread, hsorted, htags, hanswers⟩ :=
    read_append (.inr (by decide)) hopen hshut hnames
  obtain ⟨hfirst, hsecond⟩ := hanswers (fun _ => true) []
  have hlines : (Text.lines "1 %open -> shut\nopen [ seen ]\n".toList).length = 2 := by decide
  rw [hlines] at hsorted
  have htrue : openDoor.answer (fun _ => true) [] [.tag 0] = .ok true := by cbv
  have hloop : shutDoor.answer (fun _ => true) [] [.atom "bell", .not (.tag 0)] =
      .error (.circularTag ["shut", "shut"]) := by cbv
  refine ⟨hopen, hshut, hnames, r, hread, hsorted, ?_, ?_, ?_⟩
  · rw [Ruleset.tagNames, htags]
    rfl
  · exact (hfirst _ (List.mem_singleton_self _)).trans htrue
  · exact (hsecond _ List.mem_cons_self).trans hloop

end Vocabulary

end PriorityRules
