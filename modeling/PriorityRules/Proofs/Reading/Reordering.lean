import Mathlib.Data.List.Induction
import Mathlib.Data.List.Nodup
import PriorityRules.Proofs.Evaluation.Renaming
import PriorityRules.Proofs.Reading.Pieces
import PriorityRules.Proofs.Reading.References

/-! # Items in another order

If rules of one level keep their order, items may stand in any order: what is well-formed stays so,
and the ruleset is the same up to the numbers of its tags and the lines of its rules.
-/

namespace PriorityRules

variable {A M : Type} {V : Vocabulary A M}

section Rename

variable {σ : Nat → Nat} {position : String → Nat}

namespace Vocabulary

theorem interpretPlain_rename (token : Token) :
    V.interpretPlain (σ ∘ position) token =
      (V.interpretPlain position token).map (Predicate.rename σ) := by
  unfold interpretPlain
  split
  · rfl
  · rfl
  · rename_i body
    cases Comparison.ofBody V.declared (Reading.dropClosing body) <;> rfl
  · cases Reading.consult? V token with
    | none => rfl
    | some consulted =>
      obtain ⟨_, answer⟩ := consulted
      cases answer <;> rfl

/-- The names of tags enter only through their positions. -/
theorem interpret_rename (token : Token) :
    V.interpret (σ ∘ position) token = (V.interpret position token).map (Predicate.rename σ) := by
  induction token using Token.negations with
  | sign => rfl
  | negation inner hinner ih =>
    rw [interpret_negation hinner, interpret_negation hinner, ih]
    cases V.interpret position inner <;> rfl
  | plain token hplain =>
    rw [interpret_plain hplain, interpret_plain hplain, interpretPlain_rename]

theorem predicates_rename (tokens : List Token) :
    V.predicates (σ ∘ position) tokens = Group.rename σ (V.predicates position tokens) := by
  rw [Group.rename, predicates, predicates, List.map_filterMap]
  apply List.filterMap_congr
  intro token _
  rw [interpret_rename]
  cases V.interpret position token <;> rfl

end Vocabulary

namespace Reading.Item

theorem rule?_rename (item : Item) :
    item.rule? V (σ ∘ position) = (item.rule? V position).map (Rule.rename σ) := by
  cases item with
  | rule line level conditions words => simp [rule?, Rule.rename, Vocabulary.predicates_rename]
  | block name body => rfl

theorem tag?_rename (item : Item) :
    item.tag? V (σ ∘ position) = (item.tag? V position).map (Tag.rename σ) := by
  cases item with
  | rule line level conditions words => rfl
  | block name body => simp [tag?, Tag.rename, Vocabulary.predicates_rename]

end Reading.Item

end Rename

namespace Reading

namespace Item

variable {position : String → Nat}

theorem rule?_unnumbered (item : Item) :
    item.unnumbered.rule? V position = (item.rule? V position).map Rule.unnumbered := by
  cases item <;> rfl

theorem tag?_unnumbered (item : Item) : item.unnumbered.tag? V position = item.tag? V position := by
  cases item <;> rfl

theorem opened?_unnumbered (item : Item) : item.unnumbered.opened? = item.opened? := by
  cases item <;> rfl

theorem conditions_unnumbered (item : Item) : item.unnumbered.conditions = item.conditions := by
  cases item <;> rfl

theorem mentions_unnumbered (item : Item) : item.unnumbered.mentions = item.mentions := by
  cases item <;> rfl

theorem accepted_unnumbered (item : Item) : item.unnumbered.Accepted V ↔ item.Accepted V := by
  cases item <;> rfl

end Item

/-- The items are the same up to their order and their lines, and rules of one level stand in the
same order. -/
structure Reordered (items items' : List Item) : Prop where
  perm : (items.map Item.unnumbered).Perm (items'.map Item.unnumbered)
  stable : ∀ level, (items.map Item.unnumbered).filter (·.level? = some level) =
    (items'.map Item.unnumbered).filter (·.level? = some level)

section WellFormed

variable {items items' : List Item}

theorem wellFormed_unnumbered :
    WellFormed V (items.map Item.unnumbered) ↔ WellFormed V items := by
  have hopened : (items.map Item.unnumbered).filterMap Item.opened? =
      items.filterMap Item.opened? := by
    simp only [List.filterMap_map, Function.comp_def, Item.opened?_unnumbered]
  constructor
  · rintro ⟨haccepted, honce, href⟩
    rw [hopened] at honce href
    simp only [List.forall_mem_map, Item.accepted_unnumbered, Item.conditions_unnumbered]
      at haccepted href
    exact ⟨haccepted, honce, href⟩
  · rintro ⟨haccepted, honce, href⟩
    constructor
    · simpa only [List.forall_mem_map, Item.accepted_unnumbered] using haccepted
    · rwa [hopened]
    · simpa only [hopened, List.forall_mem_map, Item.conditions_unnumbered] using href

theorem WellFormed.perm (h : WellFormed V items) (hperm : items.Perm items') :
    WellFormed V items' := by
  have hopened := hperm.filterMap Item.opened?
  constructor
  · exact fun item hitem => h.accepted item (hperm.mem_iff.mpr hitem)
  · exact hopened.nodup_iff.mp h.once
  · exact fun item hitem name hname =>
      hopened.mem_iff.mp (h.opened item (hperm.mem_iff.mpr hitem) name hname)

theorem Reordered.wellFormed (h : Reordered items items') (hwell : WellFormed V items) :
    WellFormed V items' :=
  wellFormed_unnumbered.mp ((wellFormed_unnumbered.mpr hwell).perm h.perm)

theorem flatMap_mentions_unnumbered :
    (items.map Item.unnumbered).flatMap Item.mentions = items.flatMap Item.mentions := by
  simp only [List.flatMap_map, Item.mentions_unnumbered]

theorem Reordered.mentions_perm (h : Reordered items items') :
    (items.flatMap Item.mentions).Perm (items'.flatMap Item.mentions) := by
  have hperm := h.perm.flatMap_right Item.mentions
  rwa [flatMap_mentions_unnumbered, flatMap_mentions_unnumbered] at hperm

end WellFormed

theorem nodup_eraseDups {α : Type} [BEq α] [LawfulBEq α] (names : List α) :
    names.eraseDups.Nodup := by
  induction names using List.reverseRecOn with
  | nil => exact List.nodup_nil
  | append_singleton names name ih =>
    rw [eraseDups_snoc]
    split
    · exact ih
    · rename_i hname
      exact ih.append (List.nodup_singleton name) (by simpa using hname)

def renumber (names names' : List String) (id : Nat) : Nat :=
  (names.eraseDups[id]?.map (place names')).getD id

section Renumber

variable {names names' : List String}

theorem length_eraseDups (h : names.Perm names') :
    names.eraseDups.length = names'.eraseDups.length := by
  apply List.Perm.length_eq
  rw [List.perm_ext_iff_of_nodup (nodup_eraseDups names) (nodup_eraseDups names')]
  intro name
  rw [List.mem_eraseDups, List.mem_eraseDups, h.mem_iff]

theorem renumber_of_lt {id : Nat} (hid : id < names.eraseDups.length) :
    renumber names names' id = place names' names.eraseDups[id] := by
  simp [renumber, List.getElem?_eq_getElem hid]

theorem renumber_of_le {id : Nat} (hid : names.eraseDups.length ≤ id) :
    renumber names names' id = id := by
  simp [renumber, List.getElem?_eq_none hid]

theorem place_lt {name : String} : place names name < names.eraseDups.length ↔ name ∈ names := by
  rw [place, List.idxOf_lt_length_iff, List.mem_eraseDups]

/-- A name that occurs nowhere is placed behind all others in both orders. -/
theorem renumber_place (h : names.Perm names') :
    renumber names names' ∘ place names = place names' := by
  funext name
  by_cases hname : name ∈ names
  · have hlt := place_lt.mpr hname
    rw [Function.comp_apply, renumber_of_lt hlt]
    congr 1
    exact List.getElem_idxOf hlt
  · have hplace : place names name = names.eraseDups.length :=
      List.idxOf_eq_length (by simpa using hname)
    have hplace' : place names' name = names'.eraseDups.length :=
      List.idxOf_eq_length (by simpa [← h.mem_iff] using hname)
    rw [Function.comp_apply, hplace, renumber_of_le (Nat.le_refl _), hplace', length_eraseDups h]

theorem renumber_lt_iff (h : names.Perm names') (id : Nat) :
    renumber names names' id < names.eraseDups.length ↔ id < names.eraseDups.length := by
  by_cases hid : id < names.eraseDups.length
  · have hmem : names.eraseDups[id] ∈ names' :=
      h.mem_iff.mp (List.mem_eraseDups.mp (List.getElem_mem hid))
    rw [renumber_of_lt hid, length_eraseDups h, place_lt, ← length_eraseDups h]
    simp [hid, hmem]
  · rw [renumber_of_le (Nat.le_of_not_lt hid)]

theorem renumber_injective (h : names.Perm names') : (renumber names names').Injective := by
  intro i j hij
  have hsame : i < names.eraseDups.length ↔ j < names.eraseDups.length := by
    rw [← renumber_lt_iff h i, ← renumber_lt_iff h j, hij]
  by_cases hi : i < names.eraseDups.length
  · have hj := hsame.mp hi
    rw [renumber_of_lt hi, renumber_of_lt hj] at hij
    have hmem : names.eraseDups[i] ∈ names'.eraseDups :=
      List.mem_eraseDups.mpr (h.mem_iff.mp (List.mem_eraseDups.mp (List.getElem_mem hi)))
    exact (nodup_eraseDups names).getElem_inj_iff.mp ((List.idxOf_inj hmem).mp hij)
  · have hj := mt hsame.mpr hi
    rwa [renumber_of_le (Nat.le_of_not_lt hi), renumber_of_le (Nat.le_of_not_lt hj)] at hij

end Renumber

def renumberTags (items items' : List Item) : Nat → Nat :=
  renumber (items.flatMap Item.mentions) (items'.flatMap Item.mentions)

section Ruleset

variable {items items' : List Item} {text text' : String}

theorem inOrder_map (f : Rule A M → Rule A M) (hf : ∀ rule, (f rule).level = rule.level)
    (rules : List (Rule A M)) :
    (Ruleset.inOrder rules).map f = Ruleset.inOrder (rules.map f) := by
  apply List.map_mergeSort
  intro a _ b _
  rw [hf, hf]

theorem atLevel_rules (position : String → Nat) (level : Int) (items : List Item) :
    atLevel level (items.filterMap (Item.rule? V position)) =
      (items.filter (·.level? = some level)).filterMap (Item.rule? V position) := by
  rw [atLevel, List.filter_filterMap, List.filterMap_filter]
  apply List.filterMap_congr
  intro item _
  cases item <;> simp [Item.rule?, Item.level?, Option.filter]

theorem map_unnumbered_rules (position : String → Nat) (items : List Item) :
    (Ruleset.inOrder (items.filterMap (Item.rule? V position))).map Rule.unnumbered =
      Ruleset.inOrder ((items.map Item.unnumbered).filterMap (Item.rule? V position)) := by
  rw [inOrder_map Rule.unnumbered fun _ => rfl, List.map_filterMap, List.filterMap_map]
  simp only [Function.comp_def, Item.rule?_unnumbered]

theorem Reordered.rules_mirror (h : Reordered items items') {σ : Nat → Nat}
    (position : String → Nat) :
    Evaluation.MirrorRules σ (Ruleset.inOrder (items.filterMap (Item.rule? V position)))
      (Ruleset.inOrder (items'.filterMap (Item.rule? V (σ ∘ position)))) := by
  have hrename : (items.filterMap (Item.rule? V position)).map (Rule.rename σ) =
      items.filterMap (Item.rule? V (σ ∘ position)) := by
    rw [List.map_filterMap]
    simp only [Item.rule?_rename]
  rw [Evaluation.MirrorRules, inOrder_map (Rule.rename σ) fun _ => rfl, hrename,
    map_unnumbered_rules, map_unnumbered_rules]
  apply Ruleset.inOrder_eq_of_atLevel
  intro level
  rw [atLevel_rules, atLevel_rules, h.stable]

theorem mem_tags_of_rulesetOf {tag : Tag A} (h : tag ∈ (rulesetOf V items text).tags) :
    tag ∈ items.filterMap (Item.tag? V (place (items.flatMap Item.mentions))) := by
  obtain ⟨name, _, hfind⟩ := List.mem_filterMap.mp h
  exact List.mem_of_find?_eq_some hfind

theorem Reordered.mem_tags (h : Reordered items items') {position : String → Nat} {tag : Tag A}
    (htag : tag ∈ items.filterMap (Item.tag? V position)) :
    tag ∈ items'.filterMap (Item.tag? V position) := by
  have hperm := h.perm.filterMap (Item.tag? V position)
  simp only [List.filterMap_map, Function.comp_def, Item.tag?_unnumbered] at hperm
  exact hperm.mem_iff.mp htag

/-- At the place of a name stands the tag of that name. -/
theorem WellFormed.tag_at_place (h : WellFormed V items) (text : String) {name : String}
    (hname : name ∈ items.flatMap Item.mentions) :
    ∃ tag, (rulesetOf V items text).tags[place (items.flatMap Item.mentions) name]? = some tag ∧
      tag.name = name ∧
      tag ∈ items.filterMap (Item.tag? V (place (items.flatMap Item.mentions))) := by
  have hnames : (rulesetOf V items text).tagNames[place (items.flatMap Item.mentions) name]? =
      some name := by
    rw [h.tagNames_eq]
    exact List.getElem?_idxOf (List.mem_eraseDups.mpr hname)
  rw [Ruleset.tagNames, List.getElem?_map, Option.map_eq_some_iff] at hnames
  obtain ⟨tag, htag, heq⟩ := hnames
  exact ⟨tag, htag, heq, mem_tags_of_rulesetOf (List.mem_of_getElem? htag)⟩

theorem WellFormed.length_tags (h : WellFormed V items) :
    (rulesetOf V items text).tags.length = (items.flatMap Item.mentions).eraseDups.length := by
  have hnames : (rulesetOf V items text).tagNames = _ := h.tagNames_eq
  rw [← hnames, Ruleset.tagNames, List.length_map]

theorem WellFormed.tag_unique (h : WellFormed V items) {position : String → Nat} {tag other : Tag A}
    (htag : tag ∈ items.filterMap (Item.tag? V position))
    (hother : other ∈ items.filterMap (Item.tag? V position)) (hname : tag.name = other.name) :
    tag = other := by
  have honce := h.once
  rw [← map_name_tags (V := V)] at honce
  exact List.inj_on_of_nodup_map honce htag hother hname

/-- The tags are the same, at the positions where the other order puts their names. -/
theorem Reordered.tags_mirror (h : Reordered items items') (hwell : WellFormed V items) (id : Nat) :
    (rulesetOf V items' text').tags[renumberTags items items' id]? =
      (rulesetOf V items text).tags[id]?.map (Tag.rename (renumberTags items items')) := by
  have hwell' := h.wellFormed hwell
  by_cases hid : id < (items.flatMap Item.mentions).eraseDups.length
  · -- both tags bear the name at position `id`, and just one definition does so
    obtain ⟨name, hname, rfl⟩ : ∃ name ∈ items.flatMap Item.mentions,
        place (items.flatMap Item.mentions) name = id :=
      ⟨_, List.mem_eraseDups.mp (List.getElem_mem hid), (nodup_eraseDups _).idxOf_getElem id hid⟩
    obtain ⟨tag, htag, hbears, hmem⟩ := hwell.tag_at_place text hname
    obtain ⟨tag', htag', hbears', hmem'⟩ :=
      hwell'.tag_at_place text' (h.mentions_perm.mem_iff.mp hname)
    have hplace : renumberTags items items' ∘ place _ = place _ := renumber_place h.mentions_perm
    have hat : renumberTags items items' (place _ name) = place _ name := congrFun hplace name
    have hrenamed : tag.rename (renumberTags items items') ∈
        items'.filterMap (Item.tag? V (place (items'.flatMap Item.mentions))) := by
      obtain ⟨item, hitem, hdef⟩ := List.mem_filterMap.mp (h.mem_tags hmem)
      refine List.mem_filterMap.mpr ⟨item, hitem, ?_⟩
      rw [← hplace, Item.tag?_rename, hdef]
      rfl
    have hsame := hwell'.tag_unique hmem' hrenamed (hbears'.trans hbears.symm)
    rw [htag, hat, htag', hsame, Option.map_some]
  · have hle := Nat.le_of_not_lt hid
    have hstays : renumberTags items items' id = id := renumber_of_le hle
    have hnone : (rulesetOf V items text).tags[id]? = none :=
      List.getElem?_eq_none (hwell.length_tags ▸ hle)
    have hnone' : (rulesetOf V items' text').tags[id]? = none :=
      List.getElem?_eq_none (hwell'.length_tags ▸ length_eraseDups h.mentions_perm ▸ hle)
    rw [hstays, hnone, hnone', Option.map_none]

/-- Items in another order give a ruleset that differs in the numbers of its tags and the lines of
its rules only. -/
theorem Reordered.mirrors (h : Reordered items items') (hwell : WellFormed V items) :
    (rulesetOf V items text).Mirrors (renumberTags items items') (rulesetOf V items' text') := by
  constructor
  · exact renumber_injective h.mentions_perm
  · exact h.tags_mirror hwell
  · rw [rulesetOf, rulesetOf, ← renumber_place h.mentions_perm]
    exact h.rules_mirror _

end Ruleset

/-- The same pieces in another order, in which the rule lines of each level keep theirs. -/
structure Rearranged (pieces pieces' : List Piece) : Prop where
  perm : pieces.Perm pieces'
  stable : ∀ level,
    pieces.filter (·.level? = some level) = pieces'.filter (·.level? = some level)

theorem filter_items (pieces : List Piece) (level : Int) :
    (pieces.filterMap (·.item?)).filter (·.level? = some level) =
      (pieces.filter (·.level? = some level)).filterMap (·.item?) := by
  rw [List.filter_filterMap, List.filterMap_filter]
  apply List.filterMap_congr
  intro piece _
  cases hitem : piece.item? <;> simp [Piece.level?, hitem, Option.filter]

theorem Rearranged.reordered {pieces pieces' : List Piece} (h : Rearranged pieces pieces')
    {items items' : List Item}
    (hitems : items.map Item.unnumbered = pieces.filterMap (·.item?))
    (hitems' : items'.map Item.unnumbered = pieces'.filterMap (·.item?)) :
    Reordered items items' := by
  constructor
  · rw [hitems, hitems']
    exact h.perm.filterMap (·.item?)
  · intro level
    rw [hitems, hitems', filter_items, filter_items, h.stable]

/-- Where a text is read, so is the text of its pieces in another order; the rulesets differ in the
numbers of the tags and the lines of the rules only. -/
theorem Rearranged.exists_mirror {pieces pieces' : List Piece} (h : Rearranged pieces pieces')
    {r : Ruleset A M} (hread : (V.read (textOf pieces)).outcome = .ok r) :
    ∃ r' σ, (V.read (textOf pieces')).outcome = .ok r' ∧ r.Mirrors σ r' := by
  obtain ⟨items, hlayout, hitems⟩ := exists_layout_of_pieces pieces 1
  obtain ⟨items', hlayout', hitems'⟩ := exists_layout_of_pieces pieces' 1
  rw [← tokenLines_textOf] at hlayout hlayout'
  have hreordered := h.reordered hitems hitems'
  obtain ⟨hwell, rfl⟩ := (V.outcome_read_of_layout _ _ hlayout).mp hread
  have hread' := (V.outcome_read_of_layout _ _ hlayout').mpr ⟨hreordered.wellFormed hwell, rfl⟩
  exact ⟨_, _, hread', hreordered.mirrors hwell⟩

end Reading

end PriorityRules
