import PriorityRules.Engine.Setup
import PriorityRules.Proofs.Reading.Acceptance

/-! # What a load leaves

A load that fails leaves the engine as it is. One that succeeds makes the ruleset of the text
active: its rules are those that the rule lines declare, the highest level first and within a level
in the order of the text.
-/

namespace PriorityRules

variable {C A M : Type}

namespace Reading

def declared (V : Vocabulary A M) (items : List Item) : List (Rule A M) :=
  items.filterMap (Item.rule? V (place (items.flatMap Item.mentions)))

/-- From top to bottom, the rule lines have ever greater numbers. -/
theorem Layout.lines_increase {V : Vocabulary A M} {position : String → Nat} {line : Nat}
    {lines : List (List Token)} {items : List Item} (h : Layout line lines items) :
    (∀ rule ∈ items.filterMap (Item.rule? V position), line ≤ rule.line) ∧
      (items.filterMap (Item.rule? V position)).Pairwise (·.line < ·.line) := by
  induction h with
  | done => simp
  | skipped _ _ ih => exact ⟨fun rule hrule => Nat.le_of_succ_le (ih.1 rule hrule), ih.2⟩
  | rule _ _ _ ih =>
    simp only [List.filterMap_cons, Item.rule?, List.forall_mem_cons, List.pairwise_cons]
    exact ⟨⟨Nat.le_refl _, fun rule hrule => Nat.le_of_succ_le (ih.1 rule hrule)⟩, ih⟩
  | @block line _ _ used _ _ _ _ _ _ ih =>
    simp only [List.filterMap_cons, Item.rule?]
    refine ⟨fun rule hrule => ?_, ih.2⟩
    have := ih.1 rule hrule
    omega

end Reading

namespace Vocabulary

open Reading

variable {V : Vocabulary A M} {text : String} {r : Ruleset A M}

theorem source_of_read (h : (V.read text).outcome = .ok r) : r.source = some text := by
  obtain ⟨items, _, _, rfl⟩ := exists_items_of_read h
  rfl

end Vocabulary

namespace Engine

open Reading

variable (e : Engine C A M) {text : String} {n : Nat}

/-- A load that fails changes nothing. -/
theorem load_of_error {error : LoadError} (h : (e.host.read text).outcome = .error error) :
    (e.load text).result = .error error ∧ (e.load text).engine = e := by
  simp [load, h]

theorem load_of_ok {r : Ruleset A M} (h : (e.host.read text).outcome = .ok r) :
    (e.load text).result = .ok r.size ∧
      (e.load text).engine = { e with active := r, revision := e.revision + 1 } := by
  simp [load, h]

theorem calls_load (text : String) : (e.load text).calls = (e.host.read text).calls := by
  cases h : (e.host.read text).outcome <;> simp [load, h]

theorem read_of_load (h : (e.load text).result = .ok n) :
    (e.host.read text).outcome = .ok (e.load text).engine.active ∧
      n = (e.load text).engine.active.size := by
  cases hread : (e.host.read text).outcome with
  | error error =>
    rw [(e.load_of_error hread).1] at h
    cases h
  | ok r =>
    rw [(e.load_of_ok hread).1] at h
    rw [(e.load_of_ok hread).2]
    exact ⟨rfl, (Except.ok.inj h).symm⟩

/-- A text that loads has a layout. The rules are its rule lines in a stable order by descending
level; their number is the result of the load, and the levels of the ruleset are just theirs. -/
theorem load_sorts_rule_lines (h : (e.load text).result = .ok n) :
    let r := (e.load text).engine.active
    (∃ items, Layout 1 (Vocabulary.tokenLines text) items) ∧
      ∀ items, Layout 1 (Vocabulary.tokenLines text) items →
        let lines := declared e.host.toVocabulary items
        lines.Pairwise (·.line < ·.line) ∧ SortedByLevel lines r.rules ∧
          r.rules.Pairwise (fun a b => a.level = b.level → a.line < b.line) ∧ n = lines.length ∧
          r.levels.Pairwise (· > ·) ∧
          ∀ level, level ∈ r.levels ↔ ∃ rule ∈ lines, rule.level = level := by
  obtain ⟨hread, rfl⟩ := e.read_of_load h
  obtain ⟨items, hlayout, _⟩ := Vocabulary.exists_items_of_read hread
  refine ⟨⟨items, hlayout⟩, fun items hlayout => ?_⟩
  intro lines
  obtain ⟨_, hr⟩ := (Vocabulary.outcome_read_of_layout _ _ _ hlayout).mp hread
  generalize (e.load text).engine.active = r at hr ⊢
  have hrules : r.rules = Ruleset.inOrder lines := congrArg Ruleset.rules hr
  have hincrease : lines.Pairwise (·.line < ·.line) := hlayout.lines_increase.2
  have hsorted : SortedByLevel lines r.rules := hrules ▸ Ruleset.inOrder_sortedByLevel
  refine ⟨hincrease, hsorted, pairwise_of_atLevel fun level => ?_, hsorted.perm.length_eq,
    Ruleset.levels_descending hsorted.descending, fun level => ?_⟩
  · rw [hsorted.stable]
    exact hincrease.sublist List.filter_sublist
  · rw [Ruleset.mem_levels]
    simp only [hsorted.perm.mem_iff]

/-- A signboard shows one text at a time. A condition holds while its own text is shown, and an
effect puts up its own text. -/
def signs : Setup String String String where
  holds := fun text shown => text = shown
  perform := fun text _ => text
  fallback := some .ok
  effects := some fun text => .ok [⟨1, text⟩]
  slots := { ids := [1] }
  defaultRules := "0 -> welcome"

def signboard : Engine String String String where
  host :=
    { signs with effects := fun text => .ok [⟨1, text⟩], declared := ⟨[], List.nodup_nil⟩ }

theorem build_signs : signs.build = .ok signboard := rfl

theorem signboard_sorts_rule_lines :
    let loading :=
      signboard.load "0 open -> shut\ndoors [\n open ]\n5 shut -> open\n0 %doors -> shut"
    let r := loading.engine.active
    loading.result = .ok 3 ∧ r.order = [(5, 4), (0, 1), (0, 5)] ∧ r.levels.Pairwise (· > ·) ∧
      ∃ items, SortedByLevel (declared signboard.host.toVocabulary items) r.rules ∧
        3 = (declared signboard.host.toVocabulary items).length := by
  intro loading r
  have hresult : loading.result = .ok 3 := rfl
  obtain ⟨⟨items, hlayout⟩, hlines⟩ := signboard.load_sorts_rule_lines hresult
  obtain ⟨_, hsorted, _, hlength, hlevels, _⟩ := hlines items hlayout
  exact ⟨hresult, rfl, hlevels, items, hsorted, hlength⟩

end Engine

end PriorityRules
