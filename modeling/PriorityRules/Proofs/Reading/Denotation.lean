import PriorityRules.Proofs.Reading.Reordering

/-! # What the parts of a ruleset are read from

Each rule of a ruleset comes from a rule line and each tag from a block, and each of their
predicates from a token. A reference carries the place of the name after `%`, and a comparison the
place of the name before its operator. There is no tag or group without content and no rule
without effects.
-/

namespace PriorityRules

variable {A M : Type}

namespace Comparison

theorem eq_of_lastCut? {symbol body left right : List Char}
    (h : lastCut? symbol body = some (left, right)) : body = left ++ symbol ++ right := by
  induction body generalizing left right with
  | nil => cases h
  | cons c rest ih =>
    rw [lastCut?] at h
    split at h
    · rename_i later after hlater
      cases h
      rw [ih hlater]
      rfl
    · split at h
      · rename_i first after hprefix
        cases h
        rw [← List.isPrefixOf?_eq_some_iff_append_eq.mp hprefix]
        rfl
      · cases h

theorem eq_of_cut? {body left right : List Char} {op : Operator}
    (h : cut? body = some (op, left, right)) : body = left ++ op.symbol ++ right := by
  obtain ⟨other, _, hcut⟩ := List.exists_of_findSome?_eq_some h
  obtain ⟨sides, hsides, heq⟩ := Option.map_eq_some_iff.mp hcut
  cases heq
  exact eq_of_lastCut? hsides

/-- A comparison holds the number named on its left side against the one written on its right. -/
theorem sides_of_ofBody {declared : Variables} {body : List Char} {c : Comparison}
    (h : ofBody declared body = .ok c) :
    ∃ left right, body = left ++ c.operator.symbol ++ right ∧
      declared.names[c.position]? = some (String.ofList left) ∧
      Decimal.read? right = some c.constant := by
  unfold ofBody at h
  split at h
  · cases h
  · rename_i op left right hcut
    split at h
    · cases h
    · rename_i position hposition
      split at h
      · cases h
      · rename_i constant hconstant
        cases h
        obtain ⟨hlt, hname, _⟩ := List.idxOf?_eq_some_iff.mp hposition
        refine ⟨left, right, eq_of_cut? hcut, ?_, hconstant⟩
        rw [List.getElem?_eq_getElem hlt, hname]

end Comparison

namespace Vocabulary

/-- The predicate is what the token says, where the tags have the given names. -/
inductive Denotes (V : Vocabulary A M) (tagNames : List String) : Token → Predicate A → Prop
  | negation {inner : Token} {p : Predicate A} (h : Denotes V tagNames inner p) :
      Denotes V tagNames ('!' :: inner) (.not p)
  | reference {name : Token} {id : Nat} (hname : tagNames[id]? = some (String.ofList name)) :
      Denotes V tagNames ('%' :: name) (.tag id)
  | comparison {body left right : List Char} {c : Comparison}
      (hbody : Reading.dropClosing body = left ++ c.operator.symbol ++ right)
      (hname : V.declared.names[c.position]? = some (String.ofList left))
      (hconstant : Decimal.read? right = some c.constant) :
      Denotes V tagNames ('(' :: body) (.compare c)
  | atom {token : Token} {call : Call} {a : A}
      (hmark : ∀ mark ∈ token.head?, mark ≠ '!' ∧ mark ≠ '%' ∧ mark ≠ '(')
      (hread : Reading.consult? V token = some (call, .ok a)) : Denotes V tagNames token (.atom a)

variable {V : Vocabulary A M} {tagNames : List String} {position : String → Nat}

theorem denotes_of_interpretPlain {token : Token} {p : Predicate A}
    (hplain : ∀ inner, token ≠ '!' :: inner) (h : V.interpretPlain position token = .ok p)
    (hname : ∀ name ∈ token.referred?, tagNames[position name]? = some name) :
    V.Denotes tagNames token p := by
  unfold interpretPlain at h
  split at h
  · cases h
  · rename_i name hnonempty
    cases h
    apply Denotes.reference
    apply hname
    rw [Token.referred?]
    · rfl
    · exact hnonempty
  · rename_i body
    obtain ⟨c, hc, rfl⟩ := map_eq_ok.mp h
    obtain ⟨left, right, hbody, hleft, hright⟩ := Comparison.sides_of_ofBody hc
    exact .comparison hbody hleft hright
  · rename_i _ htag hparen
    split at h
    · rename_i call answer hconsult
      obtain ⟨a, ha, rfl⟩ := map_eq_ok.mp (mapError_eq_ok.mp h)
      rw [ha] at hconsult
      refine .atom ?_ hconsult
      intro mark hmark
      obtain ⟨rest, rfl⟩ := List.head?_eq_some_iff.mp hmark
      refine ⟨?_, ?_, ?_⟩
      · exact fun heq => hplain rest (heq ▸ rfl)
      · exact fun heq => htag rest (heq ▸ rfl)
      · exact fun heq => hparen rest (heq ▸ rfl)
    · cases h

theorem denotes_of_interpret {token : Token} {p : Predicate A}
    (h : V.interpret position token = .ok p)
    (hname : ∀ name ∈ token.referred?, tagNames[position name]? = some name) :
    V.Denotes tagNames token p := by
  induction token using Token.negations generalizing p with
  | sign => cases h
  | negation inner hinner ih =>
    rw [interpret_negation hinner] at h
    rw [Token.referred?] at hname
    obtain ⟨q, hq, rfl⟩ := map_eq_ok.mp h
    exact .negation (ih hq hname)
  | plain token hplain =>
    rw [interpret_plain hplain] at h
    exact denotes_of_interpretPlain hplain h hname

end Vocabulary

/-- A letter followed by at least one letter or digit, all of them ASCII. -/
def IsTagName (name : String) : Prop :=
  ∃ first rest, name.toList = first :: rest ∧ first.isAlpha ∧ rest ≠ [] ∧
    ∀ c ∈ rest, c.isAlphanum

namespace Reading

/-- The rules and tags are read from the items, none of them is void, and names are told apart. -/
structure Grounded (V : Vocabulary A M) (items : List Item) (r : Ruleset A M) : Prop where
  rules : ∀ rule ∈ r.rules, ∃ conditions words,
    Item.rule rule.line rule.level conditions words ∈ items ∧
      List.Forall₂ (V.Denotes r.tagNames) conditions rule.conditions
  effects : ∀ rule ∈ r.rules, rule.effects ≠ []
  tags : ∀ tag ∈ r.tags, ∃ name body, Item.block name body ∈ items ∧
    tag.name = String.ofList name ∧
      List.Forall₂ (List.Forall₂ (V.Denotes r.tagNames)) (body.flatMap runs) tag.groups
  groups : ∀ tag ∈ r.tags, tag.groups ≠ [] ∧ ∀ group ∈ tag.groups, group ≠ []
  names : ∀ name ∈ r.tagNames, IsTagName name
  distinct : r.tagNames.Nodup

section Grounded

variable {V : Vocabulary A M} {items : List Item} {text : String}

theorem isTagName_ofList {name : Token} (h : name.isTagName) : IsTagName (String.ofList name) := by
  match name, h with
  | first :: second :: rest, h =>
    obtain ⟨hfirst, hrest⟩ := Bool.and_eq_true_iff.mp h
    refine ⟨first, second :: rest, String.toList_ofList, hfirst, List.cons_ne_nil _ _, ?_⟩
    exact List.all_eq_true.mp hrest

theorem isTagName_of_layout {line : Nat} {lines : List (List Token)}
    (h : Layout line lines items) {name : Token} {body : List (List Token)}
    (hblock : Item.block name body ∈ items) : name.isTagName := by
  induction h with
  | done => cases hblock
  | skipped hskipped tail ih => exact ih hblock
  | rule hlevel harrow tail ih =>
    rcases List.mem_cons.mp hblock with heq | hblock
    · cases heq
    · exact ih hblock
  | block hname henclosed tail ih =>
    rcases List.mem_cons.mp hblock with heq | hblock
    · cases heq
      exact hname
    · exact ih hblock

/-- The name that a condition refers to stands at its place. -/
theorem WellFormed.tagNames_at_place (h : WellFormed V items) {item : Item} (hitem : item ∈ items)
    {token : Token} (htoken : token ∈ item.conditions) {name : String}
    (href : token.referred? = some name) :
    (rulesetOf V items text).tagNames[place (items.flatMap Item.mentions) name]? = some name := by
  have hname : name ∈ references item.conditions := List.mem_filterMap.mpr ⟨token, htoken, href⟩
  have hmention : name ∈ items.flatMap Item.mentions :=
    List.mem_flatMap.mpr ⟨item, hitem, List.mem_append_right _ hname⟩
  rw [h.tagNames_eq]
  exact List.getElem?_idxOf (List.mem_eraseDups.mpr hmention)

theorem WellFormed.forall₂_predicates (h : WellFormed V items) {item : Item} (hitem : item ∈ items)
    {tokens : List Token} (htokens : tokens ⊆ item.conditions) :
    List.Forall₂ (fun token p => token ∈ item.conditions ∧
        V.interpret (place (items.flatMap Item.mentions)) token = .ok p) tokens
      (V.predicates (place (items.flatMap Item.mentions)) tokens) := by
  have haccepts : ∀ token ∈ tokens, V.Accepts token :=
    fun token htoken => (h.accepted item hitem).1 token (htokens htoken)
  have hread : List.Forall₂
      (fun token p => V.interpret (place (items.flatMap Item.mentions)) token = .ok p) tokens
      (V.predicates (place (items.flatMap Item.mentions)) tokens) :=
    Vocabulary.forall₂_predicates haccepts
  exact (List.forall₂_and_left tokens _).mpr ⟨fun _ htoken => htokens htoken, hread⟩

/-- Accepted conditions of an item are what the ruleset of all items has in their place. -/
theorem WellFormed.denotes (h : WellFormed V items) {item : Item} (hitem : item ∈ items)
    {tokens : List Token} (htokens : tokens ⊆ item.conditions) :
    List.Forall₂ (V.Denotes (rulesetOf V items text).tagNames) tokens
      (V.predicates (place (items.flatMap Item.mentions)) tokens) := by
  exact (h.forall₂_predicates hitem htokens).imp fun token p ⟨htoken, hp⟩ =>
    Vocabulary.denotes_of_interpret hp fun name => h.tagNames_at_place hitem htoken

theorem line_of_rule {rule : Rule A M} (h : rule ∈ (rulesetOf V items text).rules) :
    ∃ line level conditions words, Item.rule line level conditions words ∈ items ∧
      rule = ⟨level, line, V.predicates (place (items.flatMap Item.mentions)) conditions,
        V.effectsOf words⟩ := by
  obtain ⟨item, hitem, heq⟩ := List.mem_filterMap.mp (List.mem_mergeSort.mp h)
  cases item with
  | rule line level conditions words =>
    exact ⟨line, level, conditions, words, hitem, (Option.some.inj heq).symm⟩
  | block name body => cases heq

theorem block_of_tag {tag : Tag A} (h : tag ∈ (rulesetOf V items text).tags) :
    ∃ name body, Item.block name body ∈ items ∧
      tag = ⟨String.ofList name,
        (body.flatMap runs).map (V.predicates (place (items.flatMap Item.mentions)))⟩ := by
  obtain ⟨item, hitem, heq⟩ := List.mem_filterMap.mp (mem_tags_of_rulesetOf h)
  cases item with
  | rule line level conditions words => cases heq
  | block name body => exact ⟨name, body, hitem, (Option.some.inj heq).symm⟩

theorem predicates_ne_nil {position : String → Nat} {tokens : List Token}
    (haccepts : ∀ token ∈ tokens, V.Accepts token) (h : tokens ≠ []) :
    V.predicates position tokens ≠ [] := by
  intro hnil
  have hread : List.Forall₂ (fun token p => V.interpret position token = .ok p) tokens
      (V.predicates position tokens) := Vocabulary.forall₂_predicates haccepts
  rw [hnil] at hread
  exact h (List.forall₂_nil_right_iff.mp hread)

theorem grounded_empty : Grounded V [] (Ruleset.empty : Ruleset A M) := by
  constructor <;> simp [Ruleset.empty, Ruleset.tagNames]

/-- The ruleset of the items of a text is grounded in them. -/
theorem WellFormed.grounded (h : WellFormed V items) {line : Nat} {lines : List (List Token)}
    (hlayout : Layout line lines items) : Grounded V items (rulesetOf V items text) := by
  constructor
  · intro rule hrule
    obtain ⟨line, level, conditions, words, hitem, rfl⟩ := line_of_rule hrule
    exact ⟨conditions, words, hitem, h.denotes hitem fun _ => id⟩
  · intro rule hrule
    obtain ⟨line, level, conditions, words, hitem, rfl⟩ := line_of_rule hrule
    exact (h.accepted _ hitem).2.2
  · intro tag htag
    obtain ⟨name, body, hitem, rfl⟩ := block_of_tag htag
    refine ⟨name, body, hitem, rfl, List.forall₂_map_right_iff.mpr (List.forall₂_same.mpr ?_)⟩
    exact fun run hrun => h.denotes hitem (run_subset hrun)
  · intro tag htag
    obtain ⟨name, body, hitem, rfl⟩ := block_of_tag htag
    constructor
    · rw [Ne, List.map_eq_nil_iff, ← Ne, flatMap_runs_ne_nil_iff]
      exact (h.accepted _ hitem).2
    · intro group hgroup
      obtain ⟨run, hrun, rfl⟩ := List.mem_map.mp hgroup
      apply predicates_ne_nil _ (run_ne_nil hrun)
      exact fun token htoken => (h.accepted _ hitem).1 token (run_subset hrun htoken)
  · intro name hname
    obtain ⟨tag, htag, rfl⟩ := List.mem_map.mp hname
    obtain ⟨name, body, hitem, rfl⟩ := block_of_tag htag
    exact isTagName_ofList (isTagName_of_layout hlayout hitem)
  · rw [h.tagNames_eq]
    exact nodup_eraseDups _

end Grounded

end Reading

namespace Vocabulary

open Reading

theorem grounded_of_read {V : Vocabulary A M} {text : String} {r : Ruleset A M}
    (h : (V.read text).outcome = .ok r) :
    ∃ items, Layout 1 (tokenLines text) items ∧ Grounded V items r := by
  obtain ⟨items, hlayout, hwell, rfl⟩ := exists_items_of_read h
  exact ⟨items, hlayout, hwell.grounded hlayout⟩

end Vocabulary

end PriorityRules
