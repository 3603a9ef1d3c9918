import Mathlib.Data.List.Forall2
import PriorityRules.Proofs.Reading.Interpretation

/-! # The grammar of texts

From top to bottom, the lines of a well-formed text are lines that are skipped, rule lines, and
tag blocks, which may take several lines. Whether the tokens of rules and blocks mean something is
up to the vocabulary; that every name referred to is opened by one block is up to the whole text.
-/

namespace PriorityRules

variable {A M : Type}

namespace Token

theorem level?_eq_none {c : Char} {rest : Token} (hdigit : c.isDigit = false) (hplus : c ≠ '+')
    (hminus : c ≠ '-') : level? (c :: rest) = none := by
  have hzero : c ≠ '0' := by
    rintro rfl
    exact absurd hdigit (by decide)
  have hvalue : Text.digitValue? c = none := by
    rw [Text.digitValue?, hdigit]
    rfl
  have hread : Text.readSigned 32 (c :: rest) = .error .invalidDigit := by
    rw [Text.readSigned, Text.readMagnitude, hvalue]
    · rfl
    all_goals simp [hplus, hminus]
  simp [level?, hzero, hplus, hminus, hread, Except.toOption]

theorem isComment_eq_false_of_level {first : Token} {level : Int} (h : first.level? = some level) :
    first.isComment = false := by
  cases first with
  | nil => rfl
  | cons c rest =>
    rw [isComment, List.head?_cons, decide_eq_false_iff_not]
    intro hc
    cases hc
    rw [level?_eq_none rfl (by decide) (by decide)] at h
    cases h

theorem exists_alpha_of_isTagName {name : Token} (h : name.isTagName) :
    ∃ c rest, name = c :: rest ∧ c.isAlpha := by
  match name, h with
  | c :: second :: rest, h => exact ⟨c, second :: rest, rfl, (Bool.and_eq_true_iff.mp h).1⟩

theorem isComment_eq_false_of_isTagName {name : Token} (h : name.isTagName) :
    name.isComment = false := by
  obtain ⟨c, rest, rfl, hc⟩ := exists_alpha_of_isTagName h
  rw [isComment, List.head?_cons, decide_eq_false_iff_not]
  rintro ⟨rfl⟩
  exact absurd hc (by decide)

theorem isDigit_eq_false_of_isAlpha {c : Char} (h : c.isAlpha) : c.isDigit = false := by
  rw [Bool.eq_false_iff]
  intro hdigit
  have hhigh := UInt32.le_iff_toNat_le.mp (of_decide_eq_true (Bool.and_eq_true_iff.mp hdigit).2)
  rcases Bool.or_eq_true_iff.mp h with hupper | hlower
  · have hlow := UInt32.le_iff_toNat_le.mp (of_decide_eq_true hupper).1
    exact absurd (Nat.le_trans hlow hhigh) (by decide)
  · have hlow := UInt32.le_iff_toNat_le.mp (of_decide_eq_true (Bool.and_eq_true_iff.mp hlower).1)
    exact absurd (Nat.le_trans hlow hhigh) (by decide)

theorem level?_of_isTagName {name : Token} (h : name.isTagName) : name.level? = none := by
  obtain ⟨c, rest, rfl, hc⟩ := exists_alpha_of_isTagName h
  apply level?_eq_none
  · exact isDigit_eq_false_of_isAlpha hc
  · rintro rfl
    exact absurd hc (by decide)
  · rintro rfl
    exact absurd hc (by decide)

end Token

namespace Vocabulary

variable (V : Vocabulary A M) (position : String → Nat)

def predicates (tokens : List Token) : Group A :=
  tokens.filterMap fun token => (V.interpret position token).toOption

def AcceptsEffect (word : Token) : Prop := ∃ effects, V.effects (String.ofList word) = .ok effects

def effectsOf (words : List Token) : List (Effect M) :=
  (words.filterMap fun word => (V.effects (String.ofList word)).toOption).flatten

variable {V} {position}

theorem predicates_cons {token : Token} {p : Predicate A} (h : V.interpret position token = .ok p)
    (rest : List Token) :
    V.predicates position (token :: rest) = p :: V.predicates position rest := by
  rw [predicates, List.filterMap_cons, h]
  rfl

theorem predicates_snoc {token : Token} {p : Predicate A} (h : V.interpret position token = .ok p)
    (tokens : List Token) :
    V.predicates position (tokens ++ [token]) = V.predicates position tokens ++ [p] := by
  rw [predicates, List.filterMap_append, ← predicates, ← predicates, predicates_cons h]
  rfl

theorem forall₂_predicates {tokens : List Token} (h : ∀ token ∈ tokens, V.Accepts token) :
    List.Forall₂ (fun token p => V.interpret position token = .ok p) tokens
      (V.predicates position tokens) := by
  induction tokens with
  | nil => exact .nil
  | cons token rest ih =>
    obtain ⟨p, hp⟩ := h token List.mem_cons_self position
    rw [predicates_cons hp]
    exact .cons hp (ih fun token htoken => h token (List.mem_cons_of_mem _ htoken))

end Vocabulary

namespace Reading

/-- A rule line or a tag block, as tokens. -/
inductive Item where
  /-- A rule: the number of its line, its level, and what stands on both sides of the arrow. -/
  | rule (line : Nat) (level : Int) (conditions words : List Token)
  /-- A block: its name, and what stands between the brackets, line by line. -/
  | block (name : Token) (body : List (List Token))

def references (tokens : List Token) : List String := tokens.filterMap Token.referred?

def conditionsOf (tokens : List Token) : List Token := tokens.filter (· ≠ [','])

theorem conditionsOf_comma (rest : List Token) : conditionsOf ([','] :: rest) = conditionsOf rest :=
  List.filter_cons_of_neg (by simp)

theorem conditionsOf_cons {token : Token} (h : token ≠ [',']) (rest : List Token) :
    conditionsOf (token :: rest) = token :: conditionsOf rest :=
  List.filter_cons_of_pos (decide_eq_true h)

theorem conditionsOf_append (tokens rest : List Token) :
    conditionsOf (tokens ++ rest) = conditionsOf tokens ++ conditionsOf rest :=
  List.filter_append _ _

/-- Conditions that stand together. -/
def runs (tokens : List Token) : List (List Token) :=
  (tokens.splitOnP (· = [','])).filter (· ≠ [])

namespace Item

def conditions : Item → List Token
  | rule _ _ conditions _ => conditions
  | block _ body => conditionsOf body.flatten

def opened? : Item → Option String
  | rule .. => none
  | block name _ => some (String.ofList name)

def mentions (item : Item) : List String :=
  item.opened?.toList ++ references item.conditions

def Accepted (V : Vocabulary A M) (item : Item) : Prop :=
  (∀ token ∈ item.conditions, V.Accepts token) ∧
    match item with
    | rule _ _ _ words => (∀ word ∈ words, V.AcceptsEffect word) ∧ V.effectsOf words ≠ []
    | block .. => item.conditions ≠ []

variable (V : Vocabulary A M) (position : String → Nat)

def rule? : Item → Option (Rule A M)
  | rule line level conditions words =>
    some ⟨level, line, V.predicates position conditions, V.effectsOf words⟩
  | block .. => none

/-- Commas and the ends of lines separate the groups of a tag. -/
def tag? : Item → Option (Tag A)
  | rule .. => none
  | block name body =>
    some ⟨String.ofList name, (body.flatMap runs).map (V.predicates position)⟩

end Item

/-- From `first` on, the first closing bracket that is not in a comment comes at the end of the
lines `used`; `body` is what stands before it, line by line. -/
inductive Enclosed : List Token → List (List Token) → List (List Token) → Prop where
  | closed {inner : List Token} (h : [']'] ∉ inner) : Enclosed (inner ++ [[']']]) [] [inner]
  | further {first next : List Token} {used body : List (List Token)} (h : [']'] ∉ first)
      (hnext : ∀ token ∈ next.head?, token.isComment = false) (tail : Enclosed next used body) :
      Enclosed first (next :: used) (first :: body)
  /-- What is on a comment line does not count, a closing bracket included. -/
  | comment {first rest : List Token} {mark : Token} {used body : List (List Token)}
      (h : [']'] ∉ first) (hmark : mark.isComment) (tail : Enclosed [] used body) :
      Enclosed first ((mark :: rest) :: used) (first :: body)

/-- Lines, of which the first has the given number, split into items. -/
inductive Layout : Nat → List (List Token) → List Item → Prop where
  | done {line : Nat} : Layout line [] []
  | skipped {line : Nat} {tokens : List Token} {lines : List (List Token)} {items : List Item}
      (h : ∀ first ∈ tokens.head?, first.isComment) (tail : Layout (line + 1) lines items) :
      Layout line (tokens :: lines) items
  | rule {line : Nat} {first : Token} {level : Int} {conditions words : List Token}
      {lines : List (List Token)} {items : List Item} (hlevel : first.level? = some level)
      (harrow : Token.arrow ∉ conditions) (tail : Layout (line + 1) lines items) :
      Layout line ((first :: (conditions ++ Token.arrow :: words)) :: lines)
        (.rule line level conditions words :: items)
  | block {line : Nat} {name : Token} {first : List Token} {used body lines : List (List Token)}
      {items : List Item} (hname : name.isTagName) (henclosed : Enclosed first used body)
      (tail : Layout (line + 1 + used.length) lines items) :
      Layout line ((name :: ['['] :: first) :: (used ++ lines)) (.block name body :: items)

/-- Every item is accepted, no name is opened twice, and every name referred to is opened. -/
structure WellFormed (V : Vocabulary A M) (items : List Item) : Prop where
  accepted : ∀ item ∈ items, item.Accepted V
  once : (items.filterMap Item.opened?).Nodup
  opened : ∀ item ∈ items, ∀ name ∈ references item.conditions,
    name ∈ items.filterMap Item.opened?

theorem mentions_opened_iff {items : List Item} :
    (∀ name ∈ items.flatMap Item.mentions, name ∈ items.filterMap Item.opened?) ↔
      ∀ item ∈ items, ∀ name ∈ references item.conditions,
        name ∈ items.filterMap Item.opened? := by
  constructor
  · intro h item hitem name hname
    exact h name (List.mem_flatMap.mpr ⟨item, hitem, List.mem_append_right _ hname⟩)
  · intro h name hname
    obtain ⟨item, hitem, hname⟩ := List.mem_flatMap.mp hname
    rcases List.mem_append.mp hname with hname | hname
    · exact List.mem_filterMap.mpr ⟨item, hitem, Option.mem_toList.mp hname⟩
    · exact h item hitem name hname

/-- The position of a name among all names, in the order of first mention. -/
def place (names : List String) (name : String) : Nat := names.eraseDups.idxOf name

def rulesetOf (V : Vocabulary A M) (items : List Item) (text : String) : Ruleset A M :=
  let names := items.flatMap Item.mentions
  let tags := items.filterMap (Item.tag? V (place names))
  { rules := Ruleset.inOrder (items.filterMap (Item.rule? V (place names))),
    tags := names.eraseDups.filterMap fun name => tags.find? (·.name = name),
    source := some text }

end Reading

end PriorityRules
