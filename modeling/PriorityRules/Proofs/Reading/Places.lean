import Mathlib.Data.List.DropRight
import PriorityRules.Proofs.Engine.Loading
import PriorityRules.Proofs.Evaluation.Shuffling
import PriorityRules.Proofs.Reading.Renderings
import PriorityRules.Proofs.Reading.Uses

/-! # Places of conditions

A word stands at a place of a text: in a rule before the arrow, or in a block behind the bracket
that opens it. The place says where in the ruleset the predicate of the word is to be found, unless
the word is on a line of a block that is a comment.
-/

namespace PriorityRules.Reading

variable {A M : Type}

section Layouts

variable {line : Nat} {first : List Token} {used body above lines more : List (List Token)}
variable {items : List Item}

/-- Where no block is open any more, the lines of the block have been passed. -/
theorem Enclosed.passed (h : Enclosed first used body) (heq : used ++ lines = above ++ more)
    (houtside : insideAfter (decide ([']'] ∉ first)) above = false) :
    ∃ rest, above = used ++ rest ∧ lines = rest ++ more ∧ insideAfter false rest = false := by
  induction h using Enclosed.line_induction generalizing above with
  | closed _ => exact ⟨above, rfl, heq, by simpa using houtside⟩
  | @further first next used body hfirst tail ih =>
    rw [decide_eq_true hfirst] at houtside
    cases above with
    | nil => cases houtside
    | cons tokens above =>
      obtain ⟨rfl, hrest⟩ := List.cons.inj heq
      obtain ⟨rest, rfl, hlines, hinside⟩ := ih hrest houtside
      exact ⟨rest, rfl, hlines, hinside⟩

theorem opensAfter_skipped {tokens : List Token} (h : ∀ first ∈ tokens.head?, first.isComment) :
    opensAfter false tokens = false :=
  opensAfter_of_ne_block (by simp [Line.ofTokens_of_skipped h])

theorem opensAfter_rule {first : Token} {level : Int} {body : List Token}
    (h : first.level? = some level) : opensAfter false (first :: body) = false :=
  opensAfter_of_ne_block (by simp [Line.ofTokens_of_level h])

/-- A layout goes on as a layout from every line that is outside of blocks. -/
theorem Layout.of_append (h : Layout line (above ++ more) items)
    (houtside : insideAfter false above = false) :
    ∃ front back, items = front ++ back ∧ Layout (line + above.length) more back := by
  generalize heq : above ++ more = lines at h
  induction h generalizing above with
  | done =>
    obtain ⟨rfl, rfl⟩ := List.append_eq_nil_iff.mp heq
    exact ⟨[], [], rfl, .done⟩
  | skipped hskipped tail ih =>
    cases above with
    | nil =>
      obtain rfl : more = _ := heq
      exact ⟨[], _, rfl, .skipped hskipped tail⟩
    | cons other above =>
      obtain ⟨rfl, rfl⟩ := List.cons.inj heq
      rw [insideAfter, List.foldl_cons, opensAfter_skipped hskipped] at houtside
      obtain ⟨front, back, rfl, hback⟩ := ih houtside rfl
      rw [Nat.add_right_comm, Nat.add_assoc] at hback
      exact ⟨front, back, rfl, hback⟩
  | @rule line first level conditions words lines items hlevel harrow tail ih =>
    cases above with
    | nil =>
      obtain rfl : more = _ := heq
      exact ⟨[], _, rfl, .rule hlevel harrow tail⟩
    | cons other above =>
      obtain ⟨rfl, rfl⟩ := List.cons.inj heq
      rw [insideAfter, List.foldl_cons, opensAfter_rule hlevel] at houtside
      obtain ⟨front, back, rfl, hback⟩ := ih houtside rfl
      rw [Nat.add_right_comm, Nat.add_assoc] at hback
      exact ⟨_ :: front, back, rfl, hback⟩
  | @block line name first used body lines items hname henclosed tail ih =>
    cases above with
    | nil =>
      obtain rfl : more = _ := heq
      exact ⟨[], _, rfl, .block hname henclosed tail⟩
    | cons other above =>
      obtain ⟨rfl, hrest⟩ := List.cons.inj heq
      rw [insideAfter, List.foldl_cons, (usesOn_block (Line.ofTokens_of_isTagName hname)).2]
        at houtside
      obtain ⟨rest, rfl, rfl, hinside⟩ := henclosed.passed hrest.symm houtside
      obtain ⟨front, back, rfl, hback⟩ := ih hinside rfl
      refine ⟨_ :: front, back, rfl, ?_⟩
      rw [List.length_cons, List.length_append]
      convert hback using 1
      omega

def Item.uses : Item → List Use
  | rule _ _ conditions words => conditions.map .condition ++ words.map .effect
  | block _ body => (conditionsOf body.flatten).map .condition

theorem Item.mem_uses_of_condition {item : Item} {token : Token} (h : token ∈ item.conditions) :
    .condition token ∈ item.uses := by
  cases item with
  | rule line level conditions words =>
    exact List.mem_append_left _ (List.mem_map_of_mem h)
  | block name body => exact List.mem_map_of_mem h

theorem usesWithin_of_open {inner rest : List Token} (h : [']'] ∉ inner) :
    usesWithin (inner ++ rest) = (conditionsOf inner).map .condition ++ usesWithin rest := by
  rw [usesWithin, List.takeWhile_append_of_pos, conditionsOf_append, List.map_append]
  · rfl
  · exact fun token htoken => decide_eq_true fun heq => h (heq ▸ htoken)

theorem Enclosed.uses (h : Enclosed first used body) (lines : List (List Token)) :
    usesWithin first ++ usesFrom (decide ([']'] ∉ first)) (used ++ lines) =
      (conditionsOf body.flatten).map .condition ++ usesFrom false lines := by
  induction h using Enclosed.line_induction with
  | @closed inner hinner =>
    rw [usesWithin_of_open hinner, usesWithin_bracket, List.append_nil, List.flatten_singleton]
    simp
  | @further first next used body hfirst tail ih =>
    have huses : usesWithin first = (conditionsOf first).map .condition := by
      simpa [usesWithin, conditionsOf] using @usesWithin_of_open first [] hfirst
    rw [huses, decide_eq_true hfirst, List.flatten_cons, conditionsOf_append, List.map_append,
      List.append_assoc, ← ih]
    rfl

theorem Layout.uses (h : Layout line lines items) :
    usesFrom false lines = items.flatMap Item.uses := by
  induction h with
  | done => rfl
  | skipped hskipped tail ih =>
    rw [usesFrom, usesOn_skipped (Line.ofTokens_of_skipped hskipped),
      opensAfter_skipped hskipped, ih]
    rfl
  | rule hlevel harrow tail ih =>
    rw [usesFrom, usesOn_rule (Line.ofTokens_of_level hlevel), opensAfter_rule hlevel, ih,
      usesOfRule, takeWhile_arrow harrow, dropWhile_arrow harrow]
    rfl
  | block hname henclosed tail ih =>
    obtain ⟨huses, hopens⟩ := usesOn_block (Line.ofTokens_of_isTagName hname)
    rw [usesFrom, huses, hopens, henclosed.uses, ih]
    rfl

end Layouts

section Runs

variable {run tokens rest : List Token} {word : Token}

theorem runsFrom_append (h : [','] ∉ tokens) :
    runsFrom run (tokens ++ rest) = runsFrom (run ++ tokens) rest := by
  induction tokens generalizing run with
  | nil => rw [List.nil_append, List.append_nil]
  | cons token tokens ih =>
    obtain ⟨htoken, htokens⟩ := not_or.mp (mt List.mem_cons.mpr h)
    rw [List.cons_append, runsFrom, if_neg (Ne.symm htoken), ih htokens, List.append_assoc]
    rfl

theorem runsFrom_comma :
    runsFrom run (tokens ++ [','] :: rest) = runsFrom run tokens ++ runs rest := by
  induction tokens generalizing run with
  | nil =>
    rw [runs_eq_runsFrom]
    rfl
  | cons token tokens ih =>
    rw [List.cons_append, runsFrom, runsFrom, ih, ih]
    split
    · rw [List.append_assoc]
    · rfl

/-- A run under way is the first one, and it may grow. -/
theorem exists_runsFrom (h : run ≠ []) :
    ∃ later more, runsFrom run tokens = (run ++ later) :: more := by
  induction tokens generalizing run with
  | nil => exact ⟨[], [], by simp [runsFrom, h]⟩
  | cons token tokens ih =>
    rw [runsFrom]
    split
    · exact ⟨[], runsFrom [] tokens, by simp [h]⟩
    · obtain ⟨later, more, hmore⟩ := ih (List.append_ne_nil_of_left_ne_nil h [token])
      exact ⟨token :: later, more, by rw [hmore, List.append_assoc]; rfl⟩

/-- A word that is not a comma stands in the run that began behind the last comma before it. -/
theorem exists_runs (before after : List Token) (h : word ≠ [',']) :
    ∃ later more, runs (before ++ word :: after) =
      runs (before.rdropWhile (· ≠ [','])) ++
        (before.rtakeWhile (· ≠ [',']) ++ word :: later) :: more := by
  have hends := List.rdropWhile_eq_self_iff.mp
    (List.rdropWhile_idempotent (fun token => decide (token ≠ [','])) before)
  generalize hclosed : before.rdropWhile (· ≠ [',']) = closed at hends ⊢
  generalize hsince : before.rtakeWhile (· ≠ [',']) = since
  have hsplit : closed ++ since = before := by
    rw [← hclosed, ← hsince]
    exact List.rdropWhile_append_rtakeWhile
  have hnocomma : [','] ∉ since := by
    intro hmem
    rw [← hsince] at hmem
    simpa using List.mem_rtakeWhile_imp hmem
  have hrun : ∃ later more, runs (since ++ word :: after) = (since ++ word :: later) :: more := by
    obtain ⟨later, more, hmore⟩ := @exists_runsFrom (since ++ [word]) after
      (List.append_ne_nil_of_right_ne_nil since (List.cons_ne_nil word []))
    refine ⟨later, more, ?_⟩
    rw [runs_eq_runsFrom, runsFrom_append hnocomma, runsFrom, if_neg h, List.nil_append, hmore,
      List.append_assoc]
    rfl
  obtain ⟨later, more, hmore⟩ := hrun
  refine ⟨later, more, ?_⟩
  rw [← hmore, ← hsplit, List.append_assoc]
  rcases closed.eq_nil_or_concat' with rfl | ⟨tokens, token, rfl⟩
  · rfl
  · have hcomma : token = [','] := by simpa using hends
    rw [hcomma, List.append_assoc, List.singleton_append, runs_eq_runsFrom, runsFrom_comma,
      @runs_eq_runsFrom (tokens ++ [[',']]), runsFrom_comma, List.append_assoc]
    rfl

end Runs

/-- What lines of a block hold, from the bracket on. The first one is no comment, however it goes
on behind the bracket. -/
def held : List (List Token) → List (List Token)
  | [] => []
  | first :: further => first :: further.map continuation

inductive Place where
  /-- On the rule line of this number, behind these conditions. -/
  | inRule (line : Nat) (before : List Token)
  /-- In the block of this name, below these lines of it, behind these tokens of its own line. -/
  | inBlock (name : Token) (above : List (List Token)) (before : List Token)

/-- The word stands there: behind the level of a rule and before its arrow, or behind the bracket
that opens a block, and no closing one has come. -/
inductive Stands (lines : List (List Token)) (word : Token) : Place → Prop where
  | inRule {above below : List (List Token)} {first : Token} {level : Int}
      {before after : List Token}
      (hlines : lines = above ++ (first :: (before ++ word :: after)) :: below)
      (houtside : insideAfter false above = false) (hlevel : first.level? = some level)
      (hbefore : Token.arrow ∉ before) : Stands lines word (.inRule (above.length + 1) before)
  | inBlock {above rows more below : List (List Token)} {name : Token} {first : List Token}
      {before after : List Token} (hlines : lines = above ++ (name :: ['['] :: first) :: more)
      (houtside : insideAfter false above = false) (hname : name.isTagName)
      (hrows : first :: more = rows ++ (before ++ word :: after) :: below)
      (hopen : [']'] ∉ (held rows).flatten) (hbefore : [']'] ∉ before) :
      Stands lines word (.inBlock name rows before)

namespace Place

/-- The line of the word is a comment: it is a further line of a block and begins with `#`. -/
def OnComment (word : Token) : Place → Prop
  | inRule .. => False
  | inBlock _ above before => above ≠ [] ∧ ∃ first ∈ (before ++ [word]).head?, first.isComment

/-- The groups that have ended at the last comma, or end of a line, before the word. -/
def groupsBefore (above : List (List Token)) (before : List Token) : Nat :=
  ((held above).flatMap runs ++ runs (before.rdropWhile (· ≠ [',']))).length

/-- The conditions since then. -/
def membersBefore (before : List Token) : Nat := (before.rtakeWhile (· ≠ [','])).length

/-- The predicate has the place in the ruleset. In a rule it has the place of the word among the
conditions; in a tag it is in the group that comes next and in the place of the word there. -/
def TakenBy (p : Predicate A) (r : Ruleset A M) : Place → Prop
  | inRule line before => ∃ rule ∈ r.rules, rule.line = line ∧
      (∀ other ∈ r.rules, other.line = rule.line → other = rule) ∧
      rule.conditions[before.length]? = some p
  | inBlock name above before => ∃ tag ∈ r.tags, tag.name = String.ofList name ∧
      (∀ other ∈ r.tags, other.name = tag.name → other = tag) ∧
      ∃ group, tag.groups[groupsBefore above before]? = some group ∧
        group[membersBefore before]? = some p

inductive Within (word : Token) : Place → Item → Prop where
  | inRule {line : Nat} {level : Int} {before after words : List Token} :
      Within word (.inRule line before) (.rule line level (before ++ word :: after) words)
  | inBlock {name : Token} {above below : List (List Token)} {before after : List Token} :
      Within word (.inBlock name above before)
        (.block name (held above ++ (before ++ word :: after) :: below))

end Place

section Places

variable {V : Vocabulary A M} {lines : List (List Token)} {items : List Item} {item : Item}
variable {word : Token} {place : Place} {text : String}

/-- Where a token does not stand before the word, what comes before that token has the word. -/
theorem exists_of_append_cons {separator : Token} {before after front rest : List Token}
    (h : before ++ word :: after = front ++ separator :: rest) (hbefore : separator ∉ before)
    (hword : word ≠ separator) : ∃ between, front = before ++ word :: between := by
  rcases List.append_eq_append_iff.mp h with ⟨between, rfl, hbetween⟩ | ⟨beyond, rfl, hbeyond⟩
  · cases between with
    | nil => exact absurd (List.cons.inj hbetween).1 hword
    | cons token between =>
      obtain ⟨rfl, -⟩ := List.cons.inj hbetween
      exact ⟨between, rfl⟩
  · cases beyond with
    | nil => exact absurd (List.cons.inj hbeyond).1.symm hword
    | cons token beyond =>
      obtain ⟨rfl, -⟩ := List.cons.inj hbeyond
      exact absurd (List.mem_append_right _ List.mem_cons_self) hbefore

/-- The line of the word is in the body of the block, below all that the lines above it hold. -/
theorem Enclosed.exists_row {first : List Token} {used body : List (List Token)}
    (h : Enclosed first used body) {rows more below : List (List Token)} {before after : List Token}
    (hrows : first :: (used ++ more) = rows ++ (before ++ word :: after) :: below)
    (hopen : [']'] ∉ (held rows).flatten) (hbefore : [']'] ∉ before) (hbracket : word ≠ [']'])
    (hcomment : rows ≠ [] → continuation (before ++ word :: after) = before ++ word :: after) :
    ∃ after rest, body = held rows ++ (before ++ word :: after) :: rest := by
  induction h using Enclosed.line_induction generalizing rows with
  | @closed inner hinner =>
    cases rows with
    | nil =>
      obtain ⟨hfirst, -⟩ := List.cons.inj hrows
      obtain ⟨between, rfl⟩ := exists_of_append_cons hfirst.symm hbefore hbracket
      exact ⟨between, [], rfl⟩
    | cons row rows =>
      obtain ⟨rfl, -⟩ := List.cons.inj hrows
      simp [held] at hopen
  | @further first next used body hfirst tail ih =>
    cases rows with
    | nil =>
      obtain ⟨rfl, -⟩ := List.cons.inj hrows
      exact ⟨after, body, rfl⟩
    | cons row rows =>
      obtain ⟨rfl, hrest⟩ := List.cons.inj hrows
      cases rows with
      | nil =>
        obtain ⟨rfl, rfl⟩ := List.cons.inj hrest
        have hkept := hcomment (List.cons_ne_nil _ _)
        obtain ⟨after', rest, rfl⟩ := @ih [] (by rw [hkept]; rfl) (by simp [held]) (absurd rfl)
        exact ⟨after', rest, rfl⟩
      | cons other rows =>
        obtain ⟨rfl, hlast⟩ := List.cons.inj hrest
        have hopen' : [']'] ∉ (held (continuation next :: rows)).flatten := fun hmem =>
          hopen (List.mem_append_right _ hmem)
        have hkept := hcomment (List.cons_ne_nil _ _)
        obtain ⟨after', rest, rfl⟩ := @ih (continuation next :: rows)
          (congrArg (continuation next :: ·) hlast) hopen' (fun _ => hkept)
        exact ⟨after', rest, rfl⟩

theorem Layout.rule_of_level {line : Nat} {first : Token} {level : Int} {body : List Token}
    (h : Layout line ((first :: body) :: lines) items) (hlevel : first.level? = some level) :
    ∃ conditions words rest, body = conditions ++ Token.arrow :: words ∧
      items = .rule line level conditions words :: rest := by
  cases h with
  | skipped hskipped tail =>
    have hcomment := hskipped first rfl
    rw [Token.isComment_eq_false_of_level hlevel] at hcomment
    cases hcomment
  | rule hlevel' harrow tail =>
    cases hlevel.symm.trans hlevel'
    exact ⟨_, _, _, rfl, rfl⟩
  | block hname henclosed tail =>
    rw [Token.level?_of_isTagName hname] at hlevel
    cases hlevel

theorem Layout.block_of_isTagName {line : Nat} {name : Token} {first : List Token}
    (h : Layout line ((name :: ['['] :: first) :: lines) items) (hname : name.isTagName) :
    ∃ used body more rest, lines = used ++ more ∧ Enclosed first used body ∧
      items = .block name body :: rest := by
  generalize hline : (name :: ['['] :: first) :: lines = all at h
  cases h with
  | done => cases hline
  | skipped hskipped tail =>
    cases hline
    have hcomment := hskipped name rfl
    rw [Token.isComment_eq_false_of_isTagName hname] at hcomment
    cases hcomment
  | rule hlevel harrow tail =>
    obtain ⟨hline, -⟩ := List.cons.inj hline
    obtain ⟨rfl, -⟩ := List.cons.inj hline
    rw [Token.level?_of_isTagName hname] at hlevel
    cases hlevel
  | block hname' henclosed tail =>
    cases hline
    exact ⟨_, _, _, _, rfl, henclosed, rfl⟩

/-- A word that stands somewhere, and not on a comment, does so in an item. -/
theorem Stands.exists_item (h : Stands lines word place) (hlayout : Layout 1 lines items)
    (harrow : word ≠ Token.arrow) (hbracket : word ≠ [']']) (hcomment : ¬ place.OnComment word) :
    ∃ item ∈ items, place.Within word item := by
  cases h with
  | @inRule above below first level before after hlines houtside hlevel hbefore =>
    subst hlines
    obtain ⟨front, back, rfl, hback⟩ := hlayout.of_append houtside
    rw [Nat.add_comm] at hback
    obtain ⟨conditions, words, items, hbody, rfl⟩ := hback.rule_of_level hlevel
    obtain ⟨between, rfl⟩ := exists_of_append_cons hbody hbefore harrow
    exact ⟨_, List.mem_append_right _ List.mem_cons_self, .inRule⟩
  | @inBlock above rows more _ _ _ before after hlines houtside hname hrows hopen hbefore =>
    subst hlines
    obtain ⟨front, back, rfl, hback⟩ := hlayout.of_append houtside
    obtain ⟨used, body, lines, items, rfl, henclosed, rfl⟩ := hback.block_of_isTagName hname
    have hkept : rows ≠ [] → continuation (before ++ word :: after) = before ++ word :: after := by
      intro hbelow
      apply continuation_of_word
      intro first hfirst
      rw [Bool.eq_false_iff]
      exact fun hcommented => hcomment ⟨hbelow, first, hfirst, hcommented⟩
    obtain ⟨after, rest, rfl⟩ := henclosed.exists_row hrows hopen hbefore hbracket hkept
    exact ⟨_, List.mem_append_right _ List.mem_cons_self, .inBlock⟩

theorem Place.Within.mem_conditions (h : place.Within word item) (hcomma : word ≠ [',']) :
    word ∈ item.conditions := by
  cases h with
  | inRule => exact List.mem_append_right _ List.mem_cons_self
  | inBlock => simp [Item.conditions, conditionsOf, hcomma]

/-- The run of a word in a block, and the place of the word in it. -/
theorem exists_run_at (above below : List (List Token)) (before after : List Token)
    (hcomma : word ≠ [',']) :
    ∃ run, ((held above ++ (before ++ word :: after) :: below).flatMap runs)[
        Place.groupsBefore above before]? = some run ∧
      run[Place.membersBefore before]? = some word := by
  obtain ⟨later, more, hruns⟩ := exists_runs before after hcomma
  have hall : (held above ++ (before ++ word :: after) :: below).flatMap runs =
      ((held above).flatMap runs ++ runs (before.rdropWhile (· ≠ [',']))) ++
        (before.rtakeWhile (· ≠ [',']) ++ word :: later) :: (more ++ below.flatMap runs) := by
    rw [List.flatMap_append, List.flatMap_cons, hruns]
    simp only [List.append_assoc, List.cons_append]
  refine ⟨before.rtakeWhile (· ≠ [',']) ++ word :: later, ?_, ?_⟩
  · rw [hall, Place.groupsBefore]
    simp
  · simp [Place.membersBefore]

theorem predicates_at {position : String → Nat} {tokens : List Token} {p : Predicate A} {i : Nat}
    (haccepts : ∀ token ∈ tokens, V.Accepts token) (hat : tokens[i]? = some word)
    (hp : V.interpret position word = .ok p) : (V.predicates position tokens)[i]? = some p := by
  obtain ⟨q, hq, hword⟩ := getElem?_of_forall₂ (Vocabulary.forall₂_predicates haccepts) hat
  exact Except.ok.inj (hword.symm.trans hp) ▸ hq

theorem Layout.rule_unique {line : Nat} (h : Layout line lines items) {rule other : Rule A M}
    (hrule : rule ∈ (rulesetOf V items text).rules)
    (hother : other ∈ (rulesetOf V items text).rules) (hline : other.line = rule.line) :
    other = rule := by
  have hnodup : ((declared V items).map (·.line)).Nodup :=
    List.pairwise_map.mpr (h.lines_increase.2.imp Nat.ne_of_lt)
  have hmem : ∀ r ∈ (rulesetOf V items text).rules, r ∈ declared V items :=
    fun _ => List.mem_mergeSort.mp
  exact List.inj_on_of_nodup_map hnodup (hmem other hother) (hmem rule hrule) hline

/-- What a word in an item stands for has the place of the word in the ruleset. -/
theorem WellFormed.takenBy (h : WellFormed V items) {line : Nat}
    (hlayout : Layout line lines items) (hitem : item ∈ items) (hwithin : place.Within word item)
    (hcomma : word ≠ [',']) {p : Predicate A}
    (hp : V.interpret (Reading.place (items.flatMap Item.mentions)) word = .ok p) :
    place.TakenBy p (rulesetOf V items text) := by
  have haccepts := (h.accepted item hitem).1
  cases hwithin with
  | @inRule line level before after words =>
    have hrule := @rule_mem_of_line A M V items text _ _ _ _ hitem
    refine ⟨_, hrule, rfl, fun other hother => hlayout.rule_unique hrule hother, ?_⟩
    exact predicates_at haccepts (by simp) hp
  | @inBlock name above below before after =>
    have htag := @WellFormed.tag_mem_of_block A M V items text h _ _ hitem
    refine ⟨_, htag, rfl, fun other hother => ?_, ?_⟩
    · exact h.tag_unique (mem_tags_of_rulesetOf hother) (mem_tags_of_rulesetOf htag)
    obtain ⟨run, hrun, hword⟩ := exists_run_at above below before after hcomma
    refine ⟨_, by rw [List.getElem?_map, hrun]; rfl, predicates_at ?_ hword hp⟩
    exact fun token htoken => haccepts token (run_subset (List.mem_of_getElem? hrun) htoken)

end Places

end PriorityRules.Reading
