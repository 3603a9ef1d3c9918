import Mathlib
import PriorityRules.Proofs.Reading.Order
import PriorityRules.Proofs.Reading.Passing
import PriorityRules.Proofs.Reading.Reuse

/-! # Which texts are accepted

Lines that pass have a layout, and lines with a layout pass exactly when its items are accepted and
open each name once; the draft that they end with accounts for the items. A text is therefore read
as a ruleset exactly when it is well-formed, and the ruleset is the one of its items.
-/

namespace PriorityRules

variable {A M : Type}

section Lines

variable {first : Token} {body : List Token}

theorem Line.ofTokens_of_skipped {tokens : List Token}
    (h : ∀ first ∈ tokens.head?, first.isComment) : Line.ofTokens tokens = .skipped := by
  cases tokens with
  | nil => rfl
  | cons first body => rw [Line.ofTokens, if_pos (h first rfl)]

theorem Line.ofTokens_of_level {level : Int} (h : first.level? = some level) :
    Line.ofTokens (first :: body) = .rule level body := by
  rw [Line.ofTokens, Token.isComment_eq_false_of_level h, h]
  rfl

theorem Line.ofTokens_of_isTagName (h : first.isTagName) :
    Line.ofTokens (first :: body) = .block first body := by
  rw [Line.ofTokens, Token.isComment_eq_false_of_isTagName h, Token.level?_of_isTagName h, h]
  rfl

end Lines

namespace Reading

variable {V : Vocabulary A M} {condition : ConditionReader A} {d : Draft A M}
variable {lines : List (List Token)}

theorem foldlM_skipped (hblock : d.block = none) {tokens : List Token}
    (h : ∀ first ∈ tokens.head?, first.isComment) :
    (tokens :: lines).foldlM (Draft.readTokens V condition) d =
      lines.foldlM (Draft.readTokens V condition) { d with lines := d.lines + 1 } := by
  obtain ⟨notes, rules, block, count⟩ := d
  cases hblock
  rw [List.foldlM_cons, Draft.readTokens]
  dsimp only
  rw [Draft.readOutside, Line.ofTokens_of_skipped h]
  rfl

theorem foldlM_rule (hblock : d.block = none) {first : Token} {level : Int} {body : List Token}
    (hlevel : first.level? = some level) :
    ((first :: body) :: lines).foldlM (Draft.readTokens V condition) d =
      ((readRule V condition level (d.lines + 1) body d.notes).mapError
        (Halt.map (LoadError.mk (d.lines + 1))) >>= fun (rule, notes) =>
          lines.foldlM (Draft.readTokens V condition)
            { d with notes, rules := d.rules.add rule, lines := d.lines + 1 }) := by
  obtain ⟨notes, rules, block, count⟩ := d
  cases hblock
  rw [List.foldlM_cons, Draft.readTokens]
  dsimp only
  rw [Draft.readOutside, Line.ofTokens_of_level hlevel]
  dsimp only
  cases readRule V condition level (count + 1) body notes <;> rfl

theorem foldlM_block (hblock : d.block = none) {name : Token} {first : List Token}
    (hname : name.isTagName) :
    ((name :: ['['] :: first) :: lines).foldlM (Draft.readTokens V condition) d =
      let notes :=
        { d.notes with ledger := d.notes.ledger.mention (String.ofList name) }
      if notes.ledger.isDefined (String.ofList name) then
        .error ⟨⟨d.lines + 1, .duplicateTag (String.ofList name)⟩, notes.calls⟩
      else
        resume V condition (d.lines + 1) first { name := String.ofList name } { d with notes }
          lines := by
  obtain ⟨notes, rules, block, count⟩ := d
  cases hblock
  rw [List.foldlM_cons, Draft.readTokens]
  dsimp only
  rw [Draft.readOutside, Line.ofTokens_of_isTagName hname]
  dsimp only
  rw [openBlock, resume]
  dsimp only
  split
  · rfl
  · cases readBlock condition (count + 1) first { name := String.ofList name }
      { notes with ledger := notes.ledger.mention (String.ofList name) } <;> rfl

theorem resume_append {line : Nat} {tokens : List Token} {block : Block A}
    {used : List (List Token)} :
    resume V condition line tokens block d (used ++ lines) =
      resume V condition line tokens block d used >>=
        lines.foldlM (Draft.readTokens V condition) := by
  rw [resume, resume]
  cases readBlock condition line tokens block d.notes with
  | error halt => rfl
  | ok result => exact List.foldlM_append

/-- The draft accounts for the items; names have their places among `all`. -/
structure Describes (V : Vocabulary A M) (all : List String) (items : List Item)
    (d : Draft A M) : Prop where
  outside : d.block = none
  rules : d.rules = Tiers.ofRules (items.filterMap (Item.rule? V (place all)))
  ledger : Accounts (items.flatMap Item.mentions) (items.filterMap (Item.tag? V (place all)))
    d.notes.ledger

theorem map_name_tags {position : String → Nat} {items : List Item} :
    (items.filterMap (Item.tag? V position)).map (·.name) = items.filterMap Item.opened? := by
  rw [List.map_filterMap]
  apply List.filterMap_congr
  intro item _
  cases item <;> rfl

theorem Describes.isDefined_iff {all : List String} {items : List Item}
    (h : Describes V all items d) (name : String) :
    (d.notes.ledger.mention name).isDefined name = true ↔ name ∈ items.filterMap Item.opened? := by
  have hmention : Accounts _ _ (d.notes.ledger.mention name) := h.ledger.mention
  rw [hmention.isDefined_iff, map_name_tags]

theorem prefix_mentions {all : List String} {done items : List Item} {item : Item}
    (h : (done ++ [item] ++ items).flatMap Item.mentions <+: all) :
    done.flatMap Item.mentions ++ item.mentions <+: all := by
  apply List.IsPrefix.trans _ h
  rw [List.flatMap_append, List.flatMap_append, List.flatMap_singleton]
  exact List.prefix_append _ _

/-- The lines of a layout pass when its items are accepted and open new names once each. -/
theorem layout_passes {all : List String} {line : Nat} {items : List Item}
    (hlayout : Layout line lines items) {done : List Item} (h : Describes V all done d)
    (hline : d.lines + 1 = line) (hall : (done ++ items).flatMap Item.mentions <+: all)
    (honce : (done.filterMap Item.opened?).Nodup) :
    Passes (lines.foldlM (Draft.readTokens V (readAfresh V)) d)
      ((∀ item ∈ items, item.Accepted V) ∧ ((done ++ items).filterMap Item.opened?).Nodup)
      (Describes V all (done ++ items)) := by
  induction hlayout generalizing done d with
  | done =>
    rw [List.append_nil]
    exact .ok ⟨List.forall_mem_nil _, honce⟩ h
  | skipped hskipped tail ih =>
    rw [foldlM_skipped h.outside hskipped]
    exact ih ⟨h.outside, h.rules, h.ledger⟩ (congrArg (· + 1) hline) hall honce
  | @rule line first level conditions words lines items hlevel harrow tail ih =>
    rw [List.append_cons done] at hall ⊢
    rw [List.forall_mem_cons, and_assoc, foldlM_rule h.outside hlevel, hline]
    apply (readRule_passes line harrow h.ledger (prefix_mentions hall)).mapError.bind
    rintro ⟨rule, notes⟩ _ ⟨hrule, hnotes⟩
    refine ih ?_ rfl hall ?_
    · constructor
      · exact h.outside
      · rw [List.filterMap_append, List.filterMap_cons_some hrule.symm, List.filterMap_nil,
          Tiers.ofRules_snoc, ← h.rules]
      · rw [List.flatMap_append, List.flatMap_singleton, List.filterMap_append]
        exact (List.append_nil _).symm ▸ hnotes
    · rw [List.filterMap_append]
      exact (List.append_nil _).symm ▸ honce
  | @block line name first used body lines items hname henclosed tail ih =>
    rw [List.append_cons done] at hall ⊢
    rw [List.forall_mem_cons, and_assoc, foldlM_block h.outside hname, hline]
    have hopened : (done ++ [Item.block name body]).filterMap Item.opened? =
        done.filterMap Item.opened? ++ [String.ofList name] := List.filterMap_append
    dsimp only
    split
    · rename_i hold
      apply Passes.error
      rintro ⟨_, _, hnodup⟩
      rw [List.filterMap_append, hopened] at hnodup
      have hdistinct := (List.nodup_append.mp (List.nodup_append.mp hnodup).1).2.2
      exact hdistinct _ ((h.isDefined_iff _).mp hold) _ (List.mem_singleton_self _) rfl
    · rename_i hnew
      have hfresh := mt (h.isDefined_iff _).mpr hnew
      rw [resume_append]
      apply (block_passes line henclosed h.ledger (prefix_mentions hall) ?_).bind
      · rintro after _ ⟨hblock, hrules, hlines, tag, htag, hledger⟩
        refine ih ?_ ?_ hall ?_
        · constructor
          · exact hblock
          · rw [hrules, List.filterMap_append]
            exact (List.append_nil _).symm ▸ h.rules
          · rw [List.flatMap_append, List.flatMap_singleton, List.filterMap_append,
              List.filterMap_cons_some htag.symm]
            exact hledger
        · rw [hlines, Nat.add_right_comm]
        · rw [hopened, List.nodup_append]
          refine ⟨honce, List.pairwise_singleton _ _, ?_⟩
          rintro other hother _ hname rfl
          exact hfresh (List.mem_singleton.mp hname ▸ hother)
      · rw [map_name_tags]
        exact hfresh

/-- The end of the text is fine when every name mentioned is opened. -/
theorem Describes.finish_eq_ok_iff {items : List Item}
    (h : Describes V (items.flatMap Item.mentions) items d) {text : String} {r : Ruleset A M} :
    d.finish text = .ok r ↔
      (∀ item ∈ items, ∀ name ∈ references item.conditions,
        name ∈ items.filterMap Item.opened?) ∧ r = rulesetOf V items text := by
  have hopened : (∀ name ∈ items.flatMap Item.mentions,
      name ∈ (items.filterMap (Item.tag? V (place (items.flatMap Item.mentions)))).map (·.name)) ↔
      ∀ item ∈ items, ∀ name ∈ references item.conditions,
        name ∈ items.filterMap Item.opened? := by
    rw [map_name_tags, mentions_opened_iff]
  rw [Draft.finish, h.outside]
  dsimp only
  constructor
  · intro hr
    obtain ⟨tags, htags, rfl⟩ := map_eq_ok.mp hr
    obtain ⟨hnames, rfl⟩ := h.ledger.tags_eq_ok_iff.mp htags
    rw [h.rules, Tiers.inOrder_ofRules]
    exact ⟨hopened.mp hnames, rfl⟩
  · rintro ⟨hnames, rfl⟩
    rw [h.ledger.tags_eq_ok_iff.mpr ⟨hopened.mpr hnames, rfl⟩, h.rules, Tiers.inOrder_ofRules]
    rfl

section Passed

variable {line : Nat} {tokens body : List Token} {n after : Notes A} {final : Draft A M}

theorem arrow_of_readRule {level : Int} {rule : Rule A M}
    (h : readRule V condition level line body n = .ok (rule, after)) :
    ∃ conditions words, body = conditions ++ Token.arrow :: words ∧ Token.arrow ∉ conditions := by
  by_cases harrow : Token.arrow ∈ body
  · exact List.eq_append_cons_of_mem harrow
  · have hdrop : body.dropWhile (· ≠ Token.arrow) = [] := by
      rw [← List.append_nil body, List.dropWhile_append_of_pos, List.dropWhile_nil]
      exact fun token htoken => decide_eq_true fun heq => harrow (heq ▸ htoken)
    rw [readRule, hdrop] at h
    obtain ⟨_, _, ⟨⟩⟩ := bind_eq_ok.mp h

theorem bracket_of_readBlock {block : Block A} {next : Option (Block A)}
    (h : readBlock condition line tokens block n = .ok (next, after)) :
    (∃ inner, tokens = inner ++ [[']']] ∧ [']'] ∉ inner ∧ next = none) ∨
      ([']'] ∉ tokens ∧ next.isSome) := by
  by_cases hmem : [']'] ∈ tokens
  · obtain ⟨inner, rest, rfl, hinner⟩ := List.eq_append_cons_of_mem hmem
    rw [readBlock_append hinner] at h
    obtain ⟨⟨block, notes⟩, _, h⟩ := bind_eq_ok.mp h
    dsimp only at h
    unfold readBlock at h
    rw [if_neg (by simp), if_pos rfl] at h
    split at h
    · cases h
    · cases h
    · cases h
      exact .inl ⟨inner, rfl, hinner, rfl⟩
  · rw [← List.append_nil tokens, readBlock_append hmem] at h
    obtain ⟨_, _, ⟨⟩⟩ := bind_eq_ok.mp h
    exact .inr ⟨hmem, rfl⟩

theorem bracket_of_openBlock {name : Token} {next : Option (Block A)}
    (h : openBlock condition line name body n = .ok (next, after)) :
    ∃ first, body = ['['] :: first := by
  unfold openBlock at h
  split at h
  · exact ⟨_, rfl⟩
  · cases h

/-- The lines ahead have a layout; an open block ends before its items. -/
def Ahead (d : Draft A M) (lines : List (List Token)) : Prop :=
  match d.block with
  | none => ∃ items, Layout (d.lines + 1) lines items
  | some _ => ∃ next used rest body items, lines = next :: (used ++ rest) ∧
      Enclosed (continuation next) used body ∧ Layout (d.lines + 2 + used.length) rest items

theorem Ahead.outside (h : Ahead d lines) (hblock : d.block = none) :
    ∃ items, Layout (d.lines + 1) lines items := by
  rw [Ahead, hblock] at h
  exact h

theorem ahead_of_resume {block : Block A}
    (ih : ∀ d, lines.foldlM (Draft.readTokens V condition) d = .ok final → Ahead d lines)
    (h : resume V condition line tokens block d lines = .ok final) :
    ∃ used rest body items, lines = used ++ rest ∧ Enclosed tokens used body ∧
      Layout (line + 1 + used.length) rest items := by
  rw [resume] at h
  obtain ⟨⟨next, after⟩, hread, h⟩ := bind_eq_ok.mp h
  have hahead := ih _ h
  rcases bracket_of_readBlock (mapError_eq_ok.mp hread) with
    ⟨inner, rfl, hinner, rfl⟩ | ⟨hopen, hsome⟩
  · obtain ⟨items, hlayout⟩ := hahead
    exact ⟨[], lines, [inner], items, rfl, .closed hinner, hlayout⟩
  · cases next with
    | none => cases hsome
    | some next =>
      obtain ⟨following, used, rest, body, items, rfl, henclosed, hlayout⟩ := hahead
      refine ⟨following :: used, rest, tokens :: body, items, rfl, .continued hopen henclosed, ?_⟩
      rw [List.length_cons, ← Nat.add_assoc, Nat.add_right_comm]
      exact hlayout

/-- A line that passes outside of a block is skipped, has a level or opens a block. -/
theorem head_of_readTokens {d' : Draft A M} (hblock : d.block = none)
    (h : d.readTokens V condition tokens = .ok d') :
    (∀ first ∈ tokens.head?, first.isComment) ∨
      (∃ (first : Token) (level : Int) (body : List Token),
        tokens = first :: body ∧ first.level? = some level) ∨
      ∃ (name : Token) (first : List Token), tokens = name :: ['['] :: first ∧ name.isTagName := by
  rw [Draft.readTokens, hblock] at h
  dsimp only at h
  rw [Draft.readOutside] at h
  cases tokens with
  | nil => exact .inl (by simp)
  | cons first body =>
    by_cases hcomment : first.isComment
    · left
      rintro _ ⟨⟩
      exact hcomment
    · right
      rw [Line.ofTokens, if_neg hcomment] at h
      cases hlevel : first.level? with
      | some level => exact .inl ⟨first, level, body, rfl, hlevel⟩
      | none =>
        rw [hlevel] at h
        dsimp only at h
        by_cases hname : first.isTagName
        · rw [if_pos hname] at h
          dsimp only at h
          obtain ⟨_, hopen, _⟩ := bind_eq_ok.mp (mapError_eq_ok.mp h)
          obtain ⟨rest, rfl⟩ := bracket_of_openBlock hopen
          exact .inr ⟨first, rest, rfl, hname⟩
        · rw [if_neg hname] at h
          cases h

theorem ahead_of_foldlM (hfinal : final.block = none) (lines : List (List Token)) :
    ∀ d, lines.foldlM (Draft.readTokens V condition) d = .ok final → Ahead d lines := by
  induction lines with
  | nil =>
    rintro d ⟨⟩
    rw [Ahead, hfinal]
    exact ⟨[], .done⟩
  | cons tokens lines ih =>
    intro d h
    cases hblock : d.block with
    | some block =>
      rw [foldlM_inside hblock] at h
      obtain ⟨used, rest, body, items, rfl, henclosed, hlayout⟩ := ahead_of_resume ih h
      rw [Ahead, hblock]
      exact ⟨tokens, used, rest, body, items, rfl, henclosed, hlayout⟩
    | none =>
      rw [Ahead, hblock]
      have hfirst := h
      rw [List.foldlM_cons] at hfirst
      obtain ⟨d', hstep, _⟩ := bind_eq_ok.mp hfirst
      rcases head_of_readTokens hblock hstep with
        hskipped | ⟨first, level, body, rfl, hlevel⟩ | ⟨name, first, rfl, hname⟩
      · rw [foldlM_skipped hblock hskipped] at h
        obtain ⟨items, hlayout⟩ := (ih _ h).outside hblock
        exact ⟨items, .skipped hskipped hlayout⟩
      · rw [foldlM_rule hblock hlevel] at h
        obtain ⟨⟨rule, notes⟩, hread, hrest⟩ := bind_eq_ok.mp h
        obtain ⟨conditions, words, rfl, harrow⟩ := arrow_of_readRule (mapError_eq_ok.mp hread)
        obtain ⟨items, hlayout⟩ := (ih _ hrest).outside hblock
        exact ⟨_, .rule hlevel harrow hlayout⟩
      · rw [foldlM_block hblock hname] at h
        dsimp only at h
        split at h
        · cases h
        · obtain ⟨used, rest, body, items, rfl, henclosed, hlayout⟩ := ahead_of_resume ih h
          exact ⟨_, .block hname henclosed hlayout⟩

theorem outside_of_finish {text : String} {r : Ruleset A M} (h : d.finish text = .ok r) :
    d.block = none := by
  rw [Draft.finish] at h
  cases hblock : d.block with
  | none => rfl
  | some block =>
    rw [hblock] at h
    cases h

end Passed

end Reading

namespace Vocabulary

open Reading

variable (V : Vocabulary A M) (text : String) (r : Ruleset A M)

def tokenLines (text : String) : List (List Token) := (Text.lines text.toList).map Token.split

theorem foldlM_readLine :
    (Text.lines text.toList).foldlM (Draft.readLine V (readAfresh V)) {} =
      (tokenLines text).foldlM (Draft.readTokens V (readAfresh V)) {} := by
  rw [tokenLines, List.foldlM_map]
  rfl

theorem exists_layout (h : (V.readWith (readAfresh V) text).outcome = .ok r) :
    ∃ items, Layout 1 (tokenLines text) items := by
  rw [readWith, foldlM_readLine] at h
  cases hread : (tokenLines text).foldlM (Draft.readTokens V (readAfresh V)) {} with
  | error halt =>
    rw [hread] at h
    cases h
  | ok final =>
    rw [hread] at h
    exact (ahead_of_foldlM (outside_of_finish h) _ _ hread).outside rfl

/-- Once the layout is known, the items decide whether there is a ruleset, and which. -/
theorem outcome_readAfresh_of_layout {items : List Item}
    (hlayout : Layout 1 (tokenLines text) items) :
    (V.readWith (readAfresh V) text).outcome = .ok r ↔
      WellFormed V items ∧ r = rulesetOf V items text := by
  have hstart : Describes V (items.flatMap Item.mentions) [] {} := ⟨rfl, rfl, Accounts.empty⟩
  have hpass := layout_passes hlayout hstart rfl List.prefix_rfl List.nodup_nil
  rw [readWith, foldlM_readLine]
  constructor
  · intro h
    cases hread : (tokenLines text).foldlM (Draft.readTokens V (readAfresh V)) {} with
    | error halt =>
      rw [hread] at h
      cases h
    | ok final =>
      rw [hread] at h
      obtain ⟨⟨haccepted, honce⟩, hfinal⟩ := hpass.result final hread
      obtain ⟨hopened, hr⟩ := hfinal.finish_eq_ok_iff.mp h
      exact ⟨⟨haccepted, honce, hopened⟩, hr⟩
  · rintro ⟨hwell, rfl⟩
    obtain ⟨final, hfinal⟩ := hpass.passes ⟨hwell.accepted, hwell.once⟩
    rw [hfinal]
    exact (hpass.result final hfinal).2.finish_eq_ok_iff.mpr ⟨hwell.opened, rfl⟩

theorem outcome_readAfresh_eq_ok_iff :
    (V.readWith (readAfresh V) text).outcome = .ok r ↔
      ∃ items, Layout 1 (tokenLines text) items ∧ WellFormed V items ∧
        r = rulesetOf V items text := by
  constructor
  · intro h
    obtain ⟨items, hlayout⟩ := exists_layout V text r h
    exact ⟨items, hlayout, (outcome_readAfresh_of_layout V text r hlayout).mp h⟩
  · rintro ⟨items, hlayout, hitems⟩
    exact (outcome_readAfresh_of_layout V text r hlayout).mpr hitems

theorem outcome_read_of_layout {items : List Item} (hlayout : Layout 1 (tokenLines text) items) :
    (V.read text).outcome = .ok r ↔ WellFormed V items ∧ r = rulesetOf V items text := by
  rw [read, outcome_readWith_readCondition]
  exact outcome_readAfresh_of_layout V text r hlayout

variable {V text r} in
theorem exists_items_of_read (h : (V.read text).outcome = .ok r) :
    ∃ items, Layout 1 (tokenLines text) items ∧ WellFormed V items ∧
      r = rulesetOf V items text := by
  rwa [read, outcome_readWith_readCondition, outcome_readAfresh_eq_ok_iff] at h

/-- A text is read as a ruleset exactly when its lines split into items that are well-formed, and
then the ruleset is that of the items. -/
theorem read_eq_ok_iff_wellFormed :
    (V.read text).outcome = .ok r ↔
      ∃ items, Layout 1 (tokenLines text) items ∧ WellFormed V items ∧
        r = rulesetOf V items text := by
  rw [read, outcome_readWith_readCondition, outcome_readAfresh_eq_ok_iff]

def verbatim : Vocabulary String String where
  marks := []
  fallback := some .ok
  effects := fun word => .ok [⟨1, word⟩]
  declared := ⟨[], List.nodup_nil⟩

/-- One comment stands outside of the block, and one inside, where its bracket closes nothing. -/
def porchText : String := "# ] porch ,\n2 lit !!%porch -> wave wink\nporch [ a , b\n# ] x\n\n c ]"

def porchItems : List Item :=
  [.rule 2 2 ["lit".toList, "!!%porch".toList] ["wave".toList, "wink".toList],
    .block "porch".toList [["a", ",", "b"].map String.toList, [], [], ["c".toList]]]

def porch : Ruleset String String where
  rules := [⟨2, 2, [.atom "lit", .not (.not (.tag 0))], [⟨1, "wave"⟩, ⟨1, "wink"⟩]⟩]
  tags := [⟨"porch", [[.atom "a"], [.atom "b"], [.atom "c"]]⟩]
  source := some porchText

theorem verbatim_reads_porch :
    Layout 1 (tokenLines porchText) porchItems ∧ WellFormed verbatim porchItems ∧
      rulesetOf verbatim porchItems porchText = porch ∧
      (verbatim.read porchText).outcome = .ok porch := by
  have hlast : Enclosed ["c".toList, "]".toList] [] [["c".toList]] :=
    @Enclosed.closed ["c".toList] (by decide)
  have hblock : Enclosed (["a", ",", "b"].map String.toList)
      [["#", "]", "x"].map String.toList, [], ["c".toList, "]".toList]]
      [["a", ",", "b"].map String.toList, [], [], ["c".toList]] :=
    .comment (by decide) rfl (.further (by decide) (by decide)
      (.further (by decide) (by decide) hlast))
  have hlayout : Layout 1 (tokenLines porchText) porchItems :=
    .skipped (by decide) (@Layout.rule 2 "2".toList 2 ["lit".toList, "!!%porch".toList]
      ["wave".toList, "wink".toList] _ _ (by decide) (by decide)
      (@Layout.block 3 "porch".toList _ _ _ [] [] (by decide) hblock .done))
  have hconditions : porchItems.flatMap Item.conditions =
      ["lit", "!!%porch", "a", "b", "c"].map String.toList := by decide
  have hstands : ∀ token ∈ porchItems.flatMap Item.conditions,
      ∃ p, verbatim.interpret (fun _ => 0) token = .ok p := by
    rw [hconditions]
    simp only [List.map_cons, List.map_nil, List.forall_mem_cons]
    exact ⟨⟨_, rfl⟩, ⟨_, rfl⟩, ⟨_, rfl⟩, ⟨_, rfl⟩, ⟨_, rfl⟩, List.forall_mem_nil _⟩
  have haccepts : ∀ item ∈ porchItems, ∀ token ∈ item.conditions, verbatim.Accepts token := by
    intro item hitem token htoken
    obtain ⟨p, hp⟩ := hstands token (List.mem_flatMap.mpr ⟨item, hitem, htoken⟩)
    exact accepts_of_interpret hp
  have hwell : WellFormed verbatim porchItems := by
    refine ⟨fun item hitem => ⟨haccepts item hitem, ?_⟩, by decide, by decide⟩
    simp only [porchItems, List.mem_cons, List.not_mem_nil, or_false] at hitem
    rcases hitem with rfl | rfl
    · exact ⟨fun word _ => ⟨_, rfl⟩, List.cons_ne_nil _ _⟩
    · exact List.cons_ne_nil _ _
  have hruleset : rulesetOf verbatim porchItems porchText = porch := by cbv
  exact ⟨hlayout, hwell, hruleset,
    (read_eq_ok_iff_wellFormed verbatim porchText porch).mpr
      ⟨porchItems, hlayout, hwell, hruleset.symm⟩⟩

end Vocabulary

end PriorityRules
