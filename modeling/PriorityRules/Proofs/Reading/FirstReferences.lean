import PriorityRules.Proofs.Reading.Concatenation
import PriorityRules.Proofs.Reading.Location

/-! # Names that no block opens

A text whose lines and blocks are all well-formed is refused only for the names that it refers to
and that no block opens. The one reported is the first of them in reading order, on the line of its
first reference: the ledger keeps that line when the name is mentioned again, and a name that a
block opens is never without groups in the end.
-/

namespace PriorityRules

namespace Reading

variable {A M : Type}

def citationsOn (line : Nat) (tokens : List Token) : List (Nat × String) :=
  (references tokens).map (line, ·)

def citationsFrom : Nat → List (List Token) → List (Nat × String)
  | _, [] => []
  | line, tokens :: body => citationsOn line (conditionsOf tokens) ++ citationsFrom (line + 1) body

def Item.citations (line : Nat) : Item → List (Nat × String)
  | rule _ _ conditions _ => citationsOn line conditions
  | block _ body => citationsFrom line body

/-- A layout in which each item has the line that it begins on. -/
inductive Placed : Nat → List (List Token) → List (Nat × Item) → Prop where
  | done {line : Nat} : Placed line [] []
  | skipped {line : Nat} {tokens : List Token} {lines : List (List Token)}
      {items : List (Nat × Item)} (h : ∀ first ∈ tokens.head?, first.isComment)
      (tail : Placed (line + 1) lines items) : Placed line (tokens :: lines) items
  | rule {line : Nat} {first : Token} {level : Int} {conditions words : List Token}
      {lines : List (List Token)} {items : List (Nat × Item)} (hlevel : first.level? = some level)
      (harrow : Token.arrow ∉ conditions) (tail : Placed (line + 1) lines items) :
      Placed line ((first :: (conditions ++ Token.arrow :: words)) :: lines)
        ((line, .rule line level conditions words) :: items)
  | block {line : Nat} {name : Token} {first : List Token} {used body lines : List (List Token)}
      {items : List (Nat × Item)} (hname : name.isTagName) (henclosed : Enclosed first used body)
      (tail : Placed (line + 1 + used.length) lines items) :
      Placed line ((name :: ['['] :: first) :: (used ++ lines)) ((line, .block name body) :: items)

def citations (placed : List (Nat × Item)) : List (Nat × String) :=
  placed.flatMap fun entry => entry.2.citations entry.1

section Placed

variable {line : Nat} {lines : List (List Token)} {placed : List (Nat × Item)}

theorem Placed.layout (h : Placed line lines placed) : Layout line lines (placed.map (·.2)) := by
  induction h with
  | done => exact .done
  | skipped h _ ih => exact .skipped h ih
  | rule hlevel harrow _ ih => exact .rule hlevel harrow ih
  | block hname henclosed _ ih => exact .block hname henclosed ih

theorem Layout.exists_placed {items : List Item} (h : Layout line lines items) :
    ∃ placed, placed.map (·.2) = items ∧ Placed line lines placed := by
  induction h with
  | done => exact ⟨[], rfl, .done⟩
  | skipped h _ ih =>
    obtain ⟨placed, rfl, hplaced⟩ := ih
    exact ⟨placed, rfl, .skipped h hplaced⟩
  | rule hlevel harrow _ ih =>
    obtain ⟨placed, rfl, hplaced⟩ := ih
    exact ⟨_ :: placed, rfl, .rule hlevel harrow hplaced⟩
  | block hname henclosed _ ih =>
    obtain ⟨placed, rfl, hplaced⟩ := ih
    exact ⟨_ :: placed, rfl, .block hname henclosed hplaced⟩

theorem map_snd_citationsOn {tokens : List Token} :
    (citationsOn line tokens).map (·.2) = references tokens := by
  simp [citationsOn, Function.comp_def]

theorem map_snd_citationsFrom {body : List (List Token)} :
    (citationsFrom line body).map (·.2) = references (conditionsOf body.flatten) := by
  induction body generalizing line with
  | nil => rfl
  | cons tokens body ih =>
    rw [citationsFrom, List.map_append, map_snd_citationsOn, ih, List.flatten_cons,
      conditionsOf_append, references_append]

theorem Item.map_snd_citations (item : Item) :
    (item.citations line).map (·.2) = references item.conditions := by
  cases item with
  | rule => exact map_snd_citationsOn
  | block => exact map_snd_citationsFrom

end Placed

/-- Each entry has the line of the first reference to its name. -/
structure Ledger.Cites (cites : List (Nat × String)) (l : Ledger A) : Prop where
  mentioned : ∀ c ∈ cites, c.2 ∈ l.names
  first : ∀ e ∈ l, e.firstReference = (cites.find? (·.2 = e.name)).map (·.1)

namespace Ledger.Cites

variable {cites : List (Nat × String)} {l : Ledger A} {name : String} {line : Nat}

theorem empty : Cites [] ([] : Ledger A) := ⟨nofun, nofun⟩

theorem mention (h : l.Cites cites) : (l.mention name).Cites cites := by
  constructor
  · exact fun c hc => mem_names_mention.mpr (.inr (h.mentioned c hc))
  · intro e he
    by_cases hname : name ∈ l.names
    · rw [Ledger.mention, if_pos (any_name_iff.mpr hname)] at he
      exact h.first e he
    · rcases mem_mention he with he | rfl
      · exact h.first e he
      · -- a name that is new to the ledger has no reference
        have hnone : cites.find? (·.2 = name) = none := by
          apply List.find?_eq_none.mpr
          intro c hc heq
          exact hname (of_decide_eq_true heq ▸ h.mentioned c hc)
        rw [hnone]
        rfl

theorem refer (h : l.Cites cites) : (l.refer name line).Cites (cites ++ [(line, name)]) := by
  have hmention : (l.mention name).Cites cites := h.mention
  constructor
  · intro c hc
    rw [names_refer]
    rcases List.mem_append.mp hc with hc | hc
    · exact hmention.mentioned c hc
    · rw [List.mem_singleton.mp hc]
      exact mem_names_mention.mpr (.inl rfl)
  · intro e' he'
    rw [Ledger.refer, update] at he'
    obtain ⟨e, he, rfl⟩ := List.mem_map.mp he'
    rw [List.find?_append]
    by_cases hname : e.name = name
    · rw [if_pos hname, hmention.first e he, hname]
      cases cites.find? (·.2 = name) <;> simp
    · rw [if_neg hname, hmention.first e he]
      simp [Ne.symm hname]

theorem define (h : l.Cites cites) {groups : List (Group A)} :
    (l.define name groups).Cites cites := by
  constructor
  · rw [names_define]
    exact h.mentioned
  · intro e' he'
    rw [Ledger.define, update] at he'
    obtain ⟨e, he, rfl⟩ := List.mem_map.mp he'
    split <;> exact h.first e he

theorem cite (h : l.Cites cites) (token : Token) :
    (l.cite line token).Cites (cites ++ citationsOn line [token]) := by
  cases href : token.referred? with
  | none =>
    rw [cite_of_plain href, citationsOn, references, List.filterMap_cons_none href]
    simpa using h
  | some name =>
    rw [cite_of_refers href, citationsOn, references, List.filterMap_cons_some href]
    exact h.refer

end Ledger.Cites

section Lines

variable {V : Vocabulary A M} {n : Notes A} {d : Draft A M} {cites : List (Nat × String)}
variable {line : Nat} {block : Block A} {tokens : List Token}

theorem citationsOn_cons {token : Token} :
    citationsOn line (token :: tokens) = citationsOn line [token] ++ citationsOn line tokens := by
  have hnil : references [] = [] := rfl
  simp [citationsOn, references_cons, hnil]

theorem readAfresh_cites (h : n.ledger.Cites cites) (token : Token) :
    Ends (fun _ => True) (fun s => s.2.ledger.Cites (cites ++ citationsOn line [token]))
      (readAfresh V line token n) := by
  apply Ends.of_ok
  intro s hread
  obtain ⟨hledger, _⟩ := upshot_readAfresh_eq_ok.mp (upshot_eq_ok.mpr ⟨s.2, hread, rfl⟩)
  rw [hledger]
  exact h.cite token

theorem readConditions_cites (h : n.ledger.Cites cites) :
    Ends (fun _ => True) (fun s => s.2.ledger.Cites (cites ++ citationsOn line tokens))
      (readEach (readAfresh V line) tokens n) := by
  induction tokens generalizing n cites with
  | nil => simpa [readEach, Ends, citationsOn, references] using h
  | cons token tokens ih =>
    rw [citationsOn_cons, ← List.append_assoc, readEach]
    apply (readAfresh_cites h token).bind
    rintro ⟨p, n⟩ hn
    apply (ih hn).bind
    exact fun s hs => hs

theorem readEffects_cites {words : List Token} (h : n.ledger.Cites cites) :
    Ends (fun _ => True) (·.2.ledger.Cites cites)
      (readEach (fun word notes => notes.ask (.effect (String.ofList word))
        (V.effects (String.ofList word)) LoadFault.effect) words n) := by
  apply Ends.of_ok
  intro s hread
  obtain ⟨_, _, hledger⟩ := (readEffects_pass words).result s hread
  rw [hledger]
  exact h

theorem readRule_cites {level : Int} {conditions words : List Token}
    (harrow : Token.arrow ∉ conditions) (h : n.ledger.Cites cites) :
    Ends (fun _ => True) (·.2.ledger.Cites (cites ++ citationsOn line conditions))
      (readRule V (readAfresh V) level line (conditions ++ Token.arrow :: words) n) := by
  rw [readRule, takeWhile_arrow harrow, dropWhile_arrow harrow]
  apply ((readConditions_cites h).mapError fun _ _ => trivial).bind
  rintro ⟨conditions, n⟩ hn
  apply (readEffects_cites hn).bind
  rintro ⟨effects, n⟩ hn
  dsimp only
  split
  · trivial
  · exact hn

theorem feed_cites (h : n.ledger.Cites cites) :
    Ends (fun _ => True)
      (·.2.ledger.Cites (cites ++ citationsOn line (conditionsOf tokens)))
      (feed (readAfresh V) line tokens block n) := by
  induction tokens generalizing n cites block with
  | nil => simpa [feed, Ends, citationsOn, conditionsOf, references] using h
  | cons token tokens ih =>
    rw [feed]
    by_cases hcomma : token = [',']
    · rw [if_pos hcomma, hcomma, conditionsOf_comma]
      exact ih h
    · rw [if_neg hcomma, conditionsOf_cons hcomma, citationsOn_cons, ← List.append_assoc]
      apply ((readAfresh_cites h token).mapError fun _ _ => trivial).bind
      rintro ⟨p, n⟩ hn
      exact ih hn

theorem readBlock_open_cites (hopen : [']'] ∉ tokens) (h : n.ledger.Cites cites) :
    Ends (fun _ => True)
      (fun s => s.1.isSome ∧
        s.2.ledger.Cites (cites ++ citationsOn line (conditionsOf tokens)))
      (readBlock (readAfresh V) line tokens block n) := by
  rw [← List.append_nil tokens, readBlock_append hopen, List.append_nil]
  apply (feed_cites h).bind
  exact fun s hs => ⟨rfl, hs⟩

theorem readBlock_closed_cites (hinner : [']'] ∉ tokens) (h : n.ledger.Cites cites) :
    Ends (fun _ => True)
      (fun s => s.1 = none ∧
        s.2.ledger.Cites (cites ++ citationsOn line (conditionsOf tokens)))
      (readBlock (readAfresh V) line (tokens ++ [[']']]) block n) := by
  rw [readBlock_append hinner]
  apply (feed_cites h).bind
  rintro ⟨block, n⟩ hn
  apply Ends.of_ok
  intro s hread
  obtain ⟨_, hnone, hledger⟩ := readBlock_closing_passes.result s hread
  exact ⟨hnone, hledger ▸ hn.define⟩

theorem enclosed_cites {first : List Token} {used body : List (List Token)}
    (henclosed : Enclosed first used body) (h : d.notes.ledger.Cites cites) :
    Ends (fun _ => True)
      (fun d' => d'.block = none ∧ d'.lines = line + used.length ∧
        d'.notes.ledger.Cites (cites ++ citationsFrom line body))
      (resume V (readAfresh V) line first block d used) := by
  induction henclosed using Enclosed.line_induction generalizing line block d cites with
  | @closed inner hinner =>
    rw [resume, citationsFrom, citationsFrom, List.append_nil]
    apply ((readBlock_closed_cites hinner h).mapError fun _ _ => trivial).bind
    rintro ⟨_, n⟩ ⟨rfl, hn⟩
    exact ⟨rfl, rfl, hn⟩
  | @further first next used body hfirst tail ih =>
    rw [resume, citationsFrom, ← List.append_assoc]
    apply ((readBlock_open_cites hfirst h).mapError fun _ _ => trivial).bind
    rintro ⟨block, n⟩ ⟨hsome, hn⟩
    obtain ⟨block, rfl⟩ := Option.isSome_iff_exists.mp hsome
    dsimp only
    rw [foldlM_inside rfl, List.length_cons, ← Nat.add_assoc, Nat.add_right_comm]
    exact ih hn

/-- Where lines pass, the ledger has the references of all of them. -/
theorem placed_cites {lines : List (List Token)} {placed : List (Nat × Item)}
    (hplaced : Placed line lines placed) (hblock : d.block = none) (hline : d.lines + 1 = line)
    (h : d.notes.ledger.Cites cites) :
    Ends (fun _ => True) (·.notes.ledger.Cites (cites ++ citations placed))
      (lines.foldlM (Draft.readTokens V (readAfresh V)) d) := by
  induction hplaced generalizing d cites with
  | done =>
    rw [citations, List.flatMap_nil, List.append_nil]
    exact h
  | skipped hskipped _ ih =>
    rw [foldlM_skipped hblock hskipped]
    exact ih hblock (congrArg (· + 1) hline) h
  | rule hlevel harrow _ ih =>
    rw [foldlM_rule hblock hlevel, hline, citations, List.flatMap_cons, ← List.append_assoc]
    apply ((readRule_cites harrow h).mapError fun _ _ => trivial).bind
    rintro ⟨rule, n⟩ hn
    exact ih hblock rfl hn
  | block hname henclosed _ ih =>
    rw [foldlM_block hblock hname, hline, citations, List.flatMap_cons, ← List.append_assoc]
    dsimp only
    split
    · trivial
    · rw [resume_append]
      apply (enclosed_cites henclosed h.mention).bind
      rintro d' ⟨hblock', hlines, hd'⟩
      refine ih hblock' ?_ hd'
      rw [hlines, Nat.add_right_comm]

end Lines

section Report

variable {V : Vocabulary A M} {placed : List (Nat × Item)} {d : Draft A M} {l : Ledger A}

theorem find?_eraseDups (names : List String) (p : String → Bool) :
    names.eraseDups.find? p = names.find? p := by
  induction names using List.reverseRecOn with
  | nil => rfl
  | append_singleton names name ih =>
    rw [eraseDups_snoc, List.find?_append]
    split
    · -- a repeated name is found before it is repeated
      rename_i hmem
      rw [ih]
      cases hfind : names.find? p with
      | some other => rfl
      | none => simpa using List.find?_eq_none.mp hfind name hmem
    · rw [List.find?_append, ih]

/-- Apart from the names that blocks open, a text mentions names in the order of its references. -/
theorem find?_mentions {p : String → Bool}
    (hp : ∀ entry ∈ placed, ∀ name ∈ entry.2.opened?, p name = false) :
    ((placed.map (·.2)).flatMap Item.mentions).find? p =
      ((citations placed).map (·.2)).find? p := by
  induction placed with
  | nil => rfl
  | cons entry placed ih =>
    obtain ⟨hentry, hrest⟩ := List.forall_mem_cons.mp hp
    have hopened : entry.2.opened?.toList.find? p = none := by
      simpa [List.find?_eq_none] using hentry
    rw [List.map_cons, List.flatMap_cons, List.find?_append, ih hrest, Item.mentions,
      List.find?_append, hopened, Option.none_or, citations, citations, List.flatMap_cons,
      List.map_append, List.find?_append, Item.map_snd_citations]

/-- A reference is the first one to its name if it is the first to a name of its kind. -/
theorem find?_name {p : String → Bool} {cites : List (Nat × String)} {c : Nat × String}
    (h : cites.find? (fun c => p c.2) = some c) : cites.find? (·.2 = c.2) = some c := by
  obtain ⟨hp, before, after, rfl, hbefore⟩ := List.find?_eq_some_iff_append.mp h
  apply List.find?_eq_some_iff_append.mpr
  refine ⟨by simp, before, after, rfl, fun other hother => ?_⟩
  have hother := hbefore other hother
  by_cases heq : other.2 = c.2
  · simp [heq, hp] at hother
  · simpa using heq

/-- The first name without groups is that of the first reference to a name without a tag, and has
the line of that reference. -/
theorem find?_without_groups {names : List String} {tags : List (Tag A)}
    {cites : List (Nat × String)} (h : Accounts names tags l) (hcites : l.Cites cites)
    {p : String → Bool} (hp : ∀ name, p name = true ↔ name ∉ tags.map (·.name))
    (hnames : names.find? p = (cites.map (·.2)).find? p) :
    (l.find? (·.groups.isNone)).map (fun e => (e.firstReference.getD 0, e.name)) =
      cites.find? fun c => p c.2 := by
  have hgroups : l.find? (·.groups.isNone) = l.find? fun e => p e.name := by
    apply List.find?_congr
    intro e he
    rw [Bool.eq_iff_iff, hp, ← Accounts.find?_isSome_iff, h.recorded e he, Option.isNone_map,
      Option.isNone_iff_eq_none, Option.not_isSome_iff_eq_none]
  rw [← find?_eraseDups, ← h.listed, Ledger.names, List.find?_map, List.find?_map,
    Function.comp_def, Function.comp_def, ← hgroups] at hnames
  cases hfind : cites.find? fun c => p c.2 with
  | none =>
    rw [hfind] at hnames
    simpa using hnames
  | some c =>
    rw [hfind] at hnames
    obtain ⟨e, he, hname⟩ := Option.map_eq_some_iff.mp hnames
    have hfirst := hcites.first e (List.mem_of_find?_eq_some he)
    rw [hname, find?_name hfind] at hfirst
    simp [he, hfirst, hname]

/-- Lines that pass end in a report of the first reference to a name that no block opens, if there
is one. -/
theorem Describes.finish_undefined
    (h : Describes V ((placed.map (·.2)).flatMap Item.mentions) (placed.map (·.2)) d)
    (hcites : d.notes.ledger.Cites (citations placed)) {text : String} {line : Nat}
    {name : String} :
    d.finish text = .error ⟨line, .undefinedTag name⟩ ↔
      ((citations placed).find? fun c => c.2 ∉ (placed.map (·.2)).filterMap Item.opened?) =
        some (line, name) := by
  have hopened : ∀ entry ∈ placed, ∀ name ∈ entry.2.opened?,
      decide (name ∉ (placed.map (·.2)).filterMap Item.opened?) = false := by
    intro entry hentry name hname
    rw [decide_eq_false_iff_not, not_not]
    exact List.mem_filterMap.mpr ⟨_, List.mem_map_of_mem hentry, hname⟩
  have hnames := find?_mentions hopened
  have hfirst := find?_without_groups h.ledger hcites
    (fun name => by rw [map_name_tags, decide_eq_true_iff]) hnames
  rw [Draft.finish, h.outside, ← hfirst]
  dsimp only
  cases htags : d.notes.ledger.tags with
  | error error =>
    obtain ⟨e, he, rfl⟩ := Ledger.tags_eq_error_iff.mp htags
    simp [Except.map, he]
  | ok tags =>
    have hnone : d.notes.ledger.find? (·.groups.isNone) = none := by
      have hsome := (Ledger.tags_eq_ok_iff.mp htags).1
      simpa [List.find?_eq_none, Option.isSome_iff_ne_none] using hsome
    simp [Except.map, hnone]

end Report

end Reading

namespace Vocabulary

open Reading

variable {A M : Type} {V : Vocabulary A M} {text : String} {placed : List (Nat × Item)}

theorem outcome_undefined_iff (hplaced : Placed 1 (tokenLines text) placed)
    (haccepted : ∀ item ∈ placed.map (·.2), item.Accepted V)
    (honce : ((placed.map (·.2)).filterMap Item.opened?).Nodup) (line : Nat) (name : String) :
    (V.read text).outcome = .error ⟨line, .undefinedTag name⟩ ↔
      ((citations placed).find? fun c => c.2 ∉ (placed.map (·.2)).filterMap Item.opened?) =
        some (line, name) := by
  have hstart : Describes V ((placed.map (·.2)).flatMap Item.mentions) [] {} :=
    ⟨rfl, rfl, Accounts.empty⟩
  have hpass := layout_passes hplaced.layout hstart rfl List.prefix_rfl List.nodup_nil
  have hcites := placed_cites (V := V) (d := {}) hplaced rfl rfl Ledger.Cites.empty
  obtain ⟨d, hd⟩ := hpass.passes ⟨haccepted, honce⟩
  rw [hd] at hcites
  rw [read, outcome_readWith_readCondition, readWith, foldlM_readLine, hd]
  exact (hpass.result d hd).2.finish_undefined hcites

/-- A text whose items are accepted and open each name once is refused for an undefined name just
when it refers to a name that no block opens. The report is on the first such reference in reading
order, and on its line. -/
theorem undefinedTag_at_first_reference {items : List Item}
    (hlayout : Layout 1 (tokenLines text) items) (haccepted : ∀ item ∈ items, item.Accepted V)
    (honce : (items.filterMap Item.opened?).Nodup) :
    (∃ placed, placed.map (·.2) = items ∧ Placed 1 (tokenLines text) placed) ∧
      ∀ placed, placed.map (·.2) = items → Placed 1 (tokenLines text) placed →
        let opened := items.filterMap Item.opened?
        ((∃ line name, (V.read text).outcome = .error ⟨line, .undefinedTag name⟩) ↔
            ∃ c ∈ citations placed, c.2 ∉ opened) ∧
          ∀ line name, (V.read text).outcome = .error ⟨line, .undefinedTag name⟩ →
            1 ≤ line ∧ name ∉ opened ∧ ∃ before after,
              citations placed = before ++ (line, name) :: after ∧
                ∀ c ∈ before, c.2 ∈ opened := by
  refine ⟨hlayout.exists_placed, ?_⟩
  rintro placed rfl hplaced opened
  have houtcome := outcome_undefined_iff hplaced haccepted honce
  constructor
  · constructor
    · rintro ⟨line, name, h⟩
      have hfind := (houtcome line name).mp h
      have hname := List.find?_some hfind
      exact ⟨_, List.mem_of_find?_eq_some hfind, of_decide_eq_true hname⟩
    · rintro ⟨c, hc, hname⟩
      have hsome : ((citations placed).find? fun c => c.2 ∉ opened).isSome :=
        List.find?_isSome.mpr ⟨c, hc, decide_eq_true hname⟩
      obtain ⟨⟨line, name⟩, hfind⟩ := Option.isSome_iff_exists.mp hsome
      exact ⟨line, name, (houtcome line name).mpr hfind⟩
  · intro line name h
    obtain ⟨hname, before, after, hsplit, hbefore⟩ :=
      List.find?_eq_some_iff_append.mp ((houtcome line name).mp h)
    refine ⟨(read_error_located h).within.1, of_decide_eq_true hname, before, after, hsplit, ?_⟩
    intro c hc
    simpa only [Bool.not_eq_true', decide_eq_false_iff_not, not_not] using hbefore c hc

/-- The items of a text that refers to two names that no block opens. -/
def barnItems : List (Nat × Item) :=
  [(1, .rule 1 1 ["%hall".toList] ["a".toList]),
    (2, .block "hall".toList [["x".toList], ["!!%barn", ",", "%yard"].map String.toList]),
    (4, .rule 4 2 ["%yard".toList] ["b".toList])]

theorem verbatim_misses_barn :
    (verbatim.read "1 %hall -> a\nhall [ x\n!!%barn , %yard ]\n2 %yard -> b").outcome =
        .error ⟨3, .undefinedTag "barn"⟩ ∧
      citations barnItems = [(1, "hall"), (3, "barn"), (3, "yard"), (4, "yard")] ∧
      ∃ before after, citations barnItems = before ++ (3, "barn") :: after ∧
        ∀ c ∈ before, c.2 ∈ (barnItems.map (·.2)).filterMap Item.opened? := by
  have hread : (verbatim.read
      "1 %hall -> a\nhall [ x\n!!%barn , %yard ]\n2 %yard -> b").outcome =
        .error ⟨3, .undefinedTag "barn"⟩ := by
    rfl
  have hcites : citations barnItems = [(1, "hall"), (3, "barn"), (3, "yard"), (4, "yard")] := by
    decide
  have hplaced : Placed 1
      (tokenLines "1 %hall -> a\nhall [ x\n!!%barn , %yard ]\n2 %yard -> b") barnItems := by
    have hclosed : Enclosed (["!!%barn", ",", "%yard", "]"].map String.toList) []
        [["!!%barn", ",", "%yard"].map String.toList] :=
      @Enclosed.closed (["!!%barn", ",", "%yard"].map String.toList) (by decide)
    have hbody : Enclosed ["x".toList] [["!!%barn", ",", "%yard", "]"].map String.toList]
        [["x".toList], ["!!%barn", ",", "%yard"].map String.toList] :=
      .further (by decide) (by decide) hclosed
    have hrule : Placed 4 [["2", "%yard", "->", "b"].map String.toList]
        [(4, .rule 4 2 ["%yard".toList] ["b".toList])] :=
      @Placed.rule 4 "2".toList 2 ["%yard".toList] ["b".toList] [] [] (by decide) (by decide) .done
    have hblock : Placed 2 [["hall", "[", "x"].map String.toList,
        ["!!%barn", ",", "%yard", "]"].map String.toList,
        ["2", "%yard", "->", "b"].map String.toList] barnItems.tail :=
      @Placed.block 2 "hall".toList ["x".toList] _ _ _ _ (by decide) hbody hrule
    exact @Placed.rule 1 "1".toList 1 ["%hall".toList] ["a".toList] _ _ (by decide) (by decide)
      hblock
  have haccepted : ∀ item ∈ barnItems.map (·.2), item.Accepted verbatim := by
    have hall : verbatim.Accepts "%hall".toList :=
      accepts_of_interpret (rfl : verbatim.interpret (fun _ => 0) _ = .ok (.tag 0))
    have yard : verbatim.Accepts "%yard".toList :=
      accepts_of_interpret (rfl : verbatim.interpret (fun _ => 0) _ = .ok (.tag 0))
    have barn : verbatim.Accepts "!!%barn".toList :=
      accepts_of_interpret (rfl : verbatim.interpret (fun _ => 0) _ = .ok (.not (.not (.tag 0))))
    have atom : verbatim.Accepts "x".toList :=
      accepts_of_interpret (rfl : verbatim.interpret (fun _ => 0) _ = .ok (.atom "x"))
    have hwords : ∀ word, verbatim.AcceptsEffect word := fun word => ⟨_, rfl⟩
    intro item hitem
    simp only [barnItems, List.map_cons, List.map_nil, List.mem_cons, List.not_mem_nil, or_false]
      at hitem
    rcases hitem with rfl | rfl | rfl
    · exact ⟨List.forall_mem_singleton.mpr hall, fun word _ => hwords word, List.cons_ne_nil _ _⟩
    · refine ⟨?_, List.cons_ne_nil _ _⟩
      intro token htoken
      have htoken : token ∈ ["x".toList, "!!%barn".toList, "%yard".toList] := htoken
      simp only [List.mem_cons, List.not_mem_nil, or_false] at htoken
      rcases htoken with rfl | rfl | rfl
      · exact atom
      · exact barn
      · exact yard
    · exact ⟨List.forall_mem_singleton.mpr yard, fun word _ => hwords word, List.cons_ne_nil _ _⟩
  obtain ⟨_, hreport⟩ := undefinedTag_at_first_reference hplaced.layout haccepted (by decide)
  obtain ⟨_, _, hfirst⟩ := (hreport _ rfl hplaced).2 3 "barn" hread
  exact ⟨hread, hcites, hfirst⟩

end Vocabulary

end PriorityRules
