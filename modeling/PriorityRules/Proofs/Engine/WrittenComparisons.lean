import PriorityRules.Proofs.Engine.DoubleNegation
import PriorityRules.Proofs.Engine.Integrity
import PriorityRules.Proofs.Reading.Calls
import PriorityRules.Proofs.Reading.Insertion
import PriorityRules.Proofs.Reading.Literals
import PriorityRules.Proofs.Reading.Renderings

/-! # Comparisons read back

A comparison that is written with the name of a number, an operator and a number literal is read
back as written, if the name does not interfere with the operator. A literal never interferes: none
of its characters belongs to an operator, to the end of a comparison or between tokens.
-/

namespace PriorityRules

variable {C A M : Type}

namespace Comparison

/-- The name can stand on the left of the operator. -/
structure Writable (name : List Char) (op : Operator) : Prop where
  ne_nil : name ≠ []
  word : ∀ c ∈ name, Token.isWordChar c
  free : ∀ c ∈ finals, c ∉ name
  sign : op = .equals → name.getLast? ≠ some '!'

/-- A comparison with or without its closing parenthesis. -/
def written (name : List Char) (op : Operator) (literal : List Char) (closed : Bool) : Token :=
  '(' :: (name ++ op.symbol ++ literal ++ if closed then [')'] else [])

variable {name literal left right : List Char} {op : Operator}

theorem isWord_written (hname : Writable name op)
    (hliteral : ∀ c ∈ literal, Decimal.isLiteralChar c) (closed : Bool) :
    (written name op literal closed).IsWord := by
  have hsymbol : ∀ c ∈ op.symbol, Token.isWordChar c :=
    List.all_eq_true.mp (by cases op <;> rfl)
  have hclosing : ∀ c ∈ if closed then [')'] else [], Token.isWordChar c :=
    List.all_eq_true.mp (by cases closed <;> rfl)
  refine ⟨List.cons_ne_nil _ _, List.forall_mem_cons.mpr ⟨by decide, ?_⟩⟩
  simp only [List.forall_mem_append]
  exact ⟨⟨⟨hname.word, hsymbol⟩, fun c hc => (Decimal.isLiteralChar_elsewhere (hliteral c hc)).1⟩,
    hclosing⟩

/-- Between sides without the final characters of symbols there is one cut around the symbol. -/
theorem Admissible.eq_of_free (hname : ∀ c ∈ finals, c ∉ name)
    (hliteral : ∀ c ∈ finals, c ∉ literal)
    (h : Admissible (name ++ op.symbol ++ literal) op.symbol left right) : left = name := by
  obtain ⟨c, hc, before, hsymbol, hnew⟩ := Operator.exists_final op
  have hbody : left ++ before ++ c :: right = name ++ before ++ c :: literal := by
    simpa [hsymbol] using h.body_eq.symm
  have hsides := (List.append_cons_inj_of_notMem
    (fun hmem => (List.mem_append.mp hmem).elim (hname c hc) hnew) (hliteral c hc)).mp hbody.symm
  exact (List.append_cancel_right hsides.1).symm

/-- An operator that is looked for earlier has a final character that is not in the symbol, unless
it is the one that negates equality. -/
theorem Operator.earlier_symbol (op : Operator) :
    ∀ other ∈ Operator.searchOrder.takeWhile (· ≠ op),
      op = .equals ∧ other = .differs ∨ ∃ c ∈ finals, c ∈ other.symbol ∧ c ∉ op.symbol := by
  cases op <;> simp [Operator.searchOrder, Operator.symbol, finals]

/-- A name in front of an equality sign ends in a negation sign if `!=` has a cut. -/
theorem getLast?_of_differs (hname : ∀ c ∈ finals, c ∉ name)
    (hliteral : ∀ c ∈ finals, c ∉ literal)
    (h : Admissible (name ++ Operator.equals.symbol ++ literal) Operator.differs.symbol left
      right) : name.getLast? = some '!' := by
  have hbody : left ++ ['!'] ++ '=' :: right = name ++ '=' :: literal := by
    simpa [Operator.symbol] using h.body_eq.symm
  have hsides := (List.append_cons_inj_of_notMem (hname '=' (by decide))
    (hliteral '=' (by decide))).mp hbody.symm
  rw [hsides.1, List.getLast?_concat]

/-- The operator that was written is the one that is found, with the name and the literal on its
sides. -/
theorem chosen_of_writable (hname : Writable name op) (hne : literal ≠ [])
    (hliteral : ∀ c ∈ finals, c ∉ literal) :
    Chosen (name ++ op.symbol ++ literal) op name literal := by
  refine ⟨⟨rfl, hname.ne_nil, hne⟩, ⟨Operator.searchOrder.takeWhile (· ≠ op),
    (Operator.searchOrder.dropWhile (· ≠ op)).tail, by cases op <;> decide, ?_⟩, ?_⟩
  · intro other hother l r h
    rcases Operator.earlier_symbol op other hother with ⟨rfl, rfl⟩ | ⟨c, hc, hin, hout⟩
    · exact hname.sign rfl (getLast?_of_differs hname.free hliteral h)
    · have hbody : c ∈ name ++ op.symbol ++ literal :=
        h.body_eq ▸ List.mem_append_left _ (List.mem_append_right _ hin)
      simp [hname.free c hc, hout, hliteral c hc] at hbody
  · intro l r h
    rw [h.eq_of_free hname.free hliteral]

theorem dropClosing_written {body : List Char} (hbody : body.getLast? ≠ some ')') (closed : Bool) :
    Reading.dropClosing (body ++ if closed then [')'] else []) = body := by
  cases closed with
  | false => rw [if_neg Bool.false_ne_true, List.append_nil, Reading.dropClosing, if_neg hbody]
  | true =>
    rw [if_pos rfl, Reading.dropClosing, List.getLast?_concat, if_pos rfl, List.dropLast_concat]

end Comparison

/-- A rule line with one condition and one effect, and a block with the same condition. -/
def ruleAndBlock (first token word name : Token) : String :=
  Text.ofLines [first ++ [' '] ++ token ++ ([' ', '-', '>', ' '] ++ word),
    name ++ [' ', '[', ' '] ++ token ++ [' ', ']']]

theorem Token.isWord_of_isTagName {name : Token} (h : name.isTagName) : name.IsWord := by
  match name, h with
  | first :: second :: rest, h =>
    obtain ⟨hfirst, hrest⟩ := Bool.and_eq_true_iff.mp h
    have hword : ∀ c : Char, c.isAlphanum → Token.isWordChar c := fun c hc =>
      (Decimal.isLiteralChar_elsewhere (Decimal.isLiteralChar_of_isAlphanum hc)).1
    refine ⟨List.cons_ne_nil _ _, List.forall_mem_cons.mpr ⟨hword _ ?_, ?_⟩⟩
    · simp [Char.isAlphanum, hfirst]
    · exact fun c hc => hword c (List.all_eq_true.mp hrest c hc)

theorem tokenLines_ruleAndBlock {first token word name : Token} (hfirst : first.IsWord)
    (htoken : token.IsWord) (hword : word.IsWord) (hname : name.IsWord) :
    Vocabulary.tokenLines (ruleAndBlock first token word name) =
      [[first, token, Token.arrow, word], [name, ['['], token, [']']]] := by
  have hblank : Token.isWordChar ' ' = false := by decide
  have hrule : Token.split (first ++ [' '] ++ token ++ ([' ', '-', '>', ' '] ++ word)) =
      [first, token, Token.arrow, word] := by
    rw [htoken.split_around (by simp [hblank]) (by simp [hblank]),
      Token.split_append (.inr (by simp [hblank])), Token.split_append (.inl (by simp [hblank])),
      hfirst.split, hword.split]
    rfl
  have hblock : Token.split (name ++ [' ', '[', ' '] ++ token ++ [' ', ']']) =
      [name, ['['], token, [']']] := by
    rw [htoken.split_around (by simp [hblank]) (by simp [hblank]),
      Token.split_append (.inr (by simp [hblank])), hname.split]
    rfl
  have hfeed : ∀ word : Token, word.IsWord → '\n' ∉ word :=
    fun word hword hmem => absurd (hword.chars _ hmem) (by decide)
  rw [ruleAndBlock, Vocabulary.tokenLines_ofLines, List.map_cons, List.map_cons, hrule, hblock]
  · rfl
  · simp [hfeed _ hfirst, hfeed _ htoken, hfeed _ hword, hfeed _ hname]

namespace Vocabulary

open Comparison Reading

variable {V : Vocabulary A M} {text : String}

theorem interpret_written {name literal : List Char} {op : Operator} {position : Nat}
    {constant : Float} (hname : Writable name op)
    (hposition : V.declared.names[position]? = some (String.ofList name))
    (hliteral : Decimal.read? literal = some constant) (closed : Bool)
    (tagPosition : String → Nat) :
    V.interpret tagPosition (written name op literal closed) =
      .ok (.compare ⟨position, op, constant⟩) := by
  obtain ⟨hne, hchars⟩ := Decimal.literalChars_of_read? hliteral
  have hlast : (name ++ op.symbol ++ literal).getLast? ≠ some ')' := by
    rw [List.getLast?_append_of_ne_nil _ hne]
    intro hparen
    exact (Decimal.isLiteralChar_elsewhere (hchars _ (List.mem_of_getLast? hparen))).2.2 rfl
  have hchosen : Chosen (name ++ op.symbol ++ literal) op name literal :=
    chosen_of_writable hname hne fun c hc hmem =>
      (Decimal.isLiteralChar_elsewhere (hchars c hmem)).2.1 hc
  have hbody := ((ofBody_of_chosen hchosen).2 position hposition).2 constant hliteral
  rw [written, interpret_plain (by simp), interpretPlain, dropClosing_written hlast, hbody]
  rfl

section OneCondition

variable {first token word name : Token} {level : Int} {effects : List (Effect M)} {p : Predicate A}
  (htoken : token.IsWord) (href : token.referred? = none)
  (hread : ∀ position, V.interpret position token = .ok p)
  (heffects : V.effects (String.ofList word) = .ok effects)

include htoken href hread heffects

theorem wellFormed_ruleAndBlock (hne : effects ≠ []) :
    WellFormed V [.rule 1 level [token] [word], .block name [[token]]] := by
  have haccepts : V.Accepts token := accepts_of_interpret (hread fun _ => 0)
  have hconditions : conditionsOf [token] = [token] :=
    conditionsOf_cons (htoken.ne_singleton (by decide)) []
  have hreferences : references [token] = [] := List.filterMap_cons_none href
  constructor
  · simp [Item.Accepted, Item.conditions, hconditions, haccepts, AcceptsEffect, effectsOf,
      heffects, Except.toOption, hne]
  · exact List.nodup_singleton (String.ofList name)
  · simp [Item.conditions, hconditions, hreferences]

theorem rulesetOf_ruleAndBlock (text : String) :
    rulesetOf V [.rule 1 level [token] [word], .block name [[token]]] text =
      ⟨[⟨level, 1, [p], effects⟩], [⟨String.ofList name, [[p]]⟩], some text⟩ := by
  have hcomma : token ≠ [','] := htoken.ne_singleton (by decide)
  have hconditions : conditionsOf [token] = [token] := conditionsOf_cons hcomma []
  have hreferences : references [token] = [] := List.filterMap_cons_none href
  have hruns : runs [token] = [[token]] := by simp [runs_eq_runsFrom, runsFrom, hcomma]
  have hpredicates : ∀ position, V.predicates position [token] = [p] :=
    fun position => predicates_cons (hread position) []
  have heffectsOf : V.effectsOf [word] = effects := by simp [effectsOf, heffects, Except.toOption]
  simp [rulesetOf, Item.rule?, Item.tag?, Item.mentions, Item.opened?, Item.conditions,
    hconditions, hreferences, hruns, hpredicates, heffectsOf, Ruleset.inOrder,
    List.filterMap_cons, List.eraseDups_cons]

/-- A text of one rule and one block, with a condition that stands for a predicate wherever the tags
are, is read as one rule and one tag with this predicate. -/
theorem read_ruleAndBlock (hfirst : first.IsWord) (hlevel : first.level? = some level)
    (harrow : token ≠ Token.arrow) (hword : word.IsWord) (hne : effects ≠ [])
    (hname : name.isTagName) :
    (V.read (ruleAndBlock first token word name)).outcome =
      .ok ⟨[⟨level, 1, [p], effects⟩], [⟨String.ofList name, [[p]]⟩],
        some (ruleAndBlock first token word name)⟩ := by
  have hbracket : token ≠ [']'] := htoken.ne_singleton (by decide)
  have hblock : Layout 2 [[name, ['['], token, [']']]] [.block name [[token]]] :=
    .block hname (@Enclosed.closed [token] (by simpa using hbracket.symm)) .done
  have hlayout : Layout 1 (tokenLines (ruleAndBlock first token word name))
      [.rule 1 level [token] [word], .block name [[token]]] := by
    rw [tokenLines_ruleAndBlock hfirst htoken hword (Token.isWord_of_isTagName hname)]
    exact @Layout.rule 1 first level [token] [word] _ _ hlevel (by simpa using harrow.symm) hblock
  rw [← rulesetOf_ruleAndBlock htoken href hread heffects]
  exact (outcome_read_of_layout V _ _ hlayout).mpr
    ⟨wellFormed_ruleAndBlock htoken href hread heffects hne, rfl⟩

end OneCondition

/-- If a predicate is what a text is refused for, then it is a condition on the line of the fault
that is at fault, wherever it stands. -/
theorem refused_of_read {line : Nat} {fault : PredicateFault}
    (h : (V.read text).outcome = .error ⟨line, .predicate fault⟩) :
    ∃ before tokens after other, tokenLines text = before ++ tokens :: after ∧
      line = before.length + 1 ∧
      Use.condition other ∈ usesOn (insideAfter false before) tokens ∧ V.Refuses other fault := by
  rw [outcome_read] at h
  cases hread : (tokenLines text).foldlM (Draft.readTokens V (readCondition V)) {} with
  | ok d =>
    rw [hread] at h
    have hend : LoadFault.FoundAtEnd (.predicate fault) :=
      Draft.foundAtEnd_of_finish (Draft.dated_of_foldlM Draft.dated_start hread).1 h
    exact hend.elim
  | error halt =>
    rw [hread] at h
    have hfault : halt.fault = ⟨line, .predicate fault⟩ := Except.error.inj h
    obtain ⟨before, tokens, after, hsplit, hline, -, huntil⟩ := callsUntil_of_stop hread
    rw [hfault] at hline huntil
    generalize halt.calls = calls at huntil
    cases huntil with
    | head hhead => exact hhead.elim
    | behind hbehind => exact hbehind.elim
    | amid hhere htaken hfaulty =>
      have hmem : ∀ use rest more, usesOn (insideAfter false before) tokens =
          rest ++ use :: more → use ∈ usesOn (insideAfter false before) tokens :=
        fun use rest more heq => heq ▸ List.mem_append_right _ List.mem_cons_self
      cases hfaulty with
      | malformed hrefuses _ =>
        exact ⟨before, tokens, after, _, hsplit, hline, hmem _ _ _ hhere, hrefuses⟩
      | rejected hrefuses _ =>
        exact ⟨before, tokens, after, _, hsplit, hline, hmem _ _ _ hhere, hrefuses⟩

end Vocabulary

namespace Engine

open Comparison Evaluation Reading Vocabulary

variable (e : Engine C A M)

/-- A comparison that is written with the name of a number, an operator and a number literal, with
or without its closing parenthesis, is one token wherever no other word touches it, and with such
notes as lines leave it is read as the comparison of that number, by that operator, with the value
of the literal. As the one condition of a rule and of a block it makes up a text that is read. In
every text that is read it stands for this comparison in each rule and each group where it occurs,
and it is never what a text is refused for. In every context it comes to what the operator says of
the number at the position of the name, or of NaN if there is none, and the constant. -/
theorem written_comparison_reads_back {name literal : List Char} {op : Operator} {position : Nat}
    {constant : Float} (closed : Bool) (hname : Writable name op)
    (hposition : e.host.declared.names[position]? = some (String.ofList name))
    (hliteral : Decimal.read? literal = some constant) :
    let V := e.host.toVocabulary
    let token := written name op literal closed
    let c : Comparison := ⟨position, op, constant⟩
    Token.split token = [token] ∧
    (∀ front back : List Char, (∀ d ∈ front.getLast?, Token.isWordChar d = false) →
      (∀ d ∈ back.head?, Token.isWordChar d = false) →
      Token.split (front ++ token ++ back) = Token.split front ++ token :: Token.split back) ∧
    (∀ line (notes : Notes A), notes.Faithful V →
      upshot (readCondition V line token notes) = .ok (.compare c, notes.ledger)) ∧
    (∀ first level word effects name, Token.IsWord first → first.level? = some level →
      Token.IsWord word → V.effects (String.ofList word) = .ok effects → effects ≠ [] →
      Token.isTagName name →
      (V.read (ruleAndBlock first token word name)).outcome =
        .ok ⟨[⟨level, 1, [.compare c], effects⟩], [⟨String.ofList name, [[.compare c]]⟩],
          some (ruleAndBlock first token word name)⟩) ∧
    (∀ text r, (V.read text).outcome = .ok r →
      (∃ items, Layout 1 (tokenLines text) items) ∧
        ∀ items, Layout 1 (tokenLines text) items →
          Renders (fun other p => other = token → p = .compare c) items r) ∧
    (∀ text line fault, (V.read text).outcome = .error ⟨line, .predicate fault⟩ →
      ∃ before tokens after other, tokenLines text = before ++ tokens :: after ∧
        line = before.length + 1 ∧
        Use.condition other ∈ usesOn (insideAfter false before) tokens ∧
        V.Refuses other fault ∧ other ≠ token) ∧
    ∀ (r : Ruleset A M) (context : C) (tag : Nat → Test A) (progress : Progress A),
      (test ⟨r.tags, (e.host.holds · context), e.host.numbers context⟩ tag (.compare c)
        progress).1 =
        .ok (op.holds ((e.host.numbers context)[position]?.getD Decimal.nan) constant) := by
  intro V token c
  have hinterpret : ∀ tagPosition, V.interpret tagPosition token = .ok (.compare c) :=
    interpret_written hname hposition hliteral closed
  have hword : token.IsWord :=
    isWord_written hname (Decimal.literalChars_of_read? hliteral).2 closed
  have href : token.referred? = none := rfl
  have harrow : token ≠ Token.arrow := by simp [token, written, Token.arrow]
  refine ⟨hword.split, fun front back => hword.split_around, ?_, ?_, ?_, ?_, ?_⟩
  · intro line notes hnotes
    rw [upshot_readCondition hnotes, Ledger.cite_of_plain href, hinterpret]
    rfl
  · intro first level word effects name hfirst hlevel heffect heffects hne htag
    exact read_ruleAndBlock hword href hinterpret heffects hfirst hlevel harrow heffect hne htag
  · intro text r hread
    obtain ⟨items, hlayout, -⟩ := exists_items_of_read hread
    refine ⟨⟨items, hlayout⟩, fun items hlayout => ?_⟩
    obtain ⟨hwell, rfl⟩ := (outcome_read_of_layout V text r hlayout).mp hread
    refine hwell.renders fun item _ other _ p hp hother => ?_
    rw [hother, hinterpret] at hp
    exact (Except.ok.inj hp).symm
  · intro text line fault hread
    obtain ⟨before, tokens, after, other, hsplit, hline, huse, hrefuses⟩ := refused_of_read hread
    refine ⟨before, tokens, after, other, hsplit, hline, huse, hrefuses, ?_⟩
    rintro rfl
    cases (hrefuses fun _ => 0).symm.trans (hinterpret fun _ => 0)
  · exact fun r context tag progress => rfl

/-- A clock that has a second number, with a name full of signs, whose value is never there. -/
def meter : Engine String String String :=
  { host := { World.clock.host with declared := ⟨["hour", "%!pm)("], by decide⟩ } }

/-- The parenthesis is left open and the number is missing, so that only `!=` can hold. -/
theorem meter_reads_back :
    let V := meter.host.toVocabulary
    let token := "(%!pm)(!=-1.5E+1".toList
    let c : Comparison := ⟨1, .differs, -15⟩
    meter.host.declared.names[1]? = some "%!pm)(" ∧ Decimal.read? "-1.5E+1".toList = some (-15) ∧
      Writable "%!pm)(".toList .differs ∧ Token.split token = [token] ∧
      (∀ line notes, notes.Faithful V →
        upshot (readCondition V line token notes) = .ok (.compare c, notes.ledger)) ∧
      (V.read "2 (%!pm)(!=-1.5E+1 -> ring\nlate [ (%!pm)(!=-1.5E+1 ]\n").outcome =
        .ok ⟨[⟨2, 1, [.compare c], [⟨1, "ring"⟩]⟩], [⟨"late", [[.compare c]]⟩],
          some "2 (%!pm)(!=-1.5E+1 -> ring\nlate [ (%!pm)(!=-1.5E+1 ]\n"⟩ ∧
      ∀ (r : Ruleset String String) (context : String) (tag : Nat → Test String)
          (progress : Progress String),
        (test ⟨r.tags, (meter.host.holds · context), meter.host.numbers context⟩ tag (.compare c)
          progress).1 = .ok true := by
  intro V token c
  have hname : Writable "%!pm)(".toList .differs :=
    ⟨by decide, List.all_eq_true.mp (by rfl), by simp [finals], nofun⟩
  have hliteral : Decimal.read? "-1.5E+1".toList = some (-15) := by decide
  have hposition : meter.host.declared.names[1]? = some (String.ofList "%!pm)(".toList) := rfl
  obtain ⟨hsplit, -, hread, htexts, -, -, htest⟩ :=
    meter.written_comparison_reads_back false hname hposition hliteral
  have htext : ruleAndBlock "2".toList token "ring".toList "late".toList =
      "2 (%!pm)(!=-1.5E+1 -> ring\nlate [ (%!pm)(!=-1.5E+1 ]\n" := by decide
  have hloads := htexts "2".toList 2 "ring".toList [⟨1, "ring"⟩] "late".toList
    ⟨by decide, List.all_eq_true.mp (by rfl)⟩ (by decide) ⟨by decide, List.all_eq_true.mp (by rfl)⟩
    rfl (List.cons_ne_nil _ _) (by decide)
  have hmissing : Operator.differs.holds Decimal.nan (-15) = true := by decide
  exact ⟨hposition, hliteral, hname, hsplit, hread, htext ▸ hloads, fun r context tag progress =>
    (htest r context tag progress).trans (congrArg Except.ok hmissing)⟩

end Engine

end PriorityRules
