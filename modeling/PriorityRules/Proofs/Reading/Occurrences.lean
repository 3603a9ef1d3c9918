import PriorityRules.Proofs.Reading.Concatenation
import PriorityRules.Proofs.Reading.Uses

/-! # Words where they occur in a text

A word that occurs in a text is one token of its line, and putting another word in its place changes
that token and no other. If it stands as a condition, and the other word is read just as it is, then
the text is read just as it was.
-/

namespace PriorityRules

namespace Text

theorem consLine_eq {c : Char} (ls : List Line) :
    consLine c ls = (c :: ls.headD []) :: ls.tail := by
  cases ls <;> rfl

/-- What does not end a line stays on the line of what follows it. -/
theorem lines_append {line rest : List Char} (hline : line ≠ []) (hfeed : '\n' ∉ line)
    (hreturn : line.getLast? ≠ some '\r') :
    lines (line ++ rest) = (line ++ (lines rest).headD []) :: (lines rest).tail := by
  induction line with
  | nil => exact absurd rfl hline
  | cons c line ih =>
    obtain ⟨hc, hfeed⟩ := not_or.mp (mt List.mem_cons.mpr hfeed)
    cases line with
    | nil =>
      have hno : c ≠ '\r' := fun heq => hreturn (congrArg some heq)
      exact (lines_cons (Ne.symm hc) fun heq => absurd heq hno).trans (consLine_eq _)
    | cons d line =>
      have hd : d ≠ '\n' := fun heq => hfeed (heq ▸ List.mem_cons_self)
      have hhead : c = '\r' → (d :: line ++ rest).head? ≠ some '\n' :=
        fun _ heq => hd (Option.some.inj heq)
      rw [List.getLast?_cons_cons] at hreturn
      rw [List.cons_append, lines_cons (Ne.symm hc) hhead, ih (List.cons_ne_nil _ _) hfeed hreturn]
      rfl

/-- The first line, unless it is empty, begins as the text does. -/
theorem head?_headD_lines {c : Char} {rest : List Char}
    (h : c ∈ ((lines rest).headD []).head?) : c ∈ rest.head? := by
  unfold lines at h
  split at h
  · exact h
  · exact nomatch h
  · exact nomatch h
  · rw [consLine_eq] at h
    exact h

end Text

namespace Token

variable {c : Char} {word : Token} {tokens more : List Token} {line front back : List Char}

theorem closeWord_append : closeWord word (tokens ++ more) = closeWord word tokens ++ more := by
  unfold closeWord
  split <;> rfl

theorem consChar_append :
    consChar c (word, tokens ++ more) =
      ((consChar c (word, tokens)).1, (consChar c (word, tokens)).2 ++ more) := by
  unfold consChar
  split
  · rfl
  · split
    · simp [closeWord_append]
    · simp [closeWord_append]

/-- Tokens that are complete already are left alone. -/
theorem foldr_consChar_append :
    line.foldr consChar (word, tokens ++ more) =
      ((line.foldr consChar (word, tokens)).1, (line.foldr consChar (word, tokens)).2 ++ more) := by
  induction line with
  | nil => rfl
  | cons c line ih => rw [List.foldr_cons, List.foldr_cons, ih, consChar_append]

/-- A character outside of words completes the word behind it. -/
theorem consChar_boundary (h : isWordChar c = false) :
    consChar c (word, tokens) = ([], (consChar c ([], [])).2 ++ closeWord word tokens) := by
  simp only [consChar, h, Bool.false_eq_true, if_false]
  split <;> rfl

theorem fst_foldr_of_boundary (h : ∀ c ∈ line.head?, isWordChar c = false) :
    (line.foldr consChar ([], [])).1 = [] := by
  cases line with
  | nil => rfl
  | cons c line => exact congrArg Prod.fst (consChar_boundary (h c rfl))

theorem split_eq :
    split line =
      closeWord (line.foldr consChar ([], [])).1 (line.foldr consChar ([], [])).2 := rfl

theorem closeWord_foldr_append :
    closeWord (line.foldr consChar ([], tokens ++ more)).1
        (line.foldr consChar ([], tokens ++ more)).2 =
      closeWord (line.foldr consChar ([], tokens)).1 (line.foldr consChar ([], tokens)).2 ++
        more := by
  rw [foldr_consChar_append, closeWord_append]

/-- A line may be split where a word does not go on. -/
theorem split_append (h : (∀ c ∈ front.getLast?, isWordChar c = false) ∨
      ∀ c ∈ back.head?, isWordChar c = false) :
    split (front ++ back) = split front ++ split back := by
  rcases h with hfront | hback
  · rcases List.eq_nil_or_concat front with rfl | ⟨init, c, rfl⟩
    · rfl
    · -- the last character in front completes the word behind it
      rw [List.concat_eq_append] at hfront ⊢
      have hc : isWordChar c = false := hfront c (by simp)
      have hsplit : split (init ++ [c]) =
          closeWord (init.foldr consChar ([], (consChar c ([], [])).2)).1
            (init.foldr consChar ([], (consChar c ([], [])).2)).2 := by
        rw [split_eq, List.foldr_append, List.foldr_cons, List.foldr_nil, consChar_boundary hc]
      rw [hsplit, List.append_assoc, split_eq, List.foldr_append, List.singleton_append,
        List.foldr_cons, consChar_boundary hc, closeWord_foldr_append, ← split_eq]
  · -- no word is under way where the part behind begins
    have hscan : back.foldr consChar ([], []) = ([], (back.foldr consChar ([], [])).2) :=
      Prod.ext (fst_foldr_of_boundary hback) rfl
    have hsplit : split back = (back.foldr consChar ([], [])).2 := by
      rw [split_eq, hscan]
      rfl
    rw [split_eq, List.foldr_append, hscan, hsplit]
    exact @closeWord_foldr_append [] (back.foldr consChar ([], [])).2 front

structure IsWord (word : Token) : Prop where
  ne_nil : word ≠ []
  chars : ∀ c ∈ word, isWordChar c

theorem foldr_consChar_word (h : ∀ c ∈ word, isWordChar c) :
    word.foldr consChar ([], []) = (word, []) := by
  induction word with
  | nil => rfl
  | cons c word ih =>
    obtain ⟨hc, hword⟩ := List.forall_mem_cons.mp h
    rw [List.foldr_cons, ih hword, consChar, if_pos hc]

theorem IsWord.split (h : word.IsWord) : Token.split word = [word] := by
  rw [split_eq, foldr_consChar_word h.chars]
  exact if_neg (by simpa using h.ne_nil)

/-- A word is one token wherever no other word touches it. -/
theorem IsWord.split_around (h : word.IsWord) (hfront : ∀ c ∈ front.getLast?, isWordChar c = false)
    (hback : ∀ c ∈ back.head?, isWordChar c = false) :
    Token.split (front ++ word ++ back) = Token.split front ++ word :: Token.split back := by
  rw [split_append (.inr hback), split_append (.inl hfront), h.split, List.append_assoc,
    List.singleton_append]

theorem IsWord.ne_singleton (h : word.IsWord) (hc : isWordChar c = false) : word ≠ [c] := by
  rintro rfl
  exact Bool.false_ne_true (hc.symm.trans (h.chars c (List.mem_singleton_self c)))

theorem IsWord.getLast?_ne (h : word.IsWord) (hc : isWordChar c = false) :
    word.getLast? ≠ some c := fun hlast =>
  Bool.false_ne_true (hc.symm.trans (h.chars c (List.mem_of_getLast? hlast)))

theorem IsWord.negation (h : word.IsWord) : IsWord ('!' :: word) :=
  ⟨List.cons_ne_nil _ _, List.forall_mem_cons.mpr ⟨by decide, h.chars⟩⟩

end Token

namespace Reading

open Token

/-- A word in a text: the lines above, what stands before the word on its line, and all the rest of
the text behind it. -/
structure Occurrence where
  above : List Char
  opening : List Char
  word : Token
  rest : List Char
  above_ends : above = [] ∨ above.getLast? = some '\n'
  unbroken : '\n' ∉ opening
  opening_ends : ∀ c ∈ opening.getLast?, isWordChar c = false
  isWord : word.IsWord
  rest_starts : ∀ c ∈ rest.head?, isWordChar c = false

namespace Occurrence

variable (o : Occurrence)

def put (word : Token) : String := String.ofList (o.above ++ (o.opening ++ word ++ o.rest))

def text : String := o.put o.word

def linesAbove : List (List Token) := Vocabulary.tokenLines (String.ofList o.above)

/-- The word is one token of its line, whichever word it is. -/
theorem exists_tokenLines :
    ∃ after below, ∀ word, IsWord word →
      Vocabulary.tokenLines (o.put word) =
        o.linesAbove ++ (split o.opening ++ word :: after) :: below := by
  refine ⟨split ((Text.lines o.rest).headD []), (Text.lines o.rest).tail.map split, ?_⟩
  intro word hword
  have habove : String.ofList o.above = "" ∨
      (String.ofList o.above).toList.getLast? = some '\n' := by
    rw [String.toList_ofList]
    exact o.above_ends.imp_left fun h => congrArg String.ofList h
  have hline : Text.lines (o.opening ++ word ++ o.rest) =
      (o.opening ++ word ++ (Text.lines o.rest).headD []) :: (Text.lines o.rest).tail := by
    apply Text.lines_append
    · exact List.append_ne_nil_of_right_ne_nil _ hword.ne_nil
    · have hfeed : '\n' ∉ word := fun hmem => absurd (hword.chars _ hmem) (by decide)
      simp [o.unbroken, hfeed]
    · rw [List.getLast?_append_of_ne_nil _ hword.ne_nil]
      exact hword.getLast?_ne (by decide)
  have hsplit : split (o.opening ++ word ++ (Text.lines o.rest).headD []) =
      split o.opening ++ word :: split ((Text.lines o.rest).headD []) :=
    hword.split_around o.opening_ends fun c hc => o.rest_starts c (Text.head?_headD_lines hc)
  rw [put, String.ofList_append, Vocabulary.tokenLines_append habove]
  congr 1
  rw [Vocabulary.tokenLines, String.toList_ofList, hline, List.map_cons, hsplit]

end Occurrence

/-- Behind these tokens of its line, inside of a block or outside, the word stands as a condition:
in a rule before the arrow, behind the bracket that opens a block, or in a block, unless in a
comment. -/
inductive StandsAsCondition (word : Token) : Bool → List Token → Prop where
  | inRule {first : Token} {level : Int} {conditions : List Token}
      (hlevel : first.level? = some level) (hconditions : arrow ∉ conditions)
      (hword : word ≠ arrow) : StandsAsCondition word false (first :: conditions)
  | behindBracket {name : Token} {tokens : List Token} (hname : name.isTagName)
      (hopen : [']'] ∉ tokens) : StandsAsCondition word false (name :: ['['] :: tokens)
  | inBlock {tokens : List Token}
      (hcomment : ∀ first ∈ (tokens ++ [word]).head?, first.isComment = false)
      (hopen : [']'] ∉ tokens) : StandsAsCondition word true tokens

def Occurrence.StandsAsCondition (o : Occurrence) : Prop :=
  Reading.StandsAsCondition o.word (insideAfter false o.linesAbove) (split o.opening)

section Alike

variable {A M : Type} {V : Vocabulary A M} {condition : ConditionReader A} {word other : Token}
variable {before after : List Token}

theorem readEach_replaced {E α τ : Type} {read : τ → Notes A → Except (Halt E) (α × Notes A)}
    {piece other : τ} (h : read other = read piece) (before after : List τ) (n : Notes A) :
    readEach read (before ++ other :: after) n = readEach read (before ++ piece :: after) n := by
  induction before generalizing n with
  | nil => rw [List.nil_append, List.nil_append, readEach, readEach, h]
  | cons first before ih => simp only [List.cons_append, readEach, ih]

theorem readBlock_condition {line : Nat} {block : Block A} {n : Notes A} (hword : word.IsWord) :
    readBlock condition line (word :: after) block n =
      (condition line word n).mapError (Halt.map .predicate) >>= fun (p, notes) =>
        readBlock condition line after (block.add p) notes := by
  rw [readBlock.eq_def]
  dsimp only
  rw [if_neg (hword.ne_singleton (by decide)), if_neg (hword.ne_singleton (by decide))]

variable (hread : ∀ line, condition line other = condition line word)
include hread

theorem readRule_replaced {level : Int} {line : Nat} {n : Notes A} (hbefore : arrow ∉ before)
    (hword : word ≠ arrow) (hother : other ≠ arrow) :
    readRule V condition level line (before ++ other :: after) n =
      readRule V condition level line (before ++ word :: after) n := by
  have hpasses : ∀ token ∈ before, (decide (token ≠ arrow)) = true :=
    fun token htoken => decide_eq_true fun heq => hbefore (heq ▸ htoken)
  have htake : ∀ token : Token, token ≠ arrow →
      (before ++ token :: after).takeWhile (· ≠ arrow) =
        before ++ token :: after.takeWhile (· ≠ arrow) := by
    intro token htoken
    rw [List.takeWhile_append_of_pos hpasses, List.takeWhile_cons_of_pos (by simpa using htoken)]
  have hdrop : ∀ token : Token, token ≠ arrow →
      (before ++ token :: after).dropWhile (· ≠ arrow) = after.dropWhile (· ≠ arrow) := by
    intro token htoken
    rw [List.dropWhile_append_of_pos hpasses, List.dropWhile_cons_of_pos (by simpa using htoken)]
  rw [readRule, readRule, htake other hother, htake word hword, hdrop other hother,
    hdrop word hword, readEach_replaced (hread line)]

theorem readBlock_replaced {line : Nat} {block : Block A} {n : Notes A} (hopen : [']'] ∉ before)
    (hword : word.IsWord) (hother : other.IsWord) :
    readBlock condition line (before ++ other :: after) block n =
      readBlock condition line (before ++ word :: after) block n := by
  rw [readBlock_append hopen, readBlock_append hopen]
  congr 1
  funext ⟨block, n⟩
  dsimp only
  rw [readBlock_condition hother, readBlock_condition hword, hread]

theorem readTokens_replaced {d : Draft A M} (hword : word.IsWord)
    (h : StandsAsCondition word d.block.isSome before) (hother : other.IsWord)
    (harrow : other ≠ arrow) (hcomment : other.isComment = false) :
    d.readTokens V condition (before ++ other :: after) =
      d.readTokens V condition (before ++ word :: after) := by
  generalize hinside : d.block.isSome = inside at h
  cases h with
  | inRule hlevel hconditions hword =>
    have hblock : d.block = none := by simpa using hinside
    simp only [Draft.readTokens, hblock, Draft.readOutside, List.cons_append,
      Line.ofTokens_of_level hlevel, readRule_replaced hread hconditions hword harrow]
  | behindBracket hname hopen =>
    have hblock : d.block = none := by simpa using hinside
    simp only [Draft.readTokens, hblock, Draft.readOutside, List.cons_append,
      Line.ofTokens_of_isTagName hname, openBlock, readBlock_replaced hread hopen hword hother]
  | inBlock hfirst hopen =>
    obtain ⟨block, hblock⟩ := Option.isSome_iff_exists.mp hinside
    -- neither word makes a comment of its line
    have hfirst' : ∀ first ∈ (before ++ [other]).head?, first.isComment = false := by
      cases before with
      | nil => exact fun first heq => Option.some.inj heq ▸ hcomment
      | cons first before => exact hfirst
    simp only [Draft.readTokens, hblock, Draft.readInside, continuation_of_word hfirst',
      continuation_of_word hfirst, readBlock_replaced hread hopen hword hother]

omit hread in
/-- A word that stands as a condition may be replaced by a word that is read alike. -/
theorem Occurrence.foldlM_put {o : Occurrence} (h : o.StandsAsCondition)
    (hread : ∀ line, condition line other = condition line o.word) (hother : other.IsWord)
    (harrow : other ≠ arrow) (hcomment : other.isComment = false) :
    (Vocabulary.tokenLines (o.put other)).foldlM (Draft.readTokens V condition) {} =
      (Vocabulary.tokenLines o.text).foldlM (Draft.readTokens V condition) {} := by
  obtain ⟨after, below, hlines⟩ := o.exists_tokenLines
  rw [text, hlines other hother, hlines o.word o.isWord, List.foldlM_append, List.foldlM_append]
  cases habove : o.linesAbove.foldlM (Draft.readTokens V condition) {} with
  | error halt => rfl
  | ok d =>
    -- the lines above, once they have passed, have left a block open as their tokens say
    have hstands : Reading.StandsAsCondition o.word d.block.isSome (split o.opening) := by
      rw [opens_of_foldlM habove]
      exact h
    change List.foldlM _ d _ = List.foldlM _ d _
    rw [List.foldlM_cons, List.foldlM_cons,
      readTokens_replaced hread o.isWord hstands hother harrow hcomment]

end Alike

end Reading

end PriorityRules
