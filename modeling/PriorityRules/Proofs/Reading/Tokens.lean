import PriorityRules.Proofs.Reading.Occurrences

/-! # Lines as tokens

The tokens of a line are those of the line with a blank on both sides of every delimiter, split at
the blanks. A scanner that skips blanks and takes a delimiter or a word, as often as it can, finds
them too, and it takes in every line to its end. Each token is a delimiter or a maximal run of the
characters of words, and together the tokens are the line without its blanks.
-/

namespace PriorityRules

abbrev Scanner (α : Type) := List Char → Option (α × List Char)

namespace Scanner

variable {α β : Type}

/-- The longest run of characters of a class, which may be empty. -/
def run (accepts : Char → Bool) : Scanner (List Char) := fun text =>
  some (text.takeWhile accepts, text.dropWhile accepts)

def someRun (accepts : Char → Bool) : Scanner (List Char) := fun text =>
  if (text.takeWhile accepts).isEmpty then none else run accepts text

def one (accepts : Char → Bool) : Scanner (List Char)
  | [] => none
  | c :: rest => if accepts c then some ([c], rest) else none

def behind (first : Scanner α) (second : Scanner β) : Scanner β := fun text =>
  (first text).bind fun (_, rest) => second rest

def before (first : Scanner α) (second : Scanner β) : Scanner α := fun text =>
  (first text).bind fun (value, rest) => (second rest).map fun (_, rest) => (value, rest)

def either (first second : Scanner α) : Scanner α := fun text => (first text).or (second text)

/-- As many values as stand in a row. A value that takes up no character would come again without
end, so the scanner fails there. -/
def many (scan : Scanner α) (text : List Char) : Option (List α × List Char) :=
  match scan text with
  | none => some ([], text)
  | some (value, rest) =>
    if rest.length < text.length then
      (many scan rest).map fun (values, rest) => (value :: values, rest)
    else none
termination_by text.length

def whole (scan : Scanner α) (text : List Char) : Option α :=
  match scan text with
  | some (value, []) => some value
  | _ => none

variable {scan : Scanner α} {accepts : Char → Bool} {text rest : List Char} {value : α}

theorem many_of_none (h : scan text = none) : many scan text = some ([], text) := by
  rw [many, h]

theorem many_of_some (h : scan text = some (value, rest)) (hshort : rest.length < text.length) :
    many scan text = (many scan rest).map fun (values, rest) => (value :: values, rest) := by
  rw [many, h]
  dsimp only
  rw [if_pos hshort]

end Scanner

namespace Token

open Text (isBlank)

def blanks : Scanner (List Char) := Scanner.run isBlank

def delimiter : Scanner Token := Scanner.one isDelimiter

def word : Scanner Token := Scanner.someRun isWordChar

def following : Scanner Token := Scanner.behind blanks (Scanner.either delimiter word)

def scanLine : Scanner (List Token) := Scanner.before (Scanner.many following) blanks

def IsDelimiter (token : Token) : Prop := ∃ c, isDelimiter c ∧ token = [c]

variable {c : Char} {token : Token} {tokens before after : List Token} {line rest : List Char}

theorem isWordChar_eq_false_iff : isWordChar c = false ↔ isBlank c ∨ isDelimiter c := by
  rw [isWordChar]
  cases isBlank c <;> cases isDelimiter c <;> decide

theorem not_isBlank_of_isDelimiter (h : isDelimiter c) : isBlank c = false := by
  simp only [isDelimiter, Bool.or_eq_true, decide_eq_true_eq] at h
  rcases h with (rfl | rfl) | rfl <;> decide

/-- A token that is complete in front of the rest of the line: what follows a word is outside of
words. -/
def CompleteBefore (token : Token) (rest : List Char) : Prop :=
  token.IsDelimiter ∨ token.IsWord ∧ ∀ c ∈ rest.head?, isWordChar c = false

/-- The line is made up of the tokens, with blanks between them. -/
inductive MadeOf : List Char → List Token → Prop where
  | blank {line : List Char} (hline : ∀ c ∈ line, isBlank c) : MadeOf line []
  | token {gap rest : List Char} {token : Token} {tokens : List Token}
      (hgap : ∀ c ∈ gap, isBlank c) (htoken : token.CompleteBefore rest)
      (tail : MadeOf rest tokens) : MadeOf (gap ++ token ++ rest) (token :: tokens)

theorem split_of_isBlank (h : ∀ c ∈ line, isBlank c) : split line = [] := by
  induction line with
  | nil => rfl
  | cons c line ih =>
    obtain ⟨hc, hline⟩ := List.forall_mem_cons.mp h
    have hword : isWordChar c = false := isWordChar_eq_false_iff.mpr (.inl hc)
    have hdelimiter : isDelimiter c = false := by
      rw [Bool.eq_false_iff]
      intro hdelimiter
      exact Bool.false_ne_true ((not_isBlank_of_isDelimiter hdelimiter).symm.trans hc)
    have hsingle : split [c] = [] := by simp [split, consChar, hword, hdelimiter, closeWord]
    rw [← List.singleton_append, split_append (.inl (by simpa using hword)), hsingle, ih hline]
    rfl

theorem IsDelimiter.split (h : token.IsDelimiter) : Token.split token = [token] := by
  obtain ⟨c, hc, rfl⟩ := h
  have hword : isWordChar c = false := isWordChar_eq_false_iff.mpr (.inr hc)
  simp [Token.split, consChar, hword, hc, closeWord]

theorem CompleteBefore.split (h : token.CompleteBefore rest) : Token.split token = [token] :=
  h.elim IsDelimiter.split fun h => h.1.split

theorem CompleteBefore.ne_nil (h : token.CompleteBefore rest) : token ≠ [] := by
  rcases h with ⟨c, -, rfl⟩ | ⟨hword, -⟩
  · exact List.cons_ne_nil _ _
  · exact hword.ne_nil

theorem CompleteBefore.split_append (h : token.CompleteBefore rest) :
    Token.split (token ++ rest) = token :: Token.split rest := by
  rw [Token.split_append, h.split, List.singleton_append]
  rcases h with ⟨c, hc, rfl⟩ | ⟨-, hrest⟩
  · left
    simpa using isWordChar_eq_false_iff.mpr (.inr hc)
  · exact .inr hrest

theorem boundary_of_isBlank (h : ∀ c ∈ line, isBlank c) :
    ∀ c ∈ line.getLast?, isWordChar c = false := fun c hc =>
  isWordChar_eq_false_iff.mpr (.inl (h c (List.mem_of_getLast? hc)))

theorem MadeOf.split (h : MadeOf line tokens) : Token.split line = tokens := by
  induction h with
  | blank hline => exact split_of_isBlank hline
  | token hgap htoken tail ih =>
    rw [List.append_assoc, Token.split_append (.inl (boundary_of_isBlank hgap)),
      split_of_isBlank hgap, htoken.split_append, ih, List.nil_append]

/-- In front of the rest of a line, the scanner finds a complete token unless all is blank. -/
theorem following_cases (line : List Char) :
    (following line = none ∧ ∀ c ∈ line, isBlank c) ∨
      ∃ gap token rest, following line = some (token, rest) ∧ line = gap ++ token ++ rest ∧
        (∀ c ∈ gap, isBlank c) ∧ token.CompleteBefore rest := by
  have hgap : ∀ c ∈ line.takeWhile isBlank, isBlank c := fun c hc => List.mem_takeWhile_imp hc
  have hfollowing : following line =
      (delimiter (line.dropWhile isBlank)).or (word (line.dropWhile isBlank)) := rfl
  have hline : line = line.takeWhile isBlank ++ line.dropWhile isBlank :=
    List.takeWhile_append_dropWhile.symm
  cases hrest : line.dropWhile isBlank with
  | nil =>
    left
    rw [hrest] at hfollowing
    rw [hrest, List.append_nil] at hline
    exact ⟨hfollowing, hline ▸ hgap⟩
  | cons c rest =>
    right
    rw [hrest] at hfollowing hline
    by_cases hdelimiter : isDelimiter c
    · refine ⟨line.takeWhile isBlank, [c], rest, ?_, ?_, hgap, .inl ⟨c, hdelimiter, rfl⟩⟩
      · simp [hfollowing, delimiter, Scanner.one, hdelimiter]
      · simpa using hline
    · -- what begins neither with a blank nor with a delimiter begins with a word
      have hblank : isBlank c = false := by
        have hhead := List.head?_dropWhile_not isBlank line
        simpa [hrest] using hhead
      have hword : isWordChar c = true := by simp [isWordChar, hblank, hdelimiter]
      refine ⟨line.takeWhile isBlank, (c :: rest).takeWhile isWordChar,
        (c :: rest).dropWhile isWordChar, ?_, ?_, hgap, .inr ⟨⟨?_, ?_⟩, ?_⟩⟩
      · simp [hfollowing, delimiter, Scanner.one, hdelimiter, word, Scanner.someRun, Scanner.run,
          hword]
      · rw [List.append_assoc, List.takeWhile_append_dropWhile]
        exact hline
      · simp [hword]
      · exact fun d hd => List.mem_takeWhile_imp hd
      · intro d hd
        have hhead := List.head?_dropWhile_not isWordChar (c :: rest)
        rw [Option.mem_def.mp hd] at hhead
        exact hhead

/-- However long a line is, the scanner finds all the tokens that it is made of. -/
theorem many_following (line : List Char) :
    ∃ tokens rest, Scanner.many following line = some (tokens, rest) ∧
      (∀ c ∈ rest, isBlank c) ∧ MadeOf line tokens := by
  induction hlength : line.length using Nat.strongRecOn generalizing line with
  | ind n ih =>
    rcases following_cases line with ⟨hnone, hline⟩ | ⟨gap, token, rest, hsome, rfl, hgap, htoken⟩
    · exact ⟨[], line, Scanner.many_of_none hnone, hline, .blank hline⟩
    · have hshort : rest.length < (gap ++ token ++ rest).length := by
        have := List.length_pos_iff.mpr htoken.ne_nil
        simp only [List.length_append]
        omega
      obtain ⟨tokens, trail, hmany, htrail, hmade⟩ := ih _ (hlength ▸ hshort) rest rfl
      refine ⟨token :: tokens, trail, ?_, htrail, .token hgap htoken hmade⟩
      rw [Scanner.many_of_some hsome hshort, hmany]
      rfl

theorem madeOf_split (line : List Char) : MadeOf line (split line) := by
  obtain ⟨tokens, -, -, -, hmade⟩ := many_following line
  exact hmade.split ▸ hmade

/-- The scanner takes in every line to its end. -/
theorem whole_scanLine (line : List Char) :
    Scanner.whole scanLine line = some (split line) := by
  obtain ⟨tokens, rest, hmany, hrest, hmade⟩ := many_following line
  have hdrop : rest.dropWhile isBlank = [] := List.dropWhile_eq_nil_iff.mpr hrest
  rw [Scanner.whole, scanLine, Scanner.before, hmany]
  simp [blanks, Scanner.run, hdrop, hmade.split]

/-- What stands in front of a token and what stands behind it are split into the tokens before and
after. A word goes on in neither direction. -/
structure StandsBetween (line : List Char) (before : List Token) (token : Token)
    (after : List Token) (front back : List Char) : Prop where
  line_eq : line = front ++ token ++ back
  split_front : split front = before
  split_back : split back = after
  maximal : token.IsDelimiter ∨ token.IsWord ∧ (∀ c ∈ front.getLast?, isWordChar c = false) ∧
    ∀ c ∈ back.head?, isWordChar c = false

theorem MadeOf.exists_standsBetween (h : MadeOf line (before ++ token :: after)) :
    ∃ front back, StandsBetween line before token after front back := by
  induction before generalizing line with
  | nil =>
    cases h with
    | @token gap rest _ _ hgap htoken tail =>
      refine ⟨gap, rest, rfl, split_of_isBlank hgap, tail.split, htoken.imp_right ?_⟩
      exact fun ⟨hword, hrest⟩ => ⟨hword, boundary_of_isBlank hgap, hrest⟩
  | cons first before ih =>
    cases h with
    | @token gap rest _ _ hgap hfirst tail =>
      obtain ⟨front, back, hrest, hfront, hback, hmaximal⟩ := ih tail
      have hcomplete : first.CompleteBefore front := by
        refine hfirst.imp_right fun ⟨hword, hhead⟩ => ⟨hword, ?_⟩
        cases front with
        | nil => simp
        | cons c front =>
          rw [hrest] at hhead
          exact hhead
      refine ⟨gap ++ first ++ front, back, ?_, ?_, hback, hmaximal.imp_right ?_⟩
      · simp [hrest]
      · rw [List.append_assoc, Token.split_append (.inl (boundary_of_isBlank hgap)),
          split_of_isBlank hgap, hcomplete.split_append, hfront, List.nil_append]
      · rintro ⟨hword, hlast, hhead⟩
        refine ⟨hword, ?_, hhead⟩
        cases front with
        | cons c front => rwa [List.getLast?_append_of_ne_nil _ (List.cons_ne_nil _ _)]
        | nil =>
          -- a word right behind another token shows that the other one is a delimiter
          rw [List.append_nil, List.getLast?_append_of_ne_nil _ hfirst.ne_nil]
          rcases hfirst with ⟨c, hc, rfl⟩ | ⟨-, hbehind⟩
          · simpa using isWordChar_eq_false_iff.mpr (.inr hc)
          · obtain ⟨c, word, rfl⟩ := List.exists_cons_of_ne_nil hword.ne_nil
            have hc := hbehind c (by simp [hrest])
            exact absurd (hword.chars c List.mem_cons_self) (by simp [hc])

/-- The line with a blank on both sides of every delimiter. -/
def spaced (line : List Char) : List Char :=
  line.flatMap fun c => if isDelimiter c then [' ', c, ' '] else [c]

def words (line : List Char) : List Token := (line.splitOnP isBlank).filter (· ≠ [])

theorem filter_eq_closeWord :
    (token :: tokens).filter (· ≠ []) = closeWord token (tokens.filter (· ≠ [])) := by
  cases token <;> simp [closeWord]

/-- Between the blanks of the spaced line stand the word under way and the tokens behind it. -/
theorem splitOnP_spaced (line : List Char) :
    ∃ more, (spaced line).splitOnP isBlank = (line.foldr consChar ([], [])).1 :: more ∧
      more.filter (· ≠ []) = (line.foldr consChar ([], [])).2 := by
  induction line with
  | nil => exact ⟨[], rfl, rfl⟩
  | cons c line ih =>
    obtain ⟨more, hsplit, hmore⟩ := ih
    rw [List.foldr_cons, spaced, List.flatMap_cons, ← spaced]
    by_cases hdelimiter : isDelimiter c
    · have hword : isWordChar c = false := isWordChar_eq_false_iff.mpr (.inr hdelimiter)
      have hblank := not_isBlank_of_isDelimiter hdelimiter
      have hspace : isBlank ' ' = true := by decide
      refine ⟨[c] :: (line.foldr consChar ([], [])).1 :: more, ?_, ?_⟩
      · simp [hdelimiter, List.splitOnP_cons_eq_if_modifyHead, hspace, hblank, hsplit, consChar,
          hword]
      · rw [List.filter_cons_of_pos (by simp), filter_eq_closeWord, hmore]
        simp [consChar, hword, hdelimiter]
    · have hspaced : (if isDelimiter c then [' ', c, ' '] else [c]) ++ spaced line =
          c :: spaced line := by simp [hdelimiter]
      rw [hspaced, List.splitOnP_cons_eq_if_modifyHead, hsplit]
      by_cases hblank : isBlank c
      · have hword : isWordChar c = false := isWordChar_eq_false_iff.mpr (.inl hblank)
        refine ⟨(line.foldr consChar ([], [])).1 :: more, ?_, ?_⟩
        · simp [hblank, consChar, hword, hdelimiter]
        · rw [filter_eq_closeWord, hmore]
          simp [consChar, hword, hdelimiter]
      · have hword : isWordChar c = true := by simp [isWordChar, hblank, hdelimiter]
        refine ⟨more, by simp [hblank, consChar, hword], ?_⟩
        rw [hmore]
        simp [consChar, hword]

theorem split_eq_words (line : List Char) : split line = words (spaced line) := by
  obtain ⟨more, hsplit, hmore⟩ := splitOnP_spaced line
  rw [words, hsplit, filter_eq_closeWord, hmore, split_eq]

theorem CompleteBefore.not_isBlank (h : token.CompleteBefore rest) :
    ∀ c ∈ token, isBlank c = false := by
  intro c hc
  rcases h with ⟨d, hd, rfl⟩ | ⟨hword, -⟩
  · exact List.mem_singleton.mp hc ▸ not_isBlank_of_isDelimiter hd
  · have hchar := hword.chars c hc
    simp only [isWordChar, Bool.and_eq_true, Bool.not_eq_true'] at hchar
    exact hchar.1

/-- Nothing but blanks is lost. -/
theorem MadeOf.flatten (h : MadeOf line tokens) : tokens.flatten = line.filter (!isBlank ·) := by
  induction h with
  | blank hline => simpa using hline
  | @token gap rest token tokens hgap htoken tail ih =>
    have hnone : gap.filter (!isBlank ·) = [] := by simpa using hgap
    have hall : token.filter (!isBlank ·) = token := by simpa using htoken.not_isBlank
    rw [List.flatten_cons, ih, List.filter_append, List.filter_append, hnone, hall,
      List.nil_append]

theorem MadeOf.split_token (h : MadeOf line tokens) :
    ∀ token ∈ tokens, Token.split token = [token] := by
  induction h with
  | blank hline => exact List.forall_mem_nil _
  | token hgap htoken tail ih => exact List.forall_mem_cons.mpr ⟨htoken.split, ih⟩

theorem split_intercalate (h : ∀ token ∈ tokens, split token = [token]) :
    split (List.intercalate [' '] tokens) = tokens := by
  have hspace : isWordChar ' ' = false := by decide
  induction tokens with
  | nil => rfl
  | cons token tokens ih =>
    obtain ⟨htoken, htokens⟩ := List.forall_mem_cons.mp h
    cases tokens with
    | nil => rw [List.intercalate_singleton, htoken]
    | cons next tokens =>
      rw [List.intercalate_cons_cons, split_append (.inl (by simpa using hspace)),
        split_append (.inr (by simpa using hspace)), htoken, ih htokens]
      rfl

/-- The tokens of a line are those that the scanner finds, which never fails and takes in the whole
line, and those of the line with blanks around its delimiters, split at the blanks. No token is
empty. Each is a delimiter or a maximal run of characters that are neither blanks nor delimiters,
and together they are the line without its blanks. Joined by single blanks, they are split again as
they are. -/
theorem split_separates_delimiters (line : List Char) :
    Scanner.whole scanLine line = some (split line) ∧
      split line = words (spaced line) ∧
      (∀ token ∈ split line, token ≠ []) ∧
      (∀ before token after, split line = before ++ token :: after →
        ∃ front back, StandsBetween line before token after front back) ∧
      (split line).flatten = line.filter (!isBlank ·) ∧
      split (List.intercalate [' '] (split line)) = split line := by
  have hmade := madeOf_split line
  refine ⟨whole_scanLine line, split_eq_words line, fun token htoken => ?_,
    fun before token after hsplit => ?_, hmade.flatten, split_intercalate hmade.split_token⟩
  · rintro rfl
    exact absurd (hmade.split_token [] htoken) (by decide)
  · rw [hsplit] at hmade
    exact hmade.exists_standsBetween

/-- Delimiters next to each other, a blank outside of ASCII, and blanks at the end. -/
theorem split_busy_line :
    let line := " night[,%day\u2003] \r".toList
    let tokens := ["night", "[", ",", "%day", "]"].map String.toList
    split line = tokens ∧ Scanner.whole scanLine line = some tokens ∧
      split "night [ , %day ]".toList = tokens ∧
      ∃ front back, StandsBetween line (tokens.take 3) "%day".toList [[']']] front back := by
  intro line tokens
  have hsplit : split line = tokens := by decide
  obtain ⟨hscan, -, -, hplaces, -, hjoined⟩ := split_separates_delimiters line
  refine ⟨hsplit, hscan.trans (congrArg some hsplit), ?_, ?_⟩
  · rw [hsplit] at hjoined
    exact hjoined
  · exact hplaces _ _ _ hsplit

end Token

end PriorityRules
