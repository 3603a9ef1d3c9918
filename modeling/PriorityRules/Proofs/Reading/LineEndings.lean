import PriorityRules.Proofs.Reading.Calls

/-! # Line endings

A carriage return in front of a line feed is no part of a token, and neither is a line feed at the
end of the text. Texts that differ in these only have the same tokens on the same lines, and so they
are read alike, with the same calls; but each remains the source of its own ruleset.
-/

namespace PriorityRules

variable {A M : Type}

namespace Text

/-- The text with a carriage return in front of every line feed. -/
def withReturns (text : List Char) : List Char :=
  text.flatMap fun c => if c = '\n' then ['\r', '\n'] else [c]

/-- The text with a line feed at its end, unless it is empty or has one there. -/
def terminated (text : List Char) : List Char :=
  if text = [] ∨ text.getLast? = some '\n' then text else text ++ ['\n']

example : withReturns "a\r\nb".toList = "a\r\r\nb".toList := by decide

variable {line last : Line} {ended : List Line}

/-- A text consists of lines that end in line feeds and of what follows them. -/
theorem exists_ended_and_last (text : List Char) :
    ∃ (ended : List Line) (last : Line), (∀ line ∈ ended, '\n' ∉ line) ∧ '\n' ∉ last ∧
      text = ended.flatMap (· ++ ['\n']) ++ last := by
  induction text with
  | nil => exact ⟨[], [], List.forall_mem_nil _, List.not_mem_nil, rfl⟩
  | cons c text ih =>
    obtain ⟨ended, last, hended, hlast, rfl⟩ := ih
    by_cases hc : c = '\n'
    · subst hc
      exact ⟨[] :: ended, last, List.forall_mem_cons.mpr ⟨List.not_mem_nil, hended⟩, hlast, rfl⟩
    · cases ended with
      | nil => exact ⟨[], c :: last, hended, by simp [Ne.symm hc, hlast], rfl⟩
      | cons line ended =>
        obtain ⟨hline, hended⟩ := List.forall_mem_cons.mp hended
        refine ⟨(c :: line) :: ended, last, List.forall_mem_cons.mpr ⟨?_, hended⟩, hlast, rfl⟩
        simp [Ne.symm hc, hline]

theorem withReturns_of_unbroken (h : '\n' ∉ line) : withReturns line = line := by
  induction line with
  | nil => rfl
  | cons c line ih =>
    obtain ⟨hc, hline⟩ := not_or.mp (mt List.mem_cons.mpr h)
    rw [withReturns, List.flatMap_cons, if_neg (Ne.symm hc), ← withReturns, ih hline]
    rfl

theorem withReturns_append (text rest : List Char) :
    withReturns (text ++ rest) = withReturns text ++ withReturns rest :=
  List.flatMap_append

/-- The carriage returns come at the ends of lines. -/
theorem withReturns_ended (hended : ∀ line ∈ ended, '\n' ∉ line) :
    withReturns (ended.flatMap (· ++ ['\n'])) =
      (ended.map (· ++ ['\r'])).flatMap (· ++ ['\n']) := by
  induction ended with
  | nil => rfl
  | cons line ended ih =>
    obtain ⟨hline, hended⟩ := List.forall_mem_cons.mp hended
    have hfeed : withReturns ['\n'] = ['\r', '\n'] := rfl
    rw [List.flatMap_cons, withReturns_append, withReturns_append, withReturns_of_unbroken hline,
      hfeed, ih hended, List.map_cons, List.flatMap_cons]
    simp

theorem lines_of_unbroken (hline : line ≠ []) (h : '\n' ∉ line) : lines line = [line] := by
  induction line with
  | nil => exact absurd rfl hline
  | cons c line ih =>
    obtain ⟨hc, hrest⟩ := not_or.mp (mt List.mem_cons.mpr h)
    have hhead : c = '\r' → line.head? ≠ some '\n' :=
      fun _ hhead => hrest (List.mem_of_mem_head? hhead)
    rw [lines_cons (Ne.symm hc) hhead]
    cases line with
    | nil => rfl
    | cons d line =>
      rw [ih (List.cons_ne_nil _ _) hrest]
      rfl

/-- A line feed is put at the end just when something follows the lines that end in one. -/
theorem terminated_eq (hlast : '\n' ∉ last) :
    terminated (ended.flatMap (· ++ ['\n']) ++ last) =
      ended.flatMap (· ++ ['\n']) ++ last ++ if last = [] then [] else ['\n'] := by
  by_cases hnil : last = []
  · subst hnil
    rw [if_pos rfl, List.append_nil, List.append_nil, terminated, if_pos]
    rcases List.eq_nil_or_concat ended with rfl | ⟨init, line, rfl⟩
    · exact .inl rfl
    · right
      simp
  · rw [if_neg hnil, terminated, if_neg]
    rintro (hempty | hfeed)
    · exact hnil (List.append_eq_nil_iff.mp hempty).2
    · rw [List.getLast?_append_of_ne_nil _ hnil] at hfeed
      exact hlast (List.mem_of_getLast? hfeed)

end Text

namespace Reading

def withSource (reading : PriorityRules.Reading A M) (text : String) : PriorityRules.Reading A M :=
  { reading with outcome := reading.outcome.map fun r => { r with source := some text } }

theorem finish_source (d : Draft A M) (text other : String) :
    d.finish other = (d.finish text).map fun r => { r with source := some other } := by
  rw [Draft.finish, Draft.finish]
  cases d.block with
  | some block => rfl
  | none => cases d.notes.ledger.tags <;> rfl

end Reading

namespace Vocabulary

open Reading Text

/-- A carriage return in front of every line feed leaves the tokens of each line as they are. -/
theorem tokenLines_withReturns (text : String) :
    tokenLines (String.ofList (withReturns text.toList)) = tokenLines text := by
  obtain ⟨ended, last, hended, hlast, htext⟩ := exists_ended_and_last text.toList
  have hreturns : ∀ line ∈ ended.map (· ++ ['\r']), '\n' ∉ line := by
    intro line hline
    obtain ⟨line, hmem, rfl⟩ := List.mem_map.mp hline
    simpa using hended line hmem
  have hsplit : (ended.map (· ++ ['\r'])).map Token.split = ended.map Token.split := by
    rw [List.map_map]
    exact List.map_congr_left fun line _ => Token.split_snoc_return line
  rw [tokenLines, tokenLines, String.toList_ofList, htext, withReturns_append,
    withReturns_ended hended, withReturns_of_unbroken hlast, lines_flatMap_feed hreturns,
    lines_flatMap_feed hended, hsplit]

/-- So does a line feed at the end of the last line. -/
theorem tokenLines_terminated (text : String) :
    tokenLines (String.ofList (terminated text.toList)) = tokenLines text := by
  obtain ⟨ended, last, hended, hlast, htext⟩ := exists_ended_and_last text.toList
  rw [tokenLines, tokenLines, String.toList_ofList, htext, terminated_eq hlast]
  by_cases hnil : last = []
  · rw [if_pos hnil, List.append_nil]
  · rw [if_neg hnil, List.append_assoc, lines_flatMap_feed hended, lines_flatMap_feed hended,
      Token.map_split_lines hlast, lines_of_unbroken hnil hlast]
    rfl

variable (V : Vocabulary A M)

theorem read_of_tokenLines {text other : String} (h : tokenLines other = tokenLines text) :
    V.read other = withSource (V.read text) other := by
  have hcalls : (V.read other).calls = (V.read text).calls := by rw [calls_read, calls_read, h]
  have houtcome : (V.read other).outcome =
      (V.read text).outcome.map fun r => { r with source := some other } := by
    rw [outcome_read, outcome_read, h]
    cases (tokenLines text).foldlM (Draft.readTokens V (readCondition V)) {} with
    | error halt => rfl
    | ok d => exact finish_source d text other
  rw [withSource, ← houtcome, ← hcalls]

/-- Whatever the vocabulary and the text, and however many carriage returns the text has already,
nothing but the source of the ruleset changes when every line feed becomes a carriage return and a
line feed, nor when a line feed is put at the end: rules, lines, order, tags and groups are the
same, or the fault and its line are. -/
theorem read_whatever_endings (text : String) :
    V.read (String.ofList (withReturns text.toList)) =
        withSource (V.read text) (String.ofList (withReturns text.toList)) ∧
      V.read (String.ofList (terminated text.toList)) =
        withSource (V.read text) (String.ofList (terminated text.toList)) :=
  ⟨V.read_of_tokenLines (tokenLines_withReturns text),
    V.read_of_tokenLines (tokenLines_terminated text)⟩

end Vocabulary

end PriorityRules
