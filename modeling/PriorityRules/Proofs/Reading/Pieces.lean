import PriorityRules.Proofs.Reading.Acceptance

/-! # Texts in pieces

A piece is a line that is skipped, a rule line or a whole tag block, with the line feeds that end
its lines. A text that is read and ends in a line feed consists of pieces, and pieces in any order
make up a text whose items are theirs.
-/

namespace PriorityRules

variable {A M : Type}

namespace Text

theorem lines_cons {c : Char} {rest : List Char} (hfeed : c ≠ '\n')
    (hreturn : c = '\r' → rest.head? ≠ some '\n') :
    lines (c :: rest) = consLine c (lines rest) := by
  rw [lines]
  · exact hfeed
  · rintro tail rfl rfl
    exact hreturn rfl rfl

/-- Up to a line feed there is one line, which may lack a carriage return at its end. -/
theorem lines_of_feed {line rest : List Char} (h : '\n' ∉ line) :
    ∃ held, lines (line ++ '\n' :: rest) = held :: lines rest ∧
      (line = held ∨ line = held ++ ['\r']) := by
  induction line with
  | nil => exact ⟨[], rfl, .inl rfl⟩
  | cons c line ih =>
    obtain ⟨hc, hline⟩ := not_or.mp (mt List.mem_cons.mpr h)
    obtain ⟨held, hheld, hends⟩ := ih hline
    by_cases hreturn : c = '\r' ∧ line = []
    · obtain ⟨rfl, rfl⟩ := hreturn
      exact ⟨[], rfl, .inr rfl⟩
    · refine ⟨c :: held, ?_, by simpa using hends⟩
      rw [List.cons_append, lines_cons (Ne.symm hc), hheld]
      · rfl
      · rintro rfl hhead
        cases line with
        | nil => exact hreturn ⟨rfl, rfl⟩
        | cons d line =>
          cases Option.some.inj hhead
          exact hline List.mem_cons_self

end Text

namespace Token

/-- A carriage return at the end of a line is no part of a token. -/
theorem split_snoc_return (line : List Char) : split (line ++ ['\r']) = split line := by
  rw [split, List.foldr_append]
  rfl

theorem map_split_lines {line rest : List Char} (h : '\n' ∉ line) :
    (Text.lines (line ++ '\n' :: rest)).map split = split line :: (Text.lines rest).map split := by
  obtain ⟨held, hlines, rfl | rfl⟩ := Text.lines_of_feed h
  · rw [hlines, List.map_cons]
  · rw [hlines, List.map_cons, split_snoc_return]

end Token

namespace Reading

/-- Lines that make up a whole. There is an item to them unless they are skipped; a rule has no line
number yet. -/
inductive Forms : List (List Token) → Option Item → Prop where
  | skipped {tokens : List Token} (h : ∀ first ∈ tokens.head?, first.isComment) :
      Forms [tokens] none
  | rule {first : Token} {level : Int} {conditions words : List Token}
      (hlevel : first.level? = some level) (harrow : Token.arrow ∉ conditions) :
      Forms [first :: (conditions ++ Token.arrow :: words)] (some (.rule 0 level conditions words))
  | block {name : Token} {first : List Token} {used body : List (List Token)}
      (hname : name.isTagName) (henclosed : Enclosed first used body) :
      Forms ((name :: ['['] :: first) :: used) (some (.block name body))

/-- A line that is skipped, a rule line or a whole tag block. -/
structure Piece where
  lines : List Text.Line
  item? : Option Item
  forms : Forms (lines.map Token.split) item?
  unbroken : ∀ line ∈ lines, '\n' ∉ line

namespace Piece

def skipped (line : Text.Line) (hline : '\n' ∉ line)
    (h : ∀ first ∈ (Token.split line).head?, first.isComment) : Piece :=
  ⟨[line], none, .skipped h, by simpa using hline⟩

def rule (line : Text.Line) (hline : '\n' ∉ line) {first : Token} (level : Int)
    (conditions words : List Token)
    (hsplit : Token.split line = first :: (conditions ++ Token.arrow :: words))
    (hlevel : first.level? = some level) (harrow : Token.arrow ∉ conditions) : Piece where
  lines := [line]
  item? := some (.rule 0 level conditions words)
  forms := by
    rw [List.map_singleton, hsplit]
    exact .rule hlevel harrow
  unbroken := by simpa using hline

def block (line : Text.Line) (more : List Text.Line) (hlines : ∀ l ∈ line :: more, '\n' ∉ l)
    (name : Token) {first : List Token} (body : List (List Token))
    (hsplit : Token.split line = name :: ['['] :: first) (hname : name.isTagName)
    (henclosed : Enclosed first (more.map Token.split) body) : Piece where
  lines := line :: more
  item? := some (.block name body)
  forms := by
    rw [List.map_cons, hsplit]
    exact .block hname henclosed
  unbroken := hlines

end Piece

def Item.unnumbered : Item → Item
  | rule _ level conditions words => rule 0 level conditions words
  | block name body => block name body

def Item.level? : Item → Option Int
  | rule _ level .. => some level
  | block .. => none

def Piece.level? (piece : Piece) : Option Int := piece.item?.bind Item.level?

def textOf (pieces : List Piece) : String :=
  String.ofList (pieces.flatMap fun piece => piece.lines.flatMap (· ++ ['\n']))

theorem lines_flatMap_feed {lines : List Text.Line} (h : ∀ line ∈ lines, '\n' ∉ line)
    (rest : List Char) :
    (Text.lines (lines.flatMap (· ++ ['\n']) ++ rest)).map Token.split =
      lines.map Token.split ++ (Text.lines rest).map Token.split := by
  induction lines with
  | nil => rfl
  | cons line lines ih =>
    obtain ⟨hline, hlines⟩ := List.forall_mem_cons.mp h
    rw [List.flatMap_cons, List.append_assoc, List.append_assoc, List.singleton_append,
      Token.map_split_lines hline, ih hlines]
    rfl

theorem tokenLines_textOf (pieces : List Piece) :
    Vocabulary.tokenLines (textOf pieces) =
      pieces.flatMap fun piece => piece.lines.map Token.split := by
  rw [Vocabulary.tokenLines, textOf, String.toList_ofList]
  induction pieces with
  | nil => rfl
  | cons piece pieces ih =>
    rw [List.flatMap_cons, lines_flatMap_feed piece.unbroken, ih]
    rfl

/-- In front of a layout, a piece adds its item. -/
theorem Forms.layout {line : Nat} {lines rest : List (List Token)} {item? : Option Item}
    {items : List Item} (h : Forms lines item?) (tail : Layout (line + lines.length) rest items) :
    ∃ placed : Option Item, placed.map Item.unnumbered = item? ∧
      Layout line (lines ++ rest) (placed.toList ++ items) := by
  cases h with
  | skipped hcomment => exact ⟨none, rfl, .skipped hcomment tail⟩
  | rule hlevel harrow => exact ⟨some (.rule line _ _ _), rfl, .rule hlevel harrow tail⟩
  | block hname henclosed =>
    rw [List.length_cons, ← Nat.add_assoc, Nat.add_right_comm] at tail
    exact ⟨some (.block _ _), rfl, .block hname henclosed tail⟩

/-- Pieces make up a text whose items are theirs, on whatever lines. -/
theorem exists_layout_of_pieces (pieces : List Piece) (line : Nat) :
    ∃ items, Layout line (pieces.flatMap fun piece => piece.lines.map Token.split) items ∧
      items.map Item.unnumbered = pieces.filterMap (·.item?) := by
  induction pieces generalizing line with
  | nil => exact ⟨[], .done, rfl⟩
  | cons piece pieces ih =>
    obtain ⟨items, hlayout, hitems⟩ := ih (line + (piece.lines.map Token.split).length)
    obtain ⟨placed, hplaced, hlayout⟩ := piece.forms.layout hlayout
    refine ⟨placed.toList ++ items, hlayout, ?_⟩
    rw [List.map_append, hitems, List.filterMap_cons, ← hplaced]
    cases placed <;> rfl

/-- Where lines have a layout, they consist of pieces. -/
theorem Layout.exists_pieces {line : Nat} {lines : List Text.Line} {items : List Item}
    (h : Layout line (lines.map Token.split) items) (hlines : ∀ line ∈ lines, '\n' ∉ line) :
    ∃ pieces : List Piece, pieces.flatMap (·.lines) = lines := by
  generalize htokens : lines.map Token.split = tokens at h
  induction h generalizing lines with
  | done => exact ⟨[], (List.map_eq_nil_iff.mp htokens).symm⟩
  | skipped hcomment _ ih =>
    obtain ⟨line, rest, rfl, rfl, hrest⟩ := List.map_eq_cons_iff.mp htokens
    obtain ⟨hline, hlines⟩ := List.forall_mem_cons.mp hlines
    obtain ⟨pieces, rfl⟩ := ih hlines hrest
    exact ⟨.skipped line hline hcomment :: pieces, rfl⟩
  | rule hlevel harrow _ ih =>
    obtain ⟨line, rest, rfl, hsplit, hrest⟩ := List.map_eq_cons_iff.mp htokens
    obtain ⟨hline, hlines⟩ := List.forall_mem_cons.mp hlines
    obtain ⟨pieces, rfl⟩ := ih hlines hrest
    exact ⟨.rule line hline _ _ _ hsplit hlevel harrow :: pieces, rfl⟩
  | block hname henclosed _ ih =>
    obtain ⟨line, rest, rfl, hsplit, hrest⟩ := List.map_eq_cons_iff.mp htokens
    obtain ⟨more, others, rfl, rfl, hothers⟩ := List.map_eq_append_iff.mp hrest
    rw [← List.cons_append, List.forall_mem_append] at hlines
    obtain ⟨pieces, rfl⟩ := ih hlines.2 hothers
    exact ⟨.block line more hlines.1 _ _ hsplit hname henclosed :: pieces, rfl⟩

/-- Text that is empty or ends in a line feed consists of lines that end in line feeds. -/
theorem exists_lines_of_feed {text : List Char} (h : text = [] ∨ text.getLast? = some '\n') :
    ∃ lines : List Text.Line, (∀ line ∈ lines, '\n' ∉ line) ∧
      text = lines.flatMap (· ++ ['\n']) := by
  induction text with
  | nil => exact ⟨[], by simp, rfl⟩
  | cons c rest ih =>
    cases rest with
    | nil =>
      obtain rfl : c = '\n' := by simpa using h
      exact ⟨[[]], by simp, rfl⟩
    | cons d rest =>
      obtain ⟨lines, hlines, hrest⟩ := ih (.inr (by simpa using h))
      by_cases hc : c = '\n'
      · subst hc
        exact ⟨[] :: lines, by simpa using hlines, congrArg _ hrest⟩
      · cases lines with
        | nil => cases hrest
        | cons line lines =>
          refine ⟨(c :: line) :: lines, ?_, congrArg _ hrest⟩
          simpa [Ne.symm hc] using hlines

theorem exists_pieces {text : String} {items : List Item}
    (h : Layout 1 (Vocabulary.tokenLines text) items)
    (hend : text = "" ∨ text.toList.getLast? = some '\n') :
    ∃ pieces, textOf pieces = text := by
  have hend : text.toList = [] ∨ text.toList.getLast? = some '\n' :=
    hend.imp_left (congrArg String.toList)
  obtain ⟨lines, hlines, htext⟩ := exists_lines_of_feed hend
  have hsplit := lines_flatMap_feed hlines []
  rw [List.append_nil, ← htext, Text.lines, List.map_nil, List.append_nil] at hsplit
  rw [Vocabulary.tokenLines, hsplit] at h
  obtain ⟨pieces, rfl⟩ := h.exists_pieces hlines
  refine ⟨pieces, ?_⟩
  rw [textOf, ← List.flatMap_assoc, ← htext, String.ofList_toList]

end Reading

end PriorityRules
