import PriorityRules.Proofs.Engine.Contributions
import PriorityRules.Proofs.Reading.Calls
import PriorityRules.Proofs.Reading.Places

/-! # Words with a mark of the host

Three characters begin forms of the rule language itself, and no engine is built where the host has
a reader for one of them. So a word that begins with a mark of the host is read by the reader of
that mark wherever it stands as a condition. Comments are passed over, inside of a block as well.
-/

namespace PriorityRules

variable {C A M : Type}

namespace Vocabulary

open Reading

variable {V : Vocabulary A M} {mark : Char} {reader : Reader A} {rest : Token}

section Marked

variable (hreader : V.marks.lookup mark = some reader) (hfree : mark ∉ reservedMarks)
include hreader hfree

theorem interpret_marked (position : String → Nat) :
    V.interpret position (mark :: rest) =
      ((reader (String.ofList rest)).map .atom).mapError .rejected := by
  obtain ⟨hnegation, hreference, hcomparison⟩ : mark ≠ '!' ∧ mark ≠ '%' ∧ mark ≠ '(' := by
    simpa [reservedMarks] using hfree
  have hconsult : consult? V (mark :: rest) =
      some (.marked mark (String.ofList rest), reader (String.ofList rest)) := by
    simp [consult?, hreader]
  rw [interpret_plain (by simp [hnegation]), interpretPlain, hconsult]
  all_goals simp [hreference, hcomparison]

theorem hostCall?_marked :
    V.hostCall? (mark :: rest) = some (.marked mark (String.ofList rest)) := by
  obtain ⟨-, hreference, hcomparison⟩ : mark ≠ '!' ∧ mark ≠ '%' ∧ mark ≠ '(' := by
    simpa [reservedMarks] using hfree
  rw [hostCall?, hreader]
  · rfl
  all_goals simp [hreference, hcomparison]

theorem marked_mem_calls {text : String} {r : Ruleset A M} (h : (V.read text).outcome = .ok r)
    (hcondition : .condition (mark :: rest) ∈ usesFrom false (tokenLines text)) :
    .marked mark (String.ofList rest) ∈ (V.read text).calls := by
  have hnegation : mark ≠ '!' := by
    rintro rfl
    simp [reservedMarks] at hfree
  obtain ⟨-, hpassed, -⟩ := readers_called_once V text
  obtain ⟨-, hcalls, -⟩ := hpassed r h
  have hsource : mark :: rest ∈ sources (usesFrom false (tokenLines text)) := by
    refine List.mem_filterMap.mpr ⟨_, hcondition, ?_⟩
    exact congrArg some (Token.stripped_of_plain (by simp [hnegation]))
  have hmem : Call.marked mark (String.ofList rest) ∈
      (V.read text).calls.filter (·.source?.isSome) := by
    rw [hcalls]
    exact List.mem_filterMap.mpr
      ⟨_, List.mem_eraseDups.mpr hsource, hostCall?_marked hreader hfree⟩
  exact (List.mem_filter.mp hmem).1

end Marked

end Vocabulary

namespace Setup

open Reading

variable {s : Setup C A M} {built : Engine C A M}

/-- An engine has the marks of its setup, and none of them is reserved. -/
theorem marks_of_build (h : s.build = .ok built) :
    built.host.marks = s.marks ∧
      ∀ mark reader, s.marks.lookup mark = some reader → mark ∉ reservedMarks := by
  obtain ⟨effects, declared, -, hreserved, -, rfl⟩ := build_eq_ok_iff.mp h
  refine ⟨rfl, fun mark reader hreader hmem => ?_⟩
  apply List.filter_eq_nil_iff.mp hreserved mark hmem
  exact any_marks_iff.mpr (hreader ▸ Option.some_ne_none reader)

/-- Wherever a word with a mark of the host stands as a condition, a load that succeeds has called
the reader of the mark for the rest of the word, and what the reader answered has the place of the
word in the ruleset. Comments aside, no form of the rule language comes before a mark. -/
theorem no_mark_shadowed {e : Engine C A M} (hbuild : s.build = .ok built)
    (hhost : e.host = built.host) {mark : Char} {reader : Reader A}
    (hreader : s.marks.lookup mark = some reader) (hmark : Token.isWordChar mark) {rest : Token}
    (harrow : mark :: rest ≠ Token.arrow) {text : String} {n : Nat}
    (hload : (e.load text).result = .ok n) {place : Place}
    (hstands : Stands (Vocabulary.tokenLines text) (mark :: rest) place)
    (hcomment : ¬ place.OnComment (mark :: rest)) :
    ∃ a, reader (String.ofList rest) = .ok a ∧
      .marked mark (String.ofList rest) ∈ (e.load text).calls ∧
      place.TakenBy (.atom a) (e.load text).engine.active := by
  obtain ⟨hmarks, hfree⟩ := marks_of_build hbuild
  have hlookup : e.host.marks.lookup mark = some reader := by rw [hhost, hmarks, hreader]
  have hnodelimiter : ∀ c : Char, Token.isWordChar c = false → mark :: rest ≠ [c] := by
    rintro c hc ⟨rfl, -⟩
    exact Bool.false_ne_true (hc.symm.trans hmark)
  have hcomma := hnodelimiter ',' (by decide)
  have hread := (e.read_of_load hload).1
  obtain ⟨items, hlayout, hwell, hactive⟩ := Vocabulary.exists_items_of_read hread
  obtain ⟨item, hitem, hwithin⟩ :=
    hstands.exists_item hlayout harrow (hnodelimiter ']' (by decide)) hcomment
  have hmem := hwithin.mem_conditions hcomma
  have haccepts := (hwell.accepted item hitem).1 _ hmem
  obtain ⟨p, hp⟩ := haccepts (Reading.place (items.flatMap Item.mentions))
  have htaken : place.TakenBy p (e.load text).engine.active :=
    hactive ▸ hwell.takenBy hlayout hitem hwithin hcomma hp
  rw [Vocabulary.interpret_marked hlookup (hfree mark reader hreader)] at hp
  obtain ⟨a, ha, rfl⟩ := map_eq_ok.mp (mapError_eq_ok.mp hp)
  refine ⟨a, ha, ?_, htaken⟩
  rw [Engine.calls_load]
  apply Vocabulary.marked_mem_calls hlookup (hfree mark reader hreader) hread
  rw [hlayout.uses]
  exact List.mem_flatMap.mpr ⟨item, hitem, Item.mem_uses_of_condition hmem⟩

/-- A question mark and a number sign each take what follows them as it stands. -/
def marked : Setup String String String := (Engine.signs.withMark '?' .ok).withMark '#' .ok

def markedEngine : Engine String String String where
  host := { Engine.signboard.host with marks := marked.marks }

theorem build_marked : marked.build = .ok markedEngine := rfl

/-- The last word of the block comes second in a group, below a group and a comment. -/
def duskText : String := "hall [ lit\n# ?dim\n open, shut ?dim ]\n1 %hall -> wait"

def duskPlace : Place :=
  .inBlock "hall".toList [["lit".toList], ["#".toList, "?dim".toList]]
    (["open", ",", "shut"].map String.toList)

theorem marked_reads_dusk :
    marked.build = .ok markedEngine ∧ (markedEngine.load duskText).result = .ok 1 ∧
      Stands (Vocabulary.tokenLines duskText) "?dim".toList duskPlace ∧
      ¬ duskPlace.OnComment "?dim".toList ∧
      .marked '?' "dim" ∈ (markedEngine.load duskText).calls ∧
      duskPlace.TakenBy (.atom "dim") (markedEngine.load duskText).engine.active ∧
      (markedEngine.load duskText).engine.active.tags =
        [⟨"hall", [[.atom "lit"], [.atom "open"], [.atom "shut", .atom "dim"]]⟩] := by
  have hload : (markedEngine.load duskText).result = .ok 1 := by rfl
  have hstands : Stands (Vocabulary.tokenLines duskText) "?dim".toList duskPlace :=
    @Stands.inBlock _ _ [] _ _ [["1", "%hall", "->", "wait"].map String.toList] _ _ _ ["]".toList]
      (by rfl) rfl (by decide) rfl (by decide) (by decide)
  have hcomment : ¬ duskPlace.OnComment "?dim".toList := by
    simp [duskPlace, Place.OnComment, Token.isComment]
  have hmark : marked.marks.lookup '?' = some .ok := rfl
  obtain ⟨a, ha, hcall, htaken⟩ := no_mark_shadowed build_marked rfl hmark (by decide) (by decide)
    hload hstands hcomment
  cases ha
  exact ⟨build_marked, hload, hstands, hcomment, hcall, htaken, by rfl⟩

/-- The third line of the block begins with a word that has a mark, and is a comment. -/
def hiddenText : String := "hall [ lit\n#low ?dim\n]\n1 %hall -> wait"

/-- Both words of the comment stand between the brackets, but no reader is called for them and
neither has a place in the ruleset. -/
theorem comment_hides_marked_words :
    let r := (markedEngine.load hiddenText).engine.active
    let low := Place.inBlock "hall".toList [["lit".toList]] []
    let dim := Place.inBlock "hall".toList [["lit".toList]] ["#low".toList]
    marked.build = .ok markedEngine ∧
      (marked.marks.lookup '#').isSome ∧ Token.isWordChar '#' ∧
      (marked.marks.lookup '?').isSome ∧ Token.isWordChar '?' ∧
      (markedEngine.load hiddenText).result = .ok 1 ∧
      Stands (Vocabulary.tokenLines hiddenText) "#low".toList low ∧
      Stands (Vocabulary.tokenLines hiddenText) "?dim".toList dim ∧
      (markedEngine.load hiddenText).calls = [.unmarked "lit", .effect "wait"] ∧
      r.tags = [⟨"hall", [[.atom "lit"]]⟩] ∧ (∀ a, ¬ low.TakenBy (.atom a) r) ∧
      ∀ a, ¬ dim.TakenBy (.atom a) r := by
  let below : List (List Token) :=
    [["]"], ["1", "%hall", "->", "wait"]].map (·.map String.toList)
  have hlow : Stands (Vocabulary.tokenLines hiddenText) "#low".toList
      (.inBlock "hall".toList [["lit".toList]] []) :=
    @Stands.inBlock _ _ [] _ _ below _ _ _ ["?dim".toList] (by rfl) rfl (by decide) rfl (by decide)
      (by decide)
  have hdim : Stands (Vocabulary.tokenLines hiddenText) "?dim".toList
      (.inBlock "hall".toList [["lit".toList]] ["#low".toList]) :=
    @Stands.inBlock _ _ [] _ _ below _ _ _ [] (by rfl) rfl (by decide) rfl (by decide) (by decide)
  have htags : (markedEngine.load hiddenText).engine.active.tags = [⟨"hall", [[.atom "lit"]]⟩] := by
    rfl
  have hvoid : ∀ before a, Place.groupsBefore [["lit".toList]] before = 1 →
      ¬ (Place.inBlock "hall".toList [["lit".toList]] before).TakenBy (.atom a)
        (markedEngine.load hiddenText).engine.active := by
    rintro before a hcount ⟨tag, htag, -, -, group, hgroup, -⟩
    rw [htags, List.mem_singleton] at htag
    rw [htag, hcount] at hgroup
    cases hgroup
  exact ⟨build_marked, rfl, by decide, rfl, by decide, by rfl, hlow, hdim, by rfl, htags,
    fun a => hvoid _ a (by decide), fun a => hvoid _ a (by decide)⟩

end Setup

end PriorityRules
