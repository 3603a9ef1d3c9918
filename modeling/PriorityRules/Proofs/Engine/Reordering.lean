import PriorityRules.Proofs.Engine.Loading
import PriorityRules.Proofs.Reading.Reordering

/-! # Loading texts in another order

The order of a text matters within the levels only. If its pieces are put in another order that
keeps the rule lines of each level as they are, then the text still loads, and in every context the
engine does the same and reports the same, except for the numbers of lines.
-/

namespace PriorityRules

variable {C A M R R' : Type}

def Acting.map (f : R → R') (acting : Acting C A R) : Acting C A R' :=
  ⟨acting.result.map f, acting.context, acting.answers, acting.events⟩

namespace Engine

open Evaluation Reading

/-- In the context the engines do the same, and their reports differ at most in line numbers. -/
structure ActsLike (e e' : Engine C A M) (context : C) : Prop where
  act : e'.act context = e.act context
  actWithReport : (e'.actWithReport context).map withoutLines =
    (e.actWithReport context).map withoutLines
  explain : (e'.explain context).map withoutLines = (e.explain context).map withoutLines

section Mirrors

variable {e e' : Engine C A M} {σ : Nat → Nat} (hhost : e'.host = e.host)
  (h : e.active.Mirrors σ e'.active)
include hhost h

/-- Engines whose rulesets mirror each other go on alike from decisions that show the same. -/
theorem evaluate_mirrors (context : C) {go : Decision A M → C × R} {f : R → R'}
    (hgo : ∀ d d', d'.outcome = d.outcome → (go d').1 = (go d).1 ∧ f (go d').2 = f (go d).2) :
    (e'.evaluate context go).map f = (e.evaluate context go).map f := by
  have hrun := h.evaluate e.host.slots (e.host.holds · context) (e.host.numbers context)
  rw [Engine.evaluate, Engine.evaluate, hhost]
  generalize e.active.evaluate _ (e.host.holds · context) _ = run at hrun ⊢
  generalize e'.active.evaluate _ (e.host.holds · context) _ = run' at hrun ⊢
  obtain ⟨outcome, p⟩ := run
  obtain ⟨outcome', p'⟩ := run'
  obtain ⟨hsame, rfl⟩ : outcome'.map Decision.outcome = outcome.map Decision.outcome ∧
    p' = p.rename σ := hrun
  match outcome, outcome', hsame with
  | .error fault, .error fault', hsame =>
    cases hsame
    simp [Acting.map, Except.map, Progress.answers_rename]
  | .ok d, .ok d', hsame =>
    obtain ⟨hcontext, hresult⟩ := hgo d d' (Except.ok.inj hsame)
    simp [Acting.map, Except.map, Progress.answers_rename, hcontext, hresult]

theorem actsLike_of_mirrors (context : C) : e.ActsLike e' context := by
  have hact : (e'.act context).map id = (e.act context).map id := by
    rw [Engine.act, Engine.act, hhost]
    refine evaluate_mirrors hhost h context fun d d' hd => ⟨?_, rfl⟩
    exact Board.apply_congr (congrArg Prod.fst hd) _ _
  constructor
  · simpa only [Acting.map, Except.map_id, id_eq] using hact
  · rw [Engine.actWithReport, Engine.actWithReport, hhost]
    refine evaluate_mirrors hhost h context fun d d' hd => ⟨?_, report_congr hd⟩
    exact Board.apply_congr (congrArg Prod.fst hd) _ _
  · exact evaluate_mirrors hhost h context fun d d' hd => ⟨rfl, report_congr hd⟩

end Mirrors

/-- A text that loads and ends in a line feed consists of pieces. In every other order of them that
keeps the rule lines of each level as they are, it loads with as many rules, and then the engine
does and reports the same in every context, lines apart. -/
theorem load_rearranged (e : Engine C A M) {text : String} {n : Nat}
    (h : (e.load text).result = .ok n) (hend : text = "" ∨ text.toList.getLast? = some '\n') :
    (∃ pieces, textOf pieces = text) ∧
      ∀ pieces pieces', textOf pieces = text → Rearranged pieces pieces' →
        (e.load (textOf pieces')).result = .ok n ∧
          ∀ context, (e.load text).engine.ActsLike (e.load (textOf pieces')).engine context := by
  obtain ⟨hread, hn⟩ := e.read_of_load h
  constructor
  · obtain ⟨items, hlayout, _⟩ := Vocabulary.exists_items_of_read hread
    exact exists_pieces hlayout hend
  · rintro pieces pieces' rfl hpieces
    obtain ⟨r', σ, hread', hmirrors⟩ := hpieces.exists_mirror hread
    obtain ⟨hresult', hengine'⟩ := e.load_of_ok hread'
    obtain ⟨_, hengine⟩ := e.load_of_ok hread
    refine ⟨by rw [hresult', hmirrors.size_eq, hn], ?_⟩
    apply actsLike_of_mirrors
    · rw [hengine, hengine']
    · rw [hengine']
      exact hmirrors

/-- A rule that refers to a tag, the tag, and a rule of a higher level. -/
def signPieces : List Piece :=
  [.rule "1 %open -> shut".toList (by decide) 1 ["%open".toList] ["shut".toList] rfl rfl
      (by decide),
    .block "open [".toList [" seen ]".toList] (by decide) "open".toList [[], ["seen".toList]]
      rfl rfl (.further (by decide) (by decide) (@Enclosed.closed ["seen".toList] (by decide))),
    .rule "2 shut -> open".toList (by decide) 2 ["shut".toList] ["open".toList] rfl rfl
      (by decide)]

theorem textOf_signPieces :
    textOf signPieces = "1 %open -> shut\nopen [\n seen ]\n2 shut -> open\n" := by decide

theorem signPieces_rearranged : Rearranged signPieces signPieces.reverse := by
  refine ⟨(List.reverse_perm signPieces).symm, fun level => ?_⟩
  by_cases hone : level = 1
  · subst hone
    rfl
  · by_cases htwo : level = 2
    · subst htwo
      rfl
    · simp [signPieces, Piece.level?, Piece.rule, Piece.block, Item.level?, Ne.symm hone,
        Ne.symm htwo]

theorem signboard_reads_any_order :
    (signboard.load (textOf signPieces)).result = .ok 2 ∧
      (textOf signPieces).toList.getLast? = some '\n' ∧
      Rearranged signPieces signPieces.reverse ∧
      (signboard.load (textOf signPieces.reverse)).result = .ok 2 ∧
      (signboard.load (textOf signPieces)).engine.ActsLike
        (signboard.load (textOf signPieces.reverse)).engine "seen" := by
  have hload : (signboard.load (textOf signPieces)).result = .ok 2 := by
    rw [textOf_signPieces]
    rfl
  have hend : (textOf signPieces).toList.getLast? = some '\n' := by
    rw [textOf_signPieces]
    decide
  obtain ⟨_, hany⟩ := signboard.load_rearranged hload (.inr hend)
  obtain ⟨hload', halike⟩ := hany _ _ rfl signPieces_rearranged
  exact ⟨hload, hend, signPieces_rearranged, hload', halike "seen"⟩

end Engine

end PriorityRules
