import PriorityRules.Proofs.Reading.Concatenation
import PriorityRules.Proofs.Reading.Reordering

/-! # The groups of a tag

Inside a block, every comma and every end of a line is a gap between conditions. The groups of the
tag are the runs of conditions between gaps, from left to right, however many gaps stand together
and wherever the block has blank lines and comments.
-/

namespace PriorityRules

namespace Reading

section Runs

variable {cells tail : List (Option Token)} {found : List (List Token)} {run : List Token}

/-- Conditions in a row, with neither a condition just before them nor one just after; `start` is
the number of cells before the first. -/
def RunAt (cells : List (Option Token)) (start : Nat) (run : List Token) : Prop :=
  run ≠ [] ∧ ∃ before after, cells = before ++ run.map some ++ after ∧ before.length = start ∧
    (∀ cell ∈ before.getLast?, cell = none) ∧ ∀ cell ∈ after.head?, cell = none

/-- The lists are all the runs between gaps, from left to right. -/
def MaximalRuns (cells : List (Option Token)) (found : List (List Token)) : Prop :=
  ∃ placed : List (Nat × List Token), placed.map (·.2) = found ∧
    placed.Pairwise (·.1 < ·.1) ∧ ∀ start run, (start, run) ∈ placed ↔ RunAt cells start run

theorem takeWhile_isSome (run : List Token) (h : ∀ cell ∈ tail.head?, cell = none) :
    (run.map some ++ tail).takeWhile Option.isSome = run.map some := by
  rw [List.takeWhile_append_of_pos (by simp)]
  cases tail with
  | nil => simp
  | cons cell tail => simp [h cell rfl]

theorem not_runAt_nil {start : Nat} : ¬RunAt [] start run := by
  rintro ⟨hrun, before, after, hcells, _⟩
  simp [hrun] at hcells

/-- A gap in front moves the runs. -/
theorem runAt_gap {start : Nat} :
    RunAt (none :: tail) start run ↔ ∃ s, start = s + 1 ∧ RunAt tail s run := by
  constructor
  · rintro ⟨hrun, before, after, hcells, rfl, hbefore, hafter⟩
    cases before with
    | nil =>
      obtain ⟨token, rest, rfl⟩ := List.exists_cons_of_ne_nil hrun
      simp at hcells
    | cons cell before =>
      obtain ⟨rfl, rfl⟩ := List.cons.inj hcells
      refine ⟨before.length, rfl, hrun, before, after, rfl, rfl, ?_, hafter⟩
      intro cell hcell
      apply hbefore
      rw [List.getLast?_cons, Option.mem_def.mp hcell]
      rfl
  · rintro ⟨s, rfl, hrun, before, after, rfl, rfl, hbefore, hafter⟩
    refine ⟨hrun, none :: before, after, rfl, rfl, ?_, hafter⟩
    rw [List.getLast?_cons]
    rintro _ ⟨⟩
    cases hlast : before.getLast? with
    | none => rfl
    | some cell => exact hbefore cell hlast

/-- In front of a gap or the end, conditions are a run, and they move the others. -/
theorem runAt_conditions {first : List Token} {start : Nat} (hfirst : first ≠ [])
    (htail : ∀ cell ∈ tail.head?, cell = none) :
    RunAt (first.map some ++ tail) start run ↔
      (start = 0 ∧ run = first) ∨ ∃ s, start = s + first.length ∧ RunAt tail s run := by
  constructor
  · rintro ⟨hrun, before, after, hcells, rfl, hbefore, hafter⟩
    by_cases hempty : before = []
    · left
      subst hempty
      have hrow := takeWhile_isSome run hafter
      rw [List.nil_append] at hcells
      rw [← hcells, takeWhile_isSome first htail] at hrow
      exact ⟨rfl, (List.map_injective_iff.mpr (Option.some_injective Token) hrow).symm⟩
    · -- what comes before the run ends in a gap, so it goes beyond the first conditions
      right
      rw [List.append_assoc, List.append_eq_append_iff] at hcells
      rcases hcells with ⟨between, rfl, rfl⟩ | ⟨inner, hfirst, _⟩
      · refine ⟨between.length, by simp [Nat.add_comm], hrun, between, after, by simp, rfl, ?_,
          hafter⟩
        intro cell hcell
        apply hbefore
        rw [List.getLast?_append, Option.mem_def.mp hcell]
        rfl
      · have hgap : before.getLast hempty = none :=
          hbefore _ (List.getLast?_eq_some_getLast hempty)
        have hmem : before.getLast hempty ∈ first.map some :=
          hfirst ▸ List.mem_append_left _ (List.getLast_mem hempty)
        simp [hgap] at hmem
  · rintro (⟨rfl, rfl⟩ | ⟨s, rfl, hrun, before, after, rfl, rfl, hbefore, hafter⟩)
    · exact ⟨hfirst, [], tail, by simp, rfl, by simp, htail⟩
    · refine ⟨hrun, first.map some ++ before, after, by simp, by simp [Nat.add_comm], ?_, hafter⟩
      cases before with
      | nil =>
        obtain ⟨token, rest, rfl⟩ := List.exists_cons_of_ne_nil hrun
        simp at htail
      | cons cell before =>
        rwa [List.getLast?_append_of_ne_nil _ (List.cons_ne_nil _ _)]

theorem mem_map_shift {placed : List (Nat × List Token)} {n start : Nat} :
    (start, run) ∈ placed.map (fun p => (p.1 + n, p.2)) ↔
      ∃ s, start = s + n ∧ (s, run) ∈ placed := by
  constructor
  · intro h
    obtain ⟨⟨s, run⟩, hmem, heq⟩ := List.mem_map.mp h
    cases heq
    exact ⟨s, rfl, hmem⟩
  · rintro ⟨s, rfl, hmem⟩
    exact List.mem_map.mpr ⟨_, hmem, rfl⟩

theorem maximalRuns_nil : MaximalRuns [] [] :=
  ⟨[], rfl, .nil, fun start run => by simp [not_runAt_nil]⟩

theorem MaximalRuns.gap (h : MaximalRuns tail found) : MaximalRuns (none :: tail) found := by
  obtain ⟨placed, rfl, hordered, hall⟩ := h
  refine ⟨placed.map fun p => (p.1 + 1, p.2), by simp, ?_, ?_⟩
  · simpa [List.pairwise_map] using hordered
  · intro start run
    simp only [mem_map_shift, runAt_gap, hall]

/-- The conditions in front of a gap or the end are one more run, unless there are none. -/
theorem MaximalRuns.conditions (h : MaximalRuns tail found)
    (htail : ∀ cell ∈ tail.head?, cell = none) (first : List Token) :
    MaximalRuns (first.map some ++ tail) ([first].filter (· ≠ []) ++ found) := by
  by_cases hfirst : first = []
  · simpa [hfirst] using h
  · obtain ⟨placed, rfl, hordered, hall⟩ := h
    refine ⟨(0, first) :: placed.map fun p => (p.1 + first.length, p.2), by simp [hfirst], ?_, ?_⟩
    · have := List.length_pos_iff.mpr hfirst
      refine List.pairwise_cons.mpr ⟨by simp; omega, ?_⟩
      simpa [List.pairwise_map] using hordered
    · intro start run
      simp only [List.mem_cons, Prod.mk.injEq, mem_map_shift, runAt_conditions hfirst htail, hall]

end Runs

def marks (tokens : List Token) : List (Option Token) :=
  tokens.map fun token => if token = [','] then none else some token

/-- What stands between the brackets of a block, with a gap for each comma and each line end. -/
def interior : List (List Token) → List (Option Token)
  | [] => []
  | [tokens] => marks tokens
  | tokens :: next :: body => marks tokens ++ none :: interior (next :: body)

/-- The runs of a line, the first of them begun, and those behind the line. -/
theorem maximalRuns_runsFrom {tail : List (Option Token)} {found : List (List Token)}
    (h : MaximalRuns tail found) (htail : ∀ cell ∈ tail.head?, cell = none)
    (begun tokens : List Token) :
    MaximalRuns (begun.map some ++ (marks tokens ++ tail)) (runsFrom begun tokens ++ found) := by
  induction tokens generalizing begun with
  | nil => exact h.conditions htail begun
  | cons token tokens ih =>
    rw [runsFrom, marks, List.map_cons]
    by_cases hcomma : token = [',']
    · rw [if_pos hcomma, if_pos hcomma, List.append_assoc]
      exact (ih []).gap.conditions (by simp) begun
    · rw [if_neg hcomma, if_neg hcomma]
      simpa [marks] using ih (begun ++ [token])

/-- The runs of a block are those of its lines. -/
theorem maximalRuns_interior (body : List (List Token)) :
    MaximalRuns (interior body) (body.flatMap runs) := by
  induction body with
  | nil => exact maximalRuns_nil
  | cons tokens body ih =>
    rw [List.flatMap_cons, runs_eq_runsFrom]
    cases body with
    | nil => simpa [interior] using maximalRuns_runsFrom maximalRuns_nil (by simp) [] tokens
    | cons next body => exact maximalRuns_runsFrom ih.gap (by simp) [] tokens

end Reading

namespace Vocabulary

open Reading

variable {A M : Type} {V : Vocabulary A M} {text : String} {r : Ruleset A M}

/-- For each block of a text that is read there is one tag of its name. The groups of the tag are,
from left to right, the runs of conditions in the block, and each group has the predicates of its
run in their order. -/
theorem groups_are_maximal_runs (h : (V.read text).outcome = .ok r) :
    (∃ items, Layout 1 (tokenLines text) items) ∧
      ∀ items, Layout 1 (tokenLines text) items → ∀ name body, Item.block name body ∈ items →
        ∃ tag ∈ r.tags, tag.name = String.ofList name ∧
          (∀ other ∈ r.tags, other.name = tag.name → other = tag) ∧
          ∃ found, MaximalRuns (interior body) found ∧
            List.Forall₂ (List.Forall₂ fun token p =>
              V.interpret (fun name => r.tagNames.idxOf name) token = .ok p) found tag.groups := by
  obtain ⟨items, hlayout, _⟩ := exists_items_of_read h
  refine ⟨⟨items, hlayout⟩, fun items hlayout name body hblock => ?_⟩
  obtain ⟨hwell, rfl⟩ := (outcome_read_of_layout V text r hlayout).mp h
  have hopened : String.ofList name ∈ (Item.block name body).mentions :=
    List.mem_append_left _ (List.mem_singleton_self _)
  obtain ⟨tag, hat, hname, hmem⟩ :=
    hwell.tag_at_place text (List.mem_flatMap.mpr ⟨_, hblock, hopened⟩)
  have htag : tag = ⟨String.ofList name, (body.flatMap runs).map
      (V.predicates (place (items.flatMap Item.mentions)))⟩ :=
    hwell.tag_unique hmem (List.mem_filterMap.mpr ⟨_, hblock, rfl⟩) hname
  refine ⟨tag, List.mem_of_getElem? hat, hname, fun other hother heq => ?_, body.flatMap runs,
    maximalRuns_interior body, ?_⟩
  · exact hwell.tag_unique (mem_tags_of_rulesetOf hother) hmem heq
  · rw [hwell.tagNames_eq, htag]
    apply List.forall₂_map_right_iff.mpr
    apply List.forall₂_same.mpr
    intro run hrun
    apply forall₂_predicates
    exact fun token htoken => (hwell.accepted _ hblock).1 token (run_subset hrun htoken)

/-- The block has a blank line, a comment and loose commas. -/
def busyHall : Ruleset String String where
  rules := [⟨1, 6, [.tag 0], [⟨1, "wait"⟩]⟩]
  tags := [⟨"hall", [[.atom "a"], [.atom "b", .not (.tag 0)], [.atom "c"], [.atom "d"]]⟩]
  source := some "hall [ a\n b !%hall\n\n# note ] , x\n, c ,, d ]\n1 %hall -> wait"

def busyLines : List (List Token) :=
  [["a"], ["b", "!%hall"], [], [], [",", "c", ",", ",", "d"]].map (·.map String.toList)

theorem verbatim_reads_busyHall :
    (verbatim.read "hall [ a\n b !%hall\n\n# note ] , x\n, c ,, d ]\n1 %hall -> wait").outcome =
        .ok busyHall ∧
      ∃ tag ∈ busyHall.tags, tag.name = "hall" ∧
        ∃ found, MaximalRuns (interior busyLines) found ∧
          List.Forall₂ (List.Forall₂ fun token p =>
            verbatim.interpret (fun name => busyHall.tagNames.idxOf name) token = .ok p)
            found tag.groups := by
  have hread : (verbatim.read
      "hall [ a\n b !%hall\n\n# note ] , x\n, c ,, d ]\n1 %hall -> wait").outcome =
        .ok busyHall := by
    rfl
  have hcommas : Enclosed ([",", "c", ",", ",", "d", "]"].map String.toList) []
      [[",", "c", ",", ",", "d"].map String.toList] :=
    @Enclosed.closed ([",", "c", ",", ",", "d"].map String.toList) (by decide)
  have hblock : Enclosed ["a".toList]
      (["b !%hall", "", "# note ] , x", ", c ,, d ]"].map fun line => Token.split line.toList)
      busyLines :=
    .further (by decide) (by decide) (.further (by decide) (by decide)
      (.comment (by decide) (by decide) (.further (by decide) (by decide) hcommas)))
  have hrule : Layout 6 [["1", "%hall", "->", "wait"].map String.toList]
      [.rule 6 1 ["%hall".toList] ["wait".toList]] :=
    @Layout.rule 6 "1".toList 1 ["%hall".toList] ["wait".toList] [] [] (by decide) (by decide) .done
  have hlayout : Layout 1
      (tokenLines "hall [ a\n b !%hall\n\n# note ] , x\n, c ,, d ]\n1 %hall -> wait")
      [.block "hall".toList busyLines, .rule 6 1 ["%hall".toList] ["wait".toList]] :=
    .block (by decide) hblock hrule
  obtain ⟨tag, htag, hname, _, found, hfound, hgroups⟩ :=
    (groups_are_maximal_runs hread).2 _ hlayout _ _ List.mem_cons_self
  exact ⟨hread, tag, htag, hname, found, hfound, hgroups⟩

end Vocabulary

end PriorityRules
