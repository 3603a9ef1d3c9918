import Mathlib.Logic.Function.Iterate
import PriorityRules.Proofs.Evaluation.References
import PriorityRules.Proofs.Evaluation.Renaming

/-! # Negations that cancel each other

Where every predicate of a ruleset is replaced by one that tests the same, all evaluations go the
same way. A predicate under two negations tests the same as the predicate alone, so that double
negations may be left out everywhere.
-/

namespace PriorityRules

variable {A M : Type}

def Group.amend (g : Predicate A → Predicate A) (group : Group A) : Group A := group.map g

def Tag.amend (g : Predicate A → Predicate A) (tag : Tag A) : Tag A :=
  { tag with groups := tag.groups.map (Group.amend g) }

def Rule.amend (g : Predicate A → Predicate A) (rule : Rule A M) : Rule A M :=
  { rule with conditions := Group.amend g rule.conditions }

def Situation.amend (g : Predicate A → Predicate A) (S : Situation A) : Situation A :=
  { S with tags := S.tags.map (Tag.amend g) }

namespace Evaluation

def Cell.shown (cell : Cell A M) : Int × Option (Int × Nat × Effect M) :=
  (cell.slot, cell.winner.map fun w => (w.rule.level, w.rule.line, w.effect))

def Board.shown (board : Board A M) : List (Int × Option (Int × Nat × Effect M)) :=
  board.map Cell.shown

def Decision.shown (d : Decision A M) : List (Int × Option (Int × Nat × Effect M)) × Nat :=
  (d.board.shown, d.examined)

def Neutral (g : Predicate A → Predicate A) : Prop :=
  ∀ (S : Situation A) (tag : Nat → Test A) (q : Predicate A), test S tag (g q) = test S tag q

section Boards

variable {board board' : Board A M}

theorem fillings_of_shown (board : Board A M) :
    board.fillings = board.shown.map fun (slot, w) =>
      (slot, w.map fun (level, _, effect) => (level, effect)) := by
  simp only [Board.fillings, Board.shown, List.map_map]
  apply List.map_congr_left
  rintro ⟨slot, _ | w⟩ _ <;> rfl

theorem fillings_congr (h : board'.shown = board.shown) : board'.fillings = board.fillings := by
  rw [fillings_of_shown, fillings_of_shown, h]

theorem shown_claim (board : Board A M) (rule : Rule A M) :
    (board.claim rule).shown = board.shown.map fun (slot, w) =>
      (slot, w.or ((rule.effects.find? (·.slot = slot)).map
        fun e => (rule.level, rule.line, e))) := by
  simp only [Board.claim, Board.shown, List.map_map]
  apply List.map_congr_left
  rintro ⟨slot, _ | w⟩ _
  · simp [Cell.shown, Function.comp_def]
    rfl
  · rfl

theorem report_of_shown {d d' : Decision A M} (h : d'.shown = d.shown) : d'.report = d.report := by
  have hreport : ∀ d : Decision A M, d.report =
      ⟨d.shown.1.filterMap fun (slot, w) => w.map fun (level, line, _) => ⟨slot, level, line⟩,
        d.shown.2⟩ := by
    intro d
    simp only [Decision.report, Decision.shown, Board.shown, Cell.shown, List.filterMap_map,
      Option.map_map, Function.comp_def]
  rw [hreport, hreport, h]

end Boards

section Tests

variable {g : Predicate A → Predicate A} (hg : Neutral g) {S : Situation A}
include hg

section Compound

variable {tag : Nat → Test A}

theorem testAll_amend (site : Nat → Site) (index : Nat) (members : Group A) :
    testAll S tag site index (Group.amend g members) = testAll S tag site index members := by
  induction members generalizing index with
  | nil => rfl
  | cons q rest ih =>
    rw [Group.amend] at ih ⊢
    funext p
    rw [List.map_cons, testAll, testAll, hg, ih]

theorem testAny_amend (id group : Nat) (groups : List (Group A)) :
    testAny S tag id group (groups.map (Group.amend g)) = testAny S tag id group groups := by
  induction groups generalizing group with
  | nil => rfl
  | cons members rest ih =>
    funext p
    rw [List.map_cons, testAny, testAny, testAll_amend hg, ih]

end Compound

theorem decideTag_amend (stack : List Nat) (id : Nat) :
    decideTag (S.amend g) stack id = decideTag S stack id := by
  have hlength : (S.amend g).tags.length = S.tags.length := List.length_map _
  funext p
  cases hknown : p.known.lookup id with
  | some truth => rw [decideTag_of_known hknown, decideTag_of_known hknown]
  | none =>
    by_cases hstack : id ∈ stack
    · have hpath : pathOf (S.amend g) (id :: stack) = pathOf S (id :: stack) := by
        simp [pathOf, Situation.amend, Function.comp_def, Tag.amend]
      rw [decideTag_of_open hknown hstack, decideTag_of_open hknown hstack, hpath]
    · by_cases hid : id < S.tags.length
      · have htags : decideTag (S.amend g) (id :: stack) = decideTag S (id :: stack) :=
          funext fun other => decideTag_amend (id :: stack) other
        have hgroups : (S.amend g).tags[id].groups = S.tags[id].groups.map (Group.amend g) := by
          simp [Situation.amend, Tag.amend]
        have hany : testAny (S.amend g) (decideTag S (id :: stack)) id 0 S.tags[id].groups =
            testAny S (decideTag S (id :: stack)) id 0 S.tags[id].groups := by
          refine testAny_congr ?_ ?_ (fun _ _ _ _ _ _ => rfl) id 0
          · rfl
          · rfl
        rw [decideTag_of_new hknown hstack hid, decideTag_of_new hknown hstack (hlength ▸ hid),
          htags, hgroups, testAny_amend hg, hany]
      · rw [decideTag_of_absent hknown hstack hid,
          decideTag_of_absent hknown hstack (hlength ▸ hid)]
termination_by missing S.tags.length stack
decreasing_by exact missing_cons_lt hid hstack

theorem scan_amend (rules : List (Rule A M)) (index : Nat) {d d' : Decision A M}
    (hd : d'.shown = d.shown) (p : Progress A) :
    (scan (S.amend g) index (rules.map (Rule.amend g)) d' p).1.map Decision.shown =
        (scan S index rules d p).1.map Decision.shown ∧
      (scan (S.amend g) index (rules.map (Rule.amend g)) d' p).2 = (scan S index rules d p).2 := by
  induction rules generalizing index d d' p with
  | nil => exact ⟨congrArg Except.ok hd, rfl⟩
  | cons rule rest ih =>
    obtain ⟨hboard, hexamined⟩ := Prod.mk.inj hd
    have htags : decideTag (S.amend g) [] = decideTag S [] :=
      funext fun id => decideTag_amend hg [] id
    have htest : testAll (S.amend g) (decideTag S []) (.condition index) 0 rule.conditions =
        testAll S (decideTag S []) (.condition index) 0 rule.conditions := by
      refine testAll_congr ?_ ?_ (fun _ _ _ _ => rfl) _ _
      · rfl
      · rfl
    have hconditions : (Rule.amend g rule).conditions = Group.amend g rule.conditions := rfl
    have hclaim : (d'.board.claim (rule.amend g)).shown = (d.board.claim rule).shown := by
      rw [shown_claim, shown_claim, hboard]
      rfl
    have hwants : d'.board.wants (rule.amend g) = d.board.wants rule :=
      Board.wants_congr (fillings_congr hboard) rfl
    simp only [List.map_cons, scan, hwants, htags, hconditions, testAll_amend hg, htest]
    split
    · rcases testAll S (decideTag S []) (.condition index) 0 rule.conditions p with
        ⟨fault | truth, after⟩
      · exact ⟨rfl, rfl⟩
      · cases truth with
        | false =>
          have hnext : Decision.shown { d' with examined := d'.examined + 1 } =
              Decision.shown { d with examined := d.examined + 1 } :=
            Prod.ext hboard (congrArg (· + 1) hexamined)
          exact ih (index + 1) hnext after
        | true =>
          have hnext : Decision.shown ⟨d'.board.claim (rule.amend g), d'.examined + 1⟩ =
              Decision.shown ⟨d.board.claim rule, d.examined + 1⟩ :=
            Prod.ext hclaim (congrArg (· + 1) hexamined)
          simp only [Board.isFull_congr (fillings_congr hclaim)]
          split
          · exact ⟨congrArg Except.ok hnext, rfl⟩
          · exact ih (index + 1) hnext after
    · exact ih (index + 1) hd p

end Tests

end Evaluation

/-- Rulesets that become the same when predicates are replaced by ones that test the same show the
same when they are evaluated, and all goes the same way. -/
theorem Ruleset.evaluate_of_amend {g : Predicate A → Predicate A} (hg : Evaluation.Neutral g)
    {r r' : Ruleset A M} (hrules : r'.rules.map (Rule.amend g) = r.rules.map (Rule.amend g))
    (htags : r'.tags.map (Tag.amend g) = r.tags.map (Tag.amend g)) (slots : Slots)
    (holds : A → Bool) (numbers : List Float) :
    (r'.evaluate slots holds numbers).1.map Evaluation.Decision.shown =
        (r.evaluate slots holds numbers).1.map Evaluation.Decision.shown ∧
      (r'.evaluate slots holds numbers).2 = (r.evaluate slots holds numbers).2 := by
  have hscan : ∀ r : Ruleset A M,
      (Evaluation.scan ⟨r.tags.map (Tag.amend g), holds, numbers⟩ 0 (r.rules.map (Rule.amend g))
          ⟨.ofSlots slots, 0⟩ {}).1.map Evaluation.Decision.shown =
        (r.evaluate slots holds numbers).1.map Evaluation.Decision.shown ∧
      (Evaluation.scan ⟨r.tags.map (Tag.amend g), holds, numbers⟩ 0 (r.rules.map (Rule.amend g))
          ⟨.ofSlots slots, 0⟩ {}).2 = (r.evaluate slots holds numbers).2 :=
    fun r => Evaluation.scan_amend hg (S := ⟨r.tags, holds, numbers⟩) r.rules 0 rfl {}
  obtain ⟨hshown, hprogress⟩ := hscan r
  obtain ⟨hshown', hprogress'⟩ := hscan r'
  rw [hrules, htags] at hshown' hprogress'
  exact ⟨hshown'.symm.trans hshown, hprogress'.symm.trans hprogress⟩

/-- Leave out the double negations in front. -/
def Predicate.cancel : Predicate A → Predicate A
  | .not (.not q) => q.cancel
  | q => q

namespace Evaluation

/-- Under so many negations, the outcome of a test is negated as often, and a failure stays one. -/
theorem test_iterate_not (S : Situation A) (tag : Nat → Test A) (k : Nat) (q : Predicate A)
    (p : Progress A) :
    test S tag (Predicate.not^[k] q) p =
      ((test S tag q p).1.map (Bool.not^[k]), (test S tag q p).2) := by
  induction k with
  | zero => simp [Except.map_id]
  | succ k ih =>
    rw [Function.iterate_succ_apply', test_not, ih, Function.iterate_succ']
    cases (test S tag q p).1 <;> rfl

theorem neutral_cancel : Neutral (Predicate.cancel (A := A)) := by
  intro S tag q
  fun_induction Predicate.cancel q with
  | case1 q ih =>
    funext p
    have htwice : test S tag (.not (.not q)) p = _ := test_iterate_not S tag 2 q p
    rw [ih, htwice]
    rcases test S tag q p with ⟨fault | truth, after⟩
    · rfl
    · simp [Except.map]
  | case2 q h => rfl

end Evaluation

end PriorityRules
