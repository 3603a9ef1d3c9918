import Mathlib.Data.List.Forall2
import PriorityRules.Evaluation

/-! # Tags under other numbers

Predicates refer to tags by number. Where the tags of one situation stand under other numbers in
another one, and the predicates refer to them there, every test goes the same way: the same
questions are asked in the same order, with the same outcome. So does every scan of rules that
differ in these numbers, whatever lines the rules are on.
-/

namespace PriorityRules

variable {A M : Type} {σ : Nat → Nat}

def Predicate.rename (σ : Nat → Nat) : Predicate A → Predicate A
  | .atom a => .atom a
  | .not q => .not (q.rename σ)
  | .tag id => .tag (σ id)
  | .compare c => .compare c

def Group.rename (σ : Nat → Nat) (g : Group A) : Group A := g.map (Predicate.rename σ)

def Tag.rename (σ : Nat → Nat) (t : Tag A) : Tag A :=
  { t with groups := t.groups.map (Group.rename σ) }

def Rule.rename (σ : Nat → Nat) (rule : Rule A M) : Rule A M :=
  { rule with conditions := Group.rename σ rule.conditions }

def Rule.unnumbered (rule : Rule A M) : Rule A M := { rule with line := 0 }

theorem Rule.eq_of_unnumbered {rule rule' : Rule A M}
    (h : rule'.unnumbered = (rule.rename σ).unnumbered) :
    rule'.level = rule.level ∧ rule'.conditions = Group.rename σ rule.conditions ∧
      rule'.effects = rule.effects := by
  simpa [unnumbered, rename] using h

/-- The tags of `S` stand in `S'` under the numbers that `σ` gives, and nowhere else does `σ` lead
to a tag of `S'`. All else is the same. -/
structure Situation.Embeds (σ : Nat → Nat) (S S' : Situation A) : Prop where
  injective : σ.Injective
  tags : ∀ id, S'.tags[σ id]? = S.tags[id]?.map (Tag.rename σ)
  holds : S'.holds = S.holds
  numbers : S'.numbers = S.numbers

namespace Evaluation

def Site.rename (σ : Nat → Nat) : Site → Site
  | .condition rule index => .condition rule index
  | .member tag group index => .member (σ tag) group index

def Visit.rename (σ : Nat → Nat) : Visit A → Visit A
  | .entered tag => .entered (σ tag)
  | .reached site => .reached (site.rename σ)
  | .asked question answer => .asked question answer

namespace Progress

def rename (σ : Nat → Nat) (p : Progress A) : Progress A :=
  ⟨p.known.map (Prod.map σ id), p.trail.map (Visit.rename σ)⟩

variable {p : Progress A}

theorem visit_rename {v : Visit A} : (p.visit v).rename σ = (p.rename σ).visit (v.rename σ) := rfl

theorem lookup_rename (hσ : σ.Injective) (id : Nat) :
    (p.rename σ).known.lookup (σ id) = p.known.lookup id := by
  obtain ⟨known, trail⟩ := p
  simp only [rename]
  induction known with
  | nil => rfl
  | cons entry rest ih =>
    rw [List.map_cons, List.lookup_cons, List.lookup_cons, ih]
    simp only [Prod.map_fst, Prod.map_snd, id_eq, beq_eq_decide, hσ.eq_iff]

/-- No question depends on the numbers of the tags. -/
theorem answers_rename : (p.rename σ).answers = p.answers := by
  simp only [answers, rename, ← List.map_reverse, List.filterMap_map]
  congr 1
  funext v
  cases v <;> rfl

end Progress

/-- The second test does under other numbers what the first one does. -/
def Mirrors (σ : Nat → Nat) (t t' : Test A) : Prop :=
  ∀ p, t' (p.rename σ) = ((t p).1, (t p).2.rename σ)

theorem settle_rename (id : Nat) (run : Except EvaluationFault Bool × Progress A) :
    settle (σ id) (run.1, run.2.rename σ) = ((settle id run).1, (settle id run).2.rename σ) := by
  rcases run with ⟨fault | truth, after⟩ <;> rfl

section Tests

variable {S S' : Situation A} (h : S.Embeds σ S')
include h

theorem pathOf_rename (stack : List Nat) : pathOf S' (stack.map σ) = pathOf S stack := by
  simp only [pathOf, ← List.map_reverse, List.map_map]
  apply List.map_congr_left
  intro id _
  simp only [Function.comp_apply, h.tags, Option.map_map]
  rfl

section Compound

variable {tag tag' : Nat → Test A} (htag : ∀ id, Mirrors σ (tag id) (tag' (σ id)))
include htag

theorem test_mirrors (q : Predicate A) :
    Mirrors σ (test S tag q) (test S' tag' (q.rename σ)) := by
  induction q with
  | atom a =>
    intro p
    simp only [test, Predicate.rename, ask, h.holds]
    rfl
  | compare c =>
    intro p
    simp only [test, Predicate.rename, ask, h.numbers]
    rfl
  | tag id => exact htag id
  | not q ih =>
    intro p
    rw [Predicate.rename, test_not, test_not, ih p]

theorem testAll_mirrors (site : Nat → Site) (index : Nat) (members : Group A) :
    Mirrors σ (testAll S tag site index members)
      (testAll S' tag' (fun i => (site i).rename σ) index (Group.rename σ members)) := by
  induction members generalizing index with
  | nil => exact fun _ => rfl
  | cons q rest ih =>
    intro p
    have hfirst := test_mirrors h htag q (p.visit (.reached (site index)))
    rw [Progress.visit_rename] at hfirst
    rcases hrun : test S tag q (p.visit (.reached (site index))) with ⟨fault | truth, after⟩ <;>
      rw [hrun] at hfirst
    · rw [testAll_of_error hrun]
      exact testAll_of_error hfirst
    · cases truth with
      | false =>
        rw [testAll_of_false hrun]
        exact testAll_of_false hfirst
      | true =>
        rw [testAll_of_true hrun, ← ih (index + 1) after]
        exact testAll_of_true hfirst

theorem testAny_mirrors (id group : Nat) (groups : List (Group A)) :
    Mirrors σ (testAny S tag id group groups)
      (testAny S' tag' (σ id) group (groups.map (Group.rename σ))) := by
  induction groups generalizing group with
  | nil => exact fun _ => rfl
  | cons members rest ih =>
    intro p
    have hfirst := testAll_mirrors h htag (.member id group) 0 members p
    rcases hrun : testAll S tag (.member id group) 0 members p with ⟨fault | truth, after⟩ <;>
      rw [hrun] at hfirst
    · rw [testAny_of_error hrun]
      exact testAny_of_error hfirst
    · cases truth with
      | true =>
        rw [testAny_of_true hrun]
        exact testAny_of_true hfirst
      | false =>
        rw [testAny_of_false hrun, ← ih (group + 1) after]
        exact testAny_of_false hfirst

end Compound

theorem decideTag_mirrors (stack : List Nat) (id : Nat) :
    Mirrors σ (decideTag S stack id) (decideTag S' (stack.map σ) (σ id)) := by
  intro p
  have hlookup := p.lookup_rename h.injective id
  cases hknown : p.known.lookup id with
  | some truth => rw [decideTag_of_known hknown, decideTag_of_known (hlookup.trans hknown)]
  | none =>
    rw [hknown] at hlookup
    by_cases hstack : id ∈ stack
    · rw [decideTag_of_open hknown hstack,
        decideTag_of_open hlookup (List.mem_map_of_mem hstack), ← List.map_cons, pathOf_rename h]
    · have hstack' : σ id ∉ stack.map σ := by simpa [h.injective.eq_iff] using hstack
      have htag := h.tags id
      by_cases hid : id < S.tags.length
      · rw [List.getElem?_eq_getElem hid, Option.map_some, List.getElem?_eq_some_iff] at htag
        obtain ⟨hid', htag⟩ := htag
        have hgroups := testAny_mirrors h (fun other => decideTag_mirrors (id :: stack) other) id 0
          S.tags[id].groups (p.visit (.entered id))
        rw [Progress.visit_rename, List.map_cons] at hgroups
        rw [decideTag_of_new hknown hstack hid, decideTag_of_new hlookup hstack' hid', htag,
          ← settle_rename, ← hgroups]
        rfl
      · rw [List.getElem?_eq_none (Nat.le_of_not_lt hid), Option.map_none,
          List.getElem?_eq_none_iff] at htag
        rw [decideTag_of_absent hknown hstack hid,
          decideTag_of_absent hlookup hstack' (Nat.not_lt_of_le htag)]
termination_by missing S.tags.length stack
decreasing_by exact missing_cons_lt hid hstack

end Tests

def Cell.filling (cell : Cell A M) : Int × Option (Int × Effect M) :=
  (cell.slot, cell.winner.map fun w => (w.rule.level, w.effect))

namespace Board

def fillings (board : Board A M) : List (Int × Option (Int × Effect M)) := board.map Cell.filling

variable {board board' : Board A M} {rule rule' : Rule A M}

theorem wants_congr (h : board'.fillings = board.fillings)
    (heffects : rule'.effects = rule.effects) : board'.wants rule' = board.wants rule := by
  have hopen : ∀ (b : Board A M) slot,
      b.isOpen slot = b.fillings.any fun (s, w) => s = slot && w.isNone := by
    intro b slot
    simp only [isOpen, fillings, List.any_map, Function.comp_def, Cell.filling, Option.isNone_map]
    rfl
  simp only [wants, heffects, hopen, h]

theorem isFull_congr (h : board'.fillings = board.fillings) : board'.isFull = board.isFull := by
  have hfull : ∀ b : Board A M, b.isFull = b.fillings.all fun (_, w) => w.isSome := by
    intro b
    simp [isFull, fillings, Cell.filling, List.all_map, Function.comp_def]
  rw [hfull, hfull, h]

theorem fillings_claim (board : Board A M) (rule : Rule A M) :
    (board.claim rule).fillings = board.fillings.map fun (slot, w) =>
      (slot, w.or ((rule.effects.find? (·.slot = slot)).map fun e => (rule.level, e))) := by
  simp only [claim, fillings, List.map_map]
  apply List.map_congr_left
  rintro ⟨slot, _ | w⟩ _
  · simp [Cell.filling, Function.comp_def]
    rfl
  · rfl

theorem apply_congr {C : Type} (h : board'.fillings = board.fillings) (perform : M → C → C)
    (context : C) : board'.apply perform context = board.apply perform context := by
  have happly : ∀ b : Board A M, b.apply perform context =
      (b.fillings.filterMap (·.2)).foldl (fun c filling => perform filling.2.change c) context := by
    intro b
    simp only [apply, fillings, Cell.filling, List.filterMap_map, Function.comp_def]
    rw [← List.map_filterMap, List.foldl_map]
  rw [happly, happly, h]

end Board

def Decision.outcome (d : Decision A M) : List (Int × Option (Int × Effect M)) × Nat :=
  (d.board.fillings, d.examined)

/-- The rules do the same, up to the numbers of tags. -/
def MirrorRules (σ : Nat → Nat) (rules rules' : List (Rule A M)) : Prop :=
  rules'.map Rule.unnumbered = (rules.map (Rule.rename σ)).map Rule.unnumbered

/-- Scans of rules that do the same show the same, and go the same way. -/
theorem scan_mirrors {S S' : Situation A} (h : S.Embeds σ S') {rules rules' : List (Rule A M)}
    (hrules : MirrorRules σ rules rules') (index : Nat) {d d' : Decision A M}
    (hboard : d'.board.fillings = d.board.fillings) (hexamined : d'.examined = d.examined)
    (p : Progress A) :
    (scan S' index rules' d' (p.rename σ)).1.map Decision.outcome =
        (scan S index rules d p).1.map Decision.outcome ∧
      (scan S' index rules' d' (p.rename σ)).2 = (scan S index rules d p).2.rename σ := by
  induction rules generalizing rules' index d d' p with
  | nil =>
    obtain rfl : rules' = [] := List.map_eq_nil_iff.mp hrules
    exact ⟨congrArg Except.ok (Prod.ext hboard hexamined), rfl⟩
  | cons rule rest ih =>
    cases rules' with
    | nil => cases hrules
    | cons rule' rest' =>
      obtain ⟨hrule, hrest⟩ := List.cons.inj hrules
      obtain ⟨hlevel, hconditions, heffects⟩ := Rule.eq_of_unnumbered hrule
      have htest :=
        testAll_mirrors h (decideTag_mirrors h []) (.condition index) 0 rule.conditions p
      rw [← hconditions] at htest
      change testAll S' (decideTag S' []) (.condition index) 0 rule'.conditions (p.rename σ) = _
        at htest
      have hclaim : (d'.board.claim rule').fillings = (d.board.claim rule).fillings := by
        simp only [Board.fillings_claim, hboard, hlevel, heffects]
      simp only [scan, Board.wants_congr hboard heffects, htest, hexamined]
      split
      · rcases testAll S (decideTag S []) (.condition index) 0 rule.conditions p with
          ⟨fault | truth, after⟩
        · exact ⟨rfl, rfl⟩
        · cases truth with
          | false =>
            dsimp only
            apply ih hrest
            · exact hboard
            · rfl
          | true =>
            simp only [Board.isFull_congr hclaim]
            split
            · exact ⟨congrArg Except.ok (Prod.ext hclaim rfl), rfl⟩
            · apply ih hrest
              · exact hclaim
              · rfl
      · exact ih hrest (index + 1) hboard hexamined p

def withoutLines (report : Report) : List (Int × Int) × Nat :=
  (report.verdicts.map fun v => (v.slot, v.level), report.examined)

theorem report_congr {d d' : Decision A M} (h : d'.outcome = d.outcome) :
    withoutLines d'.report = withoutLines d.report := by
  have hreport : ∀ d : Decision A M, withoutLines d.report =
      (d.outcome.1.filterMap fun (slot, w) => w.map fun (level, _) => (slot, level),
        d.outcome.2) := by
    intro d
    simp only [withoutLines, Decision.report, Decision.outcome, Board.fillings, Cell.filling,
      List.map_filterMap, List.filterMap_map, Option.map_map, Function.comp_def]
  rw [hreport, hreport, h]

end Evaluation

/-- The tags stand under the numbers that `σ` gives, and the rules may be on other lines. -/
structure Ruleset.Mirrors (σ : Nat → Nat) (r r' : Ruleset A M) : Prop where
  injective : σ.Injective
  tags : ∀ id, r'.tags[σ id]? = r.tags[id]?.map (Tag.rename σ)
  rules : Evaluation.MirrorRules σ r.rules r'.rules

theorem Ruleset.Mirrors.size_eq {r r' : Ruleset A M} (h : r.Mirrors σ r') : r'.size = r.size := by
  simpa [Ruleset.size] using congrArg List.length h.rules

/-- Neither the numbers of the tags nor the lines of the rules bear on an evaluation. -/
theorem Ruleset.Mirrors.evaluate {r r' : Ruleset A M} (h : r.Mirrors σ r') (slots : Slots)
    (holds : A → Bool) (numbers : List Float) :
    (r'.evaluate slots holds numbers).1.map Evaluation.Decision.outcome =
        (r.evaluate slots holds numbers).1.map Evaluation.Decision.outcome ∧
      (r'.evaluate slots holds numbers).2 = (r.evaluate slots holds numbers).2.rename σ := by
  have hembeds : Situation.Embeds σ ⟨r.tags, holds, numbers⟩ ⟨r'.tags, holds, numbers⟩ :=
    ⟨h.injective, h.tags, rfl, rfl⟩
  exact Evaluation.scan_mirrors hembeds h.rules 0 rfl rfl {}

end PriorityRules
