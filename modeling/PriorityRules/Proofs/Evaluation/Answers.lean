import PriorityRules.Evaluation

/-! # What an evaluation learns of its context

An evaluation knows of its context only the answers to the questions that it asks. In another
context that gives the same answers to these questions it takes the same way: at each step the two
have the same progress, so that they put the same question next. Nothing is asked of the answers
to other questions.
-/

namespace PriorityRules

variable {A M : Type}

namespace Evaluation

def Question.answer (holds : A → Bool) (numbers : List Float) : Question A → Bool
  | .atom a => holds a
  | .comparison c => c.holds numbers

namespace Progress

variable {S : Situation A} {p after : Progress A}

def AgreesWith (p : Progress A) (S : Situation A) : Prop :=
  ∀ question answer, .asked question answer ∈ p.trail →
    question.answer S.holds S.numbers = answer

theorem AgreesWith.before (h : after.AgreesWith S) (htrail : p.trail <:+ after.trail) :
    p.AgreesWith S :=
  fun question answer hasked => h question answer (htrail.subset hasked)

theorem mem_answers {question : Question A} {answer : Bool} :
    (question, answer) ∈ p.answers ↔ .asked question answer ∈ p.trail := by
  simp only [answers, List.mem_filterMap, List.mem_reverse]
  constructor
  · rintro ⟨v, hv, heq⟩
    cases v <;> simp_all
  · intro hasked
    exact ⟨_, hasked, rfl⟩

end Progress

/-- The first test extends the trail. If the situation gives all the answers on it, the second test
does the same. -/
def Follows (S' : Situation A) (t t' : Test A) : Prop :=
  ∀ p : Progress A, p.trail <:+ (t p).2.trail ∧ ((t p).2.AgreesWith S' → t' p = t p)

section Tests

variable {S S' : Situation A} {tag tag' : Nat → Test A}

theorem ask_follows (question : Question A) :
    Follows S' (ask question (question.answer S.holds S.numbers))
      (ask question (question.answer S'.holds S'.numbers)) := by
  intro p
  refine ⟨List.suffix_cons _ _, fun hagrees => ?_⟩
  rw [hagrees question _ List.mem_cons_self]

section Compound

variable (htag : ∀ id, Follows S' (tag id) (tag' id))
include htag

theorem test_follows (q : Predicate A) : Follows S' (test S tag q) (test S' tag' q) := by
  induction q with
  | atom a => exact ask_follows (.atom a)
  | compare c => exact ask_follows (.comparison c)
  | tag id => exact htag id
  | not q ih =>
    intro p
    obtain ⟨htrail, hsame⟩ := ih p
    refine ⟨htrail, fun hagrees => ?_⟩
    rw [test_not, test_not, hsame hagrees]

theorem testAll_follows (site : Nat → Site) (index : Nat) (members : Group A) :
    Follows S' (testAll S tag site index members) (testAll S' tag' site index members) := by
  induction members generalizing index with
  | nil => exact fun _ => ⟨List.suffix_rfl, fun _ => rfl⟩
  | cons q rest ih =>
    intro p
    obtain ⟨htrail, hsame⟩ := test_follows htag q (p.visit (.reached (site index)))
    have hstart : p.trail <:+ (test S tag q (p.visit (.reached (site index)))).2.trail :=
      (List.suffix_cons _ _).trans htrail
    rcases hrun : test S tag q (p.visit (.reached (site index))) with ⟨fault | _ | _, after⟩ <;>
      rw [hrun] at hstart hsame
    · rw [testAll_of_error hrun]
      exact ⟨hstart, fun hagrees => testAll_of_error (hsame hagrees)⟩
    · rw [testAll_of_false hrun]
      exact ⟨hstart, fun hagrees => testAll_of_false (hsame hagrees)⟩
    · rw [testAll_of_true hrun]
      obtain ⟨hrest, hsameRest⟩ := ih (index + 1) after
      refine ⟨hstart.trans hrest, fun hagrees => ?_⟩
      rw [testAll_of_true (hsame (hagrees.before hrest)), hsameRest hagrees]

theorem testAny_follows (id index : Nat) (groups : List (Group A)) :
    Follows S' (testAny S tag id index groups) (testAny S' tag' id index groups) := by
  induction groups generalizing index with
  | nil => exact fun _ => ⟨List.suffix_rfl, fun _ => rfl⟩
  | cons g rest ih =>
    intro p
    obtain ⟨htrail, hsame⟩ := testAll_follows htag (.member id index) 0 g p
    rcases hrun : testAll S tag (.member id index) 0 g p with ⟨fault | _ | _, after⟩ <;>
      rw [hrun] at htrail hsame
    · rw [testAny_of_error hrun]
      exact ⟨htrail, fun hagrees => testAny_of_error (hsame hagrees)⟩
    · rw [testAny_of_false hrun]
      obtain ⟨hrest, hsameRest⟩ := ih (index + 1) after
      refine ⟨htrail.trans hrest, fun hagrees => ?_⟩
      rw [testAny_of_false (hsame (hagrees.before hrest)), hsameRest hagrees]
    · rw [testAny_of_true hrun]
      exact ⟨htrail, fun hagrees => testAny_of_true (hsame hagrees)⟩

end Compound

theorem settle_follows {id : Nat} {t t' : Test A} (h : Follows S' t t') :
    Follows S' (fun p => settle id (t (p.visit (.entered id))))
      (fun p => settle id (t' (p.visit (.entered id)))) := by
  intro p
  obtain ⟨htrail, hsame⟩ := h (p.visit (.entered id))
  simp only [Progress.AgreesWith, settle_trail] at hsame ⊢
  refine ⟨(List.suffix_cons _ _).trans htrail, fun hagrees => ?_⟩
  rw [hsame hagrees]

theorem decideTag_follows (htags : S'.tags = S.tags) (stack : List Nat) (id : Nat) :
    Follows S' (decideTag S stack id) (decideTag S' stack id) := by
  intro p
  cases hknown : p.known.lookup id with
  | some truth =>
    rw [decideTag_of_known hknown, decideTag_of_known hknown]
    exact ⟨List.suffix_rfl, fun _ => rfl⟩
  | none =>
    by_cases hstack : id ∈ stack
    · rw [decideTag_of_open hknown hstack, decideTag_of_open hknown hstack, pathOf, pathOf, htags]
      exact ⟨List.suffix_rfl, fun _ => rfl⟩
    · by_cases hid : id < S.tags.length
      · have hid' : id < S'.tags.length := htags ▸ hid
        have hgroups := testAny_follows (S := S)
          (fun other => decideTag_follows htags (id :: stack) other) id 0 S.tags[id].groups
        have hsame : S'.tags[id] = S.tags[id] := by simp only [htags]
        rw [decideTag_of_new hknown hstack hid, decideTag_of_new hknown hstack hid', hsame]
        exact settle_follows hgroups p
      · have hid' : ¬id < S'.tags.length := htags ▸ hid
        rw [decideTag_of_absent hknown hstack hid, decideTag_of_absent hknown hstack hid']
        exact ⟨List.suffix_rfl, fun _ => rfl⟩
termination_by missing S.tags.length stack
decreasing_by exact missing_cons_lt hid hstack

theorem scan_follows (htags : S'.tags = S.tags) (index : Nat) (rules : List (Rule A M))
    (d : Decision A M) (p : Progress A) :
    p.trail <:+ (scan S index rules d p).2.trail ∧
      ((scan S index rules d p).2.AgreesWith S' →
        scan S' index rules d p = scan S index rules d p) := by
  induction rules generalizing index d p with
  | nil => exact ⟨List.suffix_rfl, fun _ => rfl⟩
  | cons rule rest ih =>
    obtain ⟨htrail, hsame⟩ := testAll_follows (fun id => decideTag_follows htags [] id)
      (.condition index) 0 rule.conditions p
    rw [scan, scan]
    by_cases hwants : d.board.wants rule = true
    · rw [if_pos hwants, if_pos hwants]
      rcases hrun : testAll S (decideTag S []) (.condition index) 0 rule.conditions p with
        ⟨fault | _ | _, after⟩ <;> rw [hrun] at htrail hsame
      · exact ⟨htrail, fun hagrees => by rw [hsame hagrees]⟩
      · dsimp only
        obtain ⟨hrest, hsameRest⟩ := ih (index + 1) { d with examined := d.examined + 1 } after
        refine ⟨htrail.trans hrest, fun hagrees => ?_⟩
        rw [hsame (hagrees.before hrest)]
        exact hsameRest hagrees
      · dsimp only
        by_cases hfull : (d.board.claim rule).isFull = true
        · rw [if_pos hfull]
          refine ⟨htrail, fun hagrees => ?_⟩
          rw [hsame hagrees]
          exact if_pos hfull
        · rw [if_neg hfull]
          obtain ⟨hrest, hsameRest⟩ :=
            ih (index + 1) ⟨d.board.claim rule, d.examined + 1⟩ after
          refine ⟨htrail.trans hrest, fun hagrees => ?_⟩
          rw [hsame (hagrees.before hrest)]
          exact (if_neg hfull).trans (hsameRest hagrees)
    · rw [if_neg hwants, if_neg hwants]
      exact ih (index + 1) d p

end Tests

/-- If a context answers the questions that an evaluation asked as they were answered, then the
evaluation in this context is the same: it asks the same questions in the same order, fills the
slots by the same rules and effects and examines as many rules, or it fails with the same path. -/
theorem evaluate_eq_of_answers (r : Ruleset A M) (slots : Slots) {holds holds' : A → Bool}
    {numbers numbers' : List Float}
    (h : ∀ question answer, (question, answer) ∈ (r.evaluate slots holds numbers).2.answers →
      question.answer holds' numbers' = answer) :
    r.evaluate slots holds' numbers' = r.evaluate slots holds numbers := by
  have hagrees : (r.evaluate slots holds numbers).2.AgreesWith ⟨r.tags, holds', numbers'⟩ :=
    fun question answer hasked => h question answer (Progress.mem_answers.mpr hasked)
  have htags : (⟨r.tags, holds', numbers'⟩ : Situation A).tags = r.tags := rfl
  exact (scan_follows (S := ⟨r.tags, holds, numbers⟩) htags 0 r.rules _ {}).2 hagrees

/-- The second rule, with the only question about `true`, is not reached when the first one
holds. -/
def ferry : Ruleset Bool String where
  rules := [⟨2, 1, [.tag 0, .compare ⟨1, .differs, 3⟩], [⟨1, "sail"⟩]⟩,
    ⟨1, 2, [.atom true], [⟨1, "wait"⟩]⟩]
  tags := [⟨"calm", [[.atom false], [.not (.atom false)]]⟩]
  source := none

/-- The contexts differ in what holds and in the numbers, of which the first context has none. -/
theorem ferry_evaluated_alike :
    let slots : Slots := ⟨[1], List.pairwise_singleton _ _⟩
    let holds : Bool → Bool := fun _ => false
    (∀ question answer, (question, answer) ∈ (ferry.evaluate slots holds []).2.answers →
      question.answer id [3, 4] = answer) ∧
    (ferry.evaluate slots holds []).2.answers =
      [(.atom false, false), (.atom false, false), (.comparison ⟨1, .differs, 3⟩, true)] ∧
    ferry.evaluate slots id [3, 4] = ferry.evaluate slots holds [] := by
  intro slots holds
  have hmissing : (⟨1, .differs, 3⟩ : Comparison).holds [] = true := by decide
  have hasked : (ferry.evaluate slots holds []).2.answers =
      [(.atom false, false), (.atom false, false), (.comparison ⟨1, .differs, 3⟩, true)] := by
    simp [Ruleset.evaluate, ferry, slots, holds, scan, Board.ofSlots, Board.wants, Board.isOpen,
      Board.claim, Board.isFull, testAll, testAny, test, ask, decideTag, settle, hmissing,
      Except.map, Progress.visit, Progress.learn, Progress.answers]
  have hanswers : ∀ question answer,
      (question, answer) ∈ (ferry.evaluate slots holds []).2.answers →
        question.answer id [3, 4] = answer := by
    rw [hasked]
    intro question answer h
    simp only [List.mem_cons, Prod.mk.injEq, List.not_mem_nil, or_false] at h
    rcases h with ⟨rfl, rfl⟩ | ⟨rfl, rfl⟩ | ⟨rfl, rfl⟩ <;> decide
  exact ⟨hanswers, hasked, evaluate_eq_of_answers ferry slots hanswers⟩

end Evaluation

end PriorityRules
