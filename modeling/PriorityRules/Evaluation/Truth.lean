import PriorityRules.Evaluation.Progress

/-! # The truth of predicates

Conjunctions stop at the first predicate that fails, and a tag at its first group that holds. A
tag is decided at most once in an evaluation. The tags being decided form a stack; a tag that is
met again while it is on the stack cannot be decided, and the evaluation fails.
-/

namespace PriorityRules.Evaluation

variable {A : Type}

/-- A test whose outcome may depend on what the evaluation knows, and may add to it. -/
abbrev Test (A : Type) := Progress A → Except EvaluationFault Bool × Progress A

def ask (question : Question A) (answer : Bool) : Test A := fun p =>
  (.ok answer, p.visit (.asked question answer))

def test (S : Situation A) (tag : Nat → Test A) : Predicate A → Test A
  | .atom a => ask (.atom a) (S.holds a)
  | .compare c => ask (.comparison c) (c.holds S.numbers)
  | .tag id => tag id
  | .not q => fun p =>
    let (truth, p) := test S tag q p
    (truth.map (!·), p)

theorem test_not (S : Situation A) (tag : Nat → Test A) (q : Predicate A) (p : Progress A) :
    test S tag (.not q) p = ((test S tag q p).1.map (!·), (test S tag q p).2) := rfl

/-- Test a conjunction from its member number `index` on; `site` says where its members stand. -/
def testAll (S : Situation A) (tag : Nat → Test A) (site : Nat → Site) :
    Nat → List (Predicate A) → Test A
  | _, [] => fun p => (.ok true, p)
  | index, q :: rest => fun p =>
    match test S tag q (p.visit (.reached (site index))) with
    | (.ok true, p) => testAll S tag site (index + 1) rest p
    | (stopped, p) => (stopped, p)

section testAll

variable {S : Situation A} {tag : Nat → Test A} {site : Nat → Site} {index : Nat}
  {q : Predicate A} {rest : List (Predicate A)} {p after : Progress A}

theorem testAll_of_error {fault : EvaluationFault}
    (h : test S tag q (p.visit (.reached (site index))) = (.error fault, after)) :
    testAll S tag site index (q :: rest) p = (.error fault, after) := by
  simp only [testAll, h]

theorem testAll_of_false (h : test S tag q (p.visit (.reached (site index))) = (.ok false, after)) :
    testAll S tag site index (q :: rest) p = (.ok false, after) := by
  simp only [testAll, h]

theorem testAll_of_true (h : test S tag q (p.visit (.reached (site index))) = (.ok true, after)) :
    testAll S tag site index (q :: rest) p = testAll S tag site (index + 1) rest after := by
  simp only [testAll, h]

end testAll

def testAny (S : Situation A) (tag : Nat → Test A) (id : Nat) : Nat → List (Group A) → Test A
  | _, [] => fun p => (.ok false, p)
  | group, members :: rest => fun p =>
    match testAll S tag (.member id group) 0 members p with
    | (.ok false, p) => testAny S tag id (group + 1) rest p
    | (stopped, p) => (stopped, p)

section testAny

variable {S : Situation A} {tag : Nat → Test A} {id group : Nat} {members : Group A}
  {rest : List (Group A)} {p after : Progress A}

theorem testAny_of_error {fault : EvaluationFault}
    (h : testAll S tag (.member id group) 0 members p = (.error fault, after)) :
    testAny S tag id group (members :: rest) p = (.error fault, after) := by
  simp only [testAny, h]

theorem testAny_of_true (h : testAll S tag (.member id group) 0 members p = (.ok true, after)) :
    testAny S tag id group (members :: rest) p = (.ok true, after) := by
  simp only [testAny, h]

theorem testAny_of_false (h : testAll S tag (.member id group) 0 members p = (.ok false, after)) :
    testAny S tag id group (members :: rest) p = testAny S tag id (group + 1) rest after := by
  simp only [testAny, h]

end testAny

def missing (n : Nat) (stack : List Nat) : Nat := (List.range n).countP (· ∉ stack)

theorem missing_cons_lt {n id : Nat} {stack : List Nat} (hid : id < n) (hstack : id ∉ stack) :
    missing n (id :: stack) < missing n stack := by
  have split : ∀ l : List Nat, l.countP (· ∉ stack) =
      l.countP (· ∉ id :: stack) + l.countP (fun x => x = id && x ∉ stack) := by
    intro l
    induction l with
    | nil => rfl
    | cons x rest ih =>
      simp only [List.countP_cons, ih, List.mem_cons, not_or]
      by_cases hx : x = id <;> by_cases hs : x ∈ stack <;> simp [hx, hs] <;> omega
  have : 0 < (List.range n).countP (fun x => x = id && x ∉ stack) :=
    List.countP_pos_iff.mpr ⟨id, List.mem_range.mpr hid, by simp [hstack]⟩
  unfold missing
  have := split (List.range n)
  omega

/-- The names of the tags on a stack, from its bottom to its top. -/
def pathOf (S : Situation A) (stack : List Nat) : List String :=
  stack.reverse.map fun id => (S.tags[id]?.map (·.name)).getD ""

/-- Keep an answer about a tag; a failure leaves the tag undecided. -/
def settle (id : Nat) : Except EvaluationFault Bool × Progress A →
    Except EvaluationFault Bool × Progress A
  | (.ok truth, p) => (.ok truth, p.learn id truth)
  | (.error fault, p) => (.error fault, p)

@[simp] theorem settle_fst (id : Nat) (run : Except EvaluationFault Bool × Progress A) :
    (settle id run).1 = run.1 := by
  rcases run with ⟨fault | truth, p⟩ <;> rfl

@[simp] theorem settle_trail (id : Nat) (run : Except EvaluationFault Bool × Progress A) :
    (settle id run).2.trail = run.2.trail := by
  rcases run with ⟨fault | truth, p⟩ <;> rfl

/-- Decide a tag while the tags of `stack`, the latest first, are being decided. -/
def decideTag (S : Situation A) (stack : List Nat) (id : Nat) : Test A := fun p =>
  match p.known.lookup id with
  | some truth => (.ok truth, p)
  | none =>
    if hstack : id ∈ stack then (.error (.circularTag (pathOf S (id :: stack))), p)
    else if hid : id < S.tags.length then
      settle id (testAny S (fun other => decideTag S (id :: stack) other) id 0 S.tags[id].groups
        (p.visit (.entered id)))
    else (.ok false, p)
termination_by missing S.tags.length stack
decreasing_by exact missing_cons_lt hid hstack

section decideTag

variable {S : Situation A} {stack : List Nat} {id : Nat} {p : Progress A}

theorem decideTag_of_known {truth : Bool} (h : p.known.lookup id = some truth) :
    decideTag S stack id p = (.ok truth, p) := by
  rw [decideTag, h]

theorem decideTag_of_open (h : p.known.lookup id = none) (hstack : id ∈ stack) :
    decideTag S stack id p = (.error (.circularTag (pathOf S (id :: stack))), p) := by
  rw [decideTag, h]
  simp only [dif_pos hstack]

theorem decideTag_of_new (h : p.known.lookup id = none) (hstack : id ∉ stack)
    (hid : id < S.tags.length) :
    decideTag S stack id p =
      settle id (testAny S (decideTag S (id :: stack)) id 0 S.tags[id].groups
        (p.visit (.entered id))) := by
  rw [decideTag, h]
  simp only [dif_neg hstack, dif_pos hid]

theorem decideTag_of_absent (h : p.known.lookup id = none) (hstack : id ∉ stack)
    (hid : ¬ id < S.tags.length) : decideTag S stack id p = (.ok false, p) := by
  rw [decideTag, h]
  simp only [dif_neg hstack, dif_neg hid]

end decideTag

end PriorityRules.Evaluation
