import PriorityRules.Proofs.Evaluation.Exactness

/-! # References

A predicate refers to one tag at most. Apart from what holds and the numbers, a test depends on
the tests of those tags only that its predicates refer to, and it fails only where one of these
does.
-/

namespace PriorityRules

variable {A : Type}

def Predicate.target? : Predicate A → Option Nat
  | .atom _ => none
  | .compare _ => none
  | .tag id => some id
  | .not q => q.target?

theorem Predicate.Within.target_lt {q : Predicate A} {n id : Nat} (h : q.Within n)
    (htarget : q.target? = some id) : id < n := by
  induction q with
  | atom a => cases htarget
  | compare c => cases htarget
  | tag other =>
    cases htarget
    exact h
  | not q ih => exact ih h htarget

theorem Predicate.within_of_target {q : Predicate A} {n : Nat} (h : ∀ id ∈ q.target?, id < n) :
    q.Within n := by
  induction q with
  | atom a => trivial
  | compare c => trivial
  | tag id => exact h id rfl
  | not q ih =>
    have hq : q.Within n := ih h
    exact hq

namespace Evaluation

section Congruence

variable {S S' : Situation A} {tag tag' : Nat → Test A} (hholds : S.holds = S'.holds)
  (hnumbers : S.numbers = S'.numbers)
include hholds hnumbers

theorem test_congr {q : Predicate A} (h : ∀ id ∈ q.target?, tag id = tag' id) :
    test S tag q = test S' tag' q := by
  induction q with
  | atom a => rw [test, test, hholds]
  | compare c => rw [test, test, hnumbers]
  | tag id => exact h id rfl
  | not q ih =>
    funext p
    rw [test_not, test_not, ih h]

theorem testAll_congr {members : Group A}
    (h : ∀ q ∈ members, ∀ id ∈ q.target?, tag id = tag' id) (site : Nat → Site) (index : Nat) :
    testAll S tag site index members = testAll S' tag' site index members := by
  induction members generalizing index with
  | nil => rfl
  | cons q rest ih =>
    obtain ⟨hq, hrest⟩ := List.forall_mem_cons.mp h
    funext p
    rw [testAll, testAll, test_congr hholds hnumbers hq, ih hrest]

theorem testAny_congr {groups : List (Group A)}
    (h : ∀ g ∈ groups, ∀ q ∈ g, ∀ id ∈ q.target?, tag id = tag' id) (id index : Nat) :
    testAny S tag id index groups = testAny S' tag' id index groups := by
  induction groups generalizing index with
  | nil => rfl
  | cons g rest ih =>
    obtain ⟨hg, hrest⟩ := List.forall_mem_cons.mp h
    funext p
    rw [testAny, testAny, testAll_congr hholds hnumbers hg, ih hrest]

end Congruence

section Faults

variable {S : Situation A} {tag : Nat → Test A} {p : Progress A} {fault : EvaluationFault}

theorem fault_of_test {q : Predicate A} (h : (test S tag q p).1 = .error fault) :
    ∃ id ∈ q.target?, ∃ p, (tag id p).1 = .error fault := by
  induction q with
  | atom a => cases h
  | compare c => cases h
  | tag id => exact ⟨id, rfl, p, h⟩
  | not q ih =>
    rw [test_not] at h
    cases hrun : (test S tag q p).1 with
    | ok truth =>
      rw [hrun] at h
      cases h
    | error other =>
      rw [hrun] at h
      cases h
      exact ih hrun

theorem fault_of_testAll {members : Group A} {site : Nat → Site} {index : Nat}
    (h : (testAll S tag site index members p).1 = .error fault) :
    ∃ q ∈ members, ∃ id ∈ q.target?, ∃ p, (tag id p).1 = .error fault := by
  induction members generalizing index p with
  | nil => cases h
  | cons q rest ih =>
    rcases hrun : test S tag q (p.visit (.reached (site index))) with ⟨other | _ | _, after⟩
    · rw [testAll_of_error hrun] at h
      cases h
      exact ⟨q, List.mem_cons_self, fault_of_test (congrArg Prod.fst hrun)⟩
    · rw [testAll_of_false hrun] at h
      cases h
    · rw [testAll_of_true hrun] at h
      obtain ⟨other, hother, hfault⟩ := ih h
      exact ⟨other, List.mem_cons_of_mem _ hother, hfault⟩

theorem fault_of_testAny {groups : List (Group A)} {id index : Nat}
    (h : (testAny S tag id index groups p).1 = .error fault) :
    ∃ g ∈ groups, ∃ q ∈ g, ∃ id ∈ q.target?, ∃ p, (tag id p).1 = .error fault := by
  induction groups generalizing index p with
  | nil => cases h
  | cons g rest ih =>
    rcases hrun : testAll S tag (.member id index) 0 g p with ⟨other | _ | _, after⟩
    · rw [testAny_of_error hrun] at h
      cases h
      exact ⟨g, List.mem_cons_self, fault_of_testAll (congrArg Prod.fst hrun)⟩
    · rw [testAny_of_false hrun] at h
      obtain ⟨other, hother, hfault⟩ := ih h
      exact ⟨other, List.mem_cons_of_mem _ hother, hfault⟩
    · rw [testAny_of_true hrun] at h
      cases h

end Faults

end Evaluation

end PriorityRules
