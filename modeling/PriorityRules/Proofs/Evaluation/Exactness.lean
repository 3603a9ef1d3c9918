import Mathlib
import PriorityRules.Evaluation
import PriorityRules.Proofs.Evaluation.Meaning

/-! # The decided tags and the stack are exact

An evaluation answers a conjunction exactly when the reading from left to right comes to an end,
and it reports a circular reference exactly when that reading does not. A tag that is decided is
never decided by way of a tag that is still open, so consulting the decided tags changes neither
an answer nor the reported path.
-/

namespace PriorityRules

variable {A M : Type}

def Predicate.Within (n : Nat) : Predicate A → Prop
  | .atom _ => True
  | .compare _ => True
  | .tag id => id < n
  | .not q => q.Within n

def Situation.Closed (S : Situation A) : Prop :=
  ∀ t ∈ S.tags, ∀ g ∈ t.groups, ∀ q ∈ g, q.Within S.tags.length

structure Ruleset.Closed (r : Ruleset A M) : Prop where
  rules : ∀ rule ∈ r.rules, ∀ q ∈ rule.conditions, q.Within r.tags.length
  tags : ∀ t ∈ r.tags, ∀ g ∈ t.groups, ∀ q ∈ g, q.Within r.tags.length

namespace Evaluation

variable {S : Situation A} {stack : List Nat} {p : Progress A}

theorem readOne_not_isSome {tag : Nat → Option Bool} {q : Predicate A} :
    (readOne S tag (.not q)).isSome = (readOne S tag q).isSome := by
  rw [readOne, Option.isSome_map]

theorem reading_all_cons {depth : Nat} {q : Predicate A} {rest : Group A}
    (h : (reading S depth (.all (q :: rest))).isSome) :
    reading S depth (.one q) = some false ∨
      reading S depth (.one q) = some true ∧ (reading S depth (.all rest)).isSome := by
  obtain ⟨truth, htruth⟩ := Option.isSome_iff_exists.mp h
  obtain ⟨first, hfirst, hrest⟩ := Option.bind_eq_some_iff.mp htruth
  cases first with
  | false => exact .inl hfirst
  | true => exact .inr ⟨hfirst, Option.isSome_iff_exists.mpr ⟨truth, hrest⟩⟩

theorem reading_any_cons {depth : Nat} {g : Group A} {rest : List (Group A)}
    (h : (reading S depth (.any (g :: rest))).isSome) :
    reading S depth (.all g) = some true ∨
      reading S depth (.all g) = some false ∧ (reading S depth (.any rest)).isSome := by
  obtain ⟨truth, htruth⟩ := Option.isSome_iff_exists.mp h
  obtain ⟨first, hfirst, hrest⟩ := Option.bind_eq_some_iff.mp htruth
  cases first with
  | true => exact .inl hfirst
  | false => exact .inr ⟨hfirst, Option.isSome_iff_exists.mpr ⟨truth, hrest⟩⟩

theorem reading_eq_of_reads {depth : Nat} {φ : Formula A} {truth other : Bool}
    (h : Reads S φ truth) (h' : reading S depth φ = some other) : other = truth :=
  (reads_iff_reading.mpr ⟨depth, h'⟩).unique h

/-- Reading a conjunction reads its first member, and all others if that one is true. -/
theorem reading_head_of_all {depth : Nat} {q : Predicate A} {rest : Group A}
    (h : (reading S depth (.all (q :: rest))).isSome) : (reading S depth (.one q)).isSome := by
  rcases reading_all_cons h with hfalse | ⟨htrue, -⟩
  · rw [hfalse]
    rfl
  · rw [htrue]
    rfl

theorem reading_tail_of_all {depth : Nat} {q : Predicate A} {rest : Group A}
    (hq : Reads S (.one q) true) (h : (reading S depth (.all (q :: rest))).isSome) :
    (reading S depth (.all rest)).isSome := by
  rcases reading_all_cons h with hfalse | ⟨-, hsome⟩
  · cases reading_eq_of_reads hq hfalse
  · exact hsome

/-- Reading a choice reads its first group, and all others if that one is false. -/
theorem reading_head_of_any {depth : Nat} {g : Group A} {rest : List (Group A)}
    (h : (reading S depth (.any (g :: rest))).isSome) : (reading S depth (.all g)).isSome := by
  rcases reading_any_cons h with htrue | ⟨hfalse, -⟩
  · rw [htrue]
    rfl
  · rw [hfalse]
    rfl

theorem reading_tail_of_any {depth : Nat} {g : Group A} {rest : List (Group A)}
    (hg : Reads S (.all g) false) (h : (reading S depth (.any (g :: rest))).isSome) :
    (reading S depth (.any rest)).isSome := by
  rcases reading_any_cons h with htrue | ⟨-, hsome⟩
  · cases reading_eq_of_reads hg htrue
  · exact hsome

theorem readTag_succ_eq {depth id : Nat} (hid : id < S.tags.length) :
    readTag S (depth + 1) id = reading S depth (.any S.tags[id].groups) := by
  rw [readTag, List.getElem?_eq_getElem hid, Option.bind_some, reading]

/-- What is known about tags is what reading them gives. -/
def Progress.Sound (S : Situation A) (p : Progress A) : Prop :=
  ∀ id truth, p.known.lookup id = some truth → Reads S (.one (.tag id)) truth

theorem Progress.Sound.empty : Progress.Sound S {} := by
  intro id truth h
  cases h

theorem Progress.Sound.visit (h : p.Sound S) (v : Visit A) : (p.visit v).Sound S := h

theorem Progress.Sound.learn {id : Nat} {truth : Bool} (h : p.Sound S)
    (hread : Reads S (.one (.tag id)) truth) : (p.learn id truth).Sound S := by
  intro other found hfound
  rw [Progress.learn, List.lookup_cons] at hfound
  split at hfound
  · rename_i heq
    cases hfound
    rw [eq_of_beq heq]
    exact hread
  · exact h other found hfound

/-- An answer is a reading of the formula. A failure tells that no reading of it ends at a depth
at which none of the tags on the stack is read yet. -/
def Certified (S : Situation A) (stack : List Nat) (φ : Formula A) :
    Except EvaluationFault Bool → Prop
  | .ok truth => Reads S φ truth
  | .error _ => ∀ depth, (reading S depth φ).isSome → ∃ id ∈ stack, (readTag S depth id).isSome

/-- The test says about the formula what is the case, and learns nothing wrong. -/
def Exact (S : Situation A) (stack : List Nat) (φ : Formula A) (t : Test A) : Prop :=
  ∀ p : Progress A, p.Sound S → Certified S stack φ (t p).1 ∧ (t p).2.Sound S

section Exact

variable {tag : Nat → Test A}
  (htag : ∀ id < S.tags.length, Exact S stack (.one (.tag id)) (tag id))
include htag

theorem test_exact {q : Predicate A} (hq : q.Within S.tags.length) :
    Exact S stack (.one q) (test S tag q) := by
  induction q with
  | atom a => exact fun p hp => ⟨Reads.atom a, hp.visit _⟩
  | compare c => exact fun p hp => ⟨Reads.compare c, hp.visit _⟩
  | tag id => exact htag id hq
  | not q ih =>
    intro p hp
    obtain ⟨hcertified, hsound⟩ := ih hq p hp
    rw [test_not]
    refine ⟨?_, hsound⟩
    cases hrun : (test S tag q p).1 with
    | ok truth =>
      rw [hrun] at hcertified
      exact Reads.not hcertified
    | error fault =>
      rw [hrun] at hcertified
      intro depth hdepth
      exact hcertified depth (readOne_not_isSome.symm.trans hdepth)

theorem testAll_exact {members : Group A} (h : ∀ q ∈ members, q.Within S.tags.length)
    (site : Nat → Site) (index : Nat) :
    Exact S stack (.all members) (testAll S tag site index members) := by
  induction members generalizing index with
  | nil => exact fun p hp => ⟨Reads.held, hp⟩
  | cons q rest ih =>
    obtain ⟨hq, hrest⟩ := List.forall_mem_cons.mp h
    intro p hp
    have hfirst := test_exact htag hq _ (hp.visit (.reached (site index)))
    rcases hrun : test S tag q (p.visit (.reached (site index))) with ⟨fault | truth, after⟩ <;>
      rw [hrun] at hfirst
    · rw [testAll_of_error hrun]
      exact ⟨fun depth hdepth => hfirst.1 depth (reading_head_of_all hdepth), hfirst.2⟩
    · cases truth with
      | false =>
        rw [testAll_of_false hrun]
        exact ⟨Reads.failed hfirst.1, hfirst.2⟩
      | true =>
        rw [testAll_of_true hrun]
        obtain ⟨hcertified, hsound⟩ := ih hrest (index + 1) after hfirst.2
        refine ⟨?_, hsound⟩
        cases hlast : (testAll S tag site (index + 1) rest after).1 with
        | ok truth =>
          rw [hlast] at hcertified
          exact Reads.further hfirst.1 hcertified
        | error fault =>
          rw [hlast] at hcertified
          exact fun depth hdepth => hcertified depth (reading_tail_of_all hfirst.1 hdepth)

theorem testAny_exact {groups : List (Group A)}
    (h : ∀ g ∈ groups, ∀ q ∈ g, q.Within S.tags.length) (id index : Nat) :
    Exact S stack (.any groups) (testAny S tag id index groups) := by
  induction groups generalizing index with
  | nil => exact fun p hp => ⟨Reads.exhausted, hp⟩
  | cons g rest ih =>
    obtain ⟨hg, hrest⟩ := List.forall_mem_cons.mp h
    intro p hp
    have hfirst := testAll_exact htag hg (.member id index) 0 p hp
    rcases hrun : testAll S tag (.member id index) 0 g p with ⟨fault | truth, after⟩ <;>
      rw [hrun] at hfirst
    · rw [testAny_of_error hrun]
      exact ⟨fun depth hdepth => hfirst.1 depth (reading_head_of_any hdepth), hfirst.2⟩
    · cases truth with
      | true =>
        rw [testAny_of_true hrun]
        exact ⟨Reads.found hfirst.1, hfirst.2⟩
      | false =>
        rw [testAny_of_false hrun]
        obtain ⟨hcertified, hsound⟩ := ih hrest (index + 1) after hfirst.2
        refine ⟨?_, hsound⟩
        cases hlast : (testAny S tag id (index + 1) rest after).1 with
        | ok truth =>
          rw [hlast] at hcertified
          exact Reads.onward hfirst.1 hcertified
        | error fault =>
          rw [hlast] at hcertified
          exact fun depth hdepth => hcertified depth (reading_tail_of_any hfirst.1 hdepth)

end Exact

/-- If no reading of the groups of a tag ends before that of a tag on the stack or of the tag
itself, then the tag waits for a tag below it. -/
theorem waits_of_groups {id : Nat} (hid : id < S.tags.length)
    (h : ∀ depth, (reading S depth (.any S.tags[id].groups)).isSome →
      ∃ other ∈ id :: stack, (readTag S depth other).isSome)
    {depth : Nat} (hdepth : (readTag S depth id).isSome) :
    ∃ other ∈ stack, (readTag S depth other).isSome := by
  induction depth with
  | zero => cases hdepth
  | succ depth ih =>
    have deeper : (∃ other ∈ stack, (readTag S depth other).isSome) →
        ∃ other ∈ stack, (readTag S (depth + 1) other).isSome := by
      rintro ⟨other, hother, hsome⟩
      obtain ⟨truth, htruth⟩ := Option.isSome_iff_exists.mp hsome
      exact ⟨other, hother, Option.isSome_iff_exists.mpr ⟨truth, readTag_succ htruth⟩⟩
    rw [readTag_succ_eq hid] at hdepth
    obtain ⟨other, hother, hsome⟩ := h depth hdepth
    rcases List.mem_cons.mp hother with rfl | hbelow
    · exact deeper (ih hsome)
    · exact deeper ⟨other, hbelow, hsome⟩

/-- Opening a tag is exact when testing its groups on the longer stack is. -/
theorem settle_exact {id : Nat} (hid : id < S.tags.length) {t : Test A}
    (h : Exact S (id :: stack) (.any S.tags[id].groups) t) :
    Exact S stack (.one (.tag id)) fun p => settle id (t (p.visit (.entered id))) := by
  intro p hp
  have hgroups := h _ (hp.visit (.entered id))
  dsimp only
  rcases hrun : t (p.visit (.entered id)) with ⟨fault | truth, after⟩ <;> rw [hrun] at hgroups
  · exact ⟨fun depth hdepth => waits_of_groups hid hgroups.1 hdepth, hgroups.2⟩
  · have hread : Reads S (.one (.tag id)) truth :=
      .tag (List.getElem?_eq_getElem hid) hgroups.1
    exact ⟨hread, hgroups.2.learn hread⟩

theorem open_exact {id : Nat} (hstack : id ∈ stack) (fault : EvaluationFault) :
    Exact S stack (.one (.tag id)) fun p => (.error fault, p) :=
  fun _ hp => ⟨fun _ hdepth => ⟨id, hstack, hdepth⟩, hp⟩

theorem decideTag_exact (hS : S.Closed) (stack : List Nat) {id : Nat} (hid : id < S.tags.length) :
    Exact S stack (.one (.tag id)) (decideTag S stack id) := by
  intro p hp
  cases hknown : p.known.lookup id with
  | some truth =>
    rw [decideTag_of_known hknown]
    exact ⟨hp id truth hknown, hp⟩
  | none =>
    by_cases hstack : id ∈ stack
    · rw [decideTag_of_open hknown hstack]
      exact open_exact hstack _ p hp
    · rw [decideTag_of_new hknown hstack hid]
      exact settle_exact hid (testAny_exact (fun other hother => decideTag_exact hS _ hother)
        (hS _ (List.getElem_mem hid)) id 0) p hp
termination_by missing S.tags.length stack
decreasing_by exact missing_cons_lt hid hstack

/-- Decide a tag without consulting what is known: the stack is all that guards the test. -/
def decideAfresh (S : Situation A) (stack : List Nat) (id : Nat) : Test A := fun p =>
  if hstack : id ∈ stack then (.error (.circularTag (pathOf S (id :: stack))), p)
  else if hid : id < S.tags.length then
    settle id (testAny S (fun other => decideAfresh S (id :: stack) other) id 0 S.tags[id].groups
      (p.visit (.entered id)))
  else (.ok false, p)
termination_by missing S.tags.length stack
decreasing_by exact missing_cons_lt hid hstack

theorem decideAfresh_of_open {id : Nat} (hstack : id ∈ stack) :
    decideAfresh S stack id p = (.error (.circularTag (pathOf S (id :: stack))), p) := by
  rw [decideAfresh, dif_pos hstack]

theorem decideAfresh_of_new {id : Nat} (hstack : id ∉ stack) (hid : id < S.tags.length) :
    decideAfresh S stack id p =
      settle id (testAny S (decideAfresh S (id :: stack)) id 0 S.tags[id].groups
        (p.visit (.entered id))) := by
  rw [decideAfresh, dif_neg hstack, dif_pos hid]

theorem decideAfresh_exact (hS : S.Closed) (stack : List Nat) {id : Nat}
    (hid : id < S.tags.length) : Exact S stack (.one (.tag id)) (decideAfresh S stack id) := by
  intro p hp
  by_cases hstack : id ∈ stack
  · rw [decideAfresh_of_open hstack]
    exact open_exact hstack _ p hp
  · rw [decideAfresh_of_new hstack hid]
    exact settle_exact hid (testAny_exact (fun other hother => decideAfresh_exact hS _ hother)
      (hS _ (List.getElem_mem hid)) id 0) p hp
termination_by missing S.tags.length stack
decreasing_by exact missing_cons_lt hid hstack

/-- Every tag on the stack waits for the formula: it is read only at depths beyond those at which
the formula is. -/
def Awaited (S : Situation A) (stack : List Nat) (φ : Formula A) : Prop :=
  ∀ id ∈ stack, ∀ depth, (readTag S (depth + 1) id).isSome → (reading S depth φ).isSome

theorem Awaited.nil {φ : Formula A} : Awaited S [] φ := by
  intro id hid
  cases hid

theorem Awaited.of_not {q : Predicate A} (h : Awaited S stack (.one (.not q))) :
    Awaited S stack (.one q) :=
  fun id hid depth hdepth => readOne_not_isSome.symm.trans (h id hid depth hdepth)

theorem Awaited.head {q : Predicate A} {rest : Group A} (h : Awaited S stack (.all (q :: rest))) :
    Awaited S stack (.one q) :=
  fun id hid depth hdepth => reading_head_of_all (h id hid depth hdepth)

theorem Awaited.tail {q : Predicate A} {rest : Group A} (h : Awaited S stack (.all (q :: rest)))
    (hq : Reads S (.one q) true) : Awaited S stack (.all rest) :=
  fun id hid depth hdepth => reading_tail_of_all hq (h id hid depth hdepth)

theorem Awaited.group {g : Group A} {rest : List (Group A)}
    (h : Awaited S stack (.any (g :: rest))) : Awaited S stack (.all g) :=
  fun id hid depth hdepth => reading_head_of_any (h id hid depth hdepth)

theorem Awaited.groups {g : Group A} {rest : List (Group A)}
    (h : Awaited S stack (.any (g :: rest))) (hg : Reads S (.all g) false) :
    Awaited S stack (.any rest) :=
  fun id hid depth hdepth => reading_tail_of_any hg (h id hid depth hdepth)

/-- Once a tag is opened, it waits for its groups, and so do the tags below it. -/
theorem Awaited.opened {id : Nat} (hid : id < S.tags.length)
    (h : Awaited S stack (.one (.tag id))) : Awaited S (id :: stack) (.any S.tags[id].groups) := by
  intro other hother depth hdepth
  rcases List.mem_cons.mp hother with rfl | hbelow
  · rwa [readTag_succ_eq hid] at hdepth
  · have hsome : (readTag S depth id).isSome := h other hbelow depth hdepth
    obtain ⟨truth, htruth⟩ := Option.isSome_iff_exists.mp hsome
    rw [← readTag_succ_eq hid]
    exact Option.isSome_iff_exists.mpr ⟨truth, readTag_succ htruth⟩

/-- No tag on the stack can be read if it waits for a formula that in turn waits for the stack. -/
theorem Awaited.unreadable {φ : Formula A} (h : Awaited S stack φ)
    (hφ : ∀ depth, (reading S depth φ).isSome → ∃ id ∈ stack, (readTag S depth id).isSome)
    (depth : Nat) : (reading S depth φ).isSome = false := by
  -- the least depth at which one of them is read would not be the least
  have none_read : ∀ depth, ∀ id ∈ stack, ¬ (readTag S depth id).isSome := by
    intro depth
    induction depth with
    | zero => exact fun id _ hsome => by cases hsome
    | succ depth ih =>
      intro id hid hsome
      obtain ⟨other, hother, hread⟩ := hφ depth (h id hid depth hsome)
      exact ih other hother hread
  rw [Bool.eq_false_iff]
  intro hsome
  obtain ⟨id, hid, hread⟩ := hφ depth hsome
  exact none_read depth id hid hread

/-- A formula that has a reading and is awaited by the stack gets an answer from every exact
test, and that answer is the reading. -/
theorem Exact.answers {φ : Formula A} {t : Test A} (ht : Exact S stack φ t)
    (hφ : Awaited S stack φ) {truth : Bool} (h : Reads S φ truth) (hp : p.Sound S) :
    (t p).1 = .ok truth := by
  have hcertified := (ht p hp).1
  cases hrun : (t p).1 with
  | ok other =>
    rw [hrun] at hcertified
    exact congrArg Except.ok (Reads.unique hcertified h)
  | error fault =>
    rw [hrun] at hcertified
    obtain ⟨depth, hdepth⟩ := reads_iff_reading.mp h
    have hnone := hφ.unreadable hcertified depth
    rw [hdepth] at hnone
    cases hnone

/-- Two tests give the same answer or the same fault, whatever the second one starts from. -/
def Agree (S : Situation A) (t t' : Test A) : Prop :=
  ∀ p p' : Progress A, p.Sound S → p'.Sound S → (t p).1 = (t' p').1

section Agree

variable {tag tag' : Nat → Test A}
  (htag : ∀ id < S.tags.length, Exact S stack (.one (.tag id)) (tag id))
  (htag' : ∀ id < S.tags.length, Exact S stack (.one (.tag id)) (tag' id))
  (hagree : ∀ id < S.tags.length, Awaited S stack (.one (.tag id)) → Agree S (tag id) (tag' id))

include hagree in
theorem test_agree {q : Predicate A} (hq : q.Within S.tags.length)
    (h : Awaited S stack (.one q)) : Agree S (test S tag q) (test S tag' q) := by
  induction q with
  | atom a => exact fun p p' hp hp' => rfl
  | compare c => exact fun p p' hp hp' => rfl
  | tag id => exact hagree id hq h
  | not q ih =>
    intro p p' hp hp'
    rw [test_not, test_not, ih hq h.of_not p p' hp hp']

include htag htag' hagree

theorem testAll_agree {members : Group A} (hmembers : ∀ q ∈ members, q.Within S.tags.length)
    (h : Awaited S stack (.all members)) (site : Nat → Site) (index : Nat) :
    Agree S (testAll S tag site index members) (testAll S tag' site index members) := by
  induction members generalizing index with
  | nil => exact fun p p' hp hp' => rfl
  | cons q rest ih =>
    obtain ⟨hq, hrest⟩ := List.forall_mem_cons.mp hmembers
    intro p p' hp hp'
    have hp := hp.visit (.reached (site index))
    have hp' := hp'.visit (.reached (site index))
    have hsame := test_agree hagree hq h.head _ _ hp hp'
    have hfirst := test_exact htag hq _ hp
    have hfirst' := test_exact htag' hq _ hp'
    rcases hrun : test S tag q (p.visit (.reached (site index))) with ⟨outcome, after⟩
    rcases hrun' : test S tag' q (p'.visit (.reached (site index))) with ⟨outcome', after'⟩
    rw [hrun, hrun'] at hsame
    obtain rfl : outcome = outcome' := hsame
    rw [hrun] at hfirst
    rw [hrun'] at hfirst'
    match outcome with
    | .error fault => rw [testAll_of_error hrun, testAll_of_error hrun']
    | .ok false => rw [testAll_of_false hrun, testAll_of_false hrun']
    | .ok true =>
      rw [testAll_of_true hrun, testAll_of_true hrun']
      exact ih hrest (h.tail hfirst.1) (index + 1) after after' hfirst.2 hfirst'.2

theorem testAny_agree {groups : List (Group A)}
    (hgroups : ∀ g ∈ groups, ∀ q ∈ g, q.Within S.tags.length)
    (h : Awaited S stack (.any groups)) (id index : Nat) :
    Agree S (testAny S tag id index groups) (testAny S tag' id index groups) := by
  induction groups generalizing index with
  | nil => exact fun p p' hp hp' => rfl
  | cons g rest ih =>
    obtain ⟨hg, hrest⟩ := List.forall_mem_cons.mp hgroups
    intro p p' hp hp'
    have hsame := testAll_agree htag htag' hagree hg h.group (.member id index) 0 p p' hp hp'
    have hfirst := testAll_exact htag hg (.member id index) 0 p hp
    have hfirst' := testAll_exact htag' hg (.member id index) 0 p' hp'
    rcases hrun : testAll S tag (.member id index) 0 g p with ⟨outcome, after⟩
    rcases hrun' : testAll S tag' (.member id index) 0 g p' with ⟨outcome', after'⟩
    rw [hrun, hrun'] at hsame
    obtain rfl : outcome = outcome' := hsame
    rw [hrun] at hfirst
    rw [hrun'] at hfirst'
    match outcome with
    | .error fault => rw [testAny_of_error hrun, testAny_of_error hrun']
    | .ok true => rw [testAny_of_true hrun, testAny_of_true hrun']
    | .ok false =>
      rw [testAny_of_false hrun, testAny_of_false hrun']
      exact ih hrest (h.groups hfirst.1) (index + 1) after after' hfirst.2 hfirst'.2

end Agree

/-- What is decided already may be consulted: no answer and no reported path depends on it. -/
theorem decideTag_agree (hS : S.Closed) (stack : List Nat) {id : Nat} (hid : id < S.tags.length)
    (h : Awaited S stack (.one (.tag id))) :
    Agree S (decideTag S stack id) (decideAfresh S stack id) := by
  intro p p' hp hp'
  cases hknown : p.known.lookup id with
  | some truth =>
    rw [decideTag_of_known hknown]
    exact ((decideAfresh_exact hS stack hid).answers h (hp id truth hknown) hp').symm
  | none =>
    by_cases hstack : id ∈ stack
    · rw [decideTag_of_open hknown hstack, decideAfresh_of_open hstack]
    · rw [decideTag_of_new hknown hstack hid, decideAfresh_of_new hstack hid, settle_fst,
        settle_fst]
      exact testAny_agree (fun other => decideTag_exact hS _) (fun other => decideAfresh_exact hS _)
        (fun other hother hawaited => decideTag_agree hS _ hother hawaited)
        (hS _ (List.getElem_mem hid)) (h.opened hid) id 0 _ _ (hp.visit _) (hp'.visit _)
termination_by missing S.tags.length stack
decreasing_by exact missing_cons_lt hid hstack

/-- What a scan knows about tags, between any two of its rules, is what reading them gives. -/
theorem scan_sound (hS : S.Closed) {rules : List (Rule A M)}
    (hrules : ∀ rule ∈ rules, ∀ q ∈ rule.conditions, q.Within S.tags.length) (index : Nat)
    (d : Decision A M) (hp : p.Sound S) : (scan S index rules d p).2.Sound S := by
  induction rules generalizing index d p with
  | nil => exact hp
  | cons rule rest ih =>
    obtain ⟨hrule, hrest⟩ := List.forall_mem_cons.mp hrules
    have htest := (testAll_exact (fun _ => decideTag_exact hS []) hrule (.condition index) 0 p hp).2
    rw [scan]
    split
    · split
      · rename_i hrun
        rwa [hrun] at htest
      · rename_i hrun
        rw [hrun] at htest
        exact ih hrest _ _ htest
      · rename_i hrun
        rw [hrun] at htest
        dsimp only
        split
        · exact htest
        · exact ih hrest _ _ htest
    · exact ih hrest _ _ hp

/-- At every point of a scan a conjunction is answered exactly when its reading from left to
right ends, with the same answer, and reported as circular exactly when that reading does not
end. The outcome is the one of an evaluation that begins here and consults only its stack. -/
theorem conjunction_answered_iff_reading_ends (r : Ruleset A M) (hr : r.Closed) (slots : Slots)
    (holds : A → Bool) (numbers : List Float) {before after : List (Rule A M)}
    (hrules : r.rules = before ++ after) {d : Decision A M} {p : Progress A}
    (hscan : scan ⟨r.tags, holds, numbers⟩ 0 before ⟨.ofSlots slots, 0⟩ {} = (.ok d, p))
    (conditions : Group A) (hconditions : ∀ q ∈ conditions, q.Within r.tags.length)
    (site : Nat → Site) :
    let S : Situation A := ⟨r.tags, holds, numbers⟩
    let outcome := (testAll S (decideTag S []) site 0 conditions p).1
    (∀ truth, outcome = .ok truth ↔ Reads S (.all conditions) truth) ∧
      ((∃ path, outcome = .error (.circularTag path)) ↔
        ¬ ∃ truth, Reads S (.all conditions) truth) ∧
      outcome = (testAll S (decideAfresh S []) site 0 conditions {}).1 := by
  intro S outcome
  have hS : S.Closed := hr.tags
  have hbefore : ∀ rule ∈ before, ∀ q ∈ rule.conditions, q.Within S.tags.length :=
    fun rule hrule => hr.rules rule (hrules ▸ List.mem_append_left after hrule)
  have hp : p.Sound S := by
    have h := scan_sound hS hbefore 0 ⟨.ofSlots slots, 0⟩ Progress.Sound.empty
    rwa [hscan] at h
  have htag : ∀ id < S.tags.length, Exact S [] (.one (.tag id)) (decideTag S [] id) :=
    fun _ => decideTag_exact hS []
  have htag' : ∀ id < S.tags.length, Exact S [] (.one (.tag id)) (decideAfresh S [] id) :=
    fun _ => decideAfresh_exact hS []
  have hexact := testAll_exact htag hconditions site 0
  have hanswer : ∀ truth, Reads S (.all conditions) truth → outcome = .ok truth :=
    fun truth h => hexact.answers Awaited.nil h hp
  have hread : ∀ truth, outcome = .ok truth → Reads S (.all conditions) truth := by
    intro truth h
    have hcertified := (hexact p hp).1
    rwa [show (testAll S (decideTag S []) site 0 conditions p).1 = .ok truth from h]
      at hcertified
  refine ⟨fun truth => ⟨hread truth, hanswer truth⟩, ⟨?_, ?_⟩, ?_⟩
  · rintro ⟨path, hpath⟩ ⟨truth, htruth⟩
    rw [hanswer truth htruth] at hpath
    cases hpath
  · intro hnone
    cases hrun : outcome with
    | ok truth => exact absurd ⟨truth, hread truth hrun⟩ hnone
    | error fault =>
      cases fault with
      | circularTag path => exact ⟨path, rfl⟩
  · exact testAll_agree htag htag' (fun _ => decideTag_agree hS []) hconditions Awaited.nil site 0
      p {} hp Progress.Sound.empty

/-- The first rule decides the tag `calm`, whose second group would run into `loop`. -/
def hiddenLoop : Ruleset Bool Unit where
  rules := [⟨2, 1, [.not (.tag 1)], [⟨0, ()⟩]⟩, ⟨1, 2, [.tag 0], [⟨0, ()⟩]⟩]
  tags := [⟨"loop", [[.tag 1, .not (.tag 0)]]⟩, ⟨"calm", [[.atom true], [.tag 0]]⟩]
  source := none

theorem hiddenLoop_unanswered :
    let S : Situation Bool := ⟨hiddenLoop.tags, id, []⟩
    let p : Progress Bool := ⟨[(1, true)], [.asked (.atom true) true, .reached (.member 1 0 0),
      .entered 1, .reached (.condition 0 0)]⟩
    hiddenLoop.Closed ∧
      scan S 0 (hiddenLoop.rules.take 1) ⟨.ofSlots ⟨[0], by simp⟩, 0⟩ {} =
        (.ok ⟨.ofSlots ⟨[0], by simp⟩, 1⟩, p) ∧
      (testAll S (decideTag S []) (.condition 1) 0 [.tag 0] p).1 =
        .error (.circularTag ["loop", "loop"]) ∧
      ¬ ∃ truth, Reads S (.all [.tag 0]) truth := by
  intro S p
  have hclosed : hiddenLoop.Closed :=
    ⟨by simp [hiddenLoop, Predicate.Within], by simp [hiddenLoop, Predicate.Within]⟩
  have hscan : scan S 0 (hiddenLoop.rules.take 1) ⟨.ofSlots ⟨[0], by simp⟩, 0⟩ {} =
      (.ok ⟨.ofSlots ⟨[0], by simp⟩, 1⟩, p) := by cbv
  have hrun : (testAll S (decideTag S []) (.condition 1) 0 [.tag 0] p).1 =
      .error (.circularTag ["loop", "loop"]) := by cbv
  have h := conjunction_answered_iff_reading_ends hiddenLoop hclosed ⟨[0], by simp⟩ id []
    (List.take_append_drop 1 hiddenLoop.rules).symm hscan [.tag 0]
    (by simp [hiddenLoop, Predicate.Within]) (.condition 1)
  exact ⟨hclosed, hscan, hrun, h.2.1.mp ⟨_, hrun⟩⟩

end Evaluation

end PriorityRules
