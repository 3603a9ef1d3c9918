import Mathlib.Logic.Relation
import PriorityRules.Proofs.Evaluation.Bounds

/-! # The evaluation step by step

Here the evaluation is a machine that takes one step after the other. What is left to do is kept in
frames; the tags being decided are on one stack, which is pushed and popped, and the decided ones in
one store. The machine comes to the outcome that the tests give, and its stack and its store stay in
order all the way.
-/

namespace PriorityRules.Evaluation

variable {A : Type}

inductive Job (A : Type) where
  | test (q : Predicate A)
  /-- The members of a conjunction, the first of which has the number `index`. -/
  | all (site : Nat → Site) (index : Nat) (members : Group A)
  /-- The groups of a tag, the first of which has the number `group`. -/
  | any (id group : Nat) (groups : List (Group A))
  | tag (id : Nat)

inductive Frame (A : Type) where
  | negation
  | conjunction (site : Nat → Site) (index : Nat) (rest : Group A)
  | disjunction (id group : Nat) (rest : List (Group A))
  | decision (id : Nat)

def Frame.deciding? : Frame A → Option Nat
  | decision id => some id
  | _ => none

inductive Focus (A : Type) where
  | run (job : Job A)
  | done (outcome : Except EvaluationFault Bool)

structure Machine (A : Type) where
  focus : Focus A
  frames : List (Frame A)
  /-- The tags being decided, the latest first. -/
  stack : List Nat
  progress : Progress A

/-- One step. There is none where a look-up by number fails. -/
inductive Step (S : Situation A) : Machine A → Machine A → Prop where
  | atom {a : A} {frames : List (Frame A)} {stack : List Nat} {p : Progress A} :
      Step S ⟨.run (.test (.atom a)), frames, stack, p⟩
        ⟨.done (.ok (S.holds a)), frames, stack, p.visit (.asked (.atom a) (S.holds a))⟩
  | compare {c : Comparison} {frames : List (Frame A)} {stack : List Nat} {p : Progress A} :
      Step S ⟨.run (.test (.compare c)), frames, stack, p⟩
        ⟨.done (.ok (c.holds S.numbers)), frames, stack,
          p.visit (.asked (.comparison c) (c.holds S.numbers))⟩
  | reference {id : Nat} {frames : List (Frame A)} {stack : List Nat} {p : Progress A} :
      Step S ⟨.run (.test (.tag id)), frames, stack, p⟩ ⟨.run (.tag id), frames, stack, p⟩
  | negate {q : Predicate A} {frames : List (Frame A)} {stack : List Nat} {p : Progress A} :
      Step S ⟨.run (.test (.not q)), frames, stack, p⟩
        ⟨.run (.test q), .negation :: frames, stack, p⟩
  | negated {truth : Bool} {frames : List (Frame A)} {stack : List Nat} {p : Progress A} :
      Step S ⟨.done (.ok truth), .negation :: frames, stack, p⟩
        ⟨.done (.ok !truth), frames, stack, p⟩
  | allHold {site : Nat → Site} {index : Nat} {frames : List (Frame A)} {stack : List Nat}
      {p : Progress A} :
      Step S ⟨.run (.all site index []), frames, stack, p⟩ ⟨.done (.ok true), frames, stack, p⟩
  | member {site : Nat → Site} {index : Nat} {q : Predicate A} {rest : Group A}
      {frames : List (Frame A)} {stack : List Nat} {p : Progress A} :
      Step S ⟨.run (.all site index (q :: rest)), frames, stack, p⟩
        ⟨.run (.test q), .conjunction site (index + 1) rest :: frames, stack,
          p.visit (.reached (site index))⟩
  | memberHolds {site : Nat → Site} {index : Nat} {rest : Group A} {frames : List (Frame A)}
      {stack : List Nat} {p : Progress A} :
      Step S ⟨.done (.ok true), .conjunction site index rest :: frames, stack, p⟩
        ⟨.run (.all site index rest), frames, stack, p⟩
  | memberFails {site : Nat → Site} {index : Nat} {rest : Group A} {frames : List (Frame A)}
      {stack : List Nat} {p : Progress A} :
      Step S ⟨.done (.ok false), .conjunction site index rest :: frames, stack, p⟩
        ⟨.done (.ok false), frames, stack, p⟩
  | noneHolds {id group : Nat} {frames : List (Frame A)} {stack : List Nat} {p : Progress A} :
      Step S ⟨.run (.any id group []), frames, stack, p⟩ ⟨.done (.ok false), frames, stack, p⟩
  | group {id group : Nat} {members : Group A} {rest : List (Group A)} {frames : List (Frame A)}
      {stack : List Nat} {p : Progress A} :
      Step S ⟨.run (.any id group (members :: rest)), frames, stack, p⟩
        ⟨.run (.all (.member id group) 0 members), .disjunction id (group + 1) rest :: frames,
          stack, p⟩
  | groupHolds {id group : Nat} {rest : List (Group A)} {frames : List (Frame A)}
      {stack : List Nat} {p : Progress A} :
      Step S ⟨.done (.ok true), .disjunction id group rest :: frames, stack, p⟩
        ⟨.done (.ok true), frames, stack, p⟩
  | groupFails {id group : Nat} {rest : List (Group A)} {frames : List (Frame A)}
      {stack : List Nat} {p : Progress A} :
      Step S ⟨.done (.ok false), .disjunction id group rest :: frames, stack, p⟩
        ⟨.run (.any id group rest), frames, stack, p⟩
  | known {id : Nat} {truth : Bool} {frames : List (Frame A)} {stack : List Nat} {p : Progress A}
      (hid : id < S.tags.length) (hknown : p.known.lookup id = some truth) :
      Step S ⟨.run (.tag id), frames, stack, p⟩ ⟨.done (.ok truth), frames, stack, p⟩
  | circular {id : Nat} {path : List String} {frames : List (Frame A)} {stack : List Nat}
      {p : Progress A} (hid : id < S.tags.length) (hknown : p.known.lookup id = none)
      (hstack : id ∈ stack) (hpath : pathOf? S (id :: stack) = some path) :
      Step S ⟨.run (.tag id), frames, stack, p⟩
        ⟨.done (.error (.circularTag path)), frames, stack, p⟩
  | enter {id : Nat} {frames : List (Frame A)} {stack : List Nat} {p : Progress A}
      (hid : id < S.tags.length) (hknown : p.known.lookup id = none) (hstack : id ∉ stack) :
      Step S ⟨.run (.tag id), frames, stack, p⟩
        ⟨.run (.any id 0 S.tags[id].groups), .decision id :: frames, id :: stack,
          p.visit (.entered id)⟩
  | leave {id : Nat} {truth : Bool} {frames : List (Frame A)} {stack : List Nat}
      {p : Progress A} :
      Step S ⟨.done (.ok truth), .decision id :: frames, stack, p⟩
        ⟨.done (.ok truth), frames, stack.tail, p.learn id truth⟩
  /-- A fault goes through all frames, and nothing is popped. -/
  | unwind {fault : EvaluationFault} {frame : Frame A} {frames : List (Frame A)}
      {stack : List Nat} {p : Progress A} :
      Step S ⟨.done (.error fault), frame :: frames, stack, p⟩
        ⟨.done (.error fault), frames, stack, p⟩

abbrev Reaches (S : Situation A) : Machine A → Machine A → Prop := Relation.ReflTransGen (Step S)

theorem step_unique (S : Situation A) : Relator.RightUnique (Step S) := by
  intro m m' m'' h h'
  -- Only for a tag do different steps begin alike, and there their guards exclude each other.
  cases h <;> cases h' <;> simp_all

namespace Job

def Within (n : Nat) : Job A → Prop
  | test q => q.Within n
  | all _ _ members => ∀ q ∈ members, q.Within n
  | any _ _ groups => ∀ g ∈ groups, ∀ q ∈ g, q.Within n
  | tag id => id < n

/-- What the job comes to while the tags of the stack are being decided. -/
def outcome (S : Situation A) (stack : List Nat) : Job A → Test A
  | test q => Evaluation.test S (decideTag S stack) q
  | all site index members => testAll S (decideTag S stack) site index members
  | any id group groups => testAny S (decideTag S stack) id group groups
  | tag id => decideTag S stack id

end Job

section Returns

variable {S : Situation A} {stack : List Nat} {tag : Nat → Test A}

/-- The machine comes back to the frames with the outcome of the test; unless it is a fault, the
stack is as it was. -/
def Returns (S : Situation A) (stack : List Nat) (job : Job A) (t : Test A) : Prop :=
  ∀ frames p, ∃ stack', Reaches S ⟨.run job, frames, stack, p⟩
      ⟨.done (t p).1, frames, stack', (t p).2⟩ ∧
    ∀ truth, (t p).1 = .ok truth → stack' = stack

section Compound

variable (htag : ∀ id < S.tags.length, Returns S stack (.tag id) (tag id))
include htag

theorem test_returns {q : Predicate A} (hq : q.Within S.tags.length) :
    Returns S stack (.test q) (test S tag q) := by
  induction q with
  | atom a => exact fun frames p => ⟨stack, .single .atom, fun _ _ => rfl⟩
  | compare c => exact fun frames p => ⟨stack, .single .compare, fun _ _ => rfl⟩
  | tag id =>
    intro frames p
    obtain ⟨stack', hrun, hstack⟩ := htag id hq frames p
    exact ⟨stack', .head .reference hrun, hstack⟩
  | not q ih =>
    intro frames p
    obtain ⟨stack', hrun, hstack⟩ := ih hq (.negation :: frames) p
    rcases htest : test S tag q p with ⟨fault | truth, after⟩ <;> rw [htest] at hrun hstack <;>
      rw [test_not, htest]
    · exact ⟨stack', .head .negate (hrun.tail .unwind), nofun⟩
    · obtain rfl := hstack truth rfl
      exact ⟨stack', .head .negate (hrun.tail .negated), fun _ _ => rfl⟩

theorem testAll_returns (site : Nat → Site) (index : Nat) {members : Group A}
    (h : ∀ q ∈ members, q.Within S.tags.length) :
    Returns S stack (.all site index members) (testAll S tag site index members) := by
  induction members generalizing index with
  | nil => exact fun frames p => ⟨stack, .single .allHold, fun _ _ => rfl⟩
  | cons q rest ih =>
    intro frames p
    obtain ⟨hq, hrest⟩ := List.forall_mem_cons.mp h
    obtain ⟨stack', hrun, hstack⟩ := test_returns htag hq
      (.conjunction site (index + 1) rest :: frames) (p.visit (.reached (site index)))
    rcases htest : test S tag q (p.visit (.reached (site index))) with ⟨fault | _ | _, after⟩ <;>
      rw [htest] at hrun hstack
    · rw [testAll_of_error htest]
      exact ⟨stack', .head .member (hrun.tail .unwind), nofun⟩
    · obtain rfl := hstack false rfl
      rw [testAll_of_false htest]
      exact ⟨stack', .head .member (hrun.tail .memberFails), fun _ _ => rfl⟩
    · obtain rfl := hstack true rfl
      obtain ⟨stack'', hnext, hback⟩ := ih (index + 1) hrest frames after
      rw [testAll_of_true htest]
      exact ⟨stack'', .head .member ((hrun.tail .memberHolds).trans hnext), hback⟩

theorem testAny_returns (id group : Nat) {groups : List (Group A)}
    (h : ∀ g ∈ groups, ∀ q ∈ g, q.Within S.tags.length) :
    Returns S stack (.any id group groups) (testAny S tag id group groups) := by
  induction groups generalizing group with
  | nil => exact fun frames p => ⟨stack, .single .noneHolds, fun _ _ => rfl⟩
  | cons members rest ih =>
    intro frames p
    obtain ⟨hmembers, hrest⟩ := List.forall_mem_cons.mp h
    obtain ⟨stack', hrun, hstack⟩ := testAll_returns htag (.member id group) 0 hmembers
      (.disjunction id (group + 1) rest :: frames) p
    rcases htest : testAll S tag (.member id group) 0 members p with ⟨fault | _ | _, after⟩ <;>
      rw [htest] at hrun hstack
    · rw [testAny_of_error htest]
      exact ⟨stack', .head .group (hrun.tail .unwind), nofun⟩
    · obtain rfl := hstack false rfl
      obtain ⟨stack'', hnext, hback⟩ := ih (group + 1) hrest frames after
      rw [testAny_of_false htest]
      exact ⟨stack'', .head .group ((hrun.tail .groupFails).trans hnext), hback⟩
    · obtain rfl := hstack true rfl
      rw [testAny_of_true htest]
      exact ⟨stack', .head .group (hrun.tail .groupHolds), fun _ _ => rfl⟩

end Compound

/-- The machine decides a tag, however the tags refer to each other. -/
theorem decideTag_returns (hS : S.Closed) (stack : List Nat)
    (hstack : ∀ other ∈ stack, other < S.tags.length) {id : Nat} (hid : id < S.tags.length) :
    Returns S stack (.tag id) (decideTag S stack id) := by
  intro frames p
  have hpush : ∀ other ∈ id :: stack, other < S.tags.length :=
    List.forall_mem_cons.mpr ⟨hid, hstack⟩
  cases hknown : p.known.lookup id with
  | some truth =>
    rw [decideTag_of_known hknown]
    exact ⟨stack, .single (.known hid hknown), fun _ _ => rfl⟩
  | none =>
    by_cases hopen : id ∈ stack
    · rw [decideTag_of_open hknown hopen]
      exact ⟨stack, .single (.circular hid hknown hopen (pathOf?_eq hpush)), nofun⟩
    · -- once the tag is on the stack, there are fewer tags that may still be entered
      obtain ⟨stack', hrun, hback⟩ := testAny_returns
        (fun other hother => decideTag_returns hS (id :: stack) hpush hother) id 0
        (hS _ (List.getElem_mem hid)) (.decision id :: frames) (p.visit (.entered id))
      rw [decideTag_of_new hknown hopen hid]
      rcases htest : testAny S (decideTag S (id :: stack)) id 0 S.tags[id].groups
        (p.visit (.entered id)) with ⟨fault | truth, after⟩ <;> rw [htest] at hrun hback
      · exact ⟨stack', .head (.enter hid hknown hopen) (hrun.tail .unwind), nofun⟩
      · obtain rfl := hback truth rfl
        exact ⟨stack, .head (.enter hid hknown hopen) (hrun.tail .leave), fun _ _ => rfl⟩
termination_by missing S.tags.length stack
decreasing_by exact missing_cons_lt hid hopen

theorem Job.returns (hS : S.Closed) (hstack : ∀ other ∈ stack, other < S.tags.length)
    {job : Job A} (h : job.Within S.tags.length) :
    Returns S stack job (job.outcome S stack) := by
  have htag : ∀ id < S.tags.length, Returns S stack (.tag id) (decideTag S stack id) :=
    fun id hid => decideTag_returns hS stack hstack hid
  cases job with
  | test q => exact test_returns htag h
  | all site index members => exact testAll_returns htag site index h
  | any id group groups => exact testAny_returns htag id group h
  | tag id => exact htag id h

end Returns

def Progress.Keeps (p after : Progress A) : Prop :=
  ∀ id truth, p.known.lookup id = some truth → after.known.lookup id = some truth

theorem Progress.lookup_learn (p : Progress A) {id other : Nat} {truth : Bool} (h : other ≠ id) :
    (p.learn id truth).known.lookup other = p.known.lookup other := by
  rw [learn, List.lookup_cons, beq_eq_false_iff_ne.mpr h]

/-- The stack has the tags of the frames, above those that were on it from the start, and a fault
leaves behind what is on it. No tag is on it twice, none is absent, and none is decided. -/
structure Machine.Orderly (S : Situation A) (base : List Nat) (m : Machine A) : Prop where
  matched : (∀ fault, m.focus ≠ .done (.error fault)) →
    m.stack = m.frames.filterMap Frame.deciding? ++ base
  nodup : m.stack.Nodup
  within : ∀ id ∈ m.stack, id < S.tags.length
  undecided : ∀ id ∈ m.stack, m.progress.known.lookup id = none

namespace Machine.Orderly

variable {S : Situation A} {base : List Nat} {m m' : Machine A}

theorem step (h : m.Orderly S base) (hstep : Step S m m') :
    m'.Orderly S base ∧ m.progress.Keeps m'.progress := by
  obtain ⟨hmatched, hnodup, hwithin, hundecided⟩ := h
  cases hstep with
  | enter hid hknown hstack =>
    refine ⟨⟨fun _ => ?_, ?_, ?_, ?_⟩, fun _ _ => id⟩
    · exact congrArg (_ :: ·) (hmatched nofun)
    · exact List.nodup_cons.mpr ⟨hstack, hnodup⟩
    · exact List.forall_mem_cons.mpr ⟨hid, hwithin⟩
    · exact List.forall_mem_cons.mpr ⟨hknown, hundecided⟩
  | @leave id truth frames stack p =>
    obtain rfl : stack = id :: (frames.filterMap Frame.deciding? ++ base) := hmatched nofun
    obtain ⟨hnew, hrest⟩ := List.nodup_cons.mp hnodup
    obtain ⟨hopen, hothers⟩ := List.forall_mem_cons.mp hundecided
    refine ⟨⟨fun _ => rfl, hrest, (List.forall_mem_cons.mp hwithin).2, ?_⟩, ?_⟩
    · intro other hother
      have hne : other ≠ id := fun heq => hnew (heq ▸ hother)
      exact (p.lookup_learn hne).trans (hothers other hother)
    · -- the tag had no entry as long as it was on the stack
      intro other entry hentry
      have hne : other ≠ id := by
        rintro rfl
        cases hopen.symm.trans hentry
      exact (p.lookup_learn hne).trans hentry
  | unwind => exact ⟨⟨fun h => absurd rfl (h _), hnodup, hwithin, hundecided⟩, fun _ _ => id⟩
  | circular => exact ⟨⟨fun h => absurd rfl (h _), hnodup, hwithin, hundecided⟩, fun _ _ => id⟩
  | _ => exact ⟨⟨fun _ => hmatched nofun, hnodup, hwithin, hundecided⟩, fun _ _ => id⟩

theorem reaches (h : m.Orderly S base) (hrun : Reaches S m m') :
    m'.Orderly S base ∧ m.progress.Keeps m'.progress := by
  induction hrun with
  | refl => exact ⟨h, fun _ _ => id⟩
  | tail _ hstep ih =>
    obtain ⟨horderly, hkeeps⟩ := ih
    obtain ⟨hnext, hkept⟩ := horderly.step hstep
    exact ⟨hnext, fun id truth hentry => hkept id truth (hkeeps id truth hentry)⟩

theorem length_le (h : m.Orderly S base) : m.stack.length ≤ S.tags.length := by
  have hsubset : m.stack ⊆ List.range S.tags.length :=
    fun id hid => List.mem_range.mpr (h.within id hid)
  simpa using (h.nodup.subperm hsubset).length_le

end Machine.Orderly

theorem not_step_of_done {S : Situation A} {outcome : Except EvaluationFault Bool}
    {stack : List Nat} {p : Progress A} {m : Machine A} :
    ¬ Step S ⟨.done outcome, [], stack, p⟩ m := nofun

theorem not_infinite {S : Situation A} {m final : Machine A} (h : Reaches S m final)
    (hfinal : ∀ m', ¬ Step S final m') (run : Nat → Machine A) (hstart : run 0 = m) :
    ¬ ∀ n, Step S (run n) (run (n + 1)) := by
  intro hrun
  induction h using Relation.ReflTransGen.head_induction_on generalizing run with
  | refl => exact hfinal _ (hstart ▸ hrun 0)
  | head hstep _ ih =>
    have hnext := step_unique S hstep (hstart ▸ hrun 0)
    exact ih (fun n => run (n + 1)) hnext.symm fun n => hrun (n + 1)

/-- Of a machine that comes to an end, every moment leads to that end. -/
theorem reaches_final {S : Situation A} {start m final : Machine A} (h : Reaches S start final)
    (hfinal : ∀ m', ¬ Step S final m') (hm : Reaches S start m) : Reaches S m final := by
  rcases Relation.ReflTransGen.total_of_right_unique (step_unique S) h hm with hback | hon
  · rcases Relation.ReflTransGen.cases_head hback with rfl | ⟨next, hnext, -⟩
    · exact .refl
    · exact absurd hnext (hfinal next)
  · exact hon

/-- What can be said of every moment of an evaluation: no tag is on the stack twice or decided, so
that the stack has no more tags than there are; no entry of the store ever changes; and when a job
has come to a truth value, the stack is what it was when the job began. -/
structure Machine.Regular (S : Situation A) (m : Machine A) : Prop where
  nodup : m.stack.Nodup
  undecided : ∀ id ∈ m.stack, m.progress.known.lookup id = none
  length_le : m.stack.length ≤ S.tags.length
  keeps : ∀ m', Reaches S m m' → m.progress.Keeps m'.progress
  restores : ∀ job, m.focus = .run job → ∀ m', Reaches S m m' → m'.frames = m.frames →
    ∀ truth, m'.focus = .done (.ok truth) → m'.stack = m.stack

theorem Machine.Orderly.regular {S : Situation A} {base : List Nat} {m : Machine A}
    (h : m.Orderly S base) : m.Regular S where
  nodup := h.nodup
  undecided := h.undecided
  length_le := h.length_le
  keeps _ hrun := (h.reaches hrun).2
  restores job hfocus m' hrun hframes truth hdone := by
    have hbefore := h.matched (by simp [hfocus])
    have hafter := (h.reaches hrun).1.matched (by simp [hdone])
    rw [hafter, hframes, hbefore]

/-- Where all references lead to tags, every job comes to an end, however the tags refer to each
other: its outcome and what is known afterwards are those of the tests, and there is no way not to
get there. All the while the stack and the store are in order. -/
theorem evaluation_ends {S : Situation A} (hS : S.Closed) {job : Job A}
    (hjob : job.Within S.tags.length) {stack : List Nat} {p : Progress A}
    (hnodup : stack.Nodup) (hwithin : ∀ id ∈ stack, id < S.tags.length)
    (hundecided : ∀ id ∈ stack, p.known.lookup id = none) :
    let start : Machine A := ⟨.run job, [], stack, p⟩
    ∃ final : Machine A, final.focus = .done (job.outcome S stack p).1 ∧
      final.frames = [] ∧ final.progress = (job.outcome S stack p).2 ∧
      (∀ truth, (job.outcome S stack p).1 = .ok truth → final.stack = stack) ∧
      (∀ m, ¬ Step S final m) ∧
      (∀ run : Nat → Machine A, run 0 = start → ¬ ∀ n, Step S (run n) (run (n + 1))) ∧
      ∀ m, Reaches S start m → Reaches S m final ∧ m.Regular S := by
  intro start
  obtain ⟨stack', hrun, hstack⟩ := job.returns hS hwithin hjob [] p
  have hfinal : ∀ m, ¬ Step S ⟨.done (job.outcome S stack p).1, [], stack',
    (job.outcome S stack p).2⟩ m := fun _ => not_step_of_done
  have horderly : start.Orderly S stack := ⟨fun _ => rfl, hnodup, hwithin, hundecided⟩
  refine ⟨_, rfl, rfl, rfl, hstack, hfinal, not_infinite hrun hfinal, fun m hm => ?_⟩
  exact ⟨reaches_final hrun hfinal hm, (horderly.reaches hm).1.regular⟩

/-- The second tag is decided on the way, and the third one leads back to the first. -/
def belfry : Situation Bool where
  tags := [⟨"bell", [[.tag 1, .tag 1], [.not (.tag 1), .tag 2]]⟩,
    ⟨"wind", [[.atom false], [.not (.atom true)]]⟩, ⟨"clock", [[.tag 0]]⟩]
  holds := id
  numbers := []

theorem belfry_ends :
    belfry.Closed ∧ (Job.tag 0 : Job Bool).Within belfry.tags.length ∧
      ∃ final : Machine Bool,
        final.focus = .done (.error (.circularTag ["bell", "clock", "bell"])) ∧
        final.frames = [] ∧ final.progress.known = [(1, false)] ∧
        ∀ m, Reaches belfry ⟨.run (.tag 0), [], [], {}⟩ m →
          Reaches belfry m final ∧ m.Regular belfry := by
  have hclosed : belfry.Closed := by
    simp [Situation.Closed, belfry, Predicate.Within]
  have hjob : (Job.tag 0 : Job Bool).Within belfry.tags.length := by
    simp [Job.Within, belfry]
  have hfault : ((Job.tag 0).outcome belfry [] {}).1 =
      .error (.circularTag ["bell", "clock", "bell"]) := by cbv
  have hknown : ((Job.tag 0).outcome belfry [] {}).2.known = [(1, false)] := by cbv
  obtain ⟨final, hfocus, hframes, hprogress, -, -, -, hall⟩ :=
    evaluation_ends hclosed hjob (p := {}) List.nodup_nil (List.forall_mem_nil _)
      (List.forall_mem_nil _)
  exact ⟨hclosed, hjob, final, hfocus.trans (congrArg _ hfault), hframes,
    (congrArg _ hprogress).trans hknown, hall⟩

end PriorityRules.Evaluation
