import Mathlib.Logic.Relation
import PriorityRules.Proofs.Evaluation.References

/-! # Circular references

A tag leads to another one when one of its groups refers to that one. Where no tag leads back to
itself every formula can be read, so that no evaluation fails. This needs no assumption about
references that lead nowhere: a tag that is not there counts as one without groups.
-/

namespace PriorityRules

variable {A M : Type}

def Leads (tags : List (Tag A)) (id other : Nat) : Prop :=
  ∃ t, tags[id]? = some t ∧ ∃ g ∈ t.groups, ∃ q ∈ g, q.target? = some other

/-- Some tag leads back to itself. -/
def Cyclic (tags : List (Tag A)) : Prop := ∃ id, Relation.TransGen (Leads tags) id id

theorem Predicate.Within.mono {q : Predicate A} {m n : Nat} (h : q.Within m) (hmn : m ≤ n) :
    q.Within n := by
  induction q with
  | atom a => trivial
  | compare c => trivial
  | tag id => exact Nat.lt_of_lt_of_le h hmn
  | not q ih => exact ih h

theorem Predicate.exists_within (q : Predicate A) : ∃ n, q.Within n := by
  induction q with
  | atom a => exact ⟨0, trivial⟩
  | compare c => exact ⟨0, trivial⟩
  | tag id => exact ⟨id + 1, Nat.lt_succ_self id⟩
  | not q ih => exact ih

theorem exists_within (predicates : List (Predicate A)) :
    ∃ n, ∀ q ∈ predicates, q.Within n := by
  induction predicates with
  | nil => exact ⟨0, List.forall_mem_nil _⟩
  | cons q rest ih =>
    obtain ⟨m, hq⟩ := q.exists_within
    obtain ⟨n, hrest⟩ := ih
    refine ⟨max m n, List.forall_mem_cons.mpr ⟨hq.mono (Nat.le_max_left m n), ?_⟩⟩
    exact fun other hother => (hrest other hother).mono (Nat.le_max_right m n)

/-- Tags without groups, which never hold, stand behind the other ones. -/
def Situation.padded (n : Nat) (S : Situation A) : Situation A :=
  { S with tags := S.tags ++ List.replicate n ⟨"", []⟩ }

def Ruleset.predicates (r : Ruleset A M) : List (Predicate A) :=
  r.rules.flatMap (·.conditions) ++ r.tags.flatMap (·.groups.flatten)

namespace Evaluation

variable {S : Situation A} {n : Nat}

theorem length_padded : (S.padded n).tags.length = S.tags.length + n := by
  simp [Situation.padded]

theorem getElem?_padded {id : Nat} (hid : id < S.tags.length) :
    (S.padded n).tags[id]? = S.tags[id]? :=
  List.getElem?_append_left hid

theorem getElem?_padding {id : Nat} (habsent : ¬id < S.tags.length)
    (hid : id < (S.padded n).tags.length) : (S.padded n).tags[id]? = some ⟨"", []⟩ := by
  rw [length_padded] at hid
  rw [Situation.padded, List.getElem?_append_right (Nat.le_of_not_lt habsent),
    List.getElem?_replicate, if_pos (by omega)]

theorem holds_padded : (S.padded n).holds = S.holds := rfl

theorem numbers_padded : (S.padded n).numbers = S.numbers := rfl

theorem testAll_padded {tag : Nat → Test A} {site : Nat → Site} {members : Group A} :
    testAll (S.padded n) tag site 0 members = testAll S tag site 0 members :=
  testAll_congr holds_padded numbers_padded (fun _ _ _ _ => rfl) site 0

theorem testAny_padded {tag : Nat → Test A} {id : Nat} {groups : List (Group A)} :
    testAny (S.padded n) tag id 0 groups = testAny S tag id 0 groups :=
  testAny_congr holds_padded numbers_padded (fun _ _ _ _ _ _ => rfl) id 0

/-- Deciding a tag is exact among the padded tags, although it does not look at the padding. -/
theorem decideTag_exact_padded (hS : (S.padded n).Closed) (stack : List Nat) {id : Nat}
    (hid : id < (S.padded n).tags.length) :
    Exact (S.padded n) stack (.one (.tag id)) (decideTag S stack id) := by
  intro p hp
  cases hknown : p.known.lookup id with
  | some truth =>
    rw [decideTag_of_known hknown]
    exact ⟨hp id truth hknown, hp⟩
  | none =>
    by_cases hstack : id ∈ stack
    · rw [decideTag_of_open hknown hstack]
      exact open_exact hstack _ p hp
    · by_cases hthere : id < S.tags.length
      · have hsame : (S.padded n).tags[id] = S.tags[id] := List.getElem_append_left hthere
        rw [decideTag_of_new hknown hstack hthere]
        have hgroups := testAny_exact
          (fun other hother => decideTag_exact_padded hS (id :: stack) hother)
          (hS _ (List.getElem_mem hid)) id 0
        rw [testAny_padded] at hgroups
        have h := settle_exact hid hgroups p hp
        dsimp only at h
        rw [hsame] at h
        exact h
      · rw [decideTag_of_absent hknown hstack hthere]
        exact ⟨.tag (getElem?_padding hthere hid) .exhausted, hp⟩
termination_by missing S.tags.length stack
decreasing_by exact missing_cons_lt hthere hstack

section Readings

variable {T : Situation A}

theorem exists_reads_one {q : Predicate A}
    (h : ∀ id ∈ q.target?, ∃ truth, Reads T (.one (.tag id)) truth) :
    ∃ truth, Reads T (.one q) truth := by
  induction q with
  | atom a => exact ⟨_, .atom a⟩
  | compare c => exact ⟨_, .compare c⟩
  | tag id => exact h id rfl
  | not q ih =>
    obtain ⟨truth, htruth⟩ := ih h
    exact ⟨_, .not htruth⟩

theorem exists_reads_all {members : Group A}
    (h : ∀ q ∈ members, ∃ truth, Reads T (.one q) truth) :
    ∃ truth, Reads T (.all members) truth := by
  induction members with
  | nil => exact ⟨true, .held⟩
  | cons q rest ih =>
    obtain ⟨hq, hrest⟩ := List.forall_mem_cons.mp h
    obtain ⟨first, hfirst⟩ := hq
    cases first with
    | false => exact ⟨false, .failed hfirst⟩
    | true =>
      obtain ⟨truth, htruth⟩ := ih hrest
      exact ⟨truth, .further hfirst htruth⟩

theorem exists_reads_any {groups : List (Group A)}
    (h : ∀ g ∈ groups, ∀ q ∈ g, ∃ truth, Reads T (.one q) truth) :
    ∃ truth, Reads T (.any groups) truth := by
  induction groups with
  | nil => exact ⟨false, .exhausted⟩
  | cons g rest ih =>
    obtain ⟨hg, hrest⟩ := List.forall_mem_cons.mp h
    obtain ⟨first, hfirst⟩ := exists_reads_all hg
    cases first with
    | true => exact ⟨true, .found hfirst⟩
    | false =>
      obtain ⟨truth, htruth⟩ := ih hrest
      exact ⟨truth, .onward hfirst htruth⟩

/-- A tag can be read when the tags of the stack lead to it and none leads back to itself. -/
theorem exists_reads_tag (hT : T.Closed) (hacyclic : ¬Cyclic T.tags) (stack : List Nat) {id : Nat}
    (hstack : ∀ other ∈ stack, Relation.TransGen (Leads T.tags) other id)
    (hid : id < T.tags.length) : ∃ truth, Reads T (.one (.tag id)) truth := by
  have hnew : id ∉ stack := fun hmem => hacyclic ⟨id, hstack id hmem⟩
  have hgroups : ∀ g ∈ T.tags[id].groups, ∀ q ∈ g, ∃ truth, Reads T (.one q) truth := by
    intro g hg q hq
    apply exists_reads_one
    intro other hother
    have hleads : Leads T.tags id other :=
      ⟨T.tags[id], List.getElem?_eq_getElem hid, g, hg, q, hq, hother⟩
    have hpush : ∀ below ∈ id :: stack, Relation.TransGen (Leads T.tags) below other := by
      refine List.forall_mem_cons.mpr ⟨.single hleads, fun below hbelow => ?_⟩
      exact (hstack below hbelow).tail hleads
    exact exists_reads_tag hT hacyclic (id :: stack) hpush
      ((hT _ (List.getElem_mem hid) g hg q hq).target_lt hother)
  obtain ⟨truth, htruth⟩ := exists_reads_any hgroups
  exact ⟨truth, .tag (List.getElem?_eq_getElem hid) htruth⟩
termination_by missing T.tags.length stack
decreasing_by exact missing_cons_lt hid hnew

theorem exists_reads_of_acyclic (hT : T.Closed) (hacyclic : ¬Cyclic T.tags) {members : Group A}
    (hmembers : ∀ q ∈ members, q.Within T.tags.length) :
    ∃ truth, Reads T (.all members) truth := by
  apply exists_reads_all
  intro q hq
  apply exists_reads_one
  intro id hid
  exact exists_reads_tag hT hacyclic [] (List.forall_mem_nil _) ((hmembers q hq).target_lt hid)

end Readings

theorem leads_of_padded {id other : Nat} (h : Leads (S.padded n).tags id other) :
    Leads S.tags id other := by
  obtain ⟨t, ht, g, hg, q, hq, htarget⟩ := h
  by_cases hid : id < S.tags.length
  · rw [getElem?_padded hid] at ht
    exact ⟨t, ht, g, hg, q, hq, htarget⟩
  · obtain ⟨hlt, -⟩ := List.getElem?_eq_some_iff.mp ht
    rw [getElem?_padding hid hlt] at ht
    cases ht
    cases hg

theorem cyclic_of_padded (h : Cyclic (S.padded n).tags) : Cyclic S.tags := by
  obtain ⟨id, hid⟩ := h
  exact ⟨id, Relation.TransGen.mono (fun _ _ h => leads_of_padded h) _ _ hid⟩

section Conjunctions

variable {members : Group A} {p after : Progress A} {site : Nat → Site}
  (hS : (S.padded n).Closed) (hmembers : ∀ q ∈ members, q.Within (S.padded n).tags.length)
  (hp : p.Sound (S.padded n))
include hS hmembers hp

theorem reads_of_testAll {truth : Bool}
    (hrun : testAll S (decideTag S []) site 0 members p = (.ok truth, after)) :
    Reads (S.padded n) (.all members) truth ∧ after.Sound (S.padded n) := by
  have h := testAll_exact (fun _ => decideTag_exact_padded hS []) hmembers site 0 p hp
  rw [testAll_padded, hrun] at h
  exact h

theorem testAll_of_reads {truth : Bool} (h : Reads (S.padded n) (.all members) truth) :
    ∃ after, testAll S (decideTag S []) site 0 members p = (.ok truth, after) ∧
      after.Sound (S.padded n) := by
  have hexact := testAll_exact (fun _ => decideTag_exact_padded hS []) hmembers site 0
  have hanswer := hexact.answers Awaited.nil h hp
  have hsound := (hexact p hp).2
  rw [testAll_padded] at hanswer hsound
  exact ⟨_, Prod.ext hanswer rfl, hsound⟩

theorem cyclic_of_testAll {fault : EvaluationFault}
    (hrun : testAll S (decideTag S []) site 0 members p = (.error fault, after)) :
    Cyclic S.tags := by
  by_contra hacyclic
  obtain ⟨truth, htruth⟩ := exists_reads_of_acyclic hS (mt cyclic_of_padded hacyclic) hmembers
  obtain ⟨_, hanswer, -⟩ := testAll_of_reads hS hmembers hp htruth
  rw [hrun] at hanswer
  cases hanswer

end Conjunctions

/-- The references in the rules and tags lead to tags or to the padding. -/
structure Covers (n : Nat) (S : Situation A) (rules : List (Rule A M)) : Prop where
  tags : (S.padded n).Closed
  rules : ∀ rule ∈ rules, ∀ q ∈ rule.conditions, q.Within (S.padded n).tags.length

theorem covers_of_within {r : Ruleset A M} {n : Nat} (h : ∀ q ∈ r.predicates, q.Within n)
    (holds : A → Bool) (numbers : List Float) : Covers n ⟨r.tags, holds, numbers⟩ r.rules := by
  have hlength : n ≤ (Situation.padded n ⟨r.tags, holds, numbers⟩).tags.length := by
    rw [length_padded]
    exact Nat.le_add_left n _
  constructor
  · intro t ht g hg q hq
    rcases List.mem_append.mp ht with ht | ht
    · refine (h q (List.mem_append_right _ ?_)).mono hlength
      exact List.mem_flatMap.mpr ⟨t, ht, List.mem_flatten.mpr ⟨g, hg, hq⟩⟩
    · rw [List.eq_of_mem_replicate ht] at hg
      cases hg
  · intro rule hrule q hq
    refine (h q (List.mem_append_left _ ?_)).mono hlength
    exact List.mem_flatMap.mpr ⟨rule, hrule, hq⟩

theorem Covers.tail {rule : Rule A M} {rest : List (Rule A M)}
    (h : Covers n S (rule :: rest)) : Covers n S rest :=
  ⟨h.tags, (List.forall_mem_cons.mp h.rules).2⟩

theorem Covers.head {rule : Rule A M} {rest : List (Rule A M)}
    (h : Covers n S (rule :: rest)) : ∀ q ∈ rule.conditions, q.Within (S.padded n).tags.length :=
  (List.forall_mem_cons.mp h.rules).1

theorem scan_ok_of_acyclic {rules : List (Rule A M)} {index : Nat} {d : Decision A M}
    {p : Progress A} (hcovers : Covers n S rules) (hacyclic : ¬Cyclic S.tags)
    (hp : p.Sound (S.padded n)) : ∃ e, (scan S index rules d p).1 = .ok e := by
  induction rules generalizing index d p with
  | nil => exact ⟨d, rfl⟩
  | cons rule rest ih =>
    rw [scan]
    split
    · split
      · rename_i hrun
        exact absurd (cyclic_of_testAll hcovers.tags hcovers.head hp hrun) hacyclic
      · rename_i hrun
        exact ih hcovers.tail (reads_of_testAll hcovers.tags hcovers.head hp hrun).2
      · rename_i hrun
        dsimp only
        split
        · exact ⟨_, rfl⟩
        · exact ih hcovers.tail (reads_of_testAll hcovers.tags hcovers.head hp hrun).2
    · exact ih hcovers.tail hp

end Evaluation

end PriorityRules
