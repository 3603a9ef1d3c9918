import PriorityRules.Evaluation.Truth

/-! # What predicates mean

Two readings of predicates that know neither a store of decided tags nor a stack. The first is a
plain choice of conjunctions and does not look at the order of their members. The second goes from
left to right and stops as soon as the answer is certain; where it does not come to an end it
gives nothing. What the second reading gives is what the first one means.
-/

namespace PriorityRules.Evaluation

variable {A : Type} {S : Situation A}

/-- What has a truth value in a situation: a predicate, a conjunction, or a choice of groups. -/
inductive Formula (A : Type) where
  | one (p : Predicate A)
  | all (members : Group A)
  | any (groups : List (Group A))

/-- A conjunction is true when all members are, and a choice when one of its groups is. A formula
that depends on itself may have no truth value. -/
inductive Means (S : Situation A) : Formula A → Bool → Prop
  | atom (a : A) : Means S (.one (.atom a)) (S.holds a)
  | compare (c : Comparison) : Means S (.one (.compare c)) (c.holds S.numbers)
  | not {q : Predicate A} {truth : Bool} (h : Means S (.one q) truth) :
      Means S (.one (.not q)) (!truth)
  | tag {id : Nat} {t : Tag A} {truth : Bool} (ht : S.tags[id]? = some t)
      (h : Means S (.any t.groups) truth) : Means S (.one (.tag id)) truth
  | every {members : Group A} (h : ∀ q ∈ members, Means S (.one q) true) :
      Means S (.all members) true
  | broken {members : Group A} {q : Predicate A} (hq : q ∈ members)
      (h : Means S (.one q) false) : Means S (.all members) false
  | some {groups : List (Group A)} {g : Group A} (hg : g ∈ groups)
      (h : Means S (.all g) true) : Means S (.any groups) true
  | none {groups : List (Group A)} (h : ∀ g ∈ groups, Means S (.all g) false) :
      Means S (.any groups) false

/-- No formula is both true and false, however its tags refer to each other. -/
theorem Means.unique {φ : Formula A} {truth other : Bool} (h : Means S φ truth)
    (h' : Means S φ other) : truth = other := by
  induction h generalizing other with
  | atom a => cases h'; rfl
  | compare c => cases h'; rfl
  | not h ih =>
    cases h' with
    | not h₂ => rw [ih h₂]
  | tag ht h ih =>
    cases h' with
    | tag ht₂ h₂ =>
      rw [ht] at ht₂
      cases ht₂
      exact ih h₂
  | every h ih =>
    cases h' with
    | every h₂ => rfl
    | broken hq h₂ => exact ih _ hq h₂
  | broken hq h ih =>
    cases h' with
    | every h₂ => exact ih (h₂ _ hq)
    | broken hq₂ h₂ => rfl
  | some hg h ih =>
    cases h' with
    | some hg₂ h₂ => rfl
    | none h₂ => exact ih (h₂ _ hg)
  | none h ih =>
    cases h' with
    | some hg₂ h₂ => exact ih _ hg₂ h₂
    | none h₂ => rfl

/-- The reading from left to right that stops as soon as the answer is certain. It keeps no
record of tags, so a tag that leads back to itself on the way has no derivation. -/
inductive Reads (S : Situation A) : Formula A → Bool → Prop
  | atom (a : A) : Reads S (.one (.atom a)) (S.holds a)
  | compare (c : Comparison) : Reads S (.one (.compare c)) (c.holds S.numbers)
  | not {q : Predicate A} {truth : Bool} (h : Reads S (.one q) truth) :
      Reads S (.one (.not q)) (!truth)
  | tag {id : Nat} {t : Tag A} {truth : Bool} (ht : S.tags[id]? = some t)
      (h : Reads S (.any t.groups) truth) : Reads S (.one (.tag id)) truth
  | held : Reads S (.all []) true
  | failed {q : Predicate A} {rest : Group A} (h : Reads S (.one q) false) :
      Reads S (.all (q :: rest)) false
  | further {q : Predicate A} {rest : Group A} {truth : Bool} (hq : Reads S (.one q) true)
      (h : Reads S (.all rest) truth) : Reads S (.all (q :: rest)) truth
  | exhausted : Reads S (.any []) false
  | found {g : Group A} {rest : List (Group A)} (h : Reads S (.all g) true) :
      Reads S (.any (g :: rest)) true
  | onward {g : Group A} {rest : List (Group A)} {truth : Bool} (hg : Reads S (.all g) false)
      (h : Reads S (.any rest) truth) : Reads S (.any (g :: rest)) truth

theorem Reads.means {φ : Formula A} {truth : Bool} (h : Reads S φ truth) : Means S φ truth := by
  induction h with
  | atom a => exact .atom a
  | compare c => exact .compare c
  | not h ih => exact .not ih
  | tag ht h ih => exact .tag ht ih
  | held => exact .every (by simp)
  | failed h ih => exact .broken List.mem_cons_self ih
  | further hq h ihq ih =>
    cases ih with
    | every hrest => exact .every (by simpa using ⟨ihq, hrest⟩)
    | broken hmem hfalse => exact .broken (List.mem_cons_of_mem _ hmem) hfalse
  | exhausted => exact .none (by simp)
  | found h ih => exact .some List.mem_cons_self ih
  | onward hg h ihg ih =>
    cases ih with
    | some hmem htrue => exact .some (List.mem_cons_of_mem _ hmem) htrue
    | none hrest => exact .none (by simpa using ⟨ihg, hrest⟩)

theorem Reads.unique {φ : Formula A} {truth other : Bool} (h : Reads S φ truth)
    (h' : Reads S φ other) : truth = other := h.means.unique h'.means

/-- Read a predicate, given a reading of each tag. A derivation opens tags inside tags only to some
depth, and the reading up to a given depth is a function, so that two depths can be compared. -/
def readOne (S : Situation A) (tag : Nat → Option Bool) : Predicate A → Option Bool
  | .atom a => some (S.holds a)
  | .compare c => some (c.holds S.numbers)
  | .tag id => tag id
  | .not q => (readOne S tag q).map (!·)

def readAll (S : Situation A) (tag : Nat → Option Bool) : Group A → Option Bool
  | [] => some true
  | q :: rest => (readOne S tag q).bind fun truth =>
      if truth then readAll S tag rest else some false

def readAny (S : Situation A) (tag : Nat → Option Bool) : List (Group A) → Option Bool
  | [] => some false
  | g :: rest => (readAll S tag g).bind fun truth =>
      if truth then some true else readAny S tag rest

def readTag (S : Situation A) : Nat → Nat → Option Bool
  | 0, _ => none
  | depth + 1, id => S.tags[id]?.bind fun t => readAny S (readTag S depth) t.groups

def reading (S : Situation A) (depth : Nat) : Formula A → Option Bool
  | .one q => readOne S (readTag S depth) q
  | .all members => readAll S (readTag S depth) members
  | .any groups => readAny S (readTag S depth) groups

section Monotone

variable {tag tag' : Nat → Option Bool}
variable (htag : ∀ id truth, tag id = some truth → tag' id = some truth)
include htag

theorem readOne_mono {q : Predicate A} {truth : Bool} (h : readOne S tag q = some truth) :
    readOne S tag' q = some truth := by
  induction q generalizing truth with
  | atom a => exact h
  | compare c => exact h
  | tag id => exact htag id truth h
  | not q ih =>
    obtain ⟨inner, hinner, rfl⟩ := Option.map_eq_some_iff.mp h
    exact Option.map_eq_some_iff.mpr ⟨inner, ih hinner, rfl⟩

theorem readAll_mono {members : Group A} {truth : Bool} (h : readAll S tag members = some truth) :
    readAll S tag' members = some truth := by
  induction members with
  | nil => exact h
  | cons q rest ih =>
    rw [readAll, Option.bind_eq_some_iff] at h ⊢
    obtain ⟨first, hfirst, hrest⟩ := h
    refine ⟨first, readOne_mono htag hfirst, ?_⟩
    cases first with
    | true => exact ih hrest
    | false => exact hrest

theorem readAny_mono {groups : List (Group A)} {truth : Bool}
    (h : readAny S tag groups = some truth) : readAny S tag' groups = some truth := by
  induction groups with
  | nil => exact h
  | cons g rest ih =>
    rw [readAny, Option.bind_eq_some_iff] at h ⊢
    obtain ⟨first, hfirst, hrest⟩ := h
    refine ⟨first, readAll_mono htag hfirst, ?_⟩
    cases first with
    | true => exact hrest
    | false => exact ih hrest

end Monotone

theorem readTag_succ {depth id : Nat} {truth : Bool} (h : readTag S depth id = some truth) :
    readTag S (depth + 1) id = some truth := by
  induction depth generalizing id truth with
  | zero => cases h
  | succ depth ih =>
    rw [readTag, Option.bind_eq_some_iff] at h ⊢
    obtain ⟨t, ht, hgroups⟩ := h
    exact ⟨t, ht, readAny_mono (fun _ _ => ih) hgroups⟩

theorem reading_mono {m n : Nat} (hmn : m ≤ n) {φ : Formula A} {truth : Bool}
    (h : reading S m φ = some truth) : reading S n φ = some truth := by
  have htag : ∀ id truth, readTag S m id = some truth → readTag S n id = some truth := by
    intro id truth h
    induction hmn with
    | refl => exact h
    | step _ ih => exact readTag_succ ih
  cases φ with
  | one q => exact readOne_mono htag h
  | all members => exact readAll_mono htag h
  | any groups => exact readAny_mono htag h

section Sound

variable {tag : Nat → Option Bool}
  (htag : ∀ id truth, tag id = some truth → Reads S (.one (.tag id)) truth)
include htag

theorem reads_of_readOne {q : Predicate A} {truth : Bool} (h : readOne S tag q = some truth) :
    Reads S (.one q) truth := by
  induction q generalizing truth with
  | atom a => cases h; exact .atom a
  | compare c => cases h; exact .compare c
  | tag id => exact htag id truth h
  | not q ih =>
    obtain ⟨inner, hinner, rfl⟩ := Option.map_eq_some_iff.mp h
    exact .not (ih hinner)

theorem reads_of_readAll {members : Group A} {truth : Bool}
    (h : readAll S tag members = some truth) : Reads S (.all members) truth := by
  induction members with
  | nil => cases h; exact .held
  | cons q rest ih =>
    rw [readAll, Option.bind_eq_some_iff] at h
    obtain ⟨first, hfirst, hrest⟩ := h
    cases first with
    | true => exact .further (reads_of_readOne htag hfirst) (ih hrest)
    | false => cases hrest; exact .failed (reads_of_readOne htag hfirst)

theorem reads_of_readAny {groups : List (Group A)} {truth : Bool}
    (h : readAny S tag groups = some truth) : Reads S (.any groups) truth := by
  induction groups with
  | nil => cases h; exact .exhausted
  | cons g rest ih =>
    rw [readAny, Option.bind_eq_some_iff] at h
    obtain ⟨first, hfirst, hrest⟩ := h
    cases first with
    | true => cases hrest; exact .found (reads_of_readAll htag hfirst)
    | false => exact .onward (reads_of_readAll htag hfirst) (ih hrest)

end Sound

theorem reads_of_readTag {depth id : Nat} {truth : Bool} (h : readTag S depth id = some truth) :
    Reads S (.one (.tag id)) truth := by
  induction depth generalizing id truth with
  | zero => cases h
  | succ depth ih =>
    rw [readTag, Option.bind_eq_some_iff] at h
    obtain ⟨t, ht, hgroups⟩ := h
    exact .tag ht (reads_of_readAny (fun _ _ => ih) hgroups)

/-- Every derivation is a reading of some depth, and every reading that ends is a derivation. -/
theorem reads_iff_reading {φ : Formula A} {truth : Bool} :
    Reads S φ truth ↔ ∃ depth, reading S depth φ = some truth := by
  constructor
  · intro h
    induction h with
    | atom a => exact ⟨0, rfl⟩
    | compare c => exact ⟨0, rfl⟩
    | not h ih =>
      obtain ⟨depth, hdepth⟩ := ih
      exact ⟨depth, Option.map_eq_some_iff.mpr ⟨_, hdepth, rfl⟩⟩
    | tag ht h ih =>
      obtain ⟨depth, hdepth⟩ := ih
      exact ⟨depth + 1, Option.bind_eq_some_iff.mpr ⟨_, ht, hdepth⟩⟩
    | held => exact ⟨0, rfl⟩
    | failed h ih =>
      obtain ⟨depth, hdepth⟩ := ih
      exact ⟨depth, Option.bind_eq_some_iff.mpr ⟨false, hdepth, rfl⟩⟩
    | further hq h ihq ih =>
      obtain ⟨m, hm⟩ := ihq
      obtain ⟨n, hn⟩ := ih
      exact ⟨max m n, Option.bind_eq_some_iff.mpr
        ⟨true, reading_mono (Nat.le_max_left m n) hm, reading_mono (Nat.le_max_right m n) hn⟩⟩
    | exhausted => exact ⟨0, rfl⟩
    | found h ih =>
      obtain ⟨depth, hdepth⟩ := ih
      exact ⟨depth, Option.bind_eq_some_iff.mpr ⟨true, hdepth, rfl⟩⟩
    | onward hg h ihg ih =>
      obtain ⟨m, hm⟩ := ihg
      obtain ⟨n, hn⟩ := ih
      exact ⟨max m n, Option.bind_eq_some_iff.mpr
        ⟨false, reading_mono (Nat.le_max_left m n) hm, reading_mono (Nat.le_max_right m n) hn⟩⟩
  · rintro ⟨depth, h⟩
    cases φ with
    | one q => exact reads_of_readOne (fun _ _ => reads_of_readTag) h
    | all members => exact reads_of_readAll (fun _ _ => reads_of_readTag) h
    | any groups => exact reads_of_readAny (fun _ _ => reads_of_readTag) h

end PriorityRules.Evaluation
