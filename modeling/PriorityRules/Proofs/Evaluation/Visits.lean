import PriorityRules.Proofs.Evaluation.Cycles

/-! # What an evaluation visits

The trail of an evaluation tells which tags it entered, at which sites it tested a predicate, and
what it asked. A tag is entered only while it is neither open nor decided, and it is open until it
is decided or the evaluation fails. So no tag is entered twice and no predicate is tested twice,
and as a predicate asks one question at most, the host is asked no more often than there are
predicates.
-/

namespace PriorityRules

variable {A M : Type}

namespace Evaluation

def Site.tag? : Site → Option Nat
  | .condition .. => none
  | .member tag .. => some tag

namespace Visit

def entered? : Visit A → Option Nat
  | .entered tag => some tag
  | _ => none

def site? : Visit A → Option Site
  | .reached site => some site
  | _ => none

def question? : Visit A → Option (Question A)
  | .asked question _ => some question
  | _ => none

end Visit

def entered (trail : List (Visit A)) : List Nat := trail.filterMap Visit.entered?

def reached (trail : List (Visit A)) : List Site := trail.filterMap Visit.site?

def asked (trail : List (Visit A)) : List (Question A) := trail.filterMap Visit.question?

@[simp] theorem entered_append (trail before : List (Visit A)) :
    entered (trail ++ before) = entered trail ++ entered before := List.filterMap_append

@[simp] theorem reached_append (trail before : List (Visit A)) :
    reached (trail ++ before) = reached trail ++ reached before := List.filterMap_append

def Progress.Decided (p : Progress A) (id : Nat) : Prop := (p.known.lookup id).isSome

theorem Progress.decided_learn {p : Progress A} {id other : Nat} {truth : Bool} :
    (p.learn id truth).Decided other ↔ other = id ∨ p.Decided other := by
  rw [Decided, Decided, learn, List.lookup_cons]
  by_cases h : other = id
  · simp [h]
  · rw [beq_false_of_ne h]
    simp [h]

/-- Visits, the latest first, made after `p` while the tags of `stack` are open. Every tag is
entered once, and only if it is neither open nor decided. Every site is reached once; it is one of
`own` or lies in a tag that has been entered. -/
structure Excursion (stack : List Nat) (own : Set Site) (p : Progress A)
    (visits : List (Visit A)) : Prop where
  entered_once : (entered visits).Nodup
  fresh : ∀ id ∈ entered visits, id ∉ stack ∧ ¬p.Decided id
  reached_once : (reached visits).Nodup
  within : ∀ site ∈ reached visits, site ∈ own ∨ ∃ id ∈ site.tag?, id ∈ entered visits

/-- The run makes an excursion. If it does not fail, the tags entered on the way are decided at its
end, and so are those that were decided before. -/
def Roams {α : Type} (stack : List Nat) (own : Set Site) (p : Progress A)
    (run : Except EvaluationFault α × Progress A) : Prop :=
  ∃ visits, run.2.trail = visits ++ p.trail ∧ Excursion stack own p visits ∧
    ∀ value, run.1 = .ok value →
      ∀ id, id ∈ entered visits ∨ p.Decided id → run.2.Decided id

namespace Roams

variable {α β : Type} {stack : List Nat} {own own' : Set Site} {p q : Progress A}
  {run : Except EvaluationFault α × Progress A}

theorem plain {result : Except EvaluationFault α} (visits : List (Visit A))
    (htrail : q.trail = visits ++ p.trail) (hknown : q.known = p.known)
    (hentered : entered visits = []) (honce : (reached visits).Nodup)
    (hown : ∀ site ∈ reached visits, site ∈ own) : Roams stack own p (result, q) := by
  refine ⟨visits, htrail, ⟨?_, ?_, honce, fun site hsite => .inl (hown site hsite)⟩, ?_⟩
  · simp [hentered]
  · simp [hentered]
  · intro _ _ id hid
    simpa [hentered, Progress.Decided, hknown] using hid

theorem stay (result : Except EvaluationFault α) : Roams stack own p (result, p) :=
  plain [] rfl rfl rfl List.nodup_nil (List.forall_mem_nil _)

theorem ask (question : Question A) (answer : Bool) :
    Roams stack own p (Evaluation.ask question answer p) :=
  plain [.asked question answer] rfl rfl rfl List.nodup_nil (List.forall_mem_nil _)

theorem reach (site : Site) (value : α) :
    Roams stack {site} p (.ok value, p.visit (.reached site)) :=
  plain [.reached site] rfl rfl rfl (List.nodup_singleton site) fun _ => List.mem_singleton.mp

theorem mono (h : Roams stack own p run) (hsub : own ⊆ own') : Roams stack own' p run := by
  obtain ⟨visits, htrail, hvisits, hdecided⟩ := h
  exact ⟨visits, htrail, ⟨hvisits.entered_once, hvisits.fresh, hvisits.reached_once,
    fun site hsite => (hvisits.within site hsite).imp_left (@hsub site)⟩, hdecided⟩

theorem congr (h : Roams stack own p run) {other : Except EvaluationFault β}
    (hok : ∀ value, other = .ok value → ∃ value, run.1 = .ok value) :
    Roams stack own p (other, run.2) := by
  obtain ⟨visits, htrail, hvisits, hdecided⟩ := h
  refine ⟨visits, htrail, hvisits, fun value hvalue => ?_⟩
  obtain ⟨value', hvalue'⟩ := hok value hvalue
  exact hdecided value' hvalue'

/-- Go on after a run that has not failed. -/
theorem andThen {value : β} (h : Roams stack own p (.ok value, q)) (h' : Roams stack own' q run)
    (hdisjoint : Disjoint own own')
    (hopen : ∀ site ∈ own ∪ own', ∀ id ∈ site.tag?, id ∈ stack) :
    Roams stack (own ∪ own') p run := by
  obtain ⟨first, hfirst, hexcursion, hdecided⟩ := h
  obtain ⟨second, hsecond, hexcursion', hdecided'⟩ := h'
  have hknown := hdecided value rfl
  -- the tags that the first part has entered are decided, so the second part enters none of them
  have hentered : ∀ id ∈ entered second, id ∉ entered first ∧ ¬p.Decided id := by
    intro id hid
    have hnew := (hexcursion'.fresh id hid).2
    exact ⟨fun hmem => hnew (hknown id (.inl hmem)), fun hmem => hnew (hknown id (.inr hmem))⟩
  refine ⟨second ++ first, by rw [hsecond, hfirst, List.append_assoc], ?_, ?_⟩
  · constructor
    · rw [entered_append, List.nodup_append]
      refine ⟨hexcursion'.entered_once, hexcursion.entered_once, ?_⟩
      rintro id hid _ hmem rfl
      exact (hentered id hid).1 hmem
    · intro id hid
      rw [entered_append, List.mem_append] at hid
      rcases hid with hid | hid
      · exact ⟨(hexcursion'.fresh id hid).1, (hentered id hid).2⟩
      · exact hexcursion.fresh id hid
    · rw [reached_append, List.nodup_append]
      refine ⟨hexcursion'.reached_once, hexcursion.reached_once, ?_⟩
      rintro site hsite _ hmem rfl
      -- sites of the two parts lie in open tags, which neither part enters
      rcases hexcursion'.within site hsite, hexcursion.within site hmem with
        ⟨hown' | ⟨id, hid, hin'⟩, hown | ⟨id', hid', hin⟩⟩
      · exact hdisjoint.le_bot ⟨hown, hown'⟩
      · exact (hexcursion.fresh id' hin).1 (hopen site (.inr hown') id' hid')
      · exact (hexcursion'.fresh id hin').1 (hopen site (.inl hown) id hid)
      · rw [Option.mem_unique hid' hid] at hin
        exact (hentered id hin').1 hin
    · intro site hsite
      rw [reached_append, List.mem_append] at hsite
      simp only [entered_append, List.mem_append]
      rcases hsite with hsite | hsite
      · rcases hexcursion'.within site hsite with hown | ⟨id, hid, hin⟩
        · exact .inl (.inr hown)
        · exact .inr ⟨id, hid, .inl hin⟩
      · rcases hexcursion.within site hsite with hown | ⟨id, hid, hin⟩
        · exact .inl (.inl hown)
        · exact .inr ⟨id, hid, .inr hin⟩
  · intro result hresult id hid
    apply hdecided' result hresult
    rw [entered_append, List.mem_append] at hid
    rcases hid with (hid | hid) | hid
    · exact .inl hid
    · exact .inr (hknown id (.inl hid))
    · exact .inr (hknown id (.inr hid))

/-- Enter a tag that is neither open nor decided, and settle it at the end. -/
theorem enter {id : Nat} (hstack : id ∉ stack) (hnew : ¬p.Decided id)
    {run : Except EvaluationFault Bool × Progress A}
    (h : Roams (id :: stack) {site | site.tag? = some id} (p.visit (.entered id)) run) :
    Roams stack ∅ p (settle id run) := by
  obtain ⟨visits, htrail, hvisits, hdecided⟩ := h
  have hentered : entered (visits ++ [.entered id]) = entered visits ++ [id] := by simp [entered,
    Visit.entered?]
  have hreached : reached (visits ++ [.entered id]) = reached visits := by simp [reached,
    Visit.site?]
  refine ⟨visits ++ [.entered id], ?_, ?_, ?_⟩
  · rw [settle_trail, htrail, List.append_assoc]
    rfl
  · constructor
    · rw [hentered, List.nodup_append]
      refine ⟨hvisits.entered_once, List.nodup_singleton id, ?_⟩
      rintro other hother _ hmem rfl
      exact (hvisits.fresh other hother).1 (List.mem_cons.mpr (.inl (List.mem_singleton.mp hmem)))
    · rw [hentered, List.forall_mem_append]
      constructor
      · intro other hother
        obtain ⟨hother, hundecided⟩ := hvisits.fresh other hother
        exact ⟨fun hmem => hother (List.mem_cons_of_mem _ hmem), hundecided⟩
      · simpa using ⟨hstack, hnew⟩
    · rw [hreached]
      exact hvisits.reached_once
    · rw [hreached, hentered]
      intro site hsite
      right
      rcases hvisits.within site hsite with hown | ⟨other, hother, hin⟩
      · exact ⟨id, hown, by simp⟩
      · exact ⟨other, hother, by simp [hin]⟩
  · obtain ⟨fault | truth, after⟩ := run
    · nofun
    · intro _ _ other hother
      apply Progress.decided_learn.mpr
      rw [hentered, List.mem_append, List.mem_singleton] at hother
      rcases hother with (hother | rfl) | hother
      · exact .inr (hdecided truth rfl other (.inl hother))
      · exact .inl rfl
      · exact .inr (hdecided truth rfl other (.inr hother))

end Roams

section Tests

variable {S : Situation A} {stack : List Nat} {tag : Nat → Test A}
  (htag : ∀ id p, Roams stack ∅ p (tag id p))
include htag

theorem test_roams (q : Predicate A) (p : Progress A) : Roams stack ∅ p (test S tag q p) := by
  induction q with
  | atom a => exact .ask _ _
  | compare c => exact .ask _ _
  | tag id => exact htag id p
  | not q ih =>
    rw [test_not]
    apply ih.congr
    intro value hvalue
    cases hrun : (test S tag q p).1 with
    | ok truth => exact ⟨truth, rfl⟩
    | error fault =>
      rw [hrun] at hvalue
      cases hvalue

/-- The sites of a conjunction follow each other, and none of them is met again inside a tag. -/
theorem testAll_roams {site : Nat → Site} (hsite : site.Injective)
    (hopen : ∀ i, ∀ id ∈ (site i).tag?, id ∈ stack) (index : Nat) (members : Group A)
    (p : Progress A) :
    Roams stack {s | ∃ i, index ≤ i ∧ site i = s} p (testAll S tag site index members p) := by
  induction members generalizing index p with
  | nil => exact .stay _
  | cons q rest ih =>
    have hfirst : Roams stack ({site index} ∪ ∅) p
        (test S tag q (p.visit (.reached (site index)))) := by
      apply (Roams.reach (site index) true).andThen (test_roams htag q _) (by simp)
      simpa using hopen index
    have hhere : {site index} ∪ ∅ ⊆ {s | ∃ i, index ≤ i ∧ site i = s} := by
      rintro s (rfl | hs)
      · exact ⟨index, Nat.le_refl _, rfl⟩
      · cases hs
    rcases hrun : test S tag q (p.visit (.reached (site index))) with ⟨fault | _ | _, after⟩ <;>
      rw [hrun] at hfirst
    · rw [testAll_of_error hrun]
      exact hfirst.mono hhere
    · rw [testAll_of_false hrun]
      exact hfirst.mono hhere
    · rw [testAll_of_true hrun]
      refine (hfirst.andThen (ih (index + 1) after) ?_ ?_).mono ?_
      · rw [Set.union_empty, Set.disjoint_singleton_left]
        rintro ⟨i, hi, heq⟩
        have := hsite heq
        omega
      · rintro s ((rfl | hs) | ⟨i, _, rfl⟩)
        · exact hopen index
        · cases hs
        · exact hopen i
      · apply Set.union_subset hhere
        rintro s ⟨i, hi, rfl⟩
        exact ⟨i, Nat.le_of_succ_le hi, rfl⟩

theorem testAny_roams {id : Nat} (hid : id ∈ stack) (group : Nat) (groups : List (Group A))
    (p : Progress A) :
    Roams stack {s | ∃ g i, group ≤ g ∧ Site.member id g i = s} p
      (testAny S tag id group groups p) := by
  induction groups generalizing group p with
  | nil => exact .stay _
  | cons members rest ih =>
    have hinjective : (Site.member id group).Injective := fun i j h => (Site.member.inj h).2.2
    have hopen : ∀ i, ∀ id' ∈ (Site.member id group i).tag?, id' ∈ stack := by
      simpa [Site.tag?] using hid
    have hfirst := testAll_roams (S := S) htag hinjective hopen 0 members p
    have hhere : {s | ∃ i, 0 ≤ i ∧ Site.member id group i = s} ⊆
        {s | ∃ g i, group ≤ g ∧ Site.member id g i = s} := by
      rintro s ⟨i, _, rfl⟩
      exact ⟨group, i, Nat.le_refl _, rfl⟩
    rcases hrun : testAll S tag (.member id group) 0 members p with ⟨fault | _ | _, after⟩ <;>
      rw [hrun] at hfirst
    · rw [testAny_of_error hrun]
      exact hfirst.mono hhere
    · rw [testAny_of_false hrun]
      refine (hfirst.andThen (ih (group + 1) after) ?_ ?_).mono ?_
      · rw [Set.disjoint_left]
        rintro s ⟨i, _, rfl⟩ ⟨g, j, hg, heq⟩
        have := (Site.member.inj heq).2.1
        omega
      · rintro s (⟨i, _, rfl⟩ | ⟨g, i, _, rfl⟩) <;> simpa [Site.tag?] using hid
      · apply Set.union_subset hhere
        rintro s ⟨g, i, hg, rfl⟩
        exact ⟨g, i, Nat.le_of_succ_le hg, rfl⟩
    · rw [testAny_of_true hrun]
      exact hfirst.mono hhere

end Tests

/-- A tag is open from when it is entered until it is settled. -/
theorem decideTag_roams (S : Situation A) (stack : List Nat) (id : Nat) (p : Progress A) :
    Roams stack ∅ p (decideTag S stack id p) := by
  cases hknown : p.known.lookup id with
  | some truth =>
    rw [decideTag_of_known hknown]
    exact .stay _
  | none =>
    by_cases hstack : id ∈ stack
    · rw [decideTag_of_open hknown hstack]
      exact .stay _
    · by_cases hid : id < S.tags.length
      · have hgroups := testAny_roams (S := S) (fun other => decideTag_roams S (id :: stack) other)
          List.mem_cons_self 0 S.tags[id].groups (p.visit (.entered id))
        rw [decideTag_of_new hknown hstack hid]
        refine .enter hstack (by simp [Progress.Decided, hknown]) (hgroups.mono ?_)
        rintro s ⟨g, i, _, rfl⟩
        rfl
      · rw [decideTag_of_absent hknown hstack hid]
        exact .stay _
termination_by missing S.tags.length stack
decreasing_by exact missing_cons_lt hid hstack

/-- Between two rules no tag is open. -/
theorem scan_roams {S : Situation A} (index : Nat) (rules : List (Rule A M)) (d : Decision A M)
    (p : Progress A) :
    Roams [] {s | ∃ rule i, index ≤ rule ∧ Site.condition rule i = s} p
      (scan S index rules d p) := by
  induction rules generalizing index d p with
  | nil => exact .stay _
  | cons rule rest ih =>
    have hlater : {s | ∃ rule i, index + 1 ≤ rule ∧ Site.condition rule i = s} ⊆
        {s | ∃ rule i, index ≤ rule ∧ Site.condition rule i = s} := by
      rintro s ⟨rule, i, hrule, rfl⟩
      exact ⟨rule, i, Nat.le_of_succ_le hrule, rfl⟩
    rw [scan]
    by_cases hwants : d.board.wants rule = true
    · rw [if_pos hwants]
      have hinjective : (Site.condition index).Injective := fun i j h => (Site.condition.inj h).2
      have hrule := testAll_roams (S := S) (decideTag_roams S []) hinjective (by simp [Site.tag?]) 0
        rule.conditions p
      have hhere : {s | ∃ i, 0 ≤ i ∧ Site.condition index i = s} ⊆
          {s | ∃ rule i, index ≤ rule ∧ Site.condition rule i = s} := by
        rintro s ⟨i, _, rfl⟩
        exact ⟨index, i, Nat.le_refl _, rfl⟩
      -- the rest of the scan goes on from where the conditions were tested
      have hrest : ∀ {truth : Bool} {after : Progress A} {d : Decision A M},
          Roams [] {s | ∃ i, 0 ≤ i ∧ Site.condition index i = s} p (.ok truth, after) →
            Roams [] {s | ∃ rule i, index ≤ rule ∧ Site.condition rule i = s} p
              (scan S (index + 1) rest d after) := by
        intro truth after d htested
        refine (htested.andThen (ih (index + 1) d after) ?_ ?_).mono (Set.union_subset hhere hlater)
        · rw [Set.disjoint_left]
          rintro s ⟨i, _, rfl⟩ ⟨r, j, hr, heq⟩
          have := (Site.condition.inj heq).1
          omega
        · rintro s (⟨i, _, rfl⟩ | ⟨r, i, _, rfl⟩) <;> simp [Site.tag?]
      rcases hrun : testAll S (decideTag S []) (.condition index) 0 rule.conditions p with
        ⟨fault | _ | _, after⟩ <;> rw [hrun] at hrule
      · exact (hrule.congr (by simp)).mono hhere
      · exact hrest hrule
      · dsimp only
        split
        · exact (hrule.congr (by simp)).mono hhere
        · exact hrest hrule
    · rw [if_neg hwants]
      exact (ih (index + 1) d p).mono hlater

end Evaluation

open Evaluation

def Predicate.question? : Predicate A → Option (Question A)
  | .atom a => some (.atom a)
  | .compare c => some (.comparison c)
  | .tag _ => none
  | .not q => q.question?

namespace Ruleset

def predicateAt? (r : Ruleset A M) : Site → Option (Predicate A)
  | .condition rule index => r.rules[rule]?.bind (·.conditions[index]?)
  | .member tag group index => r.tags[tag]?.bind fun t => t.groups[group]?.bind (·[index]?)

def sites (r : Ruleset A M) : List Site :=
  (r.rules.zipIdx.flatMap fun (rule, i) =>
      (List.range rule.conditions.length).map (.condition i)) ++
    r.tags.zipIdx.flatMap fun (t, id) =>
      t.groups.zipIdx.flatMap fun (g, group) => (List.range g.length).map (.member id group)

theorem mem_sites {r : Ruleset A M} {site : Site} (h : (r.predicateAt? site).isSome) :
    site ∈ r.sites := by
  cases site with
  | condition rule index =>
    simp only [predicateAt?, Option.isSome_bind, Option.any_eq_true] at h
    simp only [sites, List.mem_append]
    left
    obtain ⟨found, hrule, hindex⟩ := h
    refine List.mem_flatMap.mpr ⟨(found, rule), List.mem_zipIdx_iff_getElem?.mpr hrule, ?_⟩
    simpa using hindex
  | member tag group index =>
    simp only [predicateAt?, Option.isSome_bind, Option.any_eq_true] at h
    simp only [sites, List.mem_append]
    right
    obtain ⟨t, htag, g, hgroup, hindex⟩ := h
    refine List.mem_flatMap.mpr ⟨(t, tag), List.mem_zipIdx_iff_getElem?.mpr htag, ?_⟩
    refine List.mem_flatMap.mpr ⟨(g, group), List.mem_zipIdx_iff_getElem?.mpr hgroup, ?_⟩
    simpa using hindex

/-- Numbering the members of a list does not change what they add up to. -/
theorem length_flatMap_zipIdx {α β γ : Type} {f : α × Nat → List β} {g : α → List γ}
    (h : ∀ a i, (f (a, i)).length = (g a).length) (l : List α) :
    (l.zipIdx.flatMap f).length = (l.flatMap g).length := by
  generalize 0 = start
  induction l generalizing start with
  | nil => rfl
  | cons a l ih => simp [List.zipIdx_cons, h, ih]

theorem length_sites (r : Ruleset A M) : r.sites.length = r.predicates.length := by
  simp only [sites, predicates, List.length_append]
  congr 1
  · exact length_flatMap_zipIdx (fun rule i => by simp) _
  · apply length_flatMap_zipIdx
    intro t id
    rw [← List.flatMap_id]
    exact length_flatMap_zipIdx (fun g group => by simp) _

end Ruleset

namespace Evaluation

/-- A trail, the latest visit first, of predicates that are tested where they stand. A question is
asked by the predicate whose site has been reached just before. -/
inductive Tells (r : Ruleset A M) : List (Visit A) → Prop where
  | start : Tells r []
  | enter {id : Nat} {trail : List (Visit A)} (h : Tells r trail) :
      Tells r (.entered id :: trail)
  | reach {site : Site} {q : Predicate A} {trail : List (Visit A)}
      (hsite : r.predicateAt? site = some q) (h : Tells r trail) :
      Tells r (.reached site :: trail)
  | ask {site : Site} {q : Predicate A} {question : Question A} {answer : Bool}
      {trail : List (Visit A)} (hsite : r.predicateAt? site = some q)
      (hq : q.question? = some question) (h : Tells r trail) :
      Tells r (.asked question answer :: .reached site :: trail)

namespace Tells

variable {r : Ruleset A M} {trail : List (Visit A)}

theorem mem_sites (h : Tells r trail) : ∀ site ∈ reached trail, site ∈ r.sites := by
  induction h with
  | start => exact List.forall_mem_nil _
  | enter _ ih => exact ih
  | reach hsite _ ih => exact List.forall_mem_cons.mpr ⟨Ruleset.mem_sites (by simp [hsite]), ih⟩
  | ask hsite _ _ ih => exact List.forall_mem_cons.mpr ⟨Ruleset.mem_sites (by simp [hsite]), ih⟩

/-- A predicate asks one question at most. -/
theorem length_asked_le (h : Tells r trail) : (asked trail).length ≤ (reached trail).length := by
  induction h with
  | start => exact Nat.le_refl 0
  | enter _ ih => exact ih
  | reach _ _ ih => exact Nat.le_succ_of_le ih
  | ask _ _ _ ih => exact Nat.succ_le_succ ih

end Tells

section Tests

variable {r : Ruleset A M} {S : Situation A} {tag : Nat → Test A}
  (htag : ∀ id p, Tells r p.trail → Tells r (tag id p).2.trail)
include htag

theorem test_tells {site : Site} {whole q : Predicate A} (hsite : r.predicateAt? site = some whole)
    (hq : whole.question? = q.question?) {p : Progress A} (hp : Tells r p.trail) :
    Tells r (test S tag q (p.visit (.reached site))).2.trail := by
  induction q with
  | atom a => exact .ask hsite hq hp
  | compare c => exact .ask hsite hq hp
  | tag id => exact htag id _ (.reach hsite hp)
  | not q ih =>
    rw [test_not]
    exact ih hq

theorem testAll_tells {site : Nat → Site} {members : Group A} {index : Nat}
    (hsites : ∀ i q, members[i]? = some q → r.predicateAt? (site (index + i)) = some q)
    {p : Progress A} (hp : Tells r p.trail) :
    Tells r (testAll S tag site index members p).2.trail := by
  induction members generalizing index p with
  | nil => exact hp
  | cons q rest ih =>
    have hfirst := test_tells (S := S) htag (hsites 0 q rfl) rfl hp
    rw [Nat.add_zero] at hfirst
    rcases hrun : test S tag q (p.visit (.reached (site index))) with ⟨fault | _ | _, after⟩ <;>
      rw [hrun] at hfirst
    · rw [testAll_of_error hrun]
      exact hfirst
    · rw [testAll_of_false hrun]
      exact hfirst
    · rw [testAll_of_true hrun]
      refine ih (fun i q' hq' => ?_) hfirst
      rw [Nat.add_assoc, Nat.add_comm 1]
      exact hsites (i + 1) q' hq'

theorem testAny_tells {id : Nat} {groups : List (Group A)} {group : Nat}
    (hsites : ∀ g members i q, groups[g]? = some members → members[i]? = some q →
      r.predicateAt? (.member id (group + g) i) = some q)
    {p : Progress A} (hp : Tells r p.trail) :
    Tells r (testAny S tag id group groups p).2.trail := by
  induction groups generalizing group p with
  | nil => exact hp
  | cons members rest ih =>
    have hfirst : Tells r (testAll S tag (.member id group) 0 members p).2.trail := by
      refine testAll_tells htag (fun i q hq => ?_) hp
      rw [Nat.zero_add]
      exact hsites 0 members i q rfl hq
    rcases hrun : testAll S tag (.member id group) 0 members p with ⟨fault | _ | _, after⟩ <;>
      rw [hrun] at hfirst
    · rw [testAny_of_error hrun]
      exact hfirst
    · rw [testAny_of_false hrun]
      refine ih (fun g members i q hg hq => ?_) hfirst
      rw [Nat.add_assoc, Nat.add_comm 1]
      exact hsites (g + 1) members i q hg hq
    · rw [testAny_of_true hrun]
      exact hfirst

end Tests

theorem decideTag_tells {r : Ruleset A M} {S : Situation A} (hS : S.tags = r.tags)
    (stack : List Nat) (id : Nat) (p : Progress A) (hp : Tells r p.trail) :
    Tells r (decideTag S stack id p).2.trail := by
  cases hknown : p.known.lookup id with
  | some truth =>
    rw [decideTag_of_known hknown]
    exact hp
  | none =>
    by_cases hstack : id ∈ stack
    · rw [decideTag_of_open hknown hstack]
      exact hp
    · by_cases hid : id < S.tags.length
      · rw [decideTag_of_new hknown hstack hid, settle_trail]
        refine testAny_tells (decideTag_tells hS (id :: stack)) (fun g members i q hg hq => ?_)
          (.enter hp)
        have htag : r.tags[id]? = some S.tags[id] := hS ▸ List.getElem?_eq_getElem hid
        simp [Ruleset.predicateAt?, htag, hg, hq]
      · rw [decideTag_of_absent hknown hstack hid]
        exact hp
termination_by missing S.tags.length stack
decreasing_by exact missing_cons_lt hid hstack

theorem scan_tells {r : Ruleset A M} {S : Situation A} (hS : S.tags = r.tags) {index : Nat}
    {rules : List (Rule A M)} (hrules : ∀ k rule, rules[k]? = some rule →
      r.rules[index + k]? = some rule)
    (d : Decision A M) {p : Progress A} (hp : Tells r p.trail) :
    Tells r (scan S index rules d p).2.trail := by
  induction rules generalizing index d p with
  | nil => exact hp
  | cons rule rest ih =>
    have hrest : ∀ k rule, rest[k]? = some rule → r.rules[index + 1 + k]? = some rule := by
      intro k rule hrule
      rw [Nat.add_assoc, Nat.add_comm 1]
      exact hrules (k + 1) rule hrule
    rw [scan]
    split
    · have htested : Tells r
          (testAll S (decideTag S []) (.condition index) 0 rule.conditions p).2.trail := by
        refine testAll_tells (decideTag_tells hS []) (fun i q hq => ?_) hp
        have hrule : r.rules[index]? = some rule := hrules 0 rule rfl
        simp [Ruleset.predicateAt?, hrule, hq]
      rcases hrun : testAll S (decideTag S []) (.condition index) 0 rule.conditions p with
        ⟨fault | _ | _, after⟩ <;> rw [hrun] at htested
      · exact htested
      · exact ih hrest _ htested
      · dsimp only
        split
        · exact htested
        · exact ih hrest _ htested
    · exact ih hrest d hp

def Question.atom? : Question A → Option A
  | .atom a => some a
  | .comparison _ => none

def Progress.hostCalls (p : Progress A) : List A := p.answers.filterMap (·.1.atom?)

theorem Progress.map_fst_answers (p : Progress A) :
    p.answers.map (·.1) = (asked p.trail).reverse := by
  rw [answers, asked, List.map_filterMap, ← List.filterMap_reverse]
  congr
  funext v
  cases v <;> rfl

theorem Progress.length_hostCalls_le (p : Progress A) :
    p.hostCalls.length ≤ (asked p.trail).length := by
  have hlength : p.answers.length = (asked p.trail).length := by
    rw [← List.length_map (·.1), p.map_fst_answers, List.length_reverse]
  exact hlength ▸ List.length_filterMap_le _ _

/-- However often tags are referred to, an evaluation enters a tag once at most and tests the
predicate at a site once at most, whether it comes to an outcome or fails. A predicate inside a tag
is tested only where the tag has been entered, and a question is asked only where a predicate is
tested. So the host is asked no more often than there are predicates. -/
theorem evaluate_visits_once (r : Ruleset A M) (slots : Slots) (holds : A → Bool)
    (numbers : List Float) :
    let p := (r.evaluate slots holds numbers).2
    (entered p.trail).Nodup ∧ (reached p.trail).Nodup ∧ Tells r p.trail ∧
      (∀ site ∈ reached p.trail, ∀ id ∈ site.tag?, id ∈ entered p.trail) ∧
      p.hostCalls.length ≤ r.predicates.length := by
  intro p
  obtain ⟨visits, htrail, hvisits, -⟩ :=
    scan_roams (S := ⟨r.tags, holds, numbers⟩) 0 r.rules ⟨.ofSlots slots, 0⟩ {}
  obtain rfl : visits = p.trail := (List.append_nil visits).symm.trans htrail.symm
  have htells : Tells r p.trail :=
    scan_tells rfl (fun k rule hrule => by rwa [Nat.zero_add]) _ .start
  refine ⟨hvisits.entered_once, hvisits.reached_once, htells, fun site hsite id hid => ?_, ?_⟩
  · rcases hvisits.within site hsite with ⟨rule, i, _, rfl⟩ | ⟨other, hother, hin⟩
    · cases hid
    · exact Option.mem_unique hother hid ▸ hin
  · calc p.hostCalls.length
      _ ≤ (asked p.trail).length := p.length_hostCalls_le
      _ ≤ (reached p.trail).length := htells.length_asked_le
      _ ≤ r.sites.length :=
        (List.subperm_of_subset hvisits.reached_once htells.mem_sites).length_le
      _ = r.predicates.length := r.length_sites

/-- Eight chains of references lead from the rule to the atom, which is asked about once. -/
example :
    let r : Ruleset Bool Unit :=
      { rules := [⟨0, 1, [.tag 2, .not (.tag 2)], [⟨1, ()⟩]⟩]
        tags := [⟨"dim", [[.atom true]]⟩, ⟨"dark", [[.tag 0, .tag 0]]⟩,
          ⟨"night", [[.tag 1, .tag 1]]⟩]
        source := none }
    (r.evaluate ⟨[1], List.pairwise_singleton _ _⟩ id []).2.hostCalls = [true] := by cbv

end Evaluation

end PriorityRules
