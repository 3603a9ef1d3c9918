import Mathlib.Data.List.Forall2
import PriorityRules.Proofs.Evaluation.Cycles
import PriorityRules.Proofs.Evaluation.Resolution

/-! # The order of predicates and of groups

Two rulesets may differ in the order of the predicates in their conjunctions and of the groups in
their tags. Where tags refer to each other in circles, the two evaluations may look at quite
different tags. What they have in common is the meaning of the formulas, which knows no order; so
they decide alike if both of them come to an end.
-/

namespace PriorityRules

variable {A M : Type}

/-- The same groups in some order, each with the same members in some order. -/
def SameGroups (groups groups' : List (Group A)) : Prop :=
  ∃ middle, List.Forall₂ List.Perm groups middle ∧ middle.Perm groups'

structure Tag.Shuffles (t t' : Tag A) : Prop where
  name : t.name = t'.name
  groups : SameGroups t.groups t'.groups

structure Rule.Shuffles (rule rule' : Rule A M) : Prop where
  level : rule.level = rule'.level
  line : rule.line = rule'.line
  conditions : rule.conditions.Perm rule'.conditions
  effects : rule.effects = rule'.effects

structure Ruleset.Shuffles (r r' : Ruleset A M) : Prop where
  rules : List.Forall₂ Rule.Shuffles r.rules r'.rules
  tags : List.Forall₂ Tag.Shuffles r.tags r'.tags

theorem getElem?_of_forall₂ {α β : Type} {R : α → β → Prop} {as : List α} {bs : List β}
    (h : List.Forall₂ R as bs) {i : Nat} {a : α} (ha : as[i]? = some a) :
    ∃ b, bs[i]? = some b ∧ R a b := by
  induction h generalizing i with
  | nil => cases ha
  | @cons a b as bs hab hrest ih =>
    cases i with
    | zero =>
      cases ha
      exact ⟨b, rfl, hab⟩
    | succ i => exact ih ha

theorem exists_of_mem_forall₂ {α β : Type} {R : α → β → Prop} {as : List α} {bs : List β}
    (h : List.Forall₂ R as bs) {a : α} (ha : a ∈ as) : ∃ b ∈ bs, R a b := by
  obtain ⟨i, hi⟩ := List.mem_iff_getElem?.mp ha
  obtain ⟨b, hb, hab⟩ := getElem?_of_forall₂ h hi
  exact ⟨b, List.mem_of_getElem? hb, hab⟩

namespace SameGroups

variable {groups groups' : List (Group A)} {g : Group A}

theorem exists_right (h : SameGroups groups groups') (hg : g ∈ groups) :
    ∃ g' ∈ groups', g.Perm g' := by
  obtain ⟨middle, hmembers, horder⟩ := h
  obtain ⟨g', hg', hperm⟩ := exists_of_mem_forall₂ hmembers hg
  exact ⟨g', horder.mem_iff.mp hg', hperm⟩

theorem exists_left (h : SameGroups groups groups') (hg : g ∈ groups') :
    ∃ g' ∈ groups, g'.Perm g := by
  obtain ⟨middle, hmembers, horder⟩ := h
  have hflip : List.Forall₂ (flip List.Perm) middle groups := List.Forall₂.flip hmembers
  exact exists_of_mem_forall₂ hflip (horder.mem_iff.mpr hg)

end SameGroups

structure Situation.Shuffles (S S' : Situation A) : Prop where
  tags : List.Forall₂ Tag.Shuffles S.tags S'.tags
  holds : S.holds = S'.holds
  numbers : S.numbers = S'.numbers

theorem Situation.Shuffles.padded {S S' : Situation A} (h : S.Shuffles S') (n : Nat) :
    (S.padded n).Shuffles (S'.padded n) := by
  refine ⟨List.rel_append h.tags (List.forall₂_same.mpr ?_), h.holds, h.numbers⟩
  intro t ht
  rw [List.eq_of_mem_replicate ht]
  exact ⟨rfl, [], .nil, .nil⟩

/-- Some tag of the shuffled ones leads back to itself only if it did before. -/
theorem cyclic_of_shuffles {tags tags' : List (Tag A)} (h : List.Forall₂ Tag.Shuffles tags tags')
    (hcyclic : Cyclic tags') : Cyclic tags := by
  have hflip : List.Forall₂ (flip Tag.Shuffles) tags' tags := List.Forall₂.flip h
  obtain ⟨id, hid⟩ := hcyclic
  refine ⟨id, Relation.TransGen.mono (fun id other hleads => ?_) _ _ hid⟩
  obtain ⟨t', ht', g', hg', q, hq, htarget⟩ := hleads
  obtain ⟨t, ht, hshuffles⟩ := getElem?_of_forall₂ hflip ht'
  obtain ⟨g, hg, hperm⟩ := hshuffles.groups.exists_left hg'
  exact ⟨t, ht, g, hg, q, hperm.mem_iff.mpr hq, htarget⟩

namespace Evaluation

variable {S S' : Situation A}

inductive Formula.Shuffles : Formula A → Formula A → Prop
  | one (q : Predicate A) : Shuffles (.one q) (.one q)
  | all {g g' : Group A} (h : g.Perm g') : Shuffles (.all g) (.all g')
  | any {groups groups' : List (Group A)} (h : SameGroups groups groups') :
      Shuffles (.any groups) (.any groups')

/-- Formulas mean the same in whatever order their parts stand. -/
theorem Means.shuffle (hS : S.Shuffles S') {φ φ' : Formula A} {truth : Bool} (h : Means S φ truth)
    (hφ : φ.Shuffles φ') : Means S' φ' truth := by
  induction h generalizing φ' with
  | atom a =>
    cases hφ
    rw [hS.holds]
    exact .atom a
  | compare c =>
    cases hφ
    rw [hS.numbers]
    exact .compare c
  | not h ih =>
    cases hφ
    exact .not (ih (.one _))
  | tag ht h ih =>
    cases hφ
    obtain ⟨t', ht', hshuffles⟩ := getElem?_of_forall₂ hS.tags ht
    exact .tag ht' (ih (.any hshuffles.groups))
  | every h ih =>
    cases hφ with
    | all hperm => exact .every fun q hq => ih q (hperm.mem_iff.mpr hq) (.one q)
  | broken hq h ih =>
    cases hφ with
    | all hperm => exact .broken (hperm.mem_iff.mp hq) (ih (.one _))
  | some hg h ih =>
    cases hφ with
    | any hgroups =>
      obtain ⟨g', hg', hperm⟩ := hgroups.exists_right hg
      exact .some hg' (ih (.all hperm))
  | none h ih =>
    cases hφ with
    | any hgroups =>
      refine .none fun g' hg' => ?_
      obtain ⟨g, hg, hperm⟩ := hgroups.exists_left hg'
      exact ih g hg (.all hperm)

/-- The cells are for the same slot. They are both open, or they show rules from the same place of
the two lists, with the same effect. -/
inductive Cell.Alike (rules rules' : List (Rule A M)) : Cell A M → Cell A M → Prop
  | opened (slot : Int) : Alike rules rules' ⟨slot, none⟩ ⟨slot, none⟩
  | won (slot : Int) {rule rule' : Rule A M} (effect : Effect M)
      (h : (rule, rule') ∈ rules.zip rules') :
      Alike rules rules' ⟨slot, some ⟨rule, effect⟩⟩ ⟨slot, some ⟨rule', effect⟩⟩

structure Decision.Alike (rules rules' : List (Rule A M)) (d d' : Decision A M) : Prop where
  board : List.Forall₂ (Cell.Alike rules rules') d.board d'.board
  examined : d.examined = d'.examined

namespace Board

variable {all all' : List (Rule A M)} {board board' : Board A M} {rule rule' : Rule A M}

theorem alike_ofSlots (slots : Slots) :
    List.Forall₂ (Cell.Alike all all') (Board.ofSlots slots) (Board.ofSlots slots) := by
  apply List.forall₂_same.mpr
  intro cell hcell
  obtain ⟨slot, -, rfl⟩ := List.mem_map.mp hcell
  exact .opened slot

section Alike

variable (h : List.Forall₂ (Cell.Alike all all') board board')
include h

theorem isOpen_alike (slot : Int) : board.isOpen slot = board'.isOpen slot := by
  induction h with
  | nil => rfl
  | cons hcell hrest ih =>
    rw [isOpen, List.any_cons, ← isOpen, ih]
    cases hcell <;> rfl

theorem wants_alike (heffects : rule.effects = rule'.effects) :
    board.wants rule = board'.wants rule' := by
  rw [wants, wants, heffects]
  congr 1
  funext e
  exact isOpen_alike h e.slot

theorem isFull_alike : board.isFull = board'.isFull := by
  induction h with
  | nil => rfl
  | cons hcell hrest ih =>
    rw [isFull, List.all_cons, ← isFull, ih]
    cases hcell <;> rfl

theorem claim_alike (hplace : (rule, rule') ∈ all.zip all')
    (heffects : rule.effects = rule'.effects) :
    List.Forall₂ (Cell.Alike all all') (board.claim rule) (board'.claim rule') := by
  rw [claim, claim, List.forall₂_map_left_iff, List.forall₂_map_right_iff, ← heffects]
  refine h.imp fun cell cell' hcell => ?_
  cases hcell with
  | opened slot =>
    dsimp only
    rw [Option.none_or, Option.none_or]
    cases rule.effects.find? (·.slot = slot) with
    | none => exact .opened slot
    | some effect => exact .won slot effect hplace
  | won slot effect hold => exact .won slot effect hold

theorem apply_alike {C : Type} (perform : M → C → C) (context : C) :
    board.apply perform context = board'.apply perform context := by
  have heffects : board.effects = board'.effects := by
    induction h with
    | nil => rfl
    | cons hcell hrest ih =>
      rw [effects, List.filterMap_cons, ← effects, ih]
      cases hcell <;> rfl
  rw [apply_eq, apply_eq, heffects]

theorem verdicts_alike (hrules : List.Forall₂ Rule.Shuffles all all') :
    board.verdicts = board'.verdicts := by
  induction h with
  | nil => rfl
  | cons hcell hrest ih =>
    rw [verdicts, List.filterMap_cons, ← verdicts, ih]
    cases hcell with
    | opened slot => rfl
    | won slot effect hplace =>
      have hshuffles := List.forall₂_zip hrules hplace
      rw [Option.map_some, hshuffles.level, hshuffles.line]
      rfl

end Alike

end Board

theorem Decision.Alike.report_eq {all all' : List (Rule A M)} {d d' : Decision A M}
    (h : d.Alike all all' d') (hrules : List.Forall₂ Rule.Shuffles all all') :
    d.report = d'.report := by
  have hverdicts := Board.verdicts_alike h.board hrules
  rw [report, report, h.examined]
  exact congrArg (Report.mk · _) hverdicts

section Scan

variable {n : Nat} {rules rules' all all' : List (Rule A M)} {d d' e e' : Decision A M}
  {p p' q q' : Progress A} {index index' : Nat}

/-- Conjunctions with the same members get the same answer, if they get one. -/
theorem answer_unique (hS : S.Shuffles S') {g g' : Group A} (hperm : g.Perm g')
    {truth truth' : Bool} (h : Reads (S.padded n) (.all g) truth)
    (h' : Reads (S'.padded n) (.all g') truth') : truth = truth' :=
  (h.means.shuffle (hS.padded n) (.all hperm)).unique h'.means

/-- Two scans that come to their ends decide alike. -/
theorem scan_alike (hS : S.Shuffles S') (hrules : List.Forall₂ Rule.Shuffles rules rules')
    (hplaces : rules.zip rules' ⊆ all.zip all') (hcovers : Covers n S rules)
    (hcovers' : Covers n S' rules') (hd : d.Alike all all' d') (hp : p.Sound (S.padded n))
    (hp' : p'.Sound (S'.padded n)) (hrun : (scan S index rules d p).1 = .ok e)
    (hrun' : (scan S' index' rules' d' p').1 = .ok e') : e.Alike all all' e' := by
  induction hrules generalizing d d' p p' index index' with
  | nil =>
    cases hrun
    cases hrun'
    exact hd
  | @cons rule rule' rest rest' hrule hrest ih =>
    rw [List.zip_cons_cons, List.cons_subset] at hplaces
    obtain ⟨hplace, hplaces⟩ := hplaces
    have hwants := Board.wants_alike hd.board hrule.effects
    rw [scan] at hrun hrun'
    rw [← hwants] at hrun'
    split at hrun
    · rename_i hwanted
      rw [if_pos hwanted] at hrun'
      rcases hfirst : testAll S (decideTag S []) (.condition index) 0 rule.conditions p with
        ⟨fault | truth, after⟩
      · rw [hfirst] at hrun
        cases hrun
      rcases hfirst' : testAll S' (decideTag S' []) (.condition index') 0 rule'.conditions p' with
        ⟨fault | truth', after'⟩
      · rw [hfirst'] at hrun'
        cases hrun'
      obtain ⟨hreads, hafter⟩ := reads_of_testAll hcovers.tags hcovers.head hp hfirst
      obtain ⟨hreads', hafter'⟩ := reads_of_testAll hcovers'.tags hcovers'.head hp' hfirst'
      -- the conditions mean the same in both orders, and each answer is what they mean
      obtain rfl : truth = truth' := answer_unique hS hrule.conditions hreads hreads'
      rw [hfirst] at hrun
      rw [hfirst'] at hrun'
      have hexamined : d.examined + 1 = d'.examined + 1 := congrArg (· + 1) hd.examined
      cases truth with
      | false =>
        have hpass : Decision.Alike all all' { d with examined := d.examined + 1 }
            { d' with examined := d'.examined + 1 } := ⟨hd.board, hexamined⟩
        exact ih hplaces hcovers.tail hcovers'.tail hpass hafter hafter' hrun hrun'
      | true =>
        have hclaim := Board.claim_alike hd.board hplace hrule.effects
        dsimp only at hrun hrun'
        rw [← Board.isFull_alike hclaim] at hrun'
        split at hrun
        · rename_i hfull
          rw [if_pos hfull] at hrun'
          cases hrun
          cases hrun'
          exact ⟨hclaim, hexamined⟩
        · rename_i hopen
          rw [if_neg hopen] at hrun'
          exact ih hplaces hcovers.tail hcovers'.tail ⟨hclaim, hexamined⟩ hafter hafter' hrun hrun'
    · rename_i hunwanted
      rw [if_neg hunwanted] at hrun'
      exact ih hplaces hcovers.tail hcovers'.tail hd hp hp' hrun hrun'

end Scan

/-- Rulesets that differ in the order of predicates and groups only decide alike, for all slots and
in every situation, if both evaluations come to an end; and both do if no tag leads back to
itself. -/
theorem evaluate_shuffled {r r' : Ruleset A M} (h : r.Shuffles r') (slots : Slots)
    (holds : A → Bool) (numbers : List Float) :
    (∀ d d', (r.evaluate slots holds numbers).1 = .ok d →
      (r'.evaluate slots holds numbers).1 = .ok d' →
        d.Alike r.rules r'.rules d' ∧ d.report = d'.report ∧
          ∀ (C : Type) (perform : M → C → C) (context : C),
            d.board.apply perform context = d'.board.apply perform context) ∧
    (¬Cyclic r.tags → (∃ d, (r.evaluate slots holds numbers).1 = .ok d) ∧
      ∃ d', (r'.evaluate slots holds numbers).1 = .ok d') := by
  obtain ⟨n, hwithin⟩ := exists_within (r.predicates ++ r'.predicates)
  obtain ⟨hleft, hright⟩ := List.forall_mem_append.mp hwithin
  have hcovers := covers_of_within hleft holds numbers
  have hcovers' := covers_of_within hright holds numbers
  have hS : Situation.Shuffles ⟨r.tags, holds, numbers⟩ ⟨r'.tags, holds, numbers⟩ :=
    ⟨h.tags, rfl, rfl⟩
  constructor
  · intro d d' hrun hrun'
    have halike := scan_alike hS h.rules (List.Subset.refl _) hcovers hcovers'
      ⟨Board.alike_ofSlots slots, rfl⟩ Progress.Sound.empty Progress.Sound.empty hrun hrun'
    exact ⟨halike, halike.report_eq h.rules, fun C => Board.apply_alike halike.board⟩
  · intro hacyclic
    constructor
    · exact scan_ok_of_acyclic hcovers hacyclic Progress.Sound.empty
    · exact scan_ok_of_acyclic hcovers' (mt (cyclic_of_shuffles h.tags) hacyclic)
        Progress.Sound.empty

/-- Each of the two tags refers to the other one. The first one holds by its first group. -/
def crossing : Ruleset Bool Unit where
  rules := [⟨0, 1, [.tag 0, .atom true], [⟨0, ()⟩]⟩]
  tags := [⟨"gate", [[.atom true], [.tag 1]]⟩, ⟨"bar", [[.tag 0, .atom false]]⟩]
  source := none

/-- Here the first tag is tried by way of the second one, which fails before it comes back. -/
def crossed : Ruleset Bool Unit where
  rules := [⟨0, 1, [.atom true, .tag 0], [⟨0, ()⟩]⟩]
  tags := [⟨"gate", [[.tag 1], [.atom true]]⟩, ⟨"bar", [[.atom false, .tag 0]]⟩]
  source := none

theorem crossing_shuffles : crossing.Shuffles crossed := by
  refine ⟨.cons ⟨rfl, rfl, .swap _ _ _, rfl⟩ .nil, .cons ⟨rfl, ?_⟩ (.cons ⟨rfl, ?_⟩ .nil)⟩
  · exact ⟨_, List.forall₂_same.mpr fun _ _ => .refl _, .swap _ _ _⟩
  · exact ⟨_, .cons (.swap _ _ _) .nil, .refl _⟩

theorem crossing_cyclic : Cyclic crossing.tags := by
  refine ⟨0, .tail (.single ⟨_, rfl, [.tag 1], ?_, .tag 1, ?_, rfl⟩)
    ⟨_, rfl, [.tag 0, .atom false], ?_, .tag 0, ?_, rfl⟩⟩ <;> simp

/-- The two evaluations enter different tags, and the same rule fills the slot. -/
theorem crossing_decides_alike :
    let slots : Slots := ⟨[0], by simp⟩
    crossing.Shuffles crossed ∧ Cyclic crossing.tags ∧
      ∃ d d', (crossing.evaluate slots id []).1 = .ok d ∧
        (crossed.evaluate slots id []).1 = .ok d' ∧
        d.Alike crossing.rules crossed.rules d' ∧ d'.report = ⟨[⟨0, 0, 1⟩], 1⟩ := by
  intro slots
  have hrun : (crossing.evaluate slots id []).1 =
      .ok ⟨[⟨0, some ⟨⟨0, 1, [.tag 0, .atom true], [⟨0, ()⟩]⟩, ⟨0, ()⟩⟩⟩], 1⟩ := by cbv
  have hrun' : (crossed.evaluate slots id []).1 =
      .ok ⟨[⟨0, some ⟨⟨0, 1, [.atom true, .tag 0], [⟨0, ()⟩]⟩, ⟨0, ()⟩⟩⟩], 1⟩ := by cbv
  obtain ⟨halike, hreport, -⟩ :=
    (evaluate_shuffled crossing_shuffles slots id []).1 _ _ hrun hrun'
  exact ⟨crossing_shuffles, crossing_cyclic, _, _, hrun, hrun', halike, hreport ▸ rfl⟩

end Evaluation

end PriorityRules
