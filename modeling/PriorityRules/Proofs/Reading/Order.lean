import PriorityRules.Reading.Tiers

/-! # Evaluation order

Evaluation order is the one arrangement of rules in which levels descend and the rules of each
level stand as they do in the text. Sorting by level gives it, and so do the tiers in which rules
are kept while a text is read.
-/

namespace PriorityRules

variable {A M : Type}

def atLevel (level : Int) (rules : List (Rule A M)) : List (Rule A M) :=
  rules.filter (·.level = level)

def Descending (rules : List (Rule A M)) : Prop := rules.Pairwise fun a b => b.level ≤ a.level

/-- The rules are those of the list by descending level, and none has overtaken another one of its
level. -/
structure SortedByLevel (list rules : List (Rule A M)) : Prop where
  perm : rules.Perm list
  descending : Descending rules
  stable : ∀ level, atLevel level rules = atLevel level list

section AtLevel

variable {level : Int} {rule other : Rule A M} {rules others : List (Rule A M)}

theorem mem_atLevel : rule ∈ atLevel level rules ↔ rule ∈ rules ∧ rule.level = level := by
  simp [atLevel]

@[simp] theorem atLevel_nil : atLevel level ([] : List (Rule A M)) = [] := rfl

@[simp] theorem atLevel_append :
    atLevel level (rules ++ others) = atLevel level rules ++ atLevel level others :=
  List.filter_append rules others

theorem atLevel_cons_self : atLevel rule.level (rule :: rules) = rule :: atLevel rule.level rules :=
  List.filter_cons_of_pos (by simp)

theorem atLevel_cons_of_ne (h : rule.level ≠ level) :
    atLevel level (rule :: rules) = atLevel level rules :=
  List.filter_cons_of_neg (by simpa using h)

theorem atLevel_eq_nil (h : ∀ rule ∈ rules, rule.level ≠ level) : atLevel level rules = [] := by
  simpa [atLevel] using h

theorem atLevel_eq_self (h : ∀ rule ∈ rules, rule.level = level) : atLevel level rules = rules := by
  simpa [atLevel] using h

theorem mem_iff_of_atLevel (h : ∀ level, atLevel level rules = atLevel level others) :
    rule ∈ rules ↔ rule ∈ others := by
  have hlevel : rule ∈ atLevel rule.level rules ↔ rule ∈ atLevel rule.level others := by rw [h]
  simpa [mem_atLevel] using hlevel

theorem Descending.level_le_head (h : Descending (rule :: rules)) (hmem : other ∈ rule :: rules) :
    other.level ≤ rule.level := by
  rcases List.mem_cons.mp hmem with rfl | hrest
  · exact Int.le_refl _
  · exact (List.pairwise_cons.mp h).1 other hrest

/-- Descending lists with the same rules at each level are the same. -/
theorem Descending.eq_of_atLevel (h : Descending rules) (h' : Descending others)
    (heq : ∀ level, atLevel level rules = atLevel level others) : rules = others := by
  induction rules generalizing others with
  | nil =>
    symm
    apply List.eq_nil_iff_forall_not_mem.mpr
    exact fun rule hrule => List.not_mem_nil ((mem_iff_of_atLevel heq).mpr hrule)
  | cons rule rules ih =>
    cases others with
    | nil => exact absurd ((mem_iff_of_atLevel heq).mp List.mem_cons_self) List.not_mem_nil
    | cons other others =>
      have hlevel : other.level = rule.level := by
        have hle := h.level_le_head ((mem_iff_of_atLevel heq).mpr List.mem_cons_self)
        have hge := h'.level_le_head ((mem_iff_of_atLevel heq).mp List.mem_cons_self)
        omega
      have hhead := heq rule.level
      rw [atLevel_cons_self, ← hlevel, atLevel_cons_self] at hhead
      obtain ⟨rfl, -⟩ := List.cons.inj hhead
      congr 1
      refine ih (List.pairwise_cons.mp h).2 (List.pairwise_cons.mp h').2 fun level => ?_
      by_cases hrule : rule.level = level
      · subst hrule
        exact (List.cons.inj hhead).2
      · simpa only [atLevel_cons_of_ne hrule] using heq level

/-- What holds along each level holds between any two rules of one level. -/
theorem pairwise_of_atLevel {R : Rule A M → Rule A M → Prop}
    (h : ∀ level, (atLevel level rules).Pairwise R) :
    rules.Pairwise fun a b => a.level = b.level → R a b := by
  apply List.pairwise_iff_forall_sublist.mpr
  intro a b hsub hlevel
  have hpair := List.pairwise_filter.mp (h a.level)
  exact List.pairwise_iff_forall_sublist.mp hpair hsub (by simp) (by simp [hlevel])

end AtLevel

namespace Ruleset

variable {level : Int} {rules : List (Rule A M)}

theorem inOrder_perm : (inOrder rules).Perm rules := List.mergeSort_perm _ _

/-- Sorting keeps what descends already. -/
theorem sublist_inOrder {part : List (Rule A M)} (h : Descending part) (hsub : part.Sublist rules) :
    part.Sublist (inOrder rules) := by
  refine List.sublist_mergeSort ?_ ?_ (h.imp fun hle => decide_eq_true hle) hsub
  · intro a b c hab hbc
    simp at hab hbc ⊢
    omega
  · intro a b
    simp
    omega

theorem descending_inOrder : Descending (inOrder rules) := by
  refine (List.pairwise_mergeSort ?_ ?_ rules).imp of_decide_eq_true
  · intro a b c hab hbc
    simp at hab hbc ⊢
    omega
  · intro a b
    simp
    omega

theorem descending_atLevel : Descending (atLevel level rules) := by
  apply List.pairwise_filter.mpr
  apply List.pairwise_of_forall
  intro a b ha hb
  simp at ha hb
  omega

@[simp] theorem atLevel_inOrder : atLevel level (inOrder rules) = atLevel level rules := by
  have hsub : (atLevel level rules).Sublist (inOrder rules) :=
    sublist_inOrder descending_atLevel List.filter_sublist
  have hfilter : (atLevel level rules).Sublist (atLevel level (inOrder rules)) := by
    have h := hsub.filter (·.level = level)
    rwa [← atLevel, atLevel_eq_self fun rule hrule => (mem_atLevel.mp hrule).2] at h
  exact (hfilter.eq_of_length (inOrder_perm.filter _).length_eq.symm).symm

theorem inOrder_sortedByLevel : SortedByLevel rules (inOrder rules) :=
  ⟨inOrder_perm, descending_inOrder, fun _ => atLevel_inOrder⟩

theorem inOrder_eq_of_atLevel {others : List (Rule A M)}
    (h : ∀ level, atLevel level rules = atLevel level others) : inOrder rules = inOrder others :=
  descending_inOrder.eq_of_atLevel descending_inOrder (by simpa using h)

end Ruleset

section EraseReps

variable {a : Int} {rest done : List Int}

theorem mem_eraseRepsLoop {x : Int} :
    x ∈ List.eraseRepsBy.loop (· == ·) a rest done ↔ x ∈ done ∨ x ∈ a :: rest := by
  induction rest generalizing a done with
  | nil => simp [List.eraseRepsBy.loop, or_comm]
  | cons b rest ih =>
    rw [List.eraseRepsBy.loop]
    split
    · rename_i heq
      simp [ih, eq_of_beq heq]
    · simp only [ih, List.mem_cons, or_assoc, or_left_comm]

/-- Where levels descend, equal ones stand together, so leaving out repetitions makes them
distinct. -/
theorem eraseRepsLoop_descending (hdone : (done.reverse ++ [a]).Pairwise (· > ·))
    (hrest : (a :: rest).Pairwise (· ≥ ·)) :
    (List.eraseRepsBy.loop (· == ·) a rest done).Pairwise (· > ·) := by
  induction rest generalizing a done with
  | nil => simpa [List.eraseRepsBy.loop] using hdone
  | cons b rest ih =>
    obtain ⟨hfirst, hnext⟩ := List.pairwise_cons.mp hrest
    rw [List.eraseRepsBy.loop]
    split
    · rename_i heq
      exact ih hdone (eq_of_beq heq ▸ hnext)
    · rename_i hne
      have hlt : a > b := by
        have hle := hfirst b List.mem_cons_self
        have := ne_of_beq_false hne
        omega
      refine ih ?_ hnext
      rw [List.reverse_cons, List.pairwise_append]
      refine ⟨hdone, List.pairwise_singleton _ _, ?_⟩
      intro x hx y hy
      rw [List.mem_singleton.mp hy]
      rcases List.mem_append.mp hx with hx | hx
      · have := (List.pairwise_append.mp hdone).2.2 x hx a List.mem_cons_self
        omega
      · rwa [List.mem_singleton.mp hx]

end EraseReps

namespace Ruleset

variable {r : Ruleset A M} {level : Int}

theorem mem_levels : level ∈ r.levels ↔ ∃ rule ∈ r.rules, rule.level = level := by
  rw [levels, ← List.mem_map]
  cases r.rules.map (·.level) with
  | nil => simp [List.eraseReps, List.eraseRepsBy]
  | cons first rest => simp [List.eraseReps, List.eraseRepsBy, mem_eraseRepsLoop]

theorem levels_descending (h : Descending r.rules) : r.levels.Pairwise (· > ·) := by
  have hmap : (r.rules.map (·.level)).Pairwise (· ≥ ·) := List.pairwise_map.mpr h
  rw [levels]
  generalize r.rules.map (·.level) = list at hmap ⊢
  cases list with
  | nil => simp [List.eraseReps, List.eraseRepsBy]
  | cons first rest => exact eraseRepsLoop_descending (List.pairwise_singleton _ _) hmap

end Ruleset

namespace Reading

variable {level : Int} {rule : Rule A M}

/-- A rule goes behind the rules of its level, and no other level is touched. -/
theorem atLevel_addRule {tiers : List (Tier A M)}
    (h : ∀ tier ∈ tiers, ∀ r ∈ tier.rules, r.level = tier.level) :
    atLevel level ((addRule rule tiers).reverse.flatMap (·.rules)) =
      atLevel level (tiers.reverse.flatMap (·.rules)) ++ atLevel level [rule] := by
  induction tiers with
  | nil => simp [addRule]
  | cons tier rest ih =>
    obtain ⟨hfirst, hrest⟩ := List.forall_mem_cons.mp h
    rw [addRule]
    split
    · simp
    · split
      · simp
      · rename_i hlt hne
        -- the tier is not at the level of the rule, so only one of the two can be at `level`
        have hcomm : atLevel level tier.rules ++ atLevel level [rule] =
            atLevel level [rule] ++ atLevel level tier.rules := by
          by_cases hrule : rule.level = level
          · have hnone : atLevel level tier.rules = [] := by
              apply atLevel_eq_nil
              intro r hr heq
              exact hne (hrule.trans (heq.symm.trans (hfirst r hr)))
            simp [hnone]
          · rw [atLevel_cons_of_ne hrule]
            simp
        simp [ih hrest, hcomm]

namespace Tiers

theorem atLevel_inOrder_add (t : Tiers A M) :
    atLevel level (t.add rule).inOrder = atLevel level t.inOrder ++ atLevel level [rule] :=
  atLevel_addRule t.uniform

theorem descending_inOrder (t : Tiers A M) : Descending t.inOrder := by
  have hascending := List.pairwise_map.mp t.ascending
  apply List.pairwise_flatMap.mpr
  constructor
  · intro tier htier
    apply List.Pairwise.imp_of_mem (p := List.pairwise_of_forall (l := tier.rules)
      (fun _ _ => True.intro))
    intro a b ha hb _
    have hmem := List.mem_reverse.mp htier
    have hlevel := t.uniform tier hmem a ha
    have hlevel' := t.uniform tier hmem b hb
    omega
  · apply List.pairwise_reverse.mpr
    apply List.Pairwise.imp_of_mem (p := hascending)
    intro tier other htier hother hlt a ha b hb
    rw [t.uniform tier htier b hb, t.uniform other hother a ha]
    exact Int.le_of_lt hlt

def ofRules (rules : List (Rule A M)) : Tiers A M := rules.foldl add empty

theorem ofRules_snoc (rules : List (Rule A M)) (rule : Rule A M) :
    ofRules (rules ++ [rule]) = (ofRules rules).add rule := by
  simp [ofRules]

theorem atLevel_inOrder_foldl (t : Tiers A M) (rules : List (Rule A M)) :
    atLevel level (rules.foldl add t).inOrder = atLevel level t.inOrder ++ atLevel level rules := by
  induction rules generalizing t with
  | nil => simp
  | cons rule rules ih =>
    rw [List.foldl_cons, ih, atLevel_inOrder_add, List.append_assoc, ← atLevel_append]
    rfl

/-- The tiers hold the rules in evaluation order. -/
theorem inOrder_ofRules (rules : List (Rule A M)) :
    (ofRules rules).inOrder = Ruleset.inOrder rules := by
  apply (descending_inOrder _).eq_of_atLevel Ruleset.descending_inOrder
  intro level
  rw [ofRules, atLevel_inOrder_foldl, Ruleset.atLevel_inOrder]
  rfl

end Tiers

end Reading

end PriorityRules
