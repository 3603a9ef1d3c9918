import PriorityRules.Proofs.Engine.Loading
import PriorityRules.Proofs.Evaluation.Cycles
import PriorityRules.Proofs.Evaluation.Resolution
import PriorityRules.Proofs.Reading.Denotation

/-! # The path of a circular reference

The path that a failed evaluation reports is read off the stack of open tags. Each tag on the stack
refers to the one that was opened next, and none is on the stack twice. The path is therefore a
chain of references that starts at a rule and comes back to one of its own tags.
-/

namespace PriorityRules

variable {A M : Type}

namespace Evaluation

variable {S : Situation A} {stack : List Nat} {id : Nat} {p : Progress A}
  {fault : EvaluationFault}

/-- Tags, the latest first, each of which is referred to by the one before it. -/
abbrev Chained (tags : List (Tag A)) (ids : List Nat) : Prop :=
  ids.IsChain fun later earlier => Leads tags earlier later

/-- The fault shows a stack of open tags that begins with `start`, and the reference from its top
to a tag inside it. -/
def ComesBack (S : Situation A) (start : List Nat) (fault : EvaluationFault) : Prop :=
  ∃ id ids, fault = .circularTag (pathOf S (id :: ids)) ∧ start <:+ id :: ids ∧ id ∈ ids ∧
    ids.Nodup ∧ Chained S.tags (id :: ids)

theorem decideTag_comesBack (stack : List Nat) {id : Nat} {p : Progress A}
    (hchain : Chained S.tags (id :: stack)) (hstack : stack.Nodup)
    (h : (decideTag S stack id p).1 = .error fault) : ComesBack S (id :: stack) fault := by
  cases hknown : p.known.lookup id with
  | some truth =>
    rw [decideTag_of_known hknown] at h
    cases h
  | none =>
    by_cases hopen : id ∈ stack
    · rw [decideTag_of_open hknown hopen] at h
      cases h
      exact ⟨id, stack, rfl, List.suffix_rfl, hopen, hstack, hchain⟩
    · by_cases hid : id < S.tags.length
      · rw [decideTag_of_new hknown hopen hid, settle_fst] at h
        obtain ⟨g, hg, q, hq, other, hother, p', hfault⟩ := fault_of_testAny h
        have hleads : Leads S.tags id other :=
          ⟨S.tags[id], List.getElem?_eq_getElem hid, g, hg, q, hq, hother⟩
        -- the stack stays a chain without repetitions, so that a tag met again closes a circle
        obtain ⟨last, ids, hpath, hstart, hcircle⟩ := decideTag_comesBack (id :: stack)
          (hchain.cons_cons hleads) (List.nodup_cons.mpr ⟨hopen, hstack⟩) hfault
        exact ⟨last, ids, hpath, (List.suffix_cons other _).trans hstart, hcircle⟩
      · rw [decideTag_of_absent hknown hopen hid] at h
        cases h
termination_by missing S.tags.length stack
decreasing_by exact missing_cons_lt hid hopen

/-- A scan fails at a rule with an effect for an expected slot. -/
theorem fault_of_scan {rules : List (Rule A M)} {index : Nat} {d : Decision A M}
    (h : (scan S index rules d p).1 = .error fault) :
    ∃ rule ∈ rules, (∃ slot ∈ d.board.slots, rule.Targets slot) ∧
      ∃ q ∈ rule.conditions, ∃ id ∈ q.target?, ∃ p, (decideTag S [] id p).1 = .error fault := by
  induction rules generalizing index d p with
  | nil => cases h
  | cons rule rest ih =>
    have later : ∀ {index : Nat} {d' : Decision A M} {p : Progress A},
        (scan S index rest d' p).1 = .error fault → d'.board.slots = d.board.slots →
          ∃ r ∈ rule :: rest, (∃ slot ∈ d.board.slots, r.Targets slot) ∧ ∃ q ∈ r.conditions,
            ∃ id ∈ q.target?, ∃ p, (decideTag S [] id p).1 = .error fault := by
      intro index d' p hrun hslots
      obtain ⟨r, hr, htargets, hfault⟩ := ih hrun
      rw [hslots] at htargets
      exact ⟨r, List.mem_cons_of_mem _ hr, htargets, hfault⟩
    rw [scan] at h
    split at h
    · rename_i hwants
      obtain ⟨cell, hcell, -, htargets⟩ := Board.wants_iff.mp hwants
      split at h
      · rename_i hrun
        cases h
        exact ⟨rule, List.mem_cons_self, ⟨cell.slot, List.mem_map_of_mem hcell, htargets⟩,
          fault_of_testAll (congrArg Prod.fst hrun)⟩
      · exact later h rfl
      · dsimp only at h
        split at h
        · cases h
        · exact later h (Board.slots_claim d.board rule)
    · exact later h rfl

theorem lt_of_chained {tags : List (Tag A)} {id : Nat} {ids : List Nat}
    (h : Chained tags (id :: ids)) : ∀ other ∈ ids, other < tags.length := by
  induction ids generalizing id with
  | nil => simp
  | cons earlier rest ih =>
    obtain ⟨⟨t, ht, -⟩, hrest⟩ := List.isChain_cons_cons.mp h
    exact List.forall_mem_cons.mpr ⟨(List.getElem?_eq_some_iff.mp ht).1, ih hrest⟩

end Evaluation

namespace Ruleset

open Evaluation

variable {r : Ruleset A M}

def Mentions (r : Ruleset A M) (q : Predicate A) (name : String) : Prop :=
  ∃ id t, q.target? = some id ∧ r.tags[id]? = some t ∧ t.name = name

def Refers (r : Ruleset A M) (name other : String) : Prop :=
  ∃ t ∈ r.tags, t.name = name ∧ ∃ g ∈ t.groups, ∃ q ∈ g, r.Mentions q other

/-- A rule that could fill one of the slots refers to the first tag of the path, and every tag of it
to the next. All but the last one are different, and the last one is among them just once. -/
structure Circular (r : Ruleset A M) (slots : Slots) (path : List String) : Prop where
  long : 2 ≤ path.length
  start : ∃ first ∈ path.head?, ∃ rule ∈ r.rules, (∃ slot ∈ slots.ids, rule.Targets slot) ∧
    ∃ q ∈ rule.conditions, r.Mentions q first
  chain : path.IsChain r.Refers
  distinct : path.dropLast.Nodup
  closed : ∃ last ∈ path.getLast?, path.dropLast.count last = 1

def nameOf (r : Ruleset A M) (id : Nat) : String := (r.tags[id]?.map (·.name)).getD ""

theorem nameOf_eq {id : Nat} (hid : id < r.tags.length) : r.nameOf id = r.tags[id].name := by
  simp [nameOf, hid]

theorem nameOf_injOn (h : r.tagNames.Nodup) {i j : Nat} (hi : i < r.tags.length)
    (hj : j < r.tags.length) (heq : r.nameOf i = r.nameOf j) : i = j := by
  rw [nameOf_eq hi, nameOf_eq hj] at heq
  have hi' : i < r.tagNames.length := by simpa [tagNames] using hi
  have hj' : j < r.tagNames.length := by simpa [tagNames] using hj
  have hsame : r.tagNames[i] = r.tagNames[j] := by simpa [tagNames] using heq
  exact h.getElem_inj_iff.mp hsame

theorem mentions_nameOf {q : Predicate A} {id : Nat} (hq : q.target? = some id)
    (hid : id < r.tags.length) : r.Mentions q (r.nameOf id) :=
  ⟨id, r.tags[id], hq, List.getElem?_eq_getElem hid, (nameOf_eq hid).symm⟩

theorem refers_nameOf (hr : r.Closed) {id other : Nat} (h : Leads r.tags id other) :
    r.Refers (r.nameOf id) (r.nameOf other) := by
  obtain ⟨t, ht, g, hg, q, hq, htarget⟩ := h
  obtain ⟨hid, rfl⟩ := List.getElem?_eq_some_iff.mp ht
  have hother := (hr.tags _ (List.getElem_mem hid) g hg q hq).target_lt htarget
  exact ⟨_, List.getElem_mem hid, (nameOf_eq hid).symm, g, hg, q, hq,
    mentions_nameOf htarget hother⟩

/-- A stack that comes back shows in the names as it does in the numbers. -/
theorem circular_of_comesBack (hr : r.Closed) (hnames : r.tagNames.Nodup) {slots : Slots}
    {holds : A → Bool} {numbers : List Float} {rule : Rule A M} (hrule : rule ∈ r.rules)
    (htargets : ∃ slot ∈ slots.ids, rule.Targets slot) {q : Predicate A}
    (hq : q ∈ rule.conditions) {id : Nat} (hid : q.target? = some id) {path : List String}
    (h : ComesBack ⟨r.tags, holds, numbers⟩ [id] (.circularTag path)) :
    r.Circular slots path := by
  obtain ⟨last, ids, hpath, hstart, hlast, hnodup, hchain⟩ := h
  obtain rfl : path = (last :: ids).reverse.map r.nameOf := EvaluationFault.circularTag.inj hpath
  have hthere : ∀ other ∈ ids, other < r.tags.length := lt_of_chained hchain
  have hdropLast : ((last :: ids).reverse.map r.nameOf).dropLast = ids.reverse.map r.nameOf := by
    simp
  have hdistinct : (ids.reverse.map r.nameOf).Nodup := by
    refine List.Nodup.map_on (fun i hi j hj => ?_) (List.nodup_reverse.mpr hnodup)
    exact nameOf_injOn hnames (hthere i (List.mem_reverse.mp hi))
      (hthere j (List.mem_reverse.mp hj))
  constructor
  · have := List.length_pos_of_mem hlast
    simp only [List.length_map, List.length_reverse, List.length_cons]
    omega
  · obtain ⟨above, habove⟩ := hstart
    rw [← habove]
    refine ⟨r.nameOf id, by simp, rule, hrule, htargets, q, hq, ?_⟩
    exact mentions_nameOf hid ((hr.rules rule hrule q hq).target_lt hid)
  · rw [List.isChain_map, List.isChain_reverse]
    exact hchain.imp fun later earlier hleads => refers_nameOf hr hleads
  · rw [hdropLast]
    exact hdistinct
  · rw [hdropLast]
    refine ⟨r.nameOf last, by simp, List.count_eq_one_of_mem hdistinct ?_⟩
    exact List.mem_map_of_mem (List.mem_reverse.mpr hlast)

end Ruleset

namespace Vocabulary

open Evaluation

/-- Where a ruleset that has been read cannot be evaluated, the path that is reported is a circle of
references which a rule with an effect for an expected slot leads into. So no evaluation fails if no
tag leads back to itself. -/
theorem circular_path_of_read {V : Vocabulary A M} {text : String} {r : Ruleset A M}
    (h : (V.read text).outcome = .ok r) (slots : Slots) (holds : A → Bool)
    (numbers : List Float) :
    (∀ path, (r.evaluate slots holds numbers).1 = .error (.circularTag path) →
      r.Circular slots path) ∧
    (¬Cyclic r.tags → ∃ d, (r.evaluate slots holds numbers).1 = .ok d) := by
  have hclosed : r.Closed := closed_of_read h
  obtain ⟨items, -, hgrounded⟩ := grounded_of_read h
  constructor
  · intro path hpath
    obtain ⟨rule, hrule, htargets, q, hq, id, hid, p, hfault⟩ := fault_of_scan hpath
    rw [Board.slots_ofSlots] at htargets
    have hback := decideTag_comesBack [] (List.isChain_singleton id) List.nodup_nil hfault
    exact Ruleset.circular_of_comesBack hclosed hgrounded.distinct hrule htargets hq hid hback
  · intro hacyclic
    obtain ⟨n, hwithin⟩ := exists_within r.predicates
    exact scan_ok_of_acyclic (covers_of_within hwithin holds numbers) hacyclic
      Progress.Sound.empty

/-- The gate leads to a circle, but is not on it. -/
def barred : Ruleset String String where
  rules := [⟨0, 1, [.not (.tag 0)], [⟨1, "open"⟩]⟩]
  tags := [⟨"gate", [[.atom "bell"], [.tag 1]]⟩, ⟨"bar", [[.not (.not (.tag 2))]]⟩,
    ⟨"bolt", [[.tag 1, .tag 0]]⟩]
  source := some "0 !%gate -> open\ngate [ bell, %bar ]\nbar [ !!%bolt ]\nbolt [ %bar %gate ]"

theorem barred_circular_path :
    (Engine.signboard.host.read
        "0 !%gate -> open\ngate [ bell, %bar ]\nbar [ !!%bolt ]\nbolt [ %bar %gate ]").outcome =
      .ok barred ∧
    (barred.evaluate Engine.signboard.host.slots (fun _ => false) []).1 =
      .error (.circularTag ["gate", "bar", "bolt", "bar"]) ∧
    barred.Circular Engine.signboard.host.slots ["gate", "bar", "bolt", "bar"] := by
  have hread : (Engine.signboard.host.read
      "0 !%gate -> open\ngate [ bell, %bar ]\nbar [ !!%bolt ]\nbolt [ %bar %gate ]").outcome =
      .ok barred := by
    rfl
  have hrun : (barred.evaluate Engine.signboard.host.slots (fun _ => false) []).1 =
      .error (.circularTag ["gate", "bar", "bolt", "bar"]) := by cbv
  exact ⟨hread, hrun, (circular_path_of_read hread _ _ _).1 _ hrun⟩

end Vocabulary

end PriorityRules
