import Mathlib.Data.Set.Card
import PriorityRules.Proofs.Evaluation.Exactness

/-! # Which rules fill the slots

A slot belongs to the first rule in evaluation order that has an effect for it and holds. The scan
never looks for that rule: it keeps a board, passes over rules and stops early. The invariant is
that each cell of the board shows what the rules seen so far settle about its slot.
-/

namespace PriorityRules

variable {A M : Type}

def Rule.Targets (rule : Rule A M) (slot : Int) : Prop := ∃ e ∈ rule.effects, e.slot = slot

namespace Evaluation

variable {S : Situation A} {seen rules : List (Rule A M)} {rule : Rule A M} {slot : Int}

def Holds (S : Situation A) (rule : Rule A M) : Prop := Means S (.all rule.conditions) true

def Vacant (S : Situation A) (rules : List (Rule A M)) (slot : Int) : Prop :=
  ∀ rule ∈ rules, rule.Targets slot → ¬ Holds S rule

/-- The rule is the first one of the list that has an effect for the slot and holds. -/
def Wins (S : Situation A) (rules : List (Rule A M)) (slot : Int) (rule : Rule A M) : Prop :=
  ∃ before after, rules = before ++ rule :: after ∧ Vacant S before slot ∧
    rule.Targets slot ∧ Holds S rule

theorem Vacant.snoc (h : Vacant S seen slot) (hrule : rule.Targets slot → ¬ Holds S rule) :
    Vacant S (seen ++ [rule]) slot := by
  intro r hr
  rcases List.mem_append.mp hr with hr | hr
  · exact h r hr
  · rw [List.mem_singleton.mp hr]
    exact hrule

theorem Vacant.mono {more : List (Rule A M)} (h : Vacant S rules slot) (hsub : more ⊆ rules) :
    Vacant S more slot :=
  fun r hr => h r (hsub hr)

theorem Wins.append (h : Wins S seen slot rule) (more : List (Rule A M)) :
    Wins S (seen ++ more) slot rule := by
  obtain ⟨before, after, rfl, hbefore, htargets, hholds⟩ := h
  exact ⟨before, after ++ more, by simp, hbefore, htargets, hholds⟩

theorem Wins.snoc (h : Vacant S seen slot) (htargets : rule.Targets slot) (hholds : Holds S rule) :
    Wins S (seen ++ [rule]) slot rule :=
  ⟨seen, [], rfl, h, htargets, hholds⟩

theorem Wins.mem (h : Wins S rules slot rule) : rule ∈ rules := by
  obtain ⟨before, after, rfl, -⟩ := h
  simp

theorem Wins.not_vacant (h : Wins S rules slot rule) : ¬ Vacant S rules slot := by
  have hmem := h.mem
  obtain ⟨before, after, -, -, htargets, hholds⟩ := h
  exact fun hvacant => hvacant rule hmem htargets hholds

theorem Wins.unique {other : Rule A M} (h : Wins S rules slot rule) (h' : Wins S rules slot other) :
    rule = other := by
  obtain ⟨before, after, hsplit, hbefore, htargets, hholds⟩ := h
  obtain ⟨before', after', hsplit', hbefore', htargets', hholds'⟩ := h'
  rw [hsplit, List.append_eq_append_iff] at hsplit'
  rcases hsplit' with ⟨middle, hmiddle, htail⟩ | ⟨middle, hmiddle, htail⟩
  · cases middle with
    | nil => exact (List.cons.inj htail).1
    | cons first rest =>
      obtain ⟨rfl, -⟩ := List.cons.inj htail
      exact absurd hholds (hbefore' rule (by simp [hmiddle]) htargets)
  · cases middle with
    | nil => exact (List.cons.inj htail).1.symm
    | cons first rest =>
      obtain ⟨rfl, -⟩ := List.cons.inj htail
      exact absurd hholds' (hbefore other (by simp [hmiddle]) htargets')

/-- A slot is won as soon as one rule with an effect for it holds. -/
theorem exists_wins_iff :
    (∃ rule, Wins S rules slot rule) ↔ ∃ rule ∈ rules, rule.Targets slot ∧ Holds S rule := by
  constructor
  · rintro ⟨rule, h⟩
    have hmem := h.mem
    obtain ⟨before, after, -, -, htargets, hholds⟩ := h
    exact ⟨rule, hmem, htargets, hholds⟩
  · rintro ⟨rule, hmem, htargets, hholds⟩
    induction rules with
    | nil => cases hmem
    | cons first rest ih =>
      by_cases hfirst : first.Targets slot ∧ Holds S first
      · exact ⟨first, [], rest, rfl, by simp [Vacant], hfirst⟩
      · rcases List.mem_cons.mp hmem with rfl | hrest
        · exact absurd ⟨htargets, hholds⟩ hfirst
        · obtain ⟨winner, before, after, hsplit, hbefore, hwinner⟩ := ih hrest
          refine ⟨winner, first :: before, after, by rw [hsplit]; rfl, ?_, hwinner⟩
          exact List.forall_mem_cons.mpr ⟨fun ht hh => hfirst ⟨ht, hh⟩, hbefore⟩

/-- The cell shows what the rules seen settle about its slot. -/
def Cell.Shows (S : Situation A) (seen : List (Rule A M)) (cell : Cell A M) : Prop :=
  match cell.winner with
  | none => Vacant S seen cell.slot
  | some w => Wins S seen cell.slot w.rule ∧
      w.rule.effects.find? (·.slot = cell.slot) = some w.effect

def Board.Shows (S : Situation A) (seen : List (Rule A M)) (board : Board A M) : Prop :=
  ∀ cell ∈ board, cell.Shows S seen

theorem Board.shows_ofSlots (slots : Slots) :
    Board.Shows S [] (Board.ofSlots slots : Board A M) := by
  intro cell hcell
  obtain ⟨slot, -, rfl⟩ := List.mem_map.mp hcell
  intro r hr
  cases hr

namespace Cell

variable {cell : Cell A M}

theorem shows_iff_of_open (h : cell.winner = none) :
    cell.Shows S seen ↔ Vacant S seen cell.slot := by
  rw [Cell.Shows, h]

theorem shows_iff_of_won {w : Winner A M} (h : cell.winner = some w) :
    cell.Shows S seen ↔ Wins S seen cell.slot w.rule ∧
      w.rule.effects.find? (·.slot = cell.slot) = some w.effect := by
  rw [Cell.Shows, h]

theorem Shows.vacant_iff (h : cell.Shows S seen) :
    Vacant S seen cell.slot ↔ cell.winner = none := by
  cases hwinner : cell.winner with
  | none => exact ⟨fun _ => rfl, fun _ => (shows_iff_of_open hwinner).mp h⟩
  | some w =>
    have hwins := ((shows_iff_of_won hwinner).mp h).1
    exact ⟨fun hvacant => absurd hvacant hwins.not_vacant, nofun⟩

theorem Shows.of_won {w : Winner A M} (h : cell.Shows S seen) (hwinner : cell.winner = some w)
    (more : List (Rule A M)) : cell.Shows S (seen ++ more) := by
  rw [shows_iff_of_won hwinner] at h ⊢
  exact ⟨h.1.append more, h.2⟩

/-- A cell goes on showing what is settled when a rule is passed over that does not hold, or that
has no effect for the slot while the cell is open. -/
theorem Shows.pass (h : cell.Shows S seen)
    (hrule : cell.winner = none → rule.Targets cell.slot → ¬ Holds S rule) :
    cell.Shows S (seen ++ [rule]) := by
  cases hwinner : cell.winner with
  | none =>
    rw [shows_iff_of_open hwinner] at h ⊢
    exact h.snoc (hrule hwinner)
  | some w => exact h.of_won hwinner [rule]

end Cell

theorem find?_eq_none_iff : rule.effects.find? (·.slot = slot) = none ↔ ¬ rule.Targets slot := by
  simp [Rule.Targets]

theorem Board.Shows.claim {board : Board A M} (h : Board.Shows S seen board)
    (hholds : Holds S rule) : Board.Shows S (seen ++ [rule]) (board.claim rule) := by
  intro claimed hclaimed
  obtain ⟨cell, hcell, rfl⟩ := List.mem_map.mp hclaimed
  have hshows := h cell hcell
  cases hwinner : cell.winner with
  | some w =>
    rw [Option.some_or, ← hwinner]
    exact hshows.of_won hwinner [rule]
  | none =>
    rw [Cell.shows_iff_of_open hwinner] at hshows
    rw [Option.none_or]
    cases hfind : rule.effects.find? (·.slot = cell.slot) with
    | none => exact hshows.snoc fun htargets => absurd htargets (find?_eq_none_iff.mp hfind)
    | some e =>
      have htargets : rule.Targets cell.slot :=
        ⟨e, List.mem_of_find?_eq_some hfind, by simpa using List.find?_some hfind⟩
      exact ⟨Wins.snoc hshows htargets hholds, hfind⟩

/-- What a full board shows is settled for good. -/
theorem Board.Shows.of_isFull {board : Board A M} (h : Board.Shows S seen board)
    (hfull : board.isFull = true) (more : List (Rule A M)) :
    Board.Shows S (seen ++ more) board := by
  intro cell hcell
  have hsome : cell.winner.isSome := List.all_eq_true.mp hfull cell hcell
  obtain ⟨w, hwinner⟩ := Option.isSome_iff_exists.mp hsome
  exact (h cell hcell).of_won hwinner more

def Board.slots (board : Board A M) : List Int := board.map (·.slot)

@[simp] theorem Board.slots_ofSlots (slots : Slots) :
    (Board.ofSlots slots : Board A M).slots = slots.ids := by
  rw [Board.slots, Board.ofSlots, List.map_map]
  exact List.map_id slots.ids

@[simp] theorem Board.slots_claim (board : Board A M) (rule : Rule A M) :
    (board.claim rule).slots = board.slots := by
  simp [Board.slots, Board.claim]

theorem Board.wants_iff {board : Board A M} :
    board.wants rule = true ↔ ∃ cell ∈ board, cell.winner = none ∧ rule.Targets cell.slot := by
  simp only [Board.wants, Board.isOpen, List.any_eq_true, Bool.and_eq_true, decide_eq_true_eq,
    Option.isNone_iff_eq_none, Rule.Targets]
  constructor
  · rintro ⟨e, he, cell, hcell, hslot, hopen⟩
    exact ⟨cell, hcell, hopen, e, he, hslot.symm⟩
  · rintro ⟨cell, hcell, hopen, e, he, hslot⟩
    exact ⟨e, he, cell, hcell, hslot.symm, hopen⟩

/-- A rule is wanted when it has an effect for a slot that no rule seen has won. -/
theorem Board.Shows.wants_iff {board : Board A M} (h : Board.Shows S seen board) :
    board.wants rule = true ↔ ∃ slot ∈ board.slots, rule.Targets slot ∧ Vacant S seen slot := by
  rw [Board.wants_iff]
  constructor
  · rintro ⟨cell, hcell, hopen, htargets⟩
    exact ⟨cell.slot, List.mem_map.mpr ⟨cell, hcell, rfl⟩, htargets,
      (h cell hcell).vacant_iff.mpr hopen⟩
  · rintro ⟨slot, hslot, htargets, hvacant⟩
    obtain ⟨cell, hcell, rfl⟩ := List.mem_map.mp hslot
    exact ⟨cell, hcell, (h cell hcell).vacant_iff.mp hvacant, htargets⟩

/-- The rule at a place has an effect for a slot among `ids` that no earlier rule has won. -/
def Contends (S : Situation A) (ids : List Int) (rules : List (Rule A M)) (place : Nat) : Prop :=
  ∃ rule, rules[place]? = some rule ∧
    ∃ slot ∈ ids, rule.Targets slot ∧ Vacant S (rules.take place) slot

noncomputable def contenders (S : Situation A) (ids : List Int) (rules : List (Rule A M))
    (place : Nat) : Nat :=
  {i | place ≤ i ∧ Contends S ids rules i}.ncard

theorem contends_lt {ids : List Int} {place : Nat} (h : Contends S ids rules place) :
    place < rules.length := by
  obtain ⟨rule, hrule, -⟩ := h
  exact (List.getElem?_eq_some_iff.mp hrule).1

theorem contenders_finite (ids : List Int) (rules : List (Rule A M)) (place : Nat) :
    {i | place ≤ i ∧ Contends S ids rules i}.Finite :=
  (Set.finite_lt_nat rules.length).subset fun _ h => contends_lt h.2

theorem contenders_of_contends {ids : List Int} {place : Nat} (h : Contends S ids rules place) :
    contenders S ids rules place = contenders S ids rules (place + 1) + 1 := by
  have hinsert : {i | place ≤ i ∧ Contends S ids rules i} =
      insert place {i | place + 1 ≤ i ∧ Contends S ids rules i} := by
    ext i
    simp only [Set.mem_ofPred_eq, Set.mem_insert_iff]
    constructor
    · rintro ⟨hle, hi⟩
      rcases Nat.eq_or_lt_of_le hle with rfl | hlt
      · exact .inl rfl
      · exact .inr ⟨hlt, hi⟩
    · rintro (rfl | ⟨hlt, hi⟩)
      · exact ⟨le_rfl, h⟩
      · exact ⟨by omega, hi⟩
  rw [contenders, hinsert, Set.ncard_insert_of_notMem (by simp) (contenders_finite _ _ _)]
  rfl

theorem contenders_of_not_contends {ids : List Int} {place : Nat}
    (h : ¬ Contends S ids rules place) :
    contenders S ids rules place = contenders S ids rules (place + 1) := by
  unfold contenders
  congr 1
  ext i
  simp only [Set.mem_ofPred_eq]
  constructor
  · rintro ⟨hle, hi⟩
    refine ⟨?_, hi⟩
    rcases Nat.eq_or_lt_of_le hle with rfl | hlt
    · exact absurd hi h
    · exact hlt
  · rintro ⟨hlt, hi⟩
    exact ⟨by omega, hi⟩

theorem contenders_eq_zero {ids : List Int} {place : Nat}
    (h : ∀ slot ∈ ids, ¬ Vacant S (rules.take place) slot) : contenders S ids rules place = 0 := by
  rw [contenders, Set.ncard_eq_zero (contenders_finite _ _ _), Set.eq_empty_iff_forall_notMem]
  rintro i ⟨hle, rule, -, slot, hslot, -, hvacant⟩
  exact h slot hslot (hvacant.mono (List.take_subset_take_left rules hle))

theorem contenders_length (ids : List Int) : contenders S ids rules rules.length = 0 := by
  rw [contenders, Set.ncard_eq_zero (contenders_finite _ _ _), Set.eq_empty_iff_forall_notMem]
  rintro i ⟨hle, hi⟩
  exact absurd (contends_lt hi) (by omega)

/-- The board decides whether the next rule contends. -/
theorem Board.Shows.contends_iff {board : Board A M} (h : Board.Shows S seen board)
    (rule : Rule A M) (rest : List (Rule A M)) :
    Contends S board.slots (seen ++ rule :: rest) seen.length ↔ board.wants rule = true := by
  rw [h.wants_iff, Contends]
  simp

section Scan

variable (hS : S.Closed)
include hS

theorem holds_of_testAll {site : Nat → Site} {p after : Progress A} (hp : p.Sound S)
    (hrule : ∀ q ∈ rule.conditions, q.Within S.tags.length) {truth : Bool}
    (hrun : testAll S (decideTag S []) site 0 rule.conditions p = (.ok truth, after)) :
    (Holds S rule ↔ truth = true) ∧ after.Sound S := by
  have h := testAll_exact (fun _ => decideTag_exact hS []) hrule site 0 p hp
  rw [hrun] at h
  refine ⟨⟨fun hholds => (Reads.means h.1).unique hholds, ?_⟩, h.2⟩
  rintro rfl
  exact Reads.means h.1

/-- A scan that comes to its end shows what all rules settle, those included that it passed over
or did not reach, and it has examined just the rules that contend for a slot. -/
theorem scan_shows (hrules : ∀ rule ∈ rules, ∀ q ∈ rule.conditions, q.Within S.tags.length)
    {index : Nat} {d d' : Decision A M} {p p' : Progress A} (hp : p.Sound S)
    (hboard : d.board.Shows S seen) (hscan : scan S index rules d p = (.ok d', p')) :
    d'.board.Shows S (seen ++ rules) ∧ d'.board.slots = d.board.slots ∧
      d'.examined =
        d.examined + contenders S d.board.slots (seen ++ rules) seen.length := by
  induction rules generalizing seen index d p with
  | nil =>
    obtain ⟨hd, -⟩ := Prod.mk.inj hscan
    cases hd
    rw [List.append_nil, contenders_length]
    exact ⟨hboard, rfl, rfl⟩
  | cons rule rest ih =>
    obtain ⟨hrule, hrest⟩ := List.forall_mem_cons.mp hrules
    have hcontends := hboard.contends_iff rule rest
    have hlength : (seen ++ [rule]).length = seen.length + 1 := by simp
    have hsplit : seen ++ rule :: rest = (seen ++ [rule]) ++ rest := by simp
    rw [scan] at hscan
    split at hscan
    · rename_i hwants
      have hcount := contenders_of_contends (hcontends.mpr hwants)
      split at hscan
      · cases (Prod.mk.inj hscan).1
      · -- The rule does not hold, so the board stays as it is.
        rename_i after hrun
        obtain ⟨hholds, hafter⟩ := holds_of_testAll hS hp hrule hrun
        have hpass : d.board.Shows S (seen ++ [rule]) :=
          fun cell hcell => (hboard cell hcell).pass fun _ _ h => by cases hholds.mp h
        obtain ⟨hshows, hslots, hexamined⟩ :=
          ih (d := { d with examined := d.examined + 1 }) hrest hafter hpass hscan
        rw [hlength, ← hsplit] at hexamined
        refine ⟨hsplit ▸ hshows, hslots, ?_⟩
        rw [hcount, hexamined, Nat.add_assoc, Nat.add_comm 1]
      · rename_i after hrun
        obtain ⟨hholds, hafter⟩ := holds_of_testAll hS hp hrule hrun
        have hclaim := hboard.claim (hholds.mpr rfl)
        dsimp only at hscan
        split at hscan
        · -- The board is full: the rules that are left contend for nothing.
          rename_i hfull
          obtain ⟨hd, -⟩ := Prod.mk.inj hscan
          cases hd
          have hnone : contenders S d.board.slots (seen ++ rule :: rest) (seen.length + 1) = 0 := by
            apply contenders_eq_zero
            intro slot hslot hvacant
            rw [← Board.slots_claim d.board rule] at hslot
            obtain ⟨cell, hcell, rfl⟩ := List.mem_map.mp hslot
            have hsome : cell.winner.isSome := List.all_eq_true.mp hfull cell hcell
            rw [hsplit, ← hlength, List.take_left, (hclaim cell hcell).vacant_iff] at hvacant
            rw [hvacant] at hsome
            cases hsome
          refine ⟨hsplit ▸ hclaim.of_isFull hfull rest, Board.slots_claim _ _, ?_⟩
          rw [hcount, hnone]
        · obtain ⟨hshows, hslots, hexamined⟩ := ih hrest hafter hclaim hscan
          rw [Board.slots_claim] at hslots hexamined
          rw [hlength, ← hsplit] at hexamined
          refine ⟨hsplit ▸ hshows, hslots, ?_⟩
          rw [hcount, hexamined, Nat.add_assoc, Nat.add_comm 1]
    · -- The rule has no effect for an open slot.
      rename_i hwants
      have hpass : d.board.Shows S (seen ++ [rule]) := by
        intro cell hcell
        refine (hboard cell hcell).pass fun hopen htargets => ?_
        exact absurd (Board.wants_iff.mpr ⟨cell, hcell, hopen, htargets⟩) hwants
      obtain ⟨hshows, hslots, hexamined⟩ := ih hrest hp hpass hscan
      rw [hlength, ← hsplit] at hexamined
      refine ⟨hsplit ▸ hshows, hslots, ?_⟩
      rw [contenders_of_not_contends (fun h => hwants (hcontends.mp h)), hexamined]

end Scan

/-- What the rules call for. There is a verdict for each expected slot that a rule with an effect
for it, and with true conditions, could fill; it names the first such rule and comes with the first
effect of that rule for the slot. The rules examined are those that contend for a slot. -/
structure Resolves (S : Situation A) (slots : Slots) (rules : List (Rule A M)) (report : Report)
    (effects : List (Effect M)) : Prop where
  ascending : (report.verdicts.map (·.slot)).Pairwise (· < ·)
  mem_iff : ∀ slot, slot ∈ report.verdicts.map (·.slot) ↔
    slot ∈ slots.ids ∧ ∃ rule ∈ rules, rule.Targets slot ∧ Holds S rule
  winners : List.Forall₂ (fun verdict effect => ∃ rule, Wins S rules verdict.slot rule ∧
    verdict.level = rule.level ∧ verdict.line = rule.line ∧
      rule.effects.find? (·.slot = verdict.slot) = some effect) report.verdicts effects
  examined : report.examined = {place | Contends S slots.ids rules place}.ncard

def Board.verdicts (board : Board A M) : List Verdict :=
  board.filterMap fun cell => cell.winner.map fun w => ⟨cell.slot, w.rule.level, w.rule.line⟩

def Board.effects (board : Board A M) : List (Effect M) :=
  board.filterMap fun cell => cell.winner.map (·.effect)

theorem Board.apply_eq {C : Type} (board : Board A M) (perform : M → C → C) (context : C) :
    board.apply perform context = board.effects.foldl (fun c e => perform e.change c) context := by
  rw [Board.apply, Board.effects, ← List.map_filterMap, List.foldl_map]

section Verdicts

variable {board : Board A M}

theorem Board.mem_verdicts {v : Verdict} :
    v ∈ board.verdicts ↔ ∃ cell ∈ board, ∃ w, cell.winner = some w ∧
      v = ⟨cell.slot, w.rule.level, w.rule.line⟩ := by
  simp [Board.verdicts, eq_comm]

theorem Board.verdicts_ascending (h : board.slots.Pairwise (· < ·)) :
    (board.verdicts.map (·.slot)).Pairwise (· < ·) := by
  rw [Board.slots, List.pairwise_map] at h
  rw [List.pairwise_map, Board.verdicts, List.pairwise_filterMap]
  refine h.imp fun hlt v hv v' hv' => ?_
  obtain ⟨w, -, rfl⟩ := Option.map_eq_some_iff.mp hv
  obtain ⟨w', -, rfl⟩ := Option.map_eq_some_iff.mp hv'
  exact hlt

theorem Board.Shows.mem_iff (h : Board.Shows S rules board) :
    slot ∈ board.verdicts.map (·.slot) ↔
      slot ∈ board.slots ∧ ∃ rule ∈ rules, rule.Targets slot ∧ Holds S rule := by
  rw [← exists_wins_iff]
  constructor
  · intro hslot
    obtain ⟨v, hv, rfl⟩ := List.mem_map.mp hslot
    obtain ⟨cell, hcell, w, hwinner, rfl⟩ := Board.mem_verdicts.mp hv
    have hshows := (Cell.shows_iff_of_won hwinner).mp (h cell hcell)
    exact ⟨List.mem_map.mpr ⟨cell, hcell, rfl⟩, w.rule, hshows.1⟩
  · rintro ⟨hslot, rule, hwins⟩
    obtain ⟨cell, hcell, rfl⟩ := List.mem_map.mp hslot
    cases hwinner : cell.winner with
    | none => exact absurd ((h cell hcell).vacant_iff.mpr hwinner) hwins.not_vacant
    | some w =>
      exact List.mem_map.mpr ⟨_, Board.mem_verdicts.mpr ⟨cell, hcell, w, hwinner, rfl⟩, rfl⟩

theorem Board.Shows.winners (h : Board.Shows S rules board) :
    List.Forall₂ (fun verdict effect => ∃ rule, Wins S rules verdict.slot rule ∧
      verdict.level = rule.level ∧ verdict.line = rule.line ∧
        rule.effects.find? (·.slot = verdict.slot) = some effect) board.verdicts board.effects := by
  induction board with
  | nil => exact .nil
  | cons cell board ih =>
    obtain ⟨hcell, hboard⟩ := List.forall_mem_cons.mp h
    rw [Board.verdicts, Board.effects, List.filterMap_cons, List.filterMap_cons]
    cases hwinner : cell.winner with
    | none => exact ih hboard
    | some w =>
      obtain ⟨hwins, heffect⟩ := (Cell.shows_iff_of_won hwinner).mp hcell
      exact .cons ⟨w.rule, hwins, rfl, rfl, heffect⟩ (ih hboard)

end Verdicts

/-- A successful evaluation decides what the rules call for. -/
theorem evaluate_resolves (r : Ruleset A M) (hr : r.Closed) (slots : Slots) (holds : A → Bool)
    (numbers : List Float) {d : Decision A M} {p : Progress A}
    (h : r.evaluate slots holds numbers = (.ok d, p)) :
    Resolves ⟨r.tags, holds, numbers⟩ slots r.rules d.report d.board.effects := by
  have hS : Situation.Closed ⟨r.tags, holds, numbers⟩ := hr.tags
  obtain ⟨hshows, hslots, hexamined⟩ :=
    scan_shows hS hr.rules Progress.Sound.empty (Board.shows_ofSlots slots) h
  rw [Board.slots_ofSlots] at hslots hexamined
  constructor
  · apply Board.verdicts_ascending
    rw [hslots]
    exact slots.ascending
  · intro slot
    rw [← hslots]
    exact hshows.mem_iff
  · exact hshows.winners
  · rw [Decision.report, hexamined, contenders]
    simp

end Evaluation

end PriorityRules
