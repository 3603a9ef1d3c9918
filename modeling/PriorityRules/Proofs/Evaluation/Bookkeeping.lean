import PriorityRules.Proofs.Evaluation.Resolution

/-! # The books of a scan

A scan keeps books on the slots that are filled. They tell which rules are worth a test and when
nothing is left to do. Here the books are a parameter, so that scans that pass over fewer rules,
that never stop, or that keep their books in another form can be held against each other.
-/

namespace PriorityRules

variable {A M B B' : Type}

namespace Evaluation

structure Bookkeeping (B A M : Type) where
  /-- Whether the conditions of a rule are tested. -/
  tests : B → Rule A M → Bool
  /-- The books after a rule that holds. -/
  claim : B → Rule A M → B
  /-- Whether the scan ends there. -/
  ends : B → Bool

/-- Scan rules, the first of which has the number `index`. The books come with the number of rules
whose conditions were tested. -/
def scanWith (k : Bookkeeping B A M) (S : Situation A) : Nat → List (Rule A M) → B × Nat →
    Progress A → Except EvaluationFault (B × Nat) × Progress A
  | _, [], books, p => (.ok books, p)
  | index, rule :: rest, (books, examined), p =>
    if k.tests books rule then
      match testAll S (decideTag S []) (.condition index) 0 rule.conditions p with
      | (.error fault, p) => (.error fault, p)
      | (.ok false, p) => scanWith k S (index + 1) rest (books, examined + 1) p
      | (.ok true, p) =>
        let books := k.claim books rule
        if k.ends books then (.ok (books, examined + 1), p)
        else scanWith k S (index + 1) rest (books, examined + 1) p
    else scanWith k S (index + 1) rest (books, examined) p

section scanWith

variable {k : Bookkeeping B A M} {S : Situation A} {index examined : Nat} {rule : Rule A M}
  {rest : List (Rule A M)} {books : B} {p after : Progress A}

theorem scanWith_of_untested (h : k.tests books rule = false) :
    scanWith k S index (rule :: rest) (books, examined) p =
      scanWith k S (index + 1) rest (books, examined) p := by
  simp [scanWith, h]

theorem scanWith_of_error {fault : EvaluationFault} (h : k.tests books rule = true)
    (hrun : testAll S (decideTag S []) (.condition index) 0 rule.conditions p =
      (.error fault, after)) :
    scanWith k S index (rule :: rest) (books, examined) p = (.error fault, after) := by
  simp [scanWith, h, hrun]

theorem scanWith_of_false (h : k.tests books rule = true)
    (hrun : testAll S (decideTag S []) (.condition index) 0 rule.conditions p =
      (.ok false, after)) :
    scanWith k S index (rule :: rest) (books, examined) p =
      scanWith k S (index + 1) rest (books, examined + 1) after := by
  simp [scanWith, h, hrun]

theorem scanWith_of_true (h : k.tests books rule = true)
    (hrun : testAll S (decideTag S []) (.condition index) 0 rule.conditions p =
      (.ok true, after)) :
    scanWith k S index (rule :: rest) (books, examined) p =
      if k.ends (k.claim books rule) then (.ok (k.claim books rule, examined + 1), after)
      else scanWith k S (index + 1) rest (k.claim books rule, examined + 1) after := by
  simp [scanWith, h, hrun]

end scanWith

/-- Whatever the second bookkeeping does can be seen in the books of the first one. -/
structure Bookkeeping.Shows (k : Bookkeeping B A M) (view : B → B') (k' : Bookkeeping B' A M) :
    Prop where
  tests : ∀ books rule, k'.tests (view books) rule = k.tests books rule
  claim : ∀ books rule, k'.claim (view books) rule = view (k.claim books rule)
  ends : ∀ books, k'.ends (view books) = k.ends books

theorem Bookkeeping.Shows.scanWith_eq {k : Bookkeeping B A M} {view : B → B'}
    {k' : Bookkeeping B' A M} (h : k.Shows view k') (S : Situation A) (index : Nat)
    (rules : List (Rule A M)) (books : B) (examined : Nat) (p : Progress A) :
    scanWith k' S index rules (view books, examined) p =
      Prod.map (Except.map (Prod.map view id)) id
        (scanWith k S index rules (books, examined) p) := by
  induction rules generalizing index books examined p with
  | nil => rfl
  | cons rule rest ih =>
    cases htests : k.tests books rule with
    | false =>
      rw [scanWith_of_untested htests, scanWith_of_untested ((h.tests ..).trans htests), ih]
    | true =>
      have htests' := (h.tests ..).trans htests
      rcases hrun : testAll S (decideTag S []) (.condition index) 0 rule.conditions p with
        ⟨fault | _ | _, after⟩
      · rw [scanWith_of_error htests hrun, scanWith_of_error htests' hrun]
        rfl
      · rw [scanWith_of_false htests hrun, scanWith_of_false htests' hrun, ih]
      · rw [scanWith_of_true htests hrun, scanWith_of_true htests' hrun, h.claim, h.ends, ih,
          apply_ite (Prod.map _ _)]
        rfl

def Decision.books (d : Decision A M) : Board A M × Nat := (d.board, d.examined)

namespace Bookkeeping

def saving : Bookkeeping (Board A M) A M := ⟨Board.wants, Board.claim, Board.isFull⟩

/-- Pass over the rules that cannot fill a slot, but go on to the last rule. -/
def persistent : Bookkeeping (Board A M) A M := ⟨Board.wants, Board.claim, fun _ => false⟩

def thorough : Bookkeeping (Board A M) A M := ⟨fun _ _ => true, Board.claim, fun _ => false⟩

end Bookkeeping

namespace Board

variable {board : Board A M} {rule : Rule A M}

theorem claim_of_unwanted (h : board.wants rule = false) : board.claim rule = board := by
  refine (List.map_congr_left fun cell hcell => ?_).trans (List.map_id board)
  obtain ⟨slot, winner⟩ := cell
  cases winner with
  | some w => rfl
  | none =>
    have hmisses : ¬rule.Targets slot := by
      intro htargets
      simp [wants_iff.mpr ⟨_, hcell, rfl, htargets⟩] at h
    simp [find?_eq_none_iff.mpr hmisses]

/-- A full board has no use for a further rule. -/
theorem wants_of_isFull (h : board.isFull = true) (rule : Rule A M) :
    board.wants rule = false := by
  rw [Bool.eq_false_iff]
  intro hwants
  obtain ⟨cell, hcell, hopen, -⟩ := wants_iff.mp hwants
  have hsome : cell.winner.isSome := List.all_eq_true.mp h cell hcell
  simp [hopen] at hsome

end Board

section Scan

variable {S : Situation A} {index examined : Nat} {rules : List (Rule A M)} {board : Board A M}
  {p : Progress A}

/-- Going on with a full board changes nothing, since every rule is passed over. -/
theorem scanWith_persistent_of_isFull (h : board.isFull = true) :
    scanWith .persistent S index rules (board, examined) p = (.ok (board, examined), p) := by
  induction rules generalizing index with
  | nil => rfl
  | cons rule rest ih => rw [scanWith_of_untested (Board.wants_of_isFull h rule), ih]

/-- Stopping early is the same as going on. -/
theorem scanWith_persistent :
    scanWith .persistent S index rules (board, examined) p =
      scanWith .saving S index rules (board, examined) p := by
  induction rules generalizing index board examined p with
  | nil => rfl
  | cons rule rest ih =>
    cases hwants : board.wants rule with
    | false =>
      rw [scanWith_of_untested (k := .persistent) hwants,
        scanWith_of_untested (k := .saving) hwants, ih]
    | true =>
      rcases hrun : testAll S (decideTag S []) (.condition index) 0 rule.conditions p with
        ⟨fault | _ | _, after⟩
      · rw [scanWith_of_error (k := .persistent) hwants hrun,
          scanWith_of_error (k := .saving) hwants hrun]
      · rw [scanWith_of_false (k := .persistent) hwants hrun,
          scanWith_of_false (k := .saving) hwants hrun, ih]
      · rw [scanWith_of_true (k := .persistent) hwants hrun,
          scanWith_of_true (k := .saving) hwants hrun]
        by_cases hfull : (board.claim rule).isFull = true
        · exact (scanWith_persistent_of_isFull hfull).trans (if_pos hfull).symm
        · exact ih.trans (if_neg hfull).symm

theorem scanWith_saving (d : Decision A M) :
    scanWith .saving S index rules (d.board, d.examined) p =
      Prod.map (Except.map Decision.books) id (scan S index rules d p) := by
  induction rules generalizing index d p with
  | nil => rfl
  | cons rule rest ih =>
    rw [scan]
    cases hwants : d.board.wants rule with
    | false =>
      rw [scanWith_of_untested (k := .saving) hwants, ih]
      rfl
    | true =>
      rw [if_pos rfl]
      rcases hrun : testAll S (decideTag S []) (.condition index) 0 rule.conditions p with
        ⟨fault | _ | _, after⟩
      · rw [scanWith_of_error (k := .saving) hwants hrun]
        rfl
      · rw [scanWith_of_false (k := .saving) hwants hrun]
        exact ih ⟨d.board, d.examined + 1⟩
      · rw [scanWith_of_true (k := .saving) hwants hrun]
        dsimp only
        rw [apply_ite (Prod.map _ _)]
        exact if_congr Iff.rfl rfl (ih ⟨d.board.claim rule, d.examined + 1⟩)

end Scan

structure Buffer (A M : Type) where
  expected : Slots
  chosen : Std.TreeMap Int (Winner A M)
  within : ∀ slot ∈ chosen, slot ∈ expected.ids

namespace Buffer

def ofSlots (slots : Slots) : Buffer A M := ⟨slots, ∅, by simp⟩

def isOpen (b : Buffer A M) (slot : Int) : Bool :=
  decide (slot ∈ b.expected.ids) && !b.chosen.contains slot

def wants (b : Buffer A M) (rule : Rule A M) : Bool := rule.effects.any fun e => b.isOpen e.slot

/-- Enter an effect of a rule, unless its slot is not expected or is filled. -/
def enter (rule : Rule A M) (b : Buffer A M) (e : Effect M) : Buffer A M :=
  if h : e.slot ∈ b.expected.ids then
    { b with
      chosen := b.chosen.insertIfNew e.slot ⟨rule, e⟩
      within := by
        intro slot hslot
        rcases Std.TreeMap.mem_insertIfNew.mp hslot with heq | hold
        · rwa [← Std.LawfulEqCmp.eq_of_compare heq]
        · exact b.within slot hold }
  else b

def claim (b : Buffer A M) (rule : Rule A M) : Buffer A M := rule.effects.foldl (enter rule) b

def isFull (b : Buffer A M) : Bool := b.chosen.size == b.expected.ids.length

def board (b : Buffer A M) : Board A M := b.expected.ids.map fun slot => ⟨slot, b.chosen[slot]?⟩

variable {b : Buffer A M} {rule : Rule A M}

theorem board_ofSlots (slots : Slots) : (ofSlots slots : Buffer A M).board = .ofSlots slots := by
  simp [board, ofSlots, Board.ofSlots]

theorem isOpen_board (b : Buffer A M) (slot : Int) : b.board.isOpen slot = b.isOpen slot := by
  rw [Bool.eq_iff_iff]
  simp only [board, Board.isOpen, isOpen, List.any_map, List.any_eq_true, Function.comp_apply,
    Bool.and_eq_true, decide_eq_true_eq, Bool.not_eq_true',
    ← Std.TreeMap.isSome_getElem?_eq_contains, Option.isNone_iff_eq_none,
    Option.isSome_eq_false_iff]
  constructor
  · rintro ⟨_, hslot, rfl, hopen⟩
    exact ⟨hslot, hopen⟩
  · rintro ⟨hslot, hopen⟩
    exact ⟨slot, hslot, rfl, hopen⟩

theorem wants_board (b : Buffer A M) (rule : Rule A M) : b.board.wants rule = b.wants rule := by
  simp only [Board.wants, wants, isOpen_board]

@[simp] theorem expected_enter (e : Effect M) : (b.enter rule e).expected = b.expected := by
  unfold enter
  split <;> rfl

theorem chosen_enter (e : Effect M) {slot : Int} (hslot : slot ∈ b.expected.ids) :
    (b.enter rule e).chosen[slot]? =
      b.chosen[slot]?.or (if e.slot = slot then some ⟨rule, e⟩ else none) := by
  by_cases heq : e.slot = slot
  · subst heq
    rw [enter, dif_pos hslot, Std.TreeMap.getElem?_insertIfNew]
    cases hchosen : b.chosen[e.slot]? with
    | none => simp [← Std.TreeMap.isSome_getElem?_iff_mem, hchosen]
    | some w => simp [← Std.TreeMap.isSome_getElem?_iff_mem, hchosen]
  · rw [enter, if_neg heq, Option.or_none]
    split
    · simp [Std.TreeMap.getElem?_insertIfNew, heq]
    · rfl

/-- The effects are entered one after the other, and the first one for a slot stays. -/
theorem foldl_enter (rule : Rule A M) (effects : List (Effect M)) (b : Buffer A M) :
    (effects.foldl (enter rule) b).expected = b.expected ∧
      ∀ slot ∈ b.expected.ids, (effects.foldl (enter rule) b).chosen[slot]? =
        b.chosen[slot]?.or ((effects.find? (·.slot = slot)).map (⟨rule, ·⟩)) := by
  induction effects generalizing b with
  | nil => simp
  | cons e rest ih =>
    obtain ⟨hexpected, hchosen⟩ := ih (b.enter rule e)
    rw [expected_enter] at hexpected hchosen
    refine ⟨hexpected, fun slot hslot => ?_⟩
    rw [List.foldl_cons, hchosen slot hslot, chosen_enter e hslot, Option.or_assoc]
    by_cases heq : e.slot = slot <;> simp [heq]

theorem claim_board (b : Buffer A M) (rule : Rule A M) :
    b.board.claim rule = (b.claim rule).board := by
  obtain ⟨hexpected, hchosen⟩ := foldl_enter rule rule.effects b
  simp only [board, Board.claim, claim, List.map_map, hexpected]
  apply List.map_congr_left
  intro slot hslot
  simp [hchosen slot hslot]

/-- The winners are for expected slots, so that as many as these fill them all. -/
theorem isFull_board (b : Buffer A M) : b.board.isFull = b.isFull := by
  have hsubset : b.chosen.keys ⊆ b.expected.ids :=
    fun slot hslot => b.within slot (Std.TreeMap.mem_keys.mp hslot)
  have hsubperm := List.subperm_of_subset Std.TreeMap.nodup_keys hsubset
  have hnodup : b.expected.ids.Nodup := b.expected.ascending.imp Int.ne_of_lt
  have hfull : b.board.isFull = true ↔ b.expected.ids ⊆ b.chosen.keys := by
    simp [board, Board.isFull, List.all_map, List.subset_def]
  rw [Bool.eq_iff_iff, hfull, isFull, beq_iff_eq, ← Std.TreeMap.length_keys]
  constructor
  · intro hall
    exact Nat.le_antisymm hsubperm.length_le (List.subperm_of_subset hnodup hall).length_le
  · intro hlength
    exact (hsubperm.perm_of_length_le hlength.ge).symm.subset

end Buffer

/-- The books are a map of winners, and the scan ends when it is as large as the set of slots. -/
def Bookkeeping.counting : Bookkeeping (Buffer A M) A M :=
  ⟨Buffer.wants, Buffer.claim, Buffer.isFull⟩

theorem counting_shows_board :
    Bookkeeping.counting.Shows (fun b : Buffer A M => b.board) .saving :=
  ⟨Buffer.wants_board, Buffer.claim_board, Buffer.isFull_board⟩

end Evaluation

namespace Ruleset

open Evaluation

def evaluateWith (k : Bookkeeping B A M) (r : Ruleset A M) (start : B) (holds : A → Bool)
    (numbers : List Float) : Except EvaluationFault (B × Nat) × Progress A :=
  scanWith k ⟨r.tags, holds, numbers⟩ 0 r.rules (start, 0) {}

variable (r : Ruleset A M) (slots : Slots) (holds : A → Bool) (numbers : List Float)

theorem evaluateWith_persistent :
    r.evaluateWith .persistent (.ofSlots slots) holds numbers =
      Prod.map (Except.map Decision.books) id (r.evaluate slots holds numbers) :=
  scanWith_persistent.trans (scanWith_saving ⟨.ofSlots slots, 0⟩)

theorem evaluateWith_counting :
    Prod.map (Except.map (Prod.map Buffer.board id)) id
        (r.evaluateWith .counting (.ofSlots slots) holds numbers) =
      Prod.map (Except.map Decision.books) id (r.evaluate slots holds numbers) := by
  rw [evaluateWith, ← counting_shows_board.scanWith_eq, Buffer.board_ofSlots]
  exact scanWith_saving ⟨.ofSlots slots, 0⟩

variable {r slots holds numbers}

theorem evaluate_eq_ok_iff {d : Decision A M} :
    (r.evaluate slots holds numbers).1 = .ok d ↔
      (r.evaluateWith .persistent (.ofSlots slots) holds numbers).1 = .ok d.books := by
  rw [evaluateWith_persistent, Prod.map_fst]
  cases (r.evaluate slots holds numbers).1 with
  | error fault => exact ⟨nofun, nofun⟩
  | ok other =>
    refine ⟨congrArg (Except.map Decision.books), fun h => ?_⟩
    obtain ⟨hboard, hexamined⟩ := Prod.mk.inj (Except.ok.inj h)
    exact congrArg Except.ok (congr (congrArg Decision.mk hboard) hexamined)

end Ruleset

end PriorityRules
