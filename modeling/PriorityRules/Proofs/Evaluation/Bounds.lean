import PriorityRules.Proofs.Evaluation.References
import PriorityRules.Proofs.Evaluation.Resolution

/-! # Look-ups by number

An evaluation looks up tags by their numbers: the one that it decides and, for the path of a
circular reference, those on the stack. Here each of these look-ups is checked, and what happens
when there is no such tag is left open. Where all references lead to tags, this is the evaluation
itself, so that no look-up ever fails.
-/

namespace PriorityRules

variable {A M : Type}

namespace Evaluation

variable {S : Situation A}

def pathOf? (S : Situation A) (stack : List Nat) : Option (List String) :=
  stack.reverse.mapM fun id => S.tags[id]?.map (·.name)

/-- Decide a tag; where a look-up fails, do what is given for an absent tag. -/
def decideChecked (S : Situation A) (absent : Test A) (stack : List Nat) (id : Nat) : Test A :=
  fun p =>
    if hid : id < S.tags.length then
      match p.known.lookup id with
      | some truth => (.ok truth, p)
      | none =>
        if hstack : id ∈ stack then
          match pathOf? S (id :: stack) with
          | some path => (.error (.circularTag path), p)
          | none => absent p
        else
          settle id (testAny S (fun other => decideChecked S absent (id :: stack) other) id 0
            S.tags[id].groups (p.visit (.entered id)))
    else absent p
termination_by missing S.tags.length stack
decreasing_by exact missing_cons_lt hid hstack

def scanBy (S : Situation A) (tag : Nat → Test A) :
    Nat → List (Rule A M) → Decision A M → Progress A →
      Except EvaluationFault (Decision A M) × Progress A
  | _, [], d, p => (.ok d, p)
  | index, rule :: rest, d, p =>
    if d.board.wants rule then
      match testAll S tag (.condition index) 0 rule.conditions p with
      | (.error fault, p) => (.error fault, p)
      | (.ok false, p) => scanBy S tag (index + 1) rest { d with examined := d.examined + 1 } p
      | (.ok true, p) =>
        let board := d.board.claim rule
        let d : Decision A M := ⟨board, d.examined + 1⟩
        if board.isFull then (.ok d, p) else scanBy S tag (index + 1) rest d p
    else scanBy S tag (index + 1) rest d p

theorem scanBy_congr {tag tag' : Nat → Test A} (htag : ∀ id < S.tags.length, tag id = tag' id)
    {rules : List (Rule A M)}
    (h : ∀ rule ∈ rules, ∀ q ∈ rule.conditions, q.Within S.tags.length) (index : Nat)
    (d : Decision A M) (p : Progress A) :
    scanBy S tag index rules d p = scanBy S tag' index rules d p := by
  induction rules generalizing index d p with
  | nil => rfl
  | cons rule rest ih =>
    obtain ⟨hrule, hrest⟩ := List.forall_mem_cons.mp h
    have hconditions := testAll_congr (S := S) rfl rfl
      (fun q hq id hid => htag id ((hrule q hq).target_lt hid)) (.condition index) 0
    simp only [scanBy, hconditions, ih hrest]

theorem scanBy_decideTag (index : Nat) (rules : List (Rule A M)) (d : Decision A M)
    (p : Progress A) : scanBy S (decideTag S []) index rules d p = scan S index rules d p := by
  induction rules generalizing index d p with
  | nil => rfl
  | cons rule rest ih =>
    rw [scanBy, scan]
    by_cases hwants : d.board.wants rule
    · rw [if_pos hwants, if_pos hwants]
      rcases testAll S (decideTag S []) (.condition index) 0 rule.conditions p with
        ⟨_ | _ | _, p'⟩
      · rfl
      · exact ih ..
      · exact if_congr Iff.rfl rfl (ih ..)
    · rw [if_neg hwants, if_neg hwants, ih]

theorem mapM_name {ids : List Nat} (h : ∀ id ∈ ids, id < S.tags.length) :
    ids.mapM (fun id => S.tags[id]?.map (·.name)) =
      some (ids.map fun id => (S.tags[id]?.map (·.name)).getD "") := by
  induction ids with
  | nil => rfl
  | cons id rest ih =>
    obtain ⟨hid, hrest⟩ := List.forall_mem_cons.mp h
    rw [List.mapM_cons, List.map_cons, List.getElem?_eq_getElem hid, ih hrest]
    rfl

theorem pathOf?_eq {stack : List Nat} (h : ∀ id ∈ stack, id < S.tags.length) :
    pathOf? S stack = some (pathOf S stack) :=
  mapM_name fun id hid => h id (List.mem_reverse.mp hid)

/-- A look-up of a tag that is there, or of one on a stack of such tags, does not fail. -/
theorem decideChecked_eq (hS : S.Closed) (absent : Test A) (stack : List Nat)
    (hstack : ∀ other ∈ stack, other < S.tags.length) {id : Nat} (hid : id < S.tags.length) :
    decideChecked S absent stack id = decideTag S stack id := by
  funext p
  have hpush : ∀ other ∈ id :: stack, other < S.tags.length :=
    List.forall_mem_cons.mpr ⟨hid, hstack⟩
  rw [decideChecked, dif_pos hid]
  cases hknown : p.known.lookup id with
  | some truth => rw [decideTag_of_known hknown]
  | none =>
    dsimp only
    by_cases hopen : id ∈ stack
    · rw [decideTag_of_open hknown hopen, dif_pos hopen, pathOf?_eq hpush]
    · rw [decideTag_of_new hknown hopen hid, dif_neg hopen]
      have hwithin := hS _ (List.getElem_mem hid)
      have hgroups := testAny_congr (S := S) rfl rfl (fun g hg q hq other hother =>
        decideChecked_eq hS absent (id :: stack) hpush ((hwithin g hg q hq).target_lt hother)) id 0
      rw [hgroups]
termination_by missing S.tags.length stack
decreasing_by exact missing_cons_lt hid hopen

end Evaluation

open Evaluation

def Ruleset.evaluateChecked (r : Ruleset A M) (absent : Test A) (slots : Slots) (holds : A → Bool)
    (numbers : List Float) : Except EvaluationFault (Decision A M) × Progress A :=
  let S : Situation A := ⟨r.tags, holds, numbers⟩
  scanBy S (decideChecked S absent []) 0 r.rules ⟨.ofSlots slots, 0⟩ {}

/-- Where all references lead to tags, it does not matter what happens when one does not. -/
theorem Ruleset.Closed.evaluateChecked_eq {r : Ruleset A M} (h : r.Closed) (absent : Test A)
    (slots : Slots) (holds : A → Bool) (numbers : List Float) :
    r.evaluateChecked absent slots holds numbers = r.evaluate slots holds numbers := by
  have hS : Situation.Closed ⟨r.tags, holds, numbers⟩ := h.tags
  rw [evaluateChecked, evaluate, ← scanBy_decideTag]
  exact scanBy_congr
    (fun _ hid => decideChecked_eq hS absent [] (List.forall_mem_nil _) hid) h.rules _ _ _

theorem Ruleset.Closed.winner_mem {r : Ruleset A M} (h : r.Closed) {slots : Slots}
    {holds : A → Bool} {numbers : List Float} {d : Decision A M} {p : Progress A}
    (hrun : r.evaluate slots holds numbers = (.ok d, p)) {cell : Cell A M} (hcell : cell ∈ d.board)
    {w : Winner A M} (hwinner : cell.winner = some w) : w.rule ∈ r.rules := by
  have hS : Situation.Closed ⟨r.tags, holds, numbers⟩ := h.tags
  have hshows := (scan_shows hS h.rules Progress.Sound.empty (Board.shows_ofSlots slots) hrun).1
  exact ((Cell.shows_iff_of_won hwinner).mp (hshows cell hcell)).1.mem

end PriorityRules
