import PriorityRules.Evaluation.Board
import PriorityRules.Evaluation.Truth
import PriorityRules.Report

/-! # Evaluating a ruleset

The rules are gone through in evaluation order. A rule that could not fill any open slot is
passed over without testing its conditions, and the scan ends when the board is full. What is
found out about tags serves all the rules of one evaluation.
-/

namespace PriorityRules

namespace Evaluation

variable {A M : Type}

structure Decision (A M : Type) where
  board : Board A M
  /-- The number of rules whose conditions were tested. -/
  examined : Nat

/-- Scan rules, the first of which has the number `index`. -/
def scan (S : Situation A) : Nat → List (Rule A M) → Decision A M → Progress A →
    Except EvaluationFault (Decision A M) × Progress A
  | _, [], d, p => (.ok d, p)
  | index, rule :: rest, d, p =>
    if d.board.wants rule then
      match testAll S (decideTag S []) (.condition index) 0 rule.conditions p with
      | (.error fault, p) => (.error fault, p)
      | (.ok false, p) => scan S (index + 1) rest { d with examined := d.examined + 1 } p
      | (.ok true, p) =>
        let board := d.board.claim rule
        let d : Decision A M := ⟨board, d.examined + 1⟩
        if board.isFull then (.ok d, p) else scan S (index + 1) rest d p
    else scan S (index + 1) rest d p

def Decision.report (d : Decision A M) : Report where
  verdicts := d.board.filterMap fun cell =>
    cell.winner.map fun w => ⟨cell.slot, w.rule.level, w.rule.line⟩
  examined := d.examined

end Evaluation

/-- Decide which effect fills each slot. The progress tells what was tested on the way. -/
def Ruleset.evaluate {A M : Type} (r : Ruleset A M) (slots : Slots) (holds : A → Bool)
    (numbers : List Float) :
    Except EvaluationFault (Evaluation.Decision A M) × Evaluation.Progress A :=
  Evaluation.scan ⟨r.tags, holds, numbers⟩ 0 r.rules ⟨.ofSlots slots, 0⟩ {}

end PriorityRules
