import PriorityRules.Evaluation
import PriorityRules.Reading

/-! # Engines

An engine joins what the host contributes with the ruleset that is active. A load replaces the
active ruleset as a whole or, when the text is refused, leaves it in place. An evaluation either
applies the winning effects or, when it fails, leaves the context as it was.
-/

namespace PriorityRules

/-- All that the host contributes: its vocabulary, the meaning of atoms and changes in a context
`C`, the expected slots, and the text for a rules file that does not exist yet. -/
structure Host (C A M : Type) extends Vocabulary A M where
  holds : A → C → Bool
  perform : M → C → C
  /-- The numbers that comparisons read, in the order of the variables. -/
  numbers : C → List Float
  slots : Slots
  defaultRules : String

structure Engine (C A M : Type) where
  host : Host C A M
  active : Ruleset A M := .empty
  /-- How often the active ruleset has been replaced; this tells apart equal rulesets. -/
  revision : Nat := 0
  rulesFile : Option String := none

inductive Event where
  | loaded (rules tags : Nat)
  | rejected (error : LoadError)
  | aborted (fault : EvaluationFault)
  | unchanged (path : String)
  | fileLoaded (path : String) (rules : Nat)
  | fileFailed (path : String) (message : String)
  deriving DecidableEq, Repr

structure Loading (C A M E : Type) where
  result : Except E Nat
  engine : Engine C A M
  calls : List Call := []
  events : List Event := []

/-- What an evaluation amounts to: its result, the context afterwards, the questions asked with
their answers, and the events. -/
structure Acting (C A R : Type) where
  result : Except EvaluationFault R
  context : C
  answers : List (Evaluation.Question A × Bool)
  events : List Event := []

namespace Engine

variable {C A M R : Type}

/-- Read a text and make it the active ruleset. The result is the number of its rules. -/
def load (e : Engine C A M) (text : String) : Loading C A M LoadError :=
  let reading := e.host.read text
  match reading.outcome with
  | .error error =>
    { result := .error error, engine := e, calls := reading.calls, events := [.rejected error] }
  | .ok ruleset =>
    { result := .ok ruleset.size
      engine := { e with active := ruleset, revision := e.revision + 1 }
      calls := reading.calls
      events := [.loaded ruleset.size ruleset.tags.length] }

def count (e : Engine C A M) : Nat := e.active.size

def evaluate (e : Engine C A M) (context : C) (go : Evaluation.Decision A M → C × R) :
    Acting C A R :=
  match e.active.evaluate e.host.slots (e.host.holds · context) (e.host.numbers context) with
  | (.error fault, progress) =>
    { result := .error fault, context, answers := progress.answers, events := [.aborted fault] }
  | (.ok decision, progress) =>
    let (context, result) := go decision
    { result := .ok result, context, answers := progress.answers }

def act (e : Engine C A M) (context : C) : Acting C A Unit :=
  e.evaluate context fun decision => (decision.board.apply e.host.perform context, ())

def actWithReport (e : Engine C A M) (context : C) : Acting C A Report :=
  e.evaluate context fun decision =>
    (decision.board.apply e.host.perform context, decision.report)

/-- Report which rules would fill the slots, and apply nothing. -/
def explain (e : Engine C A M) (context : C) : Acting C A Report :=
  e.evaluate context fun decision => (context, decision.report)

end Engine

end PriorityRules
