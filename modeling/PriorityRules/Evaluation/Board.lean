import PriorityRules.Ruleset
import PriorityRules.Slots

/-! # The board

The board has one cell for each expected slot, in ascending order. A rule that holds claims every
open cell for which it has an effect, with its first effect for that slot; a cell once claimed
stays as it is.
-/

namespace PriorityRules.Evaluation

structure Winner (A M : Type) where
  rule : Rule A M
  effect : Effect M

structure Cell (A M : Type) where
  slot : Int
  winner : Option (Winner A M)

abbrev Board (A M : Type) := List (Cell A M)

namespace Board

variable {A M : Type}

def ofSlots (slots : Slots) : Board A M := slots.ids.map (⟨·, none⟩)

def isOpen (board : Board A M) (slot : Int) : Bool :=
  board.any fun cell => cell.slot = slot && cell.winner.isNone

def wants (board : Board A M) (rule : Rule A M) : Bool :=
  rule.effects.any fun e => board.isOpen e.slot

/-- Let a rule that holds fill the open cells it has effects for. -/
def claim (board : Board A M) (rule : Rule A M) : Board A M :=
  board.map fun cell =>
    { cell with
      winner := cell.winner.or ((rule.effects.find? (·.slot = cell.slot)).map (⟨rule, ·⟩)) }

def isFull (board : Board A M) : Bool := board.all (·.winner.isSome)

/-- Apply the winning effects to a context, in ascending order of their slots. -/
def apply {C : Type} (board : Board A M) (perform : M → C → C) (context : C) : C :=
  (board.filterMap (·.winner)).foldl (fun c w => perform w.effect.change c) context

end Board

end PriorityRules.Evaluation
