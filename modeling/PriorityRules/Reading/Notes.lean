import PriorityRules.Reading.Ledger
import PriorityRules.Token
import PriorityRules.Vocabulary

/-! # Notes taken while reading

Reading a text passes notes from token to token: the predicates read so far, each under its
literal token, the ledger of tags, and the calls of the host's readers. A reading that stops
keeps its calls.
-/

namespace PriorityRules.Reading

structure Notes (A : Type) where
  known : List (Token × Predicate A) := []
  ledger : Ledger A := []
  calls : List Call := []

/-- A fault together with the calls made before the reading stopped. -/
structure Halt (E : Type) where
  fault : E
  calls : List Call
  deriving DecidableEq

def Halt.map {E F : Type} (f : E → F) (h : Halt E) : Halt F := ⟨f h.fault, h.calls⟩

namespace Notes

variable {A E α : Type}

def stop (notes : Notes A) (fault : E) : Except (Halt E) (α × Notes A) :=
  .error ⟨fault, notes.calls⟩

def record (notes : Notes A) (call : Call) : Notes A :=
  { notes with calls := notes.calls ++ [call] }

def remember (notes : Notes A) (token : Token) (p : Predicate A) : Notes A :=
  { notes with known := (token, p) :: notes.known }

/-- A token that is known already is not read again. -/
def reuse (notes : Notes A) (token : Token)
    (read : Notes A → Except (Halt E) (Predicate A × Notes A)) :
    Except (Halt E) (Predicate A × Notes A) :=
  match notes.known.lookup token with
  | some p => .ok (p, notes)
  | none => (read notes).map fun (p, after) => (p, after.remember token p)

/-- Write a call down and pass its answer on. -/
def ask (notes : Notes A) (call : Call) (answer : Except String α) (refused : String → E) :
    Except (Halt E) (α × Notes A) :=
  match answer with
  | .ok a => .ok (a, notes.record call)
  | .error message => (notes.record call).stop (refused message)

end Notes

def readEach {A E α τ : Type} (read : τ → Notes A → Except (Halt E) (α × Notes A)) :
    List τ → Notes A → Except (Halt E) (List α × Notes A)
  | [], notes => .ok ([], notes)
  | piece :: rest, notes => do
    let (value, notes) ← read piece notes
    let (values, notes) ← readEach read rest notes
    return (value :: values, notes)

end PriorityRules.Reading
