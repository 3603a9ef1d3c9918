import PriorityRules.Comparison.Reading
import PriorityRules.Reading.Notes

/-! # Reading a condition token

The first character of a token decides its form: `!` negates the rest, `%` refers to a tag, `(`
begins a comparison, and all others belong to the host. Every token is read once in a load, and
so is the rest of every negated token.
-/

namespace PriorityRules.Reading

variable {A M : Type}

/-- The call of the host that a token leads to, with its answer. -/
def consult? (V : Vocabulary A M) (token : Token) : Option (Call × Except String A) :=
  let marked := token.head?.bind fun mark =>
    (V.marks.lookup mark).map fun reader =>
      (Call.marked mark (String.ofList token.tail), reader (String.ofList token.tail))
  marked.or (V.fallback.map fun reader =>
    (Call.unmarked (String.ofList token), reader (String.ofList token)))

/-- A comparison may leave out its closing parenthesis. -/
def dropClosing (body : List Char) : List Char :=
  if body.getLast? = some ')' then body.dropLast else body

def readPlain (V : Vocabulary A M) (line : Nat) (token : Token) (notes : Notes A) :
    Except (Halt PredicateFault) (Predicate A × Notes A) :=
  match token with
  | ['%'] => notes.stop .emptyTagName
  | '%' :: name =>
    let ledger := notes.ledger.refer (String.ofList name) line
    .ok (.tag (ledger.position (String.ofList name)), { notes with ledger })
  | '(' :: body =>
    match Comparison.ofBody V.declared (dropClosing body) with
    | .ok c => .ok (.compare c, notes)
    | .error fault => notes.stop fault
  | token =>
    match consult? V token with
    | some (call, answer) => notes.ask call (answer.map .atom) .rejected
    | none => notes.stop (.unmarked (String.ofList token))

def readCondition (V : Vocabulary A M) (line : Nat) :
    Token → Notes A → Except (Halt PredicateFault) (Predicate A × Notes A)
  | ['!'], notes => notes.stop .emptyNegation
  | '!' :: inner, notes =>
    notes.reuse ('!' :: inner) fun notes =>
      (readCondition V line inner notes).map fun (p, after) => (.not p, after)
  | token, notes => notes.reuse token (readPlain V line token)

end PriorityRules.Reading
