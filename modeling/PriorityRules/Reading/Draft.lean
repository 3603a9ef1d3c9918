import PriorityRules.Reading.Condition
import PriorityRules.Reading.Tiers

/-! # Reading lines into a draft

A draft is what the lines read so far amount to: the rules by level, the notes, and the tag block
that is open, if any. Each further line turns a draft into the next one or stops the
reading. Inside a block a comma and the end of a line both end the group under way.
-/

namespace PriorityRules.Reading

variable {A M : Type}

/-- A way to read the condition tokens on a given line. -/
abbrev ConditionReader (A : Type) :=
  Nat → Token → Notes A → Except (Halt PredicateFault) (Predicate A × Notes A)

variable (V : Vocabulary A M) (condition : ConditionReader A)

/-- `<conditions> -> <effects>`, with the level already read. -/
def readRule (level : Int) (line : Nat) (body : List Token) (notes : Notes A) :
    Except (Halt LoadFault) (Rule A M × Notes A) := do
  let (conditions, notes) ←
    (readEach (condition line) (body.takeWhile (· ≠ Token.arrow)) notes).mapError
      (Halt.map .predicate)
  match body.dropWhile (· ≠ Token.arrow) with
  | [] => notes.stop .noArrow
  | _ :: words =>
    let (effects, notes) ←
      readEach (fun word notes => notes.ask (.effect (String.ofList word))
        (V.effects (String.ofList word)) LoadFault.effect) words notes
    match effects.flatten with
    | [] => notes.stop .noEffects
    | effects => return (⟨level, line, conditions, effects⟩, notes)

/-- A tag block under way: the groups that have ended, and the group that may still grow. -/
structure Block (A : Type) where
  name : String
  ended : List (Group A) := []
  group : Group A := []

namespace Block

/-- End the group under way; an empty one leaves no trace. -/
def endGroup (b : Block A) : Block A :=
  if b.group.isEmpty then b else { b with ended := b.ended ++ [b.group], group := [] }

def add (b : Block A) (p : Predicate A) : Block A := { b with group := b.group ++ [p] }

end Block

/-- Read the tokens of one line of a block. The block goes on, or it closes with this line and
its tag is defined. -/
def readBlock (line : Nat) :
    List Token → Block A → Notes A → Except (Halt LoadFault) (Option (Block A) × Notes A)
  | [], block, notes => .ok (some block.endGroup, notes)
  | token :: rest, block, notes =>
    if token = [','] then readBlock line rest block.endGroup notes
    else if token = [']'] then
      match rest, block.endGroup.ended with
      | _ :: _, _ => notes.stop .misplacedBracket
      | [], [] => notes.stop (.emptyTag block.name)
      | [], groups => .ok (none, { notes with ledger := notes.ledger.define block.name groups })
    else do
      let (p, notes) ← (condition line token notes).mapError (Halt.map .predicate)
      readBlock line rest (block.add p) notes

/-- `<name> [ ...`, with the name already read. -/
def openBlock (line : Nat) (name : Token) (body : List Token) (notes : Notes A) :
    Except (Halt LoadFault) (Option (Block A) × Notes A) :=
  match body with
  | ['['] :: rest =>
    let name := String.ofList name
    let notes := { notes with ledger := notes.ledger.mention name }
    if notes.ledger.isDefined name then notes.stop (.duplicateTag name)
    else readBlock condition line rest { name } notes
  | _ => notes.stop .expectedBracket

/-- What a line adds to an open block. A comment adds no token but still ends the group. -/
def continuation (tokens : List Token) : List Token :=
  if tokens.head?.any Token.isComment then [] else tokens

structure Draft (A M : Type) where
  notes : Notes A := {}
  rules : Tiers A M := .empty
  block : Option (Block A) := none
  /-- The number of lines read. -/
  lines : Nat := 0

namespace Draft

def readOutside (d : Draft A M) (line : Nat) (tokens : List Token) :
    Except (Halt LoadFault) (Draft A M) :=
  match Line.ofTokens tokens with
  | .skipped => .ok { d with lines := line }
  | .rule level body => do
    let (rule, notes) ← readRule V condition level line body d.notes
    return { d with notes, rules := d.rules.add rule, lines := line }
  | .block name body => do
    let (block, notes) ← openBlock condition line name body d.notes
    return { d with notes, block, lines := line }
  | .unknown first => .error ⟨.illegalTagName (String.ofList first), d.notes.calls⟩

def readInside (d : Draft A M) (block : Block A) (line : Nat) (tokens : List Token) :
    Except (Halt LoadFault) (Draft A M) := do
  let (block, notes) ← readBlock condition line (continuation tokens) block d.notes
  return { d with notes, block, lines := line }

def readTokens (d : Draft A M) (tokens : List Token) : Except (Halt LoadError) (Draft A M) :=
  let line := d.lines + 1
  let next :=
    match d.block with
    | some block => d.readInside condition block line tokens
    | none => d.readOutside V condition line tokens
  next.mapError (Halt.map (LoadError.mk line))

def readLine (d : Draft A M) (text : Text.Line) : Except (Halt LoadError) (Draft A M) :=
  d.readTokens V condition (Token.split text)

def finish (d : Draft A M) (source : String) : Except LoadError (Ruleset A M) :=
  match d.block with
  | some block => .error ⟨d.lines, .unclosedTag block.name⟩
  | none => d.notes.ledger.tags.map fun tags => ⟨d.rules.inOrder, tags, some source⟩

end Draft

end PriorityRules.Reading
