import PriorityRules.Engine.Setup
import PriorityRules.Sample.Record

/-! # A sample vocabulary

Readers of several kinds may be bound to marks, or serve as the fallback. One effect token stands
for one effect or, between braces, for any number of effects with semicolons between them.
-/

namespace PriorityRules.Sample

inductive Kind where
  | divisor
  | flag
  | label
  | probe
  | reject
  deriving DecidableEq, Repr

def Kind.name : Kind → String
  | .divisor => "div"
  | .flag => "flag"
  | .label => "label"
  | .probe => "probe"
  | .reject => "reject"

def Kind.read : Kind → Reader Atom
  | .divisor => fun text =>
    match Text.readSigned 64 text.toList with
    | .ok n => .ok (.divisor (Int64.ofInt n))
    | .error fault => .error fault.message
  | .flag => fun text => .ok (.flag text)
  | .label => fun text => .ok (.label text)
  | .probe => fun text => .ok (.probe text)
  | .reject => fun text => .error text

/-- An effect whose number stands in `digits`; it is refused as a whole. -/
def readNumbered (token digits : List Char) (slot : Int) (change : Int64 → Change) :
    Except String (Effect Change) :=
  match Text.readSigned 64 digits with
  | .ok n => .ok ⟨slot, change (Int64.ofInt n)⟩
  | .error _ => .error ("invalid effect: \"" ++ String.ofList token ++ "\"")

/-- Read a single effect. The first character decides its form; after that, a colon does. -/
def readEffect : List Char → Except String (Effect Change)
  | '@' :: name => .ok ⟨1, .relabel (String.ofList name)⟩
  | '*' :: digits => readNumbered ('*' :: digits) digits 2 .multiply
  | '=' :: digits => readNumbered ('=' :: digits) digits 3 .assign
  | token =>
    match token.dropWhile (· ≠ ':') with
    | [] => readNumbered token token 0 .add
    | _ :: text =>
      let left := token.takeWhile (· ≠ ':')
      match Text.readSigned 32 left with
      | .ok slot => .ok ⟨slot, .append (String.ofList text)⟩
      | .error _ => .error ("bad slot: \"" ++ String.ofList left ++ "\"")

def braced? : List Char → Option (List Char)
  | '\x7b' :: rest => if rest.getLast? = some '\x7d' then some rest.dropLast else none
  | _ => none

def readEffects : Reader (List (Effect Change)) := fun text =>
  match braced? text.toList with
  | some inner => ((inner.splitOn ';').filter (!·.isEmpty)).mapM readEffect
  | none => (readEffect text.toList).map ([·])

/-- A choice of contributions to an engine; what is left out is not contributed. -/
structure Choice where
  marks : List (Char × Kind) := []
  fallback : Option Kind := none
  effects : Bool := true
  slots : List Int := []
  names : Option (List String) := none
  defaultRules : String := ""

namespace Choice

def setup (c : Choice) : Setup Record Atom Change :=
  let s : Setup Record Atom Change := { holds := Atom.holds, perform := Change.perform }
  let s := c.marks.foldl (fun s (mark, kind) => s.withMark mark kind.read) s
  let s := match c.fallback with
    | some kind => s.withFallback kind.read
    | none => s
  let s := if c.effects then s.withEffects readEffects else s
  let s := match c.names with
    | some names => s.withNumbers names Record.readings
    | none => s
  (s.withSlots c.slots).withDefaultRules c.defaultRules

/-- A call by the kind of its reader, of which a mark has the latest. -/
def renderCall (c : Choice) : Call → String
  | .marked mark text => named (c.marks.reverse.lookup mark) text
  | .unmarked token => named c.fallback token
  | .effect token => "effect " ++ token
where
  named (kind : Option Kind) (text : String) : String :=
    ((kind.map Kind.name).getD "") ++ " " ++ text

end Choice

end PriorityRules.Sample
