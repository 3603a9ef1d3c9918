/-! # Why a text is not a ruleset

Reading stops at the first fault, which is reported with its line. The texts of the faults are
part of the answer.
-/

namespace PriorityRules

/-- Why a token is not a predicate. -/
inductive PredicateFault where
  | emptyNegation
  | emptyTagName
  | unknownVariable (name : String)
  | invalidNumber (text : String)
  | noOperator (body : String)
  | unmarked (token : String)
  | rejected (message : String)
  deriving DecidableEq, Repr

def PredicateFault.message : PredicateFault → String
  | .emptyNegation => "negating nothing"
  | .emptyTagName => "empty tag name"
  | .unknownVariable name => "unknown variable: \"" ++ name ++ "\""
  | .invalidNumber text => "invalid number: \"" ++ text ++ "\""
  | .noOperator body => "no comparison operator found in \"" ++ body ++ "\""
  | .unmarked token => "unprefixed predicates unsupported: \"" ++ token ++ "\""
  | .rejected message => message

/-- Why a line, a tag block or the text as a whole is refused. -/
inductive LoadFault where
  | noArrow
  | noEffects
  | effect (message : String)
  | illegalTagName (name : String)
  | expectedBracket
  | duplicateTag (name : String)
  | unclosedTag (name : String)
  | misplacedBracket
  | emptyTag (name : String)
  | undefinedTag (name : String)
  | predicate (fault : PredicateFault)
  deriving DecidableEq, Repr

def LoadFault.message : LoadFault → String
  | .noArrow => "no arrow (\"->\") in rule line"
  | .noEffects => "no effects for rule"
  | .effect message => message
  | .illegalTagName name =>
    "illegal tag name: " ++ name ++ " (tag name must be purely alphanumeric)"
  | .expectedBracket => "expected [ after tag name"
  | .duplicateTag name => "duplicate tag \"" ++ name ++ "\""
  | .unclosedTag name => "unexpected EOF, unclosed block for tag \"" ++ name ++ "\""
  | .misplacedBracket => "\"]\" must appear at the end of a line"
  | .emptyTag name => "tag \"" ++ name ++ "\" has no predicates"
  | .undefinedTag name => "tag referenced but never defined: \"" ++ name ++ "\""
  | .predicate fault => fault.message

/-- A fault and the line, counted from one, on which it was found. -/
structure LoadError where
  line : Nat
  fault : LoadFault
  deriving DecidableEq, Repr

def LoadError.message (e : LoadError) : String :=
  "error on line " ++ toString e.line ++ ": " ++ e.fault.message

def LoadError.cause? (e : LoadError) : Option PredicateFault :=
  match e.fault with
  | .predicate fault => some fault
  | _ => none

end PriorityRules
