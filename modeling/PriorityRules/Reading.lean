import PriorityRules.Reading.Draft

/-! # Reading a text

A text is read line by line. The first fault stops the reading; otherwise the text gives a
ruleset. Either way it is known which readers of the host were called, and in what order.
-/

namespace PriorityRules

structure Reading (A M : Type) where
  outcome : Except LoadError (Ruleset A M)
  calls : List Call

/-- Read a whole text with a given way to read condition tokens. -/
def Vocabulary.readWith {A M : Type} (V : Vocabulary A M)
    (condition : Reading.ConditionReader A) (text : String) : Reading A M :=
  match (Text.lines text.toList).foldlM (Reading.Draft.readLine V condition) {} with
  | .error halt => ⟨.error halt.fault, halt.calls⟩
  | .ok draft => ⟨draft.finish text, draft.notes.calls⟩

def Vocabulary.read {A M : Type} (V : Vocabulary A M) (text : String) : Reading A M :=
  V.readWith (Reading.readCondition V) text

end PriorityRules
