import PriorityRules.Engine.Printing
import PriorityRules.Engine.RulesFile
import PriorityRules.Sample.Vocabulary

/-! # Sessions

A session runs commands one after the other on one engine, one context and one file tree. The
context lasts from command to command unless a command brings a new one. Rulesets may be kept
under a name; each is kept with the revision at which it was active.
-/

namespace PriorityRules.Sample

inductive Command where
  | load (text : String)
  | loadFile (path : String)
  | reload
  | act
  | actWithReport (query : List Int)
  | explain (query : List Int)
  | count
  | showRuleset
  | keep (name : String)
  | showKept (name : String)
  | showVariables (names : List String)
  | showEngine
  | writeFile (path : String) (content : FileContent)
  | makeDirectory (path : String)
  | remove (path : String)
  | showFile (path : String)

structure Step where
  context : Option Record
  command : Command

/-- A report with the verdicts on the slots that were asked for. -/
structure Findings where
  report : Report
  verdicts : List (Option Verdict)

inductive Answer where
  | loaded (result : Except RulesFault Nat) (count : Nat) (same : Bool) (calls : List String)
  | acted (result : Except EvaluationFault (Option Findings)) (context : Record)
      (probes : List String)
  | count (n : Nat)
  | ruleset (r : Ruleset Atom Change)
  | kept (r : Option (Ruleset Atom Change)) (current : Bool)
  | declared (v : Variables) (positions : List (Option Nat))
  | engine (outline : Option String)
  | fileText (text : Option String)
  | done

structure Session where
  choice : Choice
  engine : Engine Record Atom Change
  context : Record := {}
  files : FileTree := {}
  kept : List (String × Ruleset Atom Change × Nat) := []

namespace Session

def start (choice : Choice) : Except SetupFault Session :=
  choice.setup.build.map fun engine => { choice, engine }

structure Turn where
  answer : Answer
  session : Session
  events : List Event := []

def afterLoad {E : Type} (s : Session) (loading : Loading Record Atom Change E)
    (fault : E → RulesFault) (files : FileTree) : Turn where
  answer := .loaded (loading.result.mapError fault) loading.engine.count
    (loading.engine.revision = s.engine.revision) (loading.calls.map s.choice.renderCall)
  session := { s with engine := loading.engine, files }
  events := loading.events

def probes (answers : List (Evaluation.Question Atom × Bool)) : List String :=
  answers.filterMap fun
    | (.atom (.probe text), _) => some text
    | _ => none

def afterActing {R : Type} (s : Session) (acting : Acting Record Atom R)
    (findings : R → Option Findings) : Turn where
  answer := .acted (acting.result.map findings) acting.context (probes acting.answers)
  session := { s with context := acting.context }
  events := acting.events

def findings (query : List Int) (report : Report) : Option Findings :=
  some ⟨report, query.map report.verdict?⟩

/-- The outline of the engine. The index of the names has no order, so an engine with more than
one number has no outline. -/
def engineOutline (s : Session) : Option String :=
  if s.engine.host.declared.size ≤ 1 then some s.engine.outline else none

def runCommand (s : Session) : Command → Turn
  | .load text => s.afterLoad (s.engine.load text) .load s.files
  | .loadFile path =>
    let (loading, files) := s.engine.loadFile s.files path
    s.afterLoad loading id files
  | .reload =>
    let (loading, files) := s.engine.reload s.files
    s.afterLoad loading id files
  | .act => s.afterActing (s.engine.act s.context) fun _ => none
  | .actWithReport query => s.afterActing (s.engine.actWithReport s.context) (findings query)
  | .explain query => s.afterActing (s.engine.explain s.context) (findings query)
  | .count => { answer := .count s.engine.count, session := s }
  | .showRuleset => { answer := .ruleset s.engine.active, session := s }
  | .keep name =>
    { answer := .done
      session := { s with kept := (name, s.engine.active, s.engine.revision) :: s.kept } }
  | .showKept name =>
    let found := s.kept.lookup name
    { answer := .kept (found.map (·.1)) (found.any fun k => k.2 = s.engine.revision)
      session := s }
  | .showVariables names =>
    let v := s.engine.host.declared
    { answer := .declared v (names.map v.position?), session := s }
  | .showEngine => { answer := .engine s.engineOutline, session := s }
  | .writeFile path content =>
    { answer := .done, session := { s with files := (s.files.write path content).2 } }
  | .makeDirectory path =>
    { answer := .done, session := { s with files := s.files.makeDirectory path } }
  | .remove path => { answer := .done, session := { s with files := s.files.remove path } }
  | .showFile path => { answer := .fileText (s.files.readText path).toOption, session := s }

def step (s : Session) (step : Step) : Turn :=
  { s with context := step.context.getD s.context }.runCommand step.command

def run (s : Session) : List Step → List (Answer × List Event)
  | [] => []
  | first :: rest =>
    let turn := s.step first
    (turn.answer, turn.events) :: run turn.session rest

end Session

end PriorityRules.Sample
