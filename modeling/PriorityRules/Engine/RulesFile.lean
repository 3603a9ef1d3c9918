import PriorityRules.Engine
import PriorityRules.FileTree

/-! # Rules files

An engine may take its rules from a file, whose path it remembers even when loading it fails. A
file that does not exist is first written with the default rules. A file whose text is recognised
as the source of the active ruleset is not read again: the ruleset stays what it is.
-/

namespace PriorityRules

inductive RulesFault where
  | load (error : LoadError)
  | file (fault : FileFault)
  | noRulesFile
  deriving DecidableEq, Repr

def RulesFault.message : RulesFault → String
  | .load error => error.message
  | .file fault => fault.message
  | .noRulesFile => "no rules file has been set"

/-- A way to recognise the text that a ruleset was read from. -/
abbrev Recognition (A M : Type) := Ruleset A M → String → Bool

def Recognition.byDigest {A M D : Type} [DecidableEq D] (digest : String → D) : Recognition A M :=
  fun r text => r.source.map digest = some (digest text)

namespace Engine

variable {C A M : Type}

/-- The text of a rules file, which is written first when it does not exist. -/
def fetch (e : Engine C A M) (files : FileTree) (path : String) :
    Except FileFault String × FileTree :=
  match files.readText path with
  | .error .notFound =>
    match files.write path (.text e.host.defaultRules) with
    | (.ok (), files) => (.ok e.host.defaultRules, files)
    | (.error fault, files) => (.error fault, files)
  | answer => (answer, files)

/-- Take in the text of a rules file, unless the active ruleset was read from it already. -/
def takeIn (e : Engine C A M) (known : Recognition A M) (path text : String) :
    Loading C A M RulesFault :=
  if known e.active text then
    { result := .ok e.count, engine := e, events := [.unchanged path] }
  else
    let loading := e.load text
    { loading with result := loading.result.mapError .load }

def reloadBy (e : Engine C A M) (known : Recognition A M) (files : FileTree) :
    Loading C A M RulesFault × FileTree :=
  match e.rulesFile with
  | none => ({ result := .error .noRulesFile, engine := e }, files)
  | some path =>
    let (text, files) := e.fetch files path
    let loading :=
      match text with
      | .ok text => e.takeIn known path text
      | .error fault => { result := .error (.file fault), engine := e }
    let event :=
      match loading.result with
      | .ok rules => Event.fileLoaded path rules
      | .error fault => Event.fileFailed path fault.message
    ({ loading with events := loading.events ++ [event] }, files)

def loadFileBy (e : Engine C A M) (known : Recognition A M) (files : FileTree) (path : String) :
    Loading C A M RulesFault × FileTree :=
  { e with rulesFile := some path }.reloadBy known files

/-- Load the remembered rules file. A text is its own digest here. -/
def reload (e : Engine C A M) (files : FileTree) : Loading C A M RulesFault × FileTree :=
  e.reloadBy (.byDigest id) files

def loadFile (e : Engine C A M) (files : FileTree) (path : String) :
    Loading C A M RulesFault × FileTree :=
  e.loadFileBy (.byDigest id) files path

end Engine

end PriorityRules
