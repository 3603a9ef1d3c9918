import PriorityRules.Engine.RulesFile
import PriorityRules.Proofs.Engine.Loading

/-! # Engines among files

An engine is at work among files that others may change at any time. Each operation on it keeps the
active ruleset without success, recognises the source of it, or replaces it. The way in which an
engine recognises the source of its ruleset is a parameter.
-/

namespace PriorityRules.Engine

variable {C A M : Type}

inductive Operation (C : Type) where
  | load (text : String)
  | loadFile (path : String)
  | reload
  | act (context : C)
  | actWithReport (context : C)
  | explain (context : C)
  | count
  /-- Look at the active ruleset. -/
  | inspect
  /-- Files are created, edited or removed from outside. -/
  | outside (files : FileTree)

namespace Operation

def path? : Operation C → Option String
  | loadFile path => some path
  | _ => none

def isFileLoad : Operation C → Bool
  | loadFile _ => true
  | reload => true
  | _ => false

end Operation

/-- What an operation gives back. Of a ruleset it shows the rules and the tags. -/
inductive Answer (C A M : Type) where
  | loaded (result : Except RulesFault Nat)
  | acted (acting : Acting C A Unit)
  | reported (acting : Acting C A Report)
  | counted (n : Nat)
  | shown (rules : List (Rule A M)) (tags : List (Tag A))
  | done

structure World (C A M : Type) where
  engine : Engine C A M
  files : FileTree

def fileText (e : Engine C A M) (files : FileTree) : Option String :=
  e.rulesFile.bind fun path => (e.fetch files path).1.toOption

namespace World

variable (known : Recognition A M) (w : World C A M)

def afterLoad {E : Type} (loading : Loading C A M E) (fault : E → RulesFault) (files : FileTree) :
    Answer C A M × World C A M :=
  (.loaded (loading.result.mapError fault), ⟨loading.engine, files⟩)

def step : Operation C → Answer C A M × World C A M
  | .load text => afterLoad (w.engine.load text) .load w.files
  | .loadFile path =>
    let (loading, files) := w.engine.loadFileBy known w.files path
    afterLoad loading id files
  | .reload =>
    let (loading, files) := w.engine.reloadBy known w.files
    afterLoad loading id files
  | .act context => (.acted (w.engine.act context), w)
  | .actWithReport context => (.reported (w.engine.actWithReport context), w)
  | .explain context => (.reported (w.engine.explain context), w)
  | .count => (.counted w.engine.count, w)
  | .inspect => (.shown w.engine.active.rules w.engine.active.tags, w)
  | .outside files => (.done, { w with files })

def after (operations : List (Operation C)) : World C A M :=
  operations.foldl (fun w operation => (w.step known operation).2) w

def brought : Operation C → Option String
  | .load text => some text
  | .loadFile path => fileText { w.engine with rulesFile := some path } w.files
  | .reload => w.engine.fileText w.files
  | _ => none

def texts (w : World C A M) : List (Operation C) → List String
  | [] => []
  | operation :: rest =>
    (w.brought operation).toList ++ texts (w.step known operation).2 rest

/-- The text that an operation brings, if it is accepted. -/
def accepts (operation : Operation C) : Option String :=
  match (w.step known operation).1 with
  | .loaded (.ok _) => w.brought operation
  | _ => none

def accepted (w : World C A M) : List (Operation C) → List String
  | [] => []
  | operation :: rest =>
    (w.accepts known operation).toList ++ accepted (w.step known operation).2 rest

variable {known w}

end World

section Reload

variable (e : Engine C A M) (known : Recognition A M) (files : FileTree)

/-- What becomes of a text that a file brings: it is recognised, refused or read. -/
theorem takeIn_cases (path text : String) :
    (known e.active text = true ∧ (e.takeIn known path text).result = .ok e.count ∧
      (e.takeIn known path text).engine = e) ∨
    (∃ fault, (e.takeIn known path text).result = .error fault ∧
      (e.takeIn known path text).engine = e) ∨
    ∃ r, known e.active text = false ∧ (e.host.read text).outcome = .ok r ∧
      (e.takeIn known path text).result = .ok r.size ∧
      (e.takeIn known path text).engine = { e with active := r, revision := e.revision + 1 } := by
  cases hknown : known e.active text with
  | true => simp [takeIn, hknown]
  | false =>
    cases hread : (e.host.read text).outcome with
    | error error => simp [takeIn, hknown, e.load_of_error hread, Except.mapError]
    | ok r => simp [takeIn, hknown, e.load_of_ok hread, Except.mapError]

theorem takeIn_engine (path text : String) :
    ∃ active revision, (e.takeIn known path text).engine = { e with active, revision } := by
  rcases e.takeIn_cases known path text with ⟨_, _, h⟩ | ⟨_, _, h⟩ | ⟨r, _, _, _, h⟩
  · exact ⟨e.active, e.revision, h⟩
  · exact ⟨e.active, e.revision, h⟩
  · exact ⟨r, e.revision + 1, h⟩

theorem fetch_of_readText {e : Engine C A M} {files : FileTree} {path text : String}
    (h : files.readText path = .ok text) : e.fetch files path = (.ok text, files) := by
  simp [fetch, h]

theorem reloadBy_of_text {path text : String} (hpath : e.rulesFile = some path)
    (htext : (e.fetch files path).1 = .ok text) :
    (e.reloadBy known files).1.result = (e.takeIn known path text).result ∧
      (e.reloadBy known files).1.engine = (e.takeIn known path text).engine := by
  simp [reloadBy, hpath, htext]

/-- A reload fails and changes nothing, or it takes in the text of the file. -/
theorem reloadBy_cases :
    (∃ fault, (e.reloadBy known files).1.result = .error fault ∧
      (e.reloadBy known files).1.engine = e) ∨
    ∃ path text, e.fileText files = some text ∧
      (e.reloadBy known files).1.result = (e.takeIn known path text).result ∧
      (e.reloadBy known files).1.engine = (e.takeIn known path text).engine := by
  cases hpath : e.rulesFile with
  | none => simp [reloadBy, hpath]
  | some path =>
    cases htext : (e.fetch files path).1 with
    | error fault => simp [reloadBy, hpath, htext]
    | ok text =>
      refine .inr ⟨path, text, ?_, e.reloadBy_of_text known files hpath htext⟩
      simp [fileText, hpath, htext, Except.toOption]

theorem reloadBy_engine :
    ∃ active revision, (e.reloadBy known files).1.engine = { e with active, revision } := by
  rcases e.reloadBy_cases known files with ⟨_, _, h⟩ | ⟨path, text, _, _, h⟩
  · exact ⟨e.active, e.revision, h⟩
  · rw [h]
    exact e.takeIn_engine known path text

theorem load_engine (text : String) :
    ∃ active revision, (e.load text).engine = { e with active, revision } := by
  cases hread : (e.host.read text).outcome with
  | error error => exact ⟨e.active, e.revision, (e.load_of_error hread).2⟩
  | ok r => exact ⟨r, e.revision + 1, (e.load_of_ok hread).2⟩

end Reload

namespace World

variable {known : Recognition A M} {w : World C A M}

/-- What an operation may do to the active ruleset, of which the revision tells whether it is still
the same one: keep it without success, recognise its source, or replace it. -/
inductive Turn (known : Recognition A M) (w : World C A M) (operation : Operation C) :
    Answer C A M → Ruleset A M → Nat → Prop where
  | kept {answer : Answer C A M} (h : ∀ n, answer ≠ .loaded (.ok n)) :
      Turn known w operation answer w.engine.active w.engine.revision
  | recognised {text : String} (hfile : operation.isFileLoad = true)
      (htext : w.brought operation = some text) (hknown : known w.engine.active text = true) :
      Turn known w operation (.loaded (.ok w.engine.count)) w.engine.active w.engine.revision
  | replaced {text : String} {r : Ruleset A M} (htext : w.brought operation = some text)
      (hnew : operation.isFileLoad = true → known w.engine.active text = false)
      (hread : (w.engine.host.read text).outcome = .ok r) :
      Turn known w operation (.loaded (.ok r.size)) r (w.engine.revision + 1)

/-- A file load takes its turn, whatever path the engine has come to remember. -/
theorem turn_of_reloadBy {operation : Operation C} (hfile : operation.isFileLoad = true)
    {path : Option String}
    (htext : w.brought operation = fileText { w.engine with rulesFile := path } w.files) :
    Turn known w operation
      (.loaded ({ w.engine with rulesFile := path }.reloadBy known w.files).1.result)
      ({ w.engine with rulesFile := path }.reloadBy known w.files).1.engine.active
      ({ w.engine with rulesFile := path }.reloadBy known w.files).1.engine.revision := by
  rcases reloadBy_cases { w.engine with rulesFile := path } known w.files with
    ⟨fault, hresult, hengine⟩ | ⟨place, text, hfetched, hresult, hengine⟩
  · rw [hresult, hengine]
    exact .kept (by simp)
  · rw [hresult, hengine]
    rw [hfetched] at htext
    rcases takeIn_cases { w.engine with rulesFile := path } known place text with
      ⟨hknown, hresult, hengine⟩ | ⟨fault, hresult, hengine⟩ | ⟨r, hnew, hread, hresult, hengine⟩
    · rw [hresult, hengine]
      exact .recognised hfile htext hknown
    · rw [hresult, hengine]
      exact .kept (by simp)
    · rw [hresult, hengine]
      exact .replaced htext (fun _ => hnew) hread

theorem mapError_id {E α : Type} (x : Except E α) : x.mapError id = x := by
  cases x <;> rfl

theorem step_turn (operation : Operation C) :
    Turn known w operation (w.step known operation).1 (w.step known operation).2.engine.active
      (w.step known operation).2.engine.revision := by
  cases operation with
  | load text =>
    cases hread : (w.engine.host.read text).outcome with
    | error error =>
      simp only [step, afterLoad, w.engine.load_of_error hread]
      exact .kept (by simp [Except.mapError])
    | ok r =>
      simp only [step, afterLoad, w.engine.load_of_ok hread]
      exact .replaced rfl (by simp [Operation.isFileLoad]) hread
  | loadFile path =>
    simp only [step, afterLoad, mapError_id]
    exact turn_of_reloadBy rfl rfl
  | reload =>
    simp only [step, afterLoad, mapError_id]
    exact turn_of_reloadBy rfl rfl
  | act context => exact .kept (by simp [step])
  | actWithReport context => exact .kept (by simp [step])
  | explain context => exact .kept (by simp [step])
  | count => exact .kept (by simp [step])
  | inspect => exact .kept (by simp [step])
  | outside files => exact .kept (by simp [step])

namespace Turn

variable {operation : Operation C} {answer : Answer C A M} {active : Ruleset A M} {revision : Nat}

theorem size_eq (h : Turn known w operation answer active revision) {n : Nat}
    (hok : answer = .loaded (.ok n)) : active.size = n := by
  cases h with
  | kept hanswer => exact absurd hok (hanswer n)
  | recognised _ _ _ => cases hok; rfl
  | replaced _ _ _ => cases hok; rfl

end Turn

section Engine

variable (known : Recognition A M) (w : World C A M)

/-- Besides the active ruleset, an operation changes the remembered path only, and that only if it
is a file load: then its path is remembered, whatever comes of it. -/
theorem step_engine (operation : Operation C) :
    ∃ active revision, (w.step known operation).2.engine =
      { w.engine with
        active, revision, rulesFile := operation.path?.or w.engine.rulesFile } := by
  cases operation with
  | load text => exact load_engine w.engine text
  | loadFile path => exact reloadBy_engine { w.engine with rulesFile := some path } known w.files
  | reload => exact reloadBy_engine w.engine known w.files
  | _ => exact ⟨w.engine.active, w.engine.revision, rfl⟩

@[simp] theorem host_step (operation : Operation C) :
    (w.step known operation).2.engine.host = w.engine.host := by
  obtain ⟨_, _, h⟩ := w.step_engine known operation
  rw [h]

end Engine

end World

end PriorityRules.Engine
