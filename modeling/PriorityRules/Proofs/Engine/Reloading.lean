import PriorityRules.Proofs.Engine.Recognition
import PriorityRules.Proofs.Engine.Writing

/-! # Reloading twice

A reload leaves the files so that the next one finds the text that this one found or wrote. Unless
something else happens in between, the next reload therefore comes to the same. If the first one
succeeds, the second recognises the text and reads nothing. Only where the default rules could not
be stored as a whole does the next reload find another text than this one was to write.
-/

namespace PriorityRules

variable {C A M : Type}

namespace Engine

variable {e : Engine C A M} {known : Recognition A M} {files : FileTree} {path text : String}

/-- What is written to the rules file is read from it again: where fetching the text has touched the
files, the default rules are in the rules file. -/
def ReadsBack (e : Engine C A M) (files : FileTree) (path : String) : Prop :=
  (e.fetch files path).2 ≠ files →
    (e.fetch files path).2.readText path = .ok e.host.defaultRules

theorem fetch_of_missing (hmissing : files.readText path = .error .notFound) :
    e.fetch files path =
      ((files.write path (.text e.host.defaultRules)).1.map fun _ => e.host.defaultRules,
        (files.write path (.text e.host.defaultRules)).2) := by
  rw [fetch, hmissing]
  rcases files.write path (.text e.host.defaultRules) with ⟨_ | _, _⟩ <;> rfl

/-- Only a file that is missing is ever written. -/
theorem missing_of_fetch (h : (e.fetch files path).2 ≠ files) :
    files.readText path = .error .notFound ∧ ∃ place, files.target path = .ok place := by
  cases hread : files.readText path with
  | ok text => exact absurd (congrArg Prod.snd (fetch_of_readText hread)) h
  | error fault =>
    have hmissing : fault = .notFound := by
      by_contra hother
      apply h
      cases fault <;> simp_all [fetch]
    subst hmissing
    refine ⟨rfl, ?_⟩
    cases htarget : files.target path with
    | ok place => exact ⟨place, rfl⟩
    | error fault =>
      rw [fetch_of_missing hread, FileTree.write, htarget] at h
      exact absurd rfl h

section Missing

variable {place : List String} (hmissing : files.readText path = .error .notFound)
  (htarget : files.target path = .ok place)
include hmissing htarget

/-- The default rules fit, or there is too little room and the fetch fails. Either way the file is
made, and holds what fits. -/
theorem fetch_of_target :
    ((files.fitting place (.text e.host.defaultRules) = .text e.host.defaultRules ∧
        (e.fetch files path).1 = .ok e.host.defaultRules) ∨
      (files.fitting place (.text e.host.defaultRules) ≠ .text e.host.defaultRules ∧
        (e.fetch files path).1 = .error .storageFull)) ∧
      (e.fetch files path).2 ≠ files ∧
      (e.fetch files path).2.readText path =
        (files.fitting place (.text e.host.defaultRules)).readText := by
  rw [fetch_of_missing hmissing]
  have hread := FileTree.readText_write (.text e.host.defaultRules) htarget
  refine ⟨?_, ?_, hread⟩
  · rcases FileTree.write_result (.text e.host.defaultRules) htarget with
      ⟨hfits, hresult⟩ | ⟨hlack, hresult⟩
    · exact .inl ⟨hfits, by rw [hresult]; rfl⟩
    · exact .inr ⟨hlack, by rw [hresult]; rfl⟩
  · intro hsame
    rw [hsame, hmissing] at hread
    cases hfitting : files.fitting place (.text e.host.defaultRules) <;>
      rw [hfitting] at hread <;> cases hread

/-- What is written is read again just if there is room for all of it. -/
theorem readsBack_iff :
    e.ReadsBack files path ↔
      files.fitting place (.text e.host.defaultRules) = .text e.host.defaultRules := by
  obtain ⟨-, hchanged, hread⟩ := e.fetch_of_target hmissing htarget
  rw [ReadsBack, hread, FileContent.readText_eq_ok_iff]
  exact ⟨fun h => h hchanged, fun h _ => h⟩

end Missing

/-- Where the default rules do not fit, the fetch fails and leaves the beginning of them in the file,
and that is what the next fetch finds. -/
theorem fetch_of_cut (hcut : ¬ e.ReadsBack files path) :
    (e.fetch files path).1 = .error .storageFull ∧ ∃ room, files.room = some room ∧
      let stored := (FileContent.text e.host.defaultRules).first room
      (e.fetch files path).2.readText path = stored.readText ∧
        e.fetch (e.fetch files path).2 path = (stored.readText, (e.fetch files path).2) := by
  obtain ⟨hchanged, -⟩ := Classical.not_imp.mp hcut
  obtain ⟨hmissing, place, htarget⟩ := missing_of_fetch hchanged
  have hlack := (readsBack_iff hmissing htarget).not.mp hcut
  have hfitting := FileTree.fitting_of_missing (.text e.host.defaultRules)
    (FileTree.node?_of_missing hmissing htarget)
  obtain ⟨⟨hfits, -⟩ | ⟨-, hanswer⟩, -, hread⟩ := e.fetch_of_target hmissing htarget
  · exact absurd hfits hlack
  cases hroom : files.room with
  | none =>
    rw [hroom] at hfitting
    exact absurd hfitting hlack
  | some room =>
    rw [hroom, Option.elim_some] at hfitting
    rw [hfitting] at hread
    refine ⟨hanswer, room, rfl, hread, ?_⟩
    generalize (e.fetch files path).2 = left at hread ⊢
    rw [fetch, hread]
    cases (FileContent.text e.host.defaultRules).first room <;> rfl

section Reload

variable (hpath : e.rulesFile = some path)
include hpath

theorem reloadBy_files : (e.reloadBy known files).2 = (e.fetch files path).2 := by
  simp [reloadBy, hpath]

theorem reloadBy_of_fault {fault : FileFault} (hfault : (e.fetch files path).1 = .error fault) :
    (e.reloadBy known files).1.result = .error (.file fault) ∧
      (e.reloadBy known files).1.engine = e := by
  simp [reloadBy, hpath, hfault]

/-- Where the room is too small for the default rules, a reload that creates the file fails and
leaves the beginning of them there, and the next reload takes in what the first one left. -/
theorem reloadBy_of_cut (hcut : ¬ e.ReadsBack files path) :
    let first := e.reloadBy known files
    let second := first.1.engine.reloadBy known first.2
    first.1.result = .error (.file .storageFull) ∧ first.1.engine = e ∧ second.2 = first.2 ∧
      ∃ room, files.room = some room ∧ ∃ stored,
        stored = (FileContent.text e.host.defaultRules).first room ∧
        first.2.readText path = stored.readText ∧
        second.1.result =
          (stored.readText.mapError .file).bind fun text => (e.takeIn known path text).result := by
  intro first second
  obtain ⟨hanswer, room, hroom, hread, hagain⟩ := fetch_of_cut hcut
  obtain ⟨hresult, hengine⟩ : first.1.result = .error (.file .storageFull) ∧ first.1.engine = e :=
    reloadBy_of_fault hpath hanswer
  have hfiles : first.2 = (e.fetch files path).2 := reloadBy_files hpath
  rw [← hfiles] at hread hagain
  have hsecond : second = e.reloadBy known first.2 := congrArg (·.reloadBy known first.2) hengine
  rw [hsecond, reloadBy_files hpath, hagain]
  refine ⟨hresult, hengine, rfl, room, hroom, _, rfl, hread, ?_⟩
  cases htext : ((FileContent.text e.host.defaultRules).first room).readText with
  | error fault =>
    rw [htext] at hagain
    exact (reloadBy_of_fault hpath (congrArg Prod.fst hagain)).1
  | ok text =>
    rw [htext] at hagain
    exact (e.reloadBy_of_text known first.2 hpath (congrArg Prod.fst hagain)).1

end Reload

/-- On a full device the first reload leaves an empty file, and the second one loads no rules. -/
example :
    let e : Engine String String String :=
      { signboard with
        host := { signboard.host with defaultRules := "1 open -> shut" }, rulesFile := "r" }
    let first := e.reloadBy (.byDigest id) { room := some 0 }
    first.1.result = .error (.file .storageFull) ∧
      (first.1.engine.reloadBy (.byDigest id) first.2).1.result = .ok 0 := by cbv

namespace World

section Digest

variable {D : Type} [DecidableEq D] {digest : String → D} {s : Setup C A M} {fresh : Engine C A M}

end Digest

end World

end Engine

end PriorityRules
