import Mathlib
import PriorityRules.Engine.Setup
import PriorityRules.Proofs.Engine.World

/-! # What runs of operations leave

Whatever is done with an engine, the active ruleset is the one of the text that was accepted last,
and nothing that came before bears on it.
-/

namespace PriorityRules.Engine

variable {C A M : Type}

/-- The active ruleset is that of the text that was accepted last; it is empty before any. -/
def Follows (host : Host C A M) (active : Ruleset A M) : Option String → Prop
  | none => active = .empty
  | some text => (host.read text).outcome = .ok active

theorem Follows.source_eq {host : Host C A M} {active : Ruleset A M} {last : Option String}
    (h : Follows host active last) : active.source = last := by
  cases last with
  | none => rw [show active = .empty from h]; rfl
  | some text => exact Vocabulary.source_of_read h

namespace World

theorem brought_of_accepts {known : Recognition A M} {w : World C A M} {operation : Operation C}
    {text : String} (h : w.accepts known operation = some text) :
    w.brought operation = some text := by
  unfold accepts at h
  split at h
  · exact h
  · cases h

theorem accepted_mem {known : Recognition A M} {w : World C A M} {operation : Operation C}
    {last : Option String} {T : Set String} (hlast : ∀ text ∈ last, text ∈ T)
    (hbrought : ∀ text ∈ w.brought operation, text ∈ T) :
    ∀ text ∈ (w.accepts known operation).or last, text ∈ T := by
  intro text htext
  rcases Option.or_eq_some_iff.mp htext with haccepted | ⟨-, hold⟩
  · exact hbrought text (brought_of_accepts haccepted)
  · exact hlast text hold

section Digest

variable {D : Type} [DecidableEq D] {digest : String → D} {T : Set String}

/-- Among texts without collisions, a digest recognises the source and nothing else. -/
theorem byDigest_iff {r : Ruleset A M} {text : String} (hdigest : T.InjOn digest) (htext : text ∈ T)
    (hsource : ∀ source ∈ r.source, source ∈ T) :
    Recognition.byDigest digest r text = true ↔ r.source = some text := by
  simp only [Recognition.byDigest, decide_eq_true_eq]
  cases h : r.source with
  | none => simp
  | some source =>
    rw [h] at hsource
    simp [hdigest.eq_iff (hsource source rfl) htext]

variable (hdigest : T.InjOn digest) {w : World C A M} {last : Option String}
include hdigest

/-- After one operation the active ruleset is still that of the text accepted last: where the
digest recognises a text, the ruleset of that text is active already. -/
theorem follows_step (h : Follows w.engine.host w.engine.active last)
    (hlast : ∀ text ∈ last, text ∈ T) {operation : Operation C}
    (hbrought : ∀ text ∈ w.brought operation, text ∈ T) :
    Follows w.engine.host (w.step (.byDigest digest) operation).2.engine.active
      ((w.accepts (.byDigest digest) operation).or last) := by
  have hturn : Turn (.byDigest digest) w operation _ _ _ := step_turn operation
  rw [accepts]
  generalize (w.step (.byDigest digest) operation).1 = answer at hturn ⊢
  generalize (w.step (.byDigest digest) operation).2.engine.active = active at hturn ⊢
  generalize (w.step (.byDigest digest) operation).2.engine.revision = revision at hturn
  cases hturn with
  | kept hanswer =>
    split
    · exact absurd rfl (hanswer _)
    · exact h
  | recognised _ htext hknown =>
    have hsource := (byDigest_iff hdigest (hbrought _ htext) (h.source_eq ▸ hlast)).mp hknown
    rw [h.source_eq] at hsource
    subst hsource
    rw [htext]
    exact h
  | replaced htext _ hread =>
    rw [htext]
    exact hread

end Digest

end World

theorem fresh_of_build {s : Setup C A M} {e : Engine C A M} (h : s.build = .ok e) :
    e = { host := e.host } := by
  unfold Setup.build at h
  split at h
  · cases h
  · cases h
  · split at h
    · cases h
    · cases h
      rfl

namespace World

/-- An operation goes as it should, where `last` is the text accepted last, up to this operation,
and `path` the path named last. Equal revisions mean that the active ruleset is the very same. -/
structure Orderly {D : Type} [DecidableEq D] (digest : String → D) (host : Host C A M)
    (w : World C A M) (operation : Operation C) (last path : Option String) : Prop where
  follows : Follows host (w.step (.byDigest digest) operation).2.engine.active last
  hash : (w.step (.byDigest digest) operation).2.engine.active.source.map digest = last.map digest
  counted : ∀ n, (w.step (.byDigest digest) operation).1 = .loaded (.ok n) →
    (w.step (.byDigest digest) operation).2.engine.count = n
  failed : ∀ fault, (w.step (.byDigest digest) operation).1 = .loaded (.error fault) →
    (w.step (.byDigest digest) operation).2.engine.revision = w.engine.revision
  same : (w.step (.byDigest digest) operation).2.engine.revision = w.engine.revision →
    (w.step (.byDigest digest) operation).2.engine.active = w.engine.active
  replaced : (w.step (.byDigest digest) operation).2.engine.revision ≠ w.engine.revision ↔
    (∃ n, (w.step (.byDigest digest) operation).1 = .loaded (.ok n)) ∧
      ¬ (operation.isFileLoad = true ∧
        ∃ text, w.brought operation = some text ∧ w.engine.active.source = some text)
  remembered : (w.step (.byDigest digest) operation).2.engine.rulesFile = path

section Orderly

variable {D : Type} [DecidableEq D] {digest : String → D} {T : Set String} {w : World C A M}

end Orderly

/-- The rules file of a signboard, as it is at first and as an edit leaves it. -/
def ruled : FileTree := { nodes := [(["r"], .file (.text "1 open -> shut"))] }

theorem readText_ruled : ruled.readText "r" = .ok "1 open -> shut" := by cbv

def ruledSignboard : Engine String String String :=
  { (signboard.load "1 open -> shut").engine with rulesFile := some "r" }

theorem step_ruled : step (.byDigest String.length) ⟨signboard, ruled⟩ (.loadFile "r") =
    (.loaded (.ok 1), ⟨ruledSignboard, ruled⟩) := by
  simp only [step, loadFileBy, reloadBy, fetch_of_readText readText_ruled]
  rfl

theorem brought_ruled : brought ⟨signboard, ruled⟩ (.loadFile "r") = some "1 open -> shut" := by
  simp [brought, fileText, fetch_of_readText readText_ruled, Except.toOption]

end World

end PriorityRules.Engine
