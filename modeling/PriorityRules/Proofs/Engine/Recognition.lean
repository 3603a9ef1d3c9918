import PriorityRules.Proofs.Engine.History

/-! # Engines that recognise nothing

An engine that recognises the source of its ruleset spares itself a reading. One that reads every
text afresh answers the same to all that is done with it, and finds the same files. What differs is
how often the active ruleset is replaced, which no answer shows.
-/

namespace PriorityRules

variable {C A M : Type}

def Recognition.never : Recognition A M := fun _ _ => false

namespace Engine

/-- The engines differ at most in how often the active ruleset has been replaced. -/
def Alike (e f : Engine C A M) : Prop := ∃ revision, f = { e with revision }

structure AlikeLoads {E : Type} (a b : Loading C A M E) : Prop where
  result : a.result = b.result
  engine : a.engine.Alike b.engine

section Loads

variable {e f : Engine C A M} {known : Recognition A M} {files : FileTree}

theorem Alike.load (h : e.Alike f) (text : String) : AlikeLoads (e.load text) (f.load text) := by
  obtain ⟨revision, rfl⟩ := h
  cases hread : (e.host.read text).outcome with
  | error error =>
    have he := e.load_of_error hread
    have hf := load_of_error { e with revision } hread
    exact ⟨he.1.trans hf.1.symm, revision, by rw [hf.2, he.2]⟩
  | ok r =>
    have he := e.load_of_ok hread
    have hf := load_of_ok { e with revision } hread
    exact ⟨he.1.trans hf.1.symm, revision + 1, by rw [hf.2, he.2]⟩

/-- Where just the source of the active ruleset is recognised, reading it again gives that ruleset
once more. -/
theorem Alike.takeIn (h : e.Alike f) {text : String}
    (hknown : known e.active text = true → (e.host.read text).outcome = .ok e.active)
    (path : String) : AlikeLoads (e.takeIn known path text) (f.takeIn .never path text) := by
  have hfresh : f.takeIn .never path text =
      { f.load text with result := (f.load text).result.mapError .load } := rfl
  by_cases hk : known e.active text = true
  · obtain ⟨revision, rfl⟩ := h
    have hload := load_of_ok { e with revision } (hknown hk)
    rw [hfresh, Engine.takeIn, if_pos hk]
    exact ⟨by rw [hload.1]; rfl, revision + 1, hload.2⟩
  · have hload := h.load text
    rw [hfresh, Engine.takeIn, if_neg hk]
    exact ⟨congrArg (Except.mapError RulesFault.load) hload.result, hload.engine⟩

theorem Alike.reloadBy (h : e.Alike f)
    (hknown : ∀ text ∈ e.fileText files,
      known e.active text = true → (e.host.read text).outcome = .ok e.active) :
    AlikeLoads (e.reloadBy known files).1 (f.reloadBy .never files).1 ∧
      (e.reloadBy known files).2 = (f.reloadBy .never files).2 := by
  have hfetch : ∀ path, f.fetch files path = e.fetch files path := by
    obtain ⟨revision, rfl⟩ := h
    exact fun _ => rfl
  have hpath : f.rulesFile = e.rulesFile := by
    obtain ⟨revision, rfl⟩ := h
    rfl
  unfold Engine.reloadBy
  rw [hpath]
  cases hplace : e.rulesFile with
  | none => exact ⟨⟨rfl, h⟩, rfl⟩
  | some path =>
    simp only [hfetch, and_true]
    cases htext : (e.fetch files path).1 with
    | error fault => exact ⟨rfl, h⟩
    | ok text =>
      have hbrought : e.fileText files = some text := by
        simp [fileText, hplace, htext, Except.toOption]
      have htake := h.takeIn (hknown text hbrought) path
      exact ⟨htake.result, htake.engine⟩

end Loads

namespace World

structure Alike (w v : World C A M) : Prop where
  engine : w.engine.Alike v.engine
  files : w.files = v.files

def answers (known : Recognition A M) (w : World C A M) :
    List (Operation C) → List (Answer C A M × FileTree)
  | [] => []
  | operation :: rest =>
    let (answer, next) := w.step known operation
    (answer, next.files) :: answers known next rest

variable {known : Recognition A M} {w v : World C A M}

theorem alike_afterLoad {E : Type} {a b : Loading C A M E} (h : AlikeLoads a b)
    (fault : E → RulesFault) (files : FileTree) :
    (afterLoad a fault files).1 = (afterLoad b fault files).1 ∧
      (afterLoad a fault files).2.Alike (afterLoad b fault files).2 := by
  simp only [World.afterLoad, h.result, true_and]
  exact ⟨h.engine, rfl⟩

theorem Alike.step (h : w.Alike v) {operation : Operation C}
    (hknown : ∀ text ∈ w.brought operation, known w.engine.active text = true →
      (w.engine.host.read text).outcome = .ok w.engine.active) :
    (w.step known operation).1 = (v.step .never operation).1 ∧
      (w.step known operation).2.Alike (v.step .never operation).2 := by
  obtain ⟨e, files⟩ := w
  obtain ⟨f, files'⟩ := v
  obtain ⟨hengine, rfl⟩ : e.Alike f ∧ files = files' := ⟨h.engine, h.files⟩
  cases operation with
  | load text => exact alike_afterLoad (hengine.load text) .load files
  | loadFile path =>
    have hnamed :
        Engine.Alike { e with rulesFile := some path } { f with rulesFile := some path } := by
      obtain ⟨revision, rfl⟩ := hengine
      exact ⟨revision, rfl⟩
    obtain ⟨hload, hfiles⟩ := hnamed.reloadBy hknown
    simp only [World.step, loadFileBy, ← hfiles]
    exact alike_afterLoad hload id _
  | reload =>
    obtain ⟨hload, hfiles⟩ := hengine.reloadBy hknown
    simp only [World.step, ← hfiles]
    exact alike_afterLoad hload id _
  | outside files => exact ⟨rfl, hengine, rfl⟩
  | _ =>
    -- no answer of an evaluation or of a look at the ruleset depends on the revision
    obtain ⟨revision, rfl⟩ := hengine
    exact ⟨rfl, ⟨revision, rfl⟩, rfl⟩

section Digest

variable {D : Type} [DecidableEq D] {digest : String → D} {T : Set String} {last : Option String}

/-- Among texts without collisions, what a digest recognises would be read as the ruleset that is
active already. -/
theorem read_of_byDigest (hdigest : T.InjOn digest) (h : Follows w.engine.host w.engine.active last)
    (hlast : ∀ text ∈ last, text ∈ T) {text : String} (htext : text ∈ T)
    (hknown : Recognition.byDigest digest w.engine.active text = true) :
    (w.engine.host.read text).outcome = .ok w.engine.active := by
  have hsource := (byDigest_iff hdigest htext (h.source_eq ▸ hlast)).mp hknown
  rw [h.source_eq] at hsource
  subst hsource
  exact h

theorem Alike.answers_eq (hdigest : T.InjOn digest) (hw : w.Alike v)
    (h : Follows w.engine.host w.engine.active last) (hlast : ∀ text ∈ last, text ∈ T)
    {operations : List (Operation C)}
    (hbrought : ∀ text ∈ w.texts (.byDigest digest) operations, text ∈ T) :
    w.answers (.byDigest digest) operations = v.answers .never operations := by
  induction operations generalizing w v last with
  | nil => rfl
  | cons operation rest ih =>
    rw [texts, List.forall_mem_append] at hbrought
    obtain ⟨hfirst, hrest⟩ := hbrought
    have hfirst : ∀ text ∈ w.brought operation, text ∈ T :=
      fun text htext => hfirst text (Option.mem_toList.mpr htext)
    obtain ⟨hanswer, hnext⟩ := hw.step fun text htext hknown =>
      read_of_byDigest hdigest h hlast (hfirst text htext) hknown
    have hfollows := follows_step hdigest h hlast hfirst
    rw [← w.host_step (.byDigest digest) operation] at hfollows
    simp only [answers, hanswer, hnext.files, ih hnext hfollows (accepted_mem hlast hfirst) hrest]

end Digest

/-- Whatever is done with a fresh engine while others change the files, it answers as an engine does
that reads every text afresh, and finds the same files. It is assumed that no two texts that are
brought before the engine have the same digest. -/
theorem recognition_unobservable {D : Type} [DecidableEq D] (digest : String → D)
    {s : Setup C A M} {e : Engine C A M} (hbuild : s.build = .ok e) (files : FileTree)
    (operations : List (Operation C))
    (hdigest : Set.InjOn digest {text | text ∈ texts (.byDigest digest) ⟨e, files⟩ operations}) :
    answers (.byDigest digest) ⟨e, files⟩ operations = answers .never ⟨e, files⟩ operations := by
  have hstart : Follows e.host e.active none := by
    rw [fresh_of_build hbuild]
    rfl
  exact Alike.answers_eq hdigest ⟨⟨e.revision, rfl⟩, rfl⟩ hstart (by simp) fun _ htext => htext

theorem step_unchanged : step (.byDigest String.length) ⟨ruledSignboard, ruled⟩ .reload =
    (.loaded (.ok 1), ⟨ruledSignboard, ruled⟩) := by
  have hpath : ruledSignboard.rulesFile = some "r" := rfl
  simp only [step, reloadBy, hpath, fetch_of_readText readText_ruled]
  rfl

theorem brought_unchanged : brought ⟨ruledSignboard, ruled⟩ .reload = some "1 open -> shut" := by
  simp [brought, fileText, ruledSignboard, fetch_of_readText readText_ruled, Except.toOption]

theorem step_never_ruled : step .never ⟨signboard, ruled⟩ (.loadFile "r") =
    (.loaded (.ok 1), ⟨ruledSignboard, ruled⟩) := by
  simp only [step, loadFileBy, reloadBy, fetch_of_readText readText_ruled]
  rfl

theorem step_reread : step .never ⟨ruledSignboard, ruled⟩ .reload =
    (.loaded (.ok 1), ⟨{ ruledSignboard with revision := 2 }, ruled⟩) := by
  have hpath : ruledSignboard.rulesFile = some "r" := rfl
  simp only [step, reloadBy, hpath, fetch_of_readText readText_ruled]
  rfl

/-- The rules file of the signboard is loaded, reloaded and acted upon. It is recognised on reload,
which an engine that reads it twice does not give away. -/
theorem signboard_recognition_unobserved :
    let w : World String String String := ⟨signboard, ruled⟩
    let operations : List (Operation String) := [.loadFile "r", .reload, .act "open"]
    signs.build = .ok signboard ∧
      Set.InjOn String.length {text | text ∈ w.texts (.byDigest String.length) operations} ∧
      (w.after (.byDigest String.length) operations).engine.revision = 1 ∧
      (w.after .never operations).engine.revision = 2 ∧
      w.answers (.byDigest String.length) operations = w.answers .never operations := by
  intro w operations
  have htexts : w.texts (.byDigest String.length) operations =
      ["1 open -> shut", "1 open -> shut"] := by
    simp [operations, w, texts, step_ruled, step_unchanged, brought_ruled, brought_unchanged]
    rfl
  have hdigest : Set.InjOn String.length
      {text | text ∈ w.texts (.byDigest String.length) operations} := by
    simp [htexts]
  have hrecognised : (w.after (.byDigest String.length) operations).engine.revision = 1 := by
    simp only [operations, w, after, List.foldl_cons, List.foldl_nil, step_ruled, step_unchanged]
    rfl
  have hread : (w.after .never operations).engine.revision = 2 := by
    simp only [operations, w, after, List.foldl_cons, List.foldl_nil, step_never_ruled, step_reread]
    rfl
  exact ⟨build_signs, hdigest, hrecognised, hread,
    recognition_unobservable String.length build_signs ruled operations hdigest⟩

end World

end Engine

end PriorityRules
