import PriorityRules.Proofs.Engine.Loading
import PriorityRules.Proofs.Reading.Amending
import PriorityRules.Proofs.Reading.Occurrences

/-! # Double negations in a text

A condition may be written under two negations without any effect: the text loads as before or stops
with the same error, and afterwards the engine does the same in every context. In general, negations
in front of a condition negate its truth value as often as they occur.
-/

namespace PriorityRules

variable {C A M R : Type}

def Ruleset.reduced (r : Ruleset A M) : List (Rule A M) × List (Tag A) :=
  (r.rules.map (Rule.amend .cancel), r.tags.map (Tag.amend .cancel))

namespace Reading

variable {V : Vocabulary A M}

def cancelling (V : Vocabulary A M) : ConditionReader A := amending .cancel (readAfresh V)

theorem cancelling_twice {token : Token} (h : token ≠ []) (line : Nat) :
    cancelling V line ('!' :: '!' :: token) = cancelling V line token := by
  funext n
  rw [cancelling, amending, amending, readAfresh_negation (List.cons_ne_nil _ _),
    readAfresh_negation h]
  cases readAfresh V line token n <;> rfl

theorem interpret_replicate {position : String → Nat} {token : Token} (h : token ≠ []) (k : Nat) :
    V.interpret position (List.replicate k '!' ++ token) =
      (V.interpret position token).map (Predicate.not^[k]) := by
  induction k with
  | zero => exact Except.map_id.symm ▸ rfl
  | succ k ih =>
    rw [List.replicate_succ, List.cons_append,
      Vocabulary.interpret_negation (List.append_ne_nil_of_right_ne_nil _ h), ih,
      Function.iterate_succ']
    cases V.interpret position token <;> rfl

theorem upshot_readCondition {line : Nat} {token : Token} {notes : Notes A}
    (h : notes.Faithful V) :
    upshot (readCondition V line token notes) =
      (V.interpret (notes.ledger.cite line token).position token).map
        fun p => (p, notes.ledger.cite line token) := by
  rw [← upshot_readAfresh]
  have hparallel : Parallel (Alike V) (readCondition V line token notes)
      (readAfresh V line token notes) := readCondition_parallel token ⟨rfl, h⟩
  generalize readCondition V line token notes = x, readAfresh V line token notes = y at hparallel ⊢
  cases hparallel with
  | stopped hfault => exact congrArg Except.error hfault
  | passed halike => exact congrArg Except.ok (Prod.ext halike.1 halike.2.ledger)

theorem cite_replicate {l : Ledger A} {line : Nat} {token : Token} (k : Nat) :
    l.cite line (List.replicate k '!' ++ token) = l.cite line token := by
  induction k with
  | zero => rfl
  | succ k ih => rw [List.replicate_succ, List.cons_append, Ledger.cite_negation, ih]

/-- So many negations in front of a token are read as so many negations of what the token is read
as, or stop the reading with the same fault. -/
theorem readCondition_replicate {line : Nat} {token : Token} {notes : Notes A} (h : token ≠ [])
    (hnotes : notes.Faithful V) (k : Nat) :
    upshot (readCondition V line (List.replicate k '!' ++ token) notes) =
      (upshot (readCondition V line token notes)).map fun (p, l) => (Predicate.not^[k] p, l) := by
  rw [upshot_readCondition hnotes, upshot_readCondition hnotes, cite_replicate,
    interpret_replicate h]
  cases V.interpret (notes.ledger.cite line token).position token <;> rfl

/-- The notes that lines leave are faithful. -/
theorem faithful_of_foldlM {texts : List Text.Line} {d : Draft A M}
    (h : texts.foldlM (Draft.readLine V (readCondition V)) {} = .ok d) : d.notes.Faithful V := by
  have hlines := Draft.readLines_parallel (V := V) texts
  rw [h] at hlines
  generalize texts.foldlM (Draft.readLine V (readAfresh V)) {} = afresh at hlines
  cases hlines with
  | passed hmatches => exact hmatches.notes.faithful

def Occurrence.doubled (o : Occurrence) : String := o.put ('!' :: '!' :: o.word)

theorem Occurrence.foldlM_doubled {o : Occurrence} (h : o.StandsAsCondition) :
    (Vocabulary.tokenLines o.doubled).foldlM (Draft.readTokens V (cancelling V)) {} =
      (Vocabulary.tokenLines o.text).foldlM (Draft.readTokens V (cancelling V)) {} := by
  apply o.foldlM_put h (cancelling_twice o.isWord.ne_nil) o.isWord.negation.negation
  · simp [Token.arrow]
  · rfl

theorem finish_reduced (d : Draft A M) (source : String) :
    (d.finish source).map Ruleset.reduced =
      ((d.amend .cancel).finish "").map fun r => (r.rules, r.tags) := by
  rw [finish_amend, Draft.finish, Draft.finish]
  cases d.block with
  | some block => rfl
  | none => cases d.notes.ledger.tags <;> rfl

end Reading

namespace Vocabulary

open Reading

variable (V : Vocabulary A M)

/-- Up to double negations, a text gives what it gives when they are left out at once. -/
theorem outcome_reduced (text : String) :
    (V.read text).outcome.map Ruleset.reduced =
      match (tokenLines text).foldlM (Draft.readTokens V (cancelling V)) {} with
      | .error halt => .error halt.fault
      | .ok d => (d.finish "").map fun r => (r.rules, r.tags) := by
  -- reading never looks at the predicates put down, so they may as well be replaced at once
  have hfold : (tokenLines text).foldlM (Draft.readTokens V (cancelling V)) {} =
      ((tokenLines text).foldlM (Draft.readTokens V (readAfresh V)) {}).map
        (Draft.amend .cancel) := foldlM_amend blind_readAfresh _ {}
  rw [read_outcome_eq_afresh, readWith, foldlM_readLine, hfold]
  cases (tokenLines text).foldlM (Draft.readTokens V (readAfresh V)) {} with
  | error halt => rfl
  | ok d => exact finish_reduced d text

theorem outcome_doubled {o : Occurrence} (h : o.StandsAsCondition) :
    (V.read o.doubled).outcome.map Ruleset.reduced =
      (V.read o.text).outcome.map Ruleset.reduced := by
  rw [outcome_reduced, outcome_reduced, Occurrence.foldlM_doubled h]

end Vocabulary

namespace Engine

open Evaluation Reading

section Reduced

variable {e e' : Engine C A M} (hhost : e'.host = e.host)
  (h : e'.active.reduced = e.active.reduced)
include hhost h

/-- Engines whose rulesets are the same up to double negations go on alike from decisions that show
the same. -/
theorem evaluate_of_reduced (context : C) {go : Decision A M → C × R}
    (hgo : ∀ d d', d'.shown = d.shown → go d' = go d) :
    e'.evaluate context go = e.evaluate context go := by
  obtain ⟨hrules, htags⟩ := Prod.mk.inj h
  obtain ⟨hshown, hprogress⟩ := Ruleset.evaluate_of_amend neutral_cancel hrules htags e.host.slots
    (e.host.holds · context) (e.host.numbers context)
  rw [Engine.evaluate, Engine.evaluate, hhost]
  generalize e.active.evaluate _ (e.host.holds · context) _ = run at hshown hprogress ⊢
  generalize e'.active.evaluate _ (e.host.holds · context) _ = run' at hshown hprogress ⊢
  obtain ⟨outcome, p⟩ := run
  obtain ⟨outcome', p'⟩ := run'
  cases hprogress
  match outcome, outcome', hshown with
  | .error fault, .error fault', hshown =>
    cases hshown
    rfl
  | .ok d, .ok d', hshown =>
    dsimp only
    rw [hgo d d' (Except.ok.inj hshown)]

theorem evaluations_of_reduced (context : C) :
    e'.act context = e.act context ∧ e'.actWithReport context = e.actWithReport context ∧
      e'.explain context = e.explain context := by
  have happly : ∀ d d' : Decision A M, d'.shown = d.shown →
      d'.board.apply e.host.perform context = d.board.apply e.host.perform context :=
    fun d d' hd => Board.apply_congr (fillings_congr (congrArg Prod.fst hd)) _ _
  rw [act, act, actWithReport, actWithReport, explain, explain, hhost]
  refine ⟨?_, ?_, ?_⟩
  · exact evaluate_of_reduced hhost h context fun d d' hd => Prod.ext (happly d d' hd) rfl
  · exact evaluate_of_reduced hhost h context fun d d' hd =>
      Prod.ext (happly d d' hd) (report_of_shown hd)
  · exact evaluate_of_reduced hhost h context fun d d' hd => Prod.ext rfl (report_of_shown hd)

end Reduced

variable (e : Engine C A M)

/-- Texts that are read the same up to double negations load with the same result, and then the
engine acts, reports and explains alike. -/
theorem load_of_reduced {text text' : String}
    (h : (e.host.read text').outcome.map Ruleset.reduced =
      (e.host.read text).outcome.map Ruleset.reduced) :
    (e.load text').result = (e.load text).result ∧
      ∀ context, (e.load text').engine.act context = (e.load text).engine.act context ∧
        (e.load text').engine.actWithReport context =
          (e.load text).engine.actWithReport context ∧
        (e.load text').engine.explain context = (e.load text).engine.explain context := by
  match hread : (e.host.read text).outcome, hread' : (e.host.read text').outcome with
  | .error error, .error error' =>
    rw [hread, hread'] at h
    cases h
    rw [(e.load_of_error hread).1, (e.load_of_error hread').1, (e.load_of_error hread).2,
      (e.load_of_error hread').2]
    exact ⟨rfl, fun context => ⟨rfl, rfl, rfl⟩⟩
  | .ok r, .ok r' =>
    rw [hread, hread'] at h
    have hreduced : r'.reduced = r.reduced := Except.ok.inj h
    have hsize : r'.size = r.size := by
      simpa [Ruleset.reduced, Ruleset.size] using congrArg (·.1.length) hreduced
    rw [(e.load_of_ok hread).1, (e.load_of_ok hread').1, (e.load_of_ok hread).2,
      (e.load_of_ok hread').2, hsize]
    exact ⟨rfl, evaluations_of_reduced rfl hreduced⟩
  | .error error, .ok r' =>
    rw [hread, hread'] at h
    cases h
  | .ok r, .error error' =>
    rw [hread, hread'] at h
    cases h

/-- A word that stands as a condition may be put under two negations: the text loads with the same
result or stops with the same error, and then the engine acts, reports and explains in every context
as it does with the text as it was. In general, negations in front of a token are read, with such
notes as lines leave, as so many negations of what the token is read as, or stop the reading with
the fault of the token; when they are tested, they negate its truth value as often as they occur, or
stop with its fault. -/
theorem double_negation_cancels :
    (∀ o : Occurrence, o.StandsAsCondition →
      (e.load o.doubled).result = (e.load o.text).result ∧
        ∀ context,
          (e.load o.doubled).engine.act context = (e.load o.text).engine.act context ∧
          (e.load o.doubled).engine.actWithReport context =
            (e.load o.text).engine.actWithReport context ∧
          (e.load o.doubled).engine.explain context =
            (e.load o.text).engine.explain context) ∧
    (∀ (texts : List Text.Line) (d : Draft A M),
      texts.foldlM (Draft.readLine e.host.toVocabulary (readCondition e.host.toVocabulary)) {} =
        .ok d → d.notes.Faithful e.host.toVocabulary) ∧
    (∀ k line token notes, token ≠ [] → notes.Faithful e.host.toVocabulary →
      upshot (readCondition e.host.toVocabulary line (List.replicate k '!' ++ token) notes) =
        (upshot (readCondition e.host.toVocabulary line token notes)).map
          fun (p, l) => (Predicate.not^[k] p, l)) ∧
    ∀ (k : Nat) (S : Situation A) (tag : Nat → Test A) (p : Predicate A) (progress : Progress A),
      test S tag (Predicate.not^[k] p) progress =
        ((test S tag p progress).1.map (Bool.not^[k]), (test S tag p progress).2) := by
  refine ⟨fun o h => ?_, fun texts d => faithful_of_foldlM, ?_, ?_⟩
  · exact e.load_of_reduced (e.host.outcome_doubled h)
  · exact fun k line token notes htoken hnotes => readCondition_replicate htoken hnotes k
  · exact fun k S tag p progress => test_iterate_not S tag k p progress

/-- The first mention of a tag, in a rule above its block. -/
def firstMention : Occurrence where
  above := "# signs\n".toList
  opening := "1 ".toList
  word := "%doors".toList
  rest := " -> shut\ndoors [ open ]\n".toList
  above_ends := .inr (by decide)
  unbroken := by decide
  opening_ends _ h := Option.some.inj h ▸ (by decide : Token.isWordChar ' ' = false)
  isWord := ⟨by decide, List.all_eq_true.mp (by decide)⟩
  rest_starts _ h := Option.some.inj h ▸ (by decide : Token.isWordChar ' ' = false)

/-- The text with the double negation acts as the one without. Behind its first line, three
negations in front of the tag are read as three negations of what the tag is read as. -/
theorem firstMention_doubled :
    firstMention.doubled = "# signs\n1 !!%doors -> shut\ndoors [ open ]\n" ∧
      firstMention.StandsAsCondition ∧
      (signboard.load firstMention.text).result = .ok 1 ∧
      (signboard.load firstMention.doubled).result = .ok 1 ∧
      (signboard.load firstMention.doubled).engine.actWithReport "open" =
        (signboard.load firstMention.text).engine.actWithReport "open" ∧
      ∃ d, ["1 !!%doors -> shut".toList].foldlM (Draft.readLine signboard.host.toVocabulary
          (readCondition signboard.host.toVocabulary)) {} = .ok d ∧
        d.notes.Faithful signboard.host.toVocabulary ∧
        upshot (readCondition signboard.host.toVocabulary 2 "!!!%doors".toList d.notes) =
          (upshot (readCondition signboard.host.toVocabulary 2 "%doors".toList d.notes)).map
            fun (p, l) => (.not (.not (.not p)), l) := by
  obtain ⟨htexts, hfaithful, hnegations, -⟩ := signboard.double_negation_cancels
  have hstands : firstMention.StandsAsCondition :=
    @StandsAsCondition.inRule "%doors".toList "1".toList 1 [] rfl List.not_mem_nil (by decide)
  have htext : (signboard.load firstMention.text).result = .ok 1 := by rfl
  obtain ⟨hresult, hcontexts⟩ := htexts firstMention hstands
  obtain ⟨d, hd⟩ : ∃ d, ["1 !!%doors -> shut".toList].foldlM (Draft.readLine
      signboard.host.toVocabulary (readCondition signboard.host.toVocabulary)) {} = .ok d :=
    ⟨_, rfl⟩
  have hnotes := hfaithful _ d hd
  exact ⟨by decide, hstands, htext, hresult.trans htext, (hcontexts "open").2.1, d, hd, hnotes,
    hnegations 3 2 "%doors".toList d.notes (by decide) hnotes⟩

end Engine

end PriorityRules
