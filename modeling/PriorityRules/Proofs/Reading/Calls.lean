import PriorityRules.Proofs.Reading.Reordering
import PriorityRules.Proofs.Reading.Uses

/-! # Which readers of the host are called

A reader of predicates is called when a condition is read for the first time, however many
negations stand in front of it there and elsewhere. What is known of the conditions read so far is
enough to tell: a known token is known without its negations too, and every condition that has been
read is known without them. The reader of effects is called for every effect.
-/

namespace PriorityRules

variable {A M : Type}

def Call.source? : Call → Option Token
  | marked mark text => some (mark :: text.toList)
  | unmarked token => some token.toList
  | effect _ => none

namespace Vocabulary

variable (V : Vocabulary A M)

def Refuses (token : Token) (fault : PredicateFault) : Prop :=
  ∀ position, V.interpret position token = .error fault

end Vocabulary

namespace Reading

def sources (uses : List Use) : List Token :=
  uses.filterMap fun
    | .condition token => some token.stripped
    | .effect _ => none

def words (uses : List Use) : List Token :=
  uses.filterMap fun
    | .condition _ => none
    | .effect word => some word

end Reading

namespace Vocabulary

open Reading

variable (V : Vocabulary A M)

def Takes : Use → Prop
  | .condition token => V.Accepts token
  | .effect word => V.AcceptsEffect word

/-- The use is at fault, which is found with the given calls. -/
inductive Faulty : Use → LoadFault → List Call → Prop where
  | malformed {token : Token} {fault : PredicateFault} (h : V.Refuses token fault)
      (hreader : ∀ message, fault ≠ .rejected message) :
      Faulty (.condition token) (.predicate fault) []
  | rejected {token : Token} {message : String} {call : Call}
      (h : V.Refuses token (.rejected message)) (hcall : V.hostCall? token.stripped = some call) :
      Faulty (.condition token) (.predicate (.rejected message)) [call]
  | effect {word : Token} {message : String} (h : V.effects (String.ofList word) = .error message) :
      Faulty (.effect word) (.effect message) [.effect (String.ofList word)]

end Vocabulary

/-- The fault is found before any condition on its line is read. -/
def LoadFault.FoundAtHead : LoadFault → Prop
  | .illegalTagName _ | .expectedBracket | .duplicateTag _ => True
  | _ => False

/-- The fault is found when all conditions and effects on its line have been read. -/
def LoadFault.FoundBehind : LoadFault → Prop
  | .noArrow | .noEffects | .misplacedBracket | .emptyTag _ => True
  | _ => False

namespace Reading

/-- The calls that have been made when a fault is found, where `earlier` are the uses on the lines
before and `here` those on the line at fault: the calls for all that has been read, and those of the
use that is at fault, if one is. -/
inductive CallsUntil (V : Vocabulary A M) (earlier here : List Use) :
    LoadFault → List Call → Prop where
  | head {fault : LoadFault} (h : fault.FoundAtHead) :
      CallsUntil V earlier here fault (V.callsOf earlier)
  | amid {before after : List Use} {use : Use} {fault : LoadFault} {own : List Call}
      (hsplit : here = before ++ use :: after) (htaken : ∀ use ∈ before, V.Takes use)
      (h : V.Faulty use fault own) :
      CallsUntil V earlier here fault (V.callsOf (earlier ++ before) ++ own)
  | behind {fault : LoadFault} (h : fault.FoundBehind) (htaken : ∀ use ∈ here, V.Takes use) :
      CallsUntil V earlier here fault (V.callsOf (earlier ++ here))

theorem sources_append {uses more : List Use} :
    sources (uses ++ more) = sources uses ++ sources more := List.filterMap_append

theorem mem_sources_condition {uses : List Use} {token source : Token} :
    source ∈ sources (uses ++ [Use.condition token]) ↔
      source ∈ sources uses ∨ source = token.stripped := by
  simp [sources]

end Reading

namespace Vocabulary

open Reading

variable {V : Vocabulary A M} {uses : List Use} {token inner : Token}

theorem source?_of_hostCall? {call : Call} (h : V.hostCall? token = some call) :
    call.source? = some token := by
  unfold hostCall? at h
  split at h
  · cases h
  · cases h
  · split at h
    · cases h
      simp [Call.source?]
    · obtain ⟨reader, _, rfl⟩ := Option.map_eq_some_iff.mp h
      simp [Call.source?]
  · obtain ⟨reader, _, rfl⟩ := Option.map_eq_some_iff.mp h
    rfl

theorem callsFrom_append {seen : List Token} {more : List Use} :
    V.callsFrom seen (uses ++ more) =
      V.callsFrom seen uses ++ V.callsFrom (seen ++ sources uses) more := by
  induction uses generalizing seen with
  | nil => simp [callsFrom, sources]
  | cons use rest ih =>
    cases use with
    | condition token =>
      rw [List.cons_append, callsFrom, ih, callsFrom, List.append_assoc, List.append_assoc]
      rfl
    | effect word =>
      rw [List.cons_append, callsFrom, ih, callsFrom]
      rfl

theorem callsOf_condition :
    V.callsOf (uses ++ [Use.condition token]) = V.callsOf uses ++
      if token.stripped ∈ sources uses then [] else (V.hostCall? token.stripped).toList := by
  rw [callsOf, callsFrom_append]
  simp [callsOf, callsFrom]

theorem callsOf_effect {word : Token} :
    V.callsOf (uses ++ [Use.effect word]) =
      V.callsOf uses ++ [Call.effect (String.ofList word)] := by
  rw [callsOf, callsFrom_append]
  rfl

/-- The calls of predicate readers are those for the conditions without negations, each at its first
occurrence. -/
theorem filter_callsOf :
    (V.callsOf uses).filter (·.source?.isSome) =
      (sources uses).eraseDups.filterMap V.hostCall? := by
  induction uses using List.reverseRecOn with
  | nil => rfl
  | append_singleton uses use ih =>
    cases use with
    | condition token =>
      have hsources : sources (uses ++ [Use.condition token]) = sources uses ++ [token.stripped] :=
        sources_append
      rw [callsOf_condition, List.filter_append, ih, hsources, eraseDups_snoc]
      split
      · simp
      · rw [List.filterMap_append]
        cases hcall : V.hostCall? token.stripped with
        | none => simp [hcall]
        | some call => simp [hcall, source?_of_hostCall? hcall]
    | effect word =>
      have hsources : sources (uses ++ [Use.effect word]) = sources uses := by simp [sources]
      rw [callsOf_effect, List.filter_append, ih, hsources]
      simp [Call.source?]

theorem filter_not_callsOf :
    (V.callsOf uses).filter (·.source?.isNone) =
      (words uses).map fun word => .effect (String.ofList word) := by
  induction uses using List.reverseRecOn with
  | nil => rfl
  | append_singleton uses use ih =>
    cases use with
    | condition token =>
      rw [callsOf_condition, List.filter_append, ih]
      have hnone : ((V.hostCall? token.stripped).toList).filter (·.source?.isNone) = [] := by
        cases hcall : V.hostCall? token.stripped with
        | none => rfl
        | some call => simp [source?_of_hostCall? hcall]
      split <;> simp [words, hnone]
    | effect word =>
      rw [callsOf_effect, List.filter_append, ih]
      simp [words, Call.source?]

theorem mem_sources_of_callsOf {source : Token}
    (h : source ∈ (V.callsOf uses).filterMap Call.source?) : source ∈ sources uses := by
  obtain ⟨call, hcall, hsource⟩ := List.mem_filterMap.mp h
  have hfilter : call ∈ (V.callsOf uses).filter (·.source?.isSome) :=
    List.mem_filter.mpr ⟨hcall, by simp [hsource]⟩
  rw [filter_callsOf] at hfilter
  obtain ⟨token, htoken, hhost⟩ := List.mem_filterMap.mp hfilter
  rw [source?_of_hostCall? hhost] at hsource
  exact Option.some.inj hsource ▸ List.mem_eraseDups.mp htoken

theorem nodup_sources_callsOf : ((V.callsOf uses).filterMap Call.source?).Nodup := by
  have hsome : (V.callsOf uses).filterMap Call.source? =
      ((V.callsOf uses).filter (·.source?.isSome)).filterMap Call.source? := by
    rw [List.filterMap_filter]
    apply List.filterMap_congr
    intro call _
    cases call.source? <;> simp
  rw [hsome, filter_callsOf, List.filterMap_filterMap]
  apply (nodup_eraseDups _).filterMap
  have hsource : ∀ token source, source ∈ (V.hostCall? token).bind Call.source? →
      source = token := by
    intro token source h
    obtain ⟨call, hcall, hsource⟩ := Option.bind_eq_some_iff.mp h
    rw [source?_of_hostCall? hcall] at hsource
    exact (Option.some.inj hsource).symm
  intro token other source h hother
  exact (hsource _ _ h).symm.trans (hsource _ _ hother)

theorem refuses_of_interpret {position : String → Nat} {fault : PredicateFault}
    (h : V.interpret position token = .error fault) : V.Refuses token fault := by
  intro position'
  induction token using Token.negations with
  | sign => exact h
  | negation inner hinner ih =>
    rw [interpret_negation hinner] at h ⊢
    cases hread : V.interpret position inner with
    | error other =>
      rw [hread] at h
      cases h
      rw [ih hread]
      rfl
    | ok p =>
      rw [hread] at h
      cases h
  | plain token hplain =>
    rw [interpret_plain hplain] at h ⊢
    unfold interpretPlain at h ⊢
    split at h
    · exact h
    · cases h
    · exact h
    · exact h

theorem Refuses.negation {fault : PredicateFault} (h : V.Refuses inner fault)
    (hinner : inner ≠ []) : V.Refuses ('!' :: inner) fault := by
  intro position
  rw [interpret_negation hinner, h position]
  rfl

theorem Accepts.negation (h : V.Accepts inner) (hinner : inner ≠ []) :
    V.Accepts ('!' :: inner) := by
  intro position
  obtain ⟨p, hp⟩ := h position
  exact ⟨.not p, by rw [interpret_negation hinner, hp]; rfl⟩

theorem Accepts.stripped (h : V.Accepts token) : V.Accepts token.stripped := by
  induction token using Token.negations with
  | sign =>
    obtain ⟨p, hp⟩ := h fun _ => 0
    cases hp
  | negation inner hinner ih =>
    rw [Token.stripped_negation]
    apply ih
    intro position
    obtain ⟨p, hp⟩ := h position
    rw [interpret_negation hinner] at hp
    obtain ⟨q, hq, _⟩ := map_eq_ok.mp hp
    exact ⟨q, hq⟩
  | plain token hplain => rwa [Token.stripped_of_plain hplain]

/-- The host rejects a negation as it rejects what is negated. -/
theorem Refuses.stripped {message : String} (h : V.Refuses token (.rejected message)) :
    V.Refuses token.stripped (.rejected message) := by
  induction token using Token.negations with
  | sign => cases h fun _ => 0
  | negation inner hinner ih =>
    rw [Token.stripped_negation]
    apply ih
    intro position
    have hread := h position
    rw [interpret_negation hinner] at hread
    cases hinterpret : V.interpret position inner with
    | error fault =>
      rw [hinterpret] at hread
      cases hread
      rfl
    | ok p =>
      rw [hinterpret] at hread
      cases hread
  | plain token hplain => rwa [Token.stripped_of_plain hplain]

theorem Faulty.negation {fault : PredicateFault} {own : List Call}
    (h : V.Faulty (.condition inner) (.predicate fault) own) (hinner : inner ≠ []) :
    V.Faulty (.condition ('!' :: inner)) (.predicate fault) own := by
  cases h with
  | malformed h hreader => exact .malformed (h.negation hinner) hreader
  | rejected h hcall => exact .rejected (h.negation hinner) hcall

end Vocabulary

theorem Comparison.ne_rejected_of_ofBody {declared : Variables} {body : List Char}
    {fault : PredicateFault} {message : String} (h : ofBody declared body = .error fault) :
    fault ≠ .rejected message := by
  unfold ofBody at h
  split at h
  · cases h
    nofun
  · split at h
    · cases h
      nofun
    · split at h
      · cases h
        nofun
      · cases h

namespace Reading

/-- If the computation fails then the error satisfies `Q`, and otherwise the result satisfies
`R`. -/
def Comes {E σ : Type} (Q : E → Prop) (R : σ → Prop) : Except E σ → Prop
  | .error e => Q e
  | .ok s => R s

namespace Comes

variable {E F σ τ : Type} {Q : E → Prop} {R : σ → Prop} {T : τ → Prop} {x : Except E σ}

theorem bind {Q' : E → Prop} (h : Comes Q R x) (hQ : ∀ e, Q e → Q' e) {f : σ → Except E τ}
    (hf : ∀ s, R s → Comes Q' T (f s)) : Comes Q' T (x >>= f) := by
  cases x with
  | error e => exact hQ e h
  | ok s => exact hf s h

theorem map {Q' : E → Prop} (h : Comes Q R x) (hQ : ∀ e, Q e → Q' e) {f : σ → τ}
    (hf : ∀ s, R s → T (f s)) : Comes Q' T (x.map f) := by
  cases x with
  | error e => exact hQ e h
  | ok s => exact hf s h

theorem imp {Q' : E → Prop} {R' : σ → Prop} (h : Comes Q R x) (hQ : ∀ e, Q e → Q' e)
    (hR : ∀ s, R s → R' s) : Comes Q' R' x := by
  cases x with
  | error e => exact hQ e h
  | ok s => exact hR s h

theorem and {Q' : E → Prop} {R' : σ → Prop} (h : Comes Q R x) (h' : Comes Q' R' x) :
    Comes (fun e => Q e ∧ Q' e) (fun s => R s ∧ R' s) x := by
  cases x with
  | error e => exact ⟨h, h'⟩
  | ok s => exact ⟨h, h'⟩

theorem mapError {Q' : F → Prop} (h : Comes Q R x) {f : E → F} (hf : ∀ e, Q e → Q' (f e)) :
    Comes Q' R (x.mapError f) := by
  cases x with
  | error e => exact hf e h
  | ok s => exact h

end Comes

variable {V : Vocabulary A M} {n : Notes A} {uses : List Use} {line : Nat} {token inner : Token}

/-- The notes have been taken from the uses, with just the calls for them. -/
structure Notes.Asks (V : Vocabulary A M) (uses : List Use) (n : Notes A) : Prop where
  calls : n.calls = V.callsOf uses
  taken : ∀ use ∈ uses, V.Takes use
  source : ∀ token, (n.known.lookup token).isSome →
    token.stripped ∈ sources uses ∧ V.Accepts token
  known : ∀ token ∈ sources uses, (n.known.lookup token).isSome

def FaultyAfter (V : Vocabulary A M) (uses : List Use) (use : Use) (halt : Halt LoadFault) : Prop :=
  ∃ own, V.Faulty use halt.fault own ∧ halt.calls = V.callsOf uses ++ own

theorem lookup_remember {other : Token} (p : Predicate A) :
    (n.remember token p).known.lookup other =
      if other = token then some p else n.known.lookup other := by
  rw [Notes.remember, List.lookup_cons]
  by_cases heq : other = token
  · rw [if_pos heq, heq, beq_self_eq_true]
  · rw [if_neg heq, beq_false_of_ne heq]

namespace Notes.Asks

theorem taken_condition (h : n.Asks V uses) (haccepts : V.Accepts token) :
    ∀ use ∈ uses ++ [Use.condition token], V.Takes use := by
  intro use huse
  rcases List.mem_append.mp huse with huse | huse
  · exact h.taken use huse
  · exact List.mem_singleton.mp huse ▸ haccepts

theorem again (h : n.Asks V uses) (hsource : token.stripped ∈ sources uses)
    (haccepts : V.Accepts token) : n.Asks V (uses ++ [Use.condition token]) := by
  refine ⟨?_, h.taken_condition haccepts, ?_, ?_⟩
  · rw [Vocabulary.callsOf_condition, if_pos hsource, List.append_nil, h.calls]
  · intro other hother
    obtain ⟨hmem, hother⟩ := h.source other hother
    exact ⟨mem_sources_condition.mpr (.inl hmem), hother⟩
  · intro other hother
    rcases mem_sources_condition.mp hother with hother | rfl
    · exact h.known other hother
    · exact h.known _ hsource

theorem remember (h : n.Asks V uses) (hsource : token.stripped ∈ sources uses)
    (haccepts : V.Accepts token) (p : Predicate A) : (n.remember token p).Asks V uses := by
  refine ⟨h.calls, h.taken, fun other hother => ?_, fun other hother => ?_⟩
  · rw [lookup_remember] at hother
    split at hother
    · rename_i heq
      exact heq ▸ ⟨hsource, haccepts⟩
    · exact h.source other hother
  · rw [lookup_remember]
    split
    · rfl
    · exact h.known other hother

/-- A plain token that has been read for the first time. -/
theorem first (h : n.Asks V uses) (hplain : ∀ inner, token ≠ '!' :: inner)
    (hunknown : n.known.lookup token = none) (haccepts : V.Accepts token) {after : Notes A}
    (hknown : after.known = n.known)
    (hcalls : after.calls = n.calls ++ (V.hostCall? token).toList) (p : Predicate A) :
    (after.remember token p).Asks V (uses ++ [Use.condition token]) := by
  have hstripped := Token.stripped_of_plain hplain
  refine ⟨?_, h.taken_condition haccepts, fun other hother => ?_, fun other hother => ?_⟩
  · have hnew : token ∉ sources uses := fun hmem => by simpa [hunknown] using h.known token hmem
    rw [Vocabulary.callsOf_condition, hstripped, if_neg hnew, ← h.calls]
    exact hcalls
  · rw [lookup_remember, hknown] at hother
    rw [mem_sources_condition]
    split at hother
    · rename_i heq
      subst heq
      exact ⟨.inr rfl, haccepts⟩
    · exact (h.source other hother).imp_left .inl
  · rw [lookup_remember, hknown]
    split
    · rfl
    · rename_i hne
      rcases mem_sources_condition.mp hother with hother | heq
      · exact h.known other hother
      · exact absurd (heq.trans hstripped) hne

theorem ledger (h : n.Asks V uses) (l : Ledger A) :
    Notes.Asks V uses { n with ledger := l } :=
  ⟨h.calls, h.taken, h.source, h.known⟩

theorem negation (h : n.Asks V (uses ++ [Use.condition inner])) (haccepts : V.Accepts inner)
    (hinner : inner ≠ []) : n.Asks V (uses ++ [Use.condition ('!' :: inner)]) := by
  have hsources : sources (uses ++ [Use.condition ('!' :: inner)]) =
      sources (uses ++ [Use.condition inner]) := by
    rw [sources_append, sources_append]
    rfl
  constructor
  · rw [h.calls, Vocabulary.callsOf_condition, Vocabulary.callsOf_condition,
      Token.stripped_negation]
  · intro use huse
    rcases List.mem_append.mp huse with huse | huse
    · exact h.taken use (List.mem_append_left _ huse)
    · exact List.mem_singleton.mp huse ▸ haccepts.negation hinner
  · exact hsources ▸ h.source
  · exact hsources ▸ h.known

end Notes.Asks

/-- The host is asked for what the first character of a token says, or else for the token. -/
theorem map_fst_consult? (htag : ∀ name, token ≠ '%' :: name)
    (hparen : ∀ body, token ≠ '(' :: body) :
    (consult? V token).map (·.1) = V.hostCall? token := by
  cases token with
  | nil => cases hfallback : V.fallback <;> simp [consult?, Vocabulary.hostCall?, hfallback]
  | cons mark rest =>
    rw [Vocabulary.hostCall?]
    · cases hmark : V.marks.lookup mark with
      | some reader => simp [consult?, hmark]
      | none => cases hfallback : V.fallback <;> simp [consult?, hmark, hfallback]
    · exact fun heq => htag rest (heq ▸ rfl)
    · exact fun heq => hparen rest (heq ▸ rfl)

/-- A token is read when the vocabulary accepts it, and otherwise it is at fault as the vocabulary
says. -/
theorem readPlain_judges (hplain : ∀ inner, token ≠ '!' :: inner) :
    Comes (fun halt => V.Refuses token halt.fault) (fun _ => V.Accepts token)
      (readPlain V line token n) := by
  have hupshot : upshot (readPlain V line token n) = _ := upshot_readPlain hplain
  rw [← Vocabulary.interpret_plain hplain] at hupshot
  cases hinterpret : V.interpret (n.ledger.cite line token).position token with
  | error fault =>
    rw [hinterpret] at hupshot
    cases hread : readPlain V line token n with
    | error halt =>
      rw [hread] at hupshot
      cases hupshot
      exact Vocabulary.refuses_of_interpret hinterpret
    | ok s =>
      rw [hread] at hupshot
      cases hupshot
  | ok p =>
    rw [hinterpret] at hupshot
    obtain ⟨after, hread, -⟩ := upshot_eq_ok.mp hupshot
    rw [hread]
    exact Vocabulary.accepts_of_interpret hinterpret

/-- The host is called for a token that needs it, and what is known stays the same. -/
theorem readPlain_calls :
    Comes
      (fun halt =>
        ((∀ message, halt.fault ≠ .rejected message) ∧ halt.calls = n.calls) ∨
          ∃ message call, halt.fault = .rejected message ∧ V.hostCall? token = some call ∧
            halt.calls = n.calls ++ [call])
      (fun s => s.2.known = n.known ∧ s.2.calls = n.calls ++ (V.hostCall? token).toList)
      (readPlain V line token n) := by
  unfold readPlain
  split
  · exact .inl ⟨nofun, rfl⟩
  · exact ⟨rfl, (List.append_nil _).symm⟩
  · rename_i body
    cases hcomparison : Comparison.ofBody V.declared (dropClosing body) with
    | ok c => exact ⟨rfl, (List.append_nil _).symm⟩
    | error fault => exact .inl ⟨fun message => Comparison.ne_rejected_of_ofBody hcomparison, rfl⟩
  · rename_i _ htag hparen
    have hconsult : (consult? V token).map (·.1) = _ := map_fst_consult? htag hparen
    rw [← hconsult]
    cases consult? V token with
    | none => exact .inl ⟨nofun, rfl⟩
    | some consulted =>
      obtain ⟨call, answer⟩ := consulted
      cases answer with
      | error message => exact .inr ⟨message, call, rfl, rfl, rfl⟩
      | ok a => exact ⟨rfl, rfl⟩

/-- A token that is known already counts once more; one that is not is read. -/
theorem reuse_asks {Q : Halt PredicateFault → Prop} (h : n.Asks V uses)
    {read : Notes A → Except (Halt PredicateFault) (Predicate A × Notes A)}
    (hread : n.known.lookup token = none →
      Comes Q (fun s => V.Accepts token ∧
        (s.2.remember token s.1).Asks V (uses ++ [Use.condition token])) (read n)) :
    Comes Q (fun s => V.Accepts token ∧ s.2.Asks V (uses ++ [Use.condition token]))
      (n.reuse token read) := by
  unfold Notes.reuse
  split
  · rename_i p hknown
    obtain ⟨hsource, haccepts⟩ := h.source token (by simp [hknown])
    exact ⟨haccepts, h.again hsource haccepts⟩
  · rename_i hunknown
    exact (hread hunknown).map (fun _ => id) fun _ => id

theorem readCondition_asks (line : Nat) (token : Token) (h : n.Asks V uses) :
    Comes (fun halt => FaultyAfter V uses (.condition token) (halt.map .predicate))
      (fun s => V.Accepts token ∧ s.2.Asks V (uses ++ [Use.condition token]))
      (readCondition V line token n) := by
  induction token using Token.negations with
  | sign => exact ⟨[], .malformed (fun _ => rfl) nofun, h.calls.trans (List.append_nil _).symm⟩
  | negation inner hinner ih =>
    rw [readCondition]
    · refine reuse_asks h fun _ => ih.map ?_ ?_
      · rintro halt ⟨own, hfaulty, hcalls⟩
        exact ⟨own, hfaulty.negation hinner, hcalls⟩
      · rintro s ⟨haccepts, hs⟩
        have hs' := hs.negation haccepts hinner
        refine ⟨haccepts.negation hinner, hs'.remember ?_ (haccepts.negation hinner) _⟩
        exact mem_sources_condition.mpr (.inr rfl)
    · exact hinner
  | plain token hplain =>
    rw [readCondition]
    · refine reuse_asks h fun hunknown => ?_
      refine ((readPlain_judges hplain).and readPlain_calls).imp ?_ ?_
      · rintro halt ⟨hrefuses, ⟨hreader, hcalls⟩ | ⟨message, call, hfault, hcall, hcalls⟩⟩
        · refine ⟨[], .malformed hrefuses hreader, ?_⟩
          exact (hcalls.trans h.calls).trans (List.append_nil _).symm
        · rw [← Token.stripped_of_plain hplain] at hcall
          refine ⟨[call], ?_, h.calls ▸ hcalls⟩
          rw [hfault] at hrefuses
          rw [Halt.map, hfault]
          exact .rejected hrefuses hcall
      · rintro s ⟨haccepts, hknown, hcalls⟩
        exact ⟨haccepts, h.first hplain hunknown haccepts hknown hcalls s.1⟩
    · exact hplain []
    · exact hplain

theorem CallsUntil.after {done here : List Use} {fault : LoadFault} {calls : List Call}
    (h : CallsUntil V (uses ++ done) here fault calls) (hhead : ¬fault.FoundAtHead)
    (hdone : ∀ use ∈ done, V.Takes use) : CallsUntil V uses (done ++ here) fault calls := by
  cases h with
  | head h => exact absurd h hhead
  | @amid before after use _ own hsplit htaken h =>
    rw [List.append_assoc]
    have hsplit : done ++ here = (done ++ before) ++ use :: after := by
      rw [hsplit, List.append_assoc]
    exact .amid hsplit (List.forall_mem_append.mpr ⟨hdone, htaken⟩) h
  | behind h htaken =>
    rw [List.append_assoc]
    exact .behind h (List.forall_mem_append.mpr ⟨hdone, htaken⟩)

def Amid (V : Vocabulary A M) (uses here : List Use) (halt : Halt LoadFault) : Prop :=
  ¬halt.fault.FoundAtHead ∧ CallsUntil V uses here halt.fault halt.calls

theorem Amid.after {done here : List Use} {halt : Halt LoadFault}
    (h : Amid V (uses ++ done) here halt) (hdone : ∀ use ∈ done, V.Takes use) :
    Amid V uses (done ++ here) halt :=
  ⟨h.1, h.2.after h.1 hdone⟩

theorem FaultyAfter.amid {use : Use} {halt : Halt LoadFault} (h : FaultyAfter V uses use halt)
    (more : List Use) : Amid V uses (use :: more) halt := by
  obtain ⟨fault, calls⟩ := halt
  obtain ⟨own, hfaulty, rfl⟩ : ∃ own, V.Faulty use fault own ∧ calls = V.callsOf uses ++ own := h
  constructor
  · cases hfaulty <;> exact id
  · have hamid : CallsUntil V uses (use :: more) fault (V.callsOf (uses ++ []) ++ own) :=
      .amid rfl (List.forall_mem_nil _) hfaulty
    rwa [List.append_nil] at hamid

theorem Notes.Asks.takes {more : List Use} (h : n.Asks V (uses ++ more)) :
    ∀ use ∈ more, V.Takes use :=
  fun use huse => h.taken use (List.mem_append_right _ huse)

theorem Notes.Asks.amid {here : List Use} {fault : LoadFault} (h : n.Asks V (uses ++ here))
    (hfault : fault.FoundBehind) : Amid V uses here ⟨fault, n.calls⟩ := by
  constructor
  · cases fault <;> first | exact id | exact absurd hfault id
  · rw [h.calls]
    exact .behind hfault h.takes

theorem readEach_asks {E τ α : Type} {read : τ → Notes A → Except (Halt E) (α × Notes A)}
    {use : τ → Use} {f : E → LoadFault}
    (hread : ∀ piece {uses : List Use} {n : Notes A}, n.Asks V uses →
      Comes (fun halt => FaultyAfter V uses (use piece) (halt.map f))
        (fun s => s.2.Asks V (uses ++ [use piece])) (read piece n))
    (pieces : List τ) (more : List Use) (h : n.Asks V uses) :
    Comes (fun halt => Amid V uses (pieces.map use ++ more) (halt.map f))
      (fun s => s.2.Asks V (uses ++ pieces.map use)) (readEach read pieces n) := by
  induction pieces generalizing n uses with
  | nil => simpa [readEach, Comes] using h
  | cons piece pieces ih =>
    rw [readEach]
    refine (hread piece h).bind (fun halt hhalt => hhalt.amid _) fun s hs => ?_
    have htakes := hs.takes
    refine (ih hs).bind (fun halt hhalt => hhalt.after htakes) fun s hs => ?_
    rw [List.append_assoc] at hs
    exact hs

theorem readEffect_asks (word : Token) (h : n.Asks V uses) :
    Comes (fun halt => FaultyAfter V uses (.effect word) (halt.map id))
      (fun s => s.2.Asks V (uses ++ [Use.effect word]))
      (n.ask (.effect (String.ofList word)) (V.effects (String.ofList word)) LoadFault.effect) := by
  have hcalls : n.calls ++ [Call.effect (String.ofList word)] =
      V.callsOf (uses ++ [Use.effect word]) := by
    rw [Vocabulary.callsOf_effect, h.calls]
  cases hanswer : V.effects (String.ofList word) with
  | error message =>
    exact ⟨_, .effect hanswer, hcalls.trans Vocabulary.callsOf_effect⟩
  | ok effects =>
    have hsources : sources (uses ++ [Use.effect word]) = sources uses := by simp [sources]
    refine ⟨hcalls, ?_, hsources ▸ h.source, hsources ▸ h.known⟩
    intro use huse
    rcases List.mem_append.mp huse with huse | huse
    · exact h.taken use huse
    · exact List.mem_singleton.mp huse ▸ ⟨effects, hanswer⟩

theorem readRule_asks {level : Int} (body : List Token) (h : n.Asks V uses) :
    Comes (Amid V uses (usesOfRule body)) (fun s => s.2.Asks V (uses ++ usesOfRule body))
      (readRule V (readCondition V) level line body n) := by
  have hconditions := readEach_asks
    (fun token _ _ h =>
      (readCondition_asks (V := V) line token h).imp (fun _ => id) fun _ hs => hs.2)
    (body.takeWhile (· ≠ Token.arrow))
    ((body.dropWhile (· ≠ Token.arrow)).tail.map .effect) h
  rw [readRule, usesOfRule]
  refine (hconditions.mapError fun halt hhalt => hhalt).bind (fun halt hhalt => hhalt) ?_
  rintro ⟨conditions, n⟩ hn
  dsimp only at hn ⊢
  cases body.dropWhile (· ≠ Token.arrow) with
  | nil =>
    rw [List.tail_nil, List.map_nil, List.append_nil]
    exact hn.amid trivial
  | cons arrow words =>
    rw [List.tail_cons]
    have hwords := readEach_asks (fun word _ _ h => readEffect_asks (V := V) word h) words [] hn
    refine hwords.bind (fun halt hhalt => ?_) ?_
    · rw [List.append_nil] at hhalt
      exact hhalt.after hn.takes
    · rintro ⟨effects, n⟩ hn
      rw [List.append_assoc] at hn
      dsimp only at hn ⊢
      split
      · exact hn.amid trivial
      · exact hn

theorem readBlock_asks {tokens : List Token} {block : Block A} (h : n.Asks V uses) :
    Comes (Amid V uses (usesWithin tokens)) (fun s => s.2.Asks V (uses ++ usesWithin tokens))
      (readBlock (readCondition V) line tokens block n) := by
  induction tokens generalizing block n uses with
  | nil =>
    rw [show usesWithin [] = [] from rfl, List.append_nil]
    exact h
  | cons token rest ih =>
    unfold readBlock
    split
    · rename_i hcomma
      subst hcomma
      rw [usesWithin_comma]
      exact ih h
    · rename_i hcomma
      split
      · rename_i hbracket
        subst hbracket
        have hend : n.Asks V (uses ++ usesWithin ([']'] :: rest)) := by
          rwa [usesWithin_bracket, List.append_nil]
        split
        · exact hend.amid trivial
        · exact hend.amid trivial
        · exact hend.ledger _
      · rename_i hbracket
        rw [usesWithin_condition hcomma hbracket]
        have hcondition := readCondition_asks line token h
        refine (hcondition.mapError fun halt hhalt => hhalt).bind ?_ ?_
        · exact fun halt hhalt => FaultyAfter.amid hhalt _
        · rintro ⟨p, n⟩ ⟨haccepts, hn⟩
          refine (ih hn).imp ?_ ?_
          · exact fun halt hhalt => hhalt.after hn.takes
          · intro s hs
            rwa [List.append_assoc] at hs

theorem Notes.Asks.head {here : List Use} {fault : LoadFault} (h : n.Asks V uses)
    (hfault : fault.FoundAtHead) : CallsUntil V uses here fault n.calls :=
  h.calls ▸ .head hfault

theorem openBlock_asks {tokens : List Token} {name : Token} {body : List Token}
    (hline : Line.ofTokens tokens = .block name body) (h : n.Asks V uses) :
    Comes (fun halt => CallsUntil V uses (usesOn false tokens) halt.fault halt.calls)
      (fun s => s.2.Asks V (uses ++ usesOn false tokens))
      (openBlock (readCondition V) line name body n) := by
  unfold openBlock
  split
  · rename_i rest
    rw [(usesOn_block hline).1]
    dsimp only
    split
    · exact h.head trivial
    · exact (readBlock_asks (h.ledger _)).imp (fun _ hhalt => hhalt.2) fun _ => id
  · exact h.head trivial

theorem readTokens_asks {d : Draft A M} (h : d.notes.Asks V uses) (tokens : List Token) :
    Comes
      (fun halt => CallsUntil V uses (usesOn d.block.isSome tokens) halt.fault.fault halt.calls)
      (fun d' => d'.notes.Asks V (uses ++ usesOn d.block.isSome tokens))
      (d.readTokens V (readCondition V) tokens) := by
  rw [Draft.readTokens]
  refine Comes.mapError ?_ fun halt hhalt => hhalt
  cases hblock : d.block with
  | some block => exact (readBlock_asks h).bind (fun _ hhalt => hhalt.2) fun s hs => hs
  | none =>
    dsimp only
    rw [Option.isSome_none, Draft.readOutside]
    split
    · rename_i hline
      rw [usesOn_skipped hline, List.append_nil]
      exact h
    · rename_i level body hline
      rw [usesOn_rule hline]
      exact (readRule_asks body h).bind (fun _ hhalt => hhalt.2) fun s hs => hs
    · rename_i name body hline
      exact (openBlock_asks hline h).bind (fun _ => id) fun s hs => hs
    · exact h.head trivial

theorem asks_of_foldlM {lines : List (List Token)} {d d' : Draft A M} (h : d.notes.Asks V uses)
    (hread : lines.foldlM (Draft.readTokens V (readCondition V)) d = .ok d') :
    d'.notes.Asks V (uses ++ usesFrom d.block.isSome lines) := by
  induction lines generalizing d uses with
  | nil =>
    cases hread
    rwa [usesFrom, List.append_nil]
  | cons tokens lines ih =>
    rw [List.foldlM_cons] at hread
    obtain ⟨next, hnext, hrest⟩ := bind_eq_ok.mp hread
    have hasks := readTokens_asks h tokens
    have hopens : Ends _ (fun d' => d'.block.isSome = opensAfter d.block.isSome tokens)
      (d.readTokens V (readCondition V) tokens) := readTokens_opens
    rw [hnext] at hasks hopens
    rw [usesFrom, ← List.append_assoc, ← show next.block.isSome = _ from hopens]
    exact ih hasks hrest

theorem asks_start : Notes.Asks V [] ({} : Notes A) :=
  ⟨rfl, List.forall_mem_nil _, nofun, nofun⟩

end Reading

namespace Vocabulary

open Reading

variable {V : Vocabulary A M} {text : String}

/-- A condition that the host rejects has not been read before. -/
theorem Refuses.not_mem_sources {token : Token} {message : String}
    (h : V.Refuses token (.rejected message)) {uses : List Use}
    (htaken : ∀ use ∈ uses, V.Takes use) : token.stripped ∉ sources uses := by
  intro hmem
  obtain ⟨use, huse, hsource⟩ := List.mem_filterMap.mp hmem
  cases use with
  | condition other =>
    have haccepts : V.Accepts other := htaken _ huse
    obtain ⟨p, hp⟩ := haccepts.stripped fun _ => 0
    rw [Option.some.inj hsource, h.stripped fun _ => 0] at hp
    cases hp
  | effect word => cases hsource

theorem nodup_of_callsUntil {earlier here : List Use} {fault : LoadFault} {calls : List Call}
    (h : CallsUntil V earlier here fault calls) (htaken : ∀ use ∈ earlier, V.Takes use) :
    (calls.filterMap Call.source?).Nodup := by
  cases h with
  | head h => exact nodup_sources_callsOf
  | @amid before after use _ own hsplit hbefore h =>
    rw [List.filterMap_append]
    cases h with
    | malformed h hreader => simpa using nodup_sources_callsOf
    | @rejected token message call h hcall =>
      have hsource : [call].filterMap Call.source? = [token.stripped] := by
        simp [source?_of_hostCall? hcall]
      rw [hsource]
      apply nodup_sources_callsOf.append (List.nodup_singleton _)
      rw [List.disjoint_singleton]
      exact fun hmem => h.not_mem_sources (List.forall_mem_append.mpr ⟨htaken, hbefore⟩)
        (mem_sources_of_callsOf hmem)
    | effect h => exact (List.append_nil _).symm ▸ nodup_sources_callsOf
  | behind h hhere => exact nodup_sources_callsOf

theorem calls_read :
    (V.read text).calls =
      match (tokenLines text).foldlM (Draft.readTokens V (readCondition V)) {} with
      | .error halt => halt.calls
      | .ok d => d.notes.calls := by
  have hlines : (tokenLines text).foldlM (Draft.readTokens V (readCondition V)) {} =
      (Text.lines text.toList).foldlM (Draft.readLine V (readCondition V)) {} := List.foldlM_map
  rw [read, readWith, hlines]
  cases (Text.lines text.toList).foldlM (Draft.readLine V (readCondition V)) {} <;> rfl

/-- A line that stops the reading comes after lines that pass, and the calls are those up to the
fault. -/
theorem callsUntil_of_stop {halt : Halt LoadError}
    (hread : (tokenLines text).foldlM (Draft.readTokens V (readCondition V)) {} = .error halt) :
    ∃ before tokens after, tokenLines text = before ++ tokens :: after ∧
      halt.fault.line = before.length + 1 ∧ (∀ use ∈ usesFrom false before, V.Takes use) ∧
      CallsUntil V (usesFrom false before) (usesOn (insideAfter false before) tokens)
        halt.fault.fault halt.calls := by
  obtain ⟨k, hk, hline, -, hstop, d, hd⟩ := Draft.stop_of_foldlM Draft.dated_start hread
  rw [List.take_succ_eq_append_getElem hk, List.foldlM_append, hd] at hstop
  have hasks := asks_of_foldlM (V := V) asks_start hd
  rw [List.nil_append] at hasks
  have hcalls := readTokens_asks (V := V) hasks (tokenLines text)[k]
  rw [opens_of_foldlM hd] at hcalls
  have htokens : (d.readTokens V (readCondition V) (tokenLines text)[k] >>= pure) = .error halt :=
    hstop
  rw [bind_pure] at htokens
  rw [htokens] at hcalls
  have hlength : ((tokenLines text).take k).length = k := List.length_take_of_le hk.le
  refine ⟨(tokenLines text).take k, (tokenLines text)[k], (tokenLines text).drop (k + 1), ?_, ?_,
    hasks.taken, hcalls⟩
  · rw [← List.drop_eq_getElem_cons hk, List.take_append_drop]
  · rw [hlength, hline]
    exact congrArg (· + 1) (Nat.zero_add k)

/-- Whatever the vocabulary and the text, no two calls of predicate readers are made for the same
token. When the text is read to its end, the calls are those for all conditions and effects: one
for each condition without its negations that is the host's, at its first occurrence, and one for
each effect. When the reading stops before, they are those for what was read up to the fault, and
that for what the host rejected. -/
theorem readers_called_once (V : Vocabulary A M) (text : String) :
    let uses := usesFrom false (tokenLines text)
    let reading := V.read text
    (reading.calls.filterMap Call.source?).Nodup ∧
      (∀ r, reading.outcome = .ok r → reading.calls = V.callsOf uses ∧
        reading.calls.filter (·.source?.isSome) =
          (sources uses).eraseDups.filterMap V.hostCall? ∧
        reading.calls.filter (·.source?.isNone) =
          (words uses).map fun word => .effect (String.ofList word)) ∧
      ∀ error, reading.outcome = .error error →
        (error.fault.FoundAtEnd → reading.calls = V.callsOf uses) ∧
          (¬error.fault.FoundAtEnd → ∃ before tokens after,
            tokenLines text = before ++ tokens :: after ∧ error.line = before.length + 1 ∧
              (∀ use ∈ usesFrom false before, V.Takes use) ∧
              CallsUntil V (usesFrom false before) (usesOn (insideAfter false before) tokens)
                error.fault reading.calls) := by
  intro uses reading
  have hcalls : reading.calls = _ := calls_read
  have houtcome : reading.outcome = _ := outcome_read V
  cases hread : (tokenLines text).foldlM (Draft.readTokens V (readCondition V)) {} with
  | ok d =>
    rw [hread] at hcalls houtcome
    have hall : reading.calls = V.callsOf uses := by
      rw [hcalls]
      exact (asks_of_foldlM asks_start hread).calls
    refine ⟨hall ▸ nodup_sources_callsOf, fun r _ => ⟨hall, ?_, ?_⟩, fun error herror => ?_⟩
    · rw [hall, filter_callsOf]
    · rw [hall, filter_not_callsOf]
    · have hend := Draft.foundAtEnd_of_finish (Draft.dated_of_foldlM Draft.dated_start hread).1
        (houtcome.symm.trans herror)
      exact ⟨fun _ => hall, fun h => absurd hend h⟩
  | error halt =>
    rw [hread] at hcalls houtcome
    have houtcome : reading.outcome = .error halt.fault := houtcome
    obtain ⟨before, tokens, after, hsplit, hline, htaken, huntil⟩ := callsUntil_of_stop hread
    obtain ⟨k, -, -, hfault, -⟩ := Draft.stop_of_foldlM Draft.dated_start hread
    refine ⟨?_, fun r h => ?_, fun error herror => ?_⟩
    · rw [hcalls]
      exact nodup_of_callsUntil huntil htaken
    · rw [houtcome] at h
      cases h
    · cases houtcome.symm.trans herror
      refine ⟨fun h => absurd h hfault, fun _ => ⟨before, tokens, after, hsplit, hline, htaken, ?_⟩⟩
      exact hcalls ▸ huntil

/-- A condition under negations, plain and under another one again, in a rule and in a block. -/
def hallText : String := "1 !!open %hall -> shut\nhall [ open, !wide\n # low ]\n !open wide ]"

def brokenText : String := "1 open -> shut\n0 !open wide"

theorem signboard_calls_readers_once :
    let V := Engine.signboard.host.toVocabulary
    (Engine.signboard.load hallText).result = .ok 1 ∧
      (V.read hallText).calls = V.callsOf (usesFrom false (tokenLines hallText)) ∧
      (V.read hallText).calls = [.unmarked "open", .effect "shut", .unmarked "wide"] ∧
      (V.read brokenText).outcome = .error ⟨2, .noArrow⟩ ∧
      (V.read brokenText).calls = [.unmarked "open", .effect "shut", .unmarked "wide"] ∧
      ∃ before tokens after, tokenLines brokenText = before ++ tokens :: after ∧
        2 = before.length + 1 ∧
        CallsUntil V (usesFrom false before) (usesOn (insideAfter false before) tokens) .noArrow
          (V.read brokenText).calls := by
  intro V
  obtain ⟨-, hpassed, -⟩ := readers_called_once V hallText
  obtain ⟨-, -, hstopped⟩ := readers_called_once V brokenText
  have hload : (Engine.signboard.load hallText).result = .ok 1 := by rfl
  have herror : (V.read brokenText).outcome = .error ⟨2, .noArrow⟩ := by rfl
  have hread := (Engine.signboard.read_of_load hload).1
  obtain ⟨before, tokens, after, hsplit, hline, -, huntil⟩ := (hstopped _ herror).2 id
  exact ⟨hload, (hpassed _ hread).1, by rfl, herror, by rfl, before, tokens, after, hsplit, hline,
    huntil⟩

end Vocabulary

end PriorityRules
