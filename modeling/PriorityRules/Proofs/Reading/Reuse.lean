import PriorityRules.Proofs.Reading.Parallel

/-! # Reuse of known tokens

A token is read once in a load; whenever it occurs again, what it was read as is used, and the
name it refers to is not put down once more. A text comes out as it does when every token and
every negated token is read afresh: each known token still stands for its predicate, and its name
has a first reference already.
-/

namespace PriorityRules

variable {A M : Type}

namespace Reading

namespace Ledger

variable {l l' l'' : Ledger A} {name other : String} {line : Nat}

/-- The name has been mentioned and the line of its first reference is settled. -/
def Referenced (l : Ledger A) (name : String) : Prop :=
  name ∈ l.names ∧ ∀ e ∈ l, e.name = name → e.firstReference.isSome

structure Grows (l l' : Ledger A) : Prop where
  names : l.names <+: l'.names
  referenced : ∀ name, l.Referenced name → l'.Referenced name

theorem Grows.refl (l : Ledger A) : Grows l l := ⟨List.prefix_rfl, fun _ h => h⟩

theorem Grows.trans (h : Grows l l') (h' : Grows l' l'') : Grows l l'' :=
  ⟨h.names.trans h'.names, fun name hname => h'.referenced name (h.referenced name hname)⟩

theorem grows_update {f : Entry A → Entry A} (hname : ∀ e, (f e).name = e.name)
    (hline : ∀ e, e.firstReference.isSome → (f e).firstReference.isSome) :
    Grows l (l.update other f) := by
  have hnames : (l.update other f).names = l.names := names_update hname
  constructor
  · exact hnames ▸ List.prefix_rfl
  · rintro name ⟨hmem, hsettled⟩
    constructor
    · exact hnames ▸ hmem
    · intro e' he' heq
      rw [update] at he'
      obtain ⟨e, he, rfl⟩ := List.mem_map.mp he'
      by_cases h : e.name = other
      · rw [if_pos h] at heq ⊢
        rw [hname] at heq
        exact hline e (hsettled e he heq)
      · rw [if_neg h] at heq ⊢
        exact hsettled e he heq

theorem grows_mention : Grows l (l.mention other) := by
  constructor
  · exact names_prefix_mention
  · rintro name ⟨hmem, hsettled⟩
    constructor
    · exact mem_names_mention.mpr (.inr hmem)
    · intro e he heq
      by_cases h : other ∈ l.names
      · rw [mention, if_pos (any_name_iff.mpr h)] at he
        exact hsettled e he heq
      · rw [mention, if_neg (mt any_name_iff.mp h)] at he
        rcases List.mem_append.mp he with he | he
        · exact hsettled e he heq
        · -- the new entry is for a name that `l` does not have
          rw [List.mem_singleton.mp he] at heq
          subst heq
          exact absurd hmem h

theorem grows_refer : Grows l (l.refer other line) := by
  apply grows_mention.trans
  apply grows_update
  · exact fun _ => rfl
  · intro e he
    rw [Option.isSome_or, he, Bool.true_or]

theorem grows_define {groups : List (Group A)} : Grows l (l.define other groups) :=
  grows_update (fun _ => rfl) fun _ h => h

theorem referenced_refer : (l.refer name line).Referenced name := by
  constructor
  · rw [names_refer]
    exact mem_names_mention.mpr (.inl rfl)
  · intro e' he' heq
    rw [refer, update] at he'
    obtain ⟨e, _, rfl⟩ := List.mem_map.mp he'
    by_cases h : e.name = name
    · rw [if_pos h, Option.isSome_or, Option.isSome_some, Bool.or_true]
    · rw [if_neg h] at heq
      exact absurd heq h

/-- Only the first reference to a name leaves a trace. -/
theorem refer_of_referenced (h : l.Referenced name) : l.refer name line = l := by
  rw [refer, mention, if_pos (any_name_iff.mpr h.1), update]
  refine (List.map_congr_left ?_).trans (List.map_id l)
  intro e he
  split
  · rename_i heq
    rw [Option.or_of_isSome (h.2 e he heq)]
    rfl
  · rfl

end Ledger

/-- Every known token stands for its predicate, and a name it refers to has a first reference. -/
def Notes.Faithful (V : Vocabulary A M) (notes : Notes A) : Prop :=
  ∀ token p, (token, p) ∈ notes.known →
    V.interpret notes.ledger.position token = .ok p ∧
      ∀ name ∈ token.referred?, notes.ledger.Referenced name

section Faithful

variable {V : Vocabulary A M} {n : Notes A}

theorem Notes.Faithful.grows (h : n.Faithful V) {after : Notes A} (hknown : after.known = n.known)
    (hl : Ledger.Grows n.ledger after.ledger) : after.Faithful V := by
  intro token p hmem
  obtain ⟨hp, hname⟩ := h token p (hknown ▸ hmem)
  constructor
  · rw [← hp]
    apply Vocabulary.interpret_congr
    intro name href
    exact Ledger.position_eq_of_prefix hl.names (hname name href).1
  · exact fun name href => hl.referenced name (hname name href)

theorem Notes.Faithful.remember (h : n.Faithful V) {token : Token} {p : Predicate A}
    (hp : V.interpret n.ledger.position token = .ok p)
    (hname : ∀ name ∈ token.referred?, n.ledger.Referenced name) :
    (n.remember token p).Faithful V := by
  intro token' p' hmem
  rcases List.mem_cons.mp hmem with heq | hmem
  · cases heq
    exact ⟨hp, hname⟩
  · exact h token' p' hmem

end Faithful

structure Matches (V : Vocabulary A M) (n m : Notes A) : Prop where
  ledger : n.ledger = m.ledger
  faithful : n.Faithful V

def Alike (V : Vocabulary A M) {α : Type} (s t : α × Notes A) : Prop :=
  s.1 = t.1 ∧ Matches V s.2 t.2

variable {V : Vocabulary A M} {n m : Notes A}

theorem Matches.record (h : Matches V n m) (call : Call) :
    Matches V (n.record call) (m.record call) :=
  ⟨h.ledger, h.faithful.grows rfl (.refl _)⟩

theorem Matches.refer (h : Matches V n m) (name : String) (line : Nat) :
    Matches V { n with ledger := n.ledger.refer name line }
      { m with ledger := m.ledger.refer name line } :=
  ⟨congrArg (·.refer name line) h.ledger, h.faithful.grows rfl Ledger.grows_refer⟩

/-- Reading a token with recourse to what is known goes like reading it afresh, provided that it
does when it is not known. -/
theorem reuse_parallel (h : Matches V n m) {line : Nat} {token : Token}
    {read : Notes A → Except (Halt PredicateFault) (Predicate A × Notes A)}
    (hread : Parallel (Alike V) (read n) (readAfresh V line token m)) :
    Parallel (Alike V) (n.reuse token read) (readAfresh V line token m) := by
  rw [Notes.reuse]
  cases hknown : n.known.lookup token with
  | some p =>
    obtain ⟨before, behind, hsplit, _⟩ := List.lookup_eq_some_iff.mp hknown
    obtain ⟨hp, hname⟩ := h.faithful token p (hsplit ▸ by simp)
    have hcite : m.ledger = m.ledger.cite line token := by
      rw [Ledger.cite]
      split
      · rename_i name href
        exact (Ledger.refer_of_referenced (h.ledger ▸ hname name href)).symm
      · rfl
    rw [h.ledger] at hp
    obtain ⟨after, hm, hafter⟩ := upshot_eq_ok.mp (upshot_readAfresh_eq_ok.mpr ⟨hcite, hp⟩)
    rw [hm]
    exact .passed ⟨rfl, h.ledger.trans hafter.symm, h.faithful⟩
  | none =>
    dsimp only
    generalize hx : read n = x, hy : readAfresh V line token m = y at hread
    cases hread with
    | stopped hfault => exact .stopped hfault
    | @passed s t halike =>
      obtain ⟨hvalue, hmatch⟩ := halike
      apply Parallel.passed
      refine ⟨hvalue, hmatch.ledger, ?_⟩
      -- what has been read afresh is what the token stands for
      obtain ⟨hcite, hp⟩ := upshot_readAfresh_eq_ok.mp (upshot_eq_ok.mpr ⟨t.2, hy, rfl⟩)
      apply hmatch.faithful.remember
      · rw [hmatch.ledger, hvalue]
        exact hp
      · intro name href
        rw [hmatch.ledger, hcite, Ledger.cite_of_refers href]
        exact Ledger.referenced_refer

theorem readCondition_parallel {line : Nat} (token : Token) (h : Matches V n m) :
    Parallel (Alike V) (readCondition V line token n) (readAfresh V line token m) := by
  induction token using Token.negations generalizing n m with
  | sign => exact .stopped rfl
  | negation inner hinner ih =>
    rw [readCondition]
    · apply reuse_parallel h
      rw [readAfresh_negation hinner]
      apply (ih h).map
      rintro ⟨p, n⟩ ⟨q, m⟩ ⟨rfl, h⟩
      exact ⟨rfl, h⟩
    · exact hinner
  | plain token hplain =>
    rw [readCondition]
    · apply reuse_parallel h
      rw [readAfresh_plain hplain]
      refine readPlain_parallel h h.record (h.refer · line) (fun name => ?_) token
      rw [h.ledger]
    · exact hplain []
    · exact hplain

theorem keeps_matches (line : Nat) :
    Keeps (Matches V) line line (readCondition V) (readAfresh V) where
  condition token _ _ h := readCondition_parallel token h
  record call _ _ h := h.record call
  mention name _ _ h :=
    ⟨congrArg (·.mention name) h.ledger, h.faithful.grows rfl Ledger.grows_mention⟩
  define name groups _ _ h :=
    ⟨congrArg (·.define name groups) h.ledger, h.faithful.grows rfl Ledger.grows_define⟩
  isDefined name _ _ h := congrArg (·.isDefined name) h.ledger

structure Draft.Matches (V : Vocabulary A M) (d d' : Draft A M) : Prop where
  notes : Reading.Matches V d.notes d'.notes
  rules : d.rules = d'.rules
  block : d.block = d'.block
  lines : d.lines = d'.lines

namespace Draft

variable {d d' : Draft A M} {line : Nat} {tokens : List Token}

theorem readOutside_parallel (h : Matches V d d') :
    Parallel (Matches V) (d.readOutside V (readCondition V) line tokens)
      (d'.readOutside V (readAfresh V) line tokens) := by
  unfold readOutside
  split
  · exact .passed ⟨h.notes, h.rules, h.block, rfl⟩
  · apply ((keeps_matches line).readRule h.notes).bind
    rintro ⟨_, n⟩ ⟨_, m⟩ ⟨hnotes, conditions, effects, rfl, rfl⟩
    exact .passed ⟨hnotes, congrArg (Tiers.add · _) h.rules, h.block, rfl⟩
  · apply ((keeps_matches line).openBlock h.notes).bind
    rintro ⟨block, n⟩ ⟨_, m⟩ ⟨rfl, hnotes⟩
    exact .passed ⟨hnotes, h.rules, rfl, rfl⟩
  · exact .stopped rfl

theorem readInside_parallel {block : Block A} (h : Matches V d d') :
    Parallel (Matches V) (d.readInside (readCondition V) block line tokens)
      (d'.readInside (readAfresh V) block line tokens) := by
  unfold readInside
  apply ((keeps_matches line).readBlock h.notes).bind
  rintro ⟨block, n⟩ ⟨_, m⟩ ⟨rfl, hnotes⟩
  exact .passed ⟨hnotes, h.rules, rfl, rfl⟩

theorem readLine_parallel {text : Text.Line} (h : Matches V d d') :
    Parallel (Matches V) (d.readLine V (readCondition V) text)
      (d'.readLine V (readAfresh V) text) := by
  rw [readLine, readLine, readTokens, readTokens, h.lines, h.block]
  apply Parallel.mapError
  split
  · exact readInside_parallel h
  · exact readOutside_parallel h

theorem readLines_parallel (texts : List Text.Line) :
    Parallel (Matches V) (texts.foldlM (readLine V (readCondition V)) {})
      (texts.foldlM (readLine V (readAfresh V)) {}) := by
  apply Parallel.foldlM
  · exact fun _ _ _ h => readLine_parallel h
  · exact ⟨⟨rfl, fun _ _ h => absurd h List.not_mem_nil⟩, rfl, rfl, rfl⟩

theorem Matches.finish_eq (h : Matches V d d') (source : String) :
    d.finish source = d'.finish source := by
  rw [finish, finish, h.block, h.lines, h.notes.ledger, h.rules]

end Draft

end Reading

namespace Vocabulary

variable (V : Vocabulary A M) (text : String)

theorem outcome_readWith_readCondition :
    (V.readWith (Reading.readCondition V) text).outcome =
      (V.readWith (Reading.readAfresh V) text).outcome := by
  have hlines := Reading.Draft.readLines_parallel (V := V) (Text.lines text.toList)
  rw [readWith, readWith]
  generalize (Text.lines text.toList).foldlM
    (Reading.Draft.readLine V (Reading.readCondition V)) {} = x at hlines ⊢
  generalize (Text.lines text.toList).foldlM
    (Reading.Draft.readLine V (Reading.readAfresh V)) {} = y at hlines ⊢
  cases hlines with
  | stopped h => exact congrArg Except.error h
  | passed h => exact h.finish_eq text

/-- A load gives the ruleset or the fault, with its line, that the text would give if every token
and every negated token were read afresh each time. -/
theorem read_outcome_eq_afresh :
    (V.read text).outcome = (V.readWith (Reading.readAfresh V) text).outcome := by
  rw [read, outcome_readWith_readCondition]

end Vocabulary

end PriorityRules
