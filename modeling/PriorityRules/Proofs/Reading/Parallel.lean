import PriorityRules.Proofs.Reading.Interpretation

/-! # Readings side by side

Two readings of the same tokens are compared step by step: as long as neither stops, what they have
put down so far is related, and if one of them stops, so does the other one, with the same fault.
Whatever relation of notes the reading of conditions keeps is kept along rules and blocks.
-/

namespace PriorityRules.Reading

variable {A M : Type}

/-- Two computations stop with the same fault or both pass, with related results. -/
inductive Parallel {E σ τ : Type} (R : σ → τ → Prop) :
    Except (Halt E) σ → Except (Halt E) τ → Prop where
  | stopped {a b : Halt E} (h : a.fault = b.fault) : Parallel R (.error a) (.error b)
  | passed {s : σ} {t : τ} (h : R s t) : Parallel R (.ok s) (.ok t)

namespace Parallel

variable {E F σ τ σ' τ' : Type} {R : σ → τ → Prop} {Q : σ' → τ' → Prop}
variable {x : Except (Halt E) σ} {y : Except (Halt E) τ}

theorem bind (h : Parallel R x y) {f : σ → Except (Halt E) σ'} {g : τ → Except (Halt E) τ'}
    (hfg : ∀ s t, R s t → Parallel Q (f s) (g t)) : Parallel Q (x >>= f) (y >>= g) := by
  cases h with
  | stopped h => exact .stopped h
  | passed h => exact hfg _ _ h

theorem map (h : Parallel R x y) {f : σ → σ'} {g : τ → τ'}
    (hfg : ∀ s t, R s t → Q (f s) (g t)) : Parallel Q (x.map f) (y.map g) := by
  cases h with
  | stopped h => exact .stopped h
  | passed h => exact .passed (hfg _ _ h)

theorem mapError (h : Parallel R x y) {f : E → F} :
    Parallel R (x.mapError (Halt.map f)) (y.mapError (Halt.map f)) := by
  cases h with
  | stopped h => exact .stopped (congrArg f h)
  | passed h => exact .passed h

theorem foldlM {ι : Type} {f : σ → ι → Except (Halt E) σ} {g : τ → ι → Except (Halt E) τ}
    (hfg : ∀ s t i, R s t → Parallel R (f s i) (g t i)) (l : List ι) :
    ∀ s t, R s t → Parallel R (l.foldlM f s) (l.foldlM g t) := by
  induction l with
  | nil => exact fun s t h => .passed h
  | cons i l ih =>
    intro s t h
    rw [List.foldlM_cons, List.foldlM_cons]
    exact (hfg s t i h).bind ih

end Parallel

def Beside (N : Notes A → Notes A → Prop) {α : Type} (s t : α × Notes A) : Prop :=
  s.1 = t.1 ∧ N s.2 t.2

/-- Reading keeps the relation of notes, with conditions read in the one way on the one line and in
the other way on the other line. -/
structure Keeps (N : Notes A → Notes A → Prop) (line line' : Nat)
    (condition condition' : ConditionReader A) : Prop where
  condition : ∀ token {n m}, N n m →
    Parallel (Beside N) (condition line token n) (condition' line' token m)
  record : ∀ call {n m}, N n m → N (n.record call) (m.record call)
  mention : ∀ name {n m}, N n m →
    N { n with ledger := n.ledger.mention name } { m with ledger := m.ledger.mention name }
  define : ∀ name groups {n m}, N n m →
    N { n with ledger := n.ledger.define name groups }
      { m with ledger := m.ledger.define name groups }
  isDefined : ∀ name {n m}, N n m → n.ledger.isDefined name = m.ledger.isDefined name

variable {V : Vocabulary A M} {N : Notes A → Notes A → Prop} {n m : Notes A}
variable {line line' : Nat} {condition condition' : ConditionReader A} {E α : Type}

theorem ask_parallel {call : Call} (h : N (n.record call) (m.record call))
    (answer : Except String α) (refused : String → E) :
    Parallel (Beside N) (n.ask call answer refused) (m.ask call answer refused) := by
  cases answer with
  | ok a => exact .passed ⟨rfl, h⟩
  | error message => exact .stopped rfl

/-- A token that is not a negation puts down a call or the name it refers to. -/
theorem readPlain_parallel (h : N n m)
    (hrecord : ∀ call, N (n.record call) (m.record call))
    (hrefer : ∀ name, N { n with ledger := n.ledger.refer name line }
      { m with ledger := m.ledger.refer name line' })
    (hposition : ∀ name,
      (n.ledger.refer name line).position name = (m.ledger.refer name line').position name)
    (token : Token) :
    Parallel (Beside N) (readPlain V line token n) (readPlain V line' token m) := by
  unfold readPlain
  split
  · exact .stopped rfl
  · exact .passed ⟨congrArg Predicate.tag (hposition _), hrefer _⟩
  · split
    · exact .passed ⟨rfl, h⟩
    · exact .stopped rfl
  · split
    · exact ask_parallel (hrecord _) _ _
    · exact .stopped rfl

theorem readEach_parallel {τ : Type} {f g : τ → Notes A → Except (Halt E) (α × Notes A)}
    (hfg : ∀ piece {n m}, N n m → Parallel (Beside N) (f piece n) (g piece m))
    (pieces : List τ) (h : N n m) :
    Parallel (Beside N) (readEach f pieces n) (readEach g pieces m) := by
  induction pieces generalizing n m with
  | nil => exact .passed ⟨rfl, h⟩
  | cons piece pieces ih =>
    rw [readEach, readEach]
    apply (hfg piece h).bind
    rintro ⟨value, n⟩ ⟨_, m⟩ ⟨rfl, h⟩
    apply (ih h).bind
    rintro ⟨values, n⟩ ⟨_, m⟩ ⟨rfl, h⟩
    exact .passed ⟨rfl, h⟩

namespace Keeps

variable (K : Keeps N line line' condition condition')
include K

theorem readRule {level : Int} {body : List Token} (h : N n m) :
    Parallel (fun s t => N s.2 t.2 ∧ ∃ conditions effects,
        s.1 = ⟨level, line, conditions, effects⟩ ∧ t.1 = ⟨level, line', conditions, effects⟩)
      (readRule V condition level line body n) (readRule V condition' level line' body m) := by
  rw [Reading.readRule, Reading.readRule]
  apply (readEach_parallel K.condition _ h).mapError.bind
  rintro ⟨conditions, n⟩ ⟨_, m⟩ ⟨rfl, h⟩
  dsimp only
  split
  · exact .stopped rfl
  · refine Parallel.bind (readEach_parallel ?_ _ h) ?_
    · exact fun _ _ _ h => ask_parallel (K.record _ h) _ _
    rintro ⟨effects, n⟩ ⟨_, m⟩ ⟨rfl, h⟩
    dsimp only
    split
    · exact .stopped rfl
    · exact .passed ⟨h, _, _, rfl, rfl⟩

theorem readBlock {tokens : List Token} {block : Block A} (h : N n m) :
    Parallel (Beside N) (readBlock condition line tokens block n)
      (readBlock condition' line' tokens block m) := by
  induction tokens generalizing block n m with
  | nil => exact .passed ⟨rfl, h⟩
  | cons token rest ih =>
    unfold Reading.readBlock
    split
    · exact ih h
    · split
      · split
        · exact .stopped rfl
        · exact .stopped rfl
        · exact .passed ⟨rfl, K.define _ _ h⟩
      · apply (K.condition token h).mapError.bind
        rintro ⟨p, n⟩ ⟨_, m⟩ ⟨rfl, h⟩
        exact ih h

theorem openBlock {name : Token} {body : List Token} (h : N n m) :
    Parallel (Beside N) (openBlock condition line name body n)
      (openBlock condition' line' name body m) := by
  unfold Reading.openBlock
  split
  · dsimp only
    rw [K.isDefined _ (K.mention _ h)]
    split
    · exact .stopped rfl
    · exact K.readBlock (K.mention _ h)
  · exact .stopped rfl

end Keeps

end PriorityRules.Reading
