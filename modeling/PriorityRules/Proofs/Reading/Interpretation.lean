import PriorityRules.Reading

/-! # What a condition token stands for

Given the positions of the tags, a condition token stands for a predicate or is at fault, whatever
was read before it. Reading the token afresh, without recourse to what is known, gives just that,
and cites the name that the token refers to.
-/

namespace PriorityRules

variable {A M : Type}

section Results

variable {E F α β : Type} {x : Except E α}

theorem bind_eq_ok {f : α → Except E β} {b : β} :
    x >>= f = .ok b ↔ ∃ a, x = .ok a ∧ f a = .ok b := by
  cases x with
  | error fault => exact ⟨nofun, nofun⟩
  | ok a => exact ⟨fun h => ⟨a, rfl, h⟩, fun ⟨_, ha, h⟩ => Except.ok.inj ha ▸ h⟩

theorem map_eq_ok {f : α → β} {b : β} : x.map f = .ok b ↔ ∃ a, x = .ok a ∧ f a = b := by
  cases x <;> simp [Except.map]

theorem mapError_eq_ok {f : E → F} {a : α} : x.mapError f = .ok a ↔ x = .ok a := by
  cases x with
  | error fault => exact ⟨nofun, nofun⟩
  | ok b => exact ⟨fun h => congrArg Except.ok (Except.ok.inj h), fun h => Except.ok.inj h ▸ rfl⟩

theorem toOption_eq_some {a : α} : x.toOption = some a ↔ x = .ok a := by
  cases x <;> simp [Except.toOption]

end Results

namespace Token

def referred? : Token → Option String
  | '!' :: inner => referred? inner
  | ['%'] => none
  | '%' :: name => some (String.ofList name)
  | _ => none

/-- A token is a lone negation sign, a negation of a token, or no negation. -/
theorem negations {motive : Token → Prop} (sign : motive ['!'])
    (negation : ∀ inner, inner ≠ [] → motive inner → motive ('!' :: inner))
    (plain : ∀ token, (∀ inner, token ≠ '!' :: inner) → motive token) (token : Token) :
    motive token := by
  induction token with
  | nil => exact plain [] (by simp)
  | cons c inner ih =>
    by_cases hc : c = '!'
    · subst hc
      by_cases hinner : inner = []
      · subst hinner
        exact sign
      · exact negation inner hinner ih
    · exact plain _ fun other h => hc (List.cons.inj h).1

end Token

namespace Vocabulary

variable (V : Vocabulary A M) (position : String → Nat)

/-- What a token that is not a negation stands for. -/
def interpretPlain (token : Token) : Except PredicateFault (Predicate A) :=
  match token with
  | ['%'] => .error .emptyTagName
  | '%' :: name => .ok (.tag (position (String.ofList name)))
  | '(' :: body => (Comparison.ofBody V.declared (Reading.dropClosing body)).map .compare
  | token =>
    match Reading.consult? V token with
    | some (_, answer) => (answer.map .atom).mapError .rejected
    | none => .error (.unmarked (String.ofList token))

def interpret : Token → Except PredicateFault (Predicate A)
  | ['!'] => .error .emptyNegation
  | '!' :: inner => (interpret inner).map .not
  | token => interpretPlain V position token

/-- The token stands for a predicate, wherever the tags are. -/
def Accepts (token : Token) : Prop := ∀ position, ∃ p, V.interpret position token = .ok p

variable {V} {position}

theorem interpret_negation {inner : Token} (h : inner ≠ []) :
    V.interpret position ('!' :: inner) = (V.interpret position inner).map .not := by
  rw [interpret]
  exact h

theorem interpret_plain {token : Token} (h : ∀ inner, token ≠ '!' :: inner) :
    V.interpret position token = V.interpretPlain position token := by
  rw [interpret]
  · exact h []
  · exact h

/-- Only the position of the name that a token refers to bears on what it stands for. -/
theorem interpretPlain_congr {position' : String → Nat} {token : Token}
    (h : ∀ name ∈ token.referred?, position name = position' name) :
    V.interpretPlain position token = V.interpretPlain position' token := by
  unfold interpretPlain
  split
  · rfl
  · rename_i name hname
    have href : Token.referred? ('%' :: name) = some (String.ofList name) := by
      rw [Token.referred?]
      exact hname
    rw [h _ href]
  · rfl
  · rfl

theorem interpret_congr {position' : String → Nat} {token : Token}
    (h : ∀ name ∈ token.referred?, position name = position' name) :
    V.interpret position token = V.interpret position' token := by
  induction token using Token.negations with
  | sign => rfl
  | negation inner hinner ih =>
    rw [interpret_negation hinner, interpret_negation hinner]
    rw [Token.referred?] at h
    rw [ih h]
  | plain token hplain =>
    rw [interpret_plain hplain, interpret_plain hplain]
    exact interpretPlain_congr h

/-- Whether a token is at fault does not depend on where the tags are. -/
theorem accepts_of_interpret {token : Token} {p : Predicate A}
    (h : V.interpret position token = .ok p) : V.Accepts token := by
  intro position'
  induction token using Token.negations generalizing p with
  | sign => cases h
  | negation inner hinner ih =>
    rw [interpret_negation hinner] at h ⊢
    obtain ⟨q, hq, _⟩ := map_eq_ok.mp h
    obtain ⟨q', hq'⟩ := ih hq
    exact ⟨.not q', map_eq_ok.mpr ⟨q', hq', rfl⟩⟩
  | plain token hplain =>
    rw [interpret_plain hplain] at h ⊢
    unfold interpretPlain at h ⊢
    split at h
    · cases h
    · exact ⟨_, rfl⟩
    · exact ⟨p, h⟩
    · exact ⟨p, h⟩

end Vocabulary

namespace Reading

variable {V : Vocabulary A M} {E F α β : Type}

namespace Ledger

variable {line : Nat} {l : Ledger A}

def cite (line : Nat) (l : Ledger A) (token : Token) : Ledger A :=
  match token.referred? with
  | some name => l.refer name line
  | none => l

theorem cite_of_refers {token : Token} {name : String} (h : token.referred? = some name) :
    l.cite line token = l.refer name line := by
  rw [cite, h]

theorem cite_of_plain {token : Token} (h : token.referred? = none) : l.cite line token = l := by
  rw [cite, h]

theorem cite_negation {inner : Token} : l.cite line ('!' :: inner) = l.cite line inner := by
  rw [cite, cite, Token.referred?]

end Ledger

def upshot : Except (Halt E) (α × Notes A) → Except E (α × Ledger A)
  | .error halt => .error halt.fault
  | .ok (value, notes) => .ok (value, notes.ledger)

theorem upshot_eq_ok {x : Except (Halt E) (α × Notes A)} {value : α} {l : Ledger A} :
    upshot x = .ok (value, l) ↔ ∃ after, x = .ok (value, after) ∧ after.ledger = l := by
  cases x with
  | error halt => simp [upshot]
  | ok result =>
    constructor
    · intro h
      cases h
      exact ⟨result.2, rfl, rfl⟩
    · rintro ⟨after, hx, rfl⟩
      cases hx
      rfl

theorem upshot_map {x : Except (Halt E) (α × Notes A)} {f : α → β} :
    upshot (x.map fun (value, after) => (f value, after)) =
      (upshot x).map fun (value, l) => (f value, l) := by
  cases x <;> rfl

/-- Read a condition token without recourse to what is known. -/
def readAfresh (V : Vocabulary A M) : ConditionReader A := fun line token notes =>
  match token with
  | ['!'] => notes.stop .emptyNegation
  | '!' :: inner => (readAfresh V line inner notes).map fun (p, after) => (.not p, after)
  | token => readPlain V line token notes

theorem readAfresh_negation {line : Nat} {inner : Token} {notes : Notes A} (h : inner ≠ []) :
    readAfresh V line ('!' :: inner) notes =
      (readAfresh V line inner notes).map fun (p, after) => (.not p, after) := by
  rw [readAfresh]
  exact h

theorem readAfresh_plain {line : Nat} {token : Token} {notes : Notes A}
    (h : ∀ inner, token ≠ '!' :: inner) :
    readAfresh V line token notes = readPlain V line token notes := by
  rw [readAfresh]
  · exact h []
  · exact h

theorem upshot_readPlain {line : Nat} {token : Token} {notes : Notes A}
    (h : ∀ inner, token ≠ '!' :: inner) :
    upshot (readPlain V line token notes) =
      (V.interpretPlain (notes.ledger.cite line token).position token).map
        fun p => (p, notes.ledger.cite line token) := by
  unfold readPlain
  split
  · rfl
  · rename_i name hname
    have href : Token.referred? ('%' :: name) = some (String.ofList name) := by
      rw [Token.referred?]
      exact hname
    rw [Ledger.cite_of_refers href, Vocabulary.interpretPlain]
    · rfl
    · exact hname
  · rename_i body
    rw [Ledger.cite_of_plain rfl, Vocabulary.interpretPlain]
    cases Comparison.ofBody V.declared (dropClosing body) <;> rfl
  · rename_i hsign htag hparen
    have href : Token.referred? token = none := by
      rw [Token.referred?]
      · exact h
      · exact hsign
      · exact htag
    rw [Ledger.cite_of_plain href, Vocabulary.interpretPlain]
    · cases consult? V token with
      | some consulted =>
        obtain ⟨call, answer⟩ := consulted
        cases answer <;> rfl
      | none => rfl
    · exact hsign
    · exact htag
    · exact hparen

/-- Reading afresh gives what the token stands for, once the name it refers to is put down. -/
theorem upshot_readAfresh {line : Nat} {token : Token} {notes : Notes A} :
    upshot (readAfresh V line token notes) =
      (V.interpret (notes.ledger.cite line token).position token).map
        fun p => (p, notes.ledger.cite line token) := by
  induction token using Token.negations with
  | sign => rfl
  | negation inner hinner ih =>
    rw [readAfresh_negation hinner, upshot_map, ih, Vocabulary.interpret_negation hinner,
      Ledger.cite_negation]
    cases V.interpret (notes.ledger.cite line inner).position inner <;> rfl
  | plain token hplain =>
    rw [readAfresh_plain hplain, Vocabulary.interpret_plain hplain, upshot_readPlain hplain]

theorem upshot_readAfresh_eq_ok {line : Nat} {token : Token} {notes : Notes A} {p : Predicate A}
    {l : Ledger A} :
    upshot (readAfresh V line token notes) = .ok (p, l) ↔
      l = notes.ledger.cite line token ∧ V.interpret l.position token = .ok p := by
  rw [upshot_readAfresh, map_eq_ok]
  constructor
  · rintro ⟨q, hq, heq⟩
    obtain ⟨rfl, rfl⟩ := Prod.mk.inj heq
    exact ⟨rfl, hq⟩
  · rintro ⟨rfl, hp⟩
    exact ⟨p, hp, rfl⟩

end Reading

end PriorityRules
