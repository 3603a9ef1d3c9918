import PriorityRules.Engine

/-! # Setting up an engine

A setup collects the contributions of the host one by one. Slots add up, a mark keeps its latest
reader, and every other contribution replaces the one before. A setup becomes an engine when
effects can be read, no mark is reserved for the rule language, and no number has two places.
-/

namespace PriorityRules

/-- The characters that begin the forms of the rule language itself. -/
def reservedMarks : List Char := ['!', '%', '(']

inductive SetupFault where
  | missingEffects
  | reservedMark (mark : Char)
  | duplicateNumber (name : String)
  deriving DecidableEq, Repr

def SetupFault.message : SetupFault → String
  | .missingEffects => "no effect parser configured"
  | .reservedMark mark =>
    "prefix '" ++ String.ofList [mark] ++ "' is reserved for built-in predicates"
  | .duplicateNumber name => "duplicate interesting number '" ++ name ++ "'"

structure Setup (C A M : Type) where
  holds : A → C → Bool
  perform : M → C → C
  marks : List (Char × Reader A) := []
  fallback : Option (Reader A) := none
  effects : Option (Reader (List (Effect M))) := none
  slots : Slots := {}
  names : List String := []
  numbers : C → List Float := fun _ => []
  defaultRules : String := ""

namespace Setup

variable {C A M : Type}

def withMark (s : Setup C A M) (mark : Char) (reader : Reader A) : Setup C A M :=
  { s with marks := (mark, reader) :: s.marks.filter (·.1 ≠ mark) }

theorem lookup_filter_ne {α β : Type} [BEq α] [LawfulBEq α] [DecidableEq α] {key other : α}
    (h : other ≠ key) (entries : List (α × β)) :
    (entries.filter (·.1 ≠ key)).lookup other = entries.lookup other := by
  induction entries with
  | nil => rfl
  | cons entry rest ih =>
    obtain ⟨first, value⟩ := entry
    by_cases hfirst : first = key
    · have hother : (other == first) = false := by simpa [hfirst] using h
      rw [List.filter_cons_of_neg (by simpa using hfirst), ih, List.lookup_cons, hother]
    · rw [List.filter_cons_of_pos (by simpa using hfirst), List.lookup_cons, List.lookup_cons, ih]

theorem lookup_withMark (s : Setup C A M) (mark other : Char) (reader : Reader A) :
    (s.withMark mark reader).marks.lookup other =
      if other = mark then some reader else s.marks.lookup other := by
  rw [withMark, List.lookup_cons]
  by_cases h : other = mark
  · simp [h]
  · rw [if_neg h, ← lookup_filter_ne h s.marks, beq_eq_false_iff_ne.mpr h]

def withFallback (s : Setup C A M) (reader : Reader A) : Setup C A M :=
  { s with fallback := some reader }

def withEffects (s : Setup C A M) (reader : Reader (List (Effect M))) : Setup C A M :=
  { s with effects := some reader }

def withSlots (s : Setup C A M) (ids : List Int) : Setup C A M :=
  { s with slots := s.slots.insertAll ids }

def withNumbers (s : Setup C A M) (names : List String) (numbers : C → List Float) : Setup C A M :=
  { s with names, numbers }

def withDefaultRules (s : Setup C A M) (text : String) : Setup C A M :=
  { s with defaultRules := text }

/-- The reserved marks that a setup uses, in the order of the reserved ones. -/
def reserved (s : Setup C A M) : List Char :=
  reservedMarks.filter fun mark => s.marks.any (·.1 = mark)

def build (s : Setup C A M) : Except SetupFault (Engine C A M) :=
  match s.effects, s.reserved with
  | none, _ => .error .missingEffects
  | some _, mark :: _ => .error (.reservedMark mark)
  | some effects, [] =>
    match Variables.ofNames s.names with
    | .error name => .error (.duplicateNumber name)
    | .ok declared =>
      .ok { host := { s with effects, declared } }

end Setup

end PriorityRules
