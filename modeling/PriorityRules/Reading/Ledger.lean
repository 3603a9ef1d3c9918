import PriorityRules.LoadError
import PriorityRules.Predicate

/-! # The ledger of tags

Tags may be referred to before they are defined, so a name gets its position in the ruleset when
it is first mentioned. The ledger keeps, for each name mentioned so far, its groups once they are
known and the line of its first reference.
-/

namespace PriorityRules.Reading

structure Entry (A : Type) where
  name : String
  groups : Option (List (Group A))
  firstReference : Option Nat

/-- One entry for each name, in the order of first mention. -/
abbrev Ledger (A : Type) := List (Entry A)

namespace Ledger

variable {A : Type}

/-- The position of a name, which for a name not yet mentioned is the next free one. -/
def position (l : Ledger A) (name : String) : Nat := l.findIdx (·.name = name)

def mention (l : Ledger A) (name : String) : Ledger A :=
  if l.any (·.name = name) then l else l ++ [⟨name, none, none⟩]

def update (l : Ledger A) (name : String) (f : Entry A → Entry A) : Ledger A :=
  l.map fun e => if e.name = name then f e else e

/-- Mention a name by a reference on the given line; only the first such line is kept. -/
def refer (l : Ledger A) (name : String) (line : Nat) : Ledger A :=
  (l.mention name).update name fun e => { e with firstReference := e.firstReference.or (some line) }

def isDefined (l : Ledger A) (name : String) : Bool :=
  l.any fun e => e.name = name && e.groups.isSome

def define (l : Ledger A) (name : String) (groups : List (Group A)) : Ledger A :=
  l.update name fun e => { e with groups := some groups }

/-- The tags in order of first mention, provided that all of them are defined. -/
def tags (l : Ledger A) : Except LoadError (List (Tag A)) :=
  l.mapM fun e =>
    match e.groups with
    | some groups => .ok ⟨e.name, groups⟩
    | none => .error ⟨e.firstReference.getD 0, .undefinedTag e.name⟩

def names (l : Ledger A) : List String := l.map (·.name)

variable {l : Ledger A} {name : String}

theorem position_eq_idxOf : l.position name = l.names.idxOf name := by
  rw [position, names, List.idxOf, List.findIdx_map]
  rfl

theorem names_update {f : Entry A → Entry A} (hf : ∀ e, (f e).name = e.name) :
    (l.update name f).names = l.names := by
  rw [names, names, update, List.map_map]
  apply List.map_congr_left
  intro e _
  rw [Function.comp_apply]
  split
  · exact hf e
  · rfl

theorem any_name_iff : l.any (·.name = name) = true ↔ name ∈ l.names := by
  simp [names]

theorem names_mention :
    (l.mention name).names = if name ∈ l.names then l.names else l.names ++ [name] := by
  by_cases h : name ∈ l.names
  · rw [mention, if_pos (any_name_iff.mpr h), if_pos h]
  · rw [mention, if_neg (mt any_name_iff.mp h), if_neg h]
    simp [names]

@[simp] theorem names_refer {line : Nat} : (l.refer name line).names = (l.mention name).names :=
  names_update fun _ => rfl

@[simp] theorem names_define {groups : List (Group A)} : (l.define name groups).names = l.names :=
  names_update fun _ => rfl

theorem mem_names_mention {other : String} :
    other ∈ (l.mention name).names ↔ other = name ∨ other ∈ l.names := by
  rw [names_mention]
  split
  · rename_i h
    exact ⟨.inr, fun hor => hor.elim (fun heq => heq ▸ h) id⟩
  · simp [or_comm]

theorem names_prefix_mention : l.names <+: (l.mention name).names := by
  rw [names_mention]
  split
  · exact List.prefix_rfl
  · exact List.prefix_append _ _

/-- A name keeps its position when the ledger grows. -/
theorem position_eq_of_prefix {l' : Ledger A} (h : l.names <+: l'.names) (hname : name ∈ l.names) :
    l'.position name = l.position name := by
  obtain ⟨more, hmore⟩ := h
  rw [position_eq_idxOf, position_eq_idxOf, ← hmore, List.idxOf_append, if_pos hname]

end Ledger

end PriorityRules.Reading
