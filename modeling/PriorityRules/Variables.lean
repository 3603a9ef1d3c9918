/-! # Named numbers

Comparisons read numbers by name. A name stands for a position in the list of numbers that the
host computes for each evaluation, so no name may stand for two positions.
-/

namespace PriorityRules

/-- The first name that occurs earlier in the list or among `seen`. -/
def firstRepeat? (seen : List String) : List String → Option String
  | [] => none
  | name :: rest => if name ∈ seen then some name else firstRepeat? (name :: seen) rest

theorem nodup_of_firstRepeat?_eq_none {seen names : List String}
    (h : firstRepeat? seen names = none) : names.Nodup ∧ ∀ n ∈ names, n ∉ seen := by
  induction names generalizing seen with
  | nil => simp
  | cons name rest ih =>
    rw [firstRepeat?] at h
    split at h
    · cases h
    · rename_i hname
      obtain ⟨hnodup, hseen⟩ := ih h
      refine ⟨List.nodup_cons.mpr ⟨fun hmem => hseen name hmem (by simp), hnodup⟩, ?_⟩
      intro n hn
      rcases List.mem_cons.mp hn with rfl | hn
      · exact hname
      · exact fun hmem => hseen n hn (List.mem_cons_of_mem _ hmem)

structure Variables where
  names : List String := []
  distinct : names.Nodup := by simp

namespace Variables

/-- Names that repeat are refused with the first repeated one. -/
def ofNames (names : List String) : Except String Variables :=
  match h : firstRepeat? [] names with
  | some name => .error name
  | none => .ok ⟨names, (nodup_of_firstRepeat?_eq_none h).1⟩

def position? (v : Variables) (name : String) : Option Nat := v.names.idxOf? name

def size (v : Variables) : Nat := v.names.length

def isEmpty (v : Variables) : Bool := v.names.isEmpty

end Variables

end PriorityRules
