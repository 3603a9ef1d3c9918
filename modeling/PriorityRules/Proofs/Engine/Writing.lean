import Mathlib
import PriorityRules.FileTree
import PriorityRules.Engine.Setup
import PriorityRules.Proofs.Reading.Interpretation

/-! # Writing files

The way to a file stays open when the file is written, and what could be stored of it is read there.
That is the whole content unless there is too little room, and then the beginning of it.
-/

namespace PriorityRules

namespace FileContent

theorem toBytes_ofBytes (bytes : ByteArray) : (ofBytes bytes).toBytes = bytes := by
  rw [ofBytes]
  split
  · rename_i s hs
    unfold String.fromUTF8? at hs
    split at hs
    · cases hs
      rfl
    · cases hs
  · rfl

theorem size_first (n : Nat) (content : FileContent) :
    (content.first n).size = min n content.size := by
  rw [first]
  split
  · rename_i hfits
    exact (min_eq_right hfits).symm
  · rw [size, toBytes_ofBytes, ByteArray.size_extract, Nat.sub_zero, size]

theorem readText_eq_ok_iff {content : FileContent} {text : String} :
    content.readText = .ok text ↔ content = .text text := by
  cases content <;> simp [readText]

end FileContent

namespace FileTree

variable {t : FileTree} {place start : List String} {node : FileNode} {content : FileContent}
  {path : String}

theorem node?_put_of_ne {other : List String} (h : other ≠ place) :
    (t.put place node).node? other = t.node? other := by
  cases other with
  | nil => rfl
  | cons name rest =>
    have hne : (name :: rest == place) = false := by simpa using h
    rw [node?, node?, put, List.lookup_cons, hne]
    · exact Setup.lookup_filter_ne h t.nodes
    · exact List.cons_ne_nil _ _
    · exact List.cons_ne_nil _ _

theorem node?_put (h : place ≠ []) : (t.put place node).node? place = some node := by
  rw [node?, put, List.lookup_cons_self]
  exact h

@[simp] theorem node?_withRoom (room : Option Nat) (place : List String) :
    ({ t with room } : FileTree).node? place = t.node? place := by
  cases place <;> rfl

/-- The way to a file leads through directories, so that it stays open when the file is written. -/
theorem walk_put (hplace : t.node? place ≠ some .directory) (room : Option Nat)
    {names : List String} (h : t.walk start names = .ok place) :
    ({ t.put place node with room } : FileTree).walk start names = .ok place := by
  induction names generalizing start with
  | nil => exact h
  | cons name rest ih =>
    rw [walk] at h ⊢
    obtain ⟨next, hnext, h⟩ := bind_eq_ok.mp h
    refine bind_eq_ok.mpr ⟨next, hnext, ?_⟩
    by_cases hrest : rest.isEmpty
    · rwa [if_pos hrest] at h ⊢
    · rw [if_neg hrest] at h ⊢
      split at h
      · rename_i hdirectory
        have hne : next ≠ place := fun heq => hplace (heq ▸ hdirectory)
        rw [node?_withRoom, node?_put_of_ne hne, hdirectory]
        exact ih h
      · cases h
      · cases h

theorem readText_of_file (hlocate : t.locate path = .ok place)
    (hnode : t.node? place = some (.file content)) : t.readText path = content.readText := by
  simp [readText, hlocate, hnode, bind, Except.bind]

theorem walk_of_target (h : t.target path = .ok place) :
    place ≠ [] ∧ t.node? place ≠ some .directory ∧
      ∃ names, namesOf path = .ok names ∧ t.walk [] names = .ok place := by
  rw [target] at h
  obtain ⟨names, hnames, h⟩ := bind_eq_ok.mp h
  obtain ⟨found, hfound, h⟩ := bind_eq_ok.mp h
  split at h
  · cases h
  · rename_i hlength
    have hbare : (names.reverse.dropWhile (· = "")).reverse = names := by
      rw [List.reverse_eq_iff]
      apply (List.dropWhile_suffix _).eq_of_length
      simpa using (Decidable.not_not.mp hlength).symm
    rw [hbare] at hfound
    split at h
    · cases h
    · rename_i hnode
      cases h
      refine ⟨?_, hnode, names, hnames, hfound⟩
      rintro rfl
      exact hnode rfl

/-- A file that can be written, but is missing, is not there. -/
theorem node?_of_missing (hmissing : t.readText path = .error .notFound)
    (h : t.target path = .ok place) : t.node? place = none := by
  obtain ⟨-, hdirectory, names, hnames, hwalk⟩ := walk_of_target h
  have hlocate : t.locate path = .ok place := by
    rw [locate, hnames]
    exact hwalk
  cases hnode : t.node? place with
  | none => rfl
  | some node =>
    cases node with
    | directory => exact absurd hnode hdirectory
    | file content =>
      rw [readText_of_file hlocate hnode] at hmissing
      cases content <;> cases hmissing

theorem fitting_eq_self_iff :
    t.fitting place content = content ↔ (t.fitting place content).size = content.size := by
  constructor
  · exact congrArg _
  · rw [fitting]
    split
    · exact fun _ => rfl
    · intro hsize
      rw [FileContent.size_first, min_eq_right_iff] at hsize
      exact if_pos hsize

variable (content) in
theorem write_result (h : t.target path = .ok place) :
    (t.fitting place content = content ∧ (t.write path content).1 = .ok ()) ∨
      (t.fitting place content ≠ content ∧ (t.write path content).1 = .error .storageFull) := by
  rw [Ne, fitting_eq_self_iff, write, h]
  by_cases hsize : (t.fitting place content).size = content.size
  · exact .inl ⟨hsize, if_pos hsize⟩
  · exact .inr ⟨hsize, if_neg hsize⟩

variable (content) in
/-- What fits of a content is read where it is written. -/
theorem readText_write (h : t.target path = .ok place) :
    (t.write path content).2.readText path = (t.fitting place content).readText := by
  obtain ⟨hne, hdirectory, names, hnames, hwalk⟩ := walk_of_target h
  rw [write, h]
  refine @readText_of_file _ place _ path ?_ ?_
  · rw [locate, hnames]
    exact walk_put hdirectory _ hwalk
  · rw [node?_withRoom, node?_put hne]

variable (content) in
theorem fitting_of_missing (hnode : t.node? place = none) :
    t.fitting place content = t.room.elim content content.first := by
  rw [fitting, sizeAt, hnode]
  cases t.room <;> rfl

end FileTree

end PriorityRules
