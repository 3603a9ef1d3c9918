import PriorityRules.Proofs.Reading.Grammar

/-! # What the ledger has on record

After the items read so far, the ledger lists each name that they mention, in the order of first
mention, with the groups of its block if one has been read. A name therefore has its position in
the ruleset from its first mention on, and the tags of a ruleset can be read off the items.
-/

namespace PriorityRules.Reading

variable {A M : Type}

theorem eraseDups_snoc {α : Type} [BEq α] [LawfulBEq α] {names : List α} {name : α} :
    (names ++ [name]).eraseDups =
      if name ∈ names then names.eraseDups else names.eraseDups ++ [name] := by
  rw [List.eraseDups_append]
  by_cases h : name ∈ names
  · rw [if_pos h]
    simp [List.removeAll, h]
  · rw [if_neg h]
    simp [List.removeAll, h, List.eraseDups_cons]

theorem prefix_eraseDups {names all : List String} (h : names <+: all) :
    names.eraseDups <+: all.eraseDups := by
  obtain ⟨more, rfl⟩ := h
  rw [List.eraseDups_append]
  exact List.prefix_append _ _

/-- The ledger lists the names, each with the groups of its tag if there is one. -/
structure Accounts (names : List String) (tags : List (Tag A)) (l : Ledger A) : Prop where
  listed : l.names = names.eraseDups
  recorded : ∀ e ∈ l, e.groups = (tags.find? (·.name = e.name)).map (·.groups)
  mentioned : ∀ tag ∈ tags, tag.name ∈ names

namespace Accounts

variable {names all : List String} {tags : List (Tag A)} {l : Ledger A} {name : String}

theorem empty : Accounts [] ([] : List (Tag A)) [] :=
  ⟨rfl, List.forall_mem_nil _, List.forall_mem_nil _⟩

theorem mem_names (h : Accounts names tags l) : name ∈ l.names ↔ name ∈ names := by
  rw [h.listed, List.mem_eraseDups]

/-- A name is where the whole text will have it. -/
theorem position (h : Accounts names tags l) (hname : name ∈ names) (hall : names <+: all) :
    l.position name = place all name := by
  obtain ⟨more, hmore⟩ := prefix_eraseDups hall
  rw [Ledger.position_eq_idxOf, h.listed, place, ← hmore, List.idxOf_append,
    if_pos (List.mem_eraseDups.mpr hname)]

theorem update (h : Accounts names tags l) {f : Entry A → Entry A}
    (hname : ∀ e, (f e).name = e.name) (hgroups : ∀ e, (f e).groups = e.groups) :
    Accounts names tags (l.update name f) := by
  constructor
  · rw [Ledger.names_update hname, h.listed]
  · intro e' he'
    rw [Ledger.update] at he'
    obtain ⟨e, he, rfl⟩ := List.mem_map.mp he'
    split
    · rw [hname, hgroups, h.recorded e he]
    · exact h.recorded e he
  · exact h.mentioned

theorem mention (h : Accounts names tags l) :
    Accounts (names ++ [name]) tags (l.mention name) := by
  constructor
  · rw [Ledger.names_mention, eraseDups_snoc, ← h.listed]
    exact if_congr h.mem_names rfl rfl
  · intro e he
    by_cases hmem : name ∈ l.names
    · rw [Ledger.mention, if_pos (Ledger.any_name_iff.mpr hmem)] at he
      exact h.recorded e he
    · rw [Ledger.mention, if_neg (mt Ledger.any_name_iff.mp hmem)] at he
      rcases List.mem_append.mp he with he | he
      · exact h.recorded e he
      · -- no tag has a name that is new to the ledger
        rw [List.mem_singleton.mp he]
        have hnone : tags.find? (·.name = name) = none := by
          apply List.find?_eq_none.mpr
          intro tag htag heq
          have hmentioned := h.mentioned tag htag
          rw [of_decide_eq_true heq] at hmentioned
          exact hmem (h.mem_names.mpr hmentioned)
        rw [hnone]
        rfl
  · exact fun tag htag => List.mem_append_left _ (h.mentioned tag htag)

theorem cite (h : Accounts names tags l) (line : Nat) (token : Token) :
    Accounts (names ++ token.referred?.toList) tags (l.cite line token) := by
  cases href : token.referred? with
  | none =>
    rw [Ledger.cite_of_plain href, Option.toList_none, List.append_nil]
    exact h
  | some name =>
    rw [Ledger.cite_of_refers href, Option.toList_some]
    exact h.mention.update (fun _ => rfl) fun _ => rfl

theorem find?_isSome_iff : (tags.find? (·.name = name)).isSome ↔ name ∈ tags.map (·.name) := by
  simp [List.find?_isSome]

theorem isDefined_iff (h : Accounts names tags l) :
    l.isDefined name = true ↔ name ∈ tags.map (·.name) := by
  rw [Ledger.isDefined, List.any_eq_true, ← find?_isSome_iff]
  constructor
  · rintro ⟨e, he, hdefined⟩
    obtain ⟨hname, hsome⟩ := Bool.and_eq_true_iff.mp hdefined
    rw [h.recorded e he, Option.isSome_map, of_decide_eq_true hname] at hsome
    exact hsome
  · intro hsome
    obtain ⟨tag, htag, heq⟩ := List.mem_map.mp (find?_isSome_iff.mp hsome)
    obtain ⟨e, he, hname⟩ := List.mem_map.mp (h.mem_names.mpr (heq ▸ h.mentioned tag htag))
    refine ⟨e, he, Bool.and_eq_true_iff.mpr ⟨decide_eq_true hname, ?_⟩⟩
    rw [h.recorded e he, Option.isSome_map, hname]
    exact hsome

theorem define (h : Accounts names tags l) {groups : List (Group A)} (hname : name ∈ names)
    (hnew : name ∉ tags.map (·.name)) :
    Accounts names (tags ++ [⟨name, groups⟩]) (l.define name groups) := by
  have hnone : tags.find? (·.name = name) = none :=
    Option.not_isSome_iff_eq_none.mp (mt find?_isSome_iff.mp hnew)
  constructor
  · rw [Ledger.names_define, h.listed]
  · intro e' he'
    rw [Ledger.define, Ledger.update] at he'
    obtain ⟨e, he, rfl⟩ := List.mem_map.mp he'
    rw [List.find?_append]
    split
    · rename_i heq
      dsimp only
      rw [heq, hnone]
      simp
    · rename_i hne
      rw [h.recorded e he]
      simp [Ne.symm hne]
  · intro tag htag
    rcases List.mem_append.mp htag with htag | htag
    · exact h.mentioned tag htag
    · rw [List.mem_singleton.mp htag]
      exact hname

end Accounts

theorem Ledger.tags_cons {e : Entry A} {l : Ledger A} :
    tags (e :: l) =
      match e.groups with
      | none => .error ⟨e.firstReference.getD 0, .undefinedTag e.name⟩
      | some groups => l.tags.map (⟨e.name, groups⟩ :: ·) := by
  rw [tags, List.mapM_cons, ← tags]
  cases e.groups with
  | none => rfl
  | some groups => cases tags l <;> rfl

/-- The first name without groups is the one that is reported. -/
theorem Ledger.tags_eq_error_iff {l : Ledger A} {error : LoadError} :
    l.tags = .error error ↔
      ∃ e, l.find? (·.groups.isNone) = some e ∧
        error = ⟨e.firstReference.getD 0, .undefinedTag e.name⟩ := by
  induction l with
  | nil => exact ⟨nofun, nofun⟩
  | cons e l ih =>
    rw [tags_cons, List.find?_cons]
    cases e.groups with
    | none => simp [eq_comm]
    | some groups =>
      simp only [Option.isNone_some, ← ih]
      cases tags l <;> simp [Except.map]

theorem Ledger.tags_eq_ok_iff {l : Ledger A} {result : List (Tag A)} :
    l.tags = .ok result ↔
      (∀ e ∈ l, e.groups.isSome) ∧ result = l.filterMap fun e => e.groups.map (Tag.mk e.name) := by
  induction l generalizing result with
  | nil =>
    constructor
    · rintro ⟨⟩
      exact ⟨List.forall_mem_nil _, rfl⟩
    · rintro ⟨_, rfl⟩
      rfl
  | cons e l ih =>
    rw [tags_cons, List.forall_mem_cons, List.filterMap_cons]
    cases e.groups with
    | none =>
      constructor
      · rintro ⟨⟩
      · rintro ⟨⟨⟨⟩, _⟩, _⟩
    | some groups =>
      rw [map_eq_ok]
      constructor
      · rintro ⟨rest, hrest, rfl⟩
        obtain ⟨hsome, hl⟩ := ih.mp hrest
        exact ⟨⟨rfl, hsome⟩, congrArg (_ :: ·) hl⟩
      · rintro ⟨⟨_, hsome⟩, rfl⟩
        exact ⟨_, ih.mpr ⟨hsome, rfl⟩, rfl⟩

theorem Accounts.tags_eq_ok_iff {names : List String} {tags : List (Tag A)} {l : Ledger A}
    (h : Accounts names tags l) {result : List (Tag A)} :
    l.tags = .ok result ↔
      (∀ name ∈ names, name ∈ tags.map (·.name)) ∧
        result = names.eraseDups.filterMap fun name => tags.find? (·.name = name) := by
  have hdefined : (∀ e ∈ l, e.groups.isSome) ↔ ∀ name ∈ names, name ∈ tags.map (·.name) := by
    constructor
    · intro hsome name hname
      obtain ⟨e, he, rfl⟩ := List.mem_map.mp (h.mem_names.mpr hname)
      have hgroups := hsome e he
      rw [h.recorded e he, Option.isSome_map] at hgroups
      exact find?_isSome_iff.mp hgroups
    · intro hnames e he
      rw [h.recorded e he, Option.isSome_map]
      apply find?_isSome_iff.mpr
      exact hnames e.name (h.mem_names.mp (List.mem_map_of_mem he))
  have hresult : l.filterMap (fun e => e.groups.map (Tag.mk e.name)) =
      names.eraseDups.filterMap fun name => tags.find? (·.name = name) := by
    rw [← h.listed, Ledger.names, List.filterMap_map]
    apply List.filterMap_congr
    intro e he
    rw [h.recorded e he, Option.map_map, Function.comp_apply]
    cases hfind : tags.find? (·.name = e.name) with
    | none => rfl
    | some tag =>
      have hname : tag.name = e.name := by simpa using List.find?_some hfind
      rw [Option.map_some, Function.comp_apply, ← hname]
  rw [Ledger.tags_eq_ok_iff, hdefined, hresult]

end PriorityRules.Reading
