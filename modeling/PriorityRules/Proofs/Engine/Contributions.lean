import PriorityRules.Engine.Setup
import PriorityRules.Proofs.Reading.Cuts

/-! # What a setup makes of its contributions

A host may make any contributions in any order. Whether they make an engine is up to three checks,
and the first that fails is reported. An engine that is made has every slot contributed and, of all
that replaces, the latest.
-/

namespace PriorityRules

variable {C A M : Type}

def RepeatsFirst (names : List String) (name : String) : Prop :=
  ∃ before after, names = before ++ name :: after ∧ name ∈ before ∧ before.Nodup

theorem firstRepeat?_eq_some_iff {seen names : List String} {name : String} :
    firstRepeat? seen names = some name ↔
      ∃ before after, names = before ++ name :: after ∧ (name ∈ seen ∨ name ∈ before) ∧
        before.Nodup ∧ ∀ n ∈ before, n ∉ seen := by
  induction names generalizing seen with
  | nil => simp [firstRepeat?]
  | cons first rest ih =>
    rw [firstRepeat?]
    by_cases hfirst : first ∈ seen
    · rw [if_pos hfirst]
      constructor
      · rintro ⟨rfl⟩
        exact ⟨[], rest, rfl, .inl hfirst, .nil, by simp⟩
      · rintro ⟨before, after, heq, hname, _, hnew⟩
        cases before with
        | nil => simp_all
        | cons b before =>
          obtain ⟨rfl, rfl⟩ := List.cons.inj heq
          exact absurd hfirst (hnew _ List.mem_cons_self)
    · rw [if_neg hfirst, ih]
      constructor
      · rintro ⟨before, after, rfl, hname, hnodup, hnew⟩
        refine ⟨first :: before, after, rfl, ?_, ?_, ?_⟩
        · simpa [or_assoc, or_left_comm] using hname
        · refine List.nodup_cons.mpr ⟨fun hmem => ?_, hnodup⟩
          exact hnew first hmem List.mem_cons_self
        · refine List.forall_mem_cons.mpr ⟨hfirst, fun n hn hseen => ?_⟩
          exact hnew n hn (List.mem_cons_of_mem _ hseen)
      · rintro ⟨before, after, heq, hname, hnodup, hnew⟩
        cases before with
        | nil => simp_all
        | cons b before =>
          obtain ⟨rfl, rfl⟩ := List.cons.inj heq
          obtain ⟨hb, hnodup⟩ := List.nodup_cons.mp hnodup
          refine ⟨before, after, rfl, ?_, hnodup, fun n hn => ?_⟩
          · simpa [or_assoc, or_left_comm] using hname
          · rw [List.mem_cons, not_or]
            exact ⟨fun heq => hb (heq ▸ hn), hnew n (List.mem_cons_of_mem _ hn)⟩

theorem firstRepeat?_of_nodup {names : List String} (h : names.Nodup) :
    firstRepeat? [] names = none := by
  rw [Option.eq_none_iff_forall_ne_some]
  intro name hname
  obtain ⟨before, after, rfl, hmem, -⟩ := firstRepeat?_eq_some_iff.mp hname
  have hbefore : name ∈ before := by simpa using hmem
  exact List.disjoint_of_nodup_append h hbefore List.mem_cons_self

namespace Variables

theorem ofNames_eq_error_iff {names : List String} {name : String} :
    ofNames names = .error name ↔ RepeatsFirst names name := by
  have hfirst := @firstRepeat?_eq_some_iff [] names name
  simp only [List.not_mem_nil, false_or, not_false_eq_true, implies_true, and_true] at hfirst
  rw [RepeatsFirst, ← hfirst]
  unfold ofNames
  split
  · rename_i other hother
    simp [hother]
  · rename_i hnone
    simp [hnone]

theorem ofNames_eq_ok_iff {names : List String} {v : Variables} :
    ofNames names = .ok v ↔ v.names = names := by
  unfold ofNames
  split
  · rename_i name hname
    refine ⟨nofun, fun h => ?_⟩
    rw [firstRepeat?_of_nodup (h ▸ v.distinct)] at hname
    cases hname
  · obtain ⟨names', hdistinct⟩ := v
    simp [eq_comm]

end Variables

/-- Names at consecutive positions, with a map that leads from a name to its position. -/
structure Registry where
  names : List String := []
  positions : Std.HashMap String Nat := ∅

namespace Registry

def register (r : Registry) (name : String) : Option Registry :=
  if r.positions.contains name then none
  else some ⟨r.names ++ [name], r.positions.insert name r.names.length⟩

def registerAll : List String → Registry → Except String Registry
  | [], r => .ok r
  | name :: rest, r =>
    match r.register name with
    | some r => registerAll rest r
    | none => .error name

def Consistent (r : Registry) : Prop :=
  ∀ (name : String) (i : Nat), r.positions[name]? = some i ↔ r.names[i]? = some name

variable {r r' : Registry} {name : String} {names : List String}

theorem consistent_empty : Consistent {} := by
  intro name i
  simp

theorem Consistent.contains_iff (h : r.Consistent) :
    r.positions.contains name ↔ name ∈ r.names := by
  rw [Std.HashMap.contains_eq_isSome_getElem?, Option.isSome_iff_exists, List.mem_iff_getElem?]
  exact exists_congr fun i => h name i

theorem getElem?_snoc_eq_some_iff {other : String} {i : Nat} :
    (names ++ [name])[i]? = some other ↔
      names[i]? = some other ∨ i = names.length ∧ name = other := by
  rcases Nat.lt_trichotomy i names.length with hlt | rfl | hgt
  · rw [List.getElem?_append_left hlt]
    simp [Nat.ne_of_lt hlt]
  · simp
  · have hnone : (names ++ [name])[i]? = none := List.getElem?_eq_none (by simpa using hgt)
    simp [hnone, Nat.ne_of_gt hgt, List.getElem?_eq_none (Nat.le_of_lt hgt)]

theorem Consistent.register (h : r.Consistent) (hr : r.register name = some r') :
    r'.Consistent ∧ r'.names = r.names ++ [name] := by
  unfold Registry.register at hr
  split at hr
  · cases hr
  · rename_i hnew
    rw [h.contains_iff] at hnew
    cases hr
    refine ⟨fun other i => ?_, rfl⟩
    rw [Std.HashMap.getElem?_insert, getElem?_snoc_eq_some_iff, ← h other i]
    by_cases hother : name = other
    · -- the new name had no position before
      subst hother
      have hnone : r.positions[name]? ≠ some i := fun hold =>
        hnew (List.mem_of_getElem? ((h name i).mp hold))
      simp [hnone, eq_comm]
    · simp [hother]

theorem registerAll_of_firstRepeat? (h : r.Consistent) {seen : List String}
    (hseen : ∀ n, n ∈ seen ↔ n ∈ r.names) :
    match firstRepeat? seen names with
    | some name => registerAll names r = .error name
    | none => ∃ r', registerAll names r = .ok r' ∧ r'.Consistent ∧ r'.names = r.names ++ names := by
  induction names generalizing r seen with
  | nil => exact ⟨r, rfl, h, (List.append_nil _).symm⟩
  | cons name rest ih =>
    rw [firstRepeat?, registerAll]
    by_cases hname : name ∈ seen
    · have htaken : r.register name = none := if_pos (h.contains_iff.mpr ((hseen name).mp hname))
      rw [if_pos hname, htaken]
    · rw [if_neg hname]
      cases hr : r.register name with
      | none =>
        have : r.positions.contains name := by
          by_contra hnew
          rw [Registry.register, if_neg hnew] at hr
          cases hr
        exact absurd ((hseen name).mpr (h.contains_iff.mp this)) hname
      | some next =>
        obtain ⟨hnext, hnames⟩ := h.register hr
        have hseen' : ∀ n, n ∈ name :: seen ↔ n ∈ next.names := by simp [hnames, hseen, or_comm]
        have hrest := ih hnext hseen'
        simpa [hnames] using hrest

/-- Distinct names are registered at the positions that they have as variables. -/
theorem exists_registerAll (v : Variables) :
    ∃ r, registerAll v.names {} = .ok r ∧ r.names = v.names ∧
      ∀ name, r.positions[name]? = v.position? name := by
  have hall := @registerAll_of_firstRepeat? {} v.names consistent_empty [] (by simp)
  rw [firstRepeat?_of_nodup v.distinct] at hall
  obtain ⟨r, hr, hconsistent, hnames⟩ := hall
  refine ⟨r, hr, hnames, fun name => Option.ext fun i => ?_⟩
  rw [hconsistent, Variables.position?_eq_some_iff, hnames]
  rfl

end Registry

inductive Contribution (C A M : Type) where
  | mark (mark : Char) (reader : Reader A)
  | fallback (reader : Reader A)
  | effects (reader : Reader (List (Effect M)))
  | slots (ids : List Int)
  | numbers (names : List String) (numbers : C → List Float)
  | defaultRules (text : String)

namespace Contribution

def reader? (mark : Char) : Contribution C A M → Option (Reader A)
  | .mark other reader => if mark = other then some reader else none
  | _ => none

def fallback? : Contribution C A M → Option (Reader A)
  | .fallback reader => some reader
  | _ => none

def effects? : Contribution C A M → Option (Reader (List (Effect M)))
  | .effects reader => some reader
  | _ => none

def names? : Contribution C A M → Option (List String)
  | .numbers names _ => some names
  | _ => none

end Contribution

namespace Setup

def add (s : Setup C A M) : Contribution C A M → Setup C A M
  | .mark mark reader => s.withMark mark reader
  | .fallback reader => s.withFallback reader
  | .effects reader => s.withEffects reader
  | .slots ids => s.withSlots ids
  | .numbers names numbers => s.withNumbers names numbers
  | .defaultRules text => s.withDefaultRules text

def addAll (s : Setup C A M) (contributions : List (Contribution C A M)) : Setup C A M :=
  contributions.foldl add s

variable {s : Setup C A M} {contributions : List (Contribution C A M)}

theorem getLast?_filterMap_cons {α β : Type} {f : α → Option β} {a : α} {rest : List α} :
    ((a :: rest).filterMap f).getLast? = (rest.filterMap f).getLast?.or (f a) := by
  rw [List.filterMap_cons]
  cases f a with
  | none => rw [Option.or_none]
  | some b => cases h : (rest.filterMap f).getLast? <;> simp [List.getLast?_cons, h]

/-- Where each contribution of a kind replaces what was there, the latest one stays. -/
theorem latest {α : Type} {field : Setup C A M → Option α} {pick : Contribution C A M → Option α}
    (hadd : ∀ s c, field (s.add c) = (pick c).or (field s)) :
    field (s.addAll contributions) =
      (contributions.filterMap pick).getLast?.or (field s) := by
  induction contributions generalizing s with
  | nil => rfl
  | cons c rest ih =>
    rw [getLast?_filterMap_cons, Option.or_assoc, ← hadd]
    exact ih

theorem effects_addAll :
    (s.addAll contributions).effects =
      (contributions.filterMap Contribution.effects?).getLast?.or s.effects := by
  apply latest
  intro s c
  cases c <;> rfl

theorem fallback_addAll :
    (s.addAll contributions).fallback =
      (contributions.filterMap Contribution.fallback?).getLast?.or s.fallback := by
  apply latest
  intro s c
  cases c <;> rfl

theorem lookup_addAll (mark : Char) :
    (s.addAll contributions).marks.lookup mark =
      (contributions.filterMap (Contribution.reader? mark)).getLast?.or (s.marks.lookup mark) := by
  refine @latest C A M s contributions _ (fun s => s.marks.lookup mark) _ ?_
  intro s c
  cases c with
  | mark other reader =>
    rw [add, lookup_withMark, Contribution.reader?]
    split <;> rfl
  | _ => rfl

theorem names_addAll :
    some (s.addAll contributions).names =
      (contributions.filterMap Contribution.names?).getLast?.or (some s.names) := by
  refine @latest C A M s contributions _ (fun s => some s.names) _ ?_
  intro s c
  cases c <;> rfl

theorem mem_slots_addAll {slot : Int} :
    slot ∈ (s.addAll contributions).slots.ids ↔
      (∃ ids, .slots ids ∈ contributions ∧ slot ∈ ids) ∨ slot ∈ s.slots.ids := by
  induction contributions generalizing s with
  | nil => simp [addAll]
  | cons c rest ih =>
    have hrest : s.addAll (c :: rest) = (s.add c).addAll rest := rfl
    rw [hrest, ih]
    cases c <;> simp [add, withMark, withFallback, withEffects, withSlots, withNumbers,
      withDefaultRules, Slots.mem_insertAll, or_and_right, exists_or, or_assoc, or_left_comm]

theorem any_marks_iff {mark : Char} :
    s.marks.any (·.1 = mark) ↔ s.marks.lookup mark ≠ none := by
  rw [← Option.isSome_iff_ne_none, List.lookup_isSome_iff, List.any_eq_true]
  simp only [decide_eq_true_eq, beq_iff_eq, eq_comm (a := mark)]

theorem build_eq_ok_iff {e : Engine C A M} :
    s.build = .ok e ↔ ∃ effects declared, s.effects = some effects ∧ s.reserved = [] ∧
      Variables.ofNames s.names = .ok declared ∧ e = { host := { s with effects, declared } } := by
  unfold build
  split
  · rename_i hnone
    simp [hnone]
  · rename_i hreserved
    simp [hreserved]
  · rename_i effects heffects hreserved
    cases hnames : Variables.ofNames s.names with
    | error name => simp
    | ok declared => simp [heffects, hreserved, eq_comm]

theorem build_eq_error_iff {fault : SetupFault} :
    s.build = .error fault ↔
      (s.effects = none ∧ fault = .missingEffects) ∨
      (s.effects ≠ none ∧ ∃ mark rest, s.reserved = mark :: rest ∧ fault = .reservedMark mark) ∨
      (s.effects ≠ none ∧ s.reserved = [] ∧
        ∃ name, Variables.ofNames s.names = .error name ∧ fault = .duplicateNumber name) := by
  unfold build
  split
  · rename_i hnone
    simpa [hnone] using eq_comm
  · rename_i mark rest heffects hreserved
    simp only [heffects, hreserved, reduceCtorEq, false_and, ne_eq, not_false_eq_true, true_and,
      false_or, or_false, Except.error.injEq, List.cons.injEq]
    constructor
    · rintro rfl
      exact ⟨mark, rest, ⟨rfl, rfl⟩, rfl⟩
    · rintro ⟨_, _, ⟨rfl, rfl⟩, rfl⟩
      rfl
  · rename_i effects heffects hreserved
    cases hnames : Variables.ofNames s.names with
    | error name => simp [heffects, hreserved, eq_comm]
    | ok declared => simp [heffects, hreserved]

end Setup

section Contributions

variable (contributions : List (Contribution C A M))

def ReadsEffects : Prop := ∃ reader, .effects reader ∈ contributions

def UsesMark (mark : Char) : Prop := ∃ reader, .mark mark reader ∈ contributions

def numberNames : List String := (contributions.filterMap Contribution.names?).getLast?.getD []

/-- Why contributions make no engine; of several reasons the first one counts. -/
inductive Refused : SetupFault → Prop where
  | missingEffects (h : ¬ ReadsEffects contributions) : Refused .missingEffects
  | reservedMark {before after : List Char} {mark : Char} (heffects : ReadsEffects contributions)
      (horder : reservedMarks = before ++ mark :: after) (hmark : UsesMark contributions mark)
      (hbefore : ∀ other ∈ before, ¬ UsesMark contributions other) : Refused (.reservedMark mark)
  | duplicateNumber {name : String} (heffects : ReadsEffects contributions)
      (hmarks : ∀ mark ∈ reservedMarks, ¬ UsesMark contributions mark)
      (hname : RepeatsFirst (numberNames contributions) name) : Refused (.duplicateNumber name)

/-- What an engine has from the contributions of its host. The names of the numbers and their
positions lead to each other, as they do when the names are registered one by one. -/
structure Furnished (e : Engine C A M) : Prop where
  names : e.host.declared.names = numberNames contributions
  size : e.host.declared.size = (numberNames contributions).length
  position : ∀ name i, e.host.declared.position? name = some i ↔
    (numberNames contributions)[i]? = some name
  registered : ∃ r, Registry.registerAll (numberNames contributions) {} = .ok r ∧
    r.names = numberNames contributions ∧
    ∀ name, r.positions[name]? = e.host.declared.position? name
  marks : ∀ mark, e.host.marks.lookup mark =
    (contributions.filterMap (Contribution.reader? mark)).getLast?
  fallback : e.host.fallback = (contributions.filterMap Contribution.fallback?).getLast?
  effects : some e.host.effects = (contributions.filterMap Contribution.effects?).getLast?
  slots : ∀ slot, slot ∈ e.host.slots.ids ↔ ∃ ids, .slots ids ∈ contributions ∧ slot ∈ ids

variable {contributions} {holds : A → C → Bool} {perform : M → C → C}

theorem getLast?_filterMap_ne_none {α β : Type} {f : α → Option β} {l : List α} :
    (l.filterMap f).getLast? ≠ none ↔ ∃ a ∈ l, f a ≠ none := by
  simp

theorem effects_ne_none_iff :
    (Setup.addAll { holds, perform } contributions).effects ≠ none ↔
      ReadsEffects contributions := by
  rw [Setup.effects_addAll, Option.or_none, getLast?_filterMap_ne_none]
  constructor
  · rintro ⟨c, hmem, hc⟩
    cases c with
    | effects reader => exact ⟨reader, hmem⟩
    | _ => exact absurd rfl hc
  · rintro ⟨reader, hmem⟩
    exact ⟨_, hmem, nofun⟩

theorem any_mark_iff {mark : Char} :
    (Setup.addAll { holds, perform } contributions).marks.any (·.1 = mark) ↔
      UsesMark contributions mark := by
  rw [Setup.any_marks_iff, Setup.lookup_addAll, List.lookup_nil, Option.or_none,
    getLast?_filterMap_ne_none]
  constructor
  · rintro ⟨c, hmem, hc⟩
    cases c with
    | mark other reader =>
      obtain rfl : mark = other := by
        by_contra hne
        exact hc (if_neg hne)
      exact ⟨reader, hmem⟩
    | _ => exact absurd rfl hc
  · rintro ⟨reader, hmem⟩
    exact ⟨_, hmem, by simp [Contribution.reader?]⟩

theorem names_eq :
    (Setup.addAll { holds, perform } contributions).names = numberNames contributions := by
  apply Option.some.inj
  rw [Setup.names_addAll, numberNames]
  cases (contributions.filterMap Contribution.names?).getLast? <;> rfl

theorem reserved_eq_nil_iff :
    (Setup.addAll { holds, perform } contributions).reserved = [] ↔
      ∀ mark ∈ reservedMarks, ¬ UsesMark contributions mark := by
  rw [Setup.reserved, List.filter_eq_nil_iff]
  simp only [any_mark_iff]

theorem reserved_eq_cons_iff {mark : Char} :
    (∃ rest, (Setup.addAll { holds, perform } contributions).reserved = mark :: rest) ↔
      ∃ before after, reservedMarks = before ++ mark :: after ∧ UsesMark contributions mark ∧
        ∀ other ∈ before, ¬ UsesMark contributions other := by
  simp only [Setup.reserved, List.filter_eq_cons_iff, any_mark_iff]
  constructor
  · rintro ⟨rest, before, after, horder, hbefore, hmark, _⟩
    exact ⟨before, after, horder, hmark, hbefore⟩
  · rintro ⟨before, after, horder, hmark, hbefore⟩
    exact ⟨_, before, after, horder, hbefore, hmark, rfl⟩

/-- A setup is refused for just one reason, the first that there is. -/
theorem build_eq_error_iff_refused {fault : SetupFault} :
    (Setup.addAll { holds, perform } contributions).build = .error fault ↔
      Refused contributions fault := by
  rw [Setup.build_eq_error_iff, ← not_ne_iff, effects_ne_none_iff, reserved_eq_nil_iff, names_eq]
  constructor
  · rintro (⟨hnone, rfl⟩ | ⟨heffects, mark, rest, hreserved, rfl⟩ |
      ⟨heffects, hmarks, name, hname, rfl⟩)
    · exact .missingEffects hnone
    · obtain ⟨before, after, horder, hmark, hbefore⟩ := reserved_eq_cons_iff.mp ⟨rest, hreserved⟩
      exact .reservedMark heffects horder hmark hbefore
    · exact .duplicateNumber heffects hmarks (Variables.ofNames_eq_error_iff.mp hname)
  · intro h
    cases h with
    | missingEffects hnone => exact .inl ⟨hnone, rfl⟩
    | reservedMark heffects horder hmark hbefore =>
      obtain ⟨rest, hreserved⟩ := reserved_eq_cons_iff.mpr ⟨_, _, horder, hmark, hbefore⟩
      exact .inr (.inl ⟨heffects, _, rest, hreserved, rfl⟩)
    | duplicateNumber heffects hmarks hname =>
      exact .inr (.inr ⟨heffects, hmarks, _, Variables.ofNames_eq_error_iff.mpr hname, rfl⟩)

theorem exists_build_iff :
    (∃ e, (Setup.addAll { holds, perform } contributions).build = .ok e) ↔
      ReadsEffects contributions ∧ (∀ mark ∈ reservedMarks, ¬ UsesMark contributions mark) ∧
        (numberNames contributions).Nodup := by
  simp only [Setup.build_eq_ok_iff, Variables.ofNames_eq_ok_iff, names_eq, reserved_eq_nil_iff,
    ← @effects_ne_none_iff C A M contributions holds perform, Option.ne_none_iff_exists']
  constructor
  · rintro ⟨e, effects, declared, heffects, hmarks, hnames, -⟩
    exact ⟨⟨effects, heffects⟩, hmarks, hnames ▸ declared.distinct⟩
  · rintro ⟨⟨effects, heffects⟩, hmarks, hnodup⟩
    exact ⟨_, effects, ⟨_, hnodup⟩, heffects, hmarks, rfl, rfl⟩

theorem furnished_of_build {e : Engine C A M}
    (h : (Setup.addAll { holds, perform } contributions).build = .ok e) :
    Furnished contributions e := by
  obtain ⟨effects, declared, heffects, -, hnames, rfl⟩ := Setup.build_eq_ok_iff.mp h
  rw [Variables.ofNames_eq_ok_iff, names_eq] at hnames
  have hregistered := Registry.exists_registerAll declared
  rw [hnames] at hregistered
  refine ⟨hnames, congrArg List.length hnames, ?_, hregistered, ?_, ?_, ?_, ?_⟩
  · intro name i
    rw [← hnames]
    exact Variables.position?_eq_some_iff
  · intro mark
    exact (Setup.lookup_addAll mark).trans Option.or_none
  · exact Setup.fallback_addAll.trans Option.or_none
  · rw [← heffects]
    exact Setup.effects_addAll.trans Option.or_none
  · intro slot
    exact Setup.mem_slots_addAll.trans (by simp)

end Contributions

/-- Contributions make an engine just if effects can be read, no reserved mark is used, and the
names given last are distinct. If not, the first of these that fails is the fault. The engine has
the variables of those names, for every mark the reader given last, and all slots. -/
theorem Setup.build_follows_contributions (holds : A → C → Bool) (perform : M → C → C)
    (contributions : List (Contribution C A M)) :
    let s := Setup.addAll { holds, perform } contributions
    ((∃ e, s.build = .ok e) ↔
      ReadsEffects contributions ∧ (∀ mark ∈ reservedMarks, ¬ UsesMark contributions mark) ∧
        (numberNames contributions).Nodup) ∧
    (∀ fault, s.build = .error fault ↔ Refused contributions fault) ∧
    ∀ e, s.build = .ok e → Furnished contributions e :=
  ⟨exists_build_iff, fun _ => build_eq_error_iff_refused, fun _ => furnished_of_build⟩

/-- A mark gets a second reader, and names that repeat are replaced. -/
def tollContributions : List (Contribution String String String) :=
  [.mark '?' fun _ => .error "closed", .slots [3, 1], .numbers ["cars", "cars"] fun _ => [],
    .effects fun text => .ok [⟨1, text⟩], .mark '?' .ok, .slots [1, 2],
    .numbers ["cars", "lorries"] fun _ => []]

theorem toll_follows_contributions :
    ∃ e : Engine String String String,
      (Setup.addAll { holds := fun text shown => text = shown, perform := fun text _ => text }
        tollContributions).build = .ok e ∧
      Furnished tollContributions e ∧ e.host.slots.ids = [1, 2, 3] ∧
      e.host.declared.position? "lorries" = some 1 ∧
      (e.host.marks.lookup '?').map (· "free") = some (.ok "free") :=
  ⟨_, rfl, (Setup.build_follows_contributions _ _ tollContributions).2.2 _ rfl, rfl, rfl, rfl⟩

end PriorityRules
