import PriorityRules.Proofs.Reading.Denotation

/-! # Where a comparison is cut

A comparison is cut around the first operator in search order that has text on both sides
somewhere, and as far to the right as possible. A body that has no such cut has none of the
characters of the operators between its first and its last one. In UTF-8 no cut falls inside of a
character: wherever the bytes of an operator stand, there stands the operator.
-/

namespace PriorityRules

namespace Text

def bytes (text : List Char) : List UInt8 := text.flatMap String.utf8EncodeChar

@[simp] theorem bytes_nil : bytes [] = [] := rfl

@[simp] theorem bytes_cons (c : Char) (rest : List Char) :
    bytes (c :: rest) = String.utf8EncodeChar c ++ bytes rest := rfl

@[simp] theorem bytes_append (text more : List Char) :
    bytes (text ++ more) = bytes text ++ bytes more := List.flatMap_append

/-- A character is a single byte below 128, or all its bytes are at least 128. -/
theorem utf8EncodeChar_cases (c : Char) :
    (c.toNat < 128 ∧ String.utf8EncodeChar c = [UInt8.ofNat c.toNat]) ∨
      ∀ byte ∈ String.utf8EncodeChar c, 128 ≤ byte.toNat := by
  have hval : c.val.toNat = c.toNat := rfl
  fun_cases String.utf8EncodeChar c with
  | case1 v h => exact .inl ⟨by omega, rfl⟩
  | case2 | case3 | case4 =>
    right
    simp
    omega

theorem utf8EncodeChar_of_ascii {c : Char} (hc : c.toNat < 128) :
    String.utf8EncodeChar c = [UInt8.ofNat c.toNat] := by
  have hval : c.val.toNat = c.toNat := rfl
  fun_cases String.utf8EncodeChar c with
  | case1 => rfl
  | case2 v h | case3 v h | case4 v h => omega

theorem eq_of_ofNat_eq {c d : Char} (hc : c.toNat < 128) (hd : d.toNat < 128)
    (h : UInt8.ofNat c.toNat = UInt8.ofNat d.toNat) : c = d := by
  have hnat := congrArg UInt8.toNat h
  rw [UInt8.toNat_ofNat', UInt8.toNat_ofNat', Nat.mod_eq_of_lt (by omega),
    Nat.mod_eq_of_lt (by omega)] at hnat
  exact Char.toNat_inj.mp hnat

/-- Where the byte of an ASCII character stands, there stands the character. -/
theorem exists_of_bytes_cons {c : Char} (hc : c.toNat < 128) {text : List Char}
    {before after : List UInt8} (h : bytes text = before ++ UInt8.ofNat c.toNat :: after) :
    ∃ left right, text = left ++ c :: right ∧ before = bytes left ∧ after = bytes right := by
  induction text generalizing before with
  | nil => simp at h
  | cons d rest ih =>
    rw [bytes_cons] at h
    rcases List.append_eq_append_iff.mp h with ⟨more, rfl, hrest⟩ | ⟨part, henc, hpart⟩
    · obtain ⟨left, right, rfl, rfl, rfl⟩ := ih hrest
      exact ⟨d :: left, right, rfl, rfl, rfl⟩
    · cases part with
      | nil =>
        have hrest : bytes rest = [] ++ UInt8.ofNat c.toNat :: after := hpart.symm
        obtain ⟨left, right, rfl, hnil, rfl⟩ := ih hrest
        exact ⟨d :: left, right, rfl, by simpa [← hnil] using henc.symm, rfl⟩
      | cons byte part =>
        obtain ⟨rfl, rfl⟩ := List.cons.inj hpart
        rcases utf8EncodeChar_cases d with ⟨hd, hsingle⟩ | hhigh
        · -- the byte is all there is to `d`
          rw [hsingle] at henc
          obtain ⟨rfl, hbyte⟩ : before = [] ∧ _ :: part = _ := by
            cases before with
            | nil => exact ⟨rfl, henc.symm⟩
            | cons _ before => simp at henc
          obtain ⟨heq, rfl⟩ := List.cons.inj hbyte
          exact ⟨[], rest, by rw [eq_of_ofNat_eq hc hd heq]; rfl, rfl, rfl⟩
        · have hlow := hhigh (UInt8.ofNat c.toNat) (henc ▸ by simp)
          rw [UInt8.toNat_ofNat', Nat.mod_eq_of_lt (by omega)] at hlow
          omega

/-- Where the bytes of ASCII characters stand, there stand the characters. -/
theorem exists_of_bytes_append {symbol : List Char} (hsymbol : symbol ≠ [])
    (hascii : ∀ c ∈ symbol, c.toNat < 128) {text : List Char} {before after : List UInt8}
    (h : bytes text = before ++ bytes symbol ++ after) :
    ∃ left right, text = left ++ symbol ++ right ∧ before = bytes left ∧ after = bytes right := by
  induction symbol generalizing text before with
  | nil => exact absurd rfl hsymbol
  | cons c symbol ih =>
    obtain ⟨hc, hrest⟩ := List.forall_mem_cons.mp hascii
    rw [bytes_cons, utf8EncodeChar_of_ascii hc, List.append_assoc] at h
    obtain ⟨left, right, rfl, rfl, hright⟩ := exists_of_bytes_cons hc h
    by_cases hnil : symbol = []
    · subst hnil
      exact ⟨left, right, by simp, rfl, hright⟩
    · have hright : bytes right = [] ++ bytes symbol ++ after := hright.symm
      obtain ⟨between, right, rfl, hbetween, rfl⟩ := ih hnil hrest hright
      have hempty : between = [] := by
        cases between with
        | nil => rfl
        | cons d between => exact absurd hbetween.symm (by simp [String.utf8EncodeChar_ne_nil])
      subst hempty
      exact ⟨left, right, by simp, rfl, rfl⟩

/-- In a text, what stands before and behind the bytes of ASCII characters are texts. -/
theorem toUTF8_eq_append_iff {symbol : List Char} (hsymbol : symbol ≠ [])
    (hascii : ∀ c ∈ symbol, c.toNat < 128) {text : List Char} {before after : ByteArray} :
    (String.ofList text).toUTF8 = before ++ (String.ofList symbol).toUTF8 ++ after ↔
      ∃ left right, text = left ++ symbol ++ right ∧ before = (String.ofList left).toUTF8 ∧
        after = (String.ofList right).toUTF8 := by
  have hbytes : ∀ text : List Char, (String.ofList text).toUTF8 = (bytes text).toByteArray :=
    fun _ => String.toByteArray_ofList
  have hdata : ∀ (b : ByteArray) (text : List Char), b.data.toList = bytes text →
      b = (bytes text).toByteArray := fun b text h => by
    rw [← h]
    exact ByteArray.ext (by simp)
  simp only [hbytes]
  constructor
  · intro h
    have hlist := congrArg (fun b => b.data.toList) h
    simp only [ByteArray.data_append, Array.toList_append, List.data_toByteArray,
      List.toList_toArray] at hlist
    obtain ⟨left, right, rfl, hbefore, hafter⟩ := exists_of_bytes_append hsymbol hascii hlist
    exact ⟨left, right, rfl, hdata before left hbefore, hdata after right hafter⟩
  · rintro ⟨left, right, rfl, rfl, rfl⟩
    simp [ByteArray.append_assoc]

end Text

namespace Comparison

structure Admissible (body symbol left right : List Char) : Prop where
  body_eq : body = left ++ symbol ++ right
  left_ne_nil : left ≠ []
  right_ne_nil : right ≠ []

/-- The operator is the first in search order that has an admissible cut, and the cut is its last
one. -/
structure Chosen (body : List Char) (op : Operator) (left right : List Char) : Prop where
  admissible : Admissible body op.symbol left right
  first : ∃ before after, Operator.searchOrder = before ++ op :: after ∧
    ∀ other ∈ before, ∀ l r, ¬Admissible body other.symbol l r
  last : ∀ l r, Admissible body op.symbol l r → l.length ≤ left.length

variable {body symbol left right : List Char} {op : Operator}

theorem admissible_of_lastCut? (h : lastCut? symbol body = some (left, right)) :
    Admissible body symbol left right := by
  have hsides : left ≠ [] ∧ right ≠ [] := by
    induction body generalizing left right with
    | nil => cases h
    | cons c rest ih =>
      rw [lastCut?] at h
      split at h
      · rename_i later after hlater
        cases h
        exact ⟨List.cons_ne_nil _ _, (ih hlater).2⟩
      · split at h
        · cases h
          exact ⟨List.cons_ne_nil _ _, List.cons_ne_nil _ _⟩
        · cases h
  exact ⟨eq_of_lastCut? h, hsides.1, hsides.2⟩

theorem Admissible.exists_lastCut? (h : Admissible body symbol left right) :
    ∃ l r, lastCut? symbol body = some (l, r) ∧ left.length ≤ l.length := by
  obtain ⟨rfl, hleft, hright⟩ := h
  induction left with
  | nil => exact absurd rfl hleft
  | cons c left ih =>
    rw [List.cons_append, List.cons_append, lastCut?]
    cases hlater : lastCut? symbol (left ++ symbol ++ right) with
    | some sides =>
      obtain ⟨l, r⟩ := sides
      refine ⟨c :: l, r, rfl, ?_⟩
      by_cases hnil : left = []
      · simp [hnil]
      · obtain ⟨l', r', hsame, hle⟩ := ih hnil
        cases hlater.symm.trans hsame
        exact Nat.succ_le_succ hle
    | none =>
      have hnil : left = [] := by
        by_contra hnil
        obtain ⟨l, r, hsome, -⟩ := ih hnil
        cases hlater.symm.trans hsome
      obtain ⟨d, after, rfl⟩ := List.exists_cons_of_ne_nil hright
      have hprefix : symbol.isPrefixOf? (symbol ++ d :: after) = some (d :: after) :=
        List.isPrefixOf?_eq_some_iff_append_eq.mpr rfl
      rw [hnil, List.nil_append, hprefix]
      exact ⟨[c], d :: after, rfl, Nat.le_refl _⟩

theorem lastCut?_eq_none_iff :
    lastCut? symbol body = none ↔ ∀ l r, ¬Admissible body symbol l r := by
  constructor
  · intro hnone l r h
    obtain ⟨_, _, hsome, -⟩ := h.exists_lastCut?
    cases hnone.symm.trans hsome
  · intro h
    cases hcut : lastCut? symbol body with
    | none => rfl
    | some sides => exact absurd (admissible_of_lastCut? hcut) (h _ _)

theorem lastCut?_eq_some_iff :
    lastCut? symbol body = some (left, right) ↔
      Admissible body symbol left right ∧
        ∀ l r, Admissible body symbol l r → l.length ≤ left.length := by
  constructor
  · intro h
    refine ⟨admissible_of_lastCut? h, fun l r hother => ?_⟩
    obtain ⟨_, _, hsame, hle⟩ := hother.exists_lastCut?
    cases h.symm.trans hsame
    exact hle
  · rintro ⟨h, hlast⟩
    obtain ⟨l, r, hcut, hle⟩ := h.exists_lastCut?
    have hother := admissible_of_lastCut? hcut
    have hlength := Nat.le_antisymm hle (hlast l r hother)
    have hsplit := h.body_eq.symm.trans hother.body_eq
    rw [List.append_assoc, List.append_assoc] at hsplit
    obtain ⟨rfl, hrest⟩ := List.append_inj hsplit hlength
    rw [hcut, List.append_cancel_left hrest]

theorem cut?_eq_some_iff : cut? body = some (op, left, right) ↔ Chosen body op left right := by
  rw [cut?, List.findSome?_eq_some_iff]
  simp only [Option.map_eq_some_iff, Option.map_eq_none_iff, lastCut?_eq_none_iff, Prod.mk.injEq]
  constructor
  · rintro ⟨before, other, after, horder, ⟨⟨l, r⟩, hcut, rfl, rfl, rfl⟩, hbefore⟩
    obtain ⟨hadmissible, hlast⟩ := lastCut?_eq_some_iff.mp hcut
    exact ⟨hadmissible, ⟨before, after, horder, hbefore⟩, hlast⟩
  · rintro ⟨hadmissible, ⟨before, after, horder, hbefore⟩, hlast⟩
    have hcut := lastCut?_eq_some_iff.mpr ⟨hadmissible, hlast⟩
    exact ⟨before, op, after, horder, ⟨(left, right), hcut, rfl, rfl⟩, hbefore⟩

theorem cut?_eq_none_iff :
    cut? body = none ↔ ∀ op : Operator, ∀ l r, ¬Admissible body op.symbol l r := by
  rw [cut?, List.findSome?_eq_none_iff]
  simp only [Option.map_eq_none_iff, lastCut?_eq_none_iff]
  exact ⟨fun h op => h op (by cases op <;> decide), fun h op _ => h op⟩

def finals : List Char := ['<', '>', '=']

theorem Operator.exists_final (op : Operator) :
    ∃ c ∈ finals, ∃ before, op.symbol = before ++ [c] ∧ c ∉ before := by
  cases op with
  | atLeast => exact ⟨'=', by decide, ['>'], rfl, by decide⟩
  | atMost => exact ⟨'=', by decide, ['<'], rfl, by decide⟩
  | differs => exact ⟨'=', by decide, ['!'], rfl, by decide⟩
  | above => exact ⟨'>', by decide, [], rfl, List.not_mem_nil⟩
  | below => exact ⟨'<', by decide, [], rfl, List.not_mem_nil⟩
  | equals => exact ⟨'=', by decide, [], rfl, List.not_mem_nil⟩

theorem exists_operator_of_final {c : Char} (h : c ∈ finals) :
    ∃ op : Operator, op.symbol = [c] := by
  simp only [finals, List.mem_cons, List.not_mem_nil, or_false] at h
  rcases h with rfl | rfl | rfl
  · exact ⟨.below, rfl⟩
  · exact ⟨.above, rfl⟩
  · exact ⟨.equals, rfl⟩

/-- The characters between the first and the last one are those with text on both sides. -/
theorem mem_tail_dropLast {c : Char} :
    c ∈ body.tail.dropLast ↔ ∃ l r, Admissible body [c] l r := by
  constructor
  · intro h
    obtain ⟨l, r, hsplit⟩ := List.append_of_mem h
    obtain ⟨first, rest, rfl⟩ : ∃ first rest, body = first :: rest := by
      cases body with
      | nil => cases h
      | cons first rest => exact ⟨first, rest, rfl⟩
    obtain ⟨init, last, rfl⟩ : ∃ init last, rest = init ++ [last] := by
      rcases List.eq_nil_or_concat rest with rfl | hconcat
      · cases h
      · simpa using hconcat
    rw [List.tail_cons, List.dropLast_concat] at hsplit
    subst hsplit
    exact ⟨first :: l, r ++ [last], by simp, by simp, by simp⟩
  · rintro ⟨l, r, rfl, hl, hr⟩
    obtain ⟨first, l, rfl⟩ := List.exists_cons_of_ne_nil hl
    have hsplit : (first :: l ++ [c] ++ r).tail.dropLast = l ++ c :: r.dropLast := by
      simp [List.dropLast_cons_of_ne_nil hr]
    rw [hsplit]
    exact List.mem_append_right _ List.mem_cons_self

/-- There is an admissible cut just where a character of operators stands inside of the body. -/
theorem exists_admissible_iff :
    (∃ (op : Operator) (l r : List Char), Admissible body op.symbol l r) ↔
      ∃ c ∈ finals, c ∈ body.tail.dropLast := by
  constructor
  · rintro ⟨op, l, r, rfl, hl, hr⟩
    obtain ⟨c, hc, before, hsymbol, -⟩ := Operator.exists_final op
    refine ⟨c, hc, mem_tail_dropLast.mpr ⟨l ++ before, r, by simp [hsymbol], by simp [hl], hr⟩⟩
  · rintro ⟨c, hc, hinside⟩
    obtain ⟨op, hop⟩ := exists_operator_of_final hc
    obtain ⟨l, r, h⟩ := mem_tail_dropLast.mp hinside
    exact ⟨op, l, r, hop ▸ h⟩

end Comparison

theorem Variables.position?_eq_some_iff {v : Variables} {name : String} {position : Nat} :
    v.position? name = some position ↔ v.names[position]? = some name := by
  rw [position?, List.idxOf?_eq_some_iff]
  constructor
  · rintro ⟨hlt, hname, _⟩
    rw [List.getElem?_eq_getElem hlt, hname]
  · intro h
    obtain ⟨hlt, hname⟩ := List.getElem?_eq_some_iff.mp h
    refine ⟨hlt, hname, fun j hj hsame => ?_⟩
    have := (List.Nodup.getElem_inj_iff v.distinct).mp (hsame.trans hname.symm)
    omega

theorem Variables.position?_eq_none_iff {v : Variables} {name : String} :
    v.position? name = none ↔ name ∉ v.names :=
  List.idxOf?_eq_none_iff

namespace Comparison

variable {declared : Variables} {body left right : List Char} {op : Operator}

theorem ofBody_of_chosen (h : Chosen body op left right) :
    (String.ofList left ∉ declared.names →
        ofBody declared body = .error (.unknownVariable (String.ofList left))) ∧
      ∀ position, declared.names[position]? = some (String.ofList left) →
        (Decimal.read? right = none →
          ofBody declared body = .error (.invalidNumber (String.ofList right))) ∧
        ∀ constant, Decimal.read? right = some constant →
          ofBody declared body = .ok ⟨position, op, constant⟩ := by
  have hcut := cut?_eq_some_iff.mpr h
  refine ⟨fun hname => ?_, fun position hposition =>
    ⟨fun hnumber => ?_, fun constant hnumber => ?_⟩⟩
  · simp [ofBody, hcut, Variables.position?_eq_none_iff.mpr hname]
  · simp [ofBody, hcut, Variables.position?_eq_some_iff.mpr hposition, hnumber]
  · simp [ofBody, hcut, Variables.position?_eq_some_iff.mpr hposition, hnumber]

theorem ofBody_eq_noOperator_iff {text : String} :
    ofBody declared body = .error (.noOperator text) ↔
      text = String.ofList body ∧ cut? body = none := by
  rw [ofBody]
  cases hcut : cut? body with
  | none => simp [eq_comm]
  | some found =>
    obtain ⟨op, left, right⟩ := found
    dsimp only
    split
    · simp
    · split <;> simp

/-- A body is cut as its operators demand, and is judged by its two sides. It lacks an operator
just when no character of an operator stands between its first and its last one, and otherwise
there is a cut. In UTF-8, whatever stands before and behind the bytes of an operator is a text. -/
theorem ofBody_follows_cuts (declared : Variables) (body : List Char) :
    Operator.searchOrder.map Operator.render = [">=", "<=", "!=", ">", "<", "="] ∧
    (∀ op left right, Chosen body op left right →
      (String.ofList left ∉ declared.names →
        ofBody declared body = .error (.unknownVariable (String.ofList left))) ∧
      ∀ position, declared.names[position]? = some (String.ofList left) →
        (Decimal.read? right = none →
          ofBody declared body = .error (.invalidNumber (String.ofList right))) ∧
        ∀ constant, Decimal.read? right = some constant →
          ofBody declared body = .ok ⟨position, op, constant⟩) ∧
    ((∃ op left right, Chosen body op left right) ↔
      ∃ c ∈ ['<', '>', '='], c ∈ body.tail.dropLast) ∧
    (∀ text, ofBody declared body = .error (.noOperator text) ↔
      text = String.ofList body ∧ ∀ c ∈ ['<', '>', '='], c ∉ body.tail.dropLast) ∧
    ∀ (op : Operator) (before after : ByteArray),
      (String.ofList body).toUTF8 = before ++ op.render.toUTF8 ++ after ↔
        ∃ left right, body = left ++ op.symbol ++ right ∧
          before = (String.ofList left).toUTF8 ∧ after = (String.ofList right).toUTF8 := by
  have hchosen : (∃ op left right, Chosen body op left right) ↔ cut? body ≠ none := by
    simp only [← cut?_eq_some_iff, Option.ne_none_iff_exists', Prod.exists]
  have hinside : cut? body ≠ none ↔ ∃ c ∈ ['<', '>', '='], c ∈ body.tail.dropLast := by
    rw [Ne, cut?_eq_none_iff, ← finals, ← exists_admissible_iff]
    simp only [not_forall, not_not]
  refine ⟨by decide, fun op left right => ofBody_of_chosen, hchosen.trans hinside, fun text => ?_,
    fun op before after => ?_⟩
  · have hnone : cut? body = none ↔ ∀ c ∈ ['<', '>', '='], c ∉ body.tail.dropLast := by
      rw [← not_not (a := cut? body = none), ← Ne, hinside]
      simp only [not_exists, not_and]
    rw [ofBody_eq_noOperator_iff, hnone]
  · apply Text.toUTF8_eq_append_iff
    · cases op <;> exact List.cons_ne_nil _ _
    · cases op <;> simp [Operator.symbol]

/-- The operator that comes first in search order is taken, even out of a name or a number. -/
theorem ofBody_cuts_in_search_order :
    let declared : Variables := ⟨["it", "a>b"], by decide⟩
    Chosen "it>1=2".toList .above "it".toList "1=2".toList ∧
      ofBody declared "it>1=2".toList = .error (.invalidNumber "1=2") ∧
      Chosen "a>b=2".toList .above "a".toList "b=2".toList ∧
      ofBody declared "a>b=2".toList = .error (.unknownVariable "a") ∧
      Chosen "a>b>=2.5".toList .atLeast "a>b".toList "2.5".toList ∧
      ofBody declared "a>b>=2.5".toList = .ok ⟨1, .atLeast, 2.5⟩ := by
  intro declared
  have hnumber : Chosen "it>1=2".toList .above "it".toList "1=2".toList :=
    cut?_eq_some_iff.mp (by decide)
  have hname : Chosen "a>b=2".toList .above "a".toList "b=2".toList :=
    cut?_eq_some_iff.mp (by decide)
  have hwhole : Chosen "a>b>=2.5".toList .atLeast "a>b".toList "2.5".toList :=
    cut?_eq_some_iff.mp (by decide)
  obtain ⟨-, hsides, -⟩ := ofBody_follows_cuts declared "it>1=2".toList
  obtain ⟨-, hothers, -⟩ := ofBody_follows_cuts declared "a>b=2".toList
  obtain ⟨-, haccepts, -⟩ := ofBody_follows_cuts declared "a>b>=2.5".toList
  exact ⟨hnumber, ((hsides _ _ _ hnumber).2 0 rfl).1 (by decide), hname,
    (hothers _ _ _ hname).1 (by decide), hwhole,
    ((haccepts _ _ _ hwhole).2 1 rfl).2 2.5 (by decide)⟩

end Comparison

end PriorityRules
