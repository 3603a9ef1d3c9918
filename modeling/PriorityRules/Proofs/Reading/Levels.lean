import PriorityRules.Proofs.Reading.Grammar

/-! # Levels and their numerals

A level is written as its decimal numeral, and a positive one may have a plus sign in front. No
other token is a level. Printing a number of 32 bits and reading it back is therefore exact, and no
token is at once a level and a comment or a tag name.
-/

namespace PriorityRules

namespace Text

theorem le_ofDigitChars (digits : List Char) (start : Nat) :
    start ≤ Nat.ofDigitChars 10 digits start := by
  rw [Nat.ofDigitChars_eq_ofDigitChars_zero]
  have := Nat.le_mul_of_pos_left start (Nat.pow_pos (n := digits.length) (by decide : 0 < 10))
  omega

/-- A magnitude is read exactly when all characters are digits and its value is within the limit. -/
theorem readMagnitude_eq_ok_iff {limit start m : Nat} {passed : NumeralFault} {digits : List Char}
    (hstart : start ≤ limit) :
    readMagnitude limit passed start digits = .ok m ↔
      (∀ c ∈ digits, c.isDigit) ∧ Nat.ofDigitChars 10 digits start = m ∧ m ≤ limit := by
  induction digits generalizing start with
  | nil =>
    rw [readMagnitude, Nat.ofDigitChars_nil]
    simp
    omega
  | cons c digits ih =>
    rw [readMagnitude, digitValue?, Nat.ofDigitChars_cons, List.forall_mem_cons]
    by_cases hdigit : c.isDigit
    · simp only [hdigit, if_true, true_and]
      by_cases hwithin : 10 * start + (c.toNat - '0'.toNat) ≤ limit
      · rw [if_pos hwithin]
        exact ih hwithin
      · -- what has passed the limit stays beyond it
        have := le_ofDigitChars digits (10 * start + (c.toNat - '0'.toNat))
        rw [if_neg hwithin]
        simp only [reduceCtorEq, false_iff]
        rintro ⟨_, rfl, hlimit⟩
        omega
    · simp [hdigit]

theorem digitChar_of_isDigit {c : Char} (h : c.isDigit) :
    c.toNat - '0'.toNat < 10 ∧ Nat.digitChar (c.toNat - '0'.toNat) = c := by
  have hrange : 48 ≤ c.toNat ∧ c.toNat ≤ 57 := by
    simpa [Char.isDigit, UInt32.le_iff_toNat_le] using h
  have hvalue : c.toNat - '0'.toNat < 10 := by
    simp
    omega
  refine ⟨hvalue, Char.toNat_inj.mp ?_⟩
  rw [Nat.toNat_digitChar_of_lt_ten hvalue]
  simp
  omega

/-- Digits behind those of a positive number make the numeral of what they read as. -/
theorem toDigits_ofDigitChars {start : Nat} {digits : List Char} (hstart : 0 < start)
    (h : ∀ c ∈ digits, c.isDigit) :
    Nat.toDigits 10 (Nat.ofDigitChars 10 digits start) = Nat.toDigits 10 start ++ digits := by
  induction digits generalizing start with
  | nil => rw [Nat.ofDigitChars_nil, List.append_nil]
  | cons c digits ih =>
    obtain ⟨hc, hdigits⟩ := List.forall_mem_cons.mp h
    obtain ⟨hvalue, hchar⟩ := digitChar_of_isDigit hc
    rw [Nat.ofDigitChars_cons, ih (by omega) hdigits,
      ← Nat.toDigits_append_toDigits (by decide) hstart hvalue, Nat.toDigits_of_lt_base hvalue,
      hchar, List.append_assoc, List.singleton_append]

theorem eq_zero_of_head?_toDigits {n : Nat} (h : (Nat.toDigits 10 n).head? = some '0') : n = 0 := by
  induction n using Nat.base_induction 10 (by decide) with
  | single n hn => simpa [Nat.toDigits_of_lt_base hn] using h
  | digit n k hk hn ih =>
    rw [← Nat.toDigits_append_toDigits (by decide) hn hk,
      List.head?_append_of_ne_nil _ Nat.toDigits_ne_nil] at h
    exact absurd (ih h) (by omega)

theorem not_mem_toDigits {c : Char} {n : Nat} (h : c.isDigit = false) : c ∉ Nat.toDigits 10 n :=
  fun hmem => Bool.false_ne_true
    (h.symm.trans (Nat.isDigit_of_mem_toDigits (by decide) (by decide) hmem))

/-- Without a zero in front, characters are read as the number whose numeral they are. -/
theorem readMagnitude_eq_ok_iff_toDigits {limit m : Nat} {passed : NumeralFault} {c : Char}
    {rest : List Char} (hzero : c ≠ '0') :
    readMagnitude limit passed 0 (c :: rest) = .ok m ↔
      0 < m ∧ m ≤ limit ∧ c :: rest = Nat.toDigits 10 m := by
  rw [readMagnitude_eq_ok_iff (Nat.zero_le _)]
  constructor
  · rintro ⟨hdigits, rfl, hlimit⟩
    obtain ⟨hc, hrest⟩ := List.forall_mem_cons.mp hdigits
    obtain ⟨hvalue, hchar⟩ := digitChar_of_isDigit hc
    have hpositive : 0 < c.toNat - '0'.toNat := by
      rw [Nat.pos_iff_ne_zero]
      intro hnone
      rw [hnone] at hchar
      exact hzero hchar.symm
    rw [Nat.ofDigitChars_cons, Nat.mul_zero, Nat.zero_add] at hlimit ⊢
    refine ⟨Nat.lt_of_lt_of_le hpositive (le_ofDigitChars _ _), hlimit, ?_⟩
    rw [toDigits_ofDigitChars hpositive hrest, Nat.toDigits_of_lt_base hvalue, hchar,
      List.singleton_append]
  · rintro ⟨_, hlimit, hnumeral⟩
    rw [hnumeral]
    exact ⟨fun c hc => Nat.isDigit_of_mem_toDigits (by decide) (by decide) hc,
      Nat.ofDigitChars_ten_toDigits, hlimit⟩

end Text

namespace Token

/-- The decimal numeral of a number: digits without a zero in front, after a minus sign if the
number is negative. -/
def numeral (n : Int) : Token := (toString n).toList

theorem numeral_of_nonneg {n : Int} (h : 0 ≤ n) : numeral n = Nat.toDigits 10 n.toNat := by
  simp [numeral, Int.repr_eq_if, h]

theorem numeral_of_neg {n : Int} (h : n < 0) : numeral n = '-' :: Nat.toDigits 10 (-n).toNat := by
  simp [numeral, Int.repr_eq_if, Int.not_le.mpr h]

/-- Only the numeral of a negative number begins with a minus sign. -/
theorem eq_numeral_of_minus {n : Int} {digits : Token} :
    '-' :: digits = numeral n ↔ n < 0 ∧ digits = Nat.toDigits 10 (-n).toNat := by
  by_cases h : n < 0
  · simp [numeral_of_neg h, h]
  · rw [numeral_of_nonneg (Int.not_lt.mp h)]
    simp only [h, false_and, iff_false]
    exact fun heq => Text.not_mem_toDigits rfl (heq ▸ List.mem_cons_self)

theorem eq_numeral_of_ne_minus {n : Int} {c : Char} {rest : Token} (hc : c ≠ '-') :
    c :: rest = numeral n ↔ 0 ≤ n ∧ c :: rest = Nat.toDigits 10 n.toNat := by
  by_cases h : n < 0
  · simp [numeral_of_neg h, hc, Int.not_le.mpr h]
  · simp [numeral_of_nonneg (Int.not_lt.mp h), Int.not_lt.mp h]

def IsLevel (n : Int) : Prop := -2147483648 ≤ n ∧ n ≤ 2147483647

variable {c : Char} {rest token : Token} {n : Int}

/-- Without a zero in front, characters are read as a number with the given sign exactly if they are
the numeral of its magnitude. -/
theorem readMagnitude_eq_some_iff {limit : Nat} {passed : Text.NumeralFault} {sign : Int → Int}
    (hzero : c ≠ '0') :
    ((Nat.cast <$> Text.readMagnitude limit passed 0 (c :: rest)).map sign).toOption = some n ↔
      ∃ m : Nat, 0 < m ∧ m ≤ limit ∧ c :: rest = Nat.toDigits 10 m ∧ sign m = n := by
  rw [toOption_eq_some, map_eq_ok]
  constructor
  · rintro ⟨value, hvalue, rfl⟩
    obtain ⟨m, hm, rfl⟩ := map_eq_ok.mp hvalue
    obtain ⟨hpositive, hlimit, hdigits⟩ := (Text.readMagnitude_eq_ok_iff_toDigits hzero).mp hm
    exact ⟨m, hpositive, hlimit, hdigits, rfl⟩
  · rintro ⟨m, hpositive, hlimit, hdigits, rfl⟩
    have hm : Text.readMagnitude limit passed 0 (c :: rest) = .ok m :=
      (Text.readMagnitude_eq_ok_iff_toDigits hzero).mpr ⟨hpositive, hlimit, hdigits⟩
    exact ⟨m, map_eq_ok.mpr ⟨m, hm, rfl⟩, rfl⟩

theorem readMagnitude_eq_positive_iff (hzero : c ≠ '0') :
    ((Nat.cast <$> Text.readMagnitude 2147483647 .tooLarge 0 (c :: rest)).map
        fun m : Int => m).toOption = some n ↔
      0 < n ∧ IsLevel n ∧ c :: rest = Nat.toDigits 10 n.toNat := by
  rw [readMagnitude_eq_some_iff hzero]
  constructor
  · rintro ⟨m, hpositive, hlimit, hdigits, rfl⟩
    exact ⟨by omega, ⟨by omega, by omega⟩, hdigits⟩
  · rintro ⟨hpositive, ⟨_, hlimit⟩, hdigits⟩
    exact ⟨n.toNat, by omega, by omega, hdigits, by omega⟩

/-- A zero is a level by itself only. -/
theorem level?_of_zero : level? ('0' :: rest) = some n ↔ n = 0 ∧ rest = [] := by
  cases rest with
  | nil => simp [level?, eq_comm]
  | cons c rest => simp [level?]

/-- A numeral has no zero in front, unless it is that of zero. -/
theorem cons_zero_eq_toDigits {m : Nat} :
    '0' :: rest = Nat.toDigits 10 m ↔ m = 0 ∧ rest = [] := by
  constructor
  · intro h
    obtain rfl : m = 0 := Text.eq_zero_of_head?_toDigits (h ▸ rfl)
    rw [Nat.toDigits_zero] at h
    exact ⟨rfl, (List.cons.inj h).2⟩
  · rintro ⟨rfl, rfl⟩
    rw [Nat.toDigits_zero]

theorem numeral_ne_nil : numeral n ≠ [] := by
  by_cases h : n < 0
  · rw [numeral_of_neg h]
    exact List.cons_ne_nil _ _
  · rw [numeral_of_nonneg (Int.not_lt.mp h)]
    exact Nat.toDigits_ne_nil

theorem cons_plus_ne_numeral : '+' :: rest ≠ numeral n := by
  intro h
  obtain ⟨_, hdigits⟩ := (eq_numeral_of_ne_minus (by decide)).mp h
  exact Text.not_mem_toDigits rfl (hdigits ▸ List.mem_cons_self)

theorem level?_plus_iff :
    level? ('+' :: rest) = some n ↔ 0 < n ∧ IsLevel n ∧ rest = Nat.toDigits 10 n.toNat := by
  cases rest with
  | nil => simp [level?, Text.readSigned, Except.toOption, Nat.toDigits_ne_nil.symm]
  | cons c rest =>
    by_cases hzero : c = '0'
    · subst hzero
      simp only [level?, cons_zero_eq_toDigits]
      simp
      omega
    · rw [← readMagnitude_eq_positive_iff hzero]
      simp [level?, Text.readSigned, Text.halfRange, hzero]

theorem level?_minus_iff :
    level? ('-' :: rest) = some n ↔ n < 0 ∧ IsLevel n ∧ rest = Nat.toDigits 10 (-n).toNat := by
  cases rest with
  | nil => simp [level?, Text.readSigned, Except.toOption, Nat.toDigits_ne_nil.symm]
  | cons c rest =>
    by_cases hzero : c = '0'
    · subst hzero
      simp only [level?, cons_zero_eq_toDigits]
      simp
      omega
    · have hread : level? ('-' :: c :: rest) =
          ((Nat.cast <$> Text.readMagnitude 2147483648 .tooSmall 0 (c :: rest)).map
            fun m : Int => -m).toOption := by
        simp [level?, Text.readSigned, Text.halfRange, hzero]
      rw [hread, readMagnitude_eq_some_iff hzero]
      constructor
      · rintro ⟨m, hpositive, hlimit, hdigits, rfl⟩
        exact ⟨by omega, ⟨by omega, by omega⟩, by simpa using hdigits⟩
      · rintro ⟨hnegative, ⟨hlimit, _⟩, hdigits⟩
        exact ⟨(-n).toNat, by omega, by omega, hdigits, by omega⟩

theorem level?_cons_iff (hplus : c ≠ '+') (hminus : c ≠ '-') :
    level? (c :: rest) = some n ↔ IsLevel n ∧ c :: rest = numeral n := by
  rw [eq_numeral_of_ne_minus hminus]
  by_cases hzero : c = '0'
  · subst hzero
    rw [level?_of_zero, cons_zero_eq_toDigits]
    constructor
    · rintro ⟨rfl, rfl⟩
      exact ⟨⟨by decide, by decide⟩, by decide, rfl, rfl⟩
    · rintro ⟨_, hnonneg, hnone, rfl⟩
      exact ⟨by omega, rfl⟩
  · have hread : level? (c :: rest) = some n ↔
        0 < n ∧ IsLevel n ∧ c :: rest = Nat.toDigits 10 n.toNat := by
      rw [← readMagnitude_eq_positive_iff hzero]
      simp [level?, Text.readSigned, Text.halfRange, hzero, hplus, hminus]
    rw [hread]
    constructor
    · rintro ⟨hpositive, hlevel, hdigits⟩
      exact ⟨hlevel, by omega, hdigits⟩
    · rintro ⟨hlevel, hnonneg, hdigits⟩
      refine ⟨?_, hlevel, hdigits⟩
      rcases Int.lt_or_eq_of_le hnonneg with hpositive | rfl
      · exact hpositive
      · exact absurd (List.cons.inj hdigits).1 hzero

/-- A token is a level exactly if it is the numeral of that level, or of a positive one behind a
plus sign. -/
theorem level?_eq_some_iff :
    level? token = some n ↔
      IsLevel n ∧ (token = numeral n ∨ 0 < n ∧ token = '+' :: numeral n) := by
  cases token with
  | nil => simp [level?, Text.readSigned, Except.toOption, numeral_ne_nil.symm]
  | cons c rest =>
    by_cases hplus : c = '+'
    · subst hplus
      rw [level?_plus_iff]
      constructor
      · rintro ⟨hpositive, hlevel, rfl⟩
        exact ⟨hlevel, .inr ⟨hpositive, by rw [numeral_of_nonneg (by omega)]⟩⟩
      · rintro ⟨hlevel, heq | ⟨hpositive, heq⟩⟩
        · exact absurd heq cons_plus_ne_numeral
        · rw [numeral_of_nonneg (by omega)] at heq
          exact ⟨hpositive, hlevel, (List.cons.inj heq).2⟩
    · have hother : c :: rest ≠ '+' :: numeral n := fun heq => hplus (List.cons.inj heq).1
      simp only [hother, and_false, or_false]
      by_cases hminus : c = '-'
      · subst hminus
        rw [level?_minus_iff, eq_numeral_of_minus]
        rw [← and_assoc, ← and_assoc, and_comm (a := n < 0)]
      · exact level?_cons_iff hplus hminus

/-- A token is a level exactly if it is the numeral of a number of 32 bits or, behind a plus sign,
of a positive one, and then it is that number; so the numbers that are read back from their
numerals are just those. No token is of two kinds. -/
theorem levels_are_numerals :
    (∀ token n, level? token = some n ↔
      IsLevel n ∧ (token = numeral n ∨ 0 < n ∧ token = '+' :: numeral n)) ∧
    (∀ n, level? (numeral n) = some n ↔ IsLevel n) ∧
    ∀ token : Token, [token.isComment, token.level?.isSome, token.isTagName].count true ≤ 1 := by
  refine ⟨fun _ _ => level?_eq_some_iff, fun n => ?_, fun token => ?_⟩
  · rw [level?_eq_some_iff]
    simp
  · cases hlevel : token.level? with
    | some n =>
      have hname : token.isTagName = false := by
        rw [Bool.eq_false_iff]
        intro hname
        rw [level?_of_isTagName hname] at hlevel
        cases hlevel
      simp [isComment_eq_false_of_level hlevel, hname]
    | none =>
      cases hname : token.isTagName with
      | true => simp [isComment_eq_false_of_isTagName hname]
      | false => cases token.isComment <;> decide

end Token

end PriorityRules
