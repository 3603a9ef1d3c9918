import PriorityRules.Decimal.Literal
import PriorityRules.Proofs.Reading.Cuts
import PriorityRules.Token

/-! # The characters of number literals

A number literal is made of ASCII letters and digits, signs and points. None of them separates
tokens, closes a comparison or belongs to an operator.
-/

namespace PriorityRules.Decimal

def isLiteralChar (c : Char) : Bool := c.isAlphanum || c = '+' || c = '-' || c = '.'

variable {c : Char} {text : List Char} {x : Float}

theorem isLiteralChar_of_isAlphanum (h : c.isAlphanum) : isLiteralChar c := by
  simp [isLiteralChar, h]

theorem isLiteralChar_of_isDigit (h : c.isDigit) : isLiteralChar c :=
  isLiteralChar_of_isAlphanum (by simp [Char.isAlphanum, h])

theorem toNat_lt_of_isLiteralChar (h : isLiteralChar c) : c.toNat < 128 := by
  simp only [isLiteralChar, Bool.or_eq_true, decide_eq_true_eq] at h
  rcases h with ((halphanum | rfl) | rfl) | rfl
  · simp only [Char.isAlphanum, Char.isAlpha, Char.isUpper, Char.isLower, Char.isDigit,
      Bool.or_eq_true, Bool.and_eq_true, decide_eq_true_eq, UInt32.le_iff_toNat_le,
      ge_iff_le] at halphanum
    have hcode : c.toNat = c.val.toNat := rfl
    have hlast : 'z'.val.toNat = 122 ∧ 'Z'.val.toNat = 90 ∧ '9'.val.toNat = 57 := ⟨rfl, rfl, rfl⟩
    omega
  all_goals decide

/-- Going through the ASCII characters one by one is enough. -/
theorem isLiteralChar_elsewhere (h : isLiteralChar c) :
    Token.isWordChar c ∧ c ∉ Comparison.finals ∧ c ≠ ')' := by
  have hall : ∀ code < 128, isLiteralChar (Char.ofNat code) →
      Token.isWordChar (Char.ofNat code) ∧ Char.ofNat code ∉ Comparison.finals ∧
        Char.ofNat code ≠ ')' := by
    decide +kernel
  have hc := hall c.toNat (toNat_lt_of_isLiteralChar h)
  rw [Char.ofNat_toNat] at hc
  exact hc h

/-- What the lower case of a text spells in letters, the text spells in letters. -/
theorem isLiteralChar_of_map_toLower {word : List Char} (hword : word.all Char.isAlpha)
    (h : text.map Char.toLower = word) : ∀ c ∈ text, isLiteralChar c := by
  intro c hc
  have hlower : c.toLower.isAlpha :=
    List.all_eq_true.mp hword _ (h ▸ List.mem_map_of_mem hc)
  rw [Char.isAlpha_toLower_eq_isAlpha] at hlower
  exact isLiteralChar_of_isAlphanum (by simp [Char.isAlphanum, hlower])

theorem literalChars_of_unsigned? {n : Int} (h : exponentValue?.unsigned? text = some n) :
    ∀ c ∈ text, isLiteralChar c := by
  unfold exponentValue?.unsigned? at h
  split at h
  · rename_i hdigits
    obtain ⟨-, hall⟩ := Bool.and_eq_true_iff.mp hdigits
    exact fun c hc => isLiteralChar_of_isDigit (List.all_eq_true.mp hall c hc)
  · cases h

theorem literalChars_of_exponentValue? {n : Int} (h : exponentValue? text = some n) :
    ∀ c ∈ text, isLiteralChar c := by
  unfold exponentValue? at h
  split at h
  · exact List.forall_mem_cons.mpr ⟨by decide, literalChars_of_unsigned? h⟩
  · obtain ⟨_, hdigits, -⟩ := Option.map_eq_some_iff.mp h
    exact List.forall_mem_cons.mpr ⟨by decide, literalChars_of_unsigned? hdigits⟩
  · exact literalChars_of_unsigned? h

theorem literalChars_of_exponentPart? {n : Int} (h : exponentPart? text = some n) :
    ∀ c ∈ text, isLiteralChar c := by
  unfold exponentPart? at h
  split at h
  · exact List.forall_mem_nil _
  · exact List.forall_mem_cons.mpr ⟨by decide, literalChars_of_exponentValue? h⟩
  · exact List.forall_mem_cons.mpr ⟨by decide, literalChars_of_exponentValue? h⟩
  · cases h

theorem literalChars_of_digits : ∀ c ∈ text.takeWhile Char.isDigit, isLiteralChar c :=
  fun _ hc => isLiteralChar_of_isDigit (List.mem_takeWhile_imp hc)

/-- A text is a literal of these characters if what follows its fraction is. -/
theorem literalChars_of_fractionPart (h : ∀ c ∈ (fractionPart text).2, isLiteralChar c) :
    ∀ c ∈ text, isLiteralChar c := by
  unfold fractionPart at h
  split at h
  · rename_i rest
    refine List.forall_mem_cons.mpr ⟨by decide, ?_⟩
    rw [← List.takeWhile_append_dropWhile (p := Char.isDigit) (l := rest)]
    exact List.forall_mem_append.mpr ⟨literalChars_of_digits, h⟩
  · exact h

theorem literalChars_of_readUnsigned? (h : readUnsigned? text = some x) :
    ∀ c ∈ text, isLiteralChar c := by
  unfold readUnsigned? at h
  dsimp only at h
  split at h
  · rename_i hinfinity
    simp only [Bool.or_eq_true, decide_eq_true_eq] at hinfinity
    rcases hinfinity with hinf | hinfinity
    · exact isLiteralChar_of_map_toLower (by rfl) hinf
    · exact isLiteralChar_of_map_toLower (by rfl) hinfinity
  · split at h
    · rename_i hnan
      exact isLiteralChar_of_map_toLower (by rfl) hnan
    · split at h
      · cases h
      · obtain ⟨_, hexponent, -⟩ := Option.map_eq_some_iff.mp h
        rw [← List.takeWhile_append_dropWhile (p := Char.isDigit) (l := text)]
        refine List.forall_mem_append.mpr ⟨literalChars_of_digits, ?_⟩
        exact literalChars_of_fractionPart (literalChars_of_exponentPart? hexponent)

/-- A text that is read as a number is not empty and consists of literal characters. -/
theorem literalChars_of_read? (h : read? text = some x) :
    text ≠ [] ∧ ∀ c ∈ text, isLiteralChar c := by
  constructor
  · rintro rfl
    cases h
  · unfold read? at h
    split at h
    · exact List.forall_mem_cons.mpr ⟨by decide, literalChars_of_readUnsigned? h⟩
    · obtain ⟨_, hunsigned, -⟩ := Option.map_eq_some_iff.mp h
      exact List.forall_mem_cons.mpr ⟨by decide, literalChars_of_readUnsigned? hunsigned⟩
    · exact literalChars_of_readUnsigned? h

end PriorityRules.Decimal
