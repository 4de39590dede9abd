import Mathlib.Algebra.Group.Nat.Defs
import Mathlib.Data.List.TakeWhile
import MarkdownDirectives.Engine.Evaluation

/-!
# Whole numbers in binary64

Every whole number below `2 ^ 53` is a binary64 number, so a position that is written as a number
literal and becomes a binary64 number still selects that position.
-/

namespace MarkdownDirectives

namespace Binary64

theorem roundRatio_mul {den : Nat} (k : Nat) (h : 0 < den) : roundRatio (k * den) den = k := by
  have hq : k * den / den = k := Nat.mul_div_cancel k h
  have hr : k * den % den = 0 := Nat.mul_mod_left k den
  simp only [roundRatio, hq, hr, Nat.mul_zero, h, if_true]

theorem bitLength_mul_pow {n : Nat} (hn : n ≠ 0) (e : Nat) :
    bitLength (n * 2 ^ e) = n.log2 + e + 1 := by
  have hne : n * 2 ^ e ≠ 0 := Nat.mul_ne_zero hn (Nat.ne_of_gt (Nat.two_pow_pos e))
  obtain ⟨hlow, hhigh⟩ := (Nat.log2_eq_iff hn).mp rfl
  have hlog : (n * 2 ^ e).log2 = n.log2 + e := by
    refine (Nat.log2_eq_iff hne).mpr ⟨?_, ?_⟩
    · rw [Nat.pow_add]
      exact Nat.mul_le_mul_right _ hlow
    · rw [Nat.add_right_comm, Nat.pow_add]
      exact Nat.mul_lt_mul_of_pos_right hhigh (Nat.two_pow_pos e)
  rw [bitLength, if_neg hne, hlog]

/-- A number of at most 53 bits is taken over without rounding. -/
theorem ofUnitRatio_whole {n e : Nat} (hn : n ≠ 0) (h : n < 2 ^ 53) (hlow : 52 ≤ e)
    (hhigh : e ≤ 1993) :
    ofUnitRatio false (n * 2 ^ e) 1 =
      some ⟨false, n * 2 ^ (52 - n.log2), n.log2 + (e - 52)⟩ := by
  have hlog : n.log2 < 53 := (Nat.log2_lt hn).mpr h
  have hscale : bitLength (n * 2 ^ e / 1) - 53 = n.log2 + (e - 52) := by
    rw [Nat.div_one, bitLength_mul_pow hn]
    omega
  have hunits : n * 2 ^ e = n * 2 ^ (52 - n.log2) * 2 ^ (n.log2 + (e - 52)) := by
    rw [Nat.mul_assoc, ← Nat.pow_add]
    congr 2
    omega
  have hround : roundRatio (n * 2 ^ e) (1 * Nat.pow 2 (n.log2 + (e - 52))) =
      n * 2 ^ (52 - n.log2) := by
    rw [Nat.one_mul, hunits]
    exact roundRatio_mul _ (Nat.two_pow_pos _)
  have hbits : n * 2 ^ (52 - n.log2) < 2 ^ 53 := by
    have hexp : (2 : Nat) ^ 53 = 2 ^ (n.log2 + 1) * 2 ^ (52 - n.log2) := by
      rw [← Nat.pow_add]
      congr 1
      omega
    rw [hexp]
    exact Nat.mul_lt_mul_of_pos_right Nat.lt_log2_self (Nat.two_pow_pos _)
  have hne : ¬ n * 2 ^ (52 - n.log2) = Nat.pow 2 53 := Nat.ne_of_lt hbits
  have hfinite : ¬ 2045 < n.log2 + (e - 52) := by omega
  simp only [ofUnitRatio, hscale, hround, hne, if_false, hfinite]

theorem ofRatio_zero : ofRatio false 0 1 = some ⟨false, 0, 0⟩ := by
  rw [ofRatio, Nat.zero_mul]
  rfl

/-- The exponent is named, so that nothing computes the power. -/
theorem exists_one_eq : ∃ e, one = Nat.pow 2 e ∧ 52 ≤ e ∧ e ≤ 1993 := by
  refine ⟨1074, ?_, by omega, by omega⟩
  unfold one
  rfl

/-- The number is positive, and its units are those of the whole number. -/
theorem ofRatio_whole {n : Nat} (h : n < 2 ^ 53) :
    ∃ x, ofRatio false n 1 = some x ∧ x.negative = false ∧ x.units = n * one := by
  by_cases hn : n = 0
  · subst hn
    refine ⟨⟨false, 0, 0⟩, ofRatio_zero, rfl, ?_⟩
    rw [units, Nat.zero_mul, Nat.zero_mul]
  · obtain ⟨e, hone, hlow, hhigh⟩ := exists_one_eq
    have hlog : n.log2 < 53 := (Nat.log2_lt hn).mpr h
    refine ⟨⟨false, n * 2 ^ (52 - n.log2), n.log2 + (e - 52)⟩, ?_, rfl, ?_⟩
    · rw [ofRatio, hone, Nat.pow_eq, ofUnitRatio_whole hn h hlow hhigh]
    · have hexponent : 52 - n.log2 + (n.log2 + (e - 52)) = e := by omega
      rw [units, hone, Nat.pow_eq, Nat.pow_eq, Nat.mul_assoc, ← Nat.pow_add, hexponent]

theorem ofRatio_ofInt {n : Nat} (h : n < 2 ^ 53) : ofRatio false n 1 = some (ofInt n) := by
  obtain ⟨x, hx, -, -⟩ := ofRatio_whole h
  have hi : ofInt n = (ofRatio false n 1).getD zero := rfl
  rw [hi, hx]
  rfl

theorem wholePart_ofInt {n : Nat} (h : n < 2 ^ 53) :
    (ofInt n).negative = false ∧ (ofInt n).isWhole = true ∧ (ofInt n).wholePart = n := by
  obtain ⟨x, hx, hsign, hunits⟩ := ofRatio_whole h
  rw [ofRatio_ofInt h] at hx
  cases hx
  have hone : 0 < one := by
    obtain ⟨e, he, -, -⟩ := exists_one_eq
    rw [he]
    exact Nat.two_pow_pos e
  refine ⟨hsign, ?_, ?_⟩
  · rw [isWhole, hunits, Nat.mul_mod_left]
    rfl
  · rw [wholePart, hunits, Nat.mul_div_cancel n hone]

end Binary64

/-- A computed position selects what the position selects. -/
theorem Value.toSegment_ofInt {n : Nat} (h : n < 2 ^ 53) :
    (Value.ofFloat (.ofInt n)).toSegment = .index n := by
  obtain ⟨hsign, hwhole, hpart⟩ := Binary64.wholePart_ofInt h
  have hmin : min n (Nat.pow 2 64 - 1) = n := Nat.min_eq_left (by
    have hp : Nat.pow 2 64 = 18446744073709551616 := rfl
    omega)
  simp only [Value.ofFloat, toSegment, Number.toBinary64, hsign, hwhole, hpart, hmin,
    Bool.not_false, Bool.true_or, Bool.and_self, if_true]

/-- The digits of a position are the literal of its number. -/
theorem Token.numberOf_ofNat {n : Nat} (h : n < 2 ^ 53) :
    Token.numberOf (Text.ofNat n) = some (.ofInt n) := by
  have hdigits : (Text.ofNat n).takeWhile Char.isDigit = Text.ofNat n :=
    List.takeWhile_eq_self_iff.mpr fun c hc => Text.isDigit_of_mem_ofNat hc
  have hvalue := Text.digitsValue_ofNat n
  have hread : Token.numberOf (Text.ofNat n) = Decimal.toBinary64 false ⟨n, 0⟩ := by
    have hnone : Text.digitsValue [] = 0 := rfl
    simp only [numberOf, hdigits, List.drop_length, fractionLength, List.drop_nil, Nat.zero_sub,
      List.take_zero, List.append_nil, Nat.add_zero, List.length_nil, hvalue, hnone]
    rfl
  rw [hread, Decimal.toBinary64]
  by_cases hn : n = 0
  · subst hn
    rw [← Binary64.ofRatio_ofInt h, Binary64.ofRatio_zero]
    rfl
  · have hcount : Decimal.digitCount n ≤ 16 :=
      (Nat.length_toDigits_le_iff (by decide) (by decide)).mpr (by omega)
    have hhigh : ¬ (310 : Int) < Decimal.digitCount n + (0 : Int) := by omega
    have hlow : ¬ Decimal.digitCount n + (0 : Int) < -330 := by omega
    simp only [hn, hhigh, hlow, if_false]
    have hunit : n * Nat.pow 10 0 = n := Nat.mul_one n
    change Binary64.ofRatio false (n * Nat.pow 10 0) 1 = _
    rw [hunit, Binary64.ofRatio_ofInt h]

end MarkdownDirectives
