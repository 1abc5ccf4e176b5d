/-
  TraceFold.Proofs.Number.FixedPlaces

  What is written for a number with a fixed number of decimal places.  The number is counted
  in units of the last place, rounded to the nearest count, and of two equally near ones to
  the even one (`Rounds`).  The count is then written with the point before the last places
  (`Written`): at least one digit stands in front of the point, no zero in front of another
  digit there, and as many digits behind it as there are places.

  The rounding is done with natural numbers alone (`roundDiv`); here it is told with rational
  ones, of which every finite double is one (`unitsOf_eq_iff`, `fixed_finite`).
-/

import Mathlib.Algebra.Order.Field.Basic
import Mathlib.Tactic.Linarith
import Mathlib.Tactic.Positivity
import Mathlib.Tactic.Ring
import TraceFold.Number.FixedPlaces

namespace TraceFold

/-! ## Digits -/

namespace Text

/-- Only zero is written with a zero in front. -/
theorem head?_digits_ne_zero {n : Nat} (hn : 0 < n) : (digits n).head? ≠ some '0' := by
  have hdigit : ∀ d < 10, 0 < d → d.digitChar ≠ '0' := by decide
  induction n using Nat.strongRecOn with
  | _ n ih =>
    rw [digits, Nat.toDigits_eq_if (by decide)]
    split
    · rename_i hlt
      simpa using hdigit n hlt hn
    · rename_i hge
      have hfront := ih (n / 10) (by omega) (by omega)
      obtain ⟨c, cs, hdigits⟩ := List.exists_cons_of_ne_nil (digits_ne_nil (n / 10))
      rw [hdigits] at hfront
      rw [digits] at hdigits
      rwa [hdigits]

theorem digits_zero : digits 0 = ['0'] := Nat.toDigits_zero 10

theorem value_digits (n : Nat) : Nat.ofDigitChars 10 (digits n) 0 = n :=
  Nat.ofDigitChars_ten_toDigits

end Text

namespace Number

/-- How a number with decimal places is written: the digits in front of the point, and those
    behind it. -/
structure Written (places n : Nat) (whole fraction : List Char) : Prop where
  placed_eq : placed places n = whole ++ if places = 0 then [] else '.' :: fraction
  isDigit : ∀ c ∈ whole ++ fraction, c.isDigit
  whole_ne_nil : whole ≠ []
  /-- A zero in front stands alone. -/
  lead : whole.head? = some '0' → whole.length = 1
  length_fraction : fraction.length = places
  value : Nat.ofDigitChars 10 (whole ++ fraction) 0 = n

theorem isDigit_of_mem_paddedDigits {length n : Nat} {c : Char} (hc : c ∈ paddedDigits length n) :
    c.isDigit := by
  rcases List.mem_append.1 hc with hc | hc
  · rw [List.eq_of_mem_replicate hc]
    decide
  · exact Text.isDigit_of_mem_digits hc

theorem value_paddedDigits (length n : Nat) :
    Nat.ofDigitChars 10 (paddedDigits length n) 0 = n := by
  rw [paddedDigits, Nat.ofDigitChars_append, Nat.ofDigitChars_replicate_zero, Nat.mul_zero,
    Text.value_digits]

theorem exists_written (places n : Nat) : ∃ whole fraction, Written places n whole fraction := by
  by_cases hplaces : places = 0
  · subst hplaces
    refine ⟨Text.digits n, [], ?_⟩
    exact {
      placed_eq := by simp [placed]
      isDigit := fun c hc => Text.isDigit_of_mem_digits (by simpa using hc)
      whole_ne_nil := Text.digits_ne_nil n
      lead := fun hzero => by
        by_cases hn : 0 < n
        · exact absurd hzero (Text.head?_digits_ne_zero hn)
        · obtain rfl : n = 0 := by omega
          rw [Text.digits_zero, List.length_singleton]
      length_fraction := rfl
      value := by rw [List.append_nil, Text.value_digits] }
  · have hlong : places + 1 ≤ (paddedDigits (places + 1) n).length := by
      simp only [paddedDigits, List.length_append, List.length_replicate]
      omega
    generalize hcut : (paddedDigits (places + 1) n).length - places = cut
    have happend := List.take_append_drop cut (paddedDigits (places + 1) n)
    refine ⟨(paddedDigits (places + 1) n).take cut, (paddedDigits (places + 1) n).drop cut, ?_⟩
    exact {
      placed_eq := by simp only [placed, hplaces, if_false, hcut]
      isDigit := fun c hc => isDigit_of_mem_paddedDigits (happend ▸ hc)
      whole_ne_nil := by
        rw [← List.length_pos_iff, List.length_take]
        omega
      lead := fun hzero => by
        rw [List.head?_take, if_neg (by omega)] at hzero
        by_cases hshort : (Text.digits n).length ≤ places
        · -- the number is filled up with zeros, one of them before the point
          rw [List.length_take]
          simp only [paddedDigits, List.length_append, List.length_replicate] at hcut ⊢
          omega
        · -- the number begins with its own first digit
          have hfill : places + 1 - (Text.digits n).length = 0 := by omega
          rw [paddedDigits, hfill, List.replicate_zero, List.nil_append] at hzero
          by_cases hn : 0 < n
          · exact absurd hzero (Text.head?_digits_ne_zero hn)
          · obtain rfl : n = 0 := by omega
            rw [Text.digits_zero, List.length_singleton] at hshort
            omega
      length_fraction := by
        rw [List.length_drop]
        omega
      value := by rw [happend, value_paddedDigits] }

/-! ## Rounding -/

/-- A natural number is a rational one rounded: none is nearer, and if another one is as near,
    this one is even. -/
structure Rounds (x : ℚ) (n : ℕ) : Prop where
  near : |x - n| ≤ 1 / 2
  even : |x - n| = 1 / 2 → Even n

theorem rounds_self (n : ℕ) : Rounds n n where
  near := by norm_num
  even := by norm_num

/-- Nothing else is a number rounded: of two neighbours that are equally near, only one is
    even. -/
theorem Rounds.unique {x : ℚ} {n m : ℕ} (hn : Rounds x n) (hm : Rounds x m) : n = m := by
  -- the smaller one first
  wlog hlt : n ≤ m generalizing n m with hswap
  · exact (hswap hm hn (by omega)).symm
  obtain ⟨hlow, hhigh⟩ := abs_le.1 hn.near
  obtain ⟨hlow', hhigh'⟩ := abs_le.1 hm.near
  by_contra hne
  have hnext : m = n + 1 := by
    have hclose : (m : ℚ) ≤ n + 1 := by linarith
    have hclose : m ≤ n + 1 := by exact_mod_cast hclose
    omega
  subst hnext
  push_cast at hlow' hhigh'
  -- the number is halfway between them, so both would have to be even
  have hhalf : x - n = 1 / 2 := by linarith
  have heven : Even n := hn.even (by rw [hhalf]; norm_num)
  have heven' : Even (n + 1) := by
    refine hm.even ?_
    have hback : x - ((n + 1 : ℕ) : ℚ) = -(1 / 2) := by
      push_cast
      linarith
    rw [hback]
    norm_num
  rw [Nat.even_add_one] at heven'
  exact heven' heven

/-- Less than a half above a natural number is rounded down. -/
theorem rounds_add_of_lt (q : ℕ) {t : ℚ} (hpos : 0 ≤ t) (hlt : t < 1 / 2) :
    Rounds (q + t) q := by
  have hdist : |(q : ℚ) + t - q| = t := by rw [add_sub_cancel_left, abs_of_nonneg hpos]
  refine ⟨?_, fun htie => ?_⟩
  · rw [hdist]
    linarith
  · rw [hdist] at htie
    linarith

/-- More than a half above a natural number is rounded up. -/
theorem rounds_add_of_gt (q : ℕ) {t : ℚ} (hgt : 1 / 2 < t) (hle : t ≤ 1) :
    Rounds (q + t) (q + 1 : ℕ) := by
  have hdist : |(q : ℚ) + t - (q + 1 : ℕ)| = 1 - t := by
    push_cast
    rw [abs_sub_comm, abs_of_nonneg (by linarith)]
    ring
  refine ⟨?_, fun htie => ?_⟩
  · rw [hdist]
    linarith
  · rw [hdist] at htie
    linarith

/-- A half above a natural number is rounded to the even neighbour. -/
theorem rounds_add_half (q : ℕ) : Rounds (q + 1 / 2) (if q % 2 = 0 then q else q + 1) := by
  split
  · rename_i heven
    refine ⟨?_, fun _ => Nat.even_iff.2 heven⟩
    rw [add_sub_cancel_left]
    norm_num
  · rename_i hodd
    refine ⟨?_, fun _ => Nat.even_add_one.2 (mt Nat.even_iff.1 hodd)⟩
    have hdist : (q : ℚ) + 1 / 2 - (q + 1 : ℕ) = -(1 / 2) := by
      push_cast
      ring
    rw [hdist]
    norm_num

/-- The quotient of two natural numbers, rounded. -/
theorem rounds_roundDiv (num : ℕ) {den : ℕ} (hden : 0 < den) :
    Rounds ((num : ℚ) / den) (roundDiv num den) := by
  have hpos : (0 : ℚ) < den := by exact_mod_cast hden
  have hlt : num % den < den := Nat.mod_lt num hden
  -- the quotient is a natural number and the remainder's part of the divisor
  have hsplit : (num : ℚ) / den = (num / den : ℕ) + (num % den : ℕ) / (den : ℚ) := by
    have hnum : (num : ℚ) = den * (num / den : ℕ) + (num % den : ℕ) := by
      exact_mod_cast (Nat.div_add_mod num den).symm
    rw [← mul_right_inj' hpos.ne', mul_add, mul_div_cancel₀ _ hpos.ne',
      mul_div_cancel₀ _ hpos.ne', ← hnum]
  have hnonneg : (0 : ℚ) ≤ (num % den : ℕ) / (den : ℚ) := by positivity
  rw [hsplit]
  simp only [roundDiv]
  split
  · rename_i hlow
    refine rounds_add_of_lt _ hnonneg ?_
    have hlow : (2 : ℚ) * (num % den : ℕ) < den := by exact_mod_cast hlow
    rw [div_lt_iff₀ hpos]
    linarith
  · split
    · rename_i hhigh
      refine rounds_add_of_gt _ ?_ ?_
      · have hhigh : (den : ℚ) < 2 * (num % den : ℕ) := by exact_mod_cast hhigh
        rw [lt_div_iff₀ hpos]
        linarith
      · have hle : ((num % den : ℕ) : ℚ) ≤ den := by exact_mod_cast hlt.le
        exact (div_le_one hpos).2 hle
    · rename_i hlow hhigh
      have htie : 2 * (num % den) = den := by omega
      have hhalf : ((num % den : ℕ) : ℚ) / den = 1 / 2 := by
        have htie : (2 : ℚ) * (num % den : ℕ) = den := by exact_mod_cast htie
        rw [div_eq_iff hpos.ne']
        linarith
      rw [hhalf]
      exact rounds_add_half _

/-! ## Doubles -/

/-- The number of units of the last place is the number rounded, and nothing else. -/
theorem unitsOf_eq_iff {places significand n : ℕ} {power : ℤ} :
    unitsOf places significand power = n ↔
      Rounds ((significand : ℚ) * 2 ^ power * 10 ^ places) n := by
  have hunits : Rounds ((significand : ℚ) * 2 ^ power * 10 ^ places)
      (unitsOf places significand power) := by
    unfold unitsOf
    split
    · rename_i hpower
      -- nothing is rounded
      obtain ⟨k, rfl⟩ := Int.eq_ofNat_of_zero_le hpower
      have hexact : (significand : ℚ) * (2 : ℚ) ^ (k : ℤ) * (10 : ℚ) ^ places
          = ((significand <<< k * Nat.pow 10 places : ℕ) : ℚ) := by
        rw [Nat.shiftLeft_eq, Nat.pow_eq]
        push_cast
        rw [zpow_natCast]
      rw [hexact, Int.toNat_natCast]
      exact rounds_self _
    · rename_i hpower
      obtain ⟨k, rfl⟩ : ∃ k : ℕ, power = -k := ⟨(-power).toNat, by omega⟩
      have hquotient : (significand : ℚ) * (2 : ℚ) ^ (-(k : ℤ)) * (10 : ℚ) ^ places
          = ((significand * Nat.pow 10 places : ℕ) : ℚ) / ((1 <<< k : ℕ) : ℚ) := by
        rw [Nat.shiftLeft_eq, Nat.one_mul, Nat.pow_eq]
        push_cast
        rw [zpow_neg, zpow_natCast]
        ring
      rw [hquotient, neg_neg, Int.toNat_natCast]
      refine rounds_roundDiv _ ?_
      rw [Nat.shiftLeft_eq, Nat.one_mul]
      exact Nat.two_pow_pos k
  constructor
  · rintro rfl
    exact hunits
  · exact hunits.unique

/-- A finite double is written with its sign, also if it is zero, and then the digits of its
    amount rounded to the places. -/
theorem Binary64.fixed_finite (places : ℕ) (negative : Bool) (significand : ℕ) (power : ℤ) :
    ∃ n whole fraction, Rounds ((significand : ℚ) * 2 ^ power * 10 ^ places) n ∧
      Written places n whole fraction ∧
      (Binary64.finite negative significand power).fixed places
        = (if negative then ['-'] else []) ++ whole
          ++ if places = 0 then [] else '.' :: fraction := by
  obtain ⟨whole, fraction, hwritten⟩ := exists_written places (unitsOf places significand power)
  refine ⟨_, whole, fraction, unitsOf_eq_iff.1 rfl, hwritten, ?_⟩
  rw [fixed, hwritten.placed_eq, List.append_assoc]

end Number

end TraceFold
