import Mathlib.Algebra.Order.Field.Power
import Mathlib.Data.Nat.Log
import Mathlib.Tactic.Linarith
import Mathlib.Tactic.FieldSimp
import Mathlib.Tactic.NormNum
import Mathlib.Tactic.Positivity
import Mathlib.Tactic.Ring
import PageBlocks.Number.Binary64

/-!
# What a quotient is rounded to

A value stands for all reals around it that no other value is nearer to. Its
interval reaches half a unit to both sides, or a quarter of a unit down from a
power of two, below which the values lie closer together; a tie belongs to the
even significand.

> `Binary64.Rounds.unique`: no real is in the intervals of two values.
>
> `Binary64.ofRatio?_of_rounds`: a quotient is rounded to the value whose
> interval it is in.
-/

namespace PageBlocks.Binary64

/-- The significand is as large as the exponent allows, which is as small as there is need for. -/
structure Normal (x : Binary64) : Prop where
  significand_lt : x.significand < 2 ^ 53
  least_le : minExponent ≤ x.exponent
  full : 2 ^ 52 ≤ x.significand ∨ x.exponent = minExponent

/-- The values of the format. -/
structure Canonical (x : Binary64) : Prop extends Normal x where
  le_most : x.exponent ≤ maxExponent

instance (x : Binary64) : Decidable x.Canonical :=
  decidable_of_iff (x.significand < 2 ^ 53 ∧ minExponent ≤ x.exponent ∧
      (2 ^ 52 ≤ x.significand ∨ x.exponent = minExponent) ∧ x.exponent ≤ maxExponent)
    ⟨fun h => ⟨⟨h.1, h.2.1, h.2.2.1⟩, h.2.2.2⟩,
      fun h => ⟨h.significand_lt, h.least_le, h.full, h.le_most⟩⟩

theorem ext {x y : Binary64} (hnegative : x.negative = y.negative)
    (hsignificand : x.significand = y.significand) (hexponent : x.exponent = y.exponent) :
    x = y := by
  cases x
  cases y
  congr

/-! ## Intervals -/

/-- A quarter of the unit of the significand. -/
def quarter (x : Binary64) : ℚ := 2 ^ (x.exponent - 2)

/-- How many quarters below the value its interval begins. -/
def lowGap (x : Binary64) : Nat :=
  if x.significand = Nat.pow 2 52 ∧ minExponent < x.exponent then 1 else 2

def lowEnd (x : Binary64) : ℚ := (4 * x.significand - x.lowGap) * x.quarter

def highEnd (x : Binary64) : ℚ := (4 * x.significand + 2) * x.quarter

/-- A magnitude is in the interval of a value. -/
structure Rounds (x : Binary64) (q : ℚ) : Prop where
  low : x.lowEnd ≤ q
  high : q ≤ x.highEnd
  inner : x.significand % 2 = 1 → x.lowEnd < q ∧ q < x.highEnd

theorem quarter_pos (x : Binary64) : 0 < x.quarter := zpow_pos (by norm_num) _

theorem lowGap_le (x : Binary64) : x.lowGap ≤ 2 := by
  unfold lowGap
  split <;> decide

/-- Above the smallest values an interval begins no lower than that of a power of two. -/
theorem Normal.lowEnd_ge {x : Binary64} (hx : x.Normal) (h : minExponent < x.exponent) :
    (2 ^ 54 - 1) * x.quarter ≤ x.lowEnd := by
  have hfull : 2 ^ 52 ≤ x.significand := hx.full.resolve_right (by omega)
  refine mul_le_mul_of_nonneg_right ?_ x.quarter_pos.le
  have hnat : 2 ^ 54 ≤ 4 * x.significand - x.lowGap + 1 ∧ x.lowGap ≤ 4 * x.significand := by
    unfold lowGap
    rw [show Nat.pow 2 52 = 2 ^ 52 from rfl]
    split <;> omega
  have hle : (2 ^ 54 : ℚ) ≤ (4 * x.significand - x.lowGap : ℕ) + 1 := by
    exact_mod_cast hnat.1
  rw [Nat.cast_sub hnat.2] at hle
  push_cast at hle
  linarith

/-- The interval of a smaller value ends where that of a larger one begins, or before; where they
meet, one of the two significands is odd. -/
theorem Normal.highEnd_le {x y : Binary64} (hx : x.Normal) (hy : y.Normal)
    (h : x.exponent < y.exponent ∨ x.exponent = y.exponent ∧ x.significand < y.significand) :
    x.highEnd ≤ y.lowEnd ∧
      (x.significand % 2 = 1 ∨ y.significand % 2 = 1 ∨ x.highEnd < y.lowEnd) := by
  have hpos := x.quarter_pos
  rcases h with hlt | ⟨heq, hlt⟩
  · -- The larger unit is at least twice the smaller one.
    have hquarter : 2 * x.quarter ≤ y.quarter := by
      unfold quarter
      rw [← zpow_one_add₀ (by norm_num)]
      exact zpow_le_zpow_right₀ (by norm_num) (by omega)
    have hlow := hy.lowEnd_ge (lt_of_le_of_lt hx.least_le hlt)
    have hmid : (2 ^ 55 - 2) * x.quarter ≤ y.lowEnd := by nlinarith
    have hbelow : ∀ bound : ℕ, x.significand ≤ bound →
        x.highEnd ≤ (4 * bound + 2) * x.quarter := by
      intro bound hbound
      refine mul_le_mul_of_nonneg_right ?_ hpos.le
      have : (x.significand : ℚ) ≤ bound := by exact_mod_cast hbound
      linarith
    have hlimit := hx.significand_lt
    have hall := hbelow (2 ^ 53 - 1) (by omega)
    norm_num at hall hmid
    refine ⟨by linarith, ?_⟩
    by_cases hlast : x.significand = 2 ^ 53 - 1
    · exact Or.inl (by omega)
    · have hrest := hbelow (2 ^ 53 - 2) (by omega)
      norm_num at hrest
      exact Or.inr (Or.inr (by linarith))
  · have hquarter : y.quarter = x.quarter := by rw [quarter, quarter, heq]
    have hgap : (y.lowGap : ℚ) ≤ 2 := by exact_mod_cast y.lowGap_le
    have hstep : (x.significand : ℚ) + 1 ≤ y.significand := by exact_mod_cast hlt
    unfold highEnd lowEnd
    rw [hquarter]
    refine ⟨mul_le_mul_of_nonneg_right (by linarith) hpos.le, ?_⟩
    by_cases hnext : y.significand = x.significand + 1
    · rcases Nat.mod_two_eq_zero_or_one x.significand with heven | hodd
      · exact Or.inr (Or.inl (by omega))
      · exact Or.inl hodd
    · have hfar : (x.significand : ℚ) + 2 ≤ y.significand := by
        exact_mod_cast (show x.significand + 2 ≤ y.significand by omega)
      exact Or.inr (Or.inr (mul_lt_mul_of_pos_right (by linarith) hpos))

/-- A magnitude is not in the intervals of a smaller and of a larger value. -/
theorem Rounds.not_lt {x y : Binary64} {q : ℚ} (hx : x.Normal) (hy : y.Normal)
    (hxq : x.Rounds q) (hyq : y.Rounds q) :
    ¬(x.exponent < y.exponent ∨ x.exponent = y.exponent ∧ x.significand < y.significand) := by
  intro h
  obtain ⟨hle, hodd | hodd | hlt⟩ := hx.highEnd_le hy h
  · exact absurd (hxq.inner hodd).2 (hle.trans hyq.low).not_gt
  · exact absurd (hyq.inner hodd).1 (hxq.high.trans hle).not_gt
  · exact absurd (hyq.low.trans hxq.high) hlt.not_ge

/-- No magnitude is in the intervals of two values. -/
theorem Rounds.unique {x y : Binary64} {q : ℚ} (hx : x.Normal) (hy : y.Normal)
    (hxq : x.Rounds q) (hyq : y.Rounds q) :
    x.significand = y.significand ∧ x.exponent = y.exponent := by
  have hbelow := Rounds.not_lt hx hy hxq hyq
  have habove := Rounds.not_lt hy hx hyq hxq
  omega

/-! ## Rounding -/

/-- The quotient is rounded to the nearest integer, to an odd one only if there is no tie. -/
theorem roundDiv_near (num : Nat) {den : Nat} (hden : 0 < den) :
    2 * (roundDiv num den * den) ≤ 2 * num + den ∧ 2 * num ≤ 2 * (roundDiv num den * den) + den ∧
      (roundDiv num den % 2 = 1 → 2 * (roundDiv num den * den) < 2 * num + den ∧
        2 * num < 2 * (roundDiv num den * den) + den) := by
  have hsplit : num / den * den + num % den = num := by
    rw [Nat.mul_comm]
    exact Nat.div_add_mod num den
  have hmod := Nat.mod_lt num hden
  unfold roundDiv
  dsimp only
  split
  next => omega
  next =>
    split
    next => rw [Nat.add_mul, Nat.one_mul]; omega
    next =>
      split
      next => omega
      next => rw [Nat.add_mul, Nat.one_mul]; omega

theorem roundDiv_spec (num : Nat) {den : Nat} (hden : 0 < den) :
    (roundDiv num den : ℚ) - 1 / 2 ≤ num / den ∧ (num : ℚ) / den ≤ roundDiv num den + 1 / 2 ∧
      (roundDiv num den % 2 = 1 → (roundDiv num den : ℚ) - 1 / 2 < num / den ∧
        (num : ℚ) / den < roundDiv num den + 1 / 2) := by
  have hpos : (0 : ℚ) < den := by exact_mod_cast hden
  obtain ⟨hlow, hhigh, hodd⟩ := roundDiv_near num hden
  rw [le_div_iff₀ hpos, div_le_iff₀ hpos, lt_div_iff₀ hpos, div_lt_iff₀ hpos]
  generalize roundDiv num den = r at hlow hhigh hodd ⊢
  have hlow' : (2 * (r * den) : ℚ) ≤ 2 * num + den := by exact_mod_cast hlow
  have hhigh' : (2 * num : ℚ) ≤ 2 * (r * den) + den := by exact_mod_cast hhigh
  refine ⟨by linarith, by linarith, fun h => ?_⟩
  obtain ⟨hlow, hhigh⟩ := hodd h
  have hlow' : (2 * (r * den) : ℚ) < 2 * num + den := by exact_mod_cast hlow
  have hhigh' : (2 * num : ℚ) < 2 * (r * den) + den := by exact_mod_cast hhigh
  exact ⟨by linarith, by linarith⟩

theorem scaledRatio_spec (num : Nat) {den : Nat} (hden : 0 < den) (shift : Int) :
    0 < (scaledRatio num den shift).2 ∧
      ((scaledRatio num den shift).1 : ℚ) / (scaledRatio num den shift).2 =
        num / den / 2 ^ shift := by
  have hpow : ∀ n : Nat, Nat.pow 2 n = 2 ^ n := fun _ => rfl
  unfold scaledRatio
  split
  next h =>
    obtain ⟨n, rfl⟩ := Int.eq_ofNat_of_zero_le h
    refine ⟨Nat.mul_pos hden (Nat.pow_pos (by decide)), ?_⟩
    simp only [Int.toNat_natCast, hpow]
    push_cast
    rw [zpow_natCast, div_div]
  next h =>
    obtain ⟨n, hn⟩ := Int.eq_ofNat_of_zero_le (show 0 ≤ -shift by omega)
    refine ⟨hden, ?_⟩
    rw [show shift = -(n : ℤ) by omega]
    simp only [neg_neg, Int.toNat_natCast, hpow]
    push_cast
    rw [zpow_neg, zpow_natCast, div_inv_eq_mul, mul_div_right_comm]

/-- A quotient lies between the powers of two around those of its parts. -/
theorem log2_bounds {num den : Nat} (hnum : 0 < num) (hden : 0 < den) :
    (2 : ℚ) ^ ((Nat.log2 num : ℤ) - Nat.log2 den - 1) < num / den ∧
      (num : ℚ) / den < 2 ^ ((Nat.log2 num : ℤ) - Nat.log2 den + 1) := by
  have hbounds : ∀ {n : Nat}, 0 < n → (2 : ℚ) ^ (Nat.log2 n : ℤ) ≤ n ∧
      (n : ℚ) < 2 ^ ((Nat.log2 n : ℤ) + 1) := by
    intro n hn
    have hle := Nat.log2_self_le (Nat.ne_of_gt hn)
    have hlt := @Nat.lt_log2_self n
    exact ⟨by rw [zpow_natCast]; exact_mod_cast hle,
      by rw [← Nat.cast_succ, zpow_natCast]; exact_mod_cast hlt⟩
  obtain ⟨hnumLow, hnumHigh⟩ := hbounds hnum
  obtain ⟨hdenLow, hdenHigh⟩ := hbounds hden
  have hpos : (0 : ℚ) < den := by exact_mod_cast hden
  have htwo : (2 : ℚ) ≠ 0 := by norm_num
  constructor
  · rw [lt_div_iff₀ hpos]
    calc (2 : ℚ) ^ ((Nat.log2 num : ℤ) - Nat.log2 den - 1) * den
        < 2 ^ ((Nat.log2 num : ℤ) - Nat.log2 den - 1) * 2 ^ ((Nat.log2 den : ℤ) + 1) :=
          mul_lt_mul_of_pos_left hdenHigh (zpow_pos (by norm_num) _)
      _ = 2 ^ (Nat.log2 num : ℤ) := by rw [← zpow_add₀ htwo]; congr 1; ring
      _ ≤ num := hnumLow
  · rw [div_lt_iff₀ hpos]
    calc (num : ℚ) < 2 ^ ((Nat.log2 num : ℤ) + 1) := hnumHigh
      _ = 2 ^ ((Nat.log2 num : ℤ) - Nat.log2 den + 1) * 2 ^ (Nat.log2 den : ℤ) := by
          rw [← zpow_add₀ htwo]; congr 1; ring
      _ ≤ 2 ^ ((Nat.log2 num : ℤ) - Nat.log2 den + 1) * den :=
          mul_le_mul_of_nonneg_left hdenLow (zpow_pos (by norm_num) _).le

/-- The exponent at which a quotient has its significand. -/
def exponentOf (num den : Nat) : Int :=
  let guess := max minExponent ((Nat.log2 num : Int) - Nat.log2 den - 53)
  let (n, d) := scaledRatio num den guess
  if n / d < significandLimit then guess else guess + 1

/-- A significand that rounding has brought to the limit is halved. -/
def carry (negative : Bool) (significand : Nat) (exponent : Int) : Binary64 :=
  if significand < significandLimit then ⟨negative, significand, exponent⟩
  else ⟨negative, significand / 2, exponent + 1⟩

/-- The value a quotient is rounded to, were there no largest one. -/
def nearest (negative : Bool) (num den : Nat) : Binary64 :=
  let (n, d) := scaledRatio num den (exponentOf num den)
  carry negative (roundDiv n d) (exponentOf num den)

theorem ofRatio?_eq_nearest (negative : Bool) {num den : Nat} (hnum : 0 < num) (hden : 0 < den) :
    ofRatio? negative num den =
      if (nearest negative num den).exponent ≤ maxExponent then some (nearest negative num den)
      else none := by
  unfold ofRatio?
  rw [if_neg (by omega)]
  unfold nearest carry exponentOf
  dsimp only
  split <;> split <;> rfl

theorem exponentOf_spec {num den : Nat} (hnum : 0 < num) (hden : 0 < den) :
    minExponent ≤ exponentOf num den ∧ (num : ℚ) / den / 2 ^ exponentOf num den < 2 ^ 53 ∧
      (2 ^ 52 ≤ (num : ℚ) / den / 2 ^ exponentOf num den ∨
        exponentOf num den = minExponent) := by
  obtain ⟨hlow, hhigh⟩ := log2_bounds hnum hden
  have hpos : ∀ e : Int, (0 : ℚ) < 2 ^ e := fun e => zpow_pos (by norm_num) e
  have hscale : ∀ (e : Int) (n : Nat), (2 : ℚ) ^ (n : ℤ) * 2 ^ e = 2 ^ (e + n) := fun e n => by
    rw [← zpow_add₀ (by norm_num), add_comm]
  unfold exponentOf
  dsimp only
  generalize hguess : max minExponent ((Nat.log2 num : Int) - Nat.log2 den - 53) = guess
  obtain ⟨hdenPos, hratio⟩ := scaledRatio_spec num hden guess
  have hdenPos' : (0 : ℚ) < (scaledRatio num den guess).2 := by exact_mod_cast hdenPos
  have hleast : minExponent ≤ guess := by omega
  split
  next hfits =>
    refine ⟨hleast, ?_, ?_⟩
    · rw [← hratio, div_lt_iff₀ hdenPos']
      exact_mod_cast (Nat.div_lt_iff_lt_mul hdenPos).mp hfits
    · by_cases hmin : guess = minExponent
      · exact Or.inr hmin
      · refine Or.inl ?_
        rw [le_div_iff₀ (hpos guess), ← zpow_natCast, hscale]
        refine le_trans ?_ hlow.le
        exact zpow_le_zpow_right₀ (by norm_num) (by push_cast; omega)
  next hbig =>
    have hfull : (2 : ℚ) ^ 53 ≤ num / den / 2 ^ guess := by
      rw [← hratio, le_div_iff₀ hdenPos']
      exact_mod_cast (Nat.le_div_iff_mul_le hdenPos).mp (not_lt.mp hbig)
    rw [le_div_iff₀ (hpos guess), ← zpow_natCast, hscale] at hfull
    refine ⟨by omega, ?_, Or.inl ?_⟩
    · rw [div_lt_iff₀ (hpos _), ← zpow_natCast, hscale]
      refine lt_of_lt_of_le hhigh ?_
      exact zpow_le_zpow_right₀ (by norm_num) (by push_cast; omega)
    · rw [le_div_iff₀ (hpos _), ← zpow_natCast, hscale]
      refine le_trans (le_of_eq ?_) hfull
      congr 1
      push_cast
      ring

theorem four_quarters (x : Binary64) : (2 : ℚ) ^ x.exponent = 4 * x.quarter := by
  rw [quarter, show (4 : ℚ) = 2 ^ (2 : ℤ) by norm_num, ← zpow_add₀ (by norm_num)]
  congr 1
  ring

/-- A value rounds what is within half a unit of its significand, a quarter below the power of two
that significands begin with. -/
theorem rounds_of_near {x : Binary64} {r : ℚ} (hlow : (x.significand : ℚ) - 1 / 2 ≤ r)
    (hhigh : r ≤ x.significand + 1 / 2)
    (hodd : x.significand % 2 = 1 → (x.significand : ℚ) - 1 / 2 < r ∧ r < x.significand + 1 / 2)
    (hpower : x.lowGap = 1 → (x.significand : ℚ) - 1 / 4 ≤ r) :
    x.Rounds (r * 2 ^ x.exponent) := by
  have hpos := x.quarter_pos
  have hgap : x.lowGap = 1 ∨ x.lowGap = 2 := by
    unfold lowGap
    split <;> simp
  rw [four_quarters, ← mul_assoc]
  refine ⟨?_, mul_le_mul_of_nonneg_right (by linarith) hpos.le, fun h => ?_⟩
  · refine mul_le_mul_of_nonneg_right ?_ hpos.le
    rcases hgap with hgap | hgap <;> rw [hgap] <;> push_cast
    · linarith [hpower hgap]
    · linarith
  · -- A power of two is even, so the gap is a full one.
    have hfull : x.lowGap = 2 := by
      unfold lowGap
      rw [if_neg]
      rintro ⟨hpow, -⟩
      rw [hpow] at h
      exact absurd h (by decide)
    have hinner := hodd h
    refine ⟨mul_lt_mul_of_pos_right ?_ hpos, mul_lt_mul_of_pos_right (by linarith) hpos⟩
    rw [hfull]
    push_cast
    linarith

/-- What is rounded to a significand at an exponent where it fits is rounded to that value. -/
theorem carry_spec (negative : Bool) {m : Nat} {e : Int} {r : ℚ} (hleast : minExponent ≤ e)
    (hlt : r < 2 ^ 53) (hfull : 2 ^ 52 ≤ r ∨ e = minExponent)
    (hlow : (m : ℚ) - 1 / 2 ≤ r) (hhigh : r ≤ m + 1 / 2)
    (hodd : m % 2 = 1 → (m : ℚ) - 1 / 2 < r ∧ r < m + 1 / 2) :
    (carry negative m e).Normal ∧ (carry negative m e).Rounds (r * 2 ^ e) := by
  have hmost : m ≤ 2 ^ 53 := by
    have : (m : ℚ) < (2 ^ 53 + 1 : ℕ) := by push_cast; linarith
    exact Nat.lt_succ_iff.mp (by exact_mod_cast this)
  unfold carry
  rw [show significandLimit = 2 ^ 53 from rfl]
  split
  next hm =>
    refine ⟨⟨hm, hleast, ?_⟩, rounds_of_near hlow hhigh hodd fun hgap => ?_⟩
    · refine hfull.imp_left fun hfull => ?_
      have : ((2 ^ 52 : ℕ) : ℚ) < (m + 1 : ℕ) := by push_cast; linarith
      exact Nat.lt_succ_iff.mp (by exact_mod_cast this)
    · unfold lowGap at hgap
      split at hgap
      next hpower =>
        obtain ⟨hpow, habove⟩ := hpower
        have hm : (m : ℚ) = 2 ^ 52 := by exact_mod_cast hpow
        have hr := hfull.resolve_right (by exact habove.ne')
        dsimp only
        linarith
      next => cases hgap
  next hm =>
    obtain rfl : m = 2 ^ 53 := by omega
    have hhalf : (2 ^ 53 / 2 : ℕ) = 2 ^ 52 := by norm_num
    have hstep : r * 2 ^ e = r / 2 * 2 ^ (e + 1) := by
      rw [zpow_add_one₀ (by norm_num)]
      ring
    push_cast at hlow
    rw [hhalf, hstep]
    refine ⟨⟨by norm_num, hleast.trans (Int.le_add_one (le_refl e)), Or.inl (by norm_num)⟩,
      rounds_of_near ?_ ?_ (fun h => absurd h (by norm_num)) fun _ => ?_⟩
    all_goals
      push_cast
      linarith

/-- What a quotient is rounded to is a value, and the quotient is in its interval. -/
theorem nearest_spec (negative : Bool) {num den : Nat} (hnum : 0 < num) (hden : 0 < den) :
    (nearest negative num den).Normal ∧ (nearest negative num den).Rounds (num / den) := by
  obtain ⟨hleast, hlt, hfull⟩ := exponentOf_spec hnum hden
  obtain ⟨hdenPos, hratio⟩ := scaledRatio_spec num hden (exponentOf num den)
  obtain ⟨hlow, hhigh, hodd⟩ := roundDiv_spec (scaledRatio num den (exponentOf num den)).1 hdenPos
  rw [hratio] at hlow hhigh hodd
  have hspec := carry_spec negative hleast hlt hfull hlow hhigh hodd
  rwa [div_mul_cancel₀ _ (zpow_ne_zero _ (by norm_num))] at hspec

theorem carry_negative (negative : Bool) (m : Nat) (e : Int) :
    (carry negative m e).negative = negative := by
  unfold carry
  split <;> rfl

/-- A quotient is rounded to the value whose interval it is in. -/
theorem ofRatio?_of_rounds {x : Binary64} (hx : x.Canonical) {num den : Nat} (hnum : 0 < num)
    (hden : 0 < den) (h : x.Rounds (num / den)) : ofRatio? x.negative num den = some x := by
  obtain ⟨hnormal, hrounds⟩ := nearest_spec x.negative hnum hden
  obtain ⟨hsignificand, hexponent⟩ := hrounds.unique hnormal hx.toNormal h
  have hnearest : nearest x.negative num den = x := by
    have hnegative : (nearest x.negative num den).negative = x.negative := carry_negative ..
    exact ext hnegative hsignificand hexponent
  rw [ofRatio?_eq_nearest _ hnum hden, hnearest, if_pos hx.le_most]

theorem zero_canonical (negative : Bool) : (zero negative).Canonical := by
  cases negative <;> decide

/-- Whatever a quotient is rounded to is a value of the format. -/
theorem ofRatio?_canonical {negative : Bool} {num den : Nat} {x : Binary64}
    (h : ofRatio? negative num den = some x) : x.Canonical := by
  by_cases hzero : num = 0 ∨ den = 0
  · rw [ofRatio?, if_pos hzero] at h
    cases h
    exact zero_canonical negative
  · rw [ofRatio?_eq_nearest _ (by omega) (by omega)] at h
    split at h
    next hmost =>
      cases h
      exact ⟨(nearest_spec negative (by omega) (by omega)).1, hmost⟩
    next => cases h

/-! ## Decimals -/

/-- Intervals end below the powers of ten that are out of range. -/
theorem Canonical.highEnd_lt {x : Binary64} (hx : x.Canonical) : x.highEnd < 2 ^ 1024 := by
  have hsignificand : 4 * (x.significand : ℚ) + 2 < 2 ^ 55 := by
    have : (x.significand : ℚ) + 1 ≤ 2 ^ 53 := by exact_mod_cast hx.significand_lt
    linarith
  have hquarter : x.quarter ≤ 2 ^ (969 : ℤ) :=
    zpow_le_zpow_right₀ (by norm_num) (Int.sub_le_sub_right hx.le_most 2)
  calc x.highEnd < 2 ^ 55 * x.quarter := mul_lt_mul_of_pos_right hsignificand x.quarter_pos
    _ ≤ 2 ^ 55 * 2 ^ (969 : ℤ) := mul_le_mul_of_nonneg_left hquarter (by norm_num)
    _ = 2 ^ 1024 := by
      rw [← zpow_natCast, ← zpow_natCast, ← zpow_add₀ (by norm_num)]
      rfl

/-- Intervals, but for that of zero, begin above what is too small for any digits. -/
theorem Normal.le_lowEnd {x : Binary64} (hx : x.Normal) (hne : x.significand ≠ 0) :
    2 ^ (-1076 : ℤ) ≤ x.lowEnd := by
  have hsignificand : 1 ≤ 4 * (x.significand : ℚ) - x.lowGap := by
    have hgap : (x.lowGap : ℚ) ≤ 2 := by exact_mod_cast x.lowGap_le
    have hone : (1 : ℚ) ≤ x.significand := by exact_mod_cast Nat.one_le_iff_ne_zero.mpr hne
    linarith
  have hquarter : 2 ^ (-1076 : ℤ) ≤ x.quarter :=
    zpow_le_zpow_right₀ (by norm_num) (Int.sub_le_sub_right hx.least_le 2)
  exact hquarter.trans (le_mul_of_one_le_left x.quarter_pos.le hsignificand)

/-- A decimal in the interval of a value is not out of range. -/
theorem Rounds.decimal_bounds {x : Binary64} (hx : x.Canonical) (hne : x.significand ≠ 0)
    {digits : Nat} {exponent : Int} (hdigits : digits ≠ 0)
    (h : x.Rounds (digits * 10 ^ exponent)) :
    exponent ≤ 400 ∧ -1200 ≤ exponent + (Nat.log2 digits : Int) := by
  have hone : (1 : ℚ) ≤ digits := by exact_mod_cast Nat.one_le_iff_ne_zero.mpr hdigits
  constructor
  · by_contra hbig
    have hpower : (2 : ℚ) ^ (1024 : ℤ) ≤ 10 ^ exponent :=
      calc (2 : ℚ) ^ (1024 : ℤ) ≤ 2 ^ (3 * exponent) :=
            zpow_le_zpow_right₀ (by norm_num) (by omega)
        _ = (2 ^ (3 : ℤ)) ^ exponent := zpow_mul _ _ _
        _ ≤ 10 ^ exponent := zpow_le_zpow_left₀ (by omega) (by norm_num) (by norm_num)
    have hle := le_mul_of_one_le_left (zpow_nonneg (by norm_num : (0 : ℚ) ≤ 10) exponent) hone
    exact absurd (hpower.trans (hle.trans h.high)) hx.highEnd_lt.not_ge
  · by_contra hsmall
    have hpower : (digits : ℚ) * 10 ^ exponent < 2 ^ (-1076 : ℤ) :=
      calc (digits : ℚ) * 10 ^ exponent
          < 2 ^ ((Nat.log2 digits : ℤ) + 1) * 10 ^ exponent := by
            refine mul_lt_mul_of_pos_right ?_ (zpow_pos (by norm_num) _)
            rw [← Nat.cast_succ, zpow_natCast]
            exact_mod_cast @Nat.lt_log2_self digits
        _ ≤ 2 ^ ((Nat.log2 digits : ℤ) + 1) * 2 ^ exponent := by
            refine mul_le_mul_of_nonneg_left ?_ (zpow_nonneg (by norm_num) _)
            have hle : (2 : ℚ) ^ (-exponent) ≤ 10 ^ (-exponent) :=
              zpow_le_zpow_left₀ (by omega) (by norm_num) (by norm_num)
            rw [← neg_neg exponent, zpow_neg, zpow_neg 2]
            exact inv_anti₀ (zpow_pos (by norm_num) _) hle
        _ = 2 ^ ((Nat.log2 digits : ℤ) + 1 + exponent) := (zpow_add₀ (by norm_num) _ _).symm
        _ ≤ 2 ^ (-1076 : ℤ) := zpow_le_zpow_right₀ (by norm_num) (by omega)
    exact absurd ((hx.le_lowEnd hne).trans h.low) hpower.not_ge

/-- A decimal is rounded to the value whose interval it is in. -/
theorem ofDecimal?_of_rounds {x : Binary64} (hx : x.Canonical) (hne : x.significand ≠ 0)
    {digits : Nat} {exponent : Int} (hdigits : digits ≠ 0)
    (h : x.Rounds (digits * 10 ^ exponent)) : ofDecimal? x.negative digits exponent = some x := by
  obtain ⟨hbig, hsmall⟩ := h.decimal_bounds hx hne hdigits
  unfold ofDecimal?
  rw [if_neg hdigits, if_neg (by omega), if_neg (by omega)]
  split
  next hexp =>
    obtain ⟨n, rfl⟩ := Int.eq_ofNat_of_zero_le hexp
    refine ofRatio?_of_rounds hx (Nat.mul_pos (Nat.pos_of_ne_zero hdigits)
      (Nat.pow_pos (by decide))) (by decide) ?_
    rw [zpow_natCast] at h
    simpa [Nat.pow_eq] using h
  next hexp =>
    obtain ⟨n, hn⟩ := Int.eq_ofNat_of_zero_le (show 0 ≤ -exponent by omega)
    refine ofRatio?_of_rounds hx (Nat.pos_of_ne_zero hdigits) (Nat.pow_pos (by decide)) ?_
    rw [show exponent = -(n : ℤ) by omega, zpow_neg, zpow_natCast] at h
    rw [hn]
    simpa [Nat.pow_eq, div_eq_mul_inv] using h

end PageBlocks.Binary64
