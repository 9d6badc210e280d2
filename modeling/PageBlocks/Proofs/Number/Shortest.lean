import PageBlocks.Number.Shortest
import PageBlocks.Proofs.Number.Rounding

/-!
# The digits found are in the interval

The search for digits tests the two neighbours of a value on ever finer decimal
grids. What it accepts is in the interval of the value, and at seventeen digits
it accepts one of the two: were neither in the interval, the step of the grid
would be as wide as the interval, and it is less than that.

> `decimal_rounds`: the decimal of a value is rounded to it.
-/

namespace PageBlocks.Shortest

open Binary64 (Rounds)

variable {x : Binary64}

/-- A power with an exponent of either sign, as a quotient of natural numbers. -/
theorem scale_spec (base : Nat) (hbase : 0 < base) (e : Int) :
    0 < (if 0 ≤ e then 1 else Nat.pow base (-e).toNat) ∧
      ((if 0 ≤ e then Nat.pow base e.toNat else 1 : Nat) : ℚ) /
        (if 0 ≤ e then 1 else Nat.pow base (-e).toNat : Nat) = (base : ℚ) ^ e := by
  by_cases h : 0 ≤ e
  · obtain ⟨n, rfl⟩ := Int.eq_ofNat_of_zero_le h
    simp
  · obtain ⟨n, hn⟩ := Int.eq_ofNat_of_zero_le (show 0 ≤ -e by omega)
    rw [if_neg h, if_neg h, show e = -(n : ℤ) by omega]
    exact ⟨Nat.pow_pos hbase, by simp⟩

/-! ## The interval -/

/-- The interval of a value that is not zero, in numerators over its denominator. -/
theorem interval_spec (hx : x.significand ≠ 0) :
    0 < (interval x).den ∧
      ((interval x).low : ℚ) / (interval x).den = x.lowEnd ∧
      ((interval x).value : ℚ) / (interval x).den = 4 * x.significand * x.quarter ∧
      ((interval x).high : ℚ) / (interval x).den = x.highEnd := by
  have hgap : x.lowGap ≤ 4 * x.significand := x.lowGap_le.trans (by omega)
  obtain ⟨hden, hscale⟩ := scale_spec 2 (by decide) (x.exponent - 2)
  have hquarter : ((2 : ℕ) : ℚ) ^ (x.exponent - 2) = x.quarter := by
    rw [Binary64.quarter]
    norm_num
  rw [hquarter] at hscale
  unfold Binary64.lowEnd Binary64.highEnd
  rw [← hscale, ← mul_div_assoc, ← mul_div_assoc, ← mul_div_assoc]
  refine ⟨hden, ?_, ?_, ?_⟩
  all_goals
    unfold interval
    dsimp only
    push_cast
  · rw [show (if x.significand = Nat.pow 2 52 ∧ Binary64.minExponent < x.exponent then 1 else 2) =
      x.lowGap from rfl, Nat.cast_sub hgap]
    push_cast
    rfl
  · rfl
  · rfl

theorem Interval.has_iff {i : Interval} (hi : 0 < i.den) (num : Nat) {den : Nat} (hden : 0 < den) :
    i.has num den = true ↔
      if i.closed then (i.low : ℚ) / i.den ≤ num / den ∧ (num : ℚ) / den ≤ i.high / i.den
      else (i.low : ℚ) / i.den < num / den ∧ (num : ℚ) / den < i.high / i.den := by
  have hi' : (0 : ℚ) < i.den := by exact_mod_cast hi
  have hden' : (0 : ℚ) < den := by exact_mod_cast hden
  unfold has
  split
  · rw [div_le_div_iff₀ hi' hden', div_le_div_iff₀ hden' hi', Bool.and_eq_true, decide_eq_true_eq,
      decide_eq_true_eq]
    norm_cast
  · rw [div_lt_div_iff₀ hi' hden', div_lt_div_iff₀ hden' hi', Bool.and_eq_true, decide_eq_true_eq,
      decide_eq_true_eq]
    norm_cast

/-- The decimals in the interval are those that are rounded to the value. -/
theorem has_iff_rounds (hx : x.significand ≠ 0) (num : Nat) {den : Nat} (hden : 0 < den) :
    (interval x).has num den = true ↔ x.Rounds (num / den) := by
  obtain ⟨hi, hlow, -, hhigh⟩ := interval_spec hx
  rw [Interval.has_iff hi num hden, hlow, hhigh]
  have hclosed : (interval x).closed = (x.significand % 2 == 0) := rfl
  rw [hclosed]
  rcases Nat.mod_two_eq_zero_or_one x.significand with heven | hodd
  · rw [heven]
    exact ⟨fun h => ⟨h.1, h.2, fun hodd => by omega⟩, fun h => ⟨h.low, h.high⟩⟩
  · rw [hodd]
    exact ⟨fun h => ⟨h.1.le, h.2.le, fun _ => h⟩, fun h => h.inner hodd⟩

/-! ## One grid -/

/-- The step of the grid on which a number with a leading exponent has some digits. -/
def unitOf (lead : Int) (count : Nat) : Int := lead - (count : Int) + 1

/-- The numerator and the denominator of the step. -/
def unitUp (lead : Int) (count : Nat) : Nat :=
  if 0 ≤ unitOf lead count then Nat.pow 10 (unitOf lead count).toNat else 1

def unitDown (lead : Int) (count : Nat) : Nat :=
  if 0 ≤ unitOf lead count then 1 else Nat.pow 10 (-unitOf lead count).toNat

/-- How many steps of the grid there are below the value. -/
def belowOf (i : Interval) (lead : Int) (count : Nat) : Nat :=
  i.value * unitDown lead count / (i.den * unitUp lead count)

/-- Whether so many steps are in the interval. -/
def onGrid (i : Interval) (lead : Int) (count steps : Nat) : Bool :=
  i.has (steps * unitUp lead count) (unitDown lead count)

theorem unit_spec (lead : Int) (count : Nat) : 0 < unitDown lead count ∧
    0 < unitUp lead count ∧ (unitUp lead count : ℚ) / unitDown lead count =
      10 ^ unitOf lead count := by
  obtain ⟨hdown, hscale⟩ := scale_spec 10 (by decide) (unitOf lead count)
  refine ⟨hdown, ?_, by exact_mod_cast hscale⟩
  unfold unitUp
  split
  · exact Nat.pow_pos (by decide)
  · exact Nat.one_pos

theorem onGrid_iff (hx : x.significand ≠ 0) (lead : Int) (count steps : Nat) :
    onGrid (interval x) lead count steps = true ↔
      x.Rounds (steps * 10 ^ unitOf lead count) := by
  obtain ⟨hdown, -, hunit⟩ := unit_spec lead count
  rw [onGrid, has_iff_rounds hx _ hdown]
  push_cast
  rw [mul_div_assoc, hunit]

/-- The value is between its two neighbours. -/
theorem belowOf_spec (hx : x.significand ≠ 0) (lead : Int) (count : Nat) :
    (belowOf (interval x) lead count : ℚ) * 10 ^ unitOf lead count ≤
        4 * x.significand * x.quarter ∧
      4 * x.significand * x.quarter <
        ((belowOf (interval x) lead count + 1 : ℕ) : ℚ) * 10 ^ unitOf lead count := by
  obtain ⟨hden, -, hvalue, -⟩ := interval_spec hx
  obtain ⟨hdown, hup, hunit⟩ := unit_spec lead count
  have hden' : (0 : ℚ) < (interval x).den := by exact_mod_cast hden
  have hdown' : (0 : ℚ) < unitDown lead count := by exact_mod_cast hdown
  rw [← hvalue, ← hunit, mul_div_assoc', mul_div_assoc', div_le_div_iff₀ hdown' hden',
    div_lt_div_iff₀ hden' hdown', mul_assoc, mul_assoc, mul_comm (unitUp lead count : ℚ)]
  unfold belowOf
  exact ⟨by exact_mod_cast Nat.div_mul_le_self _ _,
    by exact_mod_cast (Nat.div_lt_iff_lt_mul (Nat.mul_pos hden hup)).mp (Nat.lt_succ_self _)⟩

/-- Whether the lower neighbour is to be taken if both are in the interval. -/
def TakesBelow (i : Interval) (lead : Int) (count : Nat) : Prop :=
  let toBelow := i.value * unitDown lead count -
    belowOf i lead count * unitUp lead count * i.den
  let toAbove := (belowOf i lead count + 1) * unitUp lead count * i.den -
    i.value * unitDown lead count
  toBelow < toAbove ∨ (toBelow = toAbove ∧ belowOf i lead count % 2 = 0)

instance (i : Interval) (lead : Int) (count : Nat) : Decidable (TakesBelow i lead count) :=
  inferInstanceAs (Decidable (_ ∨ _))

theorem atCount?_eq (i : Interval) (lead : Int) (count : Nat) :
    atCount? i lead count =
      if (belowOf i lead count ≠ 0 && onGrid i lead count (belowOf i lead count)) &&
          onGrid i lead count (belowOf i lead count + 1) then
        if TakesBelow i lead count then some (belowOf i lead count, unitOf lead count)
        else some (upper (belowOf i lead count + 1) count (unitOf lead count))
      else if belowOf i lead count ≠ 0 && onGrid i lead count (belowOf i lead count) then
        some (belowOf i lead count, unitOf lead count)
      else if onGrid i lead count (belowOf i lead count + 1) then
        some (upper (belowOf i lead count + 1) count (unitOf lead count))
      else none :=
  rfl

/-- A decimal found on a grid is one of the two neighbours of the value, and in the interval. -/
theorem atCount?_found {i : Interval} {lead : Int} {count : Nat} {found : Nat × Int}
    (h : atCount? i lead count = some found) :
    (found = (belowOf i lead count, unitOf lead count) ∧ belowOf i lead count ≠ 0 ∧
        onGrid i lead count (belowOf i lead count) = true) ∨
      (found = upper (belowOf i lead count + 1) count (unitOf lead count) ∧
        onGrid i lead count (belowOf i lead count + 1) = true) := by
  rw [atCount?_eq] at h
  split at h
  next hboth =>
    simp only [Bool.and_eq_true, decide_eq_true_eq] at hboth
    split at h
    next => cases h; exact Or.inl ⟨rfl, hboth.1⟩
    next => cases h; exact Or.inr ⟨rfl, hboth.2⟩
  next =>
    split at h
    next hbelow =>
      cases h
      simp only [Bool.and_eq_true, decide_eq_true_eq] at hbelow
      exact Or.inl ⟨rfl, hbelow⟩
    next =>
      split at h
      next habove => cases h; exact Or.inr ⟨rfl, habove⟩
      next => cases h

/-- If nothing is found on a grid, neither neighbour of the value is in the interval. -/
theorem atCount?_missing {i : Interval} {lead : Int} {count : Nat}
    (h : atCount? i lead count = none) (hbelow : belowOf i lead count ≠ 0) :
    ¬onGrid i lead count (belowOf i lead count) = true ∧
      ¬onGrid i lead count (belowOf i lead count + 1) = true := by
  rw [atCount?_eq] at h
  split at h
  next => split at h <;> cases h
  next =>
    split at h
    next => cases h
    next hnone =>
      split at h
      next => cases h
      next habove =>
        refine ⟨fun hgrid => hnone ?_, habove⟩
        rw [Bool.and_eq_true, decide_eq_true_eq]
        exact ⟨hbelow, hgrid⟩

/-- A power of ten that sheds its zeros is the same number. -/
theorem upper_spec (above count : Nat) (unit : Int) :
    ((upper above count unit).1 : ℚ) * 10 ^ (upper above count unit).2 = above * 10 ^ unit ∧
      (above ≠ 0 → (upper above count unit).1 ≠ 0) := by
  unfold upper
  split
  next h =>
    refine ⟨?_, fun _ => one_ne_zero⟩
    rw [h, zpow_add₀ (by norm_num), zpow_natCast, show Nat.pow 10 count = 10 ^ count from rfl]
    push_cast
    ring
  next => exact ⟨rfl, id⟩

/-- What is found on a grid is rounded to the value. -/
theorem atCount?_rounds (hx : x.significand ≠ 0) {lead : Int} {count : Nat} {found : Nat × Int}
    (h : atCount? (interval x) lead count = some found) :
    found.1 ≠ 0 ∧ x.Rounds (found.1 * 10 ^ found.2) := by
  rcases atCount?_found h with ⟨rfl, hne, hgrid⟩ | ⟨rfl, hgrid⟩
  · exact ⟨hne, (onGrid_iff hx ..).mp hgrid⟩
  · obtain ⟨hvalue, hne⟩ := upper_spec (belowOf (interval x) lead count + 1) count
      (unitOf lead count)
    rw [hvalue]
    exact ⟨hne (Nat.succ_ne_zero _), (onGrid_iff hx ..).mp hgrid⟩

/-! ## Seventeen digits -/

theorem pow_digitCount_le {n : Nat} (hn : n ≠ 0) : 10 ^ (digitCount n - 1) ≤ n := by
  by_cases hone : digitCount n - 1 = 0
  · rw [hone]
    exact Nat.one_le_iff_ne_zero.mpr hn
  · refine not_lt.mp fun hlt => ?_
    have hle := (Nat.length_toDigits_le_iff (by decide) (Nat.pos_of_ne_zero hone)).mpr hlt
    unfold digitCount at hone hle
    omega

/-- The leading digit stands for no more than the number, if it is among the first `places`
decimals. -/
theorem digitCount_le {num den places : Nat} (hden : 0 < den)
    (h : (1 : ℚ) ≤ num / den * 10 ^ places) :
    (10 : ℚ) ^ ((digitCount (num * Nat.pow 10 places / den) : ℤ) - 1 - places) ≤ num / den := by
  have hden' : (0 : ℚ) < den := by exact_mod_cast hden
  rw [Nat.pow_eq, zpow_sub₀ (by norm_num), zpow_natCast,
    div_le_iff₀ (pow_pos (by norm_num) _)]
  have hfloor : num * 10 ^ places / den ≠ 0 := by
    refine (Nat.div_pos ?_ hden).ne'
    rw [div_mul_eq_mul_div, le_div_iff₀ hden', one_mul] at h
    exact_mod_cast h
  have hcount : 0 < digitCount (num * 10 ^ places / den) := Nat.length_toDigits_pos
  calc (10 : ℚ) ^ ((digitCount (num * 10 ^ places / den) : ℤ) - 1)
      = ((10 ^ (digitCount (num * 10 ^ places / den) - 1) : ℕ) : ℚ) := by
        rw [Nat.cast_pow, ← zpow_natCast, Nat.cast_sub hcount]
        norm_num
    _ ≤ (num * 10 ^ places / den : ℕ) := by exact_mod_cast pow_digitCount_le hfloor
    _ ≤ num / den * 10 ^ places := by
        rw [div_mul_eq_mul_div, le_div_iff₀ hden']
        exact_mod_cast Nat.div_mul_le_self _ _

/-- The smallest value is above the least number whose leading digit is found. -/
theorem leadingExponent_interval (hx : x.Normal) (hne : x.significand ≠ 0) :
    (10 : ℚ) ^ leadingExponent (interval x).value (interval x).den ≤
      4 * x.significand * x.quarter := by
  obtain ⟨hden, -, hvalue, -⟩ := interval_spec hne
  have hquarter : (2 : ℚ) ^ (-1076 : ℤ) ≤ x.quarter :=
    zpow_le_zpow_right₀ (by norm_num) (Int.sub_le_sub_right hx.least_le 2)
  have hone : (1 : ℚ) ≤ x.significand := by exact_mod_cast Nat.one_le_iff_ne_zero.mpr hne
  have hpower : (2 : ℚ) ^ 1076 ≤ 10 ^ 340 :=
    calc (2 : ℚ) ^ 1076 ≤ 2 ^ (33 * 34) := pow_le_pow_right₀ (by norm_num) (by norm_num)
      _ = (2 ^ 33) ^ 34 := pow_mul _ _ _
      _ ≤ (10 ^ 10) ^ 34 := pow_le_pow_left₀ (by norm_num) (by norm_num) 34
      _ = 10 ^ 340 := (pow_mul _ _ _).symm
  have hvalue' : (1 : ℚ) ≤ (interval x).value / (interval x).den * 10 ^ 340 :=
    calc (1 : ℚ) = 2 ^ (-1076 : ℤ) * 2 ^ 1076 := by
          rw [← zpow_natCast, ← zpow_add₀ (by norm_num)]
          rfl
      _ ≤ (interval x).value / (interval x).den * 10 ^ 340 := by
          rw [hvalue, mul_assoc 4]
          refine mul_le_mul (hquarter.trans ?_) hpower (pow_nonneg (by norm_num) _) ?_
          · have hle := le_mul_of_one_le_left x.quarter_pos.le hone
            linarith [x.quarter_pos]
          · have hnonneg := mul_nonneg (zero_le_one.trans hone) x.quarter_pos.le
            linarith
  rw [← hvalue, leadingExponent]
  generalize hplaces : 340 = places at hvalue' ⊢
  have hlead := digitCount_le hden hvalue'
  rwa [Int.sub_sub, show (1 + places : ℤ) = 341 by omega] at hlead

/-- A magnitude strictly between the ends is in the interval. -/
theorem rounds_of_lt {q : ℚ} (hlow : x.lowEnd < q) (hhigh : q < x.highEnd) : x.Rounds q :=
  ⟨hlow.le, hhigh.le, fun _ => ⟨hlow, hhigh⟩⟩

/-- Where no number of so many digits is in the interval, it lies between two of them. -/
theorem width_le_unit (hne : x.significand ≠ 0) {lead : Int} {count : Nat}
    (hnone : atCount? (interval x) lead count = none)
    (hbelow : belowOf (interval x) lead count ≠ 0) :
    (2 + x.lowGap) * x.quarter ≤ (10 : ℚ) ^ unitOf lead count := by
  obtain ⟨hle, hlt⟩ := belowOf_spec hne lead count
  obtain ⟨hmissBelow, hmissAbove⟩ := atCount?_missing hnone hbelow
  rw [onGrid_iff hne] at hmissBelow hmissAbove
  have hpos := x.quarter_pos
  have hlow : (belowOf (interval x) lead count : ℚ) * 10 ^ unitOf lead count ≤ x.lowEnd := by
    refine not_lt.mp fun h => hmissBelow (rounds_of_lt h (lt_of_le_of_lt hle ?_))
    exact mul_lt_mul_of_pos_right (by linarith) hpos
  have hhigh : x.highEnd ≤
      ((belowOf (interval x) lead count + 1 : ℕ) : ℚ) * 10 ^ unitOf lead count := by
    refine not_lt.mp fun h => hmissAbove (rounds_of_lt (lt_of_le_of_lt ?_ hlt) h)
    refine mul_le_mul_of_nonneg_right ?_ hpos.le
    have : (0 : ℚ) ≤ x.lowGap := Nat.cast_nonneg _
    linarith
  unfold Binary64.lowEnd at hlow
  unfold Binary64.highEnd at hhigh
  push_cast at hhigh
  linarith

/-- The interval is wider than the ten-quadrillionth part of the value. -/
theorem significand_lt_width (hx : x.Normal) :
    4 * (x.significand : ℚ) < (2 + x.lowGap) * 10 ^ 16 := by
  unfold Binary64.lowGap
  split
  next hpower =>
    rw [hpower.1]
    norm_num
  next =>
    have : (x.significand : ℚ) < 2 ^ 53 := by exact_mod_cast hx.significand_lt
    push_cast
    linarith

/-- Among numbers of seventeen digits there is one in the interval. -/
theorem atCount?_seventeen (hx : x.Normal) (hne : x.significand ≠ 0) {lead : Int}
    (hlead : (10 : ℚ) ^ lead ≤ 4 * x.significand * x.quarter) :
    ∃ found, atCount? (interval x) lead 17 = some found := by
  refine Option.ne_none_iff_exists'.mp fun hnone => ?_
  -- The step is at most the ten-quadrillionth part of the value.
  have hstep : (10 : ℚ) ^ unitOf lead 17 * 10 ^ 16 ≤ 4 * x.significand * x.quarter := by
    rw [← zpow_natCast, ← zpow_add₀ (by norm_num)]
    refine le_trans (le_of_eq ?_) hlead
    congr 1
    unfold unitOf
    push_cast
    ring
  have hbelow : belowOf (interval x) lead 17 ≠ 0 := by
    intro hzero
    have hlt := (belowOf_spec hne lead 17).2
    have hunit : (0 : ℚ) < 10 ^ unitOf lead 17 := zpow_pos (by norm_num) _
    rw [hzero] at hlt
    push_cast at hlt
    linarith
  have hwidth := width_le_unit hne hnone hbelow
  have hlt := mul_lt_mul_of_pos_right (significand_lt_width hx) x.quarter_pos
  linarith

/-- The decimal of a value that is not zero is found on a grid of at most seventeen digits. -/
theorem decimal_found (hx : x.Normal) (hne : x.significand ≠ 0) :
    ∃ lead count, atCount? (interval x) lead count = some (decimal x) := by
  have hlead := leadingExponent_interval hx hne
  have hdecimal : decimal x = ((List.range 17).findSome? fun n => atCount? (interval x)
      (leadingExponent (interval x).value (interval x).den) (n + 1)).getD (0, 0) := by
    rw [decimal, if_neg (by simpa [Binary64.isZero] using hne)]
  generalize leadingExponent (interval x).value (interval x).den = lead at hlead hdecimal
  obtain ⟨found, hfound⟩ := atCount?_seventeen hx hne hlead
  rw [hdecimal]
  cases hsearch : (List.range 17).findSome? fun n => atCount? (interval x) lead (n + 1) with
  | some first =>
    obtain ⟨n, -, hn⟩ := List.exists_of_findSome?_eq_some hsearch
    exact ⟨lead, n + 1, hn⟩
  | none =>
    have hlast := List.findSome?_eq_none_iff.mp hsearch 16 (List.mem_range.mpr (by decide))
    rw [hfound] at hlast
    cases hlast

/-- The decimal of a value that is not zero is not zero, and is rounded to the value. -/
theorem decimal_rounds (hx : x.Normal) (hne : x.significand ≠ 0) :
    (decimal x).1 ≠ 0 ∧ x.Rounds ((decimal x).1 * 10 ^ (decimal x).2) := by
  obtain ⟨lead, count, hfound⟩ := decimal_found hx hne
  exact atCount?_rounds hne hfound

end PageBlocks.Shortest
