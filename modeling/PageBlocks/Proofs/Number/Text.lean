import PageBlocks.Proofs.Json.Numeral
import PageBlocks.Proofs.Number.Shortest

/-!
# Floats are read from their texts

Every layout spells the shortest digits of a value, with the point wherever it
puts it and with or without an exponent. So its text is a decimal in the
interval of the value, and is rounded to it.

> `NumberText.decimal?_write`: a value is read from its text, whatever the
> layout.
-/

namespace PageBlocks

namespace NumberText

open JsonText

/-- The digits behind a point continue those before it. -/
def readFraction (whole : Nat) (rest : List Char) : Nat × Nat × List Char :=
  match rest with
  | '.' :: rest => Digits.read whole 0 rest
  | _ => (whole, 0, rest)

/-- The digits and the exponent of an unsigned decimal. -/
def parts? (body : List Char) : Option (Nat × Int) :=
  let (whole, wholeCount, rest) := Digits.read 0 0 body
  let (digits, fractionCount, rest) := readFraction whole rest
  if wholeCount + fractionCount = 0 then none
  else (exponent? rest).map fun exponent => (digits, exponent - fractionCount)

theorem decimal?_eq_parts (text : List Char) :
    decimal? text = (parts? (sign text).2).bind fun p =>
      Binary64.ofDecimal? (sign text).1 p.1 p.2 := by
  unfold decimal? parts?
  refine Eq.trans ?_ (apply_ite (Option.bind · _) _ _ _).symm
  rw [Option.bind_map]
  rfl

/-- A decimal with digits on both sides of its point. -/
theorem parts?_fraction {whole fraction tail : List Char} (hwhole : IsDigits whole)
    (hfraction : IsDigits fraction) (htail : NoDigit tail) :
    parts? (whole ++ '.' :: (fraction ++ tail)) = (exponent? tail).map fun exponent : Int =>
      (Nat.ofDigitChars 10 (whole ++ fraction) 0, exponent - (fraction.length : Int)) := by
  have hpoint : NoDigit ('.' :: (fraction ++ tail)) := fun c hc => by cases hc; decide
  have hcount : ¬0 + whole.length + (0 + fraction.length) = 0 := by
    have := List.length_pos_iff.mpr hwhole.ne_nil
    omega
  unfold parts?
  rw [Digits.read_digits 0 0 hwhole.digit hpoint]
  dsimp only
  rw [readFraction, Digits.read_digits _ 0 hfraction.digit htail]
  dsimp only
  rw [if_neg hcount, Nat.ofDigitChars_append, Nat.zero_add]

/-- A decimal without a point. -/
theorem parts?_whole {whole tail : List Char} (hwhole : IsDigits whole) (htail : NoDigit tail)
    (hpoint : tail.head? ≠ some '.') :
    parts? (whole ++ tail) = (exponent? tail).map fun exponent =>
      (Nat.ofDigitChars 10 whole 0, exponent) := by
  have hcount : ¬0 + whole.length + 0 = 0 := by
    have := List.length_pos_iff.mpr hwhole.ne_nil
    omega
  unfold parts?
  rw [Digits.read_digits 0 0 hwhole.digit htail]
  dsimp only
  rw [readFraction]
  · dsimp only
    rw [if_neg hcount]
    simp
  · rintro rest rfl
    exact hpoint rfl

/-- An exponent is read from its digits behind its sign, which a positive one can do without. -/
theorem exponent?_power (exponent : Int) (signed : Bool) :
    exponent? ('e' :: ((if exponent < 0 then ['-'] else if signed then ['+'] else []) ++
      Nat.toDigits 10 exponent.natAbs)) = some exponent := by
  have hdigits := isDigits_toDigits exponent.natAbs
  have hnone : NoDigit [] := fun _ hc => nomatch hc
  have hread := Digits.read_digits 0 0 hdigits.digit hnone
  rw [List.append_nil, Nat.ofDigitChars_toDigits (by decide) (by decide)] at hread
  have hcount : ¬0 + (Nat.toDigits 10 exponent.natAbs).length = 0 := by
    have := List.length_pos_iff.mpr hdigits.ne_nil
    omega
  have hsign : sign ((if exponent < 0 then ['-'] else if signed then ['+'] else []) ++
      Nat.toDigits 10 exponent.natAbs) =
      (decide (exponent < 0), Nat.toDigits 10 exponent.natAbs) := by
    split
    next h => rw [decide_eq_true h]; rfl
    next h =>
      rw [decide_eq_false h]
      split
      · rfl
      · have hplain := hdigits.sign []
        rwa [List.append_nil] at hplain
  unfold exponent?
  dsimp only
  rw [if_pos (Or.inl rfl), hsign]
  dsimp only
  rw [hread]
  dsimp only
  rw [if_neg hcount]
  refine congrArg some ?_
  split
  next h => rw [decide_eq_true_eq] at h; omega
  next h => rw [decide_eq_true_eq] at h; omega

/-- A text without a sign is read as a decimal equal to another one. -/
structure Spells (text : List Char) (digits : Nat) (unit : Int) : Prop where
  unsigned : sign text = (false, text)
  parts : ∃ p, parts? text = some p ∧ (p.1 : ℚ) * 10 ^ p.2 = digits * 10 ^ unit

theorem spells_fraction {whole fraction tail : List Char} {exponent : Int} {digits : Nat}
    {unit : Int} (hwhole : IsDigits whole) (hfraction : IsDigits fraction) (htail : NoDigit tail)
    (hexponent : exponent? tail = some exponent)
    (hvalue : (Nat.ofDigitChars 10 (whole ++ fraction) 0 : ℚ) *
      10 ^ (exponent - (fraction.length : Int)) = digits * 10 ^ unit) :
    Spells (whole ++ '.' :: (fraction ++ tail)) digits unit :=
  ⟨hwhole.sign _, _, by rw [parts?_fraction hwhole hfraction htail, hexponent]; rfl, hvalue⟩

theorem spells_point {whole fraction : List Char} {digits : Nat} {unit : Int}
    (hwhole : IsDigits whole) (hfraction : IsDigits fraction)
    (hvalue : (Nat.ofDigitChars 10 (whole ++ fraction) 0 : ℚ) *
      10 ^ (-(fraction.length : Int)) = digits * 10 ^ unit) :
    Spells (whole ++ '.' :: fraction) digits unit := by
  rw [← List.append_nil fraction]
  refine spells_fraction hwhole hfraction (fun _ hc => nomatch hc) rfl ?_
  rwa [zero_sub]

theorem spells_whole {whole tail : List Char} {exponent : Int} {digits : Nat} {unit : Int}
    (hwhole : IsDigits whole) (htail : NoDigit tail) (hpoint : tail.head? ≠ some '.')
    (hexponent : exponent? tail = some exponent)
    (hvalue : (Nat.ofDigitChars 10 whole 0 : ℚ) * 10 ^ exponent = digits * 10 ^ unit) :
    Spells (whole ++ tail) digits unit :=
  ⟨hwhole.sign _, _, by rw [parts?_whole hwhole htail hpoint, hexponent]; rfl, hvalue⟩

/-- A decimal equal to one in the interval of a value is read as that value. -/
theorem Spells.decimal? {x : Binary64} (hx : x.Canonical) (hne : x.significand ≠ 0)
    {text : List Char} {digits : Nat} {unit : Int} (h : Spells text digits unit)
    (hdigits : digits ≠ 0) (hrounds : x.Rounds (digits * 10 ^ unit)) :
    NumberText.decimal? (if x.negative then '-' :: text else text) = some x := by
  obtain ⟨⟨n, exponent⟩, hparts, hvalue⟩ := h.parts
  have hn : n ≠ 0 := by
    rintro rfl
    have hpos : (0 : ℚ) < digits * 10 ^ unit :=
      mul_pos (by exact_mod_cast Nat.pos_of_ne_zero hdigits) (zpow_pos (by norm_num) _)
    rw [← hvalue, Nat.cast_zero, zero_mul] at hpos
    exact lt_irrefl _ hpos
  rw [← hvalue] at hrounds
  have hread := Binary64.ofDecimal?_of_rounds hx hne hn hrounds
  rw [decimal?_eq_parts]
  cases hnegative : x.negative with
  | true =>
    rw [hnegative] at hread
    show (parts? text).bind _ = _
    rw [hparts]
    exact hread
  | false =>
    rw [hnegative] at hread
    rw [if_neg Bool.false_ne_true, h.unsigned, hparts]
    exact hread

end NumberText

namespace FloatLayout

/-- Digits with a point behind the first one, if there are more. -/
def mantissa : List Char → List Char
  | d :: rest@(_ :: _) => d :: '.' :: rest
  | ds => ds

/-- The text of a magnitude with some digits, the last of which has a unit. -/
def body (layout : FloatLayout) (ds : List Char) (unit : Int) : List Char :=
  let lead := unit + (ds.length : Int) - 1
  if layout.leastPositional ≤ lead ∧ lead ≤ layout.mostPositional then
    if 0 ≤ unit then ds ++ List.replicate unit.toNat '0' ++ ['.', '0']
    else if 0 ≤ lead then
      ds.take (lead.toNat + 1) ++ '.' :: ds.drop (lead.toNat + 1)
    else '0' :: '.' :: (List.replicate (-lead - 1).toNat '0' ++ ds)
  else
    let sign := if lead < 0 then ['-'] else if layout.signedExponent then ['+'] else []
    mantissa ds ++ 'e' :: (sign ++ Nat.toDigits 10 lead.natAbs)

theorem write_eq (layout : FloatLayout) (x : Binary64) :
    layout.write x = String.ofList
      (let text := if x.isZero then ['0', '.', '0']
        else layout.body (Nat.toDigits 10 (Shortest.decimal x).1) (Shortest.decimal x).2
      if x.negative then '-' :: text else text) :=
  rfl

end FloatLayout

namespace NumberText

open JsonText

theorem ofDigitChars_zeros (count value : Nat) :
    Nat.ofDigitChars 10 (List.replicate count '0') value = value * 10 ^ count := by
  rw [Nat.ofDigitChars_replicate_zero, Nat.mul_comm]

theorem isDigits_zero : IsDigits ['0'] :=
  ⟨List.cons_ne_nil _ _, fun _ hc => List.mem_singleton.mp hc ▸ rfl⟩

section

variable {ds : List Char} {unit : Int} (hds : IsDigits ds)

include hds

/-- Zeros fill the places up to the point, and one stands behind it. -/
theorem spells_zeros (hunit : 0 ≤ unit) :
    Spells (ds ++ List.replicate unit.toNat '0' ++ ['.', '0']) (Nat.ofDigitChars 10 ds 0) unit := by
  obtain ⟨n, rfl⟩ := Int.eq_ofNat_of_zero_le hunit
  refine spells_point (hds.append isDigit_of_mem_zeros) isDigits_zero ?_
  rw [Int.toNat_natCast, List.append_assoc, ← List.replicate_succ', Nat.ofDigitChars_append,
    ofDigitChars_zeros]
  push_cast
  rw [List.length_singleton, Nat.cast_one, zpow_natCast, pow_succ, zpow_neg_one]
  field_simp

/-- The last of the digits stand behind the point. -/
theorem spells_split {place : Nat} (hplace : 0 < place) (hunit : unit + ds.length = place)
    (hneg : unit < 0) :
    Spells (ds.take place ++ '.' :: ds.drop place) (Nat.ofDigitChars 10 ds 0) unit := by
  have htake : IsDigits (ds.take place) :=
    ⟨fun h => by rcases List.take_eq_nil_iff.mp h with h | h <;> [omega; exact hds.ne_nil h],
      fun c hc => hds.digit c (List.mem_of_mem_take hc)⟩
  have hdrop : IsDigits (ds.drop place) :=
    ⟨fun h => by have := List.drop_eq_nil_iff.mp h; omega,
      fun c hc => hds.digit c (List.mem_of_mem_drop hc)⟩
  refine spells_point htake hdrop ?_
  rw [List.take_append_drop, List.length_drop]
  congr 2
  omega

/-- All of the digits stand behind the point, after zeros. -/
theorem spells_leading {count : Nat} (hunit : unit + ds.length + count = 0) :
    Spells ('0' :: '.' :: (List.replicate count '0' ++ ds)) (Nat.ofDigitChars 10 ds 0) unit := by
  refine spells_point isDigits_zero ⟨fun h => hds.ne_nil (List.append_eq_nil_iff.mp h).2, ?_⟩ ?_
  · exact fun c hc => (List.mem_append.mp hc).elim (isDigit_of_mem_zeros c) (hds.digit c)
  · rw [← List.append_assoc, Nat.ofDigitChars_append, Nat.ofDigitChars_append,
      ofDigitChars_zeros, List.length_append, List.length_replicate]
    rw [show Nat.ofDigitChars 10 ['0'] 0 = 0 from rfl, Nat.zero_mul]
    congr 2
    omega

/-- The point stands behind the first digit, if there are more, and an exponent behind them all. -/
theorem spells_power {tail : List Char} (hunit : exponent? ('e' :: tail) =
      some (unit + (ds.length : Int) - 1)) :
    Spells (FloatLayout.mantissa ds ++ 'e' :: tail) (Nat.ofDigitChars 10 ds 0) unit := by
  have hmark : NoDigit ('e' :: tail) := fun _ hc => by cases hc; decide
  match ds, hds, hunit with
  | [], hds, _ => exact absurd rfl hds.ne_nil
  | [d], hds, hunit =>
    refine spells_whole hds hmark (by simp) hunit ?_
    congr 2
    simp
  | d :: e :: rest, hds, hunit =>
    have hd : IsDigits [d] := ⟨List.cons_ne_nil _ _, fun c hc =>
      hds.digit c (List.mem_singleton.mp hc ▸ List.mem_cons_self ..)⟩
    have hrest : IsDigits (e :: rest) := ⟨List.cons_ne_nil _ _, fun c hc =>
      hds.digit c (List.mem_cons_of_mem _ hc)⟩
    refine spells_fraction hd hrest hmark hunit ?_
    rw [List.singleton_append]
    congr 2
    simp only [List.length_cons]
    omega

end

end NumberText

namespace FloatLayout

open JsonText NumberText in
/-- The text of a magnitude spells its digits. -/
theorem body_spells (layout : FloatLayout) (digits : Nat) (unit : Int) :
    Spells (layout.body (Nat.toDigits 10 digits) unit) digits unit := by
  have hds : IsDigits (Nat.toDigits 10 digits) := isDigits_toDigits digits
  have hvalue : Nat.ofDigitChars 10 (Nat.toDigits 10 digits) 0 = digits :=
    Nat.ofDigitChars_toDigits (by decide) (by decide)
  generalize Nat.toDigits 10 digits = ds at hds hvalue ⊢
  rw [← hvalue]
  unfold body
  dsimp only
  split
  next =>
    split
    next hunit => exact spells_zeros hds hunit
    next hunit =>
      split
      next hlead => exact spells_split hds (Nat.succ_pos _) (by omega) (by omega)
      next hlead => exact spells_leading hds (by omega)
  next => exact spells_power hds (exponent?_power _ layout.signedExponent)

end FloatLayout

open NumberText in
/-- A value is read from its text, whatever the layout. -/
theorem NumberText.decimal?_write (layout : FloatLayout) {x : Binary64} (hx : x.Canonical) :
    NumberText.decimal? (layout.write x).toList = some x := by
  rw [FloatLayout.write_eq, String.toList_ofList]
  by_cases hzero : x.significand = 0
  · have hexponent := hx.full.resolve_left (by omega)
    obtain ⟨negative, significand, exponent⟩ := x
    obtain rfl : significand = 0 := hzero
    obtain rfl : exponent = Binary64.minExponent := hexponent
    cases negative <;> rfl
  · obtain ⟨hdigits, hrounds⟩ := Shortest.decimal_rounds hx.toNormal hzero
    have hspells := layout.body_spells (Shortest.decimal x).1 (Shortest.decimal x).2
    have hnonzero : ¬x.isZero = true := by simpa [Binary64.isZero] using hzero
    dsimp only
    rw [if_neg hnonzero]
    exact hspells.decimal? hx hzero hdigits hrounds

end PageBlocks
