import PageBlocks.Value.Reader
import PageBlocks.Value.Writer

/-!
# Numerals

What numbers are written as: digits, then perhaps a fraction, then perhaps an
exponent. The reader takes a numeral up to its end whatever stands behind it in
a JSON text, so the value of a numeral is its own matter:

> `Numeral.read`: one outcome for a numeral, before everything that may follow.

Which float the digits are read as is not said here, and in a text of too many
digits there may be none.
-/

namespace PageBlocks.JsonText

/-- What may stand behind a value in a compact text: nothing, or a character that no number has. -/
def Stops (rest : List Char) : Prop :=
  rest = [] ∨ ∃ c r, rest = c :: r ∧ (c = ',' ∨ c = ']' ∨ c = '\x7d')

/-- One or more decimal digits. -/
structure IsDigits (ds : List Char) : Prop where
  ne_nil : ds ≠ []
  digit : ∀ c ∈ ds, c.isDigit = true

/-- Digits, with or without a fraction and an exponent. -/
inductive Numeral : List Char → Prop
  | whole {ds : List Char} : IsDigits ds → Numeral ds
  | fraction {ds fs : List Char} : IsDigits ds → IsDigits fs → Numeral (ds ++ '.' :: fs)
  | power {ds sign es : List Char} : IsDigits ds → IsDigits es →
      sign = [] ∨ sign = ['-'] ∨ sign = ['+'] → Numeral (ds ++ 'e' :: (sign ++ es))
  | fractionPower {ds fs sign es : List Char} : IsDigits ds → IsDigits fs → IsDigits es →
      sign = [] ∨ sign = ['-'] ∨ sign = ['+'] →
      Numeral (ds ++ '.' :: (fs ++ 'e' :: (sign ++ es)))

/-! ## Reading -/

/-- The digit of a character, if it is one. -/
theorem ofChar?_digit {c : Char} (h : c.isDigit = true) :
    Digits.ofChar? c = some (c.toNat - '0'.toNat) := by
  have hrange : '0' ≤ c ∧ c ≤ '9' := by
    simpa [Char.isDigit, Char.le_def] using h
  exact if_pos hrange

/-- A text that no digit starts. -/
def NoDigit (rest : List Char) : Prop := ∀ c ∈ rest.head?, Digits.ofChar? c = none

theorem Stops.noDigit {rest : List Char} (h : Stops rest) : NoDigit rest := by
  intro c hc
  rcases h with rfl | ⟨d, r, rfl, hd⟩
  · cases hc
  · cases hc
    rcases hd with rfl | rfl | rfl <;> decide

theorem Significand.take_stop (s : Significand) {rest : List Char} (h : NoDigit rest) :
    s.take rest = (s, rest) := by
  cases rest with
  | nil => rw [Significand.take]
  | cons c r =>
    have hnone : Digits.ofChar? c = none := h c rfl
    rw [Significand.take, hnone]

/-- Digits are taken up to their end. -/
theorem Significand.take_digits :
    ∀ {ds : List Char} (s : Significand), (∀ c ∈ ds, c.isDigit = true) →
      ∃ t, ∀ rest, NoDigit rest → s.take (ds ++ rest) = (t, rest) := by
  intro ds
  induction ds with
  | nil =>
    intro s _
    exact ⟨s, fun rest hrest => s.take_stop hrest⟩
  | cons c ds ih =>
    intro s h
    have hd := ofChar?_digit (h c (List.mem_cons_self ..))
    generalize c.toNat - '0'.toNat = d at hd
    have hds : ∀ c ∈ ds, c.isDigit = true := fun c hc => h c (List.mem_cons_of_mem _ hc)
    by_cases hfits : s.dropped = 0 ∧ 10 * s.value + d < Nat.pow 2 64
    · obtain ⟨t, ht⟩ := ih { s with value := 10 * s.value + d, kept := s.kept + 1 } hds
      refine ⟨t, fun rest hrest => ?_⟩
      rw [List.cons_append, Significand.take, hd]
      dsimp only
      rw [if_pos hfits, ht rest hrest]
    · obtain ⟨t, ht⟩ := ih { s with dropped := s.dropped + 1 } hds
      refine ⟨t, fun rest hrest => ?_⟩
      rw [List.cons_append, Significand.take, hd]
      dsimp only
      rw [if_neg hfits, ht rest hrest]

/-- Digits are read up to their end. -/
theorem Digits.read_digits :
    ∀ {ds : List Char} (value count : Nat) {rest : List Char}, (∀ c ∈ ds, c.isDigit = true) →
      NoDigit rest → Digits.read value count (ds ++ rest) =
        (Nat.ofDigitChars 10 ds value, count + ds.length, rest) := by
  intro ds
  induction ds with
  | nil =>
    intro value count rest _ hrest
    cases rest with
    | nil => rw [List.nil_append, Digits.read]; rfl
    | cons c r =>
      have hnone : Digits.ofChar? c = none := hrest c rfl
      rw [List.nil_append, Digits.read, hnone]
      rfl
  | cons c ds ih =>
    intro value count rest h hrest
    have hds : ∀ c ∈ ds, c.isDigit = true := fun c hc => h c (List.mem_cons_of_mem _ hc)
    rw [List.cons_append, Digits.read, ofChar?_digit (h c (List.mem_cons_self ..))]
    dsimp only
    rw [ih _ _ hds hrest, Nat.ofDigitChars_cons, List.length_cons]
    congr 2
    omega

/-- Digits are not signed. -/
theorem IsDigits.sign {ds : List Char} (h : IsDigits ds) (rest : List Char) :
    NumberText.sign (ds ++ rest) = (false, ds ++ rest) := by
  obtain ⟨c, ds, rfl⟩ := List.exists_cons_of_ne_nil h.ne_nil
  have hc := h.digit c (List.mem_cons_self ..)
  unfold NumberText.sign
  split
  next h => cases h; exact absurd hc (by decide)
  next h => cases h; exact absurd hc (by decide)
  next => rfl

/-- The exponent behind its mark, up to its end. -/
theorem exponent?_read {sign es : List Char} (hes : IsDigits es)
    (hsign : sign = [] ∨ sign = ['-'] ∨ sign = ['+']) :
    ∃ n, ∀ rest, NoDigit rest → exponent? (sign ++ es ++ rest) = some (n, rest) := by
  have hpos : es.length ≠ 0 := fun h => hes.ne_nil (List.length_eq_zero_iff.mp h)
  have hread : ∀ (negative : Bool) (body rest : List Char), NoDigit rest →
      NumberText.sign body = (negative, es ++ rest) →
      exponent? body = some (if negative then -(Nat.ofDigitChars 10 es 0 : Int)
        else Nat.ofDigitChars 10 es 0, rest) := by
    intro negative body rest hrest hbody
    unfold exponent?
    rw [hbody]
    dsimp only
    rw [Digits.read_digits 0 0 hes.digit hrest]
    obtain ⟨k, hk⟩ := Nat.exists_eq_succ_of_ne_zero hpos
    rw [Nat.zero_add, hk]
    rfl
  rcases hsign with rfl | rfl | rfl
  · exact ⟨_, fun rest hrest => hread false _ rest hrest (hes.sign rest)⟩
  · exact ⟨_, fun rest hrest => hread true _ rest hrest rfl⟩
  · exact ⟨_, fun rest hrest => hread false _ rest hrest rfl⟩

theorem head?_append_left {ds : List Char} (h : IsDigits ds) (more : List Char) :
    (ds ++ more).head? = ds.head? := by
  obtain ⟨c, r, rfl⟩ := List.exists_cons_of_ne_nil h.ne_nil
  rfl

/-- Whether the whole part of a number is missing or has a zero too many. -/
def Misshapen (ds : List Char) (whole : Significand) : Prop :=
  whole.kept = 0 ∨ (ds.head? = some '0' ∧ whole.kept + whole.dropped ≠ 1)

instance (ds : List Char) (whole : Significand) : Decidable (Misshapen ds whole) :=
  inferInstanceAs (Decidable (_ ∨ _))

/-- A numeral has one outcome, before everything that may follow. -/
theorem Numeral.read {text : List Char} (h : Numeral text) (negative : Bool) :
    ∃ v : Option Value, ∀ rest, Stops rest →
      unsignedNumber? negative (text ++ rest) = v.map fun w => (w, rest) := by
  -- The point and the mark of the power end the digits before them.
  have hpoint : ∀ r, NoDigit ('.' :: r) := fun r c hc => by cases hc; decide
  have hmark : ∀ r, NoDigit ('e' :: r) := fun r c hc => by cases hc; decide
  -- In every form the outcome is fixed by what the digits are read as, before what follows is seen.
  cases h with
  | whole hds =>
    obtain ⟨t, ht⟩ := Significand.take_digits ⟨0, 0, 0⟩ hds.digit
    refine ⟨if Misshapen text t then none
      else plainNumber? negative false t { t with kept := 0, dropped := 0 }, fun rest hrest => ?_⟩
    unfold unsignedNumber?
    rw [ht rest hrest.noDigit, head?_append_left hds]
    show (if Misshapen text t then none else _) = _
    split
    next => rfl
    next => rcases hrest with rfl | ⟨c, r, rfl, rfl | rfl | rfl⟩ <;> simp
  | @fraction ds fs hds hfs =>
    obtain ⟨t, ht⟩ := Significand.take_digits ⟨0, 0, 0⟩ hds.digit
    obtain ⟨u, hu⟩ := Significand.take_digits { t with kept := 0, dropped := 0 } hfs.digit
    refine ⟨if Misshapen ds t ∨ (u.kept = 0 ∧ u.dropped = 0) then none
      else plainNumber? negative true t u, fun rest hrest => ?_⟩
    unfold unsignedNumber?
    rw [List.append_assoc, List.cons_append, ht _ (hpoint _), head?_append_left hds]
    show (if Misshapen ds t then none else _) = _
    by_cases hbad : Misshapen ds t
    · rw [if_pos hbad, if_pos (Or.inl hbad)]
      rfl
    · rw [if_neg hbad]
      simp only [List.head?_cons, List.tail_cons, if_pos, hu rest hrest.noDigit, true_and, hbad,
        false_or]
      split
      next => rfl
      next => rcases hrest with rfl | ⟨c, r, rfl, rfl | rfl | rfl⟩ <;> simp
  | @power ds sign es hds hes hsign =>
    obtain ⟨t, ht⟩ := Significand.take_digits ⟨0, 0, 0⟩ hds.digit
    obtain ⟨n, hn⟩ := exponent?_read hes hsign
    refine ⟨if Misshapen ds t then none
      else float? negative t.value ((t.dropped : Int) - (0 : Nat) + n), fun rest hrest => ?_⟩
    unfold unsignedNumber?
    rw [List.append_assoc, List.cons_append, ht _ (hmark _), head?_append_left hds]
    show (if Misshapen ds t then none else _) = _
    split
    next => rfl
    next =>
      simp only [List.head?_cons, Option.some.injEq, Char.reduceEq, if_false, false_and,
        hn rest hrest.noDigit, Option.bind_eq_bind, Option.bind_some, Option.map_eq_bind]
      rfl
  | @fractionPower ds fs sign es hds hfs hes hsign =>
    obtain ⟨t, ht⟩ := Significand.take_digits ⟨0, 0, 0⟩ hds.digit
    obtain ⟨u, hu⟩ := Significand.take_digits { t with kept := 0, dropped := 0 } hfs.digit
    obtain ⟨n, hn⟩ := exponent?_read hes hsign
    refine ⟨if Misshapen ds t ∨ (u.kept = 0 ∧ u.dropped = 0) then none
      else float? negative u.value ((t.dropped : Int) - u.kept + n), fun rest hrest => ?_⟩
    unfold unsignedNumber?
    rw [List.append_assoc, List.cons_append, ht _ (hpoint _), head?_append_left hds]
    show (if Misshapen ds t then none else _) = _
    by_cases hbad : Misshapen ds t
    · rw [if_pos hbad, if_pos (Or.inl hbad)]
      rfl
    · rw [if_neg hbad, List.append_assoc]
      simp only [List.head?_cons, List.tail_cons, if_pos, List.cons_append, hu _ (hmark _),
        true_and, hbad, false_or]
      split
      next => rfl
      next =>
        simp only [hn rest hrest.noDigit, Option.bind_eq_bind, Option.bind_some, Option.map_eq_bind]
        rfl

/-- What a text that may begin with a minus sign is read as. -/
def readNumber? : List Char → Option Value
  | '-' :: rest => (unsignedNumber? true rest).map (·.1)
  | text => (unsignedNumber? false text).map (·.1)

/-- An integer or a float. -/
inductive IsNumber : Value → Prop
  | int (n : Int) : IsNumber (.int n)
  | float (x : Binary64) : IsNumber (.float x)

theorem isNumber_of_float? {negative : Bool} {significand : Nat} {exponent : Int} {v : Value}
    (h : float? negative significand exponent = some v) : IsNumber v := by
  unfold float? at h
  obtain ⟨x, -, h⟩ := Option.bind_eq_some_iff.mp h
  obtain ⟨y, -, h⟩ := Option.bind_eq_some_iff.mp h
  cases h
  exact .float y

section

/-! What holds of all integers, and of whatever a significand and an exponent make, holds of every
number that is read. -/

variable {P : Value → Prop} (hint : ∀ n, P (.int n))
  (hfloat : ∀ {negative significand exponent v},
    float? negative significand exponent = some v → P v)

include hint hfloat

theorem of_plainNumber? {negative point : Bool} {whole all : Significand} {v : Value}
    (h : plainNumber? negative point whole all = some v) : P v := by
  unfold plainNumber? at h
  split at h
  next => exact hfloat h
  next =>
    split at h
    next =>
      split at h
      next => exact hfloat h
      next => cases h; exact hint _
    next => cases h; exact hint _

theorem of_unsignedNumber? {negative : Bool} {text : List Char} {p : Value × List Char}
    (h : unsignedNumber? negative text = some p) : P p.1 := by
  have hpower : ∀ {tail : List Char} {f : Int → Option Value},
      (∀ n v, f n = some v → P v) →
      ((exponent? tail).bind fun e => (f e.1).bind fun v => some (v, e.2)) = some p →
      P p.1 := by
    intro tail f hf h
    obtain ⟨e, -, h⟩ := Option.bind_eq_some_iff.mp h
    obtain ⟨v, hv, h⟩ := Option.bind_eq_some_iff.mp h
    cases h
    exact hf _ _ hv
  unfold unsignedNumber? at h
  obtain ⟨whole, rest⟩ := Significand.take ⟨0, 0, 0⟩ text
  dsimp only at h
  split at h
  next => cases h
  next =>
    split at h
    all_goals
      split at h
      next => cases h
      next =>
        split at h
        next => exact hpower (fun _ _ => hfloat) h
        next => exact hpower (fun _ _ => hfloat) h
        next =>
          obtain ⟨v, hv, rfl⟩ := Option.map_eq_some_iff.mp h
          exact of_plainNumber? hint hfloat hv

end

/-- Whatever a number is read as is a number. -/
theorem isNumber_of_readNumber? {text : List Char} {v : Value} (h : readNumber? text = some v) :
    IsNumber v := by
  unfold readNumber? at h
  split at h <;>
    obtain ⟨p, hp, rfl⟩ := Option.map_eq_some_iff.mp h <;>
    exact of_unsignedNumber? .int isNumber_of_float? hp

/-! ## Writing -/

theorem isDigits_toDigits (n : Nat) : IsDigits (Nat.toDigits 10 n) where
  ne_nil := Nat.toDigits_ne_nil
  digit := fun _ hc => Nat.isDigit_of_mem_toDigits (by decide) (by decide) hc

theorem IsDigits.append {ds es : List Char} (hds : IsDigits ds) (hes : ∀ c ∈ es, c.isDigit = true) :
    IsDigits (ds ++ es) where
  ne_nil := fun h => hds.ne_nil (List.append_eq_nil_iff.mp h).1
  digit := fun c hc => (List.mem_append.mp hc).elim (hds.digit c) (hes c)

theorem isDigit_of_mem_zeros {n : Nat} : ∀ c ∈ List.replicate n '0', c.isDigit = true := by
  intro c hc
  rw [(List.mem_replicate.mp hc).2]
  decide

/-- A numeral, perhaps behind a minus sign. -/
inductive SignedNumeral : List Char → Prop
  | plus {text : List Char} : Numeral text → SignedNumeral text
  | minus {text : List Char} : Numeral text → SignedNumeral ('-' :: text)

theorem Numeral.exists_digit {text : List Char} (h : Numeral text) :
    ∃ c r, text = c :: r ∧ c.isDigit = true := by
  have hfirst : ∀ {ds more : List Char}, IsDigits ds →
      ∃ c r, ds ++ more = c :: r ∧ c.isDigit = true := by
    intro ds more hds
    obtain ⟨c, r, rfl⟩ := List.exists_cons_of_ne_nil hds.ne_nil
    exact ⟨c, r ++ more, rfl, hds.digit c (List.mem_cons_self ..)⟩
  cases h with
  | whole hds =>
    rw [← List.append_nil text]
    exact hfirst hds
  | fraction hds _ => exact hfirst hds
  | power hds _ _ => exact hfirst hds
  | fractionPower hds _ _ _ => exact hfirst hds

theorem SignedNumeral.length_pos {text : List Char} (h : SignedNumeral text) : 0 < text.length := by
  cases h with
  | plus hnum =>
    obtain ⟨c, r, rfl, -⟩ := hnum.exists_digit
    exact Nat.succ_pos _
  | minus hnum => exact Nat.succ_pos _

/-- Integers are written as the digits of their magnitude, perhaps behind a minus sign. -/
theorem toList_int (n : Int) : (toString n).toList =
    if n < 0 then '-' :: Nat.toDigits 10 n.natAbs else Nat.toDigits 10 n.natAbs := by
  cases n with
  | ofNat n =>
    show (toString n).toList = Nat.toDigits 10 n
    rw [Nat.toString_eq_ofList_toDigits, String.toList_ofList]
  | negSucc n =>
    rw [if_pos (Int.negSucc_lt_zero n)]
    show ("-" ++ toString (n + 1)).toList = '-' :: Nat.toDigits 10 (n + 1)
    rw [Nat.toString_eq_ofList_toDigits]
    simp only [String.toList_append, String.toList_ofList]
    rfl

/-- Integers are written as numerals. -/
theorem signedNumeral_int (n : Int) : SignedNumeral (toString n).toList := by
  rw [toList_int]
  split
  · exact .minus (.whole (isDigits_toDigits _))
  · exact .plus (.whole (isDigits_toDigits _))

/-- Floats are written as numerals. -/
theorem signedNumeral_float (x : Binary64) : SignedNumeral (FloatLayout.json.write x).toList := by
  have hsigned : ∀ {body : List Char}, Numeral body →
      SignedNumeral (String.ofList (if x.negative then '-' :: body else body)).toList := by
    intro body hbody
    rw [String.toList_ofList]
    split
    next => exact .minus hbody
    next => exact .plus hbody
  have hzero : IsDigits ['0'] := by
    refine ⟨List.cons_ne_nil _ _, fun c hc => ?_⟩
    rw [List.mem_singleton.mp hc]
    rfl
  unfold FloatLayout.write
  -- Which digits are the shortest plays no part here, nor does the unit of the last one.
  generalize Shortest.decimal x = shortest
  obtain ⟨digits, unit⟩ := shortest
  have hds : IsDigits (Nat.toDigits 10 digits) := isDigits_toDigits digits
  dsimp only
  revert hds
  generalize Nat.toDigits 10 digits = ds
  intro hds
  refine hsigned ?_
  have hpos : 0 < ds.length := List.length_pos_iff.mpr hds.ne_nil
  split
  next => exact .fraction hzero hzero
  next =>
    split
    next =>
      split
      next => exact .fraction (hds.append isDigit_of_mem_zeros) hzero
      next hunit =>
        split
        next hlead =>
          -- The last of the digits stand behind the point.
          refine .fraction ⟨?_, fun c hc => hds.digit c (List.mem_of_mem_take hc)⟩
            ⟨?_, fun c hc => hds.digit c (List.mem_of_mem_drop hc)⟩
          · intro hnil
            rcases List.take_eq_nil_iff.mp hnil with h | h
            · omega
            · exact hds.ne_nil h
          · intro hnil
            have hlen := List.drop_eq_nil_iff.mp hnil
            omega
        next =>
          -- All of the digits stand behind the point, after zeros.
          have hzeros : IsDigits
              (List.replicate (-(unit + (ds.length : Int) - 1) - 1).toNat '0' ++ ds) :=
            ⟨fun h => hds.ne_nil (List.append_eq_nil_iff.mp h).2, fun c hc =>
              (List.mem_append.mp hc).elim (isDigit_of_mem_zeros c) (hds.digit c)⟩
          exact .fraction hzero hzeros
    next =>
      have hes := isDigits_toDigits (unit + (ds.length : Int) - 1).natAbs
      have hsign : ∀ lead : Int, (if lead < 0 then ['-']
          else if FloatLayout.json.signedExponent then ['+'] else []) = [] ∨
          (if lead < 0 then ['-'] else if FloatLayout.json.signedExponent then ['+'] else []) =
            ['-'] ∨
          (if lead < 0 then ['-'] else if FloatLayout.json.signedExponent then ['+'] else []) =
            ['+'] := by
        intro lead
        split
        next => exact Or.inr (Or.inl rfl)
        next => exact Or.inr (Or.inr rfl)
      split
      next d e rest _ =>
        have hd : IsDigits [d] := ⟨List.cons_ne_nil _ _, fun c hc =>
          hds.digit c (List.mem_singleton.mp hc ▸ List.mem_cons_self ..)⟩
        have hrest : IsDigits (e :: rest) := ⟨List.cons_ne_nil _ _, fun c hc =>
          hds.digit c (List.mem_cons_of_mem _ hc)⟩
        exact .fractionPower hd hrest hes (hsign _)
      next => exact .power hds hes (hsign _)

end PageBlocks.JsonText
