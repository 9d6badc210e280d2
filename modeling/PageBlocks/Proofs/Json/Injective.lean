import PageBlocks.Proofs.Definitions.Decoded
import PageBlocks.Proofs.Json.Spelling
import PageBlocks.Proofs.Number.Text

/-!
# The compact text determines its value

As a text each value stands apart from all others: its first character tells its
kind, brackets, commas and quotes tell where its parts end, integers have
neither point nor exponent, and floats have the digits that are rounded to them.
A reader need not give back the value it was written from: it may take floats
over only nearly.

> `Value.compact_injective`: values with the same compact text are equal.
-/

namespace PageBlocks

namespace JsonText

/-! ## Kinds -/

/-- What the first character of a text tells of its value. -/
inductive Kind where
  | null
  | no
  | yes
  | number
  | text
  | array
  | object
deriving DecidableEq

/-- The kind of value that a character begins. -/
def kindOf? (c : Char) : Option Kind :=
  if c = 'n' then some .null
  else if c = 'f' then some .no
  else if c = 't' then some .yes
  else if c = '"' then some .text
  else if c = '[' then some .array
  else if c = '\x7b' then some .object
  else if c = '-' ∨ c.isDigit = true then some .number
  else none

def kind : Value → Kind
  | .null => .null
  | .bool false => .no
  | .bool true => .yes
  | .int _ => .number
  | .float _ => .number
  | .string _ => .text
  | .array _ => .array
  | .object _ => .object

/-- Two values of one kind. -/
inductive SameKind : Value → Value → Prop
  | null : SameKind .null .null
  | bool (b : Bool) : SameKind (.bool b) (.bool b)
  | ints (n m : Int) : SameKind (.int n) (.int m)
  | intFloat (n : Int) (y : Binary64) : SameKind (.int n) (.float y)
  | floatInt (x : Binary64) (m : Int) : SameKind (.float x) (.int m)
  | floats (x y : Binary64) : SameKind (.float x) (.float y)
  | strings (s t : String) : SameKind (.string s) (.string t)
  | arrays (vs ws : List Value) : SameKind (.array vs) (.array ws)
  | objects (ms ns : List (String × Value)) : SameKind (.object ms) (.object ns)

theorem sameKind {v w : Value} (h : kind v = kind w) : SameKind v w := by
  cases v with
  | bool b =>
    cases w with
    | bool b' => cases b <;> cases b' <;> first | exact .bool _ | cases h
    | _ => cases b <;> cases h
  | _ =>
    cases w with
    | bool b => cases b <;> cases h
    | _ => first | constructor | cases h

theorem kindOf?_digit {c : Char} (h : c.isDigit = true) : kindOf? c = some .number := by
  have hne : ∀ d : Char, d.isDigit = false → c ≠ d := by
    rintro d hd rfl
    rw [hd] at h
    cases h
  unfold kindOf?
  rw [if_neg (hne _ rfl), if_neg (hne _ rfl), if_neg (hne _ rfl), if_neg (hne _ rfl),
    if_neg (hne _ rfl), if_neg (hne _ rfl), if_pos (Or.inr h)]

theorem SignedNumeral.kind {text : List Char} (h : SignedNumeral text) :
    ∃ c r, text = c :: r ∧ kindOf? c = some .number := by
  cases h with
  | plus hnum =>
    obtain ⟨c, r, rfl, hc⟩ := hnum.exists_digit
    exact ⟨c, r, rfl, kindOf?_digit hc⟩
  | minus => exact ⟨'-', _, rfl, rfl⟩

/-- The first character of a text tells the kind of its value. -/
theorem compact_kind (v : Value) : ∃ c r, v.compact.toList = c :: r ∧ kindOf? c = some (kind v) := by
  cases v with
  | null => exact ⟨'n', _, rfl, rfl⟩
  | bool b => cases b <;> exact ⟨_, _, rfl, rfl⟩
  | int n => exact (signedNumeral_int n).kind
  | float x => exact (signedNumeral_float x).kind
  | string s => exact ⟨'"', _, by rw [Value.compact, quote_toList], rfl⟩
  | array items =>
    cases items with
    | nil => exact ⟨'[', _, rfl, rfl⟩
    | cons v rest => exact ⟨'[', _, compact_array_cons v rest, rfl⟩
  | object members =>
    cases members with
    | nil => exact ⟨'\x7b', _, rfl, rfl⟩
    | cons e rest => exact ⟨'\x7b', _, compact_object_cons e rest, rfl⟩

theorem kind_eq {v w : Value} {rest rest' : List Char}
    (h : v.compact.toList ++ rest = w.compact.toList ++ rest') : kind v = kind w := by
  obtain ⟨c, r, hv, hc⟩ := compact_kind v
  obtain ⟨c', r', hw, hc'⟩ := compact_kind w
  rw [hv, hw, List.cons_append, List.cons_append] at h
  rw [(List.cons.inj h).1, hc'] at hc
  exact (Option.some.inj hc).symm

/-- No value begins with the end of another. -/
theorem compact_ne_closing {v : Value} {c : Char} (hc : kindOf? c = none) (rest rest' : List Char) :
    c :: rest ≠ v.compact.toList ++ rest' := by
  intro h
  obtain ⟨d, r, hv, hd⟩ := compact_kind v
  rw [hv, List.cons_append] at h
  rw [← (List.cons.inj h).1, hc] at hd
  cases hd

/-! ## Numbers -/

/-- A character of a number. -/
def isNumberChar (c : Char) : Bool := c.isDigit || c = '.' || c = 'e' || c = '-' || c = '+'

theorem Numeral.isNumberChar {text : List Char} (h : Numeral text) :
    ∀ c ∈ text, isNumberChar c = true := by
  have hdigits : ∀ {ds : List Char}, IsDigits ds → ∀ c ∈ ds, JsonText.isNumberChar c = true := by
    intro ds hds c hc
    simp [JsonText.isNumberChar, hds.digit c hc]
  have hsigns : ∀ {sign : List Char}, sign = [] ∨ sign = ['-'] ∨ sign = ['+'] →
      ∀ c ∈ sign, JsonText.isNumberChar c = true := by
    rintro sign (rfl | rfl | rfl) <;> simp [JsonText.isNumberChar]
  have happend : ∀ {as bs : List Char}, (∀ c ∈ as, JsonText.isNumberChar c = true) →
      (∀ c ∈ bs, JsonText.isNumberChar c = true) →
        ∀ c ∈ as ++ bs, JsonText.isNumberChar c = true :=
    fun has hbs c hc => (List.mem_append.mp hc).elim (has c) (hbs c)
  have hcons : ∀ {d : Char} {as : List Char}, JsonText.isNumberChar d = true →
      (∀ c ∈ as, JsonText.isNumberChar c = true) →
        ∀ c ∈ d :: as, JsonText.isNumberChar c = true :=
    fun hd has c hc => (List.mem_cons.mp hc).elim (fun h => h ▸ hd) (has c)
  cases h with
  | whole hds => exact hdigits hds
  | fraction hds hfs => exact happend (hdigits hds) (hcons (by decide) (hdigits hfs))
  | power hds hes hsign =>
    exact happend (hdigits hds) (hcons (by decide) (happend (hsigns hsign) (hdigits hes)))
  | fractionPower hds hfs hes hsign =>
    exact happend (hdigits hds) (hcons (by decide) (happend (hdigits hfs)
      (hcons (by decide) (happend (hsigns hsign) (hdigits hes)))))

/-- A number ends where no character of a number follows. -/
theorem SignedNumeral.takeWhile {text rest : List Char} (h : SignedNumeral text)
    (hrest : Stops rest) : (text ++ rest).takeWhile isNumberChar = text := by
  have htext : ∀ c ∈ text, isNumberChar c = true := by
    cases h with
    | plus hnum => exact hnum.isNumberChar
    | minus hnum =>
      intro c hc
      rcases List.mem_cons.mp hc with rfl | hc
      · rfl
      · exact hnum.isNumberChar c hc
  have hnone : rest.takeWhile isNumberChar = [] := by
    rcases hrest with rfl | ⟨c, r, rfl, rfl | rfl | rfl⟩ <;> rfl
  rw [List.takeWhile_append_of_pos htext, hnone, List.append_nil]

theorem SignedNumeral.append_inj {text text' rest rest' : List Char} (h : SignedNumeral text)
    (h' : SignedNumeral text') (hrest : Stops rest) (hrest' : Stops rest')
    (heq : text ++ rest = text' ++ rest') : text = text' ∧ rest = rest' := by
  have htext : text = text' := by
    rw [← h.takeWhile hrest, heq, h'.takeWhile hrest']
  subst htext
  exact ⟨rfl, List.append_cancel_left heq⟩

/-- An integer has neither point nor exponent. -/
theorem int_unmarked (n : Int) : ∀ c ∈ (toString n).toList, ¬(c = '.' ∨ c = 'e') := by
  have hdigits : ∀ c ∈ Nat.toDigits 10 n.natAbs, ¬(c = '.' ∨ c = 'e') := by
    rintro c hc (rfl | rfl) <;> exact absurd ((isDigits_toDigits _).digit _ hc) (by decide)
  rw [toList_int]
  split
  · exact fun c hc => (List.mem_cons.mp hc).elim (fun h => by rw [h]; decide) (hdigits c)
  · exact hdigits

theorem int_injective {n m : Int} (h : toString n = toString m) : n = m := by
  have hdigits : ∀ {a b : Nat}, Nat.toDigits 10 a = Nat.toDigits 10 b → a = b := by
    intro a b hab
    have hread := congrArg (Nat.ofDigitChars 10 · 0) hab
    simpa [Nat.ofDigitChars_toDigits] using hread
  have hminus : ∀ (a : Nat) (r : List Char), Nat.toDigits 10 a ≠ '-' :: r := fun a r ha =>
    absurd ((isDigits_toDigits a).digit '-' (ha ▸ List.mem_cons_self ..)) (by decide)
  have htext := congrArg String.toList h
  rw [toList_int, toList_int] at htext
  split at htext <;> split at htext
  · have := hdigits (List.cons.inj htext).2
    omega
  · exact absurd htext.symm (hminus _ _)
  · exact absurd htext (hminus _ _)
  · have := hdigits htext
    omega

/-- A float has a point or an exponent. -/
theorem float_marked (x : Binary64) :
    ∃ c ∈ (FloatLayout.json.write x).toList, c = '.' ∨ c = 'e' := by
  have hbody : ∀ ds unit, ∃ c ∈ FloatLayout.json.body ds unit, c = '.' ∨ c = 'e' := by
    intro ds unit
    unfold FloatLayout.body
    dsimp only
    split
    next =>
      refine ⟨'.', ?_, Or.inl rfl⟩
      split
      next => simp
      next => split <;> simp
    next => exact ⟨'e', by simp, Or.inr rfl⟩
  have hmagnitude : ∃ c ∈ (if x.isZero then ['0', '.', '0'] else FloatLayout.json.body
      (Nat.toDigits 10 (Shortest.decimal x).1) (Shortest.decimal x).2), c = '.' ∨ c = 'e' := by
    split
    next => exact ⟨'.', by decide, Or.inl rfl⟩
    next => exact hbody _ _
  obtain ⟨c, hc, hmark⟩ := hmagnitude
  refine ⟨c, ?_, hmark⟩
  rw [FloatLayout.write_eq, String.toList_ofList]
  dsimp only
  split
  · exact List.mem_cons_of_mem _ hc
  · exact hc

theorem float_injective {x y : Binary64} (hx : x.Canonical) (hy : y.Canonical)
    (h : FloatLayout.json.write x = FloatLayout.json.write y) : x = y := by
  have hread := NumberText.decimal?_write .json hx
  rw [h, NumberText.decimal?_write .json hy] at hread
  exact (Option.some.inj hread).symm

theorem int_ne_float (n : Int) (x : Binary64) : toString n ≠ FloatLayout.json.write x := by
  intro h
  obtain ⟨c, hc, hmark⟩ := float_marked x
  rw [← h] at hc
  exact int_unmarked n c hc hmark

/-! ## Strings -/

/-- A string ends with its closing quote. -/
theorem quote_append_inj {s t : String} {rest rest' : List Char}
    (h : (quote s).toList ++ rest = (quote t).toList ++ rest') : s = t ∧ rest = rest' := by
  have hread : ∀ (s : String) (count : Nat) (rest : List Char), s.toList.length < count →
      stringBody? count [] (((quote s).toList ++ rest).tail) = some (s, rest) := by
    intro s count rest hcount
    rw [quote_toList, List.cons_append, List.tail_cons, List.append_assoc]
    refine (stringBody?_escaped _ _ _ _ hcount).trans ?_
    rw [List.reverse_nil, List.nil_append, String.ofList_toList]
    rfl
  have hs := hread s (s.toList.length + t.toList.length + 1) rest (by omega)
  rw [h, hread t _ rest' (by omega)] at hs
  cases hs
  exact ⟨rfl, rfl⟩

/-! ## Values -/

theorem text_array_nil : (Value.array []).compact.toList = ['[', ']'] := rfl

theorem text_object_nil : (Value.object []).compact.toList = ['{', '}'] := rfl

theorem memberText_append (e : String × Value) (rest : List Char) :
    (memberText e).toList ++ rest =
      (quote e.1).toList ++ ':' :: (e.2.compact.toList ++ rest) := by
  rw [memberText, String.toList_append, String.toList_append, List.append_assoc, List.append_assoc]
  rfl

/-- The text of a value determines it and its own end, whatever follows. -/
def Determined (v : Value) : Prop :=
  ∀ w rest rest', w.HasFloats Binary64.Canonical → Stops rest → Stops rest' →
    v.compact.toList ++ rest = w.compact.toList ++ rest' → v = w ∧ rest = rest'

theorem itemsText_inj : ∀ {vs ws : List Value} {rest rest' : List Char},
    (∀ v ∈ vs, Determined v) → (∀ w ∈ ws, w.HasFloats Binary64.Canonical) →
      itemsText vs ++ ']' :: rest = itemsText ws ++ ']' :: rest' → vs = ws ∧ rest = rest'
  | [], [], rest, rest', _, _, h => ⟨rfl, (List.cons.inj h).2⟩
  | [], w :: ws, rest, rest', _, _, h => absurd (List.cons.inj h).1 (by decide)
  | v :: vs, [], rest, rest', _, _, h => absurd (List.cons.inj h).1 (by decide)
  | v :: vs, w :: ws, rest, rest', hvs, hws, h => by
    simp only [itemsText, List.flatMap_cons, List.cons_append, List.append_assoc] at h
    obtain ⟨rfl, hmore⟩ := hvs v (List.mem_cons_self ..) w _ _ (hws w (List.mem_cons_self ..))
      (stops_itemsText vs rest) (stops_itemsText ws rest') (List.cons.inj h).2
    obtain ⟨rfl, hrest⟩ := itemsText_inj (fun v hv => hvs v (List.mem_cons_of_mem _ hv))
      (fun w hw => hws w (List.mem_cons_of_mem _ hw)) hmore
    exact ⟨rfl, hrest⟩

theorem arrayText_inj : ∀ {vs ws : List Value} {rest rest' : List Char},
    (∀ v ∈ vs, Determined v) → (∀ w ∈ ws, w.HasFloats Binary64.Canonical) →
      (Value.array vs).compact.toList ++ rest = (Value.array ws).compact.toList ++ rest' →
        vs = ws ∧ rest = rest'
  | [], [], rest, rest', _, _, h => ⟨rfl, List.append_cancel_left h⟩
  | [], w :: ws, rest, rest', _, _, h => by
    rw [compact_array_cons, text_array_nil] at h
    simp only [List.cons_append, List.append_assoc] at h
    exact absurd (List.cons.inj h).2 (compact_ne_closing (by decide) _ _)
  | v :: vs, [], rest, rest', _, _, h => by
    rw [compact_array_cons, text_array_nil] at h
    simp only [List.cons_append, List.append_assoc] at h
    exact absurd (List.cons.inj h).2.symm (compact_ne_closing (by decide) _ _)
  | v :: vs, w :: ws, rest, rest', hvs, hws, h => by
    rw [compact_array_cons, compact_array_cons] at h
    simp only [List.cons_append, List.append_assoc, List.nil_append] at h
    obtain ⟨rfl, hmore⟩ := hvs v (List.mem_cons_self ..) w _ _ (hws w (List.mem_cons_self ..))
      (stops_itemsText vs rest) (stops_itemsText ws rest') (List.cons.inj h).2
    obtain ⟨rfl, hrest⟩ := itemsText_inj (fun v hv => hvs v (List.mem_cons_of_mem _ hv))
      (fun w hw => hws w (List.mem_cons_of_mem _ hw)) hmore
    exact ⟨rfl, hrest⟩

theorem membersText_inj : ∀ {ms ns : List (String × Value)} {rest rest' : List Char},
    (∀ e ∈ ms, Determined e.2) → (∀ e ∈ ns, e.2.HasFloats Binary64.Canonical) →
      membersText ms ++ '\x7d' :: rest = membersText ns ++ '\x7d' :: rest' →
        ms = ns ∧ rest = rest'
  | [], [], rest, rest', _, _, h => ⟨rfl, (List.cons.inj h).2⟩
  | [], e :: ns, rest, rest', _, _, h => absurd (List.cons.inj h).1 (by decide)
  | e :: ms, [], rest, rest', _, _, h => absurd (List.cons.inj h).1 (by decide)
  | (k, v) :: ms, (l, w) :: ns, rest, rest', hms, hns, h => by
    simp only [membersText, List.flatMap_cons, List.cons_append, List.append_assoc,
      memberText_append] at h
    obtain ⟨rfl, hvalue⟩ := quote_append_inj (List.cons.inj h).2
    obtain ⟨rfl, hmore⟩ := hms _ (List.mem_cons_self ..) w _ _ (hns _ (List.mem_cons_self ..))
      (stops_membersText ms rest) (stops_membersText ns rest') (List.cons.inj hvalue).2
    obtain ⟨rfl, hrest⟩ := membersText_inj (fun e he => hms e (List.mem_cons_of_mem _ he))
      (fun e he => hns e (List.mem_cons_of_mem _ he)) hmore
    exact ⟨rfl, hrest⟩

theorem objectText_inj : ∀ {ms ns : List (String × Value)} {rest rest' : List Char},
    (∀ e ∈ ms, Determined e.2) → (∀ e ∈ ns, e.2.HasFloats Binary64.Canonical) →
      (Value.object ms).compact.toList ++ rest = (Value.object ns).compact.toList ++ rest' →
        ms = ns ∧ rest = rest'
  | [], [], rest, rest', _, _, h => ⟨rfl, List.append_cancel_left h⟩
  | [], e :: ns, rest, rest', _, _, h => by
    rw [compact_object_cons, text_object_nil] at h
    simp only [List.cons_append, List.append_assoc, memberText_append, quote_toList] at h
    exact absurd (List.cons.inj (List.cons.inj h).2).1 (by decide)
  | e :: ms, [], rest, rest', _, _, h => by
    rw [compact_object_cons, text_object_nil] at h
    simp only [List.cons_append, List.append_assoc, memberText_append, quote_toList] at h
    exact absurd (List.cons.inj (List.cons.inj h).2).1 (by decide)
  | (k, v) :: ms, (l, w) :: ns, rest, rest', hms, hns, h => by
    rw [compact_object_cons, compact_object_cons] at h
    simp only [List.cons_append, List.append_assoc, List.nil_append, memberText_append] at h
    obtain ⟨rfl, hvalue⟩ := quote_append_inj (List.cons.inj h).2
    obtain ⟨rfl, hmore⟩ := hms _ (List.mem_cons_self ..) w _ _ (hns _ (List.mem_cons_self ..))
      (stops_membersText ms rest) (stops_membersText ns rest') (List.cons.inj hvalue).2
    obtain ⟨rfl, hrest⟩ := membersText_inj (fun e he => hms e (List.mem_cons_of_mem _ he))
      (fun e he => hns e (List.mem_cons_of_mem _ he)) hmore
    exact ⟨rfl, hrest⟩

/-- By induction on the value: the first characters tell that the other one is of its kind. -/
theorem determined {v : Value} (hv : v.HasFloats Binary64.Canonical) : Determined v := by
  induction hv with
  | null =>
    intro w rest rest' _ _ _ h
    cases sameKind (kind_eq h)
    exact ⟨rfl, List.append_cancel_left h⟩
  | bool =>
    intro w rest rest' _ _ _ h
    cases sameKind (kind_eq h)
    exact ⟨rfl, List.append_cancel_left h⟩
  | @int n =>
    intro w rest rest' _ hrest hrest' h
    cases sameKind (kind_eq h) with
    | ints _ m =>
      obtain ⟨htext, hrest⟩ := (signedNumeral_int n).append_inj (signedNumeral_int m) hrest hrest' h
      exact ⟨congrArg Value.int (int_injective (String.toList_inj.mp htext)), hrest⟩
    | intFloat _ y =>
      obtain ⟨htext, -⟩ := (signedNumeral_int n).append_inj (signedNumeral_float y) hrest hrest' h
      exact absurd (String.toList_inj.mp htext) (int_ne_float n y)
  | @float x hx =>
    intro w rest rest' hw hrest hrest' h
    cases sameKind (kind_eq h) with
    | floatInt _ m =>
      obtain ⟨htext, -⟩ := (signedNumeral_float x).append_inj (signedNumeral_int m) hrest hrest' h
      exact absurd (String.toList_inj.mp htext).symm (int_ne_float m x)
    | floats _ y =>
      obtain ⟨htext, hrest⟩ :=
        (signedNumeral_float x).append_inj (signedNumeral_float y) hrest hrest' h
      cases hw with
      | float hy =>
        exact ⟨congrArg Value.float (float_injective hx hy (String.toList_inj.mp htext)), hrest⟩
  | string =>
    intro w rest rest' _ _ _ h
    cases sameKind (kind_eq h)
    obtain ⟨rfl, hrest⟩ := quote_append_inj h
    exact ⟨rfl, hrest⟩
  | array _ ih =>
    intro w rest rest' hw _ _ h
    cases sameKind (kind_eq h)
    cases hw with
    | array hitems =>
      obtain ⟨rfl, hrest⟩ := arrayText_inj ih hitems h
      exact ⟨rfl, hrest⟩
  | object _ ih =>
    intro w rest rest' hw _ _ h
    cases sameKind (kind_eq h)
    cases hw with
    | object hmembers =>
      obtain ⟨rfl, hrest⟩ := objectText_inj ih hmembers h
      exact ⟨rfl, hrest⟩

/-- The member behind a first one is told by the text, whatever comes behind it. -/
theorem second_eq {first : String × Value} {key : String} {v w : Value}
    {ms ns : List (String × Value)} (hv : v.HasFloats Binary64.Canonical)
    (hw : w.HasFloats Binary64.Canonical)
    (h : (Value.object (first :: (key, v) :: ms)).compact =
      (Value.object (first :: (key, w) :: ns)).compact) : v = w := by
  have hchars := congrArg String.toList h
  rw [compact_object_cons, compact_object_cons] at hchars
  have hsecond := List.append_cancel_left (List.cons.inj hchars).2
  simp only [membersText, List.flatMap_cons, List.cons_append, List.append_assoc,
    memberText_append] at hsecond
  have hvalue := List.append_cancel_left (List.cons.inj hsecond).2
  exact (determined hv w _ _ hw (stops_membersText ms []) (stops_membersText ns [])
    (List.cons.inj hvalue).2).1

end JsonText

/-- Values with the same compact text are equal. -/
theorem Value.compact_injective {v w : Value} (hv : v.HasFloats Binary64.Canonical)
    (hw : w.HasFloats Binary64.Canonical) (h : v.compact = w.compact) : v = w :=
  (JsonText.determined hv w [] [] hw (Or.inl rfl) (Or.inl rfl)
    (congrArg (fun text => text.toList ++ []) h)).1

end PageBlocks
