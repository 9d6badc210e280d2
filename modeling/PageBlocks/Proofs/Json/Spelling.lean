import PageBlocks.Proofs.Joined
import PageBlocks.Proofs.Json.Numeral

/-!
# Compact texts are read token by token

Every part of a compact text becomes the tokens that it was written from:
strings with their escapes undone, numbers as what their numerals are read as,
brackets and separators one by one. Only numbers can be read as something else.

> `tokens?_compact`: the tokens of the compact text of a value, whatever
> follows it.
-/

namespace PageBlocks

namespace Value

mutual
/-- A value with its numbers as they are read back, if all of them are. -/
def renumbered? : Value → Option Value
  | .int n => JsonText.readNumber? (toString n).toList
  | .float x => JsonText.readNumber? (FloatLayout.json.write x).toList
  | .array items => (renumberedItems? items).map .array
  | .object members => (renumberedMembers? members).map .object
  | .null => some .null
  | .bool b => some (.bool b)
  | .string s => some (.string s)

def renumberedItems? : List Value → Option (List Value)
  | [] => some []
  | v :: rest => do return (← renumbered? v) :: (← renumberedItems? rest)

def renumberedMembers? : List (String × Value) → Option (List (String × Value))
  | [] => some []
  | (k, v) :: rest => do return (k, ← renumbered? v) :: (← renumberedMembers? rest)
end

end Value

namespace JsonText

/-! ## Strings -/

/-- The digits of a control character. -/
theorem inBase?_control : ∀ n < 32,
    Digits.inBase? 16 ['0', '0', hexDigit (n / 16), hexDigit n] = some n := by
  decide

theorem unicodeEscape?_control {c : Char} (h : c.toNat < 0x20) (rest : List Char) :
    unicodeEscape? ('0' :: '0' :: hexDigit (c.toNat / 16) :: hexDigit c.toNat :: rest) =
      some (c, rest) := by
  have hread : hex4? ('0' :: '0' :: hexDigit (c.toNat / 16) :: hexDigit c.toNat :: rest) =
      some (c.toNat, rest) := by
    unfold hex4?
    dsimp only
    rw [inBase?_control c.toNat h]
    rfl
  have hlow : ¬(0xD800 ≤ c.toNat ∧ c.toNat < 0xDC00) := by omega
  have hhigh : ¬(0xDC00 ≤ c.toNat ∧ c.toNat < 0xE000) := by omega
  unfold unicodeEscape?
  rw [hread]
  dsimp only [Option.bind_eq_bind, Option.bind_some]
  rw [if_neg hlow, if_neg hhigh, Char.ofNat_toNat]

/-- An escaped character is read as that character. -/
theorem stringBody?_escapeChar (c : Char) (count : Nat) (done rest : List Char) :
    stringBody? (count + 1) done (escapeChar c ++ rest) = stringBody? count (c :: done) rest := by
  unfold escapeChar
  by_cases hquote : c = '"'
  · rw [if_pos hquote, hquote]
    rfl
  rw [if_neg hquote]
  by_cases hslash : c = '\\'
  · rw [if_pos hslash, hslash]
    rfl
  rw [if_neg hslash]
  by_cases hline : c = '\n'
  · rw [if_pos hline, hline]
    rfl
  rw [if_neg hline]
  by_cases hreturn : c = '\r'
  · rw [if_pos hreturn, hreturn]
    rfl
  rw [if_neg hreturn]
  by_cases htab : c = '\t'
  · rw [if_pos htab, htab]
    rfl
  rw [if_neg htab]
  -- The rest is escaped by its number.
  have hchar : Char.ofNat c.toNat = c := Char.ofNat_toNat c
  by_cases hback : c.toNat = 0x08
  · rw [if_pos hback]
    show stringBody? count (Char.ofNat 0x08 :: done) rest = _
    rw [← hback, hchar]
  rw [if_neg hback]
  by_cases hfeed : c.toNat = 0x0C
  · rw [if_pos hfeed]
    show stringBody? count (Char.ofNat 0x0C :: done) rest = _
    rw [← hfeed, hchar]
  rw [if_neg hfeed]
  by_cases hcontrol : c.toNat < 0x20
  · rw [if_pos hcontrol]
    show ((unicodeEscape?
      ('0' :: '0' :: hexDigit (c.toNat / 16) :: hexDigit c.toNat :: rest)).bind fun p =>
        stringBody? count (p.1 :: done) p.2) = _
    rw [unicodeEscape?_control hcontrol]
    rfl
  rw [if_neg hcontrol]
  show stringBody? (count + 1) done (c :: rest) = _
  rw [stringBody?, if_neg hcontrol]
  · exact hquote
  · exact hslash

theorem length_escapeChar_pos (c : Char) : 0 < (escapeChar c).length := by
  unfold escapeChar
  repeat' split
  all_goals exact Nat.succ_pos _

/-- A string is read up to its closing quote. -/
theorem stringBody?_escaped :
    ∀ (cs : List Char) (count : Nat) (done rest : List Char), cs.length < count →
      stringBody? count done (cs.flatMap escapeChar ++ '"' :: rest) =
        some (String.ofList (done.reverse ++ cs), rest) := by
  intro cs
  induction cs with
  | nil =>
    intro count done rest hcount
    obtain ⟨n, rfl⟩ := Nat.exists_eq_succ_of_ne_zero (Nat.ne_of_gt hcount)
    rw [List.append_nil]
    rfl
  | cons c cs ih =>
    intro count done rest hcount
    rw [List.length_cons] at hcount
    obtain ⟨n, rfl⟩ : ∃ n, count = n + 1 := ⟨count - 1, by omega⟩
    rw [List.flatMap_cons, List.append_assoc, stringBody?_escapeChar,
      ih n (c :: done) rest (by omega), List.reverse_cons, List.append_assoc]
    rfl

/-! ## Texts -/

theorem toList_intercalate (a : String) (l : List String) :
    (String.intercalate "," (a :: l)).toList = a.toList ++ l.flatMap fun s => ',' :: s.toList := by
  have hcomma : ",".toList = [','] := rfl
  rw [String.toList_intercalate, hcomma, List.map_cons, intercalate_cons, List.flatMap_map]

theorem compactItems_eq_map (items : List Value) :
    Value.compactItems items = items.map Value.compact := by
  induction items with
  | nil =>
    rw [Value.compactItems]
    rfl
  | cons v rest ih => rw [Value.compactItems, ih, List.map_cons]

/-- A member in a compact text. -/
def memberText (e : String × Value) : String := quote e.1 ++ ":" ++ e.2.compact

theorem compactMembers_eq_map (members : List (String × Value)) :
    Value.compactMembers members = members.map memberText := by
  induction members with
  | nil =>
    rw [Value.compactMembers]
    rfl
  | cons e rest ih =>
    rw [Value.compactMembers, ih, List.map_cons]
    rfl

/-- The items behind the first one, each behind its comma. -/
def itemsText (items : List Value) : List Char :=
  items.flatMap fun v => ',' :: v.compact.toList

/-- The members behind the first one, each behind its comma. -/
def membersText (members : List (String × Value)) : List Char :=
  members.flatMap fun e => ',' :: (memberText e).toList

theorem compact_array_cons (v : Value) (rest : List Value) :
    (Value.array (v :: rest)).compact.toList =
      '[' :: (v.compact.toList ++ (itemsText rest ++ [']'])) := by
  rw [Value.compact, Value.compactItems, compactItems_eq_map, String.toList_append,
    String.toList_append, toList_intercalate, List.flatMap_map]
  simp only [itemsText, List.append_assoc]
  rfl

theorem compact_object_cons (e : String × Value) (rest : List (String × Value)) :
    (Value.object (e :: rest)).compact.toList =
      '\x7b' :: ((memberText e).toList ++ (membersText rest ++ ['\x7d'])) := by
  have hopening : "\x7b".toList = ['\x7b'] := rfl
  have hclosing : "\x7d".toList = ['\x7d'] := rfl
  rw [Value.compact, compactMembers_eq_map, List.map_cons, String.toList_append,
    String.toList_append, toList_intercalate, List.flatMap_map]
  simp only [membersText, List.append_assoc]
  rw [hopening, hclosing, List.singleton_append]

theorem quote_toList (s : String) :
    (quote s).toList = '"' :: (s.toList.flatMap escapeChar ++ ['"']) := by
  unfold quote
  simp only [String.toList_append, String.toList_ofList]
  rfl

theorem stops_itemsText (items : List Value) (rest : List Char) :
    Stops (itemsText items ++ ']' :: rest) := by
  cases items with
  | nil => exact Or.inr ⟨']', rest, rfl, Or.inr (Or.inl rfl)⟩
  | cons v items => exact Or.inr ⟨',', _, rfl, Or.inl rfl⟩

theorem stops_membersText (members : List (String × Value)) (rest : List Char) :
    Stops (membersText members ++ '\x7d' :: rest) := by
  cases members with
  | nil => exact Or.inr ⟨'\x7d', rest, rfl, Or.inr (Or.inr rfl)⟩
  | cons e members => exact Or.inr ⟨',', _, rfl, Or.inl rfl⟩

/-! ## Tokens -/

mutual
/-- The tokens of a value. -/
def spell : Value → List Token
  | .array [] => [.openArray, .closeArray]
  | .array (v :: rest) => .openArray :: (spell v ++ spellItems rest)
  | .object [] => [.openObject, .closeObject]
  | .object ((k, v) :: rest) =>
    .openObject :: .scalar (.string k) :: .colon :: (spell v ++ spellMembers rest)
  | v => [.scalar v]

/-- The tokens of the items behind the first one, up to the end of the array. -/
def spellItems : List Value → List Token
  | [] => [.closeArray]
  | v :: rest => .comma :: (spell v ++ spellItems rest)

/-- The tokens of the members behind the first one, up to the end of the object. -/
def spellMembers : List (String × Value) → List Token
  | [] => [.closeObject]
  | (k, v) :: rest => .comma :: .scalar (.string k) :: .colon :: (spell v ++ spellMembers rest)
end

/-- The tokens of single characters. -/
def marks : List (Char × Token) :=
  [('\x7b', .openObject), ('\x7d', .closeObject), ('[', .openArray), (']', .closeArray),
    (',', .comma), (':', .colon)]

theorem tokens?_mark {mark : Char × Token} (h : mark ∈ marks) (count : Nat) (rest : List Char) :
    tokens? (count + 1) (mark.1 :: rest) = (tokens? count rest).map (mark.2 :: ·) := by
  simp only [marks, List.mem_cons, List.not_mem_nil, or_false] at h
  rcases h with rfl | rfl | rfl | rfl | rfl | rfl <;> cases hrest : tokens? count rest <;>
    simp [tokens?, hrest]

theorem tokens?_quote (s : String) (count : Nat) (rest : List Char) :
    tokens? (count + 1) ((quote s).toList ++ rest) =
      (tokens? count rest).map (.scalar (.string s) :: ·) := by
  have hlength : s.toList.length ≤ (s.toList.flatMap escapeChar).length := by
    induction s.toList with
    | nil => exact Nat.le_refl _
    | cons c cs ih =>
      have hpos := length_escapeChar_pos c
      rw [List.flatMap_cons, List.length_append, List.length_cons]
      omega
  have hread : stringBody? ((s.toList.flatMap escapeChar ++ '"' :: rest).length + 1) []
      (s.toList.flatMap escapeChar ++ '"' :: rest) = some (s, rest) := by
    rw [stringBody?_escaped _ _ _ _ (by rw [List.length_append]; omega), List.reverse_nil,
      List.nil_append, String.ofList_toList]
  have htext : (quote s).toList ++ rest = '"' :: (s.toList.flatMap escapeChar ++ '"' :: rest) := by
    rw [quote_toList, List.cons_append, List.append_assoc]
    rfl
  rw [htext, tokens?]
  dsimp only
  rw [hread]
  cases hrest : tokens? count rest <;> simp [hrest]

/-- A number is one token, whatever follows it in a compact text. -/
theorem tokens?_number {text : List Char} (h : SignedNumeral text) (count : Nat)
    {rest : List Char} (hrest : Stops rest) :
    tokens? (count + 1) (text ++ rest) =
      (readNumber? text).bind fun v => (tokens? count rest).map (.scalar v :: ·) := by
  cases h with
  | @minus text hnum =>
    obtain ⟨v, hv⟩ := hnum.read true
    have hown := hv [] (Or.inl rfl)
    rw [List.append_nil] at hown
    rw [List.cons_append, tokens?, readNumber?]
    dsimp only
    rw [hv rest hrest, hown]
    cases v <;> cases hmore : tokens? count rest <;> simp [hmore]
  | plus hnum =>
    obtain ⟨v, hv⟩ := hnum.read false
    have hown := hv [] (Or.inl rfl)
    rw [List.append_nil] at hown
    obtain ⟨c, r, rfl, hc⟩ := hnum.exists_digit
    have hne : ∀ d : Char, d.isDigit = false → c ≠ d := by
      rintro d hd rfl
      rw [hd] at hc
      cases hc
    have hread : readNumber? (c :: r) = v := by
      rw [readNumber?, hown]
      · cases v <;> rfl
      · exact fun s hs => hne '-' (by decide) (List.cons.inj hs).1
    have hblank : ¬(c = ' ' ∨ c = '\n' ∨ c = '\t' ∨ c = '\r') := by
      rintro (h | h | h | h) <;> exact hne _ (by decide) h
    rw [hread, List.cons_append, tokens?]
    · dsimp only
      rw [if_neg hblank, ← List.cons_append, hv rest hrest]
      cases v <;> cases hmore : tokens? count rest <;> simp [hmore]
    -- A digit begins nothing but a number.
    all_goals
      intros
      exact absurd ‹c = _› (hne _ rfl)

theorem IsNumber.spell_eq {v : Value} (h : IsNumber v) : spell v = [.scalar v] := by
  cases h <;> rw [spell] <;> exact nofun

/-- A number is read as the one token of its value. -/
theorem tokens?_numberText {text : List Char} (h : SignedNumeral text) (count : Nat)
    {rest : List Char} (hrest : Stops rest) :
    tokens? (count + 1) (text ++ rest) =
      (readNumber? text).bind fun w => (tokens? count rest).map (spell w ++ ·) := by
  rw [tokens?_number h count hrest]
  cases hread : readNumber? text with
  | none => rfl
  | some w =>
    rw [Option.bind_some, Option.bind_some, (isNumber_of_readNumber? hread).spell_eq]
    rfl

mutual
/-- The tokens of the compact text of a value, whatever follows it. -/
theorem tokens?_compact :
    ∀ (v : Value) (count : Nat) {rest : List Char}, Stops rest →
      tokens? (count + (spell v).length) (v.compact.toList ++ rest) =
        v.renumbered?.bind fun w => (tokens? count rest).map (spell w ++ ·)
  | .null, count, rest, _ => by
    show tokens? (count + 1) ('n' :: 'u' :: 'l' :: 'l' :: rest) = _
    cases hrest : tokens? count rest <;> simp [tokens?, Value.renumbered?, spell, hrest]
  | .bool b, count, rest, _ => by
    cases b
    case false =>
      show tokens? (count + 1) ('f' :: 'a' :: 'l' :: 's' :: 'e' :: rest) = _
      cases hrest : tokens? count rest <;> simp [tokens?, Value.renumbered?, spell, hrest]
    case true =>
      show tokens? (count + 1) ('t' :: 'r' :: 'u' :: 'e' :: rest) = _
      cases hrest : tokens? count rest <;> simp [tokens?, Value.renumbered?, spell, hrest]
  | .int n, count, rest, hrest => by
    rw [Value.compact, Value.renumbered?]
    exact tokens?_numberText (signedNumeral_int n) count hrest
  | .float x, count, rest, hrest => by
    rw [Value.compact, Value.renumbered?]
    exact tokens?_numberText (signedNumeral_float x) count hrest
  | .string s, count, rest, _ => by
    rw [Value.compact, Value.renumbered?]
    exact tokens?_quote s count rest
  | .array [], count, rest, _ => by
    show tokens? (count + 1 + 1) ('[' :: ']' :: rest) = _
    cases hrest : tokens? count rest <;>
      simp [tokens?, Value.renumbered?, Value.renumberedItems?, spell, hrest]
  | .array (v :: items), count, rest, _ => by
    have hfuel : count + (spell (.array (v :: items))).length =
        count + (spellItems items).length + (spell v).length + 1 := by
      rw [spell, List.length_cons, List.length_append]
      omega
    -- The first item stops where the others begin, with a comma or the closing bracket.
    have hfirst := tokens?_compact v (count + (spellItems items).length)
      (stops_itemsText items rest)
    rw [tokens?_itemsText items count rest] at hfirst
    have htext : (Value.array (v :: items)).compact.toList ++ rest =
        '[' :: (v.compact.toList ++ (itemsText items ++ ']' :: rest)) := by
      rw [compact_array_cons]
      simp only [List.cons_append, List.append_assoc, List.nil_append]
    rw [hfuel, htext, tokens?_mark (show ('[', Token.openArray) ∈ marks by simp [marks]), hfirst,
      Value.renumbered?, Value.renumberedItems?]
    cases v.renumbered? <;> cases Value.renumberedItems? items <;> cases tokens? count rest <;>
      simp [spell]
  | .object [], count, rest, _ => by
    show tokens? (count + 1 + 1) ('\x7b' :: '\x7d' :: rest) = _
    cases hrest : tokens? count rest <;>
      simp [tokens?, Value.renumbered?, Value.renumberedMembers?, spell, hrest]
  | .object ((k, v) :: members), count, rest, _ => by
    have hfuel : count + (spell (.object ((k, v) :: members))).length =
        count + (spellMembers members).length + (spell v).length + 1 + 1 + 1 := by
      rw [spell, List.length_cons, List.length_cons, List.length_cons, List.length_append]
      omega
    have hfirst := tokens?_compact v (count + (spellMembers members).length)
      (stops_membersText members rest)
    rw [tokens?_membersText members count rest] at hfirst
    have htext : (Value.object ((k, v) :: members)).compact.toList ++ rest =
        '\x7b' :: ((quote k).toList ++
          (':' :: (v.compact.toList ++ (membersText members ++ '\x7d' :: rest)))) := by
      rw [compact_object_cons, memberText]
      simp [String.toList_append]
    rw [hfuel, htext, tokens?_mark (show ('\x7b', Token.openObject) ∈ marks by simp [marks]),
      tokens?_quote, tokens?_mark (show (':', Token.colon) ∈ marks by simp [marks]), hfirst,
      Value.renumbered?, Value.renumberedMembers?]
    cases v.renumbered? <;> cases Value.renumberedMembers? members <;>
      cases tokens? count rest <;> simp [spell]

theorem tokens?_itemsText :
    ∀ (items : List Value) (count : Nat) (rest : List Char),
      tokens? (count + (spellItems items).length) (itemsText items ++ ']' :: rest) =
        (Value.renumberedItems? items).bind fun ws => (tokens? count rest).map (spellItems ws ++ ·)
  | [], count, rest => by
    have hclose := tokens?_mark (show (']', Token.closeArray) ∈ marks by simp [marks]) count rest
    rw [Value.renumberedItems?]
    exact hclose
  | v :: items, count, rest => by
    have hfuel : count + (spellItems (v :: items)).length =
        count + (spellItems items).length + (spell v).length + 1 := by
      rw [spellItems, List.length_cons, List.length_append]
      omega
    have hfirst := tokens?_compact v (count + (spellItems items).length)
      (stops_itemsText items rest)
    rw [tokens?_itemsText items count rest] at hfirst
    have htext : itemsText (v :: items) ++ ']' :: rest =
        ',' :: (v.compact.toList ++ (itemsText items ++ ']' :: rest)) := by
      simp only [itemsText, List.flatMap_cons, List.cons_append, List.append_assoc]
    rw [hfuel, htext, tokens?_mark (show (',', Token.comma) ∈ marks by simp [marks]), hfirst,
      Value.renumberedItems?]
    cases v.renumbered? <;> cases Value.renumberedItems? items <;> cases tokens? count rest <;>
      simp [spellItems]

theorem tokens?_membersText :
    ∀ (members : List (String × Value)) (count : Nat) (rest : List Char),
      tokens? (count + (spellMembers members).length) (membersText members ++ '\x7d' :: rest) =
        (Value.renumberedMembers? members).bind fun ws =>
          (tokens? count rest).map (spellMembers ws ++ ·)
  | [], count, rest => by
    have hclose := tokens?_mark (show ('\x7d', Token.closeObject) ∈ marks by simp [marks]) count
      rest
    rw [Value.renumberedMembers?]
    exact hclose
  | (k, v) :: members, count, rest => by
    have hfuel : count + (spellMembers ((k, v) :: members)).length =
        count + (spellMembers members).length + (spell v).length + 1 + 1 + 1 := by
      rw [spellMembers, List.length_cons, List.length_cons, List.length_cons, List.length_append]
      omega
    have hfirst := tokens?_compact v (count + (spellMembers members).length)
      (stops_membersText members rest)
    rw [tokens?_membersText members count rest] at hfirst
    have htext : membersText ((k, v) :: members) ++ '\x7d' :: rest =
        ',' :: ((quote k).toList ++
          (':' :: (v.compact.toList ++ (membersText members ++ '\x7d' :: rest)))) := by
      simp [membersText, memberText, String.toList_append]
    rw [hfuel, htext, tokens?_mark (show (',', Token.comma) ∈ marks by simp [marks]),
      tokens?_quote, tokens?_mark (show (':', Token.colon) ∈ marks by simp [marks]), hfirst,
      Value.renumberedMembers?]
    cases v.renumbered? <;> cases Value.renumberedMembers? members <;>
      cases tokens? count rest <;> simp [spellMembers]
end

end JsonText

end PageBlocks
