import Mathlib.Data.List.Basic
import PageBlocks.Proofs.Joined
import PageBlocks.Proofs.Name

/-!
# Names made from labels

What a label leaves for a name are its words: the runs of letters and digits in
its transliteration, in lower case. They are joined by underscores. Whatever
else the label has comes down to whether two words are one, so no character
that joins names can get into a name, and neither can an underscore that does
not stand between two words.

> `chars_eq_intercalate`: a slug is the words of a text, joined by a separator;
> `Joined.chars_eq`: what is joined in that way is its own slug;
> `nameFromLabel_eq_sanitise`: no character of a slug is lost as one that
> names cannot have.
-/

namespace PageBlocks

namespace Slug

variable {c k separator : Char} {cs l : List Char} {started pending : Bool}

/-! ## The letters and digits of a slug -/

/-- The characters of words. -/
def IsKept (c : Char) : Prop := ('a' ≤ c ∧ c ≤ 'z') ∨ ('0' ≤ c ∧ c ≤ '9')

instance (c : Char) : Decidable (IsKept c) := inferInstanceAs (Decidable (_ ∨ _))

theorem isKept_of_keep? (h : keep? c = some k) : IsKept k := by
  unfold keep? at h
  split at h
  next hc =>
    cases h
    exact hc
  next =>
    split at h
    next hupper =>
      cases h
      exact .inl (small_of_capital hupper)
    next => cases h

theorem keep?_of_isKept (h : IsKept c) : keep? c = some c := if_pos h

theorem IsKept.isNameChar (h : IsKept c) : isNameChar c = true :=
  isNameChar_iff.mpr (h.imp_right .inl)

theorem IsKept.toNat_lt (h : IsKept c) : c.toNat < 0x80 := by
  rcases h with ⟨-, hz⟩ | ⟨-, h9⟩
  · have hle : c.toNat ≤ 'z'.toNat := hz
    exact Nat.lt_of_le_of_lt hle (by decide)
  · have hle : c.toNat ≤ '9'.toNat := h9
    exact Nat.lt_of_le_of_lt hle (by decide)

theorem chars_cons_of_none (h : keep? c = none) :
    chars separator (c :: cs) started pending = chars separator cs started true := by
  rw [chars, h]

theorem chars_cons_of_some (h : keep? c = some k) :
    chars separator (c :: cs) started pending =
      (if started && pending then [separator, k] else [k]) ++ chars separator cs true false := by
  rw [chars, h]

/-- The separator is all that differs between the slugs of a text. -/
theorem chars_map {f : Char → Char} (hf : ∀ c, IsKept c → f c = c) :
    (chars separator cs started pending).map f = chars (f separator) cs started pending := by
  induction cs generalizing started pending with
  | nil => rfl
  | cons c cs ih =>
    cases hc : keep? c with
    | none => rw [chars_cons_of_none hc, chars_cons_of_none hc, ih]
    | some k =>
      rw [chars_cons_of_some hc, chars_cons_of_some hc, List.map_append, ih]
      cases started && pending <;> simp [hf k (isKept_of_keep? hc)]

/-! ## The words of a text -/

/-- What stands between the characters that are not kept, in lower case. -/
def pieces (cs : List Char) : List (List Char) :=
  (cs.splitOnP fun c => (keep? c).isNone).map fun piece => piece.filterMap keep?

/-- The words of a text: its runs of letters and digits, in lower case. -/
def words (cs : List Char) : List (List Char) := (pieces cs).filter (· ≠ [])

theorem pieces_cons_of_none (h : keep? c = none) : pieces (c :: cs) = [] :: pieces cs := by
  rw [pieces, List.splitOnP_cons_eq_if_modifyHead, if_pos (by rw [h]; rfl)]
  rfl

theorem pieces_cons_of_some (h : keep? c = some k) {first : List Char} {rest : List (List Char)}
    (hcs : pieces cs = first :: rest) : pieces (c :: cs) = (k :: first) :: rest := by
  unfold pieces at hcs ⊢
  rw [List.splitOnP_cons_eq_if_modifyHead, if_neg (by rw [h]; exact Bool.false_ne_true)]
  cases hsplit : cs.splitOnP fun c => (keep? c).isNone with
  | nil => rw [hsplit] at hcs; cases hcs
  | cons piece others =>
    rw [hsplit, List.map_cons] at hcs
    obtain ⟨rfl, rfl⟩ := List.cons.inj hcs
    rw [List.modifyHead_cons, List.map_cons, List.filterMap_cons_some h]

theorem exists_pieces (cs : List Char) : ∃ first rest, pieces cs = first :: rest := by
  have hne : pieces cs ≠ [] := fun h =>
    List.splitOnP_ne_nil _ cs (List.map_eq_nil_iff.mp h)
  exact List.exists_cons_of_ne_nil hne

/-- Once a word has begun its rest comes first, unless something has been passed over since; every
other word comes behind a separator. -/
theorem chars_started {first : List Char} {rest : List (List Char)}
    (h : pieces cs = first :: rest) :
    chars separator cs true false = first ++ (rest.filter (· ≠ [])).flatMap (separator :: ·) ∧
      chars separator cs true true =
        ((first :: rest).filter (· ≠ [])).flatMap (separator :: ·) := by
  induction cs generalizing first rest with
  | nil =>
    obtain ⟨rfl, rfl⟩ := List.cons.inj h
    exact ⟨rfl, rfl⟩
  | cons c cs ih =>
    obtain ⟨first', rest', hcs⟩ := exists_pieces cs
    obtain ⟨hwithin, hbehind⟩ := ih hcs
    cases hc : keep? c with
    | none =>
      rw [pieces_cons_of_none hc, hcs] at h
      obtain ⟨rfl, rfl⟩ := List.cons.inj h
      rw [chars_cons_of_none hc, chars_cons_of_none hc, hbehind]
      exact ⟨rfl, rfl⟩
    | some k =>
      rw [pieces_cons_of_some hc hcs] at h
      obtain ⟨rfl, rfl⟩ := List.cons.inj h
      rw [chars_cons_of_some hc, chars_cons_of_some hc, hwithin]
      exact ⟨rfl, rfl⟩

/-- A slug is the words of a text, joined by the separator. -/
theorem chars_eq_intercalate (separator : Char) (cs : List Char) (pending : Bool) :
    chars separator cs false pending = [separator].intercalate (words cs) := by
  induction cs generalizing pending with
  | nil => rfl
  | cons c cs ih =>
    cases hc : keep? c with
    | none =>
      have hwords : words (c :: cs) = words cs := by
        rw [words, pieces_cons_of_none hc]
        rfl
      rw [chars_cons_of_none hc, ih, hwords]
    | some k =>
      obtain ⟨first, rest, hcs⟩ := exists_pieces cs
      have hwords : words (c :: cs) = (k :: first) :: rest.filter (· ≠ []) := by
        rw [words, pieces_cons_of_some hc hcs]
        rfl
      rw [chars_cons_of_some hc, (chars_started hcs).1, hwords, intercalate_cons]
      rfl

/-! ## Joined words, character by character -/

/-- Letters and digits with single separators between them: `started` where something stands
before, so that a separator may come first. -/
inductive Joined (separator : Char) : (started : Bool) → List Char → Prop
  | nil {started : Bool} : Joined separator started []
  | kept {started : Bool} {c : Char} {l : List Char} (hc : IsKept c)
      (hl : Joined separator true l) : Joined separator started (c :: l)
  | separated {l : List Char} (hne : l ≠ []) (hl : Joined separator false l) :
      Joined separator true (separator :: l)

theorem chars_joined (separator : Char) (cs : List Char) (started pending : Bool) :
    Joined separator started (chars separator cs started pending) := by
  induction cs generalizing started pending with
  | nil => exact .nil
  | cons c cs ih =>
    cases hc : keep? c with
    | none =>
      rw [chars_cons_of_none hc]
      exact ih started true
    | some k =>
      have hword : ∀ s, Joined separator s (k :: chars separator cs true false) :=
        fun _ => .kept (isKept_of_keep? hc) (ih true false)
      rw [chars_cons_of_some hc]
      cases started with
      | false => exact hword false
      | true =>
        cases pending with
        | false => exact hword true
        | true => exact .separated (List.cons_ne_nil _ _) (hword false)

namespace Joined

/-- What is joined by single separators is its own slug. -/
theorem chars_eq (hsep : keep? separator = none) (h : Joined separator started l) :
    chars separator l started false = l := by
  induction h with
  | nil => rfl
  | kept hc _ ih =>
    rw [chars_cons_of_some (keep?_of_isKept hc), ih, Bool.and_false]
    rfl
  | separated hne hl ih =>
    cases hl with
    | nil => exact absurd rfl hne
    | kept hc _ =>
      -- The same characters come of the word, whether or not a separator is due before it.
      rw [chars_cons_of_some (keep?_of_isKept hc)] at ih
      rw [chars_cons_of_none hsep, chars_cons_of_some (keep?_of_isKept hc)]
      exact congrArg (separator :: ·) ih

theorem isKept_or_eq (h : Joined separator started l) : ∀ c ∈ l, IsKept c ∨ c = separator := by
  induction h with
  | nil => exact nofun
  | kept hc _ ih => exact List.forall_mem_cons.mpr ⟨.inl hc, ih⟩
  | separated _ _ ih => exact List.forall_mem_cons.mpr ⟨.inr rfl, ih⟩

theorem not_leads (hsep : ¬ IsKept separator) (h : Joined separator false l) :
    ¬ [separator] <+: l := by
  intro hlead
  cases h with
  | nil => exact List.cons_ne_nil _ _ (List.prefix_nil.mp hlead)
  | kept hc _ =>
    rw [List.singleton_prefix_cons_iff.mp hlead] at hsep
    exact hsep hc

theorem not_ends (hsep : ¬ IsKept separator) (h : Joined separator started l) :
    ¬ [separator] <:+ l := by
  induction h with
  | nil => exact fun hend => List.cons_ne_nil _ _ (List.suffix_nil.mp hend)
  | kept hc _ ih =>
    intro hend
    rcases List.suffix_cons_iff.mp hend with hall | hrest
    · rw [(List.cons.inj hall).1] at hsep
      exact hsep hc
    · exact ih hrest
  | separated hne _ ih =>
    intro hend
    rcases List.suffix_cons_iff.mp hend with hall | hrest
    · exact hne (List.cons.inj hall).2.symm
    · exact ih hrest

theorem not_twice (hsep : ¬ IsKept separator) (h : Joined separator started l) :
    ¬ [separator, separator] <:+: l := by
  induction h with
  | nil => exact fun htwice => List.cons_ne_nil _ _ (List.infix_nil.mp htwice)
  | kept hc _ ih =>
    intro htwice
    rcases List.infix_cons_iff.mp htwice with hhere | hrest
    · rw [(List.cons_prefix_cons.mp hhere).1] at hsep
      exact hsep hc
    · exact ih hrest
  | separated _ hl ih =>
    intro htwice
    rcases List.infix_cons_iff.mp htwice with hhere | hrest
    · exact hl.not_leads hsep (List.cons_prefix_cons.mp hhere).2
    · exact ih hrest

/-- Joined words are ASCII, which a transliteration leaves as it is. -/
theorem flatMap_eq {t : Char → List Char} (hascii : ∀ c : Char, c.toNat < 0x80 → t c = [c])
    (h : Joined '_' started l) : l.flatMap t = l := by
  have hsingle : ∀ c ∈ l, t c = [c] := fun c hc => hascii c <| by
    rcases h.isKept_or_eq c hc with hkept | rfl
    · exact hkept.toNat_lt
    · decide
  rw [List.flatMap_congr hsingle, List.flatMap_singleton']

end Joined

end Slug

/-! ## Names -/

open Slug

variable {t : Transliteration}

/-- The slug of a label, over a transliteration. -/
def slugWith (t : Transliteration) (label : String) : String :=
  String.ofList (chars '-' (label.toList.flatMap t) false false)

/-- A text with underscores for its hyphens. -/
def underscored (s : String) : String :=
  String.ofList (s.toList.map fun c => if c = '-' then '_' else c)

/-- A valid name with underscores nowhere but between two words. -/
structure IsTidyName (name : String) : Prop where
  valid : isValidName name = true
  not_leads : ¬ ['_'] <+: name.toList
  not_ends : ¬ ['_'] <:+ name.toList
  not_twice : ¬ ['_', '_'] <:+: name.toList

theorem toList_nameFromLabel (t : Transliteration) (label : String) :
    (nameFromLabel t label).toList = chars '_' (label.toList.flatMap t) false false := by
  rw [nameFromLabel, String.toList_ofList]

theorem joined_nameFromLabel (t : Transliteration) (label : String) :
    Joined '_' false (nameFromLabel t label).toList := by
  rw [toList_nameFromLabel]
  exact chars_joined '_' _ false false

/-- A name is the slug with underscores, sanitised. The last step changes nothing, for a slug has
letters, digits and hyphens alone. -/
theorem nameFromLabel_eq_sanitise (t : Transliteration) (label : String) :
    nameFromLabel t label = sanitise (underscored (slugWith t label)) := by
  have hkept : ∀ c, IsKept c → (if c = '-' then '_' else c) = c := by
    intro c hc
    refine if_neg ?_
    rintro rfl
    exact absurd hc (by decide)
  have hunderscored : nameFromLabel t label = underscored (slugWith t label) := by
    rw [underscored, slugWith, String.toList_ofList, chars_map hkept]
    rfl
  have hchars : ∀ c ∈ (nameFromLabel t label).toList, isNameChar c = true := by
    intro c hc
    rcases (joined_nameFromLabel t label).isKept_or_eq c hc with hletter | rfl
    · exact hletter.isNameChar
    · rfl
  rw [← hunderscored, sanitise_eq_self hchars]

/-- Of a label without letters and digits nothing is made, and of every other one a name in which
underscores stand between words only. -/
theorem empty_or_tidy (t : Transliteration) (label : String) :
    nameFromLabel t label = "" ∨ IsTidyName (nameFromLabel t label) := by
  have hjoined := joined_nameFromLabel t label
  have hsep : ¬ IsKept '_' := by decide
  have hvalid := sanitise_empty_or_valid (underscored (slugWith t label))
  rw [← nameFromLabel_eq_sanitise] at hvalid
  exact hvalid.imp_right fun h =>
    ⟨h, hjoined.not_leads hsep, hjoined.not_ends hsep, hjoined.not_twice hsep⟩

/-- A name made from a label is what is made from it as a label. -/
theorem nameFromLabel_nameFromLabel (hascii : ∀ c : Char, c.toNat < 0x80 → t c = [c])
    (label : String) :
    nameFromLabel t (nameFromLabel t label) = nameFromLabel t label := by
  have hjoined := joined_nameFromLabel t label
  have hsep : keep? '_' = none := by decide
  rw [← String.toList_inj, toList_nameFromLabel t (nameFromLabel t label),
    hjoined.flatMap_eq hascii, hjoined.chars_eq hsep]

/-- Over every transliteration that leaves ASCII as it is, the name made from a label is the words
of its transliteration, joined by underscores: it is empty or a valid name, with underscores only
between words, and it is its own name. Sanitising a text leaves nothing of it or a valid name, and
the valid names are the texts of letters, digits and underscores. -/
theorem made_names_tidy (hascii : ∀ c : Char, c.toNat < 0x80 → t c = [c]) (label s : String) :
    (nameFromLabel t label).toList = ['_'].intercalate (words (label.toList.flatMap t)) ∧
      (nameFromLabel t label = "" ∨ IsTidyName (nameFromLabel t label)) ∧
      nameFromLabel t (nameFromLabel t label) = nameFromLabel t label ∧
      (sanitise s = "" ∨ isValidName (sanitise s) = true) ∧
      (isValidName s = true ↔
        s ≠ "" ∧ ∀ c ∈ s.toList, ('a' ≤ c ∧ c ≤ 'z') ∨ ('0' ≤ c ∧ c ≤ '9') ∨ c = '_') := by
  have hwords : (nameFromLabel t label).toList =
      ['_'].intercalate (words (label.toList.flatMap t)) := by
    rw [toList_nameFromLabel, chars_eq_intercalate]
  have hcharacters : isValidName s = true ↔
      s ≠ "" ∧ ∀ c ∈ s.toList, ('a' ≤ c ∧ c ≤ 'z') ∨ ('0' ≤ c ∧ c ≤ '9') ∨ c = '_' := by
    rw [isValidName_iff]
    exact and_congr_right fun _ => forall₂_congr fun _ _ => isNameChar_iff
  exact ⟨hwords, empty_or_tidy t label, nameFromLabel_nameFromLabel hascii label,
    sanitise_empty_or_valid s, hcharacters⟩

/-- A transliteration that has the characters of the label below. -/
def sizeLetters : Transliteration :=
  .ofTable [(0x00BD, "1/2"), (0x00DF, "ss"), (0x00F6, "o"), (0x2013, "-"), (0x65E5, "Ri "),
    (0x672C, "Ben ")]

/-- One character can bring several, a space or a slash among them, and the Kelvin sign has a letter
for its lower case. -/
theorem size_label_tidy :
    (∀ c : Char, c.toNat < 0x80 → sizeLetters c = [c]) ∧
      nameFromLabel sizeLetters "__Größe: 日本 – 1½!" = "grosse_ri_ben_11_2" ∧
      IsTidyName "grosse_ri_ben_11_2" ∧
      nameFromLabel sizeLetters "grosse_ri_ben_11_2" = "grosse_ri_ben_11_2" ∧
      sanitise "\u212Aey: ID" = "keyid" ∧ isValidName "keyid" = true := by
  have hascii : ∀ c : Char, c.toNat < 0x80 → sizeLetters c = [c] := fun _ =>
    Transliteration.ofTable_of_ascii _
  have hname : nameFromLabel sizeLetters "__Größe: 日本 – 1½!" = "grosse_ri_ben_11_2" := by
    decide +kernel
  have hsanitised : sanitise "\u212Aey: ID" = "keyid" := by decide +kernel
  obtain ⟨-, htidy, hown, hvalid, -⟩ :=
    made_names_tidy hascii "__Größe: 日本 – 1½!" "\u212Aey: ID"
  rw [hname] at htidy hown
  rw [hsanitised] at hvalid
  exact ⟨hascii, hname, htidy.resolve_left (by decide), hown, hsanitised,
    hvalid.resolve_left (by decide)⟩

end PageBlocks
