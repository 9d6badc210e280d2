import PageBlocks.Entity
import PageBlocks.Name

/-!
# Characters of valid names

A valid name consists of lower-case letters, digits and underscores. So none of
the characters that join names (the colon of ids, the dot and the slash of
paths) is ever in a name. Sanitising leaves a text of these characters as it is,
and makes one of every other. The groups of a block have valid names, and
different ones.

> `isValidName_iff`: the valid names are the texts of these characters;
> `sanitise_empty_or_valid`: a sanitised text is one, or empty.
-/

namespace PageBlocks

/-- The capitals lie 32 places before the small letters. -/
theorem small_of_index : ∀ n < 26,
    'a' ≤ Char.ofNat (n + 65 + 32) ∧ Char.ofNat (n + 65 + 32) ≤ 'z' := by
  decide

theorem small_of_capital {c : Char} (h : 'A' ≤ c ∧ c ≤ 'Z') :
    'a' ≤ Char.ofNat (c.toNat + 32) ∧ Char.ofNat (c.toNat + 32) ≤ 'z' := by
  have hlow : 'A'.toNat ≤ c.toNat := h.1
  have hhigh : c.toNat ≤ 'Z'.toNat := h.2
  have ha : 'A'.toNat = 65 := by decide
  have hz : 'Z'.toNat = 90 := by decide
  have hn := small_of_index (c.toNat - 65) (by omega)
  rwa [show c.toNat - 65 + 65 + 32 = c.toNat + 32 by omega] at hn

theorem isNameChar_iff {c : Char} :
    isNameChar c = true ↔ ('a' ≤ c ∧ c ≤ 'z') ∨ ('0' ≤ c ∧ c ≤ '9') ∨ c = '_' := by
  simp only [isNameChar, Bool.or_eq_true, Bool.and_eq_true, decide_eq_true_eq, beq_iff_eq, or_assoc]

theorem isNameChar_of_lowerNameChar? {c d : Char} (h : lowerNameChar? c = some d) :
    isNameChar d = true := by
  unfold lowerNameChar? at h
  split at h
  next hc =>
    cases h
    exact hc
  next =>
    split at h
    next hupper =>
      cases h
      exact isNameChar_iff.mpr (.inl (small_of_capital hupper))
    next =>
      split at h
      next =>
        cases h
        decide
      next =>
        split at h
        next =>
          cases h
          decide
        next => cases h

theorem lowerNameChar?_of_isNameChar {c : Char} (h : isNameChar c = true) :
    lowerNameChar? c = some c := by
  rw [lowerNameChar?, if_pos h]

/-! ## Sanitised texts -/

/-- A sanitised text has characters of names alone, whatever it was made of. -/
theorem isNameChar_of_mem_sanitise {s : String} {c : Char} (h : c ∈ (sanitise s).toList) :
    isNameChar c = true := by
  rw [sanitise, String.toList_ofList] at h
  obtain ⟨d, -, hd⟩ := List.mem_filterMap.mp h
  exact isNameChar_of_lowerNameChar? hd

/-- Sanitising leaves characters of names as they are. -/
theorem sanitise_eq_self {s : String} (h : ∀ c ∈ s.toList, isNameChar c = true) :
    sanitise s = s := by
  have hkept : ∀ cs : List Char, (∀ c ∈ cs, isNameChar c = true) →
      cs.filterMap lowerNameChar? = cs := by
    intro cs
    induction cs with
    | nil => intro _; rfl
    | cons c cs ih =>
      intro hcs
      obtain ⟨hc, hrest⟩ := List.forall_mem_cons.mp hcs
      rw [List.filterMap_cons_some (lowerNameChar?_of_isNameChar hc), ih hrest]
  rw [sanitise, hkept s.toList h, String.ofList_toList]

/-! ## Valid names -/

/-- Every character of a valid name is a character of names. -/
theorem isNameChar_of_mem {name : String} (h : isValidName name = true) {c : Char}
    (hc : c ∈ name.toList) : isNameChar c = true := by
  unfold isValidName at h
  have hsame : sanitise name = name := by simpa using (Bool.and_eq_true_iff.mp h).2
  rw [← hsame] at hc
  exact isNameChar_of_mem_sanitise hc

/-- A valid name lacks every character that no name has. -/
theorem not_mem_of_isValidName {name : String} (h : isValidName name = true) {c : Char}
    (hc : isNameChar c = false) : c ∉ name.toList := fun hmem => by
  rw [isNameChar_of_mem h hmem] at hc
  cases hc

theorem ne_empty_of_isValidName {name : String} (h : isValidName name = true) : name ≠ "" := by
  unfold isValidName at h
  simpa using (Bool.and_eq_true_iff.mp h).1

theorem isValidName_iff {s : String} :
    isValidName s = true ↔ s ≠ "" ∧ ∀ c ∈ s.toList, isNameChar c = true := by
  constructor
  · intro h
    exact ⟨ne_empty_of_isValidName h, fun _ hc => isNameChar_of_mem h hc⟩
  · rintro ⟨hne, hchars⟩
    rw [isValidName, sanitise_eq_self hchars]
    simpa using hne

/-- Whatever a text is, nothing of it or a valid name is left. -/
theorem sanitise_empty_or_valid (s : String) :
    sanitise s = "" ∨ isValidName (sanitise s) = true := by
  by_cases hempty : sanitise s = ""
  · exact .inl hempty
  · exact .inr (isValidName_iff.mpr ⟨hempty, fun _ hc => isNameChar_of_mem_sanitise hc⟩)

namespace FieldGroup

theorem isValidName_name (g : FieldGroup) : isValidName g.name = true := by
  cases g <;> decide +kernel

theorem name_injective {g g' : FieldGroup} (h : g.name = g'.name) : g = g' := by
  cases g <;> cases g' <;> first | rfl | exact absurd h (by decide)

end FieldGroup

end PageBlocks
