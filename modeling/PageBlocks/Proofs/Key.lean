import PageBlocks.Key
import PageBlocks.Proofs.Joined

/-!
# Different paths have different ids

An id is the lead of a kind and thirty-two digits of a digest. All leads are of
one length, so the kind can be read off an id, and so can the digits; what was
hashed is the path, joined by colons. A path whose names have no colon in them
can be read off that text. So only the digest stands between an id and its
path: as far as the digest tells two paths apart, their ids do.

> `encode_eq_iff`: every id has the shape of its kind, joined paths are told
> apart, and so are the ids of paths that the digest tells apart.
-/

namespace PageBlocks

/-! ## Digits -/

namespace Digest

/-- A digit of lower-case hexadecimal. -/
def IsHexDigit (c : Char) : Prop := c.isDigit = true ∨ 'a' ≤ c ∧ c ≤ 'f'

instance (c : Char) : Decidable (IsHexDigit c) := inferInstanceAs (Decidable (_ ∨ _))

theorem isHexDigit_digitChar : ∀ n < 16, IsHexDigit (Nat.digitChar n) := by decide

theorem isHexDigit_of_mem_hex {bytes : List UInt8} {c : Char} (h : c ∈ hex bytes) :
    IsHexDigit c := by
  obtain ⟨b, -, hc⟩ := List.mem_flatMap.mp h
  have hbyte : b.toNat < 256 := b.toNat_lt
  rcases List.mem_cons.mp hc with rfl | hc
  · exact isHexDigit_digitChar _ (by omega)
  · rw [List.mem_singleton.mp hc]
    exact isHexDigit_digitChar _ (by omega)

theorem length_hex (bytes : List UInt8) : (hex bytes).length = 2 * bytes.length := by
  induction bytes with
  | nil => rfl
  | cons b bytes ih =>
    show ([_, _] ++ hex bytes).length = _
    rw [List.length_append, ih, List.length_cons, List.length_cons, List.length_cons,
      List.length_nil]
    omega

theorem length_bytesOf (count n : Nat) : (bytesOf count n).length = count := by
  rw [bytesOf, List.length_map, List.length_range]

/-- A digest is the eight words of the last state, of four bytes each. -/
theorem length_sha256 (message : List UInt8) : (sha256 message).length = 32 := by
  simp only [sha256, State.words, List.flatMap_cons, List.flatMap_nil, List.length_append,
    length_bytesOf, List.length_nil]

end Digest

theorem length_keyDigest (text : String) : (keyDigest text).toList.length = keyDigits := by
  rw [keyDigest, String.toList_ofList, List.length_take, Digest.length_hex,
    Digest.length_sha256]
  decide

theorem isHexDigit_of_mem_keyDigest {text : String} {c : Char}
    (h : c ∈ (keyDigest text).toList) : Digest.IsHexDigit c := by
  rw [keyDigest, String.toList_ofList] at h
  exact Digest.isHexDigit_of_mem_hex (List.mem_of_mem_take h)

/-! ## Kinds -/

namespace KeyKind

theorem length_lead (k : KeyKind) : k.lead.toList.length = 6 := by cases k <;> decide

theorem ofName?_name (k : KeyKind) : ofName? k.name = some k := by cases k <;> decide

theorem lead_injective {k l : KeyKind} (h : k.lead = l.lead) : k = l := by
  have hname : k.name = l.name := (String.append_left_inj "_").mp h
  rw [← Option.some_inj, ← ofName?_name k, ← ofName?_name l, hname]

end KeyKind

namespace KeyPath

variable {p q : KeyPath} {k l : KeyKind}

/-- All leads are of one length, so an id can be taken apart: its lead tells the kind, and the
digits behind it are those of the path. -/
theorem parts_of_encode (h : p.encode k = q.encode l) :
    k = l ∧ keyDigest (keyPreimage p) = keyDigest (keyPreimage q) := by
  have hchars : k.lead.toList ++ (keyDigest (keyPreimage p)).toList =
      l.lead.toList ++ (keyDigest (keyPreimage q)).toList := by
    rw [← String.toList_append, ← String.toList_append]
    exact congrArg String.toList h
  obtain ⟨hlead, hdigest⟩ :=
    List.append_inj hchars ((KeyKind.length_lead k).trans (KeyKind.length_lead l).symm)
  exact ⟨KeyKind.lead_injective (String.toList_inj.mp hlead), String.toList_inj.mp hdigest⟩

/-! ## Paths -/

/-- A path has a name, and no name has in it what the names are joined by. -/
def Separable (path : KeyPath) : Prop :=
  path.segments ≠ [] ∧ ∀ s ∈ path.segments, ':' ∉ s.toList

instance (path : KeyPath) : Decidable path.Separable := inferInstanceAs (Decidable (_ ∧ _))

theorem Separable.eq_of_joined (hp : p.Separable) (hq : q.Separable)
    (h : p.joined = q.joined) : p = q :=
  congrArg KeyPath.mk (intercalate_inj (c := ':') rfl hp.1 hq.1 hp.2 hq.2 h)

/-- What is hashed is the joined path behind a fixed text. -/
theorem joined_eq_of_keyPreimage (h : keyPreimage p = keyPreimage q) : p.joined = q.joined :=
  (String.append_right_inj _).mp h

theorem Separable.eq_of_keyPreimage (hp : p.Separable) (hq : q.Separable)
    (h : keyPreimage p = keyPreimage q) : p = q :=
  hp.eq_of_joined hq (joined_eq_of_keyPreimage h)

/-- An id is the lead of its kind and thirty-two digits. Two joined paths are the same text only
if they are the same path; and if the digest tells their texts apart, two ids are the same only
for the same path and kind. -/
theorem encode_eq_iff :
    (∀ (path : KeyPath) (kind : KeyKind), ∃ digits : String,
      path.encode kind = kind.lead ++ digits ∧ digits.toList.length = 32 ∧
        ∀ c ∈ digits.toList, Digest.IsHexDigit c) ∧
    ∀ p q : KeyPath, p.Separable → q.Separable →
      (p.joined = q.joined ↔ p = q) ∧
      ((keyDigest (keyPreimage p) = keyDigest (keyPreimage q) → keyPreimage p = keyPreimage q) →
        ∀ k l : KeyKind, p.encode k = q.encode l ↔ k = l ∧ p = q) := by
  refine ⟨fun path kind => ⟨keyDigest (keyPreimage path), rfl, length_keyDigest _,
    fun c => isHexDigit_of_mem_keyDigest⟩, fun p q hp hq => ⟨⟨hp.eq_of_joined hq, ?_⟩, ?_⟩⟩
  · rintro rfl
    rfl
  · intro hdigest k l
    constructor
    · intro h
      obtain ⟨hkind, hdigits⟩ := parts_of_encode h
      exact ⟨hkind, hp.eq_of_keyPreimage hq (hdigest hdigits)⟩
    · rintro ⟨rfl, rfl⟩
      rfl

/-- Without a name and with an empty one, a path is joined to the same text. -/
example : KeyPath.joined ⟨[]⟩ = KeyPath.joined ⟨[""]⟩ := rfl

/-- Two paths of the same letters, cut at another place. -/
theorem resembling_ids :
    let p : KeyPath := ⟨["builder", "ab", "c"]⟩
    let q : KeyPath := ⟨["builder", "a", "bc"]⟩
    p.Separable ∧ q.Separable ∧
      (keyDigest (keyPreimage p) = keyDigest (keyPreimage q) → keyPreimage p = keyPreimage q) ∧
      p.joined ≠ q.joined ∧ ∀ k l : KeyKind, p.encode k ≠ q.encode l := by
  intro p q
  have hp : p.Separable := by decide
  have hq : q.Separable := by decide
  have hdigest : keyDigest (keyPreimage p) = keyDigest (keyPreimage q) →
      keyPreimage p = keyPreimage q := fun h => absurd h (by decide +kernel)
  have hne : p ≠ q := by decide
  obtain ⟨hjoined, hids⟩ := encode_eq_iff.2 p q hp hq
  exact ⟨hp, hq, hdigest, fun h => hne (hjoined.mp h),
    fun k l h => hne ((hids hdigest k l).mp h).2⟩

end KeyPath

end PageBlocks
