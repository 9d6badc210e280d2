import PageBlocks.Proofs.Definitions.ReadBack
import PageBlocks.Proofs.Json.Floats
import PageBlocks.Proofs.Json.Injective

/-!
# The encoding of definitions is canonical

Whatever document definitions were decoded from, in whatever shorthand, they are
read from their encoding as they were. So no two definitions have one encoding,
and none have one canonical text either, since the text of a value determines
it: the floats in an encoding are those of the document.

> `definitions_reread`: decoding undoes encoding, and decoded definitions with
> the same canonical text are equal.
-/

namespace PageBlocks

variable {F : Binary64 → Prop}

/-! ## Floats of an encoding -/

namespace Value

/-- Nothing is asked of the floats of just any value. -/
theorem hasFloats : ∀ v : Value, v.HasFloats fun _ => True := by
  refine below_induction fun v ih => ?_
  cases v with
  | null => exact .null
  | bool b => exact .bool
  | int n => exact .int
  | float x => exact .float trivial
  | string s => exact .string
  | array items => exact .array fun v hv => ih v (sizeOf_item hv)
  | object members => exact .object fun e he => ih e.2 (sizeOf_member he)

@[simp] theorem hasFloats_null : Value.null.HasFloats F := .null

@[simp] theorem hasFloats_bool (b : Bool) : (Value.bool b).HasFloats F := .bool

@[simp] theorem hasFloats_int (n : Int) : (Value.int n).HasFloats F := .int

@[simp] theorem hasFloats_string (s : String) : (Value.string s).HasFloats F := .string

@[simp] theorem hasFloats_float (x : Binary64) : (Value.float x).HasFloats F ↔ F x :=
  ⟨fun h => by cases h; assumption, .float⟩

@[simp] theorem hasFloats_array (items : List Value) :
    (Value.array items).HasFloats F ↔ ∀ v ∈ items, v.HasFloats F :=
  ⟨fun h => by cases h; assumption, .array⟩

@[simp] theorem hasFloats_object (members : List (String × Value)) :
    (Value.object members).HasFloats F ↔ ∀ e ∈ members, e.2.HasFloats F :=
  ⟨fun h => by cases h; assumption, .object⟩

@[simp] theorem HasFloats.ofText? (text : Option String) : (ofText? text).HasFloats F := by
  cases text <;> constructor

theorem HasFloats.items {α : Type} {f : α → Value} {items : List α}
    (h : ∀ a ∈ items, (f a).HasFloats F) : (Value.array (items.map f)).HasFloats F := by
  refine .array fun v hv => ?_
  obtain ⟨a, ha, rfl⟩ := List.mem_map.mp hv
  exact h a ha

@[simp] theorem HasFloats.ofTexts (texts : List String) : (ofTexts texts).HasFloats F :=
  .items fun _ _ => .string

theorem HasFloats.orNull {α : Type} {f : α → Value} {a? : Option α}
    (h : ∀ a, a? = some a → (f a).HasFloats F) : (orNull f a?).HasFloats F := by
  cases a? with
  | none => exact .null
  | some a => exact h a rfl

theorem HasFloats.ofDict {α : Type} {f : α → Value} {d : Dict α}
    (h : ∀ e ∈ d.entries, (f e.2).HasFloats F) : (ofDict (d.map fun _ a => f a)).HasFloats F := by
  refine .object fun e he => ?_
  obtain ⟨e', he', rfl⟩ := List.mem_map.mp he
  exact h e' he'

end Value

open Value

/-- Filters have no floats. -/
@[simp] theorem NameFilter.toValue_floats (filter : NameFilter) : filter.toValue.HasFloats F := by
  cases filter <;> simp [NameFilter.toValue]

@[simp] theorem CompatibilityRules.toValue_floats (r : CompatibilityRules) :
    r.toValue.HasFloats F := by
  simp [CompatibilityRules.toValue]

theorem ConditionRule.toValue_floats {r : ConditionRule} (h : r.value.Decoded F) :
    r.toValue.HasFloats F := by
  simp [ConditionRule.toValue, h.floats]

theorem Condition.toValue_floats {c : Condition} (h : c.Decoded F) : c.toValue.HasFloats F := by
  cases c with
  | rule r =>
    exact ConditionRule.toValue_floats
      (h [r] (List.mem_singleton_self _) r (List.mem_singleton_self _))
  | anyOf clauses =>
    exact .items fun clause hclause => .items fun r hr =>
      ConditionRule.toValue_floats (h clause hclause r hr)

mutual
/-- The floats of an encoded slot are those of its values. -/
theorem FieldSlot.toValue_floats : ∀ {s : FieldSlot}, s.Decoded F → s.toValue.HasFloats F
  | .generated ref, .generated href => by
    rw [FieldSlot.toValue]
    simpa [GeneratorRef.toValue] using fun v hv => (href v hv).floats
  | .literal ⟨name, attributes, subFields⟩, .literal hattributes hsubs => by
    rw [FieldSlot.toValue, FieldDeclaration.toValue_eq]
    have hdefault : (orNull id attributes.defaultValue).HasFloats F :=
      .orNull fun v hv => (hattributes.default v hv).2.floats
    have hcondition : (orNull Condition.toValue attributes.condition).HasFloats F :=
      .orNull fun c hc => Condition.toValue_floats (hattributes.condition c hc)
    have hblocks : (orNull NameFilter.toValue attributes.blocks).HasFloats F :=
      .orNull fun filter _ => filter.toValue_floats
    have hown : ∀ e ∈ FieldDeclaration.ownPairs ⟨name, attributes, subFields⟩,
        e.2.HasFloats F := by
      simpa [FieldDeclaration.ownPairs, hdefault, hcondition, hblocks] using
        FieldSlot.toValues_floats hsubs
    exact .object fun e he => (List.mem_append.mp he).elim (hown e) fun he =>
      (hattributes.options e he).2.floats

theorem FieldSlot.toValues_floats : ∀ {ss : List FieldSlot}, (∀ s ∈ ss, s.Decoded F) →
    ∀ v ∈ FieldSlot.toValues ss, v.HasFloats F
  | [], _, v, hv => by
    rw [FieldSlot.toValues] at hv
    exact absurd hv List.not_mem_nil
  | s :: ss, hss, v, hv => by
    rw [FieldSlot.toValues] at hv
    rcases List.mem_cons.mp hv with rfl | hv
    · exact FieldSlot.toValue_floats (hss s (List.mem_cons_self ..))
    · exact FieldSlot.toValues_floats (fun s hs => hss s (List.mem_cons_of_mem _ hs)) v hv
end

theorem BlockDefinition.toValue_floats {b : BlockDefinition} (h : b.Decoded F) :
    b.toValue.HasFloats F := by
  have hslots : ∀ ss : List FieldSlot, ss ⊆ b.content ++ b.customise ++ b.configure →
      ∀ v ∈ FieldSlot.toValues ss, v.HasFloats F :=
    fun ss hsub => FieldSlot.toValues_floats fun s hs => h s (hsub hs)
  simpa [BlockDefinition.toValue] using ⟨hslots b.content (by simp [List.append_assoc]),
    hslots b.customise (by simp [List.append_assoc]),
    hslots b.configure (by simp [List.append_assoc])⟩

@[simp] theorem LayoutDefinition.toValue_floats (l : LayoutDefinition) :
    l.toValue.HasFloats F := by
  simp [LayoutDefinition.toValue]

@[simp] theorem Settings.toValue_floats (s : Settings) : s.toValue.HasFloats F := by
  simp [Settings.toValue]

/-- The floats of encoded definitions are those that were decoded. -/
theorem Definitions.toValue_floats {d : Definitions} (h : d.Decoded F) :
    d.toValue.HasFloats F := by
  have hblocks : (ofDict (d.blocks.map fun _ b => b.toValue)).HasFloats F :=
    .ofDict fun e he => BlockDefinition.toValue_floats (h e he)
  have hlayouts : (ofDict (d.layouts.map fun _ l => l.toValue)).HasFloats F :=
    .ofDict fun e _ => e.2.toValue_floats
  simp [Definitions.toValue, hblocks, hlayouts]

/-! ## Rereading -/

namespace Definitions

/-- Definitions are read from their encoding as they were decoded, however it is arranged. -/
theorem reread {arrange : Value → Value} (harrange : Arrangement arrange) {v : Value}
    {d : Definitions} (h : ofValue? v = some d) : ofValue? (arrange d.toValue) = some d :=
  ofDatum?_arranged harrange (ofDatum?_decoded (.ofValue v.hasFloats) h)

/-- Decoded definitions with the same canonical text are equal, for they are read from the same
encoding. -/
theorem eq_of_canonicalText {v w : Value} {d e : Definitions} (hv : v.HasFloats Binary64.Canonical)
    (hw : w.HasFloats Binary64.Canonical) (hd : ofValue? v = some d) (he : ofValue? w = some e)
    (htext : d.canonicalText = e.canonicalText) : d = e := by
  have hencoded : d.toValue = e.toValue := Value.compact_injective
    (toValue_floats (ofDatum?_decoded (.ofValue hv) hd))
    (toValue_floats (ofDatum?_decoded (.ofValue hw) he)) htext
  have hread : ofValue? d.toValue = some d := reread .declared hd
  have hread' : ofValue? e.toValue = some e := reread .declared he
  rw [hencoded, hread'] at hread
  exact (Option.some.inj hread).symm

/-- Definitions that are decoded from texts have floats of the format, so nothing but the texts is
left to ask for. -/
theorem eq_of_texts {text text' : String} {v w : Value} {d e : Definitions}
    (hv : JsonText.read? text = some v) (hw : JsonText.read? text' = some w)
    (hd : ofValue? v = some d) (he : ofValue? w = some e)
    (htext : d.canonicalText = e.canonicalText) : d = e :=
  eq_of_canonicalText (JsonText.read?_floats hv) (JsonText.read?_floats hw) hd he htext

end Definitions

/-- Definitions are read from their encoding as they were decoded, whether its members stand in the
order of declaration or in key order. Decoded definitions with the same canonical text, which the
hash is taken over, are equal, if the floats of their documents are of the format; those of a
document that was read from a text are. -/
theorem definitions_reread :
    (∀ (v : Value) (d : Definitions), Definitions.ofValue? v = some d →
      Definitions.ofValue? d.toValue = some d ∧ Definitions.ofValue? d.toValue.sorted = some d) ∧
    (∀ (v w : Value) (d e : Definitions), v.HasFloats Binary64.Canonical →
      w.HasFloats Binary64.Canonical → Definitions.ofValue? v = some d →
      Definitions.ofValue? w = some e → d.canonicalText = e.canonicalText → d = e) ∧
    ∀ (text text' : String) (v w : Value) (d e : Definitions), JsonText.read? text = some v →
      JsonText.read? text' = some w → Definitions.ofValue? v = some d →
      Definitions.ofValue? w = some e → d.canonicalText = e.canonicalText → d = e := by
  refine ⟨fun v d h => ?_, fun v w d e hv hw hd he htext => ?_,
    fun text text' v w d e hv hw hd he htext => ?_⟩
  · exact ⟨Definitions.reread .declared h, Definitions.reread .sorted h⟩
  · exact Definitions.eq_of_canonicalText hv hw hd he htext
  · exact Definitions.eq_of_texts hv hw hd he htext

/-- A card whose size is one and a half, for any parent but a grid. -/
def cardShorthand : Value :=
  .object [("blocks", .object [("card", .object [
    ("content", .array [.object [
      ("name", .string "size"), ("type", .string "number"),
      ("default_value", .float ⟨false, 0x18000000000000, -52⟩), ("max", .int 9),
      ("conditional", .object [("field", .string "size"), ("value", .bool true)])]]),
    ("rules", .object [("block", .object [("except", .array [.string "grid"])])])])])]

/-- The same card, with some records written as arrays. -/
def cardArrays : Value :=
  .object [("blocks", .object [("card", .object [
    ("rules", .array [.object [("except", .array [.string "grid"])], .string "none"]),
    ("content", .array [.object [
      ("max", .int 9), ("name", .string "size"), ("type", .string "number"),
      ("conditional", .array [.string "size", .string "==", .bool true]),
      ("default_value", .float ⟨false, 0x18000000000000, -52⟩)]])])]),
    ("layouts", .object [])]

theorem shorthand_reread :
    ∃ d, Definitions.ofValue? cardShorthand = some d ∧ Definitions.ofValue? cardArrays = some d ∧
      Definitions.ofValue? d.toValue = some d ∧ Definitions.ofValue? d.toValue.sorted = some d := by
  obtain ⟨d, hd⟩ := Option.isSome_iff_exists.mp
    (show (Definitions.ofValue? cardShorthand).isSome = true by decide +kernel)
  obtain ⟨e, he⟩ := Option.isSome_iff_exists.mp
    (show (Definitions.ofValue? cardArrays).isSome = true by decide +kernel)
  have htext : (Definitions.ofValue? cardShorthand).map Definitions.canonicalText =
      (Definitions.ofValue? cardArrays).map Definitions.canonicalText := by decide +kernel
  rw [hd, he] at htext
  have hfloat : Binary64.Canonical ⟨false, 0x18000000000000, -52⟩ := by decide
  obtain rfl : d = e := definitions_reread.2.1 cardShorthand cardArrays d e
    (by simpa [cardShorthand] using hfloat) (by simpa [cardArrays] using hfloat) hd he
    (Option.some.inj htext)
  exact ⟨d, hd, he, definitions_reread.1 cardShorthand d hd⟩

end PageBlocks
