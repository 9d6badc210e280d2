import PageBlocks.Proofs.Entries
import PageBlocks.Proofs.Value
import PageBlocks.Rows.Rehydrate

/-!
# Rows that can be stored

What stored rows must not contain for the way through their blocks and back to
be without loss. A row of a collection has no envelope. Beside the fields of its
variant a block row holds no group and no slashes, and it holds no tab. An
object of sub-fields has no member under a name of a sub-field, and no switch
holds a boolean, which storage keeps as a number.

Everything else may stand in a row: unknown variants, ids of other variants,
values of the wrong shape, and members that no field accounts for.
-/

namespace PageBlocks

/-- References are expanded to well-formed values. -/
def Resolver.WellFormed (resolver : Resolver) : Prop :=
  ∀ v w, v.WellFormed → resolver.attachment v = some w ∨ resolver.contentItem v = some w →
    w.WellFormed

theorem Resolver.none_wellFormed : Resolver.none.WellFormed :=
  fun _ _ _ h => h.elim nofun nofun

/-- A value that is no object with an envelope. -/
def NoEnvelope : Value → Prop
  | .object members => metaKey ∉ members.map (·.1)
  | _ => True

instance : DecidablePred NoEnvelope
  | .object members => inferInstanceAs (Decidable (metaKey ∉ members.map (·.1)))
  | .null | .bool _ | .int _ | .float _ | .string _ | .array _ => isTrue trivial

/-- An object without an envelope is not a block. -/
theorem BlockMeta.ofMembers?_eq_none {members : List (String × Value)}
    (h : metaKey ∉ members.map (·.1)) : ofMembers? members = none := by
  unfold ofMembers?
  rw [Entries.get?_eq_none_iff.mpr h]
  rfl

namespace Storable

variable (index : FlatIndex)

mutual
/-- The value of a field. -/
def value (entry : IndexEntry) : Value → Prop
  | .array items =>
    match entry.node.shape with
    | .collection => collection entry.key items
    | .rows => rows entry items
    | _ => True
  | .object members =>
    match entry.node.shape with
    | .fields => fields entry members
    | _ => True
  | .bool _ => entry.node ≠ .field .trueFalse
  | _ => True

/-- The rows of a repeater. -/
def rows (entry : IndexEntry) : List Value → Prop
  | [] => True
  | .object members :: rest => fields entry members ∧ rows entry rest
  | _ :: rest => rows entry rest

/-- An object of sub-fields: no member has the name of one. -/
def fields (parent : IndexEntry) : List (String × Value) → Prop
  | [] => True
  | (id, raw) :: rest =>
    index.childKey parent.key parent.group id = none ∧
      (match index.childEntry? parent.key id with
        | some entry => value entry raw
        | none => True) ∧
      fields parent rest

/-- The rows of a collection, no more than there are positions, which are 64-bit counts. -/
def collection (key : String) (items : List Value) : Prop :=
  items.length ≤ 18446744073709551616 ∧ variants key items

def variants (key : String) : List Value → Prop
  | [] => True
  | v :: rest => variant key v ∧ variants key rest

/-- A row of a collection. -/
def variant (key : String) : Value → Prop
  | .object members =>
    metaKey ∉ members.map (·.1) ∧
      match Rehydrate.variant? index key members with
      | some (_, entry) => block entry.key members
      | none => True
  | _ => True

/-- The members of a row of a variant. -/
def block (key : String) : List (String × Value) → Prop
  | [] => True
  | (id, raw) :: rest =>
    (match Rehydrate.member index key id with
      | .tag => True
      | .foreign => FieldGroup.ofName? id = none ∧ '/' ∉ id.toList
      | .tab _ => False
      | .field entry => value entry raw) ∧
      block key rest
end

/-- The rows of a layout. Those of an unknown layout are not read. -/
def layout (name : String) (stored : List Value) : Prop :=
  match index.layoutKey name with
  | some key => collection index key stored
  | none => ∀ row ∈ stored, NoEnvelope row

/-! ## Deciding -/

mutual
/-- Whether the value of a field can be stored. -/
def decideValue (entry : IndexEntry) : (v : Value) → Decidable (value index entry v)
  | .array items =>
    match h : entry.node.shape with
    | .collection =>
      have := decideVariants entry.key items
      decidable_of_iff (items.length ≤ 18446744073709551616 ∧ variants index entry.key items) (by
        rw [value, h]
        dsimp only
        rw [collection])
    | .rows =>
      have := decideRows entry items
      decidable_of_iff (rows index entry items) (by rw [value, h])
    | .fields | .leaf _ | .bare => isTrue (by rw [value, h]; trivial)
  | .object members =>
    match h : entry.node.shape with
    | .fields =>
      have := decideFields entry members
      decidable_of_iff (fields index entry members) (by rw [value, h])
    | .collection | .rows | .leaf _ | .bare => isTrue (by rw [value, h]; trivial)
  | .bool _ => decidable_of_iff (entry.node ≠ .field .trueFalse) (by rw [value])
  | .null | .int _ | .float _ | .string _ => isTrue (by unfold value; trivial)

/-- Whether the rows of a repeater can be stored. -/
def decideRows (entry : IndexEntry) : (items : List Value) → Decidable (rows index entry items)
  | [] => isTrue (by rw [rows]; trivial)
  | .object members :: rest =>
    have := decideFields entry members
    have := decideRows entry rest
    decidable_of_iff (fields index entry members ∧ rows index entry rest) (by rw [rows])
  | .null :: rest | .bool _ :: rest | .int _ :: rest | .float _ :: rest | .string _ :: rest
  | .array _ :: rest =>
    have := decideRows entry rest
    decidable_of_iff (rows index entry rest) (by simp only [rows])

/-- Whether an object of sub-fields can be stored. -/
def decideFields (parent : IndexEntry) :
    (members : List (String × Value)) → Decidable (fields index parent members)
  | [] => isTrue (by rw [fields]; trivial)
  | (id, raw) :: rest =>
    have := decideFields parent rest
    have : Decidable (match index.childEntry? parent.key id with
        | some entry => value index entry raw
        | none => True) :=
      match index.childEntry? parent.key id with
      | some entry => decideValue entry raw
      | none => isTrue trivial
    decidable_of_iff (_ ∧ _ ∧ _) (by rw [fields])

/-- Whether the rows of a collection can be stored. -/
def decideVariants (key : String) :
    (items : List Value) → Decidable (variants index key items)
  | [] => isTrue (by rw [variants]; trivial)
  | v :: rest =>
    have := decideVariant key v
    have := decideVariants key rest
    decidable_of_iff (variant index key v ∧ variants index key rest) (by rw [variants])

/-- Whether a row of a collection can be stored. -/
def decideVariant (key : String) : (v : Value) → Decidable (variant index key v)
  | .object members =>
    have : Decidable (match Rehydrate.variant? index key members with
        | some (_, entry) => block index entry.key members
        | none => True) :=
      match Rehydrate.variant? index key members with
      | some (_, entry) => decideBlock entry.key members
      | none => isTrue trivial
    decidable_of_iff (metaKey ∉ members.map (·.1) ∧ _) (by rw [variant])
  | .null | .bool _ | .int _ | .float _ | .string _ | .array _ =>
    isTrue (by unfold variant; trivial)

/-- Whether the members of a row of a variant can be stored. -/
def decideBlock (key : String) :
    (members : List (String × Value)) → Decidable (block index key members)
  | [] => isTrue (by rw [block]; trivial)
  | (id, raw) :: rest =>
    have := decideBlock key rest
    have : Decidable (match Rehydrate.member index key id with
        | .tag => True
        | .foreign => FieldGroup.ofName? id = none ∧ '/' ∉ id.toList
        | .tab _ => False
        | .field entry => value index entry raw) :=
      match Rehydrate.member index key id with
      | .tag => isTrue trivial
      | .foreign => inferInstance
      | .tab _ => isFalse nofun
      | .field entry => decideValue entry raw
    decidable_of_iff (_ ∧ _) (by rw [block])
end

instance (name : String) (stored : List Value) : Decidable (layout index name stored) :=
  match h : index.layoutKey name with
  | some key =>
    have := decideVariants index key stored
    decidable_of_iff (stored.length ≤ 18446744073709551616 ∧ variants index key stored) (by
      rw [layout, h]
      dsimp only
      rw [collection])
  | none => decidable_of_iff (∀ row ∈ stored, NoEnvelope row) (by rw [layout, h])

end Storable

end PageBlocks
