import PageBlocks.Proofs.Rows.Restored

/-!
# Rows whose keys clash with nothing

Less is asked of stored rows than that they come back as they were, if only what
is read from them must come back: no row of a collection has an envelope, no
member beside the fields of a block row is named like a group or is the slot of a
field, and no object of sub-fields has a member under a name of one. Rows may
hold tabs, which are not read, and a switch may hold a boolean.

> `Storable.layout_clear`: rows that can be stored are clear.
-/

namespace PageBlocks

namespace Clear

variable (index : FlatIndex)

mutual
/-- The value of a field. -/
def value (entry : IndexEntry) : Value → Prop
  | .array items =>
    match entry.node.shape with
    | .collection => collection entry.key items
    | .rows => rows entry items
    | _ => True
  | .object members =>
    match entry.node.shape with
    | .fields => fields entry members
    | _ => True
  | _ => True

/-- The rows of a repeater. -/
def rows (entry : IndexEntry) : List Value → Prop
  | [] => True
  | .object members :: rest => fields entry members ∧ rows entry rest
  | _ :: rest => rows entry rest

/-- An object of sub-fields: no member has the name of one. -/
def fields (parent : IndexEntry) : List (String × Value) → Prop
  | [] => True
  | (id, raw) :: rest =>
    index.childKey parent.key parent.group id = none ∧
      (match index.childEntry? parent.key id with
        | some entry => value entry raw
        | none => True) ∧
      fields parent rest

/-- The rows of a collection, no more than there are positions. -/
def collection (key : String) (items : List Value) : Prop :=
  items.length ≤ 18446744073709551616 ∧ variants key items

def variants (key : String) : List Value → Prop
  | [] => True
  | v :: rest => variant key v ∧ variants key rest

/-- A row of a collection. -/
def variant (key : String) : Value → Prop
  | .object members =>
    metaKey ∉ members.map (·.1) ∧
      match Rehydrate.variant? index key members with
      | some (_, entry) => block entry.key members
      | none => True
  | _ => True

/-- The members of a row of a variant. -/
def block (key : String) : List (String × Value) → Prop
  | [] => True
  | (id, raw) :: rest =>
    (match Rehydrate.member index key id with
      | .tag | .tab _ => True
      | .foreign => FieldGroup.ofName? id = none ∧ index.childKey key none id = none
      | .field entry => value entry raw) ∧
      block key rest
end

/-- The rows of a layout. -/
def layout (name : String) (stored : List Value) : Prop :=
  match index.layoutKey name with
  | some key => collection index key stored
  | none => ∀ row ∈ stored, NoEnvelope row

variable {index}

/-! ## Parts -/

theorem of_mem_rows {entry : IndexEntry} {members : List (String × Value)} :
    ∀ {items : List Value}, rows index entry items → .object members ∈ items →
      fields index entry members
  | [], _, hmem => absurd hmem List.not_mem_nil
  | item :: rest, h, hmem => by
    rcases List.mem_cons.mp hmem with rfl | hmem
    · rw [rows] at h
      exact h.1
    · refine of_mem_rows ?_ hmem
      cases item with
      | object other =>
        rw [rows] at h
        exact h.2
      | _ =>
        simp only [rows] at h
        exact h

theorem of_mem_fields {parent : IndexEntry} {e : String × Value} :
    ∀ {members : List (String × Value)}, fields index parent members → e ∈ members →
      index.childKey parent.key parent.group e.1 = none ∧
        ∀ sub, index.childEntry? parent.key e.1 = some sub → value index sub e.2
  | [], _, he => absurd he List.not_mem_nil
  | (id, raw) :: rest, h, he => by
    rw [fields] at h
    rcases List.mem_cons.mp he with rfl | he
    · refine ⟨h.1, fun sub hsub => ?_⟩
      have hvalue := h.2.1
      rw [hsub] at hvalue
      exact hvalue
    · exact of_mem_fields h.2.2 he

theorem of_mem_variants {key : String} {v : Value} :
    ∀ {items : List Value}, variants index key items → v ∈ items → variant index key v
  | [], _, hv => absurd hv List.not_mem_nil
  | w :: rest, h, hv => by
    rw [variants] at h
    rcases List.mem_cons.mp hv with rfl | hv
    · exact h.1
    · exact of_mem_variants h.2 hv

theorem of_mem_block {key : String} {e : String × Value} :
    ∀ {members : List (String × Value)}, block index key members → e ∈ members →
      (Rehydrate.member index key e.1 = .foreign →
          FieldGroup.ofName? e.1 = none ∧ index.childKey key none e.1 = none) ∧
        ∀ entry, Rehydrate.member index key e.1 = .field entry → value index entry e.2
  | [], _, he => absurd he List.not_mem_nil
  | (id, raw) :: rest, h, he => by
    rw [block] at h
    rcases List.mem_cons.mp he with rfl | he
    · refine ⟨fun hmember => ?_, fun entry hmember => ?_⟩
      all_goals
        have hhere := h.1
        rw [hmember] at hhere
        exact hhere
    · exact of_mem_block h.2 he

/-- What stands beside the groups of a clear row is not named like one. -/
theorem block.foreign {key : String} {members : List (String × Value)}
    (h : block index key members) : ∀ e ∈ members,
      Rehydrate.member index key e.1 = .foreign → FieldGroup.ofName? e.1 = none :=
  fun _ he hmember => ((of_mem_block h he).1 hmember).1

end Clear

namespace Storable

variable {index : FlatIndex}

mutual
theorem value_clear (hindex : index.Coherent) {entry : IndexEntry} :
    ∀ {v : Value}, value index entry v → Clear.value index entry v
  | .array items, h => by
    rw [value] at h
    rw [Clear.value]
    cases hshape : entry.node.shape with
    | collection =>
      rw [hshape] at h
      dsimp only at h ⊢
      rw [collection] at h
      rw [Clear.collection]
      exact ⟨h.1, variants_clear hindex h.2⟩
    | rows =>
      rw [hshape] at h
      exact rows_clear hindex h
    | _ => trivial
  | .object members, h => by
    rw [value] at h
    rw [Clear.value]
    cases hshape : entry.node.shape with
    | fields =>
      rw [hshape] at h
      exact fields_clear hindex h
    | _ => trivial
  | .null, _ | .bool _, _ | .int _, _ | .float _, _ | .string _, _ => by
    unfold Clear.value
    trivial

theorem rows_clear (hindex : index.Coherent) {entry : IndexEntry} :
    ∀ {items : List Value}, rows index entry items → Clear.rows index entry items
  | [], _ => by
    rw [Clear.rows]
    trivial
  | .object members :: rest, h => by
    rw [rows] at h
    rw [Clear.rows]
    exact ⟨fields_clear hindex h.1, rows_clear hindex h.2⟩
  | .null :: rest, h | .bool _ :: rest, h | .int _ :: rest, h | .float _ :: rest, h
  | .string _ :: rest, h | .array _ :: rest, h => by
    unfold rows at h
    unfold Clear.rows
    exact rows_clear hindex h

theorem fields_clear (hindex : index.Coherent) {parent : IndexEntry} :
    ∀ {members : List (String × Value)}, fields index parent members →
      Clear.fields index parent members
  | [], _ => by
    rw [Clear.fields]
    trivial
  | (id, raw) :: rest, h => by
    rw [fields] at h
    rw [Clear.fields]
    refine ⟨h.1, ?_, fields_clear hindex h.2.2⟩
    have hvalue := h.2.1
    cases hsub : index.childEntry? parent.key id with
    | none => trivial
    | some sub =>
      rw [hsub] at hvalue
      exact value_clear hindex hvalue

theorem variants_clear (hindex : index.Coherent) {key : String} :
    ∀ {items : List Value}, variants index key items → Clear.variants index key items
  | [], _ => by
    rw [Clear.variants]
    trivial
  | v :: rest, h => by
    rw [variants] at h
    rw [Clear.variants]
    exact ⟨variant_clear hindex h.1, variants_clear hindex h.2⟩

theorem variant_clear (hindex : index.Coherent) {key : String} :
    ∀ {v : Value}, variant index key v → Clear.variant index key v
  | .object members, h => by
    rw [variant] at h
    rw [Clear.variant]
    refine ⟨h.1, ?_⟩
    have hblock := h.2
    cases hvariant : Rehydrate.variant? index key members with
    | none => trivial
    | some found =>
      obtain ⟨-, -, hlookup, hnode⟩ := Rehydrate.variant?_named hindex hvariant
      rw [hvariant] at hblock
      exact block_clear hindex hlookup hnode hblock
  | .null, _ | .bool _, _ | .int _, _ | .float _, _ | .string _, _ | .array _, _ => by
    unfold Clear.variant
    trivial

theorem block_clear (hindex : index.Coherent) {key : String} {entry : IndexEntry}
    (hlookup : index.lookup key = some entry) (hnode : entry.node = .block) :
    ∀ {members : List (String × Value)}, block index key members →
      Clear.block index key members
  | [], _ => by
    rw [Clear.block]
    trivial
  | (id, raw) :: rest, h => by
    rw [block] at h
    rw [Clear.block]
    refine ⟨?_, block_clear hindex hlookup hnode h.2⟩
    have hmember := h.1
    cases hm : Rehydrate.member index key id with
    | tag => trivial
    | tab group => trivial
    | foreign =>
      rw [hm] at hmember
      exact ⟨hmember.1, hindex.child?_eq_none.mp
        (Rehydrate.child?_foreign hindex hlookup hnode hmember.2)⟩
    | field entry =>
      rw [hm] at hmember
      exact value_clear hindex hmember
end

/-- Rows that can be stored are clear. -/
theorem layout_clear (hindex : index.Coherent) {name : String} {stored : List Value}
    (h : layout index name stored) : Clear.layout index name stored := by
  unfold layout at h
  unfold Clear.layout
  cases hkey : index.layoutKey name with
  | none =>
    rw [hkey] at h
    exact h
  | some key =>
    rw [hkey] at h
    dsimp only at h ⊢
    rw [collection] at h
    rw [Clear.collection]
    exact ⟨h.1, variants_clear hindex h.2⟩

end Storable

end PageBlocks
