import PageBlocks.Proofs.Rows.Envelope
import PageBlocks.Proofs.Rows.Paths
import PageBlocks.Proofs.Rows.Storable
import PageBlocks.Proofs.Tree.Coherent

/-!
# What each part of a row records

The stored forms of a row are those of its fields one after the other, those of
a field with rows are those of the rows, and those of an object are those of
its sub-fields. The fields of a row have distinct slots and the sub-fields of an
object distinct names, so every part finds its own records again:

> `agrees_rowField`, `agrees_rowObject`, `agrees_subField`: what agrees with the
> records of the whole agrees with those of each part.
-/

namespace PageBlocks

namespace Rehydrate

/-! ## Parts -/

/-- The field that a member of a row of a variant is, with its value. -/
def rowField? (index : FlatIndex) (key : String) (e : String × Value) :
    Option (IndexEntry × Value) :=
  match member index key e.1 with
  | .field entry => some (entry, e.2)
  | _ => none

/-- The fields in a row of a variant, with their values. -/
def rowFields (index : FlatIndex) (key : String) (members : List (String × Value)) :
    List (IndexEntry × Value) :=
  members.filterMap (rowField? index key)

/-- The rows of a repeater that are objects, with their positions. -/
def rowObjects : Nat → List Value → List (Nat × List (String × Value))
  | _, [] => []
  | position, .object members :: rest => (position, members) :: rowObjects (position + 1) rest
  | position, _ :: rest => rowObjects (position + 1) rest

/-- The sub-fields in an object, with their values. -/
def subFields (index : FlatIndex) (parent : String) (members : List (String × Value)) :
    List (IndexEntry × Value) :=
  members.filterMap fun e => (index.childEntry? parent e.1).map fun entry => (entry, e.2)

section Parts

variable {index : FlatIndex} {resolver : Resolver} {group : Option FieldGroup}

theorem fieldRecords_eq {trail : String} {parent : IndexEntry}
    (members : List (String × Value)) :
    fieldRecords index resolver group trail parent members =
      (subFields index parent.key members).flatMap fun p =>
        records index resolver group (subTrail trail p.1.name) p.1 p.2 := by
  induction members with
  | nil =>
    rw [fieldRecords]
    rfl
  | cons e rest ih =>
    rw [fieldRecords, ih, subFields, subFields, List.filterMap_cons]
    cases index.childEntry? parent.key e.1 with
    | none => rfl
    | some entry => rfl

theorem rowRecords_eq {trail : String} {entry : IndexEntry} :
    ∀ (items : List Value) (position : Nat),
      rowRecords index resolver group trail entry position items =
        (rowObjects position items).flatMap fun p =>
          fieldRecords index resolver group (rowTrail trail p.1) entry p.2
  | [], position => by rw [rowRecords]; rfl
  | v :: rest, position => by
    cases v <;> rw [rowRecords, rowRecords_eq rest (position + 1), rowObjects]
    case object members => rw [List.flatMap_cons]
    all_goals exact nofun

theorem blockRecords_eq {key : String} :
    ∀ {members : List (String × Value)} (opened : Option FieldGroup),
      (∀ p ∈ rowFields index key members, p.1.group ≠ none) →
      blockRecords index resolver key opened members =
        (rowFields index key members).flatMap fun p =>
          records index resolver p.1.group p.1.name p.1 p.2
  | [], opened, _ => by rw [blockRecords]; rfl
  | (id, raw) :: rest, opened, hgroups => by
    have hrest : ∀ opened, blockRecords index resolver key opened rest =
        (rowFields index key rest).flatMap fun p =>
          records index resolver p.1.group p.1.name p.1 p.2 := by
      intro opened
      refine blockRecords_eq opened fun p hp => hgroups p ?_
      rw [rowFields, List.filterMap_cons]
      split
      next => exact hp
      next => exact List.mem_cons_of_mem _ hp
    -- Which tab is open counts for fields without a group alone, and there are none.
    rw [blockRecords]
    cases hmember : member index key id with
    | tag => simp only [rowFields, List.filterMap_cons, rowField?, hmember, hrest]
    | foreign => simp only [rowFields, List.filterMap_cons, rowField?, hmember, hrest]
    | tab group => simp only [rowFields, List.filterMap_cons, rowField?, hmember, hrest]
    | field entry =>
      have hfields : rowFields index key ((id, raw) :: rest) =
          (entry, raw) :: rowFields index key rest := by
        simp only [rowFields, List.filterMap_cons, rowField?, hmember]
      have hgroup : (entry.group <|> opened) = entry.group := by
        have hsome := hgroups (entry, raw) (by rw [hfields]; exact List.mem_cons_self ..)
        cases hg : entry.group with
        | none => exact absurd hg hsome
        | some g => rfl
      rw [hfields, List.flatMap_cons, hrest]
      show records index resolver (entry.group <|> opened) _ _ _ ++ _ = _
      rw [hgroup]

/-! ## What a part records -/

theorem expandWith_wellFormed {resolve : Value → Option Value} {v : Value}
    (hresolve : ∀ w, resolve v = some w → w.WellFormed) (hv : v.WellFormed) :
    (expandWith resolve v).WellFormed := by
  unfold expandWith
  split
  next => exact hv
  next =>
    cases hw : resolve v with
    | none => exact hv
    | some w => exact hresolve w hw

theorem numberOf_wellFormed (s : String) : (numberOf s).WellFormed := by
  unfold numberOf
  dsimp only
  split
  next => trivial
  next =>
    split
    next => trivial
    next => split <;> trivial

/-- Reading keeps values well-formed. -/
theorem normalise_wellFormed (hresolver : resolver.WellFormed) (kind : FieldKind) {v : Value}
    (hv : v.WellFormed) : (normalise resolver kind v).WellFormed := by
  have hattachment : ∀ {w : Value}, w.WellFormed →
      (expandWith resolver.attachment w).WellFormed := fun hw =>
    expandWith_wellFormed (fun u hu => hresolver _ u hw (Or.inl hu)) hw
  have hitem : ∀ {w : Value}, w.WellFormed → (expandWith resolver.contentItem w).WellFormed :=
    fun hw => expandWith_wellFormed (fun u hu => hresolver _ u hw (Or.inr hu)) hw
  have hall : ∀ {f : Value → Value} {items : List Value}, Value.WellFormedItems items →
      (∀ {w : Value}, w.WellFormed → (f w).WellFormed) →
      (Value.array (items.map f)).WellFormed := by
    intro f items hitems hf
    refine Value.wellFormedItems_of_forall fun u hu => ?_
    obtain ⟨w, hw, rfl⟩ := List.mem_map.mp hu
    exact hf (Value.wellFormed_of_mem_items hitems w hw)
  unfold normalise
  split
  next => trivial
  next => exact numberOf_wellFormed _
  next => exact numberOf_wellFormed _
  next => exact hattachment hv
  next => exact hattachment hv
  next => exact hall hv hattachment
  next => exact hall hv hitem
  next => exact hall hv hitem
  next => exact hall hv hitem
  next => exact hitem hv
  next => exact hitem hv
  next => exact hitem hv
  next => exact hv

/-- A record under a base, well-formed if what was read is. -/
def RecordedUnder (resolver : Resolver) (base : String) (read : Prop)
    (r : String × StoredValue) : Prop :=
  Under base r.1 ∧ (resolver.WellFormed → read → r.2.WellFormed)

theorem leafRecords_under {trail : String} {kind : FieldKind} {raw : Value}
    {r : String × StoredValue} (h : r ∈ leafRecords index resolver group trail kind raw) :
    RecordedUnder resolver (fieldPath group trail) raw.WellFormed r := by
  unfold leafRecords at h
  dsimp only at h
  split at h
  next => exact absurd h List.not_mem_nil
  next =>
    rw [List.mem_singleton.mp h]
    exact ⟨Under.refl _, fun hresolver hraw => ⟨hraw, normalise_wellFormed hresolver kind hraw⟩⟩

mutual
/-- What is recorded for a value stands under the path of its field. -/
theorem records_under :
    ∀ (v : Value) {trail : String} {entry : IndexEntry} {r : String × StoredValue},
      r ∈ records index resolver group trail entry v →
        RecordedUnder resolver (fieldPath group trail) v.WellFormed r
  | .array items, trail, entry, r, h => by
    rw [records] at h
    split at h
    next =>
      obtain ⟨position, hunder, hwell⟩ := rowRecords_under items h
      exact ⟨hunder.of_append, hwell⟩
    next => exact leafRecords_under h
    next => exact absurd h List.not_mem_nil
  | .object members, trail, entry, r, h => by
    rw [records] at h
    split at h
    next =>
      obtain ⟨name, hunder, hwell⟩ := fieldRecords_under members h
      exact ⟨hunder.of_append, fun hresolver hv => hwell hresolver hv.2⟩
    next => exact leafRecords_under h
    next => exact absurd h List.not_mem_nil
  | .null, _, _, _, h | .bool _, _, _, _, h | .int _, _, _, _, h | .float _, _, _, _, h
  | .string _, _, _, _, h => by
    unfold records at h
    split at h
    next => exact leafRecords_under h
    next => exact absurd h List.not_mem_nil

theorem rowRecords_under :
    ∀ (items : List Value) {trail : String} {entry : IndexEntry} {position : Nat}
      {r : String × StoredValue},
      r ∈ rowRecords index resolver group trail entry position items →
        ∃ i : Nat, RecordedUnder resolver (fieldPath group trail ++ "." ++ toString i)
          (Value.WellFormedItems items) r
  | [], trail, entry, position, r, h => by
    rw [rowRecords] at h
    exact absurd h List.not_mem_nil
  | .object members :: rest, trail, entry, position, r, h => by
    rw [rowRecords] at h
    rcases List.mem_append.mp h with h | h
    · obtain ⟨name, hunder, hwell⟩ := fieldRecords_under members h
      rw [fieldPath_rowTrail] at hunder
      exact ⟨position, hunder.of_append, fun hresolver hv => hwell hresolver hv.1.2⟩
    · obtain ⟨i, hunder, hwell⟩ := rowRecords_under rest h
      exact ⟨i, hunder, fun hresolver hv => hwell hresolver hv.2⟩
  | .null :: rest, _, _, _, _, h | .bool _ :: rest, _, _, _, _, h | .int _ :: rest, _, _, _, _, h
  | .float _ :: rest, _, _, _, _, h | .string _ :: rest, _, _, _, _, h
  | .array _ :: rest, _, _, _, _, h => by
    unfold rowRecords at h
    obtain ⟨i, hunder, hwell⟩ := rowRecords_under rest h
    exact ⟨i, hunder, fun hresolver hv => hwell hresolver hv.2⟩

theorem fieldRecords_under :
    ∀ (members : List (String × Value)) {trail : String} {parent : IndexEntry}
      {r : String × StoredValue},
      r ∈ fieldRecords index resolver group trail parent members →
        ∃ name, RecordedUnder resolver (fieldPath group trail ++ "." ++ name)
          (Value.WellFormedMembers members) r
  | [], trail, parent, r, h => by
    rw [fieldRecords] at h
    exact absurd h List.not_mem_nil
  | (id, raw) :: rest, trail, parent, r, h => by
    rw [fieldRecords] at h
    rcases List.mem_append.mp h with h | h
    · split at h
      next entry _ =>
        obtain ⟨hunder, hwell⟩ := records_under raw h
        rw [fieldPath_subTrail] at hunder
        exact ⟨entry.name, hunder, fun hresolver hv => hwell hresolver hv.1⟩
      next => exact absurd h List.not_mem_nil
    · obtain ⟨name, hunder, hwell⟩ := fieldRecords_under rest h
      exact ⟨name, hunder, fun hresolver hv => hwell hresolver hv.2⟩
end

/-- What is recorded for a row of well-formed values is well-formed. -/
theorem blockRecords_wellFormed {key : String} (hresolver : resolver.WellFormed) :
    ∀ {members : List (String × Value)} {opened : Option FieldGroup} {r : String × StoredValue},
      Value.WellFormedMembers members →
      r ∈ blockRecords index resolver key opened members → r.2.WellFormed
  | [], opened, r, _, h => by
    rw [blockRecords] at h
    exact absurd h List.not_mem_nil
  | (id, raw) :: rest, opened, r, hwell, h => by
    rw [blockRecords] at h
    split at h
    next => exact blockRecords_wellFormed hresolver hwell.2 h
    next => exact blockRecords_wellFormed hresolver hwell.2 h
    next => exact blockRecords_wellFormed hresolver hwell.2 h
    next =>
      rcases List.mem_append.mp h with h | h
      · exact (records_under raw h).2 hresolver hwell.1
      · exact blockRecords_wellFormed hresolver hwell.2 h

/-! ## What a part finds again -/

theorem dot_not_mem {name : String} (h : isValidName name = true) : '.' ∉ name.toList :=
  not_mem_of_isValidName h (by decide)

theorem agrees_subField (hindex : index.Coherent) {trail : String} {parent : IndexEntry}
    {kind : FieldKind} {stored : Dict StoredValue} {members : List (String × Value)}
    {p : IndexEntry × Value} (hparent : index.lookup parent.key = some parent)
    (hnode : parent.node = .field kind) (hkind : kind.hasSubFields = true)
    (hkeys : (members.map (·.1)).Nodup)
    (h : Agrees stored (fieldPath group trail)
      (fieldRecords index resolver group trail parent members))
    (hp : p ∈ subFields index parent.key members) :
    Agrees stored (fieldPath group (subTrail trail p.1.name))
      (records index resolver group (subTrail trail p.1.name) p.1 p.2) := by
  have hvalid : ∀ {id : String} {e : IndexEntry}, index.childEntry? parent.key id = some e →
      e.group = parent.group ∧ isValidName e.name = true := by
    intro id e he
    obtain ⟨hid, hbelow⟩ := FlatIndex.childEntry?_iff.mp he
    obtain ⟨hgroup, -, hname⟩ := hindex.below_row hparent hnode hkind hid hbelow
    exact ⟨hgroup, hname⟩
  rw [fieldRecords_eq] at h
  refine h.of_flatMap (fun q => fieldPath group (subTrail trail q.1.name))
    (fun q _ r hr => (records_under q.2 hr).1) ?_ hp fun path hpath => ?_
  · -- Sub-fields with the same name would have the same id.
    refine List.Pairwise.filterMap _ ?_ (List.pairwise_map.mp hkeys)
    intro e e' hne b hb b' hb' path hunder hunder'
    obtain ⟨c, hc, rfl⟩ := Option.map_eq_some_iff.mp hb
    obtain ⟨c', hc', rfl⟩ := Option.map_eq_some_iff.mp hb'
    rw [fieldPath_subTrail] at hunder hunder'
    have hname := hunder.name_eq _ (dot_not_mem (hvalid hc).2) (dot_not_mem (hvalid hc').2) hunder'
    exact hne (hindex.id_eq hc hc' (by rw [(hvalid hc).1, (hvalid hc').1, hname]))
  · rw [fieldPath_subTrail] at hpath
    exact hpath.of_append

theorem le_of_mem_rowObjects :
    ∀ {items : List Value} {position : Nat} {p : Nat × List (String × Value)},
      p ∈ rowObjects position items → position ≤ p.1
  | [], _, _, h => absurd h List.not_mem_nil
  | v :: rest, position, p, h => by
    cases v
    case object members =>
      rcases List.mem_cons.mp h with rfl | h
      · exact Nat.le_refl _
      · exact Nat.le_of_succ_le (le_of_mem_rowObjects h)
    all_goals exact Nat.le_of_succ_le (@le_of_mem_rowObjects rest _ _ h)

theorem rowObjects_pairwise :
    ∀ (items : List Value) (position : Nat),
      (rowObjects position items).Pairwise fun p q => p.1 ≠ q.1
  | [], _ => List.Pairwise.nil
  | v :: rest, position => by
    cases v
    case object members =>
      refine List.pairwise_cons.mpr ⟨fun q hq heq => ?_, rowObjects_pairwise rest (position + 1)⟩
      have hle := le_of_mem_rowObjects hq
      simp only at heq
      omega
    all_goals exact rowObjects_pairwise rest (position + 1)

theorem agrees_rowObject {trail : String} {entry : IndexEntry} {stored : Dict StoredValue}
    {items : List Value} {position : Nat} {p : Nat × List (String × Value)}
    (h : Agrees stored (fieldPath group trail)
      (rowRecords index resolver group trail entry position items))
    (hp : p ∈ rowObjects position items) :
    Agrees stored (fieldPath group (rowTrail trail p.1))
      (fieldRecords index resolver group (rowTrail trail p.1) entry p.2) := by
  rw [rowRecords_eq] at h
  refine h.of_flatMap (fun q => fieldPath group (rowTrail trail q.1)) (fun q _ r hr => ?_) ?_ hp
    fun path hpath => ?_
  · obtain ⟨name, hunder, -⟩ := fieldRecords_under q.2 hr
    exact hunder.of_append
  -- Rows at different positions record under different numbers.
  · refine (rowObjects_pairwise items position).imp fun hne path hunder hunder' => ?_
    rw [fieldPath_rowTrail] at hunder hunder'
    exact hne (toString_injective
      (hunder.name_eq _ (dot_not_mem_toString _) (dot_not_mem_toString _) hunder'))
  · rw [fieldPath_rowTrail] at hpath
    exact hpath.of_append

theorem member_field {key id : String} {entry : IndexEntry}
    (h : member index key id = .field entry) : index.childEntry? key id = some entry := by
  unfold member at h
  split at h
  next => cases h
  next =>
    split at h
    next => cases h
    next e he =>
      split at h
      next => cases h
      next =>
        cases h
        exact he

theorem member_not_tab {key id : String} {entry : IndexEntry}
    (h : member index key id = .field entry) : entry.isTab = false := by
  unfold member at h
  split at h
  next => cases h
  next =>
    split at h
    next => cases h
    next =>
      split at h
      next => cases h
      next htab =>
        cases h
        simpa using htab

/-- A member of a row is a field where its key is the id of one that is no tab. -/
theorem member_eq_field (hindex : index.Coherent) {key id : String} {entry : IndexEntry} :
    member index key id = .field entry ↔
      index.childEntry? key id = some entry ∧ entry.isTab = false := by
  refine ⟨fun h => ⟨member_field h, member_not_tab h⟩, ?_⟩
  rintro ⟨hentry, htab⟩
  obtain ⟨hid, -⟩ := FlatIndex.childEntry?_iff.mp hentry
  unfold member
  rw [if_neg (hindex.id_ne hid).2, hentry]
  simp [htab]

theorem rowField?_eq_some {key : String} {e : String × Value} {p : IndexEntry × Value} :
    rowField? index key e = some p ↔ member index key e.1 = .field p.1 ∧ e.2 = p.2 := by
  unfold rowField?
  constructor
  · intro h
    split at h
    next entry hentry =>
      cases h
      exact ⟨hentry, rfl⟩
    next => cases h
  · rintro ⟨hmember, hvalue⟩
    rw [hmember, hvalue]

theorem mem_rowFields {key : String} {members : List (String × Value)} {p : IndexEntry × Value}
    (hp : p ∈ rowFields index key members) :
    ∃ id, (id, p.2) ∈ members ∧ member index key id = .field p.1 := by
  obtain ⟨e, hmem, heq⟩ := List.mem_filterMap.mp hp
  obtain ⟨hmember, hvalue⟩ := rowField?_eq_some.mp heq
  exact ⟨e.1, hvalue ▸ hmem, hmember⟩

/-- A field of a variant is in a group and has a valid name. -/
theorem field_named (hindex : index.Coherent) {key id : String} {variant entry : IndexEntry}
    (hvariant : index.lookup key = some variant) (hnode : variant.node = .block)
    (hmember : member index key id = .field entry) :
    (∃ g, entry.group = some g) ∧ isValidName entry.name = true := by
  obtain ⟨hid, hbelow⟩ := FlatIndex.childEntry?_iff.mp (member_field hmember)
  obtain ⟨hgroup, -, hname⟩ := hindex.below_variant hvariant hnode hid hbelow
  exact ⟨hgroup, hname⟩

/-- What a row of a variant records is what its fields record. -/
theorem blockRecords_eq_fields (hindex : index.Coherent) {key : String} {variant : IndexEntry}
    {members : List (String × Value)} (hvariant : index.lookup key = some variant)
    (hnode : variant.node = .block) :
    blockRecords index resolver key none members =
      (rowFields index key members).flatMap fun p =>
        records index resolver p.1.group p.1.name p.1 p.2 := by
  refine blockRecords_eq none fun p hp => ?_
  obtain ⟨id, -, hmember⟩ := mem_rowFields hp
  obtain ⟨⟨g, hg⟩, -⟩ := field_named hindex hvariant hnode hmember
  rw [hg]
  exact Option.some_ne_none g

theorem agrees_rowField (hindex : index.Coherent) {variant : IndexEntry}
    {members : List (String × Value)} {p : IndexEntry × Value}
    (hvariant : index.lookup variant.key = some variant) (hnode : variant.node = .block)
    (hkeys : (members.map (·.1)).Nodup) (hp : p ∈ rowFields index variant.key members) :
    Agrees (Dict.ofList (blockRecords index resolver variant.key none members))
      (fieldPath p.1.group p.1.name) (records index resolver p.1.group p.1.name p.1 p.2) := by
  rw [blockRecords_eq_fields hindex hvariant hnode]
  intro path hpath
  rw [Dict.get?_ofList]
  refine last?_flatMap (fun q _ r hr => (records_under q.2 hr).1) ?_ hp hpath
  -- Fields with the same group and name would have the same id.
  refine List.Pairwise.filterMap _ ?_ (List.pairwise_map.mp hkeys)
  intro e e' hne b hb b' hb' path hunder hunder'
  obtain ⟨hmember, -⟩ := rowField?_eq_some.mp hb
  obtain ⟨hmember', -⟩ := rowField?_eq_some.mp hb'
  obtain ⟨⟨g, hg⟩, hname⟩ := field_named hindex hvariant hnode hmember
  obtain ⟨⟨g', hg'⟩, hname'⟩ := field_named hindex hvariant hnode hmember'
  refine hne (hindex.id_eq (member_field hmember) (member_field hmember') ?_)
  rw [hg] at hunder ⊢
  rw [hg'] at hunder' ⊢
  obtain ⟨rfl, hnames⟩ := Under.field_eq (dot_not_mem hname) (dot_not_mem hname') hunder hunder'
  rw [hnames]

end Parts

end Rehydrate

end PageBlocks
