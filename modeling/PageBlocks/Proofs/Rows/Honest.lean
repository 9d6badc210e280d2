import PageBlocks.Proofs.Rows.Read

/-!
# Honest records

Stored forms are recorded by the path of a leaf, and paths tell positions of
rows. So once rows have moved, what is found for a leaf may have been recorded
for another one. But a path leads to leaves of one kind only
(`LeafBelow.kind_eq`), and what was recorded for a leaf reads as the value that
it was recorded with.

> `blockRecords_honest`: whatever is found in an envelope for a leaf of a block
> reads as the value beside it, for the kind of this leaf.

References are kept as they are here; nothing expands them.
-/

namespace PageBlocks

namespace Rehydrate

variable {index : FlatIndex} {group : Option FieldGroup}

/-! ## Paths to leaves -/

/-- A field at a trail, the kind of a leaf below it, and the trail of the leaf. -/
inductive LeafBelow (index : FlatIndex) : IndexEntry → String → FieldKind → String → Prop where
  | here {entry : IndexEntry} {trail : String} {kind : FieldKind}
      (h : entry.node.shape = .leaf kind) : LeafBelow index entry trail kind trail
  | row {entry sub : IndexEntry} {trail id t : String} {kind : FieldKind} (position : Nat)
      (h : entry.node = .field .repeater) (hsub : index.childEntry? entry.key id = some sub)
      (hbelow : LeafBelow index sub (subTrail (rowTrail trail position) sub.name) kind t) :
      LeafBelow index entry trail kind t
  | part {entry sub : IndexEntry} {trail id t : String} {kind : FieldKind}
      (h : entry.node = .field .group) (hsub : index.childEntry? entry.key id = some sub)
      (hbelow : LeafBelow index sub (subTrail trail sub.name) kind t) :
      LeafBelow index entry trail kind t

theorem LeafBelow.under {entry : IndexEntry} {trail t : String} {kind : FieldKind}
    (h : LeafBelow index entry trail kind t) : Under trail t := by
  induction h with
  | here _ => exact Under.refl _
  | row position _ _ _ ih => exact Under.of_append (Under.of_append ih)
  | part _ _ _ ih => exact Under.of_append ih

/-- Sub-fields below which there is a common trail are the same. -/
theorem subField_eq (hindex : index.Coherent) {entry sub sub' : IndexEntry} {kind : FieldKind}
    {trail id id' t : String} (hentry : index.lookup entry.key = some entry)
    (hnode : entry.node = .field kind) (hkind : kind.hasSubFields = true)
    (hsub : index.childEntry? entry.key id = some sub)
    (hsub' : index.childEntry? entry.key id' = some sub')
    (hunder : Under (subTrail trail sub.name) t) (hunder' : Under (subTrail trail sub'.name) t) :
    sub = sub' := by
  obtain ⟨hid, hbelow⟩ := FlatIndex.childEntry?_iff.mp hsub
  obtain ⟨hid', hbelow'⟩ := FlatIndex.childEntry?_iff.mp hsub'
  obtain ⟨hgroup, -, hname⟩ := hindex.below_row hentry hnode hkind hid hbelow
  obtain ⟨hgroup', -, hname'⟩ := hindex.below_row hentry hnode hkind hid' hbelow'
  have hsame : sub.name = sub'.name := Under.name_eq (trail ++ ".") (dot_not_mem hname)
    (dot_not_mem hname') hunder hunder'
  obtain rfl := hindex.id_eq hsub hsub' (by rw [hgroup, hgroup', hsame])
  exact Option.some.inj (hsub.symm.trans hsub')

/-- A trail below a field leads to leaves of one kind. -/
theorem LeafBelow.kind_eq (hindex : index.Coherent) {entry : IndexEntry} {trail t : String}
    {kind kind' : FieldKind} (hentry : index.lookup entry.key = some entry)
    (h : LeafBelow index entry trail kind t) (h' : LeafBelow index entry trail kind' t) :
    kind = kind' := by
  induction h with
  | here hshape =>
    cases h' with
    | here hshape' => exact Shape.leaf.inj (hshape.symm.trans hshape')
    | row _ hnode => rw [hnode] at hshape; cases hshape
    | part hnode => rw [hnode] at hshape; cases hshape
  | row position hnode hsub hbelow ih =>
    cases h' with
    | here hshape => rw [hnode] at hshape; cases hshape
    | row position' _ hsub' hbelow' =>
      -- The trail tells the position first and then the name.
      have hposition : toString position = toString position' := Under.name_eq _
        (dot_not_mem_toString _) (dot_not_mem_toString _) (Under.of_append hbelow.under)
        (Under.of_append hbelow'.under)
      obtain rfl := toString_injective hposition
      obtain rfl := subField_eq hindex hentry hnode rfl hsub hsub' hbelow.under hbelow'.under
      exact ih (hindex.lookup_key (FlatIndex.childEntry?_iff.mp hsub).1) hbelow'
    | part hnode' => rw [hnode] at hnode'; cases hnode'
  | part hnode hsub hbelow ih =>
    cases h' with
    | here hshape => rw [hnode] at hshape; cases hshape
    | row _ hnode' => rw [hnode] at hnode'; cases hnode'
    | part _ hsub' hbelow' =>
      obtain rfl := subField_eq hindex hentry hnode rfl hsub hsub' hbelow.under hbelow'.under
      exact ih (hindex.lookup_key (FlatIndex.childEntry?_iff.mp hsub).1) hbelow'

/-! ## Honest records -/

/-- Every stored form that is found for a leaf below a field is one of the value beside it. -/
def Honest (index : FlatIndex) (stored : Dict StoredValue) (group : Option FieldGroup)
    (entry : IndexEntry) (trail : String) : Prop :=
  ∀ kind t s, LeafBelow index entry trail kind t → stored.get? (fieldPath group t) = some s →
    normalise .none kind s.raw = s.value

theorem mem_of_rowObjects :
    ∀ {items : List Value} {position : Nat} {p : Nat × List (String × Value)},
      p ∈ rowObjects position items → .object p.2 ∈ items
  | [], _, _, h => absurd h List.not_mem_nil
  | v :: rest, position, p, h => by
    cases v
    case object members =>
      rcases List.mem_cons.mp h with rfl | h
      · exact List.mem_cons_self ..
      · exact List.mem_cons_of_mem _ (mem_of_rowObjects h)
    all_goals exact List.mem_cons_of_mem _ (@mem_of_rowObjects rest _ _ h)

theorem leafRecords_leaf {trail : String} {kind : FieldKind} {raw : Value}
    {r : String × StoredValue} (h : r ∈ leafRecords index .none group trail kind raw) :
    r = (fieldPath group trail, ⟨raw, normalise .none kind raw⟩) := by
  unfold leafRecords at h
  dsimp only at h
  split at h
  next => exact absurd h List.not_mem_nil
  next => exact List.mem_singleton.mp h

/-- What is recorded below a field is recorded for its leaves. -/
theorem records_leaf (v : Value) :
    ∀ {trail : String} {entry : IndexEntry} {r : String × StoredValue},
      r ∈ records index .none group trail entry v →
        ∃ kind t raw, LeafBelow index entry trail kind t ∧
          r = (fieldPath group t, ⟨raw, normalise .none kind raw⟩) := by
  induction v using Value.below_induction with
  | h v ih =>
    intro trail entry r hr
    have hfields : ∀ {members : List (String × Value)} {trail : String},
        (∀ e ∈ members, sizeOf e.2 < sizeOf v) →
        r ∈ fieldRecords index .none group trail entry members →
          ∃ id sub, index.childEntry? entry.key id = some sub ∧
            ∃ kind t raw, LeafBelow index sub (subTrail trail sub.name) kind t ∧
              r = (fieldPath group t, ⟨raw, normalise .none kind raw⟩) := by
      intro members trail hsmaller hmem
      rw [fieldRecords_eq] at hmem
      obtain ⟨p, hp, hmem⟩ := List.mem_flatMap.mp hmem
      obtain ⟨e, he, hpair⟩ := List.mem_filterMap.mp hp
      obtain ⟨sub, hsub, rfl⟩ := Option.map_eq_some_iff.mp hpair
      exact ⟨e.1, sub, hsub, ih e.2 (hsmaller e he) hmem⟩
    cases hshape : entry.node.shape with
    | leaf kind =>
      rw [records_of_leaf hshape] at hr
      exact ⟨kind, trail, v, .here hshape, leafRecords_leaf hr⟩
    | rows =>
      cases v with
      | array items =>
        rw [records, hshape] at hr
        dsimp only at hr
        rw [rowRecords_eq] at hr
        obtain ⟨p, hp, hmem⟩ := List.mem_flatMap.mp hr
        have hitem := Value.sizeOf_item (mem_of_rowObjects hp)
        obtain ⟨id, sub, hsub, kind, t, raw, hleaf, heq⟩ := hfields
          (fun e he => Nat.lt_trans (Value.sizeOf_member he) hitem) hmem
        exact ⟨kind, t, raw, .row p.1 (NodeType.shape_rows hshape) hsub hleaf, heq⟩
      | _ => simp [records, hshape] at hr
    | fields =>
      cases v with
      | object members =>
        rw [records, hshape] at hr
        obtain ⟨id, sub, hsub, kind, t, raw, hleaf, heq⟩ :=
          hfields (fun e he => Value.sizeOf_member he) hr
        exact ⟨kind, t, raw, .part (NodeType.shape_fields hshape) hsub hleaf, heq⟩
      | _ => simp [records, hshape] at hr
    | _ => cases v <;> simp [records, hshape] at hr

/-- What was recorded for a row is honest for every field of its variant. -/
theorem blockRecords_honest (hindex : index.Coherent) {key name : String}
    {variant entry : IndexEntry} {g : FieldGroup} {members : List (String × Value)}
    (hvariant : index.lookup key = some variant) (hnode : variant.node = .block)
    (hentry : index.child? key (some g) name = some entry) :
    Honest index (.ofList (blockRecords index .none key none members)) (some g) entry name := by
  intro kind t s hleaf hfound
  rw [Dict.get?_ofList, blockRecords_eq_fields hindex hvariant hnode] at hfound
  obtain ⟨p, hp, hr⟩ := List.mem_flatMap.mp (Entries.mem_of_last? hfound)
  obtain ⟨id, -, hmember⟩ := mem_rowFields hp
  obtain ⟨⟨g', hg'⟩, hname'⟩ := field_named hindex hvariant hnode hmember
  obtain ⟨kind', t', raw, hleaf', heq⟩ := records_leaf p.2 hr
  obtain ⟨hpath, rfl⟩ := Prod.mk.inj heq
  obtain ⟨hchild, hgroup, hname⟩ := hindex.child?_variant hvariant hnode hentry
  obtain ⟨hid, hbelow⟩ := FlatIndex.childEntry?_iff.mp hchild
  obtain ⟨-, -, hvalid⟩ := hindex.below_variant hvariant hnode hid hbelow
  rw [hname] at hvalid
  rw [hg'] at hpath
  -- The path tells the group and the name of the field, and then the trail to the leaf.
  have hunder : Under (fieldPath (some g) name) (fieldPath (some g) t) := hleaf.under.of_trail
  have hunder' : Under (fieldPath (some g') p.1.name) (fieldPath (some g) t) := by
    rw [hpath]
    exact hleaf'.under.of_trail
  obtain ⟨rfl, hnames⟩ := Under.field_eq (dot_not_mem hvalid) (dot_not_mem hname') hunder hunder'
  have htrail : t = t' := (String.append_right_inj _).mp hpath
  have hsame : entry = p.1 := by
    have hid' : id = entry.key := hindex.id_eq (member_field hmember) hchild
      (by rw [hg', hgroup, hname, hnames])
    have hmember' := member_field hmember
    rw [hid', hchild] at hmember'
    exact Option.some.inj hmember'
  rw [← htrail, ← hnames, ← hsame] at hleaf'
  obtain rfl := hleaf.kind_eq hindex (hindex.lookup_key hid) hleaf'
  rfl

/-! ## Normal values -/

theorem numberOf_string {s t : String} (h : numberOf s = .string t) : t = s := by
  unfold numberOf at h
  dsimp only at h
  split at h
  next => cases h
  next =>
    split at h
    next => cases h
    next =>
      split at h
      next => cases h
      next =>
        cases h
        rfl

/-- A normal value stays as it is. -/
theorem normalise_normalise (kind : FieldKind) (v : Value) :
    normalise .none kind (normalise .none kind v) = normalise .none kind v := by
  have hkept : ∀ w, expandWith Resolver.none.attachment w = w := by
    intro w
    unfold expandWith
    split <;> rfl
  have hkept' : ∀ w, expandWith Resolver.none.contentItem w = w := by
    intro w
    unfold expandWith
    split <;> rfl
  have hnumber : ∀ {kind : FieldKind}, kind = .number ∨ kind = .range → ∀ s,
      normalise .none kind (numberOf s) = numberOf s := by
    intro kind hkind s
    cases hn : numberOf s with
    | string t =>
      obtain rfl := numberOf_string hn
      rcases hkind with rfl | rfl <;> exact hn
    | _ => rcases hkind with rfl | rfl <;> rfl
  have hsame : ∀ {kind : FieldKind} {v : Value}, normalise .none kind v = v →
      normalise .none kind (normalise .none kind v) = normalise .none kind v := by
    intro kind v h
    rw [h, h]
  cases kind with
  | trueFalse => rfl
  | number =>
    cases v with
    | string s => exact hnumber (.inl rfl) s
    | _ => rfl
  | range =>
    cases v with
    | string s => exact hnumber (.inr rfl) s
    | _ => rfl
  | image | file => exact hsame (hkept _)
  | gallery =>
    cases v with
    | array items => simp [normalise, funext hkept]
    | _ => rfl
  | postObject | pageLink | relationship =>
    cases v with
    | array items => simp [normalise, funext hkept']
    | _ => exact hsame (hkept' _)
  | _ => rfl

end Rehydrate

end PageBlocks
