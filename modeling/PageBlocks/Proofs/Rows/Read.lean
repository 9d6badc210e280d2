import PageBlocks.Proofs.Rows.Clear

/-!
# What is read from clear rows

In what a clear row is read as, every member of the row has a place of its own,
and nothing else has one: a field of the variant under its name in its group,
any other member under its own key. An object of sub-fields is read into one
with as many members.

> `row_held`, `mem_readFields`: what is in a block and in an object that were
> read.
-/

namespace PageBlocks

namespace Rehydrate

variable {index : FlatIndex} {resolver : Resolver} {m : BlockMeta} {variant : IndexEntry}
  {members : List (String × Value)}

/-! ## Rows of a variant -/

theorem plain_mem_placements {key : String} {v : Value} :
    .plain key v ∈ members.filterMap (placement? index resolver m) ↔
      (key, v) ∈ members ∧ member index m.key key = .foreign := by
  rw [List.mem_filterMap]
  constructor
  · rintro ⟨⟨id, raw⟩, he, hp⟩
    unfold placement? at hp
    cases hm : member index m.key id with
    | foreign =>
      simp only [hm] at hp
      obtain ⟨rfl, rfl⟩ := Placement.plain.inj (Option.some.inj hp)
      exact ⟨he, hm⟩
    | field entry =>
      simp only [hm] at hp
      obtain ⟨g, -, hg⟩ := Option.map_eq_some_iff.mp hp
      cases hg
    | _ => simp only [hm] at hp; cases hp
  · rintro ⟨he, hm⟩
    refine ⟨(key, v), he, ?_⟩
    unfold placement?
    simp only [hm]

theorem grouped_mem_placements {group : FieldGroup} {name : String} {v : Value} :
    .grouped group name v ∈ members.filterMap (placement? index resolver m) ↔
      ∃ id raw entry, (id, raw) ∈ members ∧ member index m.key id = .field entry ∧
        entry.group = some group ∧ entry.name = name ∧
        value index resolver m entry.name entry raw = v := by
  rw [List.mem_filterMap]
  constructor
  · rintro ⟨⟨id, raw⟩, he, hp⟩
    unfold placement? at hp
    cases hm : member index m.key id with
    | field entry =>
      simp only [hm] at hp
      obtain ⟨g, hg, hplaced⟩ := Option.map_eq_some_iff.mp hp
      obtain ⟨rfl, hname, hvalue⟩ := Placement.grouped.inj hplaced
      exact ⟨id, raw, entry, he, hm, hg, hname, hvalue⟩
    | _ => simp only [hm] at hp; cases hp
  · rintro ⟨id, raw, entry, he, hm, hgroup, rfl, rfl⟩
    refine ⟨(id, raw), he, ?_⟩
    unfold placement?
    simp only [hm, hgroup, Option.map_some]

/-- A block holds what is read from the members of its row. -/
theorem row_held (resolver : Resolver) (hindex : index.Coherent)
    (hvariant : index.lookup m.key = some variant) (hnode : variant.node = .block)
    (hsorted : Entries.Sorted members)
    (hforeign : ∀ e ∈ members, member index m.key e.1 = .foreign →
      FieldGroup.ofName? e.1 = none) :
    Held (members.filterMap (placement? index resolver m))
      ((placements index resolver m none members).foldl Placement.put []) := by
  rw [placements_eq hindex hvariant hnode]
  refine held_foldl_put (fun p hp => ?_) (placements_nodup hindex hsorted.nodup_keys)
  cases p with
  | plain key v =>
    obtain ⟨he, hm⟩ := plain_mem_placements.mp hp
    exact hforeign (key, v) he hm
  | grouped => trivial

/-! ## Objects of sub-fields -/

/-- An object of sub-fields holds each member under the name that it is read with. -/
theorem mem_readFields (hindex : index.Coherent) {trail : String} {parent : IndexEntry}
    {kind : FieldKind} (hparent : index.lookup parent.key = some parent)
    (hnode : parent.node = .field kind) (hkind : kind.hasSubFields = true)
    (hsorted : Entries.Sorted members) (hclear : Clear.fields index parent members)
    {e : String × Value} :
    e ∈ Entries.ofList (fields index resolver m trail parent members) ↔
      ∃ e' ∈ members, readField index resolver m trail parent e' = e := by
  have hfree : ∀ e ∈ members, index.childKey parent.key parent.group e.1 = none :=
    fun e he => (Clear.of_mem_fields hclear he).1
  rw [fields_eq_map, (Entries.ofList_perm (readField_nodup hindex hparent hnode hkind hsorted
    hfree)).mem_iff, List.mem_map]

end Rehydrate

end PageBlocks
