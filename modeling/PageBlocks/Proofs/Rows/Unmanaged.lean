import PageBlocks.Proofs.Rows.Reread
import PageBlocks.Proofs.Tree.Visibility

/-!
# What stands beside the fields of a row

A row of a variant may hold keys that are no fields of it. The block that is read
from it keeps them beside its groups, in one object with the groups and the
envelope, so what a key is worth depends on what else is put under it. Placing
values is followed here one key at a time: only the placements of a key matter
for what is found under it.

> `unmanaged_kept`: the groups of a block hold the fields of its row and nothing
> else, other keys stand in the block as they stood in the row, and are written
> back so.

Three kinds of keys are not kept. A tab has no value of its own and is left
out, the envelope takes the place of any `_meta`, and an object under the name
of a group, or anything under the slot of a field, cannot be told from the group
or the field. Such an object becomes the group: as the names of groups sort
before all ids, the fields of the row are put into it, and none is lost.
-/

namespace PageBlocks

open Attempt

namespace Rehydrate

/-! ## One key at a time -/

/-- The key of the data that a placement changes. -/
def Placement.target : Placement → String
  | .plain key _ => key
  | .grouped group _ _ => group.name

theorem get?_put_of_ne {key : String} {p : Placement} (h : p.target ≠ key)
    (data : List (String × Value)) : Entries.get? key (p.put data) = Entries.get? key data := by
  cases p with
  | plain other v => exact Entries.get?_insert_of_ne v (Ne.symm h) data
  | grouped group name v =>
    rw [Placement.put]
    split
    next => exact Entries.get?_insert_of_ne _ (Ne.symm h) data
    next => exact Entries.get?_insert_of_ne _ (Ne.symm h) data
    next => rfl

/-- A key that nothing is placed under holds what it held. -/
theorem get?_foldl_put_of_ne {key : String} {placements : List Placement}
    (h : ∀ p ∈ placements, p.target ≠ key) (data : List (String × Value)) :
    Entries.get? key (placements.foldl Placement.put data) = Entries.get? key data := by
  induction placements generalizing data with
  | nil => rfl
  | cons p rest ih =>
    rw [List.foldl_cons, ih fun q hq => h q (List.mem_cons_of_mem _ hq)]
    exact get?_put_of_ne (h p (List.mem_cons_self ..)) data

/-! ## Groups -/

/-- The value of a field in a group of a block. -/
def groupField? (data : List (String × Value)) (group : FieldGroup) (name : String) :
    Option Value :=
  ((Entries.get? group.name data).bind Value.members?).bind (Entries.get? name)

/-- Under the name of a group there is an object, if there is anything. -/
def Open (group : FieldGroup) (data : List (String × Value)) : Prop :=
  ∀ w, Entries.get? group.name data = some w → ∃ fields, w = .object fields

theorem open_nil (group : FieldGroup) : Open group [] := fun w hw => by cases hw

/-- The name and the value that a placement puts into a group. -/
def Placement.inGroup? (group : FieldGroup) : Placement → Option (String × Value)
  | .plain .. => none
  | .grouped other name v => if other = group then some (name, v) else none

theorem Placement.inGroup?_eq_some {group : FieldGroup} {p : Placement} {name : String}
    {v : Value} : p.inGroup? group = some (name, v) ↔ p = .grouped group name v := by
  cases p with
  | plain => exact ⟨fun h => (by cases h), fun h => (by cases h)⟩
  | grouped other n w =>
    unfold inGroup?
    simp only [Option.ite_none_right_eq_some, Option.some.injEq, Prod.mk.injEq,
      Placement.grouped.injEq]

section Group

variable {placements : List Placement} {group : FieldGroup} {data : List (String × Value)}

/-- A value that is placed in an open group is put into what the group holds. -/
theorem Open.get?_put (hopen : Open group data) (name : String) (v : Value) :
    ∃ fields, (∀ other, groupField? data group other = Entries.get? other fields) ∧
      Entries.get? group.name ((Placement.grouped group name v).put data) =
        some (.object (Entries.insert name v fields)) := by
  unfold groupField?
  rw [Placement.put]
  cases hget : Entries.get? group.name data with
  | none => exact ⟨[], fun _ => rfl, Entries.get?_insert_self ..⟩
  | some w =>
    obtain ⟨fields, rfl⟩ := hopen w hget
    exact ⟨fields, fun _ => rfl, Entries.get?_insert_self ..⟩

/-- A placement puts into an open group what it has for it, and leaves it open. -/
theorem Open.put (hopen : Open group data) {p : Placement}
    (hfree : ∀ v, p ≠ .plain group.name v) :
    Open group (p.put data) ∧ ∀ name, groupField? (p.put data) group name =
      ((p.inGroup? group).bind fun e => if e.1 = name then some e.2 else none).or
        (groupField? data group name) := by
  by_cases htarget : p.target = group.name
  · cases p with
    | plain key v => exact absurd (congrArg (Placement.plain · v) htarget) (hfree v)
    | grouped other n v =>
      obtain rfl : other = group := FieldGroup.name_injective htarget
      obtain ⟨fields, hbefore, hput⟩ := hopen.get?_put n v
      refine ⟨fun w hw => ⟨_, Option.some.inj (hw.symm.trans hput)⟩, fun name => ?_⟩
      have hin : (Placement.grouped other n v).inGroup? other = some (n, v) := if_pos rfl
      rw [hbefore, hin, groupField?, hput]
      show Entries.get? name (Entries.insert n v fields) = (if n = name then some v else none).or _
      rw [Entries.get?_insert]
      split
      next => rfl
      next => rfl
  · have hin : p.inGroup? group = none := by
      cases p with
      | plain => rfl
      | grouped other n v => exact if_neg fun h => htarget (congrArg FieldGroup.name h)
    unfold Open groupField?
    rw [get?_put_of_ne htarget, hin]
    exact ⟨hopen, fun _ => rfl⟩

/-- A group that is open before placements has after them what they put into it, and beside that
what it had under other names. -/
theorem Open.foldl_put (hopen : Open group data)
    (hfree : ∀ v, .plain group.name v ∉ placements) :
    Open group (placements.foldl Placement.put data) ∧ ∀ name,
      groupField? (placements.foldl Placement.put data) group name =
        (Entries.last? name (placements.filterMap (Placement.inGroup? group))).or
          (groupField? data group name) := by
  induction placements generalizing data with
  | nil => exact ⟨hopen, fun _ => rfl⟩
  | cons p rest ih =>
    obtain ⟨hfirst, hput⟩ := hopen.put fun v h => hfree v (h ▸ List.mem_cons_self ..)
    obtain ⟨hrest, hfold⟩ := ih hfirst fun v h => hfree v (List.mem_cons_of_mem _ h)
    refine ⟨hrest, fun name => ?_⟩
    rw [List.foldl_cons, hfold, hput, List.filterMap_cons]
    cases p.inGroup? group with
    | none => rfl
    | some e =>
      show _ = (Entries.last? name (e :: _)).or _
      rw [Entries.last?, Option.or_assoc]
      rfl

/-- The last value that is put under a name of a group is the only one. -/
theorem last?_inGroup (hslots : (placements.map Placement.slot).Nodup) {name : String} {v : Value} :
    Entries.last? name (placements.filterMap (Placement.inGroup? group)) = some v ↔
      .grouped group name v ∈ placements := by
  have hplaced : ∀ {w : Value}, (name, w) ∈ placements.filterMap (Placement.inGroup? group) ↔
      .grouped group name w ∈ placements := by
    simp [List.mem_filterMap, Placement.inGroup?_eq_some]
  refine ⟨fun h => hplaced.mp (Entries.mem_of_last? h), fun h => ?_⟩
  refine Entries.last?_eq_some (hplaced.mpr h) fun w hw => ?_
  exact (Placement.grouped.inj (List.inj_on_of_nodup_map hslots (hplaced.mp hw) h rfl)).2.2

/-- A group beside which nothing of its name is placed holds the values that are placed in it, and
no others. -/
theorem groupField?_eq_some (hslots : (placements.map Placement.slot).Nodup)
    (hfree : ∀ v, .plain group.name v ∉ placements) {name : String} {v : Value} :
    groupField? (placements.foldl Placement.put []) group name = some v ↔
      .grouped group name v ∈ placements := by
  rw [((open_nil group).foldl_put hfree).2, ← last?_inGroup hslots]
  exact iff_of_eq (congrArg (· = some v) (Option.or_none ..))

/-- An object that is placed under the name of a group, before any value is placed in it, becomes
the group: beside those values it has what it had under other names. -/
theorem groupField?_shared {before after : List Placement} {own : List (String × Value)}
    (hslots : ((before ++ .plain group.name (.object own) :: after).map Placement.slot).Nodup)
    (hbefore : ∀ name v, .grouped group name v ∉ before) :
    let placements := before ++ .plain group.name (.object own) :: after
    let data := placements.foldl Placement.put []
    Open group data ∧ ∀ name v, groupField? data group name = some v ↔
      .grouped group name v ∈ placements ∨
        (∀ w, .grouped group name w ∉ placements) ∧ Entries.get? name own = some v := by
  intro placements data
  have hplaced : ∀ {name v},
      .grouped group name v ∈ placements ↔ .grouped group name v ∈ after := by
    intro name v
    simp [placements, hbefore]
  rw [List.map_append, List.map_cons, List.nodup_append, List.nodup_cons] at hslots
  have hfree : ∀ v, .plain group.name v ∉ after := fun v h =>
    hslots.2.1.1 (List.mem_map.mpr ⟨_, h, rfl⟩)
  let start := Entries.insert group.name (.object own) (before.foldl Placement.put [])
  have hstart : Entries.get? group.name start = some (.object own) := Entries.get?_insert_self ..
  have hopen : Open group start := fun w hw => ⟨own, Option.some.inj (hw.symm.trans hstart)⟩
  obtain ⟨hdata, hfold⟩ := hopen.foldl_put hfree
  have heq : data = after.foldl Placement.put start := by
    simp only [data, placements, List.foldl_append, List.foldl_cons]
    rfl
  rw [heq]
  refine ⟨hdata, fun name v => ?_⟩
  have hown : groupField? start group name = Entries.get? name own := by
    unfold groupField?
    rw [hstart]
    rfl
  simp only [hplaced, ← last?_inGroup hslots.2.1.2]
  rw [hfold, hown]
  cases Entries.last? name (after.filterMap (Placement.inGroup? group)) <;> simp

end Group

/-! ## Beside the groups -/

/-- What cannot be taken for a group: another name, or no object. -/
def NoGroup (key : String) (v : Value) : Prop :=
  FieldGroup.ofName? key = none ∨ ∀ fields, v ≠ .object fields

/-- What is no group stays under its key, whatever is placed elsewhere. -/
theorem get?_put_noGroup {key : String} {v : Value} {p : Placement} (hv : NoGroup key v)
    (hslot : p.slot ≠ (none, key)) {data : List (String × Value)}
    (h : Entries.get? key data = some v) : Entries.get? key (p.put data) = some v := by
  by_cases htarget : p.target = key
  · cases p with
    | plain other w => exact absurd (congrArg (Prod.mk none) htarget) hslot
    | grouped group name w =>
      obtain rfl : group.name = key := htarget
      -- The name of a group is taken by something other than an object, which cannot be put into.
      have hobject : ∀ fields, v ≠ .object fields :=
        hv.resolve_left fun hnone => by
          rw [FieldGroup.ofName?_name] at hnone
          cases hnone
      rw [Placement.put, h]
      split
      next hnone => cases hnone
      next fields hfields => exact absurd (Option.some.inj hfields) (hobject fields)
      next => exact h
  · rw [get?_put_of_ne htarget]
    exact h

theorem get?_foldl_put_noGroup {key : String} {v : Value} (hv : NoGroup key v) :
    ∀ {placements : List Placement} {data : List (String × Value)},
      (∀ p ∈ placements, p.slot ≠ (none, key)) → Entries.get? key data = some v →
      Entries.get? key (placements.foldl Placement.put data) = some v
  | [], _, _, h => h
  | p :: rest, _, hslots, h => by
    rw [List.foldl_cons]
    exact get?_foldl_put_noGroup hv (fun q hq => hslots q (List.mem_cons_of_mem _ hq))
      (get?_put_noGroup hv (hslots p (List.mem_cons_self ..)) h)

/-- What is placed beside the groups and is no group is found there. -/
theorem get?_of_plain_mem {key : String} {v : Value} {placements : List Placement}
    (hslots : (placements.map Placement.slot).Nodup) (hv : NoGroup key v)
    (hmem : .plain key v ∈ placements) :
    Entries.get? key (placements.foldl Placement.put []) = some v := by
  obtain ⟨before, after, rfl⟩ := List.append_of_mem hmem
  rw [List.foldl_append, List.foldl_cons]
  refine get?_foldl_put_noGroup hv (fun p hp hslot => ?_) (Entries.get?_insert_self ..)
  rw [List.map_append, List.map_cons, List.nodup_append, List.nodup_cons] at hslots
  exact hslots.2.1.1 (List.mem_map.mpr ⟨p, hp, hslot⟩)

/-! ## Rows of a variant -/

section Row

variable {index : FlatIndex} {resolver : Resolver} {m : BlockMeta} {variant : IndexEntry}
  {row : List (String × Value)}

theorem member_eq_foreign {key id : String} (htag : id ≠ variantTag)
    (hnone : index.childEntry? key id = none) : member index key id = .foreign := by
  unfold member
  rw [if_neg htag, hnone]

/-- Under a key that names no group there is at most a member of the row that is no field. -/
theorem target_ne {key : String} {p : Placement} (hname : ∀ group : FieldGroup, key ≠ group.name)
    (hmember : member index m.key key ≠ .foreign)
    (hp : p ∈ row.filterMap (placement? index resolver m)) : p.target ≠ key := by
  cases p with
  | plain other v =>
    rintro rfl
    exact hmember (plain_mem_placements.mp hp).2
  | grouped group name v => exact (hname group).symm

/-! ## Reading -/

/-- A field of the row has a value, rehydrated, under a name in a group. -/
def FieldRead (index : FlatIndex) (resolver : Resolver) (m : BlockMeta)
    (row : List (String × Value)) (group : FieldGroup) (name : String) (v : Value) : Prop :=
  ∃ id raw entry, (id, raw) ∈ row ∧ index.childEntry? m.key id = some entry ∧
    entry.isTab = false ∧ entry.group = some group ∧ entry.name = name ∧
    value index resolver m entry.name entry raw = v

/-- The fields of a row are what is placed in the groups. -/
theorem grouped_mem_iff (hindex : index.Coherent) {group : FieldGroup} {name : String} {v : Value} :
    .grouped group name v ∈ row.filterMap (placement? index resolver m) ↔
      FieldRead index resolver m row group name v := by
  rw [grouped_mem_placements]
  simp only [FieldRead, member_eq_field hindex, and_assoc]

/-- The data of a block hold what a row of its variant gives: in the groups the fields and nothing
else, but for what the row itself holds under the name of a group; beside the groups whatever is no
field, and the envelope. -/
structure Keeps (index : FlatIndex) (resolver : Resolver) (m : BlockMeta)
    (row data : List (String × Value)) : Prop where
  /-- A group whose name the row does not use itself is an object of its fields. -/
  group : ∀ group : FieldGroup, Entries.get? group.name row = none →
    Open group data ∧
      ∀ name v, groupField? data group name = some v ↔ FieldRead index resolver m row group name v
  /-- A group under whose name the row has an object has its fields, and what the object has under
  names that no field takes. -/
  shared : ∀ (group : FieldGroup) own, Entries.get? group.name row = some (.object own) →
    Open group data ∧ ∀ name v, groupField? data group name = some v ↔
      FieldRead index resolver m row group name v ∨
        (∀ w, ¬FieldRead index resolver m row group name w) ∧ Entries.get? name own = some v
  /-- What is no field stands under its own key. -/
  beside : ∀ key v, (key, v) ∈ row → key ≠ variantTag → key ≠ metaKey →
    index.childEntry? m.key key = none → NoGroup key v → Entries.get? key data = some v
  /-- A tab leaves nothing. -/
  tab : ∀ id entry, index.childEntry? m.key id = some entry → entry.isTab = true →
    Entries.get? id data = none

/-- The name of a group is not taken for a field. -/
theorem member_groupName (hindex : index.Coherent) (group : FieldGroup) :
    member index m.key group.name = .foreign := by
  refine member_eq_foreign (by cases group <;> decide) ?_
  cases hentry : index.childEntry? m.key group.name with
  | none => rfl
  | some entry =>
    exact absurd rfl (hindex.id_ne_name (FlatIndex.childEntry?_iff.mp hentry).1 group)

/-- Ahead of the name of a group a row has no field. -/
theorem grouped_not_mem_before (hindex : index.Coherent)
    (hvariant : index.lookup m.key = some variant) (hnode : variant.node = .block)
    {before after : List (String × Value)} {group : FieldGroup} {own : Value}
    (hsorted : Entries.Sorted (before ++ (group.name, own) :: after)) (name : String) (v : Value) :
    .grouped group name v ∉ before.filterMap (placement? index resolver m) := by
  intro hmem
  obtain ⟨id, raw, entry, he, hentry, -⟩ := (grouped_mem_iff hindex).mp hmem
  obtain ⟨hid, hparent⟩ := FlatIndex.childEntry?_iff.mp hentry
  obtain ⟨-, ⟨kind, hkind⟩, -⟩ := hindex.below_variant hvariant hnode hid hparent
  have hlt : id < group.name :=
    (List.pairwise_append.mp hsorted).2.2 _ he _ (List.mem_cons_self ..)
  exact String.lt_irrefl _ (String.lt_trans hlt (hindex.name_lt_id hid hkind group))

/-- What is read from a row of a variant holds what the row gives. -/
theorem keeps_of_row (hindex : index.Coherent) (hvariant : index.lookup m.key = some variant)
    (hnode : variant.node = .block) (hsorted : Entries.Sorted row) (envelope : Value) :
    Keeps index resolver m row (Entries.insert metaKey envelope
      ((placements index resolver m none row).foldl Placement.put [])) := by
  rw [placements_eq hindex hvariant hnode]
  have hslots : ((row.filterMap (placement? index resolver m)).map Placement.slot).Nodup :=
    placements_nodup hindex hsorted.nodup_keys
  have hgroup : ∀ group : FieldGroup, ∀ data : List (String × Value),
      Entries.get? group.name (Entries.insert metaKey envelope data) =
        Entries.get? group.name data :=
    fun group data => Entries.get?_insert_of_ne _ group.name_ne_metaKey data
  refine ⟨fun group hunused => ?_, fun group own hown => ?_,
    fun key v he htag hmeta hentry hv => ?_, fun id entry hentry htab => ?_⟩
  · have hfree : ∀ v, .plain group.name v ∉ row.filterMap (placement? index resolver m) := by
      intro v hmem
      obtain ⟨he, -⟩ := plain_mem_placements.mp hmem
      exact Entries.get?_eq_none_iff.mp hunused (List.mem_map_of_mem he)
    unfold Open groupField?
    rw [hgroup]
    refine ⟨((open_nil group).foldl_put hfree).1, fun name v => ?_⟩
    exact (groupField?_eq_some hslots hfree).trans (grouped_mem_iff hindex)
  · -- The object comes ahead of all fields, which are put into it.
    obtain ⟨before, after, rfl⟩ := List.append_of_mem (Entries.mem_of_get? hown)
    have hplaced : (before ++ (group.name, .object own) :: after).filterMap
          (placement? index resolver m) =
        before.filterMap (placement? index resolver m) ++
          .plain group.name (.object own) :: after.filterMap (placement? index resolver m) := by
      have hplain : placement? index resolver m (group.name, .object own) =
          some (.plain group.name (.object own)) := by
        unfold placement?
        rw [member_groupName hindex group]
      rw [List.filterMap_append, List.filterMap_cons, hplain]
    have hshared := groupField?_shared (hplaced ▸ hslots)
      (grouped_not_mem_before hindex hvariant hnode hsorted)
    rw [← hplaced] at hshared
    simp only [grouped_mem_iff hindex] at hshared
    unfold Open groupField?
    rw [hgroup]
    exact hshared
  · rw [Entries.get?_insert_of_ne _ hmeta]
    exact get?_of_plain_mem hslots hv
      (plain_mem_placements.mpr ⟨he, member_eq_foreign htag hentry⟩)
  · have hid : index.lookup id = some entry := (FlatIndex.childEntry?_iff.mp hentry).1
    rw [Entries.get?_insert_of_ne _ (hindex.id_ne_metaKey hid)]
    refine get?_foldl_put_of_ne (fun p hp => target_ne (hindex.id_ne_name hid) ?_ hp) []
    unfold member
    rw [if_neg (hindex.id_ne hid).2, hentry]
    simp [htab]

/-! ## Writing back -/

theorem sorted_foldl_put :
    ∀ {placements : List Placement} {data : List (String × Value)}, Entries.Sorted data →
      Entries.Sorted (placements.foldl Placement.put data)
  | [], _, h => h
  | p :: rest, data, h => by
    have hfirst : Entries.Sorted (p.put data) := by
      cases p with
      | plain key v => exact Entries.sorted_insert key v h
      | grouped group name v =>
        rw [Placement.put]
        split
        next => exact Entries.sorted_insert _ _ h
        next => exact Entries.sorted_insert _ _ h
        next => exact h
    rw [List.foldl_cons]
    exact sorted_foldl_put hfirst

theorem noGroup_or_group (name : String) (v : Value) :
    NoGroup name v ∨ ∃ (group : FieldGroup) (inner : List (String × Value)),
      name = group.name ∧ v = .object inner := by
  cases hgroup : FieldGroup.ofName? name with
  | none => exact .inl (.inl hgroup)
  | some group =>
    cases v with
    | object inner => exact .inr ⟨group, inner, FieldGroup.name_of_ofName? hgroup, rfl⟩
    | _ => exact .inl (.inr fun _ heq => Value.noConfusion heq)

/-- What stands beside the groups in the slot of a child is written back under the id of the
child. -/
theorem blockMembers_child {name : String} {v : Value} {entry : IndexEntry} (hmeta : name ≠ metaKey)
    (hv : NoGroup name v) (hchild : index.child? m.key none name = some entry) :
    Flatten.blockMembers index m [(name, v)] =
      [(entry.key, Flatten.value index m.stored none name entry v)] := by
  cases v <;>
    rw [Flatten.blockMembers, Flatten.blockMembers, List.append_nil, if_neg hmeta, hchild]
  case object members => rw [hv.resolve_right fun hno => hno members rfl]
  all_goals
    intro inner heq
    cases heq

/-- A member is written back as it is, or under the id of a child of the variant. -/
theorem of_mem_blockMember {e x : String × Value} (hx : x ∈ Flatten.blockMembers index m [e]) :
    x = e ∨ ∃ group name entry, index.child? m.key group name = some entry ∧ x.1 = entry.key := by
  obtain ⟨name, v⟩ := e
  by_cases hmeta : name = metaKey
  · rw [hmeta, Flatten.blockMembers_meta] at hx
    exact absurd hx List.not_mem_nil
  rcases noGroup_or_group name v with hv | ⟨group, inner, rfl, rfl⟩
  · cases hchild : index.child? m.key none name with
    | none =>
      have hwritten : Flatten.blockMembers index m [(name, v)] = [(name, v)] :=
        written_plain hmeta hv hchild
      exact .inl (List.mem_singleton.mp (hwritten ▸ hx))
    | some entry =>
      rw [blockMembers_child hmeta hv hchild, List.mem_singleton] at hx
      exact .inr ⟨none, name, entry, hchild, hx ▸ rfl⟩
  · rw [Flatten.blockMembers_group, mem_groupMembers] at hx
    obtain ⟨f, -, entry, hchild, rfl⟩ := hx
    exact .inr ⟨some group, f.1, entry, hchild, rfl⟩

/-- A key that is not the slot of a field, spelled out, is no slot below a variant. -/
theorem child?_of_no_slot (hindex : index.Coherent) {key name : String}
    (hvariant : index.lookup key = some variant) (hnode : variant.node = .block)
    (hslot : ∀ (group : FieldGroup) field, name = group.name ++ "/" ++ field →
      index.child? key (some group) field = none) : index.child? key none name = none := by
  cases hchild : index.child? key none name with
  | none => rfl
  | some e =>
    obtain ⟨hentry, hname⟩ := hindex.childEntry?_of_child? hchild
    obtain ⟨hid, hparent⟩ := FlatIndex.childEntry?_iff.mp hentry
    obtain ⟨⟨group, hgroup⟩, -, -⟩ := hindex.below_variant hvariant hnode hid hparent
    have hfound := hindex.child?_eq hentry
    rw [hgroup] at hname hfound
    rw [hslot group e.name hname.symm] at hfound
    cases hfound

/-- What stands beside the groups of a block under a key of its own is written back. -/
theorem get?_written (hindex : index.Coherent) {data : List (String × Value)} {tag key : String}
    {v : Value} (hsorted : Entries.Sorted data) (hget : Entries.get? key data = some v)
    (htag : key ≠ variantTag) (hmeta : key ≠ metaKey)
    (hentry : index.childEntry? m.key key = none) (hv : NoGroup key v)
    (hchild : index.child? m.key none key = none) :
    Entries.get? key (Entries.ofList
      ((variantTag, .string tag) :: Flatten.blockMembers index m data)) = some v := by
  have hmem : (key, v) ∈ Flatten.blockMembers index m data := by
    rw [Flatten.blockMembers_eq_flatMap]
    refine List.mem_flatMap.mpr ⟨(key, v), Entries.mem_of_get? hget, ?_⟩
    have hwritten : Flatten.blockMembers index m [(key, v)] = [(key, v)] :=
      written_plain hmeta hv hchild
    rw [hwritten]
    exact List.mem_singleton.mpr rfl
  rw [Entries.get?_ofList]
  refine Entries.last?_eq_some (List.mem_cons_of_mem _ hmem) fun w hw => ?_
  -- Nothing else is written under the key: neither the tag nor a field has it.
  rcases List.mem_cons.mp hw with heq | hw
  · exact absurd (Prod.mk.inj heq).1 htag
  rw [Flatten.blockMembers_eq_flatMap] at hw
  obtain ⟨e, he, hx⟩ := List.mem_flatMap.mp hw
  rcases of_mem_blockMember hx with rfl | ⟨group, name, entry, hfound, hkey⟩
  · exact Option.some.inj ((hsorted.get?_of_mem he).symm.trans hget)
  · obtain ⟨hsame, -⟩ := hindex.childEntry?_of_child? hfound
    rw [← show key = entry.key from hkey, hentry] at hsame
    cases hsame

end Row

end Rehydrate

/-- What a row of a variant holds besides its fields is kept and disturbs nothing, for every
compiled schema and every row. The groups of the block hold the rehydrated fields and nothing else,
unless the row itself has a key of the name of the group; if it has an object there, the group holds
the fields all the same, and beside them what the object has under other names. Every other key but
the variant tag, the envelope and tabs stands in the block as in the row, and is written back with
its value, unless it spells the slot of a field. -/
theorem unmanaged_kept {definitions : Definitions} {resources : Resources} {registry : Registry}
    {now : Instant} {schema : CompiledSchema} {resolver : Resolver} {m : BlockMeta}
    {variant : IndexEntry} {row : List (String × Value)}
    (hbuilt : Gives (Registry.build definitions resources) registry)
    (hcompiled : Gives (compile registry now) schema) (hresolver : resolver.WellFormed)
    (hvariant : schema.index.lookup m.key = some variant) (hnode : variant.node = .block)
    (hwell : (Value.object row).WellFormed) (hposition : m.index < 18446744073709551616) :
    ∃ data flat, (rehydrateRow schema.index resolver m row).value = .object data ∧
      (flattenBlock schema.index (.object data)).value = .object flat ∧
      Rehydrate.Keeps schema.index resolver m row data ∧
      ∀ key v, (key, v) ∈ row → key ≠ variantTag → key ≠ metaKey →
        schema.index.childEntry? m.key key = none → Rehydrate.NoGroup key v →
        (∀ (group : FieldGroup) name, key = group.name ++ "/" ++ name →
          schema.index.child? m.key (some group) name = none) →
        Entries.get? key flat = some v := by
  have hindex : schema.index.Coherent := (compile_follows hbuilt hcompiled).coherent
  obtain ⟨hsorted, hmembers⟩ := hwell
  let m' : BlockMeta :=
    { m with stored := .ofList (Rehydrate.blockRecords schema.index resolver m.key none row) }
  have hrecords : m'.WellFormed := fun r hr =>
    Rehydrate.blockRecords_wellFormed hresolver hmembers (Entries.mem_ofList hr)
  let data := Entries.insert metaKey m'.toValue
    ((Rehydrate.placements schema.index resolver m none row).foldl Rehydrate.Placement.put [])
  have hdata : Entries.Sorted data :=
    Entries.sorted_insert _ _ (Rehydrate.sorted_foldl_put Entries.sorted_nil)
  have hkeeps : Rehydrate.Keeps schema.index resolver m row data :=
    Rehydrate.keeps_of_row hindex hvariant hnode hsorted m'.toValue
  have hflat : Flatten.block schema.index (.object data) =
      .object (Entries.ofList ((variantTag, .string m'.storedTag) ::
        Flatten.blockMembers schema.index m' data)) := by
    rw [Flatten.block, BlockMeta.ofMembers?_insert hrecords hposition]
  refine ⟨data, _, rfl, hflat, hkeeps, fun key v he htag hmeta hentry hv hslot => ?_⟩
  exact Rehydrate.get?_written (m := m') hindex hdata
    (hkeeps.beside key v he htag hmeta hentry hv) htag hmeta hentry hv
    (Rehydrate.child?_of_no_slot hindex hvariant hnode hslot)

def cardMeta : BlockMeta :=
  { layout := "page", block := "card", key := "block_436a7f68169cfbb5758ce527fbdd6b81"
    index := 0, parent := "page" }

/-- A card with a title, a tone and a note, and with keys that its block has another use for: the
envelope, the slot of the title, and the group and the tab of the tone. -/
def cardRow : List (String × Value) :=
  [("_meta", .string "mine"), ("acf_fc_layout", .string "card"), ("content/title", .string "B"),
    ("customise", .object [("draft", .int 1), ("tone", .string "loud")]),
    ("field_1bcabc228d53facfaebc509984c74893", .string "tab"),
    ("field_483a2b48b064f5f8556ab0d9d687abec", .string "soft"),
    ("field_d7950a369816be1210283725e56e1465", .string "A"), ("note", .int 7)]

/-- Whether the index has a text under an id, as a field of a card. -/
def cardHasText (id : String) (group : FieldGroup) (name : String) : Bool :=
  (cardSchema.index.childEntry? cardMeta.key id).any fun e =>
    e.node == .field .text && e.group == some group && e.name == name

/-- What the index knows of the keys of a card: the card itself, its two texts, and nothing of a
note or of a draft. -/
theorem cards_indexed :
    (cardSchema.index.lookup cardMeta.key).any (fun e => e.node == .block) = true ∧
      cardHasText "field_d7950a369816be1210283725e56e1465" .content "title" = true ∧
      cardHasText "field_483a2b48b064f5f8556ab0d9d687abec" .customise "tone" = true ∧
      cardSchema.index.childEntry? cardMeta.key "note" = none ∧
      ∀ e ∈ cardRow, (cardSchema.index.childEntry? cardMeta.key e.1).all (·.name != "draft") := by
  decide +kernel

/-- A text of the card is read as it is stored. -/
theorem cardText_read {id text name : String} {group : FieldGroup}
    (hrow : (id, .string text) ∈ cardRow) (hindexed : cardHasText id group name = true) :
    Rehydrate.FieldRead cardSchema.index .none cardMeta cardRow group name (.string text) := by
  obtain ⟨entry, hentry, hfield⟩ := (Option.any_eq_true _ _).mp hindexed
  simp only [Bool.and_eq_true, beq_iff_eq] at hfield
  obtain ⟨⟨hkind, hgroup⟩, hname⟩ := hfield
  have hshape : entry.node.shape = .leaf .text := by
    rw [hkind]
    rfl
  have htab : entry.isTab = false := by simp [IndexEntry.isTab, hkind]
  refine ⟨id, .string text, entry, hrow, hentry, htab, hgroup, hname, ?_⟩
  rw [Rehydrate.value_leaf hshape]
  rfl

/-- The title of the card is in its group, and the note is read and written back. The tone is in the
group that the row has an object for, in place of what the object has under that name, and beside
the rest of the object. -/
theorem card_note_kept :
    ∃ data flat, (rehydrateRow cardSchema.index .none cardMeta cardRow).value = .object data ∧
      (flattenBlock cardSchema.index (.object data)).value = .object flat ∧
      Rehydrate.groupField? data .content "title" = some (.string "A") ∧
      Rehydrate.groupField? data .customise "tone" = some (.string "soft") ∧
      Rehydrate.groupField? data .customise "draft" = some (.int 1) ∧
      Entries.get? "note" data = some (.int 7) ∧ Entries.get? "note" flat = some (.int 7) := by
  have hwell : (Value.object cardRow).WellFormed := by decide
  obtain ⟨hcard, htitle, htone, hnote, hdraft⟩ := cards_indexed
  obtain ⟨variant, hvariant, hblock⟩ := (Option.any_eq_true _ _).mp hcard
  rw [beq_iff_eq] at hblock
  obtain ⟨data, flat, hdata, hflat, hkeeps, hback⟩ := unmanaged_kept cards_built cards_compiled
    Resolver.none_wellFormed hvariant hblock hwell (by decide)
  have hbeside : Rehydrate.NoGroup "note" (.int 7) := .inl (by decide)
  have hshared := (hkeeps.shared .customise _ (by rfl)).2
  refine ⟨data, flat, hdata, hflat, ?_, ?_, ?_, ?_, ?_⟩
  · exact ((hkeeps.group .content (by decide)).2 _ _).mpr
      (cardText_read (by simp [cardRow]) htitle)
  · exact (hshared _ _).mpr (.inl (cardText_read (by simp [cardRow]) htone))
  · refine (hshared _ _).mpr (.inr ⟨?_, by rfl⟩)
    rintro w ⟨id, raw, entry, he, hentry, -, -, hname, -⟩
    have hother := hdraft _ he
    rw [hentry, Option.all_some, hname] at hother
    exact absurd hother (by decide)
  · exact hkeeps.beside _ _ (by simp [cardRow]) (by decide) (by decide) hnote hbeside
  · refine hback _ _ (by simp [cardRow]) (by decide) (by decide) hnote hbeside ?_
    intro group name heq
    have hslash : '/' ∈ "note".toList := by
      rw [heq]
      simp
    exact absurd hslash (by decide)

/-- The names that the block has another use for are not kept: nothing is written back under them,
and the tab is not even read. -/
theorem card_names_taken :
    Gives (Registry.build cardDefinitions .empty) cardRegistry ∧
      Gives (compile cardRegistry default) cardSchema ∧
      (cardSchema.index.lookup cardMeta.key).any (fun e => e.node == .block) = true ∧
      (rehydrateRow cardSchema.index .none cardMeta cardRow).value.get?
        "field_1bcabc228d53facfaebc509984c74893" = none ∧
      ∀ key ∈ ["_meta", "content/title", "customise", "field_1bcabc228d53facfaebc509984c74893"],
        key ∈ cardRow.map (·.1) ∧ key ≠ variantTag ∧
          (cardSchema.index.childEntry? cardMeta.key key).all IndexEntry.isTab = true ∧
          (flattenBlock cardSchema.index
            (rehydrateRow cardSchema.index .none cardMeta cardRow).value).value.get? key = none :=
  ⟨cards_built, cards_compiled, by decide +kernel⟩

end PageBlocks
