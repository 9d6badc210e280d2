import PageBlocks.Proofs.Entries
import PageBlocks.Proofs.Rows.Paths
import PageBlocks.Rows.Flatten

/-!
# Putting values in their places

A block is put together one placement at a time and written back member by
member. As long as no two placements share a slot, and nothing that stands
beside the groups is named like one, a block is written back as what its
placements are written back as, up to order.

> `foldl_put_written`: writing back the placed values, with an envelope beside
> them, is writing back every placement.
-/

namespace PageBlocks

theorem FieldGroup.ofName?_name (g : FieldGroup) : FieldGroup.ofName? g.name = some g := by
  cases g <;> decide

theorem FieldGroup.name_of_ofName? {name : String} {g : FieldGroup}
    (h : FieldGroup.ofName? name = some g) : name = g.name :=
  (beq_iff_eq.mp (List.find?_some (p := fun g : FieldGroup => g.name == name) h)).symm

theorem FieldGroup.name_ne_metaKey (g : FieldGroup) : g.name ≠ metaKey := by
  cases g <;> decide

namespace Flatten

variable {index : FlatIndex} {m : BlockMeta}

theorem blockMembers_cons (e : String × Value) (rest : List (String × Value)) :
    blockMembers index m (e :: rest) = blockMembers index m [e] ++ blockMembers index m rest := by
  obtain ⟨name, v⟩ := e
  cases v <;> simp only [blockMembers, List.append_nil]

theorem blockMembers_eq_flatMap :
    ∀ members : List (String × Value),
      blockMembers index m members = members.flatMap fun e => blockMembers index m [e]
  | [] => by rw [blockMembers]; rfl
  | e :: rest => by
    rw [blockMembers_cons, blockMembers_eq_flatMap rest, List.flatMap_cons]

theorem blockMembers_perm {members members' : List (String × Value)}
    (h : members.Perm members') :
    (blockMembers index m members).Perm (blockMembers index m members') := by
  rw [blockMembers_eq_flatMap, blockMembers_eq_flatMap members']
  exact h.flatMap_right _

theorem groupMembers_cons (group : FieldGroup) (e : String × Value)
    (rest : List (String × Value)) :
    groupMembers index m group (e :: rest) =
      groupMembers index m group [e] ++ groupMembers index m group rest := by
  obtain ⟨name, v⟩ := e
  simp only [groupMembers, List.append_nil]

theorem groupMembers_eq_flatMap (group : FieldGroup) :
    ∀ members : List (String × Value),
      groupMembers index m group members =
        members.flatMap fun e => groupMembers index m group [e]
  | [] => by rw [groupMembers]; rfl
  | e :: rest => by
    rw [groupMembers_cons, groupMembers_eq_flatMap group rest, List.flatMap_cons]

theorem groupMembers_perm {group : FieldGroup} {members members' : List (String × Value)}
    (h : members.Perm members') :
    (groupMembers index m group members).Perm (groupMembers index m group members') := by
  rw [groupMembers_eq_flatMap, groupMembers_eq_flatMap group members']
  exact h.flatMap_right _

/-- A group of a block is written back field by field. -/
theorem blockMembers_group (group : FieldGroup) (fields : List (String × Value)) :
    blockMembers index m [(group.name, .object fields)] = groupMembers index m group fields := by
  rw [blockMembers, blockMembers, List.append_nil, if_neg group.name_ne_metaKey,
    FieldGroup.ofName?_name]

/-- The envelope is not written back. -/
theorem blockMembers_meta (v : Value) : blockMembers index m [(metaKey, v)] = [] := by
  cases v <;> simp only [blockMembers, if_pos, List.append_nil]

end Flatten

namespace Rehydrate

namespace Placement

/-- Where a placement puts its value. -/
def slot : Placement → Option FieldGroup × String
  | .plain key _ => (none, key)
  | .grouped group name _ => (some group, name)

/-- What stands beside the groups is not named like one. -/
def Apart : Placement → Prop
  | .plain key _ => FieldGroup.ofName? key = none
  | .grouped .. => True

/-- What the value of a placement is written back as. -/
def written (index : FlatIndex) (m : BlockMeta) : Placement → List (String × Value)
  | .plain key v => Flatten.blockMembers index m [(key, v)]
  | .grouped group name v => Flatten.groupMembers index m group [(name, v)]

end Placement

/-- Data in which all placements are in their places, and nothing else is. -/
structure Held (placements : List Placement) (data : List (String × Value)) : Prop where
  sorted : Entries.Sorted data
  plain : ∀ {key : String} {v : Value}, FieldGroup.ofName? key = none →
    ((key, v) ∈ data ↔ .plain key v ∈ placements)
  grouped : ∀ {group : FieldGroup} {w : Value}, (group.name, w) ∈ data →
    ∃ fields, w = .object fields ∧ fields ≠ [] ∧ Entries.Sorted fields ∧
      ∀ name v, (name, v) ∈ fields ↔ .grouped group name v ∈ placements
  opened : ∀ {group : FieldGroup} {name : String} {v : Value},
    .grouped group name v ∈ placements → group.name ∈ data.map (·.1)

theorem held_nil : Held [] [] where
  sorted := Entries.sorted_nil
  plain := fun _ => by simp
  grouped := fun h => absurd h List.not_mem_nil
  opened := fun h => absurd h List.not_mem_nil

/-- What holds the same placements is the same. -/
theorem Held.unique {placements : List Placement} {data data' : List (String × Value)}
    (h : Held placements data) (h' : Held placements data') : data = data' := by
  have hinto : ∀ {data data' : List (String × Value)}, Held placements data →
      Held placements data' → ∀ e ∈ data, e ∈ data' := by
    intro data data' h h' e he
    obtain ⟨key, w⟩ := e
    cases hgroup : FieldGroup.ofName? key with
    | none => exact (h'.plain hgroup).mpr ((h.plain hgroup).mp he)
    | some g =>
      obtain rfl := FieldGroup.name_of_ofName? hgroup
      obtain ⟨fields, rfl, hne, hsorted, hfields⟩ := h.grouped he
      -- The group has a field, so it is open in the other data too, with the same fields.
      obtain ⟨⟨name, v⟩, hfirst⟩ := List.exists_mem_of_ne_nil fields hne
      obtain ⟨⟨key, w⟩, hopen, rfl⟩ := List.mem_map.mp (h'.opened ((hfields name v).mp hfirst))
      obtain ⟨fields', rfl, -, hsorted', hfields'⟩ := h'.grouped hopen
      have hsame : fields = fields' :=
        hsorted.ext hsorted' fun e => (hfields e.1 e.2).trans (hfields' e.1 e.2).symm
      rw [hsame]
      exact hopen
  exact h.sorted.ext h'.sorted fun e => ⟨hinto h h' e, hinto h' h e⟩

section Put

variable {data : List (String × Value)} {placements : List Placement}

/-- What is in a group goes on to be there, and a further field with it. -/
theorem Held.fields_of_group (h : Held placements data) (group : FieldGroup) (name : String)
    (v : Value) :
    ∃ fields, Entries.Sorted fields ∧
      (∀ n w, (n, w) ∈ fields ↔ .grouped group n w ∈ placements) ∧
      (Placement.grouped group name v).put data =
        Entries.insert group.name (.object (Entries.insert name v fields)) data ∧
      (fields = [] ∧ group.name ∉ data.map (·.1) ∨ (group.name, .object fields) ∈ data) := by
  rw [Placement.put]
  cases hget : Entries.get? group.name data with
  | none =>
    have hnew : group.name ∉ data.map (·.1) := Entries.get?_eq_none_iff.mp hget
    refine ⟨[], Entries.sorted_nil, fun n w => ?_, rfl, .inl ⟨rfl, hnew⟩⟩
    exact ⟨fun hmem => absurd hmem List.not_mem_nil, fun hmem => absurd (h.opened hmem) hnew⟩
  | some w =>
    have hmem := Entries.mem_of_get? hget
    obtain ⟨fields, rfl, -, hsorted, hfields⟩ := h.grouped hmem
    exact ⟨fields, hsorted, hfields, rfl, .inr hmem⟩

theorem key_ne_name {key : String} (h : FieldGroup.ofName? key = none) (group : FieldGroup) :
    group.name ≠ key := by
  intro heq
  rw [← heq, FieldGroup.ofName?_name] at h
  cases h

theorem put_plain_held {key : String} {v : Value} (h : Held placements data)
    (hapart : FieldGroup.ofName? key = none) (hslot : (none, key) ∉ placements.map Placement.slot) :
    Held (placements ++ [.plain key v]) (Entries.insert key v data) := by
  refine ⟨Entries.sorted_insert key v h.sorted, fun {k w} hk => ?_, fun {group w} hmem => ?_,
    fun {group name w} hmem => ?_⟩
  · rw [Entries.mem_insert_iff h.sorted, h.plain hk, List.mem_append, List.mem_singleton,
      Placement.plain.injEq, Prod.mk.injEq]
    constructor
    · rintro (heq | ⟨-, hmem⟩)
      · exact .inr heq
      · exact .inl hmem
    · rintro (hmem | heq)
      · refine .inr ⟨fun hsame => hslot ?_, hmem⟩
        exact List.mem_map.mpr ⟨_, hmem, by rw [← show k = key from hsame]; rfl⟩
      · exact .inl heq
  · rcases (Entries.mem_insert_iff h.sorted).mp hmem with heq | ⟨-, hmem⟩
    · exact absurd (Prod.mk.inj heq).1 (key_ne_name hapart group)
    · obtain ⟨fields, hfields, hne, hsorted, hiff⟩ := h.grouped hmem
      exact ⟨fields, hfields, hne, hsorted, fun name u => by simp [hiff]⟩
  · have hold : Placement.grouped group name w ∈ placements := by simpa using hmem
    obtain ⟨e, he, hkey⟩ := List.mem_map.mp (h.opened hold)
    refine List.mem_map.mpr ⟨e, (Entries.mem_insert_iff h.sorted).mpr (.inr ⟨?_, he⟩), hkey⟩
    rw [hkey]
    exact key_ne_name hapart group

theorem put_grouped_held {group : FieldGroup} {name : String} {v : Value}
    (h : Held placements data) (hslot : (some group, name) ∉ placements.map Placement.slot) :
    Held (placements ++ [.grouped group name v]) ((Placement.grouped group name v).put data) := by
  obtain ⟨fields, hsorted, hfields, hput, -⟩ := h.fields_of_group group name v
  rw [hput]
  have hnew : ∀ {w : Value}, .grouped group name w ∉ placements := fun hmem =>
    hslot (List.mem_map_of_mem (f := Placement.slot) hmem)
  refine ⟨Entries.sorted_insert _ _ h.sorted, fun {k w} hk => ?_, fun {other w} hmem => ?_,
    fun {other n w} hmem => ?_⟩
  · have hne := key_ne_name hk group
    rw [Entries.mem_insert_iff h.sorted, h.plain hk]
    simp [Ne.symm hne]
  · rcases (Entries.mem_insert_iff h.sorted).mp hmem with heq | ⟨hne, hmem⟩
    · obtain ⟨hname, rfl⟩ := Prod.mk.inj heq
      obtain rfl := FieldGroup.name_injective hname
      refine ⟨_, rfl, ?_, Entries.sorted_insert name v hsorted, fun n u => ?_⟩
      · intro hempty
        have hmem := (Entries.mem_insert_iff (v := v) hsorted).mpr (.inl (rfl : (name, v) = _))
        rw [hempty] at hmem
        exact absurd hmem List.not_mem_nil
      · rw [Entries.mem_insert_iff hsorted, hfields, List.mem_append, List.mem_singleton,
          Placement.grouped.injEq, Prod.mk.injEq]
        constructor
        · rintro (⟨rfl, rfl⟩ | ⟨-, hmem⟩)
          · exact .inr ⟨rfl, rfl, rfl⟩
          · exact .inl hmem
        · rintro (hold | ⟨-, rfl, rfl⟩)
          · refine .inr ⟨fun hsame => ?_, hold⟩
            rw [show n = name from hsame] at hold
            exact hnew hold
          · exact .inl ⟨rfl, rfl⟩
    · obtain ⟨others, hothers, hfilled, hsorted', hiff⟩ := h.grouped hmem
      refine ⟨others, hothers, hfilled, hsorted', fun n u => ?_⟩
      have hgroup : other ≠ group := fun heq => hne (by rw [heq])
      simp [hiff, hgroup]
  · -- A group that was opened stays open.
    by_cases hgroup : other = group
    · refine List.mem_map.mpr ⟨_, (Entries.mem_insert_iff h.sorted).mpr (.inl rfl), ?_⟩
      rw [hgroup]
    · have hold : Placement.grouped other n w ∈ placements := by simpa [hgroup] using hmem
      obtain ⟨e, he, hkey⟩ := List.mem_map.mp (h.opened hold)
      refine List.mem_map.mpr ⟨e, (Entries.mem_insert_iff h.sorted).mpr (.inr ⟨?_, he⟩), hkey⟩
      rw [hkey]
      exact fun heq => hgroup (FieldGroup.name_injective heq)

/-- A value put into a slot of its own is held with those that were. -/
theorem put_held {p : Placement} (h : Held placements data) (hapart : p.Apart)
    (hslot : p.slot ∉ placements.map Placement.slot) :
    Held (placements ++ [p]) (p.put data) := by
  cases p with
  | plain key v => exact put_plain_held h hapart hslot
  | grouped group name v => exact put_grouped_held h hslot

/-- A value put into a slot of its own adds what it is written back as. -/
theorem put_written {index : FlatIndex} {m : BlockMeta} {p : Placement}
    (h : Held placements data) (hapart : p.Apart)
    (hslot : p.slot ∉ placements.map Placement.slot) :
    (Flatten.blockMembers index m (p.put data)).Perm
      (Flatten.blockMembers index m data ++ p.written index m) := by
  cases p with
  | plain key v =>
    have hnew : key ∉ data.map (·.1) := by
      intro hmem
      obtain ⟨⟨key, w⟩, he, rfl⟩ := List.mem_map.mp hmem
      exact hslot (List.mem_map.mpr ⟨.plain key w, (h.plain hapart).mp he, rfl⟩)
    refine (Flatten.blockMembers_perm (Entries.insert_perm hnew)).trans ?_
    rw [Flatten.blockMembers_cons]
    exact List.perm_append_comm
  | grouped group name v =>
    obtain ⟨fields, hsorted, hfields, hput, hcase⟩ := h.fields_of_group group name v
    have hfresh : name ∉ fields.map (·.1) := by
      intro hmem
      obtain ⟨⟨name, w⟩, he, rfl⟩ := List.mem_map.mp hmem
      exact hslot (List.mem_map.mpr ⟨.grouped group name w, (hfields name w).mp he, rfl⟩)
    have hinner : (Entries.insert name v fields).Perm ((name, v) :: fields) :=
      Entries.insert_perm hfresh
    rw [hput]
    rcases hcase with ⟨rfl, hnew⟩ | hmem
    · refine (Flatten.blockMembers_perm (Entries.insert_perm hnew)).trans ?_
      rw [Flatten.blockMembers_cons, Flatten.blockMembers_group]
      exact List.perm_append_comm
    · obtain ⟨rest, hbefore, hafter⟩ := Entries.insert_perm_of_mem
        (v := .object (Entries.insert name v fields)) h.sorted hmem
      have hdata : (Flatten.blockMembers index m _).Perm (Flatten.blockMembers index m _) :=
        Flatten.blockMembers_perm hbefore
      rw [Flatten.blockMembers_cons, Flatten.blockMembers_group] at hdata
      refine (Flatten.blockMembers_perm hafter).trans ?_
      rw [Flatten.blockMembers_cons, Flatten.blockMembers_group]
      refine ((Flatten.groupMembers_perm hinner).append_right _).trans ?_
      rw [Flatten.groupMembers_cons, List.append_assoc]
      exact List.perm_append_comm.trans (hdata.symm.append_right _)

end Put

/-- Placements with slots of their own are held together, and each adds what it is written back
as. -/
theorem foldl_put_held :
    ∀ {todo done : List Placement} {data : List (String × Value)}, Held done data →
      (∀ p ∈ todo, p.Apart) → ((done ++ todo).map Placement.slot).Nodup →
      Held (done ++ todo) (todo.foldl Placement.put data) ∧
        ∀ index m, (Flatten.blockMembers index m (todo.foldl Placement.put data)).Perm
          (Flatten.blockMembers index m data ++ todo.flatMap (Placement.written index m))
  | [], done, data, h, _, _ => by
    rw [List.append_nil]
    refine ⟨h, fun index m => ?_⟩
    rw [List.flatMap_nil, List.append_nil]
    exact List.Perm.refl _
  | p :: todo, done, data, h, hapart, hslots => by
    have hnew : p.slot ∉ done.map Placement.slot := fun hmem => by
      rw [List.map_append, List.nodup_append] at hslots
      exact hslots.2.2 _ hmem _ (List.mem_cons_self ..) rfl
    have hp := hapart p (List.mem_cons_self ..)
    rw [List.append_cons] at hslots ⊢
    obtain ⟨hheld, hwritten⟩ := foldl_put_held (put_held h hp hnew)
      (fun q hq => hapart q (List.mem_cons_of_mem _ hq)) hslots
    refine ⟨hheld, fun index m => (hwritten index m).trans ?_⟩
    rw [List.flatMap_cons, ← List.append_assoc]
    exact (put_written h hp hnew).append_right _

theorem held_foldl_put {placements : List Placement} (hapart : ∀ p ∈ placements, p.Apart)
    (hslots : (placements.map Placement.slot).Nodup) :
    Held placements (placements.foldl Placement.put []) := by
  have hheld := (foldl_put_held held_nil hapart hslots).1
  rwa [List.nil_append] at hheld

/-- Placements with slots of their own are written back one by one, and the envelope beside them
is not. -/
theorem foldl_put_written {index : FlatIndex} {m : BlockMeta} {placements : List Placement}
    {v : Value} (hapart : ∀ p ∈ placements, p.Apart)
    (hslots : (placements.map Placement.slot).Nodup)
    (hmeta : (none, metaKey) ∉ placements.map Placement.slot) :
    (Flatten.blockMembers index m
        (Entries.insert metaKey v (placements.foldl Placement.put []))).Perm
      (placements.flatMap (Placement.written index m)) := by
  have hheld : Held placements (placements.foldl Placement.put []) := held_foldl_put hapart hslots
  have hwritten := (foldl_put_held held_nil hapart hslots).2 index m
  rw [Flatten.blockMembers, List.nil_append] at hwritten
  have hnew : metaKey ∉ (placements.foldl Placement.put []).map (·.1) := by
    intro hmem
    obtain ⟨⟨key, w⟩, he, rfl⟩ := List.mem_map.mp hmem
    exact hmeta (List.mem_map.mpr ⟨.plain _ w, (hheld.plain (by decide)).mp he, rfl⟩)
  refine (Flatten.blockMembers_perm (Entries.insert_perm hnew)).trans ?_
  rw [Flatten.blockMembers_cons, Flatten.blockMembers_meta]
  exact hwritten

end Rehydrate

end PageBlocks
