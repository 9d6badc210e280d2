import PageBlocks.Proofs.Entries
import PageBlocks.Schema.Emission

/-!
# What an index holds

An index is filled one entry at a time, and every entry goes into several
dictionaries at once. `index.Holds entries` says what all of them contain, in
terms of the entries that were registered, in order: of several entries with
one slot under one parent the last one counts, as it does among layouts.

> `insert?_holds`: registering one entry keeps this;
> `absorb_holds`: so does taking up a list of emissions that never collides.
-/

namespace PageBlocks

/-- The entry that an emission registers. -/
def Emission.entry? : Emission → Option IndexEntry
  | .notice _ => none
  | .entry e => some e

/-! ## Slots -/

/-- No name of a group goes on with a slash, so a slot tells its group. -/
theorem FieldGroup.name_slash_inj {g g' : FieldGroup} {s t : String}
    (h : g.name ++ "/" ++ s = g'.name ++ "/" ++ t) : g = g' ∧ s = t := by
  have hchars := congrArg String.toList h
  rw [String.toList_append, String.toList_append, String.toList_append, String.toList_append]
    at hchars
  cases g <;> cases g' <;>
    simp [FieldGroup.name] at hchars ⊢ <;> exact String.toList_inj.mp hchars

namespace FlatIndex

/-- The slots and ids of the entries directly under a parent. -/
def childPairs (parent : String) (entries : List IndexEntry) : List (String × String) :=
  (entries.filter fun e => e.parent == some parent).map fun e => (slot e.group e.name, e.key)

/-- The name and the id of an entry that is the collection of a layout. -/
def layoutPair? (e : IndexEntry) : Option (String × String) :=
  match e.node, e.layout with
  | .layout, some layout => some (layout, e.key)
  | _, _ => none

/-- The name and the id of an entry that is a control. -/
def controlPair? (e : IndexEntry) : Option (String × String) :=
  (controlName? e).map fun control => (control, e.key)

/-- What is in an index after some entries were registered. -/
structure Holds (index : FlatIndex) (entries : List IndexEntry) : Prop where
  nodup : (entries.map IndexEntry.key).Nodup
  lookup : ∀ id, index.lookup id = Entries.get? id (entries.map fun e => (e.key, e))
  children : ∀ parent s, (index.children.get? parent).bind (fun slots => slots.get? s) =
    Entries.last? s (childPairs parent entries)
  layouts : ∀ name, index.layouts.get? name =
    Entries.last? name (entries.filterMap layoutPair?)
  controls : ∀ name, index.controls.get? name =
    Entries.last? name (entries.filterMap controlPair?)

theorem holds_empty : Holds empty [] where
  nodup := List.nodup_nil
  lookup := fun _ => rfl
  children := fun _ _ => rfl
  layouts := fun _ => rfl
  controls := fun _ => rfl

theorem addChild_get? (children : Dict (Dict String)) (e : IndexEntry) (parent s : String) :
    ((addChild children e).get? parent).bind (fun slots => slots.get? s) =
      if e.parent = some parent ∧ slot e.group e.name = s then some e.key
      else (children.get? parent).bind fun slots => slots.get? s := by
  unfold addChild
  cases e.parent with
  | none => simp
  | some p =>
    dsimp only
    rw [Dict.get?_insert]
    by_cases hp : p = parent
    · subst hp
      rw [if_pos rfl, Option.bind_some, Dict.get?_insert]
      by_cases hs : slot e.group e.name = s
      · rw [if_pos hs, if_pos ⟨rfl, hs⟩]
      · rw [if_neg hs, if_neg fun h => hs h.2]
        cases children.get? p <;> rfl
    · rw [if_neg hp, if_neg fun h => hp (Option.some.inj h.1)]

theorem lookup_eq_none {index : FlatIndex} {e : IndexEntry}
    (h : ¬index.entries.contains e.key = true) : index.lookup e.key = none := by
  simpa [Dict.contains, lookup] using h

theorem last?_singleton {α : Type} (key other : String) (v : α) :
    Entries.last? other [(key, v)] = if key = other then some v else none := rfl

/-- Registering an entry adds it to what the index holds. -/
theorem insert?_holds {index larger : FlatIndex} {entries : List IndexEntry} {e : IndexEntry}
    (h : index.Holds entries) (hinsert : index.insert? e = some larger) :
    larger.Holds (entries ++ [e]) := by
  unfold insert? at hinsert
  split at hinsert
  next => cases hinsert
  next hfree =>
    cases hinsert
    -- The check on insertion is what keeps the ids distinct.
    have hnew : e.key ∉ entries.map IndexEntry.key := by
      have hnone := lookup_eq_none hfree
      rw [h.lookup, Entries.get?_eq_none_iff, List.map_map] at hnone
      exact hnone
    have hnodup : ((entries ++ [e]).map IndexEntry.key).Nodup := by
      rw [List.map_append, List.map_singleton]
      refine List.nodup_append.mpr ⟨h.nodup, by simp, ?_⟩
      intro a ha b hb hab
      exact hnew (List.mem_singleton.mp hb ▸ hab ▸ ha)
    have hpairs : (((entries ++ [e]).map fun e => (e.key, e)).map (·.1)).Nodup := by
      rw [List.map_map]
      exact hnodup
    refine ⟨hnodup, ?_, ?_, ?_, ?_⟩
    · intro id
      rw [← Entries.last?_of_nodup hpairs, List.map_append, Entries.last?_append,
        List.map_singleton, last?_singleton]
      have hold : index.lookup id = Entries.last? id (entries.map fun e => (e.key, e)) := by
        rw [h.lookup, Entries.last?_of_nodup (by rw [List.map_map]; exact h.nodup)]
      show (index.entries.insert e.key e).get? id = _
      rw [Dict.get?_insert, ← hold]
      split
      next => rfl
      next => rfl
    -- A later child takes the slot, so of the children of a parent the last one counts.
    · intro parent s
      show ((addChild index.children e).get? parent).bind _ = _
      rw [addChild_get?, h.children, childPairs, childPairs, List.filter_append, List.map_append,
        Entries.last?_append]
      by_cases hp : e.parent = some parent
      · rw [List.filter_cons_of_pos (by simpa using hp), List.filter_nil, List.map_singleton,
          last?_singleton]
        by_cases hs : slot e.group e.name = s
        · rw [if_pos ⟨hp, hs⟩, if_pos hs]
          rfl
        · rw [if_neg fun hc => hs hc.2, if_neg hs]
          rfl
      · rw [if_neg fun hc => hp hc.1, List.filter_cons_of_neg (by simpa using hp)]
        rfl
    -- Only collections of layouts are filed under the name of a layout.
    · intro name
      have hlayouts := h.layouts name
      rw [List.filterMap_append, Entries.last?_append, ← hlayouts]
      show Dict.get? (match e.node, e.layout with
        | .layout, some layout => index.layouts.insert layout e.key
        | _, _ => index.layouts) name = _
      split
      next layout hnode hlayout =>
        have hpair : [e].filterMap layoutPair? = [(layout, e.key)] := by
          simp [layoutPair?, hnode, hlayout]
        rw [hpair, last?_singleton, Dict.get?_insert]
        split
        next => rfl
        next => rfl
      next hother =>
        have hpair : [e].filterMap layoutPair? = [] := by
          rw [List.filterMap_cons, List.filterMap_nil]
          have hnone : layoutPair? e = none := by
            unfold layoutPair?
            split
            next layout hnode hlayout => exact absurd hlayout (hother layout hnode)
            next => rfl
          rw [hnone]
        rw [hpair]
        rfl
    -- Only what the builder itself declares is filed as a control.
    · intro name
      have hcontrols := h.controls name
      rw [List.filterMap_append, Entries.last?_append, ← hcontrols, List.filterMap_cons,
        List.filterMap_nil, controlPair?]
      dsimp only
      cases controlName? e with
      | none => rfl
      | some control =>
        dsimp only [Option.map_some]
        rw [last?_singleton, Dict.get?_insert]
        split
        next => rfl
        next => rfl

/-- Taking up emissions adds the entries among them, unless an id is taken. -/
theorem absorb_holds {emissions : List Emission} :
    ∀ {index : FlatIndex} {entries : List IndexEntry}, index.Holds entries →
      (index.absorb emissions).collision = none →
      (index.absorb emissions).index.Holds (entries ++ emissions.filterMap Emission.entry?) := by
  induction emissions with
  | nil =>
    intro index entries h _
    rw [List.filterMap_nil, List.append_nil]
    exact h
  | cons emission rest ih =>
    intro index entries h hfree
    cases emission with
    | notice n => exact ih h hfree
    | entry e =>
      rw [absorb] at hfree ⊢
      cases hinsert : index.insert? e with
      | none =>
        rw [hinsert] at hfree
        cases hfree
      | some larger =>
        rw [hinsert] at hfree
        have hrest := ih (insert?_holds h hinsert) hfree
        rw [List.append_assoc] at hrest
        exact hrest

/-! ## Reading an index -/

namespace Holds

variable {index : FlatIndex} {entries : List IndexEntry}

theorem lookup_iff (h : index.Holds entries) {id : String} {e : IndexEntry} :
    index.lookup id = some e ↔ e ∈ entries ∧ e.key = id := by
  rw [h.lookup]
  constructor
  · intro hget
    obtain ⟨e', he', heq⟩ := List.mem_map.mp (Entries.mem_of_get? hget)
    cases heq
    exact ⟨he', rfl⟩
  · rintro ⟨he, rfl⟩
    refine Entries.get?_of_mem_of_nodup ?_ (List.mem_map.mpr ⟨e, he, rfl⟩)
    rw [List.map_map]
    exact h.nodup

/-- An id that is found under a parent belongs to an entry with that parent and slot. -/
theorem childKey_mem (h : index.Holds entries) {parent name id : String}
    {group : Option FieldGroup} (hchild : index.childKey parent group name = some id) :
    ∃ e ∈ entries, e.parent = some parent ∧ slot e.group e.name = slot group name ∧
      e.key = id := by
  unfold childKey at hchild
  rw [h.children] at hchild
  obtain ⟨e, he, heq⟩ := List.mem_map.mp (Entries.mem_of_last? hchild)
  obtain ⟨hmem, hparent⟩ := List.mem_filter.mp he
  exact ⟨e, hmem, by simpa using hparent, congrArg Prod.fst heq, congrArg Prod.snd heq⟩

/-- Under its parent and in its slot every entry, or another one of that slot, is found. -/
theorem childKey_isSome (h : index.Holds entries) {e : IndexEntry} {parent : String}
    (he : e ∈ entries) (hparent : e.parent = some parent) :
    ∃ id, index.childKey parent e.group e.name = some id := by
  unfold childKey
  rw [h.children]
  refine Option.isSome_iff_exists.mp (Option.isSome_iff_ne_none.mpr fun hnone => ?_)
  have hchild : e ∈ entries.filter fun e => e.parent == some parent :=
    List.mem_filter.mpr ⟨he, by simpa using hparent⟩
  refine Entries.last?_eq_none_iff.mp hnone
    (List.mem_map.mpr ⟨(slot e.group e.name, e.key), ?_, rfl⟩)
  exact List.mem_map.mpr ⟨e, hchild, rfl⟩

end Holds

end FlatIndex

end PageBlocks
