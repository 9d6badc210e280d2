import PageBlocks.Proofs.Index
import PageBlocks.Proofs.Kept

/-!
# An index as it is filled

Entries are registered one at a time, and some of the calls fail. The four
dictionaries of an index change together or not at all, and what they say at
any time can be read off the calls: the accepted entries are those whose id no
earlier call had, and of the accepted entries that go to one slot, or stand for
one layout, the last one is found.

> `fill_holds`: one more call keeps what an index holds;
>
> `filled_represents`: after any calls, a call fails just when its id was called
> before; what is found is registered, and is the last that was accepted.

A slot is a text in which the name of a group and the name of the entry are
joined by a slash, so it stands for one group and one name only as long as a
name outside the groups has no slash (`slot_inj`).
-/

namespace PageBlocks

/-! ## The last of some pairs -/

/-- Of the pairs that are made from items, the last one with a key is that of the last item that
makes one. -/
theorem Entries.last?_filterMap {α β : Type} {f : α → Option (String × β)} {key : String}
    {p : α → Bool} {v : α → β} :
    ∀ {items : List α}, (∀ x ∈ items, ∀ w, f x = some (key, w) ↔ p x = true ∧ v x = w) →
      Entries.last? key (items.filterMap f) = (items.reverse.find? p).map v := by
  intro items
  induction items using List.reverseRecOn with
  | nil => exact fun _ => rfl
  | append_singleton items last ih =>
    intro h
    have hlast := h last (by simp)
    rw [List.filterMap_append, Entries.last?_append, ih fun x hx => h x (by simp [hx]),
      List.reverse_append, List.reverse_singleton, List.singleton_append]
    by_cases hp : p last = true
    · rw [List.filterMap_cons, (hlast (v last)).mpr ⟨hp, rfl⟩, List.filterMap_nil,
        List.find?_cons_of_pos hp]
      exact congrArg (Option.or · _) (if_pos rfl)
    · rw [List.find?_cons_of_neg hp]
      have hnone : Entries.last? key ([last].filterMap f) = none := by
        refine Entries.last?_eq_none_iff.mpr fun hkey => ?_
        obtain ⟨⟨k, w⟩, hpair, rfl⟩ := List.mem_map.mp hkey
        obtain ⟨x, hx, hfx⟩ := List.mem_filterMap.mp hpair
        rw [List.mem_singleton.mp hx] at hfx
        exact hp ((hlast w).mp hfx).1
      rw [hnone, Option.none_or]

namespace FlatIndex

/-! ## Calls -/

/-- The index after one more call. A call that fails leaves it as it was. -/
def fill (index : FlatIndex) (e : IndexEntry) : FlatIndex := (index.absorb [.entry e]).index

/-- The index after some calls. -/
def filled (calls : List IndexEntry) : FlatIndex := calls.foldl fill .empty

/-- The calls that do not fail. -/
def accepted : List IndexEntry → List IndexEntry :=
  kept fun before e => ((filled before).insert? e).isSome

theorem filled_concat (calls : List IndexEntry) (e : IndexEntry) :
    filled (calls ++ [e]) = (filled calls).fill e := by
  unfold filled
  rw [List.foldl_append]
  rfl

theorem fill_of_none {index : FlatIndex} {e : IndexEntry} (h : index.insert? e = none) :
    index.fill e = index ∧
      (index.absorb [.entry e]).collision = some (.keyCollision e.key e.entity) := by
  unfold fill absorb
  rw [h]
  exact ⟨rfl, rfl⟩

theorem fill_of_some {index larger : FlatIndex} {e : IndexEntry}
    (h : index.insert? e = some larger) :
    index.fill e = larger ∧ (index.absorb [.entry e]).collision = none := by
  unfold fill absorb
  rw [h]
  exact ⟨rfl, rfl⟩

theorem insert?_eq_none_iff {index : FlatIndex} {e : IndexEntry} :
    index.insert? e = none ↔ index.entries.contains e.key = true := by
  unfold insert?
  split
  next h => exact ⟨fun _ => h, fun _ => rfl⟩
  next h => exact ⟨(fun hnone => nomatch hnone), fun hthere => absurd hthere h⟩

theorem fill_holds {index : FlatIndex} {entries : List IndexEntry} (h : index.Holds entries)
    (e : IndexEntry) :
    (index.fill e).Holds (if (index.insert? e).isSome then entries ++ [e] else entries) := by
  cases hinsert : index.insert? e with
  | none =>
    rw [(fill_of_none hinsert).1]
    exact h
  | some larger =>
    rw [(fill_of_some hinsert).1]
    exact insert?_holds h hinsert

/-- An index holds the entries that it accepted. -/
theorem filled_holds (calls : List IndexEntry) : (filled calls).Holds (accepted calls) := by
  induction calls using List.reverseRecOn with
  | nil => exact holds_empty
  | append_singleton calls e ih =>
    rw [filled_concat, accepted, kept_concat]
    exact fill_holds ih e

/-! ## Ids -/

namespace Holds

variable {index : FlatIndex} {entries : List IndexEntry}

theorem contains_iff (h : index.Holds entries) {id : String} :
    index.entries.contains id = true ↔ ∃ e ∈ entries, e.key = id := by
  unfold Dict.contains
  rw [Option.isSome_iff_exists]
  exact exists_congr fun e => h.lookup_iff

theorem layoutKey_mem (h : index.Holds entries) {layout id : String}
    (hlayout : index.layoutKey layout = some id) : ∃ e ∈ entries, e.key = id := by
  unfold layoutKey at hlayout
  rw [h.layouts] at hlayout
  obtain ⟨e, he, hpair⟩ := List.mem_filterMap.mp (Entries.mem_of_last? hlayout)
  refine ⟨e, he, ?_⟩
  unfold layoutPair? at hpair
  split at hpair
  next => exact congrArg Prod.snd (Option.some.inj hpair)
  next => cases hpair

theorem controlKey_mem (h : index.Holds entries) {control id : String}
    (hcontrol : index.controlKey control = some id) : ∃ e ∈ entries, e.key = id := by
  unfold controlKey at hcontrol
  rw [h.controls] at hcontrol
  obtain ⟨e, he, hpair⟩ := List.mem_filterMap.mp (Entries.mem_of_last? hcontrol)
  obtain ⟨name, -, hkey⟩ := Option.map_eq_some_iff.mp hpair
  exact ⟨e, he, congrArg Prod.snd hkey⟩

end Holds

/-- The ids that an index has are those that were called. -/
theorem contains_filled_iff (calls : List IndexEntry) (id : String) :
    (filled calls).entries.contains id = true ↔ ∃ e ∈ calls, e.key = id := by
  rw [(filled_holds calls).contains_iff]
  induction calls using List.reverseRecOn with
  | nil => exact Iff.rfl
  | append_singleton calls last ih =>
    rw [accepted, kept_concat, ← accepted]
    by_cases hinsert : ((filled calls).insert? last).isSome = true
    · rw [if_pos hinsert]
      simp only [List.mem_append, or_and_right, exists_or, ih]
    · rw [if_neg hinsert, ih]
      -- The id of a call that fails was called before.
      have hthere : ∃ e ∈ calls, e.key = last.key := by
        have hnone := Option.not_isSome_iff_eq_none.mp hinsert
        rw [insert?_eq_none_iff, (filled_holds calls).contains_iff] at hnone
        obtain ⟨e, he, hkey⟩ := hnone
        exact ⟨e, (kept_sublist _ _).subset he, hkey⟩
      constructor
      · rintro ⟨e, he, hkey⟩
        exact ⟨e, List.mem_append_left _ he, hkey⟩
      · rintro ⟨e, he, rfl⟩
        rcases List.mem_append.mp he with he | he
        · exact ⟨e, he, rfl⟩
        · rw [List.mem_singleton.mp he]
          exact hthere

/-! ## What is found -/

/-- A name outside the groups that cannot be taken for one in a group. -/
def Plain (group : Option FieldGroup) (name : String) : Prop := group = none → '/' ∉ name.toList

instance (group : Option FieldGroup) (name : String) : Decidable (Plain group name) :=
  inferInstanceAs (Decidable (_ → _))

theorem slot_inj {g g' : Option FieldGroup} {s t : String} (hs : Plain g s) (ht : Plain g' t)
    (h : slot g s = slot g' t) : g = g' ∧ s = t := by
  have hslash : ∀ {group : FieldGroup} {a b : String}, Plain none b →
      group.name ++ "/" ++ a ≠ b := by
    rintro group a b hb rfl
    exact hb rfl (by simp [String.toList_append])
  cases g with
  | none =>
    cases g' with
    | none => exact ⟨rfl, h⟩
    | some group => exact absurd h.symm (hslash hs)
  | some group =>
    cases g' with
    | none => exact absurd h (hslash ht)
    | some group' =>
      obtain ⟨rfl, hname⟩ := FieldGroup.name_slash_inj h
      exact ⟨rfl, hname⟩

/-- Under a parent, the last of the entries with a group and a name is found. -/
theorem Holds.childKey_eq {index : FlatIndex} {entries : List IndexEntry}
    (h : index.Holds entries) (hplain : ∀ e ∈ entries, Plain e.group e.name) (parent name : String)
    {group : Option FieldGroup} (hname : Plain group name) :
    index.childKey parent group name =
      (entries.reverse.find? fun e =>
        e.parent = some parent ∧ e.group = group ∧ e.name = name).map IndexEntry.key := by
  have hpairs : childPairs parent entries = entries.filterMap fun e =>
      if e.parent == some parent then some (slot e.group e.name, e.key) else none := by
    rw [childPairs, ← List.filterMap_eq_map, List.filterMap_filter]
    rfl
  unfold childKey
  rw [h.children, hpairs]
  refine Entries.last?_filterMap fun e he id => ?_
  rw [decide_eq_true_iff]
  by_cases hparent : e.parent = some parent
  · rw [if_pos (beq_iff_eq.mpr hparent), Option.some_inj, Prod.mk.injEq]
    constructor
    · rintro ⟨hslot, hkey⟩
      obtain ⟨hgroup, hsame⟩ := slot_inj (hplain e he) hname hslot
      exact ⟨⟨hparent, hgroup, hsame⟩, hkey⟩
    · rintro ⟨⟨-, hgroup, hsame⟩, hkey⟩
      exact ⟨by rw [hgroup, hsame], hkey⟩
  · rw [if_neg fun hp => hparent (beq_iff_eq.mp hp)]
    constructor
    · intro hnone
      cases hnone
    · exact fun hfound => absurd hfound.1.1 hparent

/-- Of the collections of a layout the last one is found. -/
theorem Holds.layoutKey_eq {index : FlatIndex} {entries : List IndexEntry}
    (h : index.Holds entries) (layout : String) :
    index.layoutKey layout =
      (entries.reverse.find? fun e =>
        e.node = .layout ∧ e.layout = some layout).map IndexEntry.key := by
  unfold layoutKey
  rw [h.layouts]
  refine Entries.last?_filterMap fun e _ id => ?_
  rw [decide_eq_true_iff]
  unfold layoutPair?
  split
  next name hnode hlayout =>
    rw [Option.some_inj, Prod.mk.injEq, hlayout, Option.some_inj, and_iff_right hnode]
  next hother =>
    exact ⟨nofun, fun hfound => absurd hfound.1.2 (hother layout hfound.1.1)⟩

/-- After any calls, one more fails if its id is there, which it is if it was called before; then
nothing changes. Every id that is found under a parent, for a layout or for a control is there. Under
a parent, and for a layout, the entry that was accepted last is found; what is looked up under a
parent by group and name is told from other groups and names as long as no name has a slash. -/
theorem filled_represents (calls : List IndexEntry) :
    (∀ e, ((filled calls).insert? e = none ↔ (filled calls).entries.contains e.key = true) ∧
      ((filled calls).entries.contains e.key = true ↔ ∃ call ∈ calls, call.key = e.key) ∧
      ((filled calls).insert? e = none → filled (calls ++ [e]) = filled calls ∧
        ((filled calls).absorb [.entry e]).collision = some (.keyCollision e.key e.entity))) ∧
    (∀ id, ((∃ parent group name, (filled calls).childKey parent group name = some id) ∨
        (∃ layout, (filled calls).layoutKey layout = some id) ∨
        ∃ control, (filled calls).controlKey control = some id) →
      (filled calls).entries.contains id = true) ∧
    ((∀ e ∈ calls, Plain e.group e.name) → ∀ parent group name, Plain group name →
      (filled calls).childKey parent group name =
        ((accepted calls).reverse.find? fun e =>
          e.parent = some parent ∧ e.group = group ∧ e.name = name).map IndexEntry.key) ∧
    ∀ layout, (filled calls).layoutKey layout =
      ((accepted calls).reverse.find? fun e =>
        e.node = .layout ∧ e.layout = some layout).map IndexEntry.key := by
  have hholds := filled_holds calls
  refine ⟨fun e => ⟨insert?_eq_none_iff, contains_filled_iff calls e.key, fun hnone => ?_⟩,
    fun id hfound => hholds.contains_iff.mpr ?_, fun hplain parent group name hname => ?_,
    hholds.layoutKey_eq⟩
  · rw [filled_concat]
    exact fill_of_none hnone
  · rcases hfound with ⟨parent, group, name, hchild⟩ | ⟨layout, hlayout⟩ | ⟨control, hcontrol⟩
    · obtain ⟨e, he, -, -, hkey⟩ := hholds.childKey_mem hchild
      exact ⟨e, he, hkey⟩
    · exact hholds.layoutKey_mem hlayout
    · exact hholds.controlKey_mem hcontrol
  · exact hholds.childKey_eq (fun e he => hplain e ((kept_sublist _ _).subset he)) parent name hname

/-- A layout, two variants of one name in it, and between these a call with an id that is taken. -/
def rivals : List IndexEntry :=
  let button : IndexEntry :=
    { key := "block_1", name := "button", entity := ⟨.block, "button"⟩, group := none,
      node := .block, parent := some "field_1", layout := some "page", isBoundary := false,
      returnFormat := none }
  [{ button with
      key := "field_1", name := "site_page", entity := ⟨.layout, "page"⟩, node := .layout,
      parent := none },
    button, { button with name := "image" }, { button with key := "block_2" }]

/-- The second variant is found, and nothing of the call that failed. -/
theorem rivals_represented :
    (∀ e ∈ rivals, Plain e.group e.name) ∧ Plain none "button" ∧ Plain none "image" ∧
      (accepted rivals).map IndexEntry.key = ["field_1", "block_1", "block_2"] ∧
      (filled rivals).childKey "field_1" none "button" = some "block_2" ∧
      (filled rivals).childKey "field_1" none "image" = none ∧
      (filled rivals).layoutKey "page" = some "field_1" := by
  obtain ⟨-, -, hchild, hlayout⟩ := filled_represents rivals
  have hplain : ∀ e ∈ rivals, Plain e.group e.name := by decide
  have hbutton : Plain none "button" := by decide
  have himage : Plain none "image" := by decide
  exact ⟨hplain, hbutton, himage, by decide +kernel,
    (hchild hplain "field_1" none "button" hbutton).trans (by decide +kernel),
    (hchild hplain "field_1" none "image" himage).trans (by decide +kernel),
    (hlayout "page").trans (by decide +kernel)⟩

end FlatIndex

end PageBlocks
