import PageBlocks.Proofs.Rows.Proper

/-!
# Written and read again

Proper data that is written to rows and read again has the members that it had,
each written and read again itself: an id leads back to the name that it was
written for, and under one id at most one member is written. Where a block is
read again, it may have another envelope.

> `object_reread`: an object of sub-fields.

> `row_reread`: a block.
-/

namespace PageBlocks

namespace Rehydrate

open Proper

variable {index : FlatIndex} {layout : String}

/-! ## Objects of sub-fields -/

section Object

variable {m : BlockMeta} {stored : Dict StoredValue} {trail trail' : String} {parent : IndexEntry}
  {kind : FieldKind} {members : List (String × Value)}

/-- A field of an object, written and read again. -/
def rereadField (index : FlatIndex) (m : BlockMeta) (stored : Dict StoredValue)
    (trail trail' : String) (parent : IndexEntry) (e : String × Value) : Value :=
  match index.child? parent.key parent.group e.1 with
  | some entry =>
    value index .none m (subTrail trail' e.1) entry
      (Flatten.value index stored parent.group (subTrail trail e.1) entry e.2)
  | none => e.2

theorem readField_writtenField (hindex : index.Coherent)
    (hparent : index.lookup parent.key = some parent) (hnode : parent.node = .field kind)
    (hkind : kind.hasSubFields = true) {e : String × Value}
    (hnone : index.child? parent.key parent.group e.1 = none →
      index.childEntry? parent.key e.1 = none) :
    readField index .none m trail' parent (writtenField index stored trail parent e) =
      (e.1, rereadField index m stored trail trail' parent e) := by
  unfold rereadField readField writtenField
  cases hchild : index.child? parent.key parent.group e.1 with
  | none =>
    dsimp only
    rw [hnone hchild]
  | some entry =>
    obtain ⟨hentry, -, hname⟩ := hindex.child?_row hparent hnode hkind hchild
    dsimp only
    rw [hentry]
    dsimp only
    rw [hname]

/-- Under one id at most one member of a proper object is written. -/
theorem writtenField_inj (hindex : index.Coherent)
    (hparent : index.lookup parent.key = some parent) (hnode : parent.node = .field kind)
    (hkind : kind.hasSubFields = true) (hsorted : Entries.Sorted members)
    (hproper : Proper.fields index layout parent.key parent.group members) {id : String}
    {v w : Value} (hv : (id, v) ∈ members.map (writtenField index stored trail parent))
    (hw : (id, w) ∈ members.map (writtenField index stored trail parent)) : v = w := by
  obtain ⟨e, he, hev⟩ := List.mem_map.mp hv
  obtain ⟨e', he', hew⟩ := List.mem_map.mp hw
  have hread : ∀ e ∈ members, readField index .none default "" parent
      (writtenField index stored trail parent e) =
        (e.1, rereadField index default stored trail "" parent e) :=
    fun e he => readField_writtenField hindex hparent hnode hkind
      (fields_iff.mp hproper e he).2
  -- In any block the id alone tells the name that is read for it.
  have hname : e.1 = e'.1 := by
    have hfirst := congrArg (·.1) (hread e he)
    have hsecond := congrArg (·.1) (hread e' he')
    rw [hev] at hfirst
    rw [hew] at hsecond
    dsimp only at hfirst hsecond
    rw [← hfirst, ← hsecond]
    unfold readField
    cases index.childEntry? parent.key id <;> rfl
  have hsame : e.2 = e'.2 := by
    have hget := hsorted.get?_of_mem he
    rw [hname, hsorted.get?_of_mem he'] at hget
    exact (Option.some.inj hget).symm
  rw [Prod.ext hname hsame, hew] at hev
  exact (Prod.mk.inj hev).2.symm

/-- A proper object of sub-fields keeps its members, each with its value written and read again. -/
theorem object_reread (hindex : index.Coherent)
    (hparent : index.lookup parent.key = some parent) (hnode : parent.node = .field kind)
    (hkind : kind.hasSubFields = true) (hsorted : Entries.Sorted members)
    (hproper : Proper.fields index layout parent.key parent.group members) :
    Entries.ofList (fields index .none m trail' parent
        (Entries.ofList (Flatten.fields index stored parent.group trail parent members))) =
      members.map fun e => (e.1, rereadField index m stored trail trail' parent e) := by
  have hread : ∀ e ∈ members, readField index .none m trail' parent
      (writtenField index stored trail parent e) =
        (e.1, rereadField index m stored trail trail' parent e) :=
    fun e he => readField_writtenField hindex hparent hnode hkind
      (fields_iff.mp hproper e he).2
  have hback : Entries.Sorted
      (members.map fun e => (e.1, rereadField index m stored trail trail' parent e)) :=
    List.pairwise_map.mpr hsorted
  have hmem : ∀ x, x ∈ fields index .none m trail' parent
      (Entries.ofList (Flatten.fields index stored parent.group trail parent members)) ↔
        x ∈ members.map fun e => (e.1, rereadField index m stored trail trail' parent e) := by
    intro x
    rw [fields_eq_map, flatten_fields_eq_map, List.mem_map, List.mem_map]
    constructor
    · rintro ⟨y, hy, rfl⟩
      obtain ⟨e, he, rfl⟩ := List.mem_map.mp (Entries.mem_ofList hy)
      exact ⟨e, he, (hread e he).symm⟩
    · rintro ⟨e, he, rfl⟩
      refine ⟨_, (Entries.mem_ofList_iff fun _ _ _ hv hw => ?_).mpr (List.mem_map_of_mem he),
        hread e he⟩
      exact writtenField_inj hindex hparent hnode hkind hsorted hproper hv hw
  refine (Entries.sorted_ofList _).ext hback fun x => ?_
  rw [Entries.mem_ofList_iff, hmem]
  intro key v w hv hw
  have hget := hback.get?_of_mem ((hmem _).mp hv)
  rw [hback.get?_of_mem ((hmem _).mp hw)] at hget
  exact (Option.some.inj hget).symm

end Object

/-! ## Blocks -/

section Block

variable {m m' : BlockMeta} {variant : IndexEntry} {members : List (String × Value)}

theorem member_of_child? (hindex : index.Coherent) {key name : String} {group : Option FieldGroup}
    {entry : IndexEntry} (hchild : index.child? key group name = some entry)
    (htab : entry.isTab = false) : member index key entry.key = .field entry :=
  (member_eq_field hindex).mpr ⟨(hindex.childEntry?_of_child? hchild).1, htab⟩

/-- What a proper block is written as: whatever stands beside its groups, as it is, and the values
of the fields in its groups, under their ids. -/
inductive Written (index : FlatIndex) (m : BlockMeta) (members : List (String × Value)) :
    String × Value → Prop where
  | beside {e : String × Value} (he : e ∈ members) (hmeta : e.1 ≠ metaKey)
      (hbeside : Beside index m.key e.1) : Written index m members e
  | field {group : FieldGroup} {inner : List (String × Value)} {f : String × Value}
      {entry : IndexEntry} (hgroup : (group.name, .object inner) ∈ members) (hf : f ∈ inner)
      (hchild : index.child? m.key (some group) f.1 = some entry) (htab : entry.isTab = false) :
      Written index m members
        (entry.key, Flatten.value index m.stored (some group) f.1 entry f.2)

/-- A group of a proper block holds fields, in order. -/
theorem group_of_mem (hproper : Proper.blockMembers index layout m.key members)
    {group : FieldGroup} {v : Value} (he : (group.name, v) ∈ members) :
    ∃ inner, v = .object inner ∧ inner ≠ [] ∧ Entries.Sorted inner ∧
      (∀ f ∈ inner, ∃ entry, index.child? m.key (some group) f.1 = some entry ∧
        entry.isTab = false) ∧
      Proper.fields index layout m.key (some group) inner := by
  have hmember := blockMembers_iff.mp hproper _ he
  have hbeside : ¬Beside index m.key group.name := by
    rintro ⟨hnone, -, -⟩
    rw [FieldGroup.ofName?_name] at hnone
    cases hnone
  cases v with
  | object inner =>
    rw [Proper.blockMember] at hmember
    rcases hmember with hmeta | hb | ⟨group', hgroup', hne, hsorted, hnames, hfields⟩
    · exact absurd hmeta group.name_ne_metaKey
    · exact absurd hb hbeside
    · rw [FieldGroup.ofName?_name] at hgroup'
      obtain rfl := Option.some.inj hgroup'
      exact ⟨inner, rfl, hne, hsorted, hnames, hfields⟩
  | _ =>
    simp only [Proper.blockMember] at hmember
    rcases hmember with hmeta | hb
    · exact absurd hmeta group.name_ne_metaKey
    · exact absurd hb hbeside

/-- A member of a proper block is its envelope, stands beside the groups or is one. -/
theorem member_cases (hproper : Proper.blockMembers index layout m.key members)
    {e : String × Value} (he : e ∈ members) :
    e.1 = metaKey ∨ Beside index m.key e.1 ∨ ∃ group : FieldGroup, e.1 = group.name := by
  have hmember := blockMembers_iff.mp hproper e he
  obtain ⟨name, v⟩ := e
  cases v with
  | object inner =>
    rw [Proper.blockMember] at hmember
    rcases hmember with hmeta | hb | ⟨group, hgroup, -⟩
    · exact .inl hmeta
    · exact .inr (.inl hb)
    · exact .inr (.inr ⟨group, FieldGroup.name_of_ofName? hgroup⟩)
  | _ =>
    simp only [Proper.blockMember] at hmember
    rcases hmember with hmeta | hb
    · exact .inl hmeta
    · exact .inr (.inl hb)

theorem mem_groupMembers {group : FieldGroup} {inner : List (String × Value)}
    {x : String × Value} :
    x ∈ Flatten.groupMembers index m group inner ↔
      ∃ f ∈ inner, ∃ entry, index.child? m.key (some group) f.1 = some entry ∧
        x = (entry.key, Flatten.value index m.stored (some group) f.1 entry f.2) := by
  rw [Flatten.groupMembers_eq_flatMap, List.mem_flatMap]
  refine exists_congr fun f => and_congr_right fun _ => ?_
  rw [Flatten.groupMembers, Flatten.groupMembers, List.append_nil]
  cases index.child? m.key (some group) f.1 with
  | none => simp
  | some entry => simp

theorem mem_blockMembers (hindex : index.Coherent)
    (hproper : Proper.blockMembers index layout m.key members) {x : String × Value} :
    x ∈ Flatten.blockMembers index m members ↔ Written index m members x := by
  rw [Flatten.blockMembers_eq_flatMap, List.mem_flatMap]
  constructor
  · rintro ⟨e, he, hx⟩
    by_cases hmeta : e.1 = metaKey
    · obtain ⟨name, v⟩ := e
      obtain rfl : name = metaKey := hmeta
      rw [Flatten.blockMembers_meta] at hx
      exact absurd hx List.not_mem_nil
    rcases member_cases hproper he with h | hbeside | ⟨group, hgroup⟩
    · exact absurd h hmeta
    · have hwritten : Flatten.blockMembers index m [e] = [e] :=
        written_plain hmeta (.inl hbeside.1) (hindex.child?_eq_none.mpr hbeside.2.2)
      rw [hwritten, List.mem_singleton] at hx
      exact hx ▸ .beside he hmeta hbeside
    · obtain ⟨name, v⟩ := e
      obtain rfl : name = group.name := hgroup
      obtain ⟨inner, rfl, -, -, hnames, -⟩ := group_of_mem hproper he
      rw [Flatten.blockMembers_group, mem_groupMembers] at hx
      obtain ⟨f, hf, entry, hchild, rfl⟩ := hx
      obtain ⟨entry', hchild', htab⟩ := hnames f hf
      obtain rfl := Option.some.inj (hchild.symm.trans hchild')
      exact .field he hf hchild htab
  · intro hx
    cases hx with
    | beside he hmeta hbeside =>
      have hwritten : Flatten.blockMembers index m [x] = [x] :=
        written_plain hmeta (.inl hbeside.1) (hindex.child?_eq_none.mpr hbeside.2.2)
      refine ⟨x, he, ?_⟩
      rw [hwritten]
      exact List.mem_singleton.mpr rfl
    | @field group inner f entry hgroup hf hchild htab =>
      refine ⟨_, hgroup, ?_⟩
      rw [Flatten.blockMembers_group, mem_groupMembers]
      exact ⟨f, hf, entry, hchild, rfl⟩

/-- The ids of different fields of a block are different. -/
theorem field_eq (hindex : index.Coherent) (hvariant : index.lookup m.key = some variant)
    (hnode : variant.node = .block) (hsorted : Entries.Sorted members)
    (hproper : Proper.blockMembers index layout m.key members) {group group' : FieldGroup}
    {inner inner' : List (String × Value)} {f f' : String × Value} {entry : IndexEntry}
    (hgroup : (group.name, .object inner) ∈ members)
    (hgroup' : (group'.name, .object inner') ∈ members) (hf : f ∈ inner) (hf' : f' ∈ inner')
    (hchild : index.child? m.key (some group) f.1 = some entry)
    (hchild' : index.child? m.key (some group') f'.1 = some entry) :
    group = group' ∧ inner = inner' ∧ f = f' := by
  obtain ⟨-, hg, hname⟩ := hindex.child?_variant hvariant hnode hchild
  obtain ⟨-, hg', hname'⟩ := hindex.child?_variant hvariant hnode hchild'
  obtain rfl : group = group' := Option.some.inj (hg.symm.trans hg')
  have hinner : inner = inner' := by
    have hget := hsorted.get?_of_mem hgroup
    rw [hsorted.get?_of_mem hgroup'] at hget
    exact (Value.object.inj (Option.some.inj hget)).symm
  subst hinner
  obtain ⟨inner', heq, -, hsortedInner, -, -⟩ := group_of_mem hproper hgroup
  obtain rfl := Value.object.inj heq
  have hkey : f.1 = f'.1 := hname.symm.trans hname'
  have hget := hsortedInner.get?_of_mem hf
  rw [hkey, hsortedInner.get?_of_mem hf'] at hget
  exact ⟨rfl, rfl, Prod.ext hkey (Option.some.inj hget).symm⟩

/-- The row that a block is written to. -/
def writtenRow (index : FlatIndex) (m : BlockMeta) (members : List (String × Value)) :
    List (String × Value) :=
  Entries.ofList ((variantTag, .string m.storedTag) :: Flatten.blockMembers index m members)

theorem writtenRow_sorted : Entries.Sorted (writtenRow index m members) :=
  Entries.sorted_ofList _

theorem Written.member_ne_tag (hindex : index.Coherent) {x : String × Value}
    (h : Written index m members x) : member index m.key x.1 ≠ .tag := by
  intro htag
  cases h with
  | beside _ _ hbeside =>
    rw [hbeside.2.1] at htag
    cases htag
  | field _ _ hchild htab =>
    rw [member_of_child? hindex hchild htab] at htag
    cases htag

/-- Under one key of a row at most one value is written. -/
theorem Written.unique (hindex : index.Coherent) (hvariant : index.lookup m.key = some variant)
    (hnode : variant.node = .block) (hsorted : Entries.Sorted members)
    (hproper : Proper.blockMembers index layout m.key members) {x y : String × Value}
    (hx : Written index m members x) (hy : Written index m members y) (hkey : x.1 = y.1) :
    x.2 = y.2 := by
  -- What a key is in a row tells where its value comes from.
  cases hx with
  | beside he _ hbeside =>
    cases hy with
    | beside he' =>
      have hget := hsorted.get?_of_mem he
      rw [hkey, hsorted.get?_of_mem he'] at hget
      exact (Option.some.inj hget).symm
    | field _ _ hchild htab =>
      have hfield := member_of_child? hindex hchild htab
      dsimp only at hkey
      rw [← hkey, hbeside.2.1] at hfield
      cases hfield
  | field hgroup hf hchild htab =>
    have hfield := member_of_child? hindex hchild htab
    dsimp only at hkey
    rw [hkey] at hfield
    cases hy with
    | beside _ _ hbeside =>
      rw [hbeside.2.1] at hfield
      cases hfield
    | field hgroup' hf' hchild' htab' =>
      rw [member_of_child? hindex hchild' htab'] at hfield
      obtain rfl := Member.field.inj hfield
      obtain ⟨rfl, rfl, rfl⟩ := field_eq hindex hvariant hnode hsorted hproper hgroup hgroup' hf
        hf' hchild hchild'
      rfl

/-- Besides the name of its variant, the row of a proper block has what the block is written as. -/
theorem mem_writtenRow (hindex : index.Coherent) (hvariant : index.lookup m.key = some variant)
    (hnode : variant.node = .block) (hsorted : Entries.Sorted members)
    (hproper : Proper.blockMembers index layout m.key members) {x : String × Value} :
    x ∈ writtenRow index m members ↔
      x = (variantTag, .string m.storedTag) ∨ Written index m members x := by
  have htag : member index m.key variantTag = .tag := by
    unfold member
    rw [if_pos rfl]
  unfold writtenRow
  rw [Entries.mem_ofList_iff, List.mem_cons, mem_blockMembers hindex hproper]
  intro key v w hv hw
  rw [List.mem_cons, mem_blockMembers hindex hproper] at hv hw
  rcases hv with hv | hv
  · obtain ⟨rfl, rfl⟩ := Prod.mk.inj hv
    rcases hw with hw | hw
    · exact (Prod.mk.inj hw).2.symm
    · exact absurd htag (hw.member_ne_tag hindex)
  · rcases hw with hw | hw
    · obtain ⟨rfl, rfl⟩ := Prod.mk.inj hw
      exact absurd htag (hv.member_ne_tag hindex)
    · exact hv.unique hindex hvariant hnode hsorted hproper hw rfl

/-- A field of a group of a block, written and read again in another one. -/
def rereadInGroup (index : FlatIndex) (m m' : BlockMeta) (group : FieldGroup)
    (f : String × Value) : Value :=
  match index.child? m.key (some group) f.1 with
  | some entry =>
    value index .none m' f.1 entry (Flatten.value index m.stored (some group) f.1 entry f.2)
  | none => f.2

/-- A member of a block, written and read again in a block with another envelope. -/
def rereadMember (index : FlatIndex) (m m' : BlockMeta) (envelope : Value) (e : String × Value) :
    Value :=
  if e.1 = metaKey then envelope
  else
    match FieldGroup.ofName? e.1, e.2 with
    | some group, .object inner =>
      .object (inner.map fun f => (f.1, rereadInGroup index m m' group f))
    | _, v => v

theorem rereadMember_group {envelope : Value} (group : FieldGroup)
    (inner : List (String × Value)) :
    rereadMember index m m' envelope (group.name, .object inner) =
      .object (inner.map fun f => (f.1, rereadInGroup index m m' group f)) := by
  unfold rereadMember
  rw [if_neg group.name_ne_metaKey, FieldGroup.ofName?_name]

theorem rereadMember_beside {envelope : Value} {e : String × Value} (hmeta : e.1 ≠ metaKey)
    (hnone : FieldGroup.ofName? e.1 = none) : rereadMember index m m' envelope e = e.2 := by
  unfold rereadMember
  rw [if_neg hmeta, hnone]

/-- What is placed when the row of a proper block is read. -/
theorem grouped_mem_reread (hindex : index.Coherent)
    (hvariant : index.lookup m.key = some variant) (hnode : variant.node = .block)
    (hsorted : Entries.Sorted members)
    (hproper : Proper.blockMembers index layout m.key members) (hkey : m'.key = m.key)
    {group : FieldGroup} {name : String} {v : Value} :
    .grouped group name v ∈
        (writtenRow index m members).filterMap (placement? index .none m') ↔
      ∃ inner f, (group.name, .object inner) ∈ members ∧ f ∈ inner ∧ f.1 = name ∧
        rereadInGroup index m m' group f = v := by
  rw [grouped_mem_placements, hkey]
  constructor
  · rintro ⟨id, raw, entry, hmem, hmember, hgroup, hname, rfl⟩
    rcases (mem_writtenRow hindex hvariant hnode hsorted hproper).mp hmem with heq | hwritten
    · unfold member at hmember
      rw [if_pos (Prod.mk.inj heq).1] at hmember
      cases hmember
    · generalize hx : (id, raw) = x at hwritten
      cases hwritten with
      | beside _ _ hbeside =>
        subst hx
        rw [hbeside.2.1] at hmember
        cases hmember
      | @field g inner f entry' hopen hf hchild htab =>
        obtain ⟨rfl, rfl⟩ := Prod.mk.inj hx
        rw [member_of_child? hindex hchild htab] at hmember
        obtain rfl := Member.field.inj hmember
        obtain ⟨-, hg, hsame⟩ := hindex.child?_variant hvariant hnode hchild
        obtain rfl : g = group := Option.some.inj (hg.symm.trans hgroup)
        refine ⟨inner, f, hopen, hf, hsame.symm.trans hname, ?_⟩
        unfold rereadInGroup
        rw [hchild, hsame]
  · rintro ⟨inner, f, hopen, hf, rfl, rfl⟩
    obtain ⟨inner', heq, -, -, hnames, -⟩ := group_of_mem hproper hopen
    obtain rfl := Value.object.inj heq
    obtain ⟨entry, hchild, htab⟩ := hnames f hf
    obtain ⟨-, hg, hname⟩ := hindex.child?_variant hvariant hnode hchild
    refine ⟨entry.key, Flatten.value index m.stored (some group) f.1 entry f.2, entry,
      (mem_writtenRow hindex hvariant hnode hsorted hproper).mpr
        (.inr (.field hopen hf hchild htab)),
      member_of_child? hindex hchild htab, hg, hname, ?_⟩
    unfold rereadInGroup
    rw [hchild, hname]

theorem plain_mem_reread (hindex : index.Coherent)
    (hvariant : index.lookup m.key = some variant) (hnode : variant.node = .block)
    (hsorted : Entries.Sorted members)
    (hproper : Proper.blockMembers index layout m.key members) (hkey : m'.key = m.key)
    {key : String} {v : Value} :
    .plain key v ∈ (writtenRow index m members).filterMap (placement? index .none m') ↔
      (key, v) ∈ members ∧ key ≠ metaKey ∧ Beside index m.key key := by
  rw [plain_mem_placements, hkey, mem_writtenRow hindex hvariant hnode hsorted hproper]
  constructor
  · rintro ⟨heq | hwritten, hmember⟩
    · unfold member at hmember
      rw [if_pos (Prod.mk.inj heq).1] at hmember
      cases hmember
    · generalize hx : (key, v) = x at hwritten
      cases hwritten with
      | beside he hmeta hbeside =>
        subst hx
        exact ⟨he, hmeta, hbeside⟩
      | field _ _ hchild htab =>
        rw [(Prod.mk.inj hx).1, member_of_child? hindex hchild htab] at hmember
        cases hmember
  · rintro ⟨he, hmeta, hbeside⟩
    exact ⟨.inr (.beside he hmeta hbeside), hbeside.2.1⟩

/-- What is read from the row of a proper block is held where the block held it. -/
theorem reread_held (hindex : index.Coherent) (hvariant : index.lookup m.key = some variant)
    (hnode : variant.node = .block) (hsorted : Entries.Sorted members)
    (hproper : Proper.blockMembers index layout m.key members) (hkey : m'.key = m.key)
    {envelope : Value} :
    Held ((writtenRow index m members).filterMap (placement? index .none m'))
      (Entries.erase metaKey
        (members.map fun e => (e.1, rereadMember index m m' envelope e))) where
  sorted := Entries.sorted_erase metaKey (List.pairwise_map.mpr hsorted)
  plain := by
    intro key v hnone
    rw [plain_mem_reread hindex hvariant hnode hsorted hproper hkey, Entries.erase,
      List.mem_filter, List.mem_map]
    constructor
    · rintro ⟨⟨e, he, heq⟩, hmeta⟩
      obtain ⟨rfl, rfl⟩ := Prod.mk.inj heq
      have hne : e.1 ≠ metaKey := by simpa using hmeta
      rw [rereadMember_beside hne hnone]
      rcases member_cases hproper he with h | hbeside | ⟨group, hgroup⟩
      · exact absurd h hne
      · exact ⟨he, hne, hbeside⟩
      · rw [hgroup, FieldGroup.ofName?_name] at hnone
        cases hnone
    · rintro ⟨he, hmeta, hbeside⟩
      refine ⟨⟨(key, v), he, ?_⟩, by simpa using hmeta⟩
      rw [rereadMember_beside hmeta hnone]
  grouped := by
    intro group w hmem
    rw [Entries.erase, List.mem_filter, List.mem_map] at hmem
    obtain ⟨⟨⟨name, u⟩, he, heq⟩, -⟩ := hmem
    obtain ⟨rfl, rfl⟩ := Prod.mk.inj heq
    obtain ⟨inner, rfl, hne, hsortedInner, -, -⟩ := group_of_mem hproper he
    refine ⟨_, rereadMember_group group inner, ?_, List.pairwise_map.mpr hsortedInner,
      fun name v => ?_⟩
    · rw [ne_eq, List.map_eq_nil_iff]
      exact hne
    · rw [grouped_mem_reread hindex hvariant hnode hsorted hproper hkey, List.mem_map]
      constructor
      · rintro ⟨f, hf, heq⟩
        obtain ⟨rfl, rfl⟩ := Prod.mk.inj heq
        exact ⟨inner, f, he, hf, rfl, rfl⟩
      · rintro ⟨inner', f, he', hf, rfl, rfl⟩
        have hget := hsorted.get?_of_mem he
        rw [hsorted.get?_of_mem he'] at hget
        obtain rfl := Value.object.inj (Option.some.inj hget)
        exact ⟨f, hf, rfl⟩
  opened := by
    intro group name v hmem
    obtain ⟨inner, f, he, -, -, -⟩ :=
      (grouped_mem_reread hindex hvariant hnode hsorted hproper hkey).mp hmem
    refine List.mem_map.mpr ⟨_, List.mem_filter.mpr ⟨List.mem_map.mpr ⟨_, he, rfl⟩, ?_⟩, rfl⟩
    simpa using group.name_ne_metaKey

/-- A block that is written to a row and read again keeps its members, each written and read
again. -/
theorem row_reread (m' : BlockMeta) (hindex : index.Coherent)
    (hvariant : index.lookup m.key = some variant) (hnode : variant.node = .block)
    (hsorted : Entries.Sorted members)
    (hproper : Proper.blockMembers index layout m.key members) (hkey : m'.key = m.key)
    (hmeta : metaKey ∈ members.map (·.1)) :
    ∃ envelope : BlockMeta, (envelope.layout = m'.layout ∧ envelope.block = m'.block ∧
        envelope.key = m'.key ∧ envelope.tag = m'.tag) ∧
      row index .none m' (writtenRow index m members) =
        .object (members.map fun e =>
          (e.1, rereadMember index m m' envelope.toValue e)) := by
  refine ⟨{ m' with stored := .ofList (blockRecords index .none m'.key none
    (writtenRow index m members)) }, ⟨rfl, rfl, rfl, rfl⟩, ?_⟩
  unfold row assemble
  generalize BlockMeta.toValue { m' with stored := .ofList (blockRecords index .none m'.key none
    (writtenRow index m members)) } = envelope
  have hforeign : ∀ e ∈ writtenRow index m members, member index m'.key e.1 = .foreign →
      FieldGroup.ofName? e.1 = none := by
    intro e he hmember
    have hplaced : .plain e.1 e.2 ∈
        (writtenRow index m members).filterMap (placement? index .none m') :=
      plain_mem_placements.mpr ⟨he, hmember⟩
    exact ((plain_mem_reread hindex hvariant hnode hsorted hproper hkey).mp hplaced).2.2.1
  have hread : Held ((writtenRow index m members).filterMap (placement? index .none m'))
      ((placements index .none m' none (writtenRow index m members)).foldl Placement.put []) :=
    row_held .none hindex (hkey ▸ hvariant) hnode writtenRow_sorted hforeign
  have hmembers : Entries.Sorted
      (members.map fun e => (e.1, rereadMember index m m' envelope e)) :=
    List.pairwise_map.mpr hsorted
  have henvelope : (metaKey, envelope) ∈
      members.map fun e => (e.1, rereadMember index m m' envelope e) := by
    obtain ⟨e, he, hname⟩ := List.mem_map.mp hmeta
    refine List.mem_map.mpr ⟨e, he, ?_⟩
    unfold rereadMember
    rw [if_pos hname, hname]
  rw [hread.unique (reread_held hindex hvariant hnode hsorted hproper hkey),
    Entries.insert_erase hmembers henvelope]

end Block

end Rehydrate

end PageBlocks
