import PageBlocks.Proofs.Rows.Proper

/-!
# Changes of block data

How block data may differ from other block data, part by part: what becomes of
the values of leaves and of envelopes, and whether rows stay where they are.
Names, and whatever is neither a field nor an envelope, stay the same.

Two changes matter. An edit (`Change.edit`) replaces values of leaves by normal
ones, and moves, repeats and leaves out rows. Storing (`Change.storing`) keeps
every row in its place and every value, and says anew in the envelopes where a
block is and which stored forms were recorded.

> `Changed.ofLayout_proper`: proper data that is edited stays proper.
-/

namespace PageBlocks

/-- What a change of block data may do. -/
structure Change where
  /-- Whether rows may be moved, repeated and left out. -/
  moves : Bool
  leaf : FieldKind → (old new : Value) → Prop
  envelope : (old new : Value) → Prop

/-- An envelope without its position, its parent and its stored forms. -/
def unplaced : Value → Value
  | .object members => .object (members.filter fun e => e.1 ∉ ["index", "parent", "stored"])
  | v => v

/-- Without its place an envelope says of its block what variant it is of, and nothing else. -/
theorem BlockMeta.unplaced_toValue {m n : BlockMeta} (hlayout : m.layout = n.layout)
    (hblock : m.block = n.block) (hkey : m.key = n.key) (htag : m.tag = n.tag) :
    unplaced m.toValue = unplaced n.toValue := by
  have hlast : ∀ (m : BlockMeta) {name : String}, name ∉ ["index", "parent", "stored"] →
      Entries.last? name m.pairs = Entries.last? name [("layout", .string m.layout),
        ("block", .string m.block), ("key", .string m.key), ("tag", .string m.tag)] := by
    intro m name hname
    simp only [List.mem_cons, List.not_mem_nil, or_false, not_or] at hname
    obtain ⟨hindex, hparent, hstored⟩ := hname
    unfold pairs
    rw [Entries.last?_append]
    cases m.stored.isEmpty <;>
      simp [Entries.last?, Ne.symm hindex, Ne.symm hparent, Ne.symm hstored]
  have hmem : ∀ (m : BlockMeta) (e : String × Value), e ∈ Entries.ofList m.pairs ↔
      Entries.last? e.1 m.pairs = some e.2 := by
    intro m e
    rw [← Entries.get?_ofList]
    exact ⟨(Entries.sorted_ofList _).get?_of_mem, Entries.mem_of_get?⟩
  have hsorted : ∀ m : BlockMeta, Entries.Sorted
      ((Entries.ofList m.pairs).filter fun e => e.1 ∉ ["index", "parent", "stored"]) :=
    fun m => List.Pairwise.sublist List.filter_sublist (Entries.sorted_ofList _)
  have hunplaced : ∀ m : BlockMeta, unplaced m.toValue = .object
      ((Entries.ofList m.pairs).filter fun e => e.1 ∉ ["index", "parent", "stored"]) :=
    fun _ => rfl
  rw [hunplaced, hunplaced]
  refine congrArg Value.object ((hsorted m).ext (hsorted n) fun e => ?_)
  rw [List.mem_filter, List.mem_filter, hmem, hmem]
  refine and_congr_left fun hname => ?_
  have hplace : e.1 ∉ ["index", "parent", "stored"] := of_decide_eq_true hname
  rw [hlast m hplace, hlast n hplace, hlayout, hblock, hkey, htag]

namespace Change

/-- Values of leaves may be replaced by normal ones, and rows may be moved. -/
def edit : Change where
  moves := true
  leaf := fun kind old new => new = old ∨ normalise .none kind new = new
  envelope := fun old new => new = old

/-- Values stay equal; envelopes may say anew where a block is, and what was recorded. -/
def storing : Change where
  moves := false
  leaf := fun _ old new => (new == old) = true
  envelope := fun old new => unplaced new = unplaced old

variable (change : Change)

/-- The rows that the next row may be made of. -/
def sources (olds : List Value) : List Value := if change.moves then olds else olds.take 1

/-- The rows that the rows behind the next one may be made of. -/
def others (olds : List Value) : List Value := if change.moves then olds else olds.tail

/-- Rows that no row is made of any more. -/
def Done (olds : List Value) : Prop := change.moves = true ∨ olds = []

end Change

namespace Changed

variable (change : Change) (index : FlatIndex)

mutual
/-- The value of a field. -/
def value (entry : IndexEntry) (old : Value) : (new : Value) → Prop
  | .array news =>
    match entry.node.shape with
    | .collection => ∃ olds, old = .array olds ∧ blocks olds news
    | .rows => ∃ olds, old = .array olds ∧ rows entry olds news
    | .leaf kind => change.leaf kind old (.array news)
    | _ => old = .array news
  | .object news =>
    match entry.node.shape with
    | .fields => ∃ olds, old = .object olds ∧ fields entry.key entry.group olds news
    | .leaf kind => change.leaf kind old (.object news)
    | _ => old = .object news
  | new =>
    match entry.node.shape with
    | .leaf kind => change.leaf kind old new
    | _ => old = new
termination_by structural new => new

/-- The rows of a repeater. -/
def rows (entry : IndexEntry) (olds : List Value) : (news : List Value) → Prop
  | [] => change.Done olds
  | new :: rest =>
    (∃ old ∈ change.sources olds, row entry old new) ∧ rows entry (change.others olds) rest
termination_by structural new => new

/-- A row of a repeater. -/
def row (entry : IndexEntry) (old : Value) : (new : Value) → Prop
  | .object news => ∃ olds, old = .object olds ∧ fields entry.key entry.group olds news
  | new => old = new
termination_by structural new => new

/-- Fields by their names, with whatever is no field under the parent. -/
def fields (parent : String) (group : Option FieldGroup) (olds : List (String × Value)) :
    (news : List (String × Value)) → Prop
  | [] => olds = []
  | (name, new) :: rest =>
    ∃ old olds', olds = (name, old) :: olds' ∧
      (match index.child? parent group name with
        | some entry => value entry old new
        | none => old = new) ∧
      fields parent group olds' rest
termination_by structural new => new

/-- The blocks of a collection. -/
def blocks (olds : List Value) : (news : List Value) → Prop
  | [] => change.Done olds
  | new :: rest =>
    (∃ old ∈ change.sources olds, block old new) ∧ blocks (change.others olds) rest
termination_by structural new => new

/-- A block, or a row of a collection that is none. -/
def block (old : Value) : (new : Value) → Prop
  | .object news =>
    ∃ olds, old = .object olds ∧
      match BlockMeta.ofMembers? olds with
      | some m => blockMembers m.key olds news
      | none => olds = news
  | new => old = new
termination_by structural new => new

/-- The members of a block of a variant. -/
def blockMembers (variant : String) (olds : List (String × Value)) :
    (news : List (String × Value)) → Prop
  | [] => olds = []
  | (name, new) :: rest =>
    ∃ old olds', olds = (name, old) :: olds' ∧ blockMember variant name old new ∧
      blockMembers variant olds' rest
termination_by structural new => new

/-- A member of a block: its envelope, a group, or what stands beside the groups. -/
def blockMember (variant name : String) (old : Value) : (new : Value) → Prop
  | .object news =>
    if name = metaKey then change.envelope old (.object news)
    else
      match FieldGroup.ofName? name with
      | some group => ∃ olds, old = .object olds ∧ fields variant (some group) olds news
      | none => old = .object news
  | new => if name = metaKey then change.envelope old new else old = new
termination_by structural new => new
end

variable {change index}

/-! ## Parts -/

theorem value_leaf {entry : IndexEntry} {kind : FieldKind} {old new : Value}
    (hshape : entry.node.shape = .leaf kind) :
    value change index entry old new ↔ change.leaf kind old new := by
  cases new <;> simp only [value, hshape]

theorem fields_keys {parent : String} {group : Option FieldGroup} :
    ∀ {olds news : List (String × Value)}, fields change index parent group olds news →
      news.map (·.1) = olds.map (·.1)
  | olds, [], h => by
    rw [fields] at h
    rw [h]
  | olds, (name, new) :: rest, h => by
    rw [fields] at h
    obtain ⟨old, olds', rfl, -, hrest⟩ := h
    rw [List.map_cons, List.map_cons, fields_keys hrest]

theorem blockMembers_keys {variant : String} :
    ∀ {olds news : List (String × Value)}, blockMembers change index variant olds news →
      news.map (·.1) = olds.map (·.1)
  | olds, [], h => by
    rw [blockMembers] at h
    rw [h]
  | olds, (name, new) :: rest, h => by
    rw [blockMembers] at h
    obtain ⟨old, olds', rfl, -, hrest⟩ := h
    rw [List.map_cons, List.map_cons, blockMembers_keys hrest]

/-- Members whose values were replaced one by one. -/
theorem fields_map {parent : String} {group : Option FieldGroup} {f : String × Value → Value} :
    ∀ {members : List (String × Value)},
      (∀ e ∈ members, match index.child? parent group e.1 with
        | some entry => value change index entry e.2 (f e)
        | none => e.2 = f e) →
      fields change index parent group members (members.map fun e => (e.1, f e))
  | [], _ => by
    rw [List.map_nil, fields]
  | e :: rest, h => by
    rw [List.map_cons, fields]
    exact ⟨e.2, rest, rfl, h e (List.mem_cons_self ..),
      fields_map fun e' he' => h e' (List.mem_cons_of_mem _ he')⟩

theorem blockMembers_map {variant : String} {f : String × Value → Value} :
    ∀ {members : List (String × Value)},
      (∀ e ∈ members, blockMember change index variant e.1 e.2 (f e)) →
      blockMembers change index variant members (members.map fun e => (e.1, f e))
  | [], _ => by
    rw [List.map_nil, blockMembers]
  | e :: rest, h => by
    rw [List.map_cons, blockMembers]
    exact ⟨e.2, rest, rfl, h e (List.mem_cons_self ..),
      blockMembers_map fun e' he' => h e' (List.mem_cons_of_mem _ he')⟩

theorem blockMember_meta {variant : String} {old new : Value} :
    blockMember change index variant metaKey old new ↔ change.envelope old new := by
  cases new <;> simp [blockMember]

theorem blockMember_same {variant name : String} {v : Value} (hmeta : name ≠ metaKey)
    (hnone : FieldGroup.ofName? name = none) : blockMember change index variant name v v := by
  cases v <;> simp [blockMember, hmeta, hnone]

theorem rows_storing_cons {entry : IndexEntry} {old new : Value} {olds news : List Value}
    (hfirst : row .storing index entry old new) (hrest : rows .storing index entry olds news) :
    rows .storing index entry (old :: olds) (new :: news) := by
  rw [rows]
  exact ⟨⟨old, List.mem_singleton.mpr rfl, hfirst⟩, hrest⟩

theorem blocks_storing_cons {old new : Value} {olds news : List Value}
    (hfirst : block .storing index old new) (hrest : blocks .storing index olds news) :
    blocks .storing index (old :: olds) (new :: news) := by
  rw [blocks]
  exact ⟨⟨old, List.mem_singleton.mpr rfl, hfirst⟩, hrest⟩

/-- Rows without envelopes that are the same rows. -/
theorem blocks_unread : ∀ {items : List Value}, (∀ v ∈ items, NoEnvelope v) →
    blocks .storing index items items
  | [], _ => by
    rw [blocks]
    exact .inr rfl
  | v :: rest, h => by
    have hfirst : NoEnvelope v := h v (List.mem_cons_self ..)
    refine blocks_storing_cons ?_ (blocks_unread fun w hw => h w (List.mem_cons_of_mem _ hw))
    cases v with
    | object members =>
      rw [block]
      refine ⟨members, rfl, ?_⟩
      rw [BlockMeta.ofMembers?_eq_none hfirst]
    | _ => simp [block]

/-! ## Edits -/

/-- An edited repeater has rows that were made of its rows, in any order. -/
theorem rows_edit_iff {entry : IndexEntry} {olds news : List Value} :
    rows .edit index entry olds news ↔
      ∀ new ∈ news, ∃ old ∈ olds, row .edit index entry old new := by
  induction news with
  | nil =>
    rw [rows]
    exact ⟨fun _ _ hmem => absurd hmem List.not_mem_nil, fun _ => .inl rfl⟩
  | cons new rest ih =>
    rw [rows, List.forall_mem_cons]
    exact and_congr Iff.rfl ih

/-- An edited collection has blocks that were made of its blocks, in any order. -/
theorem blocks_edit_iff {olds news : List Value} :
    blocks .edit index olds news ↔ ∀ new ∈ news, ∃ old ∈ olds, block .edit index old new := by
  induction news with
  | nil =>
    rw [blocks]
    exact ⟨fun _ _ hmem => absurd hmem List.not_mem_nil, fun _ => .inl rfl⟩
  | cons new rest ih =>
    rw [blocks, List.forall_mem_cons]
    exact and_congr Iff.rfl ih

/-- An edited block has the envelope that it had. -/
theorem get?_metaKey_edit {variant : String} :
    ∀ {olds news : List (String × Value)}, blockMembers .edit index variant olds news →
      Entries.get? metaKey news = Entries.get? metaKey olds
  | olds, [], h => by
    rw [blockMembers] at h
    rw [h]
  | olds, (name, new) :: rest, h => by
    rw [blockMembers] at h
    obtain ⟨old, olds', rfl, hmember, hrest⟩ := h
    rw [Entries.get?, Entries.get?, get?_metaKey_edit hrest]
    by_cases hname : name = metaKey
    · rw [hname] at hmember
      rw [show new = old from blockMember_meta.mp hmember]
    · rw [if_neg hname, if_neg hname]

/-! ## Nothing edited -/

theorem fields_self {parent : String} {group : Option FieldGroup}
    {members : List (String × Value)}
    (h : ∀ e ∈ members, ∀ entry, value .edit index entry e.2 e.2) :
    fields .edit index parent group members members := by
  have hmap : fields .edit index parent group members (members.map fun e => (e.1, e.2)) :=
    fields_map fun e he => by
      cases index.child? parent group e.1 with
      | none => rfl
      | some entry => exact h e he entry
  rwa [List.map_id'] at hmap

theorem blockMember_self {variant name : String} {v : Value}
    (hbelow : ∀ w, sizeOf w < sizeOf v → ∀ entry, value .edit index entry w w) :
    blockMember .edit index variant name v v := by
  by_cases hmeta : name = metaKey
  · rw [hmeta]
    exact blockMember_meta.mpr rfl
  cases hgroup : FieldGroup.ofName? name with
  | none => exact blockMember_same hmeta hgroup
  | some group =>
    cases v with
    | object inner =>
      rw [blockMember, if_neg hmeta, hgroup]
      exact ⟨inner, rfl, fields_self fun e he => hbelow e.2 (Value.sizeOf_member he)⟩
    | _ => simp [blockMember, hmeta]

theorem block_self_of {v : Value}
    (hbelow : ∀ w, sizeOf w < sizeOf v → ∀ entry, value .edit index entry w w) :
    block .edit index v v := by
  cases v with
  | object members =>
    rw [block]
    refine ⟨members, rfl, ?_⟩
    cases hmeta : BlockMeta.ofMembers? members with
    | none => rfl
    | some m =>
      have hmap : blockMembers .edit index m.key members (members.map fun e => (e.1, e.2)) :=
        blockMembers_map fun e he => blockMember_self fun w hw =>
          hbelow w (Nat.lt_trans hw (Value.sizeOf_member he))
      rwa [List.map_id'] at hmap
  | _ => simp [block]

theorem value_self (v : Value) : ∀ entry, value .edit index entry v v := by
  induction v using Value.below_induction with
  | h v ih =>
    intro entry
    cases hshape : entry.node.shape with
    | leaf kind => exact (value_leaf hshape).mpr (.inl rfl)
    | collection =>
      cases v with
      | array items =>
        rw [value, hshape]
        exact ⟨items, rfl, blocks_edit_iff.mpr fun item hitem => ⟨item, hitem, block_self_of
          fun w hw => ih w (Nat.lt_trans hw (Value.sizeOf_item hitem))⟩⟩
      | _ => simp only [value, hshape]
    | rows =>
      cases v with
      | array items =>
        rw [value, hshape]
        refine ⟨items, rfl, rows_edit_iff.mpr fun item hitem => ⟨item, hitem, ?_⟩⟩
        cases item with
        | object members =>
          rw [row]
          exact ⟨members, rfl, fields_self fun e he =>
            ih e.2 (Nat.lt_trans (Value.sizeOf_member he) (Value.sizeOf_item hitem))⟩
        | _ => simp only [row]
      | _ => simp only [value, hshape]
    | fields =>
      cases v with
      | object members =>
        rw [value, hshape]
        exact ⟨members, rfl, fields_self fun e he => ih e.2 (Value.sizeOf_member he)⟩
      | _ => simp only [value, hshape]
    | bare => cases v <;> simp only [value, hshape]

/-- To leave a block as it is, is an edit. -/
theorem block_self (v : Value) : block .edit index v v :=
  block_self_of fun w _ => value_self w

/-! ## One field edited -/

/-- A block with another value for a field of one of its groups. -/
def withField (group : FieldGroup) (name : String) (new : Value) : Value → Value
  | .object members => .object (members.map fun e =>
    (e.1, match e.2 with
      | .object inner =>
        if e.1 = group.name then
          .object (inner.map fun f => (f.1, if f.1 = name then new else f.2))
        else .object inner
      | v => v))
  | v => v

/-- To give a leaf of a block a normal value is an edit. -/
theorem block_withField {m : BlockMeta} {group : FieldGroup} {name : String} {entry : IndexEntry}
    {kind : FieldKind} {new v : Value} (hmeta : BlockMeta.ofData? v = some m)
    (hchild : index.child? m.key (some group) name = some entry)
    (hshape : entry.node.shape = .leaf kind) (hnormal : normalise .none kind new = new) :
    block .edit index v (withField group name new v) := by
  cases v with
  | object members =>
    have hmeta : BlockMeta.ofMembers? members = some m := hmeta
    rw [withField, block]
    refine ⟨members, rfl, ?_⟩
    rw [hmeta]
    refine blockMembers_map fun e he => ?_
    have hself : blockMember .edit index m.key e.1 e.2 e.2 :=
      blockMember_self fun w _ => value_self w
    obtain ⟨key, u⟩ := e
    cases u with
    | object inner =>
      by_cases hkey : key = group.name
      · subst hkey
        dsimp only
        rw [if_pos rfl, blockMember, if_neg group.name_ne_metaKey, FieldGroup.ofName?_name]
        refine ⟨inner, rfl, fields_map fun f hf => ?_⟩
        by_cases hname : f.1 = name
        · rw [hname, hchild, if_pos rfl]
          exact (value_leaf hshape).mpr (.inr hnormal)
        · rw [if_neg hname]
          cases index.child? m.key (some group) f.1 with
          | none => rfl
          | some sub => exact value_self f.2 sub
      · dsimp only
        rw [if_neg hkey]
        exact hself
    | _ => exact hself
  | _ => cases hmeta

/-! ## Edits of proper data -/

variable {layout : String}

/-- What is shown here of a value: as an edit of a proper value it is proper. -/
def StaysProper (index : FlatIndex) (layout : String) (new : Value) : Prop :=
  ∀ {entry : IndexEntry} {old : Value}, value .edit index entry old new →
    Proper.value index layout entry old → Proper.value index layout entry new

theorem fields_proper {parent : String} {group : Option FieldGroup} :
    ∀ {olds news : List (String × Value)}, (∀ e ∈ news, StaysProper index layout e.2) →
      fields .edit index parent group olds news →
      Proper.fields index layout parent group olds → Proper.fields index layout parent group news
  | _, [], _, _, _ => by
    rw [Proper.fields]
    trivial
  | _, (name, new) :: rest, hnews, h, hproper => by
    rw [fields] at h
    obtain ⟨old, olds, rfl, hfirst, hrest⟩ := h
    rw [Proper.fields] at hproper ⊢
    refine ⟨?_, fields_proper (fun e he => hnews e (List.mem_cons_of_mem _ he)) hrest hproper.2⟩
    have hold := hproper.1
    cases hchild : index.child? parent group name with
    | none =>
      rw [hchild] at hold
      exact hold
    | some entry =>
      rw [hchild] at hold hfirst
      exact hnews (name, new) (List.mem_cons_self ..) hfirst hold

theorem blockMember_proper {variant name : String} {old new : Value}
    (hbelow : ∀ w, sizeOf w < sizeOf new → StaysProper index layout w)
    (h : blockMember .edit index variant name old new)
    (hproper : Proper.blockMember index layout variant name old) :
    Proper.blockMember index layout variant name new := by
  by_cases hname : name = metaKey
  · rw [hname]
    exact Proper.blockMember_meta
  cases new with
  | object news =>
    rw [blockMember, if_neg hname] at h
    cases hgroup : FieldGroup.ofName? name with
    | none =>
      rw [hgroup] at h
      exact h ▸ hproper
    | some group =>
      rw [hgroup] at h
      obtain ⟨olds, rfl, hfields⟩ := h
      rw [Proper.blockMember] at hproper ⊢
      have hkeys := fields_keys hfields
      rcases hproper with hmeta | ⟨hnone, -, -⟩ | ⟨group', hgroup', hne, hsorted, hnames, hinner⟩
      · exact absurd hmeta hname
      · rw [hgroup] at hnone
        cases hnone
      · obtain rfl := Option.some.inj (hgroup.symm.trans hgroup')
        refine .inr (.inr ⟨group, hgroup, ?_, hsorted.of_keys hkeys, fun e he => ?_,
          fields_proper (fun e he => hbelow e.2 (Value.sizeOf_member he)) hfields hinner⟩)
        · intro hempty
          rw [hempty, List.map_nil, eq_comm, List.map_eq_nil_iff] at hkeys
          exact hne hkeys
        · have hkey : e.1 ∈ olds.map (·.1) := hkeys ▸ List.mem_map_of_mem he
          obtain ⟨e', he', hsame⟩ := List.mem_map.mp hkey
          rw [← hsame]
          exact hnames e' he'
  | _ =>
    simp only [blockMember, if_neg hname] at h
    exact h ▸ hproper

theorem blockMembers_proper {variant : String} :
    ∀ {olds news : List (String × Value)},
      (∀ e ∈ news, ∀ w, sizeOf w < sizeOf e.2 → StaysProper index layout w) →
      blockMembers .edit index variant olds news →
      Proper.blockMembers index layout variant olds →
      Proper.blockMembers index layout variant news
  | _, [], _, _, _ => by
    rw [Proper.blockMembers]
    trivial
  | _, (name, new) :: rest, hnews, h, hproper => by
    rw [blockMembers] at h
    obtain ⟨old, olds, rfl, hfirst, hrest⟩ := h
    rw [Proper.blockMembers] at hproper ⊢
    exact ⟨blockMember_proper (hnews (name, new) (List.mem_cons_self ..)) hfirst hproper.1,
      blockMembers_proper (fun e he => hnews e (List.mem_cons_of_mem _ he)) hrest hproper.2⟩

theorem block_proper {collection : String} {old new : Value}
    (hbelow : ∀ w, sizeOf w < sizeOf new → StaysProper index layout w)
    (h : block .edit index old new) (hproper : Proper.block index layout collection old) :
    Proper.block index layout collection new := by
  cases new with
  | object news =>
    rw [block] at h
    obtain ⟨olds, rfl, h⟩ := h
    cases hmeta : BlockMeta.ofMembers? olds with
    | none =>
      rw [hmeta] at h
      exact h ▸ hproper
    | some m =>
      rw [hmeta] at h
      rw [Proper.block, hmeta] at hproper
      obtain ⟨hsorted, hwritten, henvelope, hmembers⟩ := hproper
      have hsame : BlockMeta.ofMembers? news = some m := by
        rw [← hmeta]
        unfold BlockMeta.ofMembers?
        rw [get?_metaKey_edit h]
      rw [Proper.block, hsame]
      refine ⟨hsorted.of_keys (blockMembers_keys h), ?_, henvelope, blockMembers_proper
        (fun e he w hw => hbelow w (Nat.lt_trans hw (Value.sizeOf_member he))) h hmembers⟩
      rw [get?_metaKey_edit h]
      exact hwritten
  | _ =>
    simp only [block] at h
    exact h ▸ hproper

theorem blocks_proper {collection : String} {olds news : List Value}
    (hbelow : ∀ new ∈ news, ∀ w, sizeOf w < sizeOf new → StaysProper index layout w)
    (h : blocks .edit index olds news) (hproper : Proper.blocks index layout collection olds) :
    Proper.blocks index layout collection news := by
  refine Proper.blocks_iff.mpr fun new hnew => ?_
  obtain ⟨old, hold, hblock⟩ := blocks_edit_iff.mp h new hnew
  exact block_proper (hbelow new hnew) hblock (Proper.blocks_iff.mp hproper old hold)

/-- An edit of a proper value is proper. -/
theorem value_proper (new : Value) : StaysProper index layout new := by
  induction new using Value.below_induction with
  | h new ih =>
    intro entry old h hproper
    cases hshape : entry.node.shape with
    | leaf kind =>
      rw [value_leaf hshape] at h
      rw [Proper.value_leaf hshape] at hproper ⊢
      rcases h with rfl | hnormal
      · exact hproper
      · exact hnormal
    | collection =>
      cases new with
      | array news =>
        rw [value, hshape] at h
        obtain ⟨olds, rfl, h⟩ := h
        rw [Proper.value, hshape] at hproper ⊢
        exact blocks_proper (fun new hnew w hw =>
          ih w (Nat.lt_trans hw (Value.sizeOf_item hnew))) h hproper
      | _ => simp only [hshape, Proper.value]
    | rows =>
      cases new with
      | array news =>
        rw [value, hshape] at h
        obtain ⟨olds, rfl, h⟩ := h
        rw [Proper.value, hshape] at hproper ⊢
        refine Proper.rows_iff.mpr fun members hmembers => ?_
        obtain ⟨old, hold, hrow⟩ := rows_edit_iff.mp h _ hmembers
        rw [row] at hrow
        obtain ⟨inner, rfl, hfields⟩ := hrow
        obtain ⟨hsorted, hinner⟩ := Proper.rows_iff.mp hproper inner hold
        have hitem := Value.sizeOf_item hmembers
        exact ⟨hsorted.of_keys (fields_keys hfields), fields_proper
          (fun e he => ih e.2 (Nat.lt_trans (Value.sizeOf_member he) hitem)) hfields hinner⟩
      | _ => simp only [hshape, Proper.value]
    | fields =>
      cases new with
      | object news =>
        rw [value, hshape] at h
        obtain ⟨olds, rfl, hfields⟩ := h
        rw [Proper.value, hshape] at hproper ⊢
        exact ⟨hproper.1.of_keys (fields_keys hfields), fields_proper
          (fun e he => ih e.2 (Value.sizeOf_member he)) hfields hproper.2⟩
      | _ => simp only [hshape, Proper.value]
    | bare => cases new <;> simp only [hshape, Proper.value]

/-- An edit of proper blocks of a layout is proper. -/
theorem ofLayout_proper {olds news : List Value} (h : blocks .edit index olds news)
    (hproper : Proper.ofLayout index layout olds) : Proper.ofLayout index layout news := by
  unfold Proper.ofLayout at hproper ⊢
  cases hlayout : index.layoutKey layout with
  | some collection =>
    rw [hlayout] at hproper
    exact blocks_proper (fun _ _ w _ => value_proper w) h hproper
  | none =>
    rw [hlayout] at hproper
    intro new hnew
    obtain ⟨old, hold, hblock⟩ := blocks_edit_iff.mp h new hnew
    have hnone := hproper old hold
    cases new with
    | object news =>
      rw [block] at hblock
      obtain ⟨olds, rfl, hblock⟩ := hblock
      rw [BlockMeta.ofMembers?_eq_none hnone] at hblock
      exact hblock ▸ hnone
    | _ => trivial

end Changed

end PageBlocks
