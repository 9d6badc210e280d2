import PageBlocks.Proofs.Tree.Coherent

/-!
# What a tag stands for

A stored row names its variant by a tag, the name of a block or the id of the
variant. The index resolves a tag with nothing but slots and parents, and knows
nothing of the tree. That the two agree has two halves:

> `Stocked`: in a walk over a tree, the variants below a collection are exactly
> those that the collection lists;
>
> `tags_resolve`: so a tag resolves to the variant of that name in the
> collection, else to the variant with that id, else to nothing.
-/

namespace PageBlocks

open Attempt

/-! ## Collections and the variants below them -/

/-- Every variant among some positions is listed by the collection that it stands in, unless it is
a loose one, and every listed variant of a registered block stands in its collection. -/
structure Stocked (registry : Registry) (loose : String → BlockNode → Prop)
    (positions : List Position) : Prop where
  listed : ∀ p ∈ positions, ∀ n, p.node = .block n → ∀ collection, p.parent = some collection →
    loose collection n ∨
      ∃ q ∈ positions, ∃ m, q.node = .field m ∧ m.key = collection ∧ ∃ v ∈ m.layouts, v.2 = n
  placed : ∀ q ∈ positions, ∀ c, q.collection? = some c → ∀ v ∈ c.variants, ∀ b,
    registry.block? v.2.name = some b →
    ∃ p ∈ positions, p.node = .block v.2 ∧ p.parent = some q.id

namespace Stocked

variable {registry : Registry} {loose loose' : String → BlockNode → Prop}
  {ps ps' : List Position}

theorem nil : Stocked registry loose [] where
  listed := fun _ h => absurd h List.not_mem_nil
  placed := fun _ h => absurd h List.not_mem_nil

theorem mono (h : Stocked registry loose ps)
    (hloose : ∀ collection n, loose collection n → loose' collection n) :
    Stocked registry loose' ps := by
  refine ⟨fun p hp n hn collection hparent => ?_, h.placed⟩
  rcases h.listed p hp n hn collection hparent with hloose' | hlisted
  · exact Or.inl (hloose collection n hloose')
  · exact Or.inr hlisted

theorem of_closed (h : Stocked registry (fun _ _ => False) ps) : Stocked registry loose ps :=
  h.mono fun _ _ => False.elim

theorem append (h : Stocked registry loose ps) (h' : Stocked registry loose ps') :
    Stocked registry loose (ps ++ ps') := by
  constructor
  · intro p hp n hn collection hparent
    rcases List.mem_append.mp hp with hp | hp
    · rcases h.listed p hp n hn collection hparent with hloose | ⟨q, hq, hlists⟩
      · exact Or.inl hloose
      · exact Or.inr ⟨q, List.mem_append_left _ hq, hlists⟩
    · rcases h'.listed p hp n hn collection hparent with hloose | ⟨q, hq, hlists⟩
      · exact Or.inl hloose
      · exact Or.inr ⟨q, List.mem_append_right _ hq, hlists⟩
  · intro q hq c hc v hv b hb
    rcases List.mem_append.mp hq with hq | hq
    · obtain ⟨p, hp, hplaced⟩ := h.placed q hq c hc v hv b hb
      exact ⟨p, List.mem_append_left _ hp, hplaced⟩
    · obtain ⟨p, hp, hplaced⟩ := h'.placed q hq c hc v hv b hb
      exact ⟨p, List.mem_append_right _ hp, hplaced⟩

/-- A node that is no collection, on top of what stands below it. -/
theorem cons {p : Position} (hcollection : p.collection? = none)
    (hloose : ∀ n collection, p.node = .block n → p.parent = some collection →
      loose collection n)
    (h : Stocked registry loose ps) : Stocked registry loose (p :: ps) := by
  constructor
  · intro p' hp' n hn collection hparent
    rcases List.mem_cons.mp hp' with rfl | hp'
    · exact Or.inl (hloose n collection hn hparent)
    · rcases h.listed p' hp' n hn collection hparent with hloose | ⟨q, hq, hlists⟩
      · exact Or.inl hloose
      · exact Or.inr ⟨q, List.mem_cons_of_mem _ hq, hlists⟩
  · intro q hq c hc v hv b hb
    rcases List.mem_cons.mp hq with rfl | hq
    · rw [hcollection] at hc
      cases hc
    · obtain ⟨p', hp', hplaced⟩ := h.placed q hq c hc v hv b hb
      exact ⟨p', List.mem_cons_of_mem _ hp', hplaced⟩

/-- A node of a field on top of the variants that it lists, which are no longer loose. -/
theorem collect {q : Position} {node : FieldNode} (hnode : q.node = .field node)
    (hvariants : ∀ c, q.collection? = some c → c.variants = node.layouts)
    (hplaced : ∀ v ∈ node.layouts, ∀ b, registry.block? v.2.name = some b →
      ∃ p ∈ ps, p.node = .block v.2 ∧ p.parent = some node.key)
    (h : Stocked registry (fun collection n => collection = node.key ∧ ∃ v ∈ node.layouts, v.2 = n)
      ps) : Stocked registry loose (q :: ps) := by
  constructor
  · intro p hp n hn collection hparent
    rcases List.mem_cons.mp hp with rfl | hp
    · rw [hnode] at hn
      cases hn
    · rcases h.listed p hp n hn collection hparent with ⟨rfl, hlists⟩ | ⟨q', hq', hlists⟩
      · exact Or.inr ⟨q, List.mem_cons_self .., node, hnode, rfl, hlists⟩
      · exact Or.inr ⟨q', List.mem_cons_of_mem _ hq', hlists⟩
  · intro q' hq' c hc v hv b hb
    rcases List.mem_cons.mp hq' with rfl | hq'
    · rw [hvariants c hc] at hv
      obtain ⟨p, hp, hblock, hparent⟩ := hplaced v hv b hb
      refine ⟨p, List.mem_cons_of_mem _ hp, hblock, ?_⟩
      rw [hparent, Position.id, hnode, TreeNode.id]
    · obtain ⟨p, hp, hplaced⟩ := h.placed q' hq' c hc v hv b hb
      exact ⟨p, List.mem_cons_of_mem _ hp, hplaced⟩

end Stocked

section Walk

variable (registry : Registry)

/-- The variant of a registered block is at the top of its own positions. -/
theorem variant_mem_positions {spot : Spot} {path : KeyPath} {collection : String} {b : Entity}
    {v : String × BlockNode} (hb : registry.block? v.2.name = some b) :
    ∀ {variants : List (String × BlockNode)}, v ∈ variants →
      .variant spot (path.child v.2.name) collection b v.2 ∈
        variantPositions registry spot path collection variants := by
  intro variants hv
  rw [variantPositions_eq_flatMap]
  refine List.mem_flatMap.mpr ⟨v, hv, ?_⟩
  rw [blockPositions_eq registry spot path collection hb]
  exact List.mem_cons_self ..

mutual
theorem fieldPositions_stocked (spot : Spot) (path : KeyPath) (parent : String)
    (group : FieldGroup) (f : Field) :
    ∀ node : FieldNode, Stocked registry (fun _ _ => False)
      (fieldPositions registry spot path parent group f node)
  | ⟨key, label, name, kind, instructions, required, logic, wrapper, options, subFields,
      layouts⟩ => by
    rw [fieldPositions_eq]
    have hinner := slotPositions_stocked spot key (Slot.ofRow path group f.subFields) subFields
    refine Stocked.collect rfl ?_ (fun v hv b hb => ?_)
      (hinner.of_closed.append (variantPositions_stocked spot path key layouts))
    · intro c hc
      rw [Position.collection?] at hc
      obtain ⟨-, hfound⟩ := Option.ite_none_right_eq_some.mp hc
      cases hfound
      rfl
    · exact ⟨_, List.mem_append_right _ (variant_mem_positions registry hb hv), rfl, rfl⟩

theorem slotPositions_stocked (spot : Spot) (parent : String) :
    ∀ (slots : List Slot) (nodes : List FieldNode), Stocked registry (fun _ _ => False)
      (slotPositions registry spot parent slots nodes)
  | slots, [] => by
    rw [slotPositions_nil]
    exact Stocked.nil
  | [], node :: nodes => by
    simp only [slotPositions]
    exact Stocked.nil
  | .tab path group :: slots, node :: nodes => by
    rw [slotPositions]
    exact Stocked.cons rfl (fun _ _ hnode => nomatch hnode)
      (slotPositions_stocked spot parent slots nodes)
  | .field path group f :: slots, node :: nodes => by
    rw [slotPositions]
    exact (fieldPositions_stocked spot path parent group f node).append
      (slotPositions_stocked spot parent slots nodes)

/-- The variants of a collection are loose as long as the collection is not among the positions. -/
theorem variantPositions_stocked (spot : Spot) (path : KeyPath) :
    ∀ (collection : String) (variants : List (String × BlockNode)),
      Stocked registry (fun c n => c = collection ∧ ∃ v ∈ variants, v.2 = n)
        (variantPositions registry spot path collection variants)
  | _, [] => by
    rw [variantPositions]
    exact Stocked.nil
  | collection, (id, node) :: rest => by
    rw [variantPositions]
    refine Stocked.append ?_ ?_
    · refine (blockPositions_stocked spot path collection node).mono ?_
      rintro c n ⟨rfl, rfl⟩
      exact ⟨rfl, (id, node), List.mem_cons_self .., rfl⟩
    · refine (variantPositions_stocked spot path collection rest).mono ?_
      rintro c n ⟨rfl, v, hv, rfl⟩
      exact ⟨rfl, v, List.mem_cons_of_mem _ hv, rfl⟩

theorem blockPositions_stocked (spot : Spot) (path : KeyPath) (collection : String) :
    ∀ node : BlockNode, Stocked registry (fun c n => c = collection ∧ node = n)
      (blockPositions registry spot path collection node)
  | ⟨key, name, label, display, subFields, min, max⟩ => by
    rw [blockPositions]
    split
    next => exact Stocked.nil
    next b hb =>
      refine Stocked.cons rfl ?_ ?_
      · intro n c hnode hparent
        cases hnode
        cases hparent
        exact ⟨rfl, rfl⟩
      · exact (slotPositions_stocked (spot.enter b) key _ subFields).of_closed
end

theorem layoutPositions_stocked (path : KeyPath) :
    ∀ (ls : List Entity) (nodes : List FieldNode), Stocked registry (fun _ _ => False)
      (layoutPositions registry path ls nodes)
  | [], nodes => by
    simp only [layoutPositions]
    exact Stocked.nil
  | l :: ls, [] => by
    simp only [layoutPositions]
    exact Stocked.nil
  | l :: ls, node :: nodes => by
    rw [layoutPositions]
    refine Stocked.append (Stocked.collect rfl ?_ (fun v hv b hb => ?_)
      (variantPositions_stocked registry _ _ node.key node.layouts))
      (layoutPositions_stocked path ls nodes)
    · intro c hc
      cases hc
      rfl
    · exact ⟨_, variant_mem_positions registry hb hv, rfl, rfl⟩

/-- In a field group the variants below a collection are those that it lists. -/
theorem FieldGroupNode.stocked (group : FieldGroupNode) :
    Stocked registry (fun _ _ => False) (group.positions registry) := by
  unfold FieldGroupNode.positions
  dsimp only
  split
  next =>
    exact Stocked.cons rfl (fun _ _ hnode => nomatch hnode)
      (Stocked.cons rfl (fun _ _ hnode => nomatch hnode)
        (layoutPositions_stocked registry _ _ _))
  next => exact Stocked.nil

end Walk

/-! ## Variants in the index -/

/-- A node that holds blocks is at a collection, which offers what it lists. -/
theorem Position.Sound.collection_of_kind {registry : Registry} {p : Position} {node : FieldNode}
    (h : p.Sound registry) (hnode : p.node = .field node)
    (hkind : node.kind.isBlockCollection = true) :
    ∃ c, p.collection? = some c ∧ c.variants = node.layouts ∧
      Offers registry c.spot c.filter c.variants := by
  cases h with
  | control _ hcontrol =>
    cases hnode
    rcases hcontrol with hno | hno <;> rw [hno] at hkind <;> exact absurd hkind (by decide)
  | layout _ _ _ _ hoffers =>
    cases hnode
    exact ⟨_, rfl, rfl, hoffers⟩
  | variant => cases hnode
  | tab _ _ htab =>
    cases hnode
    rw [htab] at hkind
    exact absurd hkind (by decide)
  | field _ _ _ _ _ hoffers =>
    cases hnode
    exact ⟨_, if_pos hkind, rfl, hoffers hkind⟩

namespace CompiledSchema.Follows

variable {registry : Registry} {schema : CompiledSchema} {node : FieldNode}

/-- What stands directly below a collection is a variant that it lists. -/
theorem listed_of_parent (h : schema.Follows registry)
    (hnode : .field node ∈ schema.group.nodes) (hkind : node.kind.isBlockCollection = true)
    {p : Position} (hp : p ∈ schema.group.positions registry)
    (hparent : p.parent = some node.key) :
    p.group = none ∧ ∃ v ∈ node.layouts, p.node = .block v.2 := by
  rw [← h.nodes, List.mem_map] at hnode
  obtain ⟨q, hq, hqnode⟩ := hnode
  have hqid : q.id = node.key := by rw [Position.id, hqnode, TreeNode.id]
  obtain ⟨q', hq', hchild, hqid'⟩ := h.exists_parent hp hparent
  obtain rfl := h.eq_of_id hq hq' (hqid.trans hqid'.symm)
  -- Below a collection there are only variants, and a variant is listed where it stands.
  have hvariant : p.group = none ∧ ∃ n, p.node = .block n := by
    cases hchild with
    | ofLayout => exact ⟨rfl, _, rfl⟩
    | ofCollection => exact ⟨rfl, _, rfl⟩
    | tab => cases hqnode
    | ofBlock => cases hqnode
    | ofRow hrows =>
      cases hqnode
      exact absurd hkind (Compile.not_collection_of_hasSubFields hrows)
  obtain ⟨hgroup, n, hn⟩ := hvariant
  refine ⟨hgroup, ?_⟩
  rcases (schema.group.stocked registry).listed p hp n hn _ hparent with
    hloose | ⟨q', hq', m, hm, hkey, v, hv, rfl⟩
  · exact hloose.elim
  · have hid : q'.id = q.id := by rw [Position.id, hm, TreeNode.id, hkey, hqid]
    obtain rfl := h.eq_of_id hq' hq hid
    obtain rfl : m = node := TreeNode.field.inj (hm.symm.trans hqnode)
    exact ⟨v, hv, hn⟩

/-- A variant that a collection lists is indexed below it. -/
theorem lookup_of_listed (h : schema.Follows registry)
    (hnode : .field node ∈ schema.group.nodes) (hkind : node.kind.isBlockCollection = true)
    {v : String × BlockNode} (hv : v ∈ node.layouts) :
    v.1 = v.2.key ∧ ∃ e, schema.index.lookup v.1 = some e ∧ e.node = .block ∧
      e.name = v.2.name ∧ e.group = none ∧ e.parent = some node.key := by
  rw [← h.nodes, List.mem_map] at hnode
  obtain ⟨q, hq, hqnode⟩ := hnode
  obtain ⟨c, hc, hvariants, hoffers⟩ := (h.sound q hq).collection_of_kind hqnode hkind
  rw [hvariants] at hoffers
  obtain ⟨b, hb, -⟩ := (hoffers.exact v.2.name).mp (List.mem_map_of_mem hv)
  obtain ⟨p, hp, hpnode, hparent⟩ :=
    (schema.group.stocked registry).placed q hq c hc v (hvariants ▸ hv) b hb
  have hkey : v.1 = v.2.key := hoffers.keyed v hv
  have hpid : p.id = v.1 := by rw [Position.id, hpnode, TreeNode.id, hkey]
  have hqid : q.id = node.key := by rw [Position.id, hqnode, TreeNode.id]
  refine ⟨hkey, p.entry, h.lookup_iff.mpr ⟨p, hp, hpid, rfl⟩, ?_⟩
  cases p with
  | variant =>
    cases hpnode
    exact ⟨rfl, rfl, rfl, hparent.trans (congrArg some hqid)⟩
  | _ => cases hpnode

/-- A collection lists no two variants of one name. -/
theorem listed_nodup (h : schema.Follows registry) (hnode : .field node ∈ schema.group.nodes)
    (hkind : node.kind.isBlockCollection = true) : (node.layouts.map (·.2.name)).Nodup := by
  rw [← h.nodes, List.mem_map] at hnode
  obtain ⟨q, hq, hqnode⟩ := hnode
  obtain ⟨c, -, hvariants, hoffers⟩ := (h.sound q hq).collection_of_kind hqnode hkind
  exact hvariants ▸ hoffers.once

/-- A tag that names a variant of a collection is found in its slot, and no other tag is. -/
theorem child?_listed (h : schema.Follows registry) (hnode : .field node ∈ schema.group.nodes)
    (hkind : node.kind.isBlockCollection = true) (tag : String) :
    schema.index.child? node.key none tag =
      (node.layouts.find? fun v => v.2.name == tag).bind fun v => schema.index.lookup v.1 := by
  have hindex := h.coherent
  cases hfound : node.layouts.find? fun v => v.2.name == tag with
  | some v =>
    have hmatch := List.find?_some hfound
    have hname : v.2.name = tag := beq_iff_eq.mp hmatch
    obtain ⟨-, e, he, -, hename, hgroup, hparent⟩ :=
      h.lookup_of_listed hnode hkind (List.mem_of_find?_eq_some hfound)
    have hkey : schema.index.childKey node.key none tag = some v.1 := by
      refine hindex.childKey_iff.mpr ⟨e, he, hparent, ?_⟩
      rw [hgroup, hename, hname]
    unfold FlatIndex.child?
    rw [hkey]
    rfl
  | none =>
    refine hindex.child?_eq_none.mpr (Option.eq_none_iff_forall_ne_some.mpr fun id hkey => ?_)
    obtain ⟨p, hp, -, hparent, hslot⟩ := h.childKey_iff.mp hkey
    obtain ⟨hgroup, v, hv, hpnode⟩ := h.listed_of_parent hnode hkind hp hparent
    rw [hgroup, hpnode] at hslot
    have hname : v.2.name = tag := hslot
    exact List.find?_eq_none.mp hfound v hv (beq_iff_eq.mpr hname)

/-- An id of a variant of a collection is found below it, and no other id is. -/
theorem childEntry?_listed (h : schema.Follows registry)
    (hnode : .field node ∈ schema.group.nodes) (hkind : node.kind.isBlockCollection = true)
    (tag : String) :
    schema.index.childEntry? node.key tag =
      (node.layouts.find? fun v => v.1 == tag).bind fun v => schema.index.lookup v.1 := by
  cases hfound : node.layouts.find? fun v => v.1 == tag with
  | some v =>
    have hmatch := List.find?_some hfound
    have hid : v.1 = tag := beq_iff_eq.mp hmatch
    obtain ⟨-, e, he, -, -, -, hparent⟩ :=
      h.lookup_of_listed hnode hkind (List.mem_of_find?_eq_some hfound)
    show _ = schema.index.lookup v.1
    rw [he]
    exact FlatIndex.childEntry?_iff.mpr ⟨hid ▸ he, hparent⟩
  | none =>
    refine Option.eq_none_iff_forall_ne_some.mpr fun e hchild => ?_
    obtain ⟨hid, hparent⟩ := FlatIndex.childEntry?_iff.mp hchild
    obtain ⟨p, hp, hpid, rfl⟩ := h.lookup_iff.mp hid
    obtain ⟨-, v, hv, hpnode⟩ := h.listed_of_parent hnode hkind hp hparent
    obtain ⟨hkey, -⟩ := h.lookup_of_listed hnode hkind hv
    have htag : v.1 = tag := by rw [hkey, ← hpid, Position.id, hpnode, TreeNode.id]
    exact List.find?_eq_none.mp hfound v hv (beq_iff_eq.mpr htag)

end CompiledSchema.Follows

/-! ## Tags -/

/-- The variant that a tag stands for in a collection: the one of that name, else the one with that
id. -/
def FieldNode.variantOf? (collection : FieldNode) (tag : String) : Option (String × BlockNode) :=
  (collection.layouts.find? fun v => v.2.name == tag) <|>
    collection.layouts.find? fun v => v.1 == tag

theorem FieldNode.mem_of_variantOf? {collection : FieldNode} {tag : String}
    {v : String × BlockNode} (h : collection.variantOf? tag = some v) :
    v ∈ collection.layouts := by
  unfold variantOf? at h
  rw [Option.orElse_eq_orElse, Option.orElse_eq_or] at h
  rcases Option.or_eq_some_iff.mp h with hname | ⟨-, hid⟩
  · exact List.mem_of_find?_eq_some hname
  · exact List.mem_of_find?_eq_some hid

/-- In every collection of a compiled tree a tag resolves to the entry of the variant that it stands
for there. Every variant has an entry, of its own name and below its own collection, so a tag never
resolves to a block of another collection. -/
theorem tags_resolve {definitions : Definitions} {resources : Resources} {registry : Registry}
    {now : Instant} {schema : CompiledSchema} {collection : FieldNode}
    (hbuilt : Gives (Registry.build definitions resources) registry)
    (hcompiled : Gives (compile registry now) schema)
    (hnode : .field collection ∈ schema.group.nodes)
    (hkind : collection.kind.isBlockCollection = true) :
    (collection.layouts.map (·.2.name)).Nodup ∧
      (∀ v ∈ collection.layouts, v.1 = v.2.key ∧ ∃ e, schema.index.lookup v.1 = some e ∧
        e.key = v.1 ∧ e.node = .block ∧ e.name = v.2.name ∧ e.parent = some collection.key) ∧
      (∀ tag, schema.index.resolveVariant collection.key tag =
        (collection.variantOf? tag).bind fun v => schema.index.lookup v.1) ∧
      ∀ tag e, schema.index.resolveVariant collection.key tag = some e →
        e.parent = some collection.key := by
  have h := compile_follows hbuilt hcompiled
  have hentry : ∀ v ∈ collection.layouts, ∃ e, schema.index.lookup v.1 = some e ∧
      e.node = .block ∧ e.name = v.2.name ∧ e.parent = some collection.key := by
    intro v hv
    obtain ⟨-, e, he, hblock, hname, -, hparent⟩ := h.lookup_of_listed hnode hkind hv
    exact ⟨e, he, hblock, hname, hparent⟩
  have hresolve : ∀ tag, schema.index.resolveVariant collection.key tag =
      (collection.variantOf? tag).bind fun v => schema.index.lookup v.1 := by
    intro tag
    unfold FlatIndex.resolveVariant
    rw [h.child?_listed hnode hkind, h.childEntry?_listed hnode hkind]
    -- Both look-ups find variants, which the filter lets through.
    have hboth : ((collection.layouts.find? fun v => v.2.name == tag).bind
          (fun v => schema.index.lookup v.1) <|>
        (collection.layouts.find? fun v => v.1 == tag).bind fun v => schema.index.lookup v.1) =
        (collection.variantOf? tag).bind fun v => schema.index.lookup v.1 := by
      unfold FieldNode.variantOf?
      cases hname : collection.layouts.find? fun v => v.2.name == tag with
      | none => rfl
      | some v =>
        obtain ⟨e, he, -⟩ := hentry v (List.mem_of_find?_eq_some hname)
        simp [he]
    rw [hboth]
    cases hvariant : collection.variantOf? tag with
    | none => rfl
    | some v =>
      obtain ⟨e, he, hblock, -⟩ := hentry v (FieldNode.mem_of_variantOf? hvariant)
      simp [he, hblock]
  refine ⟨h.listed_nodup hnode hkind, fun v hv => ?_, hresolve, fun tag e he => ?_⟩
  · obtain ⟨e, he, hblock, hname, hparent⟩ := hentry v hv
    exact ⟨(h.lookup_of_listed hnode hkind hv).1, e, he, h.coherent.key he, hblock, hname, hparent⟩
  · rw [hresolve] at he
    obtain ⟨v, hvariant, hv⟩ := Option.bind_eq_some_iff.mp he
    obtain ⟨e', he', -, -, hparent⟩ := hentry v (FieldNode.mem_of_variantOf? hvariant)
    obtain rfl := Option.some.inj (hv.symm.trans he')
    exact hparent

/-- Texts on a page, and on the shelves of a page. -/
def shelfDefinitions : Definitions :=
  { settings := { coreFields := false }
    blocks := .ofList [("shelf", { kind := .container }), ("text", {})]
    layouts := .ofList [("page", {})] }

def shelfRegistry : Registry := (Registry.build shelfDefinitions .empty).result

def shelfSchema : CompiledSchema := (compile shelfRegistry default).result

/-- Whether a node is a collection of a name in which some tag stands for a variant. -/
def TreeNode.offers (name tag : String) : TreeNode → Bool
  | .field node =>
    node.kind.isBlockCollection && node.name == name && (node.variantOf? tag).isSome
  | .block _ => false

/-- Two collections offer texts, and each has its own. -/
theorem shelf_tags : ∃ page shelf e e', page ≠ shelf ∧
    shelfSchema.index.resolveVariant page "text" = some e ∧ e.parent = some page ∧
    shelfSchema.index.resolveVariant shelf "text" = some e' ∧ e'.parent = some shelf := by
  obtain ⟨hbuilt, hcompiled, p, hp, s, hs, hpage, hshelf, hne⟩ :
      (Registry.build shelfDefinitions .empty).run.value.toOption.isSome = true ∧
        (compile shelfRegistry default).run.value.toOption.isSome = true ∧
        ∃ p ∈ shelfSchema.group.nodes, ∃ s ∈ shelfSchema.group.nodes,
          p.offers "builder_page" "text" = true ∧ s.offers "blocks" "text" = true ∧
            p.id ≠ s.id := by
    decide +kernel
  have hbuilt' : Gives (Registry.build shelfDefinitions .empty) shelfRegistry :=
    gives_result hbuilt
  have hcompiled' : Gives (compile shelfRegistry default) shelfSchema := gives_result hcompiled
  have hfound : ∀ {n : TreeNode} {name : String}, n ∈ shelfSchema.group.nodes →
      n.offers name "text" = true →
      ∃ e, shelfSchema.index.resolveVariant n.id "text" = some e ∧ e.parent = some n.id := by
    intro n name hn hoffers
    cases n with
    | block => cases hoffers
    | field node =>
      obtain ⟨hnode, htag⟩ := Bool.and_eq_true_iff.mp hoffers
      obtain ⟨hkind, -⟩ := Bool.and_eq_true_iff.mp hnode
      obtain ⟨v, hv⟩ := Option.isSome_iff_exists.mp htag
      obtain ⟨-, hentries, hresolve, hbelow⟩ :=
        tags_resolve hbuilt' hcompiled' hn hkind
      obtain ⟨-, e, he, -⟩ := hentries v (FieldNode.mem_of_variantOf? hv)
      have hresolved : shelfSchema.index.resolveVariant node.key "text" = some e := by
        rw [hresolve, hv, Option.bind_some, he]
      exact ⟨e, hresolved, hbelow "text" e hresolved⟩
  obtain ⟨e, he, hparent⟩ := hfound hp hpage
  obtain ⟨e', he', hparent'⟩ := hfound hs hshelf
  exact ⟨p.id, s.id, e, e', hne, he, hparent, he', hparent'⟩

end PageBlocks
