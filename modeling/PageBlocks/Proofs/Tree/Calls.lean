import Mathlib.Data.List.Chain
import PageBlocks.Proofs.Tree.Described

/-!
# The calls of the compiler

Compiling a collection compiles blocks, which compiles fields, which compiles
sub-fields and further collections. Which calls a call makes is decided by
names, not by anything that gets smaller, so filters may send it round in
circles. What ends it is that a block is never offered inside itself.

A `Call` is one of the three with all that it depends on, `Call.next` are the
calls that it makes, and `body` is what it does, given what these give.

> `height_lt_of_calls`: a call makes only calls of lesser height, which is
> measured by the blocks that are not yet around it and by the nesting of its
> field;
>
> `chain_last`: the blocks that a chain of calls enters stand around its last;
>
> `within_eq`: with fuel for its height a call gives what the compiler gives;
>
> `compilation_ends`: the three for a registry.
-/

namespace PageBlocks

/-! ## How deep sub-fields nest -/

mutual
/-- How deep sub-fields nest in a field, itself included. -/
def Field.nesting : Field → Nat
  | ⟨_, _, subFields⟩ => Field.deepest subFields + 1

/-- How deep sub-fields nest in any of some fields. -/
def Field.deepest : List Field → Nat
  | [] => 0
  | f :: fs => max f.nesting (Field.deepest fs)
end

theorem Field.nesting_le_deepest {f : Field} :
    ∀ {fs : List Field}, f ∈ fs → f.nesting ≤ Field.deepest fs
  | [], h => absurd h List.not_mem_nil
  | g :: gs, h => by
    rw [Field.deepest]
    rcases List.mem_cons.mp h with rfl | h
    · exact Nat.le_max_left ..
    · exact le_trans (nesting_le_deepest h) (Nat.le_max_right ..)

/-- How deep sub-fields nest in the declared fields of any block. -/
def Registry.nesting (registry : Registry) : Nat :=
  Field.deepest (registry.blocks.values.flatMap fun b => FieldGroup.all.flatMap b.fields.get)

/-- A row that takes in a collection has a field in a field, however plain it was declared. -/
theorem Compile.nesting_withCollection (row : Field) :
    (withCollection row).nesting ≤ max row.nesting 2 := by
  unfold withCollection
  split
  · exact Nat.le_max_left ..
  · obtain ⟨name, attributes, subFields⟩ := row
    simp only [Field.nesting, Field.deepest, Field.simple]
    omega

/-- The fields that are compiled for a block nest as the declared ones do, or in a row template. -/
theorem Compile.nesting_le_of_groups {registry : Registry} {b : Entity}
    (hb : b ∈ registry.blocks.values) :
    ∀ g ∈ groups registry.settings b, ∀ f ∈ g.2, f.nesting ≤ max registry.nesting 2 := by
  refine groups_forall (fun f _ _ _ _ hplain => ?_) (fun row hrow => ?_) fun g f hf => ?_
  · obtain ⟨name, attributes, subFields⟩ := f
    obtain rfl : subFields = [] := hplain
    simp only [Field.nesting, Field.deepest]
    omega
  · have := nesting_withCollection row
    omega
  · have hmem : f ∈ registry.blocks.values.flatMap fun b => FieldGroup.all.flatMap b.fields.get :=
      List.mem_flatMap.mpr ⟨b, hb, List.mem_flatMap.mpr ⟨g, by cases g <;> decide, hf⟩⟩
    exact le_trans (Field.nesting_le_deepest hmem) (Nat.le_max_left ..)

namespace Compile

/-! ## Calls and what they make -/

/-- A call of the recursion that compiles what is inside a layout. -/
inductive Call where
  /-- Fills a collection. -/
  | variants (site : Site) (filter : NameFilter) (path : KeyPath) (key : String)
  /-- Compiles a block as a variant. -/
  | block (site : Site) (collection : Option String) (path : KeyPath) (b : Entity)
  /-- Compiles a field or a sub-field. -/
  | field (site : Site) (owner : Entity) (group : FieldGroup) (siblings : List Sibling)
      (path : KeyPath) (parent : String) (f : Field)

namespace Call

/-- What a call makes. -/
abbrev Made : Call → Type
  | .variants .. => List (String × BlockNode)
  | .block .. => BlockNode
  | .field .. => FieldNode

/-- The block that a call enters. -/
def entered? : Call → Option Entity
  | .block _ _ _ b => some b
  | _ => none

/-- Names of the blocks that a call stands in, its own included. -/
def enclosing : Call → List String
  | .variants site .. => site.enclosing
  | .block site _ _ b => (site.nested b).enclosing
  | .field site .. => site.enclosing

/-- The calls that a call makes, unless it fails before it comes to them. -/
def next (registry : Registry) : Call → List Call
  | .variants site filter path key =>
    match site.layout, site.parent with
    | some _, some parent =>
      ((registry.candidates filter).filter fun c => (refusal? parent site.enclosing c).isNone).map
        fun c => .block site (some key) (path.child c.name) c
    | _, _ => []
  | .block site _ path b =>
    let members := groups registry.settings b
    let siblings := members.flatMap fun (group, fields) =>
      Sibling.ofFields group (path.child group.name) fields
    members.flatMap fun (group, fields) =>
      fields.map (.field (site.nested b) b group siblings (path.child group.name)
        (path.encode .block))
  | .field site owner group _ path _ ⟨name, attributes, subFields⟩ =>
    let own := path.child name
    match FieldKind.ofName? attributes.type with
    | none => []
    | some kind =>
      if kind.isBlockCollection then
        [.variants site (attributes.blocks.getD owner.children) own (own.encode .field)]
      else if kind.hasSubFields then
        subFields.map (.field site owner group (Sibling.ofFields group own subFields) own
          (own.encode .field))
      else []

/-- The call that fills the collection of a layout. -/
def ofLayout (registry : Registry) (l : Entity) : Call :=
  let path := ((root registry).child "layouts").child l.name
  .variants (.inLayout l) l.children path (path.encode .field)

end Call

/-- One call makes another. -/
def Calls (registry : Registry) (c d : Call) : Prop := d ∈ c.next registry

/-! ## Calls with fuel -/

/-- A compilation that gives up when it runs out of fuel. -/
abbrev Fuelled := OptionT Compilation

/-- The nodes of one group, behind its tab, given what its fields are compiled to. -/
def groupBody (make : Field → Fuelled FieldNode) (site : Site) (b : Entity) (path : KeyPath)
    (key : String) (group : FieldGroup) (members : List Field) : Fuelled (List FieldNode) := do
  if members.isEmpty then return []
  if group = .content then return pinned b members (← members.mapM make)
  else do
    let marker ← OptionT.lift (tab site b group path key)
    return marker :: (← members.mapM make)

/-- What a call does, given what the calls that it makes give. -/
def body (registry : Registry) (call : (d : Call) → Fuelled d.Made) :
    (c : Call) → Fuelled c.Made
  | .variants site filter path key =>
    match site.layout, site.parent with
    | some _, some parent => do
      OptionT.lift (Compilation.noteAll ((registry.unknownNames filter).map .skippedChild))
      let found ← (registry.candidates filter).mapM fun candidate =>
        match refusal? parent site.enclosing candidate with
        | some notice => do
          OptionT.lift (Compilation.noteAll [notice])
          return []
        | none => do
          let node ← call (.block site (some key) (path.child candidate.name) candidate)
          return [(node.key, node)]
      return Entries.ofList found.flatten
    | _, _ => OptionT.lift (throw (.missingLayoutContext path.joined))
  | .block site collection path b => do
    let key := path.encode .block
    let members := groups registry.settings b
    OptionT.lift (members.forM fun (group, fields) =>
      ExceptT.mk (pure (checkUnique b.name group.name (takenNames group fields))))
    let siblings := members.flatMap fun (group, fields) =>
      Sibling.ofFields group (path.child group.name) fields
    let nodes ← members.mapM fun (group, fields) =>
      groupBody (fun f =>
          call (.field (site.nested b) b group siblings (path.child group.name) key f))
        (site.nested b) b path key group fields
    OptionT.lift (Compilation.register (blockEntry site collection path b))
    return ⟨key, b.name, b.label, b.display, nodes.flatten, "", ""⟩
  | .field site owner group siblings path parent ⟨name, attributes, subFields⟩ => do
    let kind ← OptionT.lift <|
      match FieldKind.ofName? attributes.type with
      | some kind => pure kind
      | none => throw (.unknownFieldType owner.name name attributes.type)
    let own := path.child name
    let key := own.encode .field
    OptionT.lift (Compilation.noteAll (FieldNode.optionNotices name attributes))
    let logic ← OptionT.lift (ExceptT.mk (pure (Condition.resolve owner.name name siblings group
      attributes.condition)))
    let layouts ←
      if kind.isBlockCollection then
        call (.variants site (attributes.blocks.getD owner.children) own key)
      else pure []
    let rows ←
      if kind.hasSubFields then do
        OptionT.lift (ExceptT.mk (pure (checkUnique owner.name (group.name ++ "." ++ name)
          (subFields.map (·.name)))))
        subFields.mapM fun f =>
          call (.field site owner group (Sibling.ofFields group own subFields) own key f)
      else pure []
    let node : FieldNode :=
      { FieldNode.ofAttributes kind key name attributes with
        logic := logic, subFields := rows, layouts := layouts }
    OptionT.lift (Compilation.register
      (fieldEntry node owner.ref (some group) (some parent) site.layoutName))
    return node

/-- A call in which calls are made inside one another up to a depth, its own included. -/
def within (registry : Registry) : Nat → (c : Call) → Fuelled c.Made
  | 0, _ => failure
  | fuel + 1, c => body registry (within registry fuel) c

/-- A layout, with calls up to a depth. -/
def layoutWithin (registry : Registry) (fuel : Nat) (l : Entity) : Fuelled FieldNode := do
  let key := (((root registry).child "layouts").child l.name).encode .field
  let slug := layoutSlug registry l
  let variants ← within registry fuel (.ofLayout registry l)
  OptionT.lift (Compilation.register {
    key := key
    name := slug
    entity := l.ref
    group := none
    node := .layout
    parent := none
    layout := some l.name
    isBoundary := true
    returnFormat := none })
  return {
    FieldNode.plain .flexibleContent key slug l.label with
    instructions := l.instructions
    options := FieldKind.flexibleContent.defaultOptions.insert "button_label"
      (.string l.buttonLabel)
    layouts := variants }

/-- The field group of a registry, with calls up to a depth. -/
def fieldGroupWithin (registry : Registry) (fuel : Nat) : Fuelled FieldGroupNode := do
  let settings := registry.settings
  let builder : EntityRef := { type := .builder, name := settings.name }
  OptionT.lift (Compilation.register (fieldEntry (enabledField registry) builder none none none))
  let layouts ← registry.layouts.values.mapM (layoutWithin registry fuel)
  OptionT.lift (Compilation.register (fieldEntry (selectField registry) builder none none none))
  return .ofPostTypes ((root registry).encode .group) settings.label settings.description
    (enabledField registry :: selectField registry :: layouts.map (selected registry))
    settings.postTypes

/-- What the compiler itself does in a call. -/
def compiled (registry : Registry) : (c : Call) → Compilation c.Made
  | .variants site filter path key =>
    variants registry (registry.blocks.size - site.enclosing.length) site filter path key
  | .block site collection path b =>
    block registry.settings
      (variants registry (registry.blocks.size - (site.nested b).enclosing.length)) site
      collection path b
  | .field site owner group siblings path parent f =>
    field (variants registry (registry.blocks.size - site.enclosing.length)) site owner group
      siblings path parent f

/-! ## Bounds -/

/-- How many calls of a chain may stand in the same blocks. The compiler's own row templates hold
two fields, one in the other. -/
def rounds (nesting : Nat) : Nat := max nesting 2 + 2

/-- How deep calls nest, by the number of blocks and by how deep sub-fields nest in them. -/
def callLimit (blocks nesting : Nat) : Nat := blocks * rounds nesting + 1

/-- How deep calls nest in a call. -/
def Call.height (registry : Registry) : Call → Nat
  | .variants site .. =>
    callLimit (registry.blocks.size - site.enclosing.length) registry.nesting
  | .block site _ _ b =>
    callLimit (registry.blocks.size - (site.nested b).enclosing.length) registry.nesting +
      max registry.nesting 2 + 1
  | .field site _ _ _ _ _ f =>
    callLimit (registry.blocks.size - site.enclosing.length) registry.nesting + f.nesting

theorem Call.height_pos (registry : Registry) (c : Call) : 0 < c.height registry := by
  cases c <;> simp only [Call.height, callLimit] <;> omega

/-! ## What a call makes, one step -/

section Step

variable {registry : Registry}

/-- The blocks around a call are blocks of the registry, none of them twice. -/
structure Call.Sound (registry : Registry) (c : Call) : Prop where
  nodup : c.enclosing.Nodup
  known : ∀ name ∈ c.enclosing, name ∈ registry.blocks.values.map (·.name)
  entered : ∀ b, c.entered? = some b → b ∈ registry.blocks.values

theorem ofLayout_sound (l : Entity) : (Call.ofLayout registry l).Sound registry where
  nodup := List.nodup_nil
  known := fun _ h => absurd h List.not_mem_nil
  entered := fun _ h => nomatch h

/-- Different names of blocks are no more than there are blocks. -/
theorem length_le_size {names : List String} (hnodup : names.Nodup)
    (hknown : ∀ name ∈ names, name ∈ registry.blocks.values.map (·.name)) :
    names.length ≤ registry.blocks.size := by
  have hle := (List.subperm_of_subset hnodup hknown).length_le
  rwa [List.length_map, Dict.values, List.length_map] at hle

/-- What a filter selects are registered blocks. -/
theorem mem_values_of_candidates {filter : NameFilter} {b : Entity}
    (h : b ∈ registry.candidates filter) : b ∈ registry.blocks.values := by
  unfold Registry.candidates at h
  split at h
  · obtain ⟨name, -, hget⟩ := List.mem_filterMap.mp h
    exact Dict.mem_values_iff.mpr ⟨name, hget⟩
  · exact (List.mem_filter.mp h).1
  · exact (List.mem_filter.mp h).1

/-- The calls that a call makes, by what is called. -/
theorem calls_cases {c d : Call} (h : Calls registry c d) :
    (∃ site filter path key parent b, c = .variants site filter path key ∧
      b ∈ registry.candidates filter ∧ refusal? parent site.enclosing b = none ∧
      d = .block site (some key) (path.child b.name) b) ∨
    (∃ site collection path b group siblings f, c = .block site collection path b ∧
      (∃ fields, (group, fields) ∈ groups registry.settings b ∧ f ∈ fields) ∧
      d = .field (site.nested b) b group siblings (path.child group.name) (path.encode .block) f) ∨
    (∃ site owner group siblings path parent f, c = .field site owner group siblings path parent f ∧
      ((∃ filter, d = .variants site filter (path.child f.name)
          ((path.child f.name).encode .field)) ∨
        ∃ g ∈ f.subFields, d = .field site owner group
          (Sibling.ofFields group (path.child f.name) f.subFields) (path.child f.name)
          ((path.child f.name).encode .field) g)) := by
  unfold Calls at h
  cases c with
  | variants site filter path key =>
    left
    rw [Call.next] at h
    split at h
    next parent _ _ =>
      obtain ⟨b, hb, rfl⟩ := List.mem_map.mp h
      obtain ⟨hb, hoffered⟩ := List.mem_filter.mp hb
      exact ⟨site, filter, path, key, parent, b, rfl, hb, Option.isNone_iff_eq_none.mp hoffered, rfl⟩
    next => exact absurd h List.not_mem_nil
  | block site collection path b =>
    right; left
    rw [Call.next] at h
    obtain ⟨⟨group, fields⟩, hg, hd⟩ := List.mem_flatMap.mp h
    obtain ⟨f, hf, rfl⟩ := List.mem_map.mp hd
    exact ⟨site, collection, path, b, group, _, f, rfl, ⟨fields, hg, hf⟩, rfl⟩
  | field site owner group siblings path parent f =>
    right; right
    obtain ⟨name, attributes, subFields⟩ := f
    refine ⟨site, owner, group, siblings, path, parent, _, rfl, ?_⟩
    rw [Call.next] at h
    split at h
    next => exact absurd h List.not_mem_nil
    next =>
      split at h
      next => exact Or.inl ⟨_, List.mem_singleton.mp h⟩
      next =>
        split at h
        next =>
          obtain ⟨g, hg, rfl⟩ := List.mem_map.mp h
          exact Or.inr ⟨g, hg, rfl⟩
        next => exact absurd h List.not_mem_nil

/-- A call stands in the blocks of the call that makes it, and in the one that it enters. -/
theorem calls_enclosing {c d : Call} (h : Calls registry c d) :
    d.enclosing = c.enclosing ++ (d.entered?.map (·.name)).toList := by
  rcases calls_cases h with ⟨site, filter, path, key, parent, b, rfl, -, -, rfl⟩ |
    ⟨site, collection, path, b, group, siblings, f, rfl, -, rfl⟩ |
    ⟨site, owner, group, siblings, path, parent, f, rfl, ⟨filter, rfl⟩ | ⟨g, -, rfl⟩⟩
  · rfl
  all_goals exact (List.append_nil _).symm

theorem calls_sound {c d : Call} (hc : c.Sound registry) (h : Calls registry c d) :
    d.Sound registry := by
  have henclosing := calls_enclosing h
  rcases calls_cases h with ⟨site, filter, path, key, parent, b, rfl, hb, hoffered, rfl⟩ |
    ⟨site, collection, path, b, group, siblings, f, rfl, -, rfl⟩ |
    ⟨site, owner, group, siblings, path, parent, f, rfl, ⟨filter, rfl⟩ | ⟨g, -, rfl⟩⟩
  · have hvalues := mem_values_of_candidates hb
    constructor
    · exact nodup_of_offered hc.nodup hoffered
    · intro name hname
      rcases List.mem_append.mp hname with hname | hname
      · exact hc.known name hname
      · rw [List.mem_singleton.mp hname]
        exact List.mem_map_of_mem hvalues
    · rintro _ ⟨⟩
      exact hvalues
  all_goals exact ⟨hc.nodup, hc.known, fun _ h => nomatch h⟩

/-- A call makes only calls in which calls nest less deep. -/
theorem height_lt_of_calls {c d : Call} (hc : c.Sound registry) (h : Calls registry c d) :
    d.height registry < c.height registry := by
  have hd := calls_sound hc h
  rcases calls_cases h with ⟨site, filter, path, key, parent, b, rfl, -, -, rfl⟩ |
    ⟨site, collection, path, b, group, siblings, f, rfl, ⟨fields, hg, hf⟩, rfl⟩ |
    ⟨site, owner, group, siblings, path, parent, f, rfl, ⟨filter, rfl⟩ | ⟨g, hg, rfl⟩⟩
  · have hroom : (site.nested b).enclosing.length ≤ registry.blocks.size :=
      length_le_size hd.nodup hd.known
    have hlength : (site.nested b).enclosing.length = site.enclosing.length + 1 :=
      List.length_append
    have hone : registry.blocks.size - site.enclosing.length =
        registry.blocks.size - (site.nested b).enclosing.length + 1 := by omega
    simp only [Call.height, callLimit, hone, Nat.add_mul, rounds]
    omega
  · have := nesting_le_of_groups (hc.entered b rfl) _ hg f hf
    simp only [Call.height]
    omega
  · obtain ⟨name, attributes, subFields⟩ := f
    simp only [Call.height, Field.nesting]
    omega
  · obtain ⟨name, attributes, subFields⟩ := f
    have hle : g.nesting ≤ Field.deepest subFields := Field.nesting_le_deepest hg
    simp only [Call.height, Field.nesting]
    omega

/-! ## What a call does, given what it calls -/

theorem mapM_congr {m : Type → Type} [Monad m] [LawfulMonad m] {α β : Type} {f g : α → m β} :
    ∀ {as : List α}, (∀ a ∈ as, f a = g a) → as.mapM f = as.mapM g
  | [], _ => by rw [List.mapM_nil, List.mapM_nil]
  | a :: as, h => by
    rw [List.mapM_cons, List.mapM_cons, h a (List.mem_cons_self ..),
      mapM_congr fun b hb => h b (List.mem_cons_of_mem _ hb)]

/-- What comes after an error does not happen. -/
theorem lift_throw_bind {α β : Type} {e : Error} {f : α → Fuelled β} :
    (OptionT.lift (throw e : Compilation α) >>= f) = OptionT.lift (throw e) := rfl

theorem lift_mapM {α β : Type} {f : α → Compilation β} :
    ∀ {as : List α}, (OptionT.lift (as.mapM f) : Fuelled (List β)) =
      as.mapM fun a => OptionT.lift (f a)
  | [] => by rw [List.mapM_nil, List.mapM_nil, OptionT.lift_pure]
  | a :: as => by
    have hrest : (OptionT.lift (as.mapM f) : Fuelled (List β)) =
        as.mapM fun a => OptionT.lift (f a) := lift_mapM
    simp only [List.mapM_cons, OptionT.lift_bind, OptionT.lift_pure, hrest]

theorem groupBody_congr {make make' : Field → Fuelled FieldNode} {site : Site} {b : Entity}
    {path : KeyPath} {key : String} {group : FieldGroup} {members : List Field}
    (h : ∀ f ∈ members, make f = make' f) :
    groupBody make site b path key group members = groupBody make' site b path key group members := by
  unfold groupBody
  rw [mapM_congr h]

/-- What a call does depends on nothing but the calls that it makes. -/
theorem body_congr {call call' : (d : Call) → Fuelled d.Made} {c : Call}
    (h : ∀ d, Calls registry c d → call d = call' d) :
    body registry call c = body registry call' c := by
  unfold Calls at h
  cases c with
  | variants site filter path key =>
    rw [Call.next] at h
    rw [body, body]
    split
    next parent hlayout hparent =>
      rw [hlayout, hparent] at h
      refine congrArg _ (funext fun _ => congrArg (· >>= _) (mapM_congr fun b hb => ?_))
      cases hrefusal : refusal? parent site.enclosing b with
      | some notice => rfl
      | none =>
        rw [h _ (List.mem_map_of_mem (List.mem_filter.mpr
          ⟨hb, Option.isNone_iff_eq_none.mpr hrefusal⟩))]
    next => rfl
  | block site collection path b =>
    rw [Call.next] at h
    rw [body, body]
    refine congrArg _ (funext fun _ => congrArg (· >>= _) (mapM_congr ?_))
    rintro ⟨group, fields⟩ hg
    exact groupBody_congr fun f hf =>
      h _ (List.mem_flatMap.mpr ⟨_, hg, List.mem_map_of_mem hf⟩)
  | field site owner group siblings path parent f =>
    obtain ⟨name, attributes, subFields⟩ := f
    rw [Call.next] at h
    rw [body, body]
    cases hkind : FieldKind.ofName? attributes.type with
    | none => rw [lift_throw_bind, lift_throw_bind]
    | some kind =>
      rw [hkind] at h
      dsimp only at h ⊢
      rw [OptionT.lift_pure, pure_bind, pure_bind]
      refine congrArg _ (funext fun _ => congrArg _ (funext fun logic => ?_))
      cases hcollection : kind.isBlockCollection with
      | true =>
        obtain rfl := eq_flexibleContent hcollection
        rw [hcollection] at h
        rw [if_pos rfl, if_pos rfl, h _ (List.mem_singleton_self _)]
        rfl
      | false =>
        rw [hcollection, if_neg Bool.false_ne_true] at h
        simp only [Bool.false_eq_true, if_false, pure_bind]
        by_cases hrows : kind.hasSubFields = true
        · rw [if_pos hrows] at h
          rw [if_pos hrows, if_pos hrows]
          exact congrArg _ (funext fun _ => congrArg (· >>= _)
            (mapM_congr fun f hf => h _ (List.mem_map_of_mem hf)))
        · rw [if_neg hrows, if_neg hrows]

theorem fields_eq_mapM {fill : Filling} {site : Site} {owner : Entity} {group : FieldGroup}
    {siblings : List Sibling} {path : KeyPath} {parent : String} :
    ∀ {fs : List Field}, fields fill site owner group siblings path parent fs =
      fs.mapM (field fill site owner group siblings path parent)
  | [] => by rw [fields, List.mapM_nil]
  | f :: fs => by rw [fields, List.mapM_cons, fields_eq_mapM]

theorem groupBody_lift {fill : Filling} {site : Site} {b : Entity} {path : KeyPath} {key : String}
    {siblings : List Sibling} {group : FieldGroup} {members : List Field} :
    groupBody (fun f => OptionT.lift (field fill site b group siblings (path.child group.name) key f))
        site b path key group members =
      OptionT.lift (groupNodes fill site b path key siblings group members) := by
  unfold groupBody groupNodes
  split
  · rw [OptionT.lift_pure]
  · dsimp only
    rw [fields_eq_mapM]
    split <;> simp only [OptionT.lift_bind, OptionT.lift_pure, lift_mapM]

theorem body_variants {call : (d : Call) → Fuelled d.Made} {site : Site} {filter : NameFilter}
    {path : KeyPath} {key : String}
    {make : Site → Option String → KeyPath → Entity → Compilation BlockNode}
    (h : ∀ b, Calls registry (.variants site filter path key)
        (.block site (some key) (path.child b.name) b) →
      call (.block site (some key) (path.child b.name) b) =
        OptionT.lift (make site (some key) (path.child b.name) b)) :
    body registry call (.variants site filter path key) =
      OptionT.lift (offered registry make site filter path key) := by
  simp only [Calls, Call.next] at h
  rw [body, offered]
  cases hlayout : site.layout with
  | none => rfl
  | some l =>
    cases hparent : site.parent with
    | none => rfl
    | some parent =>
      rw [hlayout, hparent] at h
      simp only [OptionT.lift_bind, OptionT.lift_pure, lift_mapM]
      refine congrArg _ (funext fun _ => congrArg (· >>= _) (mapM_congr fun b hb => ?_))
      unfold variant
      cases hrefusal : refusal? parent site.enclosing b with
      | some notice => simp only [OptionT.lift_bind, OptionT.lift_pure]
      | none =>
        simp only [OptionT.lift_bind, OptionT.lift_pure]
        rw [h b (List.mem_map_of_mem (List.mem_filter.mpr
          ⟨hb, Option.isNone_iff_eq_none.mpr hrefusal⟩))]

/-- The compiler does in a call what the call does, given that the compiler does what it calls. -/
theorem body_compiled {c : Call} (hc : c.Sound registry) :
    body registry (fun d => OptionT.lift (compiled registry d)) c =
      OptionT.lift (compiled registry c) := by
  cases c with
  | variants site filter path key =>
    have hone : ∀ b : Entity, registry.blocks.size - (site.nested b).enclosing.length =
        registry.blocks.size - site.enclosing.length - 1 := fun b => by
      rw [Site.nested, List.length_append, List.length_singleton, Nat.sub_sub]
    rw [compiled]
    cases hcount : registry.blocks.size - site.enclosing.length with
    | zero =>
      rw [variants]
      refine body_variants fun b hcalls => ?_
      have hroom : (site.nested b).enclosing.length ≤ registry.blocks.size :=
        have hsound := calls_sound hc hcalls
        length_le_size hsound.nodup hsound.known
      rw [Site.nested, List.length_append, List.length_singleton] at hroom
      omega
    | succ count =>
      rw [variants]
      refine body_variants fun b _ => ?_
      rw [compiled, hone, hcount]
      rfl
  | block site collection path b =>
    rw [body, compiled, block]
    simp only [OptionT.lift_bind, OptionT.lift_pure, lift_mapM, compiled, groupBody_lift]
    rfl
  | field site owner group siblings path parent f =>
    obtain ⟨name, attributes, subFields⟩ := f
    rw [body, compiled, field]
    cases hkind : FieldKind.ofName? attributes.type with
    | none => simp only [OptionT.lift_bind, lift_throw_bind]
    | some kind =>
      simp only [OptionT.lift_bind, OptionT.lift_pure, pure_bind, compiled, fields_eq_mapM]
      refine congrArg _ (funext fun _ => congrArg _ (funext fun logic => ?_))
      cases kind.isBlockCollection <;> cases kind.hasSubFields <;>
        simp only [Bool.false_eq_true, if_true, if_false, OptionT.lift_bind, OptionT.lift_pure,
          lift_mapM]

/-- With as much fuel as calls nest deep in it, a call does what the compiler does. -/
theorem within_eq : ∀ {fuel : Nat} {c : Call}, c.Sound registry → c.height registry ≤ fuel →
    within registry fuel c = OptionT.lift (compiled registry c)
  | 0, c, _, hfuel => by
    have := c.height_pos registry
    omega
  | fuel + 1, c, hc, hfuel => by
    rw [within, ← body_compiled hc]
    refine body_congr fun d hd => within_eq (calls_sound hc hd) ?_
    exact Nat.le_of_lt_succ (lt_of_lt_of_le (height_lt_of_calls hc hd) hfuel)

end Step

/-! ## Chains of calls -/

section Chains

variable {registry : Registry}

/-- The last call of a chain stands in the blocks that the chain entered, and calls nest less deep
in it by the length of the chain. -/
theorem chain_last : ∀ {c : Call} {calls : List Call}, c.Sound registry →
    List.IsChain (Calls registry) (c :: calls) →
      ∃ d : Call, d.Sound registry ∧
        d.enclosing = c.enclosing ++ (calls.filterMap Call.entered?).map (·.name) ∧
        d.height registry + calls.length ≤ c.height registry
  | c, [], hc, _ => ⟨c, hc, (List.append_nil _).symm, le_refl _⟩
  | c, d :: calls, hc, hchain => by
    obtain ⟨hcalls, hrest⟩ := List.isChain_cons_cons.mp hchain
    obtain ⟨e, he, henclosing, hheight⟩ := chain_last (calls_sound hc hcalls) hrest
    refine ⟨e, he, ?_, ?_⟩
    · rw [henclosing, calls_enclosing hcalls, List.append_assoc]
      cases hentered : d.entered? with
      | none => rw [List.filterMap_cons_none hentered]; rfl
      | some b => rw [List.filterMap_cons_some hentered]; rfl
    · have hlt := height_lt_of_calls hc hcalls
      rw [List.length_cons]
      omega

/-- All blocks that a chain enters are registered. -/
theorem chain_entered : ∀ {c : Call} {calls : List Call}, c.Sound registry →
    List.IsChain (Calls registry) (c :: calls) →
      ∀ b ∈ calls.filterMap Call.entered?, b ∈ registry.blocks.values
  | _, [], _, _, _, h => absurd h List.not_mem_nil
  | c, d :: calls, hc, hchain, b, hb => by
    obtain ⟨hcalls, hrest⟩ := List.isChain_cons_cons.mp hchain
    have hd := calls_sound hc hcalls
    obtain ⟨e, he, hentered⟩ := List.mem_filterMap.mp hb
    rcases List.mem_cons.mp he with rfl | he
    · exact hd.entered b hentered
    · exact chain_entered hd hrest b (List.mem_filterMap.mpr ⟨e, he, hentered⟩)

end Chains

/-! ## Compilation ends -/

theorem layoutWithin_eq {registry : Registry} {fuel : Nat}
    (hfuel : callLimit registry.blocks.size registry.nesting ≤ fuel) (l : Entity) :
    layoutWithin registry fuel l =
      OptionT.lift (layout registry ((root registry).child "layouts") l) := by
  unfold layoutWithin layout
  rw [within_eq (ofLayout_sound l) hfuel]
  simp only [OptionT.lift_bind, OptionT.lift_pure]
  rfl

/-- However the filters of a registry send the compiler round, it ends. On a chain of calls inside a
layout no block is entered twice, so no more blocks nest than are registered, and the chain is
shorter than a limit that depends on nothing but the number of blocks and the nesting of
sub-fields. A compiler that counts its calls does not run out under that limit. -/
theorem compilation_ends (registry : Registry) :
    (∀ l ∈ registry.layouts.values, ∀ calls : List Call,
      List.IsChain (Calls registry) (.ofLayout registry l :: calls) →
        ((calls.filterMap Call.entered?).map (·.name)).Nodup ∧
        (∀ b ∈ calls.filterMap Call.entered?, b ∈ registry.blocks.values) ∧
        (calls.filterMap Call.entered?).length ≤ registry.blocks.size ∧
        calls.length < callLimit registry.blocks.size registry.nesting) ∧
    ∀ fuel, callLimit registry.blocks.size registry.nesting ≤ fuel →
      fieldGroupWithin registry fuel = OptionT.lift (fieldGroup registry) := by
  constructor
  · intro l _ calls hchain
    have hstart : (Call.ofLayout registry l).Sound registry := ofLayout_sound l
    obtain ⟨d, hd, henclosing, hheight⟩ := chain_last hstart hchain
    have hnames : d.enclosing = (calls.filterMap Call.entered?).map (·.name) := henclosing
    refine ⟨hnames ▸ hd.nodup, chain_entered hstart hchain, ?_, ?_⟩
    · have hle := length_le_size hd.nodup hd.known
      rwa [hnames, List.length_map] at hle
    · have hlimit : (Call.ofLayout registry l).height registry =
          callLimit registry.blocks.size registry.nesting := rfl
      have hpos := d.height_pos registry
      omega
  · intro fuel hfuel
    unfold fieldGroupWithin fieldGroup
    rw [funext (layoutWithin_eq hfuel)]
    simp only [OptionT.lift_bind, OptionT.lift_pure, lift_mapM]

/-- Boxes and frames, which may hold each other. -/
def ringDefinitions : Definitions :=
  { settings := { coreFields := false }
    blocks := .ofList [("box", { kind := .container }), ("frame", { kind := .container })]
    layouts := .ofList [("page", {})] }

def ringRegistry : Registry := (Registry.build ringDefinitions .empty).result

/-- The chain that goes on with the first call of every call. -/
def Call.firsts (registry : Registry) : Nat → Call → List Call
  | 0, _ => []
  | count + 1, c =>
    match (c.next registry).head? with
    | none => []
    | some d => d :: d.firsts registry count

theorem firsts_chain {registry : Registry} : ∀ (count : Nat) (c : Call),
    List.IsChain (Calls registry) (c :: c.firsts registry count)
  | 0, _ => List.isChain_singleton _
  | count + 1, c => by
    unfold Call.firsts
    split
    next => exact List.isChain_singleton _
    next d hhead =>
      exact List.isChain_cons_cons.mpr ⟨List.mem_of_head? hhead, firsts_chain count d⟩

/-- Compiling boxes and frames, the first chain enters a box and in it a frame, and stops there. -/
theorem rings_end : ∃ l ∈ ringRegistry.layouts.values,
    ((((Call.ofLayout ringRegistry l).firsts ringRegistry 100).filterMap Call.entered?).map
      (·.name)) = ["box", "frame"] ∧
    ((Call.ofLayout ringRegistry l).firsts ringRegistry 100).length < callLimit 2 1 ∧
    fieldGroupWithin ringRegistry (callLimit 2 1) = OptionT.lift (fieldGroup ringRegistry) := by
  have hnames : ∃ l ∈ ringRegistry.layouts.values,
      ((((Call.ofLayout ringRegistry l).firsts ringRegistry 100).filterMap Call.entered?).map
        (·.name)) = ["box", "frame"] := by
    decide +kernel
  have hlimit : callLimit ringRegistry.blocks.size ringRegistry.nesting ≤ callLimit 2 1 := by
    decide +kernel
  obtain ⟨l, hl, hnames⟩ := hnames
  have hchains := compilation_ends ringRegistry
  have hlength := (hchains.1 l hl _ (firsts_chain 100 _)).2.2.2
  exact ⟨l, hl, hnames, lt_of_lt_of_le hlength hlimit, hchains.2 _ hlimit⟩

end Compile

end PageBlocks
