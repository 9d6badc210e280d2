import PageBlocks.Proofs.Stateful
import PageBlocks.Proofs.Tree.Outcome

/-!
# Blocks without a layout

A single block may be compiled where no layout is known. What is missing then
is needed by collections alone, to tell which blocks they offer. So the
compilation takes the same steps as the one in a layout and registers the same
ids, up to the first collection that it comes to, and there it fails
(`Follows`).

> `missing_layout_iff_collection`: of a block that compiles in a layout, the
> compilation without one fails at its first collection, or gives the same node
> if there is none. Compiling a registry never fails for a missing layout.

A collection counts whether it was declared or called for by the kind of block,
and however deep it stands in the rows of groups and repeaters.
-/

namespace PageBlocks

open Attempt Compilation

/-! ## Collections in a block -/

/-- A field is a collection, or a group or repeater with one in its sub-fields. -/
inductive Field.HoldsBlocks : Field → Prop
  | collection {f : Field} (htype : f.attributes.type = FieldKind.flexibleContent.name) :
      HoldsBlocks f
  | rows {f s : Field}
      (htype : f.attributes.type = FieldKind.group.name ∨
        f.attributes.type = FieldKind.repeater.name)
      (hs : s ∈ f.subFields) (h : s.HoldsBlocks) : HoldsBlocks f

/-- A block has a collection among its fields, with those that its kind calls for. -/
def Entity.HoldsBlocks (settings : Settings) (b : Entity) : Prop :=
  ∃ g ∈ Compile.groups settings b, ∃ f ∈ g.2, f.HoldsBlocks

mutual
/-- The paths of the collections in a field below a path, in order. -/
def Field.collectionPaths (path : KeyPath) : Field → List KeyPath
  | ⟨name, attributes, subFields⟩ =>
    match FieldKind.ofName? attributes.type with
    | some kind =>
      if kind.isBlockCollection then [path.child name]
      else if kind.hasSubFields then Field.allCollectionPaths (path.child name) subFields
      else []
    | none => []

def Field.allCollectionPaths (path : KeyPath) : List Field → List KeyPath
  | [] => []
  | f :: rest => f.collectionPaths path ++ Field.allCollectionPaths path rest
end

/-- The paths of the collections in a block at a path, in order. -/
def Entity.collectionPaths (settings : Settings) (path : KeyPath) (b : Entity) : List KeyPath :=
  (Compile.groups settings b).flatMap fun g => Field.allCollectionPaths (path.child g.1.name) g.2

mutual
theorem Field.collectionPaths_ne_nil {path : KeyPath} :
    ∀ {f : Field}, f.collectionPaths path ≠ [] ↔ f.HoldsBlocks
  | ⟨name, attributes, subFields⟩ => by
    rw [Field.collectionPaths]
    constructor
    · intro h
      cases hkind : FieldKind.ofName? attributes.type with
      | none =>
        rw [hkind] at h
        exact absurd rfl h
      | some kind =>
        rw [hkind] at h
        dsimp only at h
        have htype := FieldKind.ofName?_eq_some.mp hkind
        by_cases hcollection : kind.isBlockCollection = true
        · obtain rfl := Compile.eq_flexibleContent hcollection
          exact .collection htype
        · rw [if_neg hcollection] at h
          by_cases hrows : kind.hasSubFields = true
          · rw [if_pos hrows] at h
            obtain ⟨s, hs, hholds⟩ := Field.allCollectionPaths_ne_nil.mp h
            refine .rows ?_ hs hholds
            rcases FieldKind.hasSubFields_iff.mp hrows with rfl | rfl
            · exact .inl htype
            · exact .inr htype
          · rw [if_neg hrows] at h
            exact absurd rfl h
    · intro h
      cases h with
      | collection htype =>
        rw [FieldKind.ofName?_eq_some.mpr htype]
        exact List.cons_ne_nil (path.child name) []
      | rows htype hs hholds =>
        have hbelow : Field.allCollectionPaths (path.child name) subFields ≠ [] :=
          Field.allCollectionPaths_ne_nil.mpr ⟨_, hs, hholds⟩
        rcases htype with htype | htype
        · rw [FieldKind.ofName?_eq_some.mpr htype]
          exact hbelow
        · rw [FieldKind.ofName?_eq_some.mpr htype]
          exact hbelow

theorem Field.allCollectionPaths_ne_nil {path : KeyPath} :
    ∀ {fs : List Field}, Field.allCollectionPaths path fs ≠ [] ↔ ∃ f ∈ fs, f.HoldsBlocks
  | [] => by simp [Field.allCollectionPaths]
  | f :: fs => by
    rw [Field.allCollectionPaths, ne_eq, List.append_eq_nil_iff, not_and_or,
      List.exists_mem_cons_iff]
    exact or_congr Field.collectionPaths_ne_nil Field.allCollectionPaths_ne_nil
end

theorem Entity.collectionPaths_ne_nil {settings : Settings} (path : KeyPath) {b : Entity} :
    b.collectionPaths settings path ≠ [] ↔ b.HoldsBlocks settings := by
  unfold collectionPaths HoldsBlocks
  rw [ne_eq, List.flatMap_eq_nil_iff]
  push Not
  exact exists_congr fun g => and_congr_right fun _ => Field.allCollectionPaths_ne_nil

/-! ## Following a compilation -/

namespace Compilation

variable {α β : Type}

/-- Of a compilation that succeeds, another gives the same result and registers the same ids, if
there are no paths; else it stops at the first of the paths, where it finds no layout. -/
structure Follows (c' c : Compilation α) (paths : List KeyPath) : Prop where
  through : ∀ a, c.run.value = .ok a → paths = [] → c'.run.value = .ok a ∧ c'.ids = c.ids
  stops : ∀ a, c.run.value = .ok a → ∀ p ps, paths = p :: ps →
    c'.run.value = .error (.missingLayoutContext p.joined) ∧ c'.ids <+: c.ids

namespace Follows

variable {c c' : Compilation α} {f f' : α → Compilation β} {ps qs : List KeyPath}

theorem of_same (hvalue : c'.run.value = c.run.value) (hids : c'.ids = c.ids) :
    Follows c' c [] where
  through := fun _ ha _ => ⟨hvalue.trans ha, hids⟩
  stops := nofun

theorem refl (c : Compilation α) : Follows c c [] := of_same rfl rfl

theorem throw {p : KeyPath} :
    Follows (MonadExcept.throw (.missingLayoutContext p.joined)) c [p] where
  through := nofun
  stops := by
    rintro a - p' ps h
    obtain ⟨rfl, -⟩ := List.cons.inj h
    exact ⟨rfl, List.nil_prefix⟩

/-- A compilation that fails is followed by any. -/
theorem of_error {e : Error} (h : c.run.value = .error e) : Follows c' c ps where
  through := fun a ha => by
    rw [h] at ha
    cases ha
  stops := fun a ha => by
    rw [h] at ha
    cases ha

theorem bind (hc : Follows c' c ps)
    (hf : ∀ a, c.run.value = .ok a → Follows (f' a) (f a) qs) :
    Follows (c' >>= f') (c >>= f) (ps ++ qs) := by
  cases hvalue : c.run.value with
  | error e => exact of_error (bind_error hvalue).2
  | ok a =>
    obtain ⟨hids, hsame⟩ := bind_ok (f := f) hvalue
    cases ps with
    | nil =>
      obtain ⟨hvalue', hids'⟩ := hc.through a hvalue rfl
      obtain ⟨hids'', hsame'⟩ := bind_ok (f := f') hvalue'
      have hnext := hf a hvalue
      rw [List.nil_append]
      refine ⟨fun b hb hqs => ?_, fun b hb p qs' hqs => ?_⟩
      · rw [hsame] at hb
        obtain ⟨hlast, hlast'⟩ := hnext.through b hb hqs
        exact ⟨hsame'.trans hlast, by rw [hids'', hids, hids', hlast']⟩
      · rw [hsame] at hb
        obtain ⟨hlast, hlast'⟩ := hnext.stops b hb p qs' hqs
        refine ⟨hsame'.trans hlast, ?_⟩
        rw [hids'', hids, hids']
        exact (List.prefix_append_right_inj _).mpr hlast'
    | cons p ps =>
      obtain ⟨herror, hpart⟩ := hc.stops a hvalue p ps rfl
      obtain ⟨hids', hsame'⟩ := bind_error (f := f') herror
      refine ⟨nofun, fun b _ p' ps' h => ?_⟩
      obtain ⟨rfl, -⟩ := List.cons.inj h
      refine ⟨hsame', ?_⟩
      rw [hids', hids]
      exact hpart.trans (List.prefix_append ..)

/-- A step that is the same in both. -/
theorem bind_same (c : Compilation α) (hf : ∀ a, Follows (f' a) (f a) qs) :
    Follows (c >>= f') (c >>= f) qs :=
  bind (refl c) fun a _ => hf a

/-- A last step with no collection in it. -/
theorem bind_last (hc : Follows c' c ps) (hf : ∀ a, Follows (f' a) (f a) []) :
    Follows (c' >>= f') (c >>= f) ps := by
  have h := bind hc fun a _ => hf a
  rwa [List.append_nil] at h

/-- What comes after a collection is not reached. -/
theorem bind_stopped {p : KeyPath} (hc : Follows c' c [p]) :
    Follows (c' >>= f') (c >>= f) [p] := by
  refine ⟨nofun, fun b hb p' ps h => ?_⟩
  obtain ⟨rfl, -⟩ := List.cons.inj h
  cases hvalue : c.run.value with
  | error e =>
    rw [(bind_error hvalue).2] at hb
    cases hb
  | ok a =>
    obtain ⟨herror, hpart⟩ := hc.stops a hvalue p [] rfl
    obtain ⟨hids, hsame⟩ := bind_error (f := f') herror
    refine ⟨hsame, ?_⟩
    rw [hids, (bind_ok hvalue).1]
    exact hpart.trans (List.prefix_append ..)

theorem register {e e' : IndexEntry} (h : e'.key = e.key) :
    Follows (Compilation.register e') (Compilation.register e) [] :=
  of_same rfl (congrArg (· :: []) h)

theorem mapM {ι : Type} {f f' : ι → Compilation β} {paths : ι → List KeyPath} :
    ∀ {items : List ι}, (∀ i ∈ items, Follows (f' i) (f i) (paths i)) →
      Follows (items.mapM f') (items.mapM f) (items.flatMap paths)
  | [], _ => by
    rw [List.mapM_nil, List.mapM_nil]
    exact refl _
  | i :: items, hitems => by
    rw [List.mapM_cons, List.mapM_cons, List.flatMap_cons]
    have hrest := mapM fun j hj => hitems j (List.mem_cons_of_mem _ hj)
    exact bind (hitems i (List.mem_cons_self ..)) fun b _ => bind_last hrest fun bs => refl _

/-- On an empty index a compilation that follows one that succeeds does so, too, if there are no
paths. -/
theorem succeeds {a : α} (h : Follows c' c []) (hc : (c.runOn .empty).result = .ok a) :
    (c'.runOn .empty).result = .ok a := by
  obtain ⟨hvalue, hnodup⟩ := runOn_empty_ok_iff.mp hc
  obtain ⟨hvalue', hids⟩ := h.through a hvalue rfl
  exact runOn_empty_ok_iff.mpr ⟨hvalue', hids ▸ hnodup⟩

/-- If there are some, it fails at the first of them; it registered no id twice until then. -/
theorem fails {a : α} {p : KeyPath} (h : Follows c' c (p :: ps))
    (hc : (c.runOn .empty).result = .ok a) :
    (c'.runOn .empty).result = .error (.missingLayoutContext p.joined) := by
  obtain ⟨hvalue, hnodup⟩ := runOn_empty_ok_iff.mp hc
  obtain ⟨herror, hpart⟩ := h.stops a hvalue p ps rfl
  exact (runOn_empty_of_nodup (hnodup.sublist hpart.sublist)).1.trans herror

end Follows

end Compilation

/-! ## The compiler without a layout -/

namespace Compile

open Compilation

/-- No collection is filled at a site, for want of a layout. -/
def Unfilled (fill : Filling) (site : Site) : Prop :=
  ∀ filter path key, fill site filter path key = throw (.missingLayoutContext path.joined)

section Fields

variable {fill : Filling} {site site' : Site} {owner : Entity} {group : FieldGroup}

mutual
/-- Outside a layout a field is compiled as in one, up to the first collection in it. -/
theorem field_follows (hfill : Unfilled fill site')
    {siblings : List Sibling} {path : KeyPath} {parent : String} :
    ∀ (f : Field), Follows (field fill site' owner group siblings path parent f)
      (field fill site owner group siblings path parent f) (f.collectionPaths path)
  | ⟨name, attributes, subFields⟩ => by
    rw [field, field, Field.collectionPaths]
    cases hkind : FieldKind.ofName? attributes.type with
    | none => exact Follows.refl _
    | some kind =>
      dsimp only
      rw [pure_bind, pure_bind]
      refine Follows.bind_same _ fun _ => Follows.bind_same _ fun logic => ?_
      -- The two entries differ in the layout alone.
      have hlast : ∀ node : FieldNode, Follows (do
          register (fieldEntry node owner.ref (some group) (some parent) site'.layoutName)
          return node : Compilation FieldNode) (do
          register (fieldEntry node owner.ref (some group) (some parent) site.layoutName)
          return node : Compilation FieldNode) [] :=
        fun node => Follows.bind_last (Follows.register rfl) fun _ => Follows.refl _
      by_cases hcollection : kind.isBlockCollection = true
      -- In a collection one of the two stops, whatever the other does there.
      · rw [if_pos hcollection, if_pos hcollection, if_pos hcollection, hfill]
        exact Follows.bind_stopped Follows.throw
      · simp only [if_neg hcollection, pure_bind]
        by_cases hrows : kind.hasSubFields = true
        · simp only [if_pos hrows]
          have hfields : Follows
              (fields fill site' owner group (Sibling.ofFields group (path.child name) subFields)
                (path.child name) ((path.child name).encode .field) subFields)
              (fields fill site owner group (Sibling.ofFields group (path.child name) subFields)
                (path.child name) ((path.child name).encode .field) subFields)
              (Field.allCollectionPaths (path.child name) subFields) :=
            fields_follows hfill subFields
          exact Follows.bind_same _ fun _ => Follows.bind_last hfields fun rows => hlast _
        · simp only [if_neg hrows]
          exact hlast _

theorem fields_follows (hfill : Unfilled fill site')
    {siblings : List Sibling} {path : KeyPath} {parent : String} :
    ∀ (fs : List Field), Follows (fields fill site' owner group siblings path parent fs)
      (fields fill site owner group siblings path parent fs) (Field.allCollectionPaths path fs)
  | [] => by
    rw [fields, fields, Field.allCollectionPaths]
    exact Follows.refl _
  | f :: fs => by
    rw [fields, fields, Field.allCollectionPaths]
    exact Follows.bind (field_follows hfill f) fun node _ =>
      Follows.bind_last (fields_follows hfill fs) fun nodes => Follows.refl _
end

end Fields

section Blocks

variable {fill : Filling} {site site' : Site} {b : Entity}

theorem group_follows (hfill : Unfilled fill site') {path : KeyPath} {key : String}
    {siblings : List Sibling} {group : FieldGroup} {members : List Field} :
    Follows (groupNodes fill site' b path key siblings group members)
      (groupNodes fill site b path key siblings group members)
      (Field.allCollectionPaths (path.child group.name) members) := by
  unfold groupNodes
  by_cases hempty : members.isEmpty = true
  · rw [if_pos hempty, if_pos hempty, List.isEmpty_iff.mp hempty, Field.allCollectionPaths]
    exact Follows.refl _
  · rw [if_neg hempty, if_neg hempty]
    have hfields : Follows
        (fields fill site' b group siblings (path.child group.name) key members)
        (fields fill site b group siblings (path.child group.name) key members)
        (Field.allCollectionPaths (path.child group.name) members) := fields_follows hfill members
    by_cases hcontent : group = .content
    · rw [if_pos hcontent, if_pos hcontent]
      exact Follows.bind_last hfields fun nodes => Follows.refl _
    · rw [if_neg hcontent, if_neg hcontent]
      have htab : Follows (tab site' b group path key) (tab site b group path key) [] :=
        Follows.bind_last (Follows.register rfl) fun _ => Follows.refl _
      exact Follows.bind htab fun marker _ =>
        Follows.bind_last hfields fun nodes => Follows.refl _

theorem block_follows {settings : Settings} {collection collection' : Option String}
    {path : KeyPath} (hfill : Unfilled fill (site'.nested b)) :
    Follows (block settings fill site' collection' path b)
      (block settings fill site collection path b) (b.collectionPaths settings path) := by
  unfold block
  refine Follows.bind_same _ fun _ => ?_
  have hgroups : Follows
      ((groups settings b).mapM fun g => groupNodes fill (site'.nested b) b path
        (path.encode .block) (siblingsOf settings b path) g.1 g.2)
      ((groups settings b).mapM fun g => groupNodes fill (site.nested b) b path
        (path.encode .block) (siblingsOf settings b path) g.1 g.2)
      (b.collectionPaths settings path) := Follows.mapM fun g _ => group_follows hfill
  exact Follows.bind_last hgroups fun nodes =>
    Follows.bind_last (Follows.register rfl) fun _ => Follows.refl _

end Blocks

theorem variants_unfilled {registry : Registry} {site : Site} (h : site.layout = none) :
    ∀ count, Unfilled (variants registry count) site
  | 0, filter, path, key => by
    rw [variants, offered, h]
  | count + 1, filter, path, key => by
    rw [variants, offered, h]

/-- A block that compiles somewhere is followed without a layout, up to its first collection. -/
theorem entity_follows {registry : Registry} {site site' : Site} {path : KeyPath} {b : Entity}
    (hblock : b.isBlock = true) (hsite : site'.layout = none) :
    Follows (entity registry site' path b) (entity registry site path b)
      (b.collectionPaths registry.settings (path.child b.name)) := by
  rw [entity_block hblock, entity_block hblock]
  have hnested : (site'.nested b).layout = none := hsite
  have hfill : Unfilled (fill registry) (site'.nested b) := variants_unfilled hnested _
  exact Follows.bind_last (block_follows hfill) fun node => Follows.refl _

end Compile

/-- A block that compiles in some layout compiles without one to the same node if it has no
collection. If it has one, the compilation fails, and tells that no layout is known where the first
collection is. To compile a registry never fails like that. -/
theorem missing_layout_iff_collection {definitions : Definitions} {resources : Resources}
    {registry : Registry} (hbuilt : Gives (Registry.build definitions resources) registry) :
    (∀ (b l : Entity) (path : KeyPath) (node : Compile.Node), b.isBlock = true →
      (Compile.alone registry (.inLayout l) path b).result = .ok node →
      (b.HoldsBlocks registry.settings →
        ∃ p, (b.collectionPaths registry.settings (path.child b.name)).head? = some p ∧
          (Compile.alone registry {} path b).result = .error (.missingLayoutContext p.joined)) ∧
      (¬b.HoldsBlocks registry.settings →
        (Compile.alone registry {} path b).result = .ok node)) ∧
    ∀ now p, (compile registry now).run.value ≠ .error (.missingLayoutContext p) := by
  refine ⟨fun b l path node hblock hmade => ?_, fun now p herror => ?_⟩
  · have hfollows : Follows (Compile.entity registry {} path b)
        (Compile.entity registry (.inLayout l) path b)
        (b.collectionPaths registry.settings (path.child b.name)) :=
      Compile.entity_follows hblock rfl
    rw [← Entity.collectionPaths_ne_nil (path.child b.name)]
    cases hpaths : b.collectionPaths registry.settings (path.child b.name) with
    | nil =>
      rw [hpaths] at hfollows
      exact ⟨fun hsome => absurd rfl hsome, fun _ => hfollows.succeeds hmade⟩
    | cons p ps =>
      rw [hpaths] at hfollows
      exact ⟨fun _ => ⟨p, rfl, hfollows.fails hmade⟩,
        fun hnone => absurd (List.cons_ne_nil p ps) hnone⟩
  · -- What a registry fails with is a name that clashes, a fault of a declaration or a taken id.
    rcases runOn_error (compile_error herror) with hvalue | ⟨key, entity, htaken⟩
    · have hr : registry.Sound := Registry.build_sound hbuilt
      rcases (Compile.fieldGroup_checks hr).fails _ hvalue with ⟨s, name, -, -, hclash⟩ | hfault
      · cases hclash
      · cases hfault
    · cases htaken

/-- A page with sections, which hold blocks, and with texts, which do not. -/
def sectionDefinitions : Definitions :=
  { settings := { coreFields := false }
    blocks := .ofList [("section", { kind := .container }),
      ("text", { content := [.literal ⟨some "title", { type := "text" }, []⟩] })]
    layouts := .ofList [("page", {})] }

def sectionRegistry : Registry := (Registry.build sectionDefinitions .empty).result

/-- What a block of the page of sections comes to by itself. -/
def sectionAlone (site : Site) (b : Entity) : Except Error Compile.Node :=
  (Compile.alone sectionRegistry site (.root "builder") b).result

/-- Without a layout a text compiles to the node that it is on the page, a section fails, and to
compile the registry does not fail like the section. -/
theorem sections_need_layout :
    (∃ l ∈ sectionRegistry.layouts.values, ∃ text ∈ sectionRegistry.blocks.values,
      ∃ holder ∈ sectionRegistry.blocks.values,
        (∃ node, sectionAlone (.inLayout l) text = .ok node ∧ sectionAlone {} text = .ok node) ∧
        ∃ p, sectionAlone {} holder = .error (.missingLayoutContext p)) ∧
    ∀ now p, (compile sectionRegistry now).run.value ≠ .error (.missingLayoutContext p) := by
  have hbuilt : Gives (Registry.build sectionDefinitions .empty) sectionRegistry :=
    gives_result (by decide +kernel)
  obtain ⟨hblocks, hregistry⟩ := missing_layout_iff_collection hbuilt
  refine ⟨?_, hregistry⟩
  have hcase : ∃ l ∈ sectionRegistry.layouts.values, ∃ text ∈ sectionRegistry.blocks.values,
      ∃ holder ∈ sectionRegistry.blocks.values,
        text.isBlock = true ∧ (sectionAlone (.inLayout l) text).toOption.isSome = true ∧
        text.collectionPaths sectionRegistry.settings .empty = [] ∧
        holder.isBlock = true ∧ (sectionAlone (.inLayout l) holder).toOption.isSome = true ∧
        holder.collectionPaths sectionRegistry.settings .empty ≠ [] := by
    decide +kernel
  obtain ⟨l, hl, text, htext, holder, hholder, hkind, hok, hnone, hkind', hok', hsome⟩ := hcase
  obtain ⟨node, hnode⟩ := Option.isSome_iff_exists.mp hok
  obtain ⟨node', hnode'⟩ := Option.isSome_iff_exists.mp hok'
  have hmade : sectionAlone (.inLayout l) text = .ok node := Stateful.ok_of_toOption hnode
  have hmade' : sectionAlone (.inLayout l) holder = .ok node' := Stateful.ok_of_toOption hnode'
  refine ⟨l, hl, text, htext, holder, hholder, ⟨node, hmade, ?_⟩, ?_⟩
  · refine (hblocks text l _ node hkind hmade).2 fun hholds => ?_
    exact (Entity.collectionPaths_ne_nil .empty).mpr hholds hnone
  · obtain ⟨p, -, hp⟩ := (hblocks holder l _ node' hkind' hmade').1
      ((Entity.collectionPaths_ne_nil .empty).mp hsome)
    exact ⟨_, hp⟩

end PageBlocks
