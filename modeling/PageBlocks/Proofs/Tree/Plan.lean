import PageBlocks.Proofs.Entries
import PageBlocks.Schema.Compile

/-!
# What ids are made from

Much of a registry is only shown, stored or asked for: labels, descriptions,
defaults, conditions, options. Without all of that a registry is its plan: the
name of the builder, whether there are core fields, and for every entity its
kind, its filters and the names and types of its fields. Whatever the compiler
decides about the shape of a tree it decides by the plan:

> `content_plan`, `groups_plan`, `pinned_plan`: the fields of a block, and the
> one that is moved to the front;
>
> `candidates_plan`, `refusal?_plan`: the blocks that a collection offers.
-/

namespace PageBlocks

/-! ## Fields -/

mutual
/-- A field without anything that its id, the ids below it and their order do not depend on. -/
def Field.plan : Field → Field
  | ⟨name, attributes, subFields⟩ =>
    ⟨name, { type := attributes.type, blocks := attributes.blocks }, Field.plans subFields⟩

def Field.plans : List Field → List Field
  | [] => []
  | f :: fs => f.plan :: Field.plans fs
end

namespace Field

theorem plans_eq_map (fs : List Field) : plans fs = fs.map plan := by
  induction fs with
  | nil => rfl
  | cons f fs ih => rw [plans, ih, List.map_cons]

theorem plan_eq (f : Field) :
    f.plan = ⟨f.name, { type := f.attributes.type, blocks := f.attributes.blocks },
      f.subFields.map plan⟩ := by
  cases f
  rw [plan, plans_eq_map]

@[simp] theorem plan_name (f : Field) : f.plan.name = f.name := by rw [plan_eq]

theorem plan_inj {f f' : Field} (h : f.plan = f'.plan) :
    f.name = f'.name ∧ f.attributes.type = f'.attributes.type ∧
      f.attributes.blocks = f'.attributes.blocks ∧
      f.subFields.map plan = f'.subFields.map plan := by
  rw [plan_eq, plan_eq, Field.mk.injEq] at h
  obtain ⟨hname, hattributes, hsubs⟩ := h
  exact ⟨hname, (congrArg FieldAttributes.type hattributes :),
    (congrArg FieldAttributes.blocks hattributes :), hsubs⟩

theorem plan_congr {f f' : Field} (hname : f.name = f'.name)
    (htype : f.attributes.type = f'.attributes.type)
    (hblocks : f.attributes.blocks = f'.attributes.blocks)
    (hsubs : f.subFields.map plan = f'.subFields.map plan) : f.plan = f'.plan := by
  rw [plan_eq, plan_eq, hname, htype, hblocks, hsubs]

end Field

namespace Compile

@[simp] theorem hasType_comp_plan (kind : FieldKind) :
    hasType kind ∘ Field.plan = hasType kind := by
  funext f
  show hasType kind f.plan = _
  rw [Field.plan_eq]
  rfl

section Fields

variable {fs fs' : List Field} (h : fs.map Field.plan = fs'.map Field.plan)

include h

theorem any_hasType_plan (kind : FieldKind) :
    fs.any (hasType kind) = fs'.any (hasType kind) := by
  have hany := congrArg (List.any · (hasType kind)) h
  simpa only [List.any_map, hasType_comp_plan] using hany

theorem findIdx?_hasType_plan (kind : FieldKind) :
    fs.findIdx? (hasType kind) = fs'.findIdx? (hasType kind) := by
  have hfound := congrArg (List.findIdx? (hasType kind)) h
  simpa only [List.findIdx?_map, hasType_comp_plan] using hfound

end Fields

theorem withCollection_plan {row row' : Field} (h : row.plan = row'.plan) :
    (withCollection row).plan = (withCollection row').plan := by
  obtain ⟨hname, htype, hblocks, hsubs⟩ := Field.plan_inj h
  unfold withCollection
  rw [any_hasType_plan hsubs]
  split
  next => exact h
  next =>
    refine Field.plan_congr hname htype hblocks ?_
    rw [List.map_cons, List.map_cons, hsubs]

/-- Changing the first item that satisfies a test respects what the test and the change do. -/
theorem modifyFirst_congr {α β : Type} {p : α → Bool} {f : α → α} {g : α → β}
    (hp : ∀ a b, g a = g b → p a = p b) (hf : ∀ a b, g a = g b → g (f a) = g (f b)) :
    ∀ {items items' : List α}, items.map g = items'.map g →
      (modifyFirst p f items).map g = (modifyFirst p f items').map g
  | [], [], _ => rfl
  | a :: items, b :: items', h => by
    rw [List.map_cons, List.map_cons, List.cons.injEq] at h
    obtain ⟨hfirst, hrest⟩ := h
    rw [modifyFirst, modifyFirst, hp a b hfirst]
    split
    next => rw [List.map_cons, List.map_cons, hf a b hfirst, hrest]
    next => rw [List.map_cons, List.map_cons, hfirst, modifyFirst_congr hp hf hrest]

end Compile

/-! ## Entities -/

/-- An entity without what is only shown. -/
def Entity.plan (e : Entity) : Entity :=
  { name := e.name
    label := ""
    description := ""
    instructions := ""
    kind := e.kind
    display := ""
    buttonLabel := ""
    fields :=
      { content := e.fields.content.map Field.plan
        customise := e.fields.customise.map Field.plan
        configure := e.fields.configure.map Field.plan }
    children := e.children
    rules := e.rules }

namespace Entity

@[simp] theorem plan_name (e : Entity) : e.plan.name = e.name := rfl

@[simp] theorem plan_ref (e : Entity) : e.plan.ref = e.ref := rfl

@[simp] theorem plan_fitsIn (e parent : Entity) : e.plan.fitsIn parent.plan = e.fitsIn parent := rfl

variable {e e' : Entity} (h : e.plan = e'.plan)

include h

theorem name_of_plan : e.name = e'.name := (congrArg Entity.name h :)

theorem ref_of_plan : e.ref = e'.ref := (congrArg Entity.ref h :)

theorem kind_of_plan : e.kind = e'.kind := (congrArg Entity.kind h :)

theorem children_of_plan : e.children = e'.children := (congrArg Entity.children h :)

end Entity

namespace Compile

section Blocks

variable {b b' : Entity} (h : b.plan = b'.plan)

include h

/-- The content of a block is shaped by its plan alone. -/
theorem content_plan : (content b).map Field.plan = (content b').map Field.plan := by
  have hgiven : b.fields.content.map Field.plan = b'.fields.content.map Field.plan :=
    congrArg (·.fields.content) h
  unfold content
  dsimp only
  rw [Entity.kind_of_plan h, any_hasType_plan hgiven, any_hasType_plan hgiven]
  split
  next =>
    split
    next => exact hgiven
    next => rw [List.map_cons, List.map_cons, hgiven]
  next =>
    split
    next =>
      refine modifyFirst_congr (g := Field.plan) (fun _ _ hrow => ?_)
        (fun _ _ => withCollection_plan) hgiven
      obtain ⟨-, htype, -⟩ := Field.plan_inj hrow
      unfold hasType
      rw [htype]
    next => rw [List.map_cons, List.map_cons, hgiven]
  next => exact hgiven

/-- The groups of a block hold fields with the same plans. -/
theorem groups_plan {settings settings' : Settings}
    (hcore : settings.coreFields = settings'.coreFields) :
    (groups settings b).map (fun g => (g.1, g.2.map Field.plan)) =
      (groups settings' b').map fun g => (g.1, g.2.map Field.plan) := by
  have hcustomise : b.fields.customise.map Field.plan = b'.fields.customise.map Field.plan :=
    congrArg (·.fields.customise) h
  have hconfigure : b.fields.configure.map Field.plan = b'.fields.configure.map Field.plan :=
    congrArg (·.fields.configure) h
  unfold groups
  simp only [List.map_cons, List.map_nil, List.map_append, content_plan h, hcustomise, hconfigure,
    hcore]

/-- The same place is moved to the front. -/
theorem pinned_plan {fs fs' : List Field} (hfs : fs.map Field.plan = fs'.map Field.plan)
    {α : Type} (nodes : List α) : pinned b fs nodes = pinned b' fs' nodes := by
  unfold pinned
  rw [Entity.kind_of_plan h]
  split
  next => rfl
  next kind _ => rw [findIdx?_hasType_plan hfs]

/-- A block is offered by its plan. -/
theorem refusal?_plan {parent parent' : Entity} (hparent : parent.plan = parent'.plan)
    (enclosing : List String) :
    refusal? parent enclosing b = none ↔ refusal? parent' enclosing b' = none := by
  unfold refusal?
  rw [← Entity.plan_fitsIn, h, hparent, Entity.plan_fitsIn, Entity.name_of_plan h]
  split
  next => simp
  next =>
    split
    next => simp
    next => simp

end Blocks

end Compile

/-! ## Registries -/

/-- A registry without what ids do not depend on. -/
def Registry.plan (r : Registry) : Registry :=
  { settings := { name := r.settings.name, coreFields := r.settings.coreFields }
    blocks := r.blocks.map fun _ e => e.plan
    layouts := r.layouts.map fun _ e => e.plan
    sourceHash := "" }

namespace Registry

theorem values_plan (entities : Dict Entity) :
    (entities.map fun _ e => e.plan).values = entities.values.map Entity.plan := by
  unfold Dict.values Dict.map
  rw [List.map_map, List.map_map]
  rfl

variable {r r' : Registry} (h : r.plan = r'.plan)

include h

theorem name_of_plan : r.settings.name = r'.settings.name := congrArg (·.settings.name) h

theorem coreFields_of_plan : r.settings.coreFields = r'.settings.coreFields :=
  congrArg (·.settings.coreFields) h

theorem layouts_of_plan : r.layouts.values.map Entity.plan = r'.layouts.values.map Entity.plan := by
  rw [← values_plan, ← values_plan]
  exact congrArg (·.layouts.values) h

theorem size_of_plan : r.blocks.size = r'.blocks.size := by
  have hsize : r.plan.blocks.size = r'.plan.blocks.size := by rw [h]
  simpa only [plan, Dict.size, Dict.map, List.length_map] using hsize

theorem block?_of_plan (name : String) :
    (r.block? name).map Entity.plan = (r'.block? name).map Entity.plan := by
  have hget : ∀ r : Registry, r.plan.block? name = (r.block? name).map Entity.plan :=
    fun r => Entries.get?_map (f := fun _ e => Entity.plan e) r.blocks.entries
  rw [← hget, ← hget, h]

/-- A filter selects blocks with the same plans, in the same order. -/
theorem candidates_plan (filter : NameFilter) :
    (r.candidates filter).map Entity.plan = (r'.candidates filter).map Entity.plan := by
  have hvalues : r.blocks.values.map Entity.plan = r'.blocks.values.map Entity.plan := by
    rw [← values_plan, ← values_plan]
    exact congrArg (·.blocks.values) h
  have hfiltered : ∀ es : List Entity, (es.filter fun e => filter.accepts e.name).map Entity.plan =
      (es.map Entity.plan).filter fun e => filter.accepts e.name := fun es => by
    rw [List.filter_map]
    rfl
  unfold candidates
  split
  next names =>
    rw [List.map_filterMap, List.map_filterMap]
    exact congrArg (List.filterMap · names) (funext (block?_of_plan h))
  next => rw [hfiltered, hfiltered, hvalues]
  next => rw [hfiltered, hfiltered, hvalues]

end Registry

end PageBlocks
