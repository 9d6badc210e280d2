import PageBlocks.Proofs.Tree.Visibility
import PageBlocks.Proofs.Value
import PageBlocks.Schema.Decode

/-!
# Nodes that can be recorded

A field is recorded with its options between its own members, without the
clauses of its logic where there are none, and with its variants in the order
of their ids. What it was can only be told from that if no option goes by the
name of a member, no clause is empty, and the variants are in order.

> `fields_recordable`: so it is with every field of a compiled tree.
-/

namespace PageBlocks

open Attempt

namespace FieldAttributes

/-- The options of a field and its default value. -/
def values (attributes : FieldAttributes) : List Value :=
  attributes.options.values ++ attributes.defaultValue.toList

end FieldAttributes

mutual
/-- The values that a field and the fields below it declare have their members in order. -/
def Field.hasOrderedValues : Field → Bool
  | ⟨_, attributes, subFields⟩ =>
    attributes.values.all (fun v => decide v.WellFormed) && Field.haveOrderedValues subFields

def Field.haveOrderedValues : List Field → Bool
  | [] => true
  | f :: fs => f.hasOrderedValues && Field.haveOrderedValues fs
end

/-- All values that are declared in a registry have their members in order. -/
def Registry.hasOrderedValues (r : Registry) : Bool :=
  r.blocks.values.all fun b => FieldGroup.all.all fun g => Field.haveOrderedValues (b.fields.get g)

theorem Field.haveOrderedValues_iff {fs : List Field} :
    Field.haveOrderedValues fs = true ↔ ∀ f ∈ fs, f.hasOrderedValues = true := by
  induction fs with
  | nil => simp [haveOrderedValues]
  | cons f fs ih => rw [haveOrderedValues, Bool.and_eq_true, ih, List.forall_mem_cons]

theorem Field.hasOrderedValues_iff {f : Field} :
    f.hasOrderedValues = true ↔ (∀ v ∈ f.attributes.values, v.WellFormed) ∧
      ∀ s ∈ f.subFields, s.hasOrderedValues = true := by
  obtain ⟨name, attributes, subFields⟩ := f
  rw [hasOrderedValues, Bool.and_eq_true, haveOrderedValues_iff, List.all_eq_true]
  simp only [decide_eq_true_eq]

theorem Registry.block_orderedValues {r : Registry} (h : r.hasOrderedValues = true)
    {name : String} {b : Entity} (hb : r.block? name = some b) :
    ∀ g, ∀ f ∈ b.fields.get g, f.hasOrderedValues = true := by
  have hall := List.all_eq_true.mp h b (Dict.mem_values_iff.mpr ⟨name, hb⟩)
  intro g
  exact Field.haveOrderedValues_iff.mp (List.all_eq_true.mp hall g (by cases g <;> decide))

/-! ## Fields of a tree -/

/-- What holds of the fields that are compiled for blocks, and passes on to sub-fields, holds of
every field of a tree. -/
theorem CompiledSchema.Follows.forall_field {registry : Registry} {schema : CompiledSchema}
    (h : schema.Follows registry) {Q : Field → Prop}
    (hblock : ∀ b, registry.block? b.name = some b →
      ∀ g ∈ Compile.groups registry.settings b, ∀ f ∈ g.2, Q f)
    (hrow : ∀ row, Q row → ∀ f ∈ row.subFields, Q f) :
    ∀ {spot : Spot} {path : KeyPath} {parent : String} {group : FieldGroup} {f : Field}
      {node : FieldNode},
      .field spot path parent group f node ∈ schema.group.positions registry → Q f := by
  intro spot path
  -- By the length of the path: the row around a field has a shorter one.
  induction hlength : path.segments.length using Nat.strongRecOn generalizing path with
  | ind length ih =>
    intro parent group f node hp
    obtain ⟨q, hq, hchild, -⟩ := h.exists_parent hp rfl
    cases hchild with
    | ofBlock hgroup hf =>
      cases h.sound _ hq with
      | variant hb => exact hblock _ hb _ hgroup f hf
    | ofRow _ hf =>
      refine hrow _ (ih _ ?_ rfl hq) f hf
      rw [← hlength, KeyPath.child, List.length_append]
      exact Nat.lt_succ_self _

theorem Registry.groups_orderedValues {registry : Registry}
    (h : registry.hasOrderedValues = true) {b : Entity}
    (hb : registry.block? b.name = some b) :
    ∀ g ∈ Compile.groups registry.settings b, ∀ f ∈ g.2, f.hasOrderedValues = true := by
  have hplain : ∀ f : Field, f.attributes.options = .empty → f.attributes.defaultValue = none →
      f.subFields = [] → f.hasOrderedValues = true := by
    intro f hoptions hdefault hsubs
    rw [Field.hasOrderedValues_iff, FieldAttributes.values, hoptions, hdefault, hsubs]
    exact ⟨fun _ hv => absurd hv List.not_mem_nil, fun _ hs => absurd hs List.not_mem_nil⟩
  refine Compile.groups_forall (fun f _ _ => hplain f) (fun row hrow => ?_)
    (block_orderedValues h hb)
  unfold Compile.withCollection
  split
  next => exact hrow
  next =>
    obtain ⟨hvalues, hsubs⟩ := Field.hasOrderedValues_iff.mp hrow
    refine Field.hasOrderedValues_iff.mpr ⟨hvalues, fun s hs => ?_⟩
    rcases List.mem_cons.mp hs with rfl | hs
    · exact hplain _ rfl rfl rfl
    · exact hsubs s hs

/-! ## Options -/

namespace FieldNode

/-- A field that can be told from its encoding. -/
structure Recordable (n : FieldNode) : Prop where
  required : n.required < 256
  clauses : [] ∉ n.logic.clauses
  options : n.options.All fun key v => key ∉ memberNames ∧ v.WellFormed
  layouts : Entries.Sorted n.layouts

/-- Options that the kinds of fields come with. -/
theorem defaultOptions_fit (kind : FieldKind) :
    kind.defaultOptions.All fun key v => key ∉ memberNames ∧ v.WellFormed := by
  intro key v hget
  have hmem := Entries.mem_ofList (Dict.mem_entries_iff.mpr hget)
  show (key, v).1 ∉ memberNames ∧ (key, v).2.WellFormed
  clear hget
  generalize (key, v) = e at hmem ⊢
  revert e
  cases kind <;> decide +kernel

theorem not_mem_memberNames {key : String} (hwrapper : key ≠ "wrapper")
    (hreserved : key ∉ reservedNames) : key ∉ memberNames := by
  simp only [reservedNames, memberNames, List.mem_cons, List.not_mem_nil] at hreserved ⊢
  tauto

/-- Names of members are kept out of the options of a declared field. -/
theorem optionsOf_fit {kind : FieldKind} {attributes : FieldAttributes}
    (h : ∀ v ∈ attributes.values, v.WellFormed) :
    (optionsOf kind attributes).All fun key v => key ∉ memberNames ∧ v.WellFormed := by
  have hgiven : ((declaredOptions attributes).foldl
      (fun options option => options.insert option.1 option.2) kind.defaultOptions).All
        fun key v => key ∉ memberNames ∧ v.WellFormed := by
    refine (defaultOptions_fit kind).foldl_insert fun e he => ?_
    obtain ⟨hmem, hname⟩ := List.mem_filter.mp he
    simp only [Bool.and_eq_true, decide_eq_true_eq, Bool.not_eq_true', List.contains_eq_mem,
      decide_eq_false_iff_not] at hname
    exact ⟨not_mem_memberNames hname.1 hname.2,
      h e.2 (List.mem_append_left _ (List.mem_map_of_mem hmem))⟩
  unfold optionsOf
  split
  next v hv =>
    refine hgiven.insert ⟨by decide, h v (List.mem_append_right _ ?_)⟩
    rw [hv]
    exact List.mem_singleton_self v
  next => exact hgiven

end FieldNode

/-! ## Nodes -/

theorem Compile.choices_wellFormed (registry : Registry) :
    (Value.ofDict (choices registry)).WellFormed := by
  refine ⟨(choices registry).sorted, Value.wellFormedMembers_of_forall fun e he => ?_⟩
  obtain ⟨l, -, rfl⟩ := List.mem_map.mp (Entries.mem_ofList he)
  trivial

/-- A node that is made of declarations with values in order can be recorded. -/
theorem Position.Made.recordable {registry : Registry} {others : List Position} {p : Position}
    {n : FieldNode} (h : p.Made registry others) (hnode : p.node = .field n)
    (hfield : ∀ spot path parent group f node, p = .field spot path parent group f node →
      f.hasOrderedValues = true) : n.Recordable := by
  have hzero : 0 < 256 := by decide
  cases h with
  | enabled =>
    cases hnode
    exact ⟨hzero, List.not_mem_nil, (FieldNode.defaultOptions_fit _).insert ⟨by decide, trivial⟩,
      Entries.sorted_nil⟩
  | select =>
    cases hnode
    refine ⟨hzero, by simp [Compile.selectField, ConditionalLogic.whenEquals,
      ConditionalLogic.ofClauses], ?_, Entries.sorted_nil⟩
    exact ((FieldNode.defaultOptions_fit _).insert
      ⟨by decide, Compile.choices_wellFormed registry⟩).insert ⟨by decide, trivial⟩
  | layout hsorted =>
    cases hnode
    refine ⟨hzero, by simp [Compile.selected, ConditionalLogic.whenEquals,
      ConditionalLogic.ofClauses, ConditionalLogic.andEquals], ?_, hsorted⟩
    exact (FieldNode.defaultOptions_fit _).insert ⟨by decide, trivial⟩
  | variant => cases hnode
  | tab =>
    cases hnode
    exact ⟨hzero, List.not_mem_nil, FieldNode.defaultOptions_fit _, Entries.sorted_nil⟩
  | field hlogic hsorted =>
    cases hnode
    obtain ⟨q, -, -, hresolve⟩ := hlogic
    obtain ⟨clauses, -, rfl⟩ := Condition.resolve_eq_ok hresolve
    refine ⟨?_, ?_, FieldNode.optionsOf_fit
      (Field.hasOrderedValues_iff.mp (hfield _ _ _ _ _ _ rfl)).1, hsorted⟩
    · simp only [FieldNode.ofAttributes]
      split <;> decide
    · simp [ConditionalLogic.ofClauses]

/-- Every field of a compiled tree can be recorded. -/
theorem fields_recordable {definitions : Definitions} {resources : Resources}
    {registry : Registry} {now : Instant} {schema : CompiledSchema}
    (hbuilt : Gives (Registry.build definitions resources) registry)
    (hcompiled : Gives (compile registry now) schema)
    (hvalues : registry.hasOrderedValues = true) :
    ∀ n, .field n ∈ schema.group.nodes → n.Recordable := by
  have h := compile_follows hbuilt hcompiled
  have hgrown := compile_grown hbuilt hcompiled
  intro n hn
  rw [← h.nodes] at hn
  obtain ⟨p, hp, hnode⟩ := List.mem_map.mp hn
  refine (hgrown.made p hp).recordable hnode ?_
  rintro spot path parent group f node rfl
  exact h.forall_field (Q := fun f => f.hasOrderedValues = true)
    (fun b hb => registry.groups_orderedValues hvalues hb)
    (fun row hrow => (Field.hasOrderedValues_iff.mp hrow).2) hp

end PageBlocks
