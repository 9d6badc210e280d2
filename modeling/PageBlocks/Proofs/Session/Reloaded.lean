import PageBlocks.Builder
import PageBlocks.Proofs.Json.ReadBack
import PageBlocks.Proofs.Schema.ReadBack

/-!
# Recorded schemas can be loaded

A builder that cannot compile its definitions serves the schema that was
recorded last, so what is recorded must be what was compiled.

> `recorded_schema_reread`: the record of a compiled schema is read back as
> that schema, if its encoding is nested no deeper than a text may be, and
> cannot be read otherwise.

Definitions can be nested nearly as deeply as a text, and the tree adds some
levels of its own, so the limit is within reach: `deep_schema_not_reread` is a
schema that is compiled and recorded, and then cannot be loaded.
-/

namespace PageBlocks

open Attempt

/-! ## Numbers -/

namespace Value

mutual
/-- Whether every number of a value is read back as it is written. -/
def keepsNumbers : Value → Bool
  | .int n =>
    match JsonText.readNumber? (toString n).toList with
    | some (.int m) => m == n
    | _ => false
  | .float x =>
    match JsonText.readNumber? (FloatLayout.json.write x).toList with
    | some (.float y) => y == x
    | _ => false
  | .array items => keepsNumbersItems items
  | .object members => keepsNumbersMembers members
  | .null | .bool _ | .string _ => true

def keepsNumbersItems : List Value → Bool
  | [] => true
  | v :: rest => keepsNumbers v && keepsNumbersItems rest

def keepsNumbersMembers : List (String × Value) → Bool
  | [] => true
  | (_, v) :: rest => keepsNumbers v && keepsNumbersMembers rest
end

mutual
theorem renumbered?_of_keepsNumbers :
    ∀ {v : Value}, v.keepsNumbers = true → v.renumbered? = some v
  | .int n, h => by
    rw [keepsNumbers] at h
    split at h
    next m hm => rw [renumbered?, hm, beq_iff_eq.mp h]
    next => cases h
  | .float x, h => by
    rw [keepsNumbers] at h
    split at h
    next y hy => rw [renumbered?, hy, beq_iff_eq.mp h]
    next => cases h
  | .array items, h => by
    rw [keepsNumbers] at h
    rw [renumbered?, renumberedItems?_of_keepsNumbers h]
    rfl
  | .object members, h => by
    rw [keepsNumbers] at h
    rw [renumbered?, renumberedMembers?_of_keepsNumbers h]
    rfl
  | .null, _ | .bool _, _ | .string _, _ => by
    rw [renumbered?]

theorem renumberedItems?_of_keepsNumbers :
    ∀ {items : List Value}, keepsNumbersItems items = true → renumberedItems? items = some items
  | [], _ => rfl
  | v :: rest, h => by
    rw [keepsNumbersItems, Bool.and_eq_true] at h
    rw [renumberedItems?, renumbered?_of_keepsNumbers h.1, renumberedItems?_of_keepsNumbers h.2]
    rfl

theorem renumberedMembers?_of_keepsNumbers :
    ∀ {members : List (String × Value)}, keepsNumbersMembers members = true →
      renumberedMembers? members = some members
  | [], _ => rfl
  | (k, v) :: rest, h => by
    rw [keepsNumbersMembers, Bool.and_eq_true] at h
    rw [renumberedMembers?, renumbered?_of_keepsNumbers h.1,
      renumberedMembers?_of_keepsNumbers h.2]
    rfl
end

/-! ## Depth -/

mutual
/-- Whether a value is nested no deeper than some levels, in one walk. -/
def nestsWithin : Value → Nat → Bool
  | .array _, 0 | .object _, 0 => false
  | .array items, limit + 1 => nestWithin items limit
  | .object members, limit + 1 => membersNestWithin members limit
  | .null, _ | .bool _, _ | .int _, _ | .float _, _ | .string _, _ => true

def nestWithin : List Value → Nat → Bool
  | [], _ => true
  | v :: rest, limit => nestsWithin v limit && nestWithin rest limit

def membersNestWithin : List (String × Value) → Nat → Bool
  | [], _ => true
  | (_, v) :: rest, limit => nestsWithin v limit && membersNestWithin rest limit
end

mutual
theorem nestsWithin_iff : ∀ {v : Value} {limit : Nat}, v.nestsWithin limit = true ↔ v.depth ≤ limit
  | .array items, 0 => by simp [nestsWithin, depth]
  | .object members, 0 => by simp [nestsWithin, depth]
  | .array items, limit + 1 => by
    rw [nestsWithin, nestWithin_iff, depth, Nat.add_le_add_iff_right]
  | .object members, limit + 1 => by
    rw [nestsWithin, membersNestWithin_iff, depth, Nat.add_le_add_iff_right]
  | .null, _ | .bool _, _ | .int _, _ | .float _, _ | .string _, _ => by simp [nestsWithin, depth]

theorem nestWithin_iff : ∀ {items : List Value} {limit : Nat},
    nestWithin items limit = true ↔ depthItems items ≤ limit
  | [], _ => by simp [nestWithin, depthItems]
  | v :: rest, limit => by
    rw [nestWithin, Bool.and_eq_true, nestsWithin_iff, nestWithin_iff, depthItems, Nat.max_le]

theorem membersNestWithin_iff : ∀ {members : List (String × Value)} {limit : Nat},
    membersNestWithin members limit = true ↔ depthMembers members ≤ limit
  | [], _ => by simp [membersNestWithin, depthMembers]
  | (_, v) :: rest, limit => by
    rw [membersNestWithin, Bool.and_eq_true, nestsWithin_iff, membersNestWithin_iff, depthMembers,
      Nat.max_le]
end

end Value

/-! ## Records -/

theorem Store.last?_record (store : Store) (hash schema : String) (now : Instant) :
    (store.record hash schema now).clear.last? = some ⟨hash, schema, now⟩ :=
  List.getLast?_concat

/-- A text that is nested too deeply is refused. -/
theorem Builder.readRecord_deep {hash : String} {v : Value} {now : Instant}
    (h : ¬v.depth ≤ JsonText.maxDepth) :
    readRecord ⟨hash, v.compact, now⟩ = .error .badJson := by
  rw [readRecord, JsonText.read?_compact, if_neg h]
  rfl

/-- A compiled schema is read back from its encoding. What is recorded of it is read as that schema
if the encoding is nested no deeper than a text may be, and is refused if it is; no option of a
field goes by the name of one of its members. -/
theorem recorded_schema_reread {definitions : Definitions} {resources : Resources}
    {registry : Registry} {now : Instant} {schema : CompiledSchema}
    (hbuilt : Gives (Registry.build definitions resources) registry)
    (hcompiled : Gives (compile registry now) schema)
    (hvalues : registry.hasOrderedValues = true)
    (hnumbers : schema.toValue.renumbered? = some schema.toValue)
    (htime : Instant.read? now.zulu = some now) :
    CompiledSchema.ofValue? schema.toValue = some schema ∧
      (∀ (store : Store) (at' : Instant),
        (store.record schema.sourceHash schema.toValue.compact at').clear.last?.map
          Builder.readRecord =
            some (if schema.toValue.depth ≤ JsonText.maxDepth then .ok schema
              else .error .badJson)) ∧
      ∀ node, .field node ∈ schema.group.nodes → ∀ option value,
        node.options.get? option = some value → option ∉ FieldNode.memberNames := by
  have hfields := fields_recordable hbuilt hcompiled hvalues
  obtain ⟨entries, hmakes, -, -, hscheme, hcompiledAt⟩ := compile_gives hcompiled
  obtain ⟨layouts, held, -, hgroup, -⟩ := Compile.makes_fieldGroup hmakes
  have hreread : Rereads CompiledSchema.ofDatum? CompiledSchema.toValue schema := by
    refine CompiledSchema.rereads hfields ?_ ?_ ?_ ?_
    · rw [hgroup]
      exact (by decide : -2147483648 ≤ (0 : Int) ∧ (0 : Int) < 2147483648)
    · rw [hgroup]
      exact (by decide : 1 < 256)
    · rw [hscheme]
      decide
    · rw [hcompiledAt]
      exact htime
  refine ⟨hreread.reread, fun store at' => ?_, fun node hnode option value hget =>
    ((hfields node hnode).options option value hget).1⟩
  rw [Store.last?_record, Option.map_some]
  by_cases hdepth : schema.toValue.depth ≤ JsonText.maxDepth
  · rw [if_pos hdepth, Builder.readRecord, JsonText.read?_compact, if_pos hdepth, hnumbers,
      Option.map_some, Value.ordered_of_wellFormed hreread.wellFormed, Option.bind_some,
      CompiledSchema.ofValue?, hreread.reread]
  · rw [if_neg hdepth, Builder.readRecord_deep hdepth]

/-- What is recorded of the page of cards is read back as its schema. -/
theorem cards_reread :
    (Store.empty.record cardSchema.sourceHash cardSchema.toValue.compact default).clear.last?.map
      Builder.readRecord = some (.ok cardSchema) := by
  have hnumbers : cardSchema.toValue.keepsNumbers = true ∧
      cardSchema.toValue.nestsWithin JsonText.maxDepth = true := by
    decide +kernel
  have h := (recorded_schema_reread cards_built cards_compiled (by decide +kernel)
    (Value.renumbered?_of_keepsNumbers hnumbers.1) (by decide +kernel)).2.1 .empty default
  rwa [if_pos (Value.nestsWithin_iff.mp hnumbers.2)] at h

/-- Lists inside each other. -/
def nestedLists : Nat → Value
  | 0 => .array []
  | count + 1 => .array [nestedLists count]

/-- A page with a text that has an option of lists inside each other. -/
def deepDefinitions : Definitions :=
  { settings := { coreFields := false }
    blocks := .ofList [("text",
      { content := [.literal ⟨some "title",
          { type := "text", options := .ofList [("extra", nestedLists 121)] }, []⟩] })]
    layouts := .ofList [("page", {})] }

def deepRegistry : Registry := (Registry.build deepDefinitions .empty).result

def deepSchema : CompiledSchema := (compile deepRegistry default).result

/-- The schema of that page is compiled, and all its numbers and its time can be read back; but
its record cannot. -/
theorem deep_schema_not_reread :
    Gives (Registry.build deepDefinitions .empty) deepRegistry ∧
      Gives (compile deepRegistry default) deepSchema ∧
      deepRegistry.hasOrderedValues = true ∧
      deepSchema.toValue.renumbered? = some deepSchema.toValue ∧
      Instant.read? (default : Instant).zulu = some default ∧
      (Store.empty.record deepSchema.sourceHash deepSchema.toValue.compact default).clear.last?.map
        Builder.readRecord = some (.error .badJson) := by
  have hbuilt : Gives (Registry.build deepDefinitions .empty) deepRegistry :=
    gives_result (by decide +kernel)
  have hcompiled : Gives (compile deepRegistry default) deepSchema :=
    gives_result (by decide +kernel)
  have hdeep : deepRegistry.hasOrderedValues = true ∧ deepSchema.toValue.keepsNumbers = true ∧
      Instant.read? (default : Instant).zulu = some default ∧
      ¬deepSchema.toValue.nestsWithin JsonText.maxDepth = true := by
    decide +kernel
  obtain ⟨hvalues, hnumbers, htime, hdepth⟩ := hdeep
  have hkept := Value.renumbered?_of_keepsNumbers hnumbers
  refine ⟨hbuilt, hcompiled, hvalues, hkept, htime, ?_⟩
  rw [Store.last?_record, Option.map_some,
    Builder.readRecord_deep (mt Value.nestsWithin_iff.mpr hdepth)]

end PageBlocks
