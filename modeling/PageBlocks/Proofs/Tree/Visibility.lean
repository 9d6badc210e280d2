import PageBlocks.Proofs.Tree.Made
import Mathlib.Data.List.Forall2

/-!
# What visibility rules test

A declared condition names fields beside its own; compiled logic names ids. The
ids are made from a table of siblings before the siblings are compiled, so that
they are ids of nodes at all needs a proof:

> `conditions_resolve`: the logic of a declared field is its condition without
> the empty clauses, and every rule tests a field in the tree, below the same
> node and of the declared name; the collection of a layout is shown where the
> builder is on and the layout is selected.
-/

namespace PageBlocks

open Attempt

/-- The clauses of the condition of a field, none if it is always shown. -/
def Field.clauses (f : Field) : List (List ConditionRule) :=
  (f.attributes.condition.map Condition.clauses).getD []

/-- A rule of the logic of a node does what the declared one says, and it tests a field of the
declared name that stands below the same node: the one of the node's own group, if there is one. -/
structure Resolves (registry : Registry) (schema : CompiledSchema) (p : Position)
    (declared : ConditionRule) (rule : LogicRule) : Prop where
  operator : rule.operator = declared.operator
  value : rule.value = ruleText declared.value
  target : ∃ node, .field node ∈ schema.group.nodes ∧ node.key = rule.field ∧
    node.name = declared.field
  beside : ∃ here there, schema.index.lookup p.id = some here ∧
    schema.index.lookup rule.field = some there ∧ there.name = declared.field ∧
    there.parent = here.parent
  own : ∀ spot path parent group f node,
    .field spot path parent group f node ∈ schema.group.positions registry →
    some parent = p.parent → some group = p.group → node.name = declared.field →
    node.key = rule.field

/-! ## Siblings -/

/-- What is found among siblings has the name, and is of the own group if any of that name is. -/
theorem Sibling.resolve?_eq_some {siblings : List Sibling} {group : FieldGroup}
    {name key : String} (h : Sibling.resolve? siblings group name = some key) :
    ∃ s ∈ siblings, s.name = name ∧ s.key = key ∧
      (s.group = group ∨ ∀ s' ∈ siblings, s'.group = group → s'.name ≠ name) := by
  unfold Sibling.resolve? at h
  obtain ⟨s, hfind, rfl⟩ := Option.map_eq_some_iff.mp h
  rw [List.find?_append] at hfind
  rcases Option.or_eq_some_iff.mp hfind with hown | ⟨hnone, hother⟩
  · have hmem := List.mem_filter.mp (List.mem_of_find?_eq_some hown)
    exact ⟨s, hmem.1, by simpa using List.find?_some hown, rfl, Or.inl (by simpa using hmem.2)⟩
  · have hmem := List.mem_filter.mp (List.mem_of_find?_eq_some hother)
    refine ⟨s, hmem.1, by simpa using List.find?_some hother, rfl, Or.inr fun s' hs' hgroup => ?_⟩
    have hno := List.find?_eq_none.mp hnone s' (List.mem_filter.mpr ⟨hs', by simpa using hgroup⟩)
    simpa using hno

/-- The fields directly below a node are the siblings that they may name. -/
theorem Position.Child.mem_siblings {settings : Settings} {q : Position} {spot : Spot}
    {path : KeyPath} {parent : String} {group : FieldGroup} {f : Field} {node : FieldNode}
    (h : Child settings q (.field spot path parent group f node)) :
    ∃ s ∈ q.siblings settings, s.group = group ∧ s.name = f.name := by
  cases h with
  | @ofBlock _ path _ b _ _ members _ _ hgroup hf =>
    refine ⟨_, List.mem_flatMap.mpr ⟨(group, members), hgroup, List.mem_map.mpr ⟨f, hf, rfl⟩⟩, rfl,
      rfl⟩
  | @ofRow _ path _ _ row _ _ _ hkind hf =>
    rw [siblings, if_pos hkind]
    exact ⟨_, List.mem_map.mpr ⟨f, hf, rfl⟩, rfl, rfl⟩

theorem Position.eq_field_of_sibling? {p : Position} {s : Sibling} (h : p.sibling? = some s) :
    ∃ spot path parent f node, p = .field spot path parent s.group f node ∧ f.name = s.name ∧
      node.key = s.key := by
  cases p with
  | field spot path parent group f node =>
    cases h
    exact ⟨spot, path, parent, f, node, rfl, rfl, rfl⟩
  | control => cases h
  | layout => cases h
  | variant => cases h
  | tab => cases h

/-! ## Conditions -/

theorem forall₂_of_mapM {α β ε : Type} {f : α → Except ε β} :
    ∀ {as : List α} {bs : List β}, as.mapM f = .ok bs → List.Forall₂ (fun a b => f a = .ok b) as bs
  | [], bs, h => by
    rw [List.mapM_nil] at h
    cases h
    exact .nil
  | a :: as, bs, h => by
    rw [List.mapM_cons] at h
    cases hfirst : f a with
    | error e =>
      rw [hfirst] at h
      cases h
    | ok b =>
      cases hrest : as.mapM f with
      | error e =>
        rw [hfirst, hrest] at h
        cases h
      | ok rest =>
        rw [hfirst, hrest] at h
        cases h
        exact .cons hfirst (forall₂_of_mapM hrest)

/-- The logic of a field is made of its clauses, each resolved. -/
theorem Condition.resolve_eq_ok {owner : String} {f : Field} {siblings : List Sibling}
    {group : FieldGroup} {logic : ConditionalLogic}
    (h : Condition.resolve owner f.name siblings group f.attributes.condition = .ok logic) :
    ∃ clauses, f.clauses.mapM (fun clause =>
        clause.mapM (ConditionRule.resolve owner f.name siblings group)) = .ok clauses ∧
      logic = .ofClauses clauses := by
  unfold Field.clauses
  cases hcondition : f.attributes.condition with
  | none =>
    rw [hcondition] at h
    cases h
    exact ⟨[], rfl, rfl⟩
  | some condition =>
    rw [hcondition, Condition.resolve] at h
    cases hclauses : condition.clauses.mapM fun clause =>
        clause.mapM (ConditionRule.resolve owner f.name siblings group) with
    | error e =>
      rw [hclauses] at h
      cases h
    | ok clauses =>
      rw [hclauses] at h
      cases h
      exact ⟨clauses, hclauses, rfl⟩

/-- A condition that resolves gives its clauses without the empty ones, rule by rule. -/
theorem Condition.resolve_forall₂ {owner : String} {f : Field} {siblings : List Sibling}
    {group : FieldGroup} {logic : ConditionalLogic}
    (h : Condition.resolve owner f.name siblings group f.attributes.condition = .ok logic) :
    List.Forall₂
      (List.Forall₂ fun r rule => ConditionRule.resolve owner f.name siblings group r = .ok rule)
      (f.clauses.filter fun clause => !clause.isEmpty) logic.clauses := by
  obtain ⟨clauses, hclauses, rfl⟩ := Condition.resolve_eq_ok h
  have hall := (forall₂_of_mapM hclauses).imp fun _ _ hclause => forall₂_of_mapM hclause
  -- A resolved clause has as many rules as the declared one, so the same clauses are dropped.
  refine List.rel_filter (fun clause clause' hclause => ?_) hall
  cases hclause <;> simp

theorem ConditionRule.resolve_eq_ok {owner field : String} {siblings : List Sibling}
    {group : FieldGroup} {r : ConditionRule} {rule : LogicRule}
    (h : ConditionRule.resolve owner field siblings group r = .ok rule) :
    Sibling.resolve? siblings group r.field = some rule.field ∧ rule.operator = r.operator ∧
      rule.value = ruleText r.value := by
  unfold ConditionRule.resolve at h
  split at h
  next key hkey =>
    cases h
    exact ⟨hkey, rfl, rfl⟩
  next => cases h

/-! ## Targets -/

/-- A rule that resolves among the siblings below a node tests one of them. -/
theorem CompiledSchema.Follows.resolves {registry : Registry} {schema : CompiledSchema}
    (h : schema.Follows registry) (hgrown : Grown registry [] (schema.group.positions registry))
    {q : Position} (hq : q ∈ schema.group.positions registry) {spot : Spot} {path : KeyPath}
    {group : FieldGroup} {f : Field} {node : FieldNode}
    (hp : .field spot path q.id group f node ∈ schema.group.positions registry)
    {owner : String} {r : ConditionRule} {rule : LogicRule}
    (hresolve : ConditionRule.resolve owner f.name (q.siblings registry.settings) group r =
      .ok rule) :
    Resolves registry schema (.field spot path q.id group f node) r rule := by
  obtain ⟨hsibling, hoperator, hvalue⟩ := ConditionRule.resolve_eq_ok hresolve
  obtain ⟨s, hs, hname, hkey, hgroup⟩ := Sibling.resolve?_eq_some hsibling
  -- The sibling stands in the tree, below the same node and under the id that the table gives.
  obtain ⟨t, ht, hparent, hsibling?⟩ := hgrown.siblings q hq s hs
  obtain ⟨spot', path', parent', f', target, rfl, hf', htarget⟩ :=
    Position.eq_field_of_sibling? hsibling?
  have htname : target.name = r.field := by
    rw [← hname, ← hf']
    exact (h.sound _ ht).name_eq
  have hlookup : schema.index.lookup rule.field =
      some (Position.entry (.field spot' path' parent' s.group f' target)) :=
    h.lookup_iff.mpr ⟨_, ht, htarget.trans hkey, rfl⟩
  refine ⟨hoperator, hvalue, ⟨target, ?_, htarget.trans hkey, htname⟩,
    ⟨_, _, h.lookup_iff.mpr ⟨_, hp, rfl, rfl⟩, hlookup, htname, hparent⟩, ?_⟩
  · rw [← h.nodes]
    exact List.mem_map.mpr ⟨_, ht, rfl⟩
  -- A field of the own group with the name is among the siblings, so the target is of that group.
  · intro spot'' path'' parent'' group'' f'' node'' hp'' hparent'' hgroup'' hname''
    obtain rfl : parent'' = q.id := Option.some.inj hparent''
    obtain rfl : group'' = group := Option.some.inj hgroup''
    obtain ⟨q', hq', hchild, hid⟩ := h.exists_parent hp'' rfl
    obtain rfl := h.eq_of_id hq' hq hid
    obtain ⟨q', hq', hchild', hid'⟩ := h.exists_parent ht hparent
    obtain rfl := h.eq_of_id hq' hq hid'
    obtain ⟨s', hs', hgroup', hname'⟩ := hchild.mem_siblings
    have hown : s.group = group'' := by
      refine hgroup.resolve_right fun hno => hno s' hs' hgroup' ?_
      rw [hname', ← hname'']
      exact (h.sound _ hp'').name_eq.symm
    have hid := Position.slot_unique (h.sound _ hq) (h.sound _ hp'') (h.sound _ ht) hchild hchild'
      (by
        show FlatIndex.slot (some group'') node''.name = FlatIndex.slot (some s.group) target.name
        rw [hname'', htname, hown])
    exact hid.trans (htarget.trans hkey)

/-- The logic of a declared field is its condition without the empty clauses, in order; each rule
tests a field in the tree that stands beside it and has the declared name, of its own group if there
is one. The collection of a layout is shown where the builder is on and the layout is selected. -/
theorem conditions_resolve {definitions : Definitions} {resources : Resources}
    {registry : Registry} {now : Instant} {schema : CompiledSchema}
    (hbuilt : Gives (Registry.build definitions resources) registry)
    (hcompiled : Gives (compile registry now) schema) :
    (schema.group.positions registry).map Position.node = schema.group.nodes ∧
      (∀ spot path parent group f node,
        .field spot path parent group f node ∈ schema.group.positions registry →
          List.Forall₂
            (List.Forall₂ (Resolves registry schema (.field spot path parent group f node)))
            (f.clauses.filter fun clause => !clause.isEmpty) node.logic.clauses) ∧
      .field (Compile.enabledField registry) ∈ schema.group.nodes ∧
      .field (Compile.selectField registry) ∈ schema.group.nodes ∧
      ∀ path l node, .layout path l node ∈ schema.group.positions registry →
        node.logic.clauses = [[.equals (Compile.enabledField registry).key "1",
          .equals (Compile.selectField registry).key node.name]] := by
  have h := compile_follows hbuilt hcompiled
  have hgrown := compile_grown hbuilt hcompiled
  obtain ⟨henabled, hselect⟩ := compile_control_nodes hcompiled
  refine ⟨h.nodes, ?_, henabled, hselect, ?_⟩
  · intro spot path parent group f node hp
    cases hgrown.made _ hp with
    | field hlogic _ =>
      obtain ⟨q, hq, rfl, hresolve⟩ := hlogic
      exact (Condition.resolve_forall₂ hresolve).imp fun _ _ hclause =>
        hclause.imp fun _ _ hrule => h.resolves hgrown hq hp hrule
  · intro path l node hp
    cases hgrown.made _ hp with
    | layout => rfl

/-- A page of cards, whose tone matters where they have a title. -/
def cardDefinitions : Definitions :=
  { settings := { coreFields := false }
    blocks := .ofList [("card",
      { content := [.literal ⟨some "title", { type := "text" }, []⟩]
        customise := [.literal ⟨some "tone",
          { type := "text"
            condition := some (.anyOf [[], [⟨"title", "!=", .null⟩]]) }, []⟩] })]
    layouts := .ofList [("page", {})] }

def cardRegistry : Registry := (Registry.build cardDefinitions .empty).result

def cardSchema : CompiledSchema := (compile cardRegistry default).result

theorem cards_built : Gives (Registry.build cardDefinitions .empty) cardRegistry :=
  gives_result (by decide +kernel)

theorem cards_compiled : Gives (compile cardRegistry default) cardSchema :=
  gives_result (by decide +kernel)

/-- Whether a position is that of a field with two clauses, of which its node has one. -/
def Position.dropsClause : Position → Bool
  | .field _ _ _ _ f node => f.clauses.length == 2 && node.logic.clauses.length == 1
  | _ => false

/-- Of the two clauses of the tone the one with a rule is left, and it tests the title. -/
theorem cards_conditions :
    ∃ spot path parent group f node, .field spot path parent group f node ∈
        cardSchema.group.positions cardRegistry ∧ f.clauses.length = 2 ∧
      node.logic.clauses.length = 1 ∧
      List.Forall₂ (List.Forall₂
          (Resolves cardRegistry cardSchema (.field spot path parent group f node)))
        (f.clauses.filter fun clause => !clause.isEmpty) node.logic.clauses := by
  have hany : (cardSchema.group.positions cardRegistry).any Position.dropsClause = true := by
    decide +kernel
  obtain ⟨p, hp, hshape⟩ := List.any_eq_true.mp hany
  cases p with
  | field spot path parent group f node =>
    obtain ⟨htwo, hone⟩ := Bool.and_eq_true_iff.mp hshape
    exact ⟨spot, path, parent, group, f, node, hp, by simpa using htwo, by simpa using hone,
      (conditions_resolve cards_built cards_compiled).2.1 _ _ _ _ _ _ hp⟩
  | control => cases hshape
  | layout => cases hshape
  | variant => cases hshape
  | tab => cases hshape

end PageBlocks
