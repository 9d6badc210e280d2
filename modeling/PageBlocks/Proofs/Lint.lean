import PageBlocks.Proofs.Tree.Visibility
import PageBlocks.Lint

/-!
# The lint and the compiler

The lint walks the fields as they are declared, block by block, and goes on
behind whatever it finds. The compiler walks the fields that the kind of a block
makes of them, wherever the block can stand, and stops at the first fault. Both
judge the same:

> `lint_agrees`: without errors of the lint the definitions compile; and it has
> none where they compile to a tree that has every block in it, if all operators
> are known.

What the compiler has found in order is said of a field as it is declared
(`Field.Regular`), and read off the compiled tree, position by position. A block
that stands nowhere was never looked at, and operators never are: this is all
that the lint knows better.
-/

namespace PageBlocks

open Attempt

/-! ## Fields in order -/

/-- A field of a known type, whose sub-fields, where it has any, are told apart by their names and
are in order as well. -/
inductive Field.Regular : Field → Prop
  | mk {f : Field} {kind : FieldKind}
      (htype : FieldKind.ofName? f.attributes.type = some kind)
      (hunique : kind.hasSubFields = true → (f.subFields.map (·.name)).Nodup)
      (hsubs : kind.hasSubFields = true → ∀ s ∈ f.subFields, Regular s) : Regular f

mutual
/-- Whether the conditions in a field, at any depth, use known operators alone. -/
def Field.hasKnownOperators : Field → Bool
  | ⟨name, attributes, subFields⟩ =>
    (Field.clauses ⟨name, attributes, subFields⟩).flatten.all
        (fun r => Lint.operators.contains r.operator) &&
      Field.haveKnownOperators subFields

def Field.haveKnownOperators : List Field → Bool
  | [] => true
  | f :: rest => f.hasKnownOperators && Field.haveKnownOperators rest
end

theorem Field.haveKnownOperators_iff {fs : List Field} :
    Field.haveKnownOperators fs = true ↔ ∀ f ∈ fs, f.hasKnownOperators = true := by
  induction fs with
  | nil => simp [Field.haveKnownOperators]
  | cons f fs ih => simp [Field.haveKnownOperators, ih]

theorem Field.hasKnownOperators_iff {f : Field} :
    f.hasKnownOperators = true ↔
      (∀ r ∈ f.clauses.flatten, Lint.operators.contains r.operator = true) ∧
        ∀ s ∈ f.subFields, s.hasKnownOperators = true := by
  obtain ⟨name, attributes, subFields⟩ := f
  rw [hasKnownOperators, Bool.and_eq_true, List.all_eq_true, haveKnownOperators_iff]

/-- A row that took in a collection was in order without it if it is now. -/
theorem Field.Regular.of_withCollection {row : Field} (h : (Compile.withCollection row).Regular) :
    row.Regular := by
  unfold Compile.withCollection at h
  split at h
  next => exact h
  next =>
    cases h with
    | mk htype hunique hsubs =>
      refine .mk htype (fun hrows => ?_) fun hrows s hs => ?_
      · exact (List.nodup_cons.mp (hunique hrows)).2
      · exact hsubs hrows s (List.mem_cons_of_mem _ hs)

namespace Compile

theorem mem_of_modifyFirst {α : Type} {p : α → Bool} {f : α → α} {a : α} :
    ∀ {items : List α}, a ∈ items → a ∈ modifyFirst p f items ∨ f a ∈ modifyFirst p f items
  | [], h => absurd h List.not_mem_nil
  | first :: rest, h => by
    rw [modifyFirst]
    split
    next =>
      rcases List.mem_cons.mp h with rfl | h
      · exact .inr (List.mem_cons_self ..)
      · exact .inl (List.mem_cons_of_mem _ h)
    next =>
      rcases List.mem_cons.mp h with rfl | h
      · exact .inl (List.mem_cons_self ..)
      · exact (mem_of_modifyFirst h).imp (List.mem_cons_of_mem _) (List.mem_cons_of_mem _)

theorem map_modifyFirst {α β : Type} {p : α → Bool} {f : α → α} {g : α → β}
    (h : ∀ a, g (f a) = g a) (items : List α) : (modifyFirst p f items).map g = items.map g := by
  induction items with
  | nil => rfl
  | cons a rest ih =>
    rw [modifyFirst]
    split
    next => rw [List.map_cons, List.map_cons, h]
    next => rw [List.map_cons, List.map_cons, ih]

theorem withCollection_name (row : Field) : (withCollection row).name = row.name := by
  unfold withCollection
  split <;> rfl

/-- What a block declares as its content is compiled under the same names, in the same order; one
row may take in a collection, and one field may come before the others. -/
theorem content_given (b : Entity) :
    (b.fields.content.map (·.name)).Sublist ((content b).map (·.name)) ∧
      ∀ f ∈ b.fields.content, f ∈ content b ∨ withCollection f ∈ content b := by
  unfold content
  dsimp only
  split
  next =>
    split
    next => exact ⟨List.Sublist.refl _, fun f hf => .inl hf⟩
    next => exact ⟨List.sublist_cons_self .., fun f hf => .inl (List.mem_cons_of_mem _ hf)⟩
  next =>
    split
    next =>
      rw [map_modifyFirst withCollection_name]
      exact ⟨List.Sublist.refl _, fun f hf => mem_of_modifyFirst hf⟩
    next => exact ⟨List.sublist_cons_self .., fun f hf => .inl (List.mem_cons_of_mem _ hf)⟩
  next => exact ⟨List.Sublist.refl _, fun f hf => .inl hf⟩

end Compile

namespace Lint

/-! ## Findings -/

/-- Findings without an error among them. -/
def Harmless (findings : List Finding) : Prop := ∀ x ∈ findings, x.isError = false

theorem Harmless.append {xs ys : List Finding} (hxs : Harmless xs) (hys : Harmless ys) :
    Harmless (xs ++ ys) :=
  fun x hx => (List.mem_append.mp hx).elim (hxs x) (hys x)

theorem Harmless.flatMap {ι : Type} {find : ι → List Finding} {items : List ι}
    (h : ∀ i ∈ items, Harmless (find i)) : Harmless (items.flatMap find) := by
  intro x hx
  obtain ⟨i, hi, hx⟩ := List.mem_flatMap.mp hx
  exact h i hi x hx

theorem harmless_ite {p : Prop} [Decidable p] {x : Finding} (hx : x.isError = false) :
    Harmless (if p then [] else [x]) := by
  split
  next => exact fun _ h => absurd h List.not_mem_nil
  next => exact fun y hy => List.mem_singleton.mp hy ▸ hx

theorem any_isError_iff {findings : List Finding} :
    findings.any Finding.isError = false ↔ Harmless findings := by
  rw [List.any_eq_false]
  exact forall₂_congr fun x _ => Bool.not_eq_true _ ▸ Iff.rfl

theorem errors_eq_nil_iff {report : LintReport} :
    report.errors = [] ↔ Harmless report.findings := by
  unfold LintReport.errors
  rw [List.map_eq_nil_iff, List.filter_eq_nil_iff]
  exact forall₂_congr fun x _ => Bool.not_eq_true _ ▸ Iff.rfl

/-- Nothing is found to be repeated in a list of different names that are not taken. -/
theorem repetitions_eq_nil {names : List String} :
    ∀ {seen : List String}, names.Nodup → (∀ name ∈ names, name ∉ seen) →
      repetitions seen names = [] := by
  induction names with
  | nil => exact fun _ _ => rfl
  | cons name rest ih =>
    intro seen hnodup hfresh
    obtain ⟨hname, hrest⟩ := List.nodup_cons.mp hnodup
    have hnew : ¬seen.contains name = true := by
      rw [List.contains_iff_mem]
      exact hfresh name (List.mem_cons_self ..)
    rw [repetitions, if_neg hnew]
    refine ih hrest fun other hother => ?_
    rw [List.mem_cons, not_or]
    refine ⟨?_, hfresh other (List.mem_cons_of_mem _ hother)⟩
    rintro rfl
    exact hname hother

theorem rule_harmless {block field : String} {siblings : List String} {r : ConditionRule}
    (h : operators.contains r.operator = true) : Harmless (rule block field siblings r) := by
  unfold rule
  rw [if_pos h, List.append_nil]
  exact harmless_ite rfl

mutual
/-- A field in order, with known operators, gives no error. -/
theorem field_harmless {block : String} {siblings : List String} :
    ∀ {f : Field}, f.Regular → f.hasKnownOperators = true → Harmless (field block siblings f)
  | ⟨name, attributes, subFields⟩, hregular, hoperators => by
    obtain ⟨hrules, hknown⟩ := Field.hasKnownOperators_iff.mp hoperators
    cases hregular with
    | @mk _ kind htype hunique hsubs =>
      dsimp only at htype hunique hsubs hknown
      rw [field, htype]
      refine (Harmless.append ?_ ?_).append ?_
      · unfold Field.clauses at hrules
        dsimp only at hrules
        cases hcondition : attributes.condition with
        | none => exact fun _ h => absurd h List.not_mem_nil
        | some condition =>
          rw [hcondition] at hrules
          exact .flatMap fun r hr => rule_harmless (hrules r hr)
      · split
        next => exact fun x hx => List.mem_singleton.mp hx ▸ rfl
        next => exact fun _ h => absurd h List.not_mem_nil
      · by_cases hrows : kind.hasSubFields = true
        · rw [if_pos hrows, repetitions_eq_nil (hunique hrows) fun _ _ => List.not_mem_nil, List.map_nil,
            List.nil_append]
          exact fields_harmless (hsubs hrows) hknown
        · rw [if_neg hrows]
          exact fun _ h => absurd h List.not_mem_nil

theorem fields_harmless {block : String} {siblings : List String} :
    ∀ {fs : List Field}, (∀ f ∈ fs, f.Regular) → (∀ f ∈ fs, f.hasKnownOperators = true) →
      Harmless (fields block siblings fs)
  | [], _, _ => by
    rw [fields]
    exact fun _ h => absurd h List.not_mem_nil
  | f :: fs, hregular, hknown => by
    rw [fields]
    have hhere : Harmless (field block siblings f) :=
      field_harmless (hregular f (List.mem_cons_self ..)) (hknown f (List.mem_cons_self ..))
    exact hhere.append (fields_harmless (fun g hg => hregular g (List.mem_cons_of_mem _ hg))
      fun g hg => hknown g (List.mem_cons_of_mem _ hg))
end

/-! ## Blocks -/

/-- A group whose names are told apart, also from its tab, and whose fields are in order. -/
theorem members_harmless {block : String} {g : FieldGroup} {members : List Field}
    (hunique : (Compile.takenNames g members).Nodup) (hregular : ∀ f ∈ members, f.Regular)
    (hknown : ∀ f ∈ members, f.hasKnownOperators = true) :
    Harmless
      ((repetitions (if g = .content then [] else [g.tabName]) (members.map (·.name))).map
          (fun name => Finding.duplicateField name block g.name) ++
        fields block (members.map (·.name)) members) := by
  obtain ⟨hnames, -, hapart⟩ := List.nodup_append.mp hunique
  rw [repetitions_eq_nil hnames, List.map_nil, List.nil_append]
  · exact fields_harmless hregular hknown
  · intro name hname
    split
    next => exact List.not_mem_nil
    next hgroup =>
      -- The tab was among the names that were checked, as the group has a field.
      have hmembers : members.isEmpty = false := by
        cases members with
        | nil => exact absurd hname List.not_mem_nil
        | cons => rfl
      intro htab
      refine hapart name hname name ?_ rfl
      rw [if_pos ⟨hgroup, by rw [hmembers]; rfl⟩]
      exact htab

/-- The declared fields of a group are in order if those are that are compiled for it. -/
theorem group_harmless {settings : Settings} {b : Entity} {g : FieldGroup} {members : List Field}
    (hg : (g, members) ∈ Compile.groups settings b)
    (hunique : (Compile.takenNames g members).Nodup) (hregular : ∀ f ∈ members, f.Regular)
    (hknown : ∀ f ∈ b.fields.get g, f.hasKnownOperators = true) :
    Harmless (group settings b g) := by
  simp only [Compile.groups, List.mem_cons, Prod.mk.injEq, List.not_mem_nil, or_false] at hg
  unfold group
  dsimp only
  rcases hg with ⟨rfl, rfl⟩ | ⟨rfl, rfl⟩ | ⟨rfl, rfl⟩
  · have hmembers : (b.fields.get .content ++ if FieldGroup.content = .configure ∧
        settings.coreFields = true then Compile.coreFields else []) = b.fields.get .content := by
      rw [if_neg (fun h => absurd h.1 (by decide)), List.append_nil]
    rw [hmembers]
    obtain ⟨hnames, hgiven⟩ := Compile.content_given b
    refine members_harmless ?_ (fun f hf => ?_) hknown
    · exact hunique.sublist (hnames.append (List.Sublist.refl _))
    · rcases hgiven f hf with hsame | hrow
      · exact hregular f hsame
      · exact .of_withCollection (hregular _ hrow)
  · have hmembers : (b.fields.get .customise ++ if FieldGroup.customise = .configure ∧
        settings.coreFields = true then Compile.coreFields else []) = b.fields.get .customise := by
      rw [if_neg (fun h => absurd h.1 (by decide)), List.append_nil]
    rw [hmembers]
    exact members_harmless hunique hregular hknown
  · have hcore : ∀ f ∈ Compile.coreFields, f.hasKnownOperators = true := by decide
    simp only [true_and]
    refine members_harmless hunique hregular fun f hf => ?_
    rcases List.mem_append.mp hf with hf | hf
    · exact hknown f hf
    · split at hf
      next => exact hcore f hf
      next => exact absurd hf List.not_mem_nil

theorem children_harmless (registry : Registry) (parent : Entity) :
    Harmless (children registry parent) := by
  intro x hx
  obtain ⟨name, -, rfl⟩ := List.mem_map.mp hx
  rfl

/-- A block gives no error if all that is compiled for it is in order. -/
theorem block_harmless {registry : Registry} {b : Entity}
    (hunique : ∀ g ∈ Compile.groups registry.settings b, (Compile.takenNames g.1 g.2).Nodup)
    (hregular : ∀ g ∈ Compile.groups registry.settings b, ∀ f ∈ g.2, f.Regular)
    (hknown : ∀ g, ∀ f ∈ b.fields.get g, f.hasKnownOperators = true) :
    Harmless (block registry b) := by
  have hgroup : ∀ g, ∃ members, (g, members) ∈ Compile.groups registry.settings b := by
    intro g
    cases g <;> exact ⟨_, by simp [Compile.groups]; rfl⟩
  unfold block
  refine Harmless.append (.flatMap fun g _ => ?_) ?_
  · obtain ⟨members, hg⟩ := hgroup g
    exact group_harmless hg (hunique _ hg) (hregular _ hg) (hknown g)
  · split
    next => exact (children_harmless registry b).append (harmless_ite rfl)
    next => exact fun _ h => absurd h List.not_mem_nil

/-- Only blocks give errors. -/
theorem registered_harmless {registry : Registry}
    (hblocks : ∀ b ∈ registry.blocks.values, Harmless (block registry b)) :
    Harmless (registered registry) := by
  unfold registered
  refine ((Harmless.flatMap hblocks).append (.flatMap fun l _ => ?_)).append ?_
  · exact (children_harmless registry l).append (harmless_ite rfl)
  · dsimp only
    split
    next => exact fun x hx => List.mem_singleton.mp hx ▸ rfl
    next => exact fun _ h => absurd h List.not_mem_nil

mutual
theorem slot_harmless {generators : Generators} {block : String} :
    ∀ s : FieldSlot, Harmless (slot generators block s)
  | .generated ref => by
    rw [slot]
    exact harmless_ite rfl
  | .literal d => by
    rw [slot]
    exact declaration_harmless d

theorem declaration_harmless {generators : Generators} {block : String} :
    ∀ d : FieldDeclaration, Harmless (declaration generators block d)
  | ⟨name, attributes, subFields⟩ => by
    rw [declaration]
    exact slots_harmless subFields

theorem slots_harmless {generators : Generators} {block : String} :
    ∀ ss : List FieldSlot, Harmless (slots generators block ss)
  | [] => by
    rw [slots]
    exact fun _ h => absurd h List.not_mem_nil
  | s :: ss => by
    rw [slots]
    exact (slot_harmless s).append (slots_harmless ss)
end

/-- An unknown generator is no error: its slot is left out. -/
theorem references_harmless (generators : Generators) (definitions : Definitions) :
    Harmless (references generators definitions) :=
  .flatMap fun _ _ => slots_harmless _

end Lint

/-! ## What the compiler looked at -/

namespace CompiledSchema.Follows

variable {registry : Registry} {schema : CompiledSchema}

/-- What may be named below a node stands there. -/
theorem exists_sibling (h : schema.Follows registry)
    (hgrown : Grown registry [] (schema.group.positions registry)) {q : Position}
    (hq : q ∈ schema.group.positions registry) {s : Sibling}
    (hs : s ∈ q.siblings registry.settings) :
    ∃ spot path parent f node,
      .field spot path parent s.group f node ∈ schema.group.positions registry ∧
      f.name = s.name ∧
      Position.Child registry.settings q (.field spot path parent s.group f node) := by
  obtain ⟨p, hp, hparent, hsibling⟩ := hgrown.siblings q hq s hs
  obtain ⟨spot, path, parent, f, node, rfl, hname, -⟩ := Position.eq_field_of_sibling? hsibling
  obtain ⟨q', hq', hchild, hid⟩ := h.exists_parent hp hparent
  obtain rfl := h.eq_of_id hq' hq hid
  exact ⟨spot, path, parent, f, node, hp, hname, hchild⟩

mutual
/-- A declared field that stands somewhere is in order. -/
theorem regular (h : schema.Follows registry)
    (hgrown : Grown registry [] (schema.group.positions registry)) :
    ∀ (f : Field) {spot : Spot} {path : KeyPath} {parent : String} {group : FieldGroup}
      {node : FieldNode}, .field spot path parent group f node ∈ schema.group.positions registry →
      f.Regular
  | ⟨name, attributes, subFields⟩, spot, path, parent, group, node, hp => by
    cases h.sound _ hp with
    | field _ _ hkind _ hunique _ =>
      refine .mk hkind hunique fun hrows => all_regular h hgrown subFields fun s hs => ?_
      have hsibling : ⟨group, s.name, ((path.child s.name).encode .field)⟩ ∈
          Position.siblings registry.settings
            (.field spot path parent group ⟨name, attributes, subFields⟩ node) := by
        rw [Position.siblings, if_pos hrows]
        exact List.mem_map.mpr ⟨s, hs, rfl⟩
      obtain ⟨_, _, _, f, _, hmem, hname, hchild⟩ := h.exists_sibling hgrown hp hsibling
      cases hchild with
      | ofRow _ hf =>
        obtain rfl := List.inj_on_of_nodup_map (hunique hrows) hf hs hname
        exact ⟨_, _, _, _, _, hmem⟩

theorem all_regular (h : schema.Follows registry)
    (hgrown : Grown registry [] (schema.group.positions registry)) :
    ∀ (fs : List Field), (∀ f ∈ fs, ∃ spot path parent group node,
        .field spot path parent group f node ∈ schema.group.positions registry) →
      ∀ f ∈ fs, f.Regular
  | [], _, f, hf => absurd hf List.not_mem_nil
  | first :: rest, hplaced, f, hf => by
    rcases List.mem_cons.mp hf with hfirst | hf
    · obtain ⟨_, _, _, _, _, hp⟩ := hplaced first (List.mem_cons_self ..)
      rw [hfirst]
      exact regular h hgrown first hp
    · exact all_regular h hgrown rest (fun g hg => hplaced g (List.mem_cons_of_mem _ hg)) f hf
end

/-- All that is compiled for a block that stands somewhere is in order. -/
theorem groups_regular (h : schema.Follows registry)
    (hgrown : Grown registry [] (schema.group.positions registry)) {b : Entity}
    (hb : registry.block? b.name = some b) {n : BlockNode}
    (hn : .block n ∈ schema.group.nodes) (hname : n.name = b.name) :
    ∀ g ∈ Compile.groups registry.settings b,
      (Compile.takenNames g.1 g.2).Nodup ∧ ∀ f ∈ g.2, f.Regular := by
  rw [← h.nodes, List.mem_map] at hn
  obtain ⟨q, hq, hnode⟩ := hn
  cases q with
  | control => cases hnode
  | layout => cases hnode
  | tab => cases hnode
  | field => cases hnode
  | variant spot path collection b' node =>
    cases hnode
    cases h.sound _ hq with
    | variant hblock _ hname' _ _ hunique =>
      rw [← hname'.symm.trans hname, hblock] at hb
      obtain rfl := Option.some.inj hb
      rintro ⟨g, members⟩ hg
      refine ⟨hunique _ hg, fun f hf => ?_⟩
      have hsibling : ⟨g, f.name, (((path.child g.name).child f.name).encode .field)⟩ ∈
          Position.siblings registry.settings (.variant spot path collection b' n) := by
        rw [Position.siblings]
        exact List.mem_flatMap.mpr ⟨(g, members), hg, List.mem_map.mpr ⟨f, hf, rfl⟩⟩
      obtain ⟨_, _, _, f', _, hmem, hfname, hchild⟩ := h.exists_sibling hgrown hq hsibling
      cases hchild with
      | @ofBlock _ _ _ _ _ _ members' _ _ hg' hf' =>
        -- A block has one list of fields for each group.
        obtain rfl : members' = members := by
          simp only [Compile.groups, List.mem_cons, Prod.mk.injEq, List.not_mem_nil,
            or_false] at hg hg'
          rcases hg with ⟨rfl, rfl⟩ | ⟨rfl, rfl⟩ | ⟨rfl, rfl⟩ <;> simpa using hg'
        have hnames : (members'.map (·.name)).Nodup := (List.nodup_append.mp (hunique _ hg)).1
        obtain rfl := List.inj_on_of_nodup_map hnames hf' hf hfname
        exact h.regular hgrown f' hmem

end CompiledSchema.Follows

/-! ## The lint -/

/-- A registry compiles if its field group does, without a collision of ids. -/
theorem compile_gives_iff (registry : Registry) (now : Instant) :
    (∃ schema, Gives (compile registry now) schema) ↔
      ∃ group, ((Compile.fieldGroup registry).runOn .empty).result = .ok group := by
  have hvalue : (compile registry now).run.value =
      ((Compile.fieldGroup registry).runOn .empty).result.map fun group =>
        { group := group
          index := ((Compile.fieldGroup registry).runOn .empty).index
          sourceHash := registry.sourceHash
          keyScheme := keyScheme
          compiledAt := now } := by
    unfold compile
    dsimp only
    cases ((Compile.fieldGroup registry).runOn .empty).result <;> rfl
  unfold Gives
  rw [hvalue]
  cases ((Compile.fieldGroup registry).runOn .empty).result with
  | error error => exact ⟨nofun, nofun⟩
  | ok group => exact ⟨fun _ => ⟨group, rfl⟩, fun _ => ⟨_, rfl⟩⟩

theorem Noted.value_bind {α β : Type} (x : Noted α) (f : α → Noted β) :
    (x >>= f).value = (f x.value).value := rfl

/-- What a lint finds. -/
theorem lint_findings (definitions : Definitions) (resources : Resources) :
    (lint definitions resources).value.findings =
      match (Registry.build definitions resources).run.value with
      | .error error => Lint.references resources.generators definitions ++ [.rejected error]
      | .ok registry =>
        let found := Lint.references resources.generators definitions ++ Lint.registered registry
        if found.any Finding.isError then found
        else
          match ((Compile.fieldGroup registry).runOn .empty).result with
          | .error error => found ++ [.rejected error]
          | .ok _ => found := by
  unfold lint Attempt.outcome
  rw [Noted.value_bind]
  cases (Registry.build definitions resources).run.value with
  | error error => rfl
  | ok registry =>
    dsimp only
    rw [Noted.value_bind]
    split
    next => rfl
    next =>
      rw [Noted.value_bind]
      cases ((Compile.fieldGroup registry).runOn .empty).result <;> rfl

/-- A lint without errors saw a registry that compiles, and found no error in it. -/
theorem lint_errors_eq_nil_iff {definitions : Definitions} {resources : Resources}
    (now : Instant) :
    (lint definitions resources).value.errors = [] ↔
      ∃ registry, Gives (Registry.build definitions resources) registry ∧
        Lint.Harmless (Lint.registered registry) ∧
        ∃ schema, Gives (compile registry now) schema := by
  rw [Lint.errors_eq_nil_iff, lint_findings]
  have hrejected : ∀ {found : List Finding} {error : Error},
      ¬Lint.Harmless (found ++ [.rejected error]) := fun h =>
    nomatch h _ (List.mem_append_right _ (List.mem_singleton.mpr rfl))
  unfold Gives
  cases (Registry.build definitions resources).run.value with
  | error error =>
    refine ⟨fun h => (hrejected h).elim, ?_⟩
    rintro ⟨_, hbuilt, -⟩
    cases hbuilt
  | ok registry =>
    have hfound :
        ((Lint.references resources.generators definitions ++ Lint.registered registry).any
          Finding.isError = false) ↔ Lint.Harmless (Lint.registered registry) := by
      rw [Lint.any_isError_iff]
      exact ⟨fun h x hx => h x (List.mem_append_right _ hx),
        (Lint.references_harmless resources.generators definitions).append⟩
    have hcompiles := compile_gives_iff registry now
    unfold Gives at hcompiles
    dsimp only
    split
    next hany =>
      constructor
      · intro h
        rw [Lint.any_isError_iff.mpr h] at hany
        cases hany
      · rintro ⟨_, hbuilt, hharmless, -⟩
        cases hbuilt
        rw [hfound.mpr hharmless] at hany
        cases hany
    next hany =>
      have hnone := Bool.not_eq_true _ ▸ hany
      cases hresult : ((Compile.fieldGroup registry).runOn .empty).result with
      | error error =>
        refine ⟨fun h => (hrejected h).elim, ?_⟩
        rintro ⟨_, hbuilt, -, hgives⟩
        cases hbuilt
        obtain ⟨group, hgroup⟩ := hcompiles.mp hgives
        rw [hresult] at hgroup
        cases hgroup
      | ok group =>
        exact ⟨fun _ => ⟨registry, rfl, hfound.mp hnone, hcompiles.mpr ⟨group, hresult⟩⟩,
          fun _ => Lint.any_isError_iff.mp hnone⟩

/-- Definitions without errors of the lint build and compile; and definitions that build and
compile, every block of which stands somewhere in the tree and whose conditions use known operators
alone, are without errors of the lint. -/
theorem lint_agrees {definitions : Definitions} {resources : Resources} (now : Instant) :
    ((lint definitions resources).value.errors = [] →
      ∃ registry schema, Gives (Registry.build definitions resources) registry ∧
        Gives (compile registry now) schema) ∧
    ∀ registry schema, Gives (Registry.build definitions resources) registry →
      Gives (compile registry now) schema →
      (∀ b ∈ registry.blocks.values, ∃ n, .block n ∈ schema.group.nodes ∧ n.name = b.name) →
      (∀ b ∈ registry.blocks.values, ∀ g, ∀ f ∈ b.fields.get g, f.hasKnownOperators = true) →
      (lint definitions resources).value.errors = [] := by
  constructor
  · intro hnone
    obtain ⟨registry, hbuilt, -, schema, hcompiled⟩ := (lint_errors_eq_nil_iff now).mp hnone
    exact ⟨registry, schema, hbuilt, hcompiled⟩
  · intro registry schema hbuilt hcompiled hplaced hknown
    refine (lint_errors_eq_nil_iff now).mpr
      ⟨registry, hbuilt, Lint.registered_harmless fun b hb => ?_, schema, hcompiled⟩
    have h := compile_follows hbuilt hcompiled
    obtain ⟨name, hget⟩ := Dict.mem_values_iff.mp hb
    obtain ⟨rfl, -, -⟩ := h.registered.block hget
    obtain ⟨n, hn, hname⟩ := hplaced b hb
    have hgroups := h.groups_regular (compile_grown hbuilt hcompiled) hget hn hname
    exact Lint.block_harmless (fun g hg => (hgroups g hg).1) (fun g hg => (hgroups g hg).2)
      (hknown b hb)

/-- Whether a node is a variant of a block. -/
def TreeNode.isVariantOf (name : String) : TreeNode → Bool
  | .block n => n.name == name
  | .field _ => false

theorem cards_lint : (lint cardDefinitions .empty).value.errors = [] := by
  have hplaced : cardRegistry.blocks.values.all (fun b =>
      cardSchema.group.nodes.any (·.isVariantOf b.name)) = true := by decide +kernel
  have hknown : cardRegistry.blocks.values.all (fun b =>
      FieldGroup.all.all fun g => (b.fields.get g).all Field.hasKnownOperators) = true := by
    decide +kernel
  refine (lint_agrees default).2 cardRegistry cardSchema cards_built cards_compiled
    (fun b hb => ?_) fun b hb g f hf => ?_
  · obtain ⟨node, hnode, hvariant⟩ := List.any_eq_true.mp (List.all_eq_true.mp hplaced b hb)
    cases node with
    | field => cases hvariant
    | block n => exact ⟨n, hnode, by simpa [TreeNode.isVariantOf] using hvariant⟩
  · have hg : g ∈ FieldGroup.all := by cases g <;> decide
    exact List.all_eq_true.mp (List.all_eq_true.mp (List.all_eq_true.mp hknown b hb) g hg) f hf

end PageBlocks
