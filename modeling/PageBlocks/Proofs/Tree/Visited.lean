import PageBlocks.Proofs.Tree.Addresses
import PageBlocks.Proofs.Tree.Published

/-!
# No id is taken

A compilation that walks a registry registers the nodes at the addresses of the
expansion, one after the other, until it ends or fails (`Visits`). It never
comes to an address twice: at each level the names were checked before the
nodes were made, candidates of a collection are different blocks as long as no
list of blocks repeats a name, and levels do not mix, since the fields of a
group stand behind the group's name and tabs behind `tabs`, which is no group.

> `fieldGroup_visits`: compiling a registry visits its addresses;
> `absorb_free`: ids that are distinct are never found taken.
-/

namespace PageBlocks

open Attempt

/-! ## Lists of blocks without repetitions -/

/-- A list of names names nothing twice. -/
def NameFilter.isDistinct : NameFilter → Bool
  | .only names => decide names.Nodup
  | .any | .except _ => true

mutual
/-- No list of blocks of a field, or of one below it, names a block twice. -/
def Field.hasDistinctLists : Field → Bool
  | ⟨_, attributes, subFields⟩ =>
    attributes.blocks.all NameFilter.isDistinct && Field.haveDistinctLists subFields

def Field.haveDistinctLists : List Field → Bool
  | [] => true
  | f :: fs => f.hasDistinctLists && Field.haveDistinctLists fs
end

/-- No list of blocks of an entity or of its fields names a block twice. -/
def Entity.hasDistinctLists (e : Entity) : Bool :=
  e.children.isDistinct && FieldGroup.all.all fun g => Field.haveDistinctLists (e.fields.get g)

/-- No list of blocks in a registry names a block twice. -/
def Registry.hasDistinctLists (r : Registry) : Bool :=
  (r.blocks.values ++ r.layouts.values).all Entity.hasDistinctLists

theorem Field.haveDistinctLists_iff {fs : List Field} :
    Field.haveDistinctLists fs = true ↔ ∀ f ∈ fs, f.hasDistinctLists = true := by
  induction fs with
  | nil => simp [haveDistinctLists]
  | cons f fs ih => rw [haveDistinctLists, Bool.and_eq_true, ih, List.forall_mem_cons]

theorem Field.hasDistinctLists_iff {f : Field} :
    f.hasDistinctLists = true ↔ f.attributes.blocks.all NameFilter.isDistinct = true ∧
      ∀ s ∈ f.subFields, s.hasDistinctLists = true := by
  obtain ⟨name, attributes, subFields⟩ := f
  rw [hasDistinctLists, Bool.and_eq_true, haveDistinctLists_iff]

theorem Entity.hasDistinctLists_iff {e : Entity} :
    e.hasDistinctLists = true ↔ e.children.isDistinct = true ∧
      ∀ g, ∀ f ∈ e.fields.get g, f.hasDistinctLists = true := by
  rw [hasDistinctLists, Bool.and_eq_true, List.all_eq_true]
  simp only [Field.haveDistinctLists_iff]
  constructor
  · intro h
    exact ⟨h.1, fun g => h.2 g (by cases g <;> decide)⟩
  · intro h
    exact ⟨h.1, fun g _ => h.2 g⟩

/-- Also the fields that the kind of a block calls for have no list with repetitions. -/
theorem Compile.groups_distinctLists {settings : Settings} {b : Entity}
    (h : b.hasDistinctLists = true) :
    ∀ g ∈ groups settings b, ∀ f ∈ g.2, f.hasDistinctLists = true := by
  have hplain : ∀ f : Field, f.attributes.blocks = none → f.subFields = [] →
      f.hasDistinctLists = true := by
    intro f hblocks hsubs
    rw [Field.hasDistinctLists_iff, hblocks, hsubs]
    exact ⟨rfl, fun _ hs => absurd hs List.not_mem_nil⟩
  refine groups_forall (fun f _ hblocks _ _ => hplain f hblocks) (fun row hrow => ?_)
    (Entity.hasDistinctLists_iff.mp h).2
  unfold withCollection
  split
  next => exact hrow
  next =>
    obtain ⟨hblocks, hsubs⟩ := Field.hasDistinctLists_iff.mp hrow
    refine Field.hasDistinctLists_iff.mpr ⟨hblocks, fun s hs => ?_⟩
    rcases List.mem_cons.mp hs with rfl | hs
    · exact hplain _ rfl rfl
    · exact hsubs s hs

namespace Registry

theorem block_distinctLists {r : Registry} (h : r.hasDistinctLists = true) {name : String}
    {b : Entity} (hb : r.block? name = some b) : b.hasDistinctLists = true := by
  refine List.all_eq_true.mp h b (List.mem_append_left _ ?_)
  exact Dict.mem_values_iff.mpr ⟨name, hb⟩

theorem layout_distinctLists {r : Registry} (h : r.hasDistinctLists = true) {l : Entity}
    (hl : l ∈ r.layouts.values) : l.hasDistinctLists = true :=
  List.all_eq_true.mp h l (List.mem_append_right _ hl)

/-- Entities of one kind go by different names. -/
theorem nodup_names {entities : Dict Entity}
    (hname : ∀ {name : String} {e : Entity}, entities.get? name = some e → e.name = name) :
    (entities.values.map (·.name)).Nodup := by
  have hkeys : entities.values.map (·.name) = entities.keys := by
    unfold Dict.values Dict.keys
    rw [List.map_map]
    exact List.map_congr_left fun entry hentry => hname (Dict.mem_entries_iff.mp hentry)
  rw [hkeys]
  exact Entries.Sorted.nodup_keys entities.sorted

/-- A list without repetitions selects different blocks; other filters always do. -/
theorem Sound.nodup_candidates {r : Registry} (hr : r.Sound) {filter : NameFilter}
    (h : filter.isDistinct = true) : ((r.candidates filter).map (·.name)).Nodup := by
  have hvalues : (r.blocks.values.map (·.name)).Nodup := nodup_names fun hget => (hr.block hget).1
  cases filter with
  | any => exact hvalues.sublist ((List.filter_sublist ..).map _)
  | except names => exact hvalues.sublist ((List.filter_sublist ..).map _)
  | only names =>
    have hnames : names.Nodup := of_decide_eq_true h
    show ((names.filterMap r.block?).map (·.name)).Nodup
    rw [List.map_filterMap]
    refine hnames.filterMap fun a b c ha hb => ?_
    obtain ⟨x, hx, hxc⟩ := Option.map_eq_some_iff.mp ha
    obtain ⟨y, hy, hyc⟩ := Option.map_eq_some_iff.mp hb
    rw [← (hr.block hx).1, ← (hr.block hy).1, hxc, hyc]

end Registry

/-! ## Compilations that visit addresses -/

namespace Compilation

variable {α β : Type}

/-- The ids that a compilation registers, in order; what a failed one registered counts. -/
def ids (c : Compilation α) : List String :=
  (c.run.emissions.filterMap Emission.entry?).map IndexEntry.key

/-- A compilation registers the nodes at some addresses, in order and each once. When it fails,
only the first of them are registered, and the error is not one of ids. -/
structure Visits (c : Compilation α) (addresses : List Address) : Prop where
  ids : ∃ visited rest, addresses = visited ++ rest ∧ c.ids = visited.map Address.id ∧
    visited.Nodup ∧ ∀ a, c.run.value = .ok a → rest = []
  error : ∀ key entity, c.run.value ≠ .error (.keyCollision key entity)

theorem bind_ok {c : Compilation α} {f : α → Compilation β} {a : α} (h : c.run.value = .ok a) :
    (c >>= f).ids = c.ids ++ (f a).ids ∧ (c >>= f).run.value = (f a).run.value := by
  unfold ids
  rw [ExceptT.run_bind]
  cases hc : c.run with
  | mk value emissions =>
    rw [hc] at h
    cases (h : value = _)
    refine ⟨?_, rfl⟩
    rw [← List.map_append, ← List.filterMap_append]
    rfl

theorem bind_error {c : Compilation α} {f : α → Compilation β} {e : Error}
    (h : c.run.value = .error e) :
    (c >>= f).ids = c.ids ∧ (c >>= f).run.value = .error e := by
  unfold ids
  rw [ExceptT.run_bind]
  cases hc : c.run with
  | mk value emissions =>
    rw [hc] at h
    cases (h : value = _)
    refine ⟨?_, rfl⟩
    show ((emissions ++ []).filterMap Emission.entry?).map IndexEntry.key = _
    rw [List.append_nil]

namespace Visits

variable {c : Compilation α} {f : α → Compilation β} {as bs : List Address}

theorem pure (a : α) : Visits (Pure.pure a : Compilation α) [] :=
  ⟨⟨[], [], rfl, rfl, List.nodup_nil, fun _ _ => rfl⟩, nofun⟩

/-- What fails at once visits none of the addresses it might have. -/
theorem throw {e : Error} (he : ∀ key entity, e ≠ .keyCollision key entity) :
    Visits (MonadExcept.throw e : Compilation α) as :=
  ⟨⟨[], as, rfl, rfl, List.nodup_nil, fun _ h => nomatch h⟩,
    fun key entity h => he key entity (Except.error.inj h)⟩

theorem noteAll (ns : List Notice) : Visits (Compilation.noteAll ns) [] := by
  refine ⟨⟨[], [], rfl, ?_, List.nodup_nil, fun _ _ => rfl⟩, nofun⟩
  have hnone : (ns.map Emission.notice ++ []).filterMap Emission.entry? = [] := by
    rw [List.append_nil, List.filterMap_map]
    exact List.filterMap_eq_nil_iff.mpr fun _ _ => rfl
  exact congrArg (List.map IndexEntry.key) hnone

theorem check {x : Except Error α} (hx : ∀ key entity, x ≠ .error (.keyCollision key entity)) :
    Visits (ExceptT.mk (Pure.pure x) : Compilation α) [] :=
  ⟨⟨[], [], rfl, rfl, List.nodup_nil, fun _ _ => rfl⟩, hx⟩

theorem register {e : IndexEntry} {a : Address} (h : e.key = a.id) :
    Visits (Compilation.register e) [a] :=
  ⟨⟨[a], [], rfl, congrArg (· :: []) h, List.nodup_singleton a, fun _ _ => rfl⟩, nofun⟩

/-- One compilation after the other: what the first one made may be used to show what the second
one visits. -/
theorem bind (hc : Visits c as) (hf : ∀ a, c.run.value = .ok a → Visits (f a) bs)
    (hapart : as.Disjoint bs) : Visits (c >>= f) (as ++ bs) := by
  obtain ⟨⟨visited, rest, rfl, hids, hnodup, hall⟩, herror⟩ := hc
  cases hvalue : c.run.value with
  | error e =>
    obtain ⟨hsame, hfails⟩ := bind_error (f := f) hvalue
    refine ⟨⟨visited, rest ++ bs, by rw [List.append_assoc], hsame.trans hids, hnodup, ?_⟩, ?_⟩
    · intro a ha
      rw [hfails] at ha
      cases ha
    · intro key entity h
      rw [hfails] at h
      exact herror key entity (hvalue.trans (congrArg Except.error (Except.error.inj h)))
  | ok a =>
    obtain ⟨hboth, hsame⟩ := bind_ok (f := f) hvalue
    obtain ⟨⟨visited', rest', rfl, hids', hnodup', hall'⟩, herror'⟩ := hf a hvalue
    obtain rfl := hall a hvalue
    rw [List.append_nil] at hapart
    refine ⟨⟨visited ++ visited', rest', by simp, ?_, ?_, ?_⟩, ?_⟩
    · rw [hboth, hids, hids', List.map_append]
    · refine List.nodup_append.mpr ⟨hnodup, hnodup', fun x hx y hy hxy => ?_⟩
      exact hapart hx (hxy ▸ List.mem_append_left _ hy)
    · rw [hsame]
      exact hall'
    · rw [hsame]
      exact herror'

/-- A step without nodes. -/
theorem bind_silent (hc : Visits c []) (hf : ∀ a, c.run.value = .ok a → Visits (f a) bs) :
    Visits (c >>= f) bs := bind hc hf (List.disjoint_nil_left bs)

/-- A last step without nodes. -/
theorem bind_last (hc : Visits c as) (hf : ∀ a, c.run.value = .ok a → Visits (f a) []) :
    Visits (c >>= f) as := by
  have h := bind hc hf (List.disjoint_nil_right as)
  rwa [List.append_nil] at h

/-- What fails at once is not followed by anything. -/
theorem bind_throw {e : Error} {f : α → Compilation β}
    (he : ∀ key entity, e ≠ .keyCollision key entity) :
    Visits ((MonadExcept.throw e : Compilation α) >>= f) as :=
  throw he

/-- Items that have no address in common are visited one after the other. -/
theorem mapM {ι : Type} {f : ι → Compilation β} {at' : ι → List Address} :
    ∀ {items : List ι}, (∀ i ∈ items, Visits (f i) (at' i)) →
      items.Pairwise (fun i j => (at' i).Disjoint (at' j)) →
      Visits (items.mapM f) (items.flatMap at')
  | [], _, _ => by
    rw [List.mapM_nil]
    exact pure []
  | i :: items, hitems, hapart => by
    obtain ⟨hfirst, hrest⟩ := List.pairwise_cons.mp hapart
    rw [List.mapM_cons, List.flatMap_cons]
    refine bind (hitems i (List.mem_cons_self ..)) (fun b _ => ?_) ?_
    · have hmore := mapM (fun j hj => hitems j (List.mem_cons_of_mem _ hj)) hrest
      exact bind_last hmore fun bs _ => pure (b :: bs)
    · intro a ha hmem
      obtain ⟨j, hj, haj⟩ := List.mem_flatMap.mp hmem
      exact hfirst j hj ha haj

theorem checks {ι : Type} {f : ι → Except Error Unit}
    (hf : ∀ i key entity, f i ≠ .error (.keyCollision key entity)) :
    ∀ items : List ι,
      Visits (items.forM fun i => (ExceptT.mk (Pure.pure (f i)) : Compilation Unit)) []
  | [] => pure ()
  | i :: items => bind_silent (c := ExceptT.mk (Pure.pure (f i)))
      (f := fun _ => items.forM fun i => ExceptT.mk (Pure.pure (f i))) (check (hf i))
      fun _ _ => checks hf items

end Visits

/-- Checks made one after the other have all passed when the last one has. -/
theorem checks_ok {ι : Type} {f : ι → Except Error Unit} {items : List ι} {u : Unit}
    (h : (items.forM fun i => (ExceptT.mk (Pure.pure (f i)) : Compilation Unit)).run.value =
      .ok u) : ∀ i ∈ items, f i = .ok () :=
  (makes_checks ⟨h, rfl⟩).2

end Compilation

/-! ## Errors of the checks -/

theorem error_of_mapM {α β : Type} {f : α → Except Error β} {e : Error} :
    ∀ {items : List α}, items.mapM f = .error e → ∃ a ∈ items, f a = .error e
  | [], h => by
    rw [List.mapM_nil] at h
    cases h
  | a :: items, h => by
    rw [List.mapM_cons] at h
    cases ha : f a with
    | error e' =>
      rw [ha] at h
      obtain rfl : e' = e := Except.error.inj h
      exact ⟨a, List.mem_cons_self .., ha⟩
    | ok b =>
      rw [ha] at h
      cases hrest : items.mapM f with
      | error e' =>
        rw [hrest] at h
        obtain rfl : e' = e := Except.error.inj h
        obtain ⟨a', ha', hfails⟩ := error_of_mapM hrest
        exact ⟨a', List.mem_cons_of_mem _ ha', hfails⟩
      | ok bs =>
        rw [hrest] at h
        cases h

/-- A condition fails for a sibling that there is not. -/
theorem Condition.resolve_error {owner field : String} {siblings : List Sibling}
    {group : FieldGroup} {condition : Option Condition} {e : Error}
    (h : Condition.resolve owner field siblings group condition = .error e) :
    ∃ name, e = .unknownConditionField owner field name := by
  cases condition with
  | none => cases h
  | some condition =>
    rw [Condition.resolve] at h
    cases hclauses : condition.clauses.mapM fun clause =>
        clause.mapM (ConditionRule.resolve owner field siblings group) with
    | ok clauses =>
      rw [hclauses] at h
      cases h
    | error e' =>
      rw [hclauses] at h
      obtain rfl : e' = e := Except.error.inj h
      obtain ⟨clause, -, hclause⟩ := error_of_mapM hclauses
      obtain ⟨r, -, hr⟩ := error_of_mapM hclause
      unfold ConditionRule.resolve at hr
      split at hr
      next => cases hr
      next => exact ⟨r.field, (Except.error.inj hr).symm⟩

theorem checkUnique_error {entity group : String} {names : List String} {e : Error}
    (h : checkUnique entity group names = .error e) :
    ∃ name, e = .duplicateFieldName entity group name := by
  unfold checkUnique at h
  split at h
  next name _ => exact ⟨name, (Except.error.inj h).symm⟩
  next => cases h

/-! ## The compiler -/

namespace Compile

open Compilation Address

/-- A way to fill collections that visits the addresses inside them. -/
def Covers (fill : Filling) (inside : Expansion.Inside) : Prop :=
  ∀ site filter path key, filter.isDistinct = true →
    Visits (fill site filter path key) (inside site filter path)

section Fields

variable {fill : Filling} {inside : Expansion.Inside} {site : Site} {owner : Entity}
  {group : FieldGroup}

mutual
theorem field_visits (hcovers : Covers fill inside) (hinside : inside.Below)
    (howner : owner.children.isDistinct = true) {siblings : List Sibling} {path : KeyPath}
    {parent : String} :
    ∀ (f : Field), f.Named → f.hasDistinctLists = true →
      Visits (field fill site owner group siblings path parent f)
        (Expansion.field inside site owner path f)
  | ⟨name, attributes, subFields⟩, hnamed, hlists => by
    obtain ⟨hblocks, hsublists⟩ := Field.hasDistinctLists_iff.mp hlists
    have hsubnamed : ∀ s ∈ subFields, s.Named := hnamed.subFields
    rw [field, Expansion.field]
    cases hkind : FieldKind.ofName? attributes.type with
    | none =>
      refine Visits.bind_throw fun _ _ h => ?_
      cases h
    | some kind =>
      dsimp only
      rw [pure_bind]
      refine Visits.bind_silent (Visits.noteAll _) fun _ _ => ?_
      refine Visits.bind_silent (Visits.check fun key entity h => ?_) fun logic _ => ?_
      · obtain ⟨sibling, hno⟩ := Condition.resolve_error h
        cases hno
      -- By what the kind holds; its own address comes last, and is above all of it.
      have hlast : ∀ node : FieldNode, node.key = (path.child name).encode .field →
          Visits (do
            register (fieldEntry node owner.ref (some group) (some parent) site.layoutName)
            return node : Compilation FieldNode) [⟨.field, path.child name⟩] :=
        fun node hkey => Visits.bind_last (Visits.register hkey) fun _ _ => Visits.pure node
      have habove : ∀ as : List Address, (∀ a ∈ as, Below (path.child name) a) →
          as.Disjoint [⟨.field, path.child name⟩] := by
        intro as has a ha hmem
        rw [List.mem_singleton.mp hmem] at ha
        exact (has _ ha).path_ne rfl
      by_cases hcollection : kind.isBlockCollection = true
      · have hsub : ¬kind.hasSubFields = true :=
          fun hsub => not_collection_of_hasSubFields hsub hcollection
        have hfilter : (attributes.blocks.getD owner.children).isDistinct = true := by
          cases hown : attributes.blocks with
          | none => exact howner
          | some filter =>
            rw [hown] at hblocks
            exact hblocks
        rw [if_pos hcollection, if_pos hcollection]
        refine Visits.bind (hcovers _ _ _ _ hfilter) (fun layouts _ => ?_)
          (habove _ (hinside _ _ _))
        rw [if_neg hsub, pure_bind]
        exact hlast _ rfl
      · rw [if_neg hcollection, if_neg hcollection, pure_bind]
        by_cases hsub : kind.hasSubFields = true
        · rw [if_pos hsub, if_pos hsub]
          refine Visits.bind_silent (Visits.check fun key entity h => ?_) fun _ hunique => ?_
          · obtain ⟨twice, hno⟩ := checkUnique_error h
            cases hno
          · have hnames : (subFields.map (·.name)).Nodup := checkUnique_nodup hunique
            refine Visits.bind (fields_visits hcovers hinside howner subFields hsubnamed hsublists
              hnames) (fun rows _ => hlast _ rfl) ?_
            exact habove _ (Expansion.fields_below hinside subFields hsubnamed)
        · rw [if_neg hsub, if_neg hsub, pure_bind]
          exact hlast _ rfl

theorem fields_visits (hcovers : Covers fill inside) (hinside : inside.Below)
    (howner : owner.children.isDistinct = true) {siblings : List Sibling} {path : KeyPath}
    {parent : String} :
    ∀ (fs : List Field), (∀ f ∈ fs, f.Named) → (∀ f ∈ fs, f.hasDistinctLists = true) →
      (fs.map (·.name)).Nodup →
      Visits (fields fill site owner group siblings path parent fs)
        (Expansion.fields inside site owner path fs)
  | [], _, _, _ => by
    rw [fields, Expansion.fields]
    exact Visits.pure []
  | f :: fs, hnamed, hlists, hnames => by
    rw [List.map_cons, List.nodup_cons] at hnames
    have hf : f.Named := hnamed f (List.mem_cons_self ..)
    have hfs : ∀ g ∈ fs, g.Named := fun g hg => hnamed g (List.mem_cons_of_mem _ hg)
    rw [fields, Expansion.fields]
    refine Visits.bind (field_visits hcovers hinside howner f hf (hlists f (List.mem_cons_self ..)))
      (fun node _ => ?_) ?_
    · have hrest : Visits (fields fill site owner group siblings path parent fs)
          (Expansion.fields inside site owner path fs) :=
        fields_visits hcovers hinside howner fs hfs
          (fun g hg => hlists g (List.mem_cons_of_mem _ hg)) hnames.2
      exact Visits.bind_last hrest fun nodes _ => Visits.pure (node :: nodes)
    · intro a ha hmem
      obtain ⟨g, hg, hag⟩ := Expansion.mem_fields hmem
      have hsame : f.name = g.name := (Expansion.field_beyond hinside f hf a ha).name_eq
        (Expansion.field_beyond hinside g (hfs g hg) a hag)
      exact hnames.1 (hsame ▸ List.mem_map_of_mem (f := (·.name)) hg)
end

end Fields

/-! ## Blocks -/

section Blocks

variable {fill : Filling} {inside : Expansion.Inside} {site : Site} {b : Entity}
  {path : KeyPath}

theorem group_visits (hcovers : Covers fill inside) (hinside : inside.Below)
    (howner : b.children.isDistinct = true) {key : String} {siblings : List Sibling}
    {g : FieldGroup × List Field} (hnamed : ∀ f ∈ g.2, f.Named)
    (hlists : ∀ f ∈ g.2, f.hasDistinctLists = true) (hnames : (g.2.map (·.name)).Nodup) :
    Visits (groupNodes fill site b path key siblings g.1 g.2)
      (Expansion.group inside site b path g) := by
  unfold groupNodes Expansion.group
  by_cases hempty : g.2.isEmpty = true
  · rw [if_pos hempty, if_pos hempty]
    exact Visits.pure []
  · rw [if_neg hempty, if_neg hempty]
    have hfields : Visits (fields fill site b g.1 siblings (path.child g.1.name) key g.2)
        (Expansion.fields inside site b (path.child g.1.name) g.2) :=
      fields_visits hcovers hinside howner g.2 hnamed hlists hnames
    by_cases hcontent : g.1 = .content
    · rw [if_pos hcontent, if_pos hcontent, List.nil_append]
      exact Visits.bind_last hfields fun nodes _ => Visits.pure (pinned b g.2 nodes)
    · rw [if_neg hcontent, if_neg hcontent]
      have htab : Visits (tab site b g.1 path key)
          [⟨.field, (path.child "tabs").child g.1.name⟩] :=
        Visits.bind_last (Visits.register rfl) fun _ _ => Visits.pure _
      refine Visits.bind htab (fun marker _ => ?_) ?_
      · exact Visits.bind_last hfields fun nodes _ => Visits.pure (marker :: nodes)
      -- The tab stands below `tabs`, the fields below the name of the group.
      · intro a ha hmem
        rw [List.mem_singleton.mp ha] at hmem
        have hbelow := Expansion.fields_below hinside g.2 hnamed _ hmem
        have hname : "tabs" = g.1.name :=
          ((beyond_self _ _).of_child g.1.isValidName_name).name_eq hbelow.beyond
        cases hg : g.1 <;> rw [hg] at hname <;> exact absurd hname (by decide)

/-- Two groups of a block have no address in common. -/
theorem groups_apart (hinside : inside.Below) {g g' : FieldGroup × List Field}
    (hnamed : ∀ f ∈ g.2, f.Named) (hnamed' : ∀ f ∈ g'.2, f.Named) (hne : g.1 ≠ g'.1) :
    (Expansion.group inside site b path g).Disjoint (Expansion.group inside site b path g') := by
  have hname : g.1.name ≠ g'.1.name := fun h => hne (FieldGroup.name_injective h)
  have htabs : ∀ h : FieldGroup, "tabs" ≠ h.name := fun h => by cases h <;> decide
  have htab : ∀ h : FieldGroup, Beyond (path.child "tabs")
      ⟨.field, (path.child "tabs").child h.name⟩ :=
    fun h => (beyond_self _ _).of_child h.isValidName_name
  intro a ha hmem
  rcases Expansion.group_cases hinside hnamed ha with ⟨-, rfl⟩ | hbelow
  · rcases Expansion.group_cases hinside hnamed' hmem with ⟨-, hsame⟩ | hbelow'
    · have hsegments := congrArg (fun a : Address => a.path.segments) hsame
      have hlast := List.append_cancel_left hsegments
      exact hname (List.cons.inj hlast).1
    · exact htabs g'.1 ((htab g.1).name_eq hbelow'.beyond)
  · rcases Expansion.group_cases hinside hnamed' hmem with ⟨-, rfl⟩ | hbelow'
    · exact htabs g.1 ((htab g'.1).name_eq hbelow.beyond)
    · exact hname (hbelow.beyond.name_eq hbelow'.beyond)

theorem block_visits (hcovers : Covers fill inside) (hinside : inside.Below)
    {settings : Settings} {collection : Option String} (hb : b.Named)
    (hlists : b.hasDistinctLists = true) :
    Visits (block settings fill site collection path b)
      (Expansion.block settings inside site path b) := by
  have hnamed : ∀ g ∈ groups settings b, ∀ f ∈ g.2, f.Named := groups_named hb
  have hdistinct : ∀ g ∈ groups settings b, ∀ f ∈ g.2, f.hasDistinctLists = true :=
    groups_distinctLists hlists
  unfold block Expansion.block
  refine Visits.bind_silent (Visits.checks (f := fun g : FieldGroup × List Field =>
    checkUnique b.name g.1.name (takenNames g.1 g.2)) ?_ _) fun _ hchecks => ?_
  · intro g key entity h
    obtain ⟨name, hno⟩ := checkUnique_error h
    cases hno
  · have hunique : ∀ g ∈ groups settings b, (g.2.map (·.name)).Nodup := by
      intro g hg
      have hok := checks_ok (f := fun g : FieldGroup × List Field =>
        checkUnique b.name g.1.name (takenNames g.1 g.2)) hchecks g hg
      exact (List.nodup_append.mp (checkUnique_nodup hok)).1
    refine Visits.bind (Visits.mapM (f := fun g : FieldGroup × List Field =>
      groupNodes fill (site.nested b) b path (path.encode .block) (siblingsOf settings b path)
        g.1 g.2) (fun g hg => ?_) ?_) (fun nodes _ => ?_) ?_
    · exact group_visits hcovers hinside (Entity.hasDistinctLists_iff.mp hlists).1
        (hnamed g hg) (hdistinct g hg) (hunique g hg)
    · have hgroups : (groups settings b).Pairwise fun g g' => g.1 ≠ g'.1 := by
        simp [groups]
      exact hgroups.imp_of_mem fun hg hg' hne =>
        groups_apart hinside (hnamed _ hg) (hnamed _ hg') hne
    · exact Visits.bind_last (Visits.register rfl) fun _ _ => Visits.pure _
    · intro a ha hmem
      obtain ⟨g, hg, hag⟩ := List.mem_flatMap.mp ha
      rw [List.mem_singleton.mp hmem] at hag
      exact (Expansion.group_below hinside (hnamed g hg) hag).path_ne rfl

end Blocks

/-! ## Collections -/

section Collections

variable {registry : Registry}

/-- A collection visits what is inside it, if every block visits what is in it. -/
theorem offered_covers (hr : registry.Sound) (hlists : registry.hasDistinctLists = true)
    {make : Site → Option String → KeyPath → Entity → Compilation BlockNode}
    {made : Site → KeyPath → Entity → List Address}
    (hmake : ∀ site collection path b, b.Named → b.hasDistinctLists = true →
      Visits (make site collection path b) (made site path b))
    (hmade : ∀ site path b, b.Named → ∀ a ∈ made site path b, Beyond path a) :
    Covers (offered registry make) (Expansion.offered registry made) := by
  intro site filter path key hfilter
  unfold offered Expansion.offered
  cases site.layout with
  | none =>
    refine Visits.throw fun _ _ h => ?_
    cases h
  | some l =>
    cases site.parent with
    | none =>
      refine Visits.throw fun _ _ h => ?_
      cases h
    | some parent =>
      refine Visits.bind_silent (Visits.noteAll _) fun _ _ => ?_
      refine Visits.bind_last (Visits.mapM (fun c hc => ?_) ?_) fun found _ => Visits.pure _
      · unfold variant Expansion.variant
        cases refusal? parent site.enclosing c with
        | some notice =>
          exact Visits.bind_silent (Visits.noteAll _) fun _ _ => Visits.pure []
        | none =>
          have hblock := (hr.mem_candidates.mp hc).1
          have hvisits := hmake site (some key) (path.child c.name) c
            (Expansion.candidate_named hr hc) (Registry.block_distinctLists hlists hblock)
          exact Visits.bind_last hvisits fun node _ => Visits.pure _
      -- Different blocks stand below different names.
      · have hnames := List.pairwise_map.mp (hr.nodup_candidates hfilter)
        refine hnames.imp_of_mem fun hc hc' hne a ha ha' => hne ?_
        exact (Expansion.variant_beyond hmade (Expansion.candidate_named hr hc) ha).name_eq
          (Expansion.variant_beyond hmade (Expansion.candidate_named hr hc') ha')

theorem variants_covers (hr : registry.Sound) (hlists : registry.hasDistinctLists = true) :
    ∀ count, Covers (variants registry count) (Expansion.variants registry count) := by
  intro count
  induction count with
  | zero =>
    rw [variants, Expansion.variants]
    refine offered_covers hr hlists (fun _ _ _ _ _ _ => Visits.throw fun _ _ h => ?_)
      fun _ _ _ _ a ha => absurd ha List.not_mem_nil
    cases h
  | succ count ih =>
    have hbelow := Expansion.variants_below hr count
    rw [variants, Expansion.variants]
    exact offered_covers hr hlists (fun _ _ _ _ hb hblists => block_visits ih hbelow hb hblists)
      fun _ _ _ hb a ha => Expansion.block_beyond hbelow hb ha

end Collections

/-! ## Layouts and the field group -/

section Layouts

variable {registry : Registry}

theorem layout_visits (hr : registry.Sound) (hlists : registry.hasDistinctLists = true)
    {parent : KeyPath} {l : Entity} (hl : l.hasDistinctLists = true) :
    Visits (layout registry parent l) (Expansion.layout registry parent l) := by
  unfold layout Expansion.layout
  refine Visits.bind (variants_covers hr hlists _ _ _ _ _ (Entity.hasDistinctLists_iff.mp hl).1)
    (fun nodes _ => ?_) ?_
  · exact Visits.bind_last (Visits.register rfl) fun _ _ => Visits.pure _
  · intro a ha hmem
    rw [List.mem_singleton.mp hmem] at ha
    exact (Expansion.variants_below hr _ _ _ _ _ ha).path_ne rfl

theorem fieldGroup_visits (hr : registry.Sound) (hlists : registry.hasDistinctLists = true) :
    Visits (fieldGroup registry) registry.addresses := by
  unfold fieldGroup Registry.addresses
  have hlayouts : Visits
      (registry.layouts.values.mapM (layout registry ((root registry).child "layouts")))
      (registry.layouts.values.flatMap
        (Expansion.layout registry ((root registry).child "layouts"))) := by
    refine Visits.mapM (fun l hl => ?_) ?_
    · exact layout_visits hr hlists (Registry.layout_distinctLists hlists hl)
    · have hnames := List.pairwise_map.mp (Registry.nodup_names fun hget => (hr.layout hget).1)
      exact hnames.imp fun hne a ha ha' => hne
        ((Expansion.layout_beyond hr ha).name_eq (Expansion.layout_beyond hr ha'))
  have henabled : isValidName "enabled" = true := by decide +kernel
  have hselect : isValidName "layout" = true := by decide +kernel
  have hcontrols : Expansion.control registry "enabled" ≠ Expansion.control registry "layout" := by
    intro h
    have hsegments := congrArg (fun a : Address => a.path.segments) h
    exact absurd (List.cons.inj (List.append_cancel_left hsegments)).1 (by decide)
  -- Controls stand below `settings`, everything else below `layouts`.
  have hapart : ∀ {name : String} {a : Address}, isValidName name = true →
      a = Expansion.control registry name →
      a ∉ registry.layouts.values.flatMap
        (Expansion.layout registry ((root registry).child "layouts")) := by
    rintro name a hname rfl hmem
    have hsame := (Expansion.control_beyond hname).name_eq (Expansion.layouts_beyond hr hmem)
    exact absurd hsame (by decide)
  have hfirst : Visits (Compilation.register
      (fieldEntry (enabledField registry) (builderRef registry) none none none))
      [Expansion.control registry "enabled"] := Visits.register rfl
  refine Visits.bind hfirst (fun _ _ => ?_) ?_
  · refine Visits.bind hlayouts (fun nodes _ => ?_) ?_
    · exact Visits.bind_last (Visits.register rfl) fun _ _ => Visits.pure _
    · intro a ha hmem
      exact hapart hselect (List.mem_singleton.mp hmem) ha
  · intro a ha hmem
    rcases List.mem_append.mp hmem with hmem | hmem
    · exact hapart henabled (List.mem_singleton.mp ha) hmem
    · exact hcontrols ((List.mem_singleton.mp ha).symm.trans (List.mem_singleton.mp hmem))

end Layouts

end Compile

/-- Ids that are distinct are never found taken. -/
theorem FlatIndex.absorb_free {emissions : List Emission} :
    ∀ {index : FlatIndex} {entries : List IndexEntry}, index.Holds entries →
      ((entries ++ emissions.filterMap Emission.entry?).map IndexEntry.key).Nodup →
      (index.absorb emissions).collision = none := by
  induction emissions with
  | nil => exact fun _ _ => rfl
  | cons emission rest ih =>
    intro index entries h hnodup
    cases emission with
    | notice n => exact ih h hnodup
    | entry e =>
      have hall : entries ++ (Emission.entry e :: rest).filterMap Emission.entry? =
          (entries ++ [e]) ++ rest.filterMap Emission.entry? := by
        rw [List.filterMap_cons, List.append_assoc]
        rfl
      rw [hall] at hnodup
      rw [absorb]
      cases hinsert : index.insert? e with
      | some larger => exact ih (insert?_holds h hinsert) hnodup
      | none =>
        have htaken : index.entries.contains e.key = true := by
          by_contra hfree
          rw [insert?, if_neg hfree] at hinsert
          cases hinsert
        -- What is in the index is among the entries, so the id stands there twice.
        obtain ⟨e', he'⟩ : ∃ e', index.lookup e.key = some e' := by
          simpa [Dict.contains, lookup, Option.isSome_iff_exists] using htaken
        obtain ⟨hmem, hkey⟩ := h.lookup_iff.mp he'
        rw [List.map_append, List.map_append] at hnodup
        have hsplit := (List.nodup_append.mp (List.nodup_append.mp hnodup).1).2.2
        exact absurd hkey (hsplit _ (List.mem_map_of_mem hmem) _ (List.mem_singleton_self _))

theorem compile_error {registry : Registry} {now : Instant} {e : Error}
    (h : (compile registry now).run.value = .error e) :
    ((Compile.fieldGroup registry).runOn .empty).result = .error e := by
  unfold compile at h
  rw [ExceptT.run_bind] at h
  cases hresult : ((Compile.fieldGroup registry).runOn .empty).result with
  | error e' =>
    rw [hresult] at h
    exact congrArg Except.error (Except.error.inj h)
  | ok group =>
    rw [hresult] at h
    cases h

open Compilation in
/-- Compiling never finds an id taken, as long as the digest tells the paths of the expansion
apart. What is registered, also by a compilation that fails, stands at addresses of the expansion,
in order and each once. -/
theorem compile_never_collides {definitions : Definitions} {resources : Resources}
    {registry : Registry} (hbuilt : Gives (Registry.build definitions resources) registry)
    (hlists : registry.hasDistinctLists = true)
    (hdigest : ∀ a ∈ registry.addresses, ∀ b ∈ registry.addresses,
      keyDigest (keyPreimage a.path) = keyDigest (keyPreimage b.path) →
        a.path.joined = b.path.joined) :
    Visits (Compile.fieldGroup registry) registry.addresses ∧
      ∀ now key entity, (compile registry now).run.value ≠ .error (.keyCollision key entity) := by
  have hr : registry.Sound := Registry.build_sound hbuilt
  have hvisits := Compile.fieldGroup_visits hr hlists
  refine ⟨hvisits, fun now key entity h => ?_⟩
  obtain ⟨visited, rest, hsplit, hids, hnodup, -⟩ := hvisits.ids
  have hbelow : ∀ a ∈ visited, a ∈ registry.addresses := fun a ha => by
    rw [hsplit]
    exact List.mem_append_left _ ha
  -- Addresses are different, so their paths are, so are the texts of these and their digests.
  have hdistinct : (visited.map Address.id).Nodup := by
    refine hnodup.map_on fun a ha b hb hab => ?_
    obtain ⟨hkind, hsame⟩ := Address.parts_of_id hab
    have hpath := Address.path_eq_of_joined hr.name
      (Expansion.addresses_beyond hr a (hbelow a ha))
      (Expansion.addresses_beyond hr b (hbelow b hb))
      (hdigest a (hbelow a ha) b (hbelow b hb) hsame)
    cases a
    cases b
    cases hkind
    cases hpath
    rfl
  rw [← hids] at hdistinct
  have hfree : (FlatIndex.empty.absorb (Compile.fieldGroup registry).run.emissions).collision =
      none := FlatIndex.absorb_free FlatIndex.holds_empty hdistinct
  have hresult := compile_error h
  unfold runOn at hresult
  dsimp only at hresult
  rw [hfree] at hresult
  exact hvisits.error key entity hresult

theorem boxes_never_collide :
    (Compile.fieldGroup boxRegistry).Visits boxRegistry.addresses ∧
      ∀ now key entity,
        (compile boxRegistry now).run.value ≠ .error (.keyCollision key entity) :=
  compile_never_collides boxes_built (by decide +kernel) (by decide +kernel)

end PageBlocks
