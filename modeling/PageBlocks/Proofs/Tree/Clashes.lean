import PageBlocks.Proofs.Tree.Tidy
import Mathlib.Data.List.Duplicate

/-!
# Declarations that clash

A registry is compiled by expanding its blocks wherever they can stand. Each
block that is expanded has some lists of names that are told apart (`Scope`):
one for each group, with the fields that the kind of block calls for, the core
fields and the tab among the declared ones, and one for the sub-fields of each
field that has any. A name that stands twice in such a list makes the
compilation fail.

> `fieldGroup_checks`: a compilation that succeeds has found all these lists
> free of repetitions, one that fails has found a repetition or another fault;
>
> `sibling_names_unique`: so the trees that compile are tidy below the top.

The bound on nested blocks is never the reason: a chain of nested blocks that
has all of them in it admits no further one.
-/

namespace PageBlocks

open Attempt Compilation

/-! ## Lists of names -/

/-- A list of names that are told apart, with the entity and the group that errors tell. -/
structure Scope where
  entity : String
  group : String
  names : List String

mutual
/-- The lists of sub-fields' names in a field. -/
def Field.scopes (entity group : String) : Field → List Scope
  | ⟨name, attributes, subFields⟩ =>
    if (FieldKind.ofName? attributes.type).any (·.hasSubFields) then
      ⟨entity, group ++ "." ++ name, subFields.map (·.name)⟩ ::
        Field.allScopes entity group subFields
    else []

def Field.allScopes (entity group : String) : List Field → List Scope
  | [] => []
  | f :: rest => f.scopes entity group ++ Field.allScopes entity group rest
end

mutual
/-- What the collections in a field are to offer, given what they offer by default. -/
def Field.collections (given : NameFilter) : Field → List NameFilter
  | ⟨_, attributes, subFields⟩ =>
    match FieldKind.ofName? attributes.type with
    | some kind =>
      if kind.isBlockCollection then [attributes.blocks.getD given]
      else if kind.hasSubFields then Field.allCollections given subFields
      else []
    | none => []

def Field.allCollections (given : NameFilter) : List Field → List NameFilter
  | [] => []
  | f :: rest => f.collections given ++ Field.allCollections given rest
end

/-- The lists of names in a block. -/
def Entity.scopes (settings : Settings) (b : Entity) : List Scope :=
  (Compile.groups settings b).map (fun g => ⟨b.name, g.1.name, Compile.takenNames g.1 g.2⟩) ++
    (Compile.groups settings b).flatMap fun g => Field.allScopes b.name g.1.name g.2

/-- What the collections in a block are to offer. -/
def Entity.collections (settings : Settings) (b : Entity) : List NameFilter :=
  (Compile.groups settings b).flatMap fun g => Field.allCollections b.children g.2

namespace Registry

/-- A block is expanded somewhere inside a collection, given the entity that the collection belongs
to and the names of the blocks around it. -/
inductive Reaches (r : Registry) : Entity → List String → NameFilter → Entity → Prop where
  | here {parent : Entity} {enclosing : List String} {filter : NameFilter} {b : Entity}
      (hcandidate : b ∈ r.candidates filter)
      (hoffered : Compile.refusal? parent enclosing b = none) :
      Reaches r parent enclosing filter b
  | within {parent : Entity} {enclosing : List String} {filter filter' : NameFilter} {c b : Entity}
      (hcandidate : c ∈ r.candidates filter)
      (hoffered : Compile.refusal? parent enclosing c = none)
      (hcollection : filter' ∈ c.collections r.settings)
      (hinside : Reaches r c (enclosing ++ [c.name]) filter' b) :
      Reaches r parent enclosing filter b

/-- A block is expanded in a layout. -/
def Expands (r : Registry) (b : Entity) : Prop :=
  ∃ l ∈ r.layouts.values, r.Reaches l [] l.children b

/-- A list of names of a block that is expanded inside a collection. -/
def Inside (r : Registry) (parent : Entity) (enclosing : List String) (filter : NameFilter)
    (s : Scope) : Prop :=
  ∃ b, r.Reaches parent enclosing filter b ∧ s ∈ b.scopes r.settings

/-- What is inside a collection is in a block that it offers, or inside one of that block's
collections. -/
theorem inside_iff {r : Registry} {parent : Entity} {enclosing : List String}
    {filter : NameFilter} {s : Scope} :
    r.Inside parent enclosing filter s ↔
      ∃ c ∈ r.candidates filter, Compile.refusal? parent enclosing c = none ∧
        (s ∈ c.scopes r.settings ∨
          ∃ filter' ∈ c.collections r.settings, r.Inside c (enclosing ++ [c.name]) filter' s) := by
  constructor
  · rintro ⟨b, hreaches, hs⟩
    cases hreaches with
    | here hcandidate hoffered => exact ⟨b, hcandidate, hoffered, .inl hs⟩
    | @within _ _ _ filter' c _ hcandidate hoffered hcollection hinside =>
      exact ⟨c, hcandidate, hoffered, .inr ⟨filter', hcollection, b, hinside, hs⟩⟩
  · rintro ⟨c, hcandidate, hoffered, hs | ⟨filter', hcollection, b, hinside, hs⟩⟩
    · exact ⟨c, .here hcandidate hoffered, hs⟩
    · exact ⟨b, .within hcandidate hoffered hcollection hinside, hs⟩

end Registry

/-! ## What is wrong -/

/-- Faults of a declaration other than its name: a type that there is not, or a sibling. -/
inductive Error.IsFault : Error → Prop
  | type {owner name type : String} (hunknown : FieldKind.ofName? type = none) :
      IsFault (.unknownFieldType owner name type)
  | sibling {owner field name : String} : IsFault (.unknownConditionField owner field name)

theorem firstRepeated?_duplicate {name : String} {names : List String} :
    ∀ {seen : List String}, firstRepeated? seen names = some name →
      name ∈ names ∧ (name ∈ seen ∨ List.Duplicate name names) := by
  induction names with
  | nil =>
    intro seen h
    cases h
  | cons first rest ih =>
    intro seen h
    rw [firstRepeated?] at h
    by_cases hseen : seen.contains first = true
    · rw [if_pos hseen] at h
      obtain rfl : first = name := Option.some.inj h
      exact ⟨List.mem_cons_self .., .inl (List.contains_iff_mem.mp hseen)⟩
    · rw [if_neg hseen] at h
      obtain ⟨hmem, hseen' | htwice⟩ := ih h
      · refine ⟨List.mem_cons_of_mem _ hmem, ?_⟩
        rcases List.mem_cons.mp hseen' with rfl | hseen'
        · exact .inr (.cons_mem hmem)
        · exact .inl hseen'
      · exact ⟨List.mem_cons_of_mem _ hmem, .inr (.cons_duplicate htwice)⟩

/-- A name that an error tells of a list stands twice in it. -/
theorem checkUnique_clash {entity group : String} {names : List String} {e : Error}
    (h : checkUnique entity group names = .error e) :
    ∃ name, List.Duplicate name names ∧ e = .duplicateFieldName entity group name := by
  unfold checkUnique at h
  split at h
  next name hrepeated =>
    obtain ⟨-, hseen | htwice⟩ := firstRepeated?_duplicate hrepeated
    · exact absurd hseen List.not_mem_nil
    · exact ⟨name, htwice, (Except.error.inj h).symm⟩
  next => cases h

/-! ## Compilations that check names -/

namespace Compilation

variable {α β : Type}

/-- A compilation that succeeds only when some lists of names are free of repetitions, and fails
only for one that is not, or for another fault. -/
structure Checks (c : Compilation α) (scopes : Scope → Prop) : Prop where
  passes : ∀ a, c.run.value = .ok a → ∀ s, scopes s → s.names.Nodup
  fails : ∀ e, c.run.value = .error e →
    (∃ s name, scopes s ∧ List.Duplicate name s.names ∧
      e = .duplicateFieldName s.entity s.group name) ∨ e.IsFault

namespace Checks

variable {c : Compilation α} {f : α → Compilation β} {P Q R : Scope → Prop}

theorem of_iff (h : Checks c P) (hsame : ∀ s, Q s ↔ P s) : Checks c Q := by
  have heq : Q = P := funext fun s => propext (hsame s)
  rw [heq]
  exact h

/-- What cannot fail checks nothing. -/
theorem silent {a : α} (h : c.run.value = .ok a) : Checks c fun _ => False where
  passes := fun _ _ _ hs => hs.elim
  fails := fun e he => by
    rw [h] at he
    cases he

theorem pure (a : α) : Checks (Pure.pure a : Compilation α) fun _ => False := silent rfl

/-- A fault stops a compilation, whatever it may have checked. -/
theorem throw {e : Error} (he : e.IsFault) : Checks (MonadExcept.throw e : Compilation α) P where
  passes := nofun
  fails := fun _ he' => .inr (Except.error.inj he' ▸ he)

theorem bind_throw {e : Error} (he : e.IsFault) {f : α → Compilation β} :
    Checks ((MonadExcept.throw e : Compilation α) >>= f) P :=
  throw he

theorem fault {x : Except Error α} (hx : ∀ e, x = .error e → e.IsFault) :
    Checks (ExceptT.mk (Pure.pure x) : Compilation α) fun _ => False where
  passes := fun _ _ _ hs => hs.elim
  fails := fun e he => .inr (hx e he)

theorem unique (s : Scope) :
    Checks (ExceptT.mk (Pure.pure (checkUnique s.entity s.group s.names)) : Compilation Unit)
      (· = s) where
  passes := by
    rintro u hok s rfl
    exact checkUnique_nodup hok
  fails := fun e he => by
    obtain ⟨name, htwice, rfl⟩ := checkUnique_clash he
    exact .inl ⟨s, name, rfl, htwice, rfl⟩

/-- One compilation after the other. -/
theorem bind (hc : Checks c P) (hf : ∀ a, c.run.value = .ok a → Checks (f a) Q) :
    Checks (c >>= f) fun s => P s ∨ Q s := by
  cases hvalue : c.run.value with
  | error e =>
    obtain ⟨-, hsame⟩ := bind_error (f := f) hvalue
    refine ⟨fun b hb => ?_, fun e' he' => ?_⟩
    · rw [hsame] at hb
      cases hb
    · rw [hsame] at he'
      obtain rfl := Except.error.inj he'
      rcases hc.fails e hvalue with ⟨s, name, hs, hclash⟩ | hfault
      · exact .inl ⟨s, name, .inl hs, hclash⟩
      · exact .inr hfault
  | ok a =>
    obtain ⟨-, hsame⟩ := bind_ok (f := f) hvalue
    have hnext : Checks (f a) Q := hf a hvalue
    refine ⟨fun b hb s hs => ?_, fun e he => ?_⟩
    · rw [hsame] at hb
      exact hs.elim (hc.passes a hvalue s) (hnext.passes b hb s)
    · rw [hsame] at he
      rcases hnext.fails e he with ⟨s, name, hs, hclash⟩ | hfault
      · exact .inl ⟨s, name, .inr hs, hclash⟩
      · exact .inr hfault

/-- A step that checks nothing. -/
theorem bind_silent (hc : Checks c fun _ => False)
    (hf : ∀ a, c.run.value = .ok a → Checks (f a) Q) : Checks (c >>= f) Q :=
  (bind hc hf).of_iff fun s => by simp

/-- A last step that checks nothing. -/
theorem bind_last (hc : Checks c P) (hf : ∀ a, c.run.value = .ok a → Checks (f a) fun _ => False) :
    Checks (c >>= f) P :=
  (bind hc hf).of_iff fun s => by simp

theorem mapM {ι : Type} {f : ι → Compilation β} {at' : ι → Scope → Prop} :
    ∀ {items : List ι}, (∀ i ∈ items, Checks (f i) (at' i)) →
      Checks (items.mapM f) fun s => ∃ i ∈ items, at' i s
  | [], _ => by
    rw [List.mapM_nil]
    exact (pure []).of_iff fun s => by simp
  | i :: items, hitems => by
    rw [List.mapM_cons]
    have hrest := mapM fun j hj => hitems j (List.mem_cons_of_mem _ hj)
    refine (bind (hitems i (List.mem_cons_self ..)) fun b _ =>
      bind_last hrest fun bs _ => pure (b :: bs)).of_iff fun s => ?_
    simp

theorem uniques {ι : Type} (scope : ι → Scope) :
    ∀ items : List ι,
      Checks (items.forM fun i => (ExceptT.mk (Pure.pure
        (checkUnique (scope i).entity (scope i).group (scope i).names)) : Compilation Unit))
        fun s => s ∈ items.map scope
  | [] => (pure ()).of_iff fun s => by simp
  | i :: items => (bind (c := ExceptT.mk (Pure.pure
      (checkUnique (scope i).entity (scope i).group (scope i).names)))
      (unique (scope i)) fun _ _ => uniques scope items).of_iff fun s => by simp

end Checks

end Compilation

/-! ## The compiler -/

namespace Compile

open Compilation

section Fields

variable {fill : Filling} {site : Site} {owner : Entity} {group : FieldGroup}
  {inside : NameFilter → Scope → Prop}

mutual
theorem field_checks (hfill : ∀ filter path key, Checks (fill site filter path key) (inside filter))
    {siblings : List Sibling} {path : KeyPath} {parent : String} :
    ∀ (f : Field), Checks (field fill site owner group siblings path parent f) fun s =>
      s ∈ f.scopes owner.name group.name ∨ ∃ filter ∈ f.collections owner.children, inside filter s
  | ⟨name, attributes, subFields⟩ => by
    rw [field, Field.scopes, Field.collections]
    cases hkind : FieldKind.ofName? attributes.type with
    | none => exact Checks.bind_throw (.type hkind)
    | some kind =>
      dsimp only
      rw [pure_bind]
      refine Checks.bind_silent (Checks.silent rfl) fun _ _ => ?_
      refine Checks.bind_silent (Checks.fault fun e he => ?_) fun logic _ => ?_
      · obtain ⟨sibling, rfl⟩ := Condition.resolve_error he
        exact .sibling
      -- By what the kind holds; nothing is checked after that.
      have hlast : ∀ node : FieldNode, Checks (do
          register (fieldEntry node owner.ref (some group) (some parent) site.layoutName)
          return node : Compilation FieldNode) fun _ => False :=
        fun node => Checks.silent rfl
      by_cases hcollection : kind.isBlockCollection = true
      · have hsub : ¬kind.hasSubFields = true :=
          fun hsub => not_collection_of_hasSubFields hsub hcollection
        rw [if_pos hcollection]
        refine (Checks.bind_last (hfill _ _ _) fun layouts _ => ?_).of_iff fun s => ?_
        · rw [if_neg hsub, pure_bind]
          exact hlast _
        · simp [hcollection, hsub]
      · rw [if_neg hcollection, pure_bind]
        by_cases hsub : kind.hasSubFields = true
        · rw [if_pos hsub]
          have hunique := Checks.unique
            ⟨owner.name, group.name ++ "." ++ name, subFields.map (·.name)⟩
          have hfields : Checks (fields fill site owner group
              (Sibling.ofFields group (path.child name) subFields) (path.child name)
              ((path.child name).encode .field) subFields) fun s =>
              s ∈ Field.allScopes owner.name group.name subFields ∨
                ∃ filter ∈ Field.allCollections owner.children subFields, inside filter s :=
            fields_checks hfill subFields
          refine (Checks.bind hunique fun _ _ => Checks.bind_last hfields
            fun rows _ => hlast _).of_iff fun s => ?_
          simp [hcollection, hsub, or_assoc]
        · rw [if_neg hsub, pure_bind]
          refine (hlast _).of_iff fun s => ?_
          simp [hcollection, hsub]

theorem fields_checks
    (hfill : ∀ filter path key, Checks (fill site filter path key) (inside filter))
    {siblings : List Sibling} {path : KeyPath} {parent : String} :
    ∀ (fs : List Field), Checks (fields fill site owner group siblings path parent fs) fun s =>
      s ∈ Field.allScopes owner.name group.name fs ∨
        ∃ filter ∈ Field.allCollections owner.children fs, inside filter s
  | [] => by
    rw [fields, Field.allScopes, Field.allCollections]
    exact (Checks.pure []).of_iff fun s => by simp
  | f :: fs => by
    rw [fields, Field.allScopes, Field.allCollections]
    refine (Checks.bind (field_checks hfill f) fun node _ =>
      Checks.bind_last (fields_checks hfill fs) fun nodes _ =>
        Checks.pure (node :: nodes)).of_iff fun s => ?_
    simp only [List.mem_append, or_and_right, exists_or]
    exact or_or_or_comm ..
end

end Fields

section Blocks

variable {fill : Filling} {site : Site} {b : Entity} {inside : NameFilter → Scope → Prop}

theorem group_checks
    (hfill : ∀ filter path key, Checks (fill site filter path key) (inside filter))
    {path : KeyPath} {key : String} {siblings : List Sibling} {group : FieldGroup}
    {members : List Field} :
    Checks (groupNodes fill site b path key siblings group members) fun s =>
      s ∈ Field.allScopes b.name group.name members ∨
        ∃ filter ∈ Field.allCollections b.children members, inside filter s := by
  unfold groupNodes
  by_cases hempty : members.isEmpty = true
  · rw [if_pos hempty, List.isEmpty_iff.mp hempty, Field.allScopes, Field.allCollections]
    exact (Checks.pure []).of_iff fun s => by simp
  · rw [if_neg hempty]
    have hfields : Checks
        (fields fill site b group siblings (path.child group.name) key members) fun s =>
        s ∈ Field.allScopes b.name group.name members ∨
          ∃ filter ∈ Field.allCollections b.children members, inside filter s :=
      fields_checks hfill members
    by_cases hcontent : group = .content
    · rw [if_pos hcontent]
      exact Checks.bind_last hfields fun nodes _ => Checks.pure (pinned b members nodes)
    · rw [if_neg hcontent]
      have htab : Checks (tab site b group path key) fun _ => False := Checks.silent rfl
      refine Checks.bind_silent htab fun marker _ => ?_
      exact Checks.bind_last hfields fun nodes _ => Checks.pure (marker :: nodes)

/-- A block checks its own lists of names and what its collections offer. -/
theorem block_checks {settings : Settings}
    (hfill : ∀ filter path key, Checks (fill (site.nested b) filter path key) (inside filter))
    {collection : Option String} {path : KeyPath} :
    Checks (block settings fill site collection path b) fun s =>
      s ∈ b.scopes settings ∨ ∃ filter ∈ b.collections settings, inside filter s := by
  unfold block
  have hunique := Checks.uniques (fun g : FieldGroup × List Field =>
    ⟨b.name, g.1.name, takenNames g.1 g.2⟩) (groups settings b)
  have hgroups : Checks ((groups settings b).mapM fun g =>
      groupNodes fill (site.nested b) b path (path.encode .block) (siblingsOf settings b path)
        g.1 g.2) fun s => ∃ g ∈ groups settings b, s ∈ Field.allScopes b.name g.1.name g.2 ∨
        ∃ filter ∈ Field.allCollections b.children g.2, inside filter s :=
    Checks.mapM fun g _ => group_checks hfill
  refine (Checks.bind hunique fun _ _ => Checks.bind_last hgroups fun nodes _ =>
    Checks.silent rfl).of_iff fun s => ?_
  unfold Entity.scopes Entity.collections
  simp only [List.mem_append, List.mem_flatMap, and_or_left, exists_or, or_assoc]
  refine or_congr_right (or_congr_right ?_)
  constructor
  · rintro ⟨filter, ⟨g, hg, hfilter⟩, hinside⟩
    exact ⟨g, hg, filter, hfilter, hinside⟩
  · rintro ⟨g, hg, filter, hfilter, hinside⟩
    exact ⟨filter, ⟨g, hg, hfilter⟩, hinside⟩

end Blocks

/-! ## Collections, layouts and the field group -/

section Collections

variable {registry : Registry}

/-- A collection checks what is inside it, if every block that it offers does. -/
theorem offered_checks
    {make : Site → Option String → KeyPath → Entity → Compilation BlockNode} {site : Site}
    {l parent : Entity} (hlayout : site.layout = some l) (hparent : site.parent = some parent)
    {filter : NameFilter}
    (hmake : ∀ c ∈ registry.candidates filter, refusal? parent site.enclosing c = none →
      ∀ collection path, Checks (make site collection path c) fun s =>
        s ∈ c.scopes registry.settings ∨ ∃ filter' ∈ c.collections registry.settings,
          registry.Inside c (site.enclosing ++ [c.name]) filter' s)
    {path : KeyPath} {key : String} :
    Checks (offered registry make site filter path key)
      (registry.Inside parent site.enclosing filter) := by
  unfold offered
  rw [hlayout, hparent]
  refine Checks.bind_silent (Checks.silent rfl) fun _ _ => ?_
  refine (Checks.bind_last (Checks.mapM fun c hc => ?_) fun found _ => Checks.pure _).of_iff
    fun s => Registry.inside_iff
  unfold variant
  cases hrefusal : refusal? parent site.enclosing c with
  | some notice =>
    have hnotice : Checks (do
        Compilation.noteAll [notice]
        return [] : Compilation (List (String × BlockNode))) fun _ => False := Checks.silent rfl
    exact hnotice.of_iff fun s => by simp
  | none =>
    have hblock := Checks.bind_last (hmake c hc hrefusal (some key) (path.child c.name))
      fun node _ => Checks.pure [(node.key, node)]
    exact hblock.of_iff fun s => by simp

/-- Around a block that is offered stand other blocks, so there are more blocks than those. -/
theorem length_lt_size (hr : registry.Sound) {parent : Entity} {enclosing : List String}
    (hnodup : enclosing.Nodup) (hblocks : ∀ name ∈ enclosing, name ∈ registry.blocks.keys)
    {filter : NameFilter} {c : Entity} (hc : c ∈ registry.candidates filter)
    (hoffered : refusal? parent enclosing c = none) :
    (enclosing ++ [c.name]).Nodup ∧
      (∀ name ∈ enclosing ++ [c.name], name ∈ registry.blocks.keys) ∧
      enclosing.length < registry.blocks.size := by
  have hlonger : (enclosing ++ [c.name]).Nodup := nodup_of_offered hnodup hoffered
  have hall : ∀ name ∈ enclosing ++ [c.name], name ∈ registry.blocks.keys := by
    intro name hname
    rcases List.mem_append.mp hname with hname | hname
    · exact hblocks name hname
    · rw [List.mem_singleton.mp hname]
      exact List.mem_map.mpr ⟨_, Dict.mem_entries_iff.mpr (hr.mem_candidates.mp hc).1, rfl⟩
  refine ⟨hlonger, hall, ?_⟩
  have hlength := (List.subperm_of_subset hlonger hall).length_le
  rw [List.length_append, List.length_singleton, Dict.keys, List.length_map] at hlength
  exact hlength

/-- As many blocks may still come as there are besides those around, which always suffices. -/
theorem variants_checks (hr : registry.Sound) :
    ∀ (count : Nat) (site : Site) {l parent : Entity}, site.layout = some l →
      site.parent = some parent → site.enclosing.Nodup →
      (∀ name ∈ site.enclosing, name ∈ registry.blocks.keys) →
      site.enclosing.length + count = registry.blocks.size →
      ∀ filter path key, Checks (variants registry count site filter path key)
        (registry.Inside parent site.enclosing filter) := by
  intro count
  induction count with
  | zero =>
    intro site l parent hlayout hparent hnodup hblocks hcount filter path key
    rw [variants]
    refine offered_checks hlayout hparent fun c hc hoffered _ _ => ?_
    obtain ⟨-, -, hroom⟩ := length_lt_size hr hnodup hblocks hc hoffered
    omega
  | succ count ih =>
    intro site l parent hlayout hparent hnodup hblocks hcount filter path key
    rw [variants]
    refine offered_checks hlayout hparent fun c hc hoffered _ _ => ?_
    obtain ⟨hnodup', hblocks', -⟩ := length_lt_size hr hnodup hblocks hc hoffered
    refine block_checks (ih (site.nested c) hlayout rfl hnodup' hblocks' ?_)
    show (site.enclosing ++ [c.name]).length + count = _
    rw [List.length_append, List.length_singleton]
    omega

theorem layout_checks (hr : registry.Sound) {parent : KeyPath} (l : Entity) :
    Checks (layout registry parent l) (registry.Inside l [] l.children) := by
  unfold layout
  have hfill := variants_checks hr registry.blocks.size (.inLayout l) rfl rfl
    List.nodup_nil (fun _ h => absurd h List.not_mem_nil) (Nat.zero_add _)
  exact Checks.bind_last (hfill l.children (parent.child l.name)
    ((parent.child l.name).encode .field)) fun nodes _ => Checks.silent rfl

/-- A compilation checks the lists of names of the blocks that it expands. -/
theorem fieldGroup_checks (hr : registry.Sound) :
    Checks (fieldGroup registry) fun s =>
      ∃ b, registry.Expands b ∧ s ∈ b.scopes registry.settings := by
  unfold fieldGroup
  have hlayouts : Checks
      (registry.layouts.values.mapM (layout registry ((root registry).child "layouts")))
      fun s => ∃ l ∈ registry.layouts.values, registry.Inside l [] l.children s :=
    Checks.mapM fun l _ => layout_checks hr l
  refine (Checks.bind_silent (Checks.silent rfl) fun _ _ =>
    Checks.bind_last hlayouts fun nodes _ => Checks.silent rfl).of_iff fun s => ?_
  constructor
  · rintro ⟨b, ⟨l, hl, hreaches⟩, hs⟩
    exact ⟨l, hl, b, hreaches, hs⟩
  · rintro ⟨l, hl, b, hreaches, hs⟩
    exact ⟨b, ⟨l, hl, hreaches⟩, hs⟩

end Collections

end Compile

/-! ## Compiled trees -/

theorem FlatIndex.absorb_collision {emissions : List Emission} {e : Error} :
    ∀ {index : FlatIndex}, (index.absorb emissions).collision = some e →
      ∃ key entity, e = .keyCollision key entity := by
  induction emissions with
  | nil => exact fun h => nomatch h
  | cons emission rest ih =>
    intro index h
    cases emission with
    | notice n => exact ih h
    | entry entry =>
      rw [absorb] at h
      cases hinsert : index.insert? entry with
      | some larger =>
        rw [hinsert] at h
        exact ih h
      | none =>
        rw [hinsert] at h
        exact ⟨_, _, (Option.some.inj h).symm⟩

/-- Names beside each other are different in every tree that compiles, at the top as long as no
layout is named like a control. Where names in a block that is expanded are not, compiling tells
two names that clash, unless it stops at another fault. -/
theorem sibling_names_unique {definitions : Definitions} {resources : Resources}
    {registry : Registry} (hbuilt : Gives (Registry.build definitions resources) registry) :
    (∀ now schema, Gives (compile registry now) schema →
      ((schema.group.fields.map (·.name)).Nodup ↔
          ∀ l ∈ registry.layouts.values, l.name ≠ "enabled" ∧ l.name ≠ "layout") ∧
        (∀ n, .block n ∈ schema.group.nodes → ∀ group,
          ((n.subFields.filter fun node =>
            (schema.index.lookup node.key).bind (·.group) = some group).map (·.name)).Nodup) ∧
        ∀ n, .field n ∈ schema.group.nodes → (n.subFields.map (·.name)).Nodup) ∧
      ∀ now b scope, registry.Expands b → scope ∈ b.scopes registry.settings →
        ¬scope.names.Nodup →
        ∃ e, (compile registry now).run.value = .error e ∧
          ((∃ b' scope' name, registry.Expands b' ∧ scope' ∈ b'.scopes registry.settings ∧
              List.Duplicate name scope'.names ∧
              e = .duplicateFieldName scope'.entity scope'.group name) ∨
            e.IsFault ∨ ∃ key entity, e = .keyCollision key entity) := by
  have hr : registry.Sound := Registry.build_sound hbuilt
  have hchecks := Compile.fieldGroup_checks hr
  refine ⟨fun now schema hcompiled => ?_, fun now b scope hexpands hscope hclash => ?_⟩
  · exact ⟨compile_top_names hr hcompiled, compile_tidy hcompiled⟩
  cases hvalue : (compile registry now).run.value with
  | ok schema =>
    obtain ⟨entries, hmakes, -⟩ := compile_gives hvalue
    exact absurd (hchecks.passes _ hmakes.1 scope ⟨b, hexpands, hscope⟩) hclash
  | error e =>
    refine ⟨e, rfl, ?_⟩
    have hresult := compile_error hvalue
    unfold runOn at hresult
    dsimp only at hresult
    cases hcollision :
        (FlatIndex.empty.absorb (Compile.fieldGroup registry).run.emissions).collision with
    | some e' =>
      rw [hcollision] at hresult
      obtain ⟨key, entity, rfl⟩ := FlatIndex.absorb_collision hcollision
      exact .inr (.inr ⟨key, entity, (Except.error.inj hresult).symm⟩)
    | none =>
      rw [hcollision] at hresult
      rcases hchecks.fails e hresult with ⟨s, name, ⟨b', hb', hs⟩, htwice, he⟩ | hfault
      · exact .inl ⟨b', s, name, hb', hs, htwice, he⟩
      · exact .inr (.inl hfault)

/-- A page of cards with two titles. -/
def titlesDefinitions : Definitions :=
  { settings := { coreFields := false }
    blocks := .ofList [("card",
      { content := [.literal ⟨some "title", { type := "text" }, []⟩,
          .literal ⟨some "title", { type := "text" }, []⟩] })]
    layouts := .ofList [("page", {})] }

def titlesRegistry : Registry := (Registry.build titlesDefinitions .empty).result

/-- The names in a tree of boxes are different, those in a card are found to clash. -/
theorem boxes_unique_titles_clash :
    (boxSchema.group.fields.map (·.name)).Nodup ∧
      ∃ e, (compile titlesRegistry default).run.value = .error e := by
  have hbuilt : Gives (Registry.build titlesDefinitions .empty) titlesRegistry :=
    gives_result (by decide +kernel)
  have hcard : ∃ l ∈ titlesRegistry.layouts.values, ∃ b ∈ titlesRegistry.candidates l.children,
      Compile.refusal? l [] b = none ∧ ¬(b.fields.content.map (·.name)).Nodup ∧
        b.kind = .block .basic := by
    decide +kernel
  refine ⟨?_, ?_⟩
  · refine ((sibling_names_unique boxes_built).1 default boxSchema boxes_compiled).1.mpr ?_
    decide +kernel
  · obtain ⟨l, hl, b, hb, hoffered, hclash, hkind⟩ := hcard
    have hscope : (⟨b.name, "content", b.fields.content.map (·.name)⟩ : Scope) ∈
        b.scopes titlesRegistry.settings := by
      refine List.mem_append_left _ (List.mem_map.mpr ⟨(.content, Compile.content b), ?_, ?_⟩)
      · exact List.mem_cons_self ..
      · simp [Compile.takenNames, Compile.content, hkind, FieldGroup.name]
    obtain ⟨e, he, -⟩ := (sibling_names_unique hbuilt).2 default b _
      ⟨l, hl, .here hb hoffered⟩ hscope hclash
    exact ⟨e, he⟩

/-- A builder with a layout that is named like a control. -/
def enabledDefinitions : Definitions :=
  { settings := { coreFields := false }
    layouts := .ofList [("enabled", {})] }

def enabledRegistry : Registry := (Registry.build enabledDefinitions .empty).result

/-- At the top two fields have one name then, and nothing tells. -/
theorem control_name_taken :
    Gives (Registry.build enabledDefinitions .empty) enabledRegistry ∧
      ∃ schema, Gives (compile enabledRegistry default) schema ∧
        ¬(schema.group.fields.map (·.name)).Nodup := by
  have hbuilt : Gives (Registry.build enabledDefinitions .empty) enabledRegistry :=
    gives_result (by decide +kernel)
  have hcompiled : Gives (compile enabledRegistry default)
      (compile enabledRegistry default).result :=
    gives_result (by decide +kernel)
  refine ⟨hbuilt, _, hcompiled, ?_⟩
  rw [compile_top_names (Registry.build_sound hbuilt) hcompiled]
  decide +kernel

end PageBlocks
