import PageBlocks.Proofs.Index
import PageBlocks.Schema.Compile

/-!
# What a successful compilation made

`c.Makes a entries` says that a compilation succeeds with `a` and registers
`entries`, in order; notices are left out. Below are the inversions of every
step of the compiler: each says all that the step did, so that nothing else
has to open the compiler's definitions.
-/

namespace PageBlocks

instance : LawfulMonad Emitting :=
  LawfulMonad.mk' Emitting (fun x => by
      show Emitting.mk x.value (x.emissions ++ []) = x
      rw [List.append_nil])
    (fun _ _ => rfl)
    (fun x f g => by
      show Emitting.mk _ ((x.emissions ++ _) ++ _) = Emitting.mk _ (x.emissions ++ (_ ++ _))
      rw [List.append_assoc]
      rfl)

namespace Compilation

variable {α β : Type}

/-- A compilation succeeds with a value, and registers some entries on the way. -/
def Makes (c : Compilation α) (a : α) (entries : List IndexEntry) : Prop :=
  c.run.value = .ok a ∧ c.run.emissions.filterMap Emission.entry? = entries

theorem makes_pure {a b : α} {es : List IndexEntry} (h : Makes (pure a) b es) :
    b = a ∧ es = [] := by
  obtain ⟨hv, he⟩ := h
  exact ⟨(Except.ok.inj hv).symm, he.symm⟩

theorem makes_throw {e : Error} {a : α} {es : List IndexEntry}
    (h : Makes (throw e : Compilation α) a es) : False := by
  cases h.1

theorem makes_bind {c : Compilation α} {f : α → Compilation β} {b : β} {es : List IndexEntry}
    (h : Makes (c >>= f) b es) :
    ∃ a es₁ es₂, Makes c a es₁ ∧ Makes (f a) b es₂ ∧ es = es₁ ++ es₂ := by
  obtain ⟨hv, he⟩ := h
  rw [ExceptT.run_bind] at hv he
  cases hc : c.run with
  | mk value emissions =>
    rw [hc] at hv he
    cases value with
    | error e => cases hv
    | ok a =>
      have hem : emissions.filterMap Emission.entry? ++
          (f a).run.emissions.filterMap Emission.entry? = es := by
        rw [← List.filterMap_append]
        exact he
      exact ⟨a, _, _, ⟨by rw [hc], by rw [hc]⟩, ⟨hv, rfl⟩, hem.symm⟩

/-- And the other way round. -/
theorem Makes.bind {c : Compilation α} {f : α → Compilation β} {a : α} {b : β}
    {es es' : List IndexEntry} (h : Makes c a es) (h' : Makes (f a) b es') :
    Makes (c >>= f) b (es ++ es') := by
  obtain ⟨hvalue, hentries⟩ := h
  obtain ⟨hvalue', hentries'⟩ := h'
  unfold Makes
  rw [ExceptT.run_bind]
  cases hc : c.run with
  | mk value emissions =>
    rw [hc] at hvalue hentries
    cases (hvalue : value = _)
    refine ⟨hvalue', ?_⟩
    show (emissions ++ (f a).run.emissions).filterMap Emission.entry? = _
    rw [List.filterMap_append, hentries']
    exact congrArg (· ++ es') hentries

/-- What a compilation makes is wrapped up at the end. -/
theorem Makes.wrap {c : Compilation α} {a : α} {es : List IndexEntry} (h : Makes c a es)
    (g : α → β) : Makes (c >>= fun a => pure (g a)) (g a) es := by
  have hlast : Makes (pure (g a)) (g a) [] := ⟨rfl, rfl⟩
  have hboth : Makes (c >>= fun a => pure (g a)) (g a) (es ++ []) := h.bind hlast
  rwa [List.append_nil] at hboth

theorem makes_emit {emitted : List Emission} {u : Unit} {es : List IndexEntry}
    (h : Makes (emit emitted) u es) : es = emitted.filterMap Emission.entry? := by
  have he : (emitted ++ []).filterMap Emission.entry? = es := h.2
  rw [← he, List.append_nil]

theorem makes_noteAll {ns : List Notice} {u : Unit} {es : List IndexEntry}
    (h : Makes (noteAll ns) u es) : es = [] := by
  rw [makes_emit h, List.filterMap_map]
  exact List.filterMap_eq_nil_iff.mpr fun _ _ => rfl

theorem makes_register {e : IndexEntry} {u : Unit} {es : List IndexEntry}
    (h : Makes (register e) u es) : es = [e] := makes_emit h

/-- A check made on the way registers nothing. -/
theorem makes_check {x : Except Error α} {a : α} {es : List IndexEntry}
    (h : Makes (ExceptT.mk (pure x) : Compilation α) a es) : x = .ok a ∧ es = [] :=
  ⟨h.1, h.2.symm⟩

theorem makes_mapM_nil {f : α → Compilation β} {bs : List β} {es : List IndexEntry}
    (h : Makes ([].mapM f) bs es) : bs = [] ∧ es = [] := by
  rw [List.mapM_nil] at h
  exact makes_pure h

theorem makes_mapM_cons {f : α → Compilation β} {a : α} {as : List α} {bs : List β}
    {es : List IndexEntry} (h : Makes ((a :: as).mapM f) bs es) :
    ∃ b bs' es₁ es₂, Makes (f a) b es₁ ∧ Makes (as.mapM f) bs' es₂ ∧ bs = b :: bs' ∧
      es = es₁ ++ es₂ := by
  rw [List.mapM_cons] at h
  obtain ⟨b, es₁, es₂, hb, hrest, rfl⟩ := makes_bind h
  obtain ⟨bs', es₃, es₄, hbs, hpure, rfl⟩ := makes_bind hrest
  obtain ⟨rfl, rfl⟩ := makes_pure hpure
  exact ⟨b, bs', es₁, es₃, hb, hbs, rfl, by rw [List.append_nil]⟩

/-- Of a list of compilations each makes its share. -/
theorem makes_of_mem {f : α → Compilation β} {a : α} :
    ∀ {as : List α} {bs : List β} {es : List IndexEntry}, Makes (as.mapM f) bs es →
      a ∈ as → ∃ b ∈ bs, ∃ es', Makes (f a) b es' ∧ es'.Sublist es
  | [], _, _, _, ha => absurd ha List.not_mem_nil
  | _ :: as, _, _, h, ha => by
    obtain ⟨b, bs, es₁, es₂, hb, hbs, rfl, rfl⟩ := makes_mapM_cons h
    rcases List.mem_cons.mp ha with rfl | ha
    · exact ⟨b, List.mem_cons_self .., es₁, hb, List.sublist_append_left ..⟩
    · obtain ⟨b', hb', es', hmakes, hsub⟩ := makes_of_mem hbs ha
      exact ⟨b', List.mem_cons_of_mem _ hb', es', hmakes,
        hsub.trans (List.sublist_append_right ..)⟩

/-- What a list of compilations makes, one of them made. -/
theorem makes_of_made {f : α → Compilation β} {b : β} :
    ∀ {as : List α} {bs : List β} {es : List IndexEntry}, Makes (as.mapM f) bs es →
      b ∈ bs → ∃ a ∈ as, ∃ es', Makes (f a) b es' ∧ es'.Sublist es
  | [], _, _, h, hb => by
    obtain ⟨rfl, -⟩ := makes_mapM_nil h
    exact absurd hb List.not_mem_nil
  | a :: as, _, _, h, hb => by
    obtain ⟨first, bs, es₁, es₂, hfirst, hbs, rfl, rfl⟩ := makes_mapM_cons h
    rcases List.mem_cons.mp hb with rfl | hb
    · exact ⟨a, List.mem_cons_self .., es₁, hfirst, List.sublist_append_left ..⟩
    · obtain ⟨a', ha', es', hmakes, hsub⟩ := makes_of_made hbs hb
      exact ⟨a', List.mem_cons_of_mem _ ha', es', hmakes,
        hsub.trans (List.sublist_append_right ..)⟩

/-- Checks made one after the other register nothing. -/
theorem makes_checks {f : α → Except Error Unit} :
    ∀ {as : List α} {u : Unit} {es : List IndexEntry},
      Makes (as.forM fun a => (ExceptT.mk (pure (f a)) : Compilation Unit)) u es →
        es = [] ∧ ∀ a ∈ as, f a = .ok ()
  | [], _, _, h => ⟨(makes_pure (a := ()) h).2, fun _ ha => absurd ha List.not_mem_nil⟩
  | a :: as, _, _, h => by
    obtain ⟨_, es₁, es₂, ha, hrest, rfl⟩ := makes_bind
      (c := ExceptT.mk (pure (f a))) (f := fun _ => as.forM fun a => ExceptT.mk (pure (f a))) h
    obtain ⟨hok, rfl⟩ := makes_check ha
    obtain ⟨rfl, hall⟩ := makes_checks hrest
    refine ⟨rfl, fun x hx => ?_⟩
    rcases List.mem_cons.mp hx with rfl | hx
    · exact hok
    · exact hall x hx

end Compilation

theorem FieldKind.ofName?_name (kind : FieldKind) : FieldKind.ofName? kind.name = some kind := by
  cases kind <;> decide

theorem FieldKind.ofName?_eq_some {name : String} {kind : FieldKind} :
    ofName? name = some kind ↔ name = kind.name := by
  constructor
  · intro h
    exact (beq_iff_eq.mp (List.find?_some h :)).symm
  · rintro rfl
    exact ofName?_name kind

/-- Sub-fields are those of groups and repeaters. -/
theorem FieldKind.hasSubFields_iff {kind : FieldKind} :
    kind.hasSubFields = true ↔ kind = .group ∨ kind = .repeater := by
  cases kind <;> decide

namespace Compile

open Compilation

/-- Collections are the fields of one kind. -/
theorem eq_flexibleContent {kind : FieldKind} (h : kind.isBlockCollection = true) :
    kind = .flexibleContent := by
  cases kind <;> first | rfl | exact absurd h (by decide)

/-! ## Fields -/

section Fields

variable {fill : Filling} {site : Site} {owner : Entity} {group : FieldGroup}

/-- What a field of a kind holds, by the entries that were registered for it: variants, the nodes
of sub-fields, or nothing. -/
inductive Holds (fill : Filling) (site : Site) (owner : Entity) (group : FieldGroup)
    (path : KeyPath) (key : String) (f : Field) :
    FieldKind → List FieldNode → List (String × BlockNode) → List IndexEntry → Prop
  | nothing {kind : FieldKind} (hcollection : kind.isBlockCollection = false)
      (hrows : kind.hasSubFields = false) : Holds fill site owner group path key f kind [] [] []
  | variants {found : List (String × BlockNode)} {es : List IndexEntry}
      (hfill : Makes (fill site (f.attributes.blocks.getD owner.children) path key) found es) :
      Holds fill site owner group path key f .flexibleContent [] found es
  | rows {kind : FieldKind} {nodes : List FieldNode} {es : List IndexEntry}
      (hrows : kind.hasSubFields = true)
      (hunique : checkUnique owner.name (group.name ++ "." ++ f.name) (f.subFields.map (·.name)) =
        .ok ())
      (hfields : Makes (fields fill site owner group (Sibling.ofFields group path f.subFields) path
        key f.subFields) nodes es) :
      Holds fill site owner group path key f kind nodes [] es

theorem makes_field {siblings : List Sibling} {path : KeyPath} {parent : String} {f : Field}
    {node : FieldNode} {es : List IndexEntry}
    (h : Makes (field fill site owner group siblings path parent f) node es) :
    ∃ kind logic rows layouts held,
      FieldKind.ofName? f.attributes.type = some kind ∧
      Condition.resolve owner.name f.name siblings group f.attributes.condition = .ok logic ∧
      Holds fill site owner group (path.child f.name) ((path.child f.name).encode .field) f kind
        rows layouts held ∧
      node =
        { FieldNode.ofAttributes kind ((path.child f.name).encode .field) f.name f.attributes with
          logic := logic, subFields := rows, layouts := layouts } ∧
      es = held ++ [fieldEntry node owner.ref (some group) (some parent) site.layoutName] := by
  obtain ⟨name, attributes, subFields⟩ := f
  rw [field] at h
  split at h
  next found hkind =>
    obtain ⟨kind, es₁, es₂, hpure, h₁, rfl⟩ := makes_bind h
    obtain ⟨rfl, rfl⟩ := makes_pure hpure
    obtain ⟨_, es₃, es₄, hnotes, h₂, rfl⟩ := makes_bind h₁
    obtain rfl := makes_noteAll hnotes
    obtain ⟨logic, es₅, es₆, hlogic, h₃, rfl⟩ := makes_bind h₂
    obtain ⟨hresolve, rfl⟩ := makes_check hlogic
    -- By what the kind holds: blocks, sub-fields or nothing. The entry comes last in each case.
    dsimp only at h₃
    by_cases hcollection : kind.isBlockCollection = true
    · rw [if_pos hcollection] at h₃
      obtain rfl := eq_flexibleContent hcollection
      obtain ⟨layouts, es₇, es₈, hfill, h₄, rfl⟩ := makes_bind h₃
      rw [if_neg (by decide)] at h₄
      obtain ⟨rows, es₉, es₁₀, hrows, h₅, rfl⟩ := makes_bind h₄
      obtain ⟨rfl, rfl⟩ := makes_pure hrows
      obtain ⟨_, es₁₁, es₁₂, hentry, h₆, rfl⟩ := makes_bind h₅
      obtain rfl := makes_register hentry
      obtain ⟨rfl, rfl⟩ := makes_pure h₆
      exact ⟨_, logic, [], layouts, es₇, hkind, hresolve, .variants hfill, rfl, rfl⟩
    · rw [if_neg hcollection] at h₃
      obtain ⟨layouts, es₇, es₈, hlayouts, h₄, rfl⟩ := makes_bind h₃
      obtain ⟨rfl, rfl⟩ := makes_pure hlayouts
      by_cases hsub : kind.hasSubFields = true
      · rw [if_pos hsub] at h₄
        obtain ⟨_, es₉, es₁₀, hunique, h₅, rfl⟩ := makes_bind h₄
        obtain ⟨hnames, rfl⟩ := makes_check hunique
        obtain ⟨rows, es₁₁, es₁₂, hfields, h₆, rfl⟩ := makes_bind h₅
        obtain ⟨_, es₁₃, es₁₄, hentry, h₇, rfl⟩ := makes_bind h₆
        obtain rfl := makes_register hentry
        obtain ⟨rfl, rfl⟩ := makes_pure h₇
        exact ⟨kind, logic, rows, [], es₁₁, hkind, hresolve, .rows hsub hnames hfields, rfl, rfl⟩
      · rw [if_neg hsub] at h₄
        obtain ⟨rows, es₉, es₁₀, hrows, h₅, rfl⟩ := makes_bind h₄
        obtain ⟨rfl, rfl⟩ := makes_pure hrows
        obtain ⟨_, es₁₁, es₁₂, hentry, h₆, rfl⟩ := makes_bind h₅
        obtain rfl := makes_register hentry
        obtain ⟨rfl, rfl⟩ := makes_pure h₆
        exact ⟨kind, logic, [], [], [], hkind, hresolve,
          .nothing (Bool.eq_false_iff.mpr hcollection) (Bool.eq_false_iff.mpr hsub), rfl, rfl⟩
  next => exact (makes_throw (makes_bind h).choose_spec.choose_spec.choose_spec.1).elim

theorem makes_fields_nil {siblings : List Sibling} {path : KeyPath} {parent : String}
    {nodes : List FieldNode} {es : List IndexEntry}
    (h : Makes (fields fill site owner group siblings path parent []) nodes es) :
    nodes = [] ∧ es = [] := by
  rw [fields] at h
  exact makes_pure h

theorem makes_fields_cons {siblings : List Sibling} {path : KeyPath} {parent : String} {f : Field}
    {fs : List Field} {nodes : List FieldNode} {es : List IndexEntry}
    (h : Makes (fields fill site owner group siblings path parent (f :: fs)) nodes es) :
    ∃ node rest es₁ es₂,
      Makes (field fill site owner group siblings path parent f) node es₁ ∧
      Makes (fields fill site owner group siblings path parent fs) rest es₂ ∧
      nodes = node :: rest ∧ es = es₁ ++ es₂ := by
  rw [fields] at h
  obtain ⟨node, es₁, es₂, hnode, h₁, rfl⟩ := makes_bind h
  obtain ⟨rest, es₃, es₄, hrest, h₂, rfl⟩ := makes_bind h₁
  obtain ⟨rfl, rfl⟩ := makes_pure h₂
  exact ⟨node, rest, es₁, es₃, hnode, hrest, rfl, by rw [List.append_nil]⟩

end Fields

/-! ## Blocks -/

section Blocks

variable {fill : Filling} {site : Site} {b : Entity} {path : KeyPath}

/-- The node of a tab. -/
def tabNode (group : FieldGroup) (path : KeyPath) : FieldNode :=
  .plain .tab (((path.child "tabs").child group.name).encode .field) group.tabName group.label

/-- The nodes of a group of a block, by the entries that were registered for them. -/
inductive GroupHolds (fill : Filling) (site : Site) (b : Entity) (path : KeyPath) (key : String)
    (siblings : List Sibling) :
    FieldGroup → List Field → List FieldNode → List IndexEntry → Prop
  | empty {group : FieldGroup} : GroupHolds fill site b path key siblings group [] [] []
  | content {members : List Field} {nodes : List FieldNode} {es : List IndexEntry}
      (hmembers : members ≠ [])
      (hfields : Makes (fields fill site b .content siblings (path.child FieldGroup.content.name)
        key members) nodes es) :
      GroupHolds fill site b path key siblings .content members (pinned b members nodes) es
  | tabbed {group : FieldGroup} {members : List Field} {nodes : List FieldNode}
      {es : List IndexEntry} (hgroup : group ≠ .content) (hmembers : members ≠ [])
      (hfields : Makes (fields fill site b group siblings (path.child group.name) key members)
        nodes es) :
      GroupHolds fill site b path key siblings group members (tabNode group path :: nodes)
        (fieldEntry (tabNode group path) b.ref (some group) (some key) site.layoutName :: es)

theorem makes_groupNodes {key : String} {siblings : List Sibling} {group : FieldGroup}
    {members : List Field} {nodes : List FieldNode} {es : List IndexEntry}
    (h : Makes (groupNodes fill site b path key siblings group members) nodes es) :
    GroupHolds fill site b path key siblings group members nodes es := by
  unfold groupNodes at h
  split at h
  next hempty =>
    obtain ⟨rfl, rfl⟩ := makes_pure h
    rw [List.isEmpty_iff.mp hempty]
    exact .empty
  next hne =>
    have hmembers : members ≠ [] := fun hnil => hne (by rw [hnil]; rfl)
    split at h
    next hcontent =>
      subst hcontent
      obtain ⟨made, es₁, es₂, hfields, h₁, rfl⟩ := makes_bind h
      obtain ⟨rfl, rfl⟩ := makes_pure h₁
      rw [List.append_nil]
      exact .content hmembers hfields
    next hgroup =>
      obtain ⟨marker, es₁, es₂, htab, h₁, rfl⟩ := makes_bind h
      obtain ⟨made, es₃, es₄, hfields, h₂, rfl⟩ := makes_bind h₁
      obtain ⟨rfl, rfl⟩ := makes_pure h₂
      obtain ⟨_, es₅, es₆, hentry, h₃, rfl⟩ := makes_bind htab
      obtain rfl := makes_register hentry
      obtain ⟨rfl, rfl⟩ := makes_pure h₃
      rw [List.append_nil, List.append_nil]
      exact .tabbed hgroup hmembers hfields

/-- The fields of the groups of a block as siblings. -/
def siblingsOf (settings : Settings) (b : Entity) (path : KeyPath) : List Sibling :=
  (groups settings b).flatMap fun (group, fields) =>
    Sibling.ofFields group (path.child group.name) fields

/-- The entry of a block variant. -/
def blockEntry (site : Site) (collection : Option String) (path : KeyPath) (b : Entity) :
    IndexEntry :=
  { key := path.encode .block
    name := b.name
    entity := b.ref
    group := none
    node := .block
    parent := collection
    layout := site.layoutName
    isBoundary := true
    returnFormat := none }

theorem makes_block {settings : Settings} {collection : Option String} {node : BlockNode}
    {es : List IndexEntry} (h : Makes (block settings fill site collection path b) node es) :
    ∃ held parts,
      (∀ g ∈ groups settings b, checkUnique b.name g.1.name (takenNames g.1 g.2) = .ok ()) ∧
      Makes ((groups settings b).mapM fun g => groupNodes fill (site.nested b) b path
        (path.encode .block) (siblingsOf settings b path) g.1 g.2) parts held ∧
      node = ⟨path.encode .block, b.name, b.label, b.display, parts.flatten, "", ""⟩ ∧
      es = held ++ [blockEntry site collection path b] := by
  unfold block at h
  obtain ⟨_, es₁, es₂, hchecks, h₁, rfl⟩ := makes_bind h
  obtain ⟨rfl, hunique⟩ := makes_checks
    (f := fun g : FieldGroup × List Field => checkUnique b.name g.1.name (takenNames g.1 g.2))
    hchecks
  obtain ⟨parts, es₃, es₄, hparts, h₂, rfl⟩ := makes_bind h₁
  obtain ⟨_, es₅, es₆, hentry, h₃, rfl⟩ := makes_bind h₂
  obtain rfl := makes_register hentry
  obtain ⟨rfl, rfl⟩ := makes_pure h₃
  exact ⟨es₃, parts, hunique, hparts, rfl, by simp [blockEntry]⟩

end Blocks

/-! ## Collections -/

section Collections

variable {registry : Registry} {make : Site → Option String → KeyPath → Entity →
  Compilation BlockNode} {site : Site} {path : KeyPath} {key : String}

theorem makes_offered {filter : NameFilter} {found : List (String × BlockNode)}
    {es : List IndexEntry} (h : Makes (offered registry make site filter path key) found es) :
    ∃ l parent parts, site.layout = some l ∧ site.parent = some parent ∧
      Makes ((registry.candidates filter).mapM (variant make site parent path key)) parts es ∧
      found = Entries.ofList parts.flatten := by
  unfold offered at h
  cases hl : site.layout with
  | none =>
    rw [hl] at h
    exact (makes_throw h).elim
  | some l =>
    cases hp : site.parent with
    | none =>
      rw [hl, hp] at h
      exact (makes_throw h).elim
    | some parent =>
      rw [hl, hp] at h
      obtain ⟨_, es₁, es₂, hnotes, h₁, rfl⟩ := makes_bind h
      obtain rfl := makes_noteAll hnotes
      obtain ⟨parts, es₃, es₄, hparts, h₂, rfl⟩ := makes_bind h₁
      obtain ⟨rfl, rfl⟩ := makes_pure h₂
      exact ⟨l, parent, parts, rfl, rfl, by simpa using hparts, rfl⟩

theorem makes_variant {parent candidate : Entity} {found : List (String × BlockNode)}
    {es : List IndexEntry} (h : Makes (variant make site parent path key candidate) found es) :
    (refusal? parent site.enclosing candidate ≠ none ∧ found = [] ∧ es = []) ∨
    (refusal? parent site.enclosing candidate = none ∧
      ∃ node, Makes (make site (some key) (path.child candidate.name) candidate) node es ∧
        found = [(node.key, node)]) := by
  unfold variant at h
  cases hr : refusal? parent site.enclosing candidate with
  | some notice =>
    rw [hr] at h
    obtain ⟨_, es₁, es₂, hnotes, h₁, rfl⟩ := makes_bind h
    obtain rfl := makes_noteAll hnotes
    obtain ⟨rfl, rfl⟩ := makes_pure h₁
    exact Or.inl ⟨nofun, rfl, rfl⟩
  | none =>
    rw [hr] at h
    obtain ⟨node, es₁, es₂, hnode, h₁, rfl⟩ := makes_bind h
    obtain ⟨rfl, rfl⟩ := makes_pure h₁
    exact Or.inr ⟨rfl, node, by rwa [List.append_nil], rfl⟩

end Collections

/-! ## Layouts and the field group -/

/-- The entry of the collection of a layout. -/
def layoutEntry (registry : Registry) (parent : KeyPath) (l : Entity) : IndexEntry :=
  { key := (parent.child l.name).encode .field
    name := layoutSlug registry l
    entity := l.ref
    group := none
    node := .layout
    parent := none
    layout := some l.name
    isBoundary := true
    returnFormat := none }

/-- The node of the collection of a layout. -/
def layoutNode (registry : Registry) (parent : KeyPath) (l : Entity)
    (variants : List (String × BlockNode)) : FieldNode :=
  { FieldNode.plain .flexibleContent ((parent.child l.name).encode .field) (layoutSlug registry l)
      l.label with
    instructions := l.instructions
    options := FieldKind.flexibleContent.defaultOptions.insert "button_label"
      (.string l.buttonLabel)
    layouts := variants }

theorem makes_layout {registry : Registry} {parent : KeyPath} {l : Entity} {node : FieldNode}
    {es : List IndexEntry} (h : Makes (layout registry parent l) node es) :
    ∃ variants held,
      Makes (fill registry (.inLayout l) l.children (parent.child l.name)
        ((parent.child l.name).encode .field)) variants held ∧
      node = layoutNode registry parent l variants ∧
      es = held ++ [layoutEntry registry parent l] := by
  unfold layout at h
  obtain ⟨variants, es₁, es₂, hvariants, h₁, rfl⟩ := makes_bind h
  obtain ⟨_, es₃, es₄, hentry, h₂, rfl⟩ := makes_bind h₁
  obtain rfl := makes_register hentry
  obtain ⟨rfl, rfl⟩ := makes_pure h₂
  exact ⟨variants, es₁, hvariants, rfl, by simp [layoutEntry]⟩

/-- The builder as the entity that declares the controls. -/
def builderRef (registry : Registry) : EntityRef :=
  { type := .builder, name := registry.settings.name }

theorem makes_fieldGroup {registry : Registry} {group : FieldGroupNode} {es : List IndexEntry}
    (h : Makes (fieldGroup registry) group es) :
    ∃ layouts held,
      Makes (registry.layouts.values.mapM (layout registry ((root registry).child "layouts")))
        layouts held ∧
      group = .ofPostTypes ((root registry).encode .group) registry.settings.label
        registry.settings.description
        (enabledField registry :: selectField registry :: layouts.map (selected registry))
        registry.settings.postTypes ∧
      es = fieldEntry (enabledField registry) (builderRef registry) none none none ::
        (held ++ [fieldEntry (selectField registry) (builderRef registry) none none none]) := by
  unfold fieldGroup at h
  obtain ⟨_, es₁, es₂, henabled, h₁, rfl⟩ := makes_bind h
  obtain rfl := makes_register henabled
  obtain ⟨layouts, es₃, es₄, hlayouts, h₂, rfl⟩ := makes_bind h₁
  obtain ⟨_, es₅, es₆, hselect, h₃, rfl⟩ := makes_bind h₂
  obtain rfl := makes_register hselect
  obtain ⟨rfl, rfl⟩ := makes_pure h₃
  exact ⟨layouts, es₃, hlayouts, rfl, by simp [builderRef]⟩

end Compile

end PageBlocks
