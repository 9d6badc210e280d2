import PageBlocks.Proofs.Key
import PageBlocks.Proofs.Name
import PageBlocks.Proofs.Tree.Described

/-!
# Addresses

The compiler makes every id from a kind and a path of names. Here are the
addresses of all nodes in the expansion of a registry, in the order in which
the compiler comes to them: what is inside a node before the node, tabs before
the fields behind them, the select after the layouts. Nothing is made and
nothing is looked up; only the names are walked.

The walk is also where names are told apart. Everything in a field lies below
the field's path, everything in a variant below the variant's, and so on
(`Beyond`), and paths that part with two different names never meet again.

> `addresses_beyond`: every address lies below the name of the builder.
-/

namespace PageBlocks

/-- What an id is made from. -/
structure Address where
  kind : KeyKind
  path : KeyPath
deriving DecidableEq, Repr

namespace Address

def id (a : Address) : String := a.path.encode a.kind

/-- An address lies at a path or below it, by valid names. -/
def Beyond (base : KeyPath) (a : Address) : Prop :=
  ∃ names, (∀ n ∈ names, isValidName n = true) ∧ a.path.segments = base.segments ++ names

/-- An address lies below a path. -/
def Below (base : KeyPath) (a : Address) : Prop :=
  ∃ n, isValidName n = true ∧ Beyond (base.child n) a

theorem beyond_self (kind : KeyKind) (path : KeyPath) : Beyond path ⟨kind, path⟩ :=
  ⟨[], fun _ h => absurd h List.not_mem_nil, (List.append_nil _).symm⟩

theorem Beyond.of_child {base : KeyPath} {n : String} {a : Address} (hn : isValidName n = true)
    (h : Beyond (base.child n) a) : Beyond base a := by
  obtain ⟨names, hnames, hpath⟩ := h
  refine ⟨n :: names, fun m hm => ?_, by rw [hpath, KeyPath.child, List.append_assoc]; rfl⟩
  rcases List.mem_cons.mp hm with rfl | hm
  · exact hn
  · exact hnames m hm

theorem Below.beyond {base : KeyPath} {a : Address} (h : Below base a) : Beyond base a := by
  obtain ⟨n, hn, hbeyond⟩ := h
  exact hbeyond.of_child hn

theorem Below.of_child {base : KeyPath} {n : String} {a : Address} (hn : isValidName n = true)
    (h : Below (base.child n) a) : Below base a := ⟨n, hn, h.beyond⟩

/-- What lies below a path is not at it. -/
theorem Below.path_ne {base : KeyPath} {a : Address} (h : Below base a) : a.path ≠ base := by
  obtain ⟨n, -, names, -, hpath⟩ := h
  intro heq
  have hlength := congrArg List.length hpath
  rw [heq] at hlength
  simp only [KeyPath.child, List.length_append, List.length_cons, List.length_nil] at hlength
  omega

/-- Below two different names there is no common address. -/
theorem Beyond.name_eq {base : KeyPath} {m n : String} {a : Address}
    (hm : Beyond (base.child m) a) (hn : Beyond (base.child n) a) : m = n := by
  obtain ⟨ms, -, hms⟩ := hm
  obtain ⟨ns, -, hns⟩ := hn
  rw [hms, KeyPath.child, KeyPath.child, List.append_assoc, List.append_assoc] at hns
  exact (List.cons.inj (List.append_cancel_left hns)).1

/-- Valid names have no colon in them. -/
theorem Beyond.separable {root : String} {a : Address} (hroot : isValidName root = true)
    (h : Beyond (.root root) a) : a.path.Separable := by
  obtain ⟨names, hnames, hpath⟩ := h
  rw [KeyPath.Separable, hpath]
  refine ⟨List.cons_ne_nil _ _, fun n hn => not_mem_of_isValidName ?_ (by decide)⟩
  rcases List.mem_cons.mp hn with rfl | hn
  · exact hroot
  · exact hnames n hn

theorem path_eq_of_joined {root : String} {a b : Address} (hroot : isValidName root = true)
    (ha : Beyond (.root root) a) (hb : Beyond (.root root) b)
    (h : a.path.joined = b.path.joined) : a.path = b.path :=
  (ha.separable hroot).eq_of_joined (hb.separable hroot) h

theorem parts_of_id {a b : Address} (h : a.id = b.id) :
    a.kind = b.kind ∧ keyDigest (keyPreimage a.path) = keyDigest (keyPreimage b.path) :=
  KeyPath.parts_of_encode h

end Address

/-! ## The expansion of a registry -/

namespace Expansion

/-- The addresses inside a collection, given where it stands, the blocks it is to offer and its
path. -/
abbrev Inside := Site → NameFilter → KeyPath → List Address

section Field

variable (inside : Inside) (site : Site) (owner : Entity)

mutual
/-- The addresses in a field under a path, its own last. -/
def field (path : KeyPath) : Field → List Address
  | ⟨name, attributes, subFields⟩ =>
    (match FieldKind.ofName? attributes.type with
      | some kind =>
        if kind.isBlockCollection then
          inside site (attributes.blocks.getD owner.children) (path.child name)
        else if kind.hasSubFields then fields (path.child name) subFields
        else []
      | none => []) ++ [⟨.field, path.child name⟩]

def fields (path : KeyPath) : List Field → List Address
  | [] => []
  | f :: rest => field path f ++ fields path rest
end

end Field

/-- The addresses in a group of a block, behind that of its tab. -/
def group (inside : Inside) (site : Site) (b : Entity) (path : KeyPath)
    (g : FieldGroup × List Field) : List Address :=
  if g.2.isEmpty then []
  else
    (if g.1 = .content then [] else [⟨.field, (path.child "tabs").child g.1.name⟩]) ++
      fields inside site b (path.child g.1.name) g.2

/-- The addresses in a block variant at a path. -/
def block (settings : Settings) (inside : Inside) (site : Site) (path : KeyPath) (b : Entity) :
    List Address :=
  (Compile.groups settings b).flatMap (group inside (site.nested b) b path) ++ [⟨.block, path⟩]

/-- The addresses in the variant of a candidate, if it is offered. -/
def variant (make : Site → KeyPath → Entity → List Address) (site : Site) (parent : Entity)
    (path : KeyPath) (candidate : Entity) : List Address :=
  match Compile.refusal? parent site.enclosing candidate with
  | some _ => []
  | none => make site (path.child candidate.name) candidate

/-- The addresses inside a collection, given those in a block. -/
def offered (registry : Registry) (make : Site → KeyPath → Entity → List Address) : Inside :=
  fun site filter path =>
    match site.parent with
    | some parent => (registry.candidates filter).flatMap (variant make site parent path)
    | none => []

/-- The addresses inside a collection around which at most a number of blocks are still to
come. -/
def variants (registry : Registry) : Nat → Inside
  | 0 => offered registry fun _ _ _ => []
  | count + 1 => offered registry (block registry.settings (variants registry count))

/-- The addresses in a layout under a path. -/
def layout (registry : Registry) (parent : KeyPath) (l : Entity) : List Address :=
  variants registry registry.blocks.size (.inLayout l) l.children (parent.child l.name) ++
    [⟨.field, parent.child l.name⟩]

/-- The address of a control. -/
def control (registry : Registry) (name : String) : Address :=
  ⟨.field, ((Compile.root registry).child "settings").child name⟩

end Expansion

/-- The addresses of all nodes in the expansion of a registry. -/
def Registry.addresses (registry : Registry) : List Address :=
  Expansion.control registry "enabled" ::
    (registry.layouts.values.flatMap
        (Expansion.layout registry ((Compile.root registry).child "layouts")) ++
      [Expansion.control registry "layout"])

/-! ## Where the addresses lie -/

namespace Expansion

open Address

/-- Everything inside a collection lies below the collection. -/
def Inside.Below (inside : Inside) : Prop :=
  ∀ site filter path, ∀ a ∈ inside site filter path, Address.Below path a

section Field

variable {inside : Inside} {site : Site} {owner : Entity}

mutual
theorem field_beyond (hinside : inside.Below) {path : KeyPath} :
    ∀ (f : Field), f.Named → ∀ a ∈ field inside site owner path f, Beyond (path.child f.name) a
  | ⟨name, attributes, subFields⟩, hnamed, a, ha => by
    rw [field] at ha
    rcases List.mem_append.mp ha with ha | ha
    · split at ha
      next kind _ =>
        split at ha
        next => exact (hinside _ _ _ a ha).beyond
        next =>
          split at ha
          next =>
            have hsubs : ∀ s ∈ subFields, s.Named := hnamed.subFields
            exact (fields_below hinside subFields hsubs a ha).beyond
          next => exact absurd ha List.not_mem_nil
      next => exact absurd ha List.not_mem_nil
    · rw [List.mem_singleton.mp ha]
      exact beyond_self _ _

theorem fields_below (hinside : inside.Below) {path : KeyPath} :
    ∀ (fs : List Field), (∀ f ∈ fs, f.Named) → ∀ a ∈ fields inside site owner path fs,
      Below path a
  | [], _, a, ha => by
    rw [fields] at ha
    exact absurd ha List.not_mem_nil
  | f :: fs, hnamed, a, ha => by
    rw [fields] at ha
    rcases List.mem_append.mp ha with ha | ha
    · have hf : f.Named := hnamed f (List.mem_cons_self ..)
      exact ⟨f.name, hf.name, field_beyond hinside f hf a ha⟩
    · exact fields_below hinside fs (fun g hg => hnamed g (List.mem_cons_of_mem _ hg)) a ha
end

/-- Every address in some fields lies in one of them. -/
theorem mem_fields {path : KeyPath} {a : Address} :
    ∀ {fs : List Field}, a ∈ fields inside site owner path fs →
      ∃ f ∈ fs, a ∈ field inside site owner path f
  | [], ha => by
    rw [fields] at ha
    exact absurd ha List.not_mem_nil
  | f :: fs, ha => by
    rw [fields] at ha
    rcases List.mem_append.mp ha with ha | ha
    · exact ⟨f, List.mem_cons_self .., ha⟩
    · obtain ⟨g, hg, hmem⟩ := mem_fields ha
      exact ⟨g, List.mem_cons_of_mem _ hg, hmem⟩

end Field

/-- An address in a group is that of its tab, or lies below the name of the group. -/
theorem group_cases {inside : Inside} (hinside : inside.Below) {site : Site} {b : Entity}
    {path : KeyPath} {g : FieldGroup × List Field} (hnamed : ∀ f ∈ g.2, f.Named) {a : Address}
    (ha : a ∈ group inside site b path g) :
    (g.1 ≠ .content ∧ a = ⟨.field, (path.child "tabs").child g.1.name⟩) ∨
      Below (path.child g.1.name) a := by
  unfold group at ha
  split at ha
  next => exact absurd ha List.not_mem_nil
  next =>
    rcases List.mem_append.mp ha with ha | ha
    · split at ha
      next => exact absurd ha List.not_mem_nil
      next hgroup => exact Or.inl ⟨hgroup, List.mem_singleton.mp ha⟩
    · exact Or.inr (fields_below hinside g.2 hnamed a ha)

theorem group_below {inside : Inside} (hinside : inside.Below) {site : Site} {b : Entity}
    {path : KeyPath} {g : FieldGroup × List Field} (hnamed : ∀ f ∈ g.2, f.Named) {a : Address}
    (ha : a ∈ group inside site b path g) : Below path a := by
  rcases group_cases hinside hnamed ha with ⟨-, rfl⟩ | hbelow
  · exact ⟨"tabs", by decide +kernel, (beyond_self _ _).of_child g.1.isValidName_name⟩
  · exact hbelow.of_child g.1.isValidName_name

theorem block_beyond {inside : Inside} (hinside : inside.Below) {settings : Settings}
    {site : Site} {path : KeyPath} {b : Entity} (hb : b.Named) {a : Address}
    (ha : a ∈ block settings inside site path b) : Beyond path a := by
  unfold block at ha
  rcases List.mem_append.mp ha with ha | ha
  · obtain ⟨g, hg, ha⟩ := List.mem_flatMap.mp ha
    exact (group_below hinside (Compile.groups_named hb g hg) ha).beyond
  · rw [List.mem_singleton.mp ha]
    exact beyond_self _ _

variable {registry : Registry}

theorem candidate_named (hr : registry.Sound) {filter : NameFilter} {b : Entity}
    (hb : b ∈ registry.candidates filter) : b.Named :=
  (hr.block (hr.mem_candidates.mp hb).1).2.2

/-- What is in a variant lies below its name, if that holds of blocks. -/
theorem variant_beyond {make : Site → KeyPath → Entity → List Address}
    (hmake : ∀ site path b, b.Named → ∀ a ∈ make site path b, Beyond path a) {site : Site}
    {parent candidate : Entity} {path : KeyPath} (hnamed : candidate.Named) {a : Address}
    (ha : a ∈ variant make site parent path candidate) : Beyond (path.child candidate.name) a := by
  unfold variant at ha
  split at ha
  next => exact absurd ha List.not_mem_nil
  next => exact hmake _ _ _ hnamed a ha

theorem offered_below (hr : registry.Sound) {make : Site → KeyPath → Entity → List Address}
    (hmake : ∀ site path b, b.Named → ∀ a ∈ make site path b, Beyond path a) :
    (offered registry make).Below := by
  intro site filter path a ha
  unfold offered at ha
  split at ha
  next parent _ =>
    obtain ⟨c, hc, ha⟩ := List.mem_flatMap.mp ha
    have hnamed : c.Named := candidate_named hr hc
    exact ⟨c.name, hnamed.name, variant_beyond hmake hnamed ha⟩
  next => exact absurd ha List.not_mem_nil

/-- However many blocks may still nest, everything inside a collection lies below it. -/
theorem variants_below (hr : registry.Sound) : ∀ count, (variants registry count).Below := by
  intro count
  induction count with
  | zero =>
    rw [variants]
    exact offered_below hr fun _ _ _ _ a ha => absurd ha List.not_mem_nil
  | succ count ih =>
    rw [variants]
    exact offered_below hr fun _ _ _ hb a ha => block_beyond ih hb ha

theorem layout_beyond (hr : registry.Sound) {parent : KeyPath} {l : Entity} {a : Address}
    (ha : a ∈ layout registry parent l) : Beyond (parent.child l.name) a := by
  unfold layout at ha
  rcases List.mem_append.mp ha with ha | ha
  · exact (variants_below hr _ _ _ _ a ha).beyond
  · rw [List.mem_singleton.mp ha]
    exact beyond_self _ _

theorem control_beyond {name : String} (hname : isValidName name = true) :
    Beyond ((Compile.root registry).child "settings") (control registry name) :=
  (beyond_self _ _).of_child hname

/-- What is in the layouts lies below the name for layouts. -/
theorem layouts_beyond (hr : registry.Sound) {a : Address}
    (ha : a ∈ registry.layouts.values.flatMap
      (layout registry ((Compile.root registry).child "layouts"))) :
    Beyond ((Compile.root registry).child "layouts") a := by
  obtain ⟨l, hl, ha⟩ := List.mem_flatMap.mp ha
  obtain ⟨name, hget⟩ := Dict.mem_values_iff.mp hl
  exact (layout_beyond hr ha).of_child (hr.layout hget).2.2.name

/-- Every address of a registry lies below the name of its builder, by valid names. -/
theorem addresses_beyond (hr : registry.Sound) :
    ∀ a ∈ registry.addresses, Beyond (Compile.root registry) a := by
  intro a ha
  have hsettings : isValidName "settings" = true := by decide +kernel
  rcases List.mem_cons.mp ha with rfl | ha
  · exact (control_beyond (by decide +kernel)).of_child hsettings
  · rcases List.mem_append.mp ha with ha | ha
    · exact (layouts_beyond hr ha).of_child (by decide +kernel)
    · rw [List.mem_singleton.mp ha]
      exact (control_beyond (by decide +kernel)).of_child hsettings

end Expansion

end PageBlocks
