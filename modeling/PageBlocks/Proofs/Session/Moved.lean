import PageBlocks.Proofs.Definitions.Canonical
import PageBlocks.Proofs.Definitions.Loaded
import PageBlocks.Proofs.Key
import PageBlocks.Proofs.Session.History

/-!
# Moving definitions between files

Two data directories may say the same, split over their files in different
ways. What is loaded of them has the same settings, blocks and layouts then, and
the registries that are built of it differ in nothing but the hash. The hash,
however, is taken over the patterns of the root file too. So it tells the two
apart when a definition is moved to a file that was not included before.

> `Definitions.SameContent.hash_eq_iff`: the hash tells the patterns, as far as
> the digest tells the texts it is taken over;
>
> `patterns_are_hashed`: registries have one hash just when the root files have
> the same patterns; if not, a builder that loads the one after the other
> records another version and drops what is kept.

So a block that is moved is recorded again: `Moving.moved_block_changes_hash`.
-/

namespace PageBlocks

open Stateful Builder Attempt

namespace Definitions

/-- Definitions that say the same. The patterns, by which the root file includes others, say
nothing. -/
structure SameContent (d d' : Definitions) : Prop where
  settings : d'.settings = d.settings
  blocks : d'.blocks = d.blocks
  layouts : d'.layouts = d.layouts

variable {d d' : Definitions}

/-! ## The hash -/

theorem SameContent.eq_of_includes (h : d.SameContent d') (hincludes : d.includes = d'.includes) :
    d = d' := by
  obtain ⟨settings, includes, blocks, layouts⟩ := d
  obtain ⟨settings', includes', blocks', layouts'⟩ := d'
  obtain ⟨rfl, rfl, rfl⟩ := h
  cases hincludes
  rfl

/-- The patterns stand in the canonical text behind the settings, and where they end can be told
from their text. -/
theorem SameContent.includes_of_canonicalText (h : d.SameContent d')
    (htext : d.canonicalText = d'.canonicalText) : d.includes = d'.includes := by
  unfold canonicalText toValue at htext
  rw [h.settings] at htext
  have hpatterns : Value.ofTexts d.includes = Value.ofTexts d'.includes :=
    JsonText.second_eq (.ofTexts _) (.ofTexts _) htext
  exact List.map_injective_iff.mpr (fun _ _ => Value.string.inj) (Value.array.inj hpatterns)

/-- The hash tells the patterns, as far as the digest tells the texts it is taken over. -/
theorem SameContent.hash_eq_iff (h : d.SameContent d')
    (hdigest : d.hash = d'.hash → d.canonicalText = d'.canonicalText) :
    d.hash = d'.hash ↔ d.includes = d'.includes := by
  constructor
  · exact fun hhash => h.includes_of_canonicalText (hdigest hhash)
  · intro hincludes
    rw [h.eq_of_includes hincludes]

end Definitions

/-! ## The registry -/

/-- Building looks at settings, blocks and layouts, and at the hash only to keep it. -/
theorem Definitions.SameContent.build {d d' : Definitions} (h : d.SameContent d')
    (resources : Resources) :
    (Registry.build d' resources).run.value =
      (Registry.build d resources).run.value.map fun r => { r with sourceHash := d'.hash } := by
  unfold Registry.build Registry.buildWithin
  rw [h.settings, h.blocks, h.layouts]
  by_cases hname : (!isValidName d.settings.name) = true
  · rw [if_pos hname, if_pos hname]
    rfl
  · rw [if_neg hname, if_neg hname, value_bind, value_bind]
    cases (Registry.entities (Entity.ofBlock resources.generators resources.letters resources.limit)
      d.blocks).run.value with
    | error e => rfl
    | ok blocks =>
      dsimp only
      rw [value_bind, value_bind]
      cases (Registry.entities Entity.ofLayout d.layouts).run.value with
      | error e => rfl
      | ok layouts =>
        dsimp only
        cases (layouts.values ++ blocks.values).findSome? (Registry.misfit? blocks) <;> rfl

namespace Compile

variable (registry : Registry) (hash : String)

/-! ## The schema -/

theorem variants_stamped (count : Nat) :
    variants { registry with sourceHash := hash } count = variants registry count := by
  induction count with
  | zero => rfl
  | succ count ih =>
    rw [variants, variants, ih]
    rfl

theorem layout_stamped :
    layout { registry with sourceHash := hash } = layout registry := by
  funext parent l
  unfold layout fill
  rw [variants_stamped]
  rfl

/-- The hash has no part in what a registry is compiled to. -/
theorem fieldGroup_stamped :
    fieldGroup { registry with sourceHash := hash } = fieldGroup registry := by
  unfold fieldGroup
  rw [layout_stamped]
  rfl

end Compile

theorem compile_stamped (registry : Registry) (hash : String) (now : Instant) :
    (compile { registry with sourceHash := hash } now).run.value =
      (compile registry now).run.value.map fun s => { s with sourceHash := hash } := by
  unfold compile
  rw [Compile.fieldGroup_stamped, value_bind, value_bind]
  cases (noteAll ((Compile.fieldGroup registry).runOn .empty).notices).run.value with
  | error e => rfl
  | ok u => cases ((Compile.fieldGroup registry).runOn .empty).result <;> rfl

theorem Definitions.SameContent.compiled {d d' : Definitions} (h : d.SameContent d')
    (resources : Resources) (now : Instant) :
    (Builder.compiled d' resources now).run.value =
      (Builder.compiled d resources now).run.value.map
        fun s => { s with sourceHash := d'.hash } := by
  unfold Builder.compiled
  rw [value_bind, value_bind, h.build]
  cases (Registry.build d resources).run.value with
  | error e => rfl
  | ok registry => exact compile_stamped registry d'.hash now

/-! ## A session -/

/-- A schema with another hash and another time. -/
def CompiledSchema.stamped (schema : CompiledSchema) (hash : String) (now : Instant) :
    CompiledSchema :=
  { schema with sourceHash := hash, compiledAt := now }

/-- A builder of a data directory that can write its store, publishes a schema of a hash, and has
recorded one of that hash last. -/
structure Builder.Publishes (b : Builder) (root hash : String) : Prop where
  home : b.root = some root
  access : b.access = .full
  published : b.hash? = some hash
  recorded : b.store.lastHash? = some hash

section Session

variable (b : Builder) (now : Instant) (schema : CompiledSchema)

/-- A builder that can write its store publishes what the loaded definitions compile to. -/
theorem Builder.reload_eq {files : FileTree} {definitions : Definitions}
    (haccess : b.access = .full) (hloaded : b.loaded? files = some definitions)
    (hcompiled : Gives (Builder.compiled definitions b.resources now) schema) :
    result (reload files now) b =
      (.ok schema, { b with definitions := definitions }.withSchema now schema) := by
  rcases reload_cases b now files with ⟨definitions', hloaded', hreload⟩ | ⟨hnone, -⟩
  · obtain rfl := Option.some.inj (hloaded'.symm.trans hloaded)
    rw [hreload, setDefinitions_eq]
    rcases compile_cases { b with definitions := definitions' } now with
      ⟨schema', hcompiled', -, hcompile⟩ | ⟨hstuck, -⟩
    · rw [hcompile, gives_unique hcompiled' hcompiled]
    · have hrefuses := hstuck now schema hcompiled
      unfold Builder.Refuses at hrefuses
      rw [haccess] at hrefuses
      rcases hrefuses with hnone | ⟨honly, -⟩
      · cases hnone
      · cases honly
  · rw [hnone] at hloaded
    cases hloaded

/-- Publishing a schema with the hash that is published and recorded last changes nothing else. -/
theorem Builder.withSchema_same (hpublished : b.hash? = some schema.sourceHash)
    (hlast : b.store.lastHash? = some schema.sourceHash) :
    b.withSchema now schema = { b with published := some schema } := by
  obtain ⟨before, hbefore, hhash⟩ := Option.map_eq_some_iff.mp hpublished
  have hchanges : b.changes schema = false := by
    unfold changes
    rw [hbefore, Option.any_some, hhash, bne_self_eq_false]
  unfold withSchema Store.recorded
  rw [if_pos hlast, hchanges]
  rfl

/-- Publishing a schema with another hash records it, and drops what is kept and stored. -/
theorem Builder.withSchema_other {hash : String} (hpublished : b.hash? = some hash)
    (hlast : b.store.lastHash? = some hash) (hother : hash ≠ schema.sourceHash) :
    b.withSchema now schema = { b with
      published := some schema
      cache := b.cache.clear
      store := (b.store.record schema.sourceHash schema.toValue.compact now).clear } := by
  obtain ⟨before, hbefore, rfl⟩ := Option.map_eq_some_iff.mp hpublished
  have hchanges : b.changes schema = true := by
    unfold changes
    rw [hbefore, Option.any_some, bne_iff_ne]
    exact hother
  unfold withSchema Store.recorded
  rw [if_neg fun h => hother (Option.some.inj (hlast.symm.trans h)), hchanges]
  rfl

end Session

open Definitions in
/-- Two root files from which settings, blocks and layouts are loaded that are equal. The registries
are equal but for the hash, and have one hash just when the root files have the same patterns. A
builder that publishes what the first is compiled to, and then loads the second, keeps what it has
if they have the same patterns. If not, it records the schema again and drops all renderings, kept
and stored. -/
theorem patterns_are_hashed {files files' : FileTree} {path path' : String}
    {top top' d d' : Definitions} (htop : ofFile files path = .ok top)
    (htop' : ofFile files' path' = .ok top') (hload : Gives (load files path) d)
    (hload' : Gives (load files' path') d') (hcontent : d.SameContent d')
    (hdigest : d.hash = d'.hash → d.canonicalText = d'.canonicalText) :
    (∀ resources r, Gives (Registry.build d resources) r →
      ∃ r', Gives (Registry.build d' resources) r' ∧
        r' = { r with sourceHash := r'.sourceHash } ∧
        (r.sourceHash = r'.sourceHash ↔ top.includes = top'.includes)) ∧
    ∀ (b : Builder) (root : String) (schema : CompiledSchema) (before now : Instant),
      path' = configPath root → b.Publishes root d.hash →
      Gives (Builder.compiled d b.resources before) schema →
      ∃ b', result (reload files' now) b = (.ok (schema.stamped d'.hash now), b') ∧
        b'.published = some (schema.stamped d'.hash now) ∧
        (top.includes = top'.includes → b'.cache = b.cache ∧ b'.store = b.store) ∧
        (top.includes ≠ top'.includes →
          b'.cache = b.cache.clear ∧ b'.store.tables.renderings = .empty ∧
            b'.store.tables.history = b.store.tables.history ++
              [⟨d'.hash, (schema.stamped d'.hash now).toValue.compact, now⟩]) := by
  have hhash : d.hash = d'.hash ↔ top.includes = top'.includes := by
    rw [hcontent.hash_eq_iff hdigest, (load_root hload htop).2, (load_root hload' htop').2]
  constructor
  · intro resources r hr
    have hr' : Gives (Registry.build d' resources) { r with sourceHash := d'.hash } := by
      unfold Gives
      rw [hcontent.build, show (Registry.build d resources).run.value = _ from hr]
      rfl
    refine ⟨_, hr', rfl, ?_⟩
    rw [Registry.build_sourceHash hr]
    exact hhash
  · rintro b root schema before now rfl hb hcompiled
    have hloaded : b.loaded? files' = some d' := by
      unfold Builder.loaded?
      rw [hb.home, Option.bind_some, show (load files' (configPath root)).run.value = _ from hload']
      rfl
    have hschema : Gives (Builder.compiled d' b.resources now) (schema.stamped d'.hash now) := by
      unfold Gives
      rw [hcontent.compiled, compiled_at _ _ before,
        show (Builder.compiled d b.resources before).run.value = _ from hcompiled]
      rfl
    refine ⟨_, Builder.reload_eq b now _ hb.access hloaded hschema, rfl, fun hpatterns => ?_,
      fun hpatterns => ?_⟩
    · have hpublished := hb.published
      have hrecorded := hb.recorded
      rw [hhash.mpr hpatterns] at hpublished hrecorded
      rw [Builder.withSchema_same { b with definitions := d' } now (schema.stamped d'.hash now)
        hpublished hrecorded]
      exact ⟨rfl, rfl⟩
    · rw [Builder.withSchema_other { b with definitions := d' } now (schema.stamped d'.hash now)
        hb.published hb.recorded (mt hhash.mp hpatterns)]
      exact ⟨rfl, rfl, rfl⟩

/-! ## A block that is moved -/

/-- A block that declares nothing. -/
def BlockDefinition.isBare (b : BlockDefinition) : Bool :=
  b.label == none && b.description == "" && b.kind == .basic && b.display == "block" &&
    b.content.isEmpty && b.customise.isEmpty && b.configure.isEmpty && b.blocks == .any &&
    b.rules == {}

theorem BlockDefinition.eq_of_isBare {b : BlockDefinition} (h : b.isBare = true) : b = {} := by
  obtain ⟨label, description, kind, display, content, customise, configure, blocks, rules⟩ := b
  simp [isBare] at h
  simp [h]

namespace Moving

/-- Definitions of blocks that declare nothing. -/
def bare (settings : Settings) (patterns names : List String) : Definitions :=
  { settings := settings
    includes := patterns
    blocks := .ofList (names.map fun name => (name, {})) }

/-- Whether definitions are of such blocks. -/
def isBare (settings : Settings) (patterns names : List String) (d : Definitions) : Bool :=
  d.settings == settings && d.includes == patterns && d.blocks.keys == names &&
    d.blocks.values.all BlockDefinition.isBare && decide (d.layouts = .empty)

theorem eq_bare {settings : Settings} {patterns names : List String} {d : Definitions}
    (hnames : (bare settings patterns names).blocks.entries = names.map fun name => (name, {}))
    (h : isBare settings patterns names d = true) : d = bare settings patterns names := by
  obtain ⟨settings', patterns', blocks, layouts⟩ := d
  simp only [isBare, Bool.and_eq_true, beq_iff_eq, List.all_eq_true, decide_eq_true_eq] at h
  obtain ⟨⟨⟨⟨rfl, rfl⟩, rfl⟩, hbare⟩, rfl⟩ := h
  have hentries : (blocks.keys.map fun name => (name, ({} : BlockDefinition))) = blocks.entries := by
    unfold Dict.keys
    rw [List.map_map]
    refine (List.map_congr_left fun e he => ?_).trans (List.map_id _)
    exact Prod.ext rfl (BlockDefinition.eq_of_isBare (hbare e.2 (List.mem_map_of_mem he))).symm
  have hblocks : blocks = (bare settings' patterns' blocks.keys).blocks :=
    Dict.ext (hentries.symm.trans hnames.symm)
  exact congrArg (fun blocks => Definitions.mk settings' patterns' blocks .empty) hblocks

/-- The settings of both directories, and how they are written. -/
def settings : Settings :=
  { name := "site", label := "Site", postTypes := [], bustParam := "bust" }

def settingsText : String :=
  "settings:\n  name: site\n  label: Site\n  post_types: []\n  bust_param: bust\n"

/-- A directory with a block in its root file. -/
def together : FileTree :=
  { nodes := .ofList [
      ("data", .directory),
      ("data/blockpress.yaml", .text (settingsText ++ "blocks: {text: {}}\n"))] }

/-- The directory with the block in a file of its own, which the root file includes. -/
def split : FileTree :=
  { nodes := .ofList [
      ("data", .directory),
      ("data/blockpress.yaml", .text (settingsText ++ "include: [text.yaml]\n")),
      ("data/text.yaml", .text "blocks: {text: {}}\n")] }

theorem ofFile_bare {files : FileTree} {path : String} {settings : Settings}
    {patterns names : List String}
    (hnames : (bare settings patterns names).blocks.entries = names.map fun name => (name, {}))
    (h : (Definitions.ofFile files path).toOption.any (isBare settings patterns names) = true) :
    Definitions.ofFile files path = .ok (bare settings patterns names) := by
  obtain ⟨d, hread, hbare⟩ := (Option.any_eq_true _ _).mp h
  rw [ok_of_toOption hread, eq_bare hnames hbare]

theorem together_read : Definitions.ofFile together (configPath "/data") =
    .ok (bare settings [] ["text"]) := ofFile_bare rfl (by decide +kernel)

theorem split_read : Definitions.ofFile split (configPath "/data") =
    .ok (bare settings ["text.yaml"] []) := ofFile_bare rfl (by decide +kernel)

theorem text_read : Definitions.ofFile split "/data/text.yaml" = .ok (bare {} [] ["text"]) :=
  ofFile_bare rfl (by decide +kernel)

theorem together_loaded :
    Gives (Definitions.load together (configPath "/data")) (bare settings [] ["text"]) :=
  Definitions.load_value (fun _ => []) together_read nofun

theorem split_loaded :
    Gives (Definitions.load split (configPath "/data")) (bare settings ["text.yaml"] ["text"]) := by
  have hfound : ∀ pattern ∈ ["text.yaml"],
      Glob.files split (Path.parent (configPath "/data") ++ "/" ++ pattern) =
        .ok ["/data/text.yaml"] := by
    intro pattern hpattern
    rw [List.mem_singleton.mp hpattern]
    exact Glob.files_of_walked_one (by decide +kernel)
  have hpaths : Definitions.loadedPaths (configPath "/data") ["/data/text.yaml"] =
      ["/data/text.yaml"] := by decide +kernel
  have hvalue := Definitions.load_value (fun _ => ["/data/text.yaml"]) split_read hfound
  rw [show (bare settings ["text.yaml"] []).includes = ["text.yaml"] from rfl,
    List.flatMap_singleton, hpaths, Definitions.mapM_ofFile (.cons text_read .nil)] at hvalue
  exact hvalue

theorem same_content :
    (bare settings [] ["text"]).SameContent (bare settings ["text.yaml"] ["text"]) :=
  ⟨rfl, rfl, rfl⟩

theorem hash_ne :
    (bare settings [] ["text"]).hash ≠ (bare settings ["text.yaml"] ["text"]).hash := by
  decide +kernel

/-- What the directory is compiled to. -/
def schema : CompiledSchema :=
  (Builder.compiled (bare settings [] ["text"]) .builtin default).result

/-- A builder that has compiled it, and keeps a rendering. -/
def serving : Builder :=
  { (assemble (some "/data") .builtin (bare settings [] ["text"]) .empty).withSchema default
      schema with
    cache := { entries := .ofList [("1|page|page|0|text", ⟨"<p>", default⟩)] } }

theorem compiled : Gives (Builder.compiled (bare settings [] ["text"]) .builtin default) schema :=
  gives_result (by decide +kernel)

theorem serving_publishes : serving.Publishes "/data" (bare settings [] ["text"]).hash where
  home := rfl
  access := rfl
  published := congrArg some (sourceHash_of_compiled compiled)
  recorded := by
    rw [← sourceHash_of_compiled compiled]
    exact Store.lastHash?_recorded .empty schema default

/-- When the block has been moved, its schema is recorded a second time, and the rendering is gone. -/
theorem moved_block_recorded :
    (bare settings [] ["text"]).SameContent (bare settings ["text.yaml"] ["text"]) ∧
      ∃ b, (result (reload split default) serving).2 = b ∧
        serving.cache.entries.size = 1 ∧ b.cache.entries.size = 0 ∧
        serving.store.tables.history.length = 1 ∧ b.store.tables.history.length = 2 := by
  obtain ⟨b, hreload, -, -, hmoved⟩ := (patterns_are_hashed together_read split_read
    together_loaded split_loaded same_content fun h => absurd h hash_ne).2 serving "/data" schema
    default default rfl serving_publishes compiled
  obtain ⟨hcache, -, hhistory⟩ := hmoved (by decide)
  have hone : serving.store.tables.history.length = 1 := rfl
  refine ⟨same_content, b, by rw [hreload], rfl, by rw [hcache]; rfl, hone, ?_⟩
  rw [hhistory, List.length_append, hone]
  rfl

/-- The patterns of the root file are not what it says, but its hash tells them. -/
theorem moved_block_changes_hash :
    ∃ d d' r r', Gives (Definitions.load together (configPath "/data")) d ∧
      Gives (Definitions.load split (configPath "/data")) d' ∧ d.SameContent d' ∧
      Gives (Registry.build d .builtin) r ∧ Gives (Registry.build d' .builtin) r' ∧
      r.sourceHash ≠ r'.sourceHash := by
  have hbuilt := gives_result (show (Registry.build (bare settings [] ["text"])
    .builtin).run.value.toOption.isSome = true by decide +kernel)
  have hbuilt' := gives_result (show (Registry.build (bare settings ["text.yaml"] ["text"])
    .builtin).run.value.toOption.isSome = true by decide +kernel)
  refine ⟨_, _, _, _, together_loaded, split_loaded, same_content, hbuilt, hbuilt', ?_⟩
  rw [Registry.build_sourceHash hbuilt, Registry.build_sourceHash hbuilt']
  exact hash_ne

end Moving

end PageBlocks
