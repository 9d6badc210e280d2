import PageBlocks.Proofs.Stateful
import PageBlocks.Proofs.Entries
import PageBlocks.Proofs.Kept
import PageBlocks.Definitions.Load
import Mathlib.Data.List.Forall2

/-!
# What a data directory is loaded as

The patterns of a root file may overlap, and may match the root file itself.
What is loaded depends on the paths that are matched, one pattern after the
other, and on nothing else: a path is loaded where it first stands among them,
unless it is the root's own.

> `addPaths_firsts`: collecting the matches of one more pattern keeps each path
> where it first stood;
>
> `included_files_merged`: settings and patterns are those of the root, each
> name has the definition of the file that was loaded last of those that have
> one, and a file that cannot be read fails the whole load.
-/

namespace PageBlocks

/-! ## Paths -/

namespace Path

theorem same_trans {p q r : String} (hpq : same p q = true) (hqr : same q r = true) :
    same p r = true := by
  unfold same at hpq hqr ⊢
  rw [eq_of_beq hpq]
  exact hqr

/-- Of three paths none goes before the next if the last does not go before the first. -/
theorem not_before_trans {p q r : String} (hpq : before q p = false) (hqr : before r q = false) :
    before r p = false := by
  unfold before at hpq hqr ⊢
  rw [decide_eq_false_iff_not] at hpq hqr ⊢
  exact List.le_trans hpq hqr

theorem not_before_total (p q : String) : before q p = false ∨ before p q = false := by
  unfold before
  rw [decide_eq_false_iff_not, decide_eq_false_iff_not]
  exact List.le_total ((components p).map ordinal) ((components q).map ordinal)

end Path

/-! ## What a pattern matches -/

namespace Glob

/-- The files that a pattern matches, in the order of the walk. -/
def walked (tree : FileTree) (pattern : String) : Except Pattern.Fault (List String) := do
  let _ ← Pattern.tokens pattern
  let absolute := pattern.startsWith "/"
  let relative := if absolute then String.ofList (pattern.toList.drop 1) else pattern
  let components ← (componentTexts relative).mapM Pattern.tokens
  let fuel := 4 * (components.length + 1) * (tree.height + 2)
  let found := below tree fuel components (if absolute then "/" else ".")
  return if pattern.endsWith "/" then [] else found.filter tree.isFile

theorem files_eq (tree : FileTree) (pattern : String) :
    files tree pattern =
      (walked tree pattern).map fun found => found.mergeSort fun p q => !Path.before q p := by
  unfold files walked
  cases Pattern.tokens pattern with
  | error fault => rfl
  | ok tokens =>
    dsimp only [bind, Except.bind]
    split
    next => rfl
    next => rfl

theorem files_of_walked_one {tree : FileTree} {pattern path : String}
    (h : (walked tree pattern).toOption = some [path]) : files tree pattern = .ok [path] := by
  rw [files_eq, Stateful.ok_of_toOption h]
  exact congrArg Except.ok (List.mergeSort_singleton _)

theorem isFile_of_walked {tree : FileTree} {pattern : String} {found : List String}
    (h : walked tree pattern = .ok found) : ∀ p ∈ found, tree.isFile p = true := by
  intro p hp
  unfold walked at h
  cases htokens : Pattern.tokens pattern with
  | error fault =>
    rw [htokens] at h
    cases h
  | ok tokens =>
    rw [htokens] at h
    dsimp only [bind, Except.bind] at h
    split at h
    next => cases h
    next =>
      cases h
      split at hp
      next => exact absurd hp List.not_mem_nil
      next => exact (List.mem_filter.mp hp).2

/-- What a pattern matches are files, in the order of their paths. -/
theorem files_sorted {tree : FileTree} {pattern : String} {found : List String}
    (h : files tree pattern = .ok found) :
    (found.Pairwise fun p q => Path.before q p = false) ∧ ∀ p ∈ found, tree.isFile p = true := by
  rw [files_eq] at h
  cases hwalked : walked tree pattern with
  | error fault =>
    rw [hwalked] at h
    cases h
  | ok paths =>
    rw [hwalked] at h
    cases h
    constructor
    · have hsorted : (paths.mergeSort fun p q => !Path.before q p).Pairwise
          fun p q => (!Path.before q p) = true := by
        refine List.pairwise_mergeSort (fun p q r hpq hqr => ?_) (fun p q => ?_) paths
        · rw [Bool.not_eq_true'] at hpq hqr ⊢
          exact Path.not_before_trans hpq hqr
        · rw [Bool.or_eq_true, Bool.not_eq_true', Bool.not_eq_true']
          exact Path.not_before_total p q
      exact hsorted.imp fun hpq => (Bool.not_eq_true' _).mp hpq
    · intro p hp
      rw [List.mem_mergeSort] at hp
      exact isFile_of_walked hwalked p hp

end Glob

namespace Definitions

/-! ## Where a path first stands -/

/-- The paths that are loaded of those that the patterns of a root file match: each where it first
stands, without the path of the root file itself. -/
def loadedPaths (root : String) (matched : List String) : List String :=
  (firsts Path.same matched).filter fun path => !Path.same path root

/-- Collecting more paths keeps each where it first stood. -/
theorem addPaths_firsts (found : List String) :
    ∀ paths, addPaths (firsts Path.same paths) found =
      firsts Path.same (paths ++ found) := by
  induction found with
  | nil =>
    intro paths
    rw [List.append_nil]
    rfl
  | cons path found ih =>
    intro paths
    have hstep : addPaths (firsts Path.same paths) (path :: found) =
        addPaths (firsts Path.same (paths ++ [path])) found := by
      rw [firsts_concat, ← @any_firsts _ Path.same fun _ _ _ => Path.same_trans]
      rfl
    rw [hstep, ih, List.append_assoc]
    rfl

/-! ## Collecting what patterns match -/

/-- Where every pattern can be read, the first places of what they match are collected. -/
theorem includedPaths_gives {files : FileTree} {base : String} {found : String → List String} :
    ∀ {patterns : List String} (paths : List String),
      (∀ pattern ∈ patterns, Glob.files files (base ++ "/" ++ pattern) = .ok (found pattern)) →
      (includedPaths files base patterns (firsts Path.same paths)).Gives
        (firsts Path.same (paths ++ patterns.flatMap found)) := by
  intro patterns
  induction patterns with
  | nil =>
    intro paths _
    rw [List.flatMap_nil, List.append_nil]
    rfl
  | cons pattern patterns ih =>
    intro paths h
    rw [includedPaths, h pattern (List.mem_cons_self ..)]
    have hrest := ih (paths ++ found pattern) fun p hp => h p (List.mem_cons_of_mem _ hp)
    rw [← addPaths_firsts, List.append_assoc, ← List.flatMap_cons] at hrest
    dsimp only
    -- Whether a pattern without matches is reported makes no difference to what is collected.
    unfold Attempt.Gives at hrest ⊢
    split
    next =>
      rw [Attempt.value_bind]
      exact hrest
    next => exact hrest

/-! ## Merging -/

section Merging

variable {α : Type}

/-- The top entries count before the base. -/
theorem overlay_get? (base top : Dict α) (name : String) :
    (overlay base top).get? name = (top.get? name).or (base.get? name) := by
  unfold overlay Dict.get?
  rw [Dict.entries_foldl_insert, Entries.get?_foldl_insert,
    Entries.last?_of_nodup top.sorted.nodup_keys]

/-- Of several files with one name the last counts, and the first definitions count least. -/
theorem foldl_merge_get? (part : Definitions → Dict α)
    (hpart : ∀ d file, part (merge d file) = overlay (part d) (part file)) (name : String) :
    ∀ (included : List Definitions) (d : Definitions),
      (part (included.foldl merge d)).get? name =
        (included.reverse.findSome? fun file => (part file).get? name).or
          ((part d).get? name) := by
  intro included
  induction included with
  | nil => exact fun _ => rfl
  | cons file included ih =>
    intro d
    rw [List.foldl_cons, ih, hpart, overlay_get?, List.reverse_cons, List.findSome?_append,
      Option.or_assoc, List.findSome?_singleton]

end Merging

/-- Merging changes neither settings nor patterns. -/
theorem foldl_merge_root :
    ∀ (included : List Definitions) (d : Definitions),
      (included.foldl merge d).settings = d.settings ∧
        (included.foldl merge d).includes = d.includes := by
  intro included
  induction included with
  | nil => exact fun _ => ⟨rfl, rfl⟩
  | cons file included ih => exact fun d => ih (merge d file)

/-- A file is read without notices. -/
theorem value_ofFile (files : FileTree) (path : String) :
    (ExceptT.mk (pure (ofFile files path)) : Attempt Definitions).run.value = ofFile files path :=
  rfl

/-- Files are merged in order, and the first one that cannot be read is the end. -/
theorem mergeFiles_value (files : FileTree) :
    ∀ (paths : List String) (d : Definitions), (mergeFiles files d paths).run.value =
      (paths.mapM (ofFile files)).map fun included => included.foldl merge d := by
  intro paths
  induction paths with
  | nil => exact fun _ => rfl
  | cons path paths ih =>
    intro d
    rw [mergeFiles, Attempt.value_bind, List.mapM_cons, value_ofFile]
    cases hfile : ofFile files path with
    | error e => rfl
    | ok file =>
      show (mergeFiles files (d.merge file) paths).run.value = _
      rw [ih]
      cases hrest : paths.mapM (ofFile files) with
      | error e => rfl
      | ok included => rfl

/-! ## Loading -/

section Loading

variable {files : FileTree} {path : String} {root : Definitions}

theorem load_error {e : Error} (h : ofFile files path = .error e) :
    (load files path).run.value = .error e := by
  unfold load
  rw [Attempt.value_bind, value_ofFile, h]

/-- Where every pattern can be read, the paths of `loadedPaths` are read in order and merged. -/
theorem load_value (found : String → List String) (hroot : ofFile files path = .ok root)
    (hfound : ∀ pattern ∈ root.includes,
      Glob.files files (Path.parent path ++ "/" ++ pattern) = .ok (found pattern)) :
    (load files path).run.value =
      ((loadedPaths path (root.includes.flatMap found)).mapM (ofFile files)).map
        fun included => included.foldl merge root := by
  have hincluded := includedPaths_gives [] hfound
  rw [List.nil_append] at hincluded
  unfold Attempt.Gives at hincluded
  unfold load
  rw [Attempt.value_bind, value_ofFile, hroot]
  dsimp only
  rw [Attempt.value_bind, show ([] : List String) = firsts Path.same [] from rfl, hincluded]
  exact mergeFiles_value files _ root

/-- Whatever is included, settings and patterns are those of the root file. -/
theorem load_root {d : Definitions} (h : (load files path).Gives d)
    (hroot : ofFile files path = .ok root) :
    d.settings = root.settings ∧ d.includes = root.includes := by
  obtain ⟨root', hread, h₁⟩ := Attempt.gives_bind h
  obtain rfl : root' = root := Except.ok.inj (hread.symm.trans hroot)
  obtain ⟨paths, -, h₂⟩ := Attempt.gives_bind h₁
  unfold Attempt.Gives at h₂
  rw [mergeFiles_value] at h₂
  cases hmerged : (paths.filter fun p => !Path.same p path).mapM (ofFile files) with
  | error e =>
    rw [hmerged] at h₂
    cases h₂
  | ok included =>
    rw [hmerged] at h₂
    cases h₂
    exact foldl_merge_root included root'

end Loading

theorem mapM_ofFile {files : FileTree} {paths : List String} {included : List Definitions}
    (h : List.Forall₂ (fun p d => ofFile files p = .ok d) paths included) :
    paths.mapM (ofFile files) = .ok included := by
  induction h with
  | nil => rfl
  | cons hfile _ ih =>
    rw [List.mapM_cons, hfile, ih]
    rfl

theorem mapM_ofFile_error {files : FileTree} {p : String} {e : Error}
    (hfile : ofFile files p = .error e) :
    ∀ {paths : List String}, p ∈ paths → ∃ e', paths.mapM (ofFile files) = .error e' := by
  intro paths
  induction paths with
  | nil => exact fun hp => absurd hp List.not_mem_nil
  | cons q paths ih =>
    intro hp
    rw [List.mapM_cons]
    cases hq : ofFile files q with
    | error e' => exact ⟨e', rfl⟩
    | ok d =>
      have hrest : p ∈ paths := by
        rcases List.mem_cons.mp hp with rfl | hrest
        · rw [hfile] at hq
          cases hq
        · exact hrest
      obtain ⟨e', he'⟩ := ih hrest
      rw [he']
      exact ⟨e', rfl⟩

/-- A root file is loaded with the files that its patterns match. Of these each is loaded once, where
it first stands in the order of the patterns and of the paths of each, and the root file itself is
left out. Settings and patterns stay those of the root. A block or a layout is the one of the file
that was loaded last of those that have its name, or else the root's. If one of the files cannot be
read, nothing is loaded. -/
theorem included_files_merged (files : FileTree) (path : String) :
    (∀ e, ofFile files path = .error e → (load files path).run.value = .error e) ∧
    ∀ (root : Definitions) (found : String → List String), ofFile files path = .ok root →
      (∀ pattern ∈ root.includes,
        Glob.files files (Path.parent path ++ "/" ++ pattern) = .ok (found pattern)) →
      (∀ pattern ∈ root.includes, (found pattern).Pairwise (fun p q => Path.before q p = false) ∧
        ∀ p ∈ found pattern, files.isFile p = true) ∧
      let loaded := loadedPaths path (root.includes.flatMap found)
      loaded.Pairwise (fun p q => Path.same q p = false) ∧
      (∀ included, List.Forall₂ (fun p d => ofFile files p = .ok d) loaded included →
        ∃ d, (load files path).Gives d ∧ d.settings = root.settings ∧ d.includes = root.includes ∧
          (∀ name, d.blocks.get? name =
            (included.reverse.findSome? fun file => file.blocks.get? name).or
              (root.blocks.get? name)) ∧
          ∀ name, d.layouts.get? name =
            (included.reverse.findSome? fun file => file.layouts.get? name).or
              (root.layouts.get? name)) ∧
      ∀ p ∈ loaded, ∀ e, ofFile files p = .error e →
        ∃ e', (load files path).run.value = .error e' := by
  refine ⟨fun e => load_error, fun root found hroot hfound => ⟨fun pattern hpattern =>
    Glob.files_sorted (hfound pattern hpattern), (firsts_apart _).filter _,
    fun included hincluded => ?_, fun p hp e he => ?_⟩⟩
  · have hvalue := load_value found hroot hfound
    rw [mapM_ofFile hincluded] at hvalue
    obtain ⟨hsettings, hincludes⟩ := foldl_merge_root included root
    exact ⟨included.foldl merge root, hvalue, hsettings, hincludes,
      fun name => foldl_merge_get? Definitions.blocks (fun _ _ => rfl) name included root,
      fun name => foldl_merge_get? Definitions.layouts (fun _ _ => rfl) name included root⟩
  · obtain ⟨e', he'⟩ := mapM_ofFile_error he hp
    refine ⟨e', ?_⟩
    rw [load_value found hroot hfound, he']
    rfl

/-- A directory whose root file names a file twice, in two spellings, and itself. -/
def overlapFiles : FileTree :=
  { nodes := .ofList [
      ("data", .directory), ("data/more", .directory),
      ("data/blockpress.yaml", .text (
        "include: [more/z.yaml, blockpress.yaml, buttons.yaml, more/./z.yaml]\n" ++
        "blocks: {image: {label: Root}, plain: {label: Plain}}\n")),
      ("data/buttons.yaml", .text "include: [other.yaml]\nblocks: {image: {label: Last}}\n"),
      ("data/more/z.yaml", .text "blocks: {image: {label: First}}\nlayouts: {page: {}}\n")] }

/-- What one of these patterns matches. -/
def overlapFound (pattern : String) : List String := ["/data/" ++ pattern]

theorem overlap_found : ∀ pattern ∈ ["more/z.yaml", "blockpress.yaml", "buttons.yaml",
    "more/./z.yaml"],
    Glob.files overlapFiles (Path.parent "/data/blockpress.yaml" ++ "/" ++ pattern) =
      .ok (overlapFound pattern) := by
  have hwalked : ∀ pattern ∈ ["more/z.yaml", "blockpress.yaml", "buttons.yaml", "more/./z.yaml"],
      (Glob.walked overlapFiles (Path.parent "/data/blockpress.yaml" ++ "/" ++ pattern)).toOption =
        some (overlapFound pattern) := by decide +kernel
  exact fun pattern hpattern => Glob.files_of_walked_one (hwalked pattern hpattern)

/-- The file that is named twice is loaded first, so the other one brings the image. -/
theorem overlap_merged :
    loadedPaths "/data/blockpress.yaml"
        (["more/z.yaml", "blockpress.yaml", "buttons.yaml", "more/./z.yaml"].flatMap overlapFound) =
      ["/data/more/z.yaml", "/data/buttons.yaml"] ∧
    ∃ d, (load overlapFiles "/data/blockpress.yaml").Gives d ∧
      (d.blocks.get? "image").map (·.label) = some (some "Last") ∧
      (d.blocks.get? "plain").map (·.label) = some (some "Plain") := by
  have hloaded : loadedPaths "/data/blockpress.yaml"
      (["more/z.yaml", "blockpress.yaml", "buttons.yaml", "more/./z.yaml"].flatMap overlapFound) =
        ["/data/more/z.yaml", "/data/buttons.yaml"] := by decide +kernel
  have hroot : (ofFile overlapFiles "/data/blockpress.yaml").toOption.map (fun d =>
      (d.includes, (d.blocks.get? "plain").map (·.label))) =
        some (["more/z.yaml", "blockpress.yaml", "buttons.yaml", "more/./z.yaml"],
          some (some "Plain")) := by decide +kernel
  have hbuttons : (ofFile overlapFiles "/data/buttons.yaml").toOption.map (fun d =>
      ((d.blocks.get? "image").map (·.label), (d.blocks.get? "plain").map (·.label))) =
        some (some (some "Last"), none) := by decide +kernel
  have hmore : (ofFile overlapFiles "/data/more/z.yaml").toOption.map (fun d =>
      (d.blocks.get? "plain").map (·.label)) = some none := by decide +kernel
  obtain ⟨root, hreadRoot, hrootParts⟩ := Option.map_eq_some_iff.mp hroot
  obtain ⟨hincludes, hplain⟩ := Prod.mk.inj hrootParts
  obtain ⟨buttons, hreadButtons, hbuttonsParts⟩ := Option.map_eq_some_iff.mp hbuttons
  obtain ⟨himage, hbuttonsPlain⟩ := Prod.mk.inj hbuttonsParts
  obtain ⟨more, hreadMore, hmorePlain⟩ := Option.map_eq_some_iff.mp hmore
  have hmerged := (included_files_merged overlapFiles "/data/blockpress.yaml").2 root overlapFound
    (Stateful.ok_of_toOption hreadRoot) (by rw [hincludes]; exact overlap_found)
  rw [hincludes, hloaded] at hmerged
  obtain ⟨d, hgives, -, -, hblocks, -⟩ := hmerged.2.2.1 [more, buttons]
    (.cons (Stateful.ok_of_toOption hreadMore) (.cons (Stateful.ok_of_toOption hreadButtons) .nil))
  refine ⟨hloaded, d, hgives, ?_, ?_⟩
  · obtain ⟨image, hfound, hlabel⟩ := Option.map_eq_some_iff.mp himage
    rw [hblocks]
    simp [hfound, hlabel]
  · rw [hblocks]
    simp [Option.map_eq_none_iff.mp hbuttonsPlain, Option.map_eq_none_iff.mp hmorePlain, hplain]

end Definitions

end PageBlocks
