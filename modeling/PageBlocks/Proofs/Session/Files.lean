import PageBlocks.Files.Tree

/-!
# What was put into a file tree

A file is put where its path leads, and the path still leads there afterwards:
the directories on the way are the ones that were walked before.

> `FileTree.node?_put`: what was put at a path is what the path leads to.
>
> `FileTree.place?_beside`: where one file of a directory may stand, the others
> may as well.
-/

namespace PageBlocks.FileTree

variable {tree : FileTree} {place : Place} {node : FileNode}

/-- The directories above a place, as they are put into a tree. -/
def directoriesTo (place : Place) : List (String × FileNode) :=
  (List.range place.length).tail.map fun n => (keyOf (place.take n), .directory)

/-- The directories are put first, the node itself last. -/
theorem nodes_putAt :
    (tree.putAt place node).nodes =
      ((directoriesTo place).foldl (fun nodes n => nodes.insert n.1 n.2) tree.nodes).insert
        (keyOf place) node := List.foldl_append

theorem nodeAt?_putAt_self (hplace : place ≠ []) :
    (tree.putAt place node).nodeAt? place = some node := by
  have hne : ¬place.isEmpty = true := fun h => hplace (List.isEmpty_iff.mp h)
  unfold nodeAt?
  rw [if_neg hne, nodes_putAt]
  exact Dict.get?_insert_self ..

/-- Directories put among nodes leave the directory under a key. -/
theorem get?_foldl_directories {key : String} :
    ∀ {above : List (String × FileNode)} {nodes : Dict FileNode},
      (∀ n ∈ above, n.2 = .directory) → nodes.get? key = some .directory →
        (above.foldl (fun nodes n => nodes.insert n.1 n.2) nodes).get? key = some .directory
  | [], _, _, h => h
  | (k, n) :: above, nodes, hall, h => by
    have hn : n = .directory := hall (k, n) (List.mem_cons_self ..)
    rw [List.foldl_cons]
    refine get?_foldl_directories (fun m hm => hall m (List.mem_cons_of_mem _ hm)) ?_
    by_cases hkey : key = k
    · rw [hkey, hn]
      exact Dict.get?_insert_self ..
    · rw [Dict.get?_insert_of_ne _ _ hkey]
      exact h

/-- A node that is put in no directory's place leaves all directories. -/
theorem nodeAt?_putAt_directory {dir : Place} (hplace : tree.nodeAt? place ≠ some .directory)
    (h : tree.nodeAt? dir = some .directory) :
    (tree.putAt place node).nodeAt? dir = some .directory := by
  unfold nodeAt? at h hplace ⊢
  by_cases hempty : dir.isEmpty = true
  · rw [if_pos hempty]
  · rw [if_neg hempty] at h ⊢
    by_cases hnone : place.isEmpty = true
    · rw [if_pos hnone] at hplace
      exact absurd rfl hplace
    · rw [if_neg hnone] at hplace
      -- Two places with one key would hold one node.
      have hkey : keyOf dir ≠ keyOf place := by
        intro hkey
        rw [hkey] at h
        exact hplace h
      rw [nodes_putAt, Dict.get?_insert_of_ne _ _ hkey]
      refine get?_foldl_directories (fun n hn => ?_) h
      obtain ⟨k, -, rfl⟩ := List.mem_map.mp hn
      rfl

/-- A piece of a path leads where it led before. -/
theorem step?_putAt {start next : Place} {piece : String}
    (hplace : tree.nodeAt? place ≠ some .directory) (h : tree.step? start piece = some next) :
    (tree.putAt place node).step? start piece = some next := by
  unfold step? at h ⊢
  by_cases hstart : tree.nodeAt? start = some .directory
  · rw [if_neg (not_not_intro hstart)] at h
    rw [if_neg (not_not_intro (nodeAt?_putAt_directory hplace hstart))]
    exact h
  · rw [if_pos hstart] at h
    cases h

theorem foldlM_step?_putAt {next : Place} (hplace : tree.nodeAt? place ≠ some .directory) :
    ∀ {pieces : List String} {start : Place}, pieces.foldlM tree.step? start = some next →
      pieces.foldlM (tree.putAt place node).step? start = some next
  | [], _, h => h
  | piece :: pieces, start, h => by
    rw [List.foldlM_cons] at h ⊢
    obtain ⟨middle, hmiddle, h⟩ := Option.bind_eq_some_iff.mp h
    rw [step?_putAt hplace hmiddle]
    exact foldlM_step?_putAt hplace h

/-- A path leads to what was put there. -/
theorem node?_put {files : FileTree} {path : String} (h : tree.put path node = .ok files) :
    files.node? path = some node := by
  unfold put at h
  split at h
  next => cases h
  next place hwalk =>
    split at h
    next => cases h
    next hplace =>
      cases h
      have hwalk' : (tree.putAt place node).place? path = some place := by
        unfold place? at hwalk ⊢
        by_cases hpath : path = ""
        · rw [if_pos hpath] at hwalk
          cases hwalk
        · rw [if_neg hpath] at hwalk ⊢
          exact foldlM_step?_putAt hplace hwalk
      have hne : place ≠ [] := by
        intro hnil
        rw [hnil] at hplace
        exact hplace rfl
      unfold node?
      rw [hwalk']
      exact nodeAt?_putAt_self hne

/-! ## Files of one directory -/

/-- A name that is one piece of a path and leads down. -/
structure Plain (name : String) : Prop where
  fits : isName name = true
  whole : '/' ∉ name.toList
  down : name ≠ "" ∧ name ≠ "." ∧ name ≠ ".."

/-- Files of one directory have paths that differ in the last piece alone. -/
theorem join_eq {root : String} (hroot : root ≠ "") :
    ∃ base, ∀ name, Plain name → Path.join root name = base ++ "/" ++ name := by
  have hjoin : ∀ name, Plain name → Path.join root name =
      (if root.endsWith "/" then root else root ++ "/") ++ name := by
    intro name h
    have hstart : ¬name.startsWith "/" = true := by
      intro hstart
      rw [String.startsWith_string_iff] at hstart
      exact h.whole (hstart.subset (List.mem_singleton_self _))
    unfold Path.join
    rw [if_neg hstart]
    by_cases hend : root.endsWith "/" = true
    · rw [if_pos (.inr hend), if_pos hend]
    · rw [if_neg (fun hor => hor.elim hroot hend), if_neg hend]
  by_cases hend : root.endsWith "/" = true
  · have hslice : root.toSlice.endsWith "/" = true := hend
    obtain ⟨base, hbase⟩ := String.Slice.endsWith_string_iff.mp hslice
    rw [String.copy_toSlice] at hbase
    have hroot : root = String.ofList base ++ "/" := by
      apply String.toList_inj.mp
      rw [String.toList_append, String.toList_ofList, hbase]
    refine ⟨.ofList base, fun name h => ?_⟩
    rw [hjoin name h, if_pos hend, hroot]
  · refine ⟨root, fun name h => ?_⟩
    rw [hjoin name h, if_neg hend]

theorem pieces_below {base name : String} (h : Plain name) :
    Path.pieces (base ++ "/" ++ name) = Path.pieces base ++ [name] := by
  have hchars : (base ++ "/" ++ name).toList = base.toList ++ '/' :: name.toList := by
    simp [String.toList_append]
  unfold Path.pieces textsBetween
  rw [hchars, List.splitOn_append_cons_self, List.splitOn_eq_singleton h.whole, List.map_append,
    List.map_singleton, String.ofList_toList]

theorem startOf_below {base name : String} :
    tree.startOf (base ++ "/" ++ name) = tree.startOf (base ++ "/") := by
  have hstart : (base ++ "/" ++ name).startsWith "/" = (base ++ "/").startsWith "/" := by
    rw [Bool.eq_iff_iff, String.startsWith_string_iff, String.startsWith_string_iff,
      String.toList_append, String.toList_append]
    cases base.toList with
    | nil => simp
    | cons c rest => simp
  unfold startOf
  rw [hstart]

/-- Where one file of a directory may stand, the others may as well. -/
theorem place?_beside {root a b : String} (hroot : root ≠ "") (ha : Plain a) (hb : Plain b)
    (h : (tree.place? (Path.join root a)).isSome) :
    (tree.place? (Path.join root b)).isSome := by
  obtain ⟨base, hjoin⟩ := join_eq hroot
  have hplace : ∀ name, Plain name → tree.place? (Path.join root name) =
      ((Path.pieces base).foldlM tree.step? (tree.startOf (base ++ "/"))).bind fun dir =>
        if tree.nodeAt? dir = some .directory then some (dir ++ [name]) else none := by
    intro name hname
    have hne : base ++ "/" ++ name ≠ "" := by
      intro hempty
      have hchars := congrArg String.toList hempty
      simp [String.toList_append] at hchars
    have hstep : ∀ dir, tree.step? dir name =
        if tree.nodeAt? dir = some .directory then some (dir ++ [name]) else none := by
      intro dir
      unfold step?
      by_cases hdir : tree.nodeAt? dir = some .directory
      · rw [if_neg (not_not_intro hdir), if_neg (fun hor => hor.elim hname.down.1 hname.down.2.1),
          if_neg hname.down.2.2, if_pos hname.fits, if_pos hdir]
      · rw [if_pos hdir, if_neg hdir]
    unfold place?
    rw [hjoin name hname, if_neg hne, pieces_below hname, startOf_below, List.foldlM_append]
    simp only [List.foldlM_cons, List.foldlM_nil, hstep, Option.bind_eq_bind, Option.pure_def,
      Option.bind_fun_some]
  rw [hplace a ha] at h
  rw [hplace b hb]
  -- The directory is the same, and it is there.
  cases hwalk : (Path.pieces base).foldlM tree.step? (tree.startOf (base ++ "/")) with
  | none =>
    rw [hwalk] at h
    cases h
  | some dir =>
    rw [hwalk, Option.bind_some] at h
    rw [Option.bind_some]
    by_cases hdir : tree.nodeAt? dir = some .directory
    · rw [if_pos hdir]
      rfl
    · rw [if_neg hdir] at h
      cases h

/-- A file can be put where a path leads, unless a directory is there. -/
theorem put_ok {path : String} (node : FileNode) (hplace : (tree.place? path).isSome)
    (hnode : tree.node? path ≠ some .directory) : ∃ files, tree.put path node = .ok files := by
  obtain ⟨place, hplace⟩ := Option.isSome_iff_exists.mp hplace
  unfold node? at hnode
  rw [hplace, Option.bind_some] at hnode
  unfold put
  rw [hplace]
  exact ⟨_, if_neg hnode⟩

end PageBlocks.FileTree
