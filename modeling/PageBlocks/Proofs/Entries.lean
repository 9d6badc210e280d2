import PageBlocks.Dict

/-!
# Entries as sets of pairs

Keys of sorted entries are distinct, so looking up and being an entry are the
same thing, and sorted entries with the same pairs are equal. What `insert` and
`ofList` do is said here up to the order of the pairs:

> `ofList_perm`: pairs with distinct keys are all entries of their dictionary;
> `ofList_eq_of_perm`: a dictionary made of the pairs of sorted entries, taken
> in any order, is those entries again.
-/

namespace PageBlocks

namespace Entries

variable {α β : Type}

/-! ## Looking up -/

theorem mem_of_get? {key : String} {v : α} :
    ∀ {entries : List (String × α)}, get? key entries = some v → (key, v) ∈ entries
  | [], h => by simp [get?] at h
  | (k, w) :: rest, h => by
    unfold get? at h
    split at h
    next hk =>
      cases h
      exact hk ▸ List.mem_cons_self ..
    next => exact List.mem_cons_of_mem _ (mem_of_get? h)

theorem get?_eq_none_iff {key : String} :
    ∀ {entries : List (String × α)}, get? key entries = none ↔ key ∉ entries.map (·.1)
  | [] => by simp [get?]
  | (k, w) :: rest => by
    have ih : get? key rest = none ↔ key ∉ rest.map (·.1) := get?_eq_none_iff
    unfold get?
    split
    next hk => simp [hk]
    next hk =>
      rw [ih]
      simp [Ne.symm hk]

theorem get?_of_mem_of_nodup {key : String} {v : α} :
    ∀ {entries : List (String × α)}, (entries.map (·.1)).Nodup → (key, v) ∈ entries →
      get? key entries = some v
  | (k, w) :: rest, hnd, h => by
    rw [List.map_cons, List.nodup_cons] at hnd
    rcases List.mem_cons.mp h with heq | hmem
    · cases heq
      simp [get?]
    · have hne : k ≠ key := fun hk => hnd.1 (hk ▸ List.mem_map_of_mem (f := (·.1)) hmem)
      rw [get?, if_neg hne]
      exact get?_of_mem_of_nodup hnd.2 hmem

theorem get?_map {f : String → α → β} {key : String} :
    ∀ entries : List (String × α),
      get? key (entries.map fun e => (e.1, f e.1 e.2)) = (get? key entries).map (f key)
  | [] => rfl
  | (k, w) :: rest => by
    simp only [List.map_cons, get?]
    split
    next hk => rw [hk]; rfl
    next => exact get?_map rest

theorem get?_filter {p : String → Bool} {key : String} (hkey : p key = true) :
    ∀ entries : List (String × α), get? key (entries.filter fun e => p e.1) = get? key entries
  | [] => rfl
  | (k, v) :: rest => by
    rw [List.filter_cons]
    dsimp only
    by_cases hk : k = key
    · rw [hk, if_pos hkey, get?, get?, if_pos rfl, if_pos rfl]
    · rw [get?, if_neg hk]
      split
      next => rw [get?, if_neg hk, get?_filter hkey rest]
      next => exact get?_filter hkey rest

theorem get?_filter_of_false {p : String → Bool} {key : String} (hkey : p key = false)
    (entries : List (String × α)) : get? key (entries.filter fun e => p e.1) = none := by
  rw [get?_eq_none_iff]
  intro hmem
  obtain ⟨e, he, rfl⟩ := List.mem_map.mp hmem
  have hp := (List.mem_filter.mp he).2
  rw [hkey] at hp
  cases hp

/-! ## Sorted entries -/

theorem Sorted.nodup_keys {entries : List (String × α)} (h : Sorted entries) :
    (entries.map (·.1)).Nodup :=
  List.pairwise_map.mpr (h.imp fun hlt heq => by
    rw [heq] at hlt
    exact String.lt_irrefl _ hlt)

theorem Sorted.filter {entries : List (String × α)} (h : Sorted entries)
    (p : String × α → Bool) : Sorted (entries.filter p) :=
  List.Pairwise.sublist List.filter_sublist h

theorem Sorted.of_keys {xs : List (String × α)} {ys : List (String × β)} (hx : Sorted xs)
    (h : ys.map (·.1) = xs.map (·.1)) : Sorted ys := by
  have hkeys : (ys.map (·.1)).Pairwise (· < ·) := by
    rw [h]
    exact List.pairwise_map.mpr hx
  exact List.pairwise_map.mp hkeys

theorem Sorted.get?_of_mem {key : String} {v : α} {entries : List (String × α)}
    (h : Sorted entries) (hmem : (key, v) ∈ entries) : get? key entries = some v :=
  get?_of_mem_of_nodup h.nodup_keys hmem

/-- Sorted entries with the same pairs are equal. -/
theorem Sorted.eq_of_perm {xs ys : List (String × α)} (hx : Sorted xs) (hy : Sorted ys)
    (h : xs.Perm ys) : xs = ys :=
  h.eq_of_pairwise (fun _ _ _ _ hab hba => absurd (String.lt_trans hab hba) (String.lt_irrefl _))
    hx hy

theorem Sorted.nodup {entries : List (String × α)} (h : Sorted entries) : entries.Nodup :=
  h.imp fun hlt heq => by
    rw [heq] at hlt
    exact String.lt_irrefl _ hlt

theorem Sorted.ext {xs ys : List (String × α)} (hx : Sorted xs) (hy : Sorted ys)
    (h : ∀ e, e ∈ xs ↔ e ∈ ys) : xs = ys :=
  hx.eq_of_perm hy ((List.perm_ext_iff_of_nodup hx.nodup hy.nodup).mpr h)

/-! ## Building entries -/

/-- Under a new key, `insert` adds one pair. -/
theorem insert_perm {key : String} {v : α} :
    ∀ {entries : List (String × α)}, key ∉ entries.map (·.1) →
      (insert key v entries).Perm ((key, v) :: entries)
  | [], _ => List.Perm.refl _
  | (k, w) :: rest, h => by
    rw [List.map_cons, List.mem_cons, not_or] at h
    unfold insert
    rw [if_neg h.1]
    split
    next => exact List.Perm.refl _
    next => exact ((insert_perm h.2).cons _).trans (List.Perm.swap ..)

/-- Under a key that is there, `insert` changes the one pair that has it. -/
theorem insert_perm_of_mem {key : String} {u v : α} :
    ∀ {entries : List (String × α)}, Sorted entries → (key, u) ∈ entries →
      ∃ rest, entries.Perm ((key, u) :: rest) ∧ (insert key v entries).Perm ((key, v) :: rest)
  | (k, w) :: rest, hs, h => by
    rw [Sorted, List.pairwise_cons] at hs
    rcases List.mem_cons.mp h with heq | hmem
    · cases heq
      exact ⟨rest, List.Perm.refl _, by simp [insert]⟩
    · have hlt : k < key := hs.1 _ hmem
      have hnlt : ¬key < k := fun h' => String.lt_irrefl _ (String.lt_trans hlt h')
      have hne : key ≠ k := fun h' => String.lt_irrefl k (h' ▸ hlt)
      obtain ⟨others, hbefore, hafter⟩ := insert_perm_of_mem (v := v) hs.2 hmem
      refine ⟨(k, w) :: others, (hbefore.cons _).trans (List.Perm.swap ..), ?_⟩
      rw [insert, if_neg hnlt, if_neg hne]
      exact (hafter.cons _).trans (List.Perm.swap ..)

theorem foldl_insert_perm :
    ∀ (pairs : List (String × α)) {entries : List (String × α)},
      ((pairs ++ entries).map (·.1)).Nodup →
      (pairs.foldl (fun es p => insert p.1 p.2 es) entries).Perm (pairs ++ entries)
  | [], _, _ => List.Perm.refl _
  | (k, v) :: rest, entries, hnd => by
    have hmid : ((k, v) :: (rest ++ entries)).Perm (rest ++ (k, v) :: entries) :=
      (List.perm_middle).symm
    rw [List.cons_append, List.map_cons, List.nodup_cons] at hnd
    have hins : (insert k v entries).Perm ((k, v) :: entries) :=
      insert_perm fun hmem => hnd.1 (by
        rw [List.map_append]
        exact List.mem_append_right _ hmem)
    have hall : (rest ++ insert k v entries).Perm ((k, v) :: (rest ++ entries)) :=
      (hins.append_left rest).trans hmid.symm
    refine (foldl_insert_perm rest ?_).trans hall
    rw [(hall.map (·.1)).nodup_iff, List.map_cons, List.nodup_cons]
    exact hnd

/-- Pairs with distinct keys are all entries of their dictionary. -/
theorem ofList_perm {pairs : List (String × α)} (h : (pairs.map (·.1)).Nodup) :
    (ofList pairs).Perm pairs := by
  have hall : (ofList pairs).Perm (pairs ++ []) :=
    foldl_insert_perm pairs (by rwa [List.append_nil])
  rwa [List.append_nil] at hall

/-- A dictionary made of the pairs of sorted entries, in any order, is those entries. -/
theorem ofList_eq_of_perm {pairs entries : List (String × α)} (hs : Sorted entries)
    (h : pairs.Perm entries) : ofList pairs = entries := by
  refine Sorted.eq_of_perm (sorted_ofList _) hs ((ofList_perm ?_).trans h)
  rw [(h.map (·.1)).nodup_iff]
  exact hs.nodup_keys

theorem ofList_of_sorted {entries : List (String × α)} (hs : Sorted entries) :
    ofList entries = entries :=
  ofList_eq_of_perm hs (List.Perm.refl _)

/-! ## The last of several pairs with one key -/

/-- The value of the last pair with a key. -/
def last? (key : String) : List (String × α) → Option α
  | [] => none
  | (k, v) :: rest => (last? key rest).or (if k = key then some v else none)

theorem last?_append (key : String) :
    ∀ xs ys : List (String × α), last? key (xs ++ ys) = (last? key ys).or (last? key xs)
  | [], ys => by simp [last?]
  | (k, v) :: rest, ys => by
    rw [List.cons_append, last?, last?, last?_append key rest ys, Option.or_assoc]

theorem last?_eq_none_iff {key : String} :
    ∀ {pairs : List (String × α)}, last? key pairs = none ↔ key ∉ pairs.map (·.1)
  | [] => by simp [last?]
  | (k, v) :: rest => by
    have ih : last? key rest = none ↔ key ∉ rest.map (·.1) := last?_eq_none_iff
    rw [last?, Option.or_eq_none_iff, ih, List.map_cons, List.mem_cons, not_or, and_comm]
    by_cases hk : k = key
    · simp [hk]
    · simp [hk, Ne.symm hk]

theorem mem_of_last? {key : String} {v : α} :
    ∀ {pairs : List (String × α)}, last? key pairs = some v → (key, v) ∈ pairs
  | [], h => by simp [last?] at h
  | (k, w) :: rest, h => by
    rw [last?] at h
    cases hrest : last? key rest with
    | some u =>
      rw [hrest] at h
      cases h
      exact List.mem_cons_of_mem _ (mem_of_last? hrest)
    | none =>
      rw [hrest, Option.none_or] at h
      split at h
      next hk =>
        cases h
        exact hk ▸ List.mem_cons_self ..
      next => cases h

/-- The only value of a key is the last one. -/
theorem last?_eq_some {key : String} {v : α} {pairs : List (String × α)} (hmem : (key, v) ∈ pairs)
    (h : ∀ w, (key, w) ∈ pairs → w = v) : last? key pairs = some v := by
  cases hlast : last? key pairs with
  | none => exact absurd (List.mem_map_of_mem hmem) (last?_eq_none_iff.mp hlast)
  | some w => rw [h w (mem_of_last? hlast)]

theorem get?_insert (key other : String) (v : α) (entries : List (String × α)) :
    get? other (insert key v entries) = if key = other then some v else get? other entries := by
  split
  next h => rw [h, get?_insert_self]
  next h => exact get?_insert_of_ne v (Ne.symm h) entries

theorem get?_foldl_insert (key : String) :
    ∀ (pairs entries : List (String × α)),
      get? key (pairs.foldl (fun es p => insert p.1 p.2 es) entries) =
        (last? key pairs).or (get? key entries)
  | [], entries => by simp [last?]
  | (k, v) :: rest, entries => by
    rw [List.foldl_cons, get?_foldl_insert key rest, get?_insert, last?, Option.or_assoc]
    split
    next => rfl
    next => simp

/-- What is in entries after a value was put under a key. -/
theorem mem_insert_iff {key : String} {v : α} {e : String × α} {entries : List (String × α)}
    (hs : Sorted entries) : e ∈ insert key v entries ↔ e = (key, v) ∨ e.1 ≠ key ∧ e ∈ entries := by
  have hget : ∀ {entries : List (String × α)}, Sorted entries →
      (e ∈ entries ↔ get? e.1 entries = some e.2) :=
    fun hs => ⟨hs.get?_of_mem, mem_of_get?⟩
  rw [hget (sorted_insert key v hs), get?_insert, hget hs]
  obtain ⟨k, w⟩ := e
  by_cases hk : key = k
  · simp [hk, eq_comm]
  · simp [hk, Ne.symm hk]

/-- Entries without one of them, and with it again. -/
theorem insert_erase {key : String} {v : α} {entries : List (String × α)} (hs : Sorted entries)
    (h : (key, v) ∈ entries) : insert key v (erase key entries) = entries := by
  have hsorted : Sorted (erase key entries) := sorted_erase key hs
  refine (sorted_insert key v hsorted).ext hs fun e => ?_
  rw [mem_insert_iff hsorted, erase, List.mem_filter]
  obtain ⟨k, w⟩ := e
  by_cases hk : k = key
  · -- There is one pair with the key.
    have hsame : (k, w) ∈ entries ↔ w = v := by
      constructor
      · intro hmem
        have hget := hs.get?_of_mem hmem
        rw [hk, hs.get?_of_mem h] at hget
        exact (Option.some.inj hget).symm
      · rintro rfl
        exact hk ▸ h
    simp [hk, hk ▸ hsame]
  · simp [hk]

/-- Changing every value commutes with putting a value in. -/
theorem map_insert (f : String → α → β) (key : String) (v : α) :
    ∀ entries : List (String × α), (insert key v entries).map (fun e => (e.1, f e.1 e.2)) =
      insert key (f key v) (entries.map fun e => (e.1, f e.1 e.2))
  | [] => rfl
  | (k, w) :: rest => by
    simp only [insert, List.map_cons]
    split
    next => rfl
    next =>
      split
      next => rfl
      next => rw [List.map_cons, map_insert f key v rest]

theorem map_ofList (f : String → α → β) (pairs : List (String × α)) :
    (ofList pairs).map (fun e => (e.1, f e.1 e.2)) =
      ofList (pairs.map fun e => (e.1, f e.1 e.2)) := by
  have hall : ∀ entries : List (String × α),
      (pairs.foldl (fun entries e => insert e.1 e.2 entries) entries).map
          (fun e => (e.1, f e.1 e.2)) =
        (pairs.map fun e => (e.1, f e.1 e.2)).foldl (fun entries e => insert e.1 e.2 entries)
          (entries.map fun e => (e.1, f e.1 e.2)) := by
    induction pairs with
    | nil => exact fun _ => rfl
    | cons e pairs ih =>
      intro entries
      rw [List.foldl_cons, List.map_cons, List.foldl_cons, ih, map_insert]
  exact hall []

/-- Of several pairs with one key the last one stays. -/
theorem get?_ofList (key : String) (pairs : List (String × α)) :
    get? key (ofList pairs) = last? key pairs := by
  rw [ofList, get?_foldl_insert]
  simp [get?]

theorem mem_ofList {entry : String × α} {pairs : List (String × α)} (h : entry ∈ ofList pairs) :
    entry ∈ pairs := by
  have hget : get? entry.1 (ofList pairs) = some entry.2 := (sorted_ofList pairs).get?_of_mem h
  rw [get?_ofList] at hget
  exact mem_of_last? hget

/-- Pairs that give a key one value are all in their dictionary. -/
theorem mem_ofList_iff {pairs : List (String × α)}
    (h : ∀ key v w, (key, v) ∈ pairs → (key, w) ∈ pairs → v = w) {e : String × α} :
    e ∈ ofList pairs ↔ e ∈ pairs := by
  refine ⟨mem_ofList, fun he => ?_⟩
  have hget : get? e.1 (ofList pairs) = some e.2 := by
    rw [get?_ofList]
    exact last?_eq_some he fun w hw => h e.1 w e.2 hw he
  exact mem_of_get? hget

theorem last?_of_nodup {key : String} {pairs : List (String × α)}
    (h : (pairs.map (·.1)).Nodup) : last? key pairs = get? key pairs := by
  rw [← get?_ofList]
  cases hg : get? key pairs with
  | none =>
    rw [get?_eq_none_iff] at hg ⊢
    rwa [((ofList_perm h).map (·.1)).mem_iff]
  | some v =>
    exact (sorted_ofList pairs).get?_of_mem ((ofList_perm h).mem_iff.mpr (mem_of_get? hg))

end Entries

namespace Dict

variable {α β : Type}

theorem mem_entries_iff {d : Dict α} {key : String} {v : α} :
    (key, v) ∈ d.entries ↔ d.get? key = some v :=
  ⟨d.sorted.get?_of_mem, Entries.mem_of_get?⟩

theorem get?_insert (d : Dict α) (key other : String) (v : α) :
    (d.insert key v).get? other = if key = other then some v else d.get? other :=
  Entries.get?_insert key other v d.entries

theorem mem_values_iff {d : Dict α} {v : α} : v ∈ d.values ↔ ∃ key, d.get? key = some v := by
  constructor
  · intro h
    obtain ⟨⟨key, w⟩, hmem, rfl⟩ := List.mem_map.mp h
    exact ⟨key, mem_entries_iff.mp hmem⟩
  · rintro ⟨key, h⟩
    exact List.mem_map.mpr ⟨(key, v), mem_entries_iff.mpr h, rfl⟩

theorem mem_keys_iff {d : Dict α} {key : String} : key ∈ d.keys ↔ (d.get? key).isSome = true := by
  rw [keys, List.mem_map, Option.isSome_iff_exists]
  constructor
  · rintro ⟨⟨key, v⟩, hmem, rfl⟩
    exact ⟨v, mem_entries_iff.mp hmem⟩
  · rintro ⟨v, hv⟩
    exact ⟨(key, v), mem_entries_iff.mpr hv, rfl⟩

theorem keys_pairwise (d : Dict α) : d.keys.Pairwise (· < ·) := List.pairwise_map.mpr d.sorted

/-- Dictionaries with the same keys list them alike. -/
theorem keys_eq {a : Dict α} {b : Dict β}
    (h : ∀ key, (a.get? key).isSome = (b.get? key).isSome) : a.keys = b.keys := by
  have hperm : a.keys.Perm b.keys := by
    refine (List.perm_ext_iff_of_nodup a.sorted.nodup_keys b.sorted.nodup_keys).mpr fun key => ?_
    exact mem_keys_iff.trans ((Bool.eq_iff_iff.mp (h key)).trans mem_keys_iff.symm)
  exact hperm.eq_of_pairwise
    (fun _ _ _ _ hab hba => absurd (String.lt_trans hab hba) (String.lt_irrefl _))
    a.keys_pairwise b.keys_pairwise

theorem get?_ofList (key : String) (pairs : List (String × α)) :
    (Dict.ofList pairs).get? key = Entries.last? key pairs :=
  Entries.get?_ofList key pairs

/-- Everything in a dictionary satisfies a predicate. -/
def All (P : String → α → Prop) (d : Dict α) : Prop := ∀ key v, d.get? key = some v → P key v

section All

variable {P : String → α → Prop} {d : Dict α}

theorem all_empty : All P (empty : Dict α) := by
  intro key v h
  rw [get?_empty] at h
  cases h

theorem All.insert {key : String} {v : α} (h : d.All P) (hv : P key v) :
    (d.insert key v).All P := by
  intro other found hget
  rw [get?_insert] at hget
  split at hget
  next heq =>
    cases hget
    exact heq ▸ hv
  next => exact h other found hget

theorem All.foldl_insert {pairs : List (String × α)} (h : d.All P)
    (hall : ∀ e ∈ pairs, P e.1 e.2) :
    (pairs.foldl (fun entries e => entries.insert e.1 e.2) d).All P := by
  induction pairs generalizing d with
  | nil => exact h
  | cons e pairs ih =>
    exact ih (h.insert (hall e (List.mem_cons_self ..)))
      fun e' he' => hall e' (List.mem_cons_of_mem _ he')

theorem All.erase (h : d.All P) (key : String) : (d.erase key).All P := by
  intro other v hget
  have hmem : (other, v) ∈ Entries.erase key d.entries := Entries.mem_of_get? hget
  exact h other v (mem_entries_iff.mp (List.mem_filter.mp hmem).1)

end All

/-- A dictionary is that of its own entries. -/
theorem ofList_entries (d : Dict α) : Dict.ofList d.entries = d :=
  Dict.ext (Entries.ofList_of_sorted d.sorted)

/-- Pairs put in one after the other, as they are in the bare list. -/
theorem entries_foldl_insert (pairs : List (String × α)) (d : Dict α) :
    (pairs.foldl (fun d e => d.insert e.1 e.2) d).entries =
      pairs.foldl (fun entries e => Entries.insert e.1 e.2 entries) d.entries := by
  induction pairs generalizing d with
  | nil => rfl
  | cons e pairs ih =>
    rw [List.foldl_cons, List.foldl_cons, ih]
    rfl

/-- A dictionary is what becomes of the empty one when its entries are put in. -/
theorem foldl_insert_entries (d : Dict α) :
    d.entries.foldl (fun d e => d.insert e.1 e.2) .empty = d := by
  refine Dict.ext ?_
  rw [entries_foldl_insert]
  exact Entries.ofList_of_sorted d.sorted

end Dict

end PageBlocks
