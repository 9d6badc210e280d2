import PageBlocks.Proofs.Session.Log

/-!
# Saving the cache and loading it again

Saving replaces what a store holds of renderings, and loading adds what a cache
does not have yet. So a cache keeps its own renderings under the keys that it
has, and under the others it gets the saved ones (`load_get?`), each of which is
counted (`load_snd`).

> `saved_then_loaded`: what one cache saved and another one loads, whatever the
> store held before.

Times are stored as text, so what was saved can be read back if their years have
four digits; it is the only way in which loading can fail.
-/

namespace PageBlocks

/-! ## Loading -/

namespace RenderCache

/-- The keys of a dictionary that a cache does not have. -/
def missingKeys (cache : RenderCache) (d : Dict CacheEntry) : List String :=
  d.keys.filter fun key => !cache.entries.contains key

/-- A cache keeps what it has, and gets what it lacks. -/
theorem load_get? (cache : RenderCache) (d : Dict CacheEntry) (key : String) :
    (cache.load d.entries).1.entries.get? key = (cache.entries.get? key).or (d.get? key) := by
  have hsorted : Entries.Sorted (d.entries.filter fun e => !cache.entries.contains e.1) :=
    d.sorted.filter _
  show Entries.get? key (Dict.entries (List.foldl _ _ _)) = _
  rw [Dict.entries_foldl_insert, Entries.get?_foldl_insert,
    Entries.last?_of_nodup hsorted.nodup_keys]
  cases hhas : cache.entries.get? key with
  | some entry =>
    have hlacks : (!cache.entries.contains key) = false := by
      rw [Dict.contains, hhas]
      rfl
    rw [Entries.get?_filter_of_false (p := fun k => !cache.entries.contains k) hlacks]
    exact hhas
  | none =>
    have hlacks : (!cache.entries.contains key) = true := by
      rw [Dict.contains, hhas]
      rfl
    rw [Entries.get?_filter (p := fun k => !cache.entries.contains k) hlacks]
    show (d.get? key).or (cache.entries.get? key) = _
    rw [hhas, Option.or_none, Option.none_or]

theorem load_snd (cache : RenderCache) (d : Dict CacheEntry) :
    (cache.load d.entries).2 = (cache.missingKeys d).length := by
  show (d.entries.filter _).length = _
  rw [missingKeys, Dict.keys, List.filter_map, List.length_map]
  rfl

/-- Loading what a cache has already changes nothing. -/
theorem load_of_missingKeys_nil {cache : RenderCache} {d : Dict CacheEntry}
    (h : cache.missingKeys d = []) : cache.load d.entries = (cache, 0) := by
  have hnil : (d.entries.filter fun e => !cache.entries.contains e.1) = [] := by
    rw [missingKeys, Dict.keys, List.filter_map, List.map_eq_nil_iff] at h
    exact h
  unfold load
  rw [hnil]
  rfl

theorem load_again (cache : RenderCache) (d : Dict CacheEntry) :
    (cache.load d.entries).1.load d.entries = ((cache.load d.entries).1, 0) := by
  refine load_of_missingKeys_nil (List.filter_eq_nil_iff.mpr fun key hkey => ?_)
  obtain ⟨⟨key, entry⟩, he, rfl⟩ := List.mem_map.mp hkey
  rw [Dict.contains, load_get?, Dict.mem_entries_iff.mp he]
  simp

/-- An empty cache gets all that there is. -/
theorem load_empty {cache : RenderCache} (h : cache.entries = .empty) (d : Dict CacheEntry) :
    (cache.load d.entries).1.entries = d ∧ (cache.load d.entries).2 = d.size := by
  have hall : (d.entries.filter fun e => !cache.entries.contains e.1) = d.entries := by
    refine List.filter_eq_self.mpr fun e _ => ?_
    rw [h, Dict.contains, Dict.get?_empty]
    rfl
  unfold load
  rw [hall, h]
  exact ⟨Dict.foldl_insert_entries d, rfl⟩

end RenderCache

/-! ## Saving -/

namespace Store

/-- Renderings can be replaced as long as no transaction is open. -/
theorem replace_isOk_iff (store : Store) (entries : List (String × CacheEntry)) :
    (∃ after, store.replace entries = .ok after) ↔ store.saved = none := by
  obtain ⟨tables, saved⟩ := store
  cases saved with
  | some before => exact ⟨fun ⟨_, h⟩ => (nomatch h), fun h => (nomatch h)⟩
  | none =>
    refine ⟨fun _ => rfl, fun _ => ?_⟩
    show ∃ after, commit (entries.foldl (fun s e => s.put e.1 e.2) (clear _)) = .ok after
    rw [foldl_put]
    exact ⟨_, rfl⟩

/-- Renderings with plain years can be read. -/
theorem renderings_of_plain {store : Store}
    (h : ∀ key entry, store.tables.renderings.get? key = some entry →
      entry.storedAt.hasPlainYear = true) :
    store.renderings = .ok store.tables.renderings.entries := by
  unfold renderings
  have hnone : (store.tables.renderings.entries.find? fun e => !e.2.storedAt.hasPlainYear) =
      none := by
    refine List.find?_eq_none.mpr fun e he => ?_
    rw [h e.1 e.2 (Dict.mem_entries_iff.mp he)]
    decide
  rw [hnone]

end Store

/-! ## One cache saved, another one loading -/

/-- What a cache saves replaces the stored renderings, unless a transaction is open, and nothing
else of the store. A cache that loads it keeps its own renderings, has the saved ones under the
keys that it lacked, and tells how many those were: it becomes the saved one if it was empty, and
loading once more adds nothing. -/
theorem saved_then_loaded (saving loading : RenderCache) (store : Store) :
    ((∃ after, store.replace saving.entries.entries = .ok after) ↔ store.saved = none) ∧
    ∀ after, store.replace saving.entries.entries = .ok after →
      after.tables = { store.tables with renderings := saving.entries } ∧ after.saved = none ∧
      -- A time is read back exactly as it was written if its year has four digits.
      ((∀ key entry, saving.entries.get? key = some entry →
          entry.storedAt.hasPlainYear = true) →
        ∃ stored loaded count, after.renderings = .ok stored ∧
          loading.load stored = (loaded, count) ∧
          (∀ key, loaded.entries.get? key =
            (loading.entries.get? key).or (saving.entries.get? key)) ∧
          loaded.enabled = loading.enabled ∧ loaded.markers = loading.markers ∧
          count = (loading.missingKeys saving.entries).length ∧
          (loading.entries = .empty →
            loaded.entries = saving.entries ∧ count = saving.entries.size) ∧
          loaded.load stored = (loaded, 0)) := by
  refine ⟨store.replace_isOk_iff _, fun after hafter => ?_⟩
  have hidle : store.saved = none := (store.replace_isOk_iff _).mp ⟨after, hafter⟩
  obtain rfl := Store.replace_entries hafter
  refine ⟨rfl, hidle, fun hplain => ?_⟩
  refine ⟨saving.entries.entries, _, _, Store.renderings_of_plain hplain, rfl,
    loading.load_get? saving.entries, rfl, rfl, loading.load_snd saving.entries,
    fun hempty => RenderCache.load_empty hempty saving.entries,
    loading.load_again saving.entries⟩

/-- A rendering of the year 2020. -/
def renderingOf (output : String) : CacheEntry := ⟨output, ⟨737730, 0, 0⟩⟩

/-- A cache with the renderings of two pages. -/
def twoPages : RenderCache :=
  { entries := .ofList [("1|page|page", renderingOf "<p>one</p>"),
      ("2|page|page", renderingOf "<p>two</p>")] }

/-- A cache with another rendering of the first page. -/
def firstPage : RenderCache :=
  { entries := .ofList [("1|page|page", renderingOf "<p>uno</p>")] }

/-- A store with a rendering that no cache has. -/
def staleStore : Store := Store.empty.put "9|page|page" (renderingOf "<p>nine</p>")

/-- The stale rendering is gone; the first page stays as the loading cache had it, the second one
comes from the store. -/
theorem pages_saved_then_loaded :
    ∃ after stored loaded, staleStore.replace twoPages.entries.entries = .ok after ∧
      after.renderings = .ok stored ∧ firstPage.load stored = (loaded, 1) ∧
      loaded.entries.get? "1|page|page" = some (renderingOf "<p>uno</p>") ∧
      loaded.entries.get? "2|page|page" = some (renderingOf "<p>two</p>") ∧
      loaded.entries.get? "9|page|page" = none := by
  obtain ⟨hsaves, hsaved⟩ := saved_then_loaded twoPages firstPage staleStore
  obtain ⟨after, hafter⟩ := hsaves.mpr rfl
  obtain ⟨-, -, hloads⟩ := hsaved after hafter
  have hplain : ∀ key entry, twoPages.entries.get? key = some entry →
      entry.storedAt.hasPlainYear = true := by
    intro key entry hget
    have hmem := Entries.mem_of_last? ((Dict.get?_ofList _ _).symm.trans hget)
    simp only [List.mem_cons, Prod.mk.injEq, List.not_mem_nil, or_false] at hmem
    rcases hmem with ⟨-, rfl⟩ | ⟨-, rfl⟩ <;> rfl
  obtain ⟨stored, loaded, count, hstored, hload, hentries, -, -, hcount, -, -⟩ := hloads hplain
  have hone : count = 1 := hcount.trans (by decide +kernel)
  refine ⟨after, stored, loaded, hafter, hstored, hone ▸ hload, ?_, ?_, ?_⟩
  · rw [hentries]
    rfl
  · rw [hentries]
    rfl
  · rw [hentries]
    rfl

end PageBlocks
