import PageBlocks.Proofs.Registry.Sound
import Mathlib.Data.List.Basic

/-!
# Larger registries

A registry grows when blocks and layouts are added to its definitions: settings
and entities stay as they are. A filter then selects what it selected before,
in the same order, with new blocks in between.

> `build_within`: more definitions make a larger registry;
>
> `Within.candidates_eq`: without the new blocks a filter selects what it did.
-/

namespace PageBlocks

open Attempt

namespace Registry

/-- One registry has all entities of another one, unchanged, and the same settings. -/
structure Within (r larger : Registry) : Prop where
  settings : larger.settings = r.settings
  block : ∀ {name : String} {b : Entity}, r.block? name = some b → larger.block? name = some b
  layout : ∀ {name : String} {l : Entity}, r.layout? name = some l → larger.layout? name = some l

/-- A block is registered under its name. -/
def hasBlock (r : Registry) (b : Entity) : Bool := (r.block? b.name).isSome

def hasLayout (r : Registry) (l : Entity) : Bool := (r.layout? l.name).isSome

/-- Of the entities in a larger dictionary, those with names in a smaller one are the ones that it
has. -/
theorem values_within {entities larger : Dict Entity}
    (hname : ∀ {name : String} {e : Entity}, larger.get? name = some e → e.name = name)
    (hwithin : ∀ {name : String} {e : Entity}, entities.get? name = some e →
      larger.get? name = some e) :
    larger.values.filter (fun e => (entities.get? e.name).isSome) = entities.values := by
  have hentries : larger.entries.filter (fun entry => (entities.get? entry.1).isSome) =
      entities.entries := by
    refine (larger.sorted.filter _).ext entities.sorted fun entry => ?_
    obtain ⟨name, e⟩ := entry
    rw [List.mem_filter, Dict.mem_entries_iff, Dict.mem_entries_iff]
    constructor
    · rintro ⟨hget, hsome⟩
      obtain ⟨e', he'⟩ := Option.isSome_iff_exists.mp hsome
      rw [he', Option.some.inj ((hwithin he').symm.trans hget)]
    · intro hget
      exact ⟨hwithin hget, Option.isSome_iff_exists.mpr ⟨e, hget⟩⟩
  unfold Dict.values
  rw [← hentries, List.filter_map]
  refine congrArg _ (List.filter_congr fun entry hentry => ?_)
  rw [Function.comp_apply, hname (Dict.mem_entries_iff.mp hentry)]

namespace Within

variable {r larger : Registry}

theorem layouts_eq (h : r.Within larger) (hl : larger.Sound) :
    larger.layouts.values.filter r.hasLayout = r.layouts.values :=
  values_within (fun hget => (hl.layout hget).1) h.layout

theorem candidates_eq (h : r.Within larger) (hl : larger.Sound) (filter : NameFilter) :
    (larger.candidates filter).filter r.hasBlock = r.candidates filter := by
  have hvalues : larger.blocks.values.filter r.hasBlock = r.blocks.values :=
    values_within (fun hget => (hl.block hget).1) h.block
  have hopen : (larger.blocks.values.filter fun e => filter.accepts e.name).filter r.hasBlock =
      r.blocks.values.filter fun e => filter.accepts e.name := by
    rw [← hvalues, List.filter_filter, List.filter_filter]
    exact List.filter_congr fun e _ => Bool.and_comm ..
  cases filter with
  | any => exact hopen
  | except names => exact hopen
  | only names =>
    unfold candidates
    dsimp only
    rw [List.filter_filterMap]
    refine List.filterMap_congr fun name _ => ?_
    cases hold : r.block? name with
    | some b =>
      have hb := (hl.block (h.block hold)).1
      simp [h.block hold, Option.filter, hasBlock, hb, hold]
    | none =>
      cases hnew : larger.block? name with
      | none => rfl
      | some b =>
        have hb := (hl.block hnew).1
        simp [Option.filter, hasBlock, hb, hold]

end Within

/-! ## Building from more definitions -/

/-- More definitions make a larger registry. -/
theorem build_within {definitions more : Definitions} {resources : Resources}
    {r larger : Registry} (hbuilt : Gives (build definitions resources) r)
    (hlarger : Gives (build more resources) larger)
    (hsettings : more.settings = definitions.settings)
    (hblocks : ∀ {name d}, definitions.blocks.get? name = some d → more.blocks.get? name = some d)
    (hlayouts : ∀ {name d}, definitions.layouts.get? name = some d →
      more.layouts.get? name = some d) : r.Within larger := by
  obtain ⟨-, hsame, hmade, hmade', -⟩ := build_gives hbuilt
  obtain ⟨-, hlargerSame, hmore, hmore', -⟩ := build_gives hlarger
  exact {
    settings := by rw [hlargerSame, hsettings, hsame]
    block := fun hget =>
      have ⟨d, hd, hmake⟩ := (entities_get?_iff hmade).mp hget
      (entities_get?_iff hmore).mpr ⟨d, hblocks hd, hmake⟩
    layout := fun hget =>
      have ⟨d, hd, hmake⟩ := (entities_get?_iff hmade').mp hget
      (entities_get?_iff hmore').mpr ⟨d, hlayouts hd, hmake⟩ }

end Registry

/-- Definitions with one block more, or another one of that name. -/
def Definitions.withBlock (definitions : Definitions) (name : String) (d : BlockDefinition) :
    Definitions :=
  { definitions with blocks := definitions.blocks.insert name d }

/-- A block under a name that is free makes a larger registry. -/
theorem Registry.withBlock_within {definitions : Definitions} {resources : Resources}
    {name : String} {d : BlockDefinition} {r larger : Registry}
    (hfree : definitions.blocks.get? name = none) (hbuilt : Gives (build definitions resources) r)
    (hlarger : Gives (build (definitions.withBlock name d) resources) larger) :
    r.Within larger := by
  refine build_within hbuilt hlarger rfl (fun {other d'} hget => ?_) fun hget => hget
  have hne : other ≠ name := by
    rintro rfl
    rw [hfree] at hget
    cases hget
  show (definitions.blocks.insert name d).get? other = some d'
  rw [Dict.get?_insert_of_ne _ _ hne, hget]

end PageBlocks
