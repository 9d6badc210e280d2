import PageBlocks.Proofs.Entries
import PageBlocks.Proofs.Registry.Resolved

/-!
# What building a registry guarantees

A registry that was built holds every entity under its own name, blocks among
blocks and layouts among layouts, and every name in it is valid: those of the
entities, of the builder, and of the fields at every depth, also where a
generator made them.

> `build_sound`: whatever `Registry.build` gives is sound.
-/

namespace PageBlocks

/-- Every declared field of an entity has a valid name, and so has the entity. -/
structure Entity.Named (e : Entity) : Prop where
  name : isValidName e.name = true
  fields : ∀ g, ∀ f ∈ e.fields.get g, f.Named

/-- What building a registry guarantees. -/
structure Registry.Sound (r : Registry) : Prop where
  name : isValidName r.settings.name = true
  block : ∀ {name : String} {b : Entity}, r.block? name = some b →
    b.name = name ∧ b.isBlock = true ∧ b.Named
  layout : ∀ {name : String} {l : Entity}, r.layout? name = some l →
    l.name = name ∧ l.isLayout = true ∧ l.Named

open Attempt

/-! ## Entities -/

namespace Entity

/-- What a block definition is made into: the fields of each group come from its slots. -/
theorem ofBlock_gives {generators : Generators} {letters : Transliteration} {limit : Nat}
    {name : String} {d : BlockDefinition} {e : Entity}
    (h : Gives (ofBlock generators letters limit name d) e) :
    isValidName name = true ∧ e.name = name ∧ e.isBlock = true ∧
      ∀ g, Gives (resolveSlots generators letters limit name (d.slots g)) (e.fields.get g) := by
  unfold ofBlock at h
  split at h
  next =>
    obtain ⟨_, hthrow, -⟩ := gives_bind h
    exact (gives_throw hthrow).elim
  next hname =>
    obtain ⟨content, hcontent, h₁⟩ := gives_bind h
    obtain ⟨customise, hcustomise, h₂⟩ := gives_bind h₁
    obtain ⟨configure, hconfigure, hpure⟩ := gives_bind h₂
    obtain rfl := gives_pure hpure
    refine ⟨by simpa using hname, rfl, rfl, fun g => ?_⟩
    cases g with
    | content => exact hcontent
    | customise => exact hcustomise
    | configure => exact hconfigure

theorem ofBlock_sound {generators : Generators} {letters : Transliteration} {limit : Nat}
    {name : String} {d : BlockDefinition} {e : Entity}
    (h : Gives (ofBlock generators letters limit name d) e) :
    e.name = name ∧ e.isBlock = true ∧ e.Named := by
  obtain ⟨hvalid, hname, hblock, hfields⟩ := ofBlock_gives h
  exact ⟨hname, hblock, hname ▸ hvalid, fun g => (resolveSlots_resolved (hfields g)).named⟩

theorem ofLayout_sound {name : String} {d : LayoutDefinition} {e : Entity}
    (h : Gives (ofLayout name d) e) : e.name = name ∧ e.isLayout = true ∧ e.Named := by
  unfold ofLayout at h
  split at h
  next =>
    obtain ⟨_, hthrow, -⟩ := gives_bind h
    exact (gives_throw hthrow).elim
  next hname =>
    obtain rfl := gives_pure h
    refine ⟨rfl, rfl, by simpa using hname, fun g f hf => ?_⟩
    cases g <;> exact absurd hf List.not_mem_nil

end Entity

namespace Registry

/-- Every definition is registered under its name, as the entity that was made of it. -/
theorem entities_get?_iff {α : Type} {make : String → α → Attempt Entity} {definitions : Dict α}
    {made : Dict Entity} (h : Gives (entities make definitions) made) {name : String} {e : Entity} :
    made.get? name = some e ↔ ∃ d, definitions.get? name = some d ∧ Gives (make name d) e := by
  unfold entities at h
  obtain ⟨pairs, hpairs, hpure⟩ := gives_bind h
  obtain rfl := gives_pure hpure
  have hpair : ∀ {name : String} {e : Entity},
      (name, e) ∈ pairs ↔ ∃ d, definitions.get? name = some d ∧ Gives (make name d) e := by
    intro name e
    constructor
    · intro hmem
      obtain ⟨⟨key, d⟩, hd, hgives⟩ := gives_mapM_mem hpairs _ hmem
      obtain ⟨e', hmake, hpure⟩ := gives_bind hgives
      cases gives_pure hpure
      exact ⟨d, Dict.mem_entries_iff.mp hd, hmake⟩
    · rintro ⟨d, hd, hmake⟩
      obtain ⟨pair, hmem, hgives⟩ := mem_gives_mapM hpairs _ (Dict.mem_entries_iff.mpr hd)
      obtain ⟨e', hmake', hpure⟩ := gives_bind hgives
      obtain rfl := gives_pure hpure
      rwa [gives_unique hmake hmake']
  rw [Dict.get?_ofList]
  refine ⟨fun hlast => hpair.mp (Entries.mem_of_last? hlast), fun hmade => ?_⟩
  refine Entries.last?_eq_some (hpair.mpr hmade) fun e' he' => ?_
  obtain ⟨d, hd, hmake⟩ := hmade
  obtain ⟨d', hd', hmake'⟩ := hpair.mp he'
  obtain rfl := Option.some.inj (hd.symm.trans hd')
  exact gives_unique hmake' hmake

/-- What building made, whatever the length of chains that it takes. -/
theorem buildWithin_gives {definitions : Definitions} {generators : Generators}
    {letters : Transliteration} {limit : Nat} {r : Registry}
    (h : Gives (buildWithin definitions generators letters limit) r) :
    isValidName r.settings.name = true ∧ r.settings = definitions.settings ∧
      Gives (entities (Entity.ofBlock generators letters limit) definitions.blocks) r.blocks ∧
      Gives (entities Entity.ofLayout definitions.layouts) r.layouts ∧
      r.sourceHash = definitions.hash := by
  unfold buildWithin at h
  split at h
  next =>
    obtain ⟨_, hthrow, -⟩ := gives_bind h
    exact (gives_throw hthrow).elim
  next hname =>
    obtain ⟨blocks, hblocks, h₁⟩ := gives_bind h
    obtain ⟨layouts, hlayouts, h₂⟩ := gives_bind h₁
    split at h₂
    next => exact (gives_throw h₂).elim
    next =>
      obtain rfl := gives_pure h₂
      exact ⟨by simpa using hname, rfl, hblocks, hlayouts, rfl⟩

theorem build_gives {definitions : Definitions} {resources : Resources} {r : Registry}
    (h : Gives (build definitions resources) r) :
    isValidName r.settings.name = true ∧ r.settings = definitions.settings ∧
      Gives (entities (Entity.ofBlock resources.generators resources.letters
        resources.limit) definitions.blocks) r.blocks ∧
      Gives (entities Entity.ofLayout definitions.layouts) r.layouts ∧
      r.sourceHash = definitions.hash :=
  buildWithin_gives h

/-- A built registry is sound. -/
theorem build_sound {definitions : Definitions} {resources : Resources} {r : Registry}
    (h : Gives (build definitions resources) r) : r.Sound := by
  obtain ⟨hname, -, hblocks, hlayouts, -⟩ := build_gives h
  exact {
    name := hname
    block := fun hget =>
      have ⟨_, _, hmade⟩ := (entities_get?_iff hblocks).mp hget
      Entity.ofBlock_sound hmade
    layout := fun hget =>
      have ⟨_, _, hmade⟩ := (entities_get?_iff hlayouts).mp hget
      Entity.ofLayout_sound hmade }

/-- A registry has the hash of its definitions. -/
theorem build_sourceHash {definitions : Definitions} {resources : Resources} {r : Registry}
    (h : Gives (build definitions resources) r) : r.sourceHash = definitions.hash :=
  (build_gives h).2.2.2.2

/-- The layouts are registered under their names. -/
theorem Sound.mem_layouts {r : Registry} (hr : r.Sound) {l : Entity} :
    l ∈ r.layouts.values ↔ r.layout? l.name = some l := by
  rw [Dict.mem_values_iff]
  constructor
  · rintro ⟨key, hget⟩
    rwa [(hr.layout hget).1]
  · exact fun h => ⟨_, h⟩

/-- The blocks that a filter selects are the registered ones that it accepts. -/
theorem Sound.mem_candidates {r : Registry} (hr : r.Sound) {filter : NameFilter} {b : Entity} :
    b ∈ r.candidates filter ↔ r.block? b.name = some b ∧ filter.accepts b.name = true := by
  have hvalues : b ∈ r.blocks.values ↔ r.block? b.name = some b := by
    rw [Dict.mem_values_iff]
    constructor
    · rintro ⟨key, hget⟩
      rwa [(hr.block hget).1]
    · exact fun h => ⟨_, h⟩
  cases filter with
  | any => simp [candidates, hvalues]
  | except names => simp [candidates, hvalues]
  | only names =>
    simp only [candidates, List.mem_filterMap, NameFilter.accepts, List.contains_iff_mem]
    constructor
    · rintro ⟨name, hmem, hget⟩
      obtain rfl := (hr.block hget).1
      exact ⟨hget, hmem⟩
    · exact fun h => ⟨b.name, h.2, h.1⟩

end Registry

end PageBlocks
