import PageBlocks.Proofs.Tree.Clashes

/-!
# What a compilation comes to

A compilation fails by itself, or because an id that it registers is taken. On
an empty index only the compilation itself can have taken it. So there it comes
to what it makes, as long as the ids that it registers are distinct:

> `runOn_empty_ok_iff`: a compilation succeeds on an empty index exactly when
> it makes something and registers distinct ids.

What a registry is compiled to can then be told by the two ways to fail.
Whatever a compilation fails with by itself is fatal. That an id is taken is
not, although it rejects the compilation like the others; it takes a list that
names a block twice, which building a registry does not reject.

> `compile_errors_fatal`: where no list names a block twice, a compilation
> fails with nothing but fatal errors;
>
> `repeated_block_not_fatal`: where one does, it may fail with another.
-/

namespace PageBlocks

open Attempt

/-! ## On an empty index -/

namespace Compilation

variable {α : Type} {c : Compilation α} {a : α}

/-- Distinct ids are all registered, and the compilation comes to what it makes. -/
theorem runOn_empty_of_nodup (h : c.ids.Nodup) :
    (c.runOn .empty).result = c.run.value ∧
      (c.runOn .empty).index.Holds (c.run.emissions.filterMap Emission.entry?) := by
  have hfree : (FlatIndex.empty.absorb c.run.emissions).collision = none :=
    FlatIndex.absorb_free FlatIndex.holds_empty h
  constructor
  · unfold runOn
    dsimp only
    rw [hfree]
  · exact FlatIndex.absorb_holds FlatIndex.holds_empty hfree

/-- On an empty index a compilation comes to what it makes, if the ids are distinct. -/
theorem Makes.runOn_empty {es : List IndexEntry} (h : Makes c a es)
    (hnodup : (es.map IndexEntry.key).Nodup) :
    (c.runOn .empty).result = .ok a ∧ (c.runOn .empty).index.Holds es := by
  obtain ⟨hvalue, rfl⟩ := h
  obtain ⟨hresult, hholds⟩ := runOn_empty_of_nodup hnodup
  exact ⟨hresult.trans hvalue, hholds⟩

theorem runOn_empty_ok_iff :
    (c.runOn .empty).result = .ok a ↔ c.run.value = .ok a ∧ c.ids.Nodup := by
  constructor
  · intro h
    unfold runOn at h
    dsimp only at h
    cases hcollision : (FlatIndex.empty.absorb c.run.emissions).collision with
    | some e =>
      rw [hcollision] at h
      cases h
    | none =>
      rw [hcollision] at h
      exact ⟨h, (FlatIndex.absorb_holds FlatIndex.holds_empty hcollision).nodup⟩
  · rintro ⟨hvalue, hnodup⟩
    rw [(runOn_empty_of_nodup hnodup).1, hvalue]

/-- A compilation fails by itself or because an id is taken. -/
theorem runOn_error {index : FlatIndex} {e : Error} (h : (c.runOn index).result = .error e) :
    c.run.value = .error e ∨ ∃ key entity, e = .keyCollision key entity := by
  unfold runOn at h
  dsimp only at h
  cases hcollision : (index.absorb c.run.emissions).collision with
  | some e' =>
    rw [hcollision] at h
    obtain rfl : e' = e := Except.error.inj h
    exact .inr (FlatIndex.absorb_collision hcollision)
  | none =>
    rw [hcollision] at h
    exact .inl h

end Compilation

/-- One entity compiled by itself, on an index of its own. -/
def Compile.alone (registry : Registry) (site : Site) (parent : KeyPath) (e : Entity) :
    Compilation.Outcome Compile.Node :=
  (entity registry site parent e).runOn .empty

theorem Compile.entity_block {registry : Registry} {site : Site} {parent : KeyPath} {b : Entity}
    (h : b.isBlock = true) :
    entity registry site parent b = do
      return .block
        (← block registry.settings (fill registry) site none (parent.child b.name) b) := by
  unfold entity
  cases hkind : b.kind with
  | layout =>
    rw [Entity.isBlock, hkind] at h
    cases h
  | block kind => rfl

/-! ## Fatal errors -/

theorem Error.IsFault.isFatal {e : Error} (h : e.IsFault) : e.isFatal = true := by
  cases h <;> rfl

/-- What compiling a registry fails with by itself is fatal. -/
theorem Compile.fieldGroup_fatal {registry : Registry} (hr : registry.Sound) {e : Error}
    (h : (fieldGroup registry).run.value = .error e) : e.isFatal = true := by
  rcases (fieldGroup_checks hr).fails e h with ⟨scope, name, -, -, rfl⟩ | hfault
  · rfl
  · exact hfault.isFatal

/-- The ids of a registry's addresses tell the addresses, as far as the digest tells paths. -/
theorem Registry.Sound.address_eq_of_id {registry : Registry} (hr : registry.Sound)
    {a b : Address} (ha : a ∈ registry.addresses) (hb : b ∈ registry.addresses)
    (hdigest : keyDigest (keyPreimage a.path) = keyDigest (keyPreimage b.path) →
      a.path.joined = b.path.joined) (h : a.id = b.id) : a = b := by
  obtain ⟨hkind, hsame⟩ := Address.parts_of_id h
  have hpath : a.path = b.path := Address.path_eq_of_joined hr.name
    (Expansion.addresses_beyond hr a ha) (Expansion.addresses_beyond hr b hb) (hdigest hsame)
  obtain ⟨kind, path⟩ := a
  exact congr (congrArg Address.mk hkind) hpath

/-- The ids of visited addresses are distinct. -/
theorem Compilation.Visits.nodup_ids {α : Type} {registry : Registry} {c : Compilation α}
    (h : c.Visits registry.addresses) (hr : registry.Sound)
    (hdigest : ∀ a ∈ registry.addresses, ∀ b ∈ registry.addresses,
      keyDigest (keyPreimage a.path) = keyDigest (keyPreimage b.path) →
        a.path.joined = b.path.joined) : c.ids.Nodup := by
  obtain ⟨visited, rest, hsplit, hids, hnodup, -⟩ := h.ids
  have hmem : ∀ a ∈ visited, a ∈ registry.addresses := fun a ha =>
    hsplit ▸ List.mem_append_left _ ha
  rw [hids]
  exact hnodup.map_on fun a ha b hb =>
    hr.address_eq_of_id (hmem a ha) (hmem b hb) (hdigest a (hmem a ha) b (hmem b hb))

/-- Compiling a registry fails with a fatal error, or because an id is taken, which is not fatal.
If no list of blocks names a block twice, and the digest tells the paths of the expansion apart, all
that it can fail with is fatal. -/
theorem compile_errors_fatal {definitions : Definitions} {resources : Resources}
    {registry : Registry} (hbuilt : Gives (Registry.build definitions resources) registry) :
    (∀ now e, (compile registry now).run.value = .error e →
      (e.isFatal = false ↔ ∃ key entity, e = .keyCollision key entity)) ∧
    (registry.hasDistinctLists = true →
      (∀ a ∈ registry.addresses, ∀ b ∈ registry.addresses,
        keyDigest (keyPreimage a.path) = keyDigest (keyPreimage b.path) →
          a.path.joined = b.path.joined) →
      ∀ now e, (compile registry now).run.value = .error e → e.isFatal = true) := by
  have hr : registry.Sound := Registry.build_sound hbuilt
  refine ⟨fun now e h => ⟨fun hfatal => ?_, ?_⟩, fun hlists hdigest now e h => ?_⟩
  · refine (Compilation.runOn_error (compile_error h)).resolve_left fun hvalue => ?_
    rw [Compile.fieldGroup_fatal hr hvalue] at hfatal
    cases hfatal
  · rintro ⟨key, entity, rfl⟩
    rfl
  · have hnodup := (Compile.fieldGroup_visits hr hlists).nodup_ids hr hdigest
    have hresult := compile_error h
    rw [(Compilation.runOn_empty_of_nodup hnodup).1] at hresult
    exact Compile.fieldGroup_fatal hr hresult

/-- Cards with two titles fail to compile for their titles. -/
theorem titles_fatal : ∃ e, (compile titlesRegistry default).run.value = .error e ∧
    e.isFatal = true := by
  have hbuilt : Gives (Registry.build titlesDefinitions .empty) titlesRegistry :=
    gives_result (by decide +kernel)
  have hlists : titlesRegistry.hasDistinctLists = true := by decide +kernel
  cases hvalue : (compile titlesRegistry default).run.value with
  | ok schema =>
    have hfails : (compile titlesRegistry default).run.value.toOption.isSome = false := by
      decide +kernel
    rw [hvalue] at hfails
    cases hfails
  | error e =>
    exact ⟨e, rfl, (compile_errors_fatal hbuilt).2 hlists (by decide +kernel) default e hvalue⟩

/-- A page that lists its one block twice. -/
def repeatedDefinitions : Definitions :=
  { settings := { coreFields := false }
    blocks := .ofList [("text", {})]
    layouts := .ofList [("page", { blocks := .only ["text", "text"] })] }

def repeatedRegistry : Registry := (Registry.build repeatedDefinitions .empty).result

/-- It builds, and the digest tells its paths apart; still it fails to compile, and with an error
that is not fatal. -/
theorem repeated_block_not_fatal :
    Gives (Registry.build repeatedDefinitions .empty) repeatedRegistry ∧
      (∀ a ∈ repeatedRegistry.addresses, ∀ b ∈ repeatedRegistry.addresses,
        keyDigest (keyPreimage a.path) = keyDigest (keyPreimage b.path) →
          a.path.joined = b.path.joined) ∧
      ∃ e, (compile repeatedRegistry default).run.value = .error e ∧ e.isFatal = false := by
  refine ⟨gives_result (by decide +kernel), by decide +kernel, ?_⟩
  have hfails : (match (compile repeatedRegistry default).run.value with
      | .ok _ => true
      | .error e => e.isFatal) = false := by decide +kernel
  cases hvalue : (compile repeatedRegistry default).run.value with
  | ok schema =>
    rw [hvalue] at hfails
    cases hfails
  | error e =>
    rw [hvalue] at hfails
    exact ⟨e, rfl, hfails⟩

end PageBlocks
