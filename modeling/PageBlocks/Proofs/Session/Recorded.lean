import PageBlocks.Builder
import PageBlocks.Proofs.Json.ReadBack
import PageBlocks.Proofs.Rows.Envelope

/-!
# Recorded schemas

A schema is recorded as the compact text of its value. Whatever happens to its
numbers on the way, the text of its hash survives:

> `sourceHash_of_readRecord`: a record that can be read at all holds a schema
> with the hash it was recorded under.
-/

namespace PageBlocks

namespace Value

/-- The members of a value whose numbers were read back stand under the same keys. -/
theorem keys_renumbered {members ws : List (String × Value)}
    (h : renumberedMembers? members = some ws) : ws.map (·.1) = members.map (·.1) := by
  induction members generalizing ws with
  | nil =>
    cases h
    rfl
  | cons e members ih =>
    rw [renumberedMembers?] at h
    obtain ⟨w, -, h⟩ := Option.bind_eq_some_iff.mp h
    obtain ⟨us, hus, h⟩ := Option.bind_eq_some_iff.mp h
    cases h
    rw [List.map_cons, List.map_cons, ih hus]

/-- A text is read back as it is. -/
theorem text_mem_renumbered {key s : String} : ∀ {members ws : List (String × Value)},
    renumberedMembers? members = some ws → (key, .string s) ∈ members → (key, .string s) ∈ ws
  | [], _, _, hmem => absurd hmem List.not_mem_nil
  | (k, v) :: members, ws, h, hmem => by
    rw [renumberedMembers?] at h
    obtain ⟨w, hw, h⟩ := Option.bind_eq_some_iff.mp h
    obtain ⟨us, hus, h⟩ := Option.bind_eq_some_iff.mp h
    cases h
    rcases List.mem_cons.mp hmem with heq | hmem
    · cases heq
      rw [renumbered?] at hw
      cases hw
      exact List.mem_cons_self ..
    · exact List.mem_cons_of_mem _ (text_mem_renumbered hus hmem)

end Value

namespace CompiledSchema

/-- The names of the parts of a recorded schema. -/
def partNames : List String := ["group", "flatmap", "source_hash", "key_scheme", "compiled_at"]

/-- The parts of a recorded schema. -/
def parts (s : CompiledSchema) : List (String × Value) :=
  [("group", s.group.toValue), ("flatmap", s.index.toValue),
    ("source_hash", .string s.sourceHash), ("key_scheme", .int s.keyScheme),
    ("compiled_at", .string s.compiledAt.zulu)]

/-- A schema that is read from members with a text for a hash has that hash. -/
theorem sourceHash_of_ofValue? {members : List (String × Value)} {hash : String}
    {s : CompiledSchema} (hknown : ∀ e ∈ members, e.1 ∈ partNames)
    (hkeys : (members.map (·.1)).Nodup) (hhash : ("source_hash", .string hash) ∈ members)
    (h : ofValue? (.ofMembers members) = some s) : s.sourceHash = hash := by
  have hlast : Entries.last? "source_hash" members = some (.string hash) := by
    rw [Entries.last?_of_nodup hkeys]
    exact Entries.get?_of_mem_of_nodup hkeys hhash
  have hrecord : Record.of? ["group", "flatmap", "source_hash", "key_scheme", "compiled_at"] false
      (Datum.ofValue (.ofMembers members)) = some
        ⟨(Entries.ofList members).map fun e => (e.1, Datum.ofValue e.2), false⟩ :=
    Record.of?_ofMembers hknown
  unfold ofValue? ofDatum? at h
  rw [hrecord] at h
  simp only [Option.bind_eq_bind, Option.bind_some, Option.bind_eq_some_iff, Record.need?,
    Entries.get?_map_ofValue, hlast, Option.map_some] at h
  obtain ⟨_, _, _, _, found, hfound, _, _, _, _, h⟩ := h
  cases h
  exact (Option.some.inj hfound).symm

end CompiledSchema

/-- A record of a schema that can be read holds a schema with the same hash. -/
theorem sourceHash_of_readRecord {record : SchemaRecord} {schema s : CompiledSchema}
    (hrecord : record.schema = schema.toValue.compact)
    (h : Builder.readRecord record = .ok s) : s.sourceHash = schema.sourceHash := by
  unfold Builder.readRecord at h
  rw [hrecord, JsonText.read?_compact] at h
  split at h
  next found hfound =>
    cases h
    obtain ⟨v, hv, hs⟩ := Option.bind_eq_some_iff.mp hfound
    obtain ⟨-, hv⟩ := Option.ite_none_right_eq_some.mp hv
    obtain ⟨w, hw, rfl⟩ := Option.map_eq_some_iff.mp hv
    have hvalue : schema.toValue = .object (Entries.ofList schema.parts) := rfl
    rw [hvalue, Value.renumbered?] at hw
    obtain ⟨ws, hws, rfl⟩ := Option.map_eq_some_iff.mp hw
    have hkeys : ws.map (·.1) = (Entries.ofList schema.parts).map (·.1) :=
      Value.keys_renumbered hws
    have horder : (Value.orderedMembers ws).map (·.1) = ws.map (·.1) := by
      rw [Value.orderedMembers_eq_map, List.map_map]
      rfl
    have hhash : ("source_hash", Value.string schema.sourceHash) ∈ Entries.ofList schema.parts := by
      refine Entries.mem_of_get? ?_
      rw [Entries.get?_ofList]
      rfl
    refine CompiledSchema.sourceHash_of_ofValue? (fun e he => ?_) ?_ ?_ hs
    · have hmem : e.1 ∈ (Entries.ofList schema.parts).map (·.1) := by
        rw [← hkeys, ← horder]
        exact List.mem_map_of_mem he
      obtain ⟨e', he', hname⟩ := List.mem_map.mp hmem
      have hpart := Entries.mem_ofList he'
      rw [← hname]
      simp only [CompiledSchema.parts, List.mem_cons, List.not_mem_nil, or_false] at hpart
      rcases hpart with rfl | rfl | rfl | rfl | rfl <;> simp [CompiledSchema.partNames]
    · rw [horder, hkeys]
      exact (Entries.sorted_ofList _).nodup_keys
    · rw [Value.orderedMembers_eq_map]
      exact List.mem_map.mpr ⟨_, Value.text_mem_renumbered hws hhash, rfl⟩
  next => cases h

end PageBlocks
