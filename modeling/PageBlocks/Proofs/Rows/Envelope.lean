import PageBlocks.Proofs.Value
import PageBlocks.Rows.Meta

/-!
# Envelopes survive

An envelope is written into its block as a value and read back through loosely
typed data.

> `BlockMeta.ofMembers?_insert`: the envelope that was put into a block is the
> one that is found there.

The recorded values must be well-formed, and the position must fit the 64 bits
that a position is read with.
-/

namespace PageBlocks

namespace Record

/-- Named fields, each known and given once, are the fields of a record. -/
theorem foldlM_add? (names : List String) (strict : Bool) :
    ∀ {members present : List (String × Datum)},
      ((present ++ members).map (·.1)).Nodup → (∀ e ∈ members, e.1 ∈ names) →
      (members.map fun e => (Datum.string e.1, e.2)).foldlM (add? names strict) present =
        some (present ++ members)
  | [], present, _, _ => by rw [List.append_nil]; rfl
  | (k, d) :: rest, present, hnodup, hknown => by
    have hk : names.contains k = true :=
      List.contains_iff_mem.mpr (hknown (k, d) (List.mem_cons_self ..))
    have hnew : (Entries.get? k present).isSome = false := by
      rw [Option.isSome_eq_false_iff, Option.isNone_iff_eq_none, Entries.get?_eq_none_iff]
      rw [List.map_append, List.nodup_append] at hnodup
      exact fun hmem => hnodup.2.2 k hmem k (List.mem_cons_self ..) rfl
    have hadd : add? names strict present (.string k, d) = some (present ++ [(k, d)]) := by
      show (if names.contains k = true then
        if (Entries.get? k present).isSome = true then none else some (present ++ [(k, d)])
        else if strict = true then none else some present) = _
      rw [if_pos hk, hnew]
      rfl
    rw [List.append_cons] at hnodup
    have hrest := foldlM_add? names strict hnodup fun e he => hknown e (List.mem_cons_of_mem _ he)
    rw [List.map_cons, List.foldlM_cons, hadd]
    rw [← List.append_cons] at hrest
    exact hrest

/-- A record is found in the object that names its fields. -/
theorem of?_ofValue {names : List String} {strict : Bool} {members : List (String × Value)}
    (hnodup : (members.map (·.1)).Nodup) (hknown : ∀ e ∈ members, e.1 ∈ names) :
    of? names strict (Datum.ofValue (.object members)) =
      some ⟨members.map fun e => (e.1, Datum.ofValue e.2), false⟩ := by
  have hmap : Datum.ofMembers members =
      (members.map fun e => (e.1, Datum.ofValue e.2)).map fun e => (Datum.string e.1, e.2) := by
    rw [Datum.ofMembers_eq_map, List.map_map]
    rfl
  have hfold : ((members.map fun e => (e.1, Datum.ofValue e.2)).map fun e =>
      (Datum.string e.1, e.2)).foldlM (add? names strict) [] =
        some ([] ++ members.map fun e => (e.1, Datum.ofValue e.2)) := by
    refine foldlM_add? names strict ?_ fun e he => ?_
    · rw [List.nil_append, List.map_map]
      exact hnodup
    · obtain ⟨e', he', rfl⟩ := List.mem_map.mp he
      exact hknown e' he'
  rw [Datum.ofValue, hmap]
  show (List.foldlM (add? names strict) [] _).bind _ = _
  rw [hfold]
  rfl

end Record

/-- Entries put together from pairs are a record of the pairs' names. -/
theorem Record.of?_ofMembers {names : List String} {strict : Bool}
    {pairs : List (String × Value)} (hknown : ∀ e ∈ pairs, e.1 ∈ names) :
    Record.of? names strict (Datum.ofValue (Value.ofMembers pairs)) =
      some ⟨(Entries.ofList pairs).map fun e => (e.1, Datum.ofValue e.2), false⟩ :=
  of?_ofValue (Entries.sorted_ofList pairs).nodup_keys
    fun e he => hknown e (Entries.mem_ofList he)

theorem Entries.get?_map_ofValue (name : String) (pairs : List (String × Value)) :
    Entries.get? name ((Entries.ofList pairs).map fun e => (e.1, Datum.ofValue e.2)) =
      (Entries.last? name pairs).map Datum.ofValue := by
  rw [← Entries.get?_ofList]
  exact Entries.get?_map (f := fun _ v => Datum.ofValue v) _

/-- Members under texts are read one by one. -/
theorem Datum.mapM_ofMembers {α : Type} {read : Datum → Option α} {f : α → Value} :
    ∀ {entries : List (String × α)},
      (∀ e ∈ entries, read (Datum.ofValue (f e.2)) = some e.2) →
      (Datum.ofMembers (entries.map fun e => (e.1, f e.2))).mapM
        (fun p : Datum × Datum => do return (← Datum.text? p.1, ← read p.2)) = some entries
  | [], _ => rfl
  | e :: rest, hall => by
    rw [List.map_cons, Datum.ofMembers, List.mapM_cons,
      mapM_ofMembers fun e' he' => hall e' (List.mem_cons_of_mem _ he')]
    simp [Datum.text?, hall e (List.mem_cons_self ..)]

theorem Datum.dict?_ofValue {α : Type} {read : Datum → Option α} {write : α → Value}
    {d : Dict α} (h : ∀ e ∈ d.entries, read (Datum.ofValue (write e.2)) = some e.2) :
    Datum.dict? read (Datum.ofValue (.ofDict (d.map fun _ a => write a))) = some d := by
  show Option.bind (List.mapM (fun p : Datum × Datum => do
    return (← Datum.text? p.1, ← read p.2)) (Datum.ofMembers (d.entries.map
      fun e : String × α => (e.1, write e.2)))) _ = some d
  rw [mapM_ofMembers h]
  show some (Dict.ofList d.entries) = some d
  rw [Dict.ofList_entries]

theorem Datum.count?_int {n limit : Nat} (h : n < limit) :
    Datum.count? limit (.int n) = some n := by
  rw [Datum.count?, if_pos ⟨Int.natCast_nonneg _, Int.ofNat_lt.mpr h⟩, Int.toNat_natCast]

/-- Both forms of a stored value are well-formed. -/
def StoredValue.WellFormed (s : StoredValue) : Prop := s.raw.WellFormed ∧ s.value.WellFormed

theorem StoredValue.ofDatum?_toValue {s : StoredValue} (h : s.WellFormed) :
    ofDatum? (Datum.ofValue s.toValue) = some s := by
  have hknown : ∀ e ∈ [("raw", s.raw), ("value", s.value)], e.1 ∈ ["raw", "value"] := by simp
  unfold ofDatum? toValue
  rw [Record.of?_ofMembers hknown]
  simp [Record.need?, Entries.get?_map_ofValue, Entries.last?, Datum.toValue?_ofValue h.1,
    Datum.toValue?_ofValue h.2]

namespace BlockMeta

/-- Every stored form that an envelope carries is well-formed. -/
def WellFormed (m : BlockMeta) : Prop := ∀ e ∈ m.stored.entries, e.2.WellFormed

/-- The members of an envelope, before they are put in order. -/
def pairs (m : BlockMeta) : List (String × Value) :=
  [("layout", .string m.layout), ("block", .string m.block), ("key", .string m.key),
    ("tag", .string m.tag), ("index", .int m.index), ("parent", .string m.parent)] ++
    if m.stored.isEmpty then []
    else [("stored", .ofDict (m.stored.map fun _ s => s.toValue))]

theorem pairs_known (m : BlockMeta) : ∀ e ∈ m.pairs, e.1 ∈ memberNames := by
  have hnames : ∀ name ∈ m.pairs.map (·.1), name ∈ memberNames := by
    unfold pairs
    cases m.stored.isEmpty <;> simp [memberNames]
  exact fun e he => hnames _ (List.mem_map_of_mem he)

/-- Each field of an envelope stands under its name; nothing stands for the stored forms when there
are none. -/
theorem find_pairs (m : BlockMeta) :
    Entries.last? "layout" m.pairs = some (.string m.layout) ∧
      Entries.last? "block" m.pairs = some (.string m.block) ∧
      Entries.last? "key" m.pairs = some (.string m.key) ∧
      Entries.last? "tag" m.pairs = some (.string m.tag) ∧
      Entries.last? "index" m.pairs = some (.int m.index) ∧
      Entries.last? "parent" m.pairs = some (.string m.parent) ∧
      Entries.last? "stored" m.pairs =
        if m.stored.isEmpty then none
        else some (.ofDict (m.stored.map fun _ s => s.toValue)) := by
  unfold pairs
  cases m.stored.isEmpty <;> simp [Entries.last?]

theorem ofDatum?_toValue {m : BlockMeta} (h : m.WellFormed)
    (hindex : m.index < 18446744073709551616) : ofDatum? (Datum.ofValue m.toValue) = some m := by
  have hread : Datum.dict? StoredValue.ofDatum?
      (Datum.ofValue (.ofDict (m.stored.map fun _ s => s.toValue))) = some m.stored :=
    Datum.dict?_ofValue fun e he => StoredValue.ofDatum?_toValue (h e he)
  obtain ⟨hlayout, hblock, hkey, htag, hposition, hparent, hstored⟩ := m.find_pairs
  show ofDatum? (Datum.ofValue (Value.ofMembers m.pairs)) = some m
  unfold ofDatum?
  -- The kernel must not count to the bound of a position.
  generalize 18446744073709551616 = limit at hindex ⊢
  have hcount : Datum.count? limit (.int m.index) = some m.index := Datum.count?_int hindex
  rw [Record.of?_ofMembers m.pairs_known]
  cases hempty : m.stored.isEmpty with
  | true =>
    rw [hempty, if_pos rfl] at hstored
    have hnone : m.stored = .empty := Dict.ext (List.isEmpty_iff.mp hempty)
    simp -implicitDefEqProofs only [Record.need?, Record.orElse?, Entries.get?_map_ofValue,
      hlayout, hblock, hkey, htag, hposition, hparent, hstored, Option.map_some, Option.map_none,
      Option.bind_some, Option.bind_eq_bind, Datum.ofValue, Datum.text?, hcount]
    rw [← hnone]
    rfl
  | false =>
    rw [hempty, if_neg (by decide)] at hstored
    simp -implicitDefEqProofs only [Record.need?, Record.orElse?, Entries.get?_map_ofValue,
      hlayout, hblock, hkey, htag, hposition, hparent, hstored, hread, Option.map_some,
      Option.bind_some, Option.bind_eq_bind, Datum.ofValue, Datum.text?, hcount]
    rfl

/-- Whatever else is read back from an envelope, the place is the one it was written with. -/
theorem place_of_ofDatum? {m found : BlockMeta}
    (h : ofDatum? (Datum.ofValue m.toValue) = some found) :
    found.layout = m.layout ∧ found.block = m.block ∧ found.index = m.index ∧
      found.parent = m.parent := by
  obtain ⟨hlayout, hblock, -, -, hposition, hparent, -⟩ := m.find_pairs
  change ofDatum? (Datum.ofValue (Value.ofMembers m.pairs)) = some found at h
  unfold ofDatum? at h
  generalize 18446744073709551616 = limit at h
  rw [Record.of?_ofMembers m.pairs_known] at h
  simp -implicitDefEqProofs only [Record.need?, Entries.get?_map_ofValue, hlayout, hblock,
    hposition, hparent, Option.map_some, Option.bind_some, Option.bind_eq_bind, Datum.ofValue,
    Datum.text?] at h
  -- The position is read only within bounds, and then as it was written.
  obtain ⟨key, -, h⟩ := Option.bind_eq_some_iff.mp h
  obtain ⟨tag, -, h⟩ := Option.bind_eq_some_iff.mp h
  obtain ⟨position, hread, h⟩ := Option.bind_eq_some_iff.mp h
  obtain ⟨stored, -, h⟩ := Option.bind_eq_some_iff.mp h
  cases h
  rw [Datum.count?] at hread
  obtain ⟨-, hsame⟩ := Option.ite_none_right_eq_some.mp hread
  have hposition : m.index = position := Option.some.inj hsame
  exact ⟨rfl, rfl, hposition.symm, rfl⟩

/-- The envelope that was put into a block is found there. -/
theorem ofMembers?_insert {m : BlockMeta} {data : List (String × Value)} (h : m.WellFormed)
    (hindex : m.index < 18446744073709551616) :
    ofMembers? (Entries.insert metaKey m.toValue data) = some m := by
  unfold ofMembers?
  rw [Entries.get?_insert_self]
  exact ofDatum?_toValue h hindex

end BlockMeta

end PageBlocks
