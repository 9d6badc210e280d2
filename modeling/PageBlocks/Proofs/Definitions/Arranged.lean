import PageBlocks.Proofs.Schema.ReadBack
import PageBlocks.Definitions.Encode

/-!
# Encodings in any order

Definitions are encoded in the order in which their fields are declared; put
into key order, the encoding is a value like any other. What is read from an
encoding does not depend on which of the two it is: an `Arrangement` only moves
the members of objects.

> `Arrangement.record`: a record is found in its object however that is
> arranged.
-/

namespace PageBlocks

/-- A way to put the members of objects in another order. -/
structure Arrangement (arrange : Value → Value) : Prop where
  leaf : ∀ {v : Value}, v.depth = 0 → arrange v = v
  array : ∀ {items : List Value}, arrange (.array items) = .array (items.map arrange)
  object : ∀ {members : List (String × Value)}, (members.map (·.1)).Nodup →
    ∃ members', arrange (.object members) = .object members' ∧
      members'.Perm (members.map fun e => (e.1, arrange e.2))
  ordered : ∀ {v : Value}, v.WellFormed → arrange v = v

namespace Value

theorem sortedItems_eq_map (items : List Value) : sortedItems items = items.map sorted := by
  induction items with
  | nil => rfl
  | cons v vs ih => rw [sortedItems, ih, List.map_cons]

theorem sortedMembers_eq_map (members : List (String × Value)) :
    sortedMembers members = members.map fun e => (e.1, sorted e.2) := by
  induction members with
  | nil => rfl
  | cons e ms ih => rw [sortedMembers, ih, List.map_cons]

mutual
theorem sorted_of_wellFormed : ∀ {v : Value}, v.WellFormed → v.sorted = v
  | .null, _ | .bool _, _ | .int _, _ | .float _, _ | .string _, _ => rfl
  | .array items, h => by
    rw [WellFormed] at h
    rw [sorted, sortedItems_of_wellFormed h]
  | .object members, h => by
    rw [WellFormed] at h
    rw [sorted, sortedMembers_of_wellFormed h.2, Entries.ofList_of_sorted h.1]

theorem sortedItems_of_wellFormed : ∀ {items : List Value}, WellFormedItems items →
    sortedItems items = items
  | [], _ => rfl
  | v :: vs, h => by
    rw [WellFormedItems] at h
    rw [sortedItems, sorted_of_wellFormed h.1, sortedItems_of_wellFormed h.2]

theorem sortedMembers_of_wellFormed : ∀ {members : List (String × Value)},
    WellFormedMembers members → sortedMembers members = members
  | [], _ => rfl
  | (k, v) :: ms, h => by
    rw [WellFormedMembers] at h
    rw [sortedMembers, sorted_of_wellFormed h.1, sortedMembers_of_wellFormed h.2]
end

end Value

/-- Members may stay where they are. -/
theorem Arrangement.declared : Arrangement id where
  leaf := fun _ => rfl
  array := by simp
  object := fun {members} _ => ⟨members, rfl, by simp⟩
  ordered := fun _ => rfl

/-- Members may be put in key order. -/
theorem Arrangement.sorted : Arrangement Value.sorted where
  leaf := fun {v} h => by
    cases v with
    | array => cases h
    | object => cases h
    | _ => rfl
  array := fun {items} => by rw [Value.sorted, Value.sortedItems_eq_map]
  object := fun {members} hnodup => by
    refine ⟨_, by rw [Value.sorted], ?_⟩
    rw [Value.sortedMembers_eq_map]
    refine Entries.ofList_perm ?_
    rw [List.map_map]
    exact hnodup
  ordered := Value.sorted_of_wellFormed

/-- What stands under a key does not depend on the order of the entries. -/
theorem Entries.get?_of_perm {α : Type} {xs ys : List (String × α)} (h : xs.Perm ys)
    (hnodup : (ys.map (·.1)).Nodup) (key : String) : get? key xs = get? key ys := by
  have hnodup' : (xs.map (·.1)).Nodup := (h.map (·.1)).nodup_iff.mpr hnodup
  cases hfound : get? key ys with
  | some v => exact get?_of_mem_of_nodup hnodup' (h.mem_iff.mpr (mem_of_get? hfound))
  | none =>
    rw [get?_eq_none_iff] at hfound ⊢
    rwa [(h.map (·.1)).mem_iff]

namespace Arrangement

variable {arrange : Value → Value} (h : Arrangement arrange)

include h

theorem string (s : String) : arrange (.string s) = .string s := h.leaf rfl

theorem bool (b : Bool) : arrange (.bool b) = .bool b := h.leaf rfl

theorem ofText? (text : Option String) : arrange (.ofText? text) = .ofText? text :=
  h.ordered (Value.ofText?_wellFormed text)

theorem ofTexts (texts : List String) : arrange (.ofTexts texts) = .ofTexts texts := by
  refine h.ordered (Value.wellFormedItems_of_forall fun v hv => ?_)
  obtain ⟨text, -, rfl⟩ := List.mem_map.mp hv
  trivial

/-- A record is read from the object of its fields, however that is arranged. -/
theorem record {names : List String} {strict : Bool} {members : List (String × Value)}
    (hnodup : (members.map (·.1)).Nodup) (hknown : ∀ e ∈ members, e.1 ∈ names) {α : Type}
    {read : Record → Option α} {a? : Option α}
    (hread : ∀ r, (∀ name, Entries.get? name r.present =
      (Entries.get? name members).map fun v => Datum.ofValue (arrange v)) → read r = a?) :
    (Record.of? names strict (Datum.ofValue (arrange (.object members)))).bind read = a? := by
  obtain ⟨members', hobject, hperm⟩ := h.object hnodup
  have hkeys : ((members.map fun e => (e.1, arrange e.2)).map (·.1)).Nodup := by
    rw [List.map_map]
    exact hnodup
  rw [hobject, Record.of?_ofValue ((hperm.map (·.1)).nodup_iff.mpr hkeys) fun e he => ?_]
  · refine hread _ fun name => ?_
    dsimp only
    rw [Entries.get?_map (f := fun _ v => Datum.ofValue v), Entries.get?_of_perm hperm hkeys,
      Entries.get?_map (f := fun _ v => arrange v), Option.map_map]
    rfl
  · obtain ⟨e', he', rfl⟩ := List.mem_map.mp (hperm.mem_iff.mp he)
    exact hknown e' he'

theorem list? {α : Type} {read : Datum → Option α} {f : α → Value} {items : List α}
    (hread : ∀ a ∈ items, read (Datum.ofValue (arrange (f a))) = some a) :
    Datum.list? read (Datum.ofValue (arrange (.array (items.map f)))) = some items := by
  rw [h.array, List.map_map]
  exact Datum.list?_ofValue hread

theorem dict? {α : Type} {read : Datum → Option α} {write : α → Value} {d : Dict α}
    (hread : ∀ e ∈ d.entries, read (Datum.ofValue (arrange (write e.2))) = some e.2) :
    Datum.dict? read (Datum.ofValue (arrange (.ofDict (d.map fun _ a => write a)))) = some d := by
  obtain ⟨members, hobject, hperm⟩ := h.object (d.map fun _ a => write a).sorted.nodup_keys
  -- Whatever the order of the members, they are the entries in some order.
  obtain ⟨entries, rfl, hentries⟩ : ∃ entries : List (String × α),
      members = entries.map (fun e => (e.1, arrange (write e.2))) ∧ entries.Perm d.entries := by
    have hmap : (d.map fun _ a => write a).entries.map (fun e => (e.1, arrange e.2)) =
        d.entries.map fun e => (e.1, arrange (write e.2)) := by
      unfold Dict.map
      rw [List.map_map]
      rfl
    rw [hmap] at hperm
    exact (congrFun (congrFun (List.eq_map_comp_perm _) members) d.entries).mpr hperm
  unfold Value.ofDict
  rw [hobject]
  show Option.bind (List.mapM (fun p : Datum × Datum => do
    return (← Datum.text? p.1, ← read p.2)) (Datum.ofMembers (entries.map
      fun e : String × α => (e.1, arrange (write e.2))))) _ = some d
  rw [Datum.mapM_ofMembers (f := fun a => arrange (write a)) fun e he =>
    hread e (hentries.mem_iff.mp he)]
  exact congrArg some (Dict.ext (Entries.ofList_eq_of_perm d.sorted hentries))

end Arrangement

end PageBlocks
