/-!
# Dictionaries with text keys

Everything that is looked up by name here (members of an object, registered
blocks, entries of an index, stored renderings) is a list of key and value
pairs in ascending key order, the order in which such a collection is walked
and written. `Entries` holds the operations on the bare list, which also serve
the members of an object inside `Value`; `Dict` carries the order as a fact of
the type, so two dictionaries with the same contents are equal.

Keys compare by code point, which is the order of their UTF-8 bytes.
-/

namespace PageBlocks

universe u v

namespace Entries

variable {α : Type u} {β : Type v}

/-- The value under a key. -/
def get? (key : String) : List (String × α) → Option α
  | [] => none
  | (k, v) :: rest => if k = key then some v else get? key rest

/-- Puts a value under a key, in place of the value that was there. -/
def insert (key : String) (value : α) : List (String × α) → List (String × α)
  | [] => [(key, value)]
  | (k, v) :: rest =>
    if key < k then (key, value) :: (k, v) :: rest
    else if key = k then (key, value) :: rest
    else (k, v) :: insert key value rest

/-- Drops the value under a key. -/
def erase (key : String) (entries : List (String × α)) : List (String × α) :=
  entries.filter fun entry => entry.1 ≠ key

/-- Pairs put in one after the other: the last of several with one key stays. -/
def ofList (pairs : List (String × α)) : List (String × α) :=
  pairs.foldl (fun entries pair => insert pair.1 pair.2 entries) []

/-- Keys strictly ascend. -/
def Sorted (entries : List (String × α)) : Prop :=
  entries.Pairwise fun a b => a.1 < b.1

instance (entries : List (String × α)) : Decidable (Sorted entries) :=
  inferInstanceAs (Decidable (entries.Pairwise fun a b => a.1 < b.1))

theorem sorted_nil : Sorted ([] : List (String × α)) := List.Pairwise.nil

theorem lt_of_not_lt_of_ne {a b : String} (h : ¬a < b) (hne : a ≠ b) : b < a := by
  rcases Decidable.em (b < a) with hlt | hnlt
  · exact hlt
  · exact absurd (String.le_antisymm (String.not_lt.1 hnlt) (String.not_lt.1 h)) hne

theorem mem_insert {key : String} {value : α} {entry : String × α} :
    ∀ {entries : List (String × α)}, entry ∈ insert key value entries →
      entry = (key, value) ∨ entry ∈ entries
  | [], h => by simpa [insert] using h
  | (k, v) :: rest, h => by
    unfold insert at h
    split at h
    next => simpa using h
    next =>
      split at h
      next =>
        rcases List.mem_cons.1 h with h | h
        · exact Or.inl h
        · exact Or.inr (List.mem_cons_of_mem _ h)
      next =>
        rcases List.mem_cons.1 h with h | h
        · exact Or.inr (h ▸ List.mem_cons_self ..)
        · rcases mem_insert h with h | h
          · exact Or.inl h
          · exact Or.inr (List.mem_cons_of_mem _ h)

theorem sorted_insert (key : String) (value : α) :
    ∀ {entries : List (String × α)}, Sorted entries → Sorted (insert key value entries)
  | [], _ => List.pairwise_singleton ..
  | (k, v) :: rest, h => by
    have hrest : Sorted rest := (List.pairwise_cons.1 h).2
    have hk : ∀ b ∈ rest, k < b.1 := (List.pairwise_cons.1 h).1
    unfold insert
    split
    next hlt =>
      refine List.pairwise_cons.2 ⟨fun b hb => ?_, h⟩
      rcases List.mem_cons.1 hb with rfl | hb
      · exact hlt
      · exact String.lt_trans hlt (hk b hb)
    next hnlt =>
      split
      next heq => exact List.pairwise_cons.2 ⟨fun b hb => heq ▸ hk b hb, hrest⟩
      next hne =>
        refine List.pairwise_cons.2 ⟨fun b hb => ?_, sorted_insert key value hrest⟩
        rcases mem_insert hb with rfl | hb
        · exact lt_of_not_lt_of_ne hnlt hne
        · exact hk b hb

theorem sorted_erase (key : String) {entries : List (String × α)} (h : Sorted entries) :
    Sorted (erase key entries) :=
  List.Pairwise.sublist List.filter_sublist h

theorem sorted_foldl_insert (pairs : List (String × α)) :
    ∀ {entries : List (String × α)}, Sorted entries →
      Sorted (pairs.foldl (fun entries pair => insert pair.1 pair.2 entries) entries) := by
  induction pairs with
  | nil => exact fun h => h
  | cons pair rest ih => exact fun h => ih (sorted_insert _ _ h)

theorem sorted_ofList (pairs : List (String × α)) : Sorted (ofList pairs) :=
  sorted_foldl_insert pairs sorted_nil

theorem sorted_map {f : String → α → β} {entries : List (String × α)} (h : Sorted entries) :
    Sorted (entries.map fun entry => (entry.1, f entry.1 entry.2)) :=
  List.pairwise_map.2 h

@[simp] theorem get?_insert_self (key : String) (value : α) :
    ∀ entries : List (String × α), get? key (insert key value entries) = some value
  | [] => by simp [insert, get?]
  | (k, v) :: rest => by
    unfold insert
    split
    next => simp [get?]
    next =>
      split
      next => simp [get?]
      next hne => simp [get?, Ne.symm hne, get?_insert_self key value rest]

theorem get?_insert_of_ne {key other : String} (value : α) (hne : other ≠ key) :
    ∀ entries : List (String × α), get? other (insert key value entries) = get? other entries
  | [] => by simp [insert, get?, Ne.symm hne]
  | (k, v) :: rest => by
    unfold insert
    split
    next => simp [get?, Ne.symm hne]
    next =>
      split
      next heq => simp [get?, ← heq, Ne.symm hne]
      next => simp [get?, get?_insert_of_ne value hne rest]

end Entries

/-- A dictionary: entries whose keys strictly ascend. -/
structure Dict (α : Type u) where
  entries : List (String × α)
  sorted : Entries.Sorted entries

namespace Dict

variable {α : Type u} {β : Type v}

@[ext] theorem ext {d e : Dict α} (h : d.entries = e.entries) : d = e := by
  cases d; cases e; cases h; rfl

instance [DecidableEq α] : DecidableEq (Dict α) := fun d e =>
  decidable_of_iff (d.entries = e.entries) ⟨ext, fun h => h ▸ rfl⟩

instance [BEq α] : BEq (Dict α) := ⟨fun d e => d.entries == e.entries⟩

/-- The dictionary without entries. -/
def empty : Dict α := ⟨[], Entries.sorted_nil⟩

instance : Inhabited (Dict α) := ⟨empty⟩

/-- The value under a key. -/
def get? (d : Dict α) (key : String) : Option α := Entries.get? key d.entries

/-- Whether a key has a value. -/
def contains (d : Dict α) (key : String) : Bool := (d.get? key).isSome

/-- Puts a value under a key, in place of the value that was there. -/
def insert (d : Dict α) (key : String) (value : α) : Dict α :=
  ⟨Entries.insert key value d.entries, Entries.sorted_insert key value d.sorted⟩

/-- Drops the value under a key. -/
def erase (d : Dict α) (key : String) : Dict α :=
  ⟨Entries.erase key d.entries, Entries.sorted_erase key d.sorted⟩

/-- The dictionary of some pairs; the last of several with one key stays. -/
def ofList (pairs : List (String × α)) : Dict α :=
  ⟨Entries.ofList pairs, Entries.sorted_ofList pairs⟩

/-- Applies a function to every entry. -/
def map (f : String → α → β) (d : Dict α) : Dict β :=
  ⟨d.entries.map fun entry => (entry.1, f entry.1 entry.2), Entries.sorted_map d.sorted⟩

/-- The keys, ascending. -/
def keys (d : Dict α) : List String := d.entries.map (·.1)

/-- The values, by ascending key. -/
def values (d : Dict α) : List α := d.entries.map (·.2)

/-- The number of entries. -/
def size (d : Dict α) : Nat := d.entries.length

/-- Whether there is no entry. -/
def isEmpty (d : Dict α) : Bool := d.entries.isEmpty

@[simp] theorem get?_insert_self (d : Dict α) (key : String) (value : α) :
    (d.insert key value).get? key = some value :=
  Entries.get?_insert_self key value d.entries

theorem get?_insert_of_ne (d : Dict α) {key other : String} (value : α) (hne : other ≠ key) :
    (d.insert key value).get? other = d.get? other :=
  Entries.get?_insert_of_ne value hne d.entries

@[simp] theorem get?_empty (key : String) : (empty : Dict α).get? key = none := rfl

end Dict

end PageBlocks
