import PageBlocks.Proofs.Entries
import PageBlocks.Proofs.Joined
import PageBlocks.Proofs.Name
import PageBlocks.Rows.Rehydrate

/-!
# Paths of stored forms

Stored forms are recorded under paths: the group, the field, then positions and
names of sub-fields, joined by dots. A name has no dot and neither has a
position, so what is recorded below one field never stands in the way of what
is recorded below another.

> `last?_flatMap`: among the records of several parts, those below the base of
> one part are its own.

From this every part of a row finds in the envelope just what it recorded
(`Agrees`).
-/

namespace PageBlocks

/-- A path that is a base or continues it behind a dot. -/
def Under (base path : String) : Prop := path = base ∨ ∃ rest, path = base ++ "." ++ rest

namespace Under

theorem refl (base : String) : Under base base := Or.inl rfl

/-- A path below a longer base is below the shorter one. -/
theorem of_append {base name path : String} (h : Under (base ++ "." ++ name) path) :
    Under base path :=
  Continues.of_longer h

/-- Below two bases that differ in one dotless name there is no common path. -/
theorem name_eq (lead : String) {a b path : String} (ha : '.' ∉ a.toList) (hb : '.' ∉ b.toList)
    (h : Under (lead ++ a) path) (h' : Under (lead ++ b) path) : a = b :=
  Continues.piece_eq (c := '.') rfl ha hb h h'

end Under

/-- Positions are written without dots. -/
theorem dot_not_mem_toString (n : Nat) : '.' ∉ (toString n).toList :=
  not_mem_toString (by decide) n

theorem fieldPath_subTrail (group : Option FieldGroup) (trail name : String) :
    fieldPath group (subTrail trail name) = fieldPath group trail ++ "." ++ name := by
  cases group with
  | none => rfl
  | some g => simp only [fieldPath, subTrail, String.append_assoc]

theorem fieldPath_rowTrail (group : Option FieldGroup) (trail : String) (position : Nat) :
    fieldPath group (rowTrail trail position) =
      fieldPath group trail ++ "." ++ toString position :=
  fieldPath_subTrail group trail (toString position)

/-- What lies below a trail lies below it behind the group, too. -/
theorem Under.of_trail {group : Option FieldGroup} {trail t : String} (h : Under trail t) :
    Under (fieldPath group trail) (fieldPath group t) := by
  rcases h with rfl | ⟨rest, rfl⟩
  · exact Under.refl _
  · exact Or.inr ⟨rest, by cases group <;> simp only [fieldPath, String.append_assoc]⟩

theorem dot_not_mem_group (g : FieldGroup) : '.' ∉ g.name.toList :=
  not_mem_of_isValidName g.isValidName_name (by decide)

/-- Below two fields of a block there is no common path. -/
theorem Under.field_eq {g g' : FieldGroup} {name name' path : String}
    (hname : '.' ∉ name.toList) (hname' : '.' ∉ name'.toList)
    (h : Under (fieldPath (some g) name) path) (h' : Under (fieldPath (some g') name') path) :
    g = g' ∧ name = name' := by
  have hgroup : Under ("" ++ g.name) path := by
    rw [String.empty_append]
    exact Under.of_append h
  have hgroup' : Under ("" ++ g'.name) path := by
    rw [String.empty_append]
    exact Under.of_append h'
  obtain rfl := FieldGroup.name_injective
    (hgroup.name_eq _ (dot_not_mem_group g) (dot_not_mem_group g') hgroup')
  exact ⟨rfl, Under.name_eq _ hname hname' h h'⟩

/-! ## Records of parts -/

/-- Among the records of several parts, those below the base of one part are its own. -/
theorem last?_flatMap {ι α : Type} {base : ι → String} {records : ι → List (String × α)}
    {path : String} {i : ι} :
    ∀ {parts : List ι}, (∀ j ∈ parts, ∀ r ∈ records j, Under (base j) r.1) →
      parts.Pairwise (fun j k => ∀ p, Under (base j) p → ¬Under (base k) p) →
      i ∈ parts → Under (base i) path →
      Entries.last? path (parts.flatMap records) = Entries.last? path (records i)
  | [], _, _, hi, _ => absurd hi List.not_mem_nil
  | j :: rest, hunder, hapart, hi, hpath => by
    obtain ⟨hfirst, hrest⟩ := List.pairwise_cons.mp hapart
    rw [List.flatMap_cons, Entries.last?_append]
    rcases List.mem_cons.mp hi with rfl | hi
    · have hnone : Entries.last? path (rest.flatMap records) = none := by
        refine Entries.last?_eq_none_iff.mpr fun hmem => ?_
        obtain ⟨r, hr, rfl⟩ := List.mem_map.mp hmem
        obtain ⟨k, hk, hrk⟩ := List.mem_flatMap.mp hr
        exact hfirst k hk _ hpath (hunder k (List.mem_cons_of_mem _ hk) r hrk)
      rw [hnone, Option.none_or]
    · have hnone : Entries.last? path (records j) = none := by
        refine Entries.last?_eq_none_iff.mpr fun hmem => ?_
        obtain ⟨r, hr, rfl⟩ := List.mem_map.mp hmem
        exact hfirst i hi _ (hunder j (List.mem_cons_self ..) r hr) hpath
      rw [hnone, Option.or_none]
      exact last?_flatMap (fun k hk => hunder k (List.mem_cons_of_mem _ hk)) hrest hi hpath

/-- Below a path a dictionary holds what some records say. -/
def Agrees {α : Type} (stored : Dict α) (base : String) (records : List (String × α)) : Prop :=
  ∀ path, Under base path → stored.get? path = Entries.last? path records

/-- A dictionary that agrees with the records of several parts agrees with those of each part. -/
theorem Agrees.of_flatMap {ι α : Type} {stored : Dict α} {whole : String}
    {records : ι → List (String × α)} {parts : List ι} {i : ι}
    (h : Agrees stored whole (parts.flatMap records)) (base : ι → String)
    (hunder : ∀ j ∈ parts, ∀ r ∈ records j, Under (base j) r.1)
    (hapart : parts.Pairwise (fun j k => ∀ p, Under (base j) p → ¬Under (base k) p))
    (hi : i ∈ parts) (hbelow : ∀ p, Under (base i) p → Under whole p) :
    Agrees stored (base i) (records i) := fun path hpath => by
  rw [h path (hbelow path hpath), last?_flatMap hunder hapart hi hpath]

end PageBlocks
