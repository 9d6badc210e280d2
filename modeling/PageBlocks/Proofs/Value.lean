import PageBlocks.Proofs.Entries
import PageBlocks.Datum

/-!
# Laws of values

Equality of values is an equivalence as far as it is needed here: every value
is equal to itself, and equality is symmetric. A well-formed value survives
becoming loosely typed data:

> `toValue?_ofValue`: the datum of a well-formed value is that value again.

Only well-formed values do: an object whose members do not ascend is put in
order on the way back.
-/

namespace PageBlocks

theorem Binary64.same_self (x : Binary64) : x.same x = true := by
  unfold same
  rw [beq_self_eq_true, Bool.or_true]

theorem Binary64.same_comm (x y : Binary64) : x.same y = y.same x := by
  unfold same
  rw [Bool.and_comm, Bool.beq_comm]

namespace Value

/-! ## Parts -/

theorem sizeOf_item {items : List Value} {v : Value} (h : v ∈ items) :
    sizeOf v < sizeOf (array items) := by
  have hitem := List.sizeOf_lt_of_mem h
  simp only [array.sizeOf_spec]
  omega

theorem sizeOf_member {members : List (String × Value)} {e : String × Value}
    (h : e ∈ members) : sizeOf e.2 < sizeOf (object members) := by
  have hmember := List.sizeOf_lt_of_mem h
  obtain ⟨key, v⟩ := e
  simp only [Prod.mk.sizeOf_spec] at hmember
  simp only [object.sizeOf_spec]
  omega

/-- What holds of a value when it holds of all smaller ones holds of every value. -/
theorem below_induction {P : Value → Prop}
    (h : ∀ v, (∀ w, sizeOf w < sizeOf v → P w) → P v) : ∀ v, P v :=
  fun v => (measure sizeOf).wf.induction v h

/-! ## Equality -/

mutual
theorem same_self : ∀ v : Value, same v v = true
  | .null => rfl
  | .bool b => beq_self_eq_true b
  | .int n => beq_self_eq_true n
  | .float x => x.same_self
  | .string s => beq_self_eq_true s
  | .array items => sameItems_self items
  | .object members => sameMembers_self members

theorem sameItems_self : ∀ items : List Value, sameItems items items = true
  | [] => rfl
  | v :: vs => by rw [sameItems, same_self v, sameItems_self vs]; rfl

theorem sameMembers_self : ∀ members : List (String × Value), sameMembers members members = true
  | [] => rfl
  | (k, v) :: ms => by rw [sameMembers, same_self v, sameMembers_self ms, beq_self_eq_true]; rfl
end

mutual
theorem same_comm : ∀ v w : Value, same v w = same w v
  | .null, w => by cases w <;> rfl
  | .bool a, w => by
    cases w with
    | bool b => exact Bool.beq_comm
    | _ => rfl
  | .int a, w => by
    cases w with
    | int b => exact Bool.beq_comm
    | _ => rfl
  | .float x, w => by
    cases w with
    | float y => exact x.same_comm y
    | _ => rfl
  | .string s, w => by
    cases w with
    | string t => exact Bool.beq_comm
    | _ => rfl
  | .array as, w => by
    cases w with
    | array bs => exact sameItems_comm as bs
    | _ => rfl
  | .object as, w => by
    cases w with
    | object bs => exact sameMembers_comm as bs
    | _ => rfl

theorem sameItems_comm : ∀ as bs : List Value, sameItems as bs = sameItems bs as
  | [], [] => rfl
  | [], _ :: _ => rfl
  | _ :: _, [] => rfl
  | a :: as, b :: bs => by rw [sameItems, sameItems, same_comm a b, sameItems_comm as bs]

theorem sameMembers_comm :
    ∀ as bs : List (String × Value), sameMembers as bs = sameMembers bs as
  | [], [] => rfl
  | [], _ :: _ => rfl
  | _ :: _, [] => rfl
  | (k, a) :: as, (l, b) :: bs => by
    rw [sameMembers, sameMembers, same_comm a b, sameMembers_comm as bs, Bool.beq_comm]
end

theorem same_symm {v w : Value} (h : same v w = true) : same w v = true := by
  rw [same_comm]
  exact h

/-- Lists of values are equal item by item. -/
theorem beq_eq_sameItems : ∀ as bs : List Value, (as == bs) = sameItems as bs
  | [], [] => rfl
  | [], _ :: _ => rfl
  | _ :: _, [] => rfl
  | a :: as, b :: bs => by
    rw [List.cons_beq_cons, sameItems, beq_eq_sameItems as bs]
    rfl

/-- Members whose values were each replaced by an equal one. -/
theorem sameMembers_map {f : String × Value → Value} :
    ∀ {members : List (String × Value)}, (∀ e ∈ members, same (f e) e.2 = true) →
      sameMembers (members.map fun e => (e.1, f e)) members = true
  | [], _ => rfl
  | e :: rest, h => by
    rw [List.map_cons, sameMembers, h e (List.mem_cons_self ..),
      sameMembers_map fun e' he' => h e' (List.mem_cons_of_mem _ he'), beq_self_eq_true]
    rfl

/-! ## Well-formed values -/

theorem wellFormed_of_mem_items :
    ∀ {items : List Value}, WellFormedItems items → ∀ v ∈ items, WellFormed v
  | [], _, _, hv => absurd hv List.not_mem_nil
  | w :: ws, h, v, hv => by
    rw [WellFormedItems] at h
    rcases List.mem_cons.mp hv with rfl | hv
    · exact h.1
    · exact wellFormed_of_mem_items h.2 v hv

theorem wellFormed_of_mem_members :
    ∀ {members : List (String × Value)}, WellFormedMembers members →
      ∀ e ∈ members, WellFormed e.2
  | [], _, _, he => absurd he List.not_mem_nil
  | (k, v) :: rest, h, e, he => by
    rw [WellFormedMembers] at h
    rcases List.mem_cons.mp he with rfl | he
    · exact h.1
    · exact wellFormed_of_mem_members h.2 e he

theorem wellFormedItems_of_forall :
    ∀ {items : List Value}, (∀ v ∈ items, WellFormed v) → WellFormedItems items
  | [], _ => trivial
  | v :: vs, h => by
    rw [WellFormedItems]
    exact ⟨h v (List.mem_cons_self ..),
      wellFormedItems_of_forall fun w hw => h w (List.mem_cons_of_mem _ hw)⟩

theorem wellFormedMembers_of_forall :
    ∀ {members : List (String × Value)}, (∀ e ∈ members, WellFormed e.2) →
      WellFormedMembers members
  | [], _ => trivial
  | (k, v) :: rest, h => by
    rw [WellFormedMembers]
    exact ⟨h (k, v) (List.mem_cons_self ..),
      wellFormedMembers_of_forall fun e he => h e (List.mem_cons_of_mem _ he)⟩

mutual
/-- Whether the members of every object ascend. -/
def decidableWellFormed : (v : Value) → Decidable v.WellFormed
  | .array items => decidableWellFormedItems items
  | .object members =>
    @instDecidableAnd _ _ inferInstance (decidableWellFormedMembers members)
  | .null | .bool _ | .int _ | .float _ | .string _ => .isTrue trivial

def decidableWellFormedItems : (items : List Value) → Decidable (WellFormedItems items)
  | [] => .isTrue trivial
  | v :: vs => @instDecidableAnd _ _ (decidableWellFormed v) (decidableWellFormedItems vs)

def decidableWellFormedMembers :
    (members : List (String × Value)) → Decidable (WellFormedMembers members)
  | [] => .isTrue trivial
  | (_, v) :: ms => @instDecidableAnd _ _ (decidableWellFormed v) (decidableWellFormedMembers ms)
end

instance (v : Value) : Decidable v.WellFormed := v.decidableWellFormed

end Value

namespace Datum

open Value

mutual
/-- The datum of a well-formed value is that value again. -/
theorem toValue?_ofValue : ∀ {v : Value}, v.WellFormed → toValue? (ofValue v) = some v
  | .null, _ => rfl
  | .bool _, _ => rfl
  | .int _, _ => rfl
  | .float _, _ => rfl
  | .string _, _ => rfl
  | .array items, h => by
    rw [WellFormed] at h
    rw [ofValue, toValue?, toItems?_ofItems h]
    rfl
  | .object members, h => by
    rw [WellFormed] at h
    rw [ofValue, toValue?, toMembers?_ofMembers h.2]
    show some (Value.ofMembers members) = _
    rw [Value.ofMembers, Entries.ofList_of_sorted h.1]

theorem toItems?_ofItems : ∀ {items : List Value}, WellFormedItems items →
    toItems? (ofItems items) = some items
  | [], _ => rfl
  | v :: vs, h => by
    rw [WellFormedItems] at h
    rw [ofItems, toItems?, toValue?_ofValue h.1, toItems?_ofItems h.2]
    rfl

theorem toMembers?_ofMembers : ∀ {members : List (String × Value)}, WellFormedMembers members →
    toMembers? (ofMembers members) = some members
  | [], _ => rfl
  | (k, v) :: ms, h => by
    rw [WellFormedMembers] at h
    rw [ofMembers, toMembers?, toValue?_ofValue h.1, toMembers?_ofMembers h.2]
    rfl
end

theorem ofMembers_eq_map : ∀ members : List (String × Value),
    ofMembers members = members.map fun e => (.string e.1, ofValue e.2)
  | [] => rfl
  | (k, v) :: ms => by rw [ofMembers, ofMembers_eq_map ms, List.map_cons]

end Datum

end PageBlocks
