import PageBlocks.Proofs.Json.Spelling
import PageBlocks.Proofs.Value

/-!
# Compact texts are read back

The machine that takes the tokens of a value ends with that value, with the
members of its objects in order, as long as it is not nested too deeply.

> `read?_compact`: what the compact text of a value is read as.

So texts come back as they are, and a well-formed value comes back as it is if
its numbers do.
-/

namespace PageBlocks

namespace Value

mutual
/-- A value with the members of every object put in order. -/
def ordered : Value → Value
  | .array items => .array (orderedItems items)
  | .object members => .ofMembers (orderedMembers members)
  | v => v

def orderedItems : List Value → List Value
  | [] => []
  | v :: rest => ordered v :: orderedItems rest

def orderedMembers : List (String × Value) → List (String × Value)
  | [] => []
  | (k, v) :: rest => (k, ordered v) :: orderedMembers rest
end

theorem orderedMembers_eq_map (members : List (String × Value)) :
    orderedMembers members = members.map fun e => (e.1, e.2.ordered) := by
  induction members with
  | nil =>
    rw [orderedMembers]
    rfl
  | cons e rest ih => rw [orderedMembers, ih, List.map_cons]

mutual
/-- Well-formed values are in order. -/
theorem ordered_of_wellFormed : ∀ {v : Value}, v.WellFormed → v.ordered = v
  | .array items, h => by
    rw [ordered, orderedItems_of_wellFormed h]
  | .object members, h => by
    rw [ordered, orderedMembers_of_wellFormed h.2, ofMembers, Entries.ofList_of_sorted h.1]
  | .null, _ | .bool _, _ | .int _, _ | .float _, _ | .string _, _ => by
    unfold ordered
    rfl

theorem orderedItems_of_wellFormed : ∀ {items : List Value}, WellFormedItems items →
    orderedItems items = items
  | [], _ => by rw [orderedItems]
  | v :: rest, h => by
    rw [orderedItems, ordered_of_wellFormed h.1, orderedItems_of_wellFormed h.2]

theorem orderedMembers_of_wellFormed : ∀ {members : List (String × Value)},
    WellFormedMembers members → orderedMembers members = members
  | [], _ => by rw [orderedMembers]
  | (k, v) :: rest, h => by
    rw [orderedMembers, ordered_of_wellFormed h.1, orderedMembers_of_wellFormed h.2]
end

end Value

namespace JsonText

/-- The state after some tokens. -/
abbrev run (s : State) (tokens : List Token) : Option State := tokens.foldlM State.step s

theorem run_cons (s : State) (t : Token) (rest : List Token) :
    run s (t :: rest) = (s.step t).bind fun next => run next rest := by
  rw [run, List.foldlM_cons]
  rfl

/-- Both of two parts fit where the deeper one does. -/
theorem fits_both {α : Type} {a b c d : Nat} {x : Option α} (h : c ≤ d ↔ a ≤ d ∧ b ≤ d) :
    (if a ≤ d then if b ≤ d then x else none else none) = if c ≤ d then x else none := by
  by_cases hc : c ≤ d
  · obtain ⟨ha, hb⟩ := h.mp hc
    rw [if_pos hc, if_pos ha, if_pos hb]
  · rw [if_neg hc]
    by_cases ha : a ≤ d
    · have hb : ¬b ≤ d := fun hb => hc (h.mpr ⟨ha, hb⟩)
      rw [if_pos ha, if_neg hb]
    · rw [if_neg ha]

/-- An array opens if there is a level left. -/
theorem run_openArray {mayClose : Bool} {stack : List Frame} (rest : List Token) :
    run (.value mayClose stack) (.openArray :: rest) =
      if stack.length + 1 ≤ maxDepth then run (.value true (.array [] :: stack)) rest
      else none := by
  rw [run_cons]
  by_cases h : stack.length + 1 ≤ maxDepth
  · rw [State.step, if_pos (show stack.length < maxDepth from h), if_pos h]
    rfl
  · rw [State.step, if_neg (show ¬stack.length < maxDepth from h), if_neg h]
    rfl

/-- An object opens if there is a level left. -/
theorem run_openObject {mayClose : Bool} {stack : List Frame} (rest : List Token) :
    run (.value mayClose stack) (.openObject :: rest) =
      if stack.length + 1 ≤ maxDepth then run (.key true [] stack) rest else none := by
  rw [run_cons]
  by_cases h : stack.length + 1 ≤ maxDepth
  · rw [State.step, if_pos (show stack.length < maxDepth from h), if_pos h]
    rfl
  · rw [State.step, if_neg (show ¬stack.length < maxDepth from h), if_neg h]
    rfl

mutual
/-- The tokens of a value are taken as that value, if it fits into the levels that are left. -/
theorem run_spell :
    ∀ (v : Value) {mayClose : Bool} {stack : List Frame} (later : List Token),
      stack.length ≤ maxDepth →
      run (.value mayClose stack) (spell v ++ later) =
        if stack.length + v.depth ≤ maxDepth then run (.after v.ordered stack) later else none
  | .array [], mayClose, stack, later, hstack => by
    show run _ (.openArray :: .closeArray :: later) = _
    rw [run_openArray, run_cons]
    rfl
  | .array (v :: items), mayClose, stack, later, hstack => by
    rw [spell, List.cons_append, List.append_assoc, run_openArray]
    by_cases hopen : stack.length + 1 ≤ maxDepth
    · -- What the first item leaves is where the others are taken up.
      have hitems := run_spellItems items [] (v := v.ordered) later hopen
      rw [if_pos hopen, run_spell v _ (by exact hopen), hitems, Value.depth, Value.depthItems]
      exact fits_both (by rw [List.length_cons]; omega)
    · rw [if_neg hopen, if_neg (by rw [Value.depth]; omega)]
  | .object [], mayClose, stack, later, hstack => by
    show run _ (.openObject :: .closeObject :: later) = _
    rw [run_openObject, run_cons]
    rfl
  | .object ((k, v) :: members), mayClose, stack, later, hstack => by
    rw [spell, List.cons_append, List.cons_append, List.cons_append, List.append_assoc,
      run_openObject]
    by_cases hopen : stack.length + 1 ≤ maxDepth
    · have hmembers := run_spellMembers members [] (k := k) (v := v.ordered) later hopen
      rw [if_pos hopen, run_cons]
      show run (.colon [] k stack) _ = _
      rw [run_cons]
      show run (.value false (.object [] k :: stack)) _ = _
      rw [run_spell v _ (by exact hopen), hmembers, Value.depth, Value.depthMembers]
      exact fits_both (by rw [List.length_cons]; omega)
    · rw [if_neg hopen, if_neg (by rw [Value.depth]; omega)]
  | .null, mayClose, stack, later, hstack | .bool _, mayClose, stack, later, hstack
  | .int _, mayClose, stack, later, hstack | .float _, mayClose, stack, later, hstack
  | .string _, mayClose, stack, later, hstack => by
    exact Eq.trans rfl (if_pos hstack).symm

theorem run_spellItems :
    ∀ (items done : List Value) {v : Value} {stack : List Frame} (later : List Token),
      stack.length + 1 ≤ maxDepth →
      run (.after v (.array done :: stack)) (spellItems items ++ later) =
        if stack.length + 1 + Value.depthItems items ≤ maxDepth then
          run (.after (.array ((v :: done).reverse ++ Value.orderedItems items)) stack) later
        else none
  | [], done, v, stack, later, hstack => by
    show run _ (.closeArray :: later) = if stack.length + 1 ≤ maxDepth then _ else none
    rw [if_pos hstack, run_cons, Value.orderedItems, List.append_nil]
    rfl
  | w :: items, done, v, stack, later, hstack => by
    have hitems := run_spellItems items (v :: done) (v := w.ordered) later hstack
    rw [spellItems, List.cons_append, List.append_assoc, run_cons]
    show run (.value false (.array (v :: done) :: stack)) _ = _
    rw [run_spell w _ (by exact hstack), hitems, Value.depthItems, Value.orderedItems,
      List.reverse_cons, List.append_assoc]
    exact fits_both (by rw [List.length_cons]; omega)

theorem run_spellMembers :
    ∀ (members done : List (String × Value)) {k : String} {v : Value} {stack : List Frame}
      (later : List Token), stack.length + 1 ≤ maxDepth →
      run (.after v (.object done k :: stack)) (spellMembers members ++ later) =
        if stack.length + 1 + Value.depthMembers members ≤ maxDepth then
          run (.after (.ofMembers (((k, v) :: done).reverse ++ Value.orderedMembers members)) stack)
            later
        else none
  | [], done, k, v, stack, later, hstack => by
    show run _ (.closeObject :: later) = if stack.length + 1 ≤ maxDepth then _ else none
    rw [if_pos hstack, run_cons, Value.orderedMembers, List.append_nil]
    rfl
  | (l, w) :: members, done, k, v, stack, later, hstack => by
    have hmembers := run_spellMembers members ((k, v) :: done) (k := l) (v := w.ordered) later
      hstack
    rw [spellMembers, List.cons_append, List.cons_append, List.cons_append, List.append_assoc,
      run_cons]
    show run (.key false ((k, v) :: done) stack) _ = _
    rw [run_cons]
    show run (.colon ((k, v) :: done) l stack) _ = _
    rw [run_cons]
    show run (.value false (.object ((k, v) :: done) l :: stack)) _ = _
    rw [run_spell w _ (by exact hstack), hmembers, Value.depthMembers, Value.orderedMembers,
      List.reverse_cons, List.append_assoc]
    exact fits_both (by rw [List.length_cons]; omega)
end

mutual
/-- Every token has a character of its own. -/
theorem length_spell_le : ∀ v : Value, (spell v).length ≤ v.compact.toList.length
  | .array [] => by decide
  | .array (v :: items) => by
    have hfirst := length_spell_le v
    have hrest := length_spellItems_le items
    rw [compact_array_cons, spell]
    simp only [List.length_cons, List.length_append, List.length_nil]
    omega
  | .object [] => by decide
  | .object ((k, v) :: members) => by
    have hfirst := length_spell_le v
    have hrest := length_spellMembers_le members
    rw [compact_object_cons, spell, memberText]
    simp only [List.length_cons, List.length_append, List.length_nil, String.toList_append,
      quote_toList]
    omega
  | .null => by decide
  | .bool b => by cases b <;> decide
  | .int n => by
    have htext := (signedNumeral_int n).length_pos
    exact htext
  | .float x => (signedNumeral_float x).length_pos
  | .string s => by
    rw [Value.compact, quote_toList]
    exact Nat.succ_pos _

theorem length_spellItems_le : ∀ items : List Value,
    (spellItems items).length ≤ (itemsText items).length + 1
  | [] => Nat.le_refl _
  | v :: items => by
    have hfirst := length_spell_le v
    have hrest := length_spellItems_le items
    rw [spellItems]
    simp only [itemsText, List.flatMap_cons, List.length_cons, List.length_append] at hrest ⊢
    omega

theorem length_spellMembers_le : ∀ members : List (String × Value),
    (spellMembers members).length ≤ (membersText members).length + 1
  | [] => Nat.le_refl _
  | (k, v) :: members => by
    have hfirst := length_spell_le v
    have hrest := length_spellMembers_le members
    rw [spellMembers]
    simp only [membersText, memberText, List.flatMap_cons, List.length_cons, List.length_append,
      String.toList_append, quote_toList] at hrest ⊢
    omega
end

theorem IsNumber.depth_eq {v : Value} (h : IsNumber v) : v.depth = 0 := by
  cases h <;> rw [Value.depth] <;> exact nofun

mutual
/-- Numbers have no depth, whatever they are read as. -/
theorem depth_renumbered : ∀ {v w : Value}, v.renumbered? = some w → w.depth = v.depth
  | .array items, w, h => by
    rw [Value.renumbered?] at h
    obtain ⟨ws, hws, rfl⟩ := Option.map_eq_some_iff.mp h
    rw [Value.depth, Value.depth, depthItems_renumbered hws]
  | .object members, w, h => by
    rw [Value.renumbered?] at h
    obtain ⟨ws, hws, rfl⟩ := Option.map_eq_some_iff.mp h
    rw [Value.depth, Value.depth, depthMembers_renumbered hws]
  | .int n, w, h => (isNumber_of_readNumber? h).depth_eq
  | .float x, w, h => (isNumber_of_readNumber? h).depth_eq
  | .null, w, h | .bool _, w, h | .string _, w, h => by
    unfold Value.renumbered? at h
    cases h
    rfl

theorem depthItems_renumbered : ∀ {items ws : List Value},
    Value.renumberedItems? items = some ws → Value.depthItems ws = Value.depthItems items
  | [], ws, h => by
    cases h
    rfl
  | v :: items, ws, h => by
    rw [Value.renumberedItems?] at h
    obtain ⟨w, hw, h⟩ := Option.bind_eq_some_iff.mp h
    obtain ⟨us, hus, h⟩ := Option.bind_eq_some_iff.mp h
    cases h
    rw [Value.depthItems, Value.depthItems, depth_renumbered hw, depthItems_renumbered hus]

theorem depthMembers_renumbered : ∀ {members ws : List (String × Value)},
    Value.renumberedMembers? members = some ws →
      Value.depthMembers ws = Value.depthMembers members
  | [], ws, h => by
    cases h
    rfl
  | (k, v) :: members, ws, h => by
    rw [Value.renumberedMembers?] at h
    obtain ⟨w, hw, h⟩ := Option.bind_eq_some_iff.mp h
    obtain ⟨us, hus, h⟩ := Option.bind_eq_some_iff.mp h
    cases h
    rw [Value.depthMembers, Value.depthMembers, depth_renumbered hw, depthMembers_renumbered hus]
end

/-- What the compact text of a value is read as: the value with its numbers as they are read and
its members in order, unless it is nested too deeply. -/
theorem read?_compact (v : Value) :
    read? v.compact =
      if v.depth ≤ maxDepth then v.renumbered?.map Value.ordered else none := by
  have hlength := length_spell_le v
  have hfuel : v.compact.toList.length + 1 =
      v.compact.toList.length + 1 - (spell v).length + (spell v).length := by omega
  have htokens := tokens?_compact v (v.compact.toList.length + 1 - (spell v).length) (Or.inl rfl)
  rw [List.append_nil, ← hfuel] at htokens
  have hnone : ∀ count, tokens? count [] = some [] := by
    intro count
    cases count <;> rfl
  unfold read?
  dsimp only
  rw [htokens, hnone]
  cases hread : v.renumbered? with
  | none => split <;> rfl
  | some w =>
    have hrun : run (.value false []) (spell w ++ []) =
        if 0 + w.depth ≤ maxDepth then run (.after w.ordered []) [] else none :=
      run_spell w [] (Nat.zero_le maxDepth)
    rw [depth_renumbered hread, Nat.zero_add] at hrun
    simp only [Option.bind_eq_bind, Option.bind_some, Option.map_some]
    rw [show List.foldlM State.step _ _ = _ from hrun]
    split <;> rfl

end JsonText

end PageBlocks
