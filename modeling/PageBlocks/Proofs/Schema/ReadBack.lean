import PageBlocks.Proofs.Rows.Envelope
import PageBlocks.Proofs.Rows.Placing
import PageBlocks.Proofs.Schema.Recordable
import PageBlocks.Schema.Encode

/-!
# Compiled schemas are read back

What is read from the encoding of a compiled schema, part by part: the records
of an index come back whatever they hold, a field does if it can be recorded
and what it holds comes back.

> `CompiledSchema.rereads`: a schema whose fields can be recorded is read from
> its encoding as it was.

Fields are read to the depth of the datum; each step down takes one from it,
and the encoding of a sub-field or a variant is nested by two less.
-/

namespace PageBlocks

/-! ## Depth and order of encodings -/

namespace Value

theorem depth_lt_of_mem_items :
    ∀ {items : List Value} {v : Value}, v ∈ items → v.depth < (Value.array items).depth
  | w :: ws, v, hv => by
    rw [depth, depthItems]
    rcases List.mem_cons.mp hv with rfl | hv
    · omega
    · have hrest := depth_lt_of_mem_items hv
      rw [depth] at hrest
      omega

theorem depth_lt_of_mem_members :
    ∀ {members : List (String × Value)} {e : String × Value}, e ∈ members →
      e.2.depth < (Value.object members).depth
  | (k, w) :: rest, e, he => by
    rw [depth, depthMembers]
    rcases List.mem_cons.mp he with rfl | he
    · dsimp only
      omega
    · have hrest := depth_lt_of_mem_members he
      rw [depth] at hrest
      omega

theorem depth_ofMembers_pos (pairs : List (String × Value)) : 0 < (ofMembers pairs).depth :=
  Nat.succ_pos _

theorem ofMembers_wellFormed {pairs : List (String × Value)} (h : ∀ e ∈ pairs, e.2.WellFormed) :
    (ofMembers pairs).WellFormed :=
  ⟨Entries.sorted_ofList pairs,
    wellFormedMembers_of_forall fun e he => h e (Entries.mem_ofList he)⟩

theorem ofDict_wellFormed {α : Type} {d : Dict α} {write : String → α → Value}
    (h : ∀ name a, (write name a).WellFormed) : (ofDict (d.map write)).WellFormed := by
  refine ⟨(d.map write).sorted, wellFormedMembers_of_forall fun e he => ?_⟩
  obtain ⟨e, -, rfl⟩ := List.mem_map.mp he
  exact h e.1 e.2

theorem ofText?_wellFormed (text : Option String) : (ofText? text).WellFormed := by
  cases text <;> exact trivial

end Value

namespace Datum

mutual
theorem depth_ofValue : ∀ v : Value, (ofValue v).depth = v.depth
  | .null | .bool _ | .int _ | .float _ | .string _ => rfl
  | .array items => by rw [ofValue, depth, Value.depth, depthItems_ofItems items]
  | .object members => by rw [ofValue, depth, Value.depth, depthMembers_ofMembers members]

theorem depthItems_ofItems :
    ∀ items : List Value, depthItems (ofItems items) = Value.depthItems items
  | [] => rfl
  | v :: vs => by
    rw [ofItems, depthItems, Value.depthItems, depth_ofValue v, depthItems_ofItems vs]

theorem depthMembers_ofMembers :
    ∀ members : List (String × Value), depthMembers (ofMembers members) = Value.depthMembers members
  | [] => rfl
  | (k, v) :: ms => by
    rw [ofMembers, depthMembers, Value.depthMembers, depth_ofValue v, depthMembers_ofMembers ms]
end

theorem list?_ofValue {α : Type} {read : Datum → Option α} {write : α → Value} {items : List α}
    (h : ∀ a ∈ items, read (ofValue (write a)) = some a) :
    list? read (ofValue (.array (items.map write))) = some items := by
  have hmap : ∀ {items : List α}, (∀ a ∈ items, read (ofValue (write a)) = some a) →
      (ofItems (items.map write)).mapM read = some items := by
    intro items
    induction items with
    | nil => exact fun _ => rfl
    | cons a rest ih =>
      intro hall
      rw [List.map_cons, ofItems, List.mapM_cons, hall a (List.mem_cons_self ..),
        ih fun b hb => hall b (List.mem_cons_of_mem _ hb)]
      rfl
  rw [ofValue, list?, hmap h]

theorem option?_ofText? {α : Type} {read : Datum → Option α} {name : α → String} {a? : Option α}
    (h : ∀ a, read (.string (name a)) = some a) :
    option? read (ofValue (.ofText? (a?.map name))) = some a? := by
  cases a? with
  | none => rfl
  | some a =>
    show (read (.string (name a))).map some = _
    rw [h]
    rfl

end Datum

/-! ## Names -/

theorem EntityType.ofName?_name (type : EntityType) :
    EntityType.ofName? type.name = some type := by
  cases type <;> decide

/-! ## Small records -/

theorem LogicRule.ofDatum?_toValue (r : LogicRule) :
    ofDatum? (Datum.ofValue r.toValue) = some r := by
  unfold ofDatum? toValue
  rw [Record.of?_ofMembers (by simp)]
  simp [Record.need?, Entries.get?_map_ofValue, Entries.last?, Datum.ofValue, Datum.text?]

theorem Wrapper.ofDatum?_toValue (w : Wrapper) : ofDatum? (Datum.ofValue w.toValue) = some w := by
  unfold ofDatum? toValue
  rw [Record.of?_ofMembers (by simp)]
  simp [Record.orElse?, Entries.get?_map_ofValue, Entries.last?, Datum.ofValue, Datum.text?]

theorem LocationRule.ofDatum?_toValue (r : LocationRule) :
    ofDatum? (Datum.ofValue r.toValue) = some r := by
  unfold ofDatum? toValue
  rw [Record.of?_ofMembers (by simp)]
  simp [Record.need?, Entries.get?_map_ofValue, Entries.last?, Datum.ofValue, Datum.text?]

theorem EntityRef.ofDatum?_toValue (e : EntityRef) :
    ofDatum? (Datum.ofValue e.toValue) = some e := by
  unfold ofDatum? toValue
  rw [Record.of?_ofMembers (by simp)]
  simp [Record.need?, Entries.get?_map_ofValue, Entries.last?, Datum.ofValue, Datum.text?,
    Datum.choice?, EntityType.ofName?_name]

theorem NodeType.ofDatum?_toValue (t : NodeType) : ofDatum? (Datum.ofValue t.toValue) = some t := by
  cases t with
  | layout => decide
  | block => decide
  | field kind =>
    show (do
      let r ← Record.of? ["node", "type"] false
        (Datum.ofValue (.ofMembers [("node", .string "field"), ("type", .string kind.name)]))
      ofParts? (← r.need? "node" (Datum.choice? some)) (Entries.get? "type" r.present)) = _
    rw [Record.of?_ofMembers (by simp)]
    simp [Record.need?, Entries.get?_map_ofValue, Entries.last?, Datum.ofValue, Datum.choice?,
      ofParts?, FieldKind.ofName?_name]

/-- Logic without empty clauses is read back, also where there is none. -/
theorem ConditionalLogic.ofDatum?_toValue {logic : ConditionalLogic} (h : [] ∉ logic.clauses) :
    ofDatum? (Datum.ofValue logic.toValue) = some logic := by
  unfold toValue
  cases hempty : logic.isEmpty with
  | true =>
    have hclauses : logic.clauses = [] := List.isEmpty_iff.mp hempty
    rw [if_pos rfl]
    cases logic
    cases hclauses
    rfl
  | false =>
    rw [if_neg (by decide)]
    have hread : Datum.list? (Datum.list? LogicRule.ofDatum?)
        (Datum.ofValue logic.clausesValue) = some logic.clauses :=
      Datum.list?_ofValue fun clause _ =>
        Datum.list?_ofValue fun rule _ => LogicRule.ofDatum?_toValue rule
    unfold ofDatum?
    rw [hread]
    have hkept : logic.clauses.filter (fun clause => !clause.isEmpty) = logic.clauses := by
      refine List.filter_eq_self.mpr fun clause hclause => ?_
      cases clause with
      | nil => exact absurd hclause h
      | cons => rfl
    show some (ConditionalLogic.mk (logic.clauses.filter fun clause => !clause.isEmpty)) = _
    rw [hkept]

theorem LogicRule.toValue_wellFormed (r : LogicRule) : r.toValue.WellFormed := by
  refine Value.ofMembers_wellFormed ?_
  simp only [List.forall_mem_cons, List.not_mem_nil]
  exact ⟨trivial, trivial, trivial, nofun⟩

theorem Wrapper.toValue_wellFormed (w : Wrapper) : w.toValue.WellFormed := by
  refine Value.ofMembers_wellFormed ?_
  simp only [List.forall_mem_cons, List.not_mem_nil]
  exact ⟨trivial, trivial, trivial, nofun⟩

theorem LocationRule.toValue_wellFormed (r : LocationRule) : r.toValue.WellFormed := by
  refine Value.ofMembers_wellFormed ?_
  simp only [List.forall_mem_cons, List.not_mem_nil]
  exact ⟨trivial, trivial, trivial, nofun⟩

theorem EntityRef.toValue_wellFormed (e : EntityRef) : e.toValue.WellFormed := by
  refine Value.ofMembers_wellFormed ?_
  simp only [List.forall_mem_cons, List.not_mem_nil]
  exact ⟨trivial, trivial, nofun⟩

theorem NodeType.toValue_wellFormed (t : NodeType) : t.toValue.WellFormed := by
  cases t <;> refine Value.ofMembers_wellFormed ?_ <;>
    simp only [List.forall_mem_cons, List.not_mem_nil]
  · exact ⟨trivial, nofun⟩
  · exact ⟨trivial, nofun⟩
  · exact ⟨trivial, trivial, nofun⟩

theorem ConditionalLogic.toValue_wellFormed (logic : ConditionalLogic) :
    logic.toValue.WellFormed := by
  unfold toValue
  split
  next => exact trivial
  next =>
    refine Value.wellFormedItems_of_forall fun v hv => ?_
    obtain ⟨clause, -, rfl⟩ := List.mem_map.mp hv
    refine Value.wellFormedItems_of_forall fun v hv => ?_
    obtain ⟨rule, -, rfl⟩ := List.mem_map.mp hv
    exact rule.toValue_wellFormed

/-! ## The index -/

theorem IndexEntry.ofDatum?_toValue (e : IndexEntry) :
    ofDatum? (Datum.ofValue e.toValue) = some e := by
  have hgroup : Datum.option? FieldGroup.ofDatum?
      (Datum.ofValue (.ofText? (e.group.map FieldGroup.name))) = some e.group :=
    Datum.option?_ofText? FieldGroup.ofName?_name
  have htext : ∀ text : Option String,
      Datum.option? Datum.text? (Datum.ofValue (.ofText? text)) = some text := by
    intro text
    cases text <;> rfl
  unfold ofDatum? toValue
  rw [Record.of?_ofMembers (by simp [memberNames])]
  simp [Record.need?, Record.nullable?, Entries.get?_map_ofValue, Entries.last?,
    EntityRef.ofDatum?_toValue, NodeType.ofDatum?_toValue, hgroup, htext, Datum.ofValue,
    Datum.text?, Datum.flag?]

theorem FlatIndex.ofDatum?_toValue (index : FlatIndex) :
    ofDatum? (Datum.ofValue index.toValue) = some index := by
  have hentries : Datum.dict? IndexEntry.ofDatum?
      (Datum.ofValue (.ofDict (index.entries.map fun _ e => e.toValue))) = some index.entries :=
    Datum.dict?_ofValue fun e _ => IndexEntry.ofDatum?_toValue e.2
  have hids : ∀ ids : Dict String, Datum.dict? Datum.text?
      (Datum.ofValue (.ofDict (ids.map fun _ id => .string id))) = some ids := fun ids =>
    Datum.dict?_ofValue fun _ _ => rfl
  have hchildren : Datum.dict? (Datum.dict? Datum.text?)
      (Datum.ofValue (.ofDict (index.children.map fun _ slots =>
        .ofDict (slots.map fun _ id => .string id)))) = some index.children :=
    Datum.dict?_ofValue fun e _ => hids e.2
  unfold ofDatum? toValue
  rw [Record.of?_ofMembers (by simp)]
  simp [Record.need?, Record.orElse?, Entries.get?_map_ofValue, Entries.last?, hentries, hchildren,
    hids]

theorem IndexEntry.toValue_wellFormed (e : IndexEntry) : e.toValue.WellFormed := by
  refine Value.ofMembers_wellFormed ?_
  simp only [List.forall_mem_cons, List.not_mem_nil]
  exact ⟨trivial, trivial, e.entity.toValue_wellFormed, Value.ofText?_wellFormed _,
    e.node.toValue_wellFormed, Value.ofText?_wellFormed _, Value.ofText?_wellFormed _, trivial,
    Value.ofText?_wellFormed _, nofun⟩

theorem FlatIndex.toValue_wellFormed (index : FlatIndex) : index.toValue.WellFormed := by
  have hids : ∀ ids : Dict String, (Value.ofDict (ids.map fun _ id => .string id)).WellFormed :=
    fun _ => Value.ofDict_wellFormed fun _ _ => trivial
  refine Value.ofMembers_wellFormed ?_
  simp only [List.forall_mem_cons, List.not_mem_nil]
  exact ⟨Value.ofDict_wellFormed fun _ e => e.toValue_wellFormed,
    Value.ofDict_wellFormed fun _ slots => hids slots, hids _, hids _, nofun⟩

/-! ## Fields and variants -/

namespace FieldNode

theorem toValues_eq_map : ∀ nodes : List FieldNode, toValues nodes = nodes.map toValue
  | [] => by rw [toValues]; rfl
  | node :: rest => by rw [toValues, toValues_eq_map rest, List.map_cons]

end FieldNode

theorem BlockNode.toMembers_eq_map : ∀ variants : List (String × BlockNode),
    toMembers variants = variants.map fun v => (v.1, v.2.toValue)
  | [] => by rw [toMembers]; rfl
  | (_, _) :: rest => by rw [toMembers, toMembers_eq_map rest, List.map_cons]

namespace FieldNode

/-- The members of a field that stand before its options. -/
def leadingPairs (n : FieldNode) : List (String × Value) :=
  [("key", .string n.key), ("label", .string n.label), ("name", .string n.name),
    ("type", .string n.kind.name), ("instructions", .string n.instructions),
    ("required", .int n.required), ("conditional_logic", n.logic.toValue),
    ("wrapper", n.wrapper.toValue)]

/-- What a field holds, where it holds anything. -/
def heldPairs (n : FieldNode) : List (String × Value) :=
  (if n.subFields.isEmpty then [] else [("sub_fields", .array (n.subFields.map toValue))]) ++
    if n.layouts.isEmpty then []
    else [("layouts", .object (n.layouts.map fun v => (v.1, v.2.toValue)))]

def pairs (n : FieldNode) : List (String × Value) :=
  n.leadingPairs ++ n.options.entries ++ n.heldPairs

theorem toValue_eq (n : FieldNode) : n.toValue = .ofMembers n.pairs := by
  obtain ⟨key, label, name, kind, instructions, required, logic, wrapper, options, subFields,
    layouts⟩ := n
  cases subFields <;> cases layouts <;>
    simp [toValue, pairs, leadingPairs, heldPairs, toValues_eq_map, BlockNode.toMembers_eq_map]

theorem leadingPairs_known (n : FieldNode) : ∀ e ∈ n.leadingPairs, e.1 ∈ memberNames := by
  simp [leadingPairs, memberNames]

theorem heldPairs_known (n : FieldNode) : ∀ e ∈ n.heldPairs, e.1 ∈ memberNames := by
  unfold heldPairs
  cases n.subFields.isEmpty <;> cases n.layouts.isEmpty <;> simp [memberNames]

theorem last?_eq_none_of_known {pairs : List (String × Value)}
    (h : ∀ e ∈ pairs, e.1 ∈ memberNames) {name : String} (hname : name ∉ memberNames) :
    Entries.last? name pairs = none := by
  refine Entries.last?_eq_none_iff.mpr fun hmem => ?_
  obtain ⟨e, he, rfl⟩ := List.mem_map.mp hmem
  exact hname (h e he)

/-- A member is found among the members, whatever the options are. -/
theorem Recordable.last?_pairs {n : FieldNode} (h : n.Recordable) {name : String}
    (hname : name ∈ memberNames) : Entries.last? name n.pairs =
      (Entries.last? name n.heldPairs).or (Entries.last? name n.leadingPairs) := by
  have hno : Entries.last? name n.options.entries = none := by
    refine Entries.last?_eq_none_iff.mpr fun hmem => ?_
    obtain ⟨e, he, rfl⟩ := List.mem_map.mp hmem
    exact (h.options e.1 e.2 (Dict.mem_entries_iff.mp he)).1 hname
  rw [pairs, Entries.last?_append, Entries.last?_append, hno, Option.none_or]

/-- The members of the encoding that are no members of a field are its options. -/
theorem Recordable.options_eq {n : FieldNode} (h : n.Recordable) :
    (Entries.ofList n.pairs).filter (fun e => !memberNames.contains e.1) = n.options.entries := by
  refine Entries.Sorted.ext (List.Pairwise.sublist List.filter_sublist (Entries.sorted_ofList _))
    n.options.sorted fun e => ?_
  rw [List.mem_filter, Bool.not_eq_true', List.contains_eq_mem, decide_eq_false_iff_not]
  have hlast : e.1 ∉ memberNames →
      Entries.get? e.1 (Entries.ofList n.pairs) = Entries.get? e.1 n.options.entries := by
    intro hname
    rw [Entries.get?_ofList, pairs, Entries.last?_append, Entries.last?_append,
      last?_eq_none_of_known n.heldPairs_known hname,
      last?_eq_none_of_known n.leadingPairs_known hname, Option.none_or, Option.or_none,
      Entries.last?_of_nodup n.options.sorted.nodup_keys]
  constructor
  · rintro ⟨he, hname⟩
    refine Entries.mem_of_get? ?_
    rw [← hlast hname]
    exact (Entries.sorted_ofList _).get?_of_mem he
  · intro he
    have hname : e.1 ∉ memberNames := (h.options e.1 e.2 (Dict.mem_entries_iff.mp he)).1
    refine ⟨Entries.mem_of_get? ?_, hname⟩
    rw [hlast hname]
    exact n.options.sorted.get?_of_mem he

/-- Each member of a field stands under its name; nothing stands for what it does not hold. -/
theorem Recordable.find_pairs {n : FieldNode} (h : n.Recordable) :
    Entries.last? "key" n.pairs = some (.string n.key) ∧
      Entries.last? "label" n.pairs = some (.string n.label) ∧
      Entries.last? "name" n.pairs = some (.string n.name) ∧
      Entries.last? "type" n.pairs = some (.string n.kind.name) ∧
      Entries.last? "instructions" n.pairs = some (.string n.instructions) ∧
      Entries.last? "required" n.pairs = some (.int n.required) ∧
      Entries.last? "conditional_logic" n.pairs = some n.logic.toValue ∧
      Entries.last? "wrapper" n.pairs = some n.wrapper.toValue ∧
      (Entries.last? "sub_fields" n.pairs =
        if n.subFields.isEmpty then none else some (.array (n.subFields.map toValue))) ∧
      Entries.last? "layouts" n.pairs =
        if n.layouts.isEmpty then none
        else some (.object (n.layouts.map fun v => (v.1, v.2.toValue))) := by
  refine ⟨?_, ?_, ?_, ?_, ?_, ?_, ?_, ?_, ?_, ?_⟩ <;> rw [h.last?_pairs (by decide)] <;>
    unfold heldPairs leadingPairs <;> cases n.subFields.isEmpty <;> cases n.layouts.isEmpty <;>
    simp [Entries.last?]

theorem ofMembers_filter {p : Datum × Datum → Bool} (q : String → Bool)
    (h : ∀ k d, p (.string k, d) = q k) : ∀ members : List (String × Value),
      (Datum.ofMembers members).filter p = Datum.ofMembers (members.filter fun e => q e.1)
  | [] => rfl
  | (k, v) :: rest => by
    rw [Datum.ofMembers, List.filter_cons, List.filter_cons, ofMembers_filter q h rest, h]
    dsimp only
    split <;> rfl

/-- A field that can be recorded is read back if what it holds is. -/
theorem Recordable.read?_toValue {n : FieldNode} (h : n.Recordable) {depth : Nat}
    (hsubs : ∀ m ∈ n.subFields, read? depth (Datum.ofValue m.toValue) = some m)
    (hlayouts : ∀ v ∈ n.layouts, BlockNode.read? depth (Datum.ofValue v.2.toValue) = some v.2) :
    read? (depth + 1) (Datum.ofValue n.toValue) = some n := by
  have hmembers : Datum.toMembers? ((Datum.ofMembers (Entries.ofList n.pairs)).filter isOption) =
      some n.options.entries := by
    rw [ofMembers_filter (fun k => !memberNames.contains k) (fun _ _ => rfl), h.options_eq]
    exact Datum.toMembers?_ofMembers (Value.wellFormedMembers_of_forall fun e he =>
      (h.options e.1 e.2 (Dict.mem_entries_iff.mp he)).2)
  -- What is left after the options are taken out is a record of known names.
  have hrecord : Record.of? memberNames false
      (.object ((Datum.ofMembers (Entries.ofList n.pairs)).filter fun m => !isOption m)) =
      some ⟨((Entries.ofList n.pairs).filter fun e => memberNames.contains e.1).map
        fun e => (e.1, Datum.ofValue e.2), false⟩ := by
    rw [ofMembers_filter memberNames.contains (fun _ _ => Bool.not_not _)]
    exact Record.of?_ofValue ((Entries.sorted_ofList n.pairs).filter _).nodup_keys
      fun e he => List.contains_iff_mem.mp (List.mem_filter.mp he).2
  have hfind : ∀ name, name ∈ memberNames → Entries.get? name
      (((Entries.ofList n.pairs).filter fun e => memberNames.contains e.1).map
        fun e => (e.1, Datum.ofValue e.2)) = (Entries.last? name n.pairs).map Datum.ofValue := by
    intro name hname
    rw [Entries.get?_map (f := fun _ v => Datum.ofValue v),
      Entries.get?_filter (List.contains_iff_mem.mpr hname), Entries.get?_ofList]
  obtain ⟨hkey, hlabel, hname, htype, hinstructions, hrequired, hlogic, hwrapper, hheld,
    hvariants⟩ := h.find_pairs
  have hsubs' : Record.orElse? ⟨((Entries.ofList n.pairs).filter fun e =>
      memberNames.contains e.1).map fun e => (e.1, Datum.ofValue e.2), false⟩ "sub_fields"
      (Datum.list? (read? depth)) [] = some n.subFields := by
    rw [Record.orElse?, hfind _ (by decide), hheld]
    cases hempty : n.subFields.isEmpty with
    | true =>
      rw [List.isEmpty_iff.mp hempty]
      rfl
    | false => exact Datum.list?_ofValue hsubs
  have hlayouts' : Record.orElse? ⟨((Entries.ofList n.pairs).filter fun e =>
      memberNames.contains e.1).map fun e => (e.1, Datum.ofValue e.2), false⟩ "layouts"
      (fun d => (Datum.dict? (BlockNode.read? depth) d).map fun variants => variants.entries) [] =
        some n.layouts := by
    rw [Record.orElse?, hfind _ (by decide), hvariants]
    cases hempty : n.layouts.isEmpty with
    | true =>
      rw [List.isEmpty_iff.mp hempty]
      rfl
    | false =>
      have hread := Datum.dict?_ofValue (d := ⟨n.layouts, h.layouts⟩) hlayouts
      exact congrArg (Option.map Dict.entries) hread
  rw [toValue_eq, Value.ofMembers, Datum.ofValue, read?, hrecord, hmembers]
  simp only [Option.bind_eq_bind, Option.bind_some, hsubs', hlayouts']
  simp only [Record.need?, Record.orElse?, hfind "key" (by decide), hfind "label" (by decide),
    hfind "name" (by decide), hfind "type" (by decide), hfind "instructions" (by decide),
    hfind "required" (by decide), hfind "conditional_logic" (by decide),
    hfind "wrapper" (by decide), hkey, hlabel, hname, htype, hinstructions, hrequired, hlogic,
    hwrapper, Option.map_some, Option.bind_some, Datum.ofValue, Datum.text?, Datum.choice?,
    FieldKind.ofName?_name, Datum.count?_int h.required,
    ConditionalLogic.ofDatum?_toValue h.clauses, Wrapper.ofDatum?_toValue, Dict.ofList_entries]
  cases n
  rfl

/-- The encoding of a field that can be recorded is well-formed if that of what it holds is. -/
theorem Recordable.toValue_wellFormed {n : FieldNode} (h : n.Recordable)
    (hsubs : ∀ m ∈ n.subFields, m.toValue.WellFormed)
    (hlayouts : ∀ v ∈ n.layouts, v.2.toValue.WellFormed) : n.toValue.WellFormed := by
  rw [toValue_eq]
  refine Value.ofMembers_wellFormed fun e he => ?_
  rcases List.mem_append.mp he with he | he
  · rcases List.mem_append.mp he with he | he
    · simp only [leadingPairs, List.mem_cons, List.not_mem_nil, or_false] at he
      rcases he with rfl | rfl | rfl | rfl | rfl | rfl | rfl | rfl
      all_goals first | exact trivial | skip
      · exact n.logic.toValue_wellFormed
      · exact n.wrapper.toValue_wellFormed
    · exact (h.options e.1 e.2 (Dict.mem_entries_iff.mp he)).2
  · unfold heldPairs at he
    rcases List.mem_append.mp he with he | he
    · split at he
      next => exact absurd he List.not_mem_nil
      next =>
        obtain rfl := List.mem_singleton.mp he
        refine Value.wellFormedItems_of_forall fun v hv => ?_
        obtain ⟨m, hm, rfl⟩ := List.mem_map.mp hv
        exact hsubs m hm
    · split at he
      next => exact absurd he List.not_mem_nil
      next =>
        obtain rfl := List.mem_singleton.mp he
        refine ⟨Entries.sorted_map (f := fun _ node => BlockNode.toValue node) h.layouts,
          Value.wellFormedMembers_of_forall fun v hv => ?_⟩
        obtain ⟨m, hm, rfl⟩ := List.mem_map.mp hv
        exact hlayouts m hm

/-- What a field holds is nested less deeply by two. -/
theorem Recordable.depth_held {n : FieldNode} (h : n.Recordable) :
    (∀ m ∈ n.subFields, m.toValue.depth + 2 ≤ n.toValue.depth) ∧
      ∀ v ∈ n.layouts, v.2.toValue.depth + 2 ≤ n.toValue.depth := by
  obtain ⟨-, -, -, -, -, -, -, -, hheld, hvariants⟩ := h.find_pairs
  rw [toValue_eq, Value.ofMembers]
  constructor
  · intro m hm
    have hne : n.subFields.isEmpty = false := List.isEmpty_eq_false_iff.mpr (List.ne_nil_of_mem hm)
    rw [hne, if_neg (by decide), ← Entries.get?_ofList] at hheld
    have houter := Value.depth_lt_of_mem_members (Entries.mem_of_get? hheld)
    have hinner := Value.depth_lt_of_mem_items (List.mem_map_of_mem (f := toValue) hm)
    dsimp only at houter
    omega
  · intro v hv
    have hne : n.layouts.isEmpty = false := List.isEmpty_eq_false_iff.mpr (List.ne_nil_of_mem hv)
    rw [hne, if_neg (by decide), ← Entries.get?_ofList] at hvariants
    have houter := Value.depth_lt_of_mem_members (Entries.mem_of_get? hvariants)
    have hinner := Value.depth_lt_of_mem_members
      (List.mem_map_of_mem (f := fun v : String × BlockNode => (v.1, v.2.toValue)) hv)
    dsimp only at houter hinner
    omega

end FieldNode

namespace BlockNode

/-- The members of a variant. -/
def pairs (n : BlockNode) : List (String × Value) :=
  [("key", .string n.key), ("name", .string n.name), ("label", .string n.label),
    ("display", .string n.display), ("sub_fields", .array (n.subFields.map FieldNode.toValue)),
    ("min", .string n.min), ("max", .string n.max)]

theorem toValue_eq (n : BlockNode) : n.toValue = .ofMembers n.pairs := by
  cases n
  rw [toValue, pairs, FieldNode.toValues_eq_map]

/-- A variant is read back if its fields are. -/
theorem read?_toValue {n : BlockNode} {depth : Nat}
    (hsubs : ∀ m ∈ n.subFields, FieldNode.read? depth (Datum.ofValue m.toValue) = some m) :
    read? (depth + 1) (Datum.ofValue n.toValue) = some n := by
  have hread := Datum.list?_ofValue hsubs
  have htext : ∀ s, Datum.text? (Datum.ofValue (.string s)) = some s := fun _ => rfl
  rw [toValue_eq, read?, Record.of?_ofMembers (by simp [pairs])]
  simp only [Option.bind_eq_bind, Option.bind_some, Record.need?, Record.orElse?,
    Entries.get?_map_ofValue]
  simp [pairs, Entries.last?, hread, htext]
  cases n
  rfl

theorem toValue_wellFormed {n : BlockNode} (hsubs : ∀ m ∈ n.subFields, m.toValue.WellFormed) :
    n.toValue.WellFormed := by
  rw [toValue_eq]
  refine Value.ofMembers_wellFormed fun e he => ?_
  simp only [pairs, List.mem_cons, List.not_mem_nil, or_false] at he
  rcases he with rfl | rfl | rfl | rfl | rfl | rfl | rfl
  all_goals first | exact trivial | skip
  refine Value.wellFormedItems_of_forall fun v hv => ?_
  obtain ⟨m, hm, rfl⟩ := List.mem_map.mp hv
  exact hsubs m hm

theorem depth_held (n : BlockNode) :
    ∀ m ∈ n.subFields, m.toValue.depth + 2 ≤ n.toValue.depth := by
  intro m hm
  have hheld : ("sub_fields", Value.array (n.subFields.map FieldNode.toValue)) ∈
      Entries.ofList n.pairs := by
    refine Entries.mem_of_get? ?_
    rw [Entries.get?_ofList]
    rfl
  rw [toValue_eq, Value.ofMembers]
  have houter := Value.depth_lt_of_mem_members hheld
  have hinner := Value.depth_lt_of_mem_items (List.mem_map_of_mem (f := FieldNode.toValue) hm)
  dsimp only at houter
  omega

end BlockNode

/-! ## Whole trees -/

/-- Something comes back from its encoding, which is well-formed. -/
structure Rereads {α : Type} (read : Datum → Option α) (write : α → Value) (a : α) : Prop where
  wellFormed : (write a).WellFormed
  reread : read (Datum.ofValue (write a)) = some a

/-- Some nodes are fields that can be recorded or variants. -/
def RecordableNodes (nodes : List TreeNode) : Prop := ∀ n, .field n ∈ nodes → n.Recordable

theorem RecordableNodes.sublist {nodes nodes' : List TreeNode} (h : RecordableNodes nodes)
    (hsub : ∀ n ∈ nodes', n ∈ nodes) : RecordableNodes nodes' := fun n hn => h n (hsub _ hn)

mutual
theorem FieldNode.rereads : ∀ (n : FieldNode) {depth : Nat}, n.toValue.depth ≤ depth →
    RecordableNodes n.nodes → Rereads (FieldNode.read? depth) FieldNode.toValue n
  | ⟨key, label, name, kind, instructions, required, logic, wrapper, options, subFields, layouts⟩,
      depth, hdepth, h => by
    obtain ⟨depth, rfl⟩ := Nat.exists_eq_add_one.mpr
      (Nat.lt_of_lt_of_le (FieldNode.toValue_eq _ ▸ Value.depth_ofMembers_pos _) hdepth)
    rw [FieldNode.nodes] at h
    have hown := h _ (List.mem_cons_self ..)
    obtain ⟨hbelow, hbelow'⟩ := hown.depth_held
    have hsubs := FieldNode.allReread subFields depth
      (fun m hm => by have := hbelow m hm; omega)
      (h.sublist fun n hn => List.mem_cons_of_mem _ (List.mem_append_left _ hn))
    have hlayouts := BlockNode.allReread layouts depth
      (fun v hv => by have := hbelow' v hv; omega)
      (h.sublist fun n hn => List.mem_cons_of_mem _ (List.mem_append_right _ hn))
    exact ⟨hown.toValue_wellFormed (fun m hm => (hsubs m hm).wellFormed)
        fun v hv => (hlayouts v hv).wellFormed,
      hown.read?_toValue (fun m hm => (hsubs m hm).reread) fun v hv => (hlayouts v hv).reread⟩

theorem FieldNode.allReread : ∀ (nodes : List FieldNode) (depth : Nat),
    (∀ n ∈ nodes, n.toValue.depth ≤ depth) → RecordableNodes (FieldNode.allNodes nodes) →
    ∀ n ∈ nodes, Rereads (FieldNode.read? depth) FieldNode.toValue n
  | [], _, _, _ => fun _ hn => absurd hn List.not_mem_nil
  | n :: rest, depth, hdepth, h => by
    rw [FieldNode.allNodes] at h
    have hfirst := FieldNode.rereads n (hdepth n (List.mem_cons_self ..))
      (h.sublist fun _ hm => List.mem_append_left _ hm)
    have hrest := FieldNode.allReread rest depth (fun m hm => hdepth m (List.mem_cons_of_mem _ hm))
      (h.sublist fun _ hm => List.mem_append_right _ hm)
    exact fun m hm => (List.mem_cons.mp hm).elim (fun heq => heq ▸ hfirst) (hrest m)

theorem BlockNode.rereads : ∀ (n : BlockNode) {depth : Nat}, n.toValue.depth ≤ depth →
    RecordableNodes n.nodes → Rereads (BlockNode.read? depth) BlockNode.toValue n
  | ⟨key, name, label, display, subFields, min, max⟩, depth, hdepth, h => by
    obtain ⟨depth, rfl⟩ := Nat.exists_eq_add_one.mpr
      (Nat.lt_of_lt_of_le (BlockNode.toValue_eq _ ▸ Value.depth_ofMembers_pos _) hdepth)
    rw [BlockNode.nodes] at h
    have hbelow := BlockNode.depth_held ⟨key, name, label, display, subFields, min, max⟩
    have hsubs := FieldNode.allReread subFields depth
      (fun m hm => by have := hbelow m hm; omega)
      (h.sublist fun n hn => List.mem_cons_of_mem _ hn)
    exact ⟨BlockNode.toValue_wellFormed fun m hm => (hsubs m hm).wellFormed,
      BlockNode.read?_toValue fun m hm => (hsubs m hm).reread⟩

theorem BlockNode.allReread : ∀ (variants : List (String × BlockNode)) (depth : Nat),
    (∀ v ∈ variants, v.2.toValue.depth ≤ depth) → RecordableNodes (BlockNode.allNodes variants) →
    ∀ v ∈ variants, Rereads (BlockNode.read? depth) BlockNode.toValue v.2
  | [], _, _, _ => fun _ hv => absurd hv List.not_mem_nil
  | (id, n) :: rest, depth, hdepth, h => by
    rw [BlockNode.allNodes] at h
    have hfirst := BlockNode.rereads n (hdepth (id, n) (List.mem_cons_self ..))
      (h.sublist fun _ hm => List.mem_append_left _ hm)
    have hrest := BlockNode.allReread rest depth (fun v hv => hdepth v (List.mem_cons_of_mem _ hv))
      (h.sublist fun _ hm => List.mem_append_right _ hm)
    exact fun v hv => (List.mem_cons.mp hv).elim (fun heq => heq ▸ hfirst) (hrest v)
end

/-! ## Schemas -/

/-- The members of a field group. -/
def FieldGroupNode.pairs (g : FieldGroupNode) : List (String × Value) :=
  [("key", .string g.key), ("title", .string g.title), ("description", .string g.description),
    ("fields", .array (g.fields.map FieldNode.toValue)),
    ("location", .array (g.location.map fun rules => .array (rules.map LocationRule.toValue))),
    ("menu_order", .int g.menuOrder), ("position", .string g.position), ("style", .string g.style),
    ("label_placement", .string g.labelPlacement),
    ("instruction_placement", .string g.instructionPlacement),
    ("hide_on_screen", .string g.hideOnScreen), ("active", .int g.active)]

theorem FieldGroupNode.toValue_eq (g : FieldGroupNode) : g.toValue = .ofMembers g.pairs := by
  rw [toValue, pairs, FieldNode.toValues_eq_map]

/-- The texts of a field group stand under their names. -/
theorem FieldGroupNode.find_texts (g : FieldGroupNode) :
    Entries.last? "key" g.pairs = some (.string g.key) ∧
      Entries.last? "title" g.pairs = some (.string g.title) ∧
      Entries.last? "description" g.pairs = some (.string g.description) ∧
      Entries.last? "position" g.pairs = some (.string g.position) ∧
      Entries.last? "style" g.pairs = some (.string g.style) ∧
      Entries.last? "label_placement" g.pairs = some (.string g.labelPlacement) ∧
      Entries.last? "instruction_placement" g.pairs = some (.string g.instructionPlacement) ∧
      Entries.last? "hide_on_screen" g.pairs = some (.string g.hideOnScreen) :=
  ⟨rfl, rfl, rfl, rfl, rfl, rfl, rfl, rfl⟩

/-- So do its fields, its location and its numbers. -/
theorem FieldGroupNode.find_parts (g : FieldGroupNode) :
    Entries.last? "fields" g.pairs = some (.array (g.fields.map FieldNode.toValue)) ∧
      Entries.last? "location" g.pairs =
        some (.array (g.location.map fun rules => .array (rules.map LocationRule.toValue))) ∧
      Entries.last? "menu_order" g.pairs = some (.int g.menuOrder) ∧
      Entries.last? "active" g.pairs = some (.int g.active) :=
  ⟨rfl, rfl, rfl, rfl⟩

theorem FieldGroupNode.pairs_known (g : FieldGroupNode) : ∀ e ∈ g.pairs, e.1 ∈ memberNames := by
  have hnames : g.pairs.map (·.1) = memberNames := rfl
  exact fun e he => hnames ▸ List.mem_map_of_mem he

/-- A field group is read back if its fields can be recorded and its numbers fit. -/
theorem FieldGroupNode.rereads {g : FieldGroupNode} (hfields : RecordableNodes g.nodes)
    (horder : -2147483648 ≤ g.menuOrder ∧ g.menuOrder < 2147483648) (hactive : g.active < 256) :
    Rereads ofDatum? toValue g := by
  have hread : ∀ n ∈ g.fields, Rereads FieldNode.ofDatum? FieldNode.toValue n := by
    intro n hn
    have hbelow : RecordableNodes n.nodes := hfields.sublist fun m hm => by
      rw [FieldGroupNode.nodes, FieldNode.allNodes_eq_flatMap]
      exact List.mem_flatMap.mpr ⟨n, hn, hm⟩
    have h := FieldNode.rereads n (Nat.le_of_eq (Datum.depth_ofValue n.toValue).symm) hbelow
    exact ⟨h.wellFormed, h.reread⟩
  have hlocation : Datum.list? (Datum.list? LocationRule.ofDatum?)
      (Datum.ofValue (.array (g.location.map fun rules => .array (rules.map LocationRule.toValue)))) =
        some g.location :=
    Datum.list?_ofValue fun rules _ => Datum.list?_ofValue fun r _ => r.ofDatum?_toValue
  constructor
  · rw [toValue_eq]
    refine Value.ofMembers_wellFormed ?_
    simp only [pairs, List.forall_mem_cons, List.not_mem_nil]
    refine ⟨trivial, trivial, trivial, ?_, ?_, trivial, trivial, trivial, trivial, trivial, trivial,
      trivial, fun _ hnone => hnone.elim⟩
    · refine Value.wellFormedItems_of_forall fun v hv => ?_
      obtain ⟨n, hn, rfl⟩ := List.mem_map.mp hv
      exact (hread n hn).wellFormed
    · refine Value.wellFormedItems_of_forall fun v hv => ?_
      obtain ⟨rules, -, rfl⟩ := List.mem_map.mp hv
      refine Value.wellFormedItems_of_forall fun v hv => ?_
      obtain ⟨r, -, rfl⟩ := List.mem_map.mp hv
      exact r.toValue_wellFormed
  · have hlist := Datum.list?_ofValue fun n hn => (hread n hn).reread
    have htext : ∀ s, Datum.text? (Datum.ofValue (.string s)) = some s := fun _ => rfl
    have horder' : order? (Datum.ofValue (.int g.menuOrder)) = some g.menuOrder := if_pos horder
    have hactive' : Datum.count? 256 (Datum.ofValue (.int g.active)) = some g.active :=
      Datum.count?_int hactive
    obtain ⟨hkey, htitle, hdescription, hposition, hstyle, hlabel, hinstruction, hhide⟩ :=
      g.find_texts
    obtain ⟨hitems, hrules, hmenu, hshown⟩ := g.find_parts
    rw [ofDatum?, toValue_eq, Record.of?_ofMembers g.pairs_known]
    simp only [Option.bind_eq_bind, Option.bind_some, Option.map_some, Record.need?,
      Entries.get?_map_ofValue, hkey, htitle, hdescription, hposition, hstyle, hlabel,
      hinstruction, hhide, hitems, hrules, hmenu, hshown, hlist, hlocation, htext, horder',
      hactive']
    rfl

/-- A schema whose fields can be recorded and whose numbers fit is read back from its encoding, if
its time is read back. -/
theorem CompiledSchema.rereads {s : CompiledSchema} (hfields : RecordableNodes s.group.nodes)
    (horder : -2147483648 ≤ s.group.menuOrder ∧ s.group.menuOrder < 2147483648)
    (hactive : s.group.active < 256) (hscheme : s.keyScheme < 4294967296)
    (htime : Instant.read? s.compiledAt.zulu = some s.compiledAt) :
    Rereads ofDatum? toValue s := by
  have hgroup := FieldGroupNode.rereads hfields horder hactive
  constructor
  · refine Value.ofMembers_wellFormed ?_
    simp only [List.forall_mem_cons, List.not_mem_nil]
    exact ⟨hgroup.wellFormed, s.index.toValue_wellFormed, trivial, trivial, trivial, nofun⟩
  · unfold ofDatum? toValue
    generalize 4294967296 = limit at hscheme ⊢
    have hcount : Datum.count? limit (Datum.ofValue (.int s.keyScheme)) = some s.keyScheme :=
      Datum.count?_int hscheme
    have htext : ∀ s, Datum.text? (Datum.ofValue (.string s)) = some s := fun _ => rfl
    rw [Record.of?_ofMembers (by simp)]
    simp -implicitDefEqProofs [Record.need?, Entries.get?_map_ofValue, Entries.last?,
      hgroup.reread, FlatIndex.ofDatum?_toValue, hcount, htext, htime]

end PageBlocks
