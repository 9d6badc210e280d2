import PageBlocks.Proofs.Definitions.Decoded
import PageBlocks.Proofs.Definitions.Arranged

/-!
# Decoding undoes encoding

Definitions that were decoded are encoded in full, each shorthand in one form;
what is read from that is the same definitions:

> `Definitions.ofDatum?_arranged`: in whatever order the members are encoded.

Where several readings are tried in turn, the encoding is of a form that the
readings before the right one refuse: a declaration names fields that no
reference knows, a list of clauses begins with a list and not with the name of
a field, a filter is a text only where it is the star.
-/

namespace PageBlocks

open Datum

variable {F : Binary64 → Prop} {arrange : Value → Value}

/-! ## Parts that are already in key order -/

theorem Datum.list?_ofTexts (texts : List String) :
    list? text? (ofValue (.ofTexts texts)) = some texts :=
  list?_ofValue fun _ _ => rfl

theorem Value.ofTexts_wellFormed (texts : List String) : (ofTexts texts).WellFormed := by
  refine wellFormedItems_of_forall fun v hv => ?_
  obtain ⟨text, -, rfl⟩ := List.mem_map.mp hv
  trivial

namespace NameFilter

theorem toValue_wellFormed (filter : NameFilter) : filter.toValue.WellFormed := by
  cases filter with
  | any => trivial
  | only names => exact Value.ofTexts_wellFormed names
  | except names =>
    exact ⟨List.pairwise_singleton .., Value.ofTexts_wellFormed names, trivial⟩

theorem ofDatum?_toValue (filter : NameFilter) :
    ofDatum? (ofValue filter.toValue) = some filter := by
  cases filter with
  | any => rfl
  | only names =>
    show (none <|> (list? text? (ofValue (.ofTexts names))).map NameFilter.only <|> _) = _
    rw [list?_ofTexts]
    rfl
  | except names =>
    show exceptions? (ofValue (.object [("except", .ofTexts names)])) = _
    have hrecord : Record.of? ["except"] false (ofValue (.object [("except", .ofTexts names)])) =
        some ⟨[("except", ofValue (.ofTexts names))], false⟩ := rfl
    rw [ofValue, ofMembers, ofMembers] at hrecord ⊢
    rw [exceptions?, hrecord]
    simp [Record.need?, Entries.get?, list?_ofTexts]

end NameFilter

theorem CompatibilityRules.toValue_wellFormed (r : CompatibilityRules) : r.toValue.WellFormed :=
  have hkeys : Entries.Sorted [("block", ()), ("layout", ())] := by decide
  ⟨hkeys.of_keys rfl, r.block.toValue_wellFormed, r.layout.toValue_wellFormed, trivial⟩

theorem Datum.option?_ofValue {α : Type} {read : Datum → Option α} {v : Value} {a : α}
    (hne : v ≠ .null) (hread : read (ofValue v) = some a) :
    option? read (ofValue v) = some (some a) := by
  have hmap : option? read (ofValue v) = (read (ofValue v)).map some := by
    cases v with
    | null => exact absurd rfl hne
    | _ => rfl
  rw [hmap, hread, Option.map_some]

theorem NameFilter.toValue_ne_null (filter : NameFilter) : filter.toValue ≠ .null := by
  cases filter <;> exact nofun

theorem CompatibilityRules.ofDatum?_toValue (r : CompatibilityRules) :
    ofDatum? (ofValue r.toValue) = some r := by
  have hfilter : ∀ filter : NameFilter,
      option? NameFilter.ofDatum? (ofValue filter.toValue) = some (some filter) := fun filter =>
    option?_ofValue filter.toValue_ne_null filter.ofDatum?_toValue
  unfold ofDatum? toValue
  rw [Record.of?_ofValue (by simp) (by simp)]
  simp [Record.orElse?, Entries.get?, hfilter]

theorem ConditionRule.toValue_wellFormed {r : ConditionRule} (h : r.value.WellFormed) :
    r.toValue.WellFormed := by
  have hkeys : Entries.Sorted [("field", ()), ("operator", ()), ("value", ())] := by decide
  exact ⟨hkeys.of_keys rfl, trivial, trivial, h, trivial⟩

theorem ConditionRule.ofDatum?_toValue {r : ConditionRule} (h : r.value.WellFormed) :
    ofDatum? (ofValue r.toValue) = some r := by
  unfold ofDatum? toValue
  rw [Record.of?_ofValue (by simp) (by simp)]
  simp [Record.orElse?, Record.need?, Entries.get?, ofValue, text?, toValue?_ofValue h]

theorem Condition.toValue_wellFormed {c : Condition} (h : c.Decoded F) : c.toValue.WellFormed := by
  cases c with
  | rule r =>
    exact ConditionRule.toValue_wellFormed
      (h [r] (List.mem_singleton_self _) r (List.mem_singleton_self _)).wellFormed
  | anyOf clauses =>
    refine Value.wellFormedItems_of_forall fun v hv => ?_
    obtain ⟨clause, hclause, rfl⟩ := List.mem_map.mp hv
    refine Value.wellFormedItems_of_forall fun v hv => ?_
    obtain ⟨r, hr, rfl⟩ := List.mem_map.mp hv
    exact ConditionRule.toValue_wellFormed (h clause hclause r hr).wellFormed

theorem Condition.toValue_ne_null (c : Condition) : c.toValue ≠ .null := by
  cases c <;> exact nofun

theorem Condition.ofDatum?_toValue {c : Condition} (h : c.Decoded F) :
    ofDatum? (ofValue c.toValue) = some c := by
  cases c with
  | rule r =>
    have hrule : ConditionRule.ofDatum? (ofValue r.toValue) = some r :=
      ConditionRule.ofDatum?_toValue
        (h [r] (List.mem_singleton_self _) r (List.mem_singleton_self _)).wellFormed
    show ((ConditionRule.ofDatum? (ofValue r.toValue)).map Condition.rule <|> _) = _
    rw [hrule]
    rfl
  | anyOf clauses =>
    have hclauses : list? (list? ConditionRule.ofDatum?) (ofValue (Condition.anyOf clauses).toValue) =
        some clauses := list?_ofValue fun clause hclause => list?_ofValue fun r hr =>
      ConditionRule.ofDatum?_toValue (h clause hclause r hr).wellFormed
    -- The first item of the array would have to be the name of a field.
    have hrule : ConditionRule.ofDatum? (ofValue (Condition.anyOf clauses).toValue) = none := by
      unfold ConditionRule.ofDatum? Condition.toValue
      rw [ofValue, Record.of?]
      split
      next =>
        cases clauses with
        | nil => rfl
        | cons => rfl
      next => rfl
    unfold ofDatum?
    rw [hrule, hclauses]
    rfl

/-! ## Slots -/

theorem GeneratorRef.ofDatum?_arranged (h : Arrangement arrange) {ref : GeneratorRef}
    (href : ref.Decoded F) : ofDatum? (ofValue (arrange ref.toValue)) = some ref := by
  have hargs : list? toValue? (ofValue (arrange (.array ref.args))) = some ref.args := by
    have hread : list? toValue? (ofValue (arrange (.array (ref.args.map id)))) = some ref.args :=
      h.list? fun v hv => by
        rw [id_eq, h.ordered (href v hv).wellFormed]
        exact toValue?_ofValue (href v hv).wellFormed
    rwa [List.map_id] at hread
  unfold ofDatum? toValue
  refine h.record (by simp) (by simp) fun r hget => ?_
  simp [Record.need?, Record.orElse?, hget, Entries.get?, h.string, ofValue, text?, hargs]

/-- A record that knows no further keys is refused for one. -/
theorem Record.of?_strict {names : List String} {members : List (String × Value)} {name : String}
    (hmem : name ∈ members.map (·.1)) (hname : name ∉ names) :
    of? names true (ofValue (.object members)) = none := by
  have hfold : ∀ {members : List (String × Value)} (present : List (String × Datum)),
      name ∈ members.map (·.1) → (ofMembers members).foldlM (add? names true) present = none := by
    intro members
    induction members with
    | nil => exact fun _ h => absurd h List.not_mem_nil
    | cons e members ih =>
      intro present hmem
      rw [ofMembers, List.foldlM_cons]
      rcases List.mem_cons.mp hmem with rfl | hmem
      · have hadd : add? names true present (.string e.1, ofValue e.2) = none := by
          simp [add?, fieldName?, hname]
        rw [hadd]
        rfl
      · cases add? names true present (.string e.1, ofValue e.2) with
        | none => rfl
        | some next => exact ih next hmem
  show ((ofMembers members).foldlM (add? names true) []).bind _ = none
  rw [hfold [] hmem]
  rfl

namespace FieldDeclaration

/-- The fields of a declaration, as they are encoded. -/
def ownPairs (d : FieldDeclaration) : List (String × Value) :=
  [("name", .ofText? d.name), ("label", .ofText? d.attributes.label),
    ("type", .string d.attributes.type), ("instructions", .ofText? d.attributes.instructions),
    ("required", .bool d.attributes.required),
    ("default_value", .orNull id d.attributes.defaultValue),
    ("conditional", .orNull Condition.toValue d.attributes.condition),
    ("sub_fields", .array (FieldSlot.toValues d.subFields)),
    ("blocks", .orNull NameFilter.toValue d.attributes.blocks)]

theorem toValue_eq (d : FieldDeclaration) :
    d.toValue = .object (d.ownPairs ++ d.attributes.options.entries) := by
  cases d
  rw [toValue]
  rfl

theorem ownPairs_keys (d : FieldDeclaration) : d.ownPairs.map (·.1) = fieldNames := rfl

theorem nodup_pairs {d : FieldDeclaration} (hd : d.attributes.Decoded F) :
    ((d.ownPairs ++ d.attributes.options.entries).map (·.1)).Nodup := by
  rw [List.map_append, ownPairs_keys]
  refine List.nodup_append.mpr ⟨by decide, d.attributes.options.sorted.nodup_keys, ?_⟩
  rintro name hname key hkey rfl
  obtain ⟨e, he, rfl⟩ := List.mem_map.mp hkey
  exact (hd.options e he).1 hname

/-- Whether a member is one of the declaration's own fields. -/
def isOwn (e : String × Value) : Bool := fieldNames.contains e.1

theorem filter_ofMembers (members : List (String × Value)) :
    (ofMembers members).filter (fun m => !isOption m) = ofMembers (members.filter isOwn) ∧
      (ofMembers members).filter isOption = ofMembers (members.filter fun e => !isOwn e) := by
  simp only [ofMembers_eq_map, List.filter_map]
  have hown : (fun m => !isOption m) ∘ (fun e : String × Value => (.string e.1, ofValue e.2)) =
      isOwn := by
    funext e
    simp [isOption, isOwn]
  exact ⟨by rw [hown], rfl⟩

theorem filter_append_apart {α : Type} {p : α → Bool} {xs ys : List α}
    (hxs : ∀ x ∈ xs, p x = true) (hys : ∀ y ∈ ys, p y = false) :
    (xs ++ ys).filter p = xs ∧ (xs ++ ys).filter (fun a => !p a) = ys := by
  rw [List.filter_append, List.filter_append, List.filter_eq_self.mpr hxs,
    List.filter_eq_nil_iff.mpr fun y hy => by rw [hys y hy]; exact Bool.false_ne_true,
    List.filter_eq_nil_iff.mpr fun x hx => by rw [hxs x hx]; exact Bool.false_ne_true,
    List.filter_eq_self.mpr fun y hy => by rw [hys y hy]; rfl, List.append_nil, List.nil_append]
  exact ⟨rfl, rfl⟩

/-- The members of an encoded declaration, however they are arranged, are its own fields and its
options. -/
theorem parts_arranged {d : FieldDeclaration} (hd : d.attributes.Decoded F)
    {members : List (String × Value)} (hperm : members.Perm
      ((d.ownPairs ++ d.attributes.options.entries).map fun e => (e.1, arrange e.2))) :
    (members.filter isOwn).Perm (d.ownPairs.map fun e => (e.1, arrange e.2)) ∧
      (members.filter fun e => !isOwn e).Perm
        (d.attributes.options.entries.map fun e => (e.1, arrange e.2)) := by
  have hown : ∀ e ∈ d.ownPairs.map (fun e => (e.1, arrange e.2)), isOwn e = true := by
    intro e he
    obtain ⟨e', he', rfl⟩ := List.mem_map.mp he
    have hname : e'.1 ∈ d.ownPairs.map (·.1) := List.mem_map_of_mem he'
    exact List.contains_iff_mem.mpr (d.ownPairs_keys ▸ hname)
  have hother : ∀ e ∈ d.attributes.options.entries.map (fun e => (e.1, arrange e.2)),
      isOwn e = false := by
    intro e he
    obtain ⟨e', he', rfl⟩ := List.mem_map.mp he
    rw [isOwn, ← Bool.not_eq_true, List.contains_iff_mem]
    exact (hd.options e' he').1
  rw [List.map_append] at hperm
  obtain ⟨hfirst, hsecond⟩ := filter_append_apart hown hother
  exact ⟨hfirst ▸ hperm.filter isOwn, hsecond ▸ hperm.filter fun e => !isOwn e⟩

/-- What may be missing is read from its encoding, however it is arranged. -/
theorem option?_arranged (h : Arrangement arrange) {α : Type} {read : Datum → Option α}
    {f : α → Value} {a? : Option α} (ha : ∀ a, a? = some a →
      (f a).WellFormed ∧ f a ≠ .null ∧ read (ofValue (f a)) = some a) :
    option? read (ofValue (arrange (.orNull f a?))) = some a? := by
  cases a? with
  | none =>
    have hnull : arrange .null = .null := h.ordered trivial
    rw [show Value.orNull f none = .null from rfl, hnull]
    rfl
  | some a =>
    obtain ⟨hordered, hsome, hread⟩ := ha a rfl
    rw [show Value.orNull f (some a) = f a from rfl, h.ordered hordered]
    exact option?_ofValue hsome hread

theorem option?_text (text : Option String) :
    option? text? (ofValue (.ofText? text)) = some text := by
  cases text <;> rfl

/-- The own fields of a declaration make a record, with each field under its name. -/
theorem record_arranged {d : FieldDeclaration} {own : List (String × Value)}
    (hown : own.Perm (d.ownPairs.map fun e => (e.1, arrange e.2)))
    (hknown : ∀ e ∈ own, isOwn e = true) :
    Record.of? fieldNames false (.object (ofMembers own)) =
        some ⟨own.map fun e => (e.1, ofValue e.2), false⟩ ∧
      ∀ name, Entries.get? name (own.map fun e => (e.1, ofValue e.2)) =
        (Entries.get? name d.ownPairs).map fun v => ofValue (arrange v) := by
  have hkeys : ((d.ownPairs.map fun e => (e.1, arrange e.2)).map (·.1)).Nodup := by
    rw [List.map_map]
    exact (d.ownPairs_keys ▸ (by decide) : (d.ownPairs.map (·.1)).Nodup)
  constructor
  · exact Record.of?_ofValue ((hown.map (·.1)).nodup_iff.mpr hkeys) fun e he =>
      List.contains_iff_mem.mp (hknown e he)
  · intro name
    rw [Entries.get?_map (f := fun _ v => ofValue v), Entries.get?_of_perm hown hkeys,
      Entries.get?_map (f := fun _ v => arrange v), Option.map_map]
    rfl

/-- The options of a declaration are read from its other members. -/
theorem options_arranged (h : Arrangement arrange) {d : FieldDeclaration}
    (hd : d.attributes.Decoded F) {others : List (String × Value)} (hothers : others.Perm
      (d.attributes.options.entries.map fun e => (e.1, arrange e.2))) :
    toMembers? (ofMembers others) = some others ∧
      Dict.ofList others = d.attributes.options := by
  have hvalues : d.attributes.options.entries.map (fun e => (e.1, arrange e.2)) =
      d.attributes.options.entries := by
    refine (List.map_congr_left fun e he => ?_).trans (List.map_id _)
    rw [h.ordered (hd.options e he).2.wellFormed]
    rfl
  rw [hvalues] at hothers
  constructor
  · exact toMembers?_ofMembers (Value.wellFormedMembers_of_forall fun e he =>
      (hd.options e (hothers.mem_iff.mp he)).2.wellFormed)
  · exact Dict.ext (Entries.ofList_eq_of_perm d.attributes.options.sorted hothers)

/-- The attributes and the name of a declaration are read from its members. -/
theorem attributes?_arranged (h : Arrangement arrange) {d : FieldDeclaration}
    (hd : d.attributes.Decoded F) {members : List (String × Value)} (hperm : members.Perm
      ((d.ownPairs ++ d.attributes.options.entries).map fun e => (e.1, arrange e.2))) :
    attributes? (ofMembers members) = some d.attributes ∧
      name? (ofMembers members) = some d.name := by
  obtain ⟨hown, hothers⟩ := parts_arranged hd hperm
  obtain ⟨hfirst, hsecond⟩ := filter_ofMembers members
  obtain ⟨hrecord, hget⟩ := record_arranged hown fun e he => (List.mem_filter.mp he).2
  obtain ⟨hmembers, hdict⟩ := options_arranged h hd hothers
  have hdefault : option? toValue? (ofValue (arrange (.orNull id d.attributes.defaultValue))) =
      some d.attributes.defaultValue :=
    option?_arranged h fun v hv => ⟨(hd.default v hv).2.wellFormed, (hd.default v hv).1,
      toValue?_ofValue (hd.default v hv).2.wellFormed⟩
  have hcondition : option? Condition.ofDatum?
      (ofValue (arrange (.orNull Condition.toValue d.attributes.condition))) =
        some d.attributes.condition :=
    option?_arranged h fun c hc => ⟨Condition.toValue_wellFormed (hd.condition c hc),
      c.toValue_ne_null, Condition.ofDatum?_toValue (hd.condition c hc)⟩
  have hblocks : option? NameFilter.ofDatum?
      (ofValue (arrange (.orNull NameFilter.toValue d.attributes.blocks))) =
        some d.attributes.blocks :=
    option?_arranged h fun filter _ =>
      ⟨filter.toValue_wellFormed, filter.toValue_ne_null, filter.ofDatum?_toValue⟩
  constructor
  · unfold attributes?
    dsimp only
    rw [hfirst, hsecond, hrecord, hmembers]
    simp [Record.orElse?, Record.need?, hget, ownPairs, Entries.get?, h.ofText?, option?_text,
      h.string, h.bool, ofValue, text?, flag?, hdefault, hcondition, hblocks, hdict]
  · unfold name?
    rw [hfirst, hrecord]
    simp [Record.orElse?, hget, ownPairs, Entries.get?, h.ofText?, option?_text]

end FieldDeclaration

namespace FieldSlot

/-- The sub-fields are the items under their name. -/
theorem subFields?_ofMembers {items : List Value} {members : List (String × Value)}
    (h : Entries.get? "sub_fields" members = some (.array items)) :
    subFields? (ofMembers members) = ofItems? (ofItems items) := by
  induction members with
  | nil => cases h
  | cons e rest ih =>
    obtain ⟨k, v⟩ := e
    rw [Entries.get?] at h
    rw [ofMembers]
    split at h
    next hk =>
      cases h
      rw [ofValue, subFields?, if_pos (by rw [hk]; rfl)]
    next hk =>
      have hno : ∀ d, ¬FieldDeclaration.isSubFields (.string k, d) = true := fun d =>
        by simpa [FieldDeclaration.isSubFields] using hk
      have hrest := ih h
      cases v with
      | array items => rw [ofValue, subFields?, if_neg (hno _), hrest]
      | _ =>
        rw [ofValue, subFields?, if_neg (hno _), hrest]
        intro _ _ hitems
        cases hitems

/-- A slot that can be a reference is one. -/
theorem ofDatum?_generated {d : Datum} {ref : GeneratorRef}
    (h : GeneratorRef.ofDatum? d = some ref) : ofDatum? d = some (.generated ref) := by
  cases d with
  | object members =>
    rw [ofDatum?, h]
    rfl
  | _ =>
    rw [ofDatum?, h]
    · rfl
    · intro _ hmembers
      cases hmembers

mutual
/-- A slot is read from its encoding as it was. -/
theorem ofDatum?_arranged (h : Arrangement arrange) :
    ∀ {s : FieldSlot}, s.Decoded F → ofDatum? (ofValue (arrange s.toValue)) = some s
  | .generated ref, .generated href => by
    rw [toValue]
    exact ofDatum?_generated (GeneratorRef.ofDatum?_arranged h href)
  | .literal ⟨name, attributes, subFields⟩, .literal hattributes hsubs => by
    have hnodup := FieldDeclaration.nodup_pairs hattributes
    obtain ⟨members, hobject, hperm⟩ := h.object hnodup
    obtain ⟨hread, hname⟩ := FieldDeclaration.attributes?_arranged h hattributes hperm
    have hkeys : (((FieldDeclaration.ownPairs ⟨name, attributes, subFields⟩ ++
        attributes.options.entries).map fun e => (e.1, arrange e.2)).map (·.1)).Nodup := by
      rw [List.map_map]
      exact hnodup
    have hget : Entries.get? "sub_fields" members =
        some (.array ((toValues subFields).map arrange)) := by
      rw [Entries.get?_of_perm hperm hkeys, Entries.get?_map (f := fun _ v => arrange v)]
      simp [FieldDeclaration.ownPairs, Entries.get?, h.array]
    -- A declaration names its type, which no reference does.
    have htype : "type" ∈ members.map (·.1) := by
      rw [(hperm.map (·.1)).mem_iff, List.map_map]
      simp [FieldDeclaration.ownPairs]
    have href : GeneratorRef.ofDatum? (ofValue (.object members)) = none := by
      unfold GeneratorRef.ofDatum?
      rw [Record.of?_strict htype (by decide)]
      rfl
    rw [toValue, FieldDeclaration.toValue_eq, hobject]
    rw [ofValue] at href ⊢
    rw [ofDatum?, href, hread, hname, subFields?_ofMembers hget, ofItems?_arranged h hsubs]
    rfl

theorem ofItems?_arranged (h : Arrangement arrange) :
    ∀ {ss : List FieldSlot}, (∀ s ∈ ss, s.Decoded F) →
      ofItems? (ofItems ((toValues ss).map arrange)) = some ss
  | [], _ => by
    rw [toValues, List.map_nil, ofItems, ofItems?]
  | s :: ss, hall => by
    rw [toValues, List.map_cons, ofItems, ofItems?,
      ofDatum?_arranged h (hall s (List.mem_cons_self ..)),
      ofItems?_arranged h fun s hs => hall s (List.mem_cons_of_mem _ hs)]
    rfl
end

theorem list?_arranged (h : Arrangement arrange) {ss : List FieldSlot}
    (hss : ∀ s ∈ ss, s.Decoded F) :
    FieldSlot.list? (ofValue (arrange (.array (toValues ss)))) = some ss := by
  rw [h.array, ofValue, FieldSlot.list?, ofItems?_arranged h hss]

end FieldSlot

/-! ## Blocks, layouts and settings -/

theorem BlockKind.ofName?_name (kind : BlockKind) : BlockKind.ofName? kind.name = some kind := by
  cases kind <;> decide

theorem BlockDefinition.ofDatum?_arranged (h : Arrangement arrange) {b : BlockDefinition}
    (hb : b.Decoded F) : ofDatum? (ofValue (arrange b.toValue)) = some b := by
  have hslots : ∀ ss : List FieldSlot, ss ⊆ b.content ++ b.customise ++ b.configure →
      FieldSlot.list? (ofValue (arrange (.array (FieldSlot.toValues ss)))) = some ss :=
    fun _ hsub => FieldSlot.list?_arranged h fun s hs => hb s (hsub hs)
  have hcontent := hslots b.content (by simp [List.append_assoc])
  have hcustomise := hslots b.customise (by simp [List.append_assoc])
  have hconfigure := hslots b.configure (by simp [List.append_assoc])
  unfold ofDatum? toValue
  refine h.record (by simp) (by simp [fieldNames]) fun r hget => ?_
  simp [Record.orElse?, hget, Entries.get?, h.ofText?, FieldDeclaration.option?_text, h.string,
    ofValue, text?, choice?, BlockKind.ofName?_name, hcontent, hcustomise, hconfigure,
    h.ordered b.blocks.toValue_wellFormed, NameFilter.ofDatum?_toValue,
    h.ordered b.rules.toValue_wellFormed, CompatibilityRules.ofDatum?_toValue]

theorem LayoutDefinition.ofDatum?_arranged (h : Arrangement arrange) (l : LayoutDefinition) :
    ofDatum? (ofValue (arrange l.toValue)) = some l := by
  unfold ofDatum? toValue
  refine h.record (by simp) (by simp [fieldNames]) fun r hget => ?_
  simp [Record.orElse?, hget, Entries.get?, h.ofText?, FieldDeclaration.option?_text, h.string,
    ofValue, text?, h.ordered l.blocks.toValue_wellFormed, NameFilter.ofDatum?_toValue]

theorem Settings.ofDatum?_arranged (h : Arrangement arrange) (s : Settings) :
    ofDatum? (ofValue (arrange s.toValue)) = some s := by
  unfold ofDatum? toValue
  refine h.record (by simp) (by simp [fieldNames]) fun r hget => ?_
  simp [Record.orElse?, hget, Entries.get?, h.string, h.bool, h.ofTexts, list?_ofTexts, ofValue,
    text?, flag?]

/-- Definitions whose values are in order are read from their encoding as they were. -/
theorem Definitions.ofDatum?_arranged (h : Arrangement arrange) {d : Definitions}
    (hd : d.Decoded F) : ofDatum? (ofValue (arrange d.toValue)) = some d := by
  have hblocks : dict? BlockDefinition.ofDatum?
      (ofValue (arrange (.ofDict (d.blocks.map fun _ b => b.toValue)))) = some d.blocks :=
    h.dict? fun e he => BlockDefinition.ofDatum?_arranged h (hd e he)
  have hlayouts : dict? LayoutDefinition.ofDatum?
      (ofValue (arrange (.ofDict (d.layouts.map fun _ l => l.toValue)))) = some d.layouts :=
    h.dict? fun e _ => LayoutDefinition.ofDatum?_arranged h e.2
  unfold ofDatum? toValue
  refine h.record (by simp) (by simp [fieldNames]) fun r hget => ?_
  simp [Record.orElse?, hget, Entries.get?, h.ofTexts, list?_ofTexts, hblocks, hlayouts,
    Settings.ofDatum?_arranged h]

end PageBlocks
