import PageBlocks.Proofs.Value
import PageBlocks.Definitions.Decode

/-!
# What is known of decoded definitions

Definitions keep values of the document they were read from: the options of a
field, its default, what its conditions compare with, the arguments of a
generator. Whatever document that was, these values have ordered members, an
option never has the name of a field of the declaration, and a default is never
null, as null stands for no default.

> `Definitions.ofDatum?_decoded`: so it is with whatever `ofDatum?` gives.

Which floats a document can have is left open: they satisfy some predicate `F`,
and so do those of the definitions.
-/

namespace PageBlocks

variable {F : Binary64 → Prop}

/-! ## Values -/

/-- Every float in a value satisfies a predicate. -/
inductive Value.HasFloats (F : Binary64 → Prop) : Value → Prop
  | null : HasFloats F .null
  | bool {b : Bool} : HasFloats F (.bool b)
  | int {n : Int} : HasFloats F (.int n)
  | float {x : Binary64} (h : F x) : HasFloats F (.float x)
  | string {s : String} : HasFloats F (.string s)
  | array {items : List Value} (h : ∀ v ∈ items, HasFloats F v) : HasFloats F (.array items)
  | object {members : List (String × Value)} (h : ∀ e ∈ members, HasFloats F e.2) :
      HasFloats F (.object members)

/-- Every float in a datum, but for its keys, is finite and satisfies a predicate. -/
inductive Datum.HasFloats (F : Binary64 → Prop) : Datum → Prop
  | null : HasFloats F .null
  | bool {b : Bool} : HasFloats F (.bool b)
  | int {n : Int} : HasFloats F (.int n)
  | float {x : Binary64} (h : F x) : HasFloats F (.float (some x))
  | string {s : String} : HasFloats F (.string s)
  | array {items : List Datum} (h : ∀ d ∈ items, HasFloats F d) : HasFloats F (.array items)
  | object {members : List (Datum × Datum)} (h : ∀ e ∈ members, HasFloats F e.2) :
      HasFloats F (.object members)

/-- A value with ordered members and with floats of a kind. -/
structure Value.Decoded (F : Binary64 → Prop) (v : Value) : Prop where
  wellFormed : v.WellFormed
  floats : v.HasFloats F

namespace Datum

theorem ofItems_eq_map (items : List Value) : ofItems items = items.map ofValue := by
  induction items with
  | nil => rfl
  | cons v vs ih => rw [ofItems, ih, List.map_cons]

theorem HasFloats.ofValue : ∀ {v : Value}, v.HasFloats F → (ofValue v).HasFloats F
  | _, .null => .null
  | _, .bool => .bool
  | _, .int => .int
  | _, .float h => .float h
  | _, .string => .string
  | .array items, .array h => by
    rw [Datum.ofValue, ofItems_eq_map]
    refine .array fun d hd => ?_
    obtain ⟨v, hv, rfl⟩ := List.mem_map.mp hd
    exact HasFloats.ofValue (h v hv)
  | .object members, .object h => by
    rw [Datum.ofValue, ofMembers_eq_map]
    refine .object fun e he => ?_
    obtain ⟨e', he', rfl⟩ := List.mem_map.mp he
    exact HasFloats.ofValue (h e' he')

mutual
/-- A datum is taken over with its members put in order. -/
theorem toValue?_decoded : ∀ {d : Datum} {v : Value}, d.HasFloats F → toValue? d = some v →
    v.Decoded F
  | .null, v, _, h => by cases h; exact ⟨trivial, .null⟩
  | .bool _, v, _, h => by cases h; exact ⟨trivial, .bool⟩
  | .int _, v, _, h => by cases h; exact ⟨trivial, .int⟩
  | .float none, v, hd, _ => by cases hd
  | .float (some x), v, .float hx, h => by cases h; exact ⟨trivial, .float hx⟩
  | .string _, v, _, h => by cases h; exact ⟨trivial, .string⟩
  | .array items, v, .array hitems, h => by
    rw [toValue?] at h
    obtain ⟨vs, hvs, rfl⟩ := Option.map_eq_some_iff.mp h
    have hall := toItems?_decoded hitems hvs
    exact ⟨Value.wellFormedItems_of_forall fun w hw => (hall w hw).wellFormed,
      .array fun w hw => (hall w hw).floats⟩
  | .object members, v, .object hmembers, h => by
    rw [toValue?] at h
    obtain ⟨pairs, hpairs, rfl⟩ := Option.map_eq_some_iff.mp h
    have hall := toMembers?_decoded hmembers hpairs
    refine ⟨⟨Entries.sorted_ofList pairs, Value.wellFormedMembers_of_forall fun e he => ?_⟩,
      .object fun e he => ?_⟩
    · exact (hall e (Entries.mem_ofList he)).wellFormed
    · exact (hall e (Entries.mem_ofList he)).floats

theorem toItems?_decoded : ∀ {ds : List Datum} {vs : List Value}, (∀ d ∈ ds, d.HasFloats F) →
    toItems? ds = some vs → ∀ v ∈ vs, v.Decoded F
  | [], vs, _, h => by
    cases h
    exact fun _ h => absurd h List.not_mem_nil
  | d :: ds, vs, hds, h => by
    rw [toItems?] at h
    obtain ⟨v, hv, h⟩ := Option.bind_eq_some_iff.mp h
    obtain ⟨rest, hrest, h⟩ := Option.bind_eq_some_iff.mp h
    cases h
    intro w hw
    rcases List.mem_cons.mp hw with rfl | hw
    · exact toValue?_decoded (hds d (List.mem_cons_self ..)) hv
    · exact toItems?_decoded (fun d hd => hds d (List.mem_cons_of_mem _ hd)) hrest w hw

theorem toMembers?_decoded : ∀ {ms : List (Datum × Datum)} {pairs : List (String × Value)},
    (∀ m ∈ ms, m.2.HasFloats F) → toMembers? ms = some pairs → ∀ e ∈ pairs, e.2.Decoded F
  | [], pairs, _, h => by
    cases h
    exact fun _ h => absurd h List.not_mem_nil
  | (k, d) :: ms, pairs, hms, h => by
    cases k with
    | string k =>
      rw [toMembers?] at h
      obtain ⟨v, hv, h⟩ := Option.bind_eq_some_iff.mp h
      obtain ⟨rest, hrest, h⟩ := Option.bind_eq_some_iff.mp h
      cases h
      intro e he
      rcases List.mem_cons.mp he with rfl | he
      · exact toValue?_decoded (hms (_, d) (List.mem_cons_self ..)) hv
      · exact toMembers?_decoded (fun m hm => hms m (List.mem_cons_of_mem _ hm)) hrest e he
    | _ => cases h
end

/-- The keys of members are texts, and are kept. -/
theorem toMembers?_keys : ∀ {ms : List (Datum × Datum)} {pairs : List (String × Value)},
    toMembers? ms = some pairs → ms.map (·.1) = pairs.map fun e => .string e.1
  | [], pairs, h => by
    cases h
    rfl
  | (k, d) :: ms, pairs, h => by
    cases k with
    | string k =>
      rw [toMembers?] at h
      obtain ⟨v, -, h⟩ := Option.bind_eq_some_iff.mp h
      obtain ⟨rest, hrest, h⟩ := Option.bind_eq_some_iff.mp h
      cases h
      rw [List.map_cons, List.map_cons, toMembers?_keys hrest]
    | _ => cases h

/-- Only null is taken over as null. -/
theorem eq_null_of_toValue? {d : Datum} (hd : d.HasFloats F) (h : toValue? d = some .null) :
    d = .null := by
  cases hd with
  | null => rfl
  | array =>
    rw [toValue?] at h
    obtain ⟨_, -, h⟩ := Option.map_eq_some_iff.mp h
    cases h
  | object =>
    rw [toValue?] at h
    obtain ⟨_, -, h⟩ := Option.map_eq_some_iff.mp h
    cases h
  | _ => cases h

/-! ## Parts -/

theorem mem_of_mapM {α β : Type} {f : α → Option β} :
    ∀ {as : List α} {bs : List β}, as.mapM f = some bs → ∀ b ∈ bs, ∃ a ∈ as, f a = some b
  | [], bs, h, b, hb => by
    cases h
    exact absurd hb List.not_mem_nil
  | a :: as, bs, h, b, hb => by
    rw [List.mapM_cons] at h
    obtain ⟨first, hfirst, h⟩ := Option.bind_eq_some_iff.mp h
    obtain ⟨rest, hrest, h⟩ := Option.bind_eq_some_iff.mp h
    cases h
    rcases List.mem_cons.mp hb with rfl | hb
    · exact ⟨a, List.mem_cons_self .., hfirst⟩
    · obtain ⟨x, hx, hfound⟩ := mem_of_mapM hrest b hb
      exact ⟨x, List.mem_cons_of_mem _ hx, hfound⟩

theorem list?_decoded {α : Type} {read : Datum → Option α} {P : α → Prop} {d : Datum}
    {items : List α} (hd : d.HasFloats F)
    (hread : ∀ {d a}, d.HasFloats F → read d = some a → P a) (h : list? read d = some items) :
    ∀ a ∈ items, P a := by
  intro a ha
  cases hd with
  | array hds =>
    obtain ⟨d, hmem, hfound⟩ := mem_of_mapM h a ha
    exact hread (hds d hmem) hfound
  | _ => cases h

theorem option?_decoded {α : Type} {read : Datum → Option α} {P : α → Prop} {d : Datum}
    {a? : Option α} (hread : ∀ {a}, d ≠ .null → read d = some a → P a)
    (h : option? read d = some a?) : ∀ a, a? = some a → P a := by
  rintro a rfl
  unfold option? at h
  split at h
  next => cases h
  next hne =>
    obtain ⟨b, hb, heq⟩ := Option.map_eq_some_iff.mp h
    cases heq
    exact hread hne hb

theorem dict?_decoded {α : Type} {read : Datum → Option α} {P : α → Prop} {d : Datum}
    {dict : Dict α} (hd : d.HasFloats F)
    (hread : ∀ {d a}, d.HasFloats F → read d = some a → P a) (h : dict? read d = some dict) :
    ∀ e ∈ dict.entries, P e.2 := by
  intro e he
  cases hd with
  | object hmembers =>
    obtain ⟨pairs, hpairs, hdict⟩ := Option.bind_eq_some_iff.mp h
    cases hdict
    obtain ⟨m, hm, hpair⟩ := mem_of_mapM hpairs e (Entries.mem_ofList he)
    obtain ⟨k, -, hpair⟩ := Option.bind_eq_some_iff.mp hpair
    obtain ⟨a, ha, hpair⟩ := Option.bind_eq_some_iff.mp hpair
    cases hpair
    exact hread (hmembers m hm) ha
  | _ => cases h

end Datum

/-! ## Records -/

namespace Record

variable {names : List String} {strict : Bool} {d : Datum} {r : Record}

theorem add?_floats {present found : List (String × Datum)} {member : Datum × Datum}
    (hmember : member.2.HasFloats F) (hpresent : ∀ e ∈ present, e.2.HasFloats F)
    (h : add? names strict present member = some found) : ∀ e ∈ found, e.2.HasFloats F := by
  unfold add? at h
  obtain ⟨name, -, h⟩ := Option.bind_eq_some_iff.mp h
  split at h
  next =>
    split at h
    next => cases h
    next =>
      cases h
      intro e he
      rcases List.mem_append.mp he with he | he
      · exact hpresent e he
      · exact List.mem_singleton.mp he ▸ hmember
  next =>
    split at h
    next => cases h
    next =>
      cases h
      exact hpresent

/-- The fields of a record come from the data that it was read from. -/
theorem of?_floats (hd : d.HasFloats F) (h : of? names strict d = some r) :
    ∀ e ∈ r.present, e.2.HasFloats F := by
  cases hd with
  | @object members hmembers =>
    obtain ⟨present, hfold, h⟩ := Option.bind_eq_some_iff.mp h
    cases h
    have hall : ∀ (members : List (Datum × Datum)) {present found : List (String × Datum)},
        (∀ m ∈ members, m.2.HasFloats F) → (∀ e ∈ present, e.2.HasFloats F) →
        members.foldlM (add? names strict) present = some found → ∀ e ∈ found, e.2.HasFloats F := by
      intro members
      induction members with
      | nil =>
        intro present found _ hpresent h
        cases h
        exact hpresent
      | cons m members ih =>
        intro present found hmembers hpresent h
        rw [List.foldlM_cons] at h
        obtain ⟨next, hnext, h⟩ := Option.bind_eq_some_iff.mp h
        exact ih (fun m hm => hmembers m (List.mem_cons_of_mem _ hm))
          (add?_floats (hmembers m (List.mem_cons_self ..)) hpresent hnext) h
    exact hall members hmembers (fun _ h => absurd h List.not_mem_nil) hfold
  | @array items hitems =>
    rw [of?] at h
    split at h
    next =>
      cases h
      exact fun e he => hitems e.2 (List.of_mem_zip he).2
    next => cases h
  | _ => cases h

variable {α : Type} {read : Datum → Option α} {P : α → Prop} {name : String} {a : α}

/-- What a field that must be given is read as. -/
theorem need?_decoded (hr : ∀ e ∈ r.present, e.2.HasFloats F)
    (hread : ∀ {d a}, d.HasFloats F → read d = some a → P a) (h : r.need? name read = some a) :
    P a := by
  obtain ⟨d, hd, hfound⟩ := Option.bind_eq_some_iff.mp h
  exact hread (hr _ (Entries.mem_of_get? hd)) hfound

/-- What a field that may be left out is read as. -/
theorem orElse?_decoded {default : α} (hr : ∀ e ∈ r.present, e.2.HasFloats F) (hdefault : P default)
    (hread : ∀ {d a}, d.HasFloats F → read d = some a → P a)
    (h : r.orElse? name read default = some a) : P a := by
  unfold orElse? at h
  split at h
  next d hd => exact hread (hr _ (Entries.mem_of_get? hd)) h
  next =>
    cases h
    exact hdefault

/-- What a field that may be null or left out is read as, if it is anything. -/
theorem option?_decoded {a? : Option α} (hr : ∀ e ∈ r.present, e.2.HasFloats F)
    (hread : ∀ {d a}, d.HasFloats F → d ≠ .null → read d = some a → P a)
    (h : r.orElse? name (Datum.option? read) none = some a?) : ∀ a, a? = some a → P a :=
  orElse?_decoded (P := fun a? => ∀ a, a? = some a → P a) hr (by rintro a ⟨⟩)
    (fun hd => Datum.option?_decoded (hread hd)) h

end Record

/-! ## Definitions -/

def GeneratorRef.Decoded (F : Binary64 → Prop) (ref : GeneratorRef) : Prop :=
  ∀ v ∈ ref.args, v.Decoded F

def Condition.Decoded (F : Binary64 → Prop) (c : Condition) : Prop :=
  ∀ clause ∈ c.clauses, ∀ r ∈ clause, r.value.Decoded F

/-- The values that a field declares. -/
structure FieldAttributes.Decoded (F : Binary64 → Prop) (a : FieldAttributes) : Prop where
  default : ∀ v, a.defaultValue = some v → v ≠ .null ∧ v.Decoded F
  condition : ∀ c, a.condition = some c → c.Decoded F
  options : ∀ e ∈ a.options.entries, e.1 ∉ FieldDeclaration.fieldNames ∧ e.2.Decoded F

inductive FieldSlot.Decoded (F : Binary64 → Prop) : FieldSlot → Prop
  | generated {ref : GeneratorRef} (h : ref.Decoded F) : Decoded F (.generated ref)
  | literal {d : FieldDeclaration} (hattributes : d.attributes.Decoded F)
      (hsubs : ∀ s ∈ d.subFields, Decoded F s) : Decoded F (.literal d)

/-- The slots of a block, in all groups. -/
def BlockDefinition.Decoded (F : Binary64 → Prop) (b : BlockDefinition) : Prop :=
  ∀ s ∈ b.content ++ b.customise ++ b.configure, s.Decoded F

def Definitions.Decoded (F : Binary64 → Prop) (d : Definitions) : Prop :=
  ∀ e ∈ d.blocks.entries, e.2.Decoded F

theorem GeneratorRef.ofDatum?_decoded {d : Datum} {ref : GeneratorRef} (hd : d.HasFloats F)
    (h : ofDatum? d = some ref) : ref.Decoded F := by
  obtain ⟨r, hr, h⟩ := Option.bind_eq_some_iff.mp h
  obtain ⟨generator, -, h⟩ := Option.bind_eq_some_iff.mp h
  obtain ⟨args, hargs, h⟩ := Option.bind_eq_some_iff.mp h
  cases h
  exact Record.orElse?_decoded (P := fun args => ∀ v ∈ args, Value.Decoded F v)
    (Record.of?_floats hd hr) (fun _ h => absurd h List.not_mem_nil)
    (fun hd => Datum.list?_decoded hd Datum.toValue?_decoded) hargs

theorem ConditionRule.ofDatum?_decoded {d : Datum} {rule : ConditionRule} (hd : d.HasFloats F)
    (h : ofDatum? d = some rule) : rule.value.Decoded F := by
  obtain ⟨r, hr, h⟩ := Option.bind_eq_some_iff.mp h
  obtain ⟨field, -, h⟩ := Option.bind_eq_some_iff.mp h
  obtain ⟨operator, -, h⟩ := Option.bind_eq_some_iff.mp h
  obtain ⟨value, hvalue, h⟩ := Option.bind_eq_some_iff.mp h
  cases h
  exact Record.need?_decoded (Record.of?_floats hd hr) Datum.toValue?_decoded hvalue

theorem Condition.ofDatum?_decoded {d : Datum} {c : Condition} (hd : d.HasFloats F)
    (h : ofDatum? d = some c) : c.Decoded F := by
  unfold ofDatum? at h
  rw [Option.orElse_eq_orElse, Option.orElse_eq_or, Option.or_eq_some_iff] at h
  rcases h with h | ⟨-, h⟩
  · obtain ⟨rule, hrule, rfl⟩ := Option.map_eq_some_iff.mp h
    intro clause hclause r hr
    rw [List.mem_singleton.mp hclause] at hr
    rw [List.mem_singleton.mp hr]
    exact ConditionRule.ofDatum?_decoded hd hrule
  · obtain ⟨clauses, hclauses, rfl⟩ := Option.map_eq_some_iff.mp h
    exact Datum.list?_decoded hd
      (fun hd => Datum.list?_decoded hd ConditionRule.ofDatum?_decoded) hclauses

theorem FieldDeclaration.attributes?_decoded {members : List (Datum × Datum)}
    {a : FieldAttributes} (hmembers : ∀ m ∈ members, m.2.HasFloats F)
    (h : attributes? members = some a) : a.Decoded F := by
  obtain ⟨r, hr, h⟩ := Option.bind_eq_some_iff.mp h
  obtain ⟨label, -, h⟩ := Option.bind_eq_some_iff.mp h
  obtain ⟨type, -, h⟩ := Option.bind_eq_some_iff.mp h
  obtain ⟨instructions, -, h⟩ := Option.bind_eq_some_iff.mp h
  obtain ⟨required, -, h⟩ := Option.bind_eq_some_iff.mp h
  obtain ⟨defaultValue, hdefault, h⟩ := Option.bind_eq_some_iff.mp h
  obtain ⟨condition, hcondition, h⟩ := Option.bind_eq_some_iff.mp h
  obtain ⟨blocks, -, h⟩ := Option.bind_eq_some_iff.mp h
  obtain ⟨options, hoptions, h⟩ := Option.bind_eq_some_iff.mp h
  cases h
  have hpart : ∀ p : Datum × Datum → Bool, ∀ m ∈ members.filter p, m.2.HasFloats F :=
    fun p m hm => hmembers m (List.mem_filter.mp hm).1
  have hfields := Record.of?_floats (.object (hpart _)) hr
  refine ⟨?_, ?_, fun e he => ⟨?_, ?_⟩⟩
  · refine Record.option?_decoded hfields (fun hd hne hv => ⟨?_, Datum.toValue?_decoded hd hv⟩)
      hdefault
    rintro rfl
    exact hne (Datum.eq_null_of_toValue? hd hv)
  · exact Record.option?_decoded hfields (fun hd _ => Condition.ofDatum?_decoded hd) hcondition
  · have hkey : Datum.string e.1 ∈ (members.filter isOption).map (·.1) := by
      rw [Datum.toMembers?_keys hoptions]
      exact List.mem_map.mpr ⟨e, Entries.mem_ofList he, rfl⟩
    obtain ⟨⟨k, d⟩, hm, rfl⟩ := List.mem_map.mp hkey
    simpa [isOption] using (List.mem_filter.mp hm).2
  · exact Datum.toMembers?_decoded (hpart _) hoptions e (Entries.mem_ofList he)

mutual
theorem FieldSlot.ofDatum?_decoded : ∀ {d : Datum} {s : FieldSlot}, d.HasFloats F →
    FieldSlot.ofDatum? d = some s → s.Decoded F
  | .object members, s, .object hmembers, h => by
    rw [FieldSlot.ofDatum?, Option.orElse_eq_orElse, Option.orElse_eq_or,
      Option.or_eq_some_iff] at h
    rcases h with h | ⟨-, h⟩
    · obtain ⟨ref, href, rfl⟩ := Option.map_eq_some_iff.mp h
      exact .generated (GeneratorRef.ofDatum?_decoded (.object hmembers) href)
    · obtain ⟨attributes, hattributes, h⟩ := Option.bind_eq_some_iff.mp h
      obtain ⟨name, -, h⟩ := Option.bind_eq_some_iff.mp h
      obtain ⟨subs, hsubs, h⟩ := Option.bind_eq_some_iff.mp h
      cases h
      exact .literal (FieldDeclaration.attributes?_decoded hmembers hattributes)
        (FieldSlot.subFields?_decoded hmembers hsubs)
  | .array items, s, hd, h => by
    rw [FieldSlot.ofDatum?] at h
    · obtain ⟨ref, href, rfl⟩ := Option.map_eq_some_iff.mp h
      exact .generated (GeneratorRef.ofDatum?_decoded hd href)
    · exact nofun
  | .null, s, _, h | .bool _, s, _, h | .int _, s, _, h | .float _, s, _, h
  | .string _, s, _, h => by
    rw [FieldSlot.ofDatum?] at h
    · cases h
    · exact nofun

theorem FieldSlot.subFields?_decoded : ∀ {members : List (Datum × Datum)} {ss : List FieldSlot},
    (∀ m ∈ members, m.2.HasFloats F) → FieldSlot.subFields? members = some ss →
    ∀ s ∈ ss, s.Decoded F
  | [], ss, _, h => by
    cases h
    exact fun _ h => absurd h List.not_mem_nil
  | (key, .array items) :: rest, ss, hmembers, h => by
    rw [FieldSlot.subFields?] at h
    have hrest : ∀ m ∈ rest, m.2.HasFloats F := fun m hm => hmembers m (List.mem_cons_of_mem _ hm)
    split at h
    next =>
      cases hmembers _ (List.mem_cons_self ..) with
      | array hitems => exact FieldSlot.ofItems?_decoded hitems h
    next => exact FieldSlot.subFields?_decoded hrest h
  | (key, .null) :: rest, ss, hmembers, h | (key, .bool _) :: rest, ss, hmembers, h
  | (key, .int _) :: rest, ss, hmembers, h | (key, .float _) :: rest, ss, hmembers, h
  | (key, .string _) :: rest, ss, hmembers, h | (key, .object _) :: rest, ss, hmembers, h => by
    rw [FieldSlot.subFields?] at h
    · split at h
      next => cases h
      next =>
        exact FieldSlot.subFields?_decoded (fun m hm => hmembers m (List.mem_cons_of_mem _ hm)) h
    · exact nofun

theorem FieldSlot.ofItems?_decoded : ∀ {ds : List Datum} {ss : List FieldSlot},
    (∀ d ∈ ds, d.HasFloats F) → FieldSlot.ofItems? ds = some ss → ∀ s ∈ ss, s.Decoded F
  | [], ss, _, h => by
    cases h
    exact fun _ h => absurd h List.not_mem_nil
  | d :: ds, ss, hds, h => by
    rw [FieldSlot.ofItems?] at h
    obtain ⟨s, hs, h⟩ := Option.bind_eq_some_iff.mp h
    obtain ⟨rest, hrest, h⟩ := Option.bind_eq_some_iff.mp h
    cases h
    intro s' hs'
    rcases List.mem_cons.mp hs' with heq | hs'
    · rw [heq]
      exact FieldSlot.ofDatum?_decoded (hds d (List.mem_cons_self ..)) hs
    · exact FieldSlot.ofItems?_decoded (fun d hd => hds d (List.mem_cons_of_mem _ hd)) hrest s' hs'
end

theorem FieldSlot.list?_decoded {d : Datum} {ss : List FieldSlot} (hd : d.HasFloats F)
    (h : FieldSlot.list? d = some ss) : ∀ s ∈ ss, s.Decoded F := by
  cases hd with
  | array hitems => exact FieldSlot.ofItems?_decoded hitems h
  | _ => cases h

theorem BlockDefinition.ofDatum?_decoded {d : Datum} {b : BlockDefinition} (hd : d.HasFloats F)
    (h : ofDatum? d = some b) : b.Decoded F := by
  obtain ⟨r, hr, h⟩ := Option.bind_eq_some_iff.mp h
  obtain ⟨label, -, h⟩ := Option.bind_eq_some_iff.mp h
  obtain ⟨description, -, h⟩ := Option.bind_eq_some_iff.mp h
  obtain ⟨kind, -, h⟩ := Option.bind_eq_some_iff.mp h
  obtain ⟨display, -, h⟩ := Option.bind_eq_some_iff.mp h
  obtain ⟨content, hcontent, h⟩ := Option.bind_eq_some_iff.mp h
  obtain ⟨customise, hcustomise, h⟩ := Option.bind_eq_some_iff.mp h
  obtain ⟨configure, hconfigure, h⟩ := Option.bind_eq_some_iff.mp h
  obtain ⟨blocks, -, h⟩ := Option.bind_eq_some_iff.mp h
  obtain ⟨rules, -, h⟩ := Option.bind_eq_some_iff.mp h
  cases h
  have hslots : ∀ {name : String} {ss : List FieldSlot},
      r.orElse? name FieldSlot.list? [] = some ss → ∀ s ∈ ss, s.Decoded F := fun h =>
    Record.orElse?_decoded (P := fun ss => ∀ s ∈ ss, FieldSlot.Decoded F s)
      (Record.of?_floats hd hr) (fun _ h => absurd h List.not_mem_nil) FieldSlot.list?_decoded h
  intro s hs
  rw [List.mem_append, List.mem_append] at hs
  rcases hs with (hs | hs) | hs
  · exact hslots hcontent s hs
  · exact hslots hcustomise s hs
  · exact hslots hconfigure s hs

/-- The values that decoded definitions keep are in order, as are the names of their options and
their defaults. -/
theorem Definitions.ofDatum?_decoded {d : Datum} {definitions : Definitions} (hd : d.HasFloats F)
    (h : ofDatum? d = some definitions) : definitions.Decoded F := by
  obtain ⟨r, hr, h⟩ := Option.bind_eq_some_iff.mp h
  obtain ⟨settings, -, h⟩ := Option.bind_eq_some_iff.mp h
  obtain ⟨includes, -, h⟩ := Option.bind_eq_some_iff.mp h
  obtain ⟨blocks, hblocks, h⟩ := Option.bind_eq_some_iff.mp h
  obtain ⟨layouts, -, h⟩ := Option.bind_eq_some_iff.mp h
  cases h
  exact Record.orElse?_decoded (P := fun blocks => ∀ e ∈ blocks.entries, e.2.Decoded F)
    (Record.of?_floats hd hr) (fun _ h => absurd h List.not_mem_nil)
    (fun hd => Datum.dict?_decoded hd BlockDefinition.ofDatum?_decoded) hblocks

end PageBlocks
