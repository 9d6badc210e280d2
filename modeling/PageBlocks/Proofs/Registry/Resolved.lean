import PageBlocks.Proofs.Attempt
import PageBlocks.Registry.Build

/-!
# What a declaration is resolved to

A slot stands for the declarations in it: for the one that it holds, or for
those that its reference brings, which are none where no generator has the
name. A declaration is resolved to a field of its name with what it declares,
and its sub-fields to what their slots stand for, one field for each
declaration, in order. `Resolved` says so without saying how references are
followed, and it leaves no choice (`AllResolved.unique`).

> `resolveSlots_resolved`: whatever is resolved from slots is what they stand
> for, however long the chains of references were allowed to be.
-/

namespace PageBlocks

/-- The declarations that a slot stands for. -/
def FieldSlot.declared (generators : Generators) : FieldSlot → List FieldDeclaration
  | .literal d => [d]
  | .generated ref => (generators.resolve? ref).getD []

/-- The slots of a group of a block. -/
def BlockDefinition.slots (d : BlockDefinition) : FieldGroup → List FieldSlot
  | .content => d.content
  | .customise => d.customise
  | .configure => d.configure

/-- The name that a declaration goes by: its own, or the one made from its label if it has none. -/
inductive FieldDeclaration.GoesBy (letters : Transliteration) (d : FieldDeclaration) :
    String → Prop
  | own {name : String} (h : d.name = some name) : GoesBy letters d name
  | label {label : String} (hnone : d.name = none) (hlabel : d.attributes.label = some label) :
      GoesBy letters d (nameFromLabel letters label)

mutual
/-- A declaration and the field that it is resolved to. -/
inductive Resolved (generators : Generators) (letters : Transliteration) :
    FieldDeclaration → Field → Prop
  | mk {d : FieldDeclaration} {f : Field} (hname : d.GoesBy letters f.name)
      (hvalid : isValidName f.name = true) (hattributes : f.attributes = d.attributes)
      (hsubs : AllResolved generators letters
        (d.subFields.flatMap (FieldSlot.declared generators)) f.subFields) :
      Resolved generators letters d f

/-- Declarations and the fields that they are resolved to, in order. -/
inductive AllResolved (generators : Generators) (letters : Transliteration) :
    List FieldDeclaration → List Field → Prop
  | nil : AllResolved generators letters [] []
  | cons {d : FieldDeclaration} {f : Field} {ds : List FieldDeclaration} {fs : List Field}
      (hd : Resolved generators letters d f)
      (hds : AllResolved generators letters ds fs) :
      AllResolved generators letters (d :: ds) (f :: fs)
end

/-- A field and the fields below it have valid names. -/
inductive Field.Named : Field → Prop
  | mk {f : Field} (hname : isValidName f.name = true) (hsubs : ∀ s ∈ f.subFields, Named s) :
      Named f

theorem Field.Named.subFields {f : Field} (h : f.Named) : ∀ s ∈ f.subFields, s.Named := by
  cases h
  assumption

theorem Field.Named.name {f : Field} (h : f.Named) : isValidName f.name = true := by
  cases h
  assumption

open Attempt

variable {generators : Generators} {letters : Transliteration}

/-! ## What a declaration is resolved to is determined -/

theorem FieldDeclaration.GoesBy.unique {d : FieldDeclaration} {name name' : String}
    (h : d.GoesBy letters name) (h' : d.GoesBy letters name') : name = name' := by
  cases h with
  | own hname =>
    cases h' with
    | own hname' => exact Option.some.inj (hname.symm.trans hname')
    | label hnone' _ => exact absurd (hname.symm.trans hnone') nofun
  | label hnone hlabel =>
    cases h' with
    | own hname' => exact absurd (hname'.symm.trans hnone) nofun
    | label _ hlabel' => rw [Option.some.inj (hlabel.symm.trans hlabel')]

mutual
theorem Resolved.unique : ∀ {d : FieldDeclaration} {f f' : Field},
    Resolved generators letters d f → Resolved generators letters d f' → f = f'
  | _, ⟨_, _, _⟩, ⟨_, _, _⟩, .mk hname _ hattributes hsubs, .mk hname' _ hattributes' hsubs' => by
    obtain rfl := hname.unique hname'
    obtain rfl := hattributes.trans hattributes'.symm
    obtain rfl := hsubs.unique hsubs'
    rfl

theorem AllResolved.unique : ∀ {ds : List FieldDeclaration} {fs fs' : List Field},
    AllResolved generators letters ds fs → AllResolved generators letters ds fs' → fs = fs'
  | _, _, _, .nil, .nil => rfl
  | _, _, _, .cons hd hds, .cons hd' hds' => by
    obtain rfl := hd.unique hd'
    obtain rfl := hds.unique hds'
    rfl
end

/-! ## Names -/

mutual
theorem Resolved.named : ∀ {d : FieldDeclaration} {f : Field},
    Resolved generators letters d f → f.Named
  | _, _, .mk _ hvalid _ hsubs => .mk hvalid hsubs.named

theorem AllResolved.named : ∀ {ds : List FieldDeclaration} {fs : List Field},
    AllResolved generators letters ds fs → ∀ f ∈ fs, f.Named
  | _, _, .nil => List.forall_mem_nil _
  | _, _, .cons hd hds => List.forall_mem_cons.mpr ⟨hd.named, hds.named⟩
end

theorem AllResolved.append {ds ds' : List FieldDeclaration} {fs fs' : List Field} :
    AllResolved generators letters ds fs → AllResolved generators letters ds' fs' →
      AllResolved generators letters (ds ++ ds') (fs ++ fs')
  | .nil, h' => h'
  | .cons hd hds, h' => .cons hd (hds.append h')

/-- A declaration with neither a name nor a label goes by none, and the empty name is not valid. -/
theorem Resolve.nameOf_goesBy {d : FieldDeclaration}
    (hvalid : isValidName (nameOf letters d) = true) : d.GoesBy letters (nameOf letters d) := by
  unfold nameOf at hvalid ⊢
  split
  next hname => exact .own hname
  next hname hlabel => exact .label hname hlabel
  next hname hlabel =>
    rw [hname, hlabel] at hvalid
    exact absurd (show isValidName "" = true from hvalid) (by decide)

/-! ## Resolving -/

namespace Resolve

variable {entity : String} {expandRef : GeneratorRef → Attempt (List Field)}

mutual
theorem declaration_resolved
    (href : ∀ ref fs, Gives (expandRef ref) fs →
      AllResolved generators letters (FieldSlot.declared generators (.generated ref)) fs) :
    ∀ (d : FieldDeclaration) {f : Field}, Gives (declaration letters entity expandRef d) f →
      Resolved generators letters d f
  | ⟨name, attributes, subFields⟩, f, h => by
    rw [declaration] at h
    split at h
    next hvalid =>
      obtain ⟨subs, hsubs, hpure⟩ := gives_bind h
      obtain rfl := gives_pure hpure
      exact .mk (nameOf_goesBy hvalid) hvalid rfl (slots_resolved href subFields hsubs)
    next => exact (gives_throw h).elim

theorem slots_resolved
    (href : ∀ ref fs, Gives (expandRef ref) fs →
      AllResolved generators letters (FieldSlot.declared generators (.generated ref)) fs) :
    ∀ (ss : List FieldSlot) {fs : List Field}, Gives (slots letters entity expandRef ss) fs →
      AllResolved generators letters (ss.flatMap (FieldSlot.declared generators)) fs
  | [], fs, h => by
    rw [slots] at h
    obtain rfl := gives_pure h
    exact .nil
  | s :: ss, fs, h => by
    rw [slots] at h
    obtain ⟨here, hhere, h₁⟩ := gives_bind h
    obtain ⟨rest, hrest, hpure⟩ := gives_bind h₁
    obtain rfl := gives_pure hpure
    rw [List.flatMap_cons]
    exact (single_resolved href s hhere).append (slots_resolved href ss hrest)

theorem single_resolved
    (href : ∀ ref fs, Gives (expandRef ref) fs →
      AllResolved generators letters (FieldSlot.declared generators (.generated ref)) fs) :
    ∀ (s : FieldSlot) {fs : List Field}, Gives (single letters entity expandRef s) fs →
      AllResolved generators letters (s.declared generators) fs
  | .literal d, fs, h => by
    rw [single] at h
    obtain ⟨f, hf, hpure⟩ := gives_bind h
    obtain rfl := gives_pure hpure
    exact .cons (declaration_resolved href d hf) .nil
  | .generated ref, fs, h => by
    rw [single] at h
    exact href ref fs h
end

theorem declarations_resolved
    (href : ∀ ref fs, Gives (expandRef ref) fs →
      AllResolved generators letters (FieldSlot.declared generators (.generated ref)) fs) :
    ∀ {ds : List FieldDeclaration} {fs : List Field},
      Gives (declarations letters entity expandRef ds) fs → AllResolved generators letters ds fs
  | [], fs, h => by
    rw [declarations, List.mapM_nil] at h
    obtain rfl := gives_pure h
    exact .nil
  | d :: ds, fs, h => by
    rw [declarations, List.mapM_cons] at h
    obtain ⟨f, hf, h₁⟩ := gives_bind h
    obtain ⟨rest, hrest, hpure⟩ := gives_bind h₁
    obtain rfl := gives_pure hpure
    exact .cons (declaration_resolved href d hf) (declarations_resolved href hrest)

end Resolve

/-- Nothing stands for a reference to a generator that there is not. -/
theorem expand_unknown {entity : String} {limit : Nat} {ref : GeneratorRef}
    (h : generators.resolve? ref = none) :
    expand generators letters entity limit ref =
      (do Attempt.note (.unknownGenerator ref.generator entity); return []) := by
  unfold expand
  rw [h]

/-- What a known reference brings is resolved by shorter chains, if any chain is left. -/
theorem expand_known {entity : String} {limit : Nat} {ref : GeneratorRef}
    {ds : List FieldDeclaration} (h : generators.resolve? ref = some ds) :
    expand generators letters entity limit ref =
      match limit with
      | 0 => throw .expansionLimit
      | limit + 1 =>
        Resolve.declarations letters entity (expand generators letters entity limit) ds := by
  cases limit with
  | zero =>
    unfold expand
    simp only [h]
  | succ limit =>
    unfold expand
    simp only [h]

theorem unknown_resolved {entity : String} {limit : Nat} {ref : GeneratorRef} {fs : List Field}
    (hunknown : generators.resolve? ref = none)
    (h : Gives (expand generators letters entity limit ref) fs) :
    AllResolved generators letters (FieldSlot.declared generators (.generated ref)) fs := by
  rw [expand_unknown hunknown] at h
  obtain ⟨_, _, hpure⟩ := gives_bind h
  obtain rfl := gives_pure hpure
  rw [FieldSlot.declared, hunknown]
  exact .nil

/-- A reference is resolved to what it brings. -/
theorem expand_resolved {entity : String} (limit : Nat) :
    ∀ (ref : GeneratorRef) (fs : List Field),
      Gives (expand generators letters entity limit ref) fs →
      AllResolved generators letters (FieldSlot.declared generators (.generated ref)) fs := by
  induction limit with
  | zero =>
    intro ref fs h
    cases hknown : generators.resolve? ref with
    | none => exact unknown_resolved hknown h
    | some ds =>
      rw [expand_known hknown] at h
      exact (gives_throw h).elim
  | succ limit ih =>
    intro ref fs h
    cases hknown : generators.resolve? ref with
    | none => exact unknown_resolved hknown h
    | some ds =>
      rw [expand_known hknown] at h
      rw [FieldSlot.declared, hknown]
      exact Resolve.declarations_resolved ih h

theorem resolveSlots_resolved {limit : Nat} {entity : String} {slots : List FieldSlot}
    {fs : List Field} (h : Gives (resolveSlots generators letters limit entity slots) fs) :
    AllResolved generators letters (slots.flatMap (FieldSlot.declared generators)) fs :=
  Resolve.slots_resolved (expand_resolved limit) slots h

/-! ## No reference is left -/

/-- A declaration with a valid name of its own and with declarations alone for its sub-fields, all
of them of this kind. -/
inductive FieldDeclaration.Settled : FieldDeclaration → Prop
  | mk {d : FieldDeclaration} {name : String} (hname : d.name = some name)
      (hvalid : isValidName name = true) (hliteral : ∀ ref, .generated ref ∉ d.subFields)
      (hsubs : ∀ s, .literal s ∈ d.subFields → Settled s) : Settled d

namespace Field

theorem toSlots_eq_map : ∀ fs : List Field, toSlots fs = fs.map fun f => .literal f.toDeclaration
  | [] => by rw [toSlots, List.map_nil]
  | f :: fs => by rw [toSlots, toSlots_eq_map fs, List.map_cons]

theorem subFields_toDeclaration (f : Field) :
    f.toDeclaration.subFields = f.subFields.map fun s => .literal s.toDeclaration := by
  obtain ⟨name, attributes, subFields⟩ := f
  rw [toDeclaration, toSlots_eq_map]

theorem name_toDeclaration (f : Field) : f.toDeclaration.name = some f.name := by
  obtain ⟨name, attributes, subFields⟩ := f
  rw [toDeclaration]

/-- What a field with valid names amounts to holds no reference to a generator. -/
theorem Named.settled {f : Field} (h : f.Named) : f.toDeclaration.Settled := by
  induction h with
  | mk hname _ ih =>
    refine .mk (name_toDeclaration _) hname (fun ref href => ?_) fun s hs => ?_
    · rw [subFields_toDeclaration] at href
      obtain ⟨_, _, heq⟩ := List.mem_map.mp href
      cases heq
    · rw [subFields_toDeclaration] at hs
      obtain ⟨sub, hsub, heq⟩ := List.mem_map.mp hs
      cases heq
      exact ih sub hsub

end Field

end PageBlocks
