import PageBlocks.Proofs.Registry.Expansion

/-!
# When resolving ends

What a reference brings may hold further references, and resolving follows them
all. So it ends where no chain of references goes on for ever, which is to say
where the references are accessible along `BroughtBy`, and it succeeds nowhere
else. Nothing forbids an endless chain: a generator may bring a reference to
itself, and then no length of chains is enough (`loop_never_ends`).

Two facts about a given length carry this. An attempt that does not run out of
links does the same whatever more is allowed (`Extends`), and one that succeeds
has followed every reference that it met.

> `build_ends`: some length is enough for definitions with no endless chain, a
> length that is enough decides what is built, and a registry is built of no
> other definitions.
-/

namespace PageBlocks

open Attempt

/-! ## Attempts that run out -/

namespace Attempt

variable {α β : Type}

/-- An attempt does not run out of links: it succeeds, or fails for another reason. -/
def Ends (x : Attempt α) : Prop := x.run.value ≠ .error .expansionLimit

/-- An attempt does what another does, unless the other runs out. -/
def Extends (x y : Attempt α) : Prop := Ends x → y = x

theorem ends_pure (a : α) : Ends (pure a : Attempt α) := nofun

theorem ends_throw {e : Error} (he : e ≠ .expansionLimit) : Ends (throw e : Attempt α) :=
  fun hout => he (Except.error.inj hout)

theorem ends_bind {x : Attempt α} {f : α → Attempt β} (hx : Ends x)
    (hf : ∀ a, Gives x a → Ends (f a)) : Ends (x >>= f) := by
  unfold Ends at hx ⊢
  cases hrun : x.run with
  | mk value notices =>
    rw [hrun] at hx
    cases value with
    | error e =>
      rw [run_bind_error hrun]
      exact fun hout => hx (congrArg _ (Except.error.inj hout))
    | ok a =>
      rw [run_bind_ok hrun]
      exact hf a (congrArg Noted.value hrun)

theorem ends_of_bind {x : Attempt α} {f : α → Attempt β} (h : Ends (x >>= f)) : Ends x := by
  intro hout
  cases hrun : x.run with
  | mk value notices =>
    rw [hrun] at hout
    obtain rfl : value = .error .expansionLimit := hout
    exact h (by rw [run_bind_error hrun])

theorem ends_mapM {f : α → Attempt β} :
    ∀ {as : List α}, (∀ a ∈ as, Ends (f a)) → Ends (as.mapM f)
  | [], _ => by
    rw [List.mapM_nil]
    exact ends_pure []
  | a :: as, h => by
    obtain ⟨ha, has⟩ := List.forall_mem_cons.mp h
    rw [List.mapM_cons]
    exact ends_bind ha fun _ _ => ends_bind (ends_mapM has) fun _ _ => ends_pure _

theorem extends_self {x : Attempt α} : Extends x x := fun _ => rfl

theorem Extends.trans {x y z : Attempt α} (hxy : Extends x y) (hyz : Extends y z) :
    Extends x z := by
  intro hends
  have hy := hxy hends
  rw [← hy] at hends
  rw [hyz hends, hy]

theorem Extends.bind {x y : Attempt α} {f g : α → Attempt β} (h : Extends x y)
    (hf : ∀ a, Extends (f a) (g a)) : Extends (x >>= f) (y >>= g) := by
  intro hends
  rw [h (ends_of_bind hends)]
  apply ExceptT.ext
  cases hrun : x.run with
  | mk value notices =>
    cases value with
    | error e => rw [run_bind_error hrun, run_bind_error hrun]
    | ok a =>
      have hfa : Ends (f a) := by
        rw [Ends, run_bind_ok hrun] at hends
        exact hends
      rw [run_bind_ok hrun, run_bind_ok hrun, hf a hfa]

theorem Extends.mapM {f g : α → Attempt β} (h : ∀ a, Extends (f a) (g a)) :
    ∀ as : List α, Extends (as.mapM f) (as.mapM g)
  | [] => by
    rw [List.mapM_nil, List.mapM_nil]
    exact extends_self
  | a :: as => by
    rw [List.mapM_cons, List.mapM_cons]
    exact (h a).bind fun _ => (Extends.mapM h as).bind fun _ => extends_self

end Attempt

/-! ## Chains of references -/

mutual
/-- The references in a declaration, at any depth. -/
def FieldDeclaration.references : FieldDeclaration → List GeneratorRef
  | ⟨_, _, subFields⟩ => FieldSlot.allReferences subFields

/-- The references in slots, at any depth. -/
def FieldSlot.allReferences : List FieldSlot → List GeneratorRef
  | [] => []
  | slot :: rest => slot.references ++ FieldSlot.allReferences rest

/-- The references in a slot, at any depth. -/
def FieldSlot.references : FieldSlot → List GeneratorRef
  | .literal d => d.references
  | .generated ref => [ref]
end

/-- The references in definitions. -/
def Definitions.references (definitions : Definitions) : List GeneratorRef :=
  definitions.blocks.values.flatMap fun d =>
    [.content, .customise, .configure].flatMap fun g => FieldSlot.allReferences (d.slots g)

/-- The references in what a reference brings. -/
def Generators.links (generators : Generators) (ref : GeneratorRef) : List GeneratorRef :=
  (FieldSlot.declared generators (.generated ref)).flatMap (·.references)

/-- One link of a chain: a reference stands in what another one brings. -/
def Generators.BroughtBy (generators : Generators) (ref' ref : GeneratorRef) : Prop :=
  ref' ∈ generators.links ref

theorem Definitions.mem_references {definitions : Definitions} {ref : GeneratorRef} :
    ref ∈ definitions.references ↔
      ∃ name d g, definitions.blocks.get? name = some d ∧
        ref ∈ FieldSlot.allReferences (d.slots g) := by
  unfold Definitions.references
  rw [List.mem_flatMap]
  constructor
  · rintro ⟨d, hd, href⟩
    obtain ⟨name, hname⟩ := Dict.mem_values_iff.mp hd
    obtain ⟨g, -, hg⟩ := List.mem_flatMap.mp href
    exact ⟨name, d, g, hname, hg⟩
  · rintro ⟨name, d, g, hname, href⟩
    refine ⟨d, Dict.mem_values_iff.mpr ⟨name, hname⟩, List.mem_flatMap.mpr ⟨g, ?_, href⟩⟩
    cases g <;> decide

/-! ## Resolving with another way to expand -/

namespace Resolve

variable {letters : Transliteration} {entity : String}
  {expandRef expandRef' : GeneratorRef → Attempt (List Field)}

mutual
theorem declaration_ends : ∀ {d : FieldDeclaration}, (∀ ref ∈ d.references, Ends (expandRef ref)) →
    Ends (declaration letters entity expandRef d)
  | ⟨name, attributes, subFields⟩, href => by
    rw [FieldDeclaration.references] at href
    rw [declaration]
    split
    next => exact ends_bind (slots_ends href) fun _ _ => ends_pure _
    next => exact ends_throw nofun

theorem slots_ends : ∀ {ss : List FieldSlot},
    (∀ ref ∈ FieldSlot.allReferences ss, Ends (expandRef ref)) →
      Ends (slots letters entity expandRef ss)
  | [], _ => by
    rw [slots]
    exact ends_pure []
  | s :: ss, href => by
    rw [FieldSlot.allReferences] at href
    obtain ⟨hs, hss⟩ := List.forall_mem_append.mp href
    rw [slots]
    exact ends_bind (single_ends hs) fun _ _ => ends_bind (slots_ends hss) fun _ _ => ends_pure _

theorem single_ends : ∀ {s : FieldSlot}, (∀ ref ∈ s.references, Ends (expandRef ref)) →
    Ends (single letters entity expandRef s)
  | .literal d, href => by
    rw [FieldSlot.references] at href
    rw [single]
    exact ends_bind (declaration_ends href) fun _ _ => ends_pure _
  | .generated ref, href => by
    rw [FieldSlot.references] at href
    rw [single]
    exact href ref (List.mem_singleton_self ref)
end

mutual
theorem declaration_extends (href : ∀ ref, Extends (expandRef ref) (expandRef' ref)) :
    ∀ d : FieldDeclaration,
      Extends (declaration letters entity expandRef d) (declaration letters entity expandRef' d)
  | ⟨name, attributes, subFields⟩ => by
    rw [declaration, declaration]
    split
    next => exact (slots_extends href subFields).bind fun _ => extends_self
    next => exact extends_self

theorem slots_extends (href : ∀ ref, Extends (expandRef ref) (expandRef' ref)) :
    ∀ ss : List FieldSlot,
      Extends (slots letters entity expandRef ss) (slots letters entity expandRef' ss)
  | [] => by
    rw [slots, slots]
    exact extends_self
  | s :: ss => by
    rw [slots, slots]
    exact (single_extends href s).bind fun _ => (slots_extends href ss).bind fun _ => extends_self

theorem single_extends (href : ∀ ref, Extends (expandRef ref) (expandRef' ref)) :
    ∀ s : FieldSlot,
      Extends (single letters entity expandRef s) (single letters entity expandRef' s)
  | .literal d => by
    rw [single, single]
    exact (declaration_extends href d).bind fun _ => extends_self
  | .generated ref => by
    rw [single, single]
    exact href ref
end

mutual
/-- What succeeds has expanded every reference in a declaration. -/
theorem declaration_expanded : ∀ {d : FieldDeclaration} {f : Field},
    Gives (declaration letters entity expandRef d) f →
      ∀ ref ∈ d.references, ∃ fs, Gives (expandRef ref) fs
  | ⟨name, attributes, subFields⟩, f, h => by
    rw [declaration] at h
    rw [FieldDeclaration.references]
    split at h
    next =>
      obtain ⟨subs, hsubs, -⟩ := gives_bind h
      exact slots_expanded hsubs
    next => exact (gives_throw h).elim

theorem slots_expanded : ∀ {ss : List FieldSlot} {fs : List Field},
    Gives (slots letters entity expandRef ss) fs →
      ∀ ref ∈ FieldSlot.allReferences ss, ∃ fs', Gives (expandRef ref) fs'
  | [], _, _ => by
    rw [FieldSlot.allReferences]
    exact List.forall_mem_nil _
  | s :: ss, fs, h => by
    rw [slots] at h
    obtain ⟨here, hhere, h₁⟩ := gives_bind h
    obtain ⟨rest, hrest, -⟩ := gives_bind h₁
    rw [FieldSlot.allReferences, List.forall_mem_append]
    exact ⟨single_expanded hhere, slots_expanded hrest⟩

theorem single_expanded : ∀ {s : FieldSlot} {fs : List Field},
    Gives (single letters entity expandRef s) fs →
      ∀ ref ∈ s.references, ∃ fs', Gives (expandRef ref) fs'
  | .literal d, fs, h => by
    rw [single] at h
    obtain ⟨f, hf, -⟩ := gives_bind h
    rw [FieldSlot.references]
    exact declaration_expanded hf
  | .generated ref, fs, h => by
    rw [single] at h
    rw [FieldSlot.references]
    exact List.forall_mem_singleton.mpr ⟨fs, h⟩
end

end Resolve

/-! ## Expanding by chains of a given length -/

variable {generators : Generators} {letters : Transliteration} {entity : String}

theorem expand_unknown_ends {limit : Nat} {ref : GeneratorRef}
    (h : generators.resolve? ref = none) : Ends (expand generators letters entity limit ref) := by
  rw [expand_unknown h]
  exact ends_bind nofun fun _ _ => ends_pure []

theorem Generators.mem_links {ref ref' : GeneratorRef} {ds : List FieldDeclaration}
    (h : generators.resolve? ref = some ds) :
    ref' ∈ generators.links ref ↔ ∃ d ∈ ds, ref' ∈ d.references := by
  rw [links, FieldSlot.declared, h, Option.getD_some, List.mem_flatMap]

theorem Generators.acc_of_no_links {ref : GeneratorRef} (h : generators.links ref = []) :
    Acc generators.BroughtBy ref := by
  refine .intro ref fun ref' href' => ?_
  rw [BroughtBy, h] at href'
  exact absurd href' List.not_mem_nil

theorem expand_ends_succ {limit : Nat} {ref : GeneratorRef}
    (h : ∀ ref' ∈ generators.links ref, Ends (expand generators letters entity limit ref')) :
    Ends (expand generators letters entity (limit + 1) ref) := by
  cases hknown : generators.resolve? ref with
  | none => exact expand_unknown_ends hknown
  | some ds =>
    rw [expand_known hknown]
    refine ends_mapM fun d hd => Resolve.declaration_ends fun ref' href' => ?_
    exact h ref' ((Generators.mem_links hknown).mpr ⟨d, hd, href'⟩)

/-- One more link makes no difference where the chains were long enough. -/
theorem expand_extends_succ (limit : Nat) : ∀ ref : GeneratorRef,
    Extends (expand generators letters entity limit ref)
      (expand generators letters entity (limit + 1) ref) := by
  induction limit with
  | zero =>
    intro ref hends
    cases hknown : generators.resolve? ref with
    | none => rw [expand_unknown hknown, expand_unknown hknown]
    | some ds =>
      -- Without a link left a known reference runs out.
      rw [expand_known hknown] at hends
      exact absurd rfl hends
  | succ limit ih =>
    intro ref
    cases hknown : generators.resolve? ref with
    | none =>
      rw [expand_unknown hknown, expand_unknown hknown]
      exact extends_self
    | some ds =>
      rw [expand_known hknown, expand_known hknown]
      exact Extends.mapM (Resolve.declaration_extends ih) ds

theorem expand_extends {limit more : Nat} (h : limit ≤ more) (ref : GeneratorRef) :
    Extends (expand generators letters entity limit ref)
      (expand generators letters entity more ref) := by
  induction h with
  | refl => exact extends_self
  | step _ ih => exact ih.trans (expand_extends_succ _ ref)

/-- Chains of a length are enough for a reference, whatever block it stands in and whatever the
names are made of. -/
def Generators.Suffices (generators : Generators) (limit : Nat) (ref : GeneratorRef) : Prop :=
  ∀ letters entity, Ends (expand generators letters entity limit ref)

theorem Generators.Suffices.mono {limit more : Nat} {ref : GeneratorRef} (hle : limit ≤ more)
    (h : generators.Suffices limit ref) : generators.Suffices more ref := by
  intro letters entity
  have hsame : expand generators letters entity more ref =
      expand generators letters entity limit ref :=
    expand_extends hle ref (h letters entity)
  rw [hsame]
  exact h letters entity

/-- A length is enough for all of some references if for each of them there is one. -/
theorem Generators.suffices_all : ∀ {refs : List GeneratorRef},
    (∀ ref ∈ refs, ∃ limit, generators.Suffices limit ref) →
      ∃ limit, ∀ ref ∈ refs, generators.Suffices limit ref
  | [], _ => ⟨0, List.forall_mem_nil _⟩
  | ref :: refs, h => by
    obtain ⟨⟨limit, hlimit⟩, hrefs⟩ := List.forall_mem_cons.mp h
    obtain ⟨others, hothers⟩ := suffices_all hrefs
    refine ⟨max limit others, List.forall_mem_cons.mpr ⟨?_, fun ref' href' => ?_⟩⟩
    · exact hlimit.mono (Nat.le_max_left limit others)
    · exact (hothers ref' href').mono (Nat.le_max_right limit others)

/-- Where every chain from a reference comes to an end, their lengths are bounded: what one
reference brings is a finite list. -/
theorem Generators.suffices_of_acc {ref : GeneratorRef} (h : Acc generators.BroughtBy ref) :
    ∃ limit, generators.Suffices limit ref := by
  induction h with
  | intro ref _ ih =>
    obtain ⟨limit, hlimit⟩ := suffices_all ih
    exact ⟨limit + 1, fun letters entity =>
      expand_ends_succ fun ref' href' => hlimit ref' href' letters entity⟩

/-- A reference that is expanded starts no endless chain. -/
theorem acc_of_expanded (limit : Nat) : ∀ (ref : GeneratorRef) (fs : List Field),
    Gives (expand generators letters entity limit ref) fs → Acc generators.BroughtBy ref := by
  have hunknown : ∀ ref, generators.resolve? ref = none → Acc generators.BroughtBy ref :=
    fun ref hnone => Generators.acc_of_no_links (by
      rw [Generators.links, FieldSlot.declared, hnone]
      rfl)
  induction limit with
  | zero =>
    intro ref fs h
    cases hknown : generators.resolve? ref with
    | none => exact hunknown ref hknown
    | some ds =>
      rw [expand_known hknown] at h
      exact (gives_throw h).elim
  | succ limit ih =>
    intro ref fs h
    cases hknown : generators.resolve? ref with
    | none => exact hunknown ref hknown
    | some ds =>
      rw [expand_known hknown] at h
      refine .intro ref fun ref' href' => ?_
      obtain ⟨d, hd, hmem⟩ := (Generators.mem_links hknown).mp href'
      obtain ⟨f, -, hf⟩ := mem_gives_mapM h d hd
      obtain ⟨fs', hfs'⟩ := Resolve.declaration_expanded hf ref' hmem
      exact ih ref' fs' hfs'

/-! ## Building by chains of a given length -/

namespace Entity

theorem ofBlock_ends {limit : Nat} {name : String} {d : BlockDefinition}
    (h : ∀ g, ∀ ref ∈ FieldSlot.allReferences (d.slots g), generators.Suffices limit ref) :
    Ends (ofBlock generators letters limit name d) := by
  have hgroup : ∀ g, Ends (resolveSlots generators letters limit name (d.slots g)) :=
    fun g => Resolve.slots_ends fun ref href => h g ref href letters name
  unfold ofBlock
  split
  next =>
    rw [throw_bind]
    exact ends_throw nofun
  next =>
    exact ends_bind (hgroup .content) fun _ _ => ends_bind (hgroup .customise) fun _ _ =>
      ends_bind (hgroup .configure) fun _ _ => ends_pure _

theorem ofBlock_extends {limit more : Nat} (hle : limit ≤ more) (name : String)
    (d : BlockDefinition) :
    Extends (ofBlock generators letters limit name d) (ofBlock generators letters more name d) := by
  have hgroup : ∀ slots, Extends (resolveSlots generators letters limit name slots)
      (resolveSlots generators letters more name slots) :=
    Resolve.slots_extends (expand_extends hle)
  unfold ofBlock
  split
  next =>
    rw [throw_bind, throw_bind]
    exact extends_self
  next =>
    exact (hgroup d.content).bind fun _ => (hgroup d.customise).bind fun _ =>
      (hgroup d.configure).bind fun _ => extends_self

theorem ofLayout_ends (name : String) (d : LayoutDefinition) : Ends (ofLayout name d) := by
  unfold ofLayout
  split
  next =>
    rw [throw_bind]
    exact ends_throw nofun
  next => exact ends_pure _

end Entity

namespace Registry

theorem entities_ends {α : Type} {make : String → α → Attempt Entity} {definitions : Dict α}
    (h : ∀ name d, definitions.get? name = some d → Ends (make name d)) :
    Ends (entities make definitions) := by
  refine ends_bind (ends_mapM fun entry hentry => ?_) fun _ _ => ends_pure _
  obtain ⟨name, d⟩ := entry
  exact ends_bind (h name d (Dict.mem_entries_iff.mp hentry)) fun _ _ => ends_pure _

theorem entities_extends {α : Type} {make make' : String → α → Attempt Entity}
    (h : ∀ name d, Extends (make name d) (make' name d)) (definitions : Dict α) :
    Extends (entities make definitions) (entities make' definitions) :=
  (Extends.mapM (fun (name, d) => (h name d).bind fun _ => extends_self) _).bind fun _ =>
    extends_self

theorem misfit?_ne {blocks : Dict Entity} {parent : Entity} {error : Error}
    (h : misfit? blocks parent = some error) : error ≠ .expansionLimit := by
  unfold misfit? at h
  split at h
  next names _ =>
    obtain ⟨name, -, hname⟩ := List.exists_of_findSome?_eq_some h
    split at hname
    next child _ =>
      split at hname
      next => cases hname
      next =>
        cases hname
        nofun
    next => cases hname
  next => cases h

theorem buildWithin_ends {definitions : Definitions} {limit : Nat}
    (h : ∀ ref ∈ definitions.references, generators.Suffices limit ref) :
    Ends (buildWithin definitions generators letters limit) := by
  unfold buildWithin
  split
  next =>
    rw [throw_bind]
    exact ends_throw nofun
  next =>
    refine ends_bind (entities_ends fun name d hd => Entity.ofBlock_ends fun g ref href => ?_)
      fun blocks _ => ends_bind (entities_ends fun name d _ => Entity.ofLayout_ends name d)
        fun layouts _ => ?_
    · exact h ref (Definitions.mem_references.mpr ⟨name, d, g, hd, href⟩)
    · split
      next error hmisfit =>
        obtain ⟨parent, -, hparent⟩ := List.exists_of_findSome?_eq_some hmisfit
        exact ends_throw (misfit?_ne hparent)
      next => exact ends_pure _

theorem buildWithin_extends {definitions : Definitions} {limit more : Nat} (hle : limit ≤ more) :
    Extends (buildWithin definitions generators letters limit)
      (buildWithin definitions generators letters more) := by
  unfold buildWithin
  split
  next =>
    rw [throw_bind, throw_bind]
    exact extends_self
  next =>
    exact (entities_extends (Entity.ofBlock_extends hle) _).bind fun _ => extends_self

/-- The presets for backgrounds bring no references. -/
theorem builtin_links (ref : GeneratorRef) : Generators.builtin.links ref = [] := by
  rw [Generators.links, FieldSlot.declared, Generators.resolve?]
  cases hfound : Dict.get? Generators.builtin ref.generator with
  | none => rfl
  | some generator =>
    rw [Generators.builtin, Dict.get?_ofList] at hfound
    have hmem := Entries.mem_of_last? hfound
    simp only [List.mem_cons, List.not_mem_nil, or_false, Prod.mk.injEq] at hmem
    rcases hmem with ⟨-, rfl⟩ | ⟨-, rfl⟩ | ⟨-, rfl⟩ | ⟨-, rfl⟩ | ⟨-, rfl⟩ | ⟨-, rfl⟩ <;> rfl

/-- With the presets for backgrounds alone, building ends for all definitions: a single link is
enough. -/
theorem builtin_ends (definitions : Definitions) (letters : Transliteration) :
    Ends (buildWithin definitions .builtin letters 1) := by
  refine buildWithin_ends fun ref _ letters entity => expand_ends_succ fun ref' href' => ?_
  rw [builtin_links] at href'
  exact absurd href' List.not_mem_nil

/-- Building ends where no reference starts an endless chain: some length of chains is enough. A
length that is enough decides the outcome, for longer chains change nothing. And nothing is built
of definitions with an endless chain. -/
theorem build_ends (definitions : Definitions) (generators : Generators)
    (letters : Transliteration) :
    ((∀ ref ∈ definitions.references, Acc generators.BroughtBy ref) →
      ∃ limit, Ends (buildWithin definitions generators letters limit)) ∧
    (∀ limit more, limit ≤ more →
      Ends (buildWithin definitions generators letters limit) →
      buildWithin definitions generators letters more =
        buildWithin definitions generators letters limit) ∧
    ∀ limit r, Gives (buildWithin definitions generators letters limit) r →
      ∀ ref ∈ definitions.references, Acc generators.BroughtBy ref := by
  refine ⟨fun hacc => ?_, fun limit more hle => buildWithin_extends hle, ?_⟩
  · obtain ⟨limit, hlimit⟩ :=
      Generators.suffices_all fun ref href => Generators.suffices_of_acc (hacc ref href)
    exact ⟨limit, buildWithin_ends hlimit⟩
  · intro limit r h ref href
    obtain ⟨name, d, g, hd, hmem⟩ := Definitions.mem_references.mp href
    obtain ⟨-, -, hblocks, -⟩ := buildWithin_gives h
    obtain ⟨e, hmade⟩ := entities_made hblocks hd
    obtain ⟨-, -, -, hfields⟩ := Entity.ofBlock_gives hmade
    obtain ⟨fs, hfs⟩ := Resolve.slots_expanded (hfields g) ref hmem
    exact acc_of_expanded limit ref fs hfs

/-- The hero has a preset within a preset, and is built by chains of some length. -/
theorem hero_ends :
    ∃ limit, Ends (buildWithin heroDefinitions buttonGenerators germanLetters limit) := by
  have hbutton : Acc buttonGenerators.BroughtBy ⟨"button", []⟩ := by
    refine .intro _ fun ref href => ?_
    obtain rfl : ref = ⟨"address", []⟩ := List.mem_singleton.mp href
    exact Generators.acc_of_no_links rfl
  have hreferences : heroDefinitions.references = [⟨"button", []⟩, ⟨"background", []⟩,
      ⟨"nope", []⟩, ⟨"bg_color", [.string "overlay", .string "Overlay"]⟩] := rfl
  refine (build_ends heroDefinitions buttonGenerators germanLetters).1 ?_
  rw [hreferences]
  simp only [List.forall_mem_cons]
  exact ⟨hbutton, Generators.acc_of_no_links rfl, Generators.acc_of_no_links rfl,
    Generators.acc_of_no_links rfl, List.forall_mem_nil _⟩

/-- A preset with a reference to itself. -/
def loopGenerators : Generators :=
  Generators.builtin.insert "loop" fun _ =>
    [⟨some "a", { type := "group" }, [.generated ⟨"loop", []⟩]⟩]

def loopDefinitions : Definitions :=
  { settings := { coreFields := false }
    blocks := .ofList [("text", { content := [.generated ⟨"loop", []⟩] })] }

theorem loop_expansion_never_ends (letters : Transliteration) (limit : Nat) :
    ¬ Ends (expand loopGenerators letters "text" limit ⟨"loop", []⟩) := by
  have hbrings : loopGenerators.resolve? ⟨"loop", []⟩ =
      some [⟨some "a", { type := "group" }, [.generated ⟨"loop", []⟩]⟩] := rfl
  induction limit with
  | zero =>
    rw [expand_known hbrings]
    exact fun hends => hends rfl
  | succ limit ih =>
    rw [expand_known hbrings]
    intro hends
    have hfirst : Ends (Resolve.declaration letters "text"
        (expand loopGenerators letters "text" limit)
        ⟨some "a", { type := "group" }, [.generated ⟨"loop", []⟩]⟩) := ends_of_bind hends
    have hname : isValidName "a" = true := by decide
    rw [Resolve.declaration, if_pos (by exact hname), Resolve.slots, Resolve.single] at hfirst
    exact ih (ends_of_bind (ends_of_bind hfirst))

/-- No length of chains is enough for a preset that refers to itself. -/
theorem loop_never_ends :
    ¬ ∃ letters limit,
      Ends (buildWithin loopDefinitions loopGenerators letters limit) := by
  rintro ⟨letters, limit, hends⟩
  unfold buildWithin at hends
  rw [if_neg (by decide)] at hends
  have hblock : Ends (Entity.ofBlock loopGenerators letters limit "text"
      { content := [.generated ⟨"loop", []⟩] }) :=
    ends_of_bind (ends_of_bind (ends_of_bind (ends_of_bind hends)))
  unfold Entity.ofBlock at hblock
  rw [if_neg (by decide)] at hblock
  have hslots : Ends (Resolve.slots letters "text"
      (expand loopGenerators letters "text" limit) [.generated ⟨"loop", []⟩]) :=
    ends_of_bind hblock
  rw [Resolve.slots, Resolve.single] at hslots
  exact loop_expansion_never_ends letters limit (ends_of_bind hslots)

end Registry

end PageBlocks
