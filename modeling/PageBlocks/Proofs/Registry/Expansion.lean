import PageBlocks.Proofs.Registry.Sound

/-!
# The fields of a registered block

Building keeps every declaration and resolves every reference: each group of a
block has a field for each declaration that its slots stand for, in their order,
and for no other, and so have the sub-fields below. What is compiled later holds
declarations alone, so a reference that were still there would be passed over.

> `build_resolves`: the fields of a block are what its slots stand for, and
> nothing in them is left to resolve.
-/

namespace PageBlocks

open Attempt

namespace Registry

/-- Where building succeeds, something was made of every definition. -/
theorem entities_made {α : Type} {make : String → α → Attempt Entity} {definitions : Dict α}
    {made : Dict Entity} (h : Gives (entities make definitions) made) {name : String} {d : α}
    (hd : definitions.get? name = some d) : ∃ e, Gives (make name d) e := by
  unfold entities at h
  obtain ⟨pairs, hpairs, -⟩ := gives_bind h
  obtain ⟨pair, -, hgives⟩ := mem_gives_mapM hpairs _ (Dict.mem_entries_iff.mpr hd)
  obtain ⟨e, hmake, -⟩ := gives_bind hgives
  exact ⟨e, hmake⟩

/-- There are entities of exactly the names that are defined. -/
theorem entities_isSome {α : Type} {make : String → α → Attempt Entity} {definitions : Dict α}
    {made : Dict Entity} (h : Gives (entities make definitions) made) (name : String) :
    (made.get? name).isSome = (definitions.get? name).isSome := by
  rw [Bool.eq_iff_iff, Option.isSome_iff_exists, Option.isSome_iff_exists]
  constructor
  · rintro ⟨e, he⟩
    obtain ⟨d, hd, -⟩ := (entities_get?_iff h).mp he
    exact ⟨d, hd⟩
  · rintro ⟨d, hd⟩
    obtain ⟨e, he⟩ := entities_made h hd
    exact ⟨e, (entities_get?_iff h).mpr ⟨d, hd, he⟩⟩

/-- The blocks of a registry are those that are defined. Group by group and at every depth their
fields are what the slots of the definition stand for, which leaves no choice, and no reference is
left in them. -/
theorem build_resolves {definitions : Definitions} {generators : Generators}
    {letters : Transliteration} {limit : Nat} {r : Registry}
    (h : Gives (buildWithin definitions generators letters limit) r) :
    (∀ name, (r.block? name).isSome = (definitions.blocks.get? name).isSome) ∧
      ∀ name d b, definitions.blocks.get? name = some d → r.block? name = some b → ∀ g,
        AllResolved generators letters ((d.slots g).flatMap (FieldSlot.declared generators))
          (b.fields.get g) ∧
        (∀ fs, AllResolved generators letters
          ((d.slots g).flatMap (FieldSlot.declared generators)) fs → fs = b.fields.get g) ∧
        ∀ f ∈ b.fields.get g, f.toDeclaration.Settled := by
  obtain ⟨-, -, hblocks, -⟩ := buildWithin_gives h
  refine ⟨entities_isSome hblocks, fun name d b hd hb g => ?_⟩
  obtain ⟨d', hd', hmade⟩ := (entities_get?_iff hblocks).mp hb
  obtain rfl := Option.some.inj (hd.symm.trans hd')
  obtain ⟨-, -, -, hfields⟩ := Entity.ofBlock_gives hmade
  have hresolved := resolveSlots_resolved (hfields g)
  exact ⟨hresolved, fun fs hfs => hfs.unique hresolved,
    fun f hf => (hresolved.named f hf).settled⟩

/-- A preset with a button, whose address is a preset itself. -/
def buttonGenerators : Generators :=
  (Generators.builtin.insert "button" fun _ =>
    [⟨none, { type := "group", label := some "Großer Knopf" },
      [.generated ⟨"address", []⟩]⟩]).insert "address" fun _ =>
    [.simple "url" "Address" "url", .simple "new_tab" "New tab" "true_false"]

/-- A transliteration that has the letters of the labels here. -/
def germanLetters : Transliteration := .ofTable [(0x00DC, "U"), (0x00DF, "ss")]

/-- A block with a name made from a label, a preset below it, and a preset that there is not. -/
def heroBlock : BlockDefinition :=
  { content := [.literal ⟨none, { type := "repeater", label := some "Überschriften" },
      [.literal (.simple "title" "Title" "text"), .generated ⟨"button", []⟩]⟩]
    customise := [.generated ⟨"background", []⟩, .generated ⟨"nope", []⟩,
      .generated ⟨"bg_color", [.string "overlay", .string "Overlay"]⟩] }

def heroDefinitions : Definitions :=
  { settings := { coreFields := false }
    blocks := .ofList [("hero", heroBlock)] }

def heroRegistry : Registry :=
  (buildWithin heroDefinitions buttonGenerators germanLetters 2).result

/-- The names of the fields of a group, with those of the fields below, two levels deep. -/
def heroNames (b : Entity) (g : FieldGroup) : List (String × List (String × List String)) :=
  (b.fields.get g).map fun f =>
    (f.name, f.subFields.map fun s => (s.name, s.subFields.map (·.name)))

/-- The hero has what its slots stand for: the preset two levels down is resolved and named, and
the one that there is not is left out. -/
theorem hero_resolves :
    ∃ b, heroRegistry.block? "hero" = some b ∧
      (∀ g, AllResolved buttonGenerators germanLetters
        ((heroBlock.slots g).flatMap (FieldSlot.declared buttonGenerators)) (b.fields.get g)) ∧
      heroNames b .content =
        [("uberschriften", [("title", []), ("grosser_knopf", ["url", "new_tab"])])] ∧
      (heroNames b .customise).map (·.1) =
        ["bg_color", "bg_image", "bg_repeat", "bg_size", "bg_position", "overlay"] ∧
      ∀ g, ∀ f ∈ b.fields.get g, f.toDeclaration.Settled := by
  have hbuilt : Gives (buildWithin heroDefinitions buttonGenerators germanLetters 2) heroRegistry :=
    gives_result (by decide +kernel)
  have hdefined : heroDefinitions.blocks.get? "hero" = some heroBlock := rfl
  have hnames : (heroRegistry.block? "hero").map (fun b => (heroNames b .content,
      (heroNames b .customise).map (·.1))) =
      some ([("uberschriften", [("title", []), ("grosser_knopf", ["url", "new_tab"])])],
        ["bg_color", "bg_image", "bg_repeat", "bg_size", "bg_position", "overlay"]) := by
    decide +kernel
  obtain ⟨hblocks, hfields⟩ := build_resolves hbuilt
  obtain ⟨b, hb⟩ := Option.isSome_iff_exists.mp ((hblocks "hero").trans (by rw [hdefined]; rfl))
  rw [hb] at hnames
  obtain ⟨hcontent, hcustomise⟩ := Prod.mk.inj (Option.some.inj hnames)
  have hhero := hfields "hero" heroBlock b hdefined hb
  exact ⟨b, hb, fun g => (hhero g).1, hcontent, hcustomise, fun g => (hhero g).2.2⟩

end Registry

end PageBlocks
