import PageBlocks.Proofs.Definitions.Decoded
import PageBlocks.Proofs.Json.Numeral
import PageBlocks.Proofs.Number.Rounding

/-!
# Floats that are read

Every float in a value that is read from a text comes out of a rounding, so it
is a value of the format. This is carried from the numbers to the tokens, and
through the machine that puts values together: what is open holds such values
alone.

> `read?_floats`: a value that is read has floats of the format.
-/

namespace PageBlocks.JsonText

open Binary64

/-! ## Numbers -/

theorem scale_canonical {x y : Binary64} (hx : x.Canonical) :
    ∀ {steps : Nat} {exponent : Int}, scale x exponent steps = some y → y.Canonical := by
  intro steps
  induction steps generalizing x with
  | zero =>
    intro exponent h
    cases h
    exact zero_canonical x.negative
  | succ steps ih =>
    intro exponent h
    unfold scale at h
    split at h
    next =>
      obtain ⟨power, -, h⟩ := Option.bind_eq_some_iff.mp h
      split at h
      next => exact ofRatio?_canonical h
      next => exact ofRatio?_canonical h
    next =>
      split at h
      next =>
        cases h
        exact hx
      next =>
        split at h
        next => cases h
        next =>
          obtain ⟨power, -, h⟩ := Option.bind_eq_some_iff.mp h
          obtain ⟨scaled, hscaled, h⟩ := Option.bind_eq_some_iff.mp h
          exact ih (ofRatio?_canonical hscaled) h

theorem float?_floats {negative : Bool} {significand : Nat} {exponent : Int} {v : Value}
    (h : float? negative significand exponent = some v) : v.HasFloats Canonical := by
  unfold float? at h
  obtain ⟨x, hx, h⟩ := Option.bind_eq_some_iff.mp h
  obtain ⟨y, hy, h⟩ := Option.bind_eq_some_iff.mp h
  cases h
  exact .float (scale_canonical (ofRatio?_canonical hx) hy)

theorem unsignedNumber?_floats {negative : Bool} {text : List Char} {p : Value × List Char}
    (h : unsignedNumber? negative text = some p) : p.1.HasFloats Canonical :=
  of_unsignedNumber? (fun _ => .int) float?_floats h

/-! ## Tokens -/

/-- A token of a value with floats of the format, or of none. -/
def Token.Floats : Token → Prop
  | .scalar v => v.HasFloats Canonical
  | _ => True

theorem tokens?_floats {count : Nat} : ∀ {text : List Char} {tokens : List Token},
    tokens? count text = some tokens → ∀ token ∈ tokens, token.Floats := by
  induction count with
  | zero =>
    intro text tokens h
    unfold tokens? at h
    split at h
    next =>
      cases h
      exact fun token hmem => absurd hmem List.not_mem_nil
    next => cases h
  | succ count ih =>
    have hafter : ∀ {token : Token} {rest : List Char} {tokens : List Token},
        ((tokens? count rest).bind fun more => some (token :: more)) = some tokens →
        token.Floats → ∀ token ∈ tokens, token.Floats := by
      intro token rest tokens h htoken
      obtain ⟨more, hmore, h⟩ := Option.bind_eq_some_iff.mp h
      cases h
      exact List.forall_mem_cons.mpr ⟨htoken, ih hmore⟩
    intro text tokens h
    unfold tokens? at h
    dsimp only at h
    split at h
    next =>
      cases h
      exact fun token hmem => absurd hmem List.not_mem_nil
    next => exact hafter h trivial
    next => exact hafter h trivial
    next => exact hafter h trivial
    next => exact hafter h trivial
    next => exact hafter h trivial
    next => exact hafter h trivial
    next =>
      obtain ⟨p, -, h⟩ := Option.bind_eq_some_iff.mp h
      exact hafter h Value.HasFloats.string
    next => exact hafter h Value.HasFloats.null
    next => exact hafter h Value.HasFloats.bool
    next => exact hafter h Value.HasFloats.bool
    next =>
      obtain ⟨p, hp, h⟩ := Option.bind_eq_some_iff.mp h
      exact hafter h (unsignedNumber?_floats hp)
    next =>
      split at h
      next => exact ih h
      next =>
        obtain ⟨p, hp, h⟩ := Option.bind_eq_some_iff.mp h
        exact hafter h (unsignedNumber?_floats hp)

/-! ## Nesting -/

def Frame.Floats : Frame → Prop
  | .array items => ∀ v ∈ items, v.HasFloats Canonical
  | .object members _ => ∀ e ∈ members, e.2.HasFloats Canonical

/-- All values that have been put together have floats of the format. -/
def State.Floats : State → Prop
  | .value _ stack => ∀ frame ∈ stack, frame.Floats
  | .key _ members stack =>
    (∀ e ∈ members, e.2.HasFloats Canonical) ∧ ∀ frame ∈ stack, frame.Floats
  | .colon members _ stack =>
    (∀ e ∈ members, e.2.HasFloats Canonical) ∧ ∀ frame ∈ stack, frame.Floats
  | .after v stack => v.HasFloats Canonical ∧ ∀ frame ∈ stack, frame.Floats

theorem ofMembers_floats {members : List (String × Value)}
    (h : ∀ e ∈ members, e.2.HasFloats Canonical) : (Value.ofMembers members).HasFloats Canonical :=
  .object fun e he => h e (Entries.mem_ofList he)

theorem State.Floats.step {state after : State} {token : Token} (hstate : state.Floats)
    (htoken : token.Floats) (h : state.step token = some after) : after.Floats := by
  have hnone : ∀ e ∈ ([] : List (String × Value)), e.2.HasFloats Canonical :=
    fun _ he => absurd he List.not_mem_nil
  unfold State.step at h
  split at h
  next =>
    cases h
    exact ⟨htoken, hstate⟩
  next =>
    split at h
    next =>
      cases h
      exact List.forall_mem_cons.mpr ⟨fun _ hv => absurd hv List.not_mem_nil, hstate⟩
    next => cases h
  next =>
    split at h
    next =>
      cases h
      exact ⟨hnone, hstate⟩
    next => cases h
  next =>
    cases h
    obtain ⟨hitems, hstack⟩ := List.forall_mem_cons.mp hstate
    exact ⟨.array hitems, hstack⟩
  next =>
    cases h
    exact hstate
  next =>
    cases h
    exact ⟨.object hnone, hstate.2⟩
  next =>
    cases h
    exact List.forall_mem_cons.mpr hstate
  next =>
    cases h
    obtain ⟨hitems, hstack⟩ := List.forall_mem_cons.mp hstate.2
    exact List.forall_mem_cons.mpr ⟨List.forall_mem_cons.mpr ⟨hstate.1, hitems⟩, hstack⟩
  next =>
    cases h
    obtain ⟨hitems, hstack⟩ := List.forall_mem_cons.mp hstate.2
    refine ⟨.array fun v hv => ?_, hstack⟩
    exact List.forall_mem_cons.mpr ⟨hstate.1, hitems⟩ v (List.mem_reverse.mp hv)
  next =>
    cases h
    obtain ⟨hmembers, hstack⟩ := List.forall_mem_cons.mp hstate.2
    refine ⟨fun e he => ?_, hstack⟩
    rcases List.mem_cons.mp he with rfl | he
    · exact hstate.1
    · exact hmembers e he
  next =>
    cases h
    obtain ⟨hmembers, hstack⟩ := List.forall_mem_cons.mp hstate.2
    refine ⟨ofMembers_floats fun e he => ?_, hstack⟩
    rcases List.mem_cons.mp (List.mem_reverse.mp he) with rfl | he
    · exact hstate.1
    · exact hmembers e he
  next => cases h

theorem State.Floats.run {state after : State} {tokens : List Token} (hstate : state.Floats)
    (htokens : ∀ token ∈ tokens, token.Floats) (h : tokens.foldlM State.step state = some after) :
    after.Floats := by
  induction tokens generalizing state with
  | nil =>
    cases h
    exact hstate
  | cons token tokens ih =>
    obtain ⟨htoken, htokens⟩ := List.forall_mem_cons.mp htokens
    rw [List.foldlM_cons] at h
    obtain ⟨between, hstep, h⟩ := Option.bind_eq_some_iff.mp h
    exact ih (hstate.step htoken hstep) htokens h

/-- A value that is read from a text has floats of the format. -/
theorem read?_floats {text : String} {v : Value} (h : read? text = some v) :
    v.HasFloats Canonical := by
  unfold read? at h
  obtain ⟨tokens, htokens, h⟩ := Option.bind_eq_some_iff.mp h
  obtain ⟨after, hrun, h⟩ := Option.bind_eq_some_iff.mp h
  have hstart : (State.value false []).Floats := fun _ hframe => absurd hframe List.not_mem_nil
  have hafter : after.Floats := State.Floats.run hstart (tokens?_floats htokens) hrun
  split at h
  next =>
    cases h
    exact hafter.1
  next => cases h

end PageBlocks.JsonText
