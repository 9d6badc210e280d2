import PageBlocks.Proofs.Attempt

/-!
# What a stateful action gives

Renderings and the actions of a builder fail or give something, and change a
state either way. `result x s` is both, with the notices left out.

> `result_bind`: one action after another, read off what the first one gives.
-/

namespace PageBlocks.Stateful

variable {σ α β : Type}

/-- What an action gives from a state, and the state it leaves. -/
def result (x : ExceptT Error (StateT σ Noted) α) (s : σ) : Except Error α × σ :=
  (x.run.run s).value

theorem ok_of_toOption {ε : Type} {x : Except ε α} {a : α} (h : x.toOption = some a) : x = .ok a := by
  cases x with
  | ok b =>
    cases h
    rfl
  | error e => cases h

theorem result_lift (x : StateT σ Noted α) (s : σ) :
    result (ExceptT.lift x) s = (.ok (x.run s).value.1, (x.run s).value.2) := rfl

theorem result_ofExcept {x y : Except Error α} (h : x = y) (s : σ) :
    result (ofExcept x : ExceptT Error (StateT σ Noted) α) s = (y, s) := by
  rw [h]
  cases y with
  | ok a => rfl
  | error e => rfl

theorem result_bind (x : ExceptT Error (StateT σ Noted) α)
    (f : α → ExceptT Error (StateT σ Noted) β) (s : σ) :
    result (x >>= f) s =
      match result x s with
      | (.ok a, t) => result (f a) t
      | (.error e, t) => (.error e, t) := by
  unfold result
  rw [ExceptT.run_bind, StateT.run_bind]
  show (match x.run.run s with | ⟨p, ns⟩ => _ : Noted _).value = _
  rcases x.run.run s with ⟨⟨y, t⟩, ns⟩
  cases y with
  | ok a => rfl
  | error e => rfl

/-- An action whose first step succeeds goes on from there. -/
theorem result_bind_ok {x : ExceptT Error (StateT σ Noted) α} {a : α} {s t : σ}
    (h : result x s = (.ok a, t)) (f : α → ExceptT Error (StateT σ Noted) β) :
    result (x >>= f) s = result (f a) t := by
  rw [result_bind, h]

/-- An action whose first step fails goes no further. -/
theorem result_bind_error {x : ExceptT Error (StateT σ Noted) α} {e : Error} {s t : σ}
    (h : result x s = (.error e, t)) (f : α → ExceptT Error (StateT σ Noted) β) :
    result (x >>= f) s = (.error e, t) := by
  rw [result_bind, h]

end PageBlocks.Stateful
