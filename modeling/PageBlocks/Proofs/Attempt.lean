import PageBlocks.Notice

/-!
# What a successful attempt gave

`x.Gives a` says that an attempt succeeds with `a`, whatever it reports. The
inversions below take an attempt apart step by step.
-/

namespace PageBlocks

instance : LawfulMonad Noted :=
  LawfulMonad.mk' Noted (fun x => by
      show Noted.mk x.value (x.notices ++ []) = x
      rw [List.append_nil])
    (fun _ _ => rfl)
    (fun x f g => by
      show Noted.mk _ ((x.notices ++ _) ++ _) = Noted.mk _ (x.notices ++ (_ ++ _))
      rw [List.append_assoc]
      rfl)

namespace Attempt

variable {α β : Type}

/-- An attempt succeeds with a value. -/
def Gives (x : Attempt α) (a : α) : Prop := x.run.value = .ok a

/-- The value of an attempt, where it succeeds. -/
def result [Inhabited α] (x : Attempt α) : α := x.run.value.toOption.getD default

theorem gives_result [Inhabited α] {x : Attempt α} (h : x.run.value.toOption.isSome = true) :
    Gives x x.result := by
  unfold Gives result
  cases hx : x.run.value with
  | ok a => rfl
  | error e =>
    rw [hx] at h
    cases h

theorem gives_pure {a b : α} (h : Gives (pure a) b) : b = a := (Except.ok.inj h).symm

theorem gives_throw {e : Error} {a : α} (h : Gives (throw e : Attempt α) a) : False := by
  cases h

theorem run_bind_ok {x : Attempt α} {f : α → Attempt β} {a : α} {notices : List Notice}
    (h : x.run = ⟨.ok a, notices⟩) :
    (x >>= f).run = ⟨(f a).run.value, notices ++ (f a).run.notices⟩ := by
  rw [ExceptT.run_bind, h]
  rfl

theorem run_bind_error {x : Attempt α} {f : α → Attempt β} {e : Error} {notices : List Notice}
    (h : x.run = ⟨.error e, notices⟩) : (x >>= f).run = ⟨.error e, notices⟩ := by
  rw [ExceptT.run_bind, h]
  show Noted.mk (Except.error e) (notices ++ []) = _
  rw [List.append_nil]

/-- An attempt goes on with what its first step gave, or ends with the error of it. -/
theorem value_bind (x : Attempt α) (f : α → Attempt β) :
    (x >>= f).run.value =
      match x.run.value with
      | .ok a => (f a).run.value
      | .error e => .error e := by
  rw [ExceptT.run_bind]
  rcases x.run with ⟨y, notices⟩
  cases y with
  | ok a => rfl
  | error e => rfl

theorem throw_bind {e : Error} {f : α → Attempt β} : (throw e : Attempt α) >>= f = throw e := rfl

theorem gives_bind {x : Attempt α} {f : α → Attempt β} {b : β} (h : Gives (x >>= f) b) :
    ∃ a, Gives x a ∧ Gives (f a) b := by
  unfold Gives at h ⊢
  cases hx : x.run with
  | mk value notices =>
    cases value with
    | error e =>
      rw [run_bind_error hx] at h
      cases h
    | ok a =>
      rw [run_bind_ok hx] at h
      exact ⟨a, rfl, h⟩

/-- Every result of `mapM` comes from an item. -/
theorem gives_mapM_mem {f : α → Attempt β} :
    ∀ {as : List α} {bs : List β}, Gives (as.mapM f) bs → ∀ b ∈ bs, ∃ a ∈ as, Gives (f a) b
  | [], bs, h, b, hb => by
    rw [List.mapM_nil] at h
    obtain rfl := gives_pure h
    exact absurd hb List.not_mem_nil
  | a :: as, bs, h, b, hb => by
    rw [List.mapM_cons] at h
    obtain ⟨first, hfirst, h₁⟩ := gives_bind h
    obtain ⟨rest, hrest, h₂⟩ := gives_bind h₁
    obtain rfl := gives_pure h₂
    rcases List.mem_cons.mp hb with rfl | hb
    · exact ⟨a, List.mem_cons_self .., hfirst⟩
    · obtain ⟨x, hx, hgives⟩ := gives_mapM_mem hrest b hb
      exact ⟨x, List.mem_cons_of_mem _ hx, hgives⟩

/-- Every item has its result. -/
theorem mem_gives_mapM {f : α → Attempt β} :
    ∀ {as : List α} {bs : List β}, Gives (as.mapM f) bs → ∀ a ∈ as, ∃ b ∈ bs, Gives (f a) b
  | [], _, _, _, ha => absurd ha List.not_mem_nil
  | a :: as, bs, h, x, hx => by
    rw [List.mapM_cons] at h
    obtain ⟨first, hfirst, h₁⟩ := gives_bind h
    obtain ⟨rest, hrest, h₂⟩ := gives_bind h₁
    obtain rfl := gives_pure h₂
    rcases List.mem_cons.mp hx with rfl | hx
    · exact ⟨first, List.mem_cons_self .., hfirst⟩
    · obtain ⟨b, hb, hgives⟩ := mem_gives_mapM hrest x hx
      exact ⟨b, List.mem_cons_of_mem _ hb, hgives⟩

theorem gives_unique {x : Attempt α} {a b : α} (ha : Gives x a) (hb : Gives x b) : a = b :=
  Except.ok.inj (ha.symm.trans hb)

end Attempt

end PageBlocks
