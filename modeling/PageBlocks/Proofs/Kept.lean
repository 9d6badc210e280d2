import Mathlib.Data.List.Induction

/-!
# What is kept of a list

Items are taken up one after the other, and whether one is kept depends on
those that came before it. Which files are loaded is settled in this way, and
which entries an index accepts; in both cases an item is kept where it is the
first of its kind.

> `kept_concat`: one more item is kept behind those kept before, or is not;
> `any_firsts`: what keeps the first of each kind keeps all kinds.
-/

namespace PageBlocks

variable {α : Type}

/-- The items that pass a test against the items before them. -/
def kept (test : List α → α → Bool) (items : List α) : List α :=
  (items.zipIdx.filter fun (item, n) => test (items.take n) item).map (·.1)

theorem kept_concat (test : List α → α → Bool) (items : List α) (last : α) :
    kept test (items ++ [last]) =
      if test items last then kept test items ++ [last] else kept test items := by
  -- What stands before an item that was there is what stood before it.
  have hbefore : (items.zipIdx.filter fun (item, n) => test ((items ++ [last]).take n) item) =
      items.zipIdx.filter fun (item, n) => test (items.take n) item := by
    refine List.filter_congr fun ⟨item, n⟩ he => ?_
    have hn : n ≤ items.length := Nat.le_of_lt (List.snd_lt_of_mem_zipIdx he)
    dsimp only
    rw [List.take_append_of_le_length hn]
  have hlast : ([(last, items.length)].filter fun (item, n) =>
      test ((items ++ [last]).take n) item) =
        if test items last then [(last, items.length)] else [] := by
    simp only [List.filter_cons, List.filter_nil, List.take_left]
  unfold kept
  rw [List.zipIdx_append, List.filter_append, hbefore, List.zipIdx_singleton, Nat.zero_add, hlast,
    List.map_append]
  split
  next => rfl
  next => exact List.append_nil _

theorem kept_sublist (test : List α → α → Bool) (items : List α) :
    (kept test items).Sublist items := by
  have h : ((items.zipIdx.filter fun (item, n) => test (items.take n) item).map (·.1)).Sublist
      (items.zipIdx.map (·.1)) := List.Sublist.map _ List.filter_sublist
  rwa [List.zipIdx_map_fst] at h

/-! ## The first of each kind -/

variable {same : α → α → Bool}

/-- Items where they first stand: none before is of the same kind. -/
def firsts (same : α → α → Bool) : List α → List α :=
  kept fun before item => !before.any (same item)

theorem firsts_concat (items : List α) (last : α) :
    firsts same (items ++ [last]) =
      if items.any (same last) then firsts same items else firsts same items ++ [last] := by
  unfold firsts
  rw [kept_concat]
  cases items.any (same last) <;> rfl

/-- An item is of a kind with one of the first ones if it is with any. -/
theorem any_firsts (htrans : ∀ x y z : α, same x y = true → same y z = true → same x z = true)
    (x : α) (items : List α) : (firsts same items).any (same x) = items.any (same x) := by
  induction items using List.reverseRecOn with
  | nil => rfl
  | append_singleton items last ih =>
    rw [firsts_concat, List.any_append]
    by_cases hthere : items.any (same last) = true
    · rw [if_pos hthere, ih]
      by_cases hsame : same x last = true
      · obtain ⟨y, hy, hlast⟩ := List.any_eq_true.mp hthere
        rw [List.any_eq_true.mpr ⟨y, hy, htrans _ _ _ hsame hlast⟩]
        rfl
      · simp [hsame]
    · rw [if_neg hthere, List.any_append, ih]

/-- No two of the first ones are of the same kind. -/
theorem firsts_apart (items : List α) :
    (firsts same items).Pairwise fun x y => same y x = false := by
  induction items using List.reverseRecOn with
  | nil => exact .nil
  | append_singleton items last ih =>
    rw [firsts_concat]
    by_cases hthere : items.any (same last) = true
    · rw [if_pos hthere]
      exact ih
    · rw [if_neg hthere]
      refine List.pairwise_append.mpr ⟨ih, List.pairwise_singleton .., fun x hx y hy => ?_⟩
      have hx : x ∈ items := (kept_sublist _ _).subset hx
      rw [List.mem_singleton.mp hy]
      exact (Bool.not_eq_true _).mp fun hsame => hthere (List.any_eq_true.mpr ⟨x, hx, hsame⟩)

end PageBlocks
