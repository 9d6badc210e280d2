/-!
# Joined texts

Ids, cache keys and the positions of blocks are pieces joined by a character
that no piece has. Such a text can be taken apart again: its first piece ends
where that character first stands.

> `cut_eq`: texts that agree agree before and behind the first separator;
> `intercalate_inj`: pieces can be told from what they are joined to.

Numbers are such pieces: they are written with digits alone, and different ones
differently.
-/

namespace PageBlocks

variable {c : Char} {sep : String}

/-! ## Numbers -/

/-- Numbers are written with digits alone. -/
theorem not_mem_toString (hc : c.isDigit = false) (n : Nat) : c ∉ (toString n).toList := by
  intro h
  rw [Nat.toString_eq_ofList_toDigits, String.toList_ofList] at h
  have hdigit := Nat.isDigit_of_mem_toDigits (by decide) (by decide) h
  rw [hc] at hdigit
  cases hdigit

theorem toString_injective {m n : Nat} (h : toString m = toString n) : m = n := by
  rw [Nat.toString_eq_ofList_toDigits, Nat.toString_eq_ofList_toDigits] at h
  have hdigits := congrArg (fun s : String => Nat.ofDigitChars 10 s.toList 0) h
  simp only [String.toList_ofList] at hdigits
  rwa [Nat.ofDigitChars_toDigits (by decide) (by decide),
    Nat.ofDigitChars_toDigits (by decide) (by decide)] at hdigits

/-! ## Pieces -/

/-- What stands before the first occurrence of a character, and what stands behind it. -/
theorem split_eq {a b s t : List Char} (ha : c ∉ a) (hb : c ∉ b)
    (h : a ++ c :: s = b ++ c :: t) : a = b ∧ s = t := by
  induction a generalizing b with
  | nil =>
    cases b with
    | nil => exact ⟨rfl, (List.cons.inj h).2⟩
    | cons y ys =>
      have hhead : c = y := (List.cons.inj h).1
      exact absurd (hhead ▸ List.mem_cons_self ..) hb
  | cons x xs ih =>
    cases b with
    | nil =>
      have hhead : x = c := (List.cons.inj h).1
      exact absurd (hhead ▸ List.mem_cons_self ..) ha
    | cons y ys =>
      obtain ⟨rfl, htail⟩ := List.cons.inj h
      rw [List.mem_cons, not_or] at ha hb
      obtain ⟨rfl, hrest⟩ := ih ha.2 hb.2 htail
      exact ⟨rfl, hrest⟩

/-- Texts that agree agree before and behind the first separator. -/
theorem cut_eq {a b s t : String} (hsep : sep.toList = [c]) (ha : c ∉ a.toList)
    (hb : c ∉ b.toList) (h : a ++ sep ++ s = b ++ sep ++ t) : a = b ∧ s = t := by
  have hchars : a.toList ++ c :: s.toList = b.toList ++ c :: t.toList := by
    simpa [String.toList_append, hsep] using congrArg String.toList h
  obtain ⟨hfirst, hrest⟩ := split_eq ha hb hchars
  exact ⟨String.toList_inj.mp hfirst, String.toList_inj.mp hrest⟩

/-- Texts that agree agree before and behind the last separator. -/
theorem cut_last_eq {a b s t : String} (hsep : sep.toList = [c]) (hs : c ∉ s.toList)
    (ht : c ∉ t.toList) (h : a ++ sep ++ s = b ++ sep ++ t) : a = b ∧ s = t := by
  have hchars : a.toList ++ c :: s.toList = b.toList ++ c :: t.toList := by
    simpa [String.toList_append, hsep] using congrArg String.toList h
  -- The last separator is the first one from the other end.
  have hreversed : s.toList.reverse ++ c :: a.toList.reverse =
      t.toList.reverse ++ c :: b.toList.reverse := by
    simpa using congrArg List.reverse hchars
  obtain ⟨hlast, hfirst⟩ := split_eq (by simpa using hs) (by simpa using ht) hreversed
  exact ⟨String.toList_inj.mp (List.reverse_inj.mp hfirst),
    String.toList_inj.mp (List.reverse_inj.mp hlast)⟩

/-- A text is a base, or goes on behind it after a separator. -/
def Continues (sep base text : String) : Prop := text = base ∨ ∃ rest, text = base ++ sep ++ rest

/-- A text that continues a base behind a longer one continues the shorter one. -/
theorem Continues.of_longer {base more text : String}
    (h : Continues sep (base ++ sep ++ more) text) : Continues sep base text := by
  rcases h with rfl | ⟨rest, rfl⟩
  · exact Or.inr ⟨more, rfl⟩
  · refine Or.inr ⟨more ++ sep ++ rest, ?_⟩
    simp only [String.append_assoc]

/-- A text that continues two bases that differ in one piece continues one base. -/
theorem Continues.piece_eq {lead a b text : String} (hsep : sep.toList = [c])
    (ha : c ∉ a.toList) (hb : c ∉ b.toList) (h : Continues sep (lead ++ a) text)
    (h' : Continues sep (lead ++ b) text) : a = b := by
  have hpiece : ∀ {x y s : String}, c ∉ x.toList → lead ++ x ≠ lead ++ y ++ sep ++ s := by
    intro x y s hx heq
    rw [String.append_assoc, String.append_assoc, String.append_right_inj,
      ← String.append_assoc] at heq
    simp [heq, String.toList_append, hsep] at hx
  rcases h with rfl | ⟨s, rfl⟩
  · rcases h' with heq | ⟨t, heq⟩
    · exact (String.append_right_inj lead).mp heq
    · exact absurd heq (hpiece ha)
  · rcases h' with heq | ⟨t, heq⟩
    · exact absurd heq.symm (hpiece hb)
    · rw [String.append_assoc, String.append_assoc, String.append_assoc, String.append_assoc,
        String.append_right_inj, ← String.append_assoc, ← String.append_assoc] at heq
      exact (cut_eq hsep ha hb heq).1

/-- A text with a separator in it is not a piece. -/
theorem piece_ne {a b s : String} (hsep : sep.toList = [c]) (ha : c ∉ a.toList) :
    a ≠ b ++ sep ++ s := by
  rintro rfl
  simp [String.toList_append, hsep] at ha

/-- What is joined is the first piece and then the others, each behind a separator. -/
theorem intercalate_cons (separator : Char) (first : List Char) (others : List (List Char)) :
    [separator].intercalate (first :: others) = first ++ others.flatMap (separator :: ·) := by
  induction others generalizing first with
  | nil => rw [List.intercalate_singleton, List.flatMap_nil, List.append_nil]
  | cons other others ih =>
    rw [List.intercalate_cons_cons, ih, List.flatMap_cons, List.append_assoc]
    rfl

/-- Pieces can be told from what they are joined to. -/
theorem intercalate_inj (hsep : sep.toList = [c]) :
    ∀ {xs ys : List String}, xs ≠ [] → ys ≠ [] → (∀ s ∈ xs, c ∉ s.toList) →
      (∀ s ∈ ys, c ∉ s.toList) → String.intercalate sep xs = String.intercalate sep ys →
      xs = ys := by
  intro xs
  induction xs with
  | nil => exact fun h => absurd rfl h
  | cons a as ih =>
    intro ys _ hys hxs hys' h
    obtain ⟨b, bs, rfl⟩ := List.exists_cons_of_ne_nil hys
    have ha : c ∉ a.toList := hxs a (List.mem_cons_self ..)
    have hb : c ∉ b.toList := hys' b (List.mem_cons_self ..)
    cases as with
    | nil =>
      cases bs with
      | nil =>
        rw [String.intercalate_singleton, String.intercalate_singleton] at h
        rw [h]
      | cons b' bs =>
        rw [String.intercalate_singleton, String.intercalate_cons_cons] at h
        exact absurd h (piece_ne hsep ha)
    | cons a' as =>
      cases bs with
      | nil =>
        rw [String.intercalate_singleton, String.intercalate_cons_cons] at h
        exact absurd h.symm (piece_ne hsep hb)
      | cons b' bs =>
        rw [String.intercalate_cons_cons, String.intercalate_cons_cons] at h
        obtain ⟨rfl, hrest⟩ := cut_eq hsep ha hb h
        rw [ih (List.cons_ne_nil _ _) (List.cons_ne_nil _ _)
          (fun s hs => hxs s (List.mem_cons_of_mem _ hs))
          (fun s hs => hys' s (List.mem_cons_of_mem _ hs)) hrest]

end PageBlocks
