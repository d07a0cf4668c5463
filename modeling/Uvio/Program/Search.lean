import Mathlib.Data.List.Infix

/-!
# First occurrences and first hits

A library for `find pat s`, the position of the first occurrence of the pattern
`pat` in the list `s`, and for the first hit in a list of candidates. It names no
program.

- `find_eq_some_iff`: what a found position means.
- `find_append_right`, `find_of_append`: an occurrence found stays the first one
  when the list grows, and is found before the rest arrives.
- `find_append_skip`: a front in which no occurrence starts is passed over.
- `find_append_of_head_notMem`: a front free of the pattern's first element ends
  where the pattern begins.
- `ShortestThrough`, `through`: the shortest front that ends in the pattern, as a
  property and as computed by `find` (`through_spec`); how it changes when the list
  grows (`through_append_iff`).
- `findSome?_perm_iff`: when the first hit does not depend on the order of the
  candidates.
-/

namespace Uvio.Program

universe u

variable {α : Type u}

/-- `pat` occurs in `s` at `p`. -/
def OccursAt (pat s : List α) (p : Nat) : Prop := pat <+: s.drop p

theorem OccursAt.append {pat s : List α} {p : Nat} (h : OccursAt pat s p) (hp : p ≤ s.length)
    (t : List α) : OccursAt pat (s ++ t) p := by
  show pat <+: (s ++ t).drop p
  rw [List.drop_append_of_le_length hp]
  exact h.trans (List.prefix_append _ _)

/-- An occurrence that ends within the front is an occurrence in the front. -/
theorem OccursAt.of_append {pat s t : List α} {p : Nat} (h : OccursAt pat (s ++ t) p)
    (hp : p + pat.length ≤ s.length) : OccursAt pat s p := by
  have hdrop : (s ++ t).drop p = s.drop p ++ t :=
    List.drop_append_of_le_length (Nat.le_trans (Nat.le_add_right _ _) hp)
  have h' : pat <+: s.drop p ++ t := hdrop ▸ h
  refine List.prefix_of_prefix_length_le h' (List.prefix_append _ _) ?_
  rw [List.length_drop]
  omega

theorem OccursAt.length_le {pat s : List α} {p : Nat} (h : OccursAt pat s p)
    (hpat : pat ≠ []) : p + pat.length ≤ s.length := by
  have hlen := List.IsPrefix.length_le h
  rw [List.length_drop] at hlen
  have hpos := List.length_pos_iff.mpr hpat
  omega

/-- An occurrence shows the pattern's elements. -/
theorem OccursAt.getElem?_add {pat s : List α} {p i : Nat} (h : OccursAt pat s p)
    (hi : i < pat.length) : s[p + i]? = some pat[i] := by
  obtain ⟨t, ht⟩ := h
  rw [← List.getElem?_drop, ← ht, List.getElem?_append_left hi, List.getElem?_eq_getElem hi]

theorem OccursAt.getElem?_head {c : α} {pat s : List α} {p : Nat}
    (h : OccursAt (c :: pat) s p) : s[p]? = some c :=
  h.getElem?_add (i := 0) (Nat.succ_pos _)

/-- No position is before the first one. -/
theorem OccursAt.first_iff {pat s : List α} {p : Nat} (h : OccursAt pat s 0) :
    some 0 = some p ↔ OccursAt pat s p ∧ ∀ q < p, ¬ OccursAt pat s q := by
  constructor
  · intro hp
    cases hp
    exact ⟨h, fun q hq => absurd hq (Nat.not_lt_zero q)⟩
  · rintro ⟨-, hmin⟩
    rcases Nat.eq_zero_or_pos p with rfl | hp
    · rfl
    · exact absurd h (hmin 0 hp)

/-- `x` is the shortest front of `s` that ends in `pat`. -/
def ShortestThrough (pat s x : List α) : Prop :=
  x <+: s ∧ pat <:+ x ∧ ∀ y, y <+: s → pat <:+ y → x.length ≤ y.length

theorem ShortestThrough.unique {pat s x y : List α} (hx : ShortestThrough pat s x)
    (hy : ShortestThrough pat s y) : x = y := by
  have hlen := Nat.le_antisymm (hx.2.2 y hy.1 hy.2.1) (hy.2.2 x hx.1 hx.2.1)
  exact (List.prefix_of_prefix_length_le hx.1 hy.1 hlen.le).eq_of_length hlen

/-- It stays the shortest when the list grows. -/
theorem ShortestThrough.append {pat s x : List α} (h : ShortestThrough pat s x) (t : List α) :
    ShortestThrough pat (s ++ t) x := by
  refine ⟨h.1.trans (List.prefix_append s t), h.2.1, fun y hy hpat => ?_⟩
  rcases Nat.le_total y.length s.length with hle | hle
  · exact h.2.2 y (List.prefix_of_prefix_length_le hy (List.prefix_append s t) hle) hpat
  · exact h.1.length_le.trans hle

/-- It is the shortest of any front it lies in. -/
theorem ShortestThrough.of_leading {pat s t x : List α} (h : ShortestThrough pat s x) (ht : t <+: s)
    (hx : x.length ≤ t.length) : ShortestThrough pat t x :=
  ⟨List.prefix_of_prefix_length_le h.1 ht hx, h.2.1, fun y hy hpat => h.2.2 y (hy.trans ht) hpat⟩

/-- The pattern does not occur in a front that is shorter. -/
theorem ShortestThrough.not_isInfix {pat s t x : List α} (h : ShortestThrough pat s x)
    (ht : t <+: s) (hx : t.length < x.length) : ¬ pat <:+: t := by
  rintro ⟨a, c, rfl⟩
  have hle := h.2.2 (a ++ pat) ((List.prefix_append _ _).trans ht) (List.suffix_append _ _)
  rw [List.length_append] at hx
  omega

variable [DecidableEq α]

/-- The position of the first occurrence of `pat` in a list. -/
def find (pat : List α) : List α → Option Nat
  | [] => if pat = [] then some 0 else none
  | a :: s => if pat.isPrefixOf (a :: s) then some 0 else (find pat s).map (· + 1)

/-- A found position is that of an occurrence, with none before it. -/
theorem find_eq_some_iff {pat s : List α} {p : Nat} :
    find pat s = some p ↔ OccursAt pat s p ∧ ∀ q < p, ¬ OccursAt pat s q := by
  induction s generalizing p with
  | nil =>
    show (if pat = [] then some 0 else none) = some p ↔ _
    by_cases hpat : pat = []
    · subst hpat
      rw [if_pos rfl]
      exact OccursAt.first_iff List.nil_prefix
    · rw [if_neg hpat]
      constructor
      · intro h
        cases h
      · rintro ⟨hocc, -⟩
        have := hocc.length_le hpat
        exact absurd (List.length_eq_zero_iff.mp (by simpa using this : _ ∧ _).2) hpat
  | cons a s ih =>
    show (if pat.isPrefixOf (a :: s) then some 0 else (find pat s).map (· + 1)) = some p ↔ _
    by_cases hpre : pat.isPrefixOf (a :: s)
    · rw [if_pos hpre]
      exact OccursAt.first_iff (List.isPrefixOf_iff_prefix.mp hpre)
    · have hocc : ¬ OccursAt pat (a :: s) 0 := fun h => hpre (List.isPrefixOf_iff_prefix.mpr h)
      rw [if_neg hpre]
      cases p with
      | zero =>
        constructor
        · intro h
          rw [Option.map_eq_some_iff] at h
          obtain ⟨q, -, hq⟩ := h
          exact absurd hq (Nat.succ_ne_zero q)
        · rintro ⟨h, -⟩
          exact absurd h hocc
      | succ p =>
        rw [Option.map_eq_some_iff]
        constructor
        · rintro ⟨q, hq, hqp⟩
          obtain rfl : q = p := Nat.succ.inj hqp
          obtain ⟨hq₁, hq₂⟩ := ih.mp hq
          refine ⟨hq₁, ?_⟩
          rintro (_ | r) hr
          · exact hocc
          · exact hq₂ r (Nat.lt_of_succ_lt_succ hr)
        · rintro ⟨hp₁, hp₂⟩
          exact ⟨p, ih.mpr ⟨hp₁, fun q hq => hp₂ (q + 1) (Nat.succ_lt_succ hq)⟩, rfl⟩

/-- A found occurrence lies within the list. -/
theorem find_le {pat s : List α} {p : Nat} (h : find pat s = some p) (hpat : pat ≠ []) :
    p + pat.length ≤ s.length :=
  (find_eq_some_iff.mp h).1.length_le hpat

/-- An occurrence found stays the first one when the list grows. -/
theorem find_append_right {pat s : List α} {p : Nat} (hpat : pat ≠ [])
    (h : find pat s = some p) (t : List α) : find pat (s ++ t) = some p := by
  have hle := find_le h hpat
  obtain ⟨hocc, hmin⟩ := find_eq_some_iff.mp h
  refine find_eq_some_iff.mpr ⟨hocc.append (by omega) t, fun q hq hq' => ?_⟩
  exact hmin q hq (hq'.of_append (by omega))

/-- What is not in a list is not in its front. -/
theorem find_eq_none_of_append {pat s t : List α} (hpat : pat ≠ []) (h : find pat (s ++ t) = none) :
    find pat s = none := by
  cases hs : find pat s with
  | none => rfl
  | some p =>
    rw [find_append_right hpat hs] at h
    exact h

/-- A first occurrence that ends within the front is found in the front. -/
theorem find_of_append {pat s t : List α} {p : Nat} (h : find pat (s ++ t) = some p)
    (hp : p + pat.length ≤ s.length) : find pat s = some p := by
  obtain ⟨hocc, hmin⟩ := find_eq_some_iff.mp h
  refine find_eq_some_iff.mpr ⟨hocc.of_append hp, fun q hq hq' => ?_⟩
  exact hmin q hq (hq'.append (by omega) t)

/-- A front in which no occurrence starts is passed over. -/
theorem find_append_skip {pat s t : List α} (h : ∀ q < s.length, ¬ OccursAt pat (s ++ t) q) :
    find pat (s ++ t) = (find pat t).map (· + s.length) := by
  induction s with
  | nil =>
    show find pat t = (find pat t).map fun p => p
    rw [Option.map_id']
  | cons a s ih =>
    have h0 : ¬ pat.isPrefixOf (a :: (s ++ t)) := fun hp =>
      h 0 (Nat.succ_pos _) (List.isPrefixOf_iff_prefix.mp hp)
    show (if pat.isPrefixOf (a :: (s ++ t)) then some 0 else (find pat (s ++ t)).map (· + 1)) = _
    rw [if_neg h0, ih fun q hq => h (q + 1) (Nat.succ_lt_succ hq), Option.map_map]
    congr 1

/-- A front free of the pattern's first element ends where the pattern begins. -/
theorem find_append_of_head_notMem {c : α} {pat s t : List α} (hs : c ∉ s) :
    find (c :: pat) (s ++ (c :: pat ++ t)) = some s.length := by
  rw [find_append_skip]
  · have h0 : find (c :: pat) (c :: pat ++ t) = some 0 :=
      find_eq_some_iff.mpr ⟨List.prefix_append _ _, fun q hq => absurd hq (Nat.not_lt_zero q)⟩
    rw [h0, Option.map_some, Nat.zero_add]
  · intro q hq hocc
    have hget := hocc.getElem?_head
    rw [List.getElem?_append_left hq] at hget
    exact hs (List.mem_of_getElem? hget)

/-! ## The shortest front that ends in a pattern -/

/-- The part of `s` up to the end of the first `pat`, nothing if there is none. -/
def through (pat s : List α) : List α :=
  match find pat s with
  | none => []
  | some p => s.take (p + pat.length)

theorem through_of_find {pat s : List α} {p : Nat} (h : find pat s = some p) :
    through pat s = s.take (p + pat.length) := by
  unfold through
  rw [h]

theorem through_of_find_none {pat s : List α} (h : find pat s = none) : through pat s = [] := by
  unfold through
  rw [h]

/-- What is not in a list is not in its rest. -/
theorem find_eq_none_of_append_right {pat s t : List α} (h : find pat (s ++ t) = none) :
    find pat t = none := by
  induction s with
  | nil => exact h
  | cons a s ih =>
    change (if pat.isPrefixOf (a :: (s ++ t)) then some 0
      else (find pat (s ++ t)).map (· + 1)) = none at h
    split at h
    · cases h
    · exact ih (Option.map_eq_none_iff.mp h)

theorem find_eq_none_iff {pat s : List α} : find pat s = none ↔ ¬ pat <:+: s := by
  constructor
  · rintro hnone ⟨a, c, rfl⟩
    rw [List.append_assoc] at hnone
    have hfind : find pat (pat ++ c) = some 0 :=
      find_eq_some_iff.mpr ⟨List.prefix_append pat c, fun q hq => absurd hq (Nat.not_lt_zero q)⟩
    rw [find_eq_none_of_append_right hnone] at hfind
    cases hfind
  · intro hnot
    cases hfind : find pat s with
    | none => rfl
    | some p =>
      exact absurd ((find_eq_some_iff.mp hfind).1.isInfix.trans (List.drop_suffix p s).isInfix) hnot

theorem shortestThrough_of_find {pat s : List α} {p : Nat} (h : find pat s = some p) :
    ShortestThrough pat s (s.take (p + pat.length)) := by
  obtain ⟨hocc, hmin⟩ := find_eq_some_iff.mp h
  refine ⟨List.take_prefix _ _, ?_, ?_⟩
  · rw [List.take_add, List.prefix_iff_eq_take.mp hocc |>.symm]
    exact List.suffix_append _ _
  · rintro y hy ⟨a, rfl⟩
    have hle : p ≤ a.length := by
      by_contra hlt
      obtain ⟨c, rfl⟩ := hy
      refine hmin a.length (Nat.lt_of_not_le hlt) ?_
      show pat <+: (a ++ pat ++ c).drop a.length
      rw [List.append_assoc, List.drop_left]
      exact List.prefix_append pat c
    rw [List.length_append]
    exact (List.length_take_le _ _).trans (by omega)

/-- **`through`** is the shortest front that ends in the pattern, if there is one. -/
theorem through_spec {pat s x : List α} :
    through pat s = x ↔ (pat <:+: s → ShortestThrough pat s x) ∧ (¬ pat <:+: s → x = []) := by
  cases hfind : find pat s with
  | none =>
    have hnot := find_eq_none_iff.mp hfind
    rw [through_of_find_none hfind]
    constructor
    · rintro rfl
      exact ⟨fun h => absurd h hnot, fun _ => rfl⟩
    · exact fun h => (h.2 hnot).symm
  | some p =>
    have hocc : pat <:+: s := by
      by_contra hnot
      rw [find_eq_none_iff.mpr hnot] at hfind
      cases hfind
    have hshort := shortestThrough_of_find hfind
    rw [through_of_find hfind]
    constructor
    · rintro rfl
      exact ⟨fun _ => hshort, fun hnot => absurd hocc hnot⟩
    · exact fun h => hshort.unique (h.1 hocc)

theorem through_ne_nil_iff {pat s : List α} (hpat : pat ≠ []) :
    through pat s ≠ [] ↔ find pat s ≠ none := by
  cases hfind : find pat s with
  | none =>
    rw [through_of_find_none hfind]
    simp
  | some p =>
    rw [through_of_find hfind]
    have hle := find_le hfind hpat
    have hpos := List.length_pos_iff.mpr hpat
    simp only [ne_eq, ← List.length_eq_zero_iff, List.length_take, reduceCtorEq, not_false_eq_true,
      iff_true]
    omega

/-- The part through the pattern changes with a growing list only if the pattern was
not in it before. -/
theorem through_append_iff {pat s t : List α} (hpat : pat ≠ []) :
    through pat (s ++ t) = through pat s ↔ (find pat s = none → find pat (s ++ t) = none) := by
  cases hfind : find pat s with
  | none =>
    rw [through_of_find_none hfind, ← not_iff_not, Classical.not_imp, ← ne_eq,
      through_ne_nil_iff hpat]
    simp
  | some p =>
    have hle := find_le hfind hpat
    simp only [reduceCtorEq, false_imp_iff, iff_true]
    rw [through_of_find hfind, through_of_find (find_append_right hpat hfind t)]
    exact List.take_append_of_le_length hle

/-! ## The first hit in a list of candidates -/

section FirstHit

variable {γ β : Type u} {f : γ → Option β}

/-- Candidates that hit all hit the same. -/
def HitsAgree (f : γ → Option β) (l : List γ) : Prop :=
  ∀ a ∈ l, ∀ b ∈ l, ∀ x y, f a = some x → f b = some y → x = y

/-- Where hits agree, the first hit is any hit. -/
theorem findSome?_eq_some_of_mem {l : List γ} (h : HitsAgree f l) {a : γ} {x : β} (ha : a ∈ l)
    (hx : f a = some x) : l.findSome? f = some x := by
  cases hfind : l.findSome? f with
  | none =>
    rw [List.findSome?_eq_none_iff.mp hfind a ha] at hx
    cases hx
  | some y =>
    obtain ⟨b, hb, hy⟩ := List.exists_of_findSome?_eq_some hfind
    rw [h b hb a ha y x hy hx]

/-- **The first hit does not depend on the order** iff all hits agree. -/
theorem findSome?_perm_iff {l : List γ} :
    (∀ l₁ l₂ : List γ, l₁.Perm l → l₂.Perm l → l₁.findSome? f = l₂.findSome? f) ↔ HitsAgree f l := by
  constructor
  · intro h a ha b hb x y hx hy
    -- each of the two candidates may come first
    obtain ⟨s, t, rfl⟩ := List.append_of_mem ha
    obtain ⟨s', t', hl⟩ := List.append_of_mem hb
    have heq := h (a :: (s ++ t)) (b :: (s' ++ t')) List.perm_middle.symm
      (hl ▸ List.perm_middle.symm)
    rw [List.findSome?_cons_of_isSome (by rw [hx]; rfl),
      List.findSome?_cons_of_isSome (by rw [hy]; rfl), hx, hy] at heq
    exact Option.some.inj heq
  · intro h l₁ l₂ h₁ h₂
    have hmem : ∀ a, a ∈ l₁ ↔ a ∈ l₂ := fun a => h₁.mem_iff.trans h₂.mem_iff.symm
    have hagree : HitsAgree f l₂ := fun a ha b hb =>
      h a (h₂.mem_iff.mp ha) b (h₂.mem_iff.mp hb)
    cases hfind : l₁.findSome? f with
    | none =>
      have hnone := List.findSome?_eq_none_iff.mp hfind
      exact (List.findSome?_eq_none_iff.mpr fun a ha => hnone a ((hmem a).mpr ha)).symm
    | some x =>
      obtain ⟨a, ha, hx⟩ := List.exists_of_findSome?_eq_some hfind
      exact (findSome?_eq_some_of_mem hagree ((hmem a).mp ha) hx).symm

end FirstHit

end Uvio.Program
