import Mathlib.Data.List.Basic
import Mathlib.Data.List.Flatten
import Mathlib.Data.List.GetD
import Mathlib.Data.List.TakeWhile

/-!
# Hash multimaps

A library for multimaps in buckets: a key is looked for in the bucket of its hash, and there
from the first entry with an equal key to the last one next to it. It names no program.

- `Placement`: where in its bucket an entry goes. Any place will do that leaves entries with
  equal keys together; `Placement.front` is one.
- `emplace`, `rehash`, `equalRange`: the operations. When a table grows, and to how many
  buckets, is a parameter.
- `Sound`: the invariant, which every operation keeps.
- `equalRange_perm`: a lookup finds exactly the entries with an equal key, if equal keys
  have equal hashes.
-/

namespace Uvio.Program

variable {κ ν : Type}

/-! ## Runs of equal keys -/

/-- The first run of entries with `p`. -/
def firstRun (p : κ × ν → Bool) (bucket : List (κ × ν)) : List (κ × ν) :=
  (bucket.dropWhile fun e => !p e).takeWhile p

/-- Entries with equal keys stand together: the first run of them is all of them. -/
def Grouped (eq : κ → κ → Bool) (bucket : List (κ × ν)) : Prop :=
  ∀ k, firstRun (fun e => eq k e.1) bucket = bucket.filter fun e => eq k e.1

theorem grouped_nil (eq : κ → κ → Bool) : Grouped eq ([] : List (κ × ν)) := fun _ => rfl

section FirstRun

variable {p : κ × ν → Bool} {e : κ × ν} {bucket : List (κ × ν)}

theorem firstRun_cons_of_pos (h : p e = true) :
    firstRun p (e :: bucket) = e :: bucket.takeWhile p := by
  rw [firstRun, List.dropWhile_cons_of_neg (by rw [h]; decide), List.takeWhile_cons_of_pos h]

theorem firstRun_cons_of_neg (h : p e = false) : firstRun p (e :: bucket) = firstRun p bucket := by
  rw [firstRun, List.dropWhile_cons_of_pos (by rw [h]; rfl), firstRun]

/-- In front of the first run nothing counts. -/
theorem firstRun_append {front : List (κ × ν)} (h : ∀ e ∈ front, p e = false) :
    firstRun p (front ++ bucket) = firstRun p bucket := by
  induction front with
  | nil => rfl
  | cons a front ih =>
    obtain ⟨ha, hfront⟩ := List.forall_mem_cons.mp h
    rw [List.cons_append, firstRun_cons_of_neg ha, ih hfront]

theorem takeWhile_append_cons {front : List (κ × ν)} (h : p e = false) :
    (front ++ e :: bucket).takeWhile p = front.takeWhile p := by
  induction front with
  | nil => exact List.takeWhile_cons_of_neg (by rw [h]; decide)
  | cons a front ih =>
    rw [List.cons_append, List.takeWhile_cons, List.takeWhile_cons, ih]

/-- An entry that does not count makes no difference in front of another one. -/
theorem firstRun_append_cons {front : List (κ × ν)} {r : κ × ν} (he : p e = false)
    (hr : p r = false) :
    firstRun p (front ++ e :: r :: bucket) = firstRun p (front ++ r :: bucket) := by
  induction front with
  | nil => exact firstRun_cons_of_neg he
  | cons a front ih =>
    cases ha : p a with
    | true =>
      rw [List.cons_append, List.cons_append, firstRun_cons_of_pos ha, firstRun_cons_of_pos ha,
        takeWhile_append_cons he, takeWhile_append_cons hr]
    | false =>
      rw [List.cons_append, List.cons_append, firstRun_cons_of_neg ha, firstRun_cons_of_neg ha, ih]

end FirstRun

/-! ## Where entries go -/

/-- Where in its bucket a table puts a new entry. -/
structure Placement (eq : κ → κ → Bool) (ν : Type) where
  insert : κ × ν → List (κ × ν) → List (κ × ν)
  perm : ∀ e bucket, (insert e bucket).Perm (e :: bucket)
  grouped : ∀ e bucket, Grouped eq bucket → Grouped eq (insert e bucket)

/-- In front of the first entry with an equal key, or of all. -/
def insertFront (eq : κ → κ → Bool) (e : κ × ν) (bucket : List (κ × ν)) : List (κ × ν) :=
  match bucket.dropWhile fun e' => !eq e.1 e'.1 with
  | [] => e :: bucket
  | r :: rest => (bucket.takeWhile fun e' => !eq e.1 e'.1) ++ e :: r :: rest

theorem insertFront_perm (eq : κ → κ → Bool) (e : κ × ν) (bucket : List (κ × ν)) :
    (insertFront eq e bucket).Perm (e :: bucket) := by
  have hsplit := List.takeWhile_append_dropWhile (p := fun e' => !eq e.1 e'.1) (l := bucket)
  unfold insertFront
  cases hdrop : bucket.dropWhile fun e' => !eq e.1 e'.1 with
  | nil => exact .refl _
  | cons r rest =>
    rw [hdrop] at hsplit
    conv_rhs => rw [← hsplit]
    exact List.perm_middle

theorem insertFront_grouped {eq : κ → κ → Bool} (heq : Equivalence fun a b => eq a b = true)
    (e : κ × ν) {bucket : List (κ × ν)} (h : Grouped eq bucket) :
    Grouped eq (insertFront eq e bucket) := by
  have hsplit := List.takeWhile_append_dropWhile (p := fun e' => !eq e.1 e'.1) (l := bucket)
  have hfront : ∀ e' ∈ bucket.takeWhile fun e' => !eq e.1 e'.1, eq e.1 e'.1 = false := by
    intro e' he'
    simpa using List.mem_takeWhile_imp he'
  -- keys equal to `k` are those equal to the new one, or different from it
  have hsame : ∀ {k}, eq k e.1 = true → ∀ k', eq k k' = eq e.1 k' := by
    intro k hk k'
    rw [Bool.eq_iff_iff]
    exact ⟨heq.trans (heq.symm hk), heq.trans hk⟩
  intro k
  have hk := h k
  unfold insertFront
  cases hdrop : bucket.dropWhile fun e' => !eq e.1 e'.1 with
  | nil =>
    rw [hdrop, List.append_nil] at hsplit
    rw [hsplit] at hfront
    dsimp only
    cases he : eq k e.1 with
    | true =>
      have hnone : ∀ e' ∈ bucket, eq k e'.1 = false := fun e' he' => by
        rw [hsame he, hfront e' he']
      have hnil : bucket.filter (fun e => eq k e.1) = [] :=
        List.filter_eq_nil_iff.mpr fun e' he' => by rw [hnone e' he']; decide
      have htake : bucket.takeWhile (fun e => eq k e.1) = [] := by
        cases bucket with
        | nil => rfl
        | cons a bucket =>
          exact List.takeWhile_cons_of_neg (by rw [hnone a List.mem_cons_self]; decide)
      rw [List.filter_cons_of_pos (p := fun e : κ × ν => eq k e.1) he, hnil,
        firstRun_cons_of_pos he, htake]
    | false =>
      rw [List.filter_cons_of_neg (by rw [he]; decide), firstRun_cons_of_neg he, hk]
  | cons r rest =>
    have hr : eq e.1 r.1 = true := by
      have hhead := List.head?_dropWhile_not (fun e' : κ × ν => !eq e.1 e'.1) bucket
      rw [hdrop] at hhead
      simpa using hhead
    rw [hdrop] at hsplit
    dsimp only
    generalize (bucket.takeWhile fun e' => !eq e.1 e'.1) = front at hsplit hfront
    subst hsplit
    cases he : eq k e.1 with
    | true =>
      have hnone : ∀ e' ∈ front, eq k e'.1 = false := fun e' he' => by
        rw [hsame he, hfront e' he']
      have hkr : eq k r.1 = true := by rw [hsame he, hr]
      have hnil : front.filter (fun e => eq k e.1) = [] :=
        List.filter_eq_nil_iff.mpr fun e' he' => by rw [hnone e' he']; decide
      rw [firstRun_append hnone, List.filter_append, hnil, firstRun_cons_of_pos hkr] at hk
      rw [firstRun_append hnone, List.filter_append, hnil, firstRun_cons_of_pos he,
        List.filter_cons_of_pos (p := fun e : κ × ν => eq k e.1) he,
        List.takeWhile_cons_of_pos (p := fun e : κ × ν => eq k e.1) hkr, hk]
      rfl
    | false =>
      have hkr : eq k r.1 = false := by
        rw [Bool.eq_false_iff] at he ⊢
        exact fun hkr => he (heq.trans hkr (heq.symm hr))
      rw [firstRun_append_cons he hkr, hk, List.filter_append, List.filter_append,
        List.filter_cons_of_neg (a := e) (by rw [he]; decide)]

/-- One placement. -/
def Placement.front {eq : κ → κ → Bool} (heq : Equivalence fun a b => eq a b = true) (ν : Type) :
    Placement eq ν :=
  ⟨insertFront eq, insertFront_perm eq, fun e _ h => insertFront_grouped heq e h⟩

/-! ## The table -/

/-- The entries, by bucket. -/
structure HashMultimap (κ ν : Type) where
  buckets : List (List (κ × ν))

namespace HashMultimap

variable {eq : κ → κ → Bool} (place : Placement eq ν) (hash : κ → Nat)
  (grow : Nat → Nat → Option Nat)

/-- One empty bucket. -/
def empty : HashMultimap κ ν := ⟨[[]]⟩

def entries (m : HashMultimap κ ν) : List (κ × ν) := m.buckets.flatten

/-- The bucket of a key. -/
def index (m : HashMultimap κ ν) (k : κ) : Nat := hash k % m.buckets.length

/-- Put an entry into the bucket of its key. -/
def put (m : HashMultimap κ ν) (e : κ × ν) : HashMultimap κ ν :=
  ⟨m.buckets.modify (m.index hash e.1) (place.insert e)⟩

/-- Distribute the entries over another number of buckets, of which there is at least one. -/
def rehash (n : Nat) (m : HashMultimap κ ν) : HashMultimap κ ν :=
  m.entries.foldl (put place hash) ⟨List.replicate (n - 1 + 1) []⟩

/-- Add an entry, and before that rehash if `grow` says so, which is given the number of
buckets and of entries. -/
def emplace (m : HashMultimap κ ν) (e : κ × ν) : HashMultimap κ ν :=
  match grow m.buckets.length m.entries.length with
  | none => m.put place hash e
  | some n => (m.rehash place hash n).put place hash e

/-- The entries with a key equal to `k`: the first run of them in the bucket of `k`. -/
def equalRange (eq : κ → κ → Bool) (m : HashMultimap κ ν) (k : κ) : List (κ × ν) :=
  firstRun (fun e => eq k e.1) (m.buckets.getD (m.index hash k) [])

/-! ### The invariant -/

/-- There is a bucket; every entry is in the bucket of its key; and in every bucket equal
keys stand together. -/
structure Sound (eq : κ → κ → Bool) (m : HashMultimap κ ν) : Prop where
  pos : 0 < m.buckets.length
  placed : ∀ {i : Nat} {bucket : List (κ × ν)}, m.buckets[i]? = some bucket →
    ∀ e ∈ bucket, m.index hash e.1 = i
  grouped : ∀ bucket ∈ m.buckets, Grouped eq bucket

variable {place hash grow} {m : HashMultimap κ ν}

theorem sound_replicate (n : Nat) :
    Sound hash eq (⟨List.replicate (n + 1) []⟩ : HashMultimap κ ν) := by
  refine ⟨by simp, fun {i bucket} hi e he => ?_, fun bucket hb => ?_⟩
  · rw [(List.mem_replicate.mp (List.mem_of_getElem? hi)).2] at he
    cases he
  · rw [(List.mem_replicate.mp hb).2]
    exact grouped_nil eq

theorem sound_empty : Sound hash eq (empty : HashMultimap κ ν) := sound_replicate 0

@[simp] theorem length_put (e : κ × ν) :
    (m.put place hash e).buckets.length = m.buckets.length := List.length_modify ..

theorem index_put (e : κ × ν) (k : κ) : (m.put place hash e).index hash k = m.index hash k := by
  rw [index, length_put, index]

/-- A bucket behind `put` is the one there was, with the entry if that goes there. -/
theorem getElem?_put {e : κ × ν} {i : Nat} {bucket : List (κ × ν)}
    (h : (m.put place hash e).buckets[i]? = some bucket) :
    ∃ old, m.buckets[i]? = some old ∧
      bucket = if m.index hash e.1 = i then place.insert e old else old := by
  rw [HashMultimap.put, List.getElem?_modify] at h
  obtain ⟨old, hold, rfl⟩ := Option.map_eq_some_iff.mp h
  exact ⟨old, hold, by split <;> rfl⟩

theorem Sound.put (h : Sound hash eq m) (e : κ × ν) : Sound hash eq (m.put place hash e) := by
  refine ⟨by rw [length_put]; exact h.pos, fun {i bucket} hi e' he' => ?_, fun bucket hb => ?_⟩
  · rw [index_put]
    obtain ⟨old, hold, rfl⟩ := getElem?_put hi
    by_cases hhere : m.index hash e.1 = i
    · rw [if_pos hhere] at he'
      rcases List.mem_cons.mp ((place.perm e old).mem_iff.mp he') with rfl | he'
      · exact hhere
      · exact h.placed hold e' he'
    · rw [if_neg hhere] at he'
      exact h.placed hold e' he'
  · obtain ⟨i, hi⟩ := List.getElem?_of_mem hb
    obtain ⟨old, hold, rfl⟩ := getElem?_put hi
    have hgrouped := h.grouped old (List.mem_of_getElem? hold)
    split
    · exact place.grouped e old hgrouped
    · exact hgrouped

/-- Nothing is lost, and nothing else is added. -/
theorem entries_put (h : 0 < m.buckets.length) (e : κ × ν) :
    (m.put place hash e).entries.Perm (e :: m.entries) := by
  have hflat : ∀ (bs : List (List (κ × ν))) (i : Nat), i < bs.length →
      (bs.modify i (place.insert e)).flatten.Perm (e :: bs.flatten) := by
    intro bs
    induction bs with
    | nil => exact fun i hi => absurd hi (Nat.not_lt_zero i)
    | cons b bs ih =>
      intro i hi
      cases i with
      | zero => exact (place.perm e b).append_right _
      | succ i =>
        refine ((ih i (Nat.lt_of_succ_lt_succ hi)).append_left b).trans ?_
        exact List.perm_middle
  exact hflat _ _ (Nat.mod_lt _ h)

theorem foldl_put (es : List (κ × ν)) (h : Sound hash eq m) :
    Sound hash eq (es.foldl (put place hash) m) ∧
      (es.foldl (put place hash) m).entries.Perm (es ++ m.entries) := by
  induction es generalizing m with
  | nil => exact ⟨h, .refl _⟩
  | cons e es ih =>
    obtain ⟨hsound, hperm⟩ := ih (h.put e)
    refine ⟨hsound, hperm.trans ?_⟩
    exact ((entries_put h.pos e).append_left es).trans List.perm_middle

theorem Sound.rehash (n : Nat) (m : HashMultimap κ ν) :
    Sound hash eq (m.rehash place hash n) := (foldl_put _ (sound_replicate _)).1

theorem entries_rehash (n : Nat) (m : HashMultimap κ ν) :
    (m.rehash place hash n).entries.Perm m.entries := by
  have hfold : (m.rehash place hash n).entries.Perm (m.entries ++ _) :=
    (foldl_put _ (sound_replicate _)).2
  refine hfold.trans ?_
  have hnil : entries (⟨List.replicate (n - 1 + 1) []⟩ : HashMultimap κ ν) = [] :=
    List.flatten_eq_nil_iff.mpr fun bucket hb => (List.mem_replicate.mp hb).2
  rw [hnil, List.append_nil]

theorem Sound.emplace (h : Sound hash eq m) (e : κ × ν) :
    Sound hash eq (m.emplace place hash grow e) := by
  unfold HashMultimap.emplace
  cases grow m.buckets.length m.entries.length with
  | none => exact h.put e
  | some n => exact (Sound.rehash n m).put e

theorem entries_emplace (h : Sound hash eq m) (e : κ × ν) :
    (m.emplace place hash grow e).entries.Perm (e :: m.entries) := by
  unfold HashMultimap.emplace
  cases grow m.buckets.length m.entries.length with
  | none => exact entries_put h.pos e
  | some n =>
    have hsound : Sound hash eq (m.rehash place hash n) := Sound.rehash n m
    refine (entries_put hsound.pos e).trans ?_
    exact (entries_rehash n m).cons e

/-- Any number of entries. -/
theorem foldl_emplace (es : List (κ × ν)) (h : Sound hash eq m) :
    Sound hash eq (es.foldl (emplace place hash grow) m) ∧
      (es.foldl (emplace place hash grow) m).entries.Perm (es ++ m.entries) := by
  induction es generalizing m with
  | nil => exact ⟨h, .refl _⟩
  | cons e es ih =>
    obtain ⟨hsound, hperm⟩ := ih (h.emplace e)
    refine ⟨hsound, hperm.trans ?_⟩
    exact ((entries_emplace h e).append_left es).trans List.perm_middle

/-! ### Lookup -/

/-- A filter that finds nothing outside of one bucket. -/
theorem filter_flatten_eq {p : κ × ν → Bool} {bs : List (List (κ × ν))} {i : Nat}
    (hi : i < bs.length)
    (h : ∀ {j bucket}, j ≠ i → bs[j]? = some bucket → ∀ e ∈ bucket, p e = false) :
    bs.flatten.filter p = (bs.getD i []).filter p := by
  induction bs generalizing i with
  | nil => exact absurd hi (Nat.not_lt_zero i)
  | cons b bs ih =>
    rw [List.flatten_cons, List.filter_append]
    cases i with
    | zero =>
      have hnil : bs.flatten.filter p = [] := by
        rw [List.filter_eq_nil_iff]
        intro e he
        obtain ⟨bucket, hbucket, he⟩ := List.mem_flatten.mp he
        obtain ⟨j, hj⟩ := List.getElem?_of_mem hbucket
        rw [h (j := j + 1) (Nat.succ_ne_zero j) hj e he]
        decide
      rw [hnil, List.append_nil, List.getD_cons_zero]
    | succ i =>
      have hnil : b.filter p = [] := by
        rw [List.filter_eq_nil_iff]
        intro e he
        rw [h (j := 0) (Nat.succ_ne_zero i).symm rfl e he]
        decide
      rw [hnil, List.nil_append, List.getD_cons_succ]
      exact ih (Nat.lt_of_succ_lt_succ hi) fun hne hj => h (fun heq => hne (Nat.succ.inj heq)) hj

/-- **What a lookup finds**: all entries with an equal key, if equal keys have equal
hashes. -/
theorem equalRange_eq (h : Sound hash eq m) (hhash : ∀ a b, eq a b = true → hash a = hash b)
    (k : κ) : m.equalRange hash eq k = m.entries.filter fun e => eq k e.1 := by
  have hi : m.index hash k < m.buckets.length := Nat.mod_lt _ h.pos
  have hbucket : m.buckets[m.index hash k]? = some (m.buckets.getD (m.index hash k) []) := by
    rw [List.getElem?_eq_getElem hi, List.getD_eq_getElem _ _ hi]
  unfold entries
  rw [filter_flatten_eq hi]
  · exact h.grouped _ (List.mem_of_getElem? hbucket) k
  · intro j bucket hne hj e he
    rw [Bool.eq_false_iff]
    intro heq
    have hsame := h.placed hj e he
    unfold index at hsame hne
    rw [← hhash _ _ heq] at hsame
    exact hne hsame.symm

/-- **A lookup after any additions**, wherever entries were placed and whenever the table
grew. -/
theorem equalRange_perm (hhash : ∀ a b, eq a b = true → hash a = hash b) (es : List (κ × ν))
    (k : κ) :
    ((es.foldl (emplace place hash grow) empty).equalRange hash eq k).Perm
      (es.filter fun e => eq k e.1) := by
  obtain ⟨hsound, hperm⟩ : Sound hash eq (es.foldl (emplace place hash grow) empty) ∧ _ :=
    foldl_emplace es sound_empty
  rw [equalRange_eq hsound hhash]
  have hempty : (empty : HashMultimap κ ν).entries = [] := rfl
  rw [hempty, List.append_nil] at hperm
  exact hperm.filter _

end HashMultimap

end Uvio.Program
