import Mathlib.Data.Nat.Size
import Uvio.Program.Octets

/-!
# Variable-length integers

A library for numbers in groups of seven bits, least significant first, with the high bit
set on all octets but the last. It names no program.

- `Terminated`, `ofGroups`: what such an integer is and what it stands for, whether or not
  it is as short as it could be.
- `terminated_cases`: how octets begin.
- `Canonical n bs`: the shortest one that stands for `n`, octet by octet. There is only
  one (`canonical_iff`).
-/

namespace Uvio.Program

/-- All octets say that another one follows. -/
def Announcing (bs : List Octet) : Prop := ∀ b ∈ bs, 128 ≤ b.toNat

/-- All octets but the last say that another one follows. -/
def Terminated (bs : List Octet) : Prop :=
  ∃ front last, bs = front ++ [last] ∧ Announcing front ∧ last.toNat < 128

/-- The number the groups of seven bits stand for, least significant first. -/
def ofGroups : List Octet → Nat
  | [] => 0
  | b :: bs => b.toNat % 128 + 128 * ofGroups bs

theorem announcing_nil : Announcing [] := fun _ h => absurd h List.not_mem_nil

theorem announcing_cons {b : Octet} {bs : List Octet} :
    Announcing (b :: bs) ↔ 128 ≤ b.toNat ∧ Announcing bs := List.forall_mem_cons

theorem terminated_singleton {b : Octet} (h : b.toNat < 128) : Terminated [b] :=
  ⟨[], b, rfl, announcing_nil, h⟩

theorem Terminated.cons {b : Octet} {bs : List Octet} (hb : 128 ≤ b.toNat) (h : Terminated bs) :
    Terminated (b :: bs) := by
  obtain ⟨front, last, rfl, hfront, hlast⟩ := h
  exact ⟨b :: front, last, rfl, announcing_cons.mpr ⟨hb, hfront⟩, hlast⟩

/-- Octets begin with an integer of at most `n` octets, or with `n` octets that all announce
another one, or there are fewer than `n`, which all do. -/
theorem terminated_cases (n : Nat) (bs : List Octet) :
    (∃ vs rest, bs = vs ++ rest ∧ Terminated vs ∧ vs.length ≤ n) ∨
    (∃ front rest, bs = front ++ rest ∧ Announcing front ∧ front.length = n) ∨
    Announcing bs ∧ bs.length < n := by
  induction n generalizing bs with
  | zero => exact Or.inr (Or.inl ⟨[], bs, rfl, announcing_nil, rfl⟩)
  | succ n ih =>
    cases bs with
    | nil => exact Or.inr (Or.inr ⟨announcing_nil, Nat.succ_pos n⟩)
    | cons b bs =>
      by_cases hb : b.toNat < 128
      · exact Or.inl ⟨[b], bs, rfl, terminated_singleton hb, Nat.succ_le_succ (Nat.zero_le n)⟩
      · have hb := Nat.le_of_not_lt hb
        rcases ih bs with ⟨vs, rest, rfl, hvs, hlen⟩ | ⟨front, rest, rfl, hfront, rfl⟩ | ⟨hbs, hlen⟩
        · exact Or.inl ⟨b :: vs, rest, rfl, hvs.cons hb, Nat.succ_le_succ hlen⟩
        · exact Or.inr (Or.inl ⟨b :: front, rest, rfl, announcing_cons.mpr ⟨hb, hfront⟩, rfl⟩)
        · exact Or.inr (Or.inr ⟨announcing_cons.mpr ⟨hb, hbs⟩, Nat.succ_lt_succ hlen⟩)

/-! ## Values -/

theorem ofGroups_append (as bs : List Octet) :
    ofGroups (as ++ bs) = ofGroups as + 128 ^ as.length * ofGroups bs := by
  induction as with
  | nil => simp [ofGroups]
  | cons a as ih =>
    rw [List.cons_append, ofGroups, ofGroups, ih, List.length_cons, Nat.pow_succ']
    ring

theorem ofGroups_lt (bs : List Octet) : ofGroups bs < 128 ^ bs.length := by
  induction bs with
  | nil => exact Nat.one_pos
  | cons b bs ih =>
    rw [ofGroups, List.length_cons, Nat.pow_succ]
    omega

/-- One group of the value. -/
theorem ofGroups_div (bs : List Octet) (i : Nat) :
    ofGroups bs / 128 ^ i % 128 = (bs.getD i 0).toNat % 128 := by
  induction bs generalizing i with
  | nil => simp [ofGroups]
  | cons b bs ih =>
    cases i with
    | zero =>
      rw [ofGroups, Nat.pow_zero, Nat.div_one, List.getD_cons_zero]
      omega
    | succ i =>
      have hdiv : (b.toNat % 128 + 128 * ofGroups bs) / 128 = ofGroups bs := by omega
      rw [ofGroups, Nat.pow_succ', ← Nat.div_div_eq_div_mul, hdiv, ih, List.getD_cons_succ]

/-- The last group decides whether an integer of at most `n + 1` octets fits below
`2 * 128 ^ n`. -/
theorem Terminated.overflows_iff {bs : List Octet} (h : Terminated bs) {n : Nat}
    (hlen : bs.length ≤ n + 1) :
    2 * 128 ^ n ≤ ofGroups bs ↔
      ∃ front last, bs = front ++ [last] ∧ front.length = n ∧ Announcing front ∧
        2 ≤ last.toNat ∧ last.toNat < 128 := by
  have hvalue : ∀ {front : List Octet} {last : Octet}, last.toNat < 128 →
      ofGroups (front ++ [last]) = ofGroups front + 128 ^ front.length * last.toNat := by
    intro front last hlast
    rw [ofGroups_append, ofGroups, ofGroups, Nat.mod_eq_of_lt hlast, Nat.mul_zero, Nat.add_zero]
  constructor
  · intro hle
    obtain ⟨front, last, rfl, hfront, hlast⟩ := h
    have hlt := ofGroups_lt front
    have hall := ofGroups_lt (front ++ [last])
    rw [List.length_append, List.length_singleton] at hlen hall
    have hfull : front.length = n := by
      by_contra hne
      have hpow : 128 ^ (front.length + 1) ≤ 128 ^ n :=
        Nat.pow_le_pow_right (by decide) (by omega)
      omega
    subst hfull
    refine ⟨front, last, rfl, rfl, hfront, ?_, hlast⟩
    by_contra hsmall
    have hmul : 128 ^ front.length * last.toNat ≤ 128 ^ front.length * 1 :=
      Nat.mul_le_mul_left _ (by omega)
    rw [hvalue hlast] at hle
    omega
  · rintro ⟨front, last, rfl, rfl, -, htwo, hlast⟩
    have hmul : 128 ^ front.length * 2 ≤ 128 ^ front.length * last.toNat :=
      Nat.mul_le_mul_left _ htwo
    rw [hvalue hlast]
    omega

/-! ## Canonical form -/

/-- The bytes that stand for `n` in as few groups as it takes: `⌈size n / 7⌉` of them, but
at least one. -/
structure Canonical (n : Nat) (bs : List Octet) : Prop where
  length_eq : bs.length = max 1 ((n.size + 6) / 7)
  group : ∀ {i : Nat} {b : Octet}, bs[i]? = some b → b.toNat % 128 = n / 128 ^ i % 128
  high : ∀ {i : Nat} {b : Octet}, bs[i]? = some b → (128 ≤ b.toNat ↔ i + 1 < bs.length)

/-- A group takes seven bits off. -/
theorem size_of_ge {n : Nat} (h : 128 ≤ n) : n.size = (n / 128).size + 7 := by
  have hpow : ∀ k, 2 ^ (k + 7) = 2 ^ k * 128 := fun k => Nat.pow_add 2 k 7
  have hpos : 0 < (n / 128).size := Nat.size_pos.mpr (Nat.div_pos h (by decide))
  apply Nat.le_antisymm
  · rw [Nat.size_le, hpow, ← Nat.div_lt_iff_lt_mul (by decide)]
    exact Nat.lt_size_self _
  · obtain ⟨k, hk⟩ := Nat.exists_eq_add_of_lt hpos
    have hlow : 2 ^ k ≤ n / 128 := Nat.lt_size.mp (by omega)
    have hle : 2 ^ (k + 7) ≤ n := by
      rw [hpow]
      omega
    have := Nat.lt_size.mpr hle
    omega

theorem Canonical.cons {n : Nat} {bs : List Octet} (h : Canonical (n / 128) bs) (hn : 128 ≤ n) :
    Canonical n (BitVec.ofNat 8 (n % 128 + 128) :: bs) := by
  have hfirst : (BitVec.ofNat 8 (n % 128 + 128)).toNat = n % 128 + 128 := by
    rw [BitVec.toNat_ofNat]
    omega
  have hlen := h.length_eq
  refine ⟨?_, fun {i b} hb => ?_, fun {i b} hb => ?_⟩
  · rw [List.length_cons, hlen, size_of_ge hn]
    have hpos : 0 < (n / 128).size := Nat.size_pos.mpr (Nat.div_pos hn (by decide))
    omega
  · cases i with
    | zero =>
      cases hb
      rw [hfirst, Nat.pow_zero, Nat.div_one]
      omega
    | succ i =>
      rw [h.group hb, Nat.pow_succ', Nat.div_div_eq_div_mul]
  · rw [List.length_cons]
    cases i with
    | zero =>
      cases hb
      rw [hfirst]
      omega
    | succ i =>
      rw [h.high hb]
      omega

theorem canonical_varint (n : Nat) : Canonical n (varint n) := by
  induction n using varint.induct with
  | case1 n hlt =>
    have hsize : n.size ≤ 7 := Nat.size_le.mpr hlt
    have hfirst : (BitVec.ofNat 8 n).toNat = n := by
      rw [BitVec.toNat_ofNat]
      omega
    rw [varint_of_lt hlt]
    -- the only octet is the first
    have hone : ∀ {i : Nat} {b : Octet}, [BitVec.ofNat 8 n][i]? = some b →
        i = 0 ∧ b = BitVec.ofNat 8 n := by
      rintro (_ | i) b hb
      · exact ⟨rfl, (Option.some.inj hb).symm⟩
      · cases hb
    refine ⟨?_, fun hb => ?_, fun hb => ?_⟩
    · rw [List.length_singleton]
      omega
    · obtain ⟨rfl, rfl⟩ := hone hb
      rw [hfirst, Nat.pow_zero, Nat.div_one]
    · obtain ⟨rfl, rfl⟩ := hone hb
      rw [hfirst, List.length_singleton]
      omega
  | case2 n hge ih =>
    rw [varint_of_ge hge]
    exact ih.cons (Nat.le_of_not_lt hge)

theorem terminated_varint (n : Nat) : Terminated (varint n) := by
  induction n using varint.induct with
  | case1 n hlt =>
    rw [varint_of_lt hlt]
    refine terminated_singleton ?_
    rw [BitVec.toNat_ofNat]
    omega
  | case2 n hge ih =>
    rw [varint_of_ge hge]
    refine ih.cons ?_
    rw [BitVec.toNat_ofNat]
    omega

theorem ofGroups_varint (n : Nat) : ofGroups (varint n) = n := by
  induction n using varint.induct with
  | case1 n hlt =>
    rw [varint_of_lt hlt, ofGroups, ofGroups, BitVec.toNat_ofNat]
    omega
  | case2 n hge ih =>
    rw [varint_of_ge hge, ofGroups, ih, BitVec.toNat_ofNat]
    omega

theorem varint_injective : Function.Injective varint :=
  Function.LeftInverse.injective ofGroups_varint

/-- A group for every seven bits. -/
theorem length_varint_le {n k : Nat} (h : n < 2 ^ (7 * k)) (hk : 1 ≤ k) :
    (varint n).length ≤ k := by
  have hsize := Nat.size_le.mpr h
  rw [(canonical_varint n).length_eq]
  omega

/-- A number has one canonical form. -/
theorem Canonical.unique {n : Nat} {as bs : List Octet} (ha : Canonical n as)
    (hb : Canonical n bs) : as = bs := by
  have hlen : as.length = bs.length := ha.length_eq.trans hb.length_eq.symm
  apply List.ext_getElem hlen
  intro i hi hi'
  have ha? := List.getElem?_eq_getElem hi
  have hb? := List.getElem?_eq_getElem hi'
  -- the octets agree in their group and in their high bit
  have hgroup := (ha.group ha?).trans (hb.group hb?).symm
  have hhigh := ha.high ha?
  rw [hlen, ← hb.high hb?] at hhigh
  have hlt : as[i].toNat < 256 := as[i].isLt
  have hlt' : bs[i].toNat < 256 := bs[i].isLt
  apply BitVec.eq_of_toNat_eq
  omega

/-- **The canonical form** is what `varint` gives. -/
theorem canonical_iff {n : Nat} {bs : List Octet} : Canonical n bs ↔ bs = varint n := by
  constructor
  · exact fun h => h.unique (canonical_varint n)
  · rintro rfl
    exact canonical_varint n

end Uvio.Program
