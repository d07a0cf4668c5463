import Mathlib.Tactic.Ring
import Mathlib.Data.List.Basic
import Mathlib.Data.List.GetD

/-!
# Numbers as octets

A library for two ways to write a natural number as octets. It names no program.

- `toLE k n`, `ofLE`: the `k` lowest octets of `n`, least significant first, and
  the number a list of octets stands for. `swap k` reverses the octets of a
  number: what a byte swap of a `k`-octet word does. `ofBE` reads the most
  significant octet first.
- `varint n`: groups of seven bits, least significant first, with the high bit set
  on all octets but the last.
-/

namespace Uvio.Program

/-- An octet. -/
abbrev Octet := BitVec 8

/-! ## Fixed width -/

/-- The `k` lowest octets of `n`, least significant first. -/
def toLE : Nat → Nat → List Octet
  | 0, _ => []
  | k + 1, n => BitVec.ofNat 8 n :: toLE k (n / 256)

/-- The number octets stand for, least significant first. -/
def ofLE : List Octet → Nat
  | [] => 0
  | b :: bs => b.toNat + 256 * ofLE bs

@[simp] theorem length_toLE (k n : Nat) : (toLE k n).length = k := by
  induction k generalizing n with
  | zero => rfl
  | succ k ih => simp [toLE, ih]

theorem ofLE_lt (bs : List Octet) : ofLE bs < 256 ^ bs.length := by
  induction bs with
  | nil => exact Nat.one_pos
  | cons b bs ih =>
    have hb : b.toNat < 256 := b.isLt
    rw [ofLE, List.length_cons, Nat.pow_succ]
    omega

theorem ofLE_toLE {k n : Nat} (h : n < 256 ^ k) : ofLE (toLE k n) = n := by
  induction k generalizing n with
  | zero =>
    rw [Nat.pow_zero] at h
    rw [toLE, ofLE]
    omega
  | succ k ih =>
    rw [Nat.pow_succ] at h
    rw [toLE, ofLE, ih (by omega), BitVec.toNat_ofNat]
    omega

theorem toLE_ofLE (bs : List Octet) : toLE bs.length (ofLE bs) = bs := by
  induction bs with
  | nil => rfl
  | cons b bs ih =>
    have hb : b.toNat < 256 := b.isLt
    have hdiv : (b.toNat + 256 * ofLE bs) / 256 = ofLE bs := by omega
    have hhead : BitVec.ofNat 8 (b.toNat + 256 * ofLE bs) = b := by
      apply BitVec.eq_of_toNat_eq
      rw [BitVec.toNat_ofNat]
      omega
    rw [List.length_cons, ofLE, toLE, hdiv, hhead, ih]

/-- Reverse the `k` octets of `n`. -/
def swap (k n : Nat) : Nat := ofLE (toLE k n).reverse

theorem swap_lt (k n : Nat) : swap k n < 256 ^ k := by
  have := ofLE_lt (toLE k n).reverse
  rwa [List.length_reverse, length_toLE] at this

@[simp] theorem toLE_swap (k n : Nat) : toLE k (swap k n) = (toLE k n).reverse := by
  have := toLE_ofLE (toLE k n).reverse
  rwa [List.length_reverse, length_toLE] at this

theorem swap_swap {k n : Nat} (h : n < 256 ^ k) : swap k (swap k n) = n := by
  show ofLE (toLE k (swap k n)).reverse = n
  rw [toLE_swap, List.reverse_reverse, ofLE_toLE h]

/-- The number octets stand for, most significant first. -/
def ofBE (bs : List Octet) : Nat := ofLE bs.reverse

theorem ofLE_injective {as bs : List Octet} (hlen : as.length = bs.length) (h : ofLE as = ofLE bs) :
    as = bs := by
  rw [← toLE_ofLE as, ← toLE_ofLE bs, hlen, h]

/-- Octets stand for one number in both orders if they read the same in both directions. -/
theorem ofLE_eq_ofBE_iff (bs : List Octet) : ofLE bs = ofBE bs ↔ bs.reverse = bs := by
  constructor
  · intro h
    exact (ofLE_injective List.length_reverse.symm h).symm
  · intro h
    rw [ofBE, h]

theorem ofLE_eq_zero_iff {bs : List Octet} : ofLE bs = 0 ↔ ∀ b ∈ bs, b = 0 := by
  induction bs with
  | nil => simp [ofLE]
  | cons b bs ih =>
    rw [ofLE, List.forall_mem_cons, ← ih, ← BitVec.toNat_inj]
    show _ ↔ b.toNat = 0 ∧ _
    omega

/-- Zero is zero in both orders. -/
theorem ofBE_eq_zero_iff {bs : List Octet} : ofBE bs = 0 ↔ ofLE bs = 0 := by
  rw [ofBE, ofLE_eq_zero_iff, ofLE_eq_zero_iff]
  simp

theorem ofLE_append (as bs : List Octet) :
    ofLE (as ++ bs) = ofLE as + 256 ^ as.length * ofLE bs := by
  induction as with
  | nil => simp [ofLE]
  | cons a as ih =>
    rw [List.cons_append, ofLE, ofLE, ih, List.length_cons, Nat.pow_succ']
    ring

/-- The last octet holds the top bit. -/
theorem ofLE_top_iff {bs : List Octet} {k : Nat} (h : bs.length = k + 1) :
    128 * 256 ^ k ≤ ofLE bs ↔ 128 ≤ (bs.getD k 0).toNat := by
  rcases List.eq_nil_or_concat' bs with rfl | ⟨front, last, rfl⟩
  · cases h
  · rw [List.length_append, List.length_singleton, Nat.add_right_cancel_iff] at h
    subst h
    have hlt := ofLE_lt front
    rw [ofLE_append, ofLE, ofLE, Nat.mul_zero, Nat.add_zero, List.getD_append_right _ _ _ _ le_rfl,
      Nat.sub_self, List.getD_cons_zero]
    constructor
    · intro hle
      by_contra hsmall
      have hmul : 256 ^ front.length * (last.toNat + 1) ≤ 256 ^ front.length * 128 :=
        Nat.mul_le_mul_left _ (by omega)
      rw [Nat.mul_add, Nat.mul_one] at hmul
      omega
    · intro hle
      have hmul : 256 ^ front.length * 128 ≤ 256 ^ front.length * last.toNat :=
        Nat.mul_le_mul_left _ hle
      omega

/-- In the other order, the first does. -/
theorem ofBE_top_iff {bs : List Octet} {k : Nat} (h : bs.length = k + 1) :
    128 * 256 ^ k ≤ ofBE bs ↔ 128 ≤ (bs.getD 0 0).toNat := by
  rw [ofBE, ofLE_top_iff (List.length_reverse.trans h)]
  obtain ⟨b, bs, rfl⟩ := List.exists_cons_of_length_eq_add_one h
  rw [List.length_cons, Nat.add_right_cancel_iff] at h
  rw [List.reverse_cons, List.getD_append_right _ _ _ _ (by rw [List.length_reverse, h]),
    List.length_reverse, h, Nat.sub_self, List.getD_cons_zero, List.getD_cons_zero]

theorem swap_ofLE {k : Nat} {bs : List Octet} (h : bs.length = k) : swap k (ofLE bs) = ofBE bs := by
  unfold swap ofBE
  rw [← h, toLE_ofLE]

theorem swap_two (n : Nat) : swap 2 n = n / 256 % 256 + 256 * (n % 256) := by
  show (BitVec.ofNat 8 (n / 256)).toNat + 256 * ((BitVec.ofNat 8 n).toNat + 256 * 0) = _
  rw [BitVec.toNat_ofNat, BitVec.toNat_ofNat, Nat.mul_zero, Nat.add_zero]

theorem toLE_injective {k m n : Nat} (hm : m < 256 ^ k) (hn : n < 256 ^ k)
    (h : toLE k m = toLE k n) : m = n := by
  rw [← ofLE_toLE hm, h, ofLE_toLE hn]

/-- A number is its own swap if its octets read the same in both directions. -/
theorem swap_eq_iff {k n : Nat} (h : n < 256 ^ k) :
    swap k n = n ↔ (toLE k n).reverse = toLE k n := by
  rw [← toLE_swap]
  constructor
  · intro heq
    rw [heq]
  · exact toLE_injective (swap_lt k n) h

theorem toLE_add (k m n : Nat) : toLE (k + m) n = toLE k n ++ toLE m (n / 256 ^ k) := by
  induction k generalizing n with
  | zero => simp [toLE]
  | succ k ih =>
    rw [Nat.add_right_comm, toLE, ih, toLE, Nat.pow_succ', Nat.div_div_eq_div_mul]
    rfl

theorem toLE_zero (k : Nat) : toLE k 0 = List.replicate k 0 := by
  induction k with
  | zero => rfl
  | succ k ih =>
    rw [toLE, Nat.zero_div, ih]
    rfl

theorem reverse_toLE_zero (k : Nat) : (toLE k 0).reverse = toLE k 0 := by
  rw [toLE_zero, List.reverse_replicate]

/-- If the high half of the octets is zero, only zero is its own swap. -/
theorem swap_eq_iff_of_half {k n : Nat} (h : n < 256 ^ k) : swap (k + k) n = n ↔ n = 0 := by
  have hpow : 256 ^ k ≤ 256 ^ (k + k) := Nat.pow_le_pow_right (by decide) (Nat.le_add_right k k)
  rw [swap_eq_iff (Nat.lt_of_lt_of_le h hpow), toLE_add, Nat.div_eq_of_lt h, List.reverse_append,
    reverse_toLE_zero]
  constructor
  · intro heq
    have hlow : toLE k 0 = toLE k n :=
      (List.append_inj heq (by rw [length_toLE, length_toLE])).1
    exact (toLE_injective (Nat.pow_pos (by decide)) h hlow).symm
  · rintro rfl
    rw [reverse_toLE_zero]

/-! ## Seven bits at a time -/

/-- The variable-length encoding of `n`. -/
def varint (n : Nat) : List Octet :=
  if n < 128 then [BitVec.ofNat 8 n]
  else BitVec.ofNat 8 (n % 128 + 128) :: varint (n / 128)

theorem varint_of_lt {n : Nat} (h : n < 128) : varint n = [BitVec.ofNat 8 n] := by
  rw [varint, if_pos h]

theorem varint_of_ge {n : Nat} (h : ¬ n < 128) :
    varint n = BitVec.ofNat 8 (n % 128 + 128) :: varint (n / 128) := by
  rw [varint, if_neg h]

end Uvio.Program
