import Mathlib.Algebra.Ring.Nat
import Mathlib.Data.List.Basic

/-!
# Bytes and machine integers

The C++ types under everything else: `char` and `unsigned char` as 8-bit words,
a buffer as a list of them, and the conversions between `int` and `std::size_t`
the buffered reader and writer make. Positions are kept as integers, so that a
conversion that wraps shows up as the value C++20 gives it; plain `char` is
signed, as on x86-64.
-/

namespace Uvio

/-- A `char`: eight bits. -/
abbrev Byte := BitVec 8

/-- The contents of a `std::string`, a `std::vector<char>` or a `std::span`. -/
abbrev Bytes := List Byte

/-- A text constant of the source. -/
def ascii (s : String) : Bytes := s.toList.map fun c => BitVec.ofNat 8 c.toNat

/-! ## Conversions -/

/-- The integer promotion of a (signed) `char`. -/
def charToInt (c : Byte) : BitVec 32 := c.signExtend 32

/-- `static_cast<char>` or `static_cast<unsigned char>` of a wider integer. -/
def toChar {w : Nat} (x : BitVec w) : Byte := x.setWidth 8

/-- `INT_MAX`. -/
def intMax : Nat := 2 ^ 31 - 1

/-- `static_cast<int>` of a `std::size_t`. -/
def castInt (n : Nat) : Int := (BitVec.ofNat 32 n).toInt

/-- `static_cast<std::size_t>` of an `int`. -/
def castSize (i : Int) : Nat := (BitVec.ofInt 64 i).toNat

/-- The low 32 bits, read as a two's complement number. -/
theorem castInt_eq (n : Nat) : castInt n
    = if n % 2 ^ 32 < 2 ^ 31 then ((n % 2 ^ 32 : Nat) : Int)
      else (n % 2 ^ 32 : Nat) - (2 ^ 32 : Nat) := by
  unfold castInt
  rw [BitVec.toInt_eq_toNat_cond, BitVec.toNat_ofNat]
  split <;> split <;> omega

theorem castInt_of_le {n : Nat} (h : n ≤ intMax) : castInt n = n := by
  have h' : n < 2 ^ 31 := Nat.lt_of_le_of_lt h (by decide)
  rw [castInt_eq, Nat.mod_eq_of_lt (by omega), if_pos h']

theorem castInt_le (n : Nat) : castInt n ≤ n := by
  rw [castInt_eq]
  split <;> omega

theorem castInt_le_intMax (n : Nat) : castInt n ≤ intMax := by
  rw [castInt_eq]
  unfold intMax
  split <;> omega

theorem castSize_natCast {n : Nat} (h : n ≤ intMax) : castSize (n : Int) = n := by
  have h' : n < 2 ^ 31 := Nat.lt_of_le_of_lt h (by decide)
  unfold castSize
  rw [BitVec.ofInt_natCast, BitVec.toNat_ofNat, Nat.mod_eq_of_lt]
  omega

/-- Promoting a `char` and casting back. -/
theorem toChar_charToInt (c : Byte) : toChar (charToInt c) = c := by
  refine BitVec.eq_of_getLsbD_eq fun i hi => ?_
  simp [toChar, charToInt, BitVec.getLsbD_signExtend, hi]
  omega

/-- A `char` keeps of a sum what the sum of what it keeps gives. -/
theorem toChar_add (x y : BitVec 32) : toChar (x + y) = toChar x + toChar y :=
  BitVec.setWidth_add x y (by decide)

theorem toChar_shiftLeft (x : BitVec 32) (n : Nat) : toChar (x <<< n) = toChar x <<< n := by
  refine BitVec.eq_of_getLsbD_eq fun i hi => ?_
  simp [toChar, hi]

/-! ## Fields of a word -/

/-- Masking the low bits takes the remainder. -/
theorem toNat_and_low {w : Nat} (x : BitVec w) {k : Nat} (h : k ≤ w) :
    (x &&& BitVec.ofNat w (2 ^ k - 1)).toNat = x.toNat % 2 ^ k := by
  have hle : 2 ^ k ≤ 2 ^ w := Nat.pow_le_pow_right (by decide) h
  have hpos := Nat.two_pow_pos k
  rw [BitVec.toNat_and, BitVec.toNat_ofNat, Nat.mod_eq_of_lt (by omega),
    Nat.and_two_pow_sub_one_eq_mod]

/-- Or-ing a field in above the bits in use adds it. -/
theorem toNat_or_field {w : Nat} {x : BitVec w} {d i : Nat} (hx : x.toNat < 2 ^ i)
    (hd : 2 ^ i * d < 2 ^ w) :
    (x ||| BitVec.ofNat w d <<< i).toNat = x.toNat + 2 ^ i * d := by
  have hd' : d < 2 ^ w := Nat.lt_of_le_of_lt (Nat.le_mul_of_pos_left d (Nat.two_pow_pos i)) hd
  rw [BitVec.toNat_or, BitVec.toNat_shiftLeft, BitVec.toNat_ofNat, Nat.mod_eq_of_lt hd',
    Nat.shiftLeft_eq, Nat.mul_comm d, Nat.mod_eq_of_lt hd, Nat.or_comm,
    ← Nat.two_pow_add_eq_or_of_lt hx, Nat.add_comm]

/-- Above the bits in use, or-ing adds, up to the width of the word. -/
theorem ofNat_or_field {w v i : Nat} (h : v < 2 ^ i) (d : Nat) :
    BitVec.ofNat w v ||| BitVec.ofNat w d <<< i = BitVec.ofNat w (v + 2 ^ i * d) := by
  apply BitVec.eq_of_toNat_eq
  rw [BitVec.toNat_or, BitVec.toNat_shiftLeft, BitVec.toNat_ofNat, BitVec.toNat_ofNat,
    BitVec.toNat_ofNat, Nat.shiftLeft_eq, Nat.mod_mul_mod, Nat.mul_comm d, Nat.add_comm,
    Nat.two_pow_add_eq_or_of_lt h, Nat.or_mod_two_pow, Nat.or_comm]

/-! ## Copying into a buffer -/

/-- `std::copy_n(src.begin(), src.size(), dst.begin() + pos)`. -/
def blit (dst : Bytes) (pos : Nat) (src : Bytes) : Bytes :=
  dst.take pos ++ src ++ dst.drop (pos + src.length)

/-- Copying over a whole buffer replaces it. -/
theorem blit_all {dst src : Bytes} (h : src.length = dst.length) : blit dst 0 src = src := by
  simp [blit, h]

theorem blit_zero (dst src : Bytes) : blit dst 0 src = src ++ dst.drop src.length := by
  simp [blit]

@[simp] theorem blit_nil (dst : Bytes) (pos : Nat) : blit dst pos [] = dst := by
  rw [blit, List.append_nil]
  exact List.take_append_drop pos dst

/-- Copying behind a front leaves the front. -/
theorem blit_append (front rest src : Bytes) :
    blit (front ++ rest) front.length src = front ++ src ++ rest.drop src.length := by
  simp [blit]

/-- Setting one byte. -/
theorem set_eq_blit {dst : Bytes} {pos : Nat} (h : pos < dst.length) (c : Byte) :
    dst.set pos c = blit dst pos [c] := by
  rw [List.set_eq_take_cons_drop _ h, blit, List.append_assoc]
  rfl

/-- Copying right in front of what was copied before. -/
theorem blit_blit {dst near far : Bytes} {pos : Nat}
    (h : pos + near.length + far.length ≤ dst.length) :
    blit (blit dst (pos + near.length) far) pos near = blit dst pos (near ++ far) := by
  have htake : (dst.take (pos + near.length)).length = pos + near.length :=
    List.length_take_of_le (by omega)
  have hpos : pos ≤ (dst.take (pos + near.length)).length := by omega
  simp only [blit, List.append_assoc]
  rw [List.take_append_of_le_length hpos, List.take_take, Nat.min_eq_left (Nat.le_add_right _ _),
    List.drop_left' htake, List.length_append, Nat.add_assoc]

@[simp] theorem length_blit {dst src : Bytes} {pos : Nat} (h : pos + src.length ≤ dst.length) :
    (blit dst pos src).length = dst.length := by
  simp only [blit, List.length_append, List.length_take, List.length_drop]
  omega

end Uvio
