import Uvio.Common.Machine
import Uvio.Program.Search

/-!
# `StreamBuffer`

The buffer both the buffered reader and the buffered writer are built on: a
vector with two `int` positions, `0 <= r_pos_ <= w_pos_ <= size`, between which
the readable bytes lie. The operations are those of the class, on a value that
holds its fields; `assert(r_pos_ <= w_pos_)`, which `NDEBUG` compiles out, is
recorded in the ghost field `asserted` instead of acted on.

`StreamBuffer.Cut b pre mid post` cuts the vector at the two positions: `pre` is
in front of `r_pos_`, `mid` is the readable slice, `post` is what a read may
still fill. Each operation has one lemma that says what it does to the three
parts; everything above this module uses these and not the operations.

A vector of more than `INT_MAX` bytes can be cut too, but `w_slice()` is then not
all of `post`: `w_remaining()` converts the size to `int`. `StreamBuffer.Laid` is a
cut of a vector an `int` can count, with no assertion failed so far.
-/

namespace Uvio.Io

open Program

/-- `StreamBuffer`, with the outcome of its `assert`s so far. -/
structure StreamBuffer where
  buf : Bytes
  rPos : Int
  wPos : Int
  asserted : Bool
deriving DecidableEq, Repr

namespace StreamBuffer

/-- `StreamBuffer(size)`: a zeroed vector, both positions at 0. -/
def new (size : Nat) : StreamBuffer := ⟨List.replicate size 0, 0, 0, true⟩

def rRemaining (b : StreamBuffer) : Int := b.wPos - b.rPos

def rSlice (b : StreamBuffer) : Bytes := (b.buf.drop b.rPos.toNat).take b.rRemaining.toNat

def wRemaining (b : StreamBuffer) : Int := castInt b.buf.length - b.wPos

/-- `w_slice().size()`. A range that ends before it begins, which C++ leaves undefined, is
taken for empty. -/
def wSliceSize (b : StreamBuffer) : Nat := b.wRemaining.toNat

def empty (b : StreamBuffer) : Bool := b.rPos == b.wPos

def capacity (b : StreamBuffer) : Nat := b.buf.length

def resetPos (b : StreamBuffer) : StreamBuffer := { b with rPos := 0, wPos := 0 }

/-- Move the readable bytes to the front; what they leave behind stays there. -/
def resetData (b : StreamBuffer) : StreamBuffer :=
  { b with buf := blit b.buf 0 b.rSlice, rPos := 0, wPos := b.rRemaining }

def rIncrease (b : StreamBuffer) (n : Nat) : StreamBuffer :=
  { b with rPos := b.rPos + castInt n, asserted := b.asserted && b.rPos + castInt n ≤ b.wPos }

def wIncrease (b : StreamBuffer) (n : Nat) : StreamBuffer :=
  { b with wPos := b.wPos + castInt n, asserted := b.asserted && b.rPos ≤ b.wPos + castInt n }

/-- The bytes a read puts into `w_slice()`. -/
def store (b : StreamBuffer) (bs : Bytes) : StreamBuffer :=
  { b with buf := blit b.buf b.wPos.toNat bs }

/-- `write_to(dst)`: the destination afterwards and the number of bytes copied. -/
def writeTo (b : StreamBuffer) (dst : Bytes) : (Bytes × Nat) × StreamBuffer :=
  let len := min (castSize b.rRemaining) dst.length
  -- the vector is copied from before the positions are reset
  let dst' := blit dst 0 ((b.buf.drop b.rPos.toNat).take len)
  let b' := b.rIncrease len
  ((dst', len), if b'.rPos == b'.wPos then b'.resetPos else b')

/-- `read_from(src)`. -/
def readFrom (b : StreamBuffer) (src : Bytes) : Nat × StreamBuffer :=
  let len := min (castSize b.wRemaining) src.length
  (len, (b.store (src.take len)).wIncrease len)

/-- The text a `std::string_view` made from a bare pointer covers: everything up
to the first NUL. -/
def cString (s : Bytes) : Bytes := s.takeWhile (· ≠ 0)

/-- `find_flag_and_return_slice(end_str)`. The search starts at `r_begin()` and
ends at the first NUL of the vector, wherever `w_pos_` is. -/
def findFlagAndReturnSlice (b : StreamBuffer) (endStr : Bytes) : Bytes :=
  match find endStr (cString (b.buf.drop b.rPos.toNat)) with
  | none => []
  | some pos => (b.buf.drop b.rPos.toNat).take (pos + endStr.length)

/-! ## The text a bare pointer points to -/

theorem cString_cons_zero (s : Bytes) : cString (0 :: s) = [] := rfl

theorem cString_cons {c : Byte} (hc : c ≠ 0) (s : Bytes) : cString (c :: s) = c :: cString s := by
  unfold cString
  rw [List.takeWhile_cons_of_pos (by simpa using hc)]

/-- Bytes without NUL are text, and the text goes on behind them. -/
theorem cString_append_of_notMem {s : Bytes} (h : 0 ∉ s) (t : Bytes) :
    cString (s ++ t) = s ++ cString t := by
  induction s with
  | nil => rfl
  | cons c s ih =>
    rw [List.mem_cons, not_or] at h
    rw [List.cons_append, cString_cons (Ne.symm h.1), ih h.2, List.cons_append]

/-- A NUL ends the text. -/
theorem cString_front {s : Bytes} (h : 0 ∉ s) (t : Bytes) : cString (s ++ 0 :: t) = s := by
  rw [cString_append_of_notMem h, cString_cons_zero, List.append_nil]

@[simp] theorem cString_replicate (k : Nat) : cString (List.replicate k 0) = [] := by
  cases k with
  | zero => rfl
  | succ k => exact cString_cons_zero _

/-- The zeros behind some bytes do not belong to the text. -/
theorem cString_append_replicate (s : Bytes) (k : Nat) :
    cString (s ++ List.replicate k 0) = cString s := by
  induction s with
  | nil => exact cString_replicate k
  | cons c s ih =>
    by_cases hc : c = 0
    · subst hc
      rfl
    · rw [List.cons_append, cString_cons hc, cString_cons hc, ih]

/-- Text that goes on begins with the text there was. -/
theorem cString_isPrefix {s t : Bytes} (h : s <+: t) : cString s <+: cString t := by
  obtain ⟨rest, rfl⟩ := h
  unfold cString
  rw [List.takeWhile_append]
  split
  next hall =>
    rw [(List.takeWhile_prefix _).eq_of_length hall]
    exact List.prefix_append s _
  next => exact List.prefix_rfl

/-- The search is for the first flag in the text. -/
theorem findFlag_eq (b : StreamBuffer) {flag : Bytes} (hflag : flag ≠ []) :
    b.findFlagAndReturnSlice flag = through flag (cString (b.buf.drop b.rPos.toNat)) := by
  unfold findFlagAndReturnSlice
  cases hfind : find flag (cString (b.buf.drop b.rPos.toNat)) with
  | none => rw [through_of_find_none hfind]
  | some pos =>
    -- what is found lies in the text, which is a front of the vector
    have hpre := (List.take_prefix (pos + flag.length) (cString (b.buf.drop b.rPos.toNat))).trans
      (List.takeWhile_prefix _)
    rw [List.prefix_iff_eq_take, List.length_take_of_le (find_le hfind hflag)] at hpre
    rw [through_of_find hfind]
    exact hpre.symm

/-! ## The three parts of the vector -/

/-- The two positions, which are `int`s, cut the vector into `pre`, `mid` and `post`. -/
structure Cut (b : StreamBuffer) (pre mid post : Bytes) : Prop where
  buf : b.buf = pre ++ mid ++ post
  rPos : b.rPos = pre.length
  wPos : b.wPos = pre.length + mid.length
  reach : pre.length + mid.length ≤ intMax

/-- The same for a vector whose size is an `int`, before any assertion failed. -/
structure Laid (b : StreamBuffer) (pre mid post : Bytes) : Prop where
  buf : b.buf = pre ++ mid ++ post
  rPos : b.rPos = pre.length
  wPos : b.wPos = pre.length + mid.length
  size : b.buf.length ≤ intMax
  asserted : b.asserted = true

/-- `0 <= r_pos_ <= w_pos_ <= buf_.size()`. -/
def Bounded (b : StreamBuffer) : Prop :=
  0 ≤ b.rPos ∧ b.rPos ≤ b.wPos ∧ b.wPos ≤ b.buf.length

/-- `0 <= r_pos_ <= w_pos_ <= buf_.size()`, with positions that are `int`s. -/
structure Valid (b : StreamBuffer) : Prop where
  bounded : b.Bounded
  reach : b.wPos ≤ intMax

theorem Valid.cut {b : StreamBuffer} (h : b.Valid) : ∃ pre mid post, b.Cut pre mid post := by
  obtain ⟨h₀, h₁, h₂⟩ := h.bounded
  have hreach := h.reach
  refine ⟨b.buf.take b.rPos.toNat, b.rSlice, b.buf.drop b.wPos.toNat, ?_, ?_, ?_, ?_⟩
  · -- the readable slice is what lies between the two positions
    have hdrop : b.buf.drop b.wPos.toNat = (b.buf.drop b.rPos.toNat).drop b.rRemaining.toNat := by
      rw [List.drop_drop]
      unfold StreamBuffer.rRemaining
      congr 1
      omega
    unfold StreamBuffer.rSlice
    rw [hdrop, List.append_assoc, List.take_append_drop, List.take_append_drop]
  all_goals
    simp only [StreamBuffer.rSlice, StreamBuffer.rRemaining, List.length_take, List.length_drop]
    omega

section Cut

variable {b : StreamBuffer} {pre mid post : Bytes}

theorem cut_new (size : Nat) : (new size).Cut [] [] (List.replicate size 0) :=
  ⟨rfl, rfl, rfl, Nat.zero_le _⟩

theorem Cut.length (h : b.Cut pre mid post) :
    b.buf.length = pre.length + mid.length + post.length := by
  rw [h.buf, List.length_append, List.length_append]

theorem Cut.bounded (h : b.Cut pre mid post) : b.Bounded := by
  have hlen := h.length
  refine ⟨?_, ?_, ?_⟩
  · rw [h.rPos]
    omega
  · rw [h.rPos, h.wPos]
    omega
  · rw [h.wPos, hlen]
    omega

theorem Cut.valid (h : b.Cut pre mid post) : b.Valid where
  bounded := h.bounded
  reach := by
    have := h.reach
    rw [h.wPos]
    omega

theorem Cut.rRemaining (h : b.Cut pre mid post) : b.rRemaining = mid.length := by
  unfold StreamBuffer.rRemaining
  rw [h.rPos, h.wPos]
  omega

theorem Cut.drop_rPos (h : b.Cut pre mid post) :
    b.buf.drop b.rPos.toNat = mid ++ post := by
  rw [h.rPos, Int.toNat_natCast, h.buf, List.append_assoc, List.drop_left]

theorem Cut.rSlice (h : b.Cut pre mid post) : b.rSlice = mid := by
  unfold StreamBuffer.rSlice
  rw [h.drop_rPos, h.rRemaining, Int.toNat_natCast, List.take_left]

theorem Cut.empty_iff (h : b.Cut pre mid post) : b.empty = true ↔ mid = [] := by
  unfold StreamBuffer.empty
  rw [beq_iff_eq, h.rPos, h.wPos, ← List.length_eq_zero_iff]
  omega

theorem Cut.castSize_rRemaining (h : b.Cut pre mid post) :
    castSize b.rRemaining = mid.length := by
  rw [h.rRemaining, castSize_natCast (by
    have := h.reach
    omega)]

theorem Cut.wRemaining (h : b.Cut pre mid post) :
    b.wRemaining = castInt b.capacity - (pre.length + mid.length) := by
  unfold StreamBuffer.wRemaining
  rw [h.wPos]
  rfl

/-- Where `w_pos_` is further in front, more can be written. -/
theorem Cut.wRemaining_mono {b' : StreamBuffer} {pre' mid' post' : Bytes} (h : b.Cut pre mid post)
    (h' : b'.Cut pre' mid' post') (hcap : b'.capacity = b.capacity)
    (hle : pre'.length + mid'.length ≤ pre.length + mid.length) :
    b.wRemaining ≤ b'.wRemaining := by
  rw [h.wRemaining, h'.wRemaining, hcap]
  omega

theorem lt_wSliceSize_iff {n : Nat} : n < b.wSliceSize ↔ (n : Int) < b.wRemaining := Int.lt_toNat

theorem wSliceSize_pos (h : 0 < b.wRemaining) : 0 < b.wSliceSize := lt_wSliceSize_iff.mpr h

theorem le_wSliceSize {n : Nat} (h : (n : Int) ≤ b.wRemaining) : n ≤ b.wSliceSize :=
  (Int.le_toNat (by omega)).mpr h

/-- `w_slice()` ends where the vector does, if its size is an `int`. -/
theorem Cut.wRemaining_of_le (h : b.Cut pre mid post) (hcap : b.capacity ≤ intMax) :
    b.wRemaining = post.length := by
  have hlen : b.capacity = _ := h.length
  rw [h.wRemaining, castInt_of_le hcap]
  omega

theorem Cut.wSliceSize_of_le (h : b.Cut pre mid post) (hcap : b.capacity ≤ intMax) :
    b.wSliceSize = post.length :=
  (congrArg Int.toNat (h.wRemaining_of_le hcap)).trans (Int.toNat_natCast _)

/-- `w_slice()` ends where the vector does, or before. -/
theorem Cut.wSliceSize_le (h : b.Cut pre mid post) : b.wSliceSize ≤ post.length := by
  have hlen := h.length
  have hcast := castInt_le b.capacity
  unfold StreamBuffer.wSliceSize
  rw [h.wRemaining]
  unfold capacity at hcast ⊢
  omega

/-! ### What each operation does to the parts -/

theorem Cut.resetPos (h : b.Cut pre mid post) : b.resetPos.Cut [] [] (pre ++ mid ++ post) :=
  ⟨h.buf, rfl, rfl, Nat.zero_le _⟩

theorem Cut.resetData (h : b.Cut pre mid post) :
    b.resetData.Cut [] mid ((pre ++ mid ++ post).drop mid.length) where
  buf := by
    -- only the first `mid.length` bytes are written over
    show blit b.buf 0 b.rSlice = _
    rw [blit_zero, h.rSlice, h.buf, List.nil_append]
  rPos := rfl
  wPos := by
    show b.rRemaining = _
    rw [h.rRemaining]
    simp
  reach := by
    have := h.reach
    rw [List.length_nil]
    omega

theorem Cut.rIncrease (h : b.Cut pre mid post) {n : Nat} (hn : n ≤ mid.length) :
    (b.rIncrease n).Cut (pre ++ mid.take n) (mid.drop n) post := by
  have hreach := h.reach
  have hlen : (pre ++ mid.take n).length = pre.length + n := by
    rw [List.length_append, List.length_take, Nat.min_eq_left hn]
  refine ⟨?_, ?_, ?_, ?_⟩
  · show b.buf = _
    rw [h.buf, List.append_assoc pre (mid.take n), List.take_append_drop]
  · show b.rPos + castInt n = _
    rw [h.rPos, hlen, castInt_of_le (by omega)]
    omega
  · show b.wPos = _
    rw [h.wPos, hlen, List.length_drop]
    omega
  · rw [hlen, List.length_drop]
    omega

/-- A read of `bs` into `w_slice()`, counted by `w_increase`. -/
theorem Cut.fill (h : b.Cut pre mid post) {bs : Bytes} (hbs : bs.length ≤ b.wSliceSize) :
    ((b.store bs).wIncrease bs.length).Cut pre (mid ++ bs) (post.drop bs.length) := by
  have hreach := h.reach
  have hcast := castInt_le_intMax b.capacity
  unfold StreamBuffer.wSliceSize at hbs
  rw [h.wRemaining] at hbs
  refine ⟨?_, h.rPos, ?_, ?_⟩
  · show blit b.buf b.wPos.toNat bs = _
    have hw : b.wPos.toNat = (pre ++ mid).length := by
      rw [h.wPos, List.length_append]
      omega
    rw [hw, h.buf, blit_append]
    simp only [List.append_assoc]
  · show b.wPos + castInt bs.length = _
    rw [h.wPos, castInt_of_le (by omega), List.length_append]
    omega
  · rw [List.length_append]
    omega

/-- The assertion of `r_increase` is that the positions are in order. -/
theorem Cut.asserted_rIncrease (h : b.Cut pre mid post) {n : Nat} (hn : n ≤ mid.length) :
    (b.rIncrease n).asserted = b.asserted := by
  show (b.asserted && decide ((b.rIncrease n).rPos ≤ (b.rIncrease n).wPos)) = b.asserted
  rw [decide_eq_true (h.rIncrease hn).bounded.2.1, Bool.and_true]

/-- So is the one of `w_increase`. -/
theorem Cut.asserted_fill (h : b.Cut pre mid post) {bs : Bytes} (hbs : bs.length ≤ b.wSliceSize) :
    ((b.store bs).wIncrease bs.length).asserted = b.asserted := by
  show (b.asserted && decide (((b.store bs).wIncrease bs.length).rPos
    ≤ ((b.store bs).wIncrease bs.length).wPos)) = b.asserted
  rw [decide_eq_true (h.fill hbs).bounded.2.1, Bool.and_true]

theorem Cut.capacity_fill (h : b.Cut pre mid post) {bs : Bytes} (hbs : bs.length ≤ b.wSliceSize) :
    ((b.store bs).wIncrease bs.length).capacity = b.capacity := by
  have hlen := h.length
  have hle := h.wSliceSize_le
  show ((b.store bs).wIncrease bs.length).buf.length = b.buf.length
  rw [(h.fill hbs).length, hlen, List.length_append, List.length_drop]
  omega

theorem Cut.capacity_resetData (h : b.Cut pre mid post) :
    b.resetData.capacity = b.capacity := by
  have hlen := h.length
  show b.resetData.buf.length = b.buf.length
  rw [h.resetData.length, hlen]
  simp only [List.length_nil, List.length_append, List.length_drop]
  omega

/-- What `write_to` hands over: the front of the readable bytes. -/
theorem Cut.writeTo_fst (h : b.Cut pre mid post) (dst : Bytes) :
    (b.writeTo dst).1 = (blit dst 0 (mid.take dst.length), min mid.length dst.length) := by
  show (blit dst 0 ((b.buf.drop b.rPos.toNat).take (min (castSize b.rRemaining) dst.length)),
    min (castSize b.rRemaining) dst.length) = _
  rw [h.castSize_rRemaining, h.drop_rPos, List.take_append_of_le_length (Nat.min_le_left _ _),
    Nat.min_comm, ← List.take_take, List.take_length]

/-- A `write_to` that leaves something to read. -/
theorem Cut.writeTo_part (h : b.Cut pre mid post) {dst : Bytes} (hdst : dst.length < mid.length) :
    (b.writeTo dst).2.Cut (pre ++ mid.take dst.length) (mid.drop dst.length) post := by
  have hmin : min (castSize b.rRemaining) dst.length = dst.length := by
    rw [h.castSize_rRemaining]
    omega
  have hinc := h.rIncrease (Nat.le_of_lt hdst)
  show (if (b.rIncrease (min _ _)).rPos == (b.rIncrease (min _ _)).wPos then _ else _ :
    StreamBuffer).Cut _ _ _
  rw [hmin, if_neg]
  · exact hinc
  · intro hempty
    have := hinc.empty_iff.mp hempty
    rw [List.drop_eq_nil_iff] at this
    omega

/-- A `write_to` that takes everything resets the positions. -/
theorem Cut.writeTo_all (h : b.Cut pre mid post) {dst : Bytes} (hdst : mid.length ≤ dst.length) :
    (b.writeTo dst).2.Cut [] [] (pre ++ mid ++ post) := by
  have hmin : min (castSize b.rRemaining) dst.length = mid.length := by
    rw [h.castSize_rRemaining]
    omega
  have hinc := h.rIncrease (Nat.le_refl mid.length)
  show (if (b.rIncrease (min _ _)).rPos == (b.rIncrease (min _ _)).wPos then _ else _ :
    StreamBuffer).Cut _ _ _
  rw [hmin, if_pos]
  · have := hinc.resetPos
    rwa [List.take_length, List.drop_length, List.append_nil] at this
  · exact hinc.empty_iff.mpr (by rw [List.drop_length])

/-- `write_to` checks that `r_pos_` stays in front of `w_pos_`. -/
theorem Cut.asserted_writeTo (h : b.Cut pre mid post) (dst : Bytes) :
    (b.writeTo dst).2.asserted = b.asserted := by
  have hinc := h.asserted_rIncrease (Nat.min_le_left mid.length dst.length)
  show (if (b.rIncrease (min (castSize b.rRemaining) dst.length)).rPos
      == (b.rIncrease (min (castSize b.rRemaining) dst.length)).wPos then _ else _ :
    StreamBuffer).asserted = _
  rw [h.castSize_rRemaining]
  split
  · exact hinc
  · exact hinc

theorem length_buf_writeTo (b : StreamBuffer) (dst : Bytes) :
    (b.writeTo dst).2.buf.length = b.buf.length := by
  show (if (b.rIncrease (min _ _)).rPos == (b.rIncrease (min _ _)).wPos then _ else _ :
    StreamBuffer).buf.length = _
  split <;> rfl

/-- `write_to` takes the front of the readable bytes off the buffer. -/
theorem Cut.writeTo (h : b.Cut pre mid post) (dst : Bytes) :
    ∃ pre' post', (b.writeTo dst).2.Cut pre' (mid.drop dst.length) post' := by
  by_cases hdst : dst.length < mid.length
  · exact ⟨_, _, h.writeTo_part hdst⟩
  · rw [List.drop_eq_nil_of_le (Nat.le_of_not_lt hdst)]
    exact ⟨_, _, h.writeTo_all (Nat.le_of_not_lt hdst)⟩

/-- `write_to` a destination the readable bytes fill. -/
theorem Cut.writeTo_fst_full (h : b.Cut pre mid post) {dst : Bytes}
    (hdst : dst.length ≤ mid.length) :
    (b.writeTo dst).1 = (mid.take dst.length, dst.length) := by
  rw [h.writeTo_fst, Nat.min_eq_right hdst, blit_all]
  rw [List.length_take, Nat.min_eq_left hdst]

/-- `write_to` a destination the readable bytes do not fill. -/
theorem Cut.writeTo_fst_short (h : b.Cut pre mid post) {dst : Bytes}
    (hdst : mid.length ≤ dst.length) :
    (b.writeTo dst).1 = (mid ++ dst.drop mid.length, mid.length) := by
  rw [h.writeTo_fst, Nat.min_eq_left hdst, List.take_of_length_le hdst, blit_zero]

theorem Cut.castSize_wRemaining (h : b.Cut pre mid post) (hw : 0 ≤ b.wRemaining) :
    castSize b.wRemaining = b.wSliceSize := by
  have hcast := castInt_le_intMax b.capacity
  have hle : b.wSliceSize ≤ intMax := by
    unfold StreamBuffer.wSliceSize
    rw [h.wRemaining]
    omega
  have heq : b.wRemaining = (b.wSliceSize : Int) := (Int.toNat_of_nonneg hw).symm
  rw [heq, castSize_natCast hle]

/-- `read_from` a source that fits behind `w_pos_` stores all of it. -/
theorem Cut.readFrom (h : b.Cut pre mid post) {src : Bytes}
    (hsrc : (src.length : Int) ≤ b.wRemaining) :
    b.readFrom src = (src.length, (b.store src).wIncrease src.length) := by
  have hmin : min (castSize b.wRemaining) src.length = src.length := by
    rw [h.castSize_wRemaining (by omega)]
    unfold StreamBuffer.wSliceSize
    omega
  show (min (castSize b.wRemaining) src.length, (b.store (src.take (min _ _))).wIncrease (min _ _))
    = _
  rw [hmin, List.take_length]

end Cut

/-! ## A vector an `int` can count -/

theorem laid_new {size : Nat} (h : size ≤ intMax) :
    (new size).Laid [] [] (List.replicate size 0) where
  buf := (cut_new size).buf
  rPos := (cut_new size).rPos
  wPos := (cut_new size).wPos
  size := by
    show (List.replicate size (0 : Byte)).length ≤ intMax
    rw [List.length_replicate]
    exact h
  asserted := rfl

section Laid

variable {b b' : StreamBuffer} {pre mid post pre' mid' post' : Bytes}

theorem Laid.cut (h : b.Laid pre mid post) : b.Cut pre mid post where
  buf := h.buf
  rPos := h.rPos
  wPos := h.wPos
  reach := by
    have := h.size
    rw [h.buf, List.length_append, List.length_append] at this
    omega

/-- An operation that keeps the size and fails no assertion. -/
theorem Laid.of_cut (h : b.Laid pre mid post) (hcut : b'.Cut pre' mid' post')
    (hlen : b'.buf.length = b.buf.length) (ha : b'.asserted = b.asserted) :
    b'.Laid pre' mid' post' where
  buf := hcut.buf
  rPos := hcut.rPos
  wPos := hcut.wPos
  size := hlen ▸ h.size
  asserted := ha.trans h.asserted

theorem Laid.length (h : b.Laid pre mid post) :
    b.buf.length = pre.length + mid.length + post.length := h.cut.length

theorem Laid.bounded (h : b.Laid pre mid post) : b.Bounded := h.cut.bounded

@[simp] theorem Laid.rRemaining (h : b.Laid pre mid post) : b.rRemaining = mid.length :=
  h.cut.rRemaining

theorem Laid.wRemaining (h : b.Laid pre mid post) : b.wRemaining = post.length :=
  h.cut.wRemaining_of_le h.size

theorem Laid.wSliceSize (h : b.Laid pre mid post) : b.wSliceSize = post.length :=
  h.cut.wSliceSize_of_le h.size

theorem Laid.drop_rPos (h : b.Laid pre mid post) : b.buf.drop b.rPos.toNat = mid ++ post :=
  h.cut.drop_rPos

theorem Laid.rSlice (h : b.Laid pre mid post) : b.rSlice = mid := h.cut.rSlice

theorem Laid.empty_iff (h : b.Laid pre mid post) : b.empty = true ↔ mid = [] := h.cut.empty_iff

theorem Laid.castSize_rRemaining (h : b.Laid pre mid post) :
    castSize b.rRemaining = mid.length := h.cut.castSize_rRemaining

theorem Laid.resetPos (h : b.Laid pre mid post) :
    b.resetPos.Laid [] [] (pre ++ mid ++ post) :=
  h.of_cut h.cut.resetPos rfl rfl

theorem Laid.resetData (h : b.Laid pre mid post) :
    b.resetData.Laid [] mid ((pre ++ mid ++ post).drop mid.length) :=
  h.of_cut h.cut.resetData h.cut.capacity_resetData rfl

theorem Laid.rIncrease (h : b.Laid pre mid post) {n : Nat} (hn : n ≤ mid.length) :
    (b.rIncrease n).Laid (pre ++ mid.take n) (mid.drop n) post :=
  h.of_cut (h.cut.rIncrease hn) rfl (h.cut.asserted_rIncrease hn)

/-- A read of `bs` into `w_slice()`, counted by `w_increase`. -/
theorem Laid.fill (h : b.Laid pre mid post) {bs : Bytes} (hbs : bs.length ≤ post.length) :
    ((b.store bs).wIncrease bs.length).Laid pre (mid ++ bs) (post.drop bs.length) := by
  have hslice : bs.length ≤ b.wSliceSize := h.wSliceSize ▸ hbs
  exact h.of_cut (h.cut.fill hslice) (h.cut.capacity_fill hslice) (h.cut.asserted_fill hslice)

/-- What `write_to` hands over: the front of the readable bytes. -/
theorem Laid.writeTo_fst (h : b.Laid pre mid post) (dst : Bytes) :
    (b.writeTo dst).1 = (blit dst 0 (mid.take dst.length), min mid.length dst.length) :=
  h.cut.writeTo_fst dst

/-- A `write_to` that leaves something to read. -/
theorem Laid.writeTo_part (h : b.Laid pre mid post) {dst : Bytes}
    (hdst : dst.length < mid.length) :
    (b.writeTo dst).2.Laid (pre ++ mid.take dst.length) (mid.drop dst.length) post :=
  h.of_cut (h.cut.writeTo_part hdst) (length_buf_writeTo b dst) (h.cut.asserted_writeTo dst)

/-- A `write_to` that takes everything resets the positions. -/
theorem Laid.writeTo_all (h : b.Laid pre mid post) {dst : Bytes}
    (hdst : mid.length ≤ dst.length) :
    (b.writeTo dst).2.Laid [] [] (pre ++ mid ++ post) :=
  h.of_cut (h.cut.writeTo_all hdst) (length_buf_writeTo b dst) (h.cut.asserted_writeTo dst)

/-- `write_to` takes the front of the readable bytes off the buffer. -/
theorem Laid.writeTo (h : b.Laid pre mid post) (dst : Bytes) :
    ∃ pre' post', (b.writeTo dst).2.Laid pre' (mid.drop dst.length) post' := by
  obtain ⟨pre', post', hcut⟩ := h.cut.writeTo dst
  exact ⟨pre', post', h.of_cut hcut (length_buf_writeTo b dst) (h.cut.asserted_writeTo dst)⟩

/-- `write_to` a destination the readable bytes fill. -/
theorem Laid.writeTo_fst_full (h : b.Laid pre mid post) {dst : Bytes}
    (hdst : dst.length ≤ mid.length) :
    (b.writeTo dst).1 = (mid.take dst.length, dst.length) := h.cut.writeTo_fst_full hdst

/-- `write_to` a destination the readable bytes do not fill. -/
theorem Laid.writeTo_fst_short (h : b.Laid pre mid post) {dst : Bytes}
    (hdst : mid.length ≤ dst.length) :
    (b.writeTo dst).1 = (mid ++ dst.drop mid.length, mid.length) := h.cut.writeTo_fst_short hdst

/-- What `read_from` takes: as much of the source as fits. -/
theorem Laid.readFrom (h : b.Laid pre mid post) {src : Bytes} (hsrc : src.length ≤ post.length) :
    (b.readFrom src).1 = src.length ∧
      (b.readFrom src).2.Laid pre (mid ++ src) (post.drop src.length) := by
  have hfit : (src.length : Int) ≤ b.wRemaining := by
    rw [h.wRemaining]
    exact Int.ofNat_le.mpr hsrc
  rw [h.cut.readFrom hfit]
  exact ⟨rfl, h.fill hsrc⟩

end Laid

end StreamBuffer

end Uvio.Io
