import Uvio.Io.Buffer
import Uvio.Program.Columns
import Uvio.Program.Runs

/-!
# `get_timestamp`

The time stamps of the logger. `get_timestamp` formats into a `thread_local` buffer
and remembers the second it did so for; in the same second, a call rewrites the
milliseconds only. `to_int` writes from right to left, so that each field ends where
the next one begins.

Nothing is in the buffer before the first call, and the second remembered then is the
one the epoch begins with: `timestamps_eq_map_iff`.
-/

namespace Uvio.Log

open Program Io.StreamBuffer

/-- A character constant. -/
def byte (c : Char) : Byte := BitVec.ofNat 8 c.toNat

/-! ## The platform -/

/-- What `get_timestamp` reads of a `std::tm`, in the ranges of the C standard. -/
structure Tm where
  sec : Nat
  min : Nat
  hour : Nat
  mday : Nat
  mon : Nat
  /-- Years since 1900. -/
  year : Int
  sec_le : sec ≤ 60
  min_le : min ≤ 59
  hour_le : hour ≤ 23
  mday_ge : 1 ≤ mday
  mday_le : mday ≤ 31
  mon_le : mon ≤ 11

/-- `std::chrono::system_clock` and `localtime`. -/
structure Clock where
  /-- The ticks of `system_clock::duration` in a second. -/
  ticks : Nat
  ticks_pos : 0 < ticks
  localtime : Int → Tm
  /-- At the epoch it is 1970, or still 1969 in the west. -/
  year_ge (second : Int) (h : 0 ≤ second) : 69 ≤ (localtime second).year

namespace Clock

/-- `duration_cast<seconds>(duration)`, which truncates. -/
def seconds (clock : Clock) (duration : Int) : Int := duration.tdiv clock.ticks

/-- `duration_cast<milliseconds>(duration - seconds).count()`. -/
def milliseconds (clock : Clock) (duration : Int) : Int :=
  ((duration - clock.seconds duration * clock.ticks) * 1000).tdiv clock.ticks

/-- `system_clock::to_time_t(now)`. -/
def toTimeT (clock : Clock) (now : Int) : Int := now.tdiv clock.ticks

end Clock

/-! ## The code -/

def digits : Bytes := ascii "0123456789"

/-- The loop of `to_int`, with `i` digits to go: `p[--size] = digits.at(num % 10)`. -/
def toIntLoop : Nat → Nat → Bytes → Nat → Bytes × Nat
  | 0, _, p, size => (p, size)
  | i + 1, num, p, size =>
    toIntLoop i (num / 10) (p.set (size - 1) (digits.getD (num % 10) 0)) (size - 1)

/-- `to_int<N, c>(num, p, size)`: the buffer and `size` afterwards. Its caller leaves room for
all it writes (`toInt_eq`), so `size` does not get below 0. -/
def toInt (N : Nat) (c : Char) (num : Nat) (p : Bytes) (size : Nat) : Bytes × Nat :=
  let (p, size) := toIntLoop N num p size
  if N ≠ 4 then (p.set (size - 1) (byte c), size - 1) else (p, size)

/-- The `thread_local` variables of `get_timestamp`. -/
structure Stamps where
  buf : Bytes
  lastSecond : Int

/-- Value-initialised. -/
def Stamps.init : Stamps := ⟨List.replicate 33 0, 0⟩

/-- The calls of `to_int` that write all fields. -/
def writeFields (tm : Tm) (milliseconds : Nat) (buf : Bytes) : Bytes :=
  let (buf, size) := toInt 3 '.' milliseconds buf 23
  let (buf, size) := toInt 2 ':' tm.sec buf size
  let (buf, size) := toInt 2 ':' tm.min buf size
  let (buf, size) := toInt 2 ' ' tm.hour buf size
  let (buf, size) := toInt 2 '-' tm.mday buf size
  let (buf, size) := toInt 2 '-' (tm.mon + 1) buf size
  (toInt 4 ' ' (castSize (tm.year + 1900)) buf size).1

/-- `get_timestamp(now)`: the text behind the pointer it returns. -/
def getTimestamp (clock : Clock) (now : Int) : StateM Stamps Bytes := do
  let s ← get
  let seconds := clock.seconds now
  let milliseconds := castSize (clock.milliseconds now)
  if s.lastSecond = seconds then
    let buf := (toInt 3 '.' milliseconds s.buf 23).1
    set { s with buf }
    return cString buf
  else
    let tm := clock.localtime (clock.toTimeT now)
    let buf := writeFields tm milliseconds s.buf
    set { s with buf, lastSecond := seconds }
    return cString buf

/-! ## What a time stamp is -/

/-- A number with zeros in front, up to `width` digits. -/
def padded (width n : Nat) : List Char := (Nat.toDigits 10 n).leftpad width '0'

/-- `YYYY-MM-DD HH:MM:SS.mmm`. -/
def stamp (tm : Tm) (milliseconds : Nat) : Bytes :=
  (padded 4 (tm.year + 1900).toNat ++ '-' :: padded 2 (tm.mon + 1) ++ '-' :: padded 2 tm.mday
    ++ ' ' :: padded 2 tm.hour ++ ':' :: padded 2 tm.min ++ ':' :: padded 2 tm.sec
    ++ '.' :: padded 3 milliseconds).map byte

/-- A time point formatted on its own. -/
def fromScratch (clock : Clock) (now : Int) : Bytes :=
  stamp (clock.localtime (now / clock.ticks)) (now % clock.ticks * 1000 / clock.ticks).toNat

/-! ## `to_int` writes a column -/

/-- What `to_int` leaves in the buffer. -/
def cells (N : Nat) (c : Char) (num : Nat) : Bytes :=
  (if N ≠ 4 then [byte c] else []) ++ column (digits.getD · 0) 10 N num

theorem length_cells (N : Nat) (c : Char) (num : Nat) :
    (cells N c num).length = if N ≠ 4 then N + 1 else N := by
  rw [cells, List.length_append, length_column]
  split
  · exact Nat.add_comm 1 N
  · exact Nat.zero_add N

/-- The induction is on the digits to go; what was written so far lies right behind. -/
theorem toIntLoop_eq {N num pos : Nat} {p : Bytes} (h : pos + N ≤ p.length) :
    toIntLoop N num p (pos + N) = (blit p pos (column (digits.getD · 0) 10 N num), pos) := by
  induction N generalizing num p with
  | zero =>
    rw [toIntLoop, column, blit_nil]
    rfl
  | succ N ih =>
    have hset : (p.set (pos + N) (digits.getD (num % 10) 0)).length = p.length := List.length_set
    have hlen := length_column (digits.getD · 0) 10 N (num / 10)
    show toIntLoop N (num / 10) (p.set (pos + N) (digits.getD (num % 10) 0)) (pos + N) = _
    rw [ih (by omega), set_eq_blit (by omega), column]
    nth_rewrite 1 [← hlen]
    rw [blit_blit]
    rw [hlen]
    exact h

theorem toInt_eq {N num pos : Nat} {c : Char} {p : Bytes}
    (h : pos + (cells N c num).length ≤ p.length) :
    toInt N c num p (pos + (cells N c num).length) = (blit p pos (cells N c num), pos) := by
  rw [length_cells] at h ⊢
  rw [toInt, cells]
  have hlen := length_column (digits.getD · 0) 10 N num
  by_cases hN : N ≠ 4
  · -- the separator goes right in front of the digits
    rw [if_pos hN] at h
    have hdigits : (blit p (pos + 1) (column (digits.getD · 0) 10 N num)).length = p.length :=
      length_blit (by omega)
    simp only [if_pos hN]
    rw [Nat.add_comm N, ← Nat.add_assoc, toIntLoop_eq (by omega)]
    show ((blit p (pos + 1) _).set pos (byte c), pos) = _
    rw [set_eq_blit (by omega)]
    show (blit (blit p (pos + [byte c].length) _) pos [byte c], pos) = _
    rw [blit_blit]
    rw [hlen, List.length_singleton, Nat.add_assoc, Nat.add_comm 1]
    exact h
  · rw [if_neg hN] at h
    simp only [if_neg hN]
    rw [toIntLoop_eq h]
    rfl

/-- What was written before stands right behind. -/
theorem toInt_blit {N num size : Nat} {c : Char} {p far : Bytes} (pos : Nat)
    (hsize : size = pos + (cells N c num).length) (h : size + far.length ≤ p.length) :
    toInt N c num (blit p size far) size = (blit p pos (cells N c num ++ far), pos) := by
  subst hsize
  rw [toInt_eq, blit_blit h]
  rw [length_blit h]
  omega

/-! ## The two paths -/

/-- The fields of a time stamp up to the second. -/
def upToSecond (tm : Tm) : Bytes :=
  cells 4 ' ' (castSize (tm.year + 1900)) ++ (cells 2 '-' (tm.mon + 1) ++ (cells 2 '-' tm.mday
    ++ (cells 2 ' ' tm.hour ++ (cells 2 ':' tm.min ++ cells 2 ':' tm.sec))))

theorem length_upToSecond (tm : Tm) : (upToSecond tm).length = 19 := by
  simp [upToSecond, length_cells]

/-- No byte of a field is NUL. -/
theorem zero_notMem_cells {N : Nat} {c : Char} (hc : byte c ≠ 0) (num : Nat) :
    0 ∉ cells N c num := by
  have hdigit : ∀ d < 10, digits.getD d 0 ≠ 0 := by decide
  have hcolumn : ∀ x ∈ column (digits.getD · 0) 10 N num, x ≠ 0 :=
    forall_mem_column (· ≠ 0) (by decide) hdigit N num
  intro h
  rw [cells, List.mem_append] at h
  rcases h with h | h
  · split at h
    next => exact hc (List.mem_singleton.mp h).symm
    next => exact absurd h List.not_mem_nil
  · exact hcolumn 0 h rfl

theorem zero_notMem_upToSecond (tm : Tm) : 0 ∉ upToSecond tm := by
  simp only [upToSecond, List.mem_append, not_or]
  refine ⟨?_, ?_, ?_, ?_, ?_, ?_⟩ <;> exact zero_notMem_cells (by decide) _

/-- The text of a time stamp, and the zeros behind it. -/
def filled (tm : Tm) (milliseconds : Nat) : Bytes :=
  upToSecond tm ++ cells 3 '.' milliseconds ++ List.replicate 10 0

theorem cString_filled (tm : Tm) (milliseconds : Nat) :
    cString (filled tm milliseconds) = upToSecond tm ++ cells 3 '.' milliseconds := by
  have hmilli : 0 ∉ cells 3 '.' milliseconds := zero_notMem_cells (by decide) milliseconds
  rw [filled, cString_append_of_notMem, cString_replicate, List.append_nil]
  rw [List.mem_append, not_or]
  exact ⟨zero_notMem_upToSecond tm, hmilli⟩

/-- Rewriting the milliseconds. -/
theorem toInt_filled (tm : Tm) (old new : Nat) :
    toInt 3 '.' new (filled tm old) 23 = (filled tm new, 19) := by
  have hsize : 23 = 19 + (cells 3 '.' new).length := rfl
  have hold : (cells 3 '.' new).length = (cells 3 '.' old).length := by
    rw [length_cells, length_cells]
  have hlen : (filled tm old).length = 33 := by
    simp [filled, length_upToSecond, length_cells]
  rw [hsize, toInt_eq (by omega), filled, List.append_assoc, ← length_upToSecond tm, blit_append,
    hold, List.drop_left, filled]

/-- A call answers with what it leaves in the buffer. -/
theorem run_getTimestamp (clock : Clock) (now : Int) (s : Stamps) :
    ∃ buf, (getTimestamp clock now).run s = (cString buf, ⟨buf, clock.seconds now⟩) ∧
      buf = if s.lastSecond = clock.seconds now
        then (toInt 3 '.' (castSize (clock.milliseconds now)) s.buf 23).1
        else writeFields (clock.localtime (clock.seconds now))
          (castSize (clock.milliseconds now)) s.buf := by
  obtain ⟨buf, lastSecond⟩ := s
  rw [getTimestamp]
  by_cases h : lastSecond = clock.seconds now
  · subst h
    refine ⟨_, ?_, (if_pos rfl).symm⟩
    simp only [StateT.run_bind, StateT.run_get, pure_bind, if_true]
    rfl
  · refine ⟨_, ?_, (if_neg h).symm⟩
    simp only [StateT.run_bind, StateT.run_get, pure_bind, if_neg h]
    rfl

/-- What the full path writes, on any buffer of 23 bytes and more. -/
theorem writeFields_eq (tm : Tm) (milliseconds : Nat) {buf : Bytes} (h : 23 ≤ buf.length) :
    writeFields tm milliseconds buf
      = upToSecond tm ++ cells 3 '.' milliseconds ++ buf.drop 23 := by
  have hfit : ∀ {far : Bytes} (size : Nat), size + far.length = 23 →
      size + far.length ≤ buf.length := fun _ hsize => hsize.trans_le h
  rw [writeFields]
  nth_rewrite 1 [← blit_nil buf 23]
  -- each field ends where the one written before it begins
  rw [toInt_blit 19 (by rfl) (hfit 23 (by rfl))]
  dsimp only
  rw [toInt_blit 16 (by rfl) (hfit 19 (by rfl))]
  dsimp only
  rw [toInt_blit 13 (by rfl) (hfit 16 (by rfl))]
  dsimp only
  rw [toInt_blit 10 (by rfl) (hfit 13 (by rfl))]
  dsimp only
  rw [toInt_blit 7 (by rfl) (hfit 10 (by rfl))]
  dsimp only
  rw [toInt_blit 4 (by rfl) (hfit 7 (by rfl))]
  dsimp only
  rw [toInt_blit 0 (by rfl) (hfit 4 (by rfl))]
  dsimp only
  have htext : (upToSecond tm ++ cells 3 '.' milliseconds).length = 23 := by
    simp [length_upToSecond, length_cells]
  rw [← htext, ← blit_zero, upToSecond]
  simp only [List.append_nil, List.append_assoc]

/-- A call writes its time stamp into a buffer that was filled for another second, or for
the same one. -/
theorem getTimestamp_spec {clock : Clock} {now : Int} {s : Stamps}
    (hbehind : s.buf.drop 23 = List.replicate 10 0)
    (hcached : s.lastSecond = clock.seconds now →
      ∃ old, s.buf = filled (clock.localtime s.lastSecond) old) :
    (getTimestamp clock now).run s
      = (upToSecond (clock.localtime (clock.seconds now))
          ++ cells 3 '.' (castSize (clock.milliseconds now)),
        ⟨filled (clock.localtime (clock.seconds now)) (castSize (clock.milliseconds now)),
          clock.seconds now⟩) := by
  obtain ⟨buf, hrun, hbuf⟩ := run_getTimestamp clock now s
  have hfilled : buf = filled (clock.localtime (clock.seconds now))
      (castSize (clock.milliseconds now)) := by
    rw [hbuf]
    split
    next hsame =>
      obtain ⟨old, hold⟩ := hcached hsame
      rw [hold, hsame, toInt_filled]
    next =>
      have hlen := congrArg List.length hbehind
      rw [List.length_drop, List.length_replicate] at hlen
      rw [writeFields_eq _ _ (by omega), hbehind, filled]
  rw [hrun, hfilled, cString_filled]

/-! ## What is written is the time stamp -/

theorem byte_digitChar : ∀ d < 10, digits.getD d 0 = byte d.digitChar := by
  decide

/-- A field that its number fits into. -/
theorem cells_eq_padded {N num : Nat} (c : Char) (hN : N ≠ 4) (h : num < 10 ^ N) (hpos : 0 < N) :
    cells N c num = (c :: padded N num).map byte := by
  obtain ⟨width, rfl⟩ := Nat.exists_eq_succ_of_ne_zero hpos.ne'
  rw [cells, if_pos hN, column_eq_leftpad (by decide) byte_digitChar h]
  rfl

theorem cells_year {num : Nat} (h : num < 10 ^ 4) :
    cells 4 ' ' num = (padded 4 num).map byte := by
  rw [cells, column_eq_leftpad (by decide) byte_digitChar h]
  rfl

/-- Since the epoch, durations are cut into seconds and milliseconds by division. -/
theorem seconds_eq (clock : Clock) {now : Int} (h : 0 ≤ now) :
    clock.seconds now = now / clock.ticks :=
  Int.tdiv_eq_ediv_of_nonneg h

theorem milliseconds_eq (clock : Clock) {now : Int} (h : 0 ≤ now) :
    clock.milliseconds now = now % clock.ticks * 1000 / clock.ticks := by
  have hticks : (clock.ticks : Int) ≠ 0 := Int.natCast_ne_zero.mpr clock.ticks_pos.ne'
  have hmod : now - now / clock.ticks * clock.ticks = now % clock.ticks := by
    rw [Int.emod_def, Int.mul_comm]
  have hnonneg := Int.emod_nonneg now hticks
  rw [Clock.milliseconds, seconds_eq clock h, hmod, Int.tdiv_eq_ediv_of_nonneg (by omega)]

theorem milliseconds_lt (clock : Clock) {now : Int} (h : 0 ≤ now) :
    0 ≤ clock.milliseconds now ∧ clock.milliseconds now < 1000 := by
  have hticks : (0 : Int) < clock.ticks := Int.natCast_pos.mpr clock.ticks_pos
  have hnonneg := Int.emod_nonneg now (Int.ne_of_gt hticks)
  have hlt := Int.emod_lt_of_pos now hticks
  rw [milliseconds_eq clock h]
  constructor
  · exact Int.ediv_nonneg (by omega) (Int.le_of_lt hticks)
  · exact Int.ediv_lt_of_lt_mul hticks (by omega)

/-- **The fields are the time stamp**, in years of four digits. -/
theorem fields_eq_fromScratch (clock : Clock) {now : Int} (hepoch : 0 ≤ now)
    (hyear : (clock.localtime (clock.seconds now)).year + 1900 ≤ 9999) :
    upToSecond (clock.localtime (clock.seconds now))
        ++ cells 3 '.' (castSize (clock.milliseconds now))
      = fromScratch clock now := by
  obtain ⟨hmilli, hthousand⟩ := milliseconds_lt clock hepoch
  have hsecond : 0 ≤ clock.seconds now := by
    rw [seconds_eq clock hepoch]
    exact Int.ediv_nonneg hepoch (Int.natCast_nonneg _)
  have hge := clock.year_ge _ hsecond
  rw [fromScratch, ← seconds_eq clock hepoch, ← milliseconds_eq clock hepoch]
  generalize clock.localtime (clock.seconds now) = tm at *
  obtain ⟨year, hyear'⟩ := Int.eq_ofNat_of_zero_le (show 0 ≤ tm.year + 1900 by omega)
  obtain ⟨milli, hmilli'⟩ := Int.eq_ofNat_of_zero_le hmilli
  have hfield : ∀ (c : Char) {num : Nat}, num < 10 ^ 2 →
      cells 2 c num = (c :: padded 2 num).map byte :=
    fun c _ h => cells_eq_padded c (by decide) h (by decide)
  have hint : intMax = 2147483647 := rfl
  have hmon := tm.mon_le
  have hmday := tm.mday_le
  have hhour := tm.hour_le
  have hmin := tm.min_le
  have hsec := tm.sec_le
  rw [upToSecond, stamp, hyear', hmilli', castSize_natCast (by omega), castSize_natCast (by omega),
    cells_year (by omega), hfield '-' (by omega), hfield '-' (by omega), hfield ' ' (by omega),
    hfield ':' (by omega), hfield ':' (by omega),
    cells_eq_padded '.' (by decide) (by omega) (by decide)]
  simp only [List.map_append, List.map_cons, List.append_assoc, List.cons_append, Int.toNat_natCast]

theorem length_fromScratch (clock : Clock) {now : Int} (hepoch : 0 ≤ now)
    (hyear : (clock.localtime (clock.seconds now)).year + 1900 ≤ 9999) :
    (fromScratch clock now).length = 23 := by
  rw [← fields_eq_fromScratch clock hepoch hyear, List.length_append, length_upToSecond,
    length_cells]
  rfl

/-! ## The calls of a thread -/

/-- What the calls of one thread return. -/
def timestamps (clock : Clock) (calls : List Int) : List Bytes :=
  ((calls.mapM (getTimestamp clock)).run Stamps.init).1

/-- Each call returns 23 characters, those of its time point formatted on its own. -/
def EachFromScratch (clock : Clock) (calls : List Int) : Prop :=
  timestamps clock calls = calls.map (fromScratch clock) ∧
    ∀ text ∈ timestamps clock calls, text.length = 23

/-- The buffer holds a time stamp of the second remembered. -/
def Stamped (clock : Clock) (s : Stamps) : Prop :=
  ∃ old, s.buf = filled (clock.localtime s.lastSecond) old

theorem Stamped.behind {clock : Clock} {s : Stamps} (h : Stamped clock s) :
    s.buf.drop 23 = List.replicate 10 0 := by
  obtain ⟨old, hold⟩ := h
  have hlen : (upToSecond (clock.localtime s.lastSecond) ++ cells 3 '.' old).length = 23 := by
    simp [length_upToSecond, length_cells]
  rw [hold, filled, ← hlen, List.drop_left]

section Calls

variable {clock : Clock} {now : Int}

/-- A call that finds the buffer ready for it returns its time stamp. -/
theorem getTimestamp_fromScratch {s : Stamps} (hepoch : 0 ≤ now)
    (hyear : (clock.localtime (clock.seconds now)).year + 1900 ≤ 9999)
    (hbehind : s.buf.drop 23 = List.replicate 10 0)
    (hcached : s.lastSecond = clock.seconds now → Stamped clock s) :
    ((getTimestamp clock now).run s).1 = fromScratch clock now ∧
      Stamped clock ((getTimestamp clock now).run s).2 := by
  rw [getTimestamp_spec hbehind hcached]
  exact ⟨fields_eq_fromScratch clock hepoch hyear, _, rfl⟩

/-- In the second remembered at first, the text ends before it begins. -/
theorem getTimestamp_init (h : clock.seconds now = 0) :
    ((getTimestamp clock now).run Stamps.init).1 = [] := by
  obtain ⟨buf, hrun, hbuf⟩ := run_getTimestamp clock now Stamps.init
  have hsize : 23 = 19 + (cells 3 '.' (castSize (clock.milliseconds now))).length := rfl
  have hsame : Stamps.init.lastSecond = clock.seconds now := h.symm
  rw [if_pos hsame, hsize, toInt_eq] at hbuf
  · rw [hrun, hbuf]
    rfl
  · rw [← hsize]
    decide

/-- The first call, and those behind it. -/
theorem timestamps_cons (clock : Clock) (now : Int) (rest : List Int) :
    timestamps clock (now :: rest)
      = ((getTimestamp clock now).run Stamps.init).1 ::
        ((rest.mapM (getTimestamp clock)).run ((getTimestamp clock now).run Stamps.init).2).1 := by
  rw [timestamps, List.mapM_cons]
  rfl

theorem seconds_eq_zero_iff (hepoch : 0 ≤ now) : clock.seconds now = 0 ↔ now < clock.ticks := by
  have hticks : (0 : Int) < clock.ticks := Int.natCast_pos.mpr clock.ticks_pos
  rw [seconds_eq clock hepoch]
  constructor
  · intro h
    have hmod := Int.emod_lt_of_pos now hticks
    have hdiv := Int.mul_ediv_add_emod now clock.ticks
    rw [h, Int.mul_zero, Int.zero_add] at hdiv
    omega
  · exact fun h => Int.ediv_eq_zero_of_lt hepoch h

/-- A thread whose first call fills the buffer. The induction over the calls behind it
carries `Stamped`. -/
theorem timestamps_of_filled {rest : List Int} (hepoch : ∀ now' ∈ now :: rest, 0 ≤ now')
    (hyear : ∀ now' ∈ now :: rest, (clock.localtime (clock.seconds now')).year + 1900 ≤ 9999)
    (hfirst : (0 : Int) ≠ clock.seconds now) :
    timestamps clock (now :: rest) = (now :: rest).map (fromScratch clock) := by
  obtain ⟨htext, hstamped⟩ := getTimestamp_fromScratch (s := Stamps.init)
    (hepoch now (.head _)) (hyear now (.head _)) rfl fun h => absurd h hfirst
  obtain ⟨htexts, -⟩ := mapM_of_invariant (Stamped clock) (fun now' hmem s hs =>
    getTimestamp_fromScratch (hepoch now' (.tail _ hmem)) (hyear now' (.tail _ hmem))
      hs.behind fun _ => hs) hstamped
  rw [timestamps_cons, htext, htexts, List.map_cons]

end Calls

/-- **Every call of a thread is right if and only if its first one is not in the first
second of the epoch.** -/
theorem timestamps_eq_map_iff (clock : Clock) (calls : List Int) (hepoch : ∀ now ∈ calls, 0 ≤ now)
    (hyear : ∀ now ∈ calls, (clock.localtime (clock.seconds now)).year + 1900 ≤ 9999) :
    EachFromScratch clock calls ↔ ∀ now ∈ calls.head?, (clock.ticks : Int) ≤ now := by
  cases calls with
  | nil => exact ⟨fun _ => nofun, fun _ => ⟨rfl, nofun⟩⟩
  | cons now rest =>
    have hzero : clock.seconds now = 0 ↔ now < clock.ticks :=
      seconds_eq_zero_iff (hepoch now (.head _))
    constructor
    · rintro ⟨-, hlength⟩ _ ⟨rfl⟩
      by_contra hlt
      rw [timestamps_cons, getTimestamp_init (hzero.mpr (by omega))] at hlength
      exact absurd (hlength [] (.head _)) nofun
    · intro hlater
      have hfirst : (0 : Int) ≠ clock.seconds now :=
        fun h => absurd (hzero.mp h.symm) (Int.not_lt.mpr (hlater now rfl))
      have hall := timestamps_of_filled hepoch hyear hfirst
      refine ⟨hall, fun text hmem => ?_⟩
      rw [hall] at hmem
      obtain ⟨now', hnow', rfl⟩ := List.mem_map.mp hmem
      exact length_fromScratch clock (hepoch now' hnow') (hyear now' hnow')

/-- Nanoseconds, and UTC as far as the January of 1970 goes. -/
def january1970 : Clock where
  ticks := 1000000000
  ticks_pos := by decide
  localtime second :=
    { sec := (second % 60).toNat, min := (second / 60 % 60).toNat,
      hour := (second / 3600 % 24).toNat, mday := (second / 86400 % 31).toNat + 1, mon := 0,
      year := 70, sec_le := by omega, min_le := by omega, hour_le := by omega,
      mday_ge := by omega, mday_le := by omega, mon_le := by omega }
  year_ge _ _ := by
    show (69 : Int) ≤ 70
    decide

/-- Twice in the first second of the second day, then later on that day, then back at the
epoch. -/
theorem timestamps_january1970 : EachFromScratch january1970
    [86400007000000, 86400999000000, 97445000000000, 5] := by
  refine (timestamps_eq_map_iff january1970 _ (by decide) (by decide)).mpr ?_
  rintro _ ⟨rfl⟩
  decide

/-- At the epoch, the first text is empty. -/
theorem timestamps_not_forall : ¬ ∀ (clock : Clock) (calls : List Int),
    (∀ now ∈ calls, 0 ≤ now) →
    (∀ now ∈ calls, (clock.localtime (clock.seconds now)).year + 1900 ≤ 9999) →
    EachFromScratch clock calls := by
  intro h
  obtain ⟨-, hlength⟩ := h january1970 [0] (by decide) (by decide)
  rw [timestamps_cons, getTimestamp_init (by decide)] at hlength
  exact absurd (hlength [] (.head _)) (by decide)

end Uvio.Log
