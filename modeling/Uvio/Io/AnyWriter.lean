import Uvio.Io.Sessions

/-!
# A writer in any state

The calls of the buffered writer whatever its buffer holds, and however large the
buffer and the argument are.

- `write_accepts`: a write whose argument fits where it should is accepted or fails,
  whichever underlying write fails.
- `counts_iff`: when the count a write returns is the size of its argument. A write
  that drains the buffer first counts what it drained, too.
- `flushed_iff`: when a `flush` over a writer that may take only part of a slice hands
  over the whole buffer. It goes on after a partial write as after a full one.
-/

namespace Uvio.Io

open Program

namespace Outlet

variable {s : Outlet} {buf : Bytes}

theorem run_write_all (hplan : s.plan s.calls = .all) (hbuf : buf ≠ []) :
    (write buf).run s = .ok (.ok buf.length, ⟨s.taken ++ buf, s.calls + 1, s.plan⟩) := by
  simp only [write, StateT.run, hplan]
  rw [if_neg (by simpa using hbuf)]

/-- A write of nothing is reported as one that took nothing. -/
theorem run_write_nil (hplan : s.plan s.calls = .all) :
    (write []).run s = .ok (.error .writeZero, ⟨s.taken, s.calls + 1, s.plan⟩) := by
  simp only [write, StateT.run, hplan]
  rfl

theorem run_write_upTo {n : Nat} (hplan : s.plan s.calls = .upTo n) :
    (write buf).run s
      = .ok (.ok (min n buf.length), ⟨s.taken ++ buf.take n, s.calls + 1, s.plan⟩) := by
  simp only [write, StateT.run, hplan]

theorem run_write_fail {e : Error} (hplan : s.plan s.calls = .fail e) :
    (write buf).run s = .ok (.error e, ⟨s.taken, s.calls + 1, s.plan⟩) := by
  simp only [write, StateT.run, hplan]

end Outlet

namespace BufWriter

variable {w : BufWriter} {pre mid post buf : Bytes}

theorem out_of_cut (h : w.wStream.Cut pre mid post) : w.out = w.io.taken ++ mid := by
  unfold out
  rw [h.rSlice]

/-! ## The three routes of a write -/

/-- The result of a write that ends with an underlying write, and reports `n` bytes. -/
def reporting (n : Nat) : Result Nat → Result Nat
  | .error e => .error e
  | .ok _ => .ok n

theorem run_write_buffered (hfit : castInt buf.length ≤ w.wStream.wRemaining) :
    (write buf).run w
      = .ok (.ok (w.wStream.readFrom buf).1, ⟨w.io, (w.wStream.readFrom buf).2⟩) := by
  unfold write
  rw [Prog.run_bind_of_ok (Prog.run_get w), if_pos hfit]
  rfl

theorem run_write_direct (hfit : w.wStream.wRemaining < castInt buf.length)
    (hrem : w.wStream.rRemaining ≤ 0) :
    (write buf).run w
      = ((Outlet.write buf).run w.io).map fun p =>
          (reporting buf.length p.1, ⟨p.2, w.wStream⟩) := by
  unfold write
  rw [Prog.run_bind_of_ok (Prog.run_get w), if_neg (Int.not_le.mpr hfit),
    if_neg (Int.not_lt.mpr hrem)]
  cases hio : (Outlet.write buf).run w.io with
  | error e => exact Prog.run_bind_of_error (Prog.run_zoom_of_error hio)
  | ok p =>
    obtain ⟨e | n, io'⟩ := p
    · exact (Prog.run_bind_of_ok (Prog.run_zoom_of_ok hio)).trans rfl
    · exact (Prog.run_bind_of_ok (Prog.run_zoom_of_ok hio)).trans rfl

/-- A drain that fails leaves the buffer as it was. -/
theorem run_write_undrained {e : Error} {io : Outlet}
    (hfit : w.wStream.wRemaining < castInt buf.length) (hrem : 0 < w.wStream.rRemaining)
    (hdrain : (Outlet.write w.wStream.rSlice).run w.io = .ok (.error e, io)) :
    (write buf).run w = .ok (.error e, ⟨io, w.wStream⟩) := by
  unfold write
  rw [Prog.run_bind_of_ok (Prog.run_get w), if_neg (Int.not_le.mpr hfit), if_pos hrem]
  exact (Prog.run_bind_of_ok (Prog.run_zoom_of_ok hdrain)).trans rfl

theorem run_write_drained {n : Nat} {io : Outlet}
    (hfit : w.wStream.wRemaining < castInt buf.length) (hrem : 0 < w.wStream.rRemaining)
    (hdrain : (Outlet.write w.wStream.rSlice).run w.io = .ok (.ok n, io)) :
    (write buf).run w
      = ((Outlet.write buf).run io).map fun p =>
          (reporting (castSize w.wStream.rRemaining + buf.length) p.1,
            ⟨p.2, (w.wStream.rIncrease (castSize w.wStream.rRemaining)).resetData⟩) := by
  unfold write
  rw [Prog.run_bind_of_ok (Prog.run_get w), if_neg (Int.not_le.mpr hfit), if_pos hrem]
  refine (Prog.run_bind_of_ok (Prog.run_zoom_of_ok hdrain)).trans ?_
  refine (Prog.run_bind_of_ok (show (onStream _).run _ = .ok _ from rfl)).trans ?_
  cases hio : (Outlet.write buf).run io with
  | error e => exact Prog.run_bind_of_error (Prog.run_zoom_of_error hio)
  | ok p =>
    obtain ⟨e | n, io'⟩ := p
    · exact (Prog.run_bind_of_ok (Prog.run_zoom_of_ok hio)).trans rfl
    · exact (Prog.run_bind_of_ok (Prog.run_zoom_of_ok hio)).trans rfl

/-- What a write with result `ret` does to a valid writer. -/
structure Accepts (buf : Bytes) (w : BufWriter) (ret : Result Nat) (w' : BufWriter) : Prop where
  valid : w'.wStream.Valid
  capacity : w'.wStream.capacity = w.wStream.capacity
  plan : w'.io.plan = w.io.plan
  appends : Appends buf ret w w'

/-- A write past an empty buffer that reports `n` bytes: it succeeds unless there is
nothing to write or the underlying write fails. -/
theorem direct_any (h : w.wStream.Cut pre [] post) (hio : w.io.AllOrNothing) (buf : Bytes)
    (n : Nat) :
    ∃ ret w', (((Outlet.write buf).run w.io).map fun p =>
        (reporting n p.1, (⟨p.2, w.wStream⟩ : BufWriter))) = .ok (ret, w') ∧
      Accepts buf w ret w' ∧
      (ret = .ok n ∧ buf ≠ [] ∧ w.io.plan w.io.calls = .all ∨
        (∃ e, ret = .error e) ∧ (buf = [] ∨ ∃ e, w.io.plan w.io.calls = .fail e)) := by
  rcases hio w.io.calls with hplan | ⟨e, hplan⟩
  · by_cases hbuf : buf = []
    · subst hbuf
      rw [Outlet.run_write_nil hplan]
      exact ⟨_, _, rfl, ⟨h.valid, rfl, rfl, rfl⟩, Or.inr ⟨⟨_, rfl⟩, Or.inl rfl⟩⟩
    · rw [Outlet.run_write_all hplan hbuf]
      refine ⟨_, _, rfl, ⟨h.valid, rfl, rfl, ?_⟩, Or.inl ⟨rfl, hbuf, hplan⟩⟩
      show w.io.taken ++ buf ++ w.wStream.rSlice = w.io.taken ++ w.wStream.rSlice ++ buf
      rw [h.rSlice, List.append_nil, List.append_nil]
  · rw [Outlet.run_write_fail hplan]
    exact ⟨_, _, rfl, ⟨h.valid, rfl, rfl, rfl⟩, Or.inr ⟨⟨e, rfl⟩, Or.inr ⟨e, hplan⟩⟩⟩

/-! ## The count of a write -/

/-- A write that succeeds counts its argument, all of which was accepted. -/
def Counts (buf : Bytes) (w : BufWriter) : Prop :=
  ∀ k w', (write buf).run w = .ok (.ok k, w') → k = buf.length ∧ w'.out = w.out ++ buf

/-- The argument fits if it seems to. -/
def FitsIfShort (buf : Bytes) (w : BufWriter) : Prop :=
  castInt buf.length ≤ w.wStream.wRemaining → (buf.length : Int) ≤ w.wStream.wRemaining

/-- No drain is needed, or one of the two underlying writes behind it does not succeed. -/
def NothingDrained (buf : Bytes) (w : BufWriter) : Prop :=
  w.wStream.wRemaining < castInt buf.length → w.wStream.rSlice = [] ∨ buf = [] ∨
    ∃ e, w.io.plan w.io.calls = .fail e ∨ w.io.plan (w.io.calls + 1) = .fail e

theorem counts_of_run {ret : Result Nat} {w' : BufWriter}
    (hrun : (write buf).run w = .ok (ret, w')) :
    Counts buf w ↔ ∀ k, ret = .ok k → k = buf.length ∧ w'.out = w.out ++ buf := by
  unfold Counts
  rw [hrun]
  constructor
  · rintro h k rfl
    exact h k w' rfl
  · rintro h k w'' heq
    cases heq
    exact h k rfl

/-- The buffer route: a write that finds room for its argument stores it. -/
theorem buffered_any (h : w.wStream.Cut pre mid post)
    (hfit : (buf.length : Int) ≤ w.wStream.wRemaining) :
    ∃ w', (write buf).run w = .ok (.ok buf.length, w') ∧ Accepts buf w (.ok buf.length) w' := by
  have hrun := run_write_buffered (Int.le_trans (castInt_le _) hfit)
  have hroom := StreamBuffer.le_wSliceSize hfit
  have hfill := h.fill hroom
  have hpost := hroom.trans h.wSliceSize_le
  rw [h.readFrom hfit] at hrun
  refine ⟨_, hrun, ⟨hfill.valid, ?_, rfl, ?_⟩⟩
  · show ((w.wStream.store buf).wIncrease buf.length).buf.length = w.wStream.buf.length
    rw [hfill.length, h.length, List.length_append, List.length_drop]
    omega
  · show w.io.taken ++ ((w.wStream.store buf).wIncrease buf.length).rSlice
      = w.io.taken ++ w.wStream.rSlice ++ buf
    rw [hfill.rSlice, h.rSlice, List.append_assoc]

/-- One that finds room as an `int` only does not store all of it. -/
theorem fits_of_counts (h : w.wStream.Cut pre mid post)
    (hfit : castInt buf.length ≤ w.wStream.wRemaining) (hcounts : Counts buf w) :
    (buf.length : Int) ≤ w.wStream.wRemaining := by
  obtain ⟨hlen, hout⟩ := (counts_of_run (run_write_buffered hfit)).mp hcounts _ rfl
  -- `w_pos_` was advanced by the size as an `int`, and `out` grew by the size
  have hgrown : (w.wStream.readFrom buf).2.rSlice.length = mid.length + buf.length := by
    change w.io.taken ++ (w.wStream.readFrom buf).2.rSlice = w.io.taken ++ w.wStream.rSlice ++ buf
      at hout
    rw [List.append_assoc] at hout
    rw [List.append_cancel_left hout, h.rSlice, List.length_append]
  have hpos : (w.wStream.readFrom buf).2.rRemaining = mid.length + castInt buf.length := by
    show w.wStream.wPos + castInt (w.wStream.readFrom buf).1 - w.wStream.rPos = _
    rw [hlen, h.wPos, h.rPos]
    omega
  have hle : (w.wStream.readFrom buf).2.rSlice.length ≤ (mid.length + castInt buf.length).toNat :=
    hpos ▸ List.length_take_le _ _
  have hzero : buf.length = 0 → castInt buf.length = 0 := fun h₀ => by
    rw [h₀]
    rfl
  omega

/-- The other routes: nothing but a drain spoils the count. -/
theorem unbuffered_any (h : w.wStream.Cut pre mid post) (hio : w.io.AllOrNothing)
    (hfit : w.wStream.wRemaining < castInt buf.length) :
    ∃ ret w', (write buf).run w = .ok (ret, w') ∧ Accepts buf w ret w' ∧
      (ret = .ok (mid.length + buf.length) ∧ buf ≠ [] ∧ w.io.plan w.io.calls = .all ∧
          (mid ≠ [] → w.io.plan (w.io.calls + 1) = .all) ∨
        (∃ e, ret = .error e) ∧ (buf = [] ∨ (∃ e, w.io.plan w.io.calls = .fail e) ∨
          mid ≠ [] ∧ ∃ e, w.io.plan (w.io.calls + 1) = .fail e)) := by
  by_cases hmid : mid = []
  · subst hmid
    have hrem : w.wStream.rRemaining ≤ 0 := by simp [h.rRemaining]
    obtain ⟨ret, w', hmap, hacc, hret⟩ := direct_any h hio buf buf.length
    refine ⟨ret, w', (run_write_direct hfit hrem).trans hmap, hacc, ?_⟩
    rcases hret with ⟨rfl, hbuf, hplan⟩ | ⟨herr, hwhy⟩
    · exact Or.inl ⟨by simp, hbuf, hplan, fun hne => absurd rfl hne⟩
    · exact Or.inr ⟨herr, hwhy.imp_right Or.inl⟩
  · have hrem : 0 < w.wStream.rRemaining := by
      rw [h.rRemaining]
      exact Int.natCast_pos.mpr (List.length_pos_iff.mpr hmid)
    have hslice : w.wStream.rSlice ≠ [] := h.rSlice ▸ hmid
    rcases hio w.io.calls with hplan | ⟨e, hplan⟩
    · have hrun := run_write_drained hfit hrem (Outlet.run_write_all hplan hslice)
      have hempty := (h.rIncrease (Nat.le_refl _)).resetData
      rw [List.drop_length] at hempty
      rw [h.castSize_rRemaining] at hrun
      obtain ⟨ret, w', hmap, ⟨hv, hc, hp, happ⟩, hret⟩ := direct_any
        (w := ⟨⟨w.io.taken ++ w.wStream.rSlice, w.io.calls + 1, w.io.plan⟩,
          (w.wStream.rIncrease mid.length).resetData⟩) hempty hio buf (mid.length + buf.length)
      -- what was drained has only moved
      have hout : out ⟨⟨w.io.taken ++ w.wStream.rSlice, w.io.calls + 1, w.io.plan⟩,
          (w.wStream.rIncrease mid.length).resetData⟩ = w.out := by
        show w.io.taken ++ w.wStream.rSlice ++ _ = w.io.taken ++ w.wStream.rSlice
        rw [hempty.rSlice, List.append_nil]
      refine ⟨ret, w', hrun.trans hmap, ⟨hv, hc.trans ?_, hp, ?_⟩, ?_⟩
      · show (w.wStream.rIncrease mid.length).resetData.buf.length = w.wStream.buf.length
        rw [hempty.length, h.length]
        simp
        omega
      · unfold Appends at happ ⊢
        rwa [hout] at happ
      · rcases hret with ⟨rfl, hbuf, hplan'⟩ | ⟨herr, hbuf | hplan'⟩
        · exact Or.inl ⟨rfl, hbuf, hplan, fun _ => hplan'⟩
        · exact Or.inr ⟨herr, Or.inl hbuf⟩
        · exact Or.inr ⟨herr, Or.inr (Or.inr ⟨hmid, hplan'⟩)⟩
    · exact ⟨_, _, run_write_undrained hfit hrem (Outlet.run_write_fail hplan),
        ⟨h.valid, rfl, rfl, rfl⟩, Or.inr ⟨⟨e, rfl⟩, Or.inr (Or.inl ⟨e, hplan⟩)⟩⟩

/-- **When a write counts its argument.** -/
theorem counts_iff_of_valid (h : w.wStream.Valid) (hio : w.io.AllOrNothing) (buf : Bytes) :
    Counts buf w ↔ FitsIfShort buf w ∧ NothingDrained buf w := by
  obtain ⟨pre, mid, post, hcut⟩ := h.cut
  unfold FitsIfShort NothingDrained
  rw [hcut.rSlice]
  by_cases hfit : castInt buf.length ≤ w.wStream.wRemaining
  · constructor
    · intro hcounts
      exact ⟨fun _ => fits_of_counts hcut hfit hcounts, fun hlt => absurd hfit (Int.not_le.mpr hlt)⟩
    · rintro ⟨hfits, -⟩
      obtain ⟨w', hrun, hacc⟩ := buffered_any hcut (hfits hfit)
      refine (counts_of_run hrun).mpr fun k hk => ?_
      cases hk
      exact ⟨rfl, hacc.appends⟩
  · have hlt := Int.not_le.mp hfit
    obtain ⟨ret, w', hrun, ⟨-, -, -, happ⟩, hret⟩ := unbuffered_any hcut hio hlt
    rw [counts_of_run hrun]
    rcases hret with ⟨rfl, hbuf, hplan, hplan'⟩ | ⟨⟨e, rfl⟩, hwhy⟩
    · constructor
      · intro hk
        have hlen := (hk _ rfl).1
        have hmid : mid = [] := List.length_eq_zero_iff.mp (by omega)
        exact ⟨fun hle => absurd hle hfit, fun _ => Or.inl hmid⟩
      · rintro ⟨-, hnone⟩ k hk
        cases hk
        rcases hnone hlt with rfl | hnil | ⟨e, hfail | hfail⟩
        · exact ⟨by simp, happ⟩
        · exact absurd hnil hbuf
        · rw [hplan] at hfail
          cases hfail
        · by_cases hmid : mid = []
          · subst hmid
            exact ⟨by simp, happ⟩
          · rw [hplan' hmid] at hfail
            cases hfail
    · constructor
      · refine fun _ => ⟨fun hle => absurd hle hfit, fun _ => Or.inr ?_⟩
        rcases hwhy with hbuf | ⟨e, hfail⟩ | ⟨-, e, hfail⟩
        · exact Or.inl hbuf
        · exact Or.inr ⟨e, Or.inl hfail⟩
        · exact Or.inr ⟨e, Or.inr hfail⟩
      · rintro - k hk
        cases hk

/-- A write whose argument fits where it should is accepted or fails. -/
theorem write_accepts (h : w.wStream.Valid) (hio : w.io.AllOrNothing)
    (hfits : FitsIfShort buf w) :
    ∃ ret w', (write buf).run w = .ok (ret, w') ∧ Accepts buf w ret w' := by
  obtain ⟨pre, mid, post, hcut⟩ := h.cut
  by_cases hfit : castInt buf.length ≤ w.wStream.wRemaining
  · obtain ⟨w', hrun, hacc⟩ := buffered_any hcut (hfits hfit)
    exact ⟨_, w', hrun, hacc⟩
  · obtain ⟨ret, w', hrun, hacc, -⟩ := unbuffered_any hcut hio (Int.not_le.mp hfit)
    exact ⟨ret, w', hrun, hacc⟩

/-! ### Runs of writes -/

/-- A sequence of writes: what each of them returned. -/
def writeEach : List Bytes → Task BufWriter (List (Result Nat))
  | [] => pure []
  | buf :: bufs => do
    let ret ← write buf
    let rest ← writeEach bufs
    pure (ret :: rest)

/-- `P` holds whenever one of the writes begins. -/
def EachWrite (P : Bytes → BufWriter → Prop) : List Bytes → BufWriter → Prop
  | [], _ => True
  | buf :: bufs, w => P buf w ∧ ∀ ret w', (write buf).run w = .ok (ret, w') → EachWrite P bufs w'

theorem eachWrite_cons (P : Bytes → BufWriter → Prop) (bufs : List Bytes) {ret : Result Nat}
    {w' : BufWriter} (hrun : (write buf).run w = .ok (ret, w')) :
    EachWrite P (buf :: bufs) w ↔ P buf w ∧ EachWrite P bufs w' := by
  show P buf w ∧ (∀ ret w', (write buf).run w = .ok (ret, w') → EachWrite P bufs w') ↔ _
  rw [hrun]
  refine and_congr_right fun _ => ⟨fun h => h _ _ rfl, ?_⟩
  rintro h _ _ heq
  cases heq
  exact h

/-- The count a write returns: none if it failed. -/
def returned : Result Nat → Nat
  | .error _ => 0
  | .ok k => k

/-- The arguments of the writes that succeeded, in order. -/
def accepted : List Bytes → List (Result Nat) → Bytes
  | buf :: bufs, .ok _ :: rets => buf ++ accepted bufs rets
  | _ :: bufs, .error _ :: rets => accepted bufs rets
  | _, _ => []

/-- The counts add up to what was accepted. -/
def AddsUp (bufs : List Bytes) (w : BufWriter) (rets : List (Result Nat)) (w' : BufWriter) :
    Prop :=
  w'.out = w.out ++ accepted bufs rets ∧ (rets.map returned).sum = (accepted bufs rets).length

theorem writeEach_addsUp (h : w.wStream.Valid) (hio : w.io.AllOrNothing) {bufs : List Bytes}
    (hfits : EachWrite (fun buf w => FitsIfShort buf w ∧ NothingDrained buf w) bufs w) :
    Meets (writeEach bufs) w (AddsUp bufs w) fun _ => False := by
  induction bufs generalizing w with
  | nil => exact ⟨(List.append_nil _).symm, rfl⟩
  | cons buf bufs ih =>
    obtain ⟨hcond, hnext⟩ := hfits
    obtain ⟨ret, w₁, hrun, hv₁, -, hp₁, happ⟩ := write_accepts h hio hcond.1
    have hcounts := (counts_of_run hrun).mp ((counts_iff_of_valid h hio buf).mpr hcond)
    unfold writeEach
    rw [meets_bind, meets_of_ok hrun]
    refine (ih hv₁ (hio.of_plan hp₁) (hnext ret w₁ hrun)).bind (fun _ he => he) ?_
    rintro rets w₂ ⟨hout, hsum⟩
    cases ret with
    | error e =>
      refine ⟨hout.trans (congrArg (· ++ _) happ), ?_⟩
      rw [List.map_cons, List.sum_cons, hsum]
      exact Nat.zero_add _
    | ok k =>
      obtain ⟨rfl, -⟩ := hcounts k rfl
      refine ⟨?_, ?_⟩
      · rw [hout, (happ : w₁.out = _), List.append_assoc]
        rfl
      · rw [List.map_cons, List.sum_cons, hsum]
        exact List.length_append.symm

/-- **A write counts its argument** in the states and for the arguments that meet the
condition, and in no others; in every run of writes that meet it the counts add up to
the bytes accepted. -/
theorem counts_iff (h : w.wStream.Valid) (hio : w.io.AllOrNothing) :
    (∀ buf, Counts buf w ↔ FitsIfShort buf w ∧ NothingDrained buf w) ∧
      ∀ bufs, EachWrite (fun buf w => FitsIfShort buf w ∧ NothingDrained buf w) bufs w →
        Meets (writeEach bufs) w (AddsUp bufs w) fun _ => False :=
  ⟨counts_iff_of_valid h hio, fun _ => writeEach_addsUp h hio⟩

/-- One byte in a buffer of two, as a `write` of it leaves them. -/
def oneOfTwo : BufWriter := ⟨Outlet.steady, ⟨[1, 0], 0, 1, true⟩⟩

theorem valid_oneOfTwo : oneOfTwo.wStream.Valid := ⟨⟨by decide, by decide, by decide⟩, by decide⟩

/-- A byte that fits. -/
theorem counts_iff_two :
    (∀ buf, Counts buf oneOfTwo ↔ FitsIfShort buf oneOfTwo ∧ NothingDrained buf oneOfTwo) ∧
      ∀ bufs, EachWrite (fun buf w => FitsIfShort buf w ∧ NothingDrained buf w) bufs oneOfTwo →
        Meets (writeEach bufs) oneOfTwo (AddsUp bufs oneOfTwo) fun _ => False :=
  counts_iff valid_oneOfTwo fun _ => Or.inl rfl

/-- Two bytes that do not fit are counted as three. -/
theorem not_counts :
    ¬ ∀ (w : BufWriter) (buf : Bytes), w.wStream.Valid → w.io.AllOrNothing → Counts buf w := by
  intro h
  have hcount := (h oneOfTwo [2, 3] valid_oneOfTwo (fun _ => Or.inl rfl) 3 _ rfl).1
  revert hcount
  decide

/-! ## What a flush hands over -/

/-- A `flush` that succeeds has handed over the buffer, one that fails has lost nothing
of it. -/
def Flushed (w : BufWriter) : Prop :=
  Meets flush w
    (fun ret w' =>
      match ret with
      | .ok () => w'.io.taken = w.io.taken ++ w.wStream.rSlice
      | .error _ => w'.out = w.out)
    fun _ => False

/-- The write takes all of `n` bytes or fails. -/
def Whole (n : Nat) : WriteEvent → Prop
  | .all => True
  | .upTo m => n ≤ m
  | .fail _ => True

theorem run_flush_nil (hnil : w.wStream.rSlice = []) :
    flush.run w = .ok (.ok (), ⟨w.io, w.wStream.resetPos⟩) := by
  have hpass : (flushPass ()).run w = .ok (.leave (.ok ()), w) := by
    unfold flushPass
    rw [Prog.run_bind_of_ok (Prog.run_get w), hnil]
    rfl
  unfold flush
  exact (Prog.run_bind_of_ok (run_loop_leave hpass)).trans rfl

theorem run_flush_failed {e : Error} {io : Outlet} (hne : w.wStream.rSlice ≠ [])
    (hwrite : (Outlet.write w.wStream.rSlice).run w.io = .ok (.error e, io)) :
    flush.run w = .ok (.error e, ⟨io, w.wStream⟩) := by
  have hpass : (flushPass ()).run w = .ok (.leave (.error e), ⟨io, w.wStream⟩) := by
    unfold flushPass
    rw [Prog.run_bind_of_ok (Prog.run_get w), if_neg (by simpa using hne)]
    exact (Prog.run_bind_of_ok (Prog.run_zoom_of_ok hwrite)).trans rfl
  unfold flush
  exact (Prog.run_bind_of_ok (run_loop_leave hpass)).trans rfl

/-- Whatever was taken, the slice is dropped, and the next pass has nothing to write. -/
theorem run_flush_took (h : w.wStream.Cut pre mid post) {n : Nat} {io : Outlet}
    (hne : w.wStream.rSlice ≠ [])
    (hwrite : (Outlet.write w.wStream.rSlice).run w.io = .ok (.ok n, io)) :
    flush.run w = .ok (.ok (), ⟨io, (w.wStream.rIncrease mid.length).resetPos⟩) := by
  have hcut := h.rIncrease (Nat.le_refl _)
  rw [List.drop_length] at hcut
  have hpass : (flushPass ()).run w
      = .ok (.again (), ⟨io, w.wStream.rIncrease mid.length⟩) := by
    unfold flushPass
    rw [Prog.run_bind_of_ok (Prog.run_get w), if_neg (by simpa using hne)]
    refine (Prog.run_bind_of_ok (Prog.run_zoom_of_ok hwrite)).trans ?_
    rw [← h.castSize_rRemaining]
    rfl
  have hlast : (flushPass ()).run ⟨io, w.wStream.rIncrease mid.length⟩
      = .ok (.leave (.ok ()), ⟨io, w.wStream.rIncrease mid.length⟩) := by
    unfold flushPass
    rw [Prog.run_bind_of_ok (Prog.run_get _), hcut.rSlice]
    rfl
  unfold flush
  exact (Prog.run_bind_of_ok ((run_loop_again hpass).trans (run_loop_leave hlast))).trans rfl

/-- **When a `flush` hands over the whole buffer**: if there is nothing in it, or the one
underlying write takes all of it or fails. -/
theorem flushed_iff (h : w.wStream.Valid) :
    Flushed w ↔
      w.wStream.rSlice = [] ∨ Whole w.wStream.rSlice.length (w.io.plan w.io.calls) := by
  obtain ⟨pre, mid, post, hcut⟩ := h.cut
  unfold Flushed
  by_cases hnil : w.wStream.rSlice = []
  · rw [meets_of_ok (run_flush_nil hnil), hnil]
    simp
  · cases hplan : w.io.plan w.io.calls with
    | all =>
      rw [meets_of_ok (run_flush_took hcut hnil (Outlet.run_write_all hplan hnil))]
      simp [Whole]
    | upTo n =>
      rw [meets_of_ok (run_flush_took hcut hnil (Outlet.run_write_upTo hplan))]
      simp [Whole, hnil, List.take_eq_self_iff]
    | fail e =>
      rw [meets_of_ok (run_flush_failed hnil (Outlet.run_write_fail hplan))]
      simp [Whole, out]

/-- Two bytes in a buffer of two, over a writer that takes one byte at a time. -/
def twoToDrip : BufWriter := ⟨⟨[], 0, fun _ => .upTo 1⟩, ⟨[1, 2], 0, 2, true⟩⟩

theorem valid_twoToDrip : twoToDrip.wStream.Valid :=
  ⟨⟨by decide, by decide, by decide⟩, by decide⟩

theorem flushed_iff_drip : Flushed twoToDrip ↔
    twoToDrip.wStream.rSlice = [] ∨
      Whole twoToDrip.wStream.rSlice.length (twoToDrip.io.plan twoToDrip.io.calls) :=
  flushed_iff valid_twoToDrip

/-- The second byte is dropped and success is reported. -/
theorem not_flushed :
    ¬ ∀ w : BufWriter, w.wStream.Valid → (∀ i n, w.io.plan i = .upTo n → 0 < n) →
      Flushed w := by
  intro h
  have htaken : ([1] : Bytes) = [] ++ [1, 2] := h twoToDrip valid_twoToDrip (by
    intro i n hplan
    cases hplan
    decide)
  revert htaken
  decide

end BufWriter

end Uvio.Io
