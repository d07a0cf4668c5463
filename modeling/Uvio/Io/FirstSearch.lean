import Uvio.Io.Outcomes

/-!
# The first search of a reader

`read_until` of a reader from which nothing was read yet, over any schedule of chunks and
errors. Nothing is left behind in the vector yet, so it is decided by the bytes that come
before a read fails, as far as the `int` positions reach, up to their first NUL.

- `firstSearch_loop`: what the loop returns, whatever was received so far.
- `firstSearch_iff`: the line that `read_until` returns.
-/

namespace Uvio.Io

open Program

/-- The bytes that come before a read fails. -/
def Inlet.beforeFail : List ReadEvent → Bytes
  | .data bs :: rest => bs ++ beforeFail rest
  | _ => []

namespace BufReader

open StreamBuffer

/-- What was received lies in front of zeros, and `w_pos_` reaches to `top` at most. -/
structure Front (top : Nat) (mid : Bytes) (r : BufReader) : Prop where
  cut : ∃ k, r.rStream.Cut [] mid (List.replicate k 0)
  reach : clamped r.rStream.capacity = top
  le : mid.length ≤ top

section Front

variable {top : Nat} {mid bs flag line : Bytes} {r : BufReader}

theorem front_new (io : Inlet) (size : Nat) : Front (clamped size) [] (new io size) where
  cut := ⟨size, StreamBuffer.cut_new size⟩
  reach := congrArg clamped List.length_replicate
  le := Nat.zero_le _

theorem Front.findFlag (h : Front top mid r) (hflag : flag ≠ []) :
    r.rStream.findFlagAndReturnSlice flag = through flag (cString mid) := by
  obtain ⟨k, hcut⟩ := h.cut
  rw [StreamBuffer.findFlag_eq _ hflag, hcut.drop_rPos, cString_append_replicate]

theorem Front.wSliceSize (h : Front top mid r) : r.rStream.wSliceSize = top - mid.length := by
  obtain ⟨k, hcut⟩ := h.cut
  have hreach := h.reach
  unfold clamped at hreach
  unfold StreamBuffer.wSliceSize
  rw [hcut.wRemaining, List.length_nil]
  omega

/-- A read puts what it gets behind what was received. -/
theorem Front.run_readSlice (h : Front top mid r) {io : Inlet}
    (hread : (Inlet.read (top - mid.length)).run r.io = .ok (.ok bs, io))
    (hle : bs.length ≤ top - mid.length) :
    ∃ r₁, readSlice.run r = .ok (.ok bs.length, r₁) ∧ r₁.io = io ∧
      Front top (mid ++ bs) { r₁ with rStream := r₁.rStream.wIncrease bs.length } := by
  obtain ⟨k, hcut⟩ := h.cut
  have hsize := h.wSliceSize
  have hfill := hcut.fill (hle.trans_eq hsize.symm)
  rw [List.drop_replicate] at hfill
  rw [← hsize] at hread
  refine ⟨_, run_readSlice_of_ok hread, rfl, ⟨_, hfill⟩, ?_, ?_⟩
  · exact (congrArg clamped (hcut.capacity_fill (hle.trans_eq hsize.symm))).trans h.reach
  · have hmid := h.le
    rw [List.length_append]
    omega

/-- A pass that finds nothing takes more of what comes, if there is room, or stops. -/
theorem Front.pass_of_none (h : Front top mid r) (hflag : flag ≠ [])
    (hnone : through flag (cString mid) = []) (buf : Bytes) :
    (∃ r₁ mid₁, (readUntilPass buf flag ()).run r = .ok (.again (), r₁) ∧ Front top mid₁ r₁ ∧
      mid₁ ++ Inlet.beforeFail r₁.io.events = mid ++ Inlet.beforeFail r.io.events ∧
      (mid.length < top → r₁.io.weight < r.io.weight) ∧ (mid.length = top → mid₁ = mid)) ∨
    Inlet.beforeFail r.io.events = [] ∧ ((readUntilPass buf flag ()).run r = .error .pending ∨
      ∃ e r₁, (readUntilPass buf flag ()).run r = .ok (.leave (buf, .error e), r₁)) := by
  have hslice := (h.findFlag hflag).trans hnone
  obtain ⟨⟨events⟩, b⟩ := r
  cases events with
  | nil => exact Or.inr ⟨rfl, Or.inl
      (run_readUntilPass_of_stop buf hslice (run_readSlice_of_stop rfl))⟩
  | cons event rest =>
    cases event with
    | fail e => exact Or.inr ⟨rfl, Or.inr ⟨e, _,
        run_readUntilPass_of_fail buf hslice (run_readSlice_of_error rfl)⟩⟩
    | data bs =>
      rcases Nat.lt_or_ge (top - mid.length) bs.length with hlt | hle
      · -- the chunk fills the rest of `w_slice()`
        have hlen := List.length_take_of_le hlt.le
        obtain ⟨r₁, hread, hio, hr₁⟩ := h.run_readSlice (if_neg (Nat.not_le.mpr hlt)) hlen.le
        refine Or.inl ⟨_, _, run_readUntilPass_of_read buf hslice hread, hr₁, ?_, fun hroom => ?_,
          fun hfull => ?_⟩
        · show _ ++ Inlet.beforeFail r₁.io.events = _
          rw [hio, List.append_assoc, Inlet.beforeFail, ← List.append_assoc (bs.take _),
            List.take_append_drop, Inlet.beforeFail]
        · show r₁.io.weight < _
          rw [hio, Inlet.weight_data, Inlet.weight_data, List.length_drop]
          omega
        · rw [hfull, Nat.sub_self, List.take_zero, List.append_nil]
      · obtain ⟨r₁, hread, hio, hr₁⟩ := h.run_readSlice (if_pos hle) hle
        refine Or.inl ⟨_, _, run_readUntilPass_of_read buf hslice hread, hr₁, ?_, fun _ => ?_,
          fun hfull => ?_⟩
        · show _ ++ Inlet.beforeFail r₁.io.events = _
          rw [hio, List.append_assoc]
          rfl
        · show r₁.io.weight < _
          rw [hio, Inlet.weight_data]
          omega
        · have hnil : bs = [] := List.length_eq_zero_iff.mp (by omega)
          rw [hnil, List.append_nil]

/-- **What the loop returns**: the bytes through the first flag in the text of what comes, as
far as `w_pos_` reaches. The induction is on the passes; without room for another byte the
loop goes on until they are used up. -/
theorem firstSearch_loop (h : Front top mid r) (hflag : flag ≠ []) (buf : Bytes) {fuel : Nat}
    (hfuel : r.io.weight < fuel ∨ mid.length = top ∧ through flag (cString mid) = []) :
    (∃ n r', (loop .spin (readUntilPass buf flag) fuel ()).run r
        = .ok ((buf ++ line, .ok n), r')) ↔
      line ≠ [] ∧
        line = through flag (cString ((mid ++ Inlet.beforeFail r.io.events).take top)) := by
  -- where nothing comes behind what was searched, nothing is found
  have hstarved : ∀ {mid all : Bytes}, through flag (cString mid) = [] → all = mid →
      ¬ (line ≠ [] ∧ line = through flag (cString all)) := by
    rintro mid _ hnone rfl ⟨hne, hline⟩
    exact hne (hline.trans hnone)
  induction fuel generalizing r mid with
  | zero =>
    obtain ⟨hfull, hnone⟩ := hfuel.resolve_left (Nat.not_lt_zero _)
    refine iff_of_false ?_ (hstarved hnone (List.take_left' hfull))
    rintro ⟨n, r', hrun⟩
    cases hrun
  | succ fuel ih =>
    by_cases hnone : through flag (cString mid) = []
    · rcases h.pass_of_none hflag hnone buf with ⟨r₁, mid₁, hpass, hr₁, hall, hless, hsame⟩ |
        ⟨hnil, hstop⟩
      · rw [run_loop_again hpass, ← hall]
        refine ih hr₁ ?_
        rcases Nat.lt_or_eq_of_le h.le with hroom | hfull
        · have hlt := hfuel.resolve_right fun hfull => Nat.ne_of_lt hroom hfull.1
          exact Or.inl (Nat.lt_of_lt_of_le (hless hroom) (Nat.le_of_lt_succ hlt))
        · obtain rfl := hsame hfull
          exact Or.inr ⟨hfull, hnone⟩
      · refine iff_of_false ?_ (hstarved hnone ?_)
        · rintro ⟨n, r', hrun⟩
          rcases hstop with hstop | ⟨e, r₁, hstop⟩
          · cases (Prog.run_bind_of_error hstop).symm.trans hrun
          · have hret := (run_loop_leave hstop).symm.trans hrun
            cases (Prod.mk.inj (Prod.mk.inj (Except.ok.inj hret)).1).2
        · rw [hnil, List.append_nil, List.take_of_length_le h.le]
    · have hslice := h.findFlag hflag
      have hpass := run_readUntilPass_of_found buf (hslice ▸ hnone)
      rw [run_loop_leave hpass, hslice]
      have hpre : mid <+: (mid ++ Inlet.beforeFail r.io.events).take top :=
        List.prefix_take_iff.mpr ⟨List.prefix_append _ _, h.le⟩
      -- what was found stays the first when more comes
      obtain ⟨more, hmore⟩ := cString_isPrefix hpre
      rw [← hmore, (through_append_iff hflag).mpr fun hfind =>
        absurd hfind ((through_ne_nil_iff hflag).mp hnone)]
      constructor
      · rintro ⟨n, r', hrun⟩
        have hline := (Prod.mk.inj (Prod.mk.inj (Except.ok.inj hrun)).1).1
        obtain rfl := List.append_cancel_left hline
        exact ⟨hnone, rfl⟩
      · rintro ⟨-, rfl⟩
        exact ⟨_, _, rfl⟩

end Front

/-- **The line that the first `read_until` returns**: none, unless there is a flag in the text
of what comes before a read fails, as far as `w_pos_` reaches, and then the bytes through the
first one. -/
theorem firstSearch_iff (io : Inlet) (size : Nat) {flag : Bytes} (hflag : flag ≠ []) (buf : Bytes)
    {line : Bytes} :
    (∃ n r', (readUntil buf flag).run (new io size) = .ok ((buf ++ line, .ok n), r')) ↔
      line ≠ [] ∧
        line = through flag (cString ((Inlet.beforeFail io.events).take (clamped size))) :=
  firstSearch_loop (front_new io size) hflag buf (Or.inl (Nat.lt_succ_self _))

end BufReader

end Uvio.Io
