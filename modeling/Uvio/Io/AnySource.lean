import Uvio.Io.BufReader
import Uvio.Io.Schedules

/-!
# A reader over any source

The calls of the buffered reader when the source may fail, or bring nothing, at any
point, and whatever the capacity.

- `refill_any`: a refill keeps the positions in order and loses nothing, whether or
  not its read fails.
- `read_valid`, `readExact_valid`: so does every call, as far as the positions go.
- `read_keeps_iff`, `readExact_keeps_iff`: what was received and not handed over is
  still in the buffer when a call fails, unless the call bypassed the buffer.
- `serves_iff`: a `read` that finds bytes in the buffer leaves the source alone,
  unless it bypasses the buffer.
-/

namespace Uvio.Io

open Program

namespace BufReader

/-- What the source has delivered from `r` to `r'` was put behind the readable bytes. -/
def Kept (r r' : BufReader) : Prop :=
  ∃ received, r.io.undelivered = received ++ r'.io.undelivered ∧
    r'.rStream.rSlice = r.rStream.rSlice ++ received

theorem unread_of_cut {r : BufReader} {pre mid post : Bytes} (h : r.rStream.Cut pre mid post) :
    r.unread = mid ++ r.io.undelivered := by
  unfold unread
  rw [h.rSlice]

theorem kept_refl (r : BufReader) : Kept r r := ⟨[], rfl, (List.append_nil _).symm⟩

theorem Kept.trans {r r₁ r₂ : BufReader} (h : Kept r r₁) (h₁ : Kept r₁ r₂) : Kept r r₂ := by
  obtain ⟨a, ha, hsa⟩ := h
  obtain ⟨b, hb, hsb⟩ := h₁
  refine ⟨a ++ b, ?_, ?_⟩
  · rw [ha, hb, List.append_assoc]
  · rw [hsb, hsa, List.append_assoc]

theorem Kept.unread {r r' : BufReader} (h : Kept r r') : r'.unread = r.unread := by
  obtain ⟨received, hund, hslice⟩ := h
  unfold BufReader.unread
  rw [hund, hslice, List.append_assoc]

/-! ## Refilling -/

section Refill

variable {io io' : Inlet} {b : StreamBuffer} {pre mid post : Bytes}

theorem run_onIo_of_ok {α : Type} {x : Task Inlet α} {a : α} (h : x.run io = .ok (a, io')) :
    (onIo x).run ⟨io, b⟩ = .ok (a, ⟨io', b⟩) :=
  Prog.run_zoom_of_ok h

theorem run_onIo_of_error {α : Type} {x : Task Inlet α} {e : Stop} (h : x.run io = .error e) :
    (onIo x).run ⟨io, b⟩ = .error e :=
  Prog.run_zoom_of_error h

/-- What is read goes into `w_slice()`. -/
theorem run_readSlice_of_ok {bs : Bytes}
    (h : (Inlet.read b.wSliceSize).run io = .ok (.ok bs, io')) :
    readSlice.run ⟨io, b⟩ = .ok (.ok bs.length, ⟨io', b.store bs⟩) :=
  (Prog.run_bind_of_ok (Prog.run_get _)).trans
    ((Prog.run_bind_of_ok (run_onIo_of_ok h)).trans rfl)

theorem run_readSlice_of_error {e : Error}
    (h : (Inlet.read b.wSliceSize).run io = .ok (.error e, io')) :
    readSlice.run ⟨io, b⟩ = .ok (.error e, ⟨io', b⟩) :=
  (Prog.run_bind_of_ok (Prog.run_get _)).trans
    ((Prog.run_bind_of_ok (run_onIo_of_ok h)).trans rfl)

theorem run_readSlice_of_stop {e : Stop} (h : (Inlet.read b.wSliceSize).run io = .error e) :
    readSlice.run ⟨io, b⟩ = .error e :=
  (Prog.run_bind_of_ok (Prog.run_get _)).trans (Prog.run_bind_of_error (run_onIo_of_error h))

/-- The buffer a refill reads into: compacted if less than `n` fits behind `w_pos_`. -/
def compact (n : Nat) (b : StreamBuffer) : StreamBuffer :=
  if b.wRemaining < castInt n then b.resetData else b

theorem cut_compact (n : Nat) (h : b.Cut pre mid post) :
    ∃ pre' post', (compact n b).Cut pre' mid post' ∧
      pre'.length + post'.length = pre.length + post.length := by
  unfold compact
  by_cases hw : b.wRemaining < castInt n
  · rw [if_pos hw]
    refine ⟨_, _, h.resetData, ?_⟩
    simp only [List.length_nil, List.length_drop, List.length_append]
    omega
  · rw [if_neg hw]
    exact ⟨_, _, h, rfl⟩

/-- A refill reads into `w_slice()` of the compacted buffer. -/
theorem run_refill_of_ok {n : Nat} {bs : Bytes}
    (h : (Inlet.read (compact n b).wSliceSize).run io = .ok (.ok bs, io')) :
    (refill n).run ⟨io, b⟩
      = .ok (.ok bs.length, ⟨io', ((compact n b).store bs).wIncrease bs.length⟩) :=
  (Prog.run_bind_of_ok rfl).trans ((Prog.run_bind_of_ok (run_readSlice_of_ok h)).trans rfl)

theorem run_refill_of_error {n : Nat} {e : Error}
    (h : (Inlet.read (compact n b).wSliceSize).run io = .ok (.error e, io')) :
    (refill n).run ⟨io, b⟩ = .ok (.error e, ⟨io', compact n b⟩) :=
  (Prog.run_bind_of_ok rfl).trans ((Prog.run_bind_of_ok (run_readSlice_of_error h)).trans rfl)

theorem run_refill_of_stop {n : Nat} {e : Stop}
    (h : (Inlet.read (compact n b).wSliceSize).run io = .error e) :
    (refill n).run ⟨io, b⟩ = .error e :=
  (Prog.run_bind_of_ok rfl).trans (Prog.run_bind_of_error (run_readSlice_of_stop h))

/-- One `io_.read(w_slice())`, to be counted by `w_increase` if it succeeds. -/
theorem readSlice_any {r : BufReader} (h : r.rStream.Cut pre mid post) :
    Meets readSlice r
      (fun ret r' => (∃ bs, ret = .ok bs.length ∧
          (r'.rStream.wIncrease bs.length).Cut pre (mid ++ bs) (post.drop bs.length) ∧
          r.io.undelivered = bs ++ r'.io.undelivered) ∨
        (∃ e, ret = .error e) ∧ r'.rStream = r.rStream ∧
          r'.io.undelivered = r.io.undelivered)
      (fun e => e = .pending) := by
  unfold readSlice
  rw [meets_bind, meets_get]
  refine (onIo_meets (Inlet.read_any r.io _)).bind (fun _ he => he) ?_
  rintro ret r' ⟨⟨bs, rfl, hlen, hdel⟩ | ⟨⟨e, rfl⟩, hdel⟩, hr'⟩
  · refine Or.inl ⟨bs, rfl, ?_, hdel⟩
    show ((r'.rStream.store bs).wIncrease bs.length).Cut _ _ _
    rw [hr']
    exact h.fill hlen
  · exact Or.inr ⟨⟨e, rfl⟩, hr', hdel⟩

/-- **One refill** puts what it gets behind the readable bytes; if it fails it has
got nothing. -/
theorem refill_any {r : BufReader} (h : r.rStream.Valid) (n : Nat) :
    Meets (refill n) r (fun _ r' => r'.rStream.Valid ∧ Kept r r') (fun e => e = .pending) := by
  obtain ⟨pre, mid, post, hcut⟩ := h.cut
  obtain ⟨pre', post', hc, -⟩ := cut_compact n hcut
  have hany := Inlet.read_any r.io (compact n r.rStream).wSliceSize
  cases hio : (Inlet.read (compact n r.rStream).wSliceSize).run r.io with
  | error e =>
    exact (meets_of_error (run_refill_of_stop hio)).mpr ((meets_of_error hio).mp hany)
  | ok p =>
    obtain ⟨ret, io'⟩ := p
    rcases hany.of_ok hio with ⟨bs, rfl, hlen, hdel⟩ | ⟨⟨e, rfl⟩, hdel⟩
    · have hfill := hc.fill hlen
      refine (meets_of_ok (run_refill_of_ok hio)).mpr ⟨hfill.valid, bs, hdel, ?_⟩
      rw [hfill.rSlice, hcut.rSlice]
    · refine (meets_of_ok (run_refill_of_error hio)).mpr ⟨hc.valid, [], hdel.symm, ?_⟩
      rw [hc.rSlice, hcut.rSlice, List.append_nil]

end Refill

/-! ## Calls -/

/-- A call that returned left the positions in order, and if it failed, the bytes
received in the buffer. -/
def Ends {α : Type} (r : BufReader) (out : Bytes × Result α) (r' : BufReader) : Prop :=
  r'.rStream.Valid ∧ ∀ e, out.2 = .error e → Kept r r'

theorem valid_writeTo {b : StreamBuffer} (h : b.Valid) (dst : Bytes) : (b.writeTo dst).2.Valid := by
  obtain ⟨pre, mid, post, hcut⟩ := h.cut
  obtain ⟨pre', post', hcut'⟩ := hcut.writeTo dst
  exact hcut'.valid

/-- A loop whose passes keep what they receive until they leave. -/
theorem loop_ends {α : Type} {body : Unit → Task BufReader (Pass Unit (Bytes × Result α))}
    (hbody : ∀ r, r.rStream.Valid → Meets (body ()) r
      (passPost (fun _ r' => r'.rStream.Valid ∧ Kept r r') (Ends r)) fun _ => True)
    {r : BufReader} (h : r.rStream.Valid) (fuel : Nat) :
    Meets (loop .spin body fuel ()) r (Ends r) fun _ => True := by
  refine Meets.loop_invariant (fun (_ : Unit) r₁ => r₁.rStream.Valid ∧ Kept r r₁) True.intro ?_
    ⟨h, kept_refl r⟩
  rintro ⟨⟩ r₁ ⟨hv₁, hk₁⟩
  refine (hbody r₁ hv₁).mono ?_ fun _ he => he
  rintro (_ | out) r₂ ⟨hv₂, hk₂⟩
  · exact ⟨hv₂, hk₁.trans hk₂⟩
  · exact ⟨hv₂, fun e he => hk₁.trans (hk₂ e he)⟩

/-- Bytes handed over are not the end of a call that failed. -/
theorem ends_of_ok {α : Type} {r r' : BufReader} {dst : Bytes} {a : α} (h : r'.rStream.Valid) :
    Ends r (dst, (.ok a : Result α)) r' := ⟨h, fun e he => by cases he⟩

theorem read_loop_any {r : BufReader} (h : r.rStream.Valid) (buf : Bytes) (fuel : Nat) :
    Meets (loop .spin (readPass buf) fuel ()) r (Ends r) fun _ => True := by
  refine loop_ends (fun r₁ hv₁ => ?_) h fuel
  refine (refill_any hv₁ buf.length).bind (fun _ _ => True.intro) ?_
  rintro (e | k) r₂ ⟨hv₂, hk₂⟩
  · exact ⟨hv₂, fun _ _ => hk₂⟩
  · dsimp only
    rw [meets_bind, meets_get]
    by_cases hleave : (!r₂.rStream.empty || k == 0) = true
    · rw [if_pos hleave, meets_bind, meets_onStream]
      exact ends_of_ok (valid_writeTo hv₂ buf)
    · rw [if_neg hleave]
      exact ⟨hv₂, hk₂⟩

theorem readExact_loop_any {r : BufReader} (h : r.rStream.Valid) (buf : Bytes) (fuel : Nat) :
    Meets (loop .spin (readExactPass buf) fuel ()) r (Ends r) fun _ => True := by
  refine loop_ends (fun r₁ hv₁ => ?_) h fuel
  refine (refill_any hv₁ buf.length).bind (fun _ _ => True.intro) ?_
  rintro (e | k) r₂ ⟨hv₂, hk₂⟩
  · exact ⟨hv₂, fun _ _ => hk₂⟩
  · dsimp only
    rw [meets_bind, meets_get]
    by_cases hdone : castInt buf.length ≤ r₂.rStream.rRemaining
    · rw [if_pos hdone, meets_bind, meets_onStream]
      exact ends_of_ok (valid_writeTo hv₂ buf)
    · rw [if_neg hdone]
      exact ⟨hv₂, hk₂⟩

/-- A `read` that fits the buffer. -/
theorem read_buffered {r : BufReader} (h : r.rStream.Valid) {buf : Bytes}
    (hcap : buf.length ≤ r.rStream.capacity) :
    Meets (read buf) r (Ends r) fun _ => True := by
  unfold read
  rw [meets_bind, meets_get, if_neg (Nat.not_lt.mpr hcap)]
  by_cases hempty : (!r.rStream.empty) = true
  · rw [if_pos hempty, meets_bind, meets_onStream]
    exact ends_of_ok (valid_writeTo h buf)
  · rw [if_neg hempty]
    exact read_loop_any h buf _

/-- A `read_exact` of what is in the buffer. -/
theorem run_readExact_enough {r : BufReader} {buf : Bytes}
    (hcap : buf.length ≤ r.rStream.capacity) (h : castInt buf.length ≤ r.rStream.rRemaining) :
    (readExact buf).run r = .ok (((r.rStream.writeTo buf).1.1, .ok ()),
      ⟨r.io, (r.rStream.writeTo buf).2⟩) := by
  unfold readExact
  rw [Prog.run_bind_of_ok (Prog.run_get r), if_neg (Nat.not_lt.mpr hcap), if_pos h]
  rfl

/-- A `read_exact` of more than is in the buffer, but not more than it can hold. -/
theorem run_readExact_short {r : BufReader} {buf : Bytes}
    (hcap : buf.length ≤ r.rStream.capacity) (h : ¬ castInt buf.length ≤ r.rStream.rRemaining) :
    (readExact buf).run r = (loop .spin (readExactPass buf) r.passes ()).run r := by
  unfold readExact
  rw [Prog.run_bind_of_ok (Prog.run_get r), if_neg (Nat.not_lt.mpr hcap), if_neg h]

/-- A `read_exact` that fits the buffer. -/
theorem readExact_buffered {r : BufReader} (h : r.rStream.Valid) {buf : Bytes}
    (hcap : buf.length ≤ r.rStream.capacity) :
    Meets (readExact buf) r (Ends r) fun _ => True := by
  by_cases hdone : castInt buf.length ≤ r.rStream.rRemaining
  · exact (meets_of_ok (run_readExact_enough hcap hdone)).mpr (ends_of_ok (valid_writeTo h buf))
  · unfold Meets
    rw [run_readExact_short hcap hdone]
    exact readExact_loop_any h buf r.passes

/-- What a bypassing `read` makes of the one read of the source. -/
def readBypassed (b : StreamBuffer) (buf : Bytes) : Result Bytes → Bytes × Result Nat
  | .error e => ((b.writeTo buf).1.1, .error e)
  | .ok bs => (blit (b.writeTo buf).1.1 (b.writeTo buf).1.2 bs,
      .ok (bs.length + (b.writeTo buf).1.2))

/-- A `read` larger than the buffer empties it and asks the source once. -/
theorem run_read_bypass {r : BufReader} {buf : Bytes} (hcap : r.rStream.capacity < buf.length) :
    (read buf).run r
      = ((Inlet.read ((r.rStream.writeTo buf).1.1.length - (r.rStream.writeTo buf).1.2)).run
          r.io).map fun p => (readBypassed r.rStream buf p.1, ⟨p.2, (r.rStream.writeTo buf).2⟩) := by
  unfold read
  rw [Prog.run_bind_of_ok (Prog.run_get r), if_pos hcap,
    Prog.run_bind_of_ok (show (onStream fun b => b.writeTo buf).run r = .ok _ from rfl)]
  cases hio : (Inlet.read ((r.rStream.writeTo buf).1.1.length - (r.rStream.writeTo buf).1.2)).run
      r.io with
  | error e => exact Prog.run_bind_of_error (run_onIo_of_error hio)
  | ok p =>
    obtain ⟨e | bs, io'⟩ := p
    · exact (Prog.run_bind_of_ok (run_onIo_of_ok hio)).trans rfl
    · exact (Prog.run_bind_of_ok (run_onIo_of_ok hio)).trans rfl

/-- A `read_exact` larger than the buffer empties it and leaves the rest to the
`read_exact` of the source. -/
theorem run_readExact_bypass {r : BufReader} {buf : Bytes}
    (hcap : r.rStream.capacity < buf.length) :
    (readExact buf).run r
      = ((Inlet.readExact ((r.rStream.writeTo buf).1.1.drop (r.rStream.writeTo buf).1.2)).run
          r.io).map fun p =>
        (((r.rStream.writeTo buf).1.1.take (r.rStream.writeTo buf).1.2 ++ p.1.1, p.1.2),
          ⟨p.2, (r.rStream.writeTo buf).2⟩) := by
  unfold readExact
  rw [Prog.run_bind_of_ok (Prog.run_get r), if_pos hcap,
    Prog.run_bind_of_ok (show (onStream fun b => b.writeTo buf).run r = .ok _ from rfl)]
  cases hio : (Inlet.readExact ((r.rStream.writeTo buf).1.1.drop
      (r.rStream.writeTo buf).1.2)).run r.io with
  | error e => exact Prog.run_bind_of_error (run_onIo_of_error hio)
  | ok p =>
    obtain ⟨⟨rest, e | _⟩, io'⟩ := p
    · exact (Prog.run_bind_of_ok (run_onIo_of_ok hio)).trans rfl
    · exact (Prog.run_bind_of_ok (run_onIo_of_ok hio)).trans rfl

/-- What a bypass does to the buffer: it takes everything out. -/
theorem bypass_buffer {r : BufReader} (h : r.rStream.Valid) {buf : Bytes}
    (hcap : r.rStream.capacity < buf.length) :
    (r.rStream.writeTo buf).1 = (r.rStream.rSlice ++ buf.drop r.rStream.rSlice.length,
        r.rStream.rSlice.length) ∧
      (r.rStream.writeTo buf).2.Valid ∧ (r.rStream.writeTo buf).2.rSlice = [] := by
  obtain ⟨pre, mid, post, hcut⟩ := h.cut
  have hlen : r.rStream.capacity = _ := hcut.length
  have hall : (r.rStream.writeTo buf).2.Cut [] [] _ := hcut.writeTo_all (by omega)
  rw [hcut.rSlice]
  exact ⟨hcut.writeTo_fst_short (by omega), hall.valid, hall.rSlice⟩

/-- No `read` puts the positions out of order. -/
theorem read_valid {r : BufReader} (h : r.rStream.Valid) (buf : Bytes) :
    Meets (read buf) r (fun _ r' => r'.rStream.Valid) fun _ => True := by
  by_cases hcap : r.rStream.capacity < buf.length
  · unfold Meets
    rw [run_read_bypass hcap]
    cases (Inlet.read ((r.rStream.writeTo buf).1.1.length - (r.rStream.writeTo buf).1.2)).run
        r.io with
    | error e => exact True.intro
    | ok p => exact (bypass_buffer h hcap).2.1
  · exact (read_buffered h (Nat.le_of_not_lt hcap)).mono (fun _ _ hq => hq.1) fun _ he => he

/-- Nor does a `read_exact`. -/
theorem readExact_valid {r : BufReader} (h : r.rStream.Valid) (buf : Bytes) :
    Meets (readExact buf) r (fun _ r' => r'.rStream.Valid) fun _ => True := by
  by_cases hcap : r.rStream.capacity < buf.length
  · unfold Meets
    rw [run_readExact_bypass hcap]
    cases (Inlet.readExact ((r.rStream.writeTo buf).1.1.drop (r.rStream.writeTo buf).1.2)).run
        r.io with
    | error e => exact True.intro
    | ok p => exact (bypass_buffer h hcap).2.1
  · exact (readExact_buffered h (Nat.le_of_not_lt hcap)).mono (fun _ _ hq => hq.1) fun _ he => he

/-! ## What a failed call leaves in the buffer -/

/-- If the call fails, what was received and not handed over is in the buffer. -/
def KeepsOnError {α : Type} (x : Task BufReader (Bytes × Result α)) (r : BufReader) : Prop :=
  ∀ dst e r', x.run r = .ok ((dst, .error e), r') → Kept r r'

theorem Meets.keepsOnError {α : Type} {x : Task BufReader (Bytes × Result α)} {r : BufReader}
    (h : Meets x r (Ends r) fun _ => True) : KeepsOnError x r := fun _ _ _ hrun =>
  (h.of_ok hrun).2 _ rfl

/-- Bytes that were in the buffer and are in it no more are not kept. -/
theorem Kept.slice_nil {r r' : BufReader} (h : Kept r r') (hnil : r'.rStream.rSlice = []) :
    r.rStream.rSlice = [] ∧ r.io.undelivered = r'.io.undelivered := by
  obtain ⟨received, hund, hslice⟩ := h
  rw [hnil] at hslice
  obtain ⟨hr, rfl⟩ := List.append_eq_nil_iff.mp hslice.symm
  exact ⟨hr, hund⟩

theorem kept_of_nil {r r' : BufReader} (h : r.rStream.rSlice = []) (h' : r'.rStream.rSlice = [])
    (hund : r.io.undelivered = r'.io.undelivered) : Kept r r' :=
  ⟨[], hund, by rw [h, h', List.append_nil]⟩

theorem read_keeps_iff {r : BufReader} (h : r.rStream.Valid) (buf : Bytes) :
    KeepsOnError (read buf) r ↔ buf.length ≤ r.rStream.capacity ∨ r.rStream.rSlice = [] ∨
      ¬ r.io.FailsNext := by
  by_cases hcap : r.rStream.capacity < buf.length
  · obtain ⟨-, -, hnil⟩ := bypass_buffer h hcap
    have hnot : ¬ buf.length ≤ r.rStream.capacity := Nat.not_le.mpr hcap
    have hrun := run_read_bypass hcap
    rw [or_iff_right hnot]
    constructor
    · intro hkeeps
      rw [or_iff_not_imp_right, not_not]
      rintro ⟨e, rest, hev⟩
      -- the failure of the source is that of the call
      have hfails : ∀ n, (Inlet.read n).run r.io = .ok (.error e, ⟨rest⟩) := fun n =>
        Inlet.run_read_error_iff.mpr hev
      rw [hfails] at hrun
      exact ((hkeeps _ _ _ hrun).slice_nil hnil).1
    · rintro hcond dst e r' hret
      rw [hrun, map_eq_ok_iff] at hret
      obtain ⟨⟨e' | bs, io'⟩, hio, hret⟩ := hret
      · cases hret
        have hev := Inlet.run_read_error_iff.mp hio
        have hslice := hcond.resolve_right (not_not.mpr ⟨e, io'.events, hev⟩)
        refine kept_of_nil hslice hnil ?_
        show (⟨r.io.events⟩ : Inlet).undelivered = _
        rw [hev]
        rfl
      · cases hret
  · have hle := Nat.le_of_not_lt hcap
    exact iff_of_true (Meets.keepsOnError (read_buffered h hle)) (Or.inl hle)

theorem readExact_keeps_iff {r : BufReader} (h : r.rStream.Valid) (buf : Bytes) :
    KeepsOnError (readExact buf) r ↔ buf.length ≤ r.rStream.capacity ∨
      Inlet.Delivers (buf.length - r.rStream.rSlice.length) r.io.events ∨
      r.rStream.rSlice = [] ∧ r.io.BringsNothing := by
  by_cases hcap : r.rStream.capacity < buf.length
  · obtain ⟨hfst, -, hnil⟩ := bypass_buffer h hcap
    have hnot : ¬ buf.length ≤ r.rStream.capacity := Nat.not_le.mpr hcap
    have hrun := run_readExact_bypass hcap
    rw [hfst, List.drop_left, Inlet.run_readExact, List.length_drop] at hrun
    rw [or_iff_right hnot]
    constructor
    · intro hkeeps
      rw [or_iff_not_imp_left, ← Inlet.exactly_error_iff]
      rintro ⟨bs, e, left, hex⟩
      rw [hex] at hrun
      obtain ⟨hslice, hund⟩ := (hkeeps _ _ _ hrun).slice_nil hnil
      -- nothing of the stream is gone, so the first read brought nothing
      have hbs : bs = [] := by
        have hall : bs ++ (⟨left⟩ : Inlet).undelivered = (⟨left⟩ : Inlet).undelivered :=
          (Inlet.exactly_undelivered hex).symm.trans hund
        exact List.append_left_eq_self.mp hall
      exact ⟨hslice, (Inlet.exactly_nil_iff hex).mp hbs⟩
    · rintro hcond dst e r' hret
      rw [hrun, map_eq_ok_iff] at hret
      obtain ⟨q, hq, hret⟩ := hret
      rw [map_eq_ok_iff] at hq
      obtain ⟨⟨⟨bs, e' | _⟩, left⟩, hex, rfl⟩ := hq
      · cases hret
        obtain ⟨hslice, hfirst⟩ := hcond.resolve_left
          (Inlet.exactly_error_iff.mp ⟨bs, e, left, hex⟩)
        refine kept_of_nil hslice hnil ((Inlet.exactly_undelivered hex).trans ?_)
        rw [(Inlet.exactly_nil_iff hex).mpr hfirst]
        rfl
      · cases hret
  · have hle := Nat.le_of_not_lt hcap
    exact iff_of_true (Meets.keepsOnError (readExact_buffered h hle)) (Or.inl hle)

/-- **What a failed call leaves in the buffer**: all that was received and not handed
over. A call that bypasses the buffer does so only if there was nothing to lose. -/
theorem keeps_iff {r : BufReader} (h : r.rStream.Valid) (buf : Bytes) :
    (KeepsOnError (read buf) r ↔ buf.length ≤ r.rStream.capacity ∨ r.rStream.rSlice = [] ∨
        ¬ r.io.FailsNext) ∧
      (KeepsOnError (readExact buf) r ↔ buf.length ≤ r.rStream.capacity ∨
        Inlet.Delivers (buf.length - r.rStream.rSlice.length) r.io.events ∨
        r.rStream.rSlice = [] ∧ r.io.BringsNothing) :=
  ⟨read_keeps_iff h buf, readExact_keeps_iff h buf⟩

/-- A buffer of four bytes, two of them readable. -/
def twoOfFour : StreamBuffer := ⟨[1, 2, 0, 0], 0, 2, true⟩

theorem valid_twoOfFour : twoOfFour.Valid :=
  ⟨⟨by decide, by decide, by decide⟩, by decide⟩

/-- Four bytes of a source that brings one and then fails. -/
theorem keeps_iff_four :
    (KeepsOnError (read [0, 0, 0, 0]) ⟨⟨[.data [3], .fail .unexpectedEOF]⟩, twoOfFour⟩ ↔
        4 ≤ twoOfFour.capacity ∨ twoOfFour.rSlice = [] ∨
        ¬ (⟨[.data [3], .fail .unexpectedEOF]⟩ : Inlet).FailsNext) ∧
      (KeepsOnError (readExact [0, 0, 0, 0]) ⟨⟨[.data [3], .fail .unexpectedEOF]⟩, twoOfFour⟩ ↔
        4 ≤ twoOfFour.capacity ∨
        Inlet.Delivers (4 - twoOfFour.rSlice.length) [.data [3], .fail .unexpectedEOF] ∨
        twoOfFour.rSlice = [] ∧ (⟨[.data [3], .fail .unexpectedEOF]⟩ : Inlet).BringsNothing) :=
  keeps_iff (r := ⟨⟨[.data [3], .fail .unexpectedEOF]⟩, twoOfFour⟩) valid_twoOfFour [0, 0, 0, 0]

/-- The two bytes are gone after a `read` of eight that meets the end of the stream. -/
theorem not_keeps :
    ¬ ∀ (r : BufReader) (buf : Bytes), r.rStream.Valid →
      KeepsOnError (read buf) r ∧ KeepsOnError (readExact buf) r := by
  intro h
  have hread := (h ⟨⟨[.fail .unexpectedEOF]⟩, twoOfFour⟩ (List.replicate 8 0) valid_twoOfFour).1
  rcases (read_keeps_iff valid_twoOfFour _).mp hread with hcap | hslice | hfails
  · exact absurd hcap (by decide)
  · exact absurd hslice (by decide)
  · exact hfails ⟨.unexpectedEOF, [], rfl⟩

/-! ## A read that finds bytes in the buffer -/

/-- Whatever the source would do, the `read` does not ask it: it hands over at least
one of the readable bytes, from the front, and leaves the others. -/
def Serves (b : StreamBuffer) (buf : Bytes) : Prop :=
  ∃ (k : Nat) (dst : Bytes) (b' : StreamBuffer), 1 ≤ k ∧ (k : Int) ≤ b.rRemaining ∧
    dst.take k = b.rSlice.take k ∧ b'.rSlice = b.rSlice.drop k ∧
    ∀ io, (read buf).run ⟨io, b⟩ = .ok ((dst, .ok k), ⟨io, b'⟩)

theorem run_read_nonempty {r : BufReader} {buf : Bytes} (hcap : buf.length ≤ r.rStream.capacity)
    (hne : r.rStream.empty = false) :
    (read buf).run r = .ok (((r.rStream.writeTo buf).1.1, .ok (r.rStream.writeTo buf).1.2),
      ⟨r.io, (r.rStream.writeTo buf).2⟩) := by
  unfold read
  rw [Prog.run_bind_of_ok (Prog.run_get r), if_neg (Nat.not_lt.mpr hcap), hne]
  rfl

theorem serves_of_le {b : StreamBuffer} (h : b.Valid) (hne : b.empty = false) {buf : Bytes}
    (hbuf : buf ≠ []) (hcap : buf.length ≤ b.capacity) : Serves b buf := by
  obtain ⟨pre, mid, post, hcut⟩ := h.cut
  obtain ⟨pre', post', hcut'⟩ := hcut.writeTo buf
  have hmid : mid ≠ [] := fun hnil => by
    rw [hcut.empty_iff.mpr hnil] at hne
    cases hne
  have hlen := List.length_pos_iff.mpr hmid
  have hpos := List.length_pos_iff.mpr hbuf
  have htake : (mid.take buf.length).length = min mid.length buf.length := by
    rw [List.length_take, Nat.min_comm]
  refine ⟨min mid.length buf.length, (b.writeTo buf).1.1, (b.writeTo buf).2, by omega, ?_, ?_, ?_,
    fun io => ?_⟩
  · rw [hcut.rRemaining]
    omega
  · rw [hcut.writeTo_fst, hcut.rSlice, blit_zero, ← htake, List.take_left, htake, Nat.min_comm,
      ← List.take_take, List.take_length]
  · rw [hcut'.rSlice, hcut.rSlice]
    by_cases hle : mid.length ≤ buf.length
    · rw [Nat.min_eq_left hle, List.drop_length, List.drop_eq_nil_of_le hle]
    · rw [Nat.min_eq_right (Nat.le_of_not_le hle)]
  · have hrun := run_read_nonempty (r := ⟨io, b⟩) hcap hne
    rw [hcut.writeTo_fst] at hrun ⊢
    exact hrun

/-- A bypassing `read` waits for a source that has nothing to say. -/
theorem not_serves_of_lt (b : StreamBuffer) (buf : Bytes) (hcap : b.capacity < buf.length) :
    ¬ Serves b buf := by
  rintro ⟨k, dst, b', -, -, -, -, hrun⟩
  have hwait := run_read_bypass (r := ⟨⟨[]⟩, b⟩) hcap
  rw [hrun ⟨[]⟩] at hwait
  cases hwait

/-- **A `read` that finds bytes in the buffer** serves its caller from there exactly if
it does not ask for more than the buffer could hold. -/
theorem serves_iff {b : StreamBuffer} (h : b.Valid) (hne : b.empty = false) {buf : Bytes}
    (hbuf : buf ≠ []) : Serves b buf ↔ buf.length ≤ b.capacity := by
  constructor
  · intro hserves
    by_contra hlt
    exact not_serves_of_lt b buf (Nat.lt_of_not_le hlt) hserves
  · exact serves_of_le h hne hbuf

theorem serves_iff_four : Serves twoOfFour [0, 0, 0, 0] ↔ 4 ≤ twoOfFour.capacity :=
  serves_iff valid_twoOfFour (by decide) (by decide)

/-- A `read` of five bytes from a buffer of four asks the source, although two bytes are
there. -/
theorem not_serves :
    ¬ ∀ (b : StreamBuffer) (buf : Bytes), b.Valid → b.empty = false → buf ≠ [] →
      Serves b buf := fun h =>
  not_serves_of_lt twoOfFour (List.replicate 5 0) (by decide)
    (h twoOfFour (List.replicate 5 0) valid_twoOfFour (by decide) (by decide))

end BufReader

end Uvio.Io
