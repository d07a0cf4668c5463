import Uvio.Io.Buffer
import Uvio.Io.Endpoint

/-!
# `ImplBufWrite`

`write`, `flush` and `write_all` of the buffered writer. A write that fits behind
`w_pos_` is buffered; one that does not drains the buffer, if it holds anything,
and then goes to the underlying writer directly.

- `out`: the bytes the underlying writer took, followed by those in the buffer.
- `write_meets`, `flush_meets`: a write that succeeds appends its argument to
  `out`, one that fails and a flush leave it alone, whichever of the two
  underlying writes of a call fails.
-/

namespace Uvio.Io

open Program

/-- `BufWriter<IO>`: the underlying stream and the buffer. -/
structure BufWriter where
  io : Outlet
  wStream : StreamBuffer

namespace BufWriter

/-- `BufWriter(io, size)`. -/
def new (io : Outlet) (size : Nat) : BufWriter := ⟨io, StreamBuffer.new size⟩

/-- A call on `io_`. -/
def onIo {α : Type} (x : Task Outlet α) : Task BufWriter α :=
  Prog.zoom io (fun w s => { w with io := s }) x

/-- A call on `w_stream_`. -/
def onStream {α : Type} (f : StreamBuffer → α × StreamBuffer) : Task BufWriter α :=
  modifyGet fun w => ((f w.wStream).1, { w with wStream := (f w.wStream).2 })

/-- `write(buf)`. After a drain the count returned is that of both underlying
writes. -/
def write (buf : Bytes) : Task BufWriter (Result Nat) := do
  let w ← get
  if castInt buf.length ≤ w.wStream.wRemaining then do
    let len ← onStream fun b => b.readFrom buf
    pure (.ok len)
  else if 0 < w.wStream.rRemaining then
    match ← onIo (Outlet.write w.wStream.rSlice) with
    | .error e => pure (.error e)
    | .ok _ => do
      let drained := castSize w.wStream.rRemaining
      onStream fun b => ((), (b.rIncrease drained).resetData)
      match ← onIo (Outlet.write buf) with
      | .error e => pure (.error e)
      | .ok _ => pure (.ok (drained + buf.length))
  else
    match ← onIo (Outlet.write buf) with
    | .error e => pure (.error e)
    | .ok _ => pure (.ok buf.length)

/-- One pass of the loop of `flush`. -/
def flushPass : Unit → Task BufWriter (Pass Unit (Result Unit)) := fun _ => do
  let w ← get
  if w.wStream.rSlice.isEmpty then pure (.leave (.ok ()))
  else
    match ← onIo (Outlet.write w.wStream.rSlice) with
    | .error e => pure (.leave (.error e))
    | .ok _ => do
      onStream fun b => ((), b.rIncrease (castSize b.rRemaining))
      pure (.again ())

/-- `flush()`. The first pass that goes round empties the slice. -/
def flush : Task BufWriter (Result Unit) := do
  match ← loop .spin flushPass 2 () with
  | .error e => pure (.error e)
  | .ok () => do
    onStream fun b => ((), b.resetPos)
    pure (.ok ())

/-- `write_all(buf)`. -/
def writeAll (buf : Bytes) : Task BufWriter (Result Unit) := do
  match ← write buf with
  | .error e => pure (.error e)
  | .ok _ =>
    match ← flush with
    | .error e => pure (.error e)
    | .ok () => pure (.ok ())

/-! ## What the writer has accepted -/

/-- The bytes taken by the underlying writer, then those in the buffer. -/
def out (w : BufWriter) : Bytes := w.io.taken ++ w.wStream.rSlice

/-- The writer holds a well laid buffer over an all-or-nothing outlet. -/
structure Sound (w : BufWriter) : Prop where
  laid : ∃ pre mid post, w.wStream.Laid pre mid post
  allOrNothing : w.io.AllOrNothing

theorem sound_new {io : Outlet} {size : Nat} (hio : io.AllOrNothing) (h : size ≤ intMax) :
    (new io size).Sound :=
  ⟨⟨_, _, _, StreamBuffer.laid_new h⟩, hio⟩

theorem out_of_laid {w : BufWriter} {pre mid post : Bytes} (h : w.wStream.Laid pre mid post) :
    w.out = w.io.taken ++ mid := by
  unfold out
  rw [h.rSlice]

@[simp] theorem meets_onStream {α : Type} (f : StreamBuffer → α × StreamBuffer) (w : BufWriter)
    (Q : α → BufWriter → Prop) (E : Stop → Prop) :
    Meets (onStream f) w Q E ↔
      Q (f w.wStream).1 { w with wStream := (f w.wStream).2 } := Iff.rfl

/-- An underlying write, seen from the writer. -/
theorem onIo_write_meets {w : BufWriter} (h : w.io.AllOrNothing) {buf : Bytes}
    (hbuf : buf ≠ []) :
    Meets (onIo (Outlet.write buf)) w
      (fun r w' => w'.wStream = w.wStream ∧ w'.io.plan = w.io.plan ∧
        ((r = .ok buf.length ∧ w'.io.taken = w.io.taken ++ buf) ∨
          (∃ e, r = .error e) ∧ w'.io.taken = w.io.taken ∧ ¬ w.io.Willing))
      fun _ => False :=
  meets_zoom.mpr ((Outlet.write_meets h hbuf).mono (fun _ _ hq => ⟨rfl, hq⟩) fun _ he => he)

/-- What a write of `buf` with result `ret` does: it appends `buf` to `out`, or fails
and leaves `out` alone, and takes nothing back from the outlet. -/
def Writes (buf : Bytes) (w : BufWriter) (ret : Result Nat) (w' : BufWriter) : Prop :=
  w'.Sound ∧ w'.io.plan = w.io.plan ∧ w.io.taken <+: w'.io.taken ∧
    (((∃ n, ret = .ok n) ∧ w'.out = w.out ++ buf) ∨
      (∃ e, ret = .error e) ∧ w'.out = w.out ∧ ¬ w.io.Willing)

/-- A write past an empty buffer, which reports `n` bytes if it succeeds. -/
theorem direct_meets {w : BufWriter} {pre post : Bytes} (hl : w.wStream.Laid pre [] post)
    (hio : w.io.AllOrNothing) {buf : Bytes} (hne : buf ≠ []) (n : Nat) :
    Meets (do
        match ← onIo (Outlet.write buf) with
        | .error e => pure (.error e)
        | .ok _ => pure (.ok n)) w (Writes buf w) fun _ => False := by
  have hout := out_of_laid hl
  rw [List.append_nil] at hout
  refine (onIo_write_meets hio hne).bind (fun _ he => he) ?_
  rintro ret w₁ ⟨hs₁, hp₁, hret⟩
  have hsound : w₁.Sound := ⟨⟨_, _, _, hs₁ ▸ hl⟩, hio.of_plan hp₁⟩
  have hout₁ : w₁.out = w₁.io.taken := by
    rw [out_of_laid (hs₁ ▸ hl), List.append_nil]
  rcases hret with ⟨rfl, ht₁⟩ | ⟨⟨e, rfl⟩, ht₁, hw₁⟩
  · exact ⟨hsound, hp₁, ht₁ ▸ List.prefix_append _ _,
      Or.inl ⟨⟨_, rfl⟩, by rw [hout₁, ht₁, hout]⟩⟩
  · exact ⟨hsound, hp₁, ht₁ ▸ List.prefix_rfl,
      Or.inr ⟨⟨e, rfl⟩, by rw [hout₁, ht₁, hout], hw₁⟩⟩

/-- **`write`** appends its argument to `out` or fails and leaves `out` alone. -/
theorem write_meets {w : BufWriter} (h : w.Sound) {buf : Bytes} (hbuf : buf.length ≤ intMax) :
    Meets (write buf) w (Writes buf w) fun _ => False := by
  obtain ⟨⟨pre, mid, post, hl⟩, hio⟩ := h
  have hout := out_of_laid hl
  have hcast := castInt_of_le hbuf
  unfold write
  rw [meets_bind, meets_get]
  by_cases hfit : castInt buf.length ≤ w.wStream.wRemaining
  · -- the argument fits behind `w_pos_`
    rw [if_pos hfit, meets_bind, meets_onStream]
    rw [hcast, hl.wRemaining] at hfit
    have hroom : buf.length ≤ post.length := by omega
    obtain ⟨hlen, hl'⟩ := hl.readFrom hroom
    refine ⟨⟨⟨_, _, _, hl'⟩, hio⟩, rfl, List.prefix_rfl, Or.inl ⟨⟨_, rfl⟩, ?_⟩⟩
    rw [hout, out_of_laid (w := ⟨w.io, (w.wStream.readFrom buf).2⟩) hl', List.append_assoc]
  · rw [if_neg hfit]
    rw [hcast, hl.wRemaining] at hfit
    -- what does not fit is not empty, so the outlet is asked for something
    have hne : buf ≠ [] := by
      rintro rfl
      simp only [List.length_nil] at hfit
      omega
    by_cases hrem : 0 < w.wStream.rRemaining
    · rw [if_pos hrem, hl.rSlice]
      rw [hl.rRemaining] at hrem
      have hmid : mid ≠ [] := by
        rintro rfl
        simp only [List.length_nil] at hrem
        omega
      refine (onIo_write_meets hio hmid).bind (fun _ he => he) ?_
      rintro ret w₁ ⟨hs₁, hp₁, ⟨rfl, ht₁⟩ | ⟨⟨e, rfl⟩, ht₁, hw₁⟩⟩
      · -- drained: the buffer is empty whatever the second write does
        dsimp only
        rw [meets_bind, meets_onStream, hs₁, hl.castSize_rRemaining]
        have hl' := (hl.rIncrease (Nat.le_refl _)).resetData
        rw [List.drop_length] at hl'
        have hio₁ : w₁.io.AllOrNothing := hio.of_plan hp₁
        have hout₁ : out ⟨w₁.io, (w.wStream.rIncrease mid.length).resetData⟩ = w.out := by
          rw [out_of_laid (w := ⟨w₁.io, (w.wStream.rIncrease mid.length).resetData⟩) hl',
            List.append_nil, hout]
          exact ht₁
        refine (direct_meets (w := ⟨w₁.io, (w.wStream.rIncrease mid.length).resetData⟩) hl' hio₁
          hne _).mono ?_ fun _ he => he
        rintro ret w₂ ⟨hsound, hp₂, hpre₂, hret⟩
        rw [hout₁] at hret
        refine ⟨hsound, hp₂.trans hp₁, ?_, hret.imp_right fun ⟨he, ho, hw⟩ => ⟨he, ho, ?_⟩⟩
        · exact (ht₁ ▸ List.prefix_append _ _ : w.io.taken <+: w₁.io.taken).trans hpre₂
        · exact fun hall => hw (hall.of_plan hp₁)
      · -- the drain failed: the buffer keeps what it holds
        refine ⟨⟨⟨_, _, _, hs₁ ▸ hl⟩, hio.of_plan hp₁⟩, hp₁, ht₁ ▸ List.prefix_rfl,
          Or.inr ⟨⟨e, rfl⟩, ?_, hw₁⟩⟩
        rw [out_of_laid (hs₁ ▸ hl), ht₁, hout]
    · -- nothing to drain
      rw [if_neg hrem]
      rw [hl.rRemaining] at hrem
      obtain rfl : mid = [] := List.length_eq_zero_iff.mp (by omega)
      exact direct_meets hl hio hne _

/-- The loop of `flush` writes the slice at once, or fails. The variant counts the
passes left: one if there is something to write. -/
theorem flush_loop_meets {w : BufWriter} (h : w.Sound) :
    Meets (loop .spin flushPass 2 ()) w
      (fun ret w' => w'.io.plan = w.io.plan ∧ w'.out = w.out ∧
        (∃ pre mid post, w'.wStream.Laid pre mid post) ∧
        ((ret = .ok () ∧ w'.wStream.rSlice = []) ∨ (∃ e, ret = .error e) ∧ ¬ w.io.Willing))
      fun _ => False := by
  obtain ⟨⟨pre, mid, post, hl⟩, hio⟩ := h
  refine Meets.loop (fun n (_ : Unit) w₁ => w₁.io.plan = w.io.plan ∧ w₁.out = w.out ∧
    ∃ pre mid post, w₁.wStream.Laid pre mid post ∧ (n = 0 → mid = []) ∧ n ≤ 1) ?_
    (n := 1) ⟨rfl, rfl, pre, mid, post, hl, fun h => absurd h (by decide), Nat.le_refl 1⟩
    (by decide)
  rintro n ⟨⟩ w₁ ⟨hp₁, hout₁, pre₁, mid₁, post₁, hl₁, hn₁, hle⟩
  unfold flushPass
  rw [meets_bind, meets_get, hl₁.rSlice]
  by_cases hmid : mid₁ = []
  · rw [if_pos (by simpa using hmid)]
    exact ⟨hp₁, hout₁, ⟨_, _, _, hl₁⟩, Or.inl ⟨rfl, by rw [hl₁.rSlice, hmid]⟩⟩
  · rw [if_neg (by simpa using hmid)]
    have hio₁ : w₁.io.AllOrNothing := hio.of_plan hp₁
    refine (onIo_write_meets hio₁ hmid).bind (fun _ he => he) ?_
    rintro ret w₂ ⟨hs₂, hp₂, ⟨rfl, ht₂⟩ | ⟨⟨e, rfl⟩, ht₂, hw₂⟩⟩
    · dsimp only
      rw [meets_bind, meets_onStream, hs₂, hl₁.castSize_rRemaining]
      have hl' := hl₁.rIncrease (Nat.le_refl _)
      rw [List.drop_length] at hl'
      refine ⟨0, Nat.pos_of_ne_zero fun h => hmid (hn₁ h), hp₂.trans hp₁, ?_, _, _, _, hl',
        fun _ => rfl, Nat.zero_le _⟩
      rw [out_of_laid (w := ⟨w₂.io, w₁.wStream.rIncrease mid₁.length⟩) hl', ← hout₁,
        out_of_laid hl₁, List.append_nil]
      exact ht₂
    · refine ⟨hp₂.trans hp₁, ?_, ⟨_, _, _, hs₂ ▸ hl₁⟩,
        Or.inr ⟨⟨e, rfl⟩, fun hw => hw₂ (hw.of_plan hp₁)⟩⟩
      rw [← hout₁, out_of_laid hl₁, out_of_laid (hs₂ ▸ hl₁), ht₂]

/-- **`flush`** leaves `out` alone, and the buffer empty if it succeeds. -/
theorem flush_meets {w : BufWriter} (h : w.Sound) :
    Meets flush w
      (fun ret w' => w'.Sound ∧ w'.io.plan = w.io.plan ∧ w'.out = w.out ∧
        ((ret = .ok () ∧ w'.wStream.rSlice = []) ∨ (∃ e, ret = .error e) ∧ ¬ w.io.Willing))
      fun _ => False := by
  have hio := h.allOrNothing
  unfold flush
  refine (flush_loop_meets h).bind (fun _ he => he) ?_
  -- `reset_pos` behind the loop finds nothing to lose
  rintro ret w₁ ⟨hp₁, hout₁, ⟨pre₁, mid₁, post₁, hl₁⟩, ⟨rfl, hempty⟩ | ⟨⟨e, rfl⟩, hw⟩⟩
  · obtain rfl : mid₁ = [] := hl₁.rSlice ▸ hempty
    have hl' := hl₁.resetPos
    refine ⟨⟨⟨_, _, _, hl'⟩, hio.of_plan hp₁⟩, hp₁, ?_, Or.inl ⟨rfl, hl'.rSlice⟩⟩
    rw [out_of_laid (w := ⟨w₁.io, w₁.wStream.resetPos⟩) hl', ← hout₁, out_of_laid hl₁]
  · exact ⟨⟨⟨_, _, _, hl₁⟩, hio.of_plan hp₁⟩, hp₁, hout₁, Or.inr ⟨⟨e, rfl⟩, hw⟩⟩

end BufWriter

end Uvio.Io
