import Uvio.Io.Buffer
import Uvio.Io.Endpoint

/-!
# `ImplBufRead`

`read`, `read_exact`, `read_until` and `read_line` of the buffered reader. Each
takes the destination as it is before the call and returns it as it is
afterwards, next to the `Result`: a call that fails may have written to its
destination.

A request larger than the buffer bypasses it; any other is served from the
buffer, refilled (`refill`) as long as needed.

- `refill_meets`: one refill moves bytes from the inlet to the end of the
  readable slice and loses nothing, whether or not it compacts.
- `read_meets`, `readExact_meets`: what is handed over is a front of
  `unread`, the bytes in the buffer followed by those still to be delivered, and
  the rest of `unread` stays.
-/

namespace Uvio.Io

open Program

/-- `BufReader<IO>`: the underlying stream and the buffer. -/
structure BufReader where
  io : Inlet
  rStream : StreamBuffer
deriving DecidableEq, Repr

namespace BufReader

/-- `BufReader(io, size)`. -/
def new (io : Inlet) (size : Nat) : BufReader := ⟨io, StreamBuffer.new size⟩

/-- A call on `io_`. -/
def onIo {α : Type} (x : Task Inlet α) : Task BufReader α :=
  Prog.zoom io (fun r s => { r with io := s }) x

/-- A call on `r_stream_`. -/
def onStream {α : Type} (f : StreamBuffer → α × StreamBuffer) : Task BufReader α :=
  modifyGet fun r => ((f r.rStream).1, { r with rStream := (f r.rStream).2 })

/-- `io_.read(r_stream_.w_slice())`. -/
def readSlice : Task BufReader (Result Nat) := do
  let r ← get
  match ← onIo (Inlet.read r.rStream.wSliceSize) with
  | .error e => pure (.error e)
  | .ok bs => do
    onStream fun b => ((), b.store bs)
    pure (.ok bs.length)

/-- The head of both refill loops: compact if less than `n` fits behind
`w_pos_`, read into `w_slice()`, and count what was read. -/
def refill (n : Nat) : Task BufReader (Result Nat) := do
  onStream fun b => ((), if b.wRemaining < castInt n then b.resetData else b)
  match ← readSlice with
  | .error e => pure (.error e)
  | .ok k => do
    onStream fun b => ((), b.wIncrease k)
    pure (.ok k)

/-- The passes a loop over the inlet can need; a loop that exceeds them is reading
into an empty `w_slice()`, and never ends. -/
def passes (r : BufReader) : Nat := r.io.weight + 1

/-- One pass of the loop of `read`. -/
def readPass (buf : Bytes) : Unit → Task BufReader (Pass Unit (Bytes × Result Nat)) := fun _ => do
  match ← refill buf.length with
  | .error e => pure (.leave (buf, .error e))
  | .ok k => do
    let r ← get
    -- a read that got nothing leaves as well, and hands over nothing
    if !r.rStream.empty || k == 0 then do
      let (dst, len) ← onStream fun b => b.writeTo buf
      pure (.leave (dst, .ok len))
    else pure (.again ())

/-- `read(buf)`. -/
def read (buf : Bytes) : Task BufReader (Bytes × Result Nat) := do
  let r ← get
  if r.rStream.capacity < buf.length then do
    let (dst, len) ← onStream fun b => b.writeTo buf
    match ← onIo (Inlet.read (dst.length - len)) with
    -- the bytes taken out of the buffer are in `dst`, but not in the result
    | .error e => pure (dst, .error e)
    | .ok bs => pure (blit dst len bs, .ok (bs.length + len))
  else if !r.rStream.empty then do
    let (dst, len) ← onStream fun b => b.writeTo buf
    pure (dst, .ok len)
  else loop .spin (readPass buf) r.passes ()

/-- One pass of the loop of `read_exact`. -/
def readExactPass (buf : Bytes) : Unit → Task BufReader (Pass Unit (Bytes × Result Unit)) :=
  fun _ => do
  match ← refill buf.length with
  | .error e => pure (.leave (buf, .error e))
  | .ok _ => do
    let r ← get
    if castInt buf.length ≤ r.rStream.rRemaining then do
      let (dst, _) ← onStream fun b => b.writeTo buf
      pure (.leave (dst, .ok ()))
    else pure (.again ())

/-- `read_exact(buf)`. -/
def readExact (buf : Bytes) : Task BufReader (Bytes × Result Unit) := do
  let r ← get
  if r.rStream.capacity < buf.length then do
    let (dst, len) ← onStream fun b => b.writeTo buf
    let (rest, ret) ← onIo (Inlet.readExact (dst.drop len))
    match ret with
    | .error e => pure (dst.take len ++ rest, .error e)
    | .ok () => pure (dst.take len ++ rest, .ok ())
  else if castInt buf.length ≤ r.rStream.rRemaining then do
    let (dst, _) ← onStream fun b => b.writeTo buf
    pure (dst, .ok ())
  else loop .spin (readExactPass buf) r.passes ()

/-- One pass of the loop of `read_until`. -/
def readUntilPass (buf endFlag : Bytes) :
    Unit → Task BufReader (Pass Unit (Bytes × Result Nat)) := fun _ => do
  let r ← get
  let slice := r.rStream.findFlagAndReturnSlice endFlag
  if !slice.isEmpty then do
    onStream fun b => ((), b.rIncrease slice.length)
    pure (.leave (buf ++ slice, .ok (buf ++ slice).length))
  else
    match ← readSlice with
    | .error e => pure (.leave (buf, .error e))
    | .ok k => do
      onStream fun b => ((), b.wIncrease k)
      pure (.again ())

/-- `read_until(buf, end_flag)`. -/
def readUntil (buf endFlag : Bytes) : Task BufReader (Bytes × Result Nat) := do
  let r ← get
  loop .spin (readUntilPass buf endFlag) r.passes ()

/-- `read_line(buf)`. -/
def readLine (buf : Bytes) : Task BufReader (Bytes × Result Nat) := readUntil buf (ascii "\n")

/-! ## One pass of a loop -/

section Pass

variable {r r₁ : BufReader} {e : Error} {k : Nat}

/-- A pass that finds the flag leaves with everything through it. -/
theorem run_readUntilPass_of_found {flag : Bytes} (buf : Bytes)
    (h : r.rStream.findFlagAndReturnSlice flag ≠ []) :
    (readUntilPass buf flag ()).run r
      = .ok (.leave (buf ++ r.rStream.findFlagAndReturnSlice flag,
          .ok (buf ++ r.rStream.findFlagAndReturnSlice flag).length),
        { r with
          rStream := r.rStream.rIncrease (r.rStream.findFlagAndReturnSlice flag).length }) := by
  unfold readUntilPass
  rw [Prog.run_bind_of_ok (Prog.run_get r)]
  dsimp only
  rw [if_pos (by simpa using h)]
  rfl

/-- A pass that finds none goes round once it has read. -/
theorem run_readUntilPass_of_read {flag : Bytes} (buf : Bytes)
    (h : r.rStream.findFlagAndReturnSlice flag = []) (hread : readSlice.run r = .ok (.ok k, r₁)) :
    (readUntilPass buf flag ()).run r
      = .ok (.again (), { r₁ with rStream := r₁.rStream.wIncrease k }) := by
  unfold readUntilPass
  rw [Prog.run_bind_of_ok (Prog.run_get r)]
  dsimp only
  rw [h, if_neg (by decide), Prog.run_bind_of_ok hread]
  rfl

theorem run_readUntilPass_of_fail {flag : Bytes} (buf : Bytes)
    (h : r.rStream.findFlagAndReturnSlice flag = [])
    (hread : readSlice.run r = .ok (.error e, r₁)) :
    (readUntilPass buf flag ()).run r = .ok (.leave (buf, .error e), r₁) := by
  unfold readUntilPass
  rw [Prog.run_bind_of_ok (Prog.run_get r)]
  dsimp only
  rw [h, if_neg (by decide), Prog.run_bind_of_ok hread]
  rfl

theorem run_readUntilPass_of_stop {flag : Bytes} {stop : Stop} (buf : Bytes)
    (h : r.rStream.findFlagAndReturnSlice flag = []) (hread : readSlice.run r = .error stop) :
    (readUntilPass buf flag ()).run r = .error stop := by
  unfold readUntilPass
  rw [Prog.run_bind_of_ok (Prog.run_get r)]
  dsimp only
  rw [h, if_neg (by decide), Prog.run_bind_of_error hread]

theorem run_readExactPass_of_fail {buf : Bytes}
    (hrefill : (refill buf.length).run r = .ok (.error e, r₁)) :
    (readExactPass buf ()).run r = .ok (.leave (buf, .error e), r₁) := by
  unfold readExactPass
  rw [Prog.run_bind_of_ok hrefill]
  rfl

/-- A pass that has enough now hands it over. -/
theorem run_readExactPass_of_full {buf dst : Bytes} {len : Nat} {r' : BufReader}
    (hrefill : (refill buf.length).run r = .ok (.ok k, r₁))
    (hfull : castInt buf.length ≤ r₁.rStream.rRemaining)
    (hwrite : (onStream fun b => b.writeTo buf).run r₁ = .ok ((dst, len), r')) :
    (readExactPass buf ()).run r = .ok (.leave (dst, .ok ()), r') := by
  unfold readExactPass
  rw [Prog.run_bind_of_ok hrefill]
  dsimp only
  rw [Prog.run_bind_of_ok (Prog.run_get r₁), if_pos hfull, Prog.run_bind_of_ok hwrite]
  rfl

/-- A pass that still has too little goes round. -/
theorem run_readExactPass_of_short {buf : Bytes}
    (hrefill : (refill buf.length).run r = .ok (.ok k, r₁))
    (hshort : ¬ castInt buf.length ≤ r₁.rStream.rRemaining) :
    (readExactPass buf ()).run r = .ok (.again (), r₁) := by
  unfold readExactPass
  rw [Prog.run_bind_of_ok hrefill]
  dsimp only
  rw [Prog.run_bind_of_ok (Prog.run_get r₁), if_neg hshort]
  rfl

end Pass

/-! ## What is still to be handed over -/

/-- The bytes no caller has been given: those in the buffer, then those the
inlet has not delivered. -/
def unread (r : BufReader) : Bytes := r.rStream.rSlice ++ r.io.undelivered

/-- The reader holds a well laid buffer over a flowing inlet. -/
structure Sound (r : BufReader) : Prop where
  laid : ∃ pre mid post, r.rStream.Laid pre mid post
  flowing : r.io.Flowing

theorem sound_new {io : Inlet} {size : Nat} (hio : io.Flowing) (h : size ≤ intMax) :
    (new io size).Sound :=
  ⟨⟨_, _, _, StreamBuffer.laid_new h⟩, hio⟩

theorem unread_new {io : Inlet} {size : Nat} (h : size ≤ intMax) :
    (new io size).unread = io.undelivered := by
  show (StreamBuffer.new size).rSlice ++ io.undelivered = _
  rw [(StreamBuffer.laid_new h).rSlice]
  rfl

theorem unread_of_laid {r : BufReader} {pre mid post : Bytes} (h : r.rStream.Laid pre mid post) :
    r.unread = mid ++ r.io.undelivered := by
  unfold unread
  rw [h.rSlice]

@[simp] theorem meets_onStream {α : Type} (f : StreamBuffer → α × StreamBuffer) (r : BufReader)
    (Q : α → BufReader → Prop) (E : Stop → Prop) :
    Meets (onStream f) r Q E ↔
      Q (f r.rStream).1 { r with rStream := (f r.rStream).2 } := Iff.rfl

/-- A specification of a call on `io_`, lifted to the reader. -/
theorem onIo_meets {α : Type} {x : Task Inlet α} {r : BufReader} {Q : α → Inlet → Prop}
    {E : Stop → Prop} (h : Meets x r.io Q E) :
    Meets (onIo x) r (fun a r' => Q a r'.io ∧ r'.rStream = r.rStream) E :=
  meets_zoom.mpr (h.mono (fun _ _ hq => ⟨hq, rfl⟩) fun _ he => he)

section Refill

variable {r : BufReader} {pre mid post : Bytes}

/-- One `io_.read(w_slice())` and `w_increase`, on a buffer that is laid. -/
theorem readSlice_meets (hio : r.io.Flowing) (h : r.rStream.Laid pre mid post) :
    Meets readSlice r
      (fun ret r' => ∃ bs, ret = .ok bs.length ∧ bs.length ≤ post.length ∧
        (post ≠ [] → bs ≠ []) ∧
        (r'.rStream.wIncrease bs.length).Laid pre (mid ++ bs) (post.drop bs.length) ∧
        r.io.undelivered = bs ++ r'.io.undelivered ∧ r'.io.Flowing ∧
        (post ≠ [] → r'.io.weight < r.io.weight))
      (fun e => e = .pending ∧ r.io.undelivered = []) := by
  unfold readSlice
  rw [meets_bind, meets_get, h.wSliceSize]
  refine (onIo_meets (Inlet.read_meets hio _)).bind (fun _ he => he) ?_
  rintro ret r' ⟨⟨bs, rfl, hlen, hne, hdel, hio', hw⟩, hr'⟩
  have hpos : post ≠ [] → 0 < post.length := List.length_pos_iff.mpr
  refine ⟨bs, rfl, hlen, fun hp => hne (hpos hp), ?_, hdel, hio', fun hp => hw (hpos hp)⟩
  show ((r'.rStream.store bs).wIncrease bs.length).Laid _ _ _
  rw [hr']
  exact h.fill hlen

/-- **One refill** of a buffer that holds less than the `n` bytes asked for, or
nothing when nothing is asked for: what the inlet gives goes behind the readable
bytes. It is something unless the buffer is full. -/
theorem refill_meets (hio : r.io.Flowing) (h : r.rStream.Laid pre mid post) {n : Nat}
    (hn : n ≤ r.rStream.capacity) :
    Meets (refill n) r
      (fun ret r' => ∃ bs pre' post', ret = .ok bs.length ∧ (mid.length < n → bs ≠ []) ∧
        r'.rStream.Laid pre' (mid ++ bs) post' ∧ r'.rStream.capacity = r.rStream.capacity ∧
        r.io.undelivered = bs ++ r'.io.undelivered ∧ r'.io.Flowing ∧
        (mid.length < n → r'.io.weight < r.io.weight))
      (fun e => e = .pending ∧ r.io.undelivered = []) := by
  have hcap : r.rStream.capacity = pre.length + mid.length + post.length := h.length
  have hsize : r.rStream.capacity ≤ intMax := h.size
  unfold refill
  rw [meets_bind, meets_onStream]
  -- after the compaction the buffer is laid, with room for what is missing
  obtain ⟨pre', post', hlaid, hroom, hcap'⟩ : ∃ pre' post',
      (if r.rStream.wRemaining < castInt n then r.rStream.resetData else r.rStream).Laid
        pre' mid post' ∧ (mid.length < n → post' ≠ []) ∧
        pre'.length + mid.length + post'.length = r.rStream.capacity := by
    by_cases hw : r.rStream.wRemaining < castInt n
    · rw [if_pos hw]
      refine ⟨_, _, h.resetData, fun hlt hnil => ?_, ?_⟩
      · have := congrArg List.length hnil
        simp only [List.length_drop, List.length_append, List.length_nil] at this
        omega
      · simp only [List.length_drop, List.length_append, List.length_nil]
        omega
    · rw [if_neg hw]
      refine ⟨_, _, h, fun hlt hnil => hw ?_, hcap.symm⟩
      rw [h.wRemaining, castInt_of_le (by omega), hnil]
      simp only [List.length_nil]
      omega
  generalize (if r.rStream.wRemaining < castInt n then r.rStream.resetData else r.rStream) = b
    at hlaid ⊢
  refine (readSlice_meets (r := { r with rStream := b }) hio hlaid).bind (fun _ he => he) ?_
  rintro ret r' ⟨bs, rfl, hlen, hne, hfill, hdel, hio', hw⟩
  refine ⟨bs, pre', post'.drop bs.length, rfl, fun hlt => hne (hroom hlt), hfill, ?_, hdel,
    hio', fun hlt => hw (hroom hlt)⟩
  show (r'.rStream.wIncrease bs.length).buf.length = _
  rw [hfill.length, List.length_append, List.length_drop]
  omega

end Refill

/-! ## What a call hands over -/

/-- `write_to` hands over a front of the unread bytes. -/
theorem writeTo_meets {r : BufReader} {pre mid post : Bytes} (h : r.rStream.Laid pre mid post)
    (hio : r.io.Flowing) (buf : Bytes) :
    Meets (onStream fun b => b.writeTo buf) r
      (fun out r' => out.2 = min mid.length buf.length ∧ out.1.length = buf.length ∧
        r.unread = out.1.take out.2 ++ r'.unread ∧ r'.Sound ∧
        r'.rStream.capacity = r.rStream.capacity)
      fun _ => False := by
  rw [meets_onStream, h.writeTo_fst]
  obtain ⟨pre', post', hl'⟩ := h.writeTo buf
  have htake : (mid.take buf.length).length = min mid.length buf.length := by
    rw [List.length_take, Nat.min_comm]
  refine ⟨rfl, ?_, ?_, ⟨⟨_, _, _, hl'⟩, hio⟩, StreamBuffer.length_buf_writeTo _ _⟩
  · exact length_blit (by rw [htake]; omega)
  · rw [unread_of_laid h, unread_of_laid (r := ⟨r.io, (r.rStream.writeTo buf).2⟩) hl', blit_zero,
      ← htake, List.take_left, ← List.append_assoc, List.take_append_drop]

/-- `write_to` a destination the buffered bytes fill. -/
theorem writeTo_full_meets {r : BufReader} {pre mid post : Bytes}
    (h : r.rStream.Laid pre mid post) (hio : r.io.Flowing) {buf : Bytes}
    (hbuf : buf.length ≤ mid.length) :
    Meets (onStream fun b => b.writeTo buf) r
      (fun out r' => out.1.length = buf.length ∧ r.unread = out.1 ++ r'.unread ∧ r'.Sound ∧
        r'.rStream.capacity = r.rStream.capacity)
      fun _ => False := by
  refine (writeTo_meets h hio buf).mono ?_ fun _ he => he
  rintro ⟨dst, len⟩ r' ⟨h₀, h₁, h₂, h₃⟩
  rw [h₀, Nat.min_eq_right hbuf, ← h₁, List.take_length] at h₂
  exact ⟨h₁, h₂, h₃⟩

/-- What a `read_exact` that returns has done: it succeeded, and filled its
destination with the next unread bytes. -/
def Fills (buf : Bytes) (r : BufReader) (out : Bytes × Result Unit) (r' : BufReader) : Prop :=
  out.2 = .ok () ∧ out.1.length = buf.length ∧ r.unread = out.1 ++ r'.unread ∧ r'.Sound ∧
    r'.rStream.capacity = r.rStream.capacity

/-- The loop of `read_exact`, entered with too little in the buffer. -/
theorem readExact_loop_meets {r : BufReader} {pre mid post : Bytes}
    (hl : r.rStream.Laid pre mid post) (hio : r.io.Flowing) {buf : Bytes}
    (hcap : buf.length ≤ r.rStream.capacity) (hlt : mid.length < buf.length) :
    Meets (loop .spin (readExactPass buf) r.passes ()) r (Fills buf r)
      (fun e => e = .pending ∧ r.unread.length < buf.length) := by
  have hbuf : castInt buf.length = buf.length := castInt_of_le (by
    have : r.rStream.capacity ≤ intMax := hl.size
    omega)
  -- the variant is the weight of the inlet; `unread` and the capacity do not change
  refine Meets.loop
    (fun n (_ : Unit) r₁ => n = r₁.io.weight ∧ r₁.unread = r.unread ∧ r₁.io.Flowing ∧
      r₁.rStream.capacity = r.rStream.capacity ∧
      ∃ pre mid post, r₁.rStream.Laid pre mid post ∧ mid.length < buf.length) ?_
    ⟨rfl, rfl, hio, rfl, _, _, _, hl, hlt⟩ (Nat.lt_succ_self _)
  rintro n ⟨⟩ r₁ ⟨rfl, hun, hio₁, hcap₁, pre₁, mid₁, post₁, hl₁, hlt₁⟩
  unfold readExactPass
  refine (refill_meets hio₁ hl₁ (by omega)).bind ?_ ?_
  · -- the inlet has nothing left, so what is buffered is all there is
    rintro e ⟨rfl, hnil⟩
    refine ⟨rfl, ?_⟩
    rw [← hun, unread_of_laid hl₁, hnil, List.append_nil]
    exact hlt₁
  · rintro ret r₂ ⟨bs, pre₂, post₂, rfl, -, hl₂, hcap₂, hdel, hio₂, hw⟩
    have hun₂ : r₂.unread = r.unread := by
      rw [← hun, unread_of_laid hl₁, unread_of_laid hl₂, hdel, List.append_assoc]
    dsimp only
    rw [meets_bind, meets_get]
    by_cases hdone : castInt buf.length ≤ r₂.rStream.rRemaining
    · rw [if_pos hdone]
      rw [hl₂.rRemaining, hbuf] at hdone
      refine (writeTo_full_meets hl₂ hio₂ (by omega)).bind (fun _ he => he.elim) ?_
      rintro ⟨dst, len⟩ r' ⟨h₁, h₂, h₃, h₄⟩
      exact ⟨rfl, h₁, hun₂ ▸ h₂, h₃, by rw [h₄, hcap₂, hcap₁]⟩
    · rw [if_neg hdone]
      rw [hl₂.rRemaining, hbuf] at hdone
      exact ⟨_, hw hlt₁, rfl, hun₂, hio₂, by rw [hcap₂, hcap₁], _, _, _, hl₂, by omega⟩

/-- **`read_exact`** fills its destination with the next unread bytes, on every
path; it is left waiting only when there are not enough of them. -/
theorem readExact_meets {r : BufReader} (h : r.Sound) (buf : Bytes) :
    Meets (readExact buf) r (Fills buf r)
      (fun e => e = .pending ∧ r.unread.length < buf.length) := by
  obtain ⟨⟨pre, mid, post, hl⟩, hio⟩ := h
  have hcaplen : r.rStream.capacity = pre.length + mid.length + post.length := hl.length
  have hunread := unread_of_laid hl
  unfold readExact
  rw [meets_bind, meets_get]
  by_cases hcap : r.rStream.capacity < buf.length
  · -- the bypass: what is buffered, then straight from the inlet
    rw [if_pos hcap, meets_bind, meets_onStream, hl.writeTo_fst_short (by omega)]
    dsimp only
    rw [List.drop_left, List.take_left]
    refine (onIo_meets (r := ⟨r.io, (r.rStream.writeTo buf).2⟩)
      (Inlet.readExact_meets hio _)).bind ?_ ?_
    · rintro e ⟨rfl, hlen⟩
      refine ⟨rfl, ?_⟩
      rw [hunread, List.length_append]
      rw [List.length_drop] at hlen
      omega
    · rintro ⟨rest, ret⟩ r' ⟨⟨hret, hlen, hdel, hio'⟩, hr'⟩
      dsimp only at hret hlen hdel hr' ⊢
      subst hret
      have hfull : mid.length ≤ buf.length := by omega
      have hl' := hl.writeTo_all hfull
      refine ⟨rfl, ?_, ?_, ⟨⟨_, _, _, hr' ▸ hl'⟩, hio'⟩, ?_⟩
      · rw [List.length_append, hlen, List.length_drop]
        omega
      · rw [hunread, hdel, unread_of_laid (hr' ▸ hl'), List.nil_append, List.append_assoc]
      · rw [hr']
        exact StreamBuffer.length_buf_writeTo _ _
  · rw [if_neg hcap]
    have hbuf : castInt buf.length = buf.length := castInt_of_le (by
      have : r.rStream.capacity ≤ intMax := hl.size
      omega)
    by_cases hr : castInt buf.length ≤ r.rStream.rRemaining
    · rw [if_pos hr]
      rw [hl.rRemaining, hbuf] at hr
      refine (writeTo_full_meets hl hio (by omega)).bind (fun _ he => he.elim) ?_
      rintro ⟨dst, len⟩ r' ⟨h₁, h₂, h₃, h₄⟩
      exact ⟨rfl, h₁, h₂, h₃, h₄⟩
    · rw [if_neg hr]
      rw [hl.rRemaining, hbuf] at hr
      exact readExact_loop_meets hl hio (Nat.le_of_not_lt hcap) (by omega)

/-- What a `read` that returns has done: it handed over a front of the unread bytes. -/
def Hands (buf : Bytes) (r : BufReader) (out : Bytes × Result Nat) (r' : BufReader) : Prop :=
  ∃ n, out.2 = .ok n ∧ n ≤ buf.length ∧ out.1.length = buf.length ∧
    r.unread = out.1.take n ++ r'.unread ∧ r'.Sound ∧
    r'.rStream.capacity = r.rStream.capacity

/-- The loop of `read`, entered with nothing in the buffer, leaves in its first pass:
either something arrived, or nothing was asked for. -/
theorem read_loop_meets {r : BufReader} {pre post : Bytes} (hl : r.rStream.Laid pre [] post)
    (hio : r.io.Flowing) {buf : Bytes} (hcap : buf.length ≤ r.rStream.capacity) :
    Meets (loop .spin (readPass buf) r.passes ()) r (Hands buf r) (fun e => e = .pending) := by
  refine Meets.loop (fun _ (_ : Unit) r₁ => r₁ = r) ?_ (n := 0) rfl (Nat.succ_pos _)
  rintro n ⟨⟩ r₁ rfl
  unfold readPass
  refine (refill_meets hio hl hcap).bind (fun _ he => he.1) ?_
  rintro ret r₂ ⟨bs, pre₂, post₂, rfl, -, hl₂, hcap₂, hdel, hio₂, -⟩
  dsimp only
  rw [meets_bind, meets_get, if_pos]
  · refine (writeTo_meets hl₂ hio₂ buf).bind (fun _ he => he.elim) ?_
    rintro ⟨dst, len⟩ r' ⟨h₀, h₁, h₂, h₃, h₄⟩
    refine ⟨len, rfl, ?_, h₁, ?_, h₃, h₄.trans hcap₂⟩
    · dsimp only at h₀
      omega
    · rw [unread_of_laid hl, hdel, ← h₂, unread_of_laid hl₂, List.append_assoc]
  · cases bs with
    | nil => simp
    | cons b bs =>
      have : ¬ r₂.rStream.empty = true := fun he => by
        have := hl₂.empty_iff.mp he
        simp at this
      simp [this]

/-- **`read`** hands over a front of the unread bytes, on every path, and does not
loop. -/
theorem read_meets {r : BufReader} (h : r.Sound) (buf : Bytes) :
    Meets (read buf) r (Hands buf r) (fun e => e = .pending) := by
  obtain ⟨⟨pre, mid, post, hl⟩, hio⟩ := h
  have hcaplen : r.rStream.capacity = pre.length + mid.length + post.length := hl.length
  have hunread := unread_of_laid hl
  unfold read
  rw [meets_bind, meets_get]
  by_cases hcap : r.rStream.capacity < buf.length
  · -- the bypass asks once, for what the buffer could not fill
    rw [if_pos hcap, meets_bind, meets_onStream, hl.writeTo_fst_short (by omega)]
    dsimp only
    refine (onIo_meets (r := ⟨r.io, (r.rStream.writeTo buf).2⟩)
      (Inlet.read_meets hio _)).bind (fun _ he => he.1) ?_
    rintro ret r' ⟨⟨bs, rfl, hlen, -, hdel, hio', -⟩, hr'⟩
    dsimp only at hdel hr' ⊢
    have hfull : mid.length ≤ buf.length := by omega
    have hl' := hl.writeTo_all hfull
    rw [List.length_append, List.length_drop] at hlen
    refine ⟨bs.length + mid.length, rfl, by omega, ?_, ?_, ⟨⟨_, _, _, hr' ▸ hl'⟩, hio'⟩, ?_⟩
    · rw [length_blit]
      · rw [List.length_append, List.length_drop]
        omega
      · rw [List.length_append, List.length_drop]
        omega
    · rw [hunread, hdel, unread_of_laid (hr' ▸ hl'), List.nil_append, blit_append,
        Nat.add_comm, ← List.length_append, List.take_left, List.append_assoc]
    · rw [hr']
      exact StreamBuffer.length_buf_writeTo _ _
  · rw [if_neg hcap]
    by_cases hempty : r.rStream.empty
    · rw [if_neg (by simpa using hempty)]
      obtain rfl : mid = [] := hl.empty_iff.mp hempty
      exact read_loop_meets hl hio (Nat.le_of_not_lt hcap)
    · rw [if_pos (by simpa using hempty)]
      refine (writeTo_meets hl hio buf).bind (fun _ he => he.elim) ?_
      rintro ⟨dst, len⟩ r' ⟨h₀, h₁, h₂, h₃, h₄⟩
      refine ⟨len, rfl, ?_, h₁, h₂, h₃, h₄⟩
      dsimp only at h₀
      omega

end BufReader

end Uvio.Io
