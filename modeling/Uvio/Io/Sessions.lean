import Uvio.Io.BufReader
import Uvio.Io.BufWriter

/-!
# Runs of calls on a buffered reader and on a buffered writer

The specifications of single calls, carried along any sequence of calls.

- `BufReader.session_conserves`: whatever was handed to callers, what is in the
  buffer and what the inlet still holds make up the original stream, in order.
- `BufWriter.session_accounts`: `out` grows by the argument of each write that
  succeeds and by nothing else, through any mix of routes, failures and retries.
-/

namespace Uvio.Io

open Program

/-! ## Reading -/

/-- A call on the reader, with its destination. -/
inductive ReadCall where
  | read (buf : Bytes)
  | readExact (buf : Bytes)
deriving DecidableEq, Repr

/-- The bytes a call hands to its caller: nothing if it failed. -/
def ReadCall.run : ReadCall → Task BufReader Bytes
  | .read buf => do
    let (dst, ret) ← BufReader.read buf
    match ret with
    | .ok n => pure (dst.take n)
    | .error _ => pure []
  | .readExact buf => do
    let (dst, ret) ← BufReader.readExact buf
    match ret with
    | .ok () => pure dst
    | .error _ => pure []

namespace BufReader

/-- A sequence of calls: what each of them handed over. -/
def session : List ReadCall → Task BufReader (List Bytes)
  | [] => pure []
  | c :: cs => do
    let handed ← c.run
    let rest ← session cs
    pure (handed :: rest)

/-- One call hands over a front of the unread bytes. -/
theorem call_meets {r : BufReader} (h : r.Sound) (c : ReadCall) :
    Meets c.run r (fun handed r' => r.unread = handed ++ r'.unread ∧ r'.Sound)
      (fun e => e = .pending) := by
  cases c with
  | read buf =>
    refine (read_meets h buf).bind (fun _ he => he) ?_
    rintro ⟨dst, ret⟩ r' ⟨n, hret, -, -, hun, hs, -⟩
    dsimp only at hret
    subst hret
    exact ⟨hun, hs⟩
  | readExact buf =>
    refine (readExact_meets h buf).bind (fun _ he => he.1) ?_
    rintro ⟨dst, ret⟩ r' ⟨hret, -, hun, hs, -⟩
    dsimp only at hret
    subst hret
    exact ⟨hun, hs⟩

/-- Along a run, what was handed over and what is unread make up the stream. -/
theorem session_meets {r : BufReader} (h : r.Sound) (calls : List ReadCall) :
    Meets (session calls) r (fun handed r' => r.unread = handed.flatten ++ r'.unread ∧ r'.Sound)
      (fun e => e = .pending) := by
  induction calls generalizing r with
  | nil => exact ⟨rfl, h⟩
  | cons c cs ih =>
    refine (call_meets h c).bind (fun _ he => he) ?_
    rintro handed r₁ ⟨hun₁, hs₁⟩
    refine (ih hs₁).bind (fun _ he => he) ?_
    rintro rest r₂ ⟨hun₂, hs₂⟩
    -- what this call handed over stands in front of what the others did
    refine ⟨?_, hs₂⟩
    rw [hun₁, hun₂, List.flatten_cons, List.append_assoc]

/-- **Nothing is lost, duplicated or reordered** by any sequence of `read` and
`read_exact` calls on a fresh reader, and the positions stay in bounds. A call
that does not come back is waiting for the inlet. -/
theorem session_conserves (calls : List ReadCall) (size : Nat) (io : Inlet)
    (hsize : size ≤ intMax) (hio : io.Flowing) :
    Meets (session calls) (new io size)
      (fun handed r => handed.flatten ++ (r.rStream.rSlice ++ r.io.undelivered) = io.undelivered ∧
        r.rStream.Bounded)
      (fun e => e = .pending) := by
  refine (session_meets (sound_new hio hsize) calls).mono ?_ fun _ he => he
  rintro handed r ⟨hun, ⟨pre, mid, post, hl⟩, -⟩
  rw [unread_new hsize] at hun
  exact ⟨hun.symm, hl.bounded⟩

/-- A read through the bypass, one from the buffer and one across two chunks. -/
theorem session_conserves_mixed :
    Meets (session [.read [0, 0, 0, 0, 0], .readExact [0], .readExact [0, 0, 0]])
      (new (Inlet.ofChunks [[1, 2], [3, 4, 5], [6, 7]]) 3)
      (fun handed r => handed.flatten ++ (r.rStream.rSlice ++ r.io.undelivered)
          = (Inlet.ofChunks [[1, 2], [3, 4, 5], [6, 7]]).undelivered ∧ r.rStream.Bounded)
      (fun e => e = .pending) :=
  session_conserves _ 3 _ (by decide) (Inlet.flowing_ofChunks (by decide))

end BufReader

/-! ## Writing -/

/-- A call on the writer. -/
inductive WriteCall where
  | write (buf : Bytes)
  | writeAll (buf : Bytes)
  | flush
deriving DecidableEq, Repr

/-- The bytes a call is given. -/
def WriteCall.buf : WriteCall → Bytes
  | .write buf => buf
  | .writeAll buf => buf
  | .flush => []

/-- The outcome of a call, without the count. -/
def WriteCall.run : WriteCall → Task BufWriter (Result Unit)
  | .write buf => do
    match ← BufWriter.write buf with
    | .ok _ => pure (.ok ())
    | .error e => pure (.error e)
  | .writeAll buf => BufWriter.writeAll buf
  | .flush => BufWriter.flush

namespace BufWriter

/-- A completed call: the writer before and after it. -/
structure WriteStep where
  before : BufWriter
  call : WriteCall
  ret : Result Unit
  after : BufWriter

/-- A sequence of calls, each with what it did. -/
def session : List WriteCall → Task BufWriter (List WriteStep)
  | [] => pure []
  | c :: cs => do
    let before ← get
    let ret ← c.run
    let after ← get
    let rest ← session cs
    pure (⟨before, c, ret, after⟩ :: rest)

/-- What a `write(buf)` with result `ret` may do to `out`. -/
def Appends {α : Type} (buf : Bytes) (ret : Result α) (w w' : BufWriter) : Prop :=
  match ret with
  | .ok _ => w'.out = w.out ++ buf
  | .error _ => w'.out = w.out

/-- What a `flush()` with result `ret` may do to `out`, and what it leaves buffered. -/
def Flushes (ret : Result Unit) (w w' : BufWriter) : Prop :=
  w'.out = w.out ∧ (ret = .ok () → w'.wStream.rSlice = [])

/-- Each write of a call appends its argument or nothing, each flush nothing; a
`write_all` is a write and, if that succeeds, a flush. -/
def WriteStep.Accounted (s : WriteStep) : Prop :=
  match s.call with
  | .write buf => Appends buf s.ret s.before s.after
  | .flush => Flushes s.ret s.before s.after
  | .writeAll buf => ∃ ret w, (write buf).run s.before = .ok (ret, w) ∧
      Appends buf ret s.before w ∧
      match ret with
      | .error e => s.ret = .error e ∧ s.after = w
      | .ok _ => flush.run w = .ok (s.ret, s.after) ∧ Flushes s.ret w s.after

theorem write_appends {w : BufWriter} (h : w.Sound) {buf : Bytes} (hbuf : buf.length ≤ intMax) :
    Meets (write buf) w (fun ret w' => w'.Sound ∧ Appends buf ret w w') fun _ => False := by
  refine (write_meets h hbuf).mono ?_ fun _ he => he
  rintro ret w' ⟨hs, -, -, ⟨⟨n, rfl⟩, hout⟩ | ⟨⟨e, rfl⟩, hout, -⟩⟩
  · exact ⟨hs, hout⟩
  · exact ⟨hs, hout⟩

theorem flush_flushes {w : BufWriter} (h : w.Sound) :
    Meets flush w (fun ret w' => w'.Sound ∧ Flushes ret w w') fun _ => False := by
  refine (flush_meets h).mono ?_ fun _ he => he
  rintro ret w' ⟨hs, -, hout, ⟨-, hempty⟩ | ⟨⟨e, rfl⟩, -⟩⟩
  · exact ⟨hs, hout, fun _ => hempty⟩
  · exact ⟨hs, hout, fun hok => nomatch hok⟩

/-- One call does to `out` what its result says. -/
theorem call_meets {w : BufWriter} (h : w.Sound) {c : WriteCall} (hc : c.buf.length ≤ intMax) :
    Meets c.run w (fun ret w' => w'.Sound ∧ (⟨w, c, ret, w'⟩ : WriteStep).Accounted)
      fun _ => False := by
  cases c with
  | write buf =>
    refine (write_appends h hc).bind (fun _ he => he) ?_
    rintro (e | n) w' ⟨hs, happ⟩
    · exact ⟨hs, happ⟩
    · exact ⟨hs, happ⟩
  | flush =>
    exact flush_flushes h
  | writeAll buf =>
    change buf.length ≤ intMax at hc
    obtain ⟨ret, w₁, hrun, hs₁, happ⟩ := (write_appends h hc).returns
    show Meets (writeAll buf) w _ _
    unfold writeAll
    rw [meets_bind, meets_of_ok hrun]
    -- the flush only runs if the write succeeded
    cases ret with
    | error e => exact ⟨hs₁, _, _, hrun, happ, rfl, rfl⟩
    | ok n =>
      obtain ⟨ret₂, w₂, hrun₂, hs₂, hfl⟩ := (flush_flushes hs₁).returns
      dsimp only
      rw [meets_bind, meets_of_ok hrun₂]
      cases ret₂ with
      | error e => exact ⟨hs₂, _, _, hrun, happ, hrun₂, hfl⟩
      | ok u => exact ⟨hs₂, _, _, hrun, happ, hrun₂, hfl⟩

/-- Along a run, every call does to `out` what its result says. -/
theorem session_meets {w : BufWriter} (h : w.Sound) (calls : List WriteCall)
    (hcalls : ∀ c ∈ calls, c.buf.length ≤ intMax) :
    Meets (session calls) w
      (fun steps _ => steps.map (·.call) = calls ∧ ∀ s ∈ steps, s.Accounted)
      fun _ => False := by
  induction calls generalizing w with
  | nil => exact ⟨rfl, fun s hs => nomatch hs⟩
  | cons c cs ih =>
    unfold session
    rw [meets_bind, meets_get]
    refine (call_meets h (hcalls c List.mem_cons_self)).bind (fun _ he => he) ?_
    rintro ret w₁ ⟨hs₁, hacc⟩
    rw [meets_bind, meets_get]
    refine (ih hs₁ fun c' hc' => hcalls c' (List.mem_cons_of_mem _ hc')).bind (fun _ he => he) ?_
    rintro steps w₂ ⟨hmap, hall⟩
    refine ⟨congrArg (c :: ·) hmap, fun s hs => ?_⟩
    rcases List.mem_cons.mp hs with rfl | hs
    · exact hacc
    · exact hall s hs

/-- **`out` accounts for every write**: any run of calls on a fresh writer, over an
outlet that takes each write whole or fails it, completes, and each of its calls
does to `out` exactly what its result says. -/
theorem session_accounts (calls : List WriteCall) (size : Nat) (io : Outlet)
    (hsize : size ≤ intMax) (hio : io.AllOrNothing)
    (hcalls : ∀ c ∈ calls, c.buf.length < 2 ^ 31) :
    Meets (session calls) (new io size)
      (fun steps _ => steps.map (·.call) = calls ∧ ∀ s ∈ steps, s.Accounted)
      (fun _ => False) :=
  session_meets (sound_new hio hsize) calls fun c hc => Nat.le_pred_of_lt (hcalls c hc)

/-- A write that is buffered, one that fails after the drain, its retry, a flush. -/
theorem session_accounts_retry :
    Meets (session [.write [1], .write [2, 3, 4], .write [2, 3, 4], .flush])
      (new ⟨[], 0, fun i => if i = 1 then .fail .unclassified else .all⟩ 2)
      (fun steps _ => steps.map (·.call)
          = [.write [1], .write [2, 3, 4], .write [2, 3, 4], .flush] ∧
        ∀ s ∈ steps, s.Accounted)
      (fun _ => False) :=
  session_accounts _ 2 _ (by decide)
    (fun i => by
      dsimp only
      split
      · exact Or.inr ⟨_, rfl⟩
      · exact Or.inl rfl)
    (by decide)

end BufWriter

end Uvio.Io
