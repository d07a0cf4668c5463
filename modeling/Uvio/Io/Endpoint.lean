import Uvio.Common.Result

/-!
# The underlying `IO`

`BufReader<IO>` and `BufWriter<IO>` call `io_.read`, `io_.read_exact` and
`io_.write`. What these do on a socket is decided outside the program, so the two
ends are schedules:

- `Inlet`: the read events still to come. A read waits for the next one and gets
  at most what it asked for; what a chunk holds beyond that stays for the next
  read. An exhausted schedule leaves the reader suspended. Any run of reads that
  return between 1 and the requested number of bytes is the run on some schedule
  of non-empty chunks, namely that of the pieces it returned.
- `Outlet`: the fate of each write to come and the bytes taken so far.

`TcpStream::read_exact` is the one function of the socket that is program code.
-/

namespace Uvio.Io

open Program

/-! ## The reading end -/

/-- What one read of the socket meets: bytes (none of them for libuv's
`nread == 0`), or an error. -/
inductive ReadEvent where
  | data (bs : Bytes)
  | fail (e : Error)
deriving DecidableEq, Repr

/-- The bytes an event carries. -/
def ReadEvent.payload : ReadEvent → Bytes
  | .data bs => bs
  | .fail _ => []

/-- The reading end of a socket: the events still to come. -/
structure Inlet where
  events : List ReadEvent
deriving DecidableEq, Repr

namespace Inlet

/-- A connection that delivers the given chunks and then nothing. -/
def ofChunks (chunks : List Bytes) : Inlet := ⟨chunks.map .data⟩

/-- The bytes still to be delivered. -/
def undelivered (s : Inlet) : Bytes := s.events.flatMap ReadEvent.payload

/-- A bound on the reads of at least one byte the schedule can answer. -/
def weight (s : Inlet) : Nat := (s.events.map fun ev => ev.payload.length + 1).sum

/-- `io_.read(buf)` with a span of `n` bytes: the bytes put at its front. -/
def read (n : Nat) : Task Inlet (Result Bytes) := fun s =>
  match s.events with
  | [] => .error .pending
  | .fail e :: rest => .ok (.error e, ⟨rest⟩)
  | .data bs :: rest =>
    if bs.length ≤ n then .ok (.ok bs, ⟨rest⟩)
    else .ok (.ok (bs.take n), ⟨.data (bs.drop n) :: rest⟩)

/-- One pass of `TcpStream::read_exact`; the loop variables are the part of the
destination already filled and the span still to fill. -/
def readExactPass : Bytes × Bytes → Task Inlet (Pass (Bytes × Bytes) (Bytes × Result Unit))
  | (done, rest) =>
    if rest.isEmpty then pure (.leave (done, .ok ()))
    else do
      match ← read rest.length with
      | .error e => pure (.leave (done ++ rest, .error e))
      | .ok bs =>
        if bs.length == 0 then pure (.leave (done ++ rest, .error .unexpectedEOF))
        else pure (.again (done ++ bs, rest.drop bs.length))

/-- `TcpStream::read_exact(buf)`: the destination afterwards and the result.
Every pass that goes round fills a byte, which bounds the passes. -/
def readExact (buf : Bytes) : Task Inlet (Bytes × Result Unit) :=
  loop .spin readExactPass (buf.length + 1) ([], buf)

/-- No read fails and every read gets something: the events are non-empty chunks. -/
def Flowing (s : Inlet) : Prop := ∀ ev ∈ s.events, ∃ bs, ev = .data bs ∧ bs ≠ []

theorem flowing_ofChunks {chunks : List Bytes} (h : ∀ c ∈ chunks, c ≠ []) :
    (ofChunks chunks).Flowing := by
  intro ev hev
  obtain ⟨bs, hbs, rfl⟩ := List.mem_map.mp hev
  exact ⟨bs, rfl, h bs hbs⟩

@[simp] theorem undelivered_ofChunks (chunks : List Bytes) :
    (ofChunks chunks).undelivered = chunks.flatten := by
  show (chunks.map ReadEvent.data).flatMap ReadEvent.payload = _
  rw [List.flatMap_map, ← List.flatMap_id']
  rfl

@[simp] theorem undelivered_data (bs : Bytes) (rest : List ReadEvent) :
    (⟨.data bs :: rest⟩ : Inlet).undelivered = bs ++ (⟨rest⟩ : Inlet).undelivered := rfl

theorem weight_data (bs : Bytes) (rest : List ReadEvent) :
    (⟨.data bs :: rest⟩ : Inlet).weight = bs.length + 1 + (⟨rest⟩ : Inlet).weight := rfl

/-- A flowing inlet is either used up or has a non-empty chunk in front. -/
theorem Flowing.cases {s : Inlet} (h : s.Flowing) :
    s = ⟨[]⟩ ∨ ∃ bs rest, s = ⟨.data bs :: rest⟩ ∧ bs ≠ [] ∧ (⟨rest⟩ : Inlet).Flowing := by
  obtain ⟨events⟩ := s
  cases events with
  | nil => exact Or.inl rfl
  | cons ev rest =>
    obtain ⟨bs, rfl, hbs⟩ := h ev List.mem_cons_self
    exact Or.inr ⟨bs, rest, rfl, hbs, fun ev' hev' => h ev' (List.mem_cons_of_mem _ hev')⟩

/-- **What a read of a flowing inlet does**: it returns at most `n` of the
undelivered bytes, in order, and at least one if it asked for any; it is left
waiting only when nothing is left to deliver. -/
theorem read_meets {s : Inlet} (h : s.Flowing) (n : Nat) :
    Meets (read n) s
      (fun r s' => ∃ bs, r = .ok bs ∧ bs.length ≤ n ∧ (0 < n → bs ≠ []) ∧
        s.undelivered = bs ++ s'.undelivered ∧ s'.Flowing ∧ (0 < n → s'.weight < s.weight))
      (fun e => e = .pending ∧ s.undelivered = []) := by
  obtain rfl | ⟨bs, rest, rfl, hbs, hrest⟩ := h.cases
  · exact ⟨rfl, rfl⟩
  · by_cases hlen : bs.length ≤ n
    · have hrun : (read n).run ⟨.data bs :: rest⟩ = .ok (.ok bs, ⟨rest⟩) := if_pos hlen
      refine (meets_of_ok hrun).mpr ⟨bs, rfl, hlen, fun _ => hbs, rfl, hrest, fun _ => ?_⟩
      rw [weight_data]
      omega
    · have hrun : (read n).run ⟨.data bs :: rest⟩
          = .ok (.ok (bs.take n), ⟨.data (bs.drop n) :: rest⟩) := if_neg hlen
      refine (meets_of_ok hrun).mpr ⟨bs.take n, rfl, ?_, ?_, ?_, ?_, ?_⟩
      · exact List.length_take_le n bs
      · intro hn htake
        have := congrArg List.length htake
        rw [List.length_take, List.length_nil] at this
        omega
      · rw [undelivered_data, undelivered_data, ← List.append_assoc, List.take_append_drop]
      · intro ev hev
        rcases List.mem_cons.mp hev with rfl | hev
        · refine ⟨bs.drop n, rfl, fun hdrop => ?_⟩
          exact hlen (List.drop_eq_nil_iff.mp hdrop)
        · exact hrest ev hev
      · intro hn
        rw [weight_data, weight_data, List.length_drop]
        omega

/-- **`TcpStream::read_exact` on a flowing inlet** fills its destination with the
next bytes; it is left waiting only when there are not enough of them. -/
theorem readExact_meets {s : Inlet} (h : s.Flowing) (buf : Bytes) :
    Meets (readExact buf) s
      (fun r s' => r.2 = .ok () ∧ r.1.length = buf.length ∧
        s.undelivered = r.1 ++ s'.undelivered ∧ s'.Flowing)
      (fun e => e = .pending ∧ s.undelivered.length < buf.length) := by
  -- the variant is the length of the span still to fill
  refine Meets.loop
    (fun n (p : Bytes × Bytes) s' => n = p.2.length ∧ p.1.length + p.2.length = buf.length ∧
      s.undelivered = p.1 ++ s'.undelivered ∧ s'.Flowing) ?_
    ⟨rfl, by simp, rfl, h⟩ (Nat.lt_succ_self _)
  rintro n ⟨done, rest⟩ s' ⟨rfl, hlen, hund, hs'⟩
  dsimp only at hlen hund
  unfold readExactPass
  cases rest with
  | nil => exact ⟨rfl, by simpa using hlen, hund, hs'⟩
  | cons b rest =>
    refine (read_meets hs' _).bind ?_ ?_
    · rintro e ⟨he, hnil⟩
      refine ⟨he, ?_⟩
      rw [hund, hnil, List.append_nil]
      simp only [List.length_cons] at hlen ⊢
      omega
    · rintro r s'' ⟨bs, rfl, hbs, hne, hdel, hs'', -⟩
      have hne' : bs ≠ [] := hne (Nat.succ_pos _)
      have hpos : 0 < bs.length := List.length_pos_iff.mpr hne'
      dsimp only
      rw [if_neg (by simpa using hne')]
      refine ⟨(b :: rest).length - bs.length, Nat.sub_lt (Nat.succ_pos _) hpos, ?_, ?_, ?_, hs''⟩
      · exact (List.length_drop ..).symm
      · simp only [List.length_append, List.length_drop]
        omega
      · rw [hund, hdel, ← List.append_assoc]

end Inlet

/-! ## The writing end -/

/-- The fate of one `io_.write(buf)`: all of `buf` taken, at most `n` bytes of it
taken, or a failure that takes nothing. -/
inductive WriteEvent where
  | all
  | upTo (n : Nat)
  | fail (e : Error)
deriving DecidableEq, Repr

/-- The writing end of a socket: what it took, how many writes there were, and
what happens to each. -/
structure Outlet where
  taken : Bytes
  calls : Nat
  plan : Nat → WriteEvent

namespace Outlet

/-- A socket that takes every write. -/
def steady : Outlet := ⟨[], 0, fun _ => .all⟩

/-- `io_.write(buf)`: the number of bytes taken. A `TcpStream` reports a write
that took nothing as `WriteZero`. -/
def write (buf : Bytes) : Task Outlet (Result Nat) := fun s =>
  let s' := { s with calls := s.calls + 1 }
  match s.plan s.calls with
  | .all =>
    if buf.isEmpty then .ok (.error .writeZero, s')
    else .ok (.ok buf.length, { s' with taken := s.taken ++ buf })
  | .upTo n => .ok (.ok (min n buf.length), { s' with taken := s.taken ++ buf.take n })
  | .fail e => .ok (.error e, s')

/-- Every write takes all its bytes or fails. -/
def AllOrNothing (s : Outlet) : Prop := ∀ i, s.plan i = .all ∨ ∃ e, s.plan i = .fail e

/-- No write fails. -/
def Willing (s : Outlet) : Prop := ∀ i, s.plan i = .all

theorem willing_steady : steady.Willing := fun _ => rfl

/-- What an outlet may do is in its plan. -/
theorem AllOrNothing.of_plan {s s' : Outlet} (h : s.AllOrNothing) (hplan : s'.plan = s.plan) :
    s'.AllOrNothing := fun i => hplan ▸ h i

theorem Willing.of_plan {s s' : Outlet} (h : s.Willing) (hplan : s'.plan = s.plan) :
    s'.Willing := fun i => hplan ▸ h i

/-- **What a write to an all-or-nothing outlet does**. -/
theorem write_meets {s : Outlet} (h : s.AllOrNothing) {buf : Bytes} (hbuf : buf ≠ []) :
    Meets (write buf) s
      (fun r s' => s'.plan = s.plan ∧
        ((r = .ok buf.length ∧ s'.taken = s.taken ++ buf) ∨
          (∃ e, r = .error e) ∧ s'.taken = s.taken ∧ ¬ s.Willing))
      (fun _ => False) := by
  rcases h s.calls with hplan | ⟨e, hplan⟩
  · have hrun : (write buf).run s = .ok (.ok buf.length,
        { s with calls := s.calls + 1, taken := s.taken ++ buf }) := by
      simp only [write, StateT.run, hplan]
      rw [if_neg (by simpa using hbuf)]
    exact (meets_of_ok hrun).mpr ⟨rfl, Or.inl ⟨rfl, rfl⟩⟩
  · have hrun : (write buf).run s = .ok (.error e, { s with calls := s.calls + 1 }) := by
      simp only [write, StateT.run, hplan]
    refine (meets_of_ok hrun).mpr ⟨rfl, Or.inr ⟨⟨e, rfl⟩, rfl, fun hw => ?_⟩⟩
    rw [hw s.calls] at hplan
    cases hplan

end Outlet

end Uvio.Io
