import Uvio.Io.Endpoint

/-!
# Reads of any schedule

What the reads of an `Inlet` do if they may fail, or get nothing, at any point.

- `read_any`: one read takes a front of the undelivered bytes, or fails and takes
  nothing.
- `run_readExact`: `TcpStream::read_exact` does what `exactly` says of the events to
  come. It gives up at the first failure, and at the first read that gets nothing
  (`exactly_error_iff`).
-/

namespace Uvio.Io

open Program

namespace Inlet

/-- **One read of any schedule**: bytes that were to come next, or a failure. -/
theorem read_any (s : Inlet) (n : Nat) :
    Meets (read n) s
      (fun r s' => (∃ bs, r = .ok bs ∧ bs.length ≤ n ∧ s.undelivered = bs ++ s'.undelivered) ∨
        (∃ e, r = .error e) ∧ s'.undelivered = s.undelivered)
      (fun e => e = .pending) := by
  obtain ⟨events⟩ := s
  cases events with
  | nil => exact rfl
  | cons ev rest =>
    cases ev with
    | fail e => exact Or.inr ⟨⟨e, rfl⟩, rfl⟩
    | data bs =>
      by_cases hlen : bs.length ≤ n
      · have hrun : (read n).run ⟨.data bs :: rest⟩ = .ok (.ok bs, ⟨rest⟩) := if_pos hlen
        exact (meets_of_ok hrun).mpr (Or.inl ⟨bs, rfl, hlen, rfl⟩)
      · have hrun : (read n).run ⟨.data bs :: rest⟩
            = .ok (.ok (bs.take n), ⟨.data (bs.drop n) :: rest⟩) := if_neg hlen
        refine (meets_of_ok hrun).mpr (Or.inl ⟨bs.take n, rfl, List.length_take_le n bs, ?_⟩)
        rw [undelivered_data, undelivered_data, ← List.append_assoc, List.take_append_drop]

/-- A read fails if the next event is a failure. -/
theorem run_read_error_iff {s s' : Inlet} {n : Nat} {e : Error} :
    (read n).run s = .ok (.error e, s') ↔ s.events = .fail e :: s'.events := by
  obtain ⟨events⟩ := s
  obtain ⟨left⟩ := s'
  cases events with
  | nil =>
    constructor
    · intro h
      cases h
    · intro h
      cases h
  | cons ev rest =>
    cases ev with
    | fail e' =>
      constructor
      · intro h
        cases h
        rfl
      · intro h
        cases h
        rfl
    | data bs =>
      constructor
      · intro h
        by_cases hlen : bs.length ≤ n
        · rw [show (read n).run ⟨.data bs :: rest⟩ = .ok (.ok bs, ⟨rest⟩) from if_pos hlen] at h
          cases h
        · rw [show (read n).run ⟨.data bs :: rest⟩
            = .ok (.ok (bs.take n), ⟨.data (bs.drop n) :: rest⟩) from if_neg hlen] at h
          cases h
      · intro h
        cases h

/-! ## `read_exact` as a function of the events -/

/-- What a read of exactly `n` bytes gets from the events, whether it succeeds, and
the events it leaves. -/
def exactly : Nat → List ReadEvent → Except Stop ((Bytes × Result Unit) × List ReadEvent)
  | 0, events => .ok (([], .ok ()), events)
  | _ + 1, [] => .error .pending
  | _ + 1, .fail e :: rest => .ok (([], .error e), rest)
  | n + 1, .data bs :: rest =>
    if bs = [] then .ok (([], .error .unexpectedEOF), rest)
    else if n + 1 < bs.length then .ok ((bs.take (n + 1), .ok ()), .data (bs.drop (n + 1)) :: rest)
    else (exactly (n + 1 - bs.length) rest).map fun p => ((bs ++ p.1.1, p.1.2), p.2)

/-- The destination and the source after `exactly` reported. -/
def exactlyDone (done rest : Bytes) (p : (Bytes × Result Unit) × List ReadEvent) :
    (Bytes × Result Unit) × Inlet :=
  ((done ++ p.1.1 ++ rest.drop p.1.1.length, p.1.2), ⟨p.2⟩)

/-- A pass that gets something goes round. -/
theorem run_readExactPass {done rest bs : Bytes} {s s' : Inlet} (hrest : rest ≠ [])
    (hbs : bs ≠ []) (h : (read rest.length).run s = .ok (.ok bs, s')) :
    (readExactPass (done, rest)).run s
      = .ok (.again (done ++ bs, rest.drop bs.length), s') := by
  have hlen : (bs.length == 0) = false := by simpa using hbs
  unfold readExactPass
  dsimp only
  rw [if_neg (by simpa using hrest), Prog.run_bind_of_ok h]
  dsimp only
  rw [hlen]
  rfl

theorem run_readExact_loop {fuel : Nat} {done rest : Bytes} {s : Inlet}
    (h : rest.length < fuel) :
    (loop .spin readExactPass fuel (done, rest)).run s
      = (exactly rest.length s.events).map (exactlyDone done rest) := by
  induction fuel generalizing done rest s with
  | zero => exact absurd h (Nat.not_lt_zero _)
  | succ fuel ih =>
    cases rest with
    | nil =>
      have hpass : (readExactPass (done, [])).run s = .ok (.leave (done, .ok ()), s) := rfl
      rw [run_loop_leave hpass]
      simp [exactly, exactlyDone, Except.map]
    | cons b rest =>
      rw [List.length_cons] at h
      obtain ⟨events⟩ := s
      cases events with
      | nil => exact Prog.run_bind_of_error rfl
      | cons ev events =>
        cases ev with
        | fail e =>
          have hpass : (readExactPass (done, b :: rest)).run (⟨.fail e :: events⟩ : Inlet)
              = .ok (.leave (done ++ b :: rest, .error e), ⟨events⟩) := rfl
          rw [run_loop_leave hpass]
          simp [exactly, exactlyDone, Except.map]
        | data bs =>
          by_cases hbs : bs = []
          · subst hbs
            have hpass : (readExactPass (done, b :: rest)).run (⟨.data [] :: events⟩ : Inlet)
                = .ok (.leave (done ++ b :: rest, .error .unexpectedEOF), ⟨events⟩) := rfl
            rw [run_loop_leave hpass]
            simp [exactly, exactlyDone, Except.map]
          · by_cases hlt : rest.length + 1 < bs.length
            · -- the chunk holds more than what is missing
              have hread : (read (b :: rest).length).run ⟨.data bs :: events⟩
                  = .ok (.ok (bs.take (rest.length + 1)),
                    ⟨.data (bs.drop (rest.length + 1)) :: events⟩) := if_neg (by simpa using hlt)
              have htake : (bs.take (rest.length + 1)).length = rest.length + 1 :=
                List.length_take_of_le (Nat.le_of_lt hlt)
              have hne : bs.take (rest.length + 1) ≠ [] := by
                rw [← List.length_pos_iff, htake]
                omega
              rw [run_loop_again (run_readExactPass (List.cons_ne_nil b rest) hne hread), htake,
                List.drop_eq_nil_of_le (by simp), ih (by rw [List.length_nil]; omega)]
              simp [exactly, exactlyDone, Except.map, hbs, hlt, Nat.le_of_lt hlt]
            · have hread : (read (b :: rest).length).run ⟨.data bs :: events⟩
                  = .ok (.ok bs, ⟨events⟩) :=
                if_pos (by rw [List.length_cons]; omega)
              have hpos := List.length_pos_iff.mpr hbs
              have hrest : ((b :: rest).drop bs.length).length = rest.length + 1 - bs.length := by
                rw [List.length_drop, List.length_cons]
              rw [run_loop_again (run_readExactPass (List.cons_ne_nil b rest) hbs hread),
                ih (by rw [hrest]; omega), hrest]
              simp only [exactly, List.length_cons, hbs, hlt, if_false]
              cases exactly (rest.length + 1 - bs.length) events with
              | error e => rfl
              | ok p => simp [exactlyDone, Except.map, List.drop_drop]

/-- **`TcpStream::read_exact`** does what `exactly` says of the events. -/
theorem run_readExact (buf : Bytes) (s : Inlet) :
    (readExact buf).run s = (exactly buf.length s.events).map (exactlyDone [] buf) :=
  run_readExact_loop (Nat.lt_succ_self _)

/-! ## What comes before the bytes -/

/-- The event `ev` comes before `n` bytes have come, and before any failure. -/
def Before (n : Nat) (ev : ReadEvent) (events : List ReadEvent) : Prop :=
  ∃ (front : List Bytes) (rest : List ReadEvent),
    events = front.map .data ++ ev :: rest ∧ front.flatten.length < n

section Before

variable {n : Nat} {ev : ReadEvent} {bs : Bytes} {e : Error} {events rest : List ReadEvent}

@[simp] theorem not_before_zero : ¬ Before 0 ev events := by
  rintro ⟨front, rest, -, hlt⟩
  exact Nat.not_lt_zero _ hlt

@[simp] theorem not_before_nil : ¬ Before n ev [] := by
  rintro ⟨front, rest, hnil, -⟩
  exact List.cons_ne_nil _ _ (List.append_eq_nil_iff.mp hnil.symm).2

@[simp] theorem before_fail : Before (n + 1) ev (.fail e :: rest) ↔ ev = .fail e := by
  constructor
  · rintro ⟨front, rest', heq, -⟩
    cases front with
    | nil =>
      cases heq
      rfl
    | cons c front => cases heq
  · rintro rfl
    exact ⟨[], rest, rfl, Nat.succ_pos n⟩

theorem before_data : Before (n + 1) ev (.data bs :: rest) ↔
    ev = .data bs ∨ Before (n + 1 - bs.length) ev rest := by
  constructor
  · rintro ⟨front, rest', heq, hlt⟩
    cases front with
    | nil =>
      cases heq
      exact Or.inl rfl
    | cons c front =>
      cases heq
      rw [List.flatten_cons, List.length_append] at hlt
      exact Or.inr ⟨front, rest', rfl, by omega⟩
  · rintro (rfl | ⟨front, rest', rfl, hlt⟩)
    · exact ⟨[], rest, rfl, Nat.succ_pos n⟩
    · refine ⟨bs :: front, rest', rfl, ?_⟩
      rw [List.flatten_cons, List.length_append]
      omega

/-- No failure, and no read that gets nothing, comes before `n` bytes. -/
def Delivers (n : Nat) (events : List ReadEvent) : Prop :=
  ∀ ev, ev.payload = [] → ¬ Before n ev events

@[simp] theorem delivers_zero : Delivers 0 events := fun _ _ => not_before_zero

@[simp] theorem delivers_nil : Delivers n [] := fun _ _ => not_before_nil

@[simp] theorem not_delivers_fail : ¬ Delivers (n + 1) (.fail e :: rest) := fun h =>
  h (.fail e) rfl (before_fail.mpr rfl)

theorem delivers_data : Delivers (n + 1) (.data bs :: rest) ↔
    bs ≠ [] ∧ Delivers (n + 1 - bs.length) rest := by
  constructor
  · intro h
    exact ⟨fun hbs => h (.data bs) hbs (before_data.mpr (Or.inl rfl)),
      fun ev hev hb => h ev hev (before_data.mpr (Or.inr hb))⟩
  · rintro ⟨hbs, h⟩ ev hev hb
    rcases before_data.mp hb with rfl | hb
    · exact hbs hev
    · exact h ev hev hb

end Before

/-! ## When `read_exact` fails, and what it has taken then -/

/-- The next read fails. -/
def FailsNext (s : Inlet) : Prop := ∃ e rest, s.events = .fail e :: rest

/-- The next read fails or gets nothing. -/
def BringsNothing (s : Inlet) : Prop := ∃ ev rest, s.events = ev :: rest ∧ ev.payload = []

/-- It fails exactly if the source does not deliver. -/
theorem exactly_error_iff {n : Nat} {events : List ReadEvent} :
    (∃ bs e left, exactly n events = .ok ((bs, .error e), left)) ↔ ¬ Delivers n events := by
  fun_induction exactly n events with
  | case1 events => simp
  | case2 n => simp
  | case3 n e rest => simp
  | case4 n rest => simp [delivers_data]
  | case5 n bs rest hbs hlt =>
    have : n + 1 - bs.length = 0 := by omega
    simp [delivers_data, hbs, this]
  | case6 n bs rest hbs hlt ih =>
    rw [delivers_data, not_and, ← ih]
    cases exactly (n + 1 - bs.length) rest with
    | error e => simp [Except.map, hbs]
    | ok p => simp [Except.map, hbs, Prod.ext_iff]

theorem exactly_undelivered {n : Nat} {events left : List ReadEvent} {bs : Bytes}
    {ret : Result Unit} (h : exactly n events = .ok ((bs, ret), left)) :
    (⟨events⟩ : Inlet).undelivered = bs ++ (⟨left⟩ : Inlet).undelivered := by
  fun_induction exactly n events generalizing bs with
  | case1 events =>
    cases h
    rfl
  | case2 n => cases h
  | case3 n e rest =>
    cases h
    rfl
  | case4 n rest =>
    cases h
    rfl
  | case5 n cs rest hcs hlt =>
    cases h
    rw [undelivered_data, undelivered_data, ← List.append_assoc, List.take_append_drop]
  | case6 n cs rest hcs hlt ih =>
    obtain ⟨⟨⟨ds, ret'⟩, left'⟩, hrest, hds⟩ := map_eq_ok_iff.mp h
    cases hds
    rw [undelivered_data, ih hrest, List.append_assoc]

/-- If it succeeds it has got all of the `n` bytes. -/
theorem exactly_length {n : Nat} {events left : List ReadEvent} {bs : Bytes}
    (h : exactly n events = .ok ((bs, .ok ()), left)) : bs.length = n := by
  fun_induction exactly n events generalizing bs with
  | case1 events =>
    cases h
    rfl
  | case2 n => cases h
  | case3 n e rest => cases h
  | case4 n rest => cases h
  | case5 n cs rest hcs hlt =>
    cases h
    exact List.length_take_of_le (Nat.le_of_lt hlt)
  | case6 n cs rest hcs hlt ih =>
    obtain ⟨⟨⟨ds, ret⟩, left'⟩, hrest, hds⟩ := map_eq_ok_iff.mp h
    cases hds
    rw [List.length_append, ih hrest]
    omega

/-- A failed `read_exact` has taken nothing if and only if its first read brought
nothing. -/
theorem exactly_nil_iff {n : Nat} {events left : List ReadEvent} {bs : Bytes} {e : Error}
    (h : exactly n events = .ok ((bs, .error e), left)) :
    bs = [] ↔ BringsNothing ⟨events⟩ := by
  cases n with
  | zero =>
    unfold exactly at h
    cases h
  | succ n =>
    cases events with
    | nil => cases h
    | cons ev rest =>
      cases ev with
      | fail e' =>
        cases h
        simp [BringsNothing, ReadEvent.payload]
      | data cs =>
        unfold exactly at h
        by_cases hcs : cs = []
        · rw [if_pos hcs] at h
          cases h
          simp [BringsNothing, ReadEvent.payload, hcs]
        · rw [if_neg hcs] at h
          have hbs : ¬ BringsNothing ⟨.data cs :: rest⟩ := by
            rintro ⟨ev, rest', heq, hev⟩
            cases heq
            exact hcs hev
          split at h
          · cases h
          · obtain ⟨⟨⟨ds, ret⟩, left'⟩, -, hds⟩ := map_eq_ok_iff.mp h
            cases hds
            simp [hbs, hcs]

end Inlet

end Uvio.Io
