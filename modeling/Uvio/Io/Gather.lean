import Uvio.Io.Schedules

/-!
# Waiting for bytes

What a caller gets from the reads of an `Inlet` who waits until its bytes have come,
whatever the single reads bring.

- `exactly_eq_gather_iff`: `gather` waits for exactly `n` bytes, as `TcpStream::read_exact`
  does. The two part where a read gets nothing in time.
- `fill_of_not_arrive`, `fill_of_arrive`: `fill` waits for them in a buffer, from which it
  may get more, or in which there may be no room for them.
-/

namespace Uvio.Io

open Program

namespace Inlet

/-- What a caller gets who reads until `n` bytes have come, whatever the single reads
bring. -/
def gather : Nat → List ReadEvent → Except Stop (Result Bytes)
  | 0, _ => .ok (.ok [])
  | _ + 1, [] => .error .pending
  | _ + 1, .fail e :: _ => .ok (.error e)
  | n + 1, .data bs :: rest =>
    if n < bs.length then .ok (.ok (bs.take (n + 1)))
    else (gather (n + 1 - bs.length) rest).map fun r => r.map (bs ++ ·)

/-- What `read_exact` reports, with the bytes if it succeeds. -/
def exactlyOutcome (n : Nat) (events : List ReadEvent) : Except Stop (Result Bytes) :=
  (exactly n events).map fun p => p.1.2.map fun _ => p.1.1

/-- A chunk that is not more than what is missing. -/
theorem gather_data {n : Nat} {bs : Bytes} {rest : List ReadEvent} (h : bs.length ≤ n + 1) :
    gather (n + 1) (.data bs :: rest)
      = (gather (n + 1 - bs.length) rest).map fun r => r.map (bs ++ ·) := by
  rw [gather]
  by_cases hlt : n < bs.length
  · have hn : n + 1 - bs.length = 0 := by omega
    rw [if_pos hlt, hn, List.take_of_length_le (by omega)]
    simp [gather, Except.map]
  · rw [if_neg hlt]

theorem gather_error_iff {n : Nat} {events : List ReadEvent} {e : Error} :
    gather n events = .ok (.error e) ↔ Before n (.fail e) events := by
  fun_induction gather n events with
  | case1 events => simp
  | case2 n => simp
  | case3 n e' rest =>
    rw [before_fail]
    constructor
    · rintro ⟨⟩
      rfl
    · rintro ⟨⟩
      rfl
  | case4 n bs rest hlt =>
    have : n + 1 - bs.length = 0 := by omega
    simp [before_data, this]
  | case5 n bs rest hlt ih =>
    rw [before_data, ← ih]
    cases gather (n + 1 - bs.length) rest with
    | error e' => simp [Except.map]
    | ok r => cases r <;> simp [Except.map]

/-- **The two ways to read `n` bytes agree** unless a read gets nothing in time; then
only if the source fails as `read_exact` says it has. -/
theorem exactly_eq_gather_iff {n : Nat} {events : List ReadEvent} :
    exactlyOutcome n events = gather n events ↔
      ¬ Before n (.data []) events ∨ Before n (.fail .unexpectedEOF) events := by
  fun_induction exactly n events with
  | case1 events => simp [exactlyOutcome, exactly, gather, Except.map]
  | case2 n => simp [exactlyOutcome, exactly, gather, Except.map]
  | case3 n e rest => simp [exactlyOutcome, exactly, gather, Except.map]
  | case4 n rest =>
    have hout : exactlyOutcome (n + 1) (.data [] :: rest) = .ok (.error .unexpectedEOF) := rfl
    rw [hout, eq_comm, gather_error_iff, before_data]
    simp [before_data]
  | case5 n bs rest hbs hlt =>
    have hn : n + 1 - bs.length = 0 := by omega
    simp [exactlyOutcome, exactly, gather, Except.map, before_data, hbs, hlt, hn,
      Nat.lt_of_succ_lt hlt, Ne.symm hbs]
  | case6 n bs rest hbs hlt ih =>
    -- both go on behind the chunk
    have hout : exactlyOutcome (n + 1) (.data bs :: rest)
        = (exactlyOutcome (n + 1 - bs.length) rest).map fun r => r.map (bs ++ ·) := by
      unfold exactlyOutcome
      rw [exactly, if_neg hbs, if_neg hlt]
      cases exactly (n + 1 - bs.length) rest with
      | error e => rfl
      | ok p =>
        obtain ⟨⟨cs, ret⟩, left⟩ := p
        cases ret <;> rfl
    rw [hout, gather_data (Nat.le_of_not_lt hlt), before_data, before_data]
    simp only [ReadEvent.data.injEq, Ne.symm hbs, reduceCtorEq, false_or]
    rw [← ih]
    exact (map_injective (map_injective (List.append_right_injective bs))).eq_iff

/-! ## Into a buffer -/

/-- What a loop gets that reads until at least `need` bytes have come, into a buffer with
room for `room`. Without room a read gets nothing, so a chunk that is there is never
taken. -/
def fill : Nat → Nat → List ReadEvent → Except Stop (Result Bytes)
  | 0, _, _ => .ok (.ok [])
  | _ + 1, _, [] => .error .pending
  | _ + 1, _, .fail e :: _ => .ok (.error e)
  | need + 1, room, .data bs :: rest =>
    if room < bs.length then
      if need < room then .ok (.ok (bs.take room)) else .error .spin
    else (fill (need + 1 - bs.length) (room - bs.length) rest).map fun r => r.map (bs ++ ·)

/-- `n` bytes come before any failure. -/
def Arrive (n : Nat) (events : List ReadEvent) : Prop :=
  ∃ (front : List Bytes) (rest : List ReadEvent),
    events = front.map .data ++ rest ∧ n ≤ front.flatten.length

/-- The bytes in the chunks that have come when `n` bytes have. -/
def brought : Nat → List ReadEvent → Nat
  | n + 1, .data bs :: rest => bs.length + brought (n + 1 - bs.length) rest
  | _, _ => 0

section Arrive

variable {n m : Nat} {bs : Bytes} {e : Error} {events rest : List ReadEvent}

@[simp] theorem arrive_zero : Arrive 0 events := ⟨[], events, rfl, Nat.le_refl _⟩

@[simp] theorem not_arrive_nil : ¬ Arrive (n + 1) [] := by
  rintro ⟨front, rest, hnil, hle⟩
  obtain ⟨hfront, -⟩ := List.append_eq_nil_iff.mp hnil.symm
  rw [List.map_eq_nil_iff.mp hfront] at hle
  exact absurd hle (Nat.not_succ_le_zero n)

@[simp] theorem not_arrive_fail : ¬ Arrive (n + 1) (.fail e :: rest) := by
  rintro ⟨front, rest', heq, hle⟩
  cases front with
  | nil => exact absurd hle (Nat.not_succ_le_zero n)
  | cons c front => cases heq

theorem arrive_data : Arrive (n + 1) (.data bs :: rest) ↔ Arrive (n + 1 - bs.length) rest := by
  constructor
  · rintro ⟨front, rest', heq, hle⟩
    cases front with
    | nil => exact absurd hle (Nat.not_succ_le_zero n)
    | cons c front =>
      cases heq
      rw [List.flatten_cons, List.length_append] at hle
      exact ⟨front, rest', rfl, by omega⟩
  · rintro ⟨front, rest', rfl, hle⟩
    refine ⟨bs :: front, rest', rfl, ?_⟩
    rw [List.flatten_cons, List.length_append]
    omega

theorem arrive_of_le (hle : m ≤ n) (h : Arrive n events) : Arrive m events := by
  obtain ⟨front, rest, heq, hlen⟩ := h
  exact ⟨front, rest, heq, Nat.le_trans hle hlen⟩

/-- Bytes that arrive are what is gathered. -/
theorem gather_of_arrive (h : Arrive n events) :
    gather n events = .ok (.ok ((⟨events⟩ : Inlet).undelivered.take n)) := by
  fun_induction gather n events with
  | case1 events => simp
  | case2 n => exact absurd h not_arrive_nil
  | case3 n e rest => exact absurd h not_arrive_fail
  | case4 n bs rest hlt => rw [undelivered_data, List.take_append_of_le_length hlt]
  | case5 n bs rest hlt ih =>
    rw [ih (arrive_data.mp h), undelivered_data, List.take_append,
      List.take_of_length_le (by omega : bs.length ≤ n + 1)]
    rfl

theorem arrive_of_gather (h : gather n events = .ok (.ok bs)) : Arrive n events := by
  fun_induction gather n events generalizing bs with
  | case1 events => exact arrive_zero
  | case2 n => cases h
  | case3 n e rest => cases h
  | case4 n cs rest hlt =>
    rw [arrive_data, Nat.sub_eq_zero_of_le hlt]
    exact arrive_zero
  | case5 n cs rest hlt ih =>
    obtain ⟨r, hrest, hr⟩ := map_eq_ok_iff.mp h
    cases r with
    | error e => cases hr
    | ok ds => exact arrive_data.mpr (ih hrest)

/-- Who waits for bytes that do not all arrive waits for more of them alike. -/
theorem gather_of_not_arrive (h : ¬ Arrive m events) (hle : m ≤ n) :
    gather n events = gather m events := by
  fun_induction gather m events generalizing n with
  | case1 events => exact absurd arrive_zero h
  | case2 m =>
    obtain ⟨n, rfl⟩ := Nat.exists_eq_add_one.mpr (Nat.zero_lt_of_lt hle)
    rfl
  | case3 m e rest =>
    obtain ⟨n, rfl⟩ := Nat.exists_eq_add_one.mpr (Nat.zero_lt_of_lt hle)
    rfl
  | case4 m bs rest hlt =>
    rw [arrive_data, Nat.sub_eq_zero_of_le hlt] at h
    exact absurd arrive_zero h
  | case5 m bs rest hlt ih =>
    obtain ⟨n, rfl⟩ := Nat.exists_eq_add_one.mpr (Nat.zero_lt_of_lt hle)
    rw [gather_data (by omega), ih (fun ha => h (arrive_data.mpr ha)) (by omega)]

/-- As long as too few bytes arrive, no destination matters. -/
theorem map_gather_of_not_arrive {f : Bytes → Bytes} (h : ¬ Arrive n events) :
    ((gather n events).map fun r => r.map f) = gather n events := by
  rcases hg : gather n events with e | e | bs
  · rfl
  · rfl
  · exact absurd (arrive_of_gather hg) h

theorem le_brought (h : Arrive n events) : n ≤ brought n events := by
  fun_induction brought n events with
  | case1 n bs rest ih =>
    have := ih (arrive_data.mp h)
    omega
  | case2 events n hne =>
    cases n with
    | zero => exact Nat.le_refl _
    | succ n =>
      rcases events with _ | ⟨bs | e, rest⟩
      · exact absurd h not_arrive_nil
      · exact absurd rfl (hne _ _ _ rfl)
      · exact absurd h not_arrive_fail

theorem brought_le (n : Nat) (events : List ReadEvent) :
    brought n events ≤ (⟨events⟩ : Inlet).undelivered.length := by
  fun_induction brought n events with
  | case1 n bs rest ih =>
    rw [undelivered_data, List.length_append]
    exact Nat.add_le_add_left ih _
  | case2 events n hne => exact Nat.zero_le _

end Arrive

section Fill

variable {need room : Nat} {events : List ReadEvent}

/-- A chunk that fits leaves less to wait for, and less room. -/
theorem min_sub (need : Nat) {room k : Nat} (h : k ≤ room) :
    min (need + 1 - k) (room - k + 1) = min (need + 1) (room + 1) - k := by
  omega

/-- As long as too few bytes arrive, the buffer makes no difference. -/
theorem fill_of_not_arrive (h : ¬ Arrive (min need (room + 1)) events) :
    fill need room events = gather (min need (room + 1)) events := by
  fun_induction fill need room events with
  | case1 room events => exact absurd (by simp) h
  | case2 need room =>
    rw [Nat.succ_min_succ]
    rfl
  | case3 need room e rest =>
    rw [Nat.succ_min_succ]
    rfl
  | case4 need room bs rest hlt hneed =>
    rw [Nat.succ_min_succ, arrive_data, Nat.sub_eq_zero_of_le (by omega)] at h
    exact absurd arrive_zero h
  | case5 need room bs rest hlt hneed =>
    rw [Nat.succ_min_succ, arrive_data, Nat.sub_eq_zero_of_le (by omega)] at h
    exact absurd arrive_zero h
  | case6 need room bs rest hlt ih =>
    have hmin := min_sub need (Nat.le_of_not_lt hlt)
    rw [hmin] at ih
    rw [Nat.succ_min_succ] at h ih ⊢
    rw [arrive_data] at h
    by_cases hle : bs.length ≤ min need room + 1
    · rw [ih h, gather_data hle]
    · rw [Nat.sub_eq_zero_of_le (by omega)] at h
      exact absurd arrive_zero h

/-- When the bytes waited for arrive, all that fits of the chunks that brought them is
there, or there is no room for them and the loop goes round for ever. -/
theorem fill_of_arrive (h : Arrive (min need (room + 1)) events) :
    fill need room events = if need ≤ room then
        .ok (.ok ((⟨events⟩ : Inlet).undelivered.take (min room (brought need events))))
      else .error .spin := by
  fun_induction fill need room events with
  | case1 room events => simp [brought]
  | case2 need room =>
    rw [Nat.succ_min_succ] at h
    exact absurd h not_arrive_nil
  | case3 need room e rest =>
    rw [Nat.succ_min_succ] at h
    exact absurd h not_arrive_fail
  | case4 need room bs rest hlt hneed =>
    rw [if_pos (Nat.succ_le_of_lt hneed), undelivered_data, brought, Nat.min_eq_left (by omega),
      List.take_append_of_le_length (Nat.le_of_lt hlt)]
  | case5 need room bs rest hlt hneed => exact (if_neg hneed).symm
  | case6 need room bs rest hlt ih =>
    have hmin := min_sub need (Nat.le_of_not_lt hlt)
    rw [hmin, Nat.succ_min_succ] at ih
    rw [Nat.succ_min_succ, arrive_data] at h
    rw [ih h]
    by_cases hneed : need + 1 ≤ room
    · rw [if_pos hneed, if_pos (by omega), undelivered_data, brought]
      have hroom : min room (bs.length + brought (need + 1 - bs.length) rest)
          = bs.length + min (room - bs.length) (brought (need + 1 - bs.length) rest) := by
        omega
      rw [hroom, List.take_length_add_append]
      rfl
    · rw [if_neg hneed, if_neg (by omega)]
      rfl

/-- The loop of the source itself does not go round for ever. -/
theorem exactlyOutcome_ne_spin (n : Nat) (events : List ReadEvent) :
    exactlyOutcome n events ≠ .error .spin := by
  unfold exactlyOutcome
  fun_induction exactly n events with
  | case1 events => exact fun h => by cases h
  | case2 n => exact fun h => by cases h
  | case3 n e rest => exact fun h => by cases h
  | case4 n rest => exact fun h => by cases h
  | case5 n bs rest hbs hlt => exact fun h => by cases h
  | case6 n bs rest hbs hlt ih =>
    cases hrest : exactly (n + 1 - bs.length) rest with
    | error e =>
      rw [hrest] at ih
      exact ih
    | ok p => exact fun h => by cases h

/-- Nor does waiting for bytes. -/
theorem gather_ne_spin (n : Nat) (events : List ReadEvent) :
    gather n events ≠ .error .spin := by
  fun_induction gather n events with
  | case1 events => exact fun h => by cases h
  | case2 n => exact fun h => by cases h
  | case3 n e rest => exact fun h => by cases h
  | case4 n bs rest hlt => exact fun h => by cases h
  | case5 n bs rest hlt ih =>
    cases hrest : gather (n + 1 - bs.length) rest with
    | error e =>
      rw [hrest] at ih
      exact ih
    | ok r => exact fun h => by cases h

/-- A loop goes round for ever if the bytes come that it has no room for. -/
theorem fill_eq_spin_iff :
    fill need room events = .error .spin ↔ room < need ∧ Arrive (room + 1) events := by
  by_cases harr : Arrive (min need (room + 1)) events
  · rw [fill_of_arrive harr]
    by_cases hroom : need ≤ room
    · simp [hroom, Nat.not_lt.mpr hroom]
    · rw [Nat.min_eq_right (by omega)] at harr
      simp [hroom, harr, Nat.lt_of_not_le hroom]
  · rw [fill_of_not_arrive harr]
    refine ⟨fun h => (gather_ne_spin _ events h).elim, fun ⟨hlt, ha⟩ => ?_⟩
    rw [Nat.min_eq_right hlt] at harr
    exact absurd ha harr

end Fill

end Inlet

end Uvio.Io
