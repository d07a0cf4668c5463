import Uvio.Common.Result
import Uvio.Program.Ownership
import Uvio.Program.Runs
import Mathlib.Data.List.Nodup

/-!
# Who owns a `uv_tcp_t`

`TcpStream`s come and go, hand their `uv_tcp_t` on by moves, and close it when they
are destroyed or assigned to. `into_split` moves the handle into a stream that two
halves share; `reunite` moves it back out. Streams, halves and handles are named by
numbers. A stream that halves share is destroyed with the last `shared_ptr` to it.

- `Good`: every handle has one owner until it is closed, is closed once, and not by
  an assignment of a stream to itself; halves refer to live streams.
- `Timely`: a stream that owns a handle is not assigned to itself.
- `owned_once`: runs all of whose steps are timely are good, and a reunite that fails
  changes nothing.
- `shared_gone_iff`: a stream that was split goes with the last half that refers to it.
-/

namespace Uvio.Net.TcpOwnership

open Program Holders

/-- Why a handle was passed to `uv_close`. -/
inductive Cause where
  /-- The destructor of the stream. -/
  | destroyed (i : Nat)
  /-- The move assignment of stream `j` to stream `i`. -/
  | assigned (i j : Nat)
deriving DecidableEq, Repr

/-- `OwnedReadHalf` or `OwnedWriteHalf`. -/
inductive Side where
  | read
  | write
deriving DecidableEq, Repr

/-- The streams with their handles, the halves with the streams they share, and the
handles passed to `uv_close`. -/
structure World where
  streams : Holders Nat Nat
  halves : List ((Side × Nat) × Option Nat)
  next : Nat
  nextHandle : Nat
  closed : List (Nat × Cause)

inductive Action where
  /-- `TcpStream{std::make_unique<uv_tcp_t>()}`, or from a null pointer. -/
  | construct (null : Bool)
  | moveConstruct (i : Nat)
  /-- Stream `i` is assigned `std::move` of stream `j`. -/
  | moveAssign (i j : Nat)
  | destroy (i : Nat)
  | intoSplit (i : Nat)
  | reunite (r x : Nat)
  | moveConstructHalf (side : Side) (a : Nat)
  | moveAssignHalf (side : Side) (a b : Nat)
  | destroyHalf (side : Side) (a : Nat)
deriving DecidableEq, Repr

def init : World := ⟨fun _ => none, [], 0, 0, []⟩

/-! ## Streams -/

/-- `uv_close` of what a stream owns, if it owns a handle. -/
def closeHandle (w : World) (i : Nat) (cause : Cause) : World :=
  match (w.streams i).join with
  | none => w
  | some h => { w with streams := w.streams.put i none, closed := w.closed ++ [(h, cause)] }

/-- `~TcpStream`. -/
def destroy (w : World) (i : Nat) : World :=
  let w := closeHandle w i (.destroyed i)
  { w with streams := w.streams.remove i }

/-- The move constructor, at the next address. -/
def moveConstruct (w : World) (i : Nat) : World :=
  { w with streams := w.streams.transfer i w.next, next := w.next + 1 }

/-- The move assignment: it closes before it looks for self-assignment. -/
def moveAssign (w : World) (i j : Nat) : World :=
  let w := closeHandle w i (.assigned i j)
  if j ≠ i then { w with streams := w.streams.transfer j i } else w

/-! ## Halves -/

/-- The streams that halves share. -/
def held (w : World) : List Nat := w.halves.filterMap (·.2)

/-- The `stream_` of a half. -/
def half (w : World) (key : Side × Nat) : Option (Option Nat) :=
  (w.halves.find? fun entry => entry.1 = key).map (·.2)

def setHalf (w : World) (key : Side × Nat) (stream : Option Nat) : World :=
  { w with halves := w.halves.map fun entry => if entry.1 = key then (key, stream) else entry }

/-- A `shared_ptr` goes away: the last one destroys the stream. -/
def release (w : World) : Option Nat → World
  | none => w
  | some s => if s ∈ held w then w else destroy w s

/-- `into_split()`. -/
def intoSplit (w : World) (i : Nat) : World :=
  let s := w.next
  let w := moveConstruct w i
  { w with
    halves := w.halves ++ [((.read, w.next), some s), ((.write, w.next + 1), some s)]
    next := w.next + 2 }

/-- `reunite(read, write)` of two halves that are not empty. `take_inner` moves the
stream out and lets the last `shared_ptr` to what is left go. -/
def reunite (w : World) (r x : Nat) : Option (Result Nat × World) :=
  match half w (.read, r), half w (.write, x) with
  | some (some s), some (some t) =>
    if s ≠ t then some (.error .reuniteError, w)
    else
      let w := release (setHalf w (.write, x) none) (some t)
      let w := setHalf w (.read, r) none
      if w.streams s = none then none
      else some (.ok w.next, release (moveConstruct w s) (some s))
  | _, _ => none

/-- What an action does, where it is possible. -/
def step (w : World) : Action → Option World
  | .construct null =>
    if null then some { w with streams := w.streams.put w.next none, next := w.next + 1 }
    else some { w with
      streams := w.streams.put w.next (some w.nextHandle)
      next := w.next + 1
      nextHandle := w.nextHandle + 1 }
  | .moveConstruct i => if w.streams i = none then none else some (moveConstruct w i)
  | .moveAssign i j =>
    if w.streams i = none ∨ w.streams j = none then none else some (moveAssign w i j)
  | .destroy i => if w.streams i = none ∨ i ∈ held w then none else some (destroy w i)
  | .intoSplit i => if w.streams i = none then none else some (intoSplit w i)
  | .reunite r x => (reunite w r x).map (·.2)
  | .moveConstructHalf side a =>
    (half w (side, a)).map fun stream =>
      let w := setHalf w (side, a) none
      { w with halves := w.halves ++ [((side, w.next), stream)], next := w.next + 1 }
  | .moveAssignHalf side a b =>
    match half w (side, a), half w (side, b) with
    | some old, some stream =>
      if a = b then some w
      else some (release (setHalf (setHalf w (side, b) none) (side, a) stream) old)
    | _, _ => none
  | .destroyHalf side a =>
    (half w (side, a)).map fun old =>
      release { w with halves := w.halves.filter fun entry => entry.1 ≠ (side, a) } old

/-- The handles passed to `uv_close`. -/
def closedHandles (w : World) : List Nat := w.closed.map (·.1)

/-- What is asked of handles and halves. -/
structure Good (w : World) : Prop where
  /-- A handle has one owner and is not closed, or is closed once and has none. -/
  owner : ∀ h < w.nextHandle,
    ((∃ i, w.streams.Holds i h ∧ ∀ j, w.streams.Holds j h → j = i) ∧ h ∉ closedHandles w) ∨
    ((∀ i, ¬ w.streams.Holds i h) ∧ (closedHandles w).count h = 1)
  /-- No handle was closed by an assignment of a stream to itself. -/
  cause : ∀ h i j, (h, .assigned i j) ∈ w.closed → i ≠ j
  /-- A half that is not empty refers to a live stream. -/
  halves : ∀ s ∈ held w, w.streams s ≠ none

/-- A stream is assigned to itself only while it owns nothing. -/
def Timely (w : World) : Action → Prop
  | .moveAssign i j => i = j → (w.streams i).join = none
  | _ => True

/-! ## The invariant -/

/-- What timely steps keep. -/
structure Inv (w : World) : Prop where
  exclusive : w.streams.Exclusive
  /-- Handles that are owned were made and are not closed. -/
  owned : ∀ i h, w.streams.Holds i h → h < w.nextHandle ∧ h ∉ closedHandles w
  /-- Handles that were made are owned or closed. -/
  kept : ∀ h < w.nextHandle, (∃ i, w.streams.Holds i h) ∨ h ∈ closedHandles w
  made : ∀ h ∈ closedHandles w, h < w.nextHandle
  once : (closedHandles w).Nodup
  cause : ∀ h i j, (h, .assigned i j) ∈ w.closed → i ≠ j
  fresh : ∀ i, w.next ≤ i → w.streams i = none
  live : ∀ s ∈ held w, w.streams s ≠ none

theorem inv_init : Inv init where
  exclusive := nofun
  owned := nofun
  kept := nofun
  made := nofun
  once := List.nodup_nil
  cause := nofun
  fresh _ _ := rfl
  live := nofun

/-- The invariant gives what is asked. -/
theorem Inv.good {w : World} (h : Inv w) : Good w where
  owner k hk := by
    by_cases hclosed : k ∈ closedHandles w
    · refine Or.inr ⟨fun i hi => (h.owned i k hi).2 hclosed, ?_⟩
      exact List.count_eq_one_of_mem h.once hclosed
    · obtain ⟨i, hi⟩ := (h.kept k hk).resolve_right hclosed
      exact Or.inl ⟨⟨i, hi, fun j hj => h.exclusive j i k hj hi⟩, hclosed⟩
  cause := h.cause
  halves := h.live

theorem put_ne_none {o : Holders Nat Nat} {i s : Nat} {v : Option Nat} (h : o s ≠ none) :
    o.put i v s ≠ none := by
  unfold put
  by_cases hs : s = i
  · subst hs
    simp
  · simpa [hs] using h

/-- Closing what a stream owns leaves the stream empty. -/
theorem Inv.closeHandle {w : World} (h : Inv w) (i : Nat) (cause : Cause)
    (hcause : ∀ a b, cause = .assigned a b → a = b → (w.streams i).join = none) :
    Inv (closeHandle w i cause) ∧ ∀ k, ¬ (closeHandle w i cause).streams.Holds i k := by
  unfold TcpOwnership.closeHandle
  split
  next hnone =>
    refine ⟨h, fun k hk => ?_⟩
    rw [join_eq_some.mpr hk] at hnone
    cases hnone
  next k hsome =>
    have hi : w.streams.Holds i k := join_eq_some.mp hsome
    obtain ⟨hmade, hopen⟩ := h.owned i k hi
    have hclosed : ∀ c, c ∈ closedHandles
        { w with streams := w.streams.put i none, closed := w.closed ++ [(k, cause)] } ↔
        c ∈ closedHandles w ∨ c = k := by
      simp [closedHandles, or_comm, eq_comm]
    refine ⟨⟨h.exclusive.put nofun, ?_, ?_, ?_, ?_, ?_, ?_, ?_⟩, ?_⟩
    · intro j c hj
      rcases holds_put.mp hj with ⟨-, hc⟩ | ⟨hji, hj'⟩
      · cases hc
      · refine ⟨(h.owned j c hj').1, fun hc => ?_⟩
        rcases (hclosed c).mp hc with hc | hck
        · exact (h.owned j c hj').2 hc
        · exact hji (h.exclusive j i c hj' (hck ▸ hi))
    · intro c hc
      by_cases hck : c = k
      · exact Or.inr ((hclosed c).mpr (Or.inr hck))
      · rcases h.kept c hc with ⟨j, hj⟩ | hmem
        · refine Or.inl ⟨j, holds_put.mpr (Or.inr ⟨?_, hj⟩)⟩
          rintro rfl
          exact hck (Option.some.inj (Option.some.inj (hj.symm.trans hi)))
        · exact Or.inr ((hclosed c).mpr (Or.inl hmem))
    · intro c hc
      rcases (hclosed c).mp hc with hc | rfl
      · exact h.made c hc
      · exact hmade
    · show ((w.closed ++ [(k, cause)]).map (·.1)).Nodup
      rw [List.map_append, List.nodup_append]
      refine ⟨h.once, by simp, fun a ha b hb hab => hopen ?_⟩
      obtain rfl := List.mem_singleton.mp hb
      exact hab ▸ ha
    · intro c a b hc
      rcases List.mem_append.mp hc with hc | hc
      · exact h.cause c a b hc
      · intro hab
        have hkc := List.mem_singleton.mp hc
        rw [hcause a b (Prod.mk.inj hkc).2.symm hab] at hsome
        cases hsome
    · intro j hj
      have hij : j ≠ i := fun hij => by
        have hnone := h.fresh j hj
        rw [hij] at hnone
        exact nomatch hnone.symm.trans hi
      show w.streams.put i none j = none
      rw [put, Function.update_of_ne hij]
      exact h.fresh j hj
    · exact fun s hs => put_ne_none (h.live s hs)
    · intro c hc
      rcases holds_put.mp hc with ⟨-, hc⟩ | ⟨hne, -⟩
      · cases hc
      · exact hne rfl

/-- Destroying a stream that no half shares. -/
theorem Inv.destroy {w : World} (h : Inv w) {i : Nat} (hi : i ∉ held w) :
    Inv (destroy w i) := by
  obtain ⟨hinv, hempty⟩ := h.closeHandle i (.destroyed i) nofun
  have hheld : held (TcpOwnership.closeHandle w i (.destroyed i)) = held w := by
    unfold TcpOwnership.closeHandle
    split <;> rfl
  unfold TcpOwnership.destroy
  generalize TcpOwnership.closeHandle w i (.destroyed i) = w' at hinv hempty hheld
  refine ⟨hinv.exclusive.remove, ?_, ?_, hinv.made, hinv.once, hinv.cause, ?_, ?_⟩
  · exact fun j k hj => hinv.owned j k (holds_remove.mp hj).2
  · intro k hk
    refine (hinv.kept k hk).imp_left fun ⟨j, hj⟩ => ⟨j, holds_remove.mpr ⟨?_, hj⟩⟩
    rintro rfl
    exact hempty k hj
  · intro j hj
    show w'.streams.remove i j = none
    unfold Holders.remove
    by_cases hji : j = i
    · subst hji
      simp
    · simpa [hji] using hinv.fresh j hj
  · intro s hs
    have hsi : s ≠ i := fun hsi => hi (hheld ▸ hsi ▸ hs)
    show w'.streams.remove i s ≠ none
    rw [Holders.remove, Function.update_of_ne hsi]
    exact hinv.live s hs

/-- A new stream, which owns a new handle or none. -/
theorem Inv.construct {w : World} (h : Inv w) {v : Option Nat} {n : Nat}
    (hv : ∀ k, v = some k ↔ k < n ∧ w.nextHandle ≤ k) (hn : w.nextHandle ≤ n) :
    Inv { w with streams := w.streams.put w.next v, next := w.next + 1, nextHandle := n } where
  exclusive := h.exclusive.put fun k hk j hj =>
    absurd (h.owned j k hj).1 (Nat.not_lt.mpr ((hv k).mp hk).2)
  owned j k hj := by
    rcases holds_put.mp hj with ⟨-, hk⟩ | ⟨-, hj'⟩
    · obtain ⟨hkn, hnew⟩ := (hv k).mp hk
      exact ⟨hkn, fun hclosed => absurd (h.made k hclosed) (Nat.not_lt.mpr hnew)⟩
    · exact ⟨Nat.lt_of_lt_of_le (h.owned j k hj').1 hn, (h.owned j k hj').2⟩
  kept k hk := by
    by_cases hold : k < w.nextHandle
    · refine (h.kept k hold).imp_left fun ⟨j, hj⟩ => ⟨j, holds_put.mpr (Or.inr ⟨?_, hj⟩)⟩
      rintro rfl
      exact nomatch (h.fresh _ (Nat.le_refl _)).symm.trans hj
    · exact Or.inl ⟨w.next, holds_put.mpr (Or.inl ⟨rfl, (hv k).mpr ⟨hk, Nat.le_of_not_lt hold⟩⟩)⟩
  made k hk := Nat.lt_of_lt_of_le (h.made k hk) hn
  once := h.once
  cause := h.cause
  fresh i hi := by
    have hne : i ≠ w.next := Nat.ne_of_gt hi
    show w.streams.put w.next v i = none
    rw [put, Function.update_of_ne hne]
    exact h.fresh i (Nat.le_of_succ_le hi)
  live s hs := put_ne_none (h.live s hs)

/-- Handing on what a stream owns to one that owns nothing. -/
theorem Inv.transfer {w : World} (h : Inv w) {i j next : Nat} (hij : i ≠ j)
    (hi : w.streams i ≠ none) (hj : ∀ k, ¬ w.streams.Holds j k) (hnext : w.next ≤ next)
    (hjnext : j < next) : Inv { w with streams := w.streams.transfer i j, next := next } where
  exclusive := h.exclusive.transfer hij
  owned l k hl := by
    rcases (holds_transfer hij).mp hl with ⟨-, hl⟩ | ⟨-, -, hl⟩ <;> exact h.owned _ k hl
  kept k hk := by
    refine (h.kept k hk).imp_left fun ⟨l, hl⟩ => (exists_holds_transfer hij).mpr ⟨l, ?_, hl⟩
    rintro rfl
    exact hj k hl
  made := h.made
  once := h.once
  cause := h.cause
  fresh l hl := by
    have hli : l ≠ i := by
      rintro rfl
      exact hi (h.fresh l (Nat.le_trans hnext hl))
    have hlj : l ≠ j := by
      rintro rfl
      exact absurd hjnext (Nat.not_lt.mpr hl)
    show w.streams.transfer i j l = none
    rw [Holders.transfer, put, Function.update_of_ne hli, put, Function.update_of_ne hlj]
    exact h.fresh l (Nat.le_trans hnext hl)
  live s hs := put_ne_none (put_ne_none (h.live s hs))

theorem Inv.moveConstruct {w : World} (h : Inv w) {i : Nat} (hi : w.streams i ≠ none) :
    Inv (moveConstruct w i) := by
  refine h.transfer ?_ hi (fun k hk => ?_) (Nat.le_succ _) (Nat.lt_succ_self _)
  · rintro rfl
    exact hi (h.fresh _ (Nat.le_refl _))
  · exact nomatch (h.fresh _ (Nat.le_refl _)).symm.trans hk

/-- **A timely move assignment** closes what the stream owned and hands on what the
other one owns. -/
theorem Inv.moveAssign {w : World} (h : Inv w) {i j : Nat} (hi : w.streams i ≠ none)
    (hj : w.streams j ≠ none) (ht : Timely w (.moveAssign i j)) : Inv (moveAssign w i j) := by
  obtain ⟨hinv, hempty⟩ := h.closeHandle i (.assigned i j) (by
    rintro a b hab rfl
    obtain ⟨rfl, rfl⟩ := Cause.assigned.inj hab
    exact ht rfl)
  unfold TcpOwnership.moveAssign
  dsimp only
  split
  next hne =>
    have hlive : ∀ l, w.streams l ≠ none →
        (TcpOwnership.closeHandle w i (.assigned i j)).streams l ≠ none := by
      intro l hl
      unfold TcpOwnership.closeHandle
      split
      · exact hl
      · exact put_ne_none hl
    refine hinv.transfer hne (hlive j hj) hempty (Nat.le_refl _) ?_
    by_contra hlt
    exact hlive i hi (hinv.fresh i (Nat.le_of_not_lt hlt))
  next => exact hinv

/-- Halves may change as long as they refer to live streams. -/
theorem Inv.setHalves {w : World} (h : Inv w) {halves : List ((Side × Nat) × Option Nat)}
    {next : Nat} (hnext : w.next ≤ next)
    (hheld : ∀ s ∈ halves.filterMap (·.2), w.streams s ≠ none) :
    Inv { w with halves := halves, next := next } :=
  { h with
    fresh := fun i hi => h.fresh i (Nat.le_trans hnext hi)
    live := hheld }

theorem mem_held {w : World} {s : Nat} :
    s ∈ held w ↔ ∃ key, (key, some s) ∈ w.halves := by
  unfold held
  rw [List.mem_filterMap]
  constructor
  · rintro ⟨⟨key, v⟩, hmem, rfl⟩
    exact ⟨key, hmem⟩
  · rintro ⟨key, hmem⟩
    exact ⟨_, hmem, rfl⟩

/-- What a half refers to is held. -/
theorem mem_held_of_half {w : World} {key : Side × Nat} {s : Nat}
    (h : half w key = some (some s)) : s ∈ held w := by
  obtain ⟨⟨key', v⟩, hfind, rfl⟩ := Option.map_eq_some_iff.mp h
  exact mem_held.mpr ⟨key', List.mem_of_find?_eq_some hfind⟩

/-- Setting one half adds no other reference. -/
theorem mem_held_setHalf {w : World} {key : Side × Nat} {v : Option Nat} {s : Nat}
    (h : s ∈ held (setHalf w key v)) : s ∈ held w ∨ v = some s := by
  obtain ⟨key', hmem⟩ := mem_held.mp h
  obtain ⟨entry, hentry, heq⟩ := List.mem_map.mp hmem
  split at heq
  · exact Or.inr (Prod.mk.inj heq).2
  · exact Or.inl (mem_held.mpr ⟨key', heq ▸ hentry⟩)

theorem Inv.setHalf {w : World} (h : Inv w) (key : Side × Nat) (v : Option Nat)
    (hv : ∀ s, v = some s → s ∈ held w) : Inv (setHalf w key v) := by
  refine h.setHalves (Nat.le_refl _) fun s hs => h.live s ?_
  have hmem : s ∈ held (TcpOwnership.setHalf w key v) := hs
  rcases mem_held_setHalf hmem with hs | hs
  · exact hs
  · exact hv s hs

theorem Inv.release {w : World} (h : Inv w) (v : Option Nat) : Inv (release w v) := by
  cases v with
  | none => exact h
  | some s =>
    unfold TcpOwnership.release
    dsimp only
    split
    next => exact h
    next hs => exact h.destroy hs

theorem Inv.intoSplit {w : World} (h : Inv w) {i : Nat} (hi : w.streams i ≠ none) :
    Inv (intoSplit w i) := by
  have hinv := h.moveConstruct hi
  refine hinv.setHalves (Nat.le_add_right _ _) fun s hs => ?_
  rw [List.filterMap_append] at hs
  rcases List.mem_append.mp hs with hs | hs
  · exact hinv.live s hs
  · -- the stream that was made for the halves
    obtain rfl : s = w.next := by simpa using hs
    refine put_ne_none ?_
    simp [put]

/-- A reunite keeps the invariant, and changes nothing when it fails. -/
theorem Inv.reunite {w w' : World} {r x : Nat} {res : Result Nat} (h : Inv w)
    (hstep : reunite w r x = some (res, w')) : Inv w' ∧ ∀ e, res = .error e → w' = w := by
  unfold TcpOwnership.reunite at hstep
  split at hstep
  next s t hr hx =>
    split at hstep
    next =>
      obtain ⟨rfl, rfl⟩ := Prod.mk.inj (Option.some.inj hstep)
      exact ⟨h, fun _ _ => rfl⟩
    next =>
      dsimp only at hstep
      split at hstep
      next => cases hstep
      next hlive =>
        obtain ⟨rfl, rfl⟩ := Prod.mk.inj (Option.some.inj hstep)
        refine ⟨?_, nofun⟩
        have h₁ := (h.setHalf (.write, x) none nofun).release (some t)
        have h₂ := h₁.setHalf (.read, r) none nofun
        exact (h₂.moveConstruct hlive).release (some s)
  next => cases hstep

/-- **Timely steps keep the invariant.** -/
theorem Inv.step {w w' : World} {action : Action} (h : Inv w) (ht : Timely w action)
    (hstep : TcpOwnership.step w action = some w') : Inv w' := by
  cases action with
  | construct null =>
    cases null with
    | true =>
      obtain rfl := Option.some.inj hstep
      exact h.construct (fun k => ⟨nofun, fun hk => absurd hk.1 (Nat.not_lt.mpr hk.2)⟩)
        (Nat.le_refl _)
    | false =>
      obtain rfl := Option.some.inj hstep
      refine h.construct (fun k => ?_) (Nat.le_succ _)
      rw [Option.some.injEq, Nat.lt_succ_iff, Nat.le_antisymm_iff]
      exact and_comm
  | moveConstruct i =>
    simp only [TcpOwnership.step] at hstep
    split at hstep
    next => cases hstep
    next hi =>
      obtain rfl := Option.some.inj hstep
      exact h.moveConstruct hi
  | moveAssign i j =>
    simp only [TcpOwnership.step] at hstep
    split at hstep
    next => cases hstep
    next hij =>
      obtain rfl := Option.some.inj hstep
      exact h.moveAssign (fun hi => hij (Or.inl hi)) (fun hj => hij (Or.inr hj)) ht
  | destroy i =>
    simp only [TcpOwnership.step] at hstep
    split at hstep
    next => cases hstep
    next hi =>
      obtain rfl := Option.some.inj hstep
      exact h.destroy fun hheld => hi (Or.inr hheld)
  | intoSplit i =>
    simp only [TcpOwnership.step] at hstep
    split at hstep
    next => cases hstep
    next hi =>
      obtain rfl := Option.some.inj hstep
      exact h.intoSplit hi
  | reunite r x =>
    obtain ⟨⟨res, w''⟩, hreunite, rfl⟩ := Option.map_eq_some_iff.mp hstep
    exact (h.reunite hreunite).1
  | moveConstructHalf side a =>
    obtain ⟨v, hv, rfl⟩ := Option.map_eq_some_iff.mp hstep
    have hset := h.setHalf (side, a) none nofun
    refine hset.setHalves (Nat.le_succ _) fun s hs => ?_
    rw [List.filterMap_append] at hs
    rcases List.mem_append.mp hs with hs | hs
    · exact hset.live s hs
    · obtain rfl : v = some s := by simpa using hs
      exact h.live s (mem_held_of_half hv)
  | moveAssignHalf side a b =>
    simp only [TcpOwnership.step] at hstep
    split at hstep
    next old v ha hb =>
      split at hstep
      next =>
        obtain rfl := Option.some.inj hstep
        exact h
      next =>
        obtain rfl := Option.some.inj hstep
        refine Inv.release ?_ old
        refine h.setHalves (Nat.le_refl _) fun s hs => h.live s ?_
        rcases mem_held_setHalf (w := TcpOwnership.setHalf w (side, b) none) hs with hs | rfl
        · rcases mem_held_setHalf hs with hs | hs
          · exact hs
          · cases hs
        · exact mem_held_of_half hb
    next => cases hstep
  | destroyHalf side a =>
    obtain ⟨old, -, rfl⟩ := Option.map_eq_some_iff.mp hstep
    refine Inv.release ?_ old
    refine h.setHalves (Nat.le_refl _) fun s hs => h.live s ?_
    exact (List.filter_sublist.filterMap _).subset hs

/-! ## Runs -/

/-- **Timely runs own every handle once**: if no stream that owns a handle is
assigned to itself, then in every state reached every handle has one owner until it
is closed and is closed once, by the destructor of its owner or by an assignment of
another stream; and a reunite that fails changes nothing. -/
theorem owned_once {past : List Action} {w : World} (h : Run step Timely init past w) :
    Good w ∧ ∀ r x e w', reunite w r x = some (.error e, w') → w' = w := by
  have hinv : Inv w := h.invariant (fun _ => Inv) inv_init fun _ _ _ _ hinv ht hstep =>
    hinv.step ht hstep
  exact ⟨hinv.good, fun _ _ e _ hstep => (hinv.reunite hstep).2 e rfl⟩

/-- A stream split, reunited and destroyed. -/
theorem owned_once_reunited : ∃ w, (Good w ∧
    ∀ r x e w', reunite w r x = some (.error e, w') → w' = w) ∧ w.closed = [(0, .destroyed 4)] := by
  have h₁ : Run step Timely init [.construct false] _ := Run.nil.snoc trivial rfl
  have h₂ : Run step Timely init [.construct false, .intoSplit 0] _ := h₁.snoc trivial rfl
  have h₃ : Run step Timely init [.construct false, .intoSplit 0, .reunite 2 3] _ :=
    h₂.snoc trivial rfl
  have h₄ : Run step Timely init [.construct false, .intoSplit 0, .reunite 2 3, .destroy 4] _ :=
    h₃.snoc trivial rfl
  exact ⟨_, owned_once h₄, rfl⟩

/-- A stream assigned to itself closes the handle it owns. -/
theorem not_owned_once_self :
    ¬ ∀ (past : List Action) (w : World), Run step (fun _ _ => True) init past w →
      Good w ∧ ∀ r x e w', reunite w r x = some (.error e, w') → w' = w := by
  intro h
  have hrun : Run step (fun _ _ => True) init [.construct false, .moveAssign 0 0] _ :=
    (Run.nil.snoc trivial rfl).snoc trivial rfl
  exact (h _ _ hrun).1.cause 0 0 0 (by decide) rfl

/-! ## Streams that halves share -/

/-- The halves have different names, none of which is given again. -/
structure Keyed (w : World) : Prop where
  nodup : (w.halves.map (·.1)).Nodup
  fresh : ∀ entry ∈ w.halves, entry.1.2 < w.next

theorem keyed_init : Keyed init := ⟨List.nodup_nil, fun _ h => absurd h List.not_mem_nil⟩

theorem Keyed.half_iff {w : World} (h : Keyed w) {key : Side × Nat} {v : Option Nat} :
    half w key = some v ↔ (key, v) ∈ w.halves := by
  unfold half
  rw [Option.map_eq_some_iff]
  constructor
  · rintro ⟨⟨key', v'⟩, hfind, rfl⟩
    obtain rfl : key' = key := by simpa using List.find?_some hfind
    exact List.mem_of_find?_eq_some hfind
  · intro hmem
    cases hfind : w.halves.find? fun entry => entry.1 = key with
    | none => simpa using List.find?_eq_none.mp hfind _ hmem
    | some entry =>
      have hkey : entry.1 = key := by simpa using List.find?_some hfind
      have heq := List.inj_on_of_nodup_map h.nodup (List.mem_of_find?_eq_some hfind) hmem hkey
      exact ⟨entry, rfl, congrArg Prod.snd heq⟩

@[simp] theorem halves_closeHandle (w : World) (i : Nat) (cause : Cause) :
    (closeHandle w i cause).halves = w.halves := by
  unfold closeHandle
  split <;> rfl

@[simp] theorem next_closeHandle (w : World) (i : Nat) (cause : Cause) :
    (closeHandle w i cause).next = w.next := by
  unfold closeHandle
  split <;> rfl

theorem streams_closeHandle {w : World} {i j : Nat} (cause : Cause) (hji : j ≠ i) :
    (closeHandle w i cause).streams j = w.streams j := by
  unfold closeHandle
  split
  · rfl
  · exact Function.update_of_ne hji ..

theorem streams_destroy {w : World} {i j : Nat} (hji : j ≠ i) :
    (destroy w i).streams j = w.streams j :=
  (Function.update_of_ne hji ..).trans (streams_closeHandle _ hji)

theorem streams_destroy_self (w : World) (i : Nat) : (destroy w i).streams i = none :=
  Function.update_self ..

@[simp] theorem halves_release (w : World) (v : Option Nat) :
    (release w v).halves = w.halves := by
  cases v with
  | none => rfl
  | some s =>
    unfold release
    dsimp only
    split
    · rfl
    · exact halves_closeHandle ..

@[simp] theorem next_release (w : World) (v : Option Nat) : (release w v).next = w.next := by
  cases v with
  | none => rfl
  | some s =>
    unfold release
    dsimp only
    split
    · rfl
    · exact next_closeHandle ..

theorem Keyed.of_eq {w w' : World} (h : Keyed w) (hhalves : w'.halves.map (·.1) = w.halves.map (·.1))
    (hnext : w.next ≤ w'.next) : Keyed w' where
  nodup := hhalves ▸ h.nodup
  fresh entry hentry := by
    have hmem : entry.1 ∈ w.halves.map (·.1) := hhalves ▸ List.mem_map_of_mem hentry
    obtain ⟨entry', hentry', heq⟩ := List.mem_map.mp hmem
    exact heq ▸ Nat.lt_of_lt_of_le (h.fresh entry' hentry') hnext

theorem keys_setHalf (w : World) (key : Side × Nat) (v : Option Nat) :
    (setHalf w key v).halves.map (·.1) = w.halves.map (·.1) := by
  unfold setHalf
  rw [List.map_map]
  refine List.map_congr_left fun entry _ => ?_
  dsimp only [Function.comp]
  split
  next hkey => exact hkey.symm
  next => rfl

theorem Keyed.add {w w' : World} (h : Keyed w) (key : Side × Nat)
    (hhalves : w'.halves.map (·.1) = w.halves.map (·.1) ++ [key]) (hkey : w.next ≤ key.2)
    (hnext : key.2 < w'.next) : Keyed w' where
  nodup := by
    rw [hhalves, List.nodup_append]
    refine ⟨h.nodup, by simp, fun a ha b hb => ?_⟩
    obtain rfl := List.mem_singleton.mp hb
    obtain ⟨entry, hentry, rfl⟩ := List.mem_map.mp ha
    rintro rfl
    exact absurd (h.fresh entry hentry) (Nat.not_lt.mpr hkey)
  fresh entry hentry := by
    have hmem : entry.1 ∈ w.halves.map (·.1) ++ [key] := hhalves ▸ List.mem_map_of_mem hentry
    rcases List.mem_append.mp hmem with hmem | hmem
    · obtain ⟨entry', hentry', heq⟩ := List.mem_map.mp hmem
      have := h.fresh entry' hentry'
      rw [← heq]
      omega
    · rw [List.mem_singleton.mp hmem]
      exact hnext

theorem Keyed.step {w w' : World} {action : Action} (h : Keyed w)
    (hstep : TcpOwnership.step w action = some w') : Keyed w' := by
  cases action with
  | construct null =>
    cases null <;> obtain rfl := Option.some.inj hstep <;> exact h.of_eq rfl (Nat.le_succ _)
  | moveConstruct i =>
    simp only [TcpOwnership.step] at hstep
    split at hstep
    next => cases hstep
    next =>
      obtain rfl := Option.some.inj hstep
      exact h.of_eq rfl (Nat.le_succ _)
  | moveAssign i j =>
    simp only [TcpOwnership.step] at hstep
    split at hstep
    next => cases hstep
    next =>
      obtain rfl := Option.some.inj hstep
      unfold TcpOwnership.moveAssign
      dsimp only
      split <;> exact h.of_eq (by simp) (by simp)
  | destroy i =>
    simp only [TcpOwnership.step] at hstep
    split at hstep
    next => cases hstep
    next =>
      obtain rfl := Option.some.inj hstep
      exact h.of_eq (by simp [TcpOwnership.destroy]) (by simp [TcpOwnership.destroy])
  | intoSplit i =>
    simp only [TcpOwnership.step] at hstep
    split at hstep
    next => cases hstep
    next =>
      obtain rfl := Option.some.inj hstep
      have hread : Keyed { TcpOwnership.moveConstruct w i with
          halves := w.halves ++ [((.read, w.next + 1), some w.next)], next := w.next + 2 } :=
        h.add (.read, w.next + 1) (by simp) (Nat.le_succ _) (Nat.lt_succ_self _)
      exact hread.add (.write, w.next + 2) (by simp [TcpOwnership.intoSplit,
        TcpOwnership.moveConstruct]) (Nat.le_refl _) (Nat.lt_succ_self _)
  | reunite r x =>
    obtain ⟨⟨res, w''⟩, hreunite, rfl⟩ := Option.map_eq_some_iff.mp hstep
    unfold TcpOwnership.reunite at hreunite
    split at hreunite
    next =>
      split at hreunite
      next =>
        cases hreunite
        exact h
      next =>
        dsimp only at hreunite
        split at hreunite
        next => cases hreunite
        next =>
          cases hreunite
          refine h.of_eq ?_ ?_
          · rw [halves_release]
            show (TcpOwnership.setHalf _ _ _).halves.map _ = _
            rw [keys_setHalf, halves_release, keys_setHalf]
          · rw [next_release]
            show w.next ≤ (TcpOwnership.release _ _).next + 1
            rw [next_release]
            exact Nat.le_succ _
    next => cases hreunite
  | moveConstructHalf side a =>
    obtain ⟨v, hv, rfl⟩ := Option.map_eq_some_iff.mp hstep
    refine h.add (side, w.next) ?_ (Nat.le_refl _) (Nat.lt_succ_self _)
    rw [List.map_append, keys_setHalf]
    rfl
  | moveAssignHalf side a b =>
    simp only [TcpOwnership.step] at hstep
    split at hstep
    next =>
      split at hstep
      next =>
        obtain rfl := Option.some.inj hstep
        exact h
      next =>
        obtain rfl := Option.some.inj hstep
        refine h.of_eq ?_ (by rw [next_release]; exact Nat.le_refl _)
        rw [halves_release, keys_setHalf, keys_setHalf]
    next => cases hstep
  | destroyHalf side a =>
    obtain ⟨old, -, rfl⟩ := Option.map_eq_some_iff.mp hstep
    refine ⟨?_, fun entry hentry => ?_⟩
    · rw [halves_release]
      exact h.nodup.sublist (List.filter_sublist.map _)
    · rw [halves_release] at hentry
      rw [next_release]
      exact h.fresh entry (List.mem_filter.mp hentry).1

/-- A stream that halves share is there only as long as one of them refers to it, or it is
the one that `lost` was the last reference to. -/
structure Tracked (s : Nat) (lost : Option Nat) (w : World) : Prop where
  made : s < w.next
  gone : s ∉ held w → w.streams s = none ∨ lost = some s

section Tracked

variable {s : Nat} {lost : Option Nat} {w : World}

theorem Tracked.of_eq {w' : World} (h : Tracked s lost w) (hhalves : w'.halves = w.halves)
    (hnext : w.next ≤ w'.next) (hstreams : w.streams s = none → w'.streams s = none) :
    Tracked s lost w' where
  made := Nat.lt_of_lt_of_le h.made hnext
  gone hs := by
    unfold held at hs
    rw [hhalves] at hs
    exact (h.gone hs).imp_left hstreams

/-- The last reference goes, and the stream with it. -/
theorem Tracked.release (h : Tracked s lost w) : Tracked s none (release w lost) := by
  refine ⟨by rw [next_release]; exact h.made, fun hs => Or.inl ?_⟩
  have hs' : s ∉ held w := by
    unfold held at hs ⊢
    rwa [halves_release] at hs
  cases lost with
  | none => exact (h.gone hs').resolve_right nofun
  | some t =>
    unfold TcpOwnership.release
    dsimp only
    by_cases hst : s = t
    · subst hst
      rw [if_neg hs']
      exact streams_destroy_self w s
    · have hnone := (h.gone hs').resolve_right fun hts => hst (Option.some.inj hts).symm
      split
      next => exact hnone
      next => exact (streams_destroy hst).trans hnone

/-- A half is given another reference, and loses the one it had. -/
theorem Tracked.setHalf (h : Tracked s lost w) (hkeyed : Keyed w) {key : Side × Nat}
    {old v : Option Nat} (hhalf : half w key = some old) (hv : lost = none ∨ lost = v) :
    Tracked s old (setHalf w key v) := by
  refine ⟨h.made, fun hs => ?_⟩
  have hentry := hkeyed.half_iff.mp hhalf
  have hnew : (key, v) ∈ (TcpOwnership.setHalf w key v).halves :=
    List.mem_map.mpr ⟨_, hentry, if_pos rfl⟩
  by_cases hheld : s ∈ held w
  · obtain ⟨key', hmem⟩ := mem_held.mp hheld
    by_cases hkey : key' = key
    · subst hkey
      exact Or.inr (Option.some.inj (hhalf.symm.trans (hkeyed.half_iff.mpr hmem)))
    · have hkept : (key', some s) ∈ (TcpOwnership.setHalf w key v).halves :=
        List.mem_map.mpr ⟨_, hmem, if_neg hkey⟩
      exact absurd (mem_held.mpr ⟨key', hkept⟩) hs
  · refine Or.inl ((h.gone hheld).resolve_right fun hlost => ?_)
    rcases hv with rfl | rfl
    · cases hlost
    · exact hs (mem_held.mpr ⟨key, hlost ▸ hnew⟩)

theorem half_setHalf_of_ne {key key' : Side × Nat} (v : Option Nat) (hne : key' ≠ key) :
    half (setHalf w key v) key' = half w key' := by
  unfold half TcpOwnership.setHalf
  induction w.halves with
  | nil => rfl
  | cons entry halves ih =>
    rw [List.map_cons]
    by_cases hkey : entry.1 = key
    · have hfst : ¬ key = key' := fun h => hne h.symm
      rw [if_pos hkey, List.find?_cons_of_neg (by simpa using hfst),
        List.find?_cons_of_neg (by simpa [hkey] using hfst)]
      exact ih
    · rw [if_neg hkey]
      by_cases hkey' : entry.1 = key'
      · rw [List.find?_cons_of_pos (by simpa using hkey'),
          List.find?_cons_of_pos (by simpa using hkey')]
      · rw [List.find?_cons_of_neg (by simpa using hkey'),
          List.find?_cons_of_neg (by simpa using hkey')]
        exact ih

end Tracked

theorem streams_transfer {o : Holders Nat Nat} {i j l : Nat} (hli : l ≠ i) (hlj : l ≠ j) :
    o.transfer i j l = o l :=
  (Function.update_of_ne hli ..).trans (Function.update_of_ne hlj ..)

/-- **Every step lets a shared stream go with the last reference**, unless it has gone. -/
theorem Tracked.step {s : Nat} {w w' : World} {action : Action} (h : Tracked s none w)
    (hkeyed : Keyed w) (hstep : TcpOwnership.step w action = some w') : Tracked s none w' := by
  have hgone : ∀ {i}, w.streams i ≠ none → w.streams s = none → s ≠ i := by
    rintro i hi hs rfl
    exact hi hs
  have hmade := h.made
  cases action with
  | construct null =>
    have hne : s ≠ w.next := Nat.ne_of_lt hmade
    cases null <;> obtain rfl := Option.some.inj hstep <;>
      exact h.of_eq rfl (Nat.le_succ _) fun hs => (Function.update_of_ne hne ..).trans hs
  | moveConstruct i =>
    simp only [TcpOwnership.step] at hstep
    split at hstep
    next => cases hstep
    next hi =>
      obtain rfl := Option.some.inj hstep
      exact h.of_eq rfl (Nat.le_succ _) fun hs =>
        (streams_transfer (hgone hi hs) (Nat.ne_of_lt hmade)).trans hs
  | moveAssign i j =>
    simp only [TcpOwnership.step] at hstep
    split at hstep
    next => cases hstep
    next hij =>
      rw [not_or] at hij
      obtain rfl := Option.some.inj hstep
      unfold TcpOwnership.moveAssign
      dsimp only
      split
      next =>
        refine h.of_eq (by simp) (by simp) fun hs => ?_
        exact (streams_transfer (hgone hij.2 hs) (hgone hij.1 hs)).trans
          ((streams_closeHandle _ (hgone hij.1 hs)).trans hs)
      next =>
        exact h.of_eq (by simp) (by simp) fun hs => (streams_closeHandle _ (hgone hij.1 hs)).trans hs
  | destroy i =>
    simp only [TcpOwnership.step] at hstep
    split at hstep
    next => cases hstep
    next hi =>
      rw [not_or] at hi
      obtain rfl := Option.some.inj hstep
      exact h.of_eq (by simp [TcpOwnership.destroy]) (by simp [TcpOwnership.destroy]) fun hs =>
        (streams_destroy (hgone hi.1 hs)).trans hs
  | intoSplit i =>
    simp only [TcpOwnership.step] at hstep
    split at hstep
    next => cases hstep
    next hi =>
      obtain rfl := Option.some.inj hstep
      refine ⟨Nat.lt_of_lt_of_le hmade (Nat.le_add_right _ 3), fun hs => Or.inl ?_⟩
      have hs' : s ∉ held w := fun hmem => hs (by
        obtain ⟨key, hkey⟩ := mem_held.mp hmem
        exact mem_held.mpr ⟨key, List.mem_append_left _ hkey⟩)
      have hnone := (h.gone hs').resolve_right nofun
      exact (streams_transfer (hgone hi hnone) (Nat.ne_of_lt hmade)).trans hnone
  | reunite r x =>
    obtain ⟨⟨res, w''⟩, hreunite, rfl⟩ := Option.map_eq_some_iff.mp hstep
    unfold TcpOwnership.reunite at hreunite
    split at hreunite
    next a b hr hx =>
      split at hreunite
      next =>
        cases hreunite
        exact h
      next =>
        dsimp only at hreunite
        split at hreunite
        next => cases hreunite
        next hlive =>
          cases hreunite
          -- each half that is emptied may have held the last reference
          have h₁ := (h.setHalf hkeyed hx (v := none) (Or.inl rfl)).release
          have hkeyed₁ : Keyed (TcpOwnership.release (TcpOwnership.setHalf w (.write, x) none)
              (some b)) := hkeyed.of_eq (by rw [halves_release, keys_setHalf]) (by
            rw [next_release]
            exact Nat.le_refl _)
          have hr₁ : half (TcpOwnership.release (TcpOwnership.setHalf w (.write, x) none)
              (some b)) (.read, r) = some (some a) := by
            unfold half
            rw [halves_release]
            exact (half_setHalf_of_ne none fun heq => by cases heq).trans hr
          have h₂ := h₁.setHalf hkeyed₁ hr₁ (v := none) (Or.inl rfl)
          generalize TcpOwnership.release (TcpOwnership.setHalf w (.write, x) none) (some b) = w₁
            at h₂ hlive
          have hmade₂ := h₂.made
          have hlast : Tracked s (some a)
              (TcpOwnership.moveConstruct (TcpOwnership.setHalf w₁ (.read, r) none) a) := by
            refine ⟨Nat.lt_succ_of_lt hmade₂, fun hs => (h₂.gone hs).imp_left fun hnone => ?_⟩
            refine (streams_transfer ?_ (Nat.ne_of_lt hmade₂)).trans hnone
            rintro rfl
            exact hlive hnone
          exact hlast.release
    next => cases hreunite
  | moveConstructHalf side a =>
    obtain ⟨v, hv, rfl⟩ := Option.map_eq_some_iff.mp hstep
    have h₁ := h.setHalf hkeyed hv (v := none) (Or.inl rfl)
    refine ⟨Nat.lt_succ_of_lt hmade, fun hs => ?_⟩
    have hs₁ : s ∉ held (TcpOwnership.setHalf w (side, a) none) := fun hmem => hs (by
      obtain ⟨key, hkey⟩ := mem_held.mp hmem
      exact mem_held.mpr ⟨key, List.mem_append_left _ hkey⟩)
    refine Or.inl ((h₁.gone hs₁).resolve_right ?_)
    rintro rfl
    exact hs (mem_held.mpr ⟨_, List.mem_append_right _ (List.mem_singleton.mpr rfl)⟩)
  | moveAssignHalf side a b =>
    simp only [TcpOwnership.step] at hstep
    split at hstep
    next old v ha hb =>
      split at hstep
      next =>
        obtain rfl := Option.some.inj hstep
        exact h
      next hab =>
        obtain rfl := Option.some.inj hstep
        have h₁ := h.setHalf hkeyed hb (v := none) (Or.inl rfl)
        have hkeyed₁ : Keyed (TcpOwnership.setHalf w (side, b) none) :=
          hkeyed.of_eq (keys_setHalf ..) (Nat.le_refl _)
        have ha₁ : half (TcpOwnership.setHalf w (side, b) none) (side, a) = some old :=
          (half_setHalf_of_ne none fun heq => hab (Prod.mk.inj heq).2).trans ha
        exact (h₁.setHalf hkeyed₁ ha₁ (Or.inr rfl)).release
    next => cases hstep
  | destroyHalf side a =>
    obtain ⟨old, hold, rfl⟩ := Option.map_eq_some_iff.mp hstep
    refine Tracked.release ⟨hmade, fun hs => ?_⟩
    by_cases hheld : s ∈ held w
    · obtain ⟨key, hmem⟩ := mem_held.mp hheld
      by_cases hkey : key = (side, a)
      · subst hkey
        exact Or.inr (Option.some.inj (hold.symm.trans (hkeyed.half_iff.mpr hmem)))
      · refine absurd (mem_held.mpr ⟨key, List.mem_filter.mpr ⟨hmem, ?_⟩⟩) hs
        exact decide_eq_true hkey
    · exact Or.inl ((h.gone hheld).resolve_right nofun)

/-- **A stream that was split is there exactly as long as a half refers to it**, whatever
else happens to streams and halves. -/
theorem shared_gone_iff {past later : List Action} {w w₁ w₂ : World} {i : Nat}
    (h : Run step Timely init past w) (hsplit : step w (.intoSplit i) = some w₁)
    (hlater : Run step Timely w₁ later w₂) :
    w₂.streams w.next = none ↔ w.next ∉ held w₂ := by
  obtain ⟨hinv, hkeyed⟩ : Inv w ∧ Keyed w :=
    h.invariant (fun _ w => Inv w ∧ Keyed w) ⟨inv_init, keyed_init⟩
      fun _ _ _ _ hw ht hstep => ⟨hw.1.step ht hstep, hw.2.step hstep⟩
  have htracked : Tracked w.next none w₁ := by
    simp only [step] at hsplit
    split at hsplit
    next => cases hsplit
    next =>
      obtain rfl := Option.some.inj hsplit
      refine ⟨Nat.lt_add_of_pos_right (Nat.succ_pos 2), fun hs => absurd ?_ hs⟩
      exact mem_held.mpr ⟨(.read, w.next + 1), List.mem_append_right _ (.head _)⟩
  obtain ⟨hinv₂, -, htracked₂⟩ : Inv w₂ ∧ Keyed w₂ ∧ Tracked w.next none w₂ :=
    hlater.invariant (fun _ w' => Inv w' ∧ Keyed w' ∧ Tracked w.next none w')
      ⟨hinv.step (show Timely w (.intoSplit i) from trivial) hsplit, hkeyed.step hsplit, htracked⟩
      fun _ _ _ _ hw ht hstep => ⟨hw.1.step ht hstep, hw.2.1.step hstep, hw.2.2.step hw.2.1 hstep⟩
  exact ⟨fun hnone hs => hinv₂.live _ hs hnone,
    fun hs => (htracked₂.gone hs).resolve_right nofun⟩

/-- One half of a stream is moved and the other destroyed. -/
theorem shared_gone_iff_moved : ∃ w, (w.streams 1 = none ↔ 1 ∉ held w) ∧ 1 ∈ held w := by
  let w : World := { init with streams := init.streams.put 0 (some 0), next := 1, nextHandle := 1 }
  have h : Run step Timely init [.construct false] w := Run.nil.snoc trivial rfl
  have hsplit : step w (.intoSplit 0) = some (intoSplit w 0) := rfl
  have hlater : Run step Timely (intoSplit w 0) [.moveConstructHalf .read 2, .destroyHalf .write 3]
      _ := (Run.nil.snoc trivial rfl).snoc trivial rfl
  exact ⟨_, shared_gone_iff h hsplit hlater, by decide⟩

/-- What was split is what the halves share. -/
theorem holds_intoSplit {w : World} (h : Inv w) {i k : Nat} (hk : w.streams.Holds i k) :
    (intoSplit w i).streams.Holds w.next k := by
  have hi : i ≠ w.next := by
    rintro rfl
    cases (h.fresh _ (Nat.le_refl _)).symm.trans hk
  exact (holds_transfer hi).mpr (Or.inl ⟨rfl, hk⟩)

theorem streams_intoSplit {w : World} (h : Inv w) {i j : Nat} (hji : j ≠ i)
    (hj : w.streams j ≠ none) : (intoSplit w i).streams j = w.streams j :=
  streams_transfer hji fun hnext => hj (hnext ▸ h.fresh _ (Nat.le_refl _))

/-! ### The last half -/

section DestroyHalf

variable {w w' : World} {side : Side} {a s k : Nat}

/-- What is left of the halves. -/
theorem halves_destroyHalf (h : step w (.destroyHalf side a) = some w') :
    w'.halves = w.halves.filter fun entry => entry.1 ≠ (side, a) := by
  obtain ⟨old, -, rfl⟩ := Option.map_eq_some_iff.mp h
  exact halves_release ..

theorem closedHandles_closeHandle (w : World) (i : Nat) (cause : Cause) :
    closedHandles (closeHandle w i cause) = closedHandles w ++ (w.streams i).join.toList := by
  unfold closeHandle
  split
  next hnone => simp [hnone]
  next h hsome => simp [closedHandles, hsome]

/-- What is closed stays closed. -/
theorem closed_destroyHalf (h : step w (.destroyHalf side a) = some w')
    (hk : k ∈ closedHandles w) : k ∈ closedHandles w' := by
  obtain ⟨old, -, rfl⟩ := Option.map_eq_some_iff.mp h
  unfold release
  split
  next => exact hk
  next t =>
    split
    next => exact hk
    next =>
      show k ∈ closedHandles (closeHandle _ t (.destroyed t))
      rw [closedHandles_closeHandle]
      exact List.mem_append_left _ hk

/-- A stream that is still referred to keeps what it owns. -/
theorem holds_destroyHalf (h : step w (.destroyHalf side a) = some w') (hs : s ∈ held w')
    (hk : w.streams.Holds s k) : w'.streams.Holds s k := by
  have hhalves := halves_destroyHalf h
  obtain ⟨old, -, rfl⟩ := Option.map_eq_some_iff.mp h
  unfold release
  split
  next => exact hk
  next t =>
    split
    next => exact hk
    next ht =>
      have hst : s ≠ t := by
        rintro rfl
        refine ht ?_
        unfold held at hs ⊢
        rwa [hhalves] at hs
      exact (streams_destroy hst).trans hk

/-- A stream that no half refers to any more is gone, and what it owned is closed. -/
theorem mem_closed_destroyHalf (hkeyed : Keyed w) (h : step w (.destroyHalf side a) = some w')
    (hs : s ∈ held w) (hs' : s ∉ held w') (hk : w.streams.Holds s k) : k ∈ closedHandles w' := by
  have hhalves := halves_destroyHalf h
  obtain ⟨old, hold, rfl⟩ := Option.map_eq_some_iff.mp h
  obtain ⟨key, hmem⟩ := mem_held.mp hs
  have hkey : key = (side, a) := by
    by_contra hne
    refine hs' (mem_held.mpr ⟨key, ?_⟩)
    rw [hhalves]
    exact List.mem_filter.mpr ⟨hmem, decide_eq_true hne⟩
  subst hkey
  obtain rfl := Option.some.inj (hold.symm.trans (hkeyed.half_iff.mpr hmem))
  have hgone : s ∉ held { w with halves := w.halves.filter fun entry => entry.1 ≠ (side, a) } := by
    unfold held at hs' ⊢
    rwa [hhalves] at hs'
  unfold release
  dsimp only
  rw [if_neg hgone]
  show k ∈ closedHandles (closeHandle _ s (.destroyed s))
  rw [closedHandles_closeHandle, join_eq_some.mpr hk]
  exact List.mem_append_right _ (.head _)

/-- What a shared stream owned when it was split: it owns it still, or it was closed with
the last half. -/
def Kept (s k : Nat) (w : World) : Prop :=
  (s ∈ held w → w.streams.Holds s k) ∧ (s ∉ held w → k ∈ closedHandles w)

theorem Kept.destroyHalf (hkept : Kept s k w) (hkeyed : Keyed w)
    (h : step w (.destroyHalf side a) = some w') : Kept s k w' := by
  refine ⟨fun hs => ?_, fun hs' => ?_⟩
  · refine holds_destroyHalf h hs (hkept.1 ?_)
    unfold held at hs ⊢
    rw [halves_destroyHalf h] at hs
    exact (List.filter_sublist.filterMap _).subset hs
  · by_cases hs : s ∈ held w
    · exact mem_closed_destroyHalf hkeyed h hs hs' (hkept.1 hs)
    · exact closed_destroyHalf h (hkept.2 hs)

end DestroyHalf

end Uvio.Net.TcpOwnership
