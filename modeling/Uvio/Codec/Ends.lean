import Uvio.Codec.Base
import Uvio.Io.Fetching
import Uvio.Program.Bisimulation

/-!
# Buffered ends act as ideal ones

`readExact_simulates` carries what returns on the ideal ends over to the buffered ones. A
buffered reader over a stream that does not end also waits where the ideal one waits, and
over one that ends it fails where the ideal one fails: the two act alike.

- `readExact_bisimilar`, `readExact_winds`: a read, over a stream that does not end and over
  one that does.
- `ReadSame`: two readers read alike, however often.
- `waits_of_prefix`: a decoder that uses up what it is given waits on less.
-/

namespace Uvio.Codec

open Program Io

/-- Two reads into `buf` that give the same, of which the destination keeps its size. -/
def SameRead {α : Type} (buf : Bytes) (a b : Bytes × α) : Prop := a = b ∧ a.1.length = buf.length

/-- A new writer has written nothing. -/
theorem backs_new {io : Outlet} {size : Nat} (hsize : size ≤ intMax) (hio : io.Willing)
    (htaken : io.taken = []) : Backs (BufWriter.new io size) Record.blank := by
  refine ⟨BufWriter.sound_new (fun i => Or.inl (hio i)) hsize, hio, ?_, List.nil_prefix⟩
  rw [BufWriter.out_of_laid (StreamBuffer.laid_new hsize), List.append_nil]
  exact htaken

variable {E : Stop → Prop}

theorem readExact_bisimilar (buf : Bytes) :
    Bisimilar E Serves Serves (SameRead buf) (Reader.readExact buf : Task BufReader _)
      (Reader.readExact buf : Task Feed _) := by
  rintro r ⟨unread, ending⟩ ⟨hs, hun, rfl⟩
  dsimp only at hun
  have hmeets := BufReader.readExact_meets hs buf
  cases hrun : (BufReader.readExact buf).run r with
  | error e =>
    obtain ⟨rfl, hlt⟩ := (meets_of_error hrun).mp hmeets
    rw [hun] at hlt
    rw [Feed.run_readExact_of_lt hlt]
    exact Or.inl rfl
  | ok p =>
    obtain ⟨⟨dst, ret⟩, r'⟩ := p
    obtain ⟨rfl, hdst, hfront, hs', -⟩ := (meets_of_ok hrun).mp hmeets
    dsimp only at hdst hfront
    rw [hun] at hfront
    subst hfront
    rw [Feed.run_readExact hdst]
    exact ⟨⟨rfl, hdst⟩, hs', rfl, rfl⟩

/-- The reader is over a connection that delivers what is left of the feed, which ends, and
then fails at least `k` times. -/
def Winds (chunks : List Bytes) (size k : Nat) (r : BufReader) (s : Feed) : Prop :=
  ∃ e k' n f, k ≤ k' ∧ r.Through chunks e size k' n f ∧ s = ⟨chunks.flatten.drop n, some e⟩

theorem readExact_winds {chunks : List Bytes} (hne : ∀ x ∈ chunks, x ≠ []) {size : Nat} (k : Nat)
    {buf : Bytes} (hbuf : buf.length ≤ size) :
    Bisimilar E (Winds chunks size (k + 1)) (Winds chunks size k) (SameRead buf)
      (Reader.readExact buf : Task BufReader _) (Reader.readExact buf : Task Feed _) := by
  rintro r _ ⟨e, k', n, f, hk, h, rfl⟩
  have horder := h.order
  have hle := h.le
  have hmeets := h.readExact_meets hne hbuf
  cases hrun : (BufReader.readExact buf).run r with
  | error stop =>
    obtain ⟨-, rfl, -⟩ := (meets_of_error hrun).mp hmeets
    exact absurd hk (Nat.not_succ_le_zero k)
  | ok p =>
    obtain ⟨out, r'⟩ := p
    rcases (meets_of_ok hrun).mp hmeets with ⟨henough, rfl, f', h', -⟩ | ⟨hshort, -, rfl, h'⟩
    · have hlen : buf.length ≤ (chunks.flatten.drop n).length := by
        rw [List.length_drop]
        omega
      rw [Feed.run_readExact_of_le hlen]
      refine ⟨⟨rfl, List.length_take_of_le hlen⟩, e, k', n + buf.length, f', by omega, h', ?_⟩
      rw [List.drop_drop]
    · have hlen : (chunks.flatten.drop n).length < buf.length := by
        rw [List.length_drop]
        omega
      rw [Feed.run_readExact_of_lt hlen]
      exact ⟨⟨rfl, rfl⟩, e, k' - 1, n, _, by omega, h', rfl⟩

theorem assertion_bisimilar {σ τ : Type} {R : σ → τ → Prop} (ndebug x : Bool) :
    Bisimilar E R R Eq (assertion ndebug x : Task σ Unit) (assertion ndebug x : Task τ Unit) :=
  Bisimilar.ite (Bisimilar.pure (fun _ _ h => h) rfl) (Bisimilar.stop _)

theorem resize_bisimilar {σ τ : Type} {R : σ → τ → Prop} (s : Bytes) (n : Nat) :
    Bisimilar E R R Eq (resize s n : Task σ Bytes) (resize s n : Task τ Bytes) :=
  Bisimilar.ite (Bisimilar.stop _) (Bisimilar.pure (fun _ _ h => h) rfl)

/-! ## Readers that read alike -/

section ReadSame

variable {ρ τ : Type} [Reader ρ] [Reader τ] {R : ρ → τ → Prop} {w : Nat}

/-- Reads from related states give the same and leave related states, however often. -/
def ReadSame (E : Stop → Prop) (R : ρ → τ → Prop) : Prop :=
  ∀ buf, Bisimilar E R R Eq (Reader.readExact buf : Task ρ _) (Reader.readExact buf : Task τ _)

theorem serves_readSame : ReadSame E Serves := fun buf =>
  (readExact_bisimilar buf).imp fun _ _ h => h.1

/-- Length-prefixed messages are read alike if their lengths are. -/
theorem ReadSame.decodePrefixed (h : ReadSame E R) {x : Task ρ (Result (BitVec w))}
    {y : Task τ (Result (BitVec w))} (hxy : Bisimilar E R R Eq x y) (message : Bytes) :
    Bisimilar E R R Eq (Codec.decodePrefixed x message) (Codec.decodePrefixed y message) := by
  refine hxy.bind_eq ?_
  rintro (e | length)
  · exact Bisimilar.pure (fun _ _ h => h) rfl
  · refine (resize_bisimilar message _).bind_eq fun message => ?_
    refine (h message).bind_eq ?_
    rintro ⟨message, e | _⟩
    · exact Bisimilar.pure (fun _ _ h => h) rfl
    · exact Bisimilar.pure (fun _ _ h => h) rfl

end ReadSame

/-! ## Waiting for the rest -/

/-- The second feed has `q` more. -/
def Longer (q : Bytes) (s t : Feed) : Prop := s.ending = none ∧ t = ⟨s.unread ++ q, none⟩

/-- The feed with less waits, or reads the same. -/
theorem longer_readSame (q : Bytes) : ReadSame (· = .pending) (Longer q) := by
  rintro buf ⟨unread, _⟩ _ ⟨rfl, rfl⟩
  by_cases hlen : buf.length ≤ unread.length
  · have hlen' : buf.length ≤ (unread ++ q).length := by
      rw [List.length_append]
      omega
    rw [Feed.run_readExact_of_le hlen, Feed.run_readExact_of_le hlen']
    dsimp only
    rw [List.take_append_of_le_length hlen, List.drop_append_of_le_length hlen]
    exact ⟨rfl, rfl, rfl⟩
  · rw [Feed.run_readExact_of_lt (Nat.lt_of_not_le hlen)]
    exact Alike.of_error (E := fun e : Stop => e = .pending) rfl _

/-- **A decoder waits on a part of what it uses up**, through a buffer of any size. -/
theorem waits_of_prefix {α : Type} {x : Task BufReader α} {y : Task Feed α}
    (hxy : Bisimilar (fun _ => False) Serves Serves Eq x y)
    (hy : ∀ q, Bisimilar (· = .pending) (Longer q) (Longer q) Eq y y) {whole : Bytes} {a : α}
    (hrun : y.run ⟨whole, none⟩ = .ok (a, ⟨[], none⟩)) {r : BufReader} (hr : r.Sound) {q : Bytes}
    (hq : q ≠ []) (hwhole : whole = r.unread ++ q) : x.run r = .error .pending := by
  have hpart : y.run ⟨r.unread, none⟩ = .error .pending := by
    subst hwhole
    rcases (hy q ⟨r.unread, none⟩ _ ⟨rfl, rfl⟩).cases with
      ⟨b, s', b', t', -, ht, -, -, rfl⟩ | ⟨e, -, ht⟩ | ⟨e, hs, rfl⟩
    · -- it would have left `q`
      have hsame := Except.ok.inj (hrun.symm.trans ht)
      have hleft : s'.unread ++ q = [] := (congrArg (fun p => p.2.unread) hsame).symm
      exact absurd (List.append_eq_nil_iff.mp hleft).2 hq
    · cases hrun.symm.trans ht
    · exact hs
  rcases (hxy r ⟨r.unread, none⟩ ⟨hr, rfl, rfl⟩).cases with
    ⟨b, r', b', s', -, hs, -⟩ | ⟨e, hx, hs⟩ | ⟨e, -, hfalse⟩
  · cases hpart.symm.trans hs
  · rw [hx]
    exact congrArg _ (Except.error.inj (hs.symm.trans hpart))
  · exact False.elim hfalse

end Uvio.Codec
