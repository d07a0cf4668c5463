import Uvio.Codec.LengthDelimited

/-!
# The length prefix as a number

`LengthDelimitedCodec` writes its length as a variable-length integer, but of the length
with its bytes swapped, and reads one of ten bytes without a look at what the tenth shifts
off the end.

- `writesCanonical_iff`: the lengths written as they are.
- `readsExact_iff`: the streams of which a length is read as it stands there, or refused.
-/

namespace Uvio.Codec.LengthDelimited

open Program Net

/-! ## What is written -/

/-- `encode_length` writes the shortest integer that stands for the length. -/
def WritesCanonical (order : ByteOrder) (length : BitVec 64) : Prop :=
  ∀ s : Record, ∃ bs, (encodeLength order length).run s
      = .ok (.ok (), { s with written := s.written ++ bs }) ∧ Canonical length.toNat bs

theorem hton64_eq_iff (order : ByteOrder) (x : BitVec 64) :
    order.hton64 x = x ↔
      order = .bigEndian ∨ (toLE 8 x.toNat).reverse = toLE 8 x.toNat := by
  cases order with
  | littleEndian =>
    rw [ByteOrder.hton64_littleEndian, ← BitVec.toNat_inj, toNat_bswap64, swap_eq_iff x.isLt]
    simp
  | bigEndian => simp

theorem WritesCanonical.hton64_eq {order : ByteOrder} {length : BitVec 64}
    (h : WritesCanonical order length) : order.hton64 length = length := by
  obtain ⟨bs, hrun, hcanonical⟩ := h Record.blank
  rw [run_encodeLength] at hrun
  cases hrun
  exact BitVec.eq_of_toNat_eq (varint_injective (canonical_iff.mp hcanonical))

/-- **The lengths written as they are**: all on a big-endian host, and on a little-endian
one those whose eight octets read the same in both directions. -/
theorem writesCanonical_iff (order : ByteOrder) (length : BitVec 64) :
    WritesCanonical order length ↔
      order = .bigEndian ∨ (toLE 8 length.toNat).reverse = toLE 8 length.toNat := by
  rw [← hton64_eq_iff]
  constructor
  · exact WritesCanonical.hton64_eq
  · intro heq s
    refine ⟨_, run_encodeLength order length s, ?_⟩
    rw [heq]
    exact canonical_varint _

/-- A little-endian host writes the length one in nine bytes. -/
theorem not_writesCanonical_one :
    ¬ ∀ (order : ByteOrder) (length : BitVec 64), WritesCanonical order length := by
  intro h
  have hone := (h .littleEndian 1).hton64_eq
  revert hone
  decide

/-! ## What is read -/

/-- A length is the number in front of the stream, which has at most ten bytes and fits in
64 bits, behind `ntoh64`; anything else in front of it is refused. -/
structure ReadsExact (order : ByteOrder) (s : Feed) : Prop where
  ok : ∀ {length : BitVec 64} {s' : Feed}, (decodeLength order).run s = .ok (.ok length, s') →
    ∃ vs, s.unread = vs ++ s'.unread ∧ Terminated vs ∧ vs.length ≤ 10 ∧ ofGroups vs < 2 ^ 64 ∧
      length = order.ntoh64 (BitVec.ofNat 64 (ofGroups vs))
  unterminated : ∀ {front rest : Bytes}, s.unread = front ++ rest → Announcing front →
    front.length = 10 → ∃ e s', (decodeLength order).run s = .ok (.error e, s')
  tooLarge : ∀ {vs rest : Bytes}, s.unread = vs ++ rest → Terminated vs → vs.length ≤ 10 →
    2 ^ 64 ≤ ofGroups vs → ∃ e s', (decodeLength order).run s = .ok (.error e, s')

/-- The stream begins with nine bytes that announce another one, and the tenth is the last
but has more than the one bit that fits. -/
def Overflows (bs : Bytes) : Prop :=
  ∃ front last rest, bs = front ++ [last] ++ rest ∧ front.length = 9 ∧ Announcing front ∧
    2 ≤ last.toNat ∧ last.toNat < 128

theorem readsExact_of_not_overflows (order : ByteOrder) {s : Feed} (h : ¬ Overflows s.unread) :
    ReadsExact order s := by
  have hfits : ∀ {vs rest : Bytes}, s.unread = vs ++ rest → Terminated vs → vs.length ≤ 10 →
      ofGroups vs < 2 ^ 64 := by
    intro vs rest hunread hvs hlen
    by_contra hge
    obtain ⟨front, last, rfl, hfront⟩ :=
      (hvs.overflows_iff (n := 9) hlen).mp (Nat.le_of_not_lt hge)
    exact h ⟨front, last, rest, hunread, hfront⟩
  obtain ⟨unread, ending⟩ := s
  refine ⟨fun {length s'} hrun => ?_, fun {front rest} hunread hfront hlen => ?_,
    fun hunread hvs hlen hge => absurd (hfits hunread hvs hlen) (Nat.not_lt.mpr hge)⟩
  · rcases terminated_cases 10 unread with ⟨vs, rest, rfl, hvs, hlen⟩ |
      ⟨front, rest, rfl, hfront, hlen⟩ | ⟨hbs, hlen⟩
    · rw [run_decodeLength_terminated order hvs hlen] at hrun
      cases hrun
      exact ⟨vs, rfl, hvs, hlen, hfits rfl hvs hlen, rfl⟩
    · rw [run_decodeLength_announcing order hfront hlen] at hrun
      cases hrun
    · rw [run_decodeLength_starved order hbs hlen] at hrun
      cases ending with
      | none => cases hrun
      | some e => cases hrun
  · dsimp only at hunread
    subst hunread
    exact ⟨_, _, run_decodeLength_announcing order hfront hlen rest ending⟩

theorem ReadsExact.not_overflows {order : ByteOrder} {s : Feed} (h : ReadsExact order s) :
    ¬ Overflows s.unread := by
  rintro ⟨front, last, rest, hunread, hnine, hfront, htwo, hlast⟩
  have hvs : Terminated (front ++ [last]) := ⟨front, last, rfl, hfront, hlast⟩
  have hlen : (front ++ [last]).length ≤ 10 := by
    rw [List.length_append, hnine]
    rfl
  have hge : 2 ^ 64 ≤ ofGroups (front ++ [last]) :=
    (hvs.overflows_iff (n := 9) hlen).mpr ⟨front, last, rfl, hnine, hfront, htwo, hlast⟩
  -- it is read all the same
  obtain ⟨e, s', hrun⟩ := h.tooLarge hunread hvs hlen hge
  obtain ⟨unread, ending⟩ := s
  dsimp only at hunread
  subst hunread
  rw [run_decodeLength_terminated order hvs hlen] at hrun
  cases hrun

/-- **The streams whose length is read exactly or refused**: all but those on which the
tenth group overflows. -/
theorem readsExact_iff (order : ByteOrder) (s : Feed) :
    ReadsExact order s ↔ ¬ Overflows s.unread :=
  ⟨ReadsExact.not_overflows, readsExact_of_not_overflows order⟩

/-- 2 ^ 64 is read as zero. -/
theorem not_readsExact_two :
    ¬ ∀ (order : ByteOrder) (s : Feed), ReadsExact order s := by
  intro h
  have hten := (h .bigEndian ⟨List.replicate 9 0x80 ++ [0x02], none⟩).not_overflows
  exact hten ⟨List.replicate 9 0x80, 0x02, [], rfl, rfl, by unfold Announcing; decide,
    by decide, by decide⟩

end Uvio.Codec.LengthDelimited
