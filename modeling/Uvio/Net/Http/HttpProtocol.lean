import Uvio.Common.Machine

/-!
# HTTP messages

`HttpHeader` and the two message types. The header map is an unordered multimap
under case-insensitive comparison of keys; here it is the list of its pairs in
the order in which it is iterated. The order is the standard library's choice, so
statements about messages compare headers up to permutation.
-/

namespace Uvio.Net.Http

/-- `tolower`, in the C locale. -/
def toLower (c : Byte) : Byte := if 65 ≤ c.toNat ∧ c.toNat ≤ 90 then c + 32 else c

/-- `CaseInsensitiveEqual`. -/
def caseInsensitiveEqual (left right : Bytes) : Bool :=
  left.length == right.length && (left.zip right).all fun p => toLower p.1 == toLower p.2

theorem caseInsensitiveEqual_iff {left right : Bytes} :
    caseInsensitiveEqual left right = true ↔ left.map toLower = right.map toLower := by
  unfold caseInsensitiveEqual
  induction left generalizing right with
  | nil => cases right <;> simp
  | cons c left ih =>
    cases right with
    | nil => simp
    | cons d right =>
      rw [List.map_cons, List.map_cons, List.cons.injEq, ← ih]
      simp only [List.length_cons, List.zip_cons_cons, List.all_cons, Bool.and_eq_true, beq_iff_eq,
        Nat.succ_inj]
      exact and_left_comm

/-- `HttpHeader`, by the pairs `inner()` gives. -/
structure HttpHeader where
  inner : List (Bytes × Bytes)
deriving DecidableEq, Repr

namespace HttpHeader

/-- An empty header; also what is left of a header that was moved from. -/
def empty : HttpHeader := ⟨[]⟩

/-- `add(key, value)`. -/
def add (h : HttpHeader) (key value : Bytes) : HttpHeader := ⟨h.inner ++ [(key, value)]⟩

/-- `find(case_insensitive_key)`. -/
def find (h : HttpHeader) (key : Bytes) : Option Bytes :=
  (h.inner.find? fun entry => caseInsensitiveEqual entry.1 key).map (·.2)

/-- `std::move`: the value taken, and what is left behind. -/
def move (h : HttpHeader) : HttpHeader × HttpHeader := (h, empty)

@[simp] theorem inner_add (h : HttpHeader) (key value : Bytes) :
    (h.add key value).inner = h.inner ++ [(key, value)] := rfl

/-- The case of a key does not matter. -/
theorem find_congr {h : HttpHeader} {key key' : Bytes}
    (heq : caseInsensitiveEqual key key' = true) : h.find key = h.find key' := by
  have hsame : ∀ entry : Bytes × Bytes,
      caseInsensitiveEqual entry.1 key = caseInsensitiveEqual entry.1 key' := by
    intro entry
    rw [Bool.eq_iff_iff, caseInsensitiveEqual_iff, caseInsensitiveEqual_iff,
      caseInsensitiveEqual_iff.mp heq]
  unfold find
  rw [funext hsame]

end HttpHeader

structure HttpRequest where
  method : Bytes
  uri : Bytes
  headers : HttpHeader
  body : Bytes
deriving DecidableEq, Repr

structure HttpResponse where
  statusCode : Int
  statusText : Bytes
  headers : HttpHeader
  body : Bytes
deriving DecidableEq, Repr

/-- `HttpRequest{}`. -/
def HttpRequest.fresh : HttpRequest := ⟨[], [], .empty, []⟩

/-- An `HttpResponse` nothing but whose status code is set, to anything. -/
def HttpResponse.fresh (statusCode : Int) : HttpResponse := ⟨statusCode, [], .empty, []⟩

end Uvio.Net.Http
