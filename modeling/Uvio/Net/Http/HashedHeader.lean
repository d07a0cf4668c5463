import Uvio.Net.Http.HttpProtocol
import Uvio.Program.HashMultimap

/-!
# The header map

`HttpHeader` is an `std::unordered_multimap` under `CaseInsensitiveHash` and
`CaseInsensitiveEqual`. Here the two functors meet a multimap in buckets. What the standard
library is free to choose is a parameter: `std::hash<int>`, the place of an entry in its
bucket, and when the table grows.

- `caseInsensitiveEqual_equivalence`, `caseInsensitiveHash_congr`: the functors fit together.
- `lookup_answers`: what `find` and `find_all` give after any additions.
-/

namespace Uvio.Net.Http

open Program

/-! ## The functors -/

theorem caseInsensitiveEqual_equivalence :
    Equivalence fun a b => caseInsensitiveEqual a b = true := by
  simp only [caseInsensitiveEqual_iff]
  exact ⟨fun _ => rfl, fun h => h.symm, fun h h' => h.trans h'⟩

/-- One step of the loop of `CaseInsensitiveHash`, in 64 bits that wrap. -/
def combineHash (hash : BitVec 32 → BitVec 64) (seed : BitVec 64) (c : Byte) : BitVec 64 :=
  seed ^^^ (hash (charToInt (toLower c)) + 0x9e3779b9 + (seed <<< 6) + (seed >>> 2))

/-- `CaseInsensitiveHash`, over a given `std::hash<int>`. -/
def caseInsensitiveHash (hash : BitVec 32 → BitVec 64) (str : Bytes) : BitVec 64 :=
  str.foldl (combineHash hash) 0

/-- Equal keys have equal hashes, however long they are. -/
theorem caseInsensitiveHash_congr (hash : BitVec 32 → BitVec 64) {left right : Bytes}
    (h : caseInsensitiveEqual left right = true) :
    caseInsensitiveHash hash left = caseInsensitiveHash hash right := by
  rw [caseInsensitiveEqual_iff] at h
  unfold caseInsensitiveHash
  generalize (0 : BitVec 64) = seed
  induction left generalizing right seed with
  | nil =>
    obtain rfl := List.map_eq_nil_iff.mp h.symm
    rfl
  | cons c left ih =>
    cases right with
    | nil => cases h
    | cons d right =>
      obtain ⟨hcd, hrest⟩ := List.cons.inj h
      have hstep : combineHash hash seed c = combineHash hash seed d := by
        rw [combineHash, hcd, combineHash]
      rw [List.foldl_cons, List.foldl_cons, hstep, ih hrest]

/-! ## The map -/

/-- `CaseInsensitiveMultimap`. -/
abbrev CaseInsensitiveMultimap := HashMultimap Bytes Bytes

/-- What the standard library chooses. -/
structure Library where
  hash : BitVec 32 → BitVec 64
  place : Placement caseInsensitiveEqual Bytes
  grow : Nat → Nat → Option Nat

/-- A library that hashes an `int` to itself, and keeps to one bucket. -/
def Library.plain : Library :=
  ⟨BitVec.signExtend 64, .front caseInsensitiveEqual_equivalence Bytes, fun _ _ => none⟩

namespace Library

variable (lib : Library)

/-- The hash as the table takes it. -/
def hashOf (key : Bytes) : Nat := (caseInsensitiveHash lib.hash key).toNat

/-- `add(key, value)`. -/
def add (table : CaseInsensitiveMultimap) (entry : Bytes × Bytes) : CaseInsensitiveMultimap :=
  table.emplace lib.place lib.hashOf lib.grow entry

/-- `header_multimap_.equal_range(key)`. -/
def equalRange (table : CaseInsensitiveMultimap) (key : Bytes) : List (Bytes × Bytes) :=
  HashMultimap.equalRange lib.hashOf caseInsensitiveEqual table key

/-- `find(case_insensitive_key)`. -/
def find (table : CaseInsensitiveMultimap) (key : Bytes) : Option Bytes :=
  match lib.equalRange table key with
  | [] => none
  | entry :: _ => some entry.2

/-- `find_all(case_insensitive_key)`. -/
def findAll (table : CaseInsensitiveMultimap) (key : Bytes) : Option (List Bytes) :=
  match lib.equalRange table key with
  | [] => none
  | entry :: range => some ((entry :: range).map (·.2))

/-- The table after a sequence of `add` calls. -/
def addAll (entries : List (Bytes × Bytes)) : CaseInsensitiveMultimap :=
  entries.foldl lib.add .empty

end Library

/-- The values that were added under a key that is the same up to case. -/
def valuesOf (entries : List (Bytes × Bytes)) (key : Bytes) : List Bytes :=
  (entries.filter fun entry => entry.1.map toLower = key.map toLower).map (·.2)

/-- What the two lookups should give: the values, each as often as it was added, and one of
them; or nothing, both. -/
structure Answers (values : List Bytes) (all : Option (List Bytes)) (one : Option Bytes) :
    Prop where
  all_none : all = none ↔ values = []
  all_some : ∀ {found : List Bytes}, all = some found → found.Perm values
  one_none : one = none ↔ values = []
  one_some : ∀ {value : Bytes}, one = some value → value ∈ values

theorem hashOf_congr (lib : Library) (left right : Bytes)
    (h : caseInsensitiveEqual left right = true) : lib.hashOf left = lib.hashOf right := by
  rw [Library.hashOf, caseInsensitiveHash_congr lib.hash h, Library.hashOf]

theorem equalRange_addAll (lib : Library) (entries : List (Bytes × Bytes)) (key : Bytes) :
    ((lib.equalRange (lib.addAll entries) key).map (·.2)).Perm (valuesOf entries key) := by
  have hperm : (lib.equalRange (lib.addAll entries) key).Perm _ :=
    HashMultimap.equalRange_perm (hashOf_congr lib) entries key
  have hfilter : (entries.filter fun entry => caseInsensitiveEqual key entry.1)
      = entries.filter fun entry => entry.1.map toLower = key.map toLower := by
    refine List.filter_congr fun entry _ => ?_
    rw [Bool.eq_iff_iff, caseInsensitiveEqual_iff, decide_eq_true_iff]
    exact eq_comm
  rw [valuesOf, ← hfilter]
  exact hperm.map _

/-- **Lookups in the header map**: the functors fit together, and after any additions
`find_all` and `find` answer with the values of the keys that are the same up to case. -/
theorem lookup_answers (lib : Library) :
    (Equivalence fun a b => caseInsensitiveEqual a b = true) ∧
    (∀ a b, caseInsensitiveEqual a b = true →
      caseInsensitiveHash lib.hash a = caseInsensitiveHash lib.hash b) ∧
    ∀ entries key, Answers (valuesOf entries key) (lib.findAll (lib.addAll entries) key)
      (lib.find (lib.addAll entries) key) := by
  refine ⟨caseInsensitiveEqual_equivalence, fun _ _ h => caseInsensitiveHash_congr lib.hash h,
    fun entries key => ?_⟩
  have hperm := equalRange_addAll lib entries key
  unfold Library.findAll Library.find
  cases hrange : lib.equalRange (lib.addAll entries) key with
  | nil =>
    rw [hrange] at hperm
    have hnil : valuesOf entries key = [] := hperm.nil_eq.symm
    rw [hnil]
    exact ⟨by simp, nofun, by simp, nofun⟩
  | cons entry range =>
    rw [hrange] at hperm
    have hmem : entry.2 ∈ valuesOf entries key := hperm.mem_iff.mp List.mem_cons_self
    have hne : valuesOf entries key ≠ [] := List.ne_nil_of_mem hmem
    refine ⟨by simp [hne], fun h => ?_, by simp [hne], fun h => ?_⟩
    · cases h
      exact hperm
    · cases h
      exact hmem

/-- Two cookies, looked up in lower case. -/
theorem lookup_answers_cookies :
    caseInsensitiveHash (BitVec.signExtend 64) (ascii "Test")
        = caseInsensitiveHash (BitVec.signExtend 64) (ascii "tesT") ∧
      Answers [ascii "ID=id", ascii "name=name"]
        (Library.plain.findAll (Library.plain.addAll
          [(ascii "Set-Cookie", ascii "ID=id"), (ascii "Set-Cookie", ascii "name=name")])
          (ascii "set-cookie"))
        (Library.plain.find (Library.plain.addAll
          [(ascii "Set-Cookie", ascii "ID=id"), (ascii "Set-Cookie", ascii "name=name")])
          (ascii "set-cookie")) := by
  have hvalues : valuesOf
      [(ascii "Set-Cookie", ascii "ID=id"), (ascii "Set-Cookie", ascii "name=name")]
      (ascii "set-cookie") = [ascii "ID=id", ascii "name=name"] := by decide
  rw [← hvalues]
  exact ⟨(lookup_answers .plain).2.1 _ _ (by decide), (lookup_answers .plain).2.2 _ _⟩

end Uvio.Net.Http
