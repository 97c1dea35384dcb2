import Mathlib

/-!
# Octet strings and character sets

`Uri.cpp` scans `std::string`s one `char` at a time. A `char` and the `uint8_t` that
`EncodeElement` reads it as carry the same eight bits, so a string is a list of `UInt8` here,
and the character literals of the source are their codes.

The character sets come from `CharacterSet.hpp`, which the sources only include. The spec
describes it as a membership test over sets built from single characters, contiguous ranges
and unions, and that is how it is modelled. The named sets are the ones `Uri.cpp` builds at
its top.
-/

namespace Uri

/-- The octets of a `std::string`. -/
abbrev Bytes := List UInt8

/-- The octets of a string literal of the source, all of them ASCII. -/
def bytesOf (s : String) : Bytes := s.toList.map Char.toUInt8

@[simp]
theorem toUInt8_toNat (c : UInt8) : c.toNat.toUInt8 = c :=
  UInt8.ext_iff.2 (UInt8.toNat_ofNat_of_lt c.toNat_lt)

theorem eq_toUInt8_of_toNat {a : UInt8} {n : Nat} (h : a.toNat = n) : a = n.toUInt8 := by
  rw [← h, toUInt8_toNat]

@[simp]
theorem toUInt16_toNat (n : UInt16) : n.toNat.toUInt16 = n :=
  UInt16.ext_iff.2 (UInt16.toNat_ofNat_of_lt n.toNat_lt)

/-- The decimal digits of `n`, as `operator<<` writes an unsigned integer. -/
def decimal (n : Nat) : Bytes := (Nat.toDigits 10 n).map Char.toUInt8

/-! ## Searching a string -/

/-- `std::string::find_first_of`: the index of the first character in `chars`, `npos` as `none`. -/
def findFirstOf (chars : Bytes) : Bytes → Option Nat
  | [] => none
  | c :: s => if c ∈ chars then some 0 else (findFirstOf chars s).map (· + 1)

/-- `std::string::find` of a single character. -/
def find (s : Bytes) (c : UInt8) : Option Nat := findFirstOf [c] s

@[simp]
theorem findFirstOf_nil (chars : Bytes) : findFirstOf chars [] = none := rfl

theorem findFirstOf_cons (chars : Bytes) (c : UInt8) (s : Bytes) :
    findFirstOf chars (c :: s) =
      if c ∈ chars then some 0 else (findFirstOf chars s).map (· + 1) := rfl

theorem findFirstOf_append_of_forall {chars a : Bytes} (b : Bytes) (h : ∀ c ∈ a, c ∉ chars) :
    findFirstOf chars (a ++ b) = (findFirstOf chars b).map (· + a.length) := by
  induction a with
  | nil => simp
  | cons c a ih =>
    simp only [List.mem_cons, forall_eq_or_imp] at h
    simp only [List.cons_append, findFirstOf_cons, if_neg h.1, ih h.2, Option.map_map,
      List.length_cons]
    congr 1

theorem findFirstOf_eq_none {chars s : Bytes} (h : ∀ c ∈ s, c ∉ chars) :
    findFirstOf chars s = none := by
  simpa using findFirstOf_append_of_forall [] h

theorem findFirstOf_append_cons {chars a : Bytes} {c : UInt8} (b : Bytes) (h : ∀ x ∈ a, x ∉ chars)
    (hc : c ∈ chars) : findFirstOf chars (a ++ c :: b) = some a.length := by
  simp [findFirstOf_append_of_forall _ h, findFirstOf_cons, hc]

/-! ## Joining -/

section Intercalate

variable {α : Type} (sep : List α)

theorem intercalate_cons_cons (a b : List α) (rest : List (List α)) :
    sep.intercalate (a :: b :: rest) = a ++ sep ++ sep.intercalate (b :: rest) := by
  simp [List.intercalate, List.intersperse_cons_cons, List.append_assoc]

theorem mem_intercalate {c : α} :
    ∀ {parts : List (List α)}, c ∈ sep.intercalate parts → c ∈ sep ∨ ∃ part ∈ parts, c ∈ part
  | [], h => by simp [List.intercalate] at h
  | [part], h => Or.inr ⟨part, List.mem_singleton_self _, by simpa [List.intercalate] using h⟩
  | part :: next :: rest, h => by
    rw [intercalate_cons_cons, List.mem_append, List.mem_append] at h
    rcases h with (h | h) | h
    · exact Or.inr ⟨part, List.mem_cons_self _ _, h⟩
    · exact Or.inl h
    · rcases mem_intercalate h with h | ⟨p, hp, h⟩
      · exact Or.inl h
      · exact Or.inr ⟨p, List.mem_cons_of_mem _ hp, h⟩

end Intercalate

/-! ## Letter case -/

/-- `std::tolower` on an `unsigned char` in the C locale: only `A` to `Z` change. -/
def toLower (c : UInt8) : UInt8 :=
  if 'A'.toNat ≤ c.toNat ∧ c.toNat ≤ 'Z'.toNat then c + 32 else c

theorem toLower_toNat (c : UInt8) :
    (toLower c).toNat = if 65 ≤ c.toNat ∧ c.toNat ≤ 90 then c.toNat + 32 else c.toNat := by
  unfold toLower
  split_ifs with h h' h'
  · have h32 : (32 : UInt8).toNat = 32 := rfl
    simp only [UInt8.toNat_add, h32, UInt8.size]
    simp at h
    omega
  all_goals simp_all

@[simp]
theorem toLower_toLower (c : UInt8) : toLower (toLower c) = toLower c := by
  rw [UInt8.ext_iff, toLower_toNat, toLower_toNat]
  split_ifs <;> omega

/-! ## Character sets -/

/-- Modelled from the spec (`CharacterSet.hpp` is not in the sources): a union of code ranges. -/
structure CharacterSet where
  ranges : List (Nat × Nat)

namespace CharacterSet

/-- `CharacterSet(first, last)`. -/
def range (first last : Char) : CharacterSet := ⟨[(first.toNat, last.toNat)]⟩

/-- `CharacterSet(c)`, the set of one character. -/
def single (c : Char) : CharacterSet := range c c

/-- The set built from an initializer list of sets. -/
def union (sets : List CharacterSet) : CharacterSet := ⟨sets.flatMap ranges⟩

/-- `CharacterSet::Contains`. -/
def contains (set : CharacterSet) (c : UInt8) : Bool :=
  set.ranges.any fun r ↦ r.1 ≤ c.toNat && c.toNat ≤ r.2

@[simp]
theorem contains_range (first last : Char) (c : UInt8) :
    (range first last).contains c = (first.toNat ≤ c.toNat && c.toNat ≤ last.toNat) := by
  simp [range, contains]

@[simp]
theorem contains_single (x : Char) (c : UInt8) :
    (single x).contains c = (x.toNat ≤ c.toNat && c.toNat ≤ x.toNat) :=
  contains_range x x c

@[simp]
theorem contains_union (sets : List CharacterSet) (c : UInt8) :
    (union sets).contains c = sets.any fun set ↦ set.contains c := by
  simp [union, contains, List.any_flatMap]

/-- A set each of whose ranges lies inside a range of `D` has only characters of `D`. -/
theorem contains_of_ranges_le {E D : CharacterSet}
    (h : ∀ r ∈ E.ranges, ∃ r' ∈ D.ranges, r'.1 ≤ r.1 ∧ r.2 ≤ r'.2) (c : UInt8)
    (hc : E.contains c = true) : D.contains c = true := by
  simp only [contains, List.any_eq_true, Bool.and_eq_true, decide_eq_true_eq] at hc ⊢
  obtain ⟨r, hr, h₁, h₂⟩ := hc
  obtain ⟨r', hr', h₁', h₂'⟩ := h r hr
  exact ⟨r', hr', by omega, by omega⟩

end CharacterSet

open CharacterSet

/-! ## The sets of `Uri.cpp` -/

/-- `ALPHA`. -/
def alpha : CharacterSet := union [range 'a' 'z', range 'A' 'Z']

/-- `DIGIT`. -/
def digit : CharacterSet := range '0' '9'

/-- `HEXDIG`. -/
def hexdig : CharacterSet := union [range '0' '9', range 'A' 'F', range 'a' 'f']

/-- `UNRESERVED`. -/
def unreserved : CharacterSet :=
  union [alpha, digit, single '-', single '.', single '_', single '~']

/-- `SUB_DELIMS`. -/
def subDelims : CharacterSet :=
  union [single '!', single '$', single '&', single '\'', single '(', single ')',
    single '*', single '+', single ',', single ';', single '=']

/-- `SCHEME_NOT_FIRST`. -/
def schemeNotFirst : CharacterSet := union [alpha, digit, single '+', single '-', single '.']

/-- `PCHAR_NOT_PCT_ENCODED`. -/
def pcharNotPctEncoded : CharacterSet := union [unreserved, subDelims, single ':', single '@']

/-- `QUERY_OR_FRAGMENT_NOT_PCT_ENCODED`. -/
def queryOrFragmentNotPctEncoded : CharacterSet :=
  union [pcharNotPctEncoded, single '/', single '?']

/-- `QUERY_NOT_PCT_ENCODED_WITHOUT_PLUS`: the query set less `+`. -/
def queryNotPctEncodedWithoutPlus : CharacterSet :=
  union [unreserved, single '!', single '$', single '&', single '\'', single '(', single ')',
    single '*', single ',', single ';', single '=', single ':', single '@', single '/', single '?']

/-- `USER_INFO_NOT_PCT_ENCODED`. -/
def userInfoNotPctEncoded : CharacterSet := union [unreserved, subDelims, single ':']

/-- `REG_NAME_NOT_PCT_ENCODED`. -/
def regNameNotPctEncoded : CharacterSet := union [unreserved, subDelims]

/-- `IPV_FUTURE_LAST_PART`. -/
def ipvFutureLastPart : CharacterSet := union [unreserved, subDelims, single ':']

end Uri
