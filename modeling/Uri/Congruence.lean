import Uri.Resolution
import Uri.RoundTrip

/-!
# `operator==`, and what `Resolve` and `GenerateString` do with equal values

`operator==` compares the port, the query and the fragment only where a value has them
(`equals_iff_observed`). `GenerateString` reads them only there too, so it writes the same text
for equal values (`generateString_eq_of_equals`). `Resolve` reads one field that `operator==`
does not compare: the query text of a reference without a query, which it tests for emptiness.
Apart from that, equal bases and equal references resolve to equal targets
(`resolve_equals_of_equals`), and a query set and then cleared changes the target.

No value that parses, resolutions and normalizations reach from the empty `Uri` holds a query or
a fragment text without its flag (`Reachable.noStaleText`): every parse writes both, and
`Resolve` copies each text with its flag. Only `ClearQuery` and `ClearFragment` leave one
behind.

Against a parsed base with a scheme and a host, `Resolve` keeps what a parse leaves
(`Parsed.resolve`), so `GenerateString` of a target parses back into an equal value under the
conditions of the round trip of parsed values (`resolve_generateString_reparse`).
-/

namespace Uri

open Impl

theorem flagged_eq {α β : Type} {p q : Bool} {x y : α}
    (h : (if p then some x else none) = if q then some y else none) (f : α → β) (d : β) :
    p = q ∧ (if p then f x else d) = if q then f y else d := by
  rcases (ite_some_eq_iff _ _ _ _).1 h with ⟨rfl, rfl⟩ | ⟨rfl, rfl, rfl⟩ <;> simp

/-! ## `GenerateString` -/

/-- `GenerateString` reads only what `operator==` observes. -/
theorem generateString_eq_of_observed {a b : Impl} (h : a.observed = b.observed) :
    generateString a = generateString b := by
  simp only [Impl.observed, Prod.mk.injEq] at h
  obtain ⟨hs, hu, hh, hport, hp, hq, hf⟩ := h
  obtain ⟨hportFlag, hportText⟩ :=
    flagged_eq hport (fun port ↦ ':'.toUInt8 :: decimal port.toNat) []
  unfold generateString generateAuthority Impl.hasAuthority
  rw [hportText,
    (flagged_eq hq (fun query ↦ '?'.toUInt8 :: encodeElement query queryNotPctEncodedWithoutPlus)
      []).2,
    (flagged_eq hf (fun fragment ↦ '#'.toUInt8 :: encodeElement fragment
      queryOrFragmentNotPctEncoded) []).2,
    hs, hu, hh, hp, hportFlag]

/-- `GenerateString` writes the same text for values that `operator==` finds equal. -/
theorem generateString_eq_of_equals {a b : Impl} (h : equals a b = true) :
    generateString a = generateString b :=
  generateString_eq_of_observed ((equals_iff_observed a b).1 h)

/-- `http://a:8080/b?q` is written the same with its port cleared, set to 80 and cleared again. -/
theorem generateString_eq_of_equals_cleared_port :
    ∃ u, parseFromString default (bytesOf "http://a:8080/b?q") = some u ∧
      generateString (clearPort u) = generateString (clearPort (setPort u 80)) :=
  ⟨_, rfl, generateString_eq_of_equals (by decide)⟩

/-- The values `GenerateString` writes back: parsed, with a lower-case host, a path other than two
empty segments and not starting with two without an authority, and without a scheme no `:`
before the first `/`. -/
structure Writable (u : Impl) : Prop where
  parsed : Parsed u
  host_lower : u.host.map toLower = u.host
  path_ne_empty_empty : u.path ≠ [[], []]
  path_of_no_authority : u.hasAuthority = false → ∀ rest, u.path ≠ [] :: [] :: rest
  window : u.scheme = [] → ':'.toUInt8 ∉ schemeWindow (generateString u)

/-- On the values it writes back, `GenerateString` tells apart exactly the values `operator==`
tells apart: equal texts parse back into one value, equal to both. -/
theorem equals_iff_generateString_eq {a b : Impl} (ha : Writable a) (hb : Writable b) :
    equals a b = true ↔ generateString a = generateString b := by
  refine ⟨fun h ↦ generateString_eq_of_observed ((equals_iff_observed a b).1 h), fun h ↦ ?_⟩
  obtain ⟨hparseA, hequalsA⟩ := ha.parsed.reparse_generateString ha.host_lower
    ha.path_ne_empty_empty ha.path_of_no_authority ha.window
  obtain ⟨hparseB, hequalsB⟩ := hb.parsed.reparse_generateString hb.host_lower
    hb.path_ne_empty_empty hb.path_of_no_authority hb.window
  rw [h, hparseB, Option.some.injEq] at hparseA
  rw [equals_iff_observed] at hequalsA hequalsB ⊢
  calc a.observed = (a.reference.fields 0).observed := hequalsA.symm
    _ = (b.reference.fields 0).observed := by rw [hparseA]
    _ = b.observed := hequalsB

/-- `HTTP://Example/%61?q` and `http://example/a?q` parse to equal values that are written back. -/
theorem equals_iff_generateString_eq_case :
    ∃ a b, parseFromString default (bytesOf "HTTP://Example/%61?q") = some a ∧
      parseFromString default (bytesOf "http://example/a?q") = some b ∧
      (equals a b = true ↔ generateString a = generateString b) :=
  ⟨_, _, rfl, rfl, equals_iff_generateString_eq
    ⟨@parseFromString_parsed default _ (bytesOf "HTTP://Example/%61?q") rfl, by decide, by decide,
      fun h ↦ absurd h (by decide), fun h ↦ absurd h (by decide)⟩
    ⟨@parseFromString_parsed default _ (bytesOf "http://example/a?q") rfl, by decide, by decide,
      fun h ↦ absurd h (by decide), fun h ↦ absurd h (by decide)⟩⟩

/-! ## `Resolve` -/

/-- `Resolve` reads what `operator==` observes, and whether the reference's query text is empty. -/
theorem resolve_observed_eq {base base' reference reference' : Impl}
    (hbase : base.observed = base'.observed) (hreference : reference.observed = reference'.observed)
    (hquery : reference.query.isEmpty = reference'.query.isEmpty) :
    (resolve base reference).observed = (resolve base' reference').observed := by
  simp only [Impl.observed, Prod.mk.injEq] at hbase hreference
  obtain ⟨hs, hu, hh, hport, hp, hq, -⟩ := hbase
  obtain ⟨hrs, hru, hrh, hrport, hrp, hrq, hrf⟩ := hreference
  rw [resolve_eq, resolve_eq]
  simp only [Impl.observed, Prod.mk.injEq, hrs, hrh, hrp, hquery, hs, hu, hp, hru, hrf, true_and]
  -- the authority, then the query, from the same side
  cases reference'.scheme.isEmpty && reference'.host.isEmpty <;>
    simp only [Bool.false_and, Bool.true_and, Bool.false_eq_true, ↓reduceIte, hru, hrh, hrport,
      hrq, hu, hh, hport, true_and]
  cases reference'.path.isEmpty && reference'.query.isEmpty <;>
    simp only [Bool.false_eq_true, ↓reduceIte, hq, hrq, and_self]

/-- Equal bases and references resolve to equal targets, as long as a reference without a query
holds no query text: `Resolve` reads that field, `operator==` does not. -/
theorem resolve_equals_of_equals {base base' reference reference' : Impl}
    (hbase : equals base base' = true) (hreference : equals reference reference' = true)
    (hquery : reference.hasQuery = false → reference.query = [])
    (hquery' : reference'.hasQuery = false → reference'.query = []) :
    equals (resolve base reference) (resolve base' reference') = true := by
  rw [equals_iff_observed] at hbase hreference ⊢
  refine resolve_observed_eq hbase hreference ?_
  -- the query texts are empty together
  have hrq : (if reference.hasQuery then some reference.query else none) =
      if reference'.hasQuery then some reference'.query else none := by
    simp only [Impl.observed, Prod.mk.injEq] at hreference
    exact hreference.2.2.2.2.2.1
  rcases (ite_some_eq_iff _ _ _ _).1 hrq with ⟨h, h'⟩ | ⟨-, -, h⟩
  · rw [hquery h, hquery' h']
  · rw [h]

/-- `#f`, and `#f` with a port set and cleared, resolve to equal targets against `http://a/b?q`. -/
theorem resolve_equals_of_equals_cleared_port :
    ∃ base reference, parseFromString default (bytesOf "http://a/b?q") = some base ∧
      parseFromString default (bytesOf "#f") = some reference ∧
      equals (resolve base reference) (resolve base (clearPort (setPort reference 80))) = true :=
  ⟨_, _, rfl, rfl,
    resolve_equals_of_equals (by decide) (by decide) (by decide) (by decide)⟩

/-- `#f` with a query set and cleared equals `#f`, but resolves against `http://a/b?q` without
the base's query. -/
theorem resolve_cleared_query_differs :
    ∃ base reference, parseFromString default (bytesOf "http://a/b?q") = some base ∧
      parseFromString default (bytesOf "#f") = some reference ∧
      equals reference (clearQuery (setQuery reference (bytesOf "x"))) = true ∧
      equals (resolve base reference)
        (resolve base (clearQuery (setQuery reference (bytesOf "x")))) = false :=
  ⟨_, _, rfl, rfl, by decide, by decide⟩

/-! ## No stale text on reachable values -/

/-- A value holds no query text without a query, and no fragment text without a fragment. -/
structure Impl.NoStaleText (u : Impl) : Prop where
  query : u.hasQuery = false → u.query = []
  fragment : u.hasFragment = false → u.fragment = []

/-- A parse writes the query and the fragment with their flags: an absent one is empty text. -/
theorem parseFromString_noStaleText {u v : Impl} {uriString : Bytes}
    (h : parseFromString u uriString = some v) : v.NoStaleText := by
  simp only [parseFromString, Option.bind_eq_bind, Option.bind_eq_some] at h
  obtain ⟨_, _, _, _, _, _, ⟨u₄, rest⟩, hfragment, hquery⟩ := h
  obtain ⟨fragment, value, -, -, hvalue, rfl⟩ := parseFragment_eq_some_iff.1 hfragment
  obtain ⟨query, hdecode, rfl⟩ := Option.map_eq_some'.1 hquery
  constructor <;> dsimp only
  · intro hq
    simpa only [hq, Bool.false_eq_true, if_false, decodeQueryOrFragment_nil, Option.some.injEq,
      eq_comm] using hdecode
  · cases fragment with
    | none => exact fun _ ↦ (Option.some.inj hvalue).symm
    | some _ => exact fun h ↦ Bool.noConfusion h

/-- `Resolve` copies each text with its flag. -/
theorem Impl.NoStaleText.resolve {base reference : Impl} (hbase : base.NoStaleText)
    (hreference : reference.NoStaleText) : (Uri.resolve base reference).NoStaleText := by
  rw [resolve_eq]
  constructor
  · dsimp only
    split
    · exact hbase.query
    · exact hreference.query
  · exact hreference.fragment

/-- No reachable value holds a query or a fragment text without its flag. -/
theorem Reachable.noStaleText {u : Impl} (hu : Reachable u) : u.NoStaleText := by
  induction hu with
  | empty => exact ⟨fun _ ↦ rfl, fun _ ↦ rfl⟩
  | parse _ _ hparse _ => exact parseFromString_noStaleText hparse
  | resolve _ _ ihb ihr => exact ihb.resolve ihr
  | normalizePath _ ih => exact ⟨ih.query, ih.fragment⟩

/-- `http://a/b#` parses to a value without a query, with an empty fragment, and no stale text. -/
theorem reachable_noStaleText_http :
    ∃ u, parseFromString default (bytesOf "http://a/b#") = some u ∧ u.NoStaleText :=
  ⟨_, rfl, Reachable.noStaleText (.parse (bytesOf "http://a/b#") .empty rfl)⟩

/-! ## Targets through `GenerateString` -/

section Targets

variable {u base reference : Impl}

theorem Parsed.path_absolute_of_host (hu : Parsed u) (h : u.host ≠ []) :
    isPathAbsolute u.path = true :=
  (hu.path_of_authority (by simp [Impl.hasAuthority, h])).resolve_left (hu.path_of_host h)

/-- `NormalizePath` keeps what a parse leaves: an empty path empty, an absolute path absolute. -/
theorem Parsed.normalizePath (hu : Parsed u) : Parsed u.normalizePath where
  scheme := hu.scheme
  path_of_authority h := (hu.path_of_authority h).imp
    (fun hnil ↦ show Uri.normalizePath u.path = [] by
      rw [hnil, normalizePath_of_normalForm normalForm_nil])
    isPathAbsolute_normalizePath
  path_of_host h :=
    ne_nil_of_isPathAbsolute (isPathAbsolute_normalizePath (hu.path_absolute_of_host h))

/-- `Resolve` keeps what a parse leaves, on a base with a host: a legal scheme, and a path absolute
under the base's authority or normalized under the reference's. -/
theorem Parsed.resolve (hbase : Parsed base) (hhost : base.host ≠ [])
    (hreference : Parsed reference) : Parsed (Uri.resolve base reference) := by
  by_cases hs : reference.scheme = []
  · by_cases hh : reference.host = []
    · -- the base's authority, over an absolute path
      have habs : isPathAbsolute (Uri.resolve base reference).path = true :=
        resolve_host_path hbase.path_absolute_of_host hreference.path_absolute_of_host
          (by rw [resolve_host_of_nil hs hh]; exact hhost)
      refine ⟨?_, fun _ ↦ .inr habs, fun _ ↦ ne_nil_of_isPathAbsolute habs⟩
      simpa only [resolve_scheme, hs, List.isEmpty_nil, if_true] using hbase.scheme
    · -- the reference's authority, under the base's scheme
      rw [resolve_of_host hs hh]
      exact ⟨hbase.scheme, hreference.normalizePath.path_of_authority,
        hreference.normalizePath.path_of_host⟩
  · rw [resolve_of_scheme hs]
    exact hreference.normalizePath

theorem NormalForm.ne_nil_nil_cons {path : List Bytes} (h : NormalForm path) (rest : List Bytes) :
    path ≠ [] :: [] :: rest := by
  rintro rfl
  simpa using h.no_adjacent_empty

/-- `GenerateString` of a target parses back into an equal value, for a base with a scheme and a
host, when the target's host has no upper-case letter and its path is not two empty segments. -/
theorem resolve_generateString_reparse {u₀ u₁ : Impl} {baseString referenceString : Bytes}
    (hbase : parseFromString u₀ baseString = some base)
    (hreference : parseFromString u₁ referenceString = some reference)
    (hscheme : base.scheme ≠ []) (hhost : base.host ≠ [])
    (hlower : (Uri.resolve base reference).host.map toLower = (Uri.resolve base reference).host)
    (hpath : (Uri.resolve base reference).path ≠ [[], []]) :
    ∃ v, parseFromString default (generateString (Uri.resolve base reference)) = some v ∧
      equals v (Uri.resolve base reference) = true := by
  have htarget := (parseFromString_parsed hbase).resolve hhost (parseFromString_parsed hreference)
  -- without an authority, the target path is normalized
  have hauthority : (Uri.resolve base reference).hasAuthority = false →
      ∀ rest, (Uri.resolve base reference).path ≠ [] :: [] :: rest := by
    intro hnone rest
    by_cases hnil : reference.scheme = [] ∧ reference.host = []
    · simp [Impl.hasAuthority, resolve_host_of_nil hnil.1 hnil.2, hhost] at hnone
    · obtain ⟨path, hnormal⟩ :=
        @exists_resolve_path_eq_normalizePath base reference fun h ↦ hnil ⟨h.1, h.2.1⟩
      rw [hnormal]
      exact (normalizePath_normalForm path).ne_nil_nil_cons rest
  exact ⟨_, htarget.reparse_generateString hlower hpath hauthority
    fun h ↦ absurd h (resolve_scheme_ne_nil hscheme reference)⟩

/-- The target `http://a/b/g` of `../g` against `http://a/b/c/d;p?q` is written and read back. -/
theorem resolve_generateString_reparse_rfc_example :
    ∃ base reference, parseFromString default (bytesOf "http://a/b/c/d;p?q") = some base ∧
      parseFromString default (bytesOf "../g") = some reference ∧
      ∃ v, parseFromString default (generateString (Uri.resolve base reference)) = some v ∧
        equals v (Uri.resolve base reference) = true :=
  ⟨_, _, rfl, rfl, @resolve_generateString_reparse _ _ default default
    (bytesOf "http://a/b/c/d;p?q") (bytesOf "../g") rfl rfl (by decide) (by decide) (by decide)
    (by decide)⟩

end Targets

end Uri
