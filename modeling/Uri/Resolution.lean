import Uri.Resolve

/-!
# What `Resolve` computes

`Resolve` builds the target's path in one of three ways: the reference's path normalized (a
reference with a scheme, a host or an absolute path), the base path without its last segment
followed by the reference's path, normalized (a relative path), or the base path as it is (a
reference without a path). So the target path is in normal form, except when a reference
without scheme, host or path meets a base path that is not (`resolve_path_normalForm_iff`).
A target has a scheme when the base has one, and a reference with a scheme resolves to itself
with its path normalized; so resolving a target again against the same base gives it back
exactly on those pairs (`resolve_resolve_eq_iff`).

Where the code's tests read as RFC 3986's, `Resolve` is the RFC's §5.2.2 algorithm
(`resolve_eq_transformReference`): the reference's authority has a host, a reference of a
query alone has a non-empty query text exactly when it has a query, and the base path is
neither one segment other than the root nor empty under an authority.
-/

namespace Uri

open Impl

/-! ## `Resolve` field by field -/

/-- `Resolve` field by field: scheme, authority and query from the reference or the base, the
fragment from the reference, and the path by one of three rules. -/
theorem resolve_eq (base reference : Impl) :
    resolve base reference =
      let authority := if reference.scheme.isEmpty && reference.host.isEmpty then base
        else reference
      let query := if reference.scheme.isEmpty && reference.host.isEmpty &&
          reference.path.isEmpty && reference.query.isEmpty then base else reference
      { scheme := if reference.scheme.isEmpty then base.scheme else reference.scheme,
        userInfo := authority.userInfo, host := authority.host, hasPort := authority.hasPort,
        port := authority.port,
        path :=
          if !(reference.scheme.isEmpty && reference.host.isEmpty) then
            normalizePath reference.path
          else if reference.path.isEmpty then base.path
          else if isPathAbsolute reference.path then normalizePath reference.path
          else normalizePath
            ((if base.path.length > 1 then base.path.dropLast else base.path) ++ reference.path),
        hasQuery := query.hasQuery, query := query.query,
        hasFragment := reference.hasFragment, fragment := reference.fragment } := by
  unfold resolve
  cases reference.scheme.isEmpty
  · simp only [Bool.false_and, Bool.not_false, Bool.false_eq_true, if_false, ↓reduceIte,
      copyScheme, copyAuthority, copyAndNormalizePath, copyPath, Impl.normalizePath, copyQuery,
      copyFragment]
  cases reference.host.isEmpty
  · simp only [Bool.true_and, Bool.false_and, Bool.not_false, Bool.not_true, Bool.false_eq_true,
      if_false, if_true, ↓reduceIte, copyScheme, copyAuthority, copyAndNormalizePath, copyPath,
      Impl.normalizePath, copyQuery, copyFragment]
  cases reference.path.isEmpty
  · cases isPathAbsolute reference.path
    · by_cases hlength : base.path.length > 1
      · simp only [copyPath, hlength, if_true, Impl.normalizePath]
        rfl
      · simp only [copyPath, hlength, if_false, Impl.normalizePath]
        rfl
    · rfl
  · cases reference.query.isEmpty <;> rfl

theorem resolve_scheme (base reference : Impl) :
    (resolve base reference).scheme =
      if reference.scheme.isEmpty then base.scheme else reference.scheme := by
  rw [resolve_eq]

/-- A reference with a scheme resolves to itself with its path normalized, whatever the base. -/
theorem resolve_of_scheme {base reference : Impl} (h : reference.scheme ≠ []) :
    resolve base reference = reference.normalizePath := by
  have hscheme : reference.scheme.isEmpty = false := List.isEmpty_eq_false.2 h
  simp only [resolve_eq, hscheme, Bool.false_and, Bool.not_false, Bool.false_eq_true, if_false,
    if_true, Impl.normalizePath]

/-- A reference with a host and no scheme resolves to itself normalized, with the base's scheme. -/
theorem resolve_of_host {base reference : Impl} (hs : reference.scheme = [])
    (hh : reference.host ≠ []) :
    resolve base reference = { reference.normalizePath with scheme := base.scheme } := by
  have hhost : reference.host.isEmpty = false := List.isEmpty_eq_false.2 hh
  simp only [resolve_eq, hs, hhost, List.isEmpty_nil, Bool.and_false, Bool.false_and,
    Bool.not_false, Bool.false_eq_true, if_false, if_true, Impl.normalizePath]

theorem resolve_host_of_nil {base reference : Impl} (hs : reference.scheme = [])
    (hh : reference.host = []) : (resolve base reference).host = base.host := by
  simp only [resolve_eq, hs, hh, List.isEmpty_nil, Bool.and_self, if_true]

theorem resolve_scheme_ne_nil {base : Impl} (hbase : base.scheme ≠ []) (reference : Impl) :
    (resolve base reference).scheme ≠ [] := by
  rw [resolve_scheme]
  split_ifs with hs
  · exact hbase
  · exact fun h ↦ hs (h ▸ rfl)

theorem resolve_path_of_nil {base reference : Impl} (hs : reference.scheme = [])
    (hh : reference.host = []) (hp : reference.path = []) :
    (resolve base reference).path = base.path := by
  simp only [resolve_eq, hs, hh, hp, List.isEmpty_nil, Bool.and_self, Bool.not_true,
    Bool.false_eq_true, if_false, if_true]

theorem exists_resolve_path_eq_normalizePath {base reference : Impl}
    (h : ¬(reference.scheme = [] ∧ reference.host = [] ∧ reference.path = [])) :
    ∃ path, (resolve base reference).path = normalizePath path := by
  rw [resolve_eq]
  cases hauthority : reference.scheme.isEmpty && reference.host.isEmpty
  · exact ⟨_, rfl⟩
  cases hp : reference.path.isEmpty
  · cases isPathAbsolute reference.path
    · exact ⟨_, rfl⟩
    · exact ⟨_, rfl⟩
  · simp only [Bool.and_eq_true, List.isEmpty_iff] at hauthority hp
    exact absurd ⟨hauthority.1, hauthority.2, hp⟩ h

/-! ## The target path -/

/-- `NormalizePath` leaves a value as it is exactly when its path is in normal form. -/
theorem Impl.normalizePath_eq_self_iff {u : Impl} : u.normalizePath = u ↔ NormalForm u.path := by
  constructor
  · intro h
    have hpath : Uri.normalizePath u.path = u.path := congrArg Impl.path h
    exact hpath ▸ normalizePath_normalForm u.path
  · intro h
    simp only [Impl.normalizePath, normalizePath_of_normalForm h]

theorem normalForm_resolve_path {base reference : Impl}
    (h : reference.scheme = [] → reference.host = [] → reference.path = [] →
      NormalForm base.path) :
    NormalForm (resolve base reference).path := by
  by_cases hnil : reference.scheme = [] ∧ reference.host = [] ∧ reference.path = []
  · obtain ⟨hs, hh, hp⟩ := hnil
    rw [resolve_path_of_nil hs hh hp]
    exact h hs hh hp
  · obtain ⟨path, hpath⟩ := @exists_resolve_path_eq_normalizePath base reference hnil
    rw [hpath]
    exact normalizePath_normalForm path

/-- `Resolve` leaves no `.` or `..` segment and no empty segment after another in the target
path, except when a reference without scheme, host or path keeps a base path that has one. -/
theorem resolve_path_normalForm_iff (base reference : Impl) :
    NormalForm (resolve base reference).path ↔
      (reference.scheme = [] → reference.host = [] → reference.path = [] →
        NormalForm base.path) :=
  ⟨fun h hs hh hp ↦ by rwa [resolve_path_of_nil hs hh hp] at h, normalForm_resolve_path⟩

/-! ## Resolving twice -/

/-- Against a base with a scheme, resolving the target again gives it back exactly when the
reference has a scheme, a host or a path, or the base path is in normal form. -/
theorem resolve_resolve_eq_iff {base : Impl} (hbase : base.scheme ≠ []) (reference : Impl) :
    resolve base (resolve base reference) = resolve base reference ↔
      (reference.scheme = [] → reference.host = [] → reference.path = [] →
        NormalForm base.path) := by
  rw [resolve_of_scheme (resolve_scheme_ne_nil hbase reference), Impl.normalizePath_eq_self_iff]
  exact ⟨fun h hs hh hp ↦ by rwa [resolve_path_of_nil hs hh hp] at h, normalForm_resolve_path⟩

/-- `?y` against `http://a/b/./c` keeps the base path's `.`, which a second resolution removes. -/
theorem resolve_resolve_query_dot_base :
    ∃ base reference, parseFromString default (bytesOf "http://a/b/./c") = some base ∧
      parseFromString default (bytesOf "?y") = some reference ∧ base.scheme ≠ [] ∧
      (resolve base (resolve base reference) = resolve base reference ↔
        (reference.scheme = [] → reference.host = [] → reference.path = [] →
          NormalForm base.path)) ∧
      resolve base (resolve base reference) ≠ resolve base reference :=
  ⟨_, _, rfl, rfl, by decide, resolve_resolve_eq_iff (by decide) _, by decide⟩

/-! ## RFC 3986 §5.2.2 -/

/-- Where `Resolve`'s tests read as RFC 3986's: a reference without scheme but with an authority
has a host; one without scheme, host or path has query text exactly with a query; and the
base path is neither one segment other than the root nor empty under an authority. -/
structure ResolveTestsAgree (base reference : Impl) : Prop where
  authority_host : reference.scheme = [] → reference.hasAuthority = true → reference.host ≠ []
  query_text : reference.scheme = [] → reference.host = [] → reference.path = [] →
    reference.hasQuery = !reference.query.isEmpty
  base_one_segment : base.path.length = 1 → base.path = [[]]
  base_authority : base.hasAuthority = true → base.path ≠ []

/-- On such a base, `merge` is the code's: the base path less its last segment, then the path. -/
theorem merge_eq {base : Impl} (hone : base.path.length = 1 → base.path = [[]])
    (hauthority : base.hasAuthority = true → base.path ≠ []) (referencePath : List Bytes) :
    merge base referencePath =
      (if base.path.length > 1 then base.path.dropLast else base.path) ++ referencePath := by
  unfold merge
  match hpath : base.path with
  | [] => simp [hpath, show base.hasAuthority = false by simpa [hpath] using mt hauthority]
  | [segment] =>
    obtain rfl : segment = [] := by simpa [hpath] using hone (by simp [hpath])
    simp
  | x :: y :: rest => simp

/-- Where its tests read as RFC 3986's, `Resolve` is the RFC's §5.2.2 algorithm. -/
theorem resolve_eq_transformReference {base reference : Impl}
    (h : ResolveTestsAgree base reference) :
    resolve base reference = transformReference base reference := by
  rw [resolve_eq]
  unfold transformReference
  by_cases hs : reference.scheme = []
  · by_cases hh : reference.host = []
    · have hauthority : reference.hasAuthority = false := by
        simpa using mt (h.authority_host hs) (not_not.2 hh)
      by_cases hp : reference.path = []
      · -- a query or a fragment alone
        have hquery := h.query_text hs hh hp
        cases hq : reference.query.isEmpty <;>
          simp [hs, hh, hp, hauthority, hq, hquery]
      · -- a path
        by_cases habs : isPathAbsolute reference.path = true
        · simp [hs, hh, hp, hauthority, habs]
        · simp [hs, hh, hp, hauthority, habs,
            merge_eq h.base_one_segment h.base_authority]
    · -- an authority with a host
      have hauthority : reference.hasAuthority = true := by simp [Impl.hasAuthority, hh]
      simp [hs, hh, hauthority]
  · -- a scheme
    simp [hs]

/-- The reference `../g` against the base `http://a/b/c/d;p?q` of RFC 3986 §5.4. -/
theorem resolve_eq_transformReference_rfc_example :
    ∃ base reference, parseFromString default (bytesOf "http://a/b/c/d;p?q") = some base ∧
      parseFromString default (bytesOf "../g") = some reference ∧
      ResolveTestsAgree base reference ∧
      resolve base reference = transformReference base reference :=
  ⟨_, _, rfl, rfl, ⟨by decide, by decide, by decide, by decide⟩,
    resolve_eq_transformReference ⟨by decide, by decide, by decide, by decide⟩⟩

end Uri
