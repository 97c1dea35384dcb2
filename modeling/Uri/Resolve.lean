import Uri.Normalize
import Uri.Parse

/-!
# Reference resolution

`Uri::Resolve` builds a target from a base (the object it is called on) and a reference,
following RFC 3986 §5.2.2, as its comment says. `transformReference` is that algorithm as the
RFC states it, over the same fields; the two disagree where the code tests the host for the
authority, a non-empty query text for a defined query, and keeps a base path of one segment
whole when merging (`resolve_differs_from_transformReference`).

`Reachable` is every value a program reaches from the empty `Uri` by successful parses,
resolutions and normalizations. On all of them a non-empty host comes with an absolute path
(`Reachable.isPathAbsolute_of_host`), but an authority made of user information or a port
alone may come with an empty one (`reachable_authority_with_empty_path`): the default path is
set only for a non-empty host.
-/

namespace Uri

open Impl

/-- `Uri::Resolve`. -/
def resolve (base relativeReference : Impl) : Impl :=
  let target : Impl := {}
  let target :=
    if !relativeReference.scheme.isEmpty then
      (((target.copyScheme relativeReference).copyAuthority relativeReference).copyAndNormalizePath
        relativeReference).copyQuery relativeReference
    else
      let target :=
        if !relativeReference.host.isEmpty then
          ((target.copyAuthority relativeReference).copyAndNormalizePath
            relativeReference).copyQuery relativeReference
        else
          let target :=
            if relativeReference.path.isEmpty then
              let target := { target with path := base.path }
              if !relativeReference.query.isEmpty then target.copyQuery relativeReference
              else target.copyQuery base
            else
              let target :=
                if isPathAbsolute relativeReference.path then
                  target.copyAndNormalizePath relativeReference
                else
                  let target := target.copyPath base
                  let target :=
                    if target.path.length > 1 then { target with path := target.path.dropLast }
                    else target
                  let target := { target with path := target.path ++ relativeReference.path }
                  target.normalizePath
              target.copyQuery relativeReference
          target.copyAuthority base
      target.copyScheme base
  target.copyFragment relativeReference

/-! ## RFC 3986 §5.2.2 -/

/-- RFC 3986 §5.2.3, `merge`: the reference path after the base path up to its last `/`, or
after `/` when the base has an authority and an empty path. -/
def merge (base : Impl) (referencePath : List Bytes) : List Bytes :=
  if base.hasAuthority && base.path.isEmpty then [] :: referencePath
  else
    let directory : List Bytes :=
      match base.path with
      | [] => []
      | [segment] => if segment.isEmpty then [[]] else []
      | path => path.dropLast
    directory ++ referencePath

/-- RFC 3986 §5.2.2 over `Impl`'s fields: a component is defined when the scheme is non-empty,
`HasAuthority` holds or the query flag is set; `remove_dot_segments` is `normalizePath`. -/
def transformReference (base reference : Impl) : Impl :=
  let target : Impl :=
    if !reference.scheme.isEmpty then
      { scheme := reference.scheme, userInfo := reference.userInfo, host := reference.host,
        hasPort := reference.hasPort, port := reference.port,
        path := normalizePath reference.path,
        hasQuery := reference.hasQuery, query := reference.query }
    else if reference.hasAuthority then
      { scheme := base.scheme, userInfo := reference.userInfo, host := reference.host,
        hasPort := reference.hasPort, port := reference.port,
        path := normalizePath reference.path,
        hasQuery := reference.hasQuery, query := reference.query }
    else
      let (path, hasQuery, query) :=
        if reference.path.isEmpty then
          if reference.hasQuery then (base.path, true, reference.query)
          else (base.path, base.hasQuery, base.query)
        else if isPathAbsolute reference.path then
          (normalizePath reference.path, reference.hasQuery, reference.query)
        else (normalizePath (merge base reference.path), reference.hasQuery, reference.query)
      { scheme := base.scheme, userInfo := base.userInfo, host := base.host,
        hasPort := base.hasPort, port := base.port, path, hasQuery, query }
  { target with hasFragment := reference.hasFragment, fragment := reference.fragment }

/-- References resolved otherwise against a parsed base: `b` against `s:a` (a one-segment base
path is kept), `?` against `http://a/b?q` (the code keeps the base's query), and `//:80/x`
against `http://a/b` (an authority of only a port is not seen). -/
theorem resolve_differs_from_transformReference :
    (∃ base reference, parseFromString default (bytesOf "s:a") = some base ∧
      parseFromString default (bytesOf "b") = some reference ∧ base.scheme ≠ [] ∧
      equals (resolve base reference) (transformReference base reference) = false) ∧
    (∃ base reference, parseFromString default (bytesOf "http://a/b?q") = some base ∧
      parseFromString default (bytesOf "?") = some reference ∧ base.scheme ≠ [] ∧
      equals (resolve base reference) (transformReference base reference) = false) ∧
    (∃ base reference, parseFromString default (bytesOf "http://a/b") = some base ∧
      parseFromString default (bytesOf "//:80/x") = some reference ∧ base.scheme ≠ [] ∧
      equals (resolve base reference) (transformReference base reference) = false) :=
  ⟨⟨_, _, rfl, rfl, by decide, by decide⟩, ⟨_, _, rfl, rfl, by decide, by decide⟩,
    ⟨_, _, rfl, rfl, by decide, by decide⟩⟩

end Uri

namespace Uri

open Impl

/-! ## Reachable values -/

/-- The values reachable from the empty `Uri` by parses, `Resolve` and `NormalizePath`. -/
inductive Reachable : Impl → Prop
  | empty : Reachable {}
  | parse {u v : Impl} (uriString : Bytes) :
      Reachable u → parseFromString u uriString = some v → Reachable v
  | resolve {base reference : Impl} :
      Reachable base → Reachable reference → Reachable (resolve base reference)
  | normalizePath {u : Impl} : Reachable u → Reachable u.normalizePath

/-- An authority of user information alone is reached with an empty path. -/
theorem reachable_authority_with_empty_path :
    ∃ v, parseFromString default (bytesOf "//u@") = some v ∧ Reachable v ∧
      v.hasAuthority = true ∧ v.path = [] :=
  ⟨_, rfl, .parse (bytesOf "//u@") .empty rfl, by decide, rfl⟩

/-! ## A non-empty host comes with an absolute path -/

theorem parseFromString_host_path {u v : Impl} {uriString : Bytes}
    (h : parseFromString u uriString = some v) (hhost : v.host ≠ []) :
    isPathAbsolute v.path = true :=
  ((parseFromString_path h).1 (by simp [Impl.hasAuthority, hhost])).resolve_left
    ((parseFromString_path h).2 hhost)

theorem isPathAbsolute_dropLast {path : List Bytes} (h : isPathAbsolute path = true)
    (hlength : path.length > 1) : isPathAbsolute path.dropLast = true := by
  obtain ⟨rest, rfl⟩ := (isPathAbsolute_iff path).1 h
  cases rest with
  | nil => simp at hlength
  | cons x rest => rfl

/-- `Resolve` keeps an absolute path with a host. -/
theorem resolve_host_path {base reference : Impl}
    (hbase : base.host ≠ [] → isPathAbsolute base.path = true)
    (hreference : reference.host ≠ [] → isPathAbsolute reference.path = true)
    (hhost : (resolve base reference).host ≠ []) :
    isPathAbsolute (resolve base reference).path = true := by
  unfold resolve at hhost ⊢
  simp only [copyScheme, copyAuthority, copyQuery, copyFragment, copyAndNormalizePath, copyPath,
    Impl.normalizePath] at hhost ⊢
  by_cases hscheme : reference.scheme.isEmpty
  · by_cases hrhost : reference.host.isEmpty
    · simp only [hscheme, hrhost, Bool.not_true, Bool.false_eq_true, if_false] at hhost ⊢
      have hb := hbase hhost
      split_ifs with h₁ h₂ h₃ h₄
      · exact hb
      · exact hb
      · exact isPathAbsolute_normalizePath h₃
      · exact isPathAbsolute_normalizePath
          (isPathAbsolute_append (isPathAbsolute_dropLast hb h₄) _)
      · exact isPathAbsolute_normalizePath (isPathAbsolute_append hb _)
    · simp only [hscheme, hrhost, Bool.not_true, Bool.not_false, Bool.false_eq_true, if_false,
        if_true] at hhost ⊢
      exact isPathAbsolute_normalizePath (hreference hhost)
  · simp only [hscheme, Bool.not_false, if_true] at hhost ⊢
    exact isPathAbsolute_normalizePath (hreference hhost)
/-- On every reachable value, a non-empty host comes with an absolute path. -/
theorem Reachable.isPathAbsolute_of_host {u : Impl} (hu : Reachable u) :
    u.host ≠ [] → isPathAbsolute u.path = true := by
  induction hu with
  | empty => exact fun hhost ↦ absurd rfl hhost
  | parse _ _ hparse _ => exact parseFromString_host_path hparse
  | resolve _ _ ihb ihr => exact resolve_host_path ihb ihr
  | normalizePath _ ih => exact fun hhost ↦ isPathAbsolute_normalizePath (ih hhost)

/-- `http://h` parses to an absolute path. -/
theorem reachable_http_host_path_absolute :
    ∃ u, parseFromString default (bytesOf "http://h") = some u ∧ isPathAbsolute u.path = true :=
  ⟨_, rfl, Reachable.isPathAbsolute_of_host (.parse (bytesOf "http://h") .empty rfl) (by decide)⟩

end Uri
