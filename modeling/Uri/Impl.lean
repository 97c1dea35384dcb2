import Uri.Basic

/-!
# The URI value

A `Uri` object is a pointer to its `Uri::Impl`, which holds every field; the public methods
forward to it. Here a URI value is its `Impl`, and each method, which mutates the object in
place in the source, returns the updated value. This module holds the fields, the accessors,
`operator==`, the setters and the `Copy…` methods `Resolve` is built from. A path is a list of
segments, absolute when its first segment is empty.
-/

namespace Uri

/-- `Uri::Impl`, with the default member initializers of the source. -/
structure Impl where
  scheme : Bytes := []
  userInfo : Bytes := []
  host : Bytes := []
  hasPort : Bool := false
  port : UInt16 := 0
  path : List Bytes := []
  hasQuery : Bool := false
  query : Bytes := []
  hasFragment : Bool := false
  fragment : Bytes := []
  deriving DecidableEq, Repr

instance : Inhabited Impl := ⟨{}⟩

/-- `Impl::IsPathAbsolute`, on the path it reads. -/
def isPathAbsolute (path : List Bytes) : Bool :=
  match path with
  | [] :: _ => true
  | _ => false

/-- A path is absolute when its first segment is empty. -/
theorem isPathAbsolute_iff (path : List Bytes) :
    isPathAbsolute path = true ↔ ∃ rest, path = [] :: rest := by
  unfold isPathAbsolute
  split <;> simp_all

namespace Impl

/-- `Impl::HasAuthority`. -/
def hasAuthority (u : Impl) : Bool := !u.host.isEmpty || !u.userInfo.isEmpty || u.hasPort

/-- `Impl::CopyScheme`. -/
def copyScheme (u other : Impl) : Impl := { u with scheme := other.scheme }

/-- `Impl::CopyAuthority`. -/
def copyAuthority (u other : Impl) : Impl :=
  { u with host := other.host, userInfo := other.userInfo, hasPort := other.hasPort,
           port := other.port }

/-- `Impl::CopyPath`. -/
def copyPath (u other : Impl) : Impl := { u with path := other.path }

/-- `Impl::CopyQuery`. -/
def copyQuery (u other : Impl) : Impl :=
  { u with hasQuery := other.hasQuery, query := other.query }

/-- `Impl::CopyFragment`. -/
def copyFragment (u other : Impl) : Impl :=
  { u with hasFragment := other.hasFragment, fragment := other.fragment }

end Impl

/-! ## The public methods -/

/-- `Uri::operator==`: port, query and fragment are compared only where both have one. -/
def equals (a b : Impl) : Bool :=
  a.scheme == b.scheme && a.userInfo == b.userInfo && a.host == b.host &&
    ((!a.hasPort && !b.hasPort) || (a.hasPort && b.hasPort && a.port == b.port)) &&
    a.path == b.path &&
    ((!a.hasQuery && !b.hasQuery) || (a.hasQuery && b.hasQuery && a.query == b.query)) &&
    ((!a.hasFragment && !b.hasFragment) ||
      (a.hasFragment && b.hasFragment && a.fragment == b.fragment))

/-- `Uri::IsRelativeReference`. -/
def isRelativeReference (u : Impl) : Bool := u.scheme.isEmpty

/-- `Uri::ContainsRelativePath`. -/
def containsRelativePath (u : Impl) : Bool := !isPathAbsolute u.path

/-- `Uri::SetScheme`. -/
def setScheme (u : Impl) (scheme : Bytes) : Impl := { u with scheme }

/-- `Uri::SetUserInfo`. -/
def setUserInfo (u : Impl) (userInfo : Bytes) : Impl := { u with userInfo }

/-- `Uri::SetHost`. -/
def setHost (u : Impl) (host : Bytes) : Impl := { u with host }

/-- `Uri::SetPort`. -/
def setPort (u : Impl) (port : UInt16) : Impl := { u with port, hasPort := true }

/-- `Uri::ClearPort`. -/
def clearPort (u : Impl) : Impl := { u with hasPort := false }

/-- `Uri::SetPath`. -/
def setPath (u : Impl) (path : List Bytes) : Impl := { u with path }

/-- `Uri::ClearQuery`. -/
def clearQuery (u : Impl) : Impl := { u with hasQuery := false }

/-- `Uri::SetQuery`. -/
def setQuery (u : Impl) (query : Bytes) : Impl := { u with query, hasQuery := true }

/-- `Uri::ClearFragment`. -/
def clearFragment (u : Impl) : Impl := { u with hasFragment := false }

/-- `Uri::SetFragment`. -/
def setFragment (u : Impl) (fragment : Bytes) : Impl := { u with fragment, hasFragment := true }

theorem equals_refl (u : Impl) : equals u u = true := by
  cases u.hasPort <;> cases u.hasQuery <;> cases u.hasFragment <;> simp [equals]

end Uri
