import Uri.Element
import Uri.Address
import Uri.Impl

/-!
# `GenerateString`

`Uri::GenerateString` writes the scheme, the authority, the path, the query and the fragment,
each re-encoded with the set of its grammar production. A host that passes
`ValidateIpv6Address` is written lower-cased between brackets; any other host is encoded as a
registered name. A path that is only the root is written `/`.
-/

namespace Uri

/-- The authority `GenerateString` writes after `//`. -/
def generateAuthority (u : Impl) : Bytes :=
  (if !u.userInfo.isEmpty then encodeElement u.userInfo userInfoNotPctEncoded ++ ['@'.toUInt8]
   else []) ++
  (if !u.host.isEmpty then
    if validateIpv6Address u.host then '['.toUInt8 :: u.host.map toLower ++ [']'.toUInt8]
    else encodeElement u.host regNameNotPctEncoded
   else []) ++
  (if u.hasPort then ':'.toUInt8 :: decimal u.port.toNat else [])

/-- The path `GenerateString` writes: the segments joined by `/`, after a `/` for the root alone. -/
def generatePath (path : List Bytes) : Bytes :=
  (if isPathAbsolute path && path.length == 1 then ['/'.toUInt8] else []) ++
    ['/'.toUInt8].intercalate (path.map (encodeElement · pcharNotPctEncoded))

/-- `Uri::GenerateString`. -/
def generateString (u : Impl) : Bytes :=
  (if !u.scheme.isEmpty then u.scheme ++ [':'.toUInt8] else []) ++
  (if u.hasAuthority then '/'.toUInt8 :: '/'.toUInt8 :: generateAuthority u else []) ++
  generatePath u.path ++
  (if u.hasQuery then '?'.toUInt8 :: encodeElement u.query queryNotPctEncodedWithoutPlus
   else []) ++
  (if u.hasFragment then '#'.toUInt8 :: encodeElement u.fragment queryOrFragmentNotPctEncoded
   else [])

end Uri
