import Uri.Element

/-!
# RFC 3986 syntax

The `URI-reference` grammar of RFC 3986, as the components §5.3 recomposes: a scheme, an
authority (user information, host, port), a path of segments, a query and a fragment. An
element that may hold `pct-encoded` triplets is a list of `PctToken`s over the character set
of its production; the sets are the ones `Uri.cpp` defines, which transcribe RFC 3986's
productions one for one. A string is a URI reference when some well-formed reference
recomposes to it (`UriReference`).

`Reference.Delimited` is weaker: it asks of each component only what keeps the delimiters of
the string where the recomposition puts them. It holds of every well-formed reference whose
scheme window has no `:` (`Reference.WellFormed.delimited`), and of the references
`GenerateString` writes.
-/

namespace Uri

/-! ## IP addresses -/

/-- `dec-octet`: a number from 0 to 255, written without leading zeros. -/
def DecOctet (t : Bytes) : Prop := ∃ n ≤ 255, t = decimal n

/-- `IPv4address = dec-octet "." dec-octet "." dec-octet "." dec-octet` -/
def Ipv4Address (t : Bytes) : Prop :=
  ∃ a b c d, DecOctet a ∧ DecOctet b ∧ DecOctet c ∧ DecOctet d ∧
    t = a ++ '.'.toUInt8 :: b ++ '.'.toUInt8 :: c ++ '.'.toUInt8 :: d

/-- `h16 = 1*4HEXDIG` -/
def H16 (t : Bytes) : Prop := t ≠ [] ∧ t.length ≤ 4 ∧ ∀ c ∈ t, hexdig.contains c = true

/-- `ls32 = ( h16 ":" h16 ) / IPv4address` -/
def Ls32 (t : Bytes) : Prop :=
  (∃ a b, H16 a ∧ H16 b ∧ t = a ++ ':'.toUInt8 :: b) ∨ Ipv4Address t

/-- `n( h16 ":" )`, for the groups given. -/
def colonTerminated (groups : List Bytes) : Bytes := groups.flatMap (· ++ [':'.toUInt8])

/-- `[ *k( h16 ":" ) h16 ]`, for the groups given: empty, or the groups joined by `:`. -/
def colonSeparated (groups : List Bytes) : Bytes := [':'.toUInt8].intercalate groups

/-- `"::"` -/
def doubleColon : Bytes := [':'.toUInt8, ':'.toUInt8]

/-- `IPv6address`: `full`, the six alternatives ending in `ls32` after `::` as `compressed`
(5 down to 0 groups after it), then `compressedH16` and `compressedEnd`. -/
inductive Ipv6Address : Bytes → Prop
  /-- `6( h16 ":" ) ls32` -/
  | full {groups : List Bytes} {tail : Bytes} :
      groups.length = 6 → (∀ g ∈ groups, H16 g) → Ls32 tail →
      Ipv6Address (colonTerminated groups ++ tail)
  /-- `[ *k( h16 ":" ) h16 ] "::" n( h16 ":" ) ls32`, with `k + 1 + n ≤ 5`. -/
  | compressed {before after : List Bytes} {tail : Bytes} :
      after.length ≤ 5 → before.length + after.length ≤ 5 →
      (∀ g ∈ before, H16 g) → (∀ g ∈ after, H16 g) → Ls32 tail →
      Ipv6Address (colonSeparated before ++ doubleColon ++ colonTerminated after ++ tail)
  /-- `[ *5( h16 ":" ) h16 ] "::" h16` -/
  | compressedH16 {before : List Bytes} {last : Bytes} :
      before.length ≤ 6 → (∀ g ∈ before, H16 g) → H16 last →
      Ipv6Address (colonSeparated before ++ doubleColon ++ last)
  /-- `[ *6( h16 ":" ) h16 ] "::"` -/
  | compressedEnd {before : List Bytes} :
      before.length ≤ 7 → (∀ g ∈ before, H16 g) →
      Ipv6Address (colonSeparated before ++ doubleColon)

/-- `IPvFuture = "v" 1*HEXDIG "." 1*( unreserved / sub-delims / ":" )`, the `v` in either case. -/
def IpvFuture (t : Bytes) : Prop :=
  ∃ v version body, (v = 'v'.toUInt8 ∨ v = 'V'.toUInt8) ∧ version ≠ [] ∧ body ≠ [] ∧
    (∀ c ∈ version, hexdig.contains c = true) ∧
    (∀ c ∈ body, ipvFutureLastPart.contains c = true) ∧
    t = v :: version ++ '.'.toUInt8 :: body

/-! ## Components -/

/-- `host`: an `IP-literal` by the text in its brackets, or a `reg-name`, covering `IPv4address`. -/
inductive Host where
  | ipLiteral (text : Bytes)
  | regName (tokens : List PctToken)
  deriving DecidableEq, Repr

/-- `authority = [ userinfo "@" ] host [ ":" port ]` -/
structure Authority where
  userinfo : Option (List PctToken)
  host : Host
  port : Option Bytes
  deriving DecidableEq, Repr

/-- A URI reference by its components (RFC 3986 §5.3): the path is its list of segments. -/
structure Reference where
  scheme : Option Bytes
  authority : Option Authority
  path : List (List PctToken)
  query : Option (List PctToken)
  fragment : Option (List PctToken)
  deriving DecidableEq, Repr

/-! ## Recomposition -/

/-- The text of an `IP-literal` or of a `reg-name`. -/
def Host.render : Host → Bytes
  | .ipLiteral text => '['.toUInt8 :: text ++ [']'.toUInt8]
  | .regName tokens => renderTokens tokens

/-- `[ ":" port ]` -/
def portSuffix : Option Bytes → Bytes
  | some port => ':'.toUInt8 :: port
  | none => []

/-- `[ userinfo "@" ]` -/
def userinfoPrefix : Option (List PctToken) → Bytes
  | some userinfo => renderTokens userinfo ++ ['@'.toUInt8]
  | none => []

/-- The text of an authority after its user information: the host, and the port after a `:`. -/
def Authority.hostAndPort (a : Authority) : Bytes := a.host.render ++ portSuffix a.port

/-- The text of an authority. -/
def Authority.render (a : Authority) : Bytes := userinfoPrefix a.userinfo ++ a.hostAndPort

/-- `[ "//" authority ]` -/
def authorityPrefix : Option Authority → Bytes
  | some a => '/'.toUInt8 :: '/'.toUInt8 :: a.render
  | none => []

/-- The text of a path: its segments joined by `/`. -/
def renderPath (segments : List (List PctToken)) : Bytes :=
  ['/'.toUInt8].intercalate (segments.map renderTokens)

/-- An optional element after its delimiter: `[ "?" query ]` or `[ "#" fragment ]`. -/
def delimitedElement (delimiter : UInt8) : Option (List PctToken) → Bytes
  | some tokens => delimiter :: renderTokens tokens
  | none => []

/-- `[ scheme ":" ]` -/
def schemePrefix : Option Bytes → Bytes
  | some scheme => scheme ++ [':'.toUInt8]
  | none => []

/-- The part of a reference before the query: the `hier-part` or `relative-part`. -/
def Reference.hierPart (r : Reference) : Bytes := authorityPrefix r.authority ++ renderPath r.path

/-- The query and fragment of a reference, with their delimiters. -/
def Reference.queryAndFragment (r : Reference) : Bytes :=
  delimitedElement '?'.toUInt8 r.query ++ delimitedElement '#'.toUInt8 r.fragment

/-- The part of a reference after its scheme. -/
def Reference.afterScheme (r : Reference) : Bytes := r.hierPart ++ r.queryAndFragment

/-- RFC 3986 §5.3, component recomposition. -/
def Reference.recompose (r : Reference) : Bytes := schemePrefix r.scheme ++ r.afterScheme

/-! ## Well-formed references -/

/-- `scheme = ALPHA *( ALPHA / DIGIT / "+" / "-" / "." )` -/
def IsScheme : Bytes → Prop
  | [] => False
  | c :: rest => alpha.contains c = true ∧ ∀ x ∈ rest, schemeNotFirst.contains x = true

instance : DecidablePred IsScheme := fun s ↦ by
  cases s <;> unfold IsScheme <;> infer_instance

/-- A token list of an element with the unescaped characters of `set`. -/
def TokensValid (set : CharacterSet) (tokens : List PctToken) : Prop :=
  ∀ t ∈ tokens, t.Valid set

instance (set : CharacterSet) : DecidablePred (TokensValid set) := fun tokens ↦ by
  unfold TokensValid
  infer_instance

/-- `IP-literal = "[" ( IPv6address / IPvFuture ) "]"`, `reg-name`. -/
def Host.WellFormed : Host → Prop
  | .ipLiteral text => Ipv6Address text ∨ IpvFuture text
  | .regName tokens => TokensValid regNameNotPctEncoded tokens

/-- `userinfo` and `port = *DIGIT`, with the condition `hostValid` on the host. -/
def Authority.Valid (hostValid : Host → Prop) (a : Authority) : Prop :=
  (∀ userinfo, a.userinfo = some userinfo → TokensValid userInfoNotPctEncoded userinfo) ∧
    hostValid a.host ∧ ∀ port, a.port = some port → ∀ c ∈ port, digit.contains c = true

/-- Each component is of its production's characters and escapes, the host meeting `hostValid`. -/
def Reference.ComponentsValid (hostValid : Host → Prop) (r : Reference) : Prop :=
  (∀ scheme, r.scheme = some scheme → IsScheme scheme) ∧
  (∀ a, r.authority = some a → a.Valid hostValid) ∧
  (∀ segment ∈ r.path, TokensValid pcharNotPctEncoded segment) ∧
  (∀ query, r.query = some query → TokensValid queryOrFragmentNotPctEncoded query) ∧
  (∀ fragment, r.fragment = some fragment → TokensValid queryOrFragmentNotPctEncoded fragment)

/-- `path-abempty = *( "/" segment )` -/
def PathAbempty (path : List (List PctToken)) : Prop :=
  path = [] ∨ ∃ rest, path = [] :: rest ∧ rest ≠ []

/-- `path-absolute = "/" [ segment-nz *( "/" segment ) ]` -/
def PathAbsolute (path : List (List PctToken)) : Prop :=
  path = [[], []] ∨ ∃ first rest, path = [] :: first :: rest ∧ first ≠ []

/-- `path-rootless = segment-nz *( "/" segment )` -/
def PathRootless (path : List (List PctToken)) : Prop :=
  ∃ first rest, path = first :: rest ∧ first ≠ []

/-- `path-noscheme = segment-nz-nc *( "/" segment )`: a first segment without `:`. -/
def PathNoscheme (path : List (List PctToken)) : Prop :=
  ∃ first rest, path = first :: rest ∧ first ≠ [] ∧ PctToken.char ':'.toUInt8 ∉ first

/-- The path production: `path-abempty` after an authority, else `path-absolute`,
`path-rootless` (`path-noscheme` without a scheme) or `path-empty`. -/
def PathWellFormed (hasScheme hasAuthority : Bool) (path : List (List PctToken)) : Prop :=
  if hasAuthority then PathAbempty path
  else PathAbsolute path ∨ (if hasScheme then PathRootless path else PathNoscheme path) ∨
    path = []

/-- `URI / relative-ref`, by components. -/
def Reference.WellFormed (r : Reference) : Prop :=
  r.ComponentsValid Host.WellFormed ∧ PathWellFormed r.scheme.isSome r.authority.isSome r.path

/-- `authority = [ userinfo "@" ] host [ ":" port ]`, as a text. -/
def AuthorityText (s : Bytes) : Prop := ∃ a : Authority, a.Valid Host.WellFormed ∧ a.render = s

/-- `URI-reference = URI / relative-ref` -/
def UriReference (s : Bytes) : Prop := ∃ r : Reference, r.WellFormed ∧ r.recompose = s

end Uri
