import Uri.Element
import Uri.Address
import Uri.Impl

/-!
# The authority parser

`Impl::ParseAuthority` splits the authority at its first `@`, decodes the user information,
and runs a nine-state machine over the rest to separate the host from the port. The two
fall-through cases of its `switch` (`FIRST_CHARACTER` into `NOT_IP_LITERAL`, `IP_LITERAL` into
`IPV6_ADDRESS`) are calls of the next case's step. The port text goes to `std::stoi`, which
is part of the C++ library and is modelled from its specification.
-/

namespace Uri

open PercentEncodedCharacterDecoder

/-! ## `std::stoi` -/

/-- `isspace` in the C locale. -/
def isSpace (c : UInt8) : Bool := c.toNat == 32 || (9 ≤ c.toNat && c.toNat ≤ 13)

/-- The value of a run of decimal digits. -/
def digitsValue (digits : Bytes) : Nat :=
  digits.foldl (fun value c ↦ value * 10 + (c.toNat - '0'.toNat)) 0

/-- `std::stoi` in base 10: white space, a sign, then the longest run of digits; the rest is
ignored. No digit and a value outside `int` (the two exceptions) are `none`. -/
def stoi (str : Bytes) : Option Int :=
  let rest := str.dropWhile isSpace
  let (negative, rest) : Bool × Bytes :=
    match rest with
    | c :: tail =>
      if c = '-'.toUInt8 then (true, tail) else if c = '+'.toUInt8 then (false, tail)
      else (false, rest)
    | [] => (false, [])
  let digits := rest.takeWhile digit.contains
  if digits.isEmpty then none
  else
    let value : Int := if negative then -(digitsValue digits : Int) else digitsValue digits
    if -2 ^ 31 ≤ value ∧ value < 2 ^ 31 then some value else none

/-! ## The host and port machine -/

/-- `HostParsingState`. -/
inductive HostParsingState where
  | firstCharacter
  | notIpLiteral
  | percentEncodedCharacter
  | ipLiteral
  | ipv6Address
  | ipvFutureNumber
  | ipvFutureBody
  | garbageCheck
  | port
  deriving DecidableEq, Repr

/-- The variables of the host loop of `ParseAuthority`. -/
structure HostParsing where
  hostParsingState : HostParsingState
  host : Bytes
  portString : Bytes
  pecDecoder : PercentEncodedCharacterDecoder
  hostIsRegName : Bool

namespace HostParsing

/-- The `NOT_IP_LITERAL` case. -/
def notIpLiteralStep (p : HostParsing) (c : UInt8) : Option HostParsing :=
  if c = '%'.toUInt8 then
    some { p with pecDecoder := firstDigit, hostParsingState := .percentEncodedCharacter }
  else if c = ':'.toUInt8 then some { p with hostParsingState := .port }
  else if regNameNotPctEncoded.contains c then some { p with host := p.host ++ [c] }
  else none

/-- The `IPV6_ADDRESS` case: the literal is collected up to `]` and then validated. -/
def ipv6AddressStep (p : HostParsing) (c : UInt8) : Option HostParsing :=
  if c = ']'.toUInt8 then
    if validateIpv6Address p.host then some { p with hostParsingState := .garbageCheck }
    else none
  else some { p with host := p.host ++ [c] }

/-- One iteration of the host loop. -/
def step (p : HostParsing) (c : UInt8) : Option HostParsing :=
  match p.hostParsingState with
  | .firstCharacter =>
    if c = '['.toUInt8 then some { p with hostParsingState := .ipLiteral }
    else notIpLiteralStep { p with hostParsingState := .notIpLiteral, hostIsRegName := true } c
  | .notIpLiteral => notIpLiteralStep p c
  | .percentEncodedCharacter =>
    match p.pecDecoder.nextEncodedCharacter c with
    | none => none
    | some d =>
      if d.done then
        some { p with pecDecoder := d, hostParsingState := .notIpLiteral,
                      host := p.host ++ [d.getDecodedCharacter] }
      else some { p with pecDecoder := d }
  | .ipLiteral =>
    if c = 'v'.toUInt8 then
      some { p with host := p.host ++ [c], hostParsingState := .ipvFutureNumber }
    else ipv6AddressStep { p with hostParsingState := .ipv6Address } c
  | .ipv6Address => ipv6AddressStep p c
  | .ipvFutureNumber =>
    if c = '.'.toUInt8 then
      some { p with hostParsingState := .ipvFutureBody, host := p.host ++ [c] }
    else if hexdig.contains c then some { p with host := p.host ++ [c] }
    else none
  | .ipvFutureBody =>
    if c = ']'.toUInt8 then some { p with hostParsingState := .garbageCheck }
    else if ipvFutureLastPart.contains c then some { p with host := p.host ++ [c] }
    else none
  | .garbageCheck => if c = ':'.toUInt8 then some { p with hostParsingState := .port } else none
  | .port => some { p with portString := p.portString ++ [c] }

/-- The state before the first character. -/
def init : HostParsing := ⟨.firstCharacter, [], [], firstDigit, false⟩

/-- The states in which the host text may end. -/
def finished (p : HostParsing) : Bool :=
  p.hostParsingState = .firstCharacter || p.hostParsingState = .notIpLiteral ||
    p.hostParsingState = .garbageCheck || p.hostParsingState = .port

end HostParsing

/-! ## `ParseAuthority` -/

/-- The start of `ParseAuthority`: the decoded user information (empty without `@`), the rest. -/
def splitUserInfo (authorityString : Bytes) : Option (Bytes × Bytes) :=
  match find authorityString '@'.toUInt8 with
  | none => some ([], authorityString)
  | some userInfoDelimiter =>
    (decodeElement (authorityString.take userInfoDelimiter) userInfoNotPctEncoded).map
      (·, authorityString.drop (userInfoDelimiter + 1))

/-- `Impl::ParseAuthority`. -/
def Impl.parseAuthority (u : Impl) (authorityString : Bytes) : Option Impl :=
  (splitUserInfo authorityString).bind fun (userInfo, hostPortString) ↦
  (hostPortString.foldlM HostParsing.step HostParsing.init).bind fun p ↦
  if !p.finished then none
  else
    let host := if p.hostIsRegName then p.host.map toLower else p.host
    if p.portString.isEmpty then some { u with userInfo, host, hasPort := false }
    else
      (stoi p.portString).bind fun portAsInt ↦
        if portAsInt < 0 ∨ portAsInt > 65535 then none
        else some { u with userInfo, host, port := portAsInt.toNat.toUInt16, hasPort := true }

end Uri
