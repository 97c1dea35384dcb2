import Uri.Basic

/-!
# The IP address validators

`ValidateOctet`, `ValidateIpv4Address` and `ValidateIpv6Address`, each a loop over the
candidate's characters with the variables of the source. A `return false` inside a loop is a
`none` of the step function, and a `break` ends the loop with the state the step produced.

The octet accumulator of `ValidateOctet` is an `int`, and `octet *= 10` overflows it from
`2 ^ 31`. The C++ standard leaves that undefined; the compiled code wraps, and so does
`validateOctet`, through `wrapInt`. `Uri.OctetOverflow` follows the `int` only up to its first
overflow.
-/

namespace Uri

/-! ## IPv4 -/

/-- `int` arithmetic as the compiled code does it: two's complement on 32 bits. -/
def wrapInt (x : Int) : Int := (x + 2147483648) % 4294967296 - 2147483648

theorem wrapInt_eq_self {x : Int} (h₀ : -2147483648 ≤ x) (h₁ : x < 2147483648) :
    wrapInt x = x := by
  unfold wrapInt
  omega

theorem wrapInt_step (x d : Int) :
    wrapInt (wrapInt (wrapInt x * 10) + d) = wrapInt (x * 10 + d) := by
  unfold wrapInt
  omega

/-- `ValidateOctet`, its `int` accumulator wrapping on overflow. -/
def validateOctet (octetString : Bytes) : Bool :=
  match octetString.foldlM (fun octet c ↦
      if digit.contains c then
        some (wrapInt (wrapInt (octet * 10) + ((c.toNat - '0'.toNat : Nat) : Int)))
      else none) (0 : Int) with
  | some octet => octet ≤ 255
  | none => false

/-- The variables of `ValidateIpv4Address`'s loop; `state` 0 is before an octet, 1 in one. -/
structure Ipv4Validation where
  numGroups : Nat
  state : Nat
  octetBuffer : Bytes

/-- One iteration of `ValidateIpv4Address`'s loop. -/
def ipv4Step (v : Ipv4Validation) (c : UInt8) : Option Ipv4Validation :=
  match v.state with
  | 0 =>
    if digit.contains c then some { v with octetBuffer := v.octetBuffer ++ [c], state := 1 }
    else none
  | 1 =>
    if c = '.'.toUInt8 then
      if v.numGroups ≥ 4 then none
      else if !validateOctet v.octetBuffer then none
      else some ⟨v.numGroups + 1, 0, []⟩
    else if digit.contains c then some { v with octetBuffer := v.octetBuffer ++ [c] }
    else none
  | _ => some v

/-- `ValidateIpv4Address`. -/
def validateIpv4Address (address : Bytes) : Bool :=
  match address.foldlM ipv4Step ⟨0, 0, []⟩ with
  | none => false
  | some v =>
    if v.octetBuffer ≠ [] then validateOctet v.octetBuffer && v.numGroups + 1 == 4
    else v.numGroups == 4

/-! ## IPv6 -/

/-- The states of `ValidateIpv6Address`. -/
inductive ValidationState where
  | noGroupsYet
  | colonButNoGroupsYet
  | afterDoubleColon
  | inGroupNotIpv4
  | inGroupCouldBeIpv4
  | colonAfterGroup
  deriving DecidableEq, Repr

/-- The variables of `ValidateIpv6Address`'s loop. -/
structure Ipv6Validation where
  state : ValidationState
  numGroups : Nat
  numDigits : Nat
  doubleColonEncountered : Bool
  potentialIpv4AddressStart : Nat
  position : Nat
  ipv4AddressEncountered : Bool

/-- The body of `ValidateIpv6Address`'s `switch`, before the `break` test. -/
def ipv6Step (v : Ipv6Validation) (c : UInt8) : Option Ipv6Validation :=
  match v.state with
  | .noGroupsYet =>
    if c = ':'.toUInt8 then some { v with state := .colonButNoGroupsYet }
    else if digit.contains c then
      some { v with
        potentialIpv4AddressStart := v.position, numDigits := 1, state := .inGroupCouldBeIpv4 }
    else if hexdig.contains c then some { v with numDigits := 1, state := .inGroupNotIpv4 }
    else none
  | .colonButNoGroupsYet =>
    if c = ':'.toUInt8 then
      some { v with doubleColonEncountered := true, state := .afterDoubleColon }
    else none
  | .afterDoubleColon =>
    if digit.contains c then
      if v.numDigits + 1 > 4 then none
      else some { v with
        potentialIpv4AddressStart := v.position, numDigits := v.numDigits + 1,
        state := .inGroupCouldBeIpv4 }
    else if hexdig.contains c then
      if v.numDigits + 1 > 4 then none
      else some { v with numDigits := v.numDigits + 1, state := .inGroupNotIpv4 }
    else none
  | .inGroupNotIpv4 =>
    if c = ':'.toUInt8 then
      some { v with numDigits := 0, numGroups := v.numGroups + 1, state := .colonAfterGroup }
    else if hexdig.contains c then
      if v.numDigits + 1 > 4 then none else some { v with numDigits := v.numDigits + 1 }
    else none
  | .inGroupCouldBeIpv4 =>
    if c = ':'.toUInt8 then
      some { v with numDigits := 0, numGroups := v.numGroups + 1, state := .colonAfterGroup }
    else if c = '.'.toUInt8 then some { v with ipv4AddressEncountered := true }
    else if digit.contains c then
      if v.numDigits + 1 > 4 then none else some { v with numDigits := v.numDigits + 1 }
    else if hexdig.contains c then
      if v.numDigits + 1 > 4 then none
      else some { v with numDigits := v.numDigits + 1, state := .inGroupNotIpv4 }
    else none
  | .colonAfterGroup =>
    if c = ':'.toUInt8 then
      if v.doubleColonEncountered then none
      else some { v with doubleColonEncountered := true, state := .afterDoubleColon }
    else if digit.contains c then
      some { v with
        potentialIpv4AddressStart := v.position, numDigits := v.numDigits + 1,
        state := .inGroupCouldBeIpv4 }
    else if hexdig.contains c then
      some { v with numDigits := v.numDigits + 1, state := .inGroupNotIpv4 }
    else none

/-- `ValidateIpv6Address`'s loop: it stops at the first `.`, before advancing past it. -/
def ipv6Loop : Ipv6Validation → Bytes → Option Ipv6Validation
  | v, [] => some v
  | v, c :: cs =>
    match ipv6Step v c with
    | none => none
    | some v =>
      if v.ipv4AddressEncountered then some v
      else ipv6Loop { v with position := v.position + 1 } cs

/-- `ValidateIpv6Address`. -/
def validateIpv6Address (address : Bytes) : Bool :=
  match ipv6Loop ⟨.noGroupsYet, 0, 0, false, 0, 0, false⟩ address with
  | none => false
  | some v =>
    let numGroups :=
      if v.state = .inGroupNotIpv4 ∨ v.state = .inGroupCouldBeIpv4 then v.numGroups + 1
      else v.numGroups
    if v.position = address.length ∧
        (v.state = .colonButNoGroupsYet ∨ v.state = .colonAfterGroup) then false
    else if v.ipv4AddressEncountered ∧
        !validateIpv4Address (address.drop v.potentialIpv4AddressStart) then false
    else
      let numGroups := if v.ipv4AddressEncountered then numGroups + 2 else numGroups
      if v.doubleColonEncountered then numGroups ≤ 7 else numGroups = 8

end Uri
