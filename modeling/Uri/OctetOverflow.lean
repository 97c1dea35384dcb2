import Uri.DottedQuad

/-!
# The accumulator of `ValidateOctet`

`ValidateOctet` accumulates the value of its digits in an `int`, by `octet *= 10` and
`octet += (int)(c - '0')`; `validateOctet` wraps it as the compiled code does.
`validateOctetInt` follows the `int` as the C++ standard does: it stops with `none` at the first
of those operations whose exact result leaves the range of a 32-bit `int`, an overflow the
standard leaves undefined. On a run of digits it agrees with `validateOctet` while the run's
value is below `2 ^ 31`, and overflows exactly when it is not (`validateOctetInt_digits`).

Runs of any length reach `ValidateOctet` while `ParseFromString` runs: the IPv6 machine holds
the first group of an IPv4 tail to four digits, but the tail's other octets go to
`ValidateIpv4Address` and from there to `ValidateOctet` as they are, and its verdict on the last
one decides the parse (`parseFromString_ipv4Tail`).
-/

namespace Uri

/-! ## `ValidateOctet` on an `int` -/

/-- The range of a 32-bit `int`. -/
def IntRange (x : Int) : Prop := -2 ^ 31 ≤ x ∧ x < 2 ^ 31

instance : DecidablePred IntRange := fun _ ↦ inferInstanceAs (Decidable (_ ∧ _))

/-- `ValidateOctet` on an `int`: `none` at the first step whose exact result leaves its range. -/
def validateOctetInt (octetString : Bytes) : Option Bool := go 0 octetString
where
  /-- The loop, from the accumulator's value. -/
  go (octet : Int) : Bytes → Option Bool
    | [] => some (decide (octet ≤ 255))
    | c :: rest =>
      if digit.contains c then
        if ¬IntRange (octet * 10) then none
        else if ¬IntRange (octet * 10 + ((c.toNat : Int) - '0'.toNat)) then none
        else go (octet * 10 + ((c.toNat : Int) - '0'.toNat)) rest
      else some false

theorem digit_value {c : UInt8} (h : digit.contains c = true) :
    (c.toNat : Int) - '0'.toNat = ((c.toNat - '0'.toNat : Nat) : Int) ∧
      c.toNat - '0'.toNat < 10 := by
  simp only [digit, CharacterSet.contains_range] at h
  simp at h ⊢
  omega

/-- On a run of digits, from a value below `2 ^ 31`, the loop overflows exactly when the value
the digits bring it to is not below `2 ^ 31`, and otherwise compares that value with 255. -/
theorem validateOctetInt_go (x : Nat) (hx : x < 2 ^ 31) :
    ∀ {r : Bytes}, (∀ c ∈ r, digit.contains c = true) →
      validateOctetInt.go x r =
        if 2 ^ 31 ≤ x * 10 ^ r.length + digitsValue r then none
        else some (decide (x * 10 ^ r.length + digitsValue r ≤ 255))
  | [], _ => by
    simp only [validateOctetInt.go, List.length_nil, pow_zero, mul_one, digitsValue,
      List.foldl_nil, add_zero, if_neg hx.not_le, Int.ofNat_le]
    norm_cast
  | c :: rest, hr => by
    obtain ⟨hc, hrest⟩ := List.forall_mem_cons.1 hr
    obtain ⟨hvalue, hlt⟩ := digit_value hc
    have hpow : 1 ≤ 10 ^ rest.length := Nat.one_le_pow _ _ (by norm_num)
    have htotal : x * 10 ^ (c :: rest).length + digitsValue (c :: rest) =
        (x * 10 + (c.toNat - '0'.toNat)) * 10 ^ rest.length + digitsValue rest := by
      rw [digitsValue_cons, List.length_cons, pow_succ]
      ring
    have hstep :
        (x * 10 + (c.toNat - '0'.toNat)) ≤ (x * 10 + (c.toNat - '0'.toNat)) * 10 ^ rest.length :=
      Nat.le_mul_of_pos_right _ hpow
    rw [htotal]
    simp only [validateOctetInt.go, hc, if_true, hvalue, IntRange]
    by_cases hbig : 2 ^ 31 ≤ x * 10 + (c.toNat - '0'.toNat)
    · have hnone : 2 ^ 31 ≤ (x * 10 + (c.toNat - '0'.toNat)) * 10 ^ rest.length +
          digitsValue rest := by omega
      rw [if_pos hnone]
      split_ifs <;> first | rfl | omega
    · have hnext := validateOctetInt_go (x * 10 + (c.toNat - '0'.toNat)) (by omega) hrest
      rw [if_neg (by omega), if_neg (by omega)]
      exact_mod_cast hnext

/-- `ValidateOctet` on an `int`, over a run of digits: it overflows exactly when the run's
value is not below `2 ^ 31`, and otherwise it is `validateOctet`. -/
theorem validateOctetInt_digits {r : Bytes} (hr : ∀ c ∈ r, digit.contains c = true) :
    validateOctetInt r = if 2 ^ 31 ≤ digitsValue r then none else some (validateOctet r) := by
  have hrun := validateOctetInt_go 0 (by norm_num) hr
  simp only [zero_mul, zero_add, Nat.cast_zero] at hrun
  rw [validateOctetInt, hrun]
  split_ifs with hbig
  · rfl
  · rw [Option.some.injEq, Bool.eq_iff_iff, validateOctet_iff_of_lt (not_le.1 hbig),
      decide_eq_true_iff, and_iff_right hr]

/-! ## Runs that reach `ValidateOctet` -/

section Tail

variable {r : Bytes} (hr : r ≠ [] ∧ ∀ c ∈ r, digit.contains c = true)
include hr

theorem validateIpv4Address_octets_digits :
    validateIpv4Address (bytesOf "1.2.3." ++ r) = validateOctet r := by
  have hrun : (bytesOf "1.2.3." ++ r).foldlM ipv4Step ⟨0, 0, []⟩ = some ⟨3, 1, r⟩ :=
    foldlM_ipv4Step_eq_some.2 ⟨[bytesOf "1", bytesOf "2", bytesOf "3"], by decide, rfl,
      show 3 ≤ 4 by omega, hr.2, by simp [hr.1], rfl⟩
  unfold validateIpv4Address
  rw [hrun]
  simp [hr.1]

theorem validateIpv6Address_ipv4Tail :
    validateIpv6Address (bytesOf "::1.2.3." ++ r) = validateOctet r := by
  have hloop : ipv6Loop ⟨.noGroupsYet, 0, 0, false, 0, 0, false⟩ (bytesOf "::1.2.3." ++ r) =
      some ⟨.inGroupCouldBeIpv4, 0, 1, true, 2, 3, true⟩ := rfl
  have hdrop : (bytesOf "::1.2.3." ++ r).drop 2 = bytesOf "1.2.3." ++ r := rfl
  unfold validateIpv6Address
  rw [hloop]
  simp [hdrop, validateIpv4Address_octets_digits hr]

/-- The parse of `//[::1.2.3.`, a run of digits and `]` succeeds when `ValidateOctet` accepts it. -/
theorem parseFromString_ipv4Tail :
    (parseFromString default (bytesOf "//[::1.2.3." ++ r ++ bytesOf "]")).isSome =
      validateOctet r := by
  have hchars : ∀ c ∈ bytesOf "::1.2.3." ++ r, ipvFutureLastPart.contains c = true := by
    intro c hc
    rcases List.mem_append.1 hc with hc | hc
    · exact (show ∀ c ∈ bytesOf "::1.2.3.", ipvFutureLastPart.contains c = true by decide) c hc
    · exact CharacterSet.contains_of_ranges_le (by decide) c (hr.2 c hc)
  have hrecompose : Reference.recompose
      ⟨none, some ⟨none, .ipLiteral (bytesOf "::1.2.3." ++ r), none⟩, [], none, none⟩ =
        bytesOf "//[::1.2.3." ++ r ++ bytesOf "]" := by
    simp [Reference.recompose, schemePrefix, Reference.afterScheme, Reference.hierPart,
      authorityPrefix, Authority.render, userinfoPrefix, Authority.hostAndPort, Host.render,
      portSuffix, renderPath, Reference.queryAndFragment, delimitedElement]
    rfl
  have hwindow : schemeWindow (bytesOf "//[::1.2.3." ++ r ++ bytesOf "]") = [] := rfl
  have hdelimited : Reference.Delimited
      ⟨none, some ⟨none, .ipLiteral (bytesOf "::1.2.3." ++ r), none⟩, [], none, none⟩ :=
    ⟨⟨by simp, by simpa [Authority.Valid, Host.Delimited] using hchars, by simp, by simp,
      by simp⟩, by simp [PathDelimited, PathAbempty], fun _ ↦ by
      rw [hrecompose, hwindow]
      exact List.not_mem_nil _⟩
  rw [← hrecompose, parseFromString_recompose hdelimited]
  have haccepted : Reference.accepted
      ⟨none, some ⟨none, .ipLiteral (bytesOf "::1.2.3." ++ r), none⟩, [], none, none⟩ =
        validateOctet r := by
    have hhead : (bytesOf "::1.2.3." ++ r).head? = some ':'.toUInt8 := rfl
    simp only [Reference.accepted, Authority.accepted, Host.accepted, ipLiteralAccepted,
      hhead, if_neg (show some ':'.toUInt8 ≠ some 'v'.toUInt8 by decide),
      validateIpv6Address_ipv4Tail hr, Option.all_some, Option.all_none, Bool.and_true]
  rw [haccepted]
  split <;> simp_all

end Tail

/-- For every run of digits, the parse of `//[::1.2.3.`, the run and `]` follows `ValidateOctet`,
whose `int` overflows on the run exactly when its value is not below `2 ^ 31`. -/
theorem parseFromString_octet_overflow {r : Bytes}
    (hr : r ≠ [] ∧ ∀ c ∈ r, digit.contains c = true) :
    (parseFromString default (bytesOf "//[::1.2.3." ++ r ++ bytesOf "]")).isSome =
        validateOctet r ∧
      (validateOctetInt r = none ↔ 2 ^ 31 ≤ digitsValue r) := by
  refine ⟨parseFromString_ipv4Tail hr, ?_⟩
  rw [validateOctetInt_digits hr.2]
  split_ifs with h
  · exact iff_of_true rfl h
  · exact iff_of_false id h

/-- `//[::1.2.3.4294967296]`: the last octet's value is `2 ^ 32`. -/
theorem parseFromString_octet_overflow_4294967296 :
    (bytesOf "4294967296" ≠ [] ∧ ∀ c ∈ bytesOf "4294967296", digit.contains c = true) ∧
      ((parseFromString default
            (bytesOf "//[::1.2.3." ++ bytesOf "4294967296" ++ bytesOf "]")).isSome =
          validateOctet (bytesOf "4294967296") ∧
        (validateOctetInt (bytesOf "4294967296") = none ↔
          2 ^ 31 ≤ digitsValue (bytesOf "4294967296"))) ∧
      2 ^ 31 ≤ digitsValue (bytesOf "4294967296") :=
  ⟨⟨by decide, by decide⟩, parseFromString_octet_overflow ⟨by decide, by decide⟩, by decide⟩

end Uri
