import Uri.RoundTrip

/-!
# `ValidateIpv4Address` and dotted quads

The spec reads `ValidateIpv4Address` as a split at `.` into exactly four runs of decimal digits,
each of value at most 255 and leading zeros allowed: a `DottedQuad` of `DigitOctet`s.

The loop counts a group and checks the octet before it at each `.`, and at the end checks the
octet left in the buffer, if there is one, and otherwise only the count. Its state after any
part of its input is the octets read so far, each accepted by `ValidateOctet` and followed by
its `.`, then the digits in the buffer (`foldlM_ipv4Step_eq_some`). A `.` after the fourth octet
leaves an empty buffer and a count of four, so the validator accepts three accepted octets, each
with its `.`, and a fourth, with or without one more `.` (`validateIpv4Address_eq_true_iff`).
`ValidateOctet`'s `int` wraps from `2 ^ 31`, so a longer run can pass as an octet
(`validateIpv4Address_wrapped_octet`); on texts whose runs of digits stay below `2 ^ 31`, the
validator accepts exactly the dotted quads and the dotted quads followed by one `.`.
-/

namespace Uri

/-! ## Octets -/

theorem foldlM_octet (x : Nat) : ∀ s : Bytes,
    s.foldlM (fun octet c ↦ if digit.contains c then
        some (wrapInt (wrapInt (octet * 10) + ((c.toNat - '0'.toNat : Nat) : Int))) else none)
        (wrapInt x) =
      if ∀ c ∈ s, digit.contains c = true then
        some (wrapInt ((s.foldl (fun value c ↦ value * 10 + (c.toNat - '0'.toNat)) x : Nat) : Int))
      else none
  | [] => rfl
  | c :: s => by
    by_cases hc : digit.contains c = true
    · have hstep : wrapInt (wrapInt (wrapInt x * 10) + ((c.toNat - '0'.toNat : Nat) : Int)) =
          wrapInt ((x * 10 + (c.toNat - '0'.toNat) : Nat) : Int) := by
        rw [wrapInt_step]
        push_cast
        rfl
      simp only [List.foldlM_cons, hc, ↓reduceIte, Option.bind_eq_bind, Option.some_bind, hstep,
        foldlM_octet _ s, List.forall_mem_cons, true_and, List.foldl_cons]
    · rw [Bool.not_eq_true] at hc
      simp only [List.foldlM_cons, hc, Bool.false_eq_true, ↓reduceIte, Option.bind_eq_bind,
        Option.none_bind, List.forall_mem_cons, false_and]

/-- `ValidateOctet` accepts the runs of digits whose value, wrapped to an `int`, is at most 255. -/
theorem validateOctet_iff (s : Bytes) :
    validateOctet s = true ↔
      (∀ c ∈ s, digit.contains c = true) ∧ wrapInt (digitsValue s) ≤ 255 := by
  unfold validateOctet
  rw [show (0 : Int) = wrapInt ((0 : Nat) : Int) from
    (wrapInt_eq_self (by norm_num) (by norm_num)).symm, foldlM_octet]
  by_cases h : ∀ c ∈ s, digit.contains c = true
  · simp only [if_pos h, decide_eq_true_eq, digitsValue]
    exact ⟨fun hv ↦ ⟨h, hv⟩, And.right⟩
  · simp only [if_neg h, Bool.false_eq_true, false_iff, not_and]
    exact fun hd ↦ absurd hd h

theorem validateOctet_iff_of_lt {s : Bytes} (hs : digitsValue s < 2 ^ 31) :
    validateOctet s = true ↔ (∀ c ∈ s, digit.contains c = true) ∧ digitsValue s ≤ 255 := by
  rw [validateOctet_iff, wrapInt_eq_self (by omega) (by omega)]
  norm_cast

/-- A run of decimal digits of value at most 255, leading zeros allowed: a relaxed `dec-octet`. -/
def DigitOctet (t : Bytes) : Prop :=
  t ≠ [] ∧ (∀ c ∈ t, digit.contains c = true) ∧ digitsValue t ≤ 255

instance : DecidablePred DigitOctet := fun _ ↦ inferInstanceAs (Decidable (_ ∧ _ ∧ _))

/-- A run `ValidateIpv4Address` takes as an octet: non-empty and accepted by `ValidateOctet`. -/
def AcceptedOctet (t : Bytes) : Prop := t ≠ [] ∧ validateOctet t = true

instance : DecidablePred AcceptedOctet := fun _ ↦ inferInstanceAs (Decidable (_ ∧ _))

theorem AcceptedOctet.digits {t : Bytes} (h : AcceptedOctet t) :
    ∀ c ∈ t, digit.contains c = true :=
  ((validateOctet_iff t).1 h.2).1

theorem AcceptedOctet.dot_not_mem {t : Bytes} (h : AcceptedOctet t) : '.'.toUInt8 ∉ t :=
  fun hdot ↦ absurd (h.digits _ hdot) (by decide)

theorem DigitOctet.acceptedOctet {t : Bytes} (h : DigitOctet t) : AcceptedOctet t :=
  ⟨h.1, (validateOctet_iff_of_lt (lt_of_le_of_lt h.2.2 (by norm_num))).2 h.2⟩

theorem AcceptedOctet.digitOctet {t : Bytes} (h : AcceptedOctet t)
    (hlt : digitsValue t < 2 ^ 31) : DigitOctet t :=
  ⟨h.1, (validateOctet_iff_of_lt hlt).1 h.2⟩

/-! ## Dotted quads -/

/-- Four `DigitOctet`s separated by `.`. -/
def DottedQuad (t : Bytes) : Prop :=
  ∃ a b c d, DigitOctet a ∧ DigitOctet b ∧ DigitOctet c ∧ DigitOctet d ∧
    t = a ++ '.'.toUInt8 :: b ++ '.'.toUInt8 :: c ++ '.'.toUInt8 :: d

/-- Octets, each followed by its `.`. -/
def dotted (octets : List Bytes) : Bytes := octets.flatMap (· ++ ['.'.toUInt8])

@[simp]
theorem dotted_nil : dotted [] = [] := rfl

@[simp]
theorem dotted_append (octets more : List Bytes) :
    dotted (octets ++ more) = dotted octets ++ dotted more := by
  simp [dotted]

@[simp]
theorem dotted_singleton (octet : Bytes) : dotted [octet] = octet ++ ['.'.toUInt8] := by
  simp [dotted]

theorem dotted_append_eq_intercalate (octets : List Bytes) (last : Bytes) :
    dotted octets ++ last = ['.'.toUInt8].intercalate (octets ++ [last]) := by
  induction octets with
  | nil => simp [List.intercalate]
  | cons octet octets ih =>
    obtain ⟨next, rest, hrest⟩ := List.exists_cons_of_ne_nil (by simp : octets ++ [last] ≠ [])
    rw [List.cons_append, hrest, intercalate_cons_cons, ← hrest, ← ih]
    simp [dotted]

theorem splitOn_dotted {octets : List Bytes} {last : Bytes}
    (h : ∀ r ∈ octets ++ [last], '.'.toUInt8 ∉ r) :
    (dotted octets ++ last).splitOn '.'.toUInt8 = octets ++ [last] := by
  rw [dotted_append_eq_intercalate]
  exact List.splitOn_intercalate _ _ h (by simp)

/-- A dotted quad is three octets, each followed by its `.`, and a fourth. -/
theorem dottedQuad_iff {t : Bytes} :
    DottedQuad t ↔ ∃ octets last, octets.length = 3 ∧ (∀ r ∈ octets, DigitOctet r) ∧
      DigitOctet last ∧ t = dotted octets ++ last := by
  constructor
  · rintro ⟨a, b, c, d, ha, hb, hc, hd, rfl⟩
    exact ⟨[a, b, c], d, rfl, by simp [ha, hb, hc], hd, by simp [dotted]⟩
  · rintro ⟨octets, d, hlen, hoctets, hd, rfl⟩
    match octets, hlen with
    | [a, b, c], _ =>
      exact ⟨a, b, c, d, hoctets a (by simp), hoctets b (by simp), hoctets c (by simp), hd,
        by simp [dotted]⟩

theorem DottedQuad.getLast?_digit {t : Bytes} (h : DottedQuad t) :
    ∀ x, t.getLast? = some x → digit.contains x = true := by
  obtain ⟨octets, d, -, -, ⟨hne, hdigits, -⟩, rfl⟩ := dottedQuad_iff.1 h
  intro x hx
  rw [List.getLast?_append_of_ne_nil _ hne] at hx
  exact hdigits x (List.mem_of_getLast?_eq_some hx)

theorem DottedQuad.mem_splitOn {t : Bytes} (h : DottedQuad t) :
    ∀ run ∈ t.splitOn '.'.toUInt8, DigitOctet run := by
  obtain ⟨octets, d, -, hoctets, hd, rfl⟩ := dottedQuad_iff.1 h
  have hall : ∀ r ∈ octets ++ [d], DigitOctet r :=
    List.forall_mem_append.2 ⟨hoctets, List.forall_mem_singleton.2 hd⟩
  rw [splitOn_dotted fun r hr ↦ (hall r hr).acceptedOctet.dot_not_mem]
  exact hall

/-! ## The loop -/

/-- What `ValidateIpv4Address`'s loop has read at `v`: accepted octets, each with its `.`, then
the buffer's digits, empty exactly in state 0. -/
def Ipv4Validation.Read (v : Ipv4Validation) (address : Bytes) : Prop :=
  ∃ octets : List Bytes, (∀ r ∈ octets, AcceptedOctet r) ∧ octets.length = v.numGroups ∧
    v.numGroups ≤ 4 ∧ (∀ c ∈ v.octetBuffer, digit.contains c = true) ∧
    v.state = (if v.octetBuffer = [] then 0 else 1) ∧ address = dotted octets ++ v.octetBuffer

theorem ipv4Step_eq_some {v w : Ipv4Validation} {c : UInt8} :
    ipv4Step v c = some w ↔
      v.state = 0 ∧ digit.contains c = true ∧ ⟨v.numGroups, 1, v.octetBuffer ++ [c]⟩ = w ∨
      v.state = 1 ∧ c = '.'.toUInt8 ∧ v.numGroups < 4 ∧ validateOctet v.octetBuffer = true ∧
        ⟨v.numGroups + 1, 0, []⟩ = w ∨
      v.state = 1 ∧ c ≠ '.'.toUInt8 ∧ digit.contains c = true ∧
        ⟨v.numGroups, 1, v.octetBuffer ++ [c]⟩ = w ∨
      2 ≤ v.state ∧ v = w := by
  obtain ⟨numGroups, state, octetBuffer⟩ := v
  unfold ipv4Step
  rcases state with _ | _ | state
  · by_cases hc : digit.contains c = true <;> simp [hc]
  · by_cases hdot : c = '.'.toUInt8
    · subst hdot
      have hdigit : digit.contains '.'.toUInt8 = false := by decide
      by_cases hn : 4 ≤ numGroups
      · simp [hn, hdigit]
      · simp [hn, hdigit]
        omega
    · by_cases hc : digit.contains c = true <;> simp [hdot, hc]
  · simp

/-- One step of the loop keeps what it has read. -/
theorem Ipv4Validation.Read.step {v w : Ipv4Validation} {address : Bytes} {c : UInt8}
    (h : v.Read address) (hstep : ipv4Step v c = some w) : w.Read (address ++ [c]) := by
  obtain ⟨octets, hoctets, hlen, hle, hdigits, hstate, rfl⟩ := h
  rcases ipv4Step_eq_some.1 hstep with
    ⟨h0, hc, rfl⟩ | ⟨h1, rfl, hlt, hvalid, rfl⟩ | ⟨h1, -, hc, rfl⟩ | ⟨h2, -⟩
  · -- a digit after a `.`, or first: the buffer was empty
    have hbuffer : v.octetBuffer = [] := by
      by_contra hne
      simp [hne] at hstate
      omega
    exact ⟨octets, hoctets, hlen, hle, by simp [hbuffer, hc], by simp, by simp [hbuffer]⟩
  · -- a `.` after an octet: the octet is checked and counted
    have hbuffer : v.octetBuffer ≠ [] := fun hnil ↦ by simp [hnil] at hstate; omega
    exact ⟨octets ++ [v.octetBuffer], List.forall_mem_append.2 ⟨hoctets,
      List.forall_mem_singleton.2 ⟨hbuffer, hvalid⟩⟩, by simp [hlen], hlt,
      by simp, rfl, by simp⟩
  · -- another digit of the octet
    exact ⟨octets, hoctets, hlen, hle,
      List.forall_mem_append.2 ⟨hdigits, List.forall_mem_singleton.2 hc⟩, by simp, by simp⟩
  · split at hstate <;> omega

theorem Ipv4Validation.Read.exists_ipv4Step {w : Ipv4Validation} {address : Bytes} {c : UInt8}
    (h : w.Read (address ++ [c])) :
    ∃ v : Ipv4Validation, v.Read address ∧ ipv4Step v c = some w := by
  obtain ⟨octets, hoctets, hlen, hle, hdigits, hstate, heq⟩ := h
  obtain ⟨numGroups, state, buffer⟩ := w
  dsimp only at hlen hle hdigits hstate heq
  rcases List.eq_nil_or_concat buffer with rfl | ⟨buffer, d, rfl⟩
  · -- the input ends with the `.` after an octet
    rw [if_pos rfl] at hstate
    subst hstate
    rcases List.eq_nil_or_concat octets with rfl | ⟨octets, r, rfl⟩
    · simp at heq
    · rw [List.concat_eq_append] at heq hoctets hlen
      rw [dotted_append, dotted_singleton, List.append_nil, ← List.append_assoc] at heq
      obtain ⟨rfl, hc⟩ := List.append_inj' heq rfl
      obtain rfl := List.singleton_inj.1 hc
      have hr : AcceptedOctet r := hoctets r (by simp)
      simp only [List.length_append, List.length_singleton] at hlen
      refine ⟨⟨octets.length, 1, r⟩, ⟨octets, fun o ho ↦ hoctets o (by simp [ho]), rfl,
        show octets.length ≤ 4 by omega, hr.digits, by simp [hr.1], rfl⟩,
        ipv4Step_eq_some.2 (.inr (.inl ⟨rfl, rfl, show octets.length < 4 by omega, hr.2,
          by simp [hlen]⟩))⟩
  · -- the input ends with a digit of the buffer
    rw [List.concat_eq_append] at heq hdigits hstate ⊢
    rw [← List.append_assoc] at heq
    obtain ⟨rfl, hc⟩ := List.append_inj' heq rfl
    obtain rfl := List.singleton_inj.1 hc
    have hd : digit.contains c = true := hdigits c (by simp)
    simp only [List.append_eq_nil, List.cons_ne_self, and_false, if_false] at hstate
    subst hstate
    refine ⟨⟨numGroups, if buffer = [] then 0 else 1, buffer⟩,
      ⟨octets, hoctets, hlen, hle, fun x hx ↦ hdigits x (by simp [hx]), rfl, rfl⟩,
      ipv4Step_eq_some.2 ?_⟩
    by_cases hbuffer : buffer = []
    · subst hbuffer
      exact .inl ⟨rfl, hd, rfl⟩
    · have hne : c ≠ '.'.toUInt8 := fun h ↦ absurd (h ▸ hd) (by decide)
      exact .inr (.inr (.inl ⟨by simp [hbuffer], hne, hd, rfl⟩))

/-- The state of `ValidateIpv4Address`'s loop after any part of its input is what it has read. -/
theorem foldlM_ipv4Step_eq_some {address : Bytes} {v : Ipv4Validation} :
    address.foldlM ipv4Step ⟨0, 0, []⟩ = some v ↔ v.Read address := by
  induction address using List.reverseRecOn generalizing v with
  | nil =>
    constructor
    · rintro ⟨⟩
      exact ⟨[], by simp, rfl, Nat.zero_le 4, by simp, rfl, rfl⟩
    · rintro ⟨octets, -, hlen, -, -, hstate, hnil⟩
      obtain ⟨hdotted, hbuffer⟩ := List.append_eq_nil.1 hnil.symm
      obtain rfl : octets = [] := by
        cases octets with
        | nil => rfl
        | cons octet octets => simp [dotted] at hdotted
      obtain ⟨numGroups, state, octetBuffer⟩ := v
      dsimp only at hlen hstate hbuffer
      subst hbuffer
      simp only [if_true] at hstate
      subst hstate hlen
      rfl
  | append_singleton address c ih =>
    simp only [List.foldlM_append, List.foldlM_cons, List.foldlM_nil, Option.bind_eq_bind,
      Option.bind_eq_some, bind_pure, ih]
    exact ⟨fun ⟨_, hw, hstep⟩ ↦ hw.step hstep, fun h ↦ h.exists_ipv4Step⟩

/-! ## What `ValidateIpv4Address` accepts -/

/-- `ValidateIpv4Address` accepts exactly three accepted octets, each followed by its `.`, and a
fourth, with or without one more `.`. -/
theorem validateIpv4Address_eq_true_iff (address : Bytes) :
    validateIpv4Address address = true ↔
      ∃ octets last, octets.length = 3 ∧ (∀ r ∈ octets ++ [last], AcceptedOctet r) ∧
        (address = dotted octets ++ last ∨ address = dotted octets ++ last ++ ['.'.toUInt8]) := by
  constructor
  · intro h
    unfold validateIpv4Address at h
    split at h
    · cases h
    · next v hv =>
      obtain ⟨octets, hoctets, hlen, -, -, -, rfl⟩ := foldlM_ipv4Step_eq_some.1 hv
      split_ifs at h with hbuffer
      · -- an octet in the buffer ends the address: it is the fourth
        simp only [Bool.and_eq_true, beq_iff_eq] at h
        exact ⟨octets, v.octetBuffer, by omega,
          List.forall_mem_append.2 ⟨hoctets, List.forall_mem_singleton.2 ⟨hbuffer, h.1⟩⟩,
          .inl rfl⟩
      · -- four octets, each followed by its `.`
        simp only [beq_iff_eq] at h
        rcases List.eq_nil_or_concat octets with rfl | ⟨octets, r, rfl⟩
        · simp at hlen h
          omega
        · rw [List.concat_eq_append] at hoctets hlen
          simp only [List.length_append, List.length_singleton] at hlen
          exact ⟨octets, r, by omega, hoctets, .inr (by simp [not_not.1 hbuffer])⟩
  · rintro ⟨octets, d, hlen, hoctets, hshape⟩
    have hd : AcceptedOctet d := hoctets d (by simp)
    unfold validateIpv4Address
    rcases hshape with rfl | rfl
    · have hrun : (dotted octets ++ d).foldlM ipv4Step ⟨0, 0, []⟩ = some ⟨3, 1, d⟩ :=
        foldlM_ipv4Step_eq_some.2 ⟨octets, fun r hr ↦ hoctets r (by simp [hr]), hlen,
          show 3 ≤ 4 by omega, hd.digits, by simp [hd.1], rfl⟩
      rw [hrun]
      simp [hd.1, hd.2]
    · have hrun : (dotted octets ++ d ++ ['.'.toUInt8]).foldlM ipv4Step ⟨0, 0, []⟩ =
          some ⟨4, 0, []⟩ :=
        foldlM_ipv4Step_eq_some.2 ⟨octets ++ [d], hoctets, by simp [hlen], le_rfl, by simp, rfl,
          by simp⟩
      rw [hrun]
      rfl

/-- On texts whose digit runs between dots are below `2 ^ 31`, `ValidateIpv4Address` accepts
exactly the dotted quads, and the dotted quads followed by one `.`. -/
theorem validateIpv4Address_iff {address : Bytes}
    (hruns : ∀ run ∈ address.splitOn '.'.toUInt8, (∀ c ∈ run, digit.contains c = true) →
      digitsValue run < 2 ^ 31) :
    validateIpv4Address address = true ↔
      DottedQuad address ∨ ∃ quad, DottedQuad quad ∧ address = quad ++ ['.'.toUInt8] := by
  rw [validateIpv4Address_eq_true_iff]
  constructor
  · rintro ⟨octets, d, hlen, hoctets, hshape⟩
    have hnodot : ∀ r ∈ octets ++ [d], '.'.toUInt8 ∉ r := fun r hr ↦ (hoctets r hr).dot_not_mem
    -- the octets are runs of the address between its dots
    have hmem : ∀ r ∈ octets ++ [d], r ∈ address.splitOn '.'.toUInt8 := by
      rcases hshape with rfl | rfl
      · rw [splitOn_dotted hnodot]
        exact fun r hr ↦ hr
      · rw [show dotted octets ++ d ++ ['.'.toUInt8] = dotted (octets ++ [d]) ++ [] by simp,
          splitOn_dotted (List.forall_mem_append.2 ⟨hnodot, by simp⟩)]
        exact fun r hr ↦ List.mem_append_left _ hr
    have hdigit : ∀ r ∈ octets ++ [d], DigitOctet r := fun r hr ↦
      (hoctets r hr).digitOctet (hruns r (hmem r hr) (hoctets r hr).digits)
    have hquad : DottedQuad (dotted octets ++ d) := dottedQuad_iff.2
      ⟨octets, d, hlen, fun r hr ↦ hdigit r (by simp [hr]), hdigit d (by simp), rfl⟩
    rcases hshape with rfl | rfl
    · exact .inl hquad
    · exact .inr ⟨_, hquad, rfl⟩
  · have haccepted : ∀ {octets : List Bytes} {d : Bytes}, (∀ r ∈ octets, DigitOctet r) →
        DigitOctet d → ∀ r ∈ octets ++ [d], AcceptedOctet r := fun hoctets hd ↦
      List.forall_mem_append.2 ⟨fun r hr ↦ (hoctets r hr).acceptedOctet,
        List.forall_mem_singleton.2 hd.acceptedOctet⟩
    rintro (h | ⟨quad, h, rfl⟩) <;> obtain ⟨octets, d, hlen, hoctets, hd, rfl⟩ := dottedQuad_iff.1 h
    · exact ⟨octets, d, hlen, haccepted hoctets hd, .inl rfl⟩
    · exact ⟨octets, d, hlen, haccepted hoctets hd, .inr rfl⟩

/-- `1.2.3.4`: runs far below `2 ^ 31`. -/
theorem validateIpv4Address_iff_dotted_quad :
    (∀ run ∈ (bytesOf "1.2.3.4").splitOn '.'.toUInt8, (∀ c ∈ run, digit.contains c = true) →
      digitsValue run < 2 ^ 31) ∧
    (validateIpv4Address (bytesOf "1.2.3.4") = true ↔ DottedQuad (bytesOf "1.2.3.4") ∨
      ∃ quad, DottedQuad quad ∧ bytesOf "1.2.3.4" = quad ++ ['.'.toUInt8]) :=
  ⟨by decide, validateIpv4Address_iff (by decide)⟩

/-- `1.2.3.4294967297` passes: its last run's value `2 ^ 32 + 1` wraps to 1 in the `int`. -/
theorem validateIpv4Address_wrapped_octet :
    validateIpv4Address (bytesOf "1.2.3.4294967297") = true ∧
      ¬DottedQuad (bytesOf "1.2.3.4294967297") :=
  ⟨by decide, fun h ↦ absurd (h.mem_splitOn (bytesOf "4294967297") (by decide)) (by decide)⟩

/-- `1.2.3.4.` passes `ValidateIpv4Address`, and it is not a dotted quad. -/
theorem validateIpv4Address_trailing_dot :
    validateIpv4Address (bytesOf "1.2.3.4.") = true ∧ ¬DottedQuad (bytesOf "1.2.3.4.") :=
  ⟨by decide, fun h ↦ absurd (h.getLast?_digit '.'.toUInt8 rfl) (by decide)⟩

end Uri
