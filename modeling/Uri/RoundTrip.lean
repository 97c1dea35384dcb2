import Uri.CaseVariant
import Uri.Generate

/-!
# Generating a parsed value and parsing it back

`GenerateString` writes a value as the recomposition of a reference, `Impl.reference`: every
element encoded with the set of its production, a host that passes `ValidateIpv6Address` as an
IP literal in lower case, any other host as an encoded reg-name, and the root path as two empty
segments (`generateString_eq_recompose`). Parsing the text back is then the refinement theorem
of `Uri.Recomposition`, and `operator==` compares what `Impl.observed` keeps of a value.

A parsed value comes back equal when its host has no upper-case letter
(`parseFromString_generateString`). The parser keeps the case of an IP literal and the generator
lower-cases an IPv6 address and turns an `IPvFuture` into a reg-name, which the parser
lower-cases. Three more shapes are left aside, each of which reads back differently
(`generateString_changes_value`): the path of two empty segments that only a truncated escape
produces, written `/`; a path starting with two empty segments without an authority, written as
an authority; and a value without a scheme whose text has a `:` before its first `/`, read as a
scheme.
-/

namespace Uri

/-! ## What `operator==` observes -/

/-- The fields `operator==` compares: the port, query and fragment only under their flags. -/
def Impl.observed (u : Impl) :
    Bytes × Bytes × Bytes × Option UInt16 × List Bytes × Option Bytes × Option Bytes :=
  (u.scheme, u.userInfo, u.host, if u.hasPort then some u.port else none, u.path,
    if u.hasQuery then some u.query else none, if u.hasFragment then some u.fragment else none)

theorem ite_some_eq_iff {α : Type} (p q : Bool) (x y : α) :
    ((if p then some x else none) = if q then some y else none) ↔
      p = false ∧ q = false ∨ p = true ∧ q = true ∧ x = y := by
  cases p <;> cases q <;> simp

/-- `operator==` is the equality of what it observes. -/
theorem equals_iff_observed (a b : Impl) : equals a b = true ↔ a.observed = b.observed := by
  simp only [equals, Impl.observed, Prod.mk.injEq, Bool.and_eq_true, Bool.or_eq_true,
    Bool.not_eq_true', beq_iff_eq, ite_some_eq_iff, and_assoc]

/-! ## Numbers written and read back -/

theorem foldl_digitsValue (x : Nat) :
    ∀ b : Bytes, b.foldl (fun value c ↦ value * 10 + (c.toNat - '0'.toNat)) x =
      x * 10 ^ b.length + digitsValue b
  | [] => by simp [digitsValue]
  | c :: b => by
    rw [List.foldl_cons, foldl_digitsValue _ b]
    show _ = x * 10 ^ (b.length + 1) + List.foldl _ (0 * 10 + (c.toNat - '0'.toNat)) b
    rw [foldl_digitsValue _ b]
    ring

theorem digitsValue_cons (c : UInt8) (b : Bytes) :
    digitsValue (c :: b) = (c.toNat - '0'.toNat) * 10 ^ b.length + digitsValue b := by
  rw [digitsValue, List.foldl_cons, foldl_digitsValue, Nat.zero_mul, Nat.zero_add]

theorem digitChar_value : ∀ k < 10, (Nat.digitChar k).toUInt8.toNat - '0'.toNat = k := by
  decide

theorem digitsValue_toDigitsCore :
    ∀ (fuel n : Nat) (ds : List Char), n < fuel →
      digitsValue ((Nat.toDigitsCore 10 fuel n ds).map Char.toUInt8) =
        n * 10 ^ ds.length + digitsValue (ds.map Char.toUInt8)
  | 0, n, _, h => absurd h (Nat.not_lt_zero n)
  | fuel + 1, n, ds, h => by
    have hdigit := digitChar_value (n % 10) (Nat.mod_lt _ (by norm_num))
    simp only [Nat.toDigitsCore]
    split_ifs with hn
    · rw [List.map_cons, digitsValue_cons, hdigit, List.length_map, Nat.mod_eq_of_lt (by omega)]
    · rw [digitsValue_toDigitsCore fuel _ _ (by omega), List.map_cons, digitsValue_cons, hdigit,
        List.length_map, List.length_cons]
      calc n / 10 * 10 ^ (ds.length + 1) + (n % 10 * 10 ^ ds.length + digitsValue _)
          = (10 * (n / 10) + n % 10) * 10 ^ ds.length + digitsValue _ := by ring
        _ = n * 10 ^ ds.length + digitsValue _ := by rw [Nat.div_add_mod]

/-- `std::stoi` reads back the decimal digits `operator<<` writes. -/
theorem digitsValue_decimal (n : Nat) : digitsValue (decimal n) = n := by
  simpa using digitsValue_toDigitsCore (n + 1) n [] (Nat.lt_succ_self n)

theorem decimal_ne_nil (n : Nat) : decimal n ≠ [] := by
  intro h
  have hn := digitsValue_decimal n
  rw [h] at hn
  subst hn
  exact absurd h (by decide)

theorem filter_decimal (n : Nat) : (some (decimal n)).filter (!·.isEmpty) = some (decimal n) := by
  cases h : decimal n with
  | nil => exact absurd h (decimal_ne_nil n)
  | cons c rest => rfl

/-! ## What `ValidateIpv6Address` accepts -/

theorem digit_hexdig {c : UInt8} (h : digit.contains c = true) : hexdig.contains c = true := by
  simp [digit, hexdig] at h ⊢
  omega

theorem ipv6Step_some {v w : Ipv6Validation} {c : UInt8} (h : ipv6Step v c = some w) :
    IsAddressChar c ∧ w.position = v.position ∧
      (w.potentialIpv4AddressStart = v.potentialIpv4AddressStart ∨
        w.potentialIpv4AddressStart = v.position) := by
  have hcolon : c = ':'.toUInt8 → IsAddressChar c := fun h ↦ .inr (.inl h)
  have hdot : c = '.'.toUInt8 → IsAddressChar c := fun h ↦ .inr (.inr h)
  have hdigit : digit.contains c = true → IsAddressChar c := fun h ↦ .inl (digit_hexdig h)
  have hhex : hexdig.contains c = true → IsAddressChar c := .inl
  unfold ipv6Step at h
  split at h <;> simp only [ite_eq_iff, Option.some.injEq, reduceCtorEq, and_false, false_or,
    or_false] at h <;> casesm* _ ∨ _, _ ∧ _ <;> subst w <;>
    exact ⟨by first | exact hcolon ‹_› | exact hdot ‹_› | exact hdigit ‹_› | exact hhex ‹_›,
      rfl, by first | exact .inl rfl | exact .inr rfl⟩

theorem ipv6Loop_some :
    ∀ {v w : Ipv6Validation} {cs : Bytes}, ipv6Loop v cs = some w →
      v.potentialIpv4AddressStart ≤ v.position →
      w.potentialIpv4AddressStart ≤ w.position ∧ v.position ≤ w.position ∧
        (∀ c ∈ cs.take (w.position - v.position), IsAddressChar c) ∧
        (w.ipv4AddressEncountered = false → w.position = v.position + cs.length)
  | v, w, [], h, hv => by
    cases h
    simp [hv]
  | v, w, c :: cs, h, hv => by
    rw [ipv6Loop] at h
    rcases hstep : ipv6Step v c with _ | v'
    · simp [hstep] at h
    obtain ⟨hc, hposition, hstart⟩ := ipv6Step_some hstep
    simp only [hstep] at h
    split_ifs at h with hencountered
    · cases h
      refine ⟨by omega, by omega, by simp [hposition], by simp [hencountered]⟩
    · obtain ⟨hw, hle, hchars, hall⟩ := ipv6Loop_some h (by dsimp only; omega)
      dsimp only at hle hall hchars
      refine ⟨hw, by omega, ?_, fun he ↦ by rw [hall he, hposition, List.length_cons]; omega⟩
      obtain ⟨k, hk⟩ : ∃ k, w.position - v.position = k + 1 := ⟨_, (Nat.succ_pred_eq_of_pos
        (by omega)).symm⟩
      rw [hk, List.take_succ_cons, List.forall_mem_cons]
      exact ⟨hc, by rwa [show k = w.position - (v'.position + 1) by omega]⟩

theorem ipv4Step_some {v w : Ipv4Validation} {c : UInt8} (h : ipv4Step v c = some w)
    (hv : v.state ≤ 1) : (digit.contains c = true ∨ c = '.'.toUInt8) ∧ w.state ≤ 1 := by
  unfold ipv4Step at h
  split at h
  · split_ifs at h with hd
    cases h
    exact ⟨.inl hd, le_refl _⟩
  · split_ifs at h with hdot _ _ hd <;> cases h
    · exact ⟨.inr hdot, Nat.zero_le _⟩
    · exact ⟨.inl hd, hv⟩
  · rename_i hzero hone
    rcases Nat.le_one_iff_eq_zero_or_eq_one.1 hv with hs | hs
    exacts [(hzero hs).elim, (hone hs).elim]

theorem foldlM_ipv4Step_some :
    ∀ {v w : Ipv4Validation} {cs : Bytes}, cs.foldlM ipv4Step v = some w → v.state ≤ 1 →
      ∀ c ∈ cs, digit.contains c = true ∨ c = '.'.toUInt8
  | _, _, [], _, _ => by simp
  | v, w, c :: cs, h, hv => by
    rw [List.foldlM_cons] at h
    obtain ⟨v', hstep, h⟩ := Option.bind_eq_some.1 h
    obtain ⟨hc, hv'⟩ := ipv4Step_some hstep hv
    exact List.forall_mem_cons.2 ⟨hc, foldlM_ipv4Step_some h hv'⟩

theorem validateIpv4Address_addressChar {address : Bytes} (h : validateIpv4Address address = true) :
    ∀ c ∈ address, IsAddressChar c := by
  unfold validateIpv4Address at h
  split at h
  · exact absurd h Bool.false_ne_true
  · intro c hc
    rcases foldlM_ipv4Step_some ‹_› (Nat.zero_le 1) c hc with hd | hdot
    exacts [.inl (digit_hexdig hd), .inr (.inr hdot)]

theorem validateIpv6Address_addressChar {address : Bytes}
    (h : validateIpv6Address address = true) : ∀ c ∈ address, IsAddressChar c := by
  unfold validateIpv6Address at h
  split at h
  · exact absurd h Bool.false_ne_true
  rename_i w hloop
  obtain ⟨hw, -, hchars, hall⟩ := ipv6Loop_some hloop (le_refl 0)
  simp only [Nat.sub_zero, Nat.zero_add] at hchars hall
  cases hencountered : w.ipv4AddressEncountered
  · rwa [hall hencountered, List.take_length] at hchars
  · have hv4 : validateIpv4Address (address.drop w.potentialIpv4AddressStart) = true := by
      by_contra hn
      simp [hencountered, hn] at h
    intro c hc
    rw [← List.take_append_drop w.potentialIpv4AddressStart address, List.mem_append] at hc
    rcases hc with hc | hc
    · exact hchars c (List.take_subset_take_left _ hw hc)
    · exact validateIpv4Address_addressChar hv4 c hc

/-! ## The reference a value is written as -/

/-- The host `GenerateString` writes: an address that passes `ValidateIpv6Address` as an IP
literal in lower case, anything else as an encoded reg-name. -/
def Impl.generatedHost (u : Impl) : Host :=
  if !u.host.isEmpty && validateIpv6Address u.host then .ipLiteral (u.host.map toLower)
  else .regName (u.host.map (encodeToken regNameNotPctEncoded))

/-- The authority `GenerateString` writes. -/
def Impl.generatedAuthority (u : Impl) : Authority where
  userinfo :=
    if u.userInfo.isEmpty then none else some (u.userInfo.map (encodeToken userInfoNotPctEncoded))
  host := u.generatedHost
  port := if u.hasPort then some (decimal u.port.toNat) else none

/-- The reference `GenerateString` writes; the root path is `/`, the text of two empty segments. -/
def Impl.reference (u : Impl) : Reference where
  scheme := if u.scheme.isEmpty then none else some u.scheme
  authority := if u.hasAuthority then some u.generatedAuthority else none
  path :=
    if isPathAbsolute u.path && u.path.length == 1 then [[], []]
    else u.path.map (·.map (encodeToken pcharNotPctEncoded))
  query :=
    if u.hasQuery then some (u.query.map (encodeToken queryNotPctEncodedWithoutPlus)) else none
  fragment :=
    if u.hasFragment then some (u.fragment.map (encodeToken queryOrFragmentNotPctEncoded))
    else none

theorem isPathAbsolute_length_one_iff {path : List Bytes} :
    (isPathAbsolute path && path.length == 1) = true ↔ path = [[]] := by
  constructor
  · intro h
    match path, h with
    | [[]], _ => rfl
  · rintro rfl
    rfl

theorem generatedAuthority_render (u : Impl) :
    u.generatedAuthority.render = generateAuthority u := by
  simp only [Impl.generatedAuthority, Authority.render, Authority.hostAndPort, generateAuthority,
    Impl.generatedHost, List.append_assoc]
  congr 1
  · cases u.userInfo.isEmpty <;> simp [userinfoPrefix, encodeElement_eq_render]
  · congr 1
    · cases hhost : u.host.isEmpty
      · cases validateIpv6Address u.host <;> simp [Host.render, encodeElement_eq_render]
      · simp [Host.render, List.isEmpty_iff.1 hhost]
    · cases u.hasPort <;> simp [portSuffix]

theorem renderPath_reference (u : Impl) : renderPath u.reference.path = generatePath u.path := by
  simp only [Impl.reference, generatePath]
  split_ifs with hroot
  · rw [isPathAbsolute_length_one_iff.1 hroot]
    rfl
  · simp [renderPath, encodeElement_eq_render, Function.comp_def]

theorem delimitedElement_ite (d : UInt8) (b : Bool) (tokens : List PctToken) :
    delimitedElement d (if b then some tokens else none) =
      if b then d :: renderTokens tokens else [] := by
  cases b <;> rfl

/-- `GenerateString` writes the recomposition of `Impl.reference`. -/
theorem generateString_eq_recompose (u : Impl) : generateString u = u.reference.recompose := by
  simp only [generateString, Reference.recompose, Reference.afterScheme, Reference.hierPart,
    Reference.queryAndFragment, renderPath_reference, List.append_assoc]
  congr 1
  · cases h : u.scheme.isEmpty <;> simp [Impl.reference, schemePrefix, h]
  · congr 1
    · cases h : u.hasAuthority <;>
        simp [Impl.reference, authorityPrefix, generatedAuthority_render, h]
    · simp only [Impl.reference, delimitedElement_ite, encodeElement_eq_render]

/-! ## What a parse leaves -/

/-- What a parse leaves: a legal lower-case scheme or none, an empty or absolute path after an
authority, and a non-empty path after a host. -/
structure Parsed (u : Impl) : Prop where
  scheme : u.scheme = [] ∨ IsScheme u.scheme ∧ u.scheme.map toLower = u.scheme
  path_of_authority : u.hasAuthority = true → u.path = [] ∨ isPathAbsolute u.path = true
  path_of_host : u.host ≠ [] → u.path ≠ []

theorem parseScheme_scheme {u v : Impl} {uriString rest : Bytes}
    (h : u.parseScheme uriString = some (v, rest)) :
    v.scheme = [] ∨ IsScheme v.scheme ∧ v.scheme.map toLower = v.scheme := by
  unfold Impl.parseScheme at h
  dsimp only at h
  split at h
  · cases h
    exact .inl rfl
  · split_ifs at h with hfails
    cases h
    rw [failsMatch_legalSchemeCheckStrategy, Bool.not_eq_true', decide_eq_false_iff_not,
      not_not] at hfails
    refine .inr ⟨hfails.of_variant (List.forall₂_map_right_iff.2 (List.forall₂_same.2
      fun c _ ↦ (toLower_toLower c).symm)), ?_⟩
    simp [Function.comp_def]

/-- Every successful parse leaves a `Parsed` value. -/
theorem parseFromString_parsed {u v : Impl} {uriString : Bytes}
    (h : parseFromString u uriString = some v) : Parsed v := by
  obtain ⟨hauthority, hhost⟩ := parseFromString_path h
  refine ⟨?_, hauthority, hhost⟩
  obtain ⟨u₁, _, u₂, _, _, path, hscheme, hsplit, -, _, _, _, _, rfl⟩ :=
    parseFromString_stages h
  rw [splitAuthorityFromPathAndParseIt_eq_splitWrites, Option.map_eq_some'] at hsplit
  obtain ⟨_, -, hsplit⟩ := hsplit
  cases hsplit
  have hdefault : ∀ x : Impl, x.setDefaultPathIfAuthorityPresentAndPathEmpty.scheme = x.scheme :=
    fun x ↦ by unfold Impl.setDefaultPathIfAuthorityPresentAndPathEmpty; split <;> rfl
  simpa only [hdefault] using parseScheme_scheme hscheme

/-! ## The reference of a value -/

section Reference

variable {u : Impl}

theorem encodeTokens_valid {E D : CharacterSet}
    (hsub : ∀ c, E.contains c = true → D.contains c = true) (s : Bytes) :
    TokensValid D (s.map (encodeToken E)) := by
  simp only [TokensValid, List.mem_map]
  rintro t ⟨c, -, rfl⟩
  exact encodeToken_valid_of_subset hsub c

theorem decode_encodeTokens (allowed : CharacterSet) (s : Bytes) :
    (s.map (encodeToken allowed)).map PctToken.decode = s := by
  simp [Function.comp_def]

theorem head_ne_v_of_validateIpv6Address (h : validateIpv6Address u.host = true) :
    u.host.head? ≠ some 'v'.toUInt8 := by
  intro hv
  have hmem := List.mem_of_mem_head? hv
  exact absurd (validateIpv6Address_addressChar h _ hmem) (by unfold IsAddressChar; decide)

section LowerCaseHost

variable (hhost : u.host.map toLower = u.host)
include hhost

theorem generatedHost_delimited : u.generatedHost.Delimited := by
  unfold Impl.generatedHost
  split_ifs with h
  · intro c hc
    rw [hhost] at hc
    exact (validateIpv6Address_addressChar (Bool.and_eq_true _ _ ▸ h).2 c hc).ipvFutureLastPart
  · exact encodeTokens_valid (fun _ h ↦ h) _

theorem generatedHost_accepted : u.generatedHost.accepted = true := by
  unfold Impl.generatedHost
  split_ifs with h
  · have hvalid := (Bool.and_eq_true _ _ ▸ h).2
    simp only [Host.accepted, ipLiteralAccepted, hhost, if_neg (head_ne_v_of_validateIpv6Address
      hvalid), hvalid]
  · rfl

theorem generatedHost_stored : u.generatedHost.stored = u.host := by
  unfold Impl.generatedHost
  split_ifs
  · exact hhost
  · rw [Host.stored, decode_encodeTokens, hhost]

theorem generatedAuthority_valid : u.generatedAuthority.Valid Host.Delimited := by
  refine ⟨fun userinfo h ↦ ?_, generatedHost_delimited hhost, fun port h ↦ ?_⟩
  · simp only [Impl.generatedAuthority] at h
    split_ifs at h
    cases h
    exact encodeTokens_valid (fun _ h ↦ h) _
  · simp only [Impl.generatedAuthority] at h
    split_ifs at h
    cases h
    exact decimal_digit _

theorem generatedAuthority_accepted : u.generatedAuthority.accepted = true := by
  simp only [Authority.accepted, Impl.generatedAuthority, generatedHost_accepted hhost,
    Bool.true_and]
  split_ifs
  · simp only [Option.all_some, portAccepted, digitsValue_decimal, Bool.or_eq_true,
      decide_eq_true_eq]
    exact .inr (Nat.le_of_lt_succ u.port.toNat_lt)
  · rfl

theorem reference_authorityFields (w : Impl) :
    u.reference.authorityFields w =
      { w with userInfo := u.userInfo, host := u.host, hasPort := u.hasPort,
               port := if u.hasPort then u.port else w.port } := by
  unfold Reference.authorityFields Impl.reference
  cases hauthority : u.hasAuthority
  · simp only [Impl.hasAuthority, Bool.or_eq_false_iff, Bool.not_eq_false',
      List.isEmpty_iff] at hauthority
    obtain ⟨⟨hempty, huserInfo⟩, hport⟩ := hauthority
    simp [hempty, huserInfo, hport]
  · simp only [if_true, Authority.fields, generatedHost_stored hhost, Impl.generatedAuthority]
    congr 1
    · split_ifs with h
      · exact (List.isEmpty_iff.1 h).symm
      · exact decode_encodeTokens _ _
    · cases u.hasPort <;> simp [Authority.portText, filter_decimal]
    · cases u.hasPort <;> simp [Authority.portText, filter_decimal, digitsValue_decimal]

end LowerCaseHost

theorem reference_accepted (hhost : u.host.map toLower = u.host) : u.reference.accepted = true := by
  show (if u.hasAuthority then some u.generatedAuthority else none).all Authority.accepted = true
  split
  · exact generatedAuthority_accepted hhost
  · rfl

theorem decodePath_encodePath (allowed : CharacterSet) (path : List Bytes) :
    (path.map (·.map (encodeToken allowed))).map (·.map PctToken.decode) = path := by
  simp [Function.comp_def]

theorem reference_path_eq (hroot : ¬(isPathAbsolute u.path && u.path.length == 1) = true)
    {path : List (List PctToken)} (h : u.reference.path = path) :
    u.path = path.map (·.map PctToken.decode) := by
  simp only [Impl.reference, if_neg hroot] at h
  rw [← h, decodePath_encodePath]

theorem storedPath_reference (hu : Parsed u) (hpath : u.path ≠ [[], []]) :
    storedPath u.host u.reference.path = u.path := by
  by_cases hroot : (isPathAbsolute u.path && u.path.length == 1) = true
  · simp only [Impl.reference, if_pos hroot, isPathAbsolute_length_one_iff.1 hroot]
    rfl
  · unfold storedPath
    split_ifs with hstored
    · rcases hstored with h | ⟨h, hhost⟩
      · exact absurd (reference_path_eq hroot h) hpath
      · exact absurd (reference_path_eq hroot h) (hu.path_of_host hhost)
    · exact (reference_path_eq hroot rfl).symm

theorem encoded_valid {E D : CharacterSet} (hsub : ∀ c, E.contains c = true → D.contains c = true)
    {b : Bool} {s : Bytes} {tokens : List PctToken}
    (h : (if b then some (s.map (encodeToken E)) else none) = some tokens) :
    TokensValid D tokens := by
  split_ifs at h
  cases h
  exact encodeTokens_valid hsub s

theorem Parsed.reference_componentsValid (hu : Parsed u) (hhost : u.host.map toLower = u.host) :
    u.reference.ComponentsValid Host.Delimited := by
  refine ⟨fun scheme h ↦ ?_, fun a h ↦ ?_, fun segment h ↦ ?_,
    fun _ h ↦ encoded_valid queryNotPctEncodedWithoutPlus_subset h,
    fun _ h ↦ encoded_valid (fun _ h ↦ h) h⟩
  · simp only [Impl.reference] at h
    split_ifs at h with hempty
    cases h
    exact (hu.scheme.resolve_left (by simpa using hempty)).1
  · simp only [Impl.reference] at h
    split_ifs at h
    cases h
    exact generatedAuthority_valid hhost
  · simp only [Impl.reference] at h
    split_ifs at h
    · simp only [List.mem_cons, List.mem_singleton, List.not_mem_nil, or_false] at h
      rcases h with rfl | rfl <;> exact fun _ h ↦ absurd h (List.not_mem_nil _)
    · obtain ⟨x, -, rfl⟩ := List.mem_map.1 h
      exact encodeTokens_valid (fun _ h ↦ h) _

theorem Parsed.reference_pathDelimited (hu : Parsed u)
    (hauthority : u.hasAuthority = false → ∀ rest, u.path ≠ [] :: [] :: rest) :
    PathDelimited u.reference.authority.isSome u.reference.path := by
  show PathDelimited (if u.hasAuthority then some u.generatedAuthority else none).isSome
    u.reference.path
  by_cases hroot : (isPathAbsolute u.path && u.path.length == 1) = true
  · have hpath : u.reference.path = [[], []] := by simp only [Impl.reference, if_pos hroot]
    rw [hpath]
    cases u.hasAuthority
    · exact ⟨by decide, by simp⟩
    · exact .inr ⟨[[]], rfl, by simp⟩
  cases h : u.hasAuthority
  · refine ⟨fun hp ↦ hroot (isPathAbsolute_length_one_iff.2 ?_), fun x rest hp ↦
      hauthority h _ (reference_path_eq hroot hp)⟩
    simpa using reference_path_eq hroot hp
  · have hpath : u.reference.path = u.path.map (·.map (encodeToken pcharNotPctEncoded)) := by
      simp only [Impl.reference, if_neg hroot]
    rw [hpath]
    rcases hu.path_of_authority h with hnil | habs
    · exact .inl (by rw [hnil]; rfl)
    · obtain ⟨rest, hrest⟩ := (isPathAbsolute_iff _).1 habs
      refine .inr ⟨rest.map (·.map (encodeToken pcharNotPctEncoded)), by rw [hrest]; rfl, ?_⟩
      intro hnil
      exact hroot (isPathAbsolute_length_one_iff.2 (by rw [hrest, List.map_eq_nil_iff.1 hnil]))

/-- The reference of a parsed value is delimited, as long as its path does not start with two
empty segments without an authority and, without a scheme, its text has no `:` before the
first `/`. -/
theorem Parsed.reference_delimited (hu : Parsed u) (hhost : u.host.map toLower = u.host)
    (hauthority : u.hasAuthority = false → ∀ rest, u.path ≠ [] :: [] :: rest)
    (hwindow : u.scheme = [] → ':'.toUInt8 ∉ schemeWindow (generateString u)) :
    u.reference.Delimited := by
  refine ⟨hu.reference_componentsValid hhost, hu.reference_pathDelimited hauthority, fun h ↦ ?_⟩
  rw [← generateString_eq_recompose]
  refine hwindow ?_
  simp only [Impl.reference] at h
  split_ifs at h with hempty
  exact List.isEmpty_iff.1 hempty

/-- The fields a parse of the reference of a parsed value writes are what `operator==` observes
of the value, as long as its path is not two empty segments. -/
theorem Parsed.observed_reference_fields (hu : Parsed u) (hhost : u.host.map toLower = u.host)
    (hpath : u.path ≠ [[], []]) (stalePort : UInt16) :
    (u.reference.fields stalePort).observed = u.observed := by
  simp only [Reference.fields, reference_authorityFields hhost, Impl.observed, Prod.mk.injEq]
  refine ⟨?_, trivial, trivial, by cases u.hasPort <;> rfl, storedPath_reference hu hpath, ?_, ?_⟩
  · simp only [Impl.reference]
    split_ifs with hempty
    · exact (List.isEmpty_iff.1 hempty).symm
    · exact (hu.scheme.resolve_left (by simpa using hempty)).2
  · cases h : u.hasQuery <;> simp [Impl.reference, h, Function.comp_def]
  · cases h : u.hasFragment <;> simp [Impl.reference, h, Function.comp_def]

/-- A fresh `Uri` parses `GenerateString` of a parsed value back into an equal value, under the
conditions of `Parsed.reference_delimited` and `Parsed.observed_reference_fields`. -/
theorem Parsed.reparse_generateString (hu : Parsed u) (hhost : u.host.map toLower = u.host)
    (hpath : u.path ≠ [[], []])
    (hauthority : u.hasAuthority = false → ∀ rest, u.path ≠ [] :: [] :: rest)
    (hwindow : u.scheme = [] → ':'.toUInt8 ∉ schemeWindow (generateString u)) :
    parseFromString default (generateString u) = some (u.reference.fields 0) ∧
      equals (u.reference.fields 0) u = true := by
  refine ⟨?_, (equals_iff_observed _ _).2 (hu.observed_reference_fields hhost hpath 0)⟩
  rw [generateString_eq_recompose, parseFromString_recompose
    (hu.reference_delimited hhost hauthority hwindow), reference_accepted hhost, if_pos rfl]
  rfl

end Reference

/-! ## The round trip -/

/-- `GenerateString` of a parsed value parses back into an equal value when the host has no
upper-case letter, the path is not two empty segments, or starts with two only under an
authority, and without a scheme no `:` comes before the first `/`. -/
theorem parseFromString_generateString {u₀ u : Impl} {uriString : Bytes}
    (hparse : parseFromString u₀ uriString = some u) (hhost : u.host.map toLower = u.host)
    (hpath : u.path ≠ [[], []])
    (hauthority : u.hasAuthority = false → ∀ rest, u.path ≠ [] :: [] :: rest)
    (hwindow : u.scheme = [] → ':'.toUInt8 ∉ schemeWindow (generateString u)) :
    ∃ v, parseFromString default (generateString u) = some v ∧ equals v u = true :=
  ⟨_, (parseFromString_parsed hparse).reparse_generateString hhost hpath hauthority hwindow⟩

/-- An upper-case scheme, an IPv6 literal, a port, an encoded `:`, a query, a fragment come back. -/
theorem parseFromString_generateString_ipv6 :
    ∃ u, parseFromString default (bytesOf "HTTP://[::1]:8080/a%3Ab?q+1#f") = some u ∧
      ∃ v, parseFromString default (generateString u) = some v ∧ equals v u = true :=
  ⟨_, rfl, @parseFromString_generateString default _ (bytesOf "HTTP://[::1]:8080/a%3Ab?q+1#f") rfl
    (by decide) (by decide)
    (fun h ↦ absurd h (by decide)) (fun h ↦ absurd h (by decide))⟩

/-- Values `GenerateString` does not write back: an upper-case IPv6 address; a path of two empty
segments, written `/`; an empty authority before such a path, written without its `//`; and an
encoded `:` before the first `/` without a scheme, read as a scheme's end or rejected. -/
theorem generateString_changes_value :
    [bytesOf "//[A::1]", bytesOf "/%", bytesOf "////a", bytesOf "a%3Ab", bytesOf "?a%3Ab"].all
      (fun s ↦ (parseFromString default s).any fun u ↦
        (parseFromString default (generateString u)).all fun v ↦ !equals v u) = true := by
  decide

end Uri
