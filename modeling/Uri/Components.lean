import Uri.Grammar
import Uri.Authority

/-!
# The fields of a reference

What `ParseFromString` should store for a reference, component by component, and the
references it can read back from their recomposition.

A reference is *delimited* when the text of every component keeps the delimiters of the
recomposed string where §5.3 puts them: no component holds a character that one of the
parser's searches looks for, an IP literal has only characters an IP literal may have, the
path has the shape its position requires, and a reference without a scheme has no `:`
before its first `/`. The host and the port are then checked by the host machine and by
`std::stoi` (`Reference.accepted`), and the fields are those of `Reference.fields`.
-/

namespace Uri

/-! ## Delimited references -/

/-- The text before the first `/`, in which `ParseScheme` looks for the end of a scheme. -/
def schemeWindow (s : Bytes) : Bytes := s.takeWhile (· ≠ '/'.toUInt8)

/-- A host whose text keeps the authority's delimiters: an IP literal of `IPvFuture` characters. -/
def Host.Delimited : Host → Prop
  | .ipLiteral text => ∀ c ∈ text, ipvFutureLastPart.contains c = true
  | .regName tokens => TokensValid regNameNotPctEncoded tokens

/-- A path that parses back to its segments: `path-abempty` after an authority; without one,
not a single empty segment, nor two empty segments before more (they read as an authority). -/
def PathDelimited (hasAuthority : Bool) (path : List (List PctToken)) : Prop :=
  if hasAuthority then PathAbempty path
  else path ≠ [[]] ∧ ∀ x rest, path ≠ [] :: [] :: x :: rest

/-- A reference whose recomposition the parser splits into its components. -/
def Reference.Delimited (r : Reference) : Prop :=
  r.ComponentsValid Host.Delimited ∧ PathDelimited r.authority.isSome r.path ∧
    (r.scheme = none → ':'.toUInt8 ∉ schemeWindow r.recompose)

/-! ## Delimiters in the text of an element -/

theorem mem_renderTokens {set : CharacterSet} {tokens : List PctToken}
    (h : TokensValid set tokens) {c : UInt8} (hc : c ∈ renderTokens tokens) :
    set.contains c = true ∨ c = '%'.toUInt8 ∨ hexdig.contains c = true := by
  obtain ⟨t, ht, hc⟩ := List.mem_flatMap.1 hc
  have hv := h t ht
  cases t with
  | char x =>
    simp only [PctToken.render, List.mem_singleton] at hc
    exact Or.inl (hc ▸ hv)
  | triplet high low =>
    simp only [PctToken.render, List.mem_cons, List.mem_singleton, List.not_mem_nil,
      or_false] at hc
    rcases hc with rfl | rfl | rfl
    exacts [Or.inr (Or.inl rfl), Or.inr (Or.inr hv.1), Or.inr (Or.inr hv.2)]

theorem not_mem_renderTokens {set : CharacterSet} {tokens : List PctToken}
    (h : TokensValid set tokens) {d : UInt8}
    (hd : set.contains d = false ∧ d ≠ '%'.toUInt8 ∧ hexdig.contains d = false) :
    d ∉ renderTokens tokens := by
  intro hmem
  rcases mem_renderTokens h hmem with h' | h' | h' <;> simp_all

@[simp]
theorem renderTokens_eq_nil {tokens : List PctToken} :
    renderTokens tokens = [] ↔ tokens = [] := by
  cases tokens with
  | nil => simp
  | cons t tokens => cases t <;> simp [PctToken.render]

theorem renderTokens_free {set : CharacterSet} {tokens : List PctToken}
    (h : TokensValid set tokens) {ds : Bytes}
    (hds : ∀ d ∈ ds, set.contains d = false ∧ d ≠ '%'.toUInt8 ∧ hexdig.contains d = false) :
    ∀ c ∈ renderTokens tokens, c ∉ ds := fun _ hc hd ↦
  not_mem_renderTokens h (hds _ hd) hc

theorem free_of_contains {set : CharacterSet} {s ds : Bytes}
    (h : ∀ c ∈ s, set.contains c = true) (hds : ∀ d ∈ ds, set.contains d = false) :
    ∀ c ∈ s, c ∉ ds := fun c hc hd ↦ by
  have h₁ := h c hc
  rw [hds c hd] at h₁
  exact Bool.false_ne_true h₁

theorem hostAndPort_free {a : Authority} (ha : a.Valid Host.Delimited) :
    ∀ c ∈ a.hostAndPort, c ∉ bytesOf "@/?#" := by
  obtain ⟨-, hhost, hport⟩ := ha
  rcases a with ⟨userinfo, host, port⟩
  have hportFree : ∀ c ∈ portSuffix port, c ∉ bytesOf "@/?#" := by
    cases port with
    | none => simp [portSuffix]
    | some port =>
      simp only [portSuffix, List.mem_cons, forall_eq_or_imp]
      exact ⟨by decide, free_of_contains (hport port rfl) (by decide)⟩
  simp only [Authority.hostAndPort, List.mem_append]
  rintro c (hc | hc)
  · cases host with
    | ipLiteral text =>
      simp only [Host.render, List.mem_cons, List.mem_append, List.mem_singleton,
        List.not_mem_nil, or_false] at hc
      rcases hc with (rfl | hc) | rfl
      · decide
      · exact free_of_contains hhost (by decide) c hc
      · decide
    | regName tokens => exact renderTokens_free hhost (by decide) c hc
  · exact hportFree c hc

/-! ## The characters of IP literals -/

theorem digitChar_digit : ∀ k < 10, digit.contains (Nat.digitChar k).toUInt8 = true := by
  decide

theorem toDigitsCore_digit (fuel : Nat) :
    ∀ (n : Nat) (ds : List Char), (∀ c ∈ ds, digit.contains c.toUInt8 = true) →
      ∀ c ∈ Nat.toDigitsCore 10 fuel n ds, digit.contains c.toUInt8 = true := by
  induction fuel with
  | zero => exact fun _ _ hds ↦ hds
  | succ fuel ih =>
    intro n ds hds
    have hd : ∀ c ∈ Nat.digitChar (n % 10) :: ds, digit.contains c.toUInt8 = true := by
      simp only [List.mem_cons, forall_eq_or_imp]
      exact ⟨digitChar_digit _ (Nat.mod_lt _ (by norm_num)), hds⟩
    simp only [Nat.toDigitsCore]
    split_ifs
    · exact hd
    · exact ih _ _ hd

theorem decimal_digit (n : Nat) : ∀ c ∈ decimal n, digit.contains c = true := by
  simp only [decimal, List.mem_map]
  rintro _ ⟨c, hc, rfl⟩
  exact toDigitsCore_digit _ n [] (by simp) c hc

/-- A character of an IP literal's address: a hexadecimal digit, `:` or `.`. -/
def IsAddressChar (c : UInt8) : Prop := hexdig.contains c = true ∨ c = ':'.toUInt8 ∨ c = '.'.toUInt8

theorem IsAddressChar.ipvFutureLastPart {c : UInt8} (h : IsAddressChar c) :
    ipvFutureLastPart.contains c = true := by
  rcases h with h | rfl | rfl
  · exact CharacterSet.contains_of_ranges_le (by decide) c h
  · decide
  · decide

theorem H16.addressChar {t : Bytes} (h : H16 t) : ∀ c ∈ t, IsAddressChar c :=
  fun c hc ↦ Or.inl (h.2.2 c hc)

theorem DecOctet.addressChar {t : Bytes} (h : DecOctet t) : ∀ c ∈ t, IsAddressChar c := by
  obtain ⟨n, -, rfl⟩ := h
  intro c hc
  have := decimal_digit n c hc
  left
  simp [hexdig, digit] at this ⊢
  omega

theorem Ipv4Address.addressChar {t : Bytes} (h : Ipv4Address t) : ∀ c ∈ t, IsAddressChar c := by
  obtain ⟨a, b, c, d, ha, hb, hc, hd, rfl⟩ := h
  simp only [List.mem_append, List.mem_cons]
  rintro x (((hx | rfl | hx) | rfl | hx) | rfl | hx)
  all_goals first
    | exact Or.inr (Or.inr rfl)
    | exact ha.addressChar x hx
    | exact hb.addressChar x hx
    | exact hc.addressChar x hx
    | exact hd.addressChar x hx

theorem Ls32.addressChar {t : Bytes} (h : Ls32 t) : ∀ c ∈ t, IsAddressChar c := by
  rcases h with ⟨a, b, ha, hb, rfl⟩ | h
  · simp only [List.forall_mem_append, List.forall_mem_cons]
    exact ⟨ha.addressChar, Or.inr (Or.inl rfl), hb.addressChar⟩
  · exact h.addressChar

theorem colonTerminated_addressChar {groups : List Bytes} (h : ∀ g ∈ groups, H16 g) :
    ∀ c ∈ colonTerminated groups, IsAddressChar c := by
  simp only [colonTerminated, List.mem_flatMap, List.mem_append, List.mem_singleton]
  rintro c ⟨g, hg, hc | rfl⟩
  exacts [(h g hg).addressChar c hc, Or.inr (Or.inl rfl)]

theorem colonSeparated_addressChar {groups : List Bytes} (h : ∀ g ∈ groups, H16 g) :
    ∀ c ∈ colonSeparated groups, IsAddressChar c := by
  intro c hc
  rcases mem_intercalate _ hc with hc | ⟨g, hg, hc⟩
  · exact Or.inr (Or.inl (List.mem_singleton.1 hc))
  · exact (h g hg).addressChar c hc

theorem doubleColon_addressChar : ∀ c ∈ doubleColon, IsAddressChar c := by
  simp [doubleColon, IsAddressChar]

theorem Ipv6Address.addressChar {t : Bytes} (h : Ipv6Address t) : ∀ c ∈ t, IsAddressChar c := by
  cases h with
  | full _ hgroups htail =>
    exact List.forall_mem_append.2 ⟨colonTerminated_addressChar hgroups, htail.addressChar⟩
  | compressed _ _ hbefore hafter htail =>
    simp only [List.forall_mem_append]
    exact ⟨⟨⟨colonSeparated_addressChar hbefore, doubleColon_addressChar⟩,
      colonTerminated_addressChar hafter⟩, htail.addressChar⟩
  | compressedH16 _ hbefore hlast =>
    simp only [List.forall_mem_append]
    exact ⟨⟨colonSeparated_addressChar hbefore, doubleColon_addressChar⟩, hlast.addressChar⟩
  | compressedEnd _ hbefore =>
    exact List.forall_mem_append.2 ⟨colonSeparated_addressChar hbefore, doubleColon_addressChar⟩

theorem IpvFuture.ipvFutureLastPart {t : Bytes} (h : IpvFuture t) :
    ∀ c ∈ t, ipvFutureLastPart.contains c = true := by
  obtain ⟨v, version, body, hv, -, -, hversion, hbody, rfl⟩ := h
  simp only [List.forall_mem_cons, List.forall_mem_append]
  refine ⟨⟨by rcases hv with rfl | rfl <;> decide,
    fun c hc ↦ IsAddressChar.ipvFutureLastPart (Or.inl (hversion c hc))⟩, by decide, hbody⟩

/-! ## Well-formed references are delimited -/

theorem Host.WellFormed.delimited {host : Host} (h : host.WellFormed) : host.Delimited := by
  cases host with
  | ipLiteral text =>
    rcases h with h | h
    · exact fun c hc ↦ (h.addressChar c hc).ipvFutureLastPart
    · exact h.ipvFutureLastPart
  | regName tokens => exact h

theorem Reference.ComponentsValid.mono {P Q : Host → Prop} (hPQ : ∀ host, P host → Q host)
    {r : Reference} (h : r.ComponentsValid P) : r.ComponentsValid Q := by
  obtain ⟨hscheme, hauth, hpath, hq, hf⟩ := h
  refine ⟨hscheme, fun a ha ↦ ?_, hpath, hq, hf⟩
  obtain ⟨hui, hhost, hport⟩ := hauth a ha
  exact ⟨hui, hPQ _ hhost, hport⟩

/-- A well-formed path parses back to its segments. -/
theorem PathWellFormed.delimited {hasScheme hasAuthority : Bool} {path : List (List PctToken)}
    (h : PathWellFormed hasScheme hasAuthority path) : PathDelimited hasAuthority path := by
  unfold PathWellFormed at h
  unfold PathDelimited
  by_cases ha : hasAuthority = true
  · simpa only [ha, if_true] using h
  simp only [ha, if_false] at h ⊢
  have hrootless : (if hasScheme then PathRootless path else PathNoscheme path) →
      PathRootless path := by
    split_ifs
    · exact id
    · exact fun ⟨first, rest, h, hne, _⟩ ↦ ⟨first, rest, h, hne⟩
  rcases h with (rfl | ⟨first, rest, rfl, hfirst⟩) | h | rfl
  · simp
  · simp [hfirst]
  · obtain ⟨first, rest, rfl, hfirst⟩ := hrootless h
    simp [hfirst]
  · simp

/-- A well-formed reference with a scheme or no `:` before its first `/` is delimited. -/
theorem Reference.WellFormed.delimited {r : Reference} (hr : r.WellFormed)
    (hwindow : r.scheme = none → ':'.toUInt8 ∉ schemeWindow r.recompose) : r.Delimited :=
  ⟨hr.1.mono fun _ h ↦ h.delimited, hr.2.delimited, hwindow⟩

/-! ## What the host machine and `std::stoi` accept -/

/-- The rest of an `IPvFuture` literal the host machine accepts: hex digits, `.`, maybe empty. -/
def ipvFutureAccepted (rest : Bytes) : Bool :=
  '.'.toUInt8 ∈ rest && (rest.takeWhile (· ≠ '.'.toUInt8)).all hexdig.contains

/-- The IP literals the host machine accepts: after a lower-case `v` as `ipvFutureAccepted` says,
and otherwise as `ValidateIpv6Address` does. -/
def ipLiteralAccepted (text : Bytes) : Bool :=
  if text.head? = some 'v'.toUInt8 then ipvFutureAccepted (text.drop 1)
  else validateIpv6Address text

/-- Whether `ParseAuthority` accepts a host. -/
def Host.accepted : Host → Bool
  | .ipLiteral text => ipLiteralAccepted text
  | .regName _ => true

/-- A port text of digits that `ParseAuthority` accepts: empty, or of value at most 65535. -/
def portAccepted (port : Bytes) : Bool := port.isEmpty || decide (digitsValue port ≤ 65535)

/-- Whether `ParseAuthority` accepts an authority of a delimited reference. -/
def Authority.accepted (a : Authority) : Bool := a.host.accepted && a.port.all portAccepted

/-- Whether `ParseFromString` accepts a delimited reference. -/
def Reference.accepted (r : Reference) : Bool := r.authority.all Authority.accepted

/-! ## The fields -/

/-- The host `ParseAuthority` stores: an IP literal as it is, a reg-name decoded and lower-cased. -/
def Host.stored : Host → Bytes
  | .ipLiteral text => text
  | .regName tokens => (tokens.map PctToken.decode).map toLower

/-- The port text, where it is not empty. -/
def Authority.portText (a : Authority) : Option Bytes := a.port.filter (!·.isEmpty)

/-- An authority's fields over `u`: user information decoded, host as stored, port if any text. -/
def Authority.fields (a : Authority) (u : Impl) : Impl :=
  { u with
    userInfo := (a.userinfo.getD []).map PctToken.decode
    host := a.host.stored
    hasPort := a.portText.isSome
    port := a.portText.elim u.port fun port ↦ (digitsValue port).toUInt16 }

/-- The path `ParsePath` and `SetDefaultPathIfAuthorityPresentAndPathEmpty` store: each
segment decoded, and `[""]` for the root path and for an empty path after a host. -/
def storedPath (host : Bytes) (path : List (List PctToken)) : List Bytes :=
  if path = [[], []] ∨ (path = [] ∧ host ≠ []) then [[]]
  else path.map (·.map PctToken.decode)

/-- The authority fields `SplitAuthorityFromPathAndParseIt` writes: the authority's, or none. -/
def Reference.authorityFields (r : Reference) (u : Impl) : Impl :=
  match r.authority with
  | some a => a.fields u
  | none => { u with userInfo := [], host := [], hasPort := false }

/-- The fields of a parsed reference: the scheme lower-cased, the authority fields, the path as
stored, the query and fragment decoded with their flags; the port is `stalePort` without text. -/
def Reference.fields (r : Reference) (stalePort : UInt16) : Impl :=
  let authority := r.authorityFields { port := stalePort }
  { authority with
    scheme := (r.scheme.getD []).map toLower
    path := storedPath authority.host r.path
    hasQuery := r.query.isSome
    query := (r.query.getD []).map PctToken.decode
    hasFragment := r.fragment.isSome
    fragment := (r.fragment.getD []).map PctToken.decode }

end Uri
