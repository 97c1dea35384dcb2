import Uri.Authority

/-!
# `ParseFromString`

`Uri::ParseFromString` runs the parsing methods of `Uri::Impl` in sequence over one string:
the scheme, the authority, the path, the fragment and the query, each writing its fields and
handing the rest of the string on. The first method that fails makes the whole parse fail.

No field that `operator==` compares keeps a value from before a successful parse: the result
depends on the previous value only through the port number when the new value has no port
(`parseFromString_eq_map_default`).
-/

namespace Uri

/-! ## The scheme -/

/-- A strategy for `FailsMatch`: its captured state, and its test of a character or of the end. -/
structure Strategy (σ : Type) where
  init : σ
  stillPassing : σ → UInt8 → Bool → Bool × σ

/-- `FailsMatch`. -/
def failsMatch {σ : Type} (candidate : Bytes) (strategy : Strategy σ) : Bool :=
  go strategy.init candidate
where
  /-- The loop over the candidate, from the strategy state `s`. -/
  go (s : σ) : Bytes → Bool
    | [] => !(strategy.stillPassing s ' '.toUInt8 true).1
    | c :: cs =>
      let (passing, s) := strategy.stillPassing s c false
      if !passing then true else go s cs

/-- `LegalSchemeCheckStrategy`; its state is the shared `isFirstCharacter` flag. -/
def legalSchemeCheckStrategy : Strategy Bool where
  init := true
  stillPassing isFirstCharacter c atEnd :=
    if atEnd then (!isFirstCharacter, isFirstCharacter)
    else (if isFirstCharacter then alpha.contains c else schemeNotFirst.contains c, false)

/-- `Impl::ParseScheme`: the scheme delimiter is looked for only before the first `/`. -/
def Impl.parseScheme (u : Impl) (uriString : Bytes) : Option (Impl × Bytes) :=
  let authorityOrPathDelimiterStart := (find uriString '/'.toUInt8).getD uriString.length
  match find (uriString.take authorityOrPathDelimiterStart) ':'.toUInt8 with
  | none => some ({ u with scheme := [] }, uriString)
  | some schemeEnd =>
    let scheme := uriString.take schemeEnd
    if failsMatch scheme legalSchemeCheckStrategy then none
    else some ({ u with scheme := scheme.map toLower }, uriString.drop (schemeEnd + 1))

/-! ## Authority, path, query and fragment -/

/-- `Impl::SplitAuthorityFromPathAndParseIt`: the updated value and the path string. -/
def Impl.splitAuthorityFromPathAndParseIt (u : Impl) (authorityAndPathString : Bytes) :
    Option (Impl × Bytes) :=
  if authorityAndPathString.take 2 = ['/'.toUInt8, '/'.toUInt8] then
    let authorityAndPathString := authorityAndPathString.drop 2
    let authorityEnd :=
      (find authorityAndPathString '/'.toUInt8).getD authorityAndPathString.length
    let pathString := authorityAndPathString.drop authorityEnd
    let authorityString := authorityAndPathString.take authorityEnd
    (u.parseAuthority authorityString).map (·, pathString)
  else some ({ u with userInfo := [], host := [], hasPort := false }, authorityAndPathString)

/-- `Impl::ParsePath`; its `for(;;)` loop cuts the path at every `/`, which is `List.splitOn`. -/
def Impl.parsePath (u : Impl) (pathString : Bytes) : Option Impl := do
  let path : List Bytes :=
    if pathString = ['/'.toUInt8] then [[]]
    else if pathString.isEmpty then []
    else pathString.splitOn '/'.toUInt8
  let path ← path.mapM (decodeElement · pcharNotPctEncoded)
  some { u with path }

/-- `Impl::SetDefaultPathIfAuthorityPresentAndPathEmpty`. -/
def Impl.setDefaultPathIfAuthorityPresentAndPathEmpty (u : Impl) : Impl :=
  if !u.host.isEmpty && u.path.isEmpty then { u with path := [[]] } else u

/-- `DecodeQueryOrFragment`. -/
def decodeQueryOrFragment (queryOrFragment : Bytes) : Option Bytes :=
  decodeElement queryOrFragment queryOrFragmentNotPctEncoded

@[simp] theorem decodeQueryOrFragment_nil : decodeQueryOrFragment [] = some [] := rfl

/-- `Impl::ParseQuery`. -/
def Impl.parseQuery (u : Impl) (queryWithDelimiter : Bytes) : Option Impl :=
  let hasQuery := !queryWithDelimiter.isEmpty
  let query := if hasQuery then queryWithDelimiter.drop 1 else []
  (decodeQueryOrFragment query).map fun query ↦ { u with hasQuery, query }

/-- `Impl::ParseFragment`: the updated value and the text before the fragment. -/
def Impl.parseFragment (u : Impl) (queryAndOrFragment : Bytes) : Option (Impl × Bytes) :=
  match find queryAndOrFragment '#'.toUInt8 with
  | none =>
    (decodeQueryOrFragment []).map fun fragment ↦
      ({ u with hasFragment := false, fragment }, queryAndOrFragment)
  | some fragmentDelimiter =>
    (decodeQueryOrFragment (queryAndOrFragment.drop (fragmentDelimiter + 1))).map fun fragment ↦
      ({ u with hasFragment := true, fragment }, queryAndOrFragment.take fragmentDelimiter)

/-! ## The whole parse -/

/-- `Uri::ParseFromString`: the parsed value, or `none` where it returns false. -/
def parseFromString (u : Impl) (uriString : Bytes) : Option Impl := do
  let (u, rest) ← u.parseScheme uriString
  let pathEnd := findFirstOf ['?'.toUInt8, '#'.toUInt8] rest
  let authorityAndPathString := rest.take (pathEnd.getD rest.length)
  let queryAndOrFragment := rest.drop authorityAndPathString.length
  let (u, pathString) ← u.splitAuthorityFromPathAndParseIt authorityAndPathString
  let u ← u.parsePath pathString
  let u := u.setDefaultPathIfAuthorityPresentAndPathEmpty
  let (u, rest) ← u.parseFragment queryAndOrFragment
  u.parseQuery rest

end Uri

namespace Uri

/-! ## What each method writes

Each parsing method overwrites some fields with values computed from its string argument
alone. The `…Writes` functions are those values, read off a run from the default value. -/

/-- The scheme and the rest of the string, as `ParseScheme` computes them. -/
def schemeWrites (uriString : Bytes) : Option (Bytes × Bytes) :=
  ((default : Impl).parseScheme uriString).map fun p ↦ (p.1.scheme, p.2)

/-- The authority fields, as `ParseAuthority` computes them. -/
def authorityWrites (authorityString : Bytes) : Option Impl :=
  (default : Impl).parseAuthority authorityString

/-- The authority fields and the path string `SplitAuthorityFromPathAndParseIt` computes. -/
def splitWrites (authorityAndPathString : Bytes) : Option (Impl × Bytes) :=
  (default : Impl).splitAuthorityFromPathAndParseIt authorityAndPathString

/-- The path, as `ParsePath` computes it. -/
def pathWrites (pathString : Bytes) : Option (List Bytes) :=
  ((default : Impl).parsePath pathString).map (·.path)

/-- The fragment fields and the rest, as `ParseFragment` computes them. -/
def fragmentWrites (queryAndOrFragment : Bytes) : Option (Impl × Bytes) :=
  (default : Impl).parseFragment queryAndOrFragment

/-- The query fields, as `ParseQuery` computes them. -/
def queryWrites (queryWithDelimiter : Bytes) : Option Impl :=
  (default : Impl).parseQuery queryWithDelimiter

/-- The authority fields of `v` written over `u`; the port only where `v` has one. -/
def writeAuthority (u v : Impl) : Impl :=
  { u with userInfo := v.userInfo, host := v.host, hasPort := v.hasPort,
           port := if v.hasPort then v.port else u.port }

@[simp]
theorem writeAuthority_writeAuthority (u w v : Impl) :
    writeAuthority u (writeAuthority w v) = writeAuthority u v := by
  cases h : v.hasPort <;> simp [writeAuthority, h]

theorem parseScheme_eq_schemeWrites (u : Impl) (uriString : Bytes) :
    u.parseScheme uriString =
      (schemeWrites uriString).map fun p ↦ ({ u with scheme := p.1 }, p.2) := by
  unfold schemeWrites Impl.parseScheme
  dsimp only
  split
  · simp
  · split_ifs <;> simp

theorem parseAuthority_eq_authorityWrites (u : Impl) (authorityString : Bytes) :
    u.parseAuthority authorityString =
      (authorityWrites authorityString).map (writeAuthority u) := by
  unfold authorityWrites Impl.parseAuthority
  rcases splitUserInfo authorityString with _ | ⟨userInfo, hostPortString⟩
  · rfl
  simp only [Option.some_bind]
  rcases hostPortString.foldlM HostParsing.step HostParsing.init with _ | p
  · rfl
  simp only [Option.some_bind]
  cases p.finished
  · rfl
  cases p.portString.isEmpty
  · rcases stoi p.portString with _ | portAsInt
    · rfl
    simp only [Option.some_bind]
    by_cases hport : portAsInt < 0 ∨ portAsInt > 65535 <;> simp only [hport, ↓reduceIte] <;> rfl
  · rfl

theorem splitAuthorityFromPathAndParseIt_eq_splitWrites (u : Impl)
    (authorityAndPathString : Bytes) :
    u.splitAuthorityFromPathAndParseIt authorityAndPathString =
      (splitWrites authorityAndPathString).map fun p ↦ (writeAuthority u p.1, p.2) := by
  unfold splitWrites Impl.splitAuthorityFromPathAndParseIt
  dsimp only
  split_ifs
  · rw [parseAuthority_eq_authorityWrites, parseAuthority_eq_authorityWrites default]
    simp [Option.map_map, Function.comp_def]
  · simp [writeAuthority]

theorem parsePath_eq_pathWrites (u : Impl) (pathString : Bytes) :
    u.parsePath pathString = (pathWrites pathString).map fun path ↦ { u with path } := by
  unfold pathWrites Impl.parsePath
  dsimp only
  rcases List.mapM (decodeElement · pcharNotPctEncoded) _ with _ | path <;> rfl

theorem parseFragment_eq_fragmentWrites (u : Impl) (queryAndOrFragment : Bytes) :
    u.parseFragment queryAndOrFragment = (fragmentWrites queryAndOrFragment).map fun p ↦
      ({ u with hasFragment := p.1.hasFragment, fragment := p.1.fragment }, p.2) := by
  unfold fragmentWrites Impl.parseFragment
  split <;> simp [Option.map_map, Function.comp_def]

theorem parseQuery_eq_queryWrites (u : Impl) (queryWithDelimiter : Bytes) :
    u.parseQuery queryWithDelimiter = (queryWrites queryWithDelimiter).map fun v ↦
      { u with hasQuery := v.hasQuery, query := v.query } := by
  unfold queryWrites Impl.parseQuery
  simp [Option.map_map, Function.comp_def]

/-- The port a parse leaves: the new one, or the previous one where the new value has none. -/
def keepPort (port : UInt16) (v : Impl) : Impl := if v.hasPort then v else { v with port }

/-- A parse overwrites every field; only the port survives, where the new value has none. -/
theorem parseFromString_eq_map_default (u : Impl) (uriString : Bytes) :
    parseFromString u uriString = (parseFromString default uriString).map (keepPort u.port) := by
  simp only [parseFromString, parseScheme_eq_schemeWrites,
    splitAuthorityFromPathAndParseIt_eq_splitWrites, parsePath_eq_pathWrites,
    parseFragment_eq_fragmentWrites, parseQuery_eq_queryWrites]
  rcases schemeWrites uriString with _ | ⟨scheme, rest⟩
  · rfl
  simp only [Option.map_some', Option.bind_eq_bind, Option.some_bind]
  rcases splitWrites _ with _ | ⟨a, pathString⟩
  · rfl
  simp only [Option.map_some', Option.some_bind]
  rcases pathWrites pathString with _ | path
  · rfl
  simp only [Option.map_some', Option.some_bind]
  rcases fragmentWrites _ with _ | ⟨f, rest'⟩
  · rfl
  simp only [Option.map_some', Option.some_bind]
  rcases queryWrites rest' with _ | q
  · rfl
  unfold Impl.setDefaultPathIfAuthorityPresentAndPathEmpty
  cases h : a.hasPort <;> split_ifs <;> simp_all [writeAuthority, keepPort]

theorem equals_keepPort (p₁ p₂ : UInt16) (v : Impl) :
    equals (keepPort p₁ v) (keepPort p₂ v) = true := by
  cases h : v.hasPort <;> cases hq : v.hasQuery <;> cases hf : v.hasFragment <;>
    simp [keepPort, equals, h, hq, hf]

/-- Two parses of one string from any two previous values both fail, or agree under `operator==`. -/
theorem parseFromString_independent_of_prior_state (uriString : Bytes) (u₁ u₂ : Impl) :
    (parseFromString u₁ uriString).isSome = (parseFromString u₂ uriString).isSome ∧
      ∀ v₁ v₂, parseFromString u₁ uriString = some v₁ → parseFromString u₂ uriString = some v₂ →
        equals v₁ v₂ = true := by
  rw [parseFromString_eq_map_default u₁, parseFromString_eq_map_default u₂]
  refine ⟨by simp, ?_⟩
  intro v₁ v₂ h₁ h₂
  rcases h : parseFromString default uriString with _ | v
  · simp [h] at h₁
  · simp only [h, Option.map_some', Option.some.injEq] at h₁ h₂
    rw [← h₁, ← h₂]
    exact equals_keepPort u₁.port u₂.port v

/-! ## The shape of a parsed value -/

/-- A successful parse, stage by stage: scheme, authority and path as the stages leave them;
only the query and the fragment are written after them. -/
theorem parseFromString_stages {u v : Impl} {uriString : Bytes}
    (h : parseFromString u uriString = some v) :
    ∃ u₁ rest u₂ authorityAndPathString pathString path,
      u.parseScheme uriString = some (u₁, rest) ∧
      u₁.splitAuthorityFromPathAndParseIt authorityAndPathString = some (u₂, pathString) ∧
      u₂.parsePath pathString = some { u₂ with path } ∧
      ∃ hasQuery query hasFragment fragment,
        v = { ({ u₂ with path } : Impl).setDefaultPathIfAuthorityPresentAndPathEmpty with
          hasQuery, query, hasFragment, fragment } := by
  simp only [parseFromString, Option.bind_eq_bind, Option.bind_eq_some] at h
  obtain ⟨⟨u₁, rest⟩, h₁, ⟨u₂, pathString⟩, h₂, u₃, h₃, ⟨u₄, rest'⟩, hfragment, hquery⟩ := h
  obtain ⟨path, -, rfl⟩ := Option.map_eq_some'.1 ((parsePath_eq_pathWrites _ _).symm.trans h₃)
  rw [parseQuery_eq_queryWrites, Option.map_eq_some'] at hquery
  obtain ⟨w, -, rfl⟩ := hquery
  rw [parseFragment_eq_fragmentWrites, Option.map_eq_some'] at hfragment
  obtain ⟨p, -, hp⟩ := hfragment
  simp only [Prod.mk.injEq] at hp
  obtain ⟨rfl, -⟩ := hp
  exact ⟨u₁, rest, u₂, _, pathString, path, h₁, h₂, h₃, _, _, _, _, rfl⟩

theorem drop_find_getD (c : UInt8) (s : Bytes) :
    s.drop ((find s c).getD s.length) = [] ∨
      ∃ rest, s.drop ((find s c).getD s.length) = c :: rest := by
  induction s with
  | nil => simp
  | cons x s ih =>
    simp only [find, findFirstOf_cons, List.mem_singleton] at ih ⊢
    split_ifs with h
    · exact .inr ⟨s, by simp [h]⟩
    · cases hf : findFirstOf [c] s <;> simp_all

theorem splitAuthorityFromPathAndParseIt_pathString {u v : Impl} {authorityAndPathString
    pathString : Bytes} (h : u.splitAuthorityFromPathAndParseIt authorityAndPathString =
      some (v, pathString)) :
    v.hasAuthority = false ∨ pathString = [] ∨ ∃ rest, pathString = '/'.toUInt8 :: rest := by
  unfold Impl.splitAuthorityFromPathAndParseIt at h
  split_ifs at h
  · simp only [Option.map_eq_some', Prod.mk.injEq] at h
    obtain ⟨_, -, -, rfl⟩ := h
    exact .inr (drop_find_getD _ _)
  · simp only [Option.some.injEq, Prod.mk.injEq] at h
    obtain ⟨rfl, -⟩ := h
    exact .inl rfl

theorem mapM_decode_cons_empty {segments : List Bytes} {path : List Bytes}
    (h : (([] : Bytes) :: segments).mapM (decodeElement · pcharNotPctEncoded) = some path) :
    isPathAbsolute path = true := by
  rw [List.mapM_cons, show decodeElement [] pcharNotPctEncoded = some [] from rfl] at h
  simp only [Option.pure_def, Option.bind_eq_bind, Option.some_bind, Option.bind_eq_some,
    Option.some.injEq] at h
  obtain ⟨rest, -, rfl⟩ := h
  rfl

theorem parsePath_path {u v : Impl} {pathString : Bytes} (h : u.parsePath pathString = some v)
    (hslash : pathString = [] ∨ ∃ rest, pathString = '/'.toUInt8 :: rest) :
    v.path = [] ∨ isPathAbsolute v.path = true := by
  unfold Impl.parsePath at h
  dsimp only at h
  obtain ⟨path, hpath, hv⟩ := Option.bind_eq_some.1 h
  cases hv
  dsimp only
  rcases hslash with rfl | ⟨rest, rfl⟩
  · rw [if_neg (by decide), if_pos (by rfl), List.mapM_nil] at hpath
    exact .inl (Option.some.inj hpath).symm
  · right
    by_cases hrest : rest = []
    · subst hrest
      rw [if_pos rfl] at hpath
      exact mapM_decode_cons_empty hpath
    · have hsplit : ('/'.toUInt8 :: rest).splitOn '/'.toUInt8 = [] :: rest.splitOn '/'.toUInt8 := by
        simp [List.splitOn, List.splitOnP, List.splitOnP.go]
      rw [if_neg (by simpa using hrest), if_neg (by simp), hsplit] at hpath
      exact mapM_decode_cons_empty hpath

/-- A parsed value with an authority has an empty or absolute path, with a host a non-empty one. -/
theorem parseFromString_path {u v : Impl} {uriString : Bytes}
    (h : parseFromString u uriString = some v) :
    (v.hasAuthority = true → v.path = [] ∨ isPathAbsolute v.path = true) ∧
      (v.host ≠ [] → v.path ≠ []) := by
  obtain ⟨_, _, u₂, _, pathString, path, _, hsplit, hpath, _, _, _, _, rfl⟩ :=
    parseFromString_stages h
  unfold Impl.setDefaultPathIfAuthorityPresentAndPathEmpty
  split_ifs with hdefault
  · exact ⟨fun _ ↦ .inr rfl, fun _ ↦ List.cons_ne_nil _ _⟩
  · refine ⟨fun hauthority ↦ ?_, fun hhost hnil ↦ hdefault (by simp_all)⟩
    rcases splitAuthorityFromPathAndParseIt_pathString hsplit with h | h
    · exact absurd hauthority (by simpa [Impl.hasAuthority] using h)
    · have hshape := parsePath_path hpath h
      exact hshape

end Uri
