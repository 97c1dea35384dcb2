import Uri.ParseStages

/-!
# What `ParseFromString` accepts

`ParseFromString` cuts its text into parts by searching for delimiters, and gives each part to
its own method. `ReferenceParts` holds the parts as they stand in the text: a scheme before
its `:`, an authority after its `//`, the path, a query after its `?` and a fragment after its
`#`. `ReferenceParts.Delimited` says that the parser's searches cut the text there, and
`ReferenceParts.fields` runs each method on its own part. The parser accepts exactly the texts
of delimited parts that every method accepts, and stores what the methods store
(`parseFromString_eq_some_iff`). On the way, one iff a step: `ParseScheme`
(`parseScheme_eq_some_iff`), the cut at the first `?` or `#` (`cut_findFirstOf_iff`),
`SplitAuthorityFromPathAndParseIt` (`splitAuthorityFromPathAndParseIt_eq_some_iff`),
`ParseFragment` (`parseFragment_eq_some_iff`) and `ParseQuery` (`parseQuery_delimitedText`).
-/

namespace Uri

/-! ## The parts of a text -/

/-- The parts of a URI text, as they stand in it. -/
structure ReferenceParts where
  scheme : Option Bytes
  authority : Option Bytes
  path : Bytes
  query : Option Bytes
  fragment : Option Bytes
  deriving DecidableEq, Repr

namespace ReferenceParts

/-- The query and the fragment, after their delimiters. -/
def queryAndFragment (parts : ReferenceParts) : Bytes :=
  delimitedText '?'.toUInt8 parts.query ++ delimitedText '#'.toUInt8 parts.fragment

/-- The text after the scheme. -/
def afterScheme (parts : ReferenceParts) : Bytes :=
  authorityText parts.authority ++ parts.path ++ parts.queryAndFragment

/-- The text of the parts. -/
def text (parts : ReferenceParts) : Bytes := schemePrefix parts.scheme ++ parts.afterScheme

/-- Parts as the parser's searches cut them: a `scheme` or no `:` before the first `/`; an
authority without `/`, `?`, `#`, then an empty or absolute path; else a path not starting with
`//`; no `?` or `#` in the path, no `#` in the query. -/
def Delimited (parts : ReferenceParts) : Prop :=
  (∀ scheme, parts.scheme = some scheme → IsScheme scheme) ∧
  (parts.scheme = none → ':'.toUInt8 ∉ schemeWindow parts.text) ∧
  (∀ authority, parts.authority = some authority →
    '/'.toUInt8 ∉ authority ∧ '?'.toUInt8 ∉ authority ∧ '#'.toUInt8 ∉ authority ∧
      ∀ c ∈ parts.path.head?, c = '/'.toUInt8) ∧
  (parts.authority = none → ¬['/'.toUInt8, '/'.toUInt8] <+: parts.path) ∧
  '?'.toUInt8 ∉ parts.path ∧ '#'.toUInt8 ∉ parts.path ∧
  (∀ query, parts.query = some query → '#'.toUInt8 ∉ query)

/-- What `ParseFromString` stores from the parts, each by its own method: `ParseAuthority`,
`ParsePath` and its default, `DecodeQueryOrFragment`, and the scheme lower-cased. -/
def fields (parts : ReferenceParts) (u : Impl) : Option Impl := do
  let u := { u with scheme := (parts.scheme.getD []).map toLower }
  let u ← authorityPartFields u parts.authority
  let u ← u.parsePath parts.path
  let u := u.setDefaultPathIfAuthorityPresentAndPathEmpty
  let fragment ← decodeQueryOrFragment (parts.fragment.getD [])
  let query ← decodeQueryOrFragment (parts.query.getD [])
  some { u with hasFragment := parts.fragment.isSome, fragment, hasQuery := parts.query.isSome,
                query }

end ReferenceParts

/-! ## The whole parse -/

/-- What `ParseFromString` accepts is delimited parts' text; it stores what their methods store. -/
theorem exists_parts_of_parseFromString {u u' : Impl} {uriString : Bytes}
    (h : parseFromString u uriString = some u') :
    ∃ parts : ReferenceParts, parts.Delimited ∧ parts.text = uriString ∧
      parts.fields u = some u' := by
  simp only [parseFromString, Option.bind_eq_bind, Option.bind_eq_some] at h
  obtain ⟨⟨u₁, rest⟩, h₁, ⟨u₂, pathString⟩, h₂, u₃, h₃, ⟨u₄, rest'⟩, h₄, h₅⟩ := h
  generalize hhier : rest.take ((findFirstOf ['?'.toUInt8, '#'.toUInt8] rest).getD rest.length) =
    hier at h₂ h₄
  generalize hqf : rest.drop ((findFirstOf ['?'.toUInt8, '#'.toUInt8] rest).getD rest.length) =
    qf
  obtain ⟨hrest, hhierFree, hqfHead⟩ := cut_findFirstOf_iff.1 ⟨hhier, hqf⟩
  rw [hrest, List.drop_left] at h₄
  obtain ⟨scheme, hscheme, hnoScheme, rfl, rfl⟩ := parseScheme_eq_some_iff.1 h₁
  obtain ⟨authority, rfl, hnoAuthority, hauthority, hu₂⟩ :=
    splitAuthorityFromPathAndParseIt_eq_some_iff.1 h₂
  obtain ⟨fragment, value, rfl, hhash, hvalue, rfl⟩ := parseFragment_eq_some_iff.1 h₄
  -- before the fragment: nothing, or a `?` and the query
  obtain ⟨query, rfl⟩ : ∃ query, rest' = delimitedText '?'.toUInt8 query := by
    rcases rest' with _ | ⟨c, q⟩
    · exact ⟨none, rfl⟩
    · have hc : c = '?'.toUInt8 ∨ c = '#'.toUInt8 := by simpa using hqfHead c rfl
      rcases hc with rfl | rfl
      · exact ⟨some q, rfl⟩
      · exact absurd (List.mem_cons_self _ _) hhash
  rw [parseQuery_delimitedText, Option.map_eq_some'] at h₅
  obtain ⟨queryValue, hqueryValue, rfl⟩ := h₅
  have htext : (⟨scheme, authority, pathString, query, fragment⟩ : ReferenceParts).text =
      schemePrefix scheme ++ rest := by
    simp [ReferenceParts.text, ReferenceParts.afterScheme, ReferenceParts.queryAndFragment, hrest]
  have hpathFree : ∀ x ∈ pathString, x ∉ ['?'.toUInt8, '#'.toUInt8] :=
    fun x hx ↦ hhierFree x (List.mem_append_right _ hx)
  refine ⟨⟨scheme, authority, pathString, query, fragment⟩,
    ⟨hscheme, fun hnone ↦ htext ▸ hnoScheme hnone, fun a ha ↦ ?_, hnoAuthority,
      fun hx ↦ hpathFree _ hx (by simp), fun hx ↦ hpathFree _ hx (by simp),
      fun q (hq : query = some q) hx ↦ hhash (hq ▸ List.mem_cons_of_mem _ hx)⟩, htext, ?_⟩
  · -- the authority holds no `?` or `#`
    subst ha
    have hfree : ∀ x ∈ a, x ∉ ['?'.toUInt8, '#'.toUInt8] := fun x hx ↦
      hhierFree x (List.mem_append_left _ (List.mem_cons_of_mem _ (List.mem_cons_of_mem _ hx)))
    exact ⟨(hauthority a rfl).1, fun hx ↦ hfree _ hx (by simp), fun hx ↦ hfree _ hx (by simp),
      (hauthority a rfl).2⟩
  · simp only [ReferenceParts.fields, Option.bind_eq_bind, hu₂, Option.some_bind, h₃, hvalue,
      hqueryValue]

/-- `ParseFromString` accepts delimited parts' text that their methods accept, storing the same. -/
theorem parseFromString_text {parts : ReferenceParts} (hd : parts.Delimited) {u u' : Impl}
    (h : parts.fields u = some u') : parseFromString u parts.text = some u' := by
  obtain ⟨hscheme, hnoScheme, hauthority, hnoAuthority, hquestion, hhash, hquery⟩ := hd
  simp only [ReferenceParts.fields, Option.bind_eq_bind, Option.bind_eq_some,
    Option.some.injEq] at h
  obtain ⟨u₂, hu₂, u₃, h₃, value, hvalue, queryValue, hqueryValue, rfl⟩ := h
  -- the cut at the first `?` or `#`
  have hhierFree : ∀ x ∈ authorityText parts.authority ++ parts.path,
      x ∉ ['?'.toUInt8, '#'.toUInt8] := by
    intro x hx hx'
    simp only [List.mem_cons, List.mem_singleton, List.not_mem_nil, or_false] at hx'
    rcases List.mem_append.1 hx with hx | hx
    · cases ha : parts.authority with
      | none => simp [ha, authorityText] at hx
      | some a =>
        obtain ⟨-, hq, hh, -⟩ := hauthority a ha
        simp only [ha, authorityText, List.mem_cons] at hx
        rcases hx with rfl | rfl | hx
        · exact absurd hx' (by decide)
        · exact absurd hx' (by decide)
        · rcases hx' with rfl | rfl
          exacts [hq hx, hh hx]
    · rcases hx' with rfl | rfl
      exacts [hquestion hx, hhash hx]
  have hqfHead : ∀ x ∈ parts.queryAndFragment.head?, x ∈ ['?'.toUInt8, '#'.toUInt8] := by
    unfold ReferenceParts.queryAndFragment
    cases parts.query <;> cases parts.fragment <;> simp [delimitedText]
  have hsplit : parts.afterScheme = (authorityText parts.authority ++ parts.path) ++
      parts.queryAndFragment := rfl
  obtain ⟨hhier, -⟩ := cut_findFirstOf_iff.2 ⟨hsplit, hhierFree, hqfHead⟩
  have hdrop : parts.afterScheme.drop (authorityText parts.authority ++ parts.path).length =
      parts.queryAndFragment := by
    rw [hsplit, List.drop_left]
  have hqueryHash : '#'.toUInt8 ∉ delimitedText '?'.toUInt8 parts.query := by
    cases hq : parts.query with
    | none => exact List.not_mem_nil _
    | some q =>
      simp only [delimitedText, List.mem_cons]
      rintro (h | h)
      exacts [absurd h (by decide), hquery q hq h]
  -- the methods, one after the other
  have h₁ : u.parseScheme parts.text =
      some ({ u with scheme := (parts.scheme.getD []).map toLower }, parts.afterScheme) :=
    parseScheme_eq_some_iff.2 ⟨parts.scheme, hscheme, hnoScheme, rfl, rfl⟩
  have h₂ : Impl.splitAuthorityFromPathAndParseIt
      { u with scheme := (parts.scheme.getD []).map toLower }
      (authorityText parts.authority ++ parts.path) = some (u₂, parts.path) :=
    splitAuthorityFromPathAndParseIt_eq_some_iff.2 ⟨parts.authority, rfl, hnoAuthority,
      fun a ha ↦ ⟨(hauthority a ha).1, (hauthority a ha).2.2.2⟩, hu₂⟩
  have h₄ : u₃.setDefaultPathIfAuthorityPresentAndPathEmpty.parseFragment parts.queryAndFragment =
      some ({ u₃.setDefaultPathIfAuthorityPresentAndPathEmpty with
        hasFragment := parts.fragment.isSome, fragment := value },
        delimitedText '?'.toUInt8 parts.query) :=
    parseFragment_eq_some_iff.2 ⟨parts.fragment, value, rfl, hqueryHash, hvalue, rfl⟩
  simp only [parseFromString, Option.bind_eq_bind, h₁, Option.some_bind, hhier, hdrop, h₂, h₃,
    h₄, parseQuery_delimitedText, hqueryValue, Option.map_some']

/-- `ParseFromString` accepts exactly the texts of delimited parts that the parts' methods accept,
and stores what the methods store. -/
theorem parseFromString_eq_some_iff {u u' : Impl} {uriString : Bytes} :
    parseFromString u uriString = some u' ↔
      ∃ parts : ReferenceParts, parts.Delimited ∧ parts.text = uriString ∧
        parts.fields u = some u' :=
  ⟨exists_parts_of_parseFromString, fun ⟨_, hd, htext, h⟩ ↦ htext ▸ parseFromString_text hd h⟩

end Uri
