import Uri.HostMachine
import Uri.ParseStages

/-!
# Parsing a recomposed reference

`ParseFromString` on the recomposition of a delimited reference, one method at a time: each
search of the parser finds the delimiter the recomposition put there, because no component
holds it. `ParseScheme` reads the scheme (`parseScheme_recompose`), the first `?` or `#` ends
the `hier-part` (`take_findFirstOf_afterScheme`), `SplitAuthorityFromPathAndParseIt` finds the
authority and `ParseAuthority` reads it (`splitAuthorityFromPathAndParseIt_hierPart`), and
`ParsePath`, `ParseFragment` and `ParseQuery` decode the rest. The whole parse stores the
reference's fields where its host and port are accepted (`parseFromString_recompose`).

Every well-formed reference with a scheme, or without a `:` before its first `/`, is
delimited. A well-formed relative reference with such a `:` is rejected, because the text
`ParseScheme` then takes for a scheme holds the `?` or `#` of its query or fragment
(`parseFromString_recompose_of_colon`). So a text of the grammar that the parser accepts is
stored as its components (`parseFromString_wellFormed_fields`), but `?a:b`, a text of the
grammar, is rejected (`parseFromString_rejects_query_colon`).
-/

namespace Uri

/-! ## Searches over rendered texts -/

theorem findFirstOf_getD_append {chars a b : Bytes} (ha : ∀ c ∈ a, c ∉ chars)
    (hb : ∀ c ∈ b.head?, c ∈ chars) :
    (findFirstOf chars (a ++ b)).getD (a ++ b).length = a.length := by
  cases b with
  | nil => simp [findFirstOf_eq_none ha]
  | cons c b => simp [findFirstOf_append_cons _ ha (hb c rfl)]

/-! ## The scheme -/

theorem parseScheme_recompose {r : Reference} (hscheme : ∀ s, r.scheme = some s → IsScheme s)
    (hwindow : r.scheme = none → ':'.toUInt8 ∉ schemeWindow r.recompose) (u : Impl) :
    u.parseScheme r.recompose =
      some ({ u with scheme := (r.scheme.getD []).map toLower }, r.afterScheme) :=
  parseScheme_eq_some_iff.2 ⟨r.scheme, hscheme, hwindow, rfl, rfl⟩

/-! ## Paths -/

@[simp]
theorem renderPath_nil : renderPath [] = [] := rfl

@[simp]
theorem renderPath_singleton (segment : List PctToken) :
    renderPath [segment] = renderTokens segment := by
  simp [renderPath, List.intercalate]

theorem renderPath_cons_cons (segment next : List PctToken) (rest : List (List PctToken)) :
    renderPath (segment :: next :: rest) =
      renderTokens segment ++ '/'.toUInt8 :: renderPath (next :: rest) := by
  simp [renderPath, intercalate_cons_cons]

theorem mem_renderPath {c : UInt8} {path : List (List PctToken)} (h : c ∈ renderPath path) :
    c = '/'.toUInt8 ∨ ∃ segment ∈ path, c ∈ renderTokens segment := by
  rcases mem_intercalate _ h with h | ⟨_, hpart, h⟩
  · exact Or.inl (List.mem_singleton.1 h)
  · obtain ⟨segment, hs, rfl⟩ := List.mem_map.1 hpart
    exact Or.inr ⟨segment, hs, h⟩

/-! ## The query and fragment delimiters -/

theorem free_mono {s ds ds' : Bytes} (h : ∀ c ∈ s, c ∉ ds) (hsub : ∀ d ∈ ds', d ∈ ds) :
    ∀ c ∈ s, c ∉ ds' :=
  fun c hc hd ↦ h c hc (hsub c hd)

theorem renderPath_free {path : List (List PctToken)}
    (h : ∀ segment ∈ path, TokensValid pcharNotPctEncoded segment) :
    ∀ c ∈ renderPath path, c ∉ bytesOf "?#" := by
  intro c hc
  rcases mem_renderPath hc with rfl | ⟨segment, hs, hc⟩
  · decide
  · exact renderTokens_free (h segment hs) (by decide) c hc

theorem Authority.render_free {a : Authority} (ha : a.Valid Host.Delimited) :
    ∀ c ∈ a.render, c ∉ bytesOf "/?#" := by
  intro c hc
  rcases List.mem_append.1 hc with hc | hc
  · cases hu : a.userinfo with
    | none => simp [Authority.render, hu, userinfoPrefix] at hc
    | some userinfo =>
      simp only [hu, userinfoPrefix, List.mem_append, List.mem_singleton] at hc
      rcases hc with hc | rfl
      · exact renderTokens_free (ha.1 userinfo hu) (by decide) c hc
      · decide
  · exact free_mono (hostAndPort_free ha) (by decide) c hc

theorem authorityPrefix_free {authority : Option Authority}
    (h : ∀ a, authority = some a → a.Valid Host.Delimited) :
    ∀ c ∈ authorityPrefix authority, c ∉ bytesOf "?#" := by
  cases authority with
  | none => simp [authorityPrefix]
  | some a =>
    intro c hc
    simp only [authorityPrefix, List.mem_cons] at hc
    rcases hc with rfl | rfl | hc
    · decide
    · decide
    · exact free_mono (Authority.render_free (h a rfl)) (by decide) c hc

theorem queryAndFragment_head (r : Reference) :
    ∀ c ∈ r.queryAndFragment.head?, c ∈ ['?'.toUInt8, '#'.toUInt8] := by
  cases hq : r.query <;> cases hf : r.fragment <;>
    simp [Reference.queryAndFragment, delimitedElement, hq, hf]

theorem take_findFirstOf_afterScheme {r : Reference} (hr : r.Delimited) :
    r.afterScheme.take
      ((findFirstOf ['?'.toUInt8, '#'.toUInt8] r.afterScheme).getD r.afterScheme.length) =
      r.hierPart := by
  have hfree : ∀ c ∈ r.hierPart, c ∉ ['?'.toUInt8, '#'.toUInt8] := by
    intro c hc
    rcases List.mem_append.1 hc with hc | hc
    · exact authorityPrefix_free hr.1.2.1 c hc
    · exact renderPath_free hr.1.2.2.1 c hc
  exact (cut_findFirstOf_iff.2 ⟨rfl, hfree, queryAndFragment_head r⟩).1

/-! ## The authority -/

theorem renderPath_cons (segment : List PctToken) (rest : List (List PctToken)) :
    renderPath (segment :: rest) =
      renderTokens segment ++ if rest = [] then [] else '/'.toUInt8 :: renderPath rest := by
  cases rest with
  | nil => simp
  | cons next rest => simp [renderPath_cons_cons]

theorem renderPath_head_of_pathAbempty {path : List (List PctToken)} (h : PathAbempty path) :
    ∀ c ∈ (renderPath path).head?, c ∈ ['/'.toUInt8] := by
  rcases h with rfl | ⟨rest, rfl, hrest⟩
  · simp
  · simp [renderPath_cons, hrest]

theorem head_renderTokens_append {segment : List PctToken} (hne : segment ≠ [])
    (hseg : TokensValid pcharNotPctEncoded segment) (rest : Bytes) :
    ∃ c tail, renderTokens segment ++ rest = c :: tail ∧ c ≠ '/'.toUInt8 := by
  obtain ⟨c, tail, htext⟩ := List.exists_cons_of_ne_nil (mt renderTokens_eq_nil.1 hne)
  refine ⟨c, tail ++ rest, by rw [htext, List.cons_append], fun hc ↦ ?_⟩
  have hmem : c ∈ renderTokens segment := htext ▸ List.mem_cons_self _ _
  exact not_mem_renderTokens hseg (by decide) (hc ▸ hmem)

theorem take_two_renderPath {path : List (List PctToken)}
    (hsegs : ∀ segment ∈ path, TokensValid pcharNotPctEncoded segment)
    (h : PathDelimited false path) : (renderPath path).take 2 ≠ ['/'.toUInt8, '/'.toUInt8] := by
  have hnot : ∀ c tail, c ≠ '/'.toUInt8 → (c :: tail).take 2 ≠ ['/'.toUInt8, '/'.toUInt8] := by
    intro c tail hc htake
    cases tail <;> simp_all
  simp only [PathDelimited, Bool.false_eq_true, if_false] at h
  obtain ⟨hne, hslashes⟩ := h
  match path, hsegs, hne, hslashes with
  | [], _, _, _ => simp
  | segment :: rest, hsegs, hne, hslashes =>
    by_cases hseg : segment = []
    · subst hseg
      cases rest with
      | nil => exact absurd rfl hne
      | cons next rest =>
        by_cases hnext : next = []
        · subst hnext
          cases rest with
          | nil => simp [renderPath_cons_cons]
          | cons x rest => exact absurd rfl (hslashes x rest)
        · obtain ⟨c, tail, htext, hc⟩ := head_renderTokens_append hnext
            (hsegs next (by simp)) (if rest = [] then [] else '/'.toUInt8 :: renderPath rest)
          rw [renderPath_cons_cons, renderTokens_nil, List.nil_append, renderPath_cons, htext]
          simpa using hc
    · obtain ⟨c, tail, htext, hc⟩ := head_renderTokens_append hseg (hsegs segment (by simp))
        (if rest = [] then [] else '/'.toUInt8 :: renderPath rest)
      rw [renderPath_cons, htext]
      exact hnot c tail hc

/-- `SplitAuthorityFromPathAndParseIt` on a delimited `hier-part`: its authority fields and path. -/
theorem splitAuthorityFromPathAndParseIt_hierPart {r : Reference} (hr : r.Delimited) (u : Impl) :
    u.splitAuthorityFromPathAndParseIt r.hierPart =
      if r.accepted then some (r.authorityFields u, renderPath r.path) else none := by
  obtain ⟨⟨-, hauth, hsegs, -, -⟩, hpath, -⟩ := hr
  unfold Impl.splitAuthorityFromPathAndParseIt
  dsimp only
  cases ha : r.authority with
  | some a =>
    have hvalid := hauth a ha
    simp only [PathDelimited, ha, Option.isSome_some, if_true] at hpath
    have hend : (find (a.render ++ renderPath r.path) '/'.toUInt8).getD
        (a.render ++ renderPath r.path).length = a.render.length :=
      findFirstOf_getD_append (free_mono (Authority.render_free hvalid) (by decide))
        (renderPath_head_of_pathAbempty hpath)
    simp only [Reference.hierPart, ha, authorityPrefix, List.cons_append, List.take_succ_cons,
      List.take_zero, List.drop_succ_cons, List.drop_zero, if_true, hend, List.drop_left,
      List.take_left, parseAuthority_render hvalid]
    simp [Reference.accepted, Reference.authorityFields, ha]
  | none =>
    simp only [PathDelimited, ha, Option.isSome_none] at hpath
    simp [Reference.hierPart, ha, authorityPrefix, take_two_renderPath hsegs hpath,
      Reference.accepted, Reference.authorityFields]

/-! ## The path -/

theorem renderPath_eq_nil {path : List (List PctToken)} :
    renderPath path = [] ↔ path = [] ∨ path = [[]] := by
  cases path with
  | nil => simp
  | cons segment rest =>
    rw [renderPath_cons]
    by_cases hrest : rest = [] <;> simp [hrest]

theorem renderPath_eq_slash {path : List (List PctToken)}
    (hsegs : ∀ segment ∈ path, TokensValid pcharNotPctEncoded segment) :
    renderPath path = ['/'.toUInt8] ↔ path = [[], []] := by
  constructor
  · intro h
    cases path with
    | nil => simp at h
    | cons segment rest =>
      have hslash : '/'.toUInt8 ∉ renderTokens segment :=
        fun hc ↦ not_mem_renderTokens (hsegs segment (by simp)) (by decide) hc
      rw [renderPath_cons] at h
      by_cases hrest : rest = []
      · subst hrest
        simp only [if_true, List.append_nil] at h
        exact absurd (h ▸ List.mem_singleton_self _) hslash
      · rw [if_neg hrest] at h
        rcases List.append_eq_cons_iff.1 h with ⟨hseg, htail⟩ | ⟨a, hseg, -⟩
        · simp only [List.cons.injEq, true_and, renderPath_eq_nil, hrest, false_or] at htail
          simp_all
        · exact absurd (hseg ▸ List.mem_cons_self _ _) hslash
  · rintro rfl
    rfl

theorem mapM_decodeElement_renderTokens {path : List (List PctToken)}
    (hsegs : ∀ segment ∈ path, TokensValid pcharNotPctEncoded segment) :
    (path.map renderTokens).mapM (decodeElement · pcharNotPctEncoded) =
      some (path.map (·.map PctToken.decode)) := by
  induction path with
  | nil => rfl
  | cons segment path ih =>
    simp only [List.mem_cons, forall_eq_or_imp] at hsegs
    rw [List.map_cons, List.mapM_cons, decodeElement_render (by decide) segment hsegs.1,
      ih hsegs.2]
    rfl

/-- `ParsePath` on a delimited path's text: `[""]` for the root, else the segments decoded. -/
theorem parsePath_renderPath {path : List (List PctToken)}
    (hsegs : ∀ segment ∈ path, TokensValid pcharNotPctEncoded segment) (hne : path ≠ [[]])
    (u : Impl) :
    u.parsePath (renderPath path) =
      some { u with
        path := if path = [[], []] then [[]] else path.map (·.map PctToken.decode) } := by
  unfold Impl.parsePath
  by_cases hroot : path = [[], []]
  · subst hroot
    rfl
  by_cases hnil : path = []
  · subst hnil
    rfl
  have htext : renderPath path ≠ [] := by simp [renderPath_eq_nil, hnil, hne]
  have hsplit : (renderPath path).splitOn '/'.toUInt8 = path.map renderTokens := by
    refine List.splitOn_intercalate _ _ ?_ (by simpa using hnil)
    simp only [List.mem_map]
    rintro _ ⟨segment, hs, rfl⟩ hc
    exact not_mem_renderTokens (hsegs segment hs) (by decide) hc
  simp only [(renderPath_eq_slash hsegs).not.2 hroot, htext, hsplit, hroot, if_false,
    List.isEmpty_iff, mapM_decodeElement_renderTokens hsegs]
  rfl

/-! ## The fragment and the query -/

theorem parseFragment_queryAndFragment {r : Reference}
    (hq : ∀ query, r.query = some query → TokensValid queryOrFragmentNotPctEncoded query)
    (hf : ∀ fragment, r.fragment = some fragment →
      TokensValid queryOrFragmentNotPctEncoded fragment) (u : Impl) :
    u.parseFragment r.queryAndFragment =
      some ({ u with hasFragment := r.fragment.isSome,
                     fragment := (r.fragment.getD []).map PctToken.decode },
        delimitedElement '?'.toUInt8 r.query) := by
  have hhash : '#'.toUInt8 ∉ delimitedElement '?'.toUInt8 r.query := by
    cases h : r.query with
    | none => simp [delimitedElement]
    | some query =>
      simp only [delimitedElement, List.mem_cons, not_or]
      exact ⟨by decide, fun hc ↦ not_mem_renderTokens (hq query h) (by decide) hc⟩
  unfold Impl.parseFragment
  cases h : r.fragment with
  | none =>
    simp only [Reference.queryAndFragment, h, delimitedElement.eq_2, List.append_nil,
      find_eq_none_of_not_mem hhash]
    rfl
  | some fragment =>
    simp [Reference.queryAndFragment, h, delimitedElement.eq_1, find_append_cons_self _ hhash,
      decodeQueryOrFragment, decodeElement_render (by decide) fragment (hf fragment h)]

theorem parseQuery_delimitedElement {query : Option (List PctToken)}
    (hq : ∀ tokens, query = some tokens → TokensValid queryOrFragmentNotPctEncoded tokens)
    (u : Impl) :
    u.parseQuery (delimitedElement '?'.toUInt8 query) =
      some { u with hasQuery := query.isSome, query := (query.getD []).map PctToken.decode } := by
  cases query with
  | none => simp [Impl.parseQuery, delimitedElement, decodeQueryOrFragment, decodeElement]
  | some tokens =>
    simp [Impl.parseQuery, delimitedElement, decodeQueryOrFragment,
      decodeElement_render (by decide) tokens (hq tokens rfl)]

/-! ## The whole parse -/

theorem PathDelimited.ne_root_text {hasAuthority : Bool} {path : List (List PctToken)}
    (h : PathDelimited hasAuthority path) : path ≠ [[]] := by
  unfold PathDelimited at h
  split_ifs at h
  · rcases h with rfl | ⟨rest, rfl, hrest⟩
    · simp
    · simpa using hrest
  · exact h.1

theorem setDefaultPath_storedPath (u : Impl) (path : List (List PctToken)) :
    Impl.setDefaultPathIfAuthorityPresentAndPathEmpty
        { u with path := if path = [[], []] then [[]] else path.map (·.map PctToken.decode) } =
      { u with path := storedPath u.host path } := by
  unfold Impl.setDefaultPathIfAuthorityPresentAndPathEmpty storedPath
  by_cases hroot : path = [[], []]
  · simp [hroot]
  · by_cases hnil : path = [] <;> cases hhost : u.host.isEmpty <;> simp_all

/-- `ParseFromString` on a delimited reference's text: its fields if host and port are accepted. -/
theorem parseFromString_recompose {r : Reference} (hr : r.Delimited) (u : Impl) :
    parseFromString u r.recompose = if r.accepted then some (r.fields u.port) else none := by
  have hsplit := take_findFirstOf_afterScheme hr
  have hauthority := splitAuthorityFromPathAndParseIt_hierPart hr
  obtain ⟨⟨hscheme, -, hsegs, hq, hf⟩, hpath, hwindow⟩ := hr
  have hdrop : r.afterScheme.drop r.hierPart.length = r.queryAndFragment := List.drop_left _ _
  simp only [parseFromString, parseScheme_recompose hscheme hwindow, Option.bind_eq_bind,
    Option.some_bind, hsplit, hdrop, hauthority]
  cases hacc : r.accepted
  · rfl
  simp only [if_true, Option.some_bind, parsePath_renderPath hsegs hpath.ne_root_text,
    parseFragment_queryAndFragment hq hf, parseQuery_delimitedElement hq]
  rw [setDefaultPath_storedPath]
  unfold Reference.fields Reference.authorityFields
  cases r.authority <;> rfl

/-! ## A `:` before the first `/` of a relative reference -/

theorem parseScheme_eq_none {s a b : Bytes} {c : UInt8} (hs : s = a ++ c :: b)
    (ha : ':'.toUInt8 ∉ a) (hc : schemeNotFirst.contains c = false) (hcolon : c ≠ ':'.toUInt8)
    (hwindow : ':'.toUInt8 ∈ schemeWindow s) (u : Impl) : u.parseScheme s = none := by
  rcases hparse : u.parseScheme s with _ | ⟨u₁, rest⟩
  · rfl
  obtain ⟨_ | scheme, hscheme, hnone, heq, -⟩ := parseScheme_eq_some_iff.1 hparse
  · exact absurd hwindow (hnone rfl)
  -- the scheme runs to the first `:`, which comes after `c`
  have hb : ':'.toUInt8 ∈ b := by
    have hmem := List.takeWhile_subset _ hwindow
    rw [hs, List.mem_append, List.mem_cons] at hmem
    exact (hmem.resolve_left ha).resolve_left (Ne.symm hcolon)
  obtain ⟨p, q, rfl, hp⟩ := exists_eq_append_cons hb
  have hfree : ':'.toUInt8 ∉ a ++ c :: p := by simp [ha, Ne.symm hcolon, hp]
  have hsplit : (a ++ c :: p) ++ ':'.toUInt8 :: q = scheme ++ ':'.toUInt8 :: rest := by
    rw [List.append_assoc, List.cons_append, ← hs, heq]
    simp [schemePrefix]
  have hsch := hscheme scheme rfl
  obtain ⟨rfl, -⟩ := append_cons_eq_append_cons hfree hsch.slash_colon_not_mem.2 hsplit
  exact absurd (hsch.schemeNotFirst c (by simp)) (by simp [hc])

theorem colon_not_mem_renderTokens {set : CharacterSet} {tokens : List PctToken}
    (h : TokensValid set tokens) (hcolon : PctToken.char ':'.toUInt8 ∉ tokens) :
    ':'.toUInt8 ∉ renderTokens tokens := by
  intro hc
  obtain ⟨t, ht, hc⟩ := List.mem_flatMap.1 hc
  cases t with
  | char x =>
    simp only [PctToken.render, List.mem_singleton] at hc
    exact hcolon (hc ▸ ht)
  | triplet high low =>
    have hv := h _ ht
    simp only [PctToken.render, List.mem_cons, List.mem_singleton, List.not_mem_nil,
      or_false] at hc
    rcases hc with hc | hc | hc
    · exact absurd hc (by decide)
    · exact absurd (hc ▸ hv.1) (by decide)
    · exact absurd (hc ▸ hv.2) (by decide)

theorem parseScheme_append_queryAndFragment {r : Reference} {a s : Bytes}
    (ha : ':'.toUInt8 ∉ a) (hs : s = a ++ r.queryAndFragment)
    (hwindow : ':'.toUInt8 ∈ schemeWindow s) (u : Impl) : u.parseScheme s = none := by
  cases hqf : r.queryAndFragment with
  | nil =>
    rw [hs, hqf, List.append_nil] at hwindow
    exact absurd (List.takeWhile_subset _ hwindow) ha
  | cons c b =>
    have hc : schemeNotFirst.contains c = false ∧ c ≠ ':'.toUInt8 := by
      have := queryAndFragment_head r c (by simp [hqf])
      simp only [List.mem_cons, List.mem_singleton, List.not_mem_nil, or_false] at this
      rcases this with rfl | rfl <;> decide
    exact parseScheme_eq_none (hs.trans (by rw [hqf])) ha hc.1 hc.2 hwindow u

/-- A well-formed relative reference with a `:` before its first `/` is rejected: the text
before that `:` holds the `?` or `#` that starts the query or the fragment. -/
theorem parseFromString_recompose_of_colon {r : Reference} (hr : r.WellFormed)
    (hs : r.scheme = none) (hwindow : ':'.toUInt8 ∈ schemeWindow r.recompose) (u : Impl) :
    parseFromString u r.recompose = none := by
  suffices h : u.parseScheme r.recompose = none by simp [parseFromString, h]
  obtain ⟨⟨-, -, hsegs, -, -⟩, hpath⟩ := hr
  have hrec :
      r.recompose = authorityPrefix r.authority ++ renderPath r.path ++ r.queryAndFragment := by
    simp [Reference.recompose, hs, schemePrefix, Reference.afterScheme, Reference.hierPart]
  cases ha : r.authority with
  | some a =>
    rw [hrec, ha] at hwindow
    simp [authorityPrefix, schemeWindow] at hwindow
  | none =>
    simp only [PathWellFormed, hs, ha, Option.isSome_none, Bool.false_eq_true, if_false] at hpath
    rw [ha, authorityPrefix, List.nil_append] at hrec
    rcases hpath with (hroot | ⟨first, rest, hp, -⟩) | ⟨first, rest, hp, hfirst, hcolon⟩ | hp
    · rw [hrec, hroot] at hwindow
      simp [renderPath_cons_cons, schemeWindow] at hwindow
    · rw [hrec, hp, renderPath_cons_cons] at hwindow
      simp [schemeWindow] at hwindow
    · have hfree := colon_not_mem_renderTokens (hsegs first (by simp [hp])) hcolon
      by_cases hrest : rest = []
      · subst hrest
        exact parseScheme_append_queryAndFragment hfree
          (by rw [hrec, hp, renderPath_singleton]) hwindow u
      · have hslash : '/'.toUInt8 ∉ renderTokens first :=
          fun h ↦ not_mem_renderTokens (hsegs first (by simp [hp])) (by decide) h
        rw [hrec, hp, renderPath_cons, if_neg hrest, List.append_assoc, List.cons_append,
          schemeWindow_append_slash hslash] at hwindow
        exact absurd hwindow hfree
    · exact parseScheme_append_queryAndFragment (List.not_mem_nil _)
        (by rw [hrec, hp, renderPath_nil, List.nil_append]) hwindow u

/-! ## The fields of a grammatical reference -/

/-- On a text of the grammar that `ParseFromString` accepts, it stores the text's components:
the host and the port are accepted, and the fields are the reference's. -/
theorem parseFromString_wellFormed_fields {r : Reference} (hr : r.WellFormed) {u v : Impl}
    (h : parseFromString u r.recompose = some v) : r.accepted = true ∧ v = r.fields u.port := by
  by_cases hw : r.scheme = none ∧ ':'.toUInt8 ∈ schemeWindow r.recompose
  · rw [parseFromString_recompose_of_colon hr hw.1 hw.2] at h
    exact absurd h (by simp)
  · rw [parseFromString_recompose (hr.delimited fun hs hc ↦ hw ⟨hs, hc⟩)] at h
    split_ifs at h with hacc
    · exact ⟨hacc, (Option.some.inj h).symm⟩

/-- `HTTP://A:80/p?q` is accepted and stored as its components. -/
theorem parseFromString_wellFormed_fields_http :
    ∃ (r : Reference) (v : Impl), r.recompose = bytesOf "HTTP://A:80/p?q" ∧ r.WellFormed ∧
      parseFromString default r.recompose = some v ∧ r.accepted = true ∧ v = r.fields 0 := by
  have hr : Reference.WellFormed ⟨some (bytesOf "HTTP"),
      some ⟨none, .regName [.char 'A'.toUInt8], some (bytesOf "80")⟩,
      [[], [.char 'p'.toUInt8]], some [.char 'q'.toUInt8], none⟩ := by
    refine ⟨⟨?_, ?_, ?_, ?_, ?_⟩, ?_⟩
    · simp only [Option.some.injEq, forall_eq']
      decide
    · simp only [Option.some.injEq, forall_eq']
      exact ⟨by simp, show TokensValid _ _ by decide,
        by simp only [Option.some.injEq, forall_eq']; decide⟩
    · decide
    · simp only [Option.some.injEq, forall_eq']
      decide
    · simp
    · simp [PathWellFormed, PathAbempty]
  refine ⟨_, _, ?_, hr, rfl, parseFromString_wellFormed_fields hr rfl⟩
  rfl

/-! ## A `:` in a query -/

/-- `ParseScheme` looks for the end of a scheme in all the text before the first `/`, past a
`?`: the relative reference `?a:b`, whose query is `a:b`, is rejected. -/
theorem parseFromString_rejects_query_colon :
    UriReference (bytesOf "?a:b") ∧ parseFromString default (bytesOf "?a:b") = none := by
  refine ⟨⟨⟨none, none, [], some [.char 'a'.toUInt8, .char ':'.toUInt8, .char 'b'.toUInt8], none⟩,
    ⟨⟨by simp, by simp, by simp, ?_, by simp⟩, by simp [PathWellFormed]⟩, rfl⟩, rfl⟩
  simp only [Option.some.injEq, forall_eq']
  decide

end Uri
