import Uri.Components
import Uri.Parse

/-!
# The methods of `ParseFromString`, one at a time

`ParseFromString` cuts its text with `find` and `find_first_of` and hands each part to a
method. A search cuts a text into a part without the characters searched for and a rest that is
empty or starts with one (`cut_findFirstOf_iff`). Each method succeeds on exactly the texts
described here, and stores what is listed there: `ParseScheme` (`parseScheme_eq_some_iff`),
`SplitAuthorityFromPathAndParseIt` (`splitAuthorityFromPathAndParseIt_eq_some_iff`),
`ParseFragment` (`parseFragment_eq_some_iff`) and `ParseQuery` (`parseQuery_delimitedText`).
-/

namespace Uri

/-! ## Searches -/

theorem takeWhile_dropWhile_eq_iff {p : UInt8 → Bool} {s a b : Bytes} :
    s.takeWhile p = a ∧ s.dropWhile p = b ↔
      s = a ++ b ∧ (∀ x ∈ a, p x = true) ∧ ∀ x ∈ b.head?, p x = false := by
  constructor
  · rintro ⟨rfl, rfl⟩
    refine ⟨(List.takeWhile_append_dropWhile p s).symm, fun x hx ↦ List.mem_takeWhile_imp hx,
      fun x hx ↦ ?_⟩
    have hnot := List.head?_dropWhile_not p s
    rwa [Option.mem_def.1 hx] at hnot
  · rintro ⟨rfl, ha, hb⟩
    rw [List.takeWhile_append_of_pos ha, List.dropWhile_append_of_pos ha]
    cases b with
    | nil => simp
    | cons x b => simp [List.takeWhile_cons, List.dropWhile_cons, hb x rfl]

theorem take_findFirstOf_getD (chars s : Bytes) :
    s.take ((findFirstOf chars s).getD s.length) = s.takeWhile (· ∉ chars) := by
  induction s with
  | nil => rfl
  | cons x s ih =>
    by_cases hx : x ∈ chars
    · simp [findFirstOf_cons, hx]
    · have hget : ((findFirstOf chars s).map (· + 1)).getD (s.length + 1) =
          (findFirstOf chars s).getD s.length + 1 := by
        cases findFirstOf chars s <;> rfl
      simp only [findFirstOf_cons, hx, if_false, List.length_cons, hget, List.take_succ_cons, ih,
        List.takeWhile_cons, not_false_eq_true, decide_True, if_true]

theorem drop_findFirstOf_getD (chars s : Bytes) :
    s.drop ((findFirstOf chars s).getD s.length) = s.dropWhile (· ∉ chars) := by
  induction s with
  | nil => rfl
  | cons x s ih =>
    by_cases hx : x ∈ chars
    · simp [findFirstOf_cons, hx]
    · have hget : ((findFirstOf chars s).map (· + 1)).getD (s.length + 1) =
          (findFirstOf chars s).getD s.length + 1 := by
        cases findFirstOf chars s <;> rfl
      simp only [findFirstOf_cons, hx, if_false, List.length_cons, hget, List.drop_succ_cons, ih,
        List.dropWhile_cons, not_false_eq_true, decide_True, if_true]

theorem cut_findFirstOf_iff {chars s a b : Bytes} :
    s.take ((findFirstOf chars s).getD s.length) = a ∧
        s.drop ((findFirstOf chars s).getD s.length) = b ↔
      s = a ++ b ∧ (∀ x ∈ a, x ∉ chars) ∧ ∀ x ∈ b.head?, x ∈ chars := by
  rw [take_findFirstOf_getD, drop_findFirstOf_getD, takeWhile_dropWhile_eq_iff]
  simp only [decide_eq_true_eq, decide_eq_false_iff_not, not_not]

theorem take_find_getD (s : Bytes) (c : UInt8) :
    s.take ((find s c).getD s.length) = s.takeWhile (· ≠ c) := by
  rw [find, take_findFirstOf_getD]
  simp only [List.mem_singleton, ne_eq]

theorem find_eq_none_of_not_mem {s : Bytes} {c : UInt8} (h : c ∉ s) : find s c = none :=
  findFirstOf_eq_none fun _ hx hxc ↦ h (List.mem_singleton.1 hxc ▸ hx)

theorem find_append_cons_self {a : Bytes} {c : UInt8} (b : Bytes) (h : c ∉ a) :
    find (a ++ c :: b) c = some a.length :=
  findFirstOf_append_cons b (fun _ hx hxc ↦ h (List.mem_singleton.1 hxc ▸ hx))
    (List.mem_singleton_self c)

theorem exists_eq_append_cons {c : UInt8} {t : Bytes} (h : c ∈ t) :
    ∃ p r, t = p ++ c :: r ∧ c ∉ p := by
  induction t with
  | nil => exact absurd h (List.not_mem_nil _)
  | cons x t ih =>
    by_cases hx : x = c
    · exact ⟨[], t, by rw [hx]; rfl, List.not_mem_nil _⟩
    · obtain ⟨p, r, rfl, hp⟩ := ih ((List.mem_cons.1 h).resolve_left (Ne.symm hx))
      exact ⟨x :: p, r, rfl, by simp [hp, Ne.symm hx]⟩

theorem append_cons_eq_append_cons {a a' b b' : Bytes} {c : UInt8} (ha : c ∉ a) (ha' : c ∉ a')
    (h : a ++ c :: b = a' ++ c :: b') : a = a' ∧ b = b' := by
  have hlength : a.length = a'.length := by
    have hfind := find_append_cons_self b ha
    rw [h, find_append_cons_self _ ha'] at hfind
    exact (Option.some.inj hfind).symm
  obtain ⟨rfl, hrest⟩ := List.append_inj h hlength
  exact ⟨rfl, (List.cons.inj hrest).2⟩

/-! ## The scheme -/

theorem failsMatch_go_false (rest : Bytes) :
    failsMatch.go legalSchemeCheckStrategy false rest = !rest.all schemeNotFirst.contains := by
  induction rest with
  | nil => rfl
  | cons c rest ih =>
    have hstep : legalSchemeCheckStrategy.stillPassing false c false =
        (schemeNotFirst.contains c, false) := rfl
    rw [failsMatch.go, hstep]
    cases h : schemeNotFirst.contains c <;> simp [h, ih]

/-- `FailsMatch` with `LegalSchemeCheckStrategy` rejects exactly what is not a `scheme`. -/
theorem failsMatch_legalSchemeCheckStrategy (s : Bytes) :
    failsMatch s legalSchemeCheckStrategy = !decide (IsScheme s) := by
  cases s with
  | nil => rfl
  | cons c rest =>
    have hstep : legalSchemeCheckStrategy.stillPassing true c false = (alpha.contains c, false) :=
      rfl
    rw [failsMatch, show legalSchemeCheckStrategy.init = true from rfl, failsMatch.go, hstep]
    cases h : alpha.contains c <;> simp [h, failsMatch_go_false, IsScheme, List.all_eq]

theorem IsScheme.schemeNotFirst {s : Bytes} (h : IsScheme s) :
    ∀ c ∈ s, schemeNotFirst.contains c = true := by
  cases s with
  | nil => exact h.elim
  | cons c rest =>
    obtain ⟨hc, hrest⟩ := h
    simp only [List.mem_cons, forall_eq_or_imp]
    exact ⟨by simp [Uri.schemeNotFirst, hc], hrest⟩

theorem IsScheme.slash_colon_not_mem {s : Bytes} (h : IsScheme s) :
    '/'.toUInt8 ∉ s ∧ ':'.toUInt8 ∉ s :=
  ⟨fun hc ↦ absurd (h.schemeNotFirst _ hc) (by decide),
    fun hc ↦ absurd (h.schemeNotFirst _ hc) (by decide)⟩

theorem schemeWindow_append_colon {a : Bytes} (h : '/'.toUInt8 ∉ a) (b : Bytes) :
    schemeWindow (a ++ ':'.toUInt8 :: b) = a ++ ':'.toUInt8 :: schemeWindow b := by
  have hpos : ∀ x ∈ a, decide (x ≠ '/'.toUInt8) = true := fun x hx ↦
    decide_eq_true fun hx' ↦ h (hx' ▸ hx)
  rw [schemeWindow, List.takeWhile_append_of_pos hpos, List.takeWhile_cons, if_pos (by decide),
    schemeWindow]

theorem schemeWindow_append_slash {a : Bytes} (h : '/'.toUInt8 ∉ a) (b : Bytes) :
    schemeWindow (a ++ '/'.toUInt8 :: b) = a := by
  have hpos : ∀ x ∈ a, decide (x ≠ '/'.toUInt8) = true := fun x hx ↦
    decide_eq_true fun hx' ↦ h (hx' ▸ hx)
  rw [schemeWindow, List.takeWhile_append_of_pos hpos, List.takeWhile_cons, if_neg (by simp),
    List.append_nil]

theorem exists_of_colon_mem_schemeWindow {s : Bytes} (h : ':'.toUInt8 ∈ schemeWindow s) :
    ∃ p r, s = p ++ ':'.toUInt8 :: r ∧ ':'.toUInt8 ∉ p ∧ '/'.toUInt8 ∉ p := by
  obtain ⟨p, w, hw, hp⟩ := exists_eq_append_cons h
  refine ⟨p, w ++ s.dropWhile (· ≠ '/'.toUInt8), ?_, hp, fun hslash ↦ ?_⟩
  · rw [← List.takeWhile_append_dropWhile (· ≠ '/'.toUInt8) s]
    exact (congrArg (· ++ s.dropWhile (· ≠ '/'.toUInt8)) hw).trans (by simp)
  · have hmem : '/'.toUInt8 ∈ schemeWindow s := hw ▸ List.mem_append_left _ hslash
    simpa using List.mem_takeWhile_imp hmem

/-- `ParseScheme` succeeds exactly on a `scheme` of the grammar and its `:`, or on a text
without `:` before its first `/`; it stores the scheme lower-cased and hands on the rest. -/
theorem parseScheme_eq_some_iff {u u₁ : Impl} {uriString rest : Bytes} :
    u.parseScheme uriString = some (u₁, rest) ↔
      ∃ scheme : Option Bytes, (∀ s, scheme = some s → IsScheme s) ∧
        (scheme = none → ':'.toUInt8 ∉ schemeWindow uriString) ∧
        uriString = schemePrefix scheme ++ rest ∧
        u₁ = { u with scheme := (scheme.getD []).map toLower } := by
  unfold Impl.parseScheme
  dsimp only
  rw [take_find_getD, show uriString.takeWhile (· ≠ '/'.toUInt8) = schemeWindow uriString from rfl]
  by_cases hcolon : ':'.toUInt8 ∈ schemeWindow uriString
  · -- a scheme before the first `:`
    obtain ⟨p, r, rfl, hp, hslash⟩ := exists_of_colon_mem_schemeWindow hcolon
    have hdrop : (p ++ ':'.toUInt8 :: r).drop (p.length + 1) = r := by
      rw [List.drop_append]
      rfl
    rw [schemeWindow_append_colon hslash, find_append_cons_self _ hp]
    simp only [List.take_left, hdrop, failsMatch_legalSchemeCheckStrategy, Bool.not_eq_true',
      decide_eq_false_iff_not]
    constructor
    · intro h
      by_cases hscheme : IsScheme p
      · simp only [hscheme, not_true_eq_false, if_false, Option.some.injEq, Prod.mk.injEq] at h
        obtain ⟨rfl, rfl⟩ := h
        exact ⟨some p, fun s hs ↦ Option.some.inj hs ▸ hscheme, nofun, by simp [schemePrefix],
          rfl⟩
      · simp [hscheme] at h
    · rintro ⟨_ | s, hs, hnone, heq, rfl⟩
      · exact (hnone rfl (List.mem_append_right _ (List.mem_cons_self _ _))).elim
      · have hsch := hs s rfl
        obtain ⟨rfl, rfl⟩ := append_cons_eq_append_cons hp hsch.slash_colon_not_mem.2
          (heq.trans (show schemePrefix (some s) ++ rest = s ++ ':'.toUInt8 :: rest by
            simp [schemePrefix]))
        simp [hsch]
  · -- no scheme
    rw [find_eq_none_of_not_mem hcolon]
    simp only [Option.some.injEq, Prod.mk.injEq]
    constructor
    · rintro ⟨rfl, rfl⟩
      exact ⟨none, nofun, fun _ ↦ hcolon, rfl, rfl⟩
    · rintro ⟨_ | s, hs, -, heq, rfl⟩
      · exact ⟨rfl, heq⟩
      · have hsch := hs s rfl
        refine absurd ?_ hcolon
        rw [heq, schemePrefix, List.append_assoc, List.singleton_append,
          schemeWindow_append_colon hsch.slash_colon_not_mem.1]
        exact List.mem_append_right _ (List.mem_cons_self _ _)

/-! ## The authority -/

/-- An optional authority after its `//`. -/
def authorityText : Option Bytes → Bytes
  | some authority => '/'.toUInt8 :: '/'.toUInt8 :: authority
  | none => []

/-- What `SplitAuthorityFromPathAndParseIt` stores from an authority part, or without one. -/
def authorityPartFields (u : Impl) : Option Bytes → Option Impl
  | none => some { u with userInfo := [], host := [], hasPort := false }
  | some authority => u.parseAuthority authority

/-- `SplitAuthorityFromPathAndParseIt` succeeds exactly on a path not starting with `//`, or on
`//`, an authority without `/` that `ParseAuthority` accepts, and an empty or absolute path. -/
theorem splitAuthorityFromPathAndParseIt_eq_some_iff {u u₂ : Impl}
    {authorityAndPathString pathString : Bytes} :
    u.splitAuthorityFromPathAndParseIt authorityAndPathString = some (u₂, pathString) ↔
      ∃ authority : Option Bytes,
        authorityAndPathString = authorityText authority ++ pathString ∧
        (authority = none → ¬['/'.toUInt8, '/'.toUInt8] <+: pathString) ∧
        (∀ a, authority = some a → '/'.toUInt8 ∉ a ∧ ∀ c ∈ pathString.head?, c = '/'.toUInt8) ∧
        authorityPartFields u authority = some u₂ := by
  unfold Impl.splitAuthorityFromPathAndParseIt
  by_cases h2 : authorityAndPathString.take 2 = ['/'.toUInt8, '/'.toUInt8]
  · -- an authority up to the next `/`
    obtain ⟨t, rfl⟩ : ∃ t, authorityAndPathString = '/'.toUInt8 :: '/'.toUInt8 :: t := by
      rcases authorityAndPathString with _ | ⟨x, _ | ⟨y, t⟩⟩ <;> simp at h2
      exact ⟨t, by rw [h2.1, h2.2]⟩
    have hcut : ∀ a, (t.take ((find t '/'.toUInt8).getD t.length) = a ∧
        t.drop ((find t '/'.toUInt8).getD t.length) = pathString) ↔
          t = a ++ pathString ∧ '/'.toUInt8 ∉ a ∧ ∀ c ∈ pathString.head?, c = '/'.toUInt8 := by
      intro a
      rw [find, cut_findFirstOf_iff]
      simp only [List.mem_singleton]
      exact and_congr_right fun _ ↦
        and_congr_left' ⟨fun h hc ↦ h _ hc rfl, fun h x hx hx' ↦ h (hx' ▸ hx)⟩
    rw [if_pos h2]
    simp only [List.drop_succ_cons, List.drop_zero, Option.map_eq_some', Prod.mk.injEq]
    constructor
    · rintro ⟨v, hv, rfl, hpath⟩
      obtain ⟨ht, hslash, hhead⟩ := (hcut _).1 ⟨rfl, hpath⟩
      exact ⟨some (t.take ((find t '/'.toUInt8).getD t.length)),
        by rw [authorityText, List.cons_append, List.cons_append, ← ht], nofun,
        fun a ha ↦ Option.some.inj ha ▸ ⟨hslash, hhead⟩, hv⟩
    · rintro ⟨_ | a, heq, hnone, hsome, hauth⟩
      · exact absurd ⟨t, heq⟩ (hnone rfl)
      · obtain ⟨htake, hdrop⟩ :=
          (hcut a).2 ⟨List.cons_injective (List.cons_injective heq), hsome a rfl⟩
        exact ⟨u₂, htake ▸ hauth, rfl, hdrop⟩
  · -- no authority
    rw [if_neg h2]
    simp only [Option.some.injEq, Prod.mk.injEq]
    constructor
    · rintro ⟨rfl, rfl⟩
      exact ⟨none, rfl, fun _ hpre ↦ h2 (List.prefix_iff_eq_take.1 hpre).symm, nofun, rfl⟩
    · rintro ⟨_ | a, heq, -, -, hauth⟩
      · exact ⟨Option.some.inj hauth, heq⟩
      · exact absurd (by rw [heq]; rfl) h2

/-! ## The fragment and the query -/

/-- An optional part of a text after its one-character delimiter, as it stands. -/
def delimitedText (delimiter : UInt8) : Option Bytes → Bytes
  | some text => delimiter :: text
  | none => []

/-- `ParseFragment` succeeds exactly on a text without `#` followed by nothing, or by a `#` and
a fragment that `DecodeQueryOrFragment` accepts; it hands on the text before the `#`. -/
theorem parseFragment_eq_some_iff {u u₄ : Impl} {queryAndOrFragment rest : Bytes} :
    u.parseFragment queryAndOrFragment = some (u₄, rest) ↔
      ∃ (fragment : Option Bytes) (value : Bytes),
        queryAndOrFragment = rest ++ delimitedText '#'.toUInt8 fragment ∧ '#'.toUInt8 ∉ rest ∧
        decodeQueryOrFragment (fragment.getD []) = some value ∧
        u₄ = { u with hasFragment := fragment.isSome, fragment := value } := by
  unfold Impl.parseFragment
  by_cases hhash : '#'.toUInt8 ∈ queryAndOrFragment
  · obtain ⟨p, r, rfl, hp⟩ := exists_eq_append_cons hhash
    have hdrop : (p ++ '#'.toUInt8 :: r).drop (p.length + 1) = r := by
      rw [List.drop_append]
      rfl
    rw [find_append_cons_self _ hp]
    simp only [List.take_left, hdrop, Option.map_eq_some', Prod.mk.injEq]
    constructor
    · rintro ⟨value, hvalue, rfl, rfl⟩
      exact ⟨some r, value, rfl, hp, hvalue, rfl⟩
    · rintro ⟨_ | f, value, heq, hrest, hvalue, rfl⟩
      · exact absurd ((List.append_nil rest) ▸ heq ▸ List.mem_append_right _
          (List.mem_cons_self _ _)) hrest
      · obtain ⟨rfl, rfl⟩ := append_cons_eq_append_cons hp hrest heq
        exact ⟨value, hvalue, rfl, rfl⟩
  · rw [find_eq_none_of_not_mem hhash]
    simp only [Option.map_eq_some', Prod.mk.injEq]
    constructor
    · rintro ⟨value, hvalue, rfl, rfl⟩
      exact ⟨none, value, (List.append_nil _).symm, hhash, hvalue, rfl⟩
    · rintro ⟨_ | f, value, heq, -, hvalue, rfl⟩
      · exact ⟨value, hvalue, rfl, heq.trans (List.append_nil _)⟩
      · exact absurd (heq ▸ List.mem_append_right _ (List.mem_cons_self _ _)) hhash

/-- `ParseQuery` on nothing or on `?` and a query: the query `DecodeQueryOrFragment` decodes. -/
theorem parseQuery_delimitedText (u : Impl) (query : Option Bytes) :
    u.parseQuery (delimitedText '?'.toUInt8 query) =
      (decodeQueryOrFragment (query.getD [])).map
        fun value ↦ { u with hasQuery := query.isSome, query := value } := by
  cases query <;> rfl

end Uri
