import Uri.Recomposition

/-!
# Letter case in the scheme, the host and escapes

RFC 3986 makes the scheme, a reg-name and the hexadecimal digits of an escape
case-insensitive. Two references that differ only there (`Reference.CaseVariant`) recompose to
texts that differ only in letter case, so the scheme window of the parser finds its `:` in
both or in neither; both are well-formed or neither is; their hosts and ports are accepted
alike; and their fields are equal, since `ParseScheme` lower-cases the scheme, `ParseAuthority`
lower-cases a decoded reg-name, and the percent decoder reads hexadecimal digits of either
case. Parsing the two texts gives values equal under `operator==`, or fails on both
(`parseFromString_caseVariant`).
-/

namespace Uri

/-! ## Letter case -/

/-- Two octets that differ at most in the case of a letter. -/
def SameUpToCase (a b : UInt8) : Prop := toLower a = toLower b

theorem sameUpToCase_toNat {a b : UInt8} (h : SameUpToCase a b) :
    (if 65 ≤ a.toNat ∧ a.toNat ≤ 90 then a.toNat + 32 else a.toNat) =
      if 65 ≤ b.toNat ∧ b.toNat ≤ 90 then b.toNat + 32 else b.toNat := by
  rw [← toLower_toNat, ← toLower_toNat, h]

theorem SameUpToCase.cases {a b : UInt8} (h : SameUpToCase a b) :
    a = b ∨ ∃ k < 26, a = (65 + k).toUInt8 ∧ b = (97 + k).toUInt8 ∨
      a = (97 + k).toUInt8 ∧ b = (65 + k).toUInt8 := by
  have := sameUpToCase_toNat h
  split_ifs at this with ha hb hb
  · exact .inl (UInt8.ext_iff.2 (by omega))
  · exact .inr ⟨a.toNat - 65, by omega, .inl
      ⟨eq_toUInt8_of_toNat (by omega), eq_toUInt8_of_toNat (by omega)⟩⟩
  · exact .inr ⟨b.toNat - 65, by omega, .inr
      ⟨eq_toUInt8_of_toNat (by omega), eq_toUInt8_of_toNat (by omega)⟩⟩
  · exact .inl (UInt8.ext_iff.2 this)

/-- A character set that has, with a letter, the letter in the other case. -/
def CharacterSet.CaseClosed (set : CharacterSet) : Prop :=
  ∀ a b, SameUpToCase a b → set.contains a = true → set.contains b = true

theorem caseClosed_of_letters {set : CharacterSet}
    (h : ∀ k < 26, set.contains (65 + k).toUInt8 = set.contains (97 + k).toUInt8) :
    set.CaseClosed := by
  intro a b hab ha
  rcases hab.cases with rfl | ⟨k, hk, ⟨rfl, rfl⟩ | ⟨rfl, rfl⟩⟩
  · exact ha
  · rwa [← h k hk]
  · rwa [h k hk]

theorem hexdig_caseClosed : hexdig.CaseClosed := caseClosed_of_letters (by decide)

theorem sameUpToCase_refl (a : UInt8) : SameUpToCase a a := rfl

instance : IsRefl UInt8 SameUpToCase := ⟨sameUpToCase_refl⟩

instance : DecidableRel SameUpToCase := fun a b ↦
  inferInstanceAs (Decidable (toLower a = toLower b))

theorem map_toLower_eq {s s' : Bytes} (h : List.Forall₂ SameUpToCase s s') :
    s.map toLower = s'.map toLower := by
  induction h with
  | nil => rfl
  | cons hc _ ih => rw [List.map_cons, List.map_cons, hc, ih]

theorem alpha_caseClosed : alpha.CaseClosed := caseClosed_of_letters (by decide)

theorem schemeNotFirst_caseClosed : schemeNotFirst.CaseClosed := caseClosed_of_letters (by decide)

theorem regNameNotPctEncoded_caseClosed : regNameNotPctEncoded.CaseClosed :=
  caseClosed_of_letters (by decide)

theorem SameUpToCase.eq_iff {a b : UInt8} (h : SameUpToCase a b) (d : UInt8)
    (hd : ¬(65 ≤ d.toNat ∧ d.toNat ≤ 90) ∧ ¬(97 ≤ d.toNat ∧ d.toNat ≤ 122)) : a = d ↔ b = d := by
  have := sameUpToCase_toNat h
  rw [UInt8.ext_iff, UInt8.ext_iff]
  have ha := a.toNat_lt
  have hb := b.toNat_lt
  constructor <;> intro h' <;> split_ifs at this <;> omega

theorem hexDigitValue_letters : ∀ k < 26,
    hexdig.contains (65 + k).toUInt8 = true ∨ hexdig.contains (97 + k).toUInt8 = true →
      hexDigitValue (65 + k).toUInt8 = hexDigitValue (97 + k).toUInt8 := by
  decide

theorem SameUpToCase.hexDigitValue_eq {a b : UInt8} (h : SameUpToCase a b)
    (ha : hexdig.contains a = true) : hexDigitValue a = hexDigitValue b := by
  rcases h.cases with rfl | ⟨k, hk, ⟨rfl, rfl⟩ | ⟨rfl, rfl⟩⟩
  · rfl
  · exact hexDigitValue_letters k hk (.inl ha)
  · exact (hexDigitValue_letters k hk (.inr ha)).symm

/-! ## Case variants of tokens -/

/-- Tokens equal up to case: an escape's digits in either case, a character by `charVariant`. -/
def PctToken.Variant (charVariant : UInt8 → UInt8 → Prop) : PctToken → PctToken → Prop
  | .char c, .char c' => charVariant c c'
  | .triplet high low, .triplet high' low' => SameUpToCase high high' ∧ SameUpToCase low low'
  | _, _ => False

namespace PctToken

variable {charVariant : UInt8 → UInt8 → Prop} {t t' : PctToken}

theorem Variant.valid {set : CharacterSet}
    (hchar : ∀ c c', charVariant c c' → set.contains c = true → set.contains c' = true)
    (h : t.Variant charVariant t') (ht : t.Valid set) : t'.Valid set := by
  cases t <;> cases t' <;> simp only [Variant] at h
  · exact hchar _ _ h ht
  · exact ⟨hexdig_caseClosed _ _ h.1 ht.1, hexdig_caseClosed _ _ h.2 ht.2⟩

theorem Variant.decode {set : CharacterSet} (hrefl : ∀ c, charVariant c c)
    (h : t.Variant charVariant t') (ht : t.Valid set) : charVariant t.decode t'.decode := by
  cases t <;> cases t' <;> simp only [Variant] at h
  · exact h
  · simp only [PctToken.decode, h.1.hexDigitValue_eq ht.1, h.2.hexDigitValue_eq ht.2]
    exact hrefl _

theorem Variant.render (hcase : ∀ c c', charVariant c c' → SameUpToCase c c')
    (h : t.Variant charVariant t') : List.Forall₂ SameUpToCase t.render t'.render := by
  cases t <;> cases t' <;> simp only [Variant] at h
  · exact List.Forall₂.cons (hcase _ _ h) List.Forall₂.nil
  · exact .cons (sameUpToCase_refl _) (.cons h.1 (.cons h.2 .nil))

end PctToken

section Tokens

variable {charVariant : UInt8 → UInt8 → Prop} {tokens tokens' : List PctToken}

theorem tokensValid_of_variant {set : CharacterSet}
    (hchar : ∀ c c', charVariant c c' → set.contains c = true → set.contains c' = true)
    (h : List.Forall₂ (PctToken.Variant charVariant) tokens tokens')
    (hvalid : TokensValid set tokens) : TokensValid set tokens' := by
  induction h with
  | nil => exact fun _ h ↦ absurd h (List.not_mem_nil _)
  | cons ht _ ih =>
    simp only [TokensValid, List.mem_cons, forall_eq_or_imp] at hvalid ⊢
    exact ⟨ht.valid hchar hvalid.1, ih hvalid.2⟩

theorem decode_of_variant {set : CharacterSet} (hrefl : ∀ c, charVariant c c)
    (h : List.Forall₂ (PctToken.Variant charVariant) tokens tokens')
    (hvalid : TokensValid set tokens) :
    List.Forall₂ charVariant (tokens.map PctToken.decode) (tokens'.map PctToken.decode) := by
  induction h with
  | nil => exact .nil
  | cons ht _ ih =>
    simp only [TokensValid, List.mem_cons, forall_eq_or_imp] at hvalid
    exact .cons (ht.decode hrefl hvalid.1) (ih hvalid.2)

theorem renderTokens_variant (hcase : ∀ c c', charVariant c c' → SameUpToCase c c')
    (h : List.Forall₂ (PctToken.Variant charVariant) tokens tokens') :
    List.Forall₂ SameUpToCase (renderTokens tokens) (renderTokens tokens') := by
  induction h with
  | nil => exact .nil
  | cons ht _ ih => exact List.rel_append (ht.render hcase) ih

end Tokens

/-! ## Case variants of references -/

/-- Elements whose escapes differ at most in the case of their digits. -/
abbrev EscapeVariant : List PctToken → List PctToken → Prop :=
  List.Forall₂ (PctToken.Variant Eq)

/-- Hosts that differ at most in the letter case of a reg-name, escapes included. -/
def Host.CaseVariant : Host → Host → Prop
  | .ipLiteral text, .ipLiteral text' => text = text'
  | .regName tokens, .regName tokens' =>
    List.Forall₂ (PctToken.Variant SameUpToCase) tokens tokens'
  | _, _ => False

/-- Authorities that differ at most in the letter case of the reg-name and of escapes. -/
def Authority.CaseVariant (a a' : Authority) : Prop :=
  Option.Rel EscapeVariant a.userinfo a'.userinfo ∧ a.host.CaseVariant a'.host ∧ a.port = a'.port

/-- References equal up to the letter case of the scheme, of a reg-name and of escapes' digits. -/
def Reference.CaseVariant (r r' : Reference) : Prop :=
  Option.Rel (List.Forall₂ SameUpToCase) r.scheme r'.scheme ∧
  Option.Rel Authority.CaseVariant r.authority r'.authority ∧
  List.Forall₂ EscapeVariant r.path r'.path ∧
  Option.Rel EscapeVariant r.query r'.query ∧
  Option.Rel EscapeVariant r.fragment r'.fragment

/-! ## The recomposed texts differ only in letter case -/

section Render

theorem EscapeVariant.render {e e' : List PctToken} (h : EscapeVariant e e') :
    List.Forall₂ SameUpToCase (renderTokens e) (renderTokens e') :=
  renderTokens_variant (fun (c c' : UInt8) (h : c = c') ↦ h ▸ sameUpToCase_refl c) h

theorem renderPath_variant {path path' : List (List PctToken)}
    (h : List.Forall₂ EscapeVariant path path') :
    List.Forall₂ SameUpToCase (renderPath path) (renderPath path') := by
  induction h with
  | nil => exact .nil
  | cons hsegment hrest ih =>
    rw [renderPath_cons, renderPath_cons]
    refine List.rel_append hsegment.render ?_
    cases hrest with
    | nil => exact .nil
    | cons _ _ => exact .cons (sameUpToCase_refl _) ih

theorem delimitedElement_variant (d : UInt8) {e e' : Option (List PctToken)}
    (h : Option.Rel EscapeVariant e e') :
    List.Forall₂ SameUpToCase (delimitedElement d e) (delimitedElement d e') := by
  cases h with
  | some h => exact .cons (sameUpToCase_refl d) h.render
  | none => exact .nil

theorem schemePrefix_variant {s s' : Option Bytes}
    (h : Option.Rel (List.Forall₂ SameUpToCase) s s') :
    List.Forall₂ SameUpToCase (schemePrefix s) (schemePrefix s') := by
  cases h with
  | some h => exact List.rel_append h (List.forall₂_refl _)
  | none => exact .nil

theorem Host.CaseVariant.render {host host' : Host} (h : host.CaseVariant host') :
    List.Forall₂ SameUpToCase host.render host'.render := by
  cases host <;> cases host' <;> simp only [Host.CaseVariant] at h
  · exact h ▸ List.forall₂_refl _
  · exact renderTokens_variant (fun _ _ h ↦ h) h

theorem Authority.CaseVariant.render {a a' : Authority} (h : a.CaseVariant a') :
    List.Forall₂ SameUpToCase a.render a'.render := by
  obtain ⟨userinfo, host, port⟩ := a
  obtain ⟨userinfo', host', port'⟩ := a'
  obtain ⟨hui, hhost, hport⟩ := h
  refine List.rel_append ?_ (List.rel_append hhost.render (hport ▸ List.forall₂_refl _))
  cases hui with
  | some h => exact List.rel_append h.render (List.forall₂_refl _)
  | none => exact .nil

/-- References that differ in letter case recompose to texts that differ in letter case. -/
theorem Reference.CaseVariant.recompose {r r' : Reference} (h : r.CaseVariant r') :
    List.Forall₂ SameUpToCase r.recompose r'.recompose := by
  obtain ⟨scheme, authority, path, query, fragment⟩ := r
  obtain ⟨scheme', authority', path', query', fragment'⟩ := r'
  obtain ⟨hscheme, hauth, hpath, hquery, hfragment⟩ := h
  refine List.rel_append (schemePrefix_variant hscheme) (List.rel_append (List.rel_append ?_
    (renderPath_variant hpath)) (List.rel_append (delimitedElement_variant _ hquery)
      (delimitedElement_variant _ hfragment)))
  cases hauth with
  | some h => exact .cons (sameUpToCase_refl _) (.cons (sameUpToCase_refl _) h.render)
  | none => exact .nil

end Render

theorem colon_mem_schemeWindow_iff {s s' : Bytes} (h : List.Forall₂ SameUpToCase s s') :
    ':'.toUInt8 ∈ schemeWindow s ↔ ':'.toUInt8 ∈ schemeWindow s' := by
  induction h with
  | nil => rfl
  | @cons x x' s s' hx _ ih =>
    have hslash := hx.eq_iff '/'.toUInt8 (by decide)
    have hcolon := hx.eq_iff ':'.toUInt8 (by decide)
    simp only [schemeWindow, List.takeWhile_cons] at ih ⊢
    by_cases h : x = '/'.toUInt8
    · simp [h, hslash.1 h]
    · have h' : x' ≠ '/'.toUInt8 := fun h' ↦ h (hslash.2 h')
      simp only [ne_eq, h, not_false_eq_true, decide_True, if_true, h', List.mem_cons, ih]
      rw [eq_comm, hcolon, eq_comm]

/-! ## Case variants of well-formed references are well-formed -/

theorem forall_mem_of_forall₂ {α β : Type} {R : α → β → Prop} {P : α → Prop} {Q : β → Prop}
    {l : List α} {l' : List β} (h : List.Forall₂ R l l') (hPQ : ∀ x y, R x y → P x → Q y)
    (hl : ∀ x ∈ l, P x) : ∀ y ∈ l', Q y := by
  induction h with
  | nil => exact fun _ h ↦ absurd h (List.not_mem_nil _)
  | cons hxy _ ih =>
    simp only [List.mem_cons, forall_eq_or_imp] at hl ⊢
    exact ⟨hPQ _ _ hxy hl.1, ih hl.2⟩

theorem option_forall_of_rel {α β : Type} {R : α → β → Prop} {P : α → Prop} {Q : β → Prop}
    {o : Option α} {o' : Option β} (h : Option.Rel R o o') (hPQ : ∀ x y, R x y → P x → Q y)
    (ho : ∀ x, o = some x → P x) : ∀ y, o' = some y → Q y := by
  cases h with
  | some hxy => exact fun _ hy ↦ Option.some.inj hy ▸ hPQ _ _ hxy (ho _ rfl)
  | none => exact fun _ hy ↦ absurd hy (by simp)

theorem IsScheme.of_variant {s s' : Bytes} (h : List.Forall₂ SameUpToCase s s')
    (hs : IsScheme s) : IsScheme s' := by
  cases h with
  | nil => exact hs.elim
  | cons hc hrest =>
    exact ⟨alpha_caseClosed _ _ hc hs.1,
      forall_mem_of_forall₂ hrest (fun x y hxy ↦ schemeNotFirst_caseClosed x y hxy) hs.2⟩

theorem EscapeVariant.valid {set : CharacterSet} {e e' : List PctToken} (h : EscapeVariant e e')
    (he : TokensValid set e) : TokensValid set e' :=
  tokensValid_of_variant (fun (c c' : UInt8) (h : c = c') hc ↦ h ▸ hc) h he

theorem EscapeVariant.eq_nil_iff {e e' : List PctToken} (h : EscapeVariant e e') :
    e = [] ↔ e' = [] := by
  cases h <;> simp

theorem EscapeVariant.char_mem_iff {e e' : List PctToken} (h : EscapeVariant e e') (c : UInt8) :
    PctToken.char c ∈ e ↔ PctToken.char c ∈ e' := by
  induction h with
  | nil => simp
  | @cons t t' _ _ ht _ ih =>
    simp only [List.mem_cons, ih]
    cases t <;> cases t' <;> simp only [PctToken.Variant] at ht <;> simp [ht]

theorem ne_nil_of_variant {rest rest' : List (List PctToken)}
    (h : List.Forall₂ EscapeVariant rest rest') (hrest : rest ≠ []) : rest' ≠ [] := by
  rintro rfl
  exact hrest (List.forall₂_nil_right_iff.1 h)

section Paths

variable {path path' : List (List PctToken)} (h : List.Forall₂ EscapeVariant path path')
include h

theorem PathAbempty.of_variant (hp : PathAbempty path) : PathAbempty path' := by
  rcases hp with rfl | ⟨rest, rfl, hrest⟩
  · exact Or.inl (List.forall₂_nil_left_iff.1 h)
  · obtain ⟨segment, rest', hsegment, hrest', rfl⟩ := List.forall₂_cons_left_iff.1 h
    exact Or.inr ⟨rest', by rw [hsegment.eq_nil_iff.1 rfl], ne_nil_of_variant hrest' hrest⟩

theorem PathRootless.of_variant (hp : PathRootless path) : PathRootless path' := by
  obtain ⟨first, rest, rfl, hfirst⟩ := hp
  obtain ⟨first', rest', hfirst', -, rfl⟩ := List.forall₂_cons_left_iff.1 h
  exact ⟨first', rest', rfl, mt hfirst'.eq_nil_iff.2 hfirst⟩

theorem PathNoscheme.of_variant (hp : PathNoscheme path) : PathNoscheme path' := by
  obtain ⟨first, rest, rfl, hfirst, hcolon⟩ := hp
  obtain ⟨first', rest', hfirst', -, rfl⟩ := List.forall₂_cons_left_iff.1 h
  exact ⟨first', rest', rfl, mt hfirst'.eq_nil_iff.2 hfirst,
    mt (hfirst'.char_mem_iff _).2 hcolon⟩

theorem PathAbsolute.of_variant (hp : PathAbsolute path) : PathAbsolute path' := by
  rcases hp with rfl | ⟨first, rest, rfl, hfirst⟩
  · obtain ⟨a, rest, ha, hrest, rfl⟩ := List.forall₂_cons_left_iff.1 h
    obtain ⟨b, rest', hb, hrest', rfl⟩ := List.forall₂_cons_left_iff.1 hrest
    rw [ha.eq_nil_iff.1 rfl, hb.eq_nil_iff.1 rfl, List.forall₂_nil_left_iff.1 hrest']
    exact Or.inl rfl
  · obtain ⟨a, tail, ha, htail, rfl⟩ := List.forall₂_cons_left_iff.1 h
    obtain ⟨first', rest', hfirst', -, rfl⟩ := List.forall₂_cons_left_iff.1 htail
    exact Or.inr ⟨first', rest', by rw [ha.eq_nil_iff.1 rfl], mt hfirst'.eq_nil_iff.2 hfirst⟩

theorem PathWellFormed.of_variant {hasScheme hasAuthority : Bool}
    (hp : PathWellFormed hasScheme hasAuthority path) :
    PathWellFormed hasScheme hasAuthority path' := by
  unfold PathWellFormed at hp ⊢
  split_ifs at hp ⊢
  · exact hp.of_variant h
  · rcases hp with hp | hp | rfl
    · exact Or.inl (hp.of_variant h)
    · exact Or.inr (Or.inl (hp.of_variant h))
    · exact Or.inr (Or.inr (List.forall₂_nil_left_iff.1 h))
  · rcases hp with hp | hp | rfl
    · exact Or.inl (hp.of_variant h)
    · exact Or.inr (Or.inl (hp.of_variant h))
    · exact Or.inr (Or.inr (List.forall₂_nil_left_iff.1 h))

end Paths

theorem isSome_eq_of_rel {α β : Type} {R : α → β → Prop} {o : Option α} {o' : Option β}
    (h : Option.Rel R o o') : o.isSome = o'.isSome := by
  cases h <;> rfl

theorem Host.CaseVariant.wellFormed {host host' : Host} (h : host.CaseVariant host')
    (hw : host.WellFormed) : host'.WellFormed := by
  cases host <;> cases host' <;> simp only [Host.CaseVariant] at h
  · exact h ▸ hw
  · exact tokensValid_of_variant regNameNotPctEncoded_caseClosed h hw

theorem Authority.CaseVariant.valid {a a' : Authority} (h : a.CaseVariant a')
    (ha : a.Valid Host.WellFormed) : a'.Valid Host.WellFormed := by
  obtain ⟨hui, hhost, hport⟩ := h
  obtain ⟨hu, hh, hp⟩ := ha
  exact ⟨option_forall_of_rel hui (fun _ _ h ↦ h.valid) hu, hhost.wellFormed hh, hport ▸ hp⟩

/-- A case variant of a well-formed reference is well-formed. -/
theorem Reference.CaseVariant.wellFormed {r r' : Reference} (h : r.CaseVariant r')
    (hr : r.WellFormed) : r'.WellFormed := by
  obtain ⟨hscheme, hauth, hpath, hquery, hfragment⟩ := h
  obtain ⟨⟨hs, ha, hp, hq, hf⟩, hpw⟩ := hr
  refine ⟨⟨option_forall_of_rel hscheme (fun _ _ h ↦ IsScheme.of_variant h) hs,
    option_forall_of_rel hauth (fun _ _ h ↦ h.valid) ha,
    forall_mem_of_forall₂ hpath (fun _ _ h ↦ h.valid) hp,
    option_forall_of_rel hquery (fun _ _ h ↦ h.valid) hq,
    option_forall_of_rel hfragment (fun _ _ h ↦ h.valid) hf⟩, ?_⟩
  rw [← isSome_eq_of_rel hscheme, ← isSome_eq_of_rel hauth]
  exact hpw.of_variant hpath

/-! ## Case variants are parsed alike -/

/-- `ParseFromString` accepts case variants alike. -/
theorem Reference.CaseVariant.accepted {r r' : Reference} (h : r.CaseVariant r') :
    r.accepted = r'.accepted := by
  obtain ⟨scheme, authority, path, query, fragment⟩ := r
  obtain ⟨scheme', authority', path', query', fragment'⟩ := r'
  obtain ⟨-, hauth, -⟩ := h
  cases hauth with
  | none => rfl
  | @some a a' ha =>
    obtain ⟨userinfo, host, port⟩ := a
    obtain ⟨userinfo', host', port'⟩ := a'
    obtain ⟨-, hhost, hport⟩ := ha
    cases host <;> cases host' <;> simp only [Host.CaseVariant] at hhost
    all_goals simp_all [Reference.accepted, Authority.accepted, Host.accepted]

theorem EscapeVariant.decode_eq {set : CharacterSet} {e e' : List PctToken}
    (h : EscapeVariant e e') (he : TokensValid set e) :
    e.map PctToken.decode = e'.map PctToken.decode := by
  have := decode_of_variant (fun _ ↦ rfl) h he
  rwa [List.forall₂_eq_eq_eq] at this

theorem option_decode_eq {set : CharacterSet} {e e' : Option (List PctToken)}
    (h : Option.Rel EscapeVariant e e') (he : ∀ x, e = some x → TokensValid set x) :
    (e.getD []).map PctToken.decode = (e'.getD []).map PctToken.decode := by
  cases h with
  | some h => exact h.decode_eq (he _ rfl)
  | none => rfl

theorem Host.CaseVariant.stored {host host' : Host} (h : host.CaseVariant host')
    (hw : host.WellFormed) : host.stored = host'.stored := by
  cases host <;> cases host' <;> simp only [Host.CaseVariant] at h
  · rw [h]
  · exact map_toLower_eq (decode_of_variant sameUpToCase_refl h hw)

theorem Reference.CaseVariant.authorityFields {r r' : Reference} (h : r.CaseVariant r')
    (hr : r.WellFormed) (u : Impl) : r.authorityFields u = r'.authorityFields u := by
  obtain ⟨scheme, authority, path, query, fragment⟩ := r
  obtain ⟨scheme', authority', path', query', fragment'⟩ := r'
  obtain ⟨-, hauth, -⟩ := h
  cases hauth with
  | none => rfl
  | @some a a' ha =>
    obtain ⟨hu, hh, -⟩ := hr.1.2.1 a rfl
    obtain ⟨hui, hhost, hport⟩ := ha
    simp only [Reference.authorityFields, Authority.fields, Authority.portText, hport,
      option_decode_eq hui hu, hhost.stored hh]

theorem map_decode_eq_of_variant {path path' : List (List PctToken)}
    (h : List.Forall₂ EscapeVariant path path')
    (hp : ∀ segment ∈ path, TokensValid pcharNotPctEncoded segment) :
    path.map (·.map PctToken.decode) = path'.map (·.map PctToken.decode) := by
  induction h with
  | nil => rfl
  | cons hs _ ih =>
    simp only [List.mem_cons, forall_eq_or_imp] at hp
    rw [List.map_cons, List.map_cons, hs.decode_eq hp.1, ih hp.2]

theorem storedPath_eq_of_variant {path path' : List (List PctToken)}
    (h : List.Forall₂ EscapeVariant path path')
    (hp : ∀ segment ∈ path, TokensValid pcharNotPctEncoded segment) (host : Bytes) :
    storedPath host path = storedPath host path' := by
  have hmap := map_decode_eq_of_variant h hp
  have hshape : ∀ q : List (List PctToken), q = [[], []] ∨ (q = [] ∧ host ≠ []) ↔
      q.map (·.map PctToken.decode) = [[], []] ∨
        (q.map (·.map PctToken.decode) = [] ∧ host ≠ []) := by
    intro q
    rcases q with _ | ⟨a, _ | ⟨b, _ | ⟨c, q⟩⟩⟩ <;> simp
  unfold storedPath
  rw [hmap]
  simp only [hshape path, hshape path', hmap]

/-- References that differ in letter case have the same fields. -/
theorem Reference.CaseVariant.fields {r r' : Reference} (h : r.CaseVariant r')
    (hr : r.WellFormed) (stalePort : UInt16) : r.fields stalePort = r'.fields stalePort := by
  have hauth := h.authorityFields hr { port := stalePort }
  obtain ⟨scheme, authority, path, query, fragment⟩ := r
  obtain ⟨scheme', authority', path', query', fragment'⟩ := r'
  obtain ⟨hscheme, -, hpath, hquery, hfragment⟩ := h
  obtain ⟨⟨-, -, hp, hq, hf⟩, -⟩ := hr
  have hs : (scheme.getD []).map toLower = (scheme'.getD []).map toLower := by
    cases hscheme with
    | some h => exact map_toLower_eq h
    | none => rfl
  simp only [Reference.fields, hauth, hs, storedPath_eq_of_variant hpath hp,
    option_decode_eq hquery hq, option_decode_eq hfragment hf, isSome_eq_of_rel hquery,
    isSome_eq_of_rel hfragment]

theorem equals_fields (r : Reference) (p₁ p₂ : UInt16) :
    equals (r.fields p₁) (r.fields p₂) = true := by
  unfold Reference.fields Reference.authorityFields
  cases r.authority with
  | none => simp [equals, Option.isSome_iff_ne_none, em]
  | some a =>
    cases h : a.portText <;> simp [equals, Authority.fields, h, Option.isSome_iff_ne_none, em]

/-- Texts of the grammar differing in the case of the scheme, a reg-name or escapes' digits are
both rejected, or both accepted with values equal under `operator==`, from any values. -/
theorem parseFromString_caseVariant {r r' : Reference} (hr : r.WellFormed)
    (hv : r.CaseVariant r') (u₁ u₂ : Impl) :
    (parseFromString u₁ r.recompose = none ∧ parseFromString u₂ r'.recompose = none) ∨
      ∃ v₁ v₂, parseFromString u₁ r.recompose = some v₁ ∧
        parseFromString u₂ r'.recompose = some v₂ ∧ equals v₁ v₂ = true := by
  have hr' := hv.wellFormed hr
  have hwindow := colon_mem_schemeWindow_iff hv.recompose
  have hscheme : r.scheme = none ↔ r'.scheme = none := by
    rw [← Option.not_isSome_iff_eq_none, ← Option.not_isSome_iff_eq_none, isSome_eq_of_rel hv.1]
  by_cases hw : r.scheme = none ∧ ':'.toUInt8 ∈ schemeWindow r.recompose
  · exact Or.inl ⟨parseFromString_recompose_of_colon hr hw.1 hw.2 u₁,
      parseFromString_recompose_of_colon hr' (hscheme.1 hw.1) (hwindow.1 hw.2) u₂⟩
  · have hd := hr.delimited fun hs hc ↦ hw ⟨hs, hc⟩
    have hd' := hr'.delimited fun hs hc ↦ hw ⟨hscheme.2 hs, hwindow.2 hc⟩
    rw [parseFromString_recompose hd, parseFromString_recompose hd', ← hv.accepted,
      ← hv.fields hr]
    cases r.accepted
    · exact Or.inl ⟨rfl, rfl⟩
    · exact Or.inr ⟨_, _, rfl, rfl, equals_fields r _ _⟩

/-- `S://A/%7e` and `s://a/%7E` parse to equal values. -/
theorem parseFromString_caseVariant_scheme_host :
    ∃ r r' : Reference, r.recompose = bytesOf "S://A/%7e" ∧ r'.recompose = bytesOf "s://a/%7E" ∧
      r.WellFormed ∧ r.CaseVariant r' ∧
      ((parseFromString default r.recompose = none ∧
          parseFromString default r'.recompose = none) ∨
        ∃ v₁ v₂, parseFromString default r.recompose = some v₁ ∧
          parseFromString default r'.recompose = some v₂ ∧ equals v₁ v₂ = true) := by
  have hr : Reference.WellFormed ⟨some (bytesOf "S"),
      some ⟨none, .regName [.char 'A'.toUInt8], none⟩,
      [[], [.triplet '7'.toUInt8 'e'.toUInt8]], none, none⟩ := by
    refine ⟨⟨?_, ?_, ?_, by simp, by simp⟩, by simp [PathWellFormed, PathAbempty]⟩
    · simp only [Option.some.injEq, forall_eq']
      decide
    · simp only [Option.some.injEq, forall_eq']
      exact ⟨by simp, show TokensValid _ _ by decide, by simp⟩
    · decide
  have hv : Reference.CaseVariant ⟨some (bytesOf "S"),
      some ⟨none, .regName [.char 'A'.toUInt8], none⟩,
      [[], [.triplet '7'.toUInt8 'e'.toUInt8]], none, none⟩
      ⟨some (bytesOf "s"), some ⟨none, .regName [.char 'a'.toUInt8], none⟩,
      [[], [.triplet '7'.toUInt8 'E'.toUInt8]], none, none⟩ :=
    ⟨.some (.cons (by decide) .nil), .some ⟨.none, show List.Forall₂ _ _ _ from
      .cons (show SameUpToCase _ _ by decide) .nil, rfl⟩,
      .cons .nil (.cons (.cons ⟨by decide, by decide⟩ .nil) .nil), .none, .none⟩
  refine ⟨_, _, ?_, ?_, hr, hv, parseFromString_caseVariant hr hv default default⟩ <;> rfl

end Uri
