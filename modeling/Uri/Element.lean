import Uri.Basic

/-!
# The element codec

Every part of a URI other than the scheme and the port is an *element*: characters of a
restricted set, or `pct-encoded` triplets `%` HEXDIG HEXDIG. `DecodeElement` checks and decodes
one, driving the percent decoder of `PercentEncodedCharacterDecoder.hpp` (which the sources only
include, so it is modelled from the spec); `EncodeElement` escapes every octet outside a set.

Reading an element as a list of `PctToken`s, decoding is a run of the decoder loop over the
tokens' text (`decodeElement_render`), and encoding produces such a text
(`encodeElement_eq_render`). Together they give the codec law `decodeElement_encodeElement`.
The loop has no case for an element that ends inside an escape: it then succeeds and drops
the open escape (`decodeElement_truncated_escape`).
-/

namespace Uri

open CharacterSet

/-! ## The percent decoder -/

/-- Modelled from the spec: the value of a hexadecimal digit, as the percent decoder reads it. -/
def hexDigitValue (c : UInt8) : Nat :=
  if digit.contains c then c.toNat - '0'.toNat
  else if (range 'A' 'F').contains c then c.toNat - 'A'.toNat + 10
  else c.toNat - 'a'.toNat + 10

/-- Modelled from the spec (its `.hpp` is not in the sources): two hex digits, high digit first. -/
inductive PercentEncodedCharacterDecoder where
  | firstDigit
  | secondDigit (high : Nat)
  | complete (decoded : UInt8)
  deriving DecidableEq, Repr

namespace PercentEncodedCharacterDecoder

/-- Modelled from the spec: `NextEncodedCharacter`, `none` where the character is no hex digit. -/
def nextEncodedCharacter : PercentEncodedCharacterDecoder → UInt8 →
    Option PercentEncodedCharacterDecoder
  | firstDigit, c => if hexdig.contains c then some (secondDigit (hexDigitValue c)) else none
  | secondDigit high, c =>
    if hexdig.contains c then some (complete (high * 16 + hexDigitValue c).toUInt8)
    else none
  | complete decoded, _ => some (complete decoded)

/-- Modelled from the spec: `Done`. -/
def done : PercentEncodedCharacterDecoder → Bool
  | complete _ => true
  | _ => false

/-- Modelled from the spec: `GetDecodedCharacter`, meaningful once `done` holds. -/
def getDecodedCharacter : PercentEncodedCharacterDecoder → UInt8
  | complete decoded => decoded
  | _ => 0

end PercentEncodedCharacterDecoder

open PercentEncodedCharacterDecoder

/-! ## `DecodeElement` -/

/-- The variables of `DecodeElement`'s loop. -/
structure DecodeState where
  decodingPec : Bool
  pecDecoder : PercentEncodedCharacterDecoder
  element : Bytes

/-- One iteration of `DecodeElement`'s loop; `none` is `return false`. -/
def decodeStep (allowedCharacters : CharacterSet) (s : DecodeState) (c : UInt8) :
    Option DecodeState :=
  if s.decodingPec then
    match s.pecDecoder.nextEncodedCharacter c with
    | none => none
    | some d =>
      if d.done then some ⟨false, d, s.element ++ [d.getDecodedCharacter]⟩
      else some ⟨true, d, s.element⟩
  else if c = '%'.toUInt8 then some ⟨true, firstDigit, s.element⟩
  else if allowedCharacters.contains c then some ⟨false, s.pecDecoder, s.element ++ [c]⟩
  else none

/-- `DecodeElement`: the decoded element, or `none` where it returns false. -/
def decodeElement (element : Bytes) (allowedCharacters : CharacterSet) : Option Bytes :=
  (element.foldlM (decodeStep allowedCharacters) ⟨false, firstDigit, []⟩).map (·.element)

/-- The loop does not check that no escape is open when the element ends. -/
theorem decodeElement_truncated_escape (allowedCharacters : CharacterSet) :
    decodeElement (bytesOf "%") allowedCharacters = some [] ∧
      decodeElement (bytesOf "%4") allowedCharacters = some [] :=
  ⟨rfl, rfl⟩

/-! ## Elements as tokens -/

/-- One unit of an element's text: a character standing for itself, or a `pct-encoded` triplet. -/
inductive PctToken where
  | char (c : UInt8)
  | triplet (high low : UInt8)
  deriving DecidableEq, Repr

namespace PctToken

/-- The text of a token. -/
def render : PctToken → Bytes
  | char c => [c]
  | triplet high low => ['%'.toUInt8, high, low]

/-- The octet a token stands for. -/
def decode : PctToken → UInt8
  | char c => c
  | triplet high low => (hexDigitValue high * 16 + hexDigitValue low).toUInt8

/-- A token of an element whose unescaped characters are those of `allowed`. -/
def Valid (allowed : CharacterSet) : PctToken → Prop
  | char c => allowed.contains c = true
  | triplet high low => hexdig.contains high = true ∧ hexdig.contains low = true

instance (allowed : CharacterSet) : DecidablePred (Valid allowed) := fun t ↦ by
  cases t <;> unfold Valid <;> infer_instance

end PctToken

/-- The text of a list of tokens. -/
def renderTokens (tokens : List PctToken) : Bytes := tokens.flatMap PctToken.render

@[simp]
theorem renderTokens_nil : renderTokens [] = [] := rfl

@[simp]
theorem renderTokens_cons (t : PctToken) (tokens : List PctToken) :
    renderTokens (t :: tokens) = t.render ++ renderTokens tokens := rfl

@[simp]
theorem renderTokens_append (a b : List PctToken) :
    renderTokens (a ++ b) = renderTokens a ++ renderTokens b := by
  simp [renderTokens]

section Decode

variable {allowed : CharacterSet}

theorem decodeStep_char {c : UInt8} (d : PercentEncodedCharacterDecoder) (out : Bytes)
    (hc : allowed.contains c = true) (hpct : allowed.contains '%'.toUInt8 = false) :
    decodeStep allowed ⟨false, d, out⟩ c = some ⟨false, d, out ++ [c]⟩ := by
  have hne : c ≠ '%'.toUInt8 := by
    rintro rfl
    simp_all
  simp [decodeStep, hne, hc]

theorem decodeSteps_triplet {high low : UInt8} (d : PercentEncodedCharacterDecoder) (out : Bytes)
    (hh : hexdig.contains high = true) (hl : hexdig.contains low = true) :
    (PctToken.triplet high low).render.foldlM (decodeStep allowed) ⟨false, d, out⟩ =
      some ⟨false, complete (PctToken.triplet high low).decode,
        out ++ [(PctToken.triplet high low).decode]⟩ := by
  simp only [PctToken.render, PctToken.decode, List.foldlM_cons, List.foldlM_nil, decodeStep,
    nextEncodedCharacter, hh, hl, done, getDecodedCharacter, if_true, Bool.false_eq_true, if_false,
    Option.bind_eq_bind, Option.some_bind]
  rfl

theorem foldlM_decodeStep_renderTokens (hpct : allowed.contains '%'.toUInt8 = false)
    (tokens : List PctToken) (hvalid : ∀ t ∈ tokens, t.Valid allowed) :
    ∀ d out, ∃ d', (renderTokens tokens).foldlM (decodeStep allowed) ⟨false, d, out⟩ =
      some ⟨false, d', out ++ tokens.map PctToken.decode⟩ := by
  induction tokens with
  | nil => exact fun d out ↦ ⟨d, by simp⟩
  | cons t tokens ih =>
    intro d out
    simp only [List.mem_cons, forall_eq_or_imp] at hvalid
    have hstep : ∃ d', t.render.foldlM (decodeStep allowed) ⟨false, d, out⟩ =
        some ⟨false, d', out ++ [t.decode]⟩ := by
      cases t with
      | char c => exact ⟨d, by simp [PctToken.render, PctToken.decode,
          decodeStep_char d out hvalid.1 hpct]⟩
      | triplet high low => exact ⟨_, decodeSteps_triplet d out hvalid.1.1 hvalid.1.2⟩
    obtain ⟨d₁, h₁⟩ := hstep
    obtain ⟨d₂, h₂⟩ := ih hvalid.2 d₁ (out ++ [t.decode])
    exact ⟨d₂, by simp [List.foldlM_append, h₁, h₂]⟩

/-- An element made of valid tokens decodes to the octets they stand for. -/
theorem decodeElement_render (hpct : allowed.contains '%'.toUInt8 = false)
    (tokens : List PctToken) (hvalid : ∀ t ∈ tokens, t.Valid allowed) :
    decodeElement (renderTokens tokens) allowed = some (tokens.map PctToken.decode) := by
  obtain ⟨d, h⟩ := foldlM_decodeStep_renderTokens hpct tokens hvalid firstDigit []
  simp [decodeElement, h]

/-! ## What `DecodeElement` accepts -/

/-- The end of an element `DecodeElement` leaves open: nothing, `%`, or `%` and one hex digit. -/
def OpenEscape (rest : Bytes) : Prop :=
  rest = [] ∨ rest = ['%'.toUInt8] ∨
    ∃ high, hexdig.contains high = true ∧ rest = ['%'.toUInt8, high]

/-- What `DecodeElement`'s loop has read at `s`: valid tokens, then the open escape it records. -/
def DecodeState.Read (allowed : CharacterSet) (s : DecodeState) (element : Bytes) : Prop :=
  ∃ tokens : List PctToken, (∀ t ∈ tokens, t.Valid allowed) ∧
    s.element = tokens.map PctToken.decode ∧
    (element = renderTokens tokens ∧ s.decodingPec = false ∨
      element = renderTokens tokens ++ ['%'.toUInt8] ∧ s.decodingPec = true ∧
        s.pecDecoder = firstDigit ∨
      ∃ high, hexdig.contains high = true ∧ element = renderTokens tokens ++ ['%'.toUInt8, high] ∧
        s.decodingPec = true ∧ s.pecDecoder = secondDigit (hexDigitValue high))

theorem DecodeState.Read.decodeStep {s s' : DecodeState} {element : Bytes} {c : UInt8}
    (h : s.Read allowed element) (hstep : decodeStep allowed s c = some s') :
    s'.Read allowed (element ++ [c]) := by
  obtain ⟨decodingPec, d, out⟩ := s
  obtain ⟨tokens, hvalid, rfl, ⟨rfl, hpec⟩ | ⟨rfl, hpec, hd⟩ | ⟨high, hhigh, rfl, hpec, hd⟩⟩ := h
  · -- between escapes: a `%` opens one, a character of the set is a token
    dsimp only at hpec
    subst hpec
    simp only [Uri.decodeStep, Bool.false_eq_true, if_false] at hstep
    split_ifs at hstep with hc hallowed <;> cases hstep
    · exact ⟨tokens, hvalid, rfl, .inr (.inl ⟨by simp [hc], rfl, rfl⟩)⟩
    · refine ⟨tokens ++ [.char c], ?_, by simp [PctToken.decode], .inl ⟨by simp [PctToken.render],
        rfl⟩⟩
      exact List.forall_mem_append.2 ⟨hvalid, List.forall_mem_singleton.2 hallowed⟩
  · -- after a `%`: a first digit
    dsimp only at hpec hd
    subst hpec hd
    simp only [Uri.decodeStep, if_true, nextEncodedCharacter] at hstep
    split_ifs at hstep with hc
    cases hstep
    exact ⟨tokens, hvalid, rfl, .inr (.inr ⟨c, hc, by simp, rfl, rfl⟩)⟩
  · -- after a `%` and a digit: the escape is complete
    dsimp only at hpec hd
    subst hpec hd
    simp only [Uri.decodeStep, if_true, nextEncodedCharacter] at hstep
    split_ifs at hstep with hc
    cases hstep
    refine ⟨tokens ++ [.triplet high c], ?_, by simp [PctToken.decode, getDecodedCharacter],
      .inl ⟨by simp [PctToken.render], rfl⟩⟩
    exact List.forall_mem_append.2 ⟨hvalid, List.forall_mem_singleton.2 ⟨hhigh, hc⟩⟩

/-- `DecodeElement`'s loop over any text ends in a state that has read it. -/
theorem foldlM_decodeStep_read {element : Bytes} {s : DecodeState}
    (h : element.foldlM (decodeStep allowed) ⟨false, firstDigit, []⟩ = some s) :
    s.Read allowed element := by
  induction element using List.reverseRecOn generalizing s with
  | nil =>
    cases h
    exact ⟨[], by simp, rfl, .inl ⟨rfl, rfl⟩⟩
  | append_singleton element c ih =>
    simp only [List.foldlM_append, List.foldlM_cons, List.foldlM_nil, Option.bind_eq_bind,
      Option.bind_eq_some, bind_pure] at h
    obtain ⟨s₁, h₁, hstep⟩ := h
    exact (ih h₁).decodeStep hstep

/-- `DecodeElement` accepts exactly valid tokens followed by an open escape, which it drops,
and returns the octets the tokens stand for. -/
theorem decodeElement_eq_some_iff (hpct : allowed.contains '%'.toUInt8 = false)
    {element out : Bytes} :
    decodeElement element allowed = some out ↔
      ∃ tokens rest, (∀ t ∈ tokens, t.Valid allowed) ∧ OpenEscape rest ∧
        element = renderTokens tokens ++ rest ∧ out = tokens.map PctToken.decode := by
  constructor
  · intro h
    obtain ⟨s, hrun, rfl⟩ := Option.map_eq_some'.1 h
    obtain ⟨tokens, hvalid, hout, ⟨rfl, -⟩ | ⟨rfl, -⟩ | ⟨high, hhigh, rfl, -⟩⟩ :=
      foldlM_decodeStep_read hrun
    · exact ⟨tokens, [], hvalid, .inl rfl, by simp, hout⟩
    · exact ⟨tokens, _, hvalid, .inr (.inl rfl), rfl, hout⟩
    · exact ⟨tokens, _, hvalid, .inr (.inr ⟨high, hhigh, rfl⟩), rfl, hout⟩
  · rintro ⟨tokens, rest, hvalid, hrest, rfl, rfl⟩
    obtain ⟨d, hrun⟩ := foldlM_decodeStep_renderTokens hpct tokens hvalid firstDigit []
    have hhex : ∀ {high : UInt8}, hexdig.contains high = true →
        nextEncodedCharacter firstDigit high = some (secondDigit (hexDigitValue high)) := by
      intro high hhigh
      simp [nextEncodedCharacter, hhigh]
    rcases hrest with rfl | rfl | ⟨high, hhigh, rfl⟩
    · simp [decodeElement, hrun]
    · simp [decodeElement, List.foldlM_append, hrun, Uri.decodeStep]
    · simp [decodeElement, List.foldlM_append, hrun, Uri.decodeStep, hhex hhigh, done]

/-- `a%4`, a path segment that ends inside an escape. -/
theorem decodeElement_eq_some_iff_pchar :
    pcharNotPctEncoded.contains '%'.toUInt8 = false ∧
      (decodeElement (bytesOf "a%4") pcharNotPctEncoded = some (bytesOf "a") ↔
        ∃ tokens rest, (∀ t ∈ tokens, t.Valid pcharNotPctEncoded) ∧ OpenEscape rest ∧
          bytesOf "a%4" = renderTokens tokens ++ rest ∧
          bytesOf "a" = tokens.map PctToken.decode) :=
  ⟨by decide, decodeElement_eq_some_iff (by decide)⟩

end Decode

/-! ## `EncodeElement` -/

/-- `MakeHexDigit`. -/
def makeHexDigit (value : Nat) : UInt8 :=
  if value < 10 then (value + '0'.toNat).toUInt8 else (value - 10 + 'A'.toNat).toUInt8

/-- `EncodeElement`. -/
def encodeElement (element : Bytes) (allowedCharacters : CharacterSet) : Bytes :=
  element.flatMap fun c ↦
    if allowedCharacters.contains c then [c]
    else ['%'.toUInt8, makeHexDigit (c.toNat >>> 4), makeHexDigit (c.toNat &&& 0x0F)]

/-- The token `EncodeElement` writes for one octet. -/
def encodeToken (allowed : CharacterSet) (c : UInt8) : PctToken :=
  if allowed.contains c then .char c
  else .triplet (makeHexDigit (c.toNat >>> 4)) (makeHexDigit (c.toNat &&& 0x0F))

/-- `EncodeElement` writes the text of the tokens `encodeToken` makes. -/
theorem encodeElement_eq_render (element : Bytes) (allowed : CharacterSet) :
    encodeElement element allowed = renderTokens (element.map (encodeToken allowed)) := by
  simp only [encodeElement, renderTokens, List.flatMap_map]
  congr 1
  funext c
  by_cases h : allowed.contains c <;> simp [encodeToken, h, PctToken.render]

theorem makeHexDigit_spec : ∀ n < 16,
    hexdig.contains (makeHexDigit n) = true ∧ hexDigitValue (makeHexDigit n) = n := by
  decide

theorem encodeToken_valid_decode (allowed : CharacterSet) (c : UInt8) :
    (encodeToken allowed c).Valid allowed ∧ (encodeToken allowed c).decode = c := by
  have hc := c.toNat_lt
  have hhigh : c.toNat >>> 4 < 16 := by
    rw [Nat.shiftRight_eq_div_pow]
    omega
  have hlow : c.toNat &&& 0x0F < 16 := Nat.lt_of_le_of_lt Nat.and_le_right (by norm_num)
  have hsplit : (c.toNat >>> 4) * 16 + (c.toNat &&& 0x0F) = c.toNat := by
    rw [Nat.shiftRight_eq_div_pow, show (0x0F : Nat) = 2 ^ 4 - 1 by rfl,
      Nat.and_pow_two_sub_one_eq_mod]
    omega
  obtain ⟨hh, vh⟩ := makeHexDigit_spec _ hhigh
  obtain ⟨hl, vl⟩ := makeHexDigit_spec _ hlow
  unfold encodeToken
  split_ifs with h
  · exact ⟨h, rfl⟩
  · refine ⟨⟨hh, hl⟩, ?_⟩
    simp only [PctToken.decode, vh, vl, hsplit, toUInt8_toNat]

@[simp]
theorem decode_encodeToken (allowed : CharacterSet) (c : UInt8) :
    (encodeToken allowed c).decode = c :=
  (encodeToken_valid_decode allowed c).2

theorem encodeToken_valid_of_subset {E D : CharacterSet}
    (hsub : ∀ c, E.contains c = true → D.contains c = true) (c : UInt8) :
    (encodeToken E c).Valid D := by
  have hv := (encodeToken_valid_decode E c).1
  unfold encodeToken at hv ⊢
  split_ifs at hv ⊢ with h
  · exact hsub c hv
  · exact hv

/-- Decoding with a set `D` reverses encoding with a set `E ⊆ D` that leaves `%` to escapes. -/
theorem decodeElement_encodeElement (s : Bytes) {E D : CharacterSet}
    (hsub : ∀ c, E.contains c = true → D.contains c = true)
    (hpct : D.contains '%'.toUInt8 = false) :
    decodeElement (encodeElement s E) D = some s := by
  rw [encodeElement_eq_render, decodeElement_render hpct]
  · simp [List.map_map, Function.comp_def]
  · simp only [List.mem_map]
    rintro t ⟨c, -, rfl⟩
    exact encodeToken_valid_of_subset hsub c

end Uri

namespace Uri

theorem queryNotPctEncodedWithoutPlus_subset (c : UInt8)
    (h : queryNotPctEncodedWithoutPlus.contains c = true) :
    queryOrFragmentNotPctEncoded.contains c = true :=
  CharacterSet.contains_of_ranges_le (by decide) c h

/-- A query with `+` and a space is decoded back from its encoding. -/
theorem decodeElement_encodeElement_query :
    queryOrFragmentNotPctEncoded.contains '%'.toUInt8 = false ∧
      decodeElement (encodeElement (bytesOf "a+b c") queryNotPctEncodedWithoutPlus)
        queryOrFragmentNotPctEncoded = some (bytesOf "a+b c") :=
  ⟨by decide, decodeElement_encodeElement _ queryNotPctEncodedWithoutPlus_subset (by decide)⟩

end Uri
