import Uri.Components

/-!
# The authority parser on rendered authorities

Runs of the host machine of `ParseAuthority`, one lemma a state, over the text of a delimited
host and a port: a reg-name's tokens in `NOT_IP_LITERAL`, an IP literal after its `[`, and
port text of any characters in `PORT` (`foldlM_step_render`). Together with `std::stoi` on a
run of digits they give `ParseAuthority` on the text of a delimited authority
(`parseAuthority_render`): the authority's fields where the host and the port are accepted,
and failure otherwise.

`std::stoi` stops at the first character that is not a digit, so the machine's port text need
not be digits for the parse to succeed (`parseAuthority_port_trailing_text`).
-/

namespace Uri

open PercentEncodedCharacterDecoder

/-! ## `std::stoi` -/

theorem stoi_digits {digits : Bytes} (h : ∀ c ∈ digits, digit.contains c = true)
    (hne : digits ≠ []) :
    stoi digits =
      if digitsValue digits < 2 ^ 31 then some (digitsValue digits : Int) else none := by
  obtain ⟨c, rest, rfl⟩ := List.exists_cons_of_ne_nil hne
  have hc := h c (List.mem_cons_self _ _)
  have hspace : isSpace c = false := by
    simp only [digit, CharacterSet.contains_range, Bool.and_eq_true, decide_eq_true_eq] at hc
    simp only [isSpace, Bool.or_eq_false_iff, beq_eq_false_iff_ne, ne_eq, Bool.and_eq_false_iff,
      decide_eq_false_iff_not]
    simp at hc
    omega
  have hsign : c ≠ '-'.toUInt8 ∧ c ≠ '+'.toUInt8 := by
    constructor <;> rintro rfl <;> exact absurd hc (by decide)
  have htake : (c :: rest).takeWhile digit.contains = c :: rest := List.takeWhile_eq_self_iff.2 h
  simp only [stoi, List.dropWhile_cons, hspace, Bool.false_eq_true, if_false, if_neg hsign.1,
    if_neg hsign.2, htake, List.isEmpty_cons, Int.ofNat_nonneg]
  split_ifs <;> first | rfl | omega

/-! ## The host machine -/

namespace HostParsing

theorem foldlM_step_port (text : Bytes) :
    ∀ p : HostParsing, p.hostParsingState = .port →
      text.foldlM step p = some { p with portString := p.portString ++ text } := by
  induction text with
  | nil => intro p _; simp
  | cons c text ih =>
    intro p hp
    have hstep : step p c = some { p with portString := p.portString ++ [c] } := by
      simp [step, hp]
    rw [List.foldlM_cons, hstep, Option.bind_eq_bind, Option.some_bind,
      ih { p with portString := p.portString ++ [c] } hp]
    simp

theorem foldlM_step_regName {tokens : List PctToken}
    (h : TokensValid regNameNotPctEncoded tokens) :
    ∀ p : HostParsing, p.hostParsingState = .notIpLiteral →
      ∃ d, (renderTokens tokens).foldlM step p =
        some { p with host := p.host ++ tokens.map PctToken.decode, pecDecoder := d } := by
  induction tokens with
  | nil => intro p _; exact ⟨p.pecDecoder, by simp⟩
  | cons t tokens ih =>
    intro p hp
    have hv := h t (List.mem_cons_self _ _)
    have hstep : ∃ d, t.render.foldlM step p =
        some { p with host := p.host ++ [t.decode], pecDecoder := d } := by
      cases t with
      | char c =>
        have hpct : c ≠ '%'.toUInt8 := by rintro rfl; exact absurd hv (by decide)
        have hcolon : c ≠ ':'.toUInt8 := by rintro rfl; exact absurd hv (by decide)
        refine ⟨p.pecDecoder, ?_⟩
        simp only [PctToken.render, PctToken.decode, List.foldlM_cons, List.foldlM_nil, step, hp,
          notIpLiteralStep, if_neg hpct, if_neg hcolon, show regNameNotPctEncoded.contains c = true
          from hv, if_true]
        rfl
      | triplet high low =>
        refine ⟨complete (PctToken.triplet high low).decode, ?_⟩
        simp only [PctToken.render, PctToken.decode, List.foldlM_cons, List.foldlM_nil, step, hp,
          notIpLiteralStep, if_true, if_false, Option.bind_eq_bind, Option.some_bind,
          nextEncodedCharacter, hv.1, hv.2, done, getDecodedCharacter, Bool.false_eq_true]
        rfl
    obtain ⟨d₁, h₁⟩ := hstep
    obtain ⟨d₂, h₂⟩ := ih (fun t ht ↦ h t (List.mem_cons_of_mem _ ht))
      { p with host := p.host ++ [t.decode], pecDecoder := d₁ } hp
    refine ⟨d₂, ?_⟩
    rw [renderTokens_cons, List.foldlM_append, h₁, Option.bind_eq_bind, Option.some_bind, h₂]
    simp

theorem rbracket_ne_of_ipvFutureLastPart {c : UInt8} (h : ipvFutureLastPart.contains c = true) :
    c ≠ ']'.toUInt8 := by
  rintro rfl
  exact absurd h (by decide)

theorem foldlM_step_ipv6Address (text : Bytes) (h : ']'.toUInt8 ∉ text) :
    ∀ p : HostParsing, p.hostParsingState = .ipv6Address →
      (text ++ [']'.toUInt8]).foldlM step p =
        if validateIpv6Address (p.host ++ text) then
          some { p with hostParsingState := .garbageCheck, host := p.host ++ text }
        else none := by
  induction text with
  | nil => intro p hp; simp [step, hp, ipv6AddressStep]
  | cons c text ih =>
    intro p hp
    have hc : c ≠ ']'.toUInt8 := fun hc ↦ h (hc ▸ List.mem_cons_self _ _)
    have hstep : step p c = some { p with host := p.host ++ [c] } := by
      simp [step, hp, ipv6AddressStep, hc]
    rw [List.cons_append, List.foldlM_cons, hstep, Option.bind_eq_bind, Option.some_bind,
      ih (fun h' ↦ h (List.mem_cons_of_mem _ h')) { p with host := p.host ++ [c] } hp]
    simp

theorem foldlM_step_ipvFutureBody (body : Bytes)
    (h : ∀ c ∈ body, ipvFutureLastPart.contains c = true) :
    ∀ p : HostParsing, p.hostParsingState = .ipvFutureBody →
      (body ++ [']'.toUInt8]).foldlM step p =
        some { p with hostParsingState := .garbageCheck, host := p.host ++ body } := by
  induction body with
  | nil => intro p hp; simp [step, hp]
  | cons c body ih =>
    intro p hp
    have hc := h c (List.mem_cons_self _ _)
    have hstep : step p c = some { p with host := p.host ++ [c] } := by
      simp [step, hp, rbracket_ne_of_ipvFutureLastPart hc, hc]
    rw [List.cons_append, List.foldlM_cons, hstep, Option.bind_eq_bind, Option.some_bind,
      ih (fun x hx ↦ h x (List.mem_cons_of_mem _ hx)) { p with host := p.host ++ [c] } hp]
    simp

theorem foldlM_step_ipvFutureNumber (rest : Bytes)
    (h : ∀ c ∈ rest, ipvFutureLastPart.contains c = true) :
    ∀ p : HostParsing, p.hostParsingState = .ipvFutureNumber →
      (rest ++ [']'.toUInt8]).foldlM step p =
        if ipvFutureAccepted rest then
          some { p with hostParsingState := .garbageCheck, host := p.host ++ rest }
        else none := by
  induction rest with
  | nil =>
    intro p hp
    simp [step, hp, ipvFutureAccepted, show ']'.toUInt8 ≠ '.'.toUInt8 by decide,
      show hexdig.contains ']'.toUInt8 = false by decide]
  | cons c rest ih =>
    intro p hp
    have hrest : ∀ x ∈ rest, ipvFutureLastPart.contains x = true :=
      fun x hx ↦ h x (List.mem_cons_of_mem _ hx)
    rw [List.cons_append, List.foldlM_cons]
    by_cases hdot : c = '.'.toUInt8
    · subst hdot
      have hstep : step p '.'.toUInt8 =
          some { p with hostParsingState := .ipvFutureBody, host := p.host ++ ['.'.toUInt8] } := by
        simp [step, hp]
      rw [hstep, Option.bind_eq_bind, Option.some_bind, foldlM_step_ipvFutureBody rest hrest _ rfl]
      simp [ipvFutureAccepted]
    · by_cases hhex : hexdig.contains c = true
      · have hstep : step p c = some { p with host := p.host ++ [c] } := by
          simp [step, hp, hdot, hhex]
        rw [hstep, Option.bind_eq_bind, Option.some_bind,
          ih hrest { p with host := p.host ++ [c] } hp]
        simp [ipvFutureAccepted, hdot, hhex, Ne.symm hdot]
      · have hstep : step p c = none := by simp [step, hp, hdot, hhex]
        simp [hstep, ipvFutureAccepted, hdot, hhex]

theorem foldlM_step_ipLiteral (text : Bytes)
    (h : ∀ c ∈ text, ipvFutureLastPart.contains c = true) (p : HostParsing)
    (hp : p.hostParsingState = .ipLiteral) (hhost : p.host = []) :
    (text ++ [']'.toUInt8]).foldlM step p =
      if ipLiteralAccepted text then
        some { p with hostParsingState := .garbageCheck, host := text }
      else none := by
  cases text with
  | nil =>
    simp [step, hp, hhost, ipv6AddressStep, ipLiteralAccepted,
      show ']'.toUInt8 ≠ 'v'.toUInt8 by decide]
  | cons c rest =>
    have hc := h c (List.mem_cons_self _ _)
    have hrest : ∀ x ∈ rest, ipvFutureLastPart.contains x = true :=
      fun x hx ↦ h x (List.mem_cons_of_mem _ hx)
    rw [List.cons_append, List.foldlM_cons]
    by_cases hv : c = 'v'.toUInt8
    · subst hv
      have hstep : step p 'v'.toUInt8 = some { p with
          host := p.host ++ ['v'.toUInt8], hostParsingState := .ipvFutureNumber } := by
        simp [step, hp]
      rw [hstep, Option.bind_eq_bind, Option.some_bind,
        foldlM_step_ipvFutureNumber rest hrest _ rfl]
      simp [ipLiteralAccepted, hhost]
    · have hstep : step p c = some { p with
          hostParsingState := .ipv6Address, host := p.host ++ [c] } := by
        simp [step, hp, hv, ipv6AddressStep, rbracket_ne_of_ipvFutureLastPart hc]
      rw [hstep, Option.bind_eq_bind, Option.some_bind,
        foldlM_step_ipv6Address rest (fun h' ↦ rbracket_ne_of_ipvFutureLastPart (hrest _ h') rfl)
          _ rfl]
      simp [ipLiteralAccepted, hhost, hv]

/-- The state after a first character other than `[`: the host is a reg-name. -/
def regNameInit : HostParsing :=
  { init with hostParsingState := .notIpLiteral, hostIsRegName := true }

theorem foldlM_step_init_cons {c : UInt8} (text : Bytes) (hc : c ≠ '['.toUInt8) :
    (c :: text).foldlM step init = (c :: text).foldlM step regNameInit := by
  simp only [List.foldlM_cons]
  congr 1
  simp [step, init, regNameInit, hc]

/-- What `ParseAuthority` reads off the last state: may a host end there, host, port text. -/
def outcome (p : HostParsing) : Bool × Bytes × Bytes :=
  (p.finished, if p.hostIsRegName then p.host.map toLower else p.host, p.portString)

theorem foldlM_step_ipLiteral_port {text : Bytes}
    (htext : ∀ c ∈ text, ipvFutureLastPart.contains c = true) (port : Option Bytes) :
    (((Host.ipLiteral text).render ++ portSuffix port).foldlM step init).map outcome =
      if ipLiteralAccepted text then some (true, text, port.getD []) else none := by
  have h₁ : step init '['.toUInt8 = some { init with hostParsingState := .ipLiteral } := by
    simp [step, init]
  rw [Host.render, List.cons_append, List.cons_append, List.foldlM_cons, h₁, Option.bind_eq_bind,
    Option.some_bind, List.foldlM_append,
    foldlM_step_ipLiteral text htext { init with hostParsingState := .ipLiteral } rfl rfl]
  cases hacc : ipLiteralAccepted text
  · simp
  · cases port with
    | none => simp [outcome, finished, init, portSuffix]
    | some port => simp [step, foldlM_step_port, outcome, finished, init, portSuffix]

theorem foldlM_step_regName_port {tokens : List PctToken}
    (htokens : TokensValid regNameNotPctEncoded tokens) (port : Option Bytes) :
    (((Host.regName tokens).render ++ portSuffix port).foldlM step init).map outcome =
      some (true, (Host.regName tokens).stored, port.getD []) := by
  obtain ⟨d, hd⟩ := foldlM_step_regName htokens regNameInit rfl
  have hrun : ((renderTokens tokens ++ portSuffix port).foldlM step regNameInit).map outcome =
      some (true, (Host.regName tokens).stored, port.getD []) := by
    rw [List.foldlM_append, hd]
    cases port <;> simp [portSuffix, step, notIpLiteralStep,
      show ':'.toUInt8 ≠ '%'.toUInt8 by decide, foldlM_step_port, outcome, finished, regNameInit,
      init, Host.stored]
  rw [Host.render]
  rcases htext : renderTokens tokens ++ portSuffix port with _ | ⟨c, text⟩
  · -- no text at all: no name and no port
    obtain ⟨hnil, hport⟩ := List.append_eq_nil.1 htext
    obtain rfl := renderTokens_eq_nil.1 hnil
    cases port
    · rfl
    · simp [portSuffix] at hport
  · -- the first character is the name's, or the `:` of the port
    have hc : c ≠ '['.toUInt8 := by
      rintro rfl
      rcases List.append_eq_cons_iff.1 htext with ⟨-, hport⟩ | ⟨a, hname, -⟩
      · cases port <;> simp [portSuffix] at hport
        exact absurd hport.1 (by decide)
      · exact not_mem_renderTokens htokens (by decide) (hname ▸ List.mem_cons_self _ _)
    rw [foldlM_step_init_cons text hc, ← htext, hrun]

/-- The machine over a host's text and any port text: the host as stored, where it is accepted. -/
theorem foldlM_step_render {host : Host} (hhost : host.Delimited) (port : Option Bytes) :
    ((host.render ++ portSuffix port).foldlM step init).map outcome =
      if host.accepted then some (true, host.stored, port.getD []) else none := by
  cases host with
  | ipLiteral text => exact foldlM_step_ipLiteral_port hhost port
  | regName tokens => exact foldlM_step_regName_port hhost port

end HostParsing

/-! ## `ParseAuthority` -/

/-- The start of `ParseAuthority` on a rendered authority: user information decoded, the rest. -/
theorem splitUserInfo_render {a : Authority} (ha : a.Valid Host.Delimited) :
    splitUserInfo a.render = some ((a.userinfo.getD []).map PctToken.decode, a.hostAndPort) := by
  have hat : ∀ c ∈ a.hostAndPort, c ∉ ['@'.toUInt8] := fun c hc h ↦
    hostAndPort_free ha c hc (by simp only [List.mem_singleton] at h; subst h; decide)
  obtain ⟨hui, -, -⟩ := ha
  rcases a with ⟨userinfo, host, port⟩
  cases userinfo with
  | none => simp [Authority.render, userinfoPrefix, splitUserInfo, find, findFirstOf_eq_none hat]
  | some userinfo =>
    have hfree : ∀ c ∈ renderTokens userinfo, c ∉ ['@'.toUInt8] :=
      renderTokens_free (hui userinfo rfl) (by decide)
    simp [Authority.render, userinfoPrefix, splitUserInfo, find, findFirstOf_append_cons _ hfree,
      decodeElement_render (by decide) userinfo (hui userinfo rfl)]

/-- `ParseAuthority` on a delimited authority's text: its fields, if host and port are accepted. -/
theorem parseAuthority_render {a : Authority} (ha : a.Valid Host.Delimited) (u : Impl) :
    u.parseAuthority a.render = if a.accepted then some (a.fields u) else none := by
  have hmachine : (a.hostAndPort.foldlM HostParsing.step HostParsing.init).map
      HostParsing.outcome = _ := HostParsing.foldlM_step_render ha.2.1 a.port
  simp only [Impl.parseAuthority, splitUserInfo_render ha, Option.some_bind]
  cases hacc : a.host.accepted
  · rw [hacc, if_neg Bool.false_ne_true, Option.map_eq_none'] at hmachine
    simp [hmachine, Authority.accepted, hacc]
  · rw [hacc, if_pos rfl] at hmachine
    obtain ⟨p, hrun, hout⟩ := Option.map_eq_some'.1 hmachine
    simp only [HostParsing.outcome, Prod.mk.injEq] at hout
    obtain ⟨hfin, hhost, hportString⟩ := hout
    simp only [hrun, Option.some_bind, hfin, hhost, hportString, Bool.not_true,
      Bool.false_eq_true, if_false]
    obtain ⟨-, -, hport⟩ := ha
    rcases a with ⟨userinfo, host, _ | port⟩
    · simp [Authority.accepted, hacc, Authority.fields, Authority.portText]
    by_cases hne : port = []
    · subst hne
      simp [Authority.accepted, hacc, portAccepted, Authority.fields, Authority.portText,
        Option.filter]
    rw [Option.getD_some, stoi_digits (hport port rfl) hne]
    by_cases hv : digitsValue port ≤ 65535
    · simp [hv, show digitsValue port < 2147483648 by omega, Authority.accepted, hacc,
        portAccepted, Authority.fields, Authority.portText, Option.filter, hne]
    · have hrejected : (⟨userinfo, host, some port⟩ : Authority).accepted = false := by
        simp [Authority.accepted, hacc, portAccepted, hne, hv]
      rw [hrejected, if_neg Bool.false_ne_true, if_neg (by simpa using hne)]
      split_ifs
      · rw [Option.some_bind, if_pos (.inr (by omega))]
      · rfl

/-! ## Text after the port -/

/-- The port text `h:1x` leaves is `1x`, which `std::stoi` reads as 1: the authority is
accepted with port 1, although no authority of the grammar has this text. -/
theorem parseAuthority_port_trailing_text :
    ((default : Impl).parseAuthority (bytesOf "h:1x")).map (fun v ↦ (v.host, v.hasPort, v.port)) =
      some (bytesOf "h", true, 1) ∧ ¬ AuthorityText (bytesOf "h:1x") := by
  refine ⟨rfl, ?_⟩
  rintro ⟨⟨userinfo, host, port⟩, ⟨hui, hhost, hport⟩, hr⟩
  have hs : bytesOf "h:1x" = ['h'.toUInt8] ++ ':'.toUInt8 :: ['1'.toUInt8, 'x'.toUInt8] := rfl
  rw [hs] at hr
  cases userinfo with
  | some userinfo =>
    have : '@'.toUInt8 ∈ ['h'.toUInt8] ++ ':'.toUInt8 :: ['1'.toUInt8, 'x'.toUInt8] := by
      rw [← hr]
      simp [Authority.render, userinfoPrefix]
    exact absurd this (by decide)
  | none =>
  cases host with
  | ipLiteral text =>
    simp only [Authority.render, userinfoPrefix, Authority.hostAndPort, Host.render,
      List.nil_append, List.cons_append, List.singleton_append, List.cons.injEq] at hr
    exact absurd hr.1 (by decide)
  | regName tokens =>
    have hcolon : ':'.toUInt8 ∉ renderTokens tokens :=
      not_mem_renderTokens hhost (by decide)
    cases port with
    | none =>
      simp only [Authority.render, userinfoPrefix, Authority.hostAndPort, Host.render,
        portSuffix, List.nil_append, List.append_nil] at hr
      exact hcolon (hr ▸ by decide)
    | some port =>
      simp only [Authority.render, userinfoPrefix, Authority.hostAndPort, Host.render,
        portSuffix, List.nil_append] at hr
      obtain ⟨-, -, rfl⟩ := (List.append_cons_inj_of_not_mem (by decide) (by decide)).1 hr.symm
      exact absurd (hport _ rfl 'x'.toUInt8 (by decide)) (by decide)

end Uri
