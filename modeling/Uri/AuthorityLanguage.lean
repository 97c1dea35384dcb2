import Uri.Ipv6Hex

/-!
# What `ParseAuthority` accepts

`HostParsing.Reads` says, for each of the nine states of `ParseAuthority`'s host machine, what
the machine has read to get there: nothing; a reg-name's tokens, then perhaps an escape still
open; the `[` of an IP literal and the literal so far; a whole host, then perhaps a `:` and
port text. One step keeps it (`HostParsing.Reads.step`), and so does a whole run
(`HostParsing.Reads.foldlM`). With the run of `HostMachine` over the text of a host and a port,
it gives the texts the machine accepts: a delimited host that `ParseAuthority` accepts, then
nothing or a `:` and port text of any characters
(`HostParsing.foldlM_step_outcome_eq_some_iff`). `ParseAuthority` takes the user information
from before the first `@` and gives the port text to `std::stoi`
(`parseAuthority_eq_some_iff`).
-/

namespace Uri

open PercentEncodedCharacterDecoder

namespace HostParsing

/-! ## What each state has read -/

/-- The host the machine holds at `p`: a reg-name's tokens decoded, or an accepted IP literal. -/
def Holds (p : HostParsing) : Host → Prop
  | .regName tokens => TokensValid regNameNotPctEncoded tokens ∧
      p.host = tokens.map PctToken.decode ∧ p.hostIsRegName = true
  | .ipLiteral text => Host.Delimited (.ipLiteral text) ∧ ipLiteralAccepted text = true ∧
      p.host = text ∧ p.hostIsRegName = false

theorem Holds.of_eq {p q : HostParsing} {host : Host} (h : p.Holds host)
    (hhost : q.host = p.host) (hreg : q.hostIsRegName = p.hostIsRegName) : q.Holds host := by
  cases host <;> simpa only [Holds, hhost, hreg] using h

/-- A host held is delimited and accepted, and it is what `ParseAuthority` stores. -/
theorem Holds.stored {p : HostParsing} {host : Host} (h : p.Holds host) :
    host.Delimited ∧ host.accepted = true ∧
      (if p.hostIsRegName then p.host.map toLower else p.host) = host.stored := by
  cases host with
  | regName tokens =>
    obtain ⟨hvalid, hhost, hreg⟩ := h
    exact ⟨hvalid, rfl, by simp [hreg, hhost, Host.stored]⟩
  | ipLiteral text =>
    obtain ⟨hdelimited, haccepted, hhost, hreg⟩ := h
    exact ⟨hdelimited, haccepted, by simp [hreg, hhost, Host.stored]⟩

/-- What the machine has read at `p`: nothing; reg-name tokens and an open escape; `[` and the
literal so far; a whole host, then nothing or a `:` and the port text. -/
def Reads (p : HostParsing) (read : Bytes) : Prop :=
  match p.hostParsingState with
  | .firstCharacter => read = [] ∧ p = init
  | .notIpLiteral =>
    ∃ tokens, p.Holds (.regName tokens) ∧ read = renderTokens tokens ∧ p.portString = []
  | .percentEncodedCharacter =>
    ∃ tokens, p.Holds (.regName tokens) ∧ p.portString = [] ∧
      (read = renderTokens tokens ++ ['%'.toUInt8] ∧ p.pecDecoder = firstDigit ∨
        ∃ high, hexdig.contains high = true ∧ read = renderTokens tokens ++ ['%'.toUInt8, high] ∧
          p.pecDecoder = secondDigit (hexDigitValue high))
  | .ipLiteral =>
    read = ['['.toUInt8] ∧ p.host = [] ∧ p.hostIsRegName = false ∧ p.portString = []
  | .ipv6Address =>
    ∃ x text, p.host = x :: text ∧ x ≠ 'v'.toUInt8 ∧ read = '['.toUInt8 :: p.host ∧
      p.hostIsRegName = false ∧ p.portString = []
  | .ipvFutureNumber =>
    ∃ number, p.host = 'v'.toUInt8 :: number ∧ (∀ c ∈ number, hexdig.contains c = true) ∧
      read = '['.toUInt8 :: p.host ∧ p.hostIsRegName = false ∧ p.portString = []
  | .ipvFutureBody =>
    ∃ number body, p.host = 'v'.toUInt8 :: (number ++ '.'.toUInt8 :: body) ∧
      (∀ c ∈ number, hexdig.contains c = true) ∧
      (∀ c ∈ body, ipvFutureLastPart.contains c = true) ∧
      read = '['.toUInt8 :: p.host ∧ p.hostIsRegName = false ∧ p.portString = []
  | .garbageCheck => ∃ host, p.Holds host ∧ read = host.render ∧ p.portString = []
  | .port => ∃ host, p.Holds host ∧ read = host.render ++ ':'.toUInt8 :: p.portString

theorem reads_init : init.Reads [] := ⟨rfl, rfl⟩

/-! ## One step, and a run -/

theorem Reads.notIpLiteralStep {p q : HostParsing} {tokens : List PctToken} {c : UInt8}
    (hs : p.hostParsingState = .notIpLiteral) (hp : p.Holds (.regName tokens))
    (hport : p.portString = []) (hstep : p.notIpLiteralStep c = some q) :
    q.Reads (renderTokens tokens ++ [c]) := by
  simp only [HostParsing.notIpLiteralStep, ite_eq_iff, Option.some.injEq, reduceCtorEq,
    and_false, false_or, or_false] at hstep
  rcases hstep with ⟨rfl, rfl⟩ | ⟨-, ⟨rfl, rfl⟩ | ⟨-, hc, rfl⟩⟩
  · exact ⟨tokens, hp.of_eq rfl rfl, hport, .inl ⟨rfl, rfl⟩⟩
  · exact ⟨.regName tokens, hp.of_eq rfl rfl, by simp [hport, Host.render]⟩
  · obtain ⟨hvalid, hhost, hreg⟩ := hp
    simp only [Reads, hs]
    refine ⟨tokens ++ [.char c], ⟨?_, by simp [hhost, PctToken.decode], hreg⟩,
      by simp [PctToken.render], hport⟩
    exact List.forall_mem_append.2 ⟨hvalid, List.forall_mem_singleton.2 hc⟩

/-- One step of the machine keeps what it has read. -/
theorem Reads.step {p q : HostParsing} {read : Bytes} {c : UInt8} (h : p.Reads read)
    (hstep : p.step c = some q) : q.Reads (read ++ [c]) := by
  unfold Reads at h
  unfold HostParsing.step at hstep
  cases hs : p.hostParsingState <;>
    simp only [hs, ite_eq_iff, Option.some.injEq, reduceCtorEq, and_false, or_false] at h hstep
  case firstCharacter =>
    obtain ⟨rfl, rfl⟩ := h
    rcases hstep with ⟨rfl, rfl⟩ | ⟨-, hstep⟩
    · exact ⟨rfl, rfl, rfl, rfl⟩
    · exact Reads.notIpLiteralStep rfl ⟨fun _ h ↦ absurd h (List.not_mem_nil _), rfl, rfl⟩ rfl
        hstep
  case notIpLiteral =>
    obtain ⟨tokens, hp, rfl, hport⟩ := h
    exact Reads.notIpLiteralStep hs hp hport hstep
  case percentEncodedCharacter =>
    obtain ⟨tokens, hp, hport, ⟨rfl, hd⟩ | ⟨high, hhigh, rfl, hd⟩⟩ := h
    · -- the escape's first digit
      cases hc : hexdig.contains c <;>
        simp only [hd, nextEncodedCharacter, hc, Bool.false_eq_true, if_false, if_true, done,
          reduceCtorEq, Option.some.injEq] at hstep
      subst hstep
      simp only [Reads, hs]
      exact ⟨tokens, hp.of_eq rfl rfl, hport, .inr ⟨c, hc, by simp, rfl⟩⟩
    · -- the second digit completes it
      cases hc : hexdig.contains c <;>
        simp only [hd, nextEncodedCharacter, hc, Bool.false_eq_true, if_false, if_true, done,
          reduceCtorEq, Option.some.injEq] at hstep
      subst hstep
      obtain ⟨hvalid, hhost, hreg⟩ := hp
      refine ⟨tokens ++ [.triplet high c], ⟨?_, ?_, hreg⟩, by simp [PctToken.render], hport⟩
      · exact List.forall_mem_append.2 ⟨hvalid, List.forall_mem_singleton.2 ⟨hhigh, hc⟩⟩
      · simp [hhost, PctToken.decode, getDecodedCharacter]
  case ipLiteral =>
    obtain ⟨rfl, hhost, hreg, hport⟩ := h
    rcases hstep with ⟨rfl, rfl⟩ | ⟨hv, hstep⟩
    · exact ⟨[], by simp [hhost], by simp, by simp [hhost], hreg, hport⟩
    · simp only [ipv6AddressStep, ite_eq_iff, Option.some.injEq, reduceCtorEq, and_false,
        or_false] at hstep
      rcases hstep with ⟨-, hvalid, -⟩ | ⟨-, rfl⟩
      · simp only [hhost] at hvalid
        exact absurd hvalid (by decide)
      · exact ⟨c, [], by simp [hhost], hv, by simp [hhost], hreg, hport⟩
  case ipv6Address =>
    obtain ⟨x, text, hhost, hx, rfl, hreg, hport⟩ := h
    simp only [ipv6AddressStep, ite_eq_iff, Option.some.injEq, reduceCtorEq, and_false,
      or_false] at hstep
    rcases hstep with ⟨rfl, hvalid, rfl⟩ | ⟨-, rfl⟩
    · refine ⟨.ipLiteral p.host,
        ⟨fun c hc ↦ (validateIpv6Address_addressChar hvalid c hc).ipvFutureLastPart, ?_, rfl,
          hreg⟩, by simp [Host.render], hport⟩
      rw [hhost] at hvalid ⊢
      simp [ipLiteralAccepted, hx, hvalid]
    · simp only [Reads, hs]
      exact ⟨x, text ++ [c], by simp [hhost], hx, by simp, hreg, hport⟩
  case ipvFutureNumber =>
    obtain ⟨number, hhost, hnumber, rfl, hreg, hport⟩ := h
    rcases hstep with ⟨rfl, rfl⟩ | ⟨-, hc, rfl⟩
    · exact ⟨number, [], by simp [hhost], hnumber, by simp, by simp, hreg, hport⟩
    · simp only [Reads, hs]
      refine ⟨number ++ [c], by simp [hhost], ?_, by simp, hreg, hport⟩
      exact List.forall_mem_append.2 ⟨hnumber, List.forall_mem_singleton.2 hc⟩
  case ipvFutureBody =>
    obtain ⟨number, body, hhost, hnumber, hbody, rfl, hreg, hport⟩ := h
    rcases hstep with ⟨rfl, rfl⟩ | ⟨-, hc, rfl⟩
    · have htake : (number ++ '.'.toUInt8 :: body).takeWhile (· ≠ '.'.toUInt8) = number := by
        rw [List.takeWhile_append_of_pos fun c hc ↦
          decide_eq_true (hexdig_ne_colon_dot (hnumber c hc)).2]
        simp
      refine ⟨.ipLiteral p.host, ⟨?_, ?_, rfl, hreg⟩, by simp [Host.render], hport⟩
      · simp only [Host.Delimited, hhost, List.forall_mem_cons, List.forall_mem_append]
        exact ⟨by decide, fun c hc ↦ IsAddressChar.ipvFutureLastPart (.inl (hnumber c hc)),
          by decide, hbody⟩
      · simp only [ipLiteralAccepted, ipvFutureAccepted, hhost, List.head?_cons, if_true,
          List.drop_one, List.tail_cons, htake]
        simpa [List.all_eq_true] using hnumber
    · simp only [Reads, hs]
      refine ⟨number, body ++ [c], by simp [hhost], hnumber, ?_, by simp, hreg, hport⟩
      exact List.forall_mem_append.2 ⟨hbody, List.forall_mem_singleton.2 hc⟩
  case garbageCheck =>
    obtain ⟨host, hp, rfl, hport⟩ := h
    obtain ⟨rfl, rfl⟩ := hstep
    exact ⟨host, hp.of_eq rfl rfl, by simp [hport]⟩
  case port =>
    obtain ⟨host, hp, rfl⟩ := h
    subst hstep
    exact ⟨host, hp.of_eq rfl rfl, by simp⟩

/-- A run of the machine keeps what it has read. -/
theorem Reads.foldlM : ∀ {s : Bytes} {p q : HostParsing} {read : Bytes}, p.Reads read →
    s.foldlM HostParsing.step p = some q → q.Reads (read ++ s)
  | [], _, _, _, h, hrun => by
    cases hrun
    simpa using h
  | c :: s, _, _, _, h, hrun => by
    simp only [List.foldlM_cons, Option.bind_eq_bind, Option.bind_eq_some] at hrun
    obtain ⟨p', hstep, hrun⟩ := hrun
    simpa using Reads.foldlM (h.step hstep) hrun

/-! ## What the machine accepts -/

/-- The machine stops where a host may end exactly on a delimited host `ParseAuthority` accepts,
then nothing or a `:` and any port text; it holds the host as stored and the port text. -/
theorem foldlM_step_outcome_eq_some_iff {s host portString : Bytes} :
    (s.foldlM step init).map outcome = some (true, host, portString) ↔
      ∃ (h : Host) (port : Option Bytes), h.Delimited ∧ h.accepted = true ∧
        s = h.render ++ portSuffix port ∧ host = h.stored ∧ portString = port.getD [] := by
  constructor
  · intro hmap
    obtain ⟨p, hrun, hout⟩ := Option.map_eq_some'.1 hmap
    simp only [outcome, Prod.mk.injEq] at hout
    obtain ⟨hfin, rfl, rfl⟩ := hout
    have hreads := reads_init.foldlM hrun
    rw [List.nil_append] at hreads
    unfold Reads at hreads
    cases hs : p.hostParsingState <;> simp only [hs] at hreads <;>
      simp [finished, hs] at hfin
    case firstCharacter =>
      obtain ⟨rfl, rfl⟩ := hreads
      exact ⟨.regName [], none, fun _ h ↦ absurd h (List.not_mem_nil _), rfl, rfl, rfl, rfl⟩
    case notIpLiteral =>
      obtain ⟨tokens, hp, rfl, hport⟩ := hreads
      obtain ⟨hd, ha, hstored⟩ := hp.stored
      exact ⟨.regName tokens, none, hd, ha, by simp [Host.render, portSuffix], hstored, hport⟩
    case garbageCheck =>
      obtain ⟨h, hp, rfl, hport⟩ := hreads
      obtain ⟨hd, ha, hstored⟩ := hp.stored
      exact ⟨h, none, hd, ha, by simp [portSuffix], hstored, hport⟩
    case port =>
      obtain ⟨h, hp, rfl⟩ := hreads
      obtain ⟨hd, ha, hstored⟩ := hp.stored
      exact ⟨h, some p.portString, hd, ha, rfl, hstored, rfl⟩
  · rintro ⟨h, port, hd, ha, rfl, rfl, rfl⟩
    rw [foldlM_step_render hd port, if_pos ha]

end HostParsing

/-! ## `ParseAuthority` -/

/-- The start of `ParseAuthority`: with no `@`, no user information and the whole text; else
the decoded text before the first `@`, and the text after it. -/
theorem splitUserInfo_eq_some_iff {authorityString userInfo hostPortString : Bytes} :
    splitUserInfo authorityString = some (userInfo, hostPortString) ↔
      '@'.toUInt8 ∉ authorityString ∧ userInfo = [] ∧ hostPortString = authorityString ∨
        ∃ encoded, '@'.toUInt8 ∉ encoded ∧
          decodeElement encoded userInfoNotPctEncoded = some userInfo ∧
          authorityString = encoded ++ '@'.toUInt8 :: hostPortString := by
  by_cases hat : '@'.toUInt8 ∈ authorityString
  · obtain ⟨encoded, rest, rfl, hencoded⟩ := exists_eq_append_cons hat
    have hdrop : (encoded ++ '@'.toUInt8 :: rest).drop (encoded.length + 1) = rest := by
      rw [List.drop_append]
      rfl
    simp only [splitUserInfo, find_append_cons_self _ hencoded, List.take_left, hdrop,
      Option.map_eq_some', Prod.mk.injEq]
    constructor
    · rintro ⟨userInfo, hdecode, rfl, rfl⟩
      exact .inr ⟨encoded, hencoded, hdecode, rfl⟩
    · rintro (⟨hnot, -⟩ | ⟨encoded', hencoded', hdecode, heq⟩)
      · exact absurd hat hnot
      · obtain ⟨rfl, rfl⟩ := append_cons_eq_append_cons hencoded hencoded' heq
        exact ⟨userInfo, hdecode, rfl, rfl⟩
  · have hno : ¬∃ encoded, '@'.toUInt8 ∉ encoded ∧
        decodeElement encoded userInfoNotPctEncoded = some userInfo ∧
        authorityString = encoded ++ '@'.toUInt8 :: hostPortString := by
      rintro ⟨encoded, -, -, rfl⟩
      exact hat (by simp)
    simp only [splitUserInfo, find_eq_none_of_not_mem hat, Option.some.injEq, Prod.mk.injEq,
      hno, or_false, hat, not_false_eq_true, true_and]
    constructor <;> rintro ⟨rfl, rfl⟩ <;> exact ⟨rfl, rfl⟩

/-- `ParseAuthority` succeeds exactly on user information up to the first `@` that `DecodeElement`
takes, a delimited host it accepts, and nothing or a `:` and port text that is empty or that
`std::stoi` reads in 0..65535; it stores the user information decoded, the host and the port. -/
theorem parseAuthority_eq_some_iff {u u' : Impl} {authorityString : Bytes} :
    u.parseAuthority authorityString = some u' ↔
      ∃ (userInfo hostPortString : Bytes) (host : Host) (port : Option Bytes),
        ('@'.toUInt8 ∉ authorityString ∧ userInfo = [] ∧ hostPortString = authorityString ∨
          ∃ encoded, '@'.toUInt8 ∉ encoded ∧
            decodeElement encoded userInfoNotPctEncoded = some userInfo ∧
            authorityString = encoded ++ '@'.toUInt8 :: hostPortString) ∧
        host.Delimited ∧ host.accepted = true ∧ hostPortString = host.render ++ portSuffix port ∧
        (port.getD [] = [] ∧ u' = { u with userInfo, host := host.stored, hasPort := false } ∨
          ∃ portAsInt, stoi (port.getD []) = some portAsInt ∧ 0 ≤ portAsInt ∧
            portAsInt ≤ 65535 ∧
            u' = { u with userInfo, host := host.stored, port := portAsInt.toNat.toUInt16,
                          hasPort := true }) := by
  simp only [← splitUserInfo_eq_some_iff]
  constructor
  · intro hparse
    obtain ⟨⟨userInfo, hostPortString⟩, hsplit, hbind⟩ := Option.bind_eq_some.1 hparse
    obtain ⟨p, hrun, h⟩ := Option.bind_eq_some.1 hbind
    clear hparse hbind
    cases hfin : p.finished
    · simp [hfin] at h
    have hout : (hostPortString.foldlM HostParsing.step HostParsing.init).map
        HostParsing.outcome =
          some (true, if p.hostIsRegName then p.host.map toLower else p.host, p.portString) := by
      simp [hrun, HostParsing.outcome, hfin]
    obtain ⟨host, port, hd, ha, rfl, hstored, hport⟩ :=
      HostParsing.foldlM_step_outcome_eq_some_iff.1 hout
    refine ⟨userInfo, _, host, port, hsplit, hd, ha, rfl, ?_⟩
    rw [← hport]
    simp only [hfin, Bool.not_true, Bool.false_eq_true, if_false, hstored] at h
    cases hempty : p.portString.isEmpty
    · simp only [hempty, Bool.false_eq_true, if_false, Option.bind_eq_some] at h
      obtain ⟨portAsInt, hstoi, h⟩ := h
      by_cases hrange : portAsInt < 0 ∨ portAsInt > 65535
      · simp [hrange] at h
      · rw [if_neg hrange, Option.some.injEq] at h
        exact .inr ⟨portAsInt, hstoi, by omega, by omega, h.symm⟩
    · simp only [hempty, if_true, Option.some.injEq] at h
      exact .inl ⟨List.isEmpty_iff.1 hempty, h.symm⟩
  · rintro ⟨userInfo, hostPortString, host, port, hsplit, hd, ha, rfl, hport⟩
    obtain ⟨p, hrun, hout⟩ := Option.map_eq_some'.1
      (HostParsing.foldlM_step_outcome_eq_some_iff.2 ⟨host, port, hd, ha, rfl, rfl, rfl⟩)
    simp only [HostParsing.outcome, Prod.mk.injEq] at hout
    obtain ⟨hfin, hstored, hportString⟩ := hout
    simp only [Impl.parseAuthority, hsplit, Option.some_bind, hrun, hfin, Bool.not_true,
      Bool.false_eq_true, if_false, hstored, hportString]
    rcases hport with ⟨hnil, rfl⟩ | ⟨portAsInt, hstoi, hlow, hhigh, rfl⟩
    · simp [hnil]
    · have hne : (port.getD []).isEmpty = false := by
        cases hempty : port.getD []
        · simp [hempty, stoi] at hstoi
        · rfl
      simp [hne, hstoi, not_lt.2 hlow, not_lt.2 hhigh]

end Uri
