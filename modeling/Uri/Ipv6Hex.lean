import Uri.Ipv6Groups

/-!
# What `ValidateIpv6Address` accepts

On an address without a `.`, `ValidateIpv6Address` accepts exactly RFC 3986's `IPv6address`
(`validateIpv6Address_iff_of_dot_not_mem`). The loop reads an address group by group: what it
has read is a list of complete groups, each followed by its `:` and split by a `::` once it has
read one, and then what its state says (`Ipv6Validation.Reads`). One step keeps that reading
(`Ipv6Validation.Reads.step`), so a whole run does (`Ipv6Validation.Reads.loop`), and the test
after the loop accepts exactly the readings that are addresses of the grammar. Conversely the
loop reads every group, `:` and `::` of an address of the grammar (`Ipv6Validation.Reads.group`,
`Ipv6Validation.Reads.colonTerminated`).

With a `.`, the loop stops at the first one, in a group of decimal digits, and hands the text
from that group on to `ValidateIpv4Address`. What it accepts then is `Ipv4PartAccepted`, and
`validateIpv6Address_iff` describes all it accepts: an IPv4 part takes the place of three
groups where RFC 3986 counts two, its first octet is held to four digits, and the rest is
whatever `ValidateIpv4Address` takes (`Uri.Ipv6Groups`, `Uri.DottedQuad`).
-/

namespace Uri

/-! ## Texts of groups -/

theorem colonTerminated_append (groups more : List Bytes) :
    colonTerminated (groups ++ more) = colonTerminated groups ++ colonTerminated more := by
  simp [colonTerminated]

@[simp]
theorem colonTerminated_nil : colonTerminated [] = [] := rfl

theorem colonTerminated_singleton (g : Bytes) : colonTerminated [g] = g ++ [':'.toUInt8] := by
  simp [colonTerminated]

theorem colonSeparated_append_colon :
    ∀ {groups : List Bytes}, groups ≠ [] →
      colonSeparated groups ++ [':'.toUInt8] = colonTerminated groups
  | [], h => absurd rfl h
  | [g], _ => by simp [colonSeparated, colonTerminated, List.intercalate]
  | g :: g' :: groups, _ => by
    rw [colonSeparated, intercalate_cons_cons, ← colonSeparated, List.append_assoc,
      List.append_assoc, colonSeparated_append_colon (List.cons_ne_nil _ _)]
    simp [colonTerminated]

theorem colonSeparated_append_doubleColon {groups : List Bytes} (h : groups ≠ []) :
    colonSeparated groups ++ doubleColon = colonTerminated groups ++ [':'.toUInt8] := by
  rw [← colonSeparated_append_colon h, List.append_assoc]
  rfl

theorem H16.append {g : Bytes} {c : UInt8} (hg : H16 g) (hlength : g.length + 1 ≤ 4)
    (hc : hexdig.contains c = true) : H16 (g ++ [c]) :=
  ⟨by simp, by simpa using hlength, fun x hx ↦ (List.mem_append.1 hx).elim (hg.2.2 x)
    fun hx ↦ List.mem_singleton.1 hx ▸ hc⟩

theorem H16.singleton {c : UInt8} (hc : hexdig.contains c = true) : H16 [c] :=
  ⟨by simp, by simp, by simpa using hc⟩

/-! ## The loop over pieces -/

theorem ipv6Loop_cons_of_step {v w : Ipv6Validation} {c : UInt8} (cs : Bytes)
    (hstep : ipv6Step v c = some w) (hw : w.ipv4AddressEncountered = false) :
    ipv6Loop v (c :: cs) = ipv6Loop { w with position := w.position + 1 } cs := by
  simp only [ipv6Loop, hstep]
  rw [if_neg (by simp [hw])]

/-- The loop over two texts: over the first, then, unless it stopped at a `.`, over the second. -/
theorem ipv6Loop_append {v w : Ipv6Validation} {a : Bytes} (b : Bytes)
    (h : ipv6Loop v a = some w) (hw : w.ipv4AddressEncountered = false) :
    ipv6Loop v (a ++ b) = ipv6Loop w b := by
  induction a generalizing v with
  | nil => rw [List.nil_append, Option.some_injective _ h]
  | cons c a ih =>
    rw [List.cons_append, ipv6Loop]
    rw [ipv6Loop] at h
    rcases hstep : ipv6Step v c with _ | v'
    · simp [hstep] at h
    simp only [hstep] at h ⊢
    split_ifs at h ⊢ with hv'
    · exact absurd (Option.some_injective _ h ▸ hv') (by simp [hw])
    · exact ih h

/-! ## What the loop has read -/

/-- The complete groups the loop has read: those before a `::`, and those after one it has read. -/
structure GroupsRead where
  before : List Bytes
  after : Option (List Bytes)

namespace GroupsRead

/-- The text of the complete groups: each followed by its `:`, or split by the `::`. -/
def text : GroupsRead → Bytes
  | ⟨before, none⟩ => colonTerminated before
  | ⟨before, some after⟩ => colonSeparated before ++ doubleColon ++ colonTerminated after

/-- The number of complete groups, which the loop keeps in `numGroups`. -/
def count : GroupsRead → Nat
  | ⟨before, none⟩ => before.length
  | ⟨before, some after⟩ => before.length + after.length

/-- All complete groups. -/
def groups : GroupsRead → List Bytes
  | ⟨before, none⟩ => before
  | ⟨before, some after⟩ => before ++ after

/-- The groups the last group read belongs to: those after the `::` once there is one. -/
def last : GroupsRead → List Bytes
  | ⟨before, none⟩ => before
  | ⟨_, some after⟩ => after

/-- One more complete group, after the others. -/
def push (g : Bytes) : GroupsRead → GroupsRead
  | ⟨before, none⟩ => ⟨before ++ [g], none⟩
  | ⟨before, some after⟩ => ⟨before, some (after ++ [g])⟩

@[simp]
theorem text_push (g : Bytes) (pre : GroupsRead) :
    (pre.push g).text = pre.text ++ (g ++ [':'.toUInt8]) := by
  rcases pre with ⟨before, _ | after⟩ <;> simp [push, text, colonTerminated_append,
    colonTerminated_singleton]

@[simp]
theorem count_push (g : Bytes) (pre : GroupsRead) : (pre.push g).count = pre.count + 1 := by
  rcases pre with ⟨before, _ | after⟩ <;> simp [push, count, Nat.add_assoc]

theorem mem_groups_push {g g' : Bytes} {pre : GroupsRead} (h : g' ∈ (pre.push g).groups) :
    g' ∈ pre.groups ∨ g' = g := by
  rcases pre with ⟨before, _ | after⟩ <;> simpa [push, groups, or_assoc] using h

@[simp]
theorem after_push (g : Bytes) (pre : GroupsRead) :
    (pre.push g).after.isSome = pre.after.isSome := by
  rcases pre with ⟨before, _ | after⟩ <;> rfl

@[simp]
theorem text_compressed (before : List Bytes) :
    (⟨before, some []⟩ : GroupsRead).text = colonSeparated before ++ doubleColon := by
  simp [text]

theorem last_push (g : Bytes) (pre : GroupsRead) : (pre.push g).last ≠ [] := by
  rcases pre with ⟨before, _ | after⟩ <;> simp [push, last]

/-- More complete groups, after the others. -/
def append (groups : List Bytes) : GroupsRead → GroupsRead
  | ⟨before, none⟩ => ⟨before ++ groups, none⟩
  | ⟨before, some after⟩ => ⟨before, some (after ++ groups)⟩

@[simp]
theorem append_nil (pre : GroupsRead) : pre.append [] = pre := by
  rcases pre with ⟨before, _ | after⟩ <;> simp [append]

theorem append_cons (g : Bytes) (groups : List Bytes) (pre : GroupsRead) :
    pre.append (g :: groups) = (pre.push g).append groups := by
  rcases pre with ⟨before, _ | after⟩ <;> simp [append, push]

end GroupsRead

/-- The states in a group. -/
def InGroup (state : ValidationState) : Prop :=
  state = .inGroupNotIpv4 ∨ state = .inGroupCouldBeIpv4

/-- The states at a group's start: at the address's start, after `::` or after a group's `:`. -/
def AtGroupStart (state : ValidationState) : Prop :=
  state = .noGroupsYet ∨ state = .afterDoubleColon ∨ state = .colonAfterGroup

/-- What the loop has read in each state beyond its complete groups: nothing, a `:` or a group. -/
def StateReads : ValidationState → Nat → GroupsRead → Bytes → Prop
  | .noGroupsYet, numDigits, pre, p => pre = ⟨[], none⟩ ∧ p = [] ∧ numDigits = 0
  | .colonButNoGroupsYet, numDigits, pre, p =>
    pre = ⟨[], none⟩ ∧ p = [':'.toUInt8] ∧ numDigits = 0
  | .afterDoubleColon, numDigits, pre, p => pre.after = some [] ∧ p = pre.text ∧ numDigits = 0
  | .colonAfterGroup, numDigits, pre, p => pre.last ≠ [] ∧ p = pre.text ∧ numDigits = 0
  | .inGroupNotIpv4, numDigits, pre, p => ∃ g, H16 g ∧ numDigits = g.length ∧ p = pre.text ++ g
  | .inGroupCouldBeIpv4, numDigits, pre, p =>
    ∃ g, H16 g ∧ numDigits = g.length ∧ p = pre.text ++ g ∧ ∀ c ∈ g, digit.contains c = true

/-- The loop at `v` has read `p`: the groups `pre`, counted in `numGroups`, a `::` exactly when
met, then what its state says; an IPv4 part may start at a group of decimal digits. -/
structure Ipv6Validation.Reads (v : Ipv6Validation) (pre : GroupsRead) (p : Bytes) : Prop where
  h16 : ∀ g ∈ pre.groups, H16 g
  numGroups : v.numGroups = pre.count
  doubleColon : v.doubleColonEncountered = pre.after.isSome
  position : v.position = p.length
  ipv4 : v.ipv4AddressEncountered = false
  state : StateReads v.state v.numDigits pre p
  ipv4Start : v.state = .inGroupCouldBeIpv4 → v.potentialIpv4AddressStart = pre.text.length

theorem Ipv6Validation.reads_init :
    (⟨.noGroupsYet, 0, 0, false, 0, 0, false⟩ : Ipv6Validation).Reads ⟨[], none⟩ [] :=
  ⟨by simp [GroupsRead.groups], rfl, rfl, rfl, rfl, ⟨rfl, rfl, rfl⟩, nofun⟩

namespace Ipv6Validation.Reads

variable {v w : Ipv6Validation} {pre : GroupsRead} {p : Bytes} {c : UInt8}

theorem inGroup_text {g : Bytes} (h : v.Reads pre (pre.text ++ g)) (hs : InGroup v.state) :
    H16 g ∧ v.numDigits = g.length := by
  have hstate := h.state
  rcases hs with hs | hs <;> rw [hs] at hstate
  · obtain ⟨g', hg', hd, htext⟩ := hstate
    obtain rfl := List.append_cancel_left htext
    exact ⟨hg', hd⟩
  · obtain ⟨g', hg', hd, htext, -⟩ := hstate
    obtain rfl := List.append_cancel_left htext
    exact ⟨hg', hd⟩

theorem atGroupStart_text (h : v.Reads pre p) (hs : AtGroupStart v.state) :
    p = pre.text ∧ v.numDigits = 0 := by
  have hstate := h.state
  rcases hs with hs | hs | hs <;> rw [hs] at hstate
  · obtain ⟨rfl, rfl, hd⟩ := hstate
    exact ⟨rfl, hd⟩
  · exact hstate.2
  · exact hstate.2

theorem couldBeIpv4 {g : Bytes} (h : v.Reads pre (pre.text ++ g))
    (hs : v.state = .inGroupCouldBeIpv4) :
    (∀ c ∈ g, digit.contains c = true) ∧ v.potentialIpv4AddressStart = pre.text.length := by
  have hstate := h.state
  rw [hs] at hstate
  obtain ⟨g', -, -, htext, hdigits⟩ := hstate
  obtain rfl := List.append_cancel_left htext
  exact ⟨hdigits, h.ipv4Start hs⟩

theorem next (h : v.Reads pre p) (hnum : w.numGroups = v.numGroups)
    (hdc : w.doubleColonEncountered = v.doubleColonEncountered)
    (hpos : w.position = v.position + 1) (hipv4 : w.ipv4AddressEncountered = false)
    (hstate : StateReads w.state w.numDigits pre (p ++ [c]))
    (hstart : w.state = .inGroupCouldBeIpv4 →
      w.potentialIpv4AddressStart = pre.text.length) : w.Reads pre (p ++ [c]) :=
  ⟨h.h16, hnum.trans h.numGroups, hdc.trans h.doubleColon, by simp [hpos, h.position], hipv4,
    hstate, hstart⟩

theorem endGroup {g : Bytes} (h : v.Reads pre p) (hg : H16 g) (hp : p = pre.text ++ g)
    (hw : w = { v with numDigits := 0, numGroups := v.numGroups + 1,
                       state := .colonAfterGroup, position := v.position + 1 }) :
    w.Reads (pre.push g) (p ++ [':'.toUInt8]) := by
  subst hw hp
  refine ⟨fun g' hg' ↦ ?_, by simp [h.numGroups], by simp [h.doubleColon],
    by simp [h.position, Nat.add_assoc], h.ipv4, ⟨GroupsRead.last_push g pre, by simp, rfl⟩,
    nofun⟩
  rcases GroupsRead.mem_groups_push hg' with hg' | rfl
  · exact h.h16 g' hg'
  · exact hg

theorem compress {groups : List Bytes}
    (h : v.Reads ⟨groups, none⟩ (colonTerminated groups)) (hne : groups ≠ [])
    (hd : v.numDigits = 0)
    (hw : w = { v with doubleColonEncountered := true, state := .afterDoubleColon,
                       position := v.position + 1 }) :
    w.Reads ⟨groups, some []⟩ (colonTerminated groups ++ [':'.toUInt8]) := by
  subst hw
  refine ⟨by simpa [GroupsRead.groups] using h.h16, h.numGroups, rfl, by simp [h.position],
    h.ipv4, ⟨rfl, ?_, hd⟩, nofun⟩
  simp [GroupsRead.text, colonSeparated_append_doubleColon hne]

/-- One step of the loop on a character other than `.` keeps a reading of what it has read. -/
theorem step (h : v.Reads pre p) (hc : c ≠ '.'.toUInt8) (hstep : ipv6Step v c = some w) :
    ∃ pre', { w with position := w.position + 1 }.Reads pre' (p ++ [c]) := by
  obtain ⟨state, numGroups, numDigits, dc, start, position, ipv4⟩ := v
  have hs := h.state
  have hpos : position = p.length := h.position
  cases state <;> simp only [ipv6Step, ite_eq_iff, Option.some.injEq, reduceCtorEq, and_false,
    false_or, or_false] at hstep
  case noGroupsYet =>
    obtain ⟨rfl, rfl, rfl⟩ := hs
    rcases hstep with ⟨rfl, rfl⟩ | ⟨-, ⟨hdigit, rfl⟩ | ⟨-, hhex, rfl⟩⟩
    · exact ⟨_, h.next rfl rfl rfl h.ipv4 ⟨rfl, rfl, rfl⟩ nofun⟩
    · exact ⟨_, h.next rfl rfl rfl h.ipv4
        ⟨[c], .singleton (digit_hexdig hdigit), rfl, rfl, by simpa using hdigit⟩ fun _ ↦ hpos⟩
    · exact ⟨_, h.next rfl rfl rfl h.ipv4 ⟨[c], .singleton hhex, rfl, rfl⟩ nofun⟩
  case colonButNoGroupsYet =>
    obtain ⟨rfl, rfl, rfl⟩ := hs
    obtain ⟨rfl, rfl⟩ := hstep
    exact ⟨⟨[], some []⟩, by simp [GroupsRead.groups], h.numGroups, rfl, by simp [hpos],
      h.ipv4, ⟨rfl, rfl, rfl⟩, nofun⟩
  case afterDoubleColon =>
    obtain ⟨hafter, rfl, rfl⟩ := hs
    rcases hstep with ⟨hdigit, -, rfl⟩ | ⟨-, hhex, -, rfl⟩
    · exact ⟨_, h.next rfl rfl rfl h.ipv4
        ⟨[c], .singleton (digit_hexdig hdigit), rfl, rfl, by simpa using hdigit⟩ fun _ ↦ hpos⟩
    · exact ⟨_, h.next rfl rfl rfl h.ipv4 ⟨[c], .singleton hhex, rfl, rfl⟩ nofun⟩
  case inGroupNotIpv4 =>
    obtain ⟨g, hg, rfl, rfl⟩ := hs
    rcases hstep with ⟨rfl, rfl⟩ | ⟨-, hhex, hlength, rfl⟩
    · exact ⟨_, h.endGroup hg rfl rfl⟩
    · exact ⟨_, h.next rfl rfl rfl h.ipv4
        ⟨g ++ [c], hg.append (by omega) hhex, by simp, by simp⟩ nofun⟩
  case inGroupCouldBeIpv4 =>
    obtain ⟨g, hg, rfl, rfl, hdigits⟩ := hs
    rcases hstep with ⟨rfl, rfl⟩ | ⟨-, ⟨hdot, -⟩ | ⟨-, ⟨hdigit, hlength, rfl⟩ |
      ⟨-, hhex, hlength, rfl⟩⟩⟩
    · exact ⟨_, h.endGroup hg rfl rfl⟩
    · exact absurd hdot hc
    · refine ⟨_, h.next rfl rfl rfl h.ipv4
        ⟨g ++ [c], hg.append (by omega) (digit_hexdig hdigit), by simp, by simp, ?_⟩
        fun _ ↦ h.ipv4Start rfl⟩
      exact List.forall_mem_append.2 ⟨hdigits, List.forall_mem_singleton.2 hdigit⟩
    · exact ⟨_, h.next rfl rfl rfl h.ipv4
        ⟨g ++ [c], hg.append (by omega) hhex, by simp, by simp⟩ nofun⟩
  case colonAfterGroup =>
    obtain ⟨hlast, rfl, rfl⟩ := hs
    rcases hstep with ⟨rfl, hdc, rfl⟩ | ⟨-, ⟨hdigit, rfl⟩ | ⟨-, hhex, rfl⟩⟩
    · -- a second `:`: the `::`, which the loop has not met before
      obtain ⟨before, _ | after⟩ := pre
      · exact ⟨_, h.compress hlast rfl rfl⟩
      · exact absurd h.doubleColon (by simpa using hdc)
    · exact ⟨_, h.next rfl rfl rfl h.ipv4
        ⟨[c], .singleton (digit_hexdig hdigit), rfl, rfl, by simpa using hdigit⟩ fun _ ↦ hpos⟩
    · exact ⟨_, h.next rfl rfl rfl h.ipv4 ⟨[c], .singleton hhex, rfl, rfl⟩ nofun⟩

/-- The loop over characters other than `.` keeps a reading of what it has read. -/
theorem loop : ∀ {cs : Bytes} {v w : Ipv6Validation} {pre : GroupsRead} {p : Bytes},
    v.Reads pre p → '.'.toUInt8 ∉ cs → ipv6Loop v cs = some w → ∃ pre', w.Reads pre' (p ++ cs)
  | [], v, w, pre, p, h, _, hloop => by
    obtain rfl : v = w := Option.some_injective _ hloop
    exact ⟨pre, by simpa using h⟩
  | c :: cs, v, w, pre, p, h, hdot, hloop => by
    rcases hstep : ipv6Step v c with _ | v'
    · simp [ipv6Loop, hstep] at hloop
    obtain ⟨pre', h'⟩ := h.step (fun hc ↦ hdot (hc ▸ List.mem_cons_self _ _)) hstep
    rw [ipv6Loop_cons_of_step cs hstep h'.ipv4] at hloop
    simpa using loop h' (fun hc ↦ hdot (List.mem_cons_of_mem _ hc)) hloop

end Ipv6Validation.Reads

/-! ## The test after the loop -/

/-- What `ValidateIpv6Address` accepts after a loop that met no `.`: not a state after a single
`:`, and eight groups, or at most seven around a `::`, counting the group the loop is in. -/
def Accepts : ValidationState → GroupsRead → Prop
  | .colonButNoGroupsYet, _ | .colonAfterGroup, _ => False
  | .inGroupNotIpv4, pre | .inGroupCouldBeIpv4, pre =>
    if pre.after.isSome then pre.count + 1 ≤ 7 else pre.count + 1 = 8
  | .noGroupsYet, pre | .afterDoubleColon, pre =>
    if pre.after.isSome then pre.count ≤ 7 else pre.count = 8

/-- After a loop over the whole address, `ValidateIpv6Address` accepts what `Accepts` says. -/
theorem validateIpv6Address_eq_true_iff_accepts {t : Bytes} {v : Ipv6Validation}
    {pre : GroupsRead} (hloop : ipv6Loop ⟨.noGroupsYet, 0, 0, false, 0, 0, false⟩ t = some v)
    (h : v.Reads pre t) : validateIpv6Address t = true ↔ Accepts v.state pre := by
  obtain ⟨state, numGroups, numDigits, dc, start, position, ipv4⟩ := v
  obtain ⟨-, hnum, hdc, hpos, hipv4, -⟩ := h
  dsimp only at hnum hdc hpos hipv4
  subst hnum hdc hpos hipv4
  unfold validateIpv6Address
  rw [hloop]
  cases state <;> simp [Accepts]

/-! ## What the loop accepts is an address of the grammar -/

theorem ipv6Address_of_group {pre : GroupsRead} {g : Bytes} (hgroups : ∀ g ∈ pre.groups, H16 g)
    (hg : H16 g) (hcount : if pre.after.isSome then pre.count + 1 ≤ 7 else pre.count + 1 = 8) :
    Ipv6Address (pre.text ++ g) := by
  obtain ⟨before, _ | after⟩ := pre
  · -- seven complete groups: the last of them and the group in hand are the `ls32`
    simp only [GroupsRead.count, Option.isSome_none, Bool.false_eq_true, if_false] at hcount
    rcases List.eq_nil_or_concat before with rfl | ⟨groups, a, rfl⟩
    · simp at hcount
    rw [List.concat_eq_append] at hgroups hcount ⊢
    have hls32 : Ls32 (a ++ ':'.toUInt8 :: g) :=
      .inl ⟨a, g, hgroups a (by simp [GroupsRead.groups]), hg, rfl⟩
    have h := Ipv6Address.full (by simpa using hcount)
      (fun g hg ↦ hgroups g (by simp [GroupsRead.groups, hg])) hls32
    simpa [GroupsRead.text, colonTerminated_append, colonTerminated_singleton] using h
  · simp only [GroupsRead.count, Option.isSome_some, if_true] at hcount
    have hbefore : ∀ g ∈ before, H16 g := fun g hg ↦ hgroups g (by simp [GroupsRead.groups, hg])
    rcases List.eq_nil_or_concat after with rfl | ⟨after, a, rfl⟩
    · -- no group after the `::` but the one in hand
      simpa [GroupsRead.text] using
        Ipv6Address.compressedH16 (by simpa using hcount) hbefore hg
    · -- the last group after the `::` and the group in hand are the `ls32`
      rw [List.concat_eq_append] at hgroups hcount ⊢
      have hafter : ∀ g ∈ after ++ [a], H16 g :=
        fun g hg ↦ hgroups g (by simp [GroupsRead.groups, hg])
      have hls32 : Ls32 (a ++ ':'.toUInt8 :: g) := .inl ⟨a, g, hafter a (by simp), hg, rfl⟩
      simp only [List.length_append, List.length_singleton] at hcount
      have h := @Ipv6Address.compressed before after _ (by omega) (by omega) hbefore
        (fun g hg ↦ hafter g (by simp [hg])) hls32
      simpa [GroupsRead.text, colonTerminated_append, colonTerminated_singleton] using h

theorem Ipv6Validation.Reads.ipv6Address {v : Ipv6Validation} {pre : GroupsRead} {t : Bytes}
    (h : v.Reads pre t) (haccepts : Accepts v.state pre) : Ipv6Address t := by
  obtain ⟨state, numGroups, numDigits, dc, start, position, ipv4⟩ := v
  have hs : StateReads state numDigits pre t := h.state
  cases state with
  | noGroupsYet =>
    obtain ⟨rfl, -, -⟩ := hs
    simp [Accepts, GroupsRead.count] at haccepts
  | colonButNoGroupsYet => exact haccepts.elim
  | colonAfterGroup => exact haccepts.elim
  | afterDoubleColon =>
    obtain ⟨before, after⟩ := pre
    obtain ⟨rfl, rfl, -⟩ := hs
    simp only [Accepts, GroupsRead.count, Option.isSome_some, if_true] at haccepts
    simpa [GroupsRead.text] using Ipv6Address.compressedEnd (by simpa using haccepts)
      fun g hg ↦ h.h16 g (by simp [GroupsRead.groups, hg])
  | inGroupNotIpv4 =>
    obtain ⟨g, hg, -, rfl⟩ := hs
    exact ipv6Address_of_group h.h16 hg haccepts
  | inGroupCouldBeIpv4 =>
    obtain ⟨g, hg, -, rfl, -⟩ := hs
    exact ipv6Address_of_group h.h16 hg haccepts

/-! ## The loop reads every address of the grammar -/

theorem ipv6Step_hexdig {v : Ipv6Validation} {c : UInt8} (hhex : hexdig.contains c = true)
    (hc : c ≠ '.'.toUInt8) (hcolon : c ≠ ':'.toUInt8)
    (hstate : (AtGroupStart v.state ∧ v.numDigits = 0) ∨ (InGroup v.state ∧ v.numDigits < 4)) :
    ∃ w, ipv6Step v c = some w ∧ InGroup w.state ∧ w.numDigits = v.numDigits + 1 ∧
      w.numGroups = v.numGroups ∧ w.doubleColonEncountered = v.doubleColonEncountered ∧
      w.position = v.position ∧ w.ipv4AddressEncountered = v.ipv4AddressEncountered ∧
      (w.state = .inGroupCouldBeIpv4 → digit.contains c = true ∧
        (v.state = .inGroupCouldBeIpv4 ∧
            w.potentialIpv4AddressStart = v.potentialIpv4AddressStart ∨
          AtGroupStart v.state ∧ w.potentialIpv4AddressStart = v.position)) ∧
      (digit.contains c = true → v.state ≠ .inGroupNotIpv4 →
        w.state = .inGroupCouldBeIpv4) := by
  have hroom : ¬v.numDigits + 1 > 4 := by rcases hstate with ⟨-, h⟩ | ⟨-, h⟩ <;> omega
  obtain ⟨state, numGroups, numDigits, dc, start, position, ipv4⟩ := v
  simp only [AtGroupStart, InGroup] at hstate
  by_cases hdigit : digit.contains c = true <;>
    rcases hstate with ⟨hs | hs | hs, hd⟩ | ⟨hs | hs, hd⟩ <;> subst hs <;>
    simp only [ipv6Step, hhex, hdigit, hc, hcolon, hroom, if_true, if_false] <;>
    refine ⟨_, rfl, ?_⟩ <;> simp [InGroup, AtGroupStart, hd, hdigit]

theorem ipv6Step_colon_of_inGroup {v : Ipv6Validation} (hs : InGroup v.state) :
    ipv6Step v ':'.toUInt8 = some { v with numDigits := 0, numGroups := v.numGroups + 1,
                                           state := .colonAfterGroup } := by
  rcases hs with hs | hs <;> simp [ipv6Step, hs]

theorem hexdig_ne_colon_dot {c : UInt8} (hc : hexdig.contains c = true) :
    c ≠ ':'.toUInt8 ∧ c ≠ '.'.toUInt8 :=
  ⟨fun h ↦ absurd (h ▸ hc) (by decide), fun h ↦ absurd (h ▸ hc) (by decide)⟩

theorem stateReads_inGroup {state : ValidationState} {numDigits : Nat} {pre : GroupsRead}
    {g : Bytes} (hs : InGroup state) (hg : H16 g) (hd : numDigits = g.length)
    (hdigits : state = .inGroupCouldBeIpv4 → ∀ c ∈ g, digit.contains c = true) :
    StateReads state numDigits pre (pre.text ++ g) := by
  rcases hs with rfl | rfl
  · exact ⟨g, hg, hd, rfl⟩
  · exact ⟨g, hg, hd, rfl, hdigits rfl⟩

theorem InGroup.not_atGroupStart {state : ValidationState} (h : InGroup state) :
    ¬AtGroupStart state := by
  rcases h with rfl | rfl <;> simp [AtGroupStart]

namespace Ipv6Validation.Reads

theorem group : ∀ {cs : Bytes} {v : Ipv6Validation} {pre : GroupsRead} {g : Bytes},
    v.Reads pre (pre.text ++ g) → (AtGroupStart v.state ∧ g = []) ∨ InGroup v.state →
    H16 (g ++ cs) →
    ∃ w, ipv6Loop v cs = some w ∧ w.Reads pre (pre.text ++ (g ++ cs)) ∧ InGroup w.state ∧
      (v.state ≠ .inGroupNotIpv4 → (∀ c ∈ cs, digit.contains c = true) →
        w.state = .inGroupCouldBeIpv4)
  | [], v, pre, g, h, hs, hg => by
    rcases hs with ⟨-, rfl⟩ | hs
    · exact absurd rfl hg.1
    · refine ⟨v, rfl, by simpa using h, hs, fun hne _ ↦ hs.resolve_left hne⟩
  | c :: cs, v, pre, g, h, hs, hg => by
    have hc : hexdig.contains c = true := hg.2.2 c (by simp)
    have hlength : g.length < 4 := by
      have := hg.2.1
      simp at this
      omega
    have hd : v.numDigits = g.length := by
      rcases hs with ⟨hs, rfl⟩ | hs
      · simpa using (h.atGroupStart_text hs).2
      · exact (h.inGroup_text hs).2
    obtain ⟨w, hstep, hw, hdw, hn, hdc, hpos, hipv4, hcould, hdigit⟩ :=
      ipv6Step_hexdig hc (hexdig_ne_colon_dot hc).2 (hexdig_ne_colon_dot hc).1
        (hs.imp (fun hs ↦ ⟨hs.1, by simp [hd, hs.2]⟩) fun hs ↦ ⟨hs, by omega⟩)
    have hinit : g ++ [c] <+: g ++ c :: cs := ⟨cs, by simp⟩
    have hgc : H16 (g ++ [c]) :=
      ⟨by simp, hinit.length_le.trans hg.2.1, fun x hx ↦ hg.2.2 x (hinit.subset hx)⟩
    -- a group of decimal digits keeps its digits and where it starts
    have hipv4Part : w.state = .inGroupCouldBeIpv4 →
        (∀ x ∈ g ++ [c], digit.contains x = true) ∧
          w.potentialIpv4AddressStart = pre.text.length := by
      intro hw'
      obtain ⟨hcdigit, ⟨hv, hstart⟩ | ⟨hv, hstart⟩⟩ := hcould hw'
      · obtain ⟨hdigits, hvstart⟩ := h.couldBeIpv4 hv
        exact ⟨List.forall_mem_append.2 ⟨hdigits, List.forall_mem_singleton.2 hcdigit⟩,
          hstart.trans hvstart⟩
      · obtain rfl : g = [] := hs.elim And.right fun hin ↦ absurd hv hin.not_atGroupStart
        exact ⟨by simpa using hcdigit, by simpa [h.position] using hstart⟩
    have h' : { w with position := w.position + 1 }.Reads pre (pre.text ++ g ++ [c]) :=
      h.next hn hdc (by simp [hpos]) (hipv4.trans h.ipv4)
        (by
          rw [List.append_assoc]
          exact stateReads_inGroup hw hgc (by simp [hdw, hd]) fun hw' ↦ (hipv4Part hw').1)
        fun hw' ↦ (hipv4Part hw').2
    rw [List.append_assoc] at h'
    obtain ⟨w', hloop, hr, hs', hdigits'⟩ := group h' (.inr hw) (by simpa using hg)
    refine ⟨w', by rw [ipv6Loop_cons_of_step cs hstep (hipv4.trans h.ipv4)]; exact hloop,
      by simpa using hr, hs', fun hne hcs ↦ hdigits' ?_ fun x hx ↦ hcs x (.tail _ hx)⟩
    show w.state ≠ _
    simp [hdigit (hcs c (List.mem_cons_self _ _)) hne]

theorem groupAtStart {v : Ipv6Validation} {pre : GroupsRead} {g : Bytes}
    (h : v.Reads pre pre.text) (hs : AtGroupStart v.state) (hg : H16 g) :
    ∃ w, ipv6Loop v g = some w ∧ w.Reads pre (pre.text ++ g) ∧ InGroup w.state ∧
      ((∀ c ∈ g, digit.contains c = true) → w.state = .inGroupCouldBeIpv4) := by
  obtain ⟨w, hloop, hr, hw, hdigits⟩ :=
    @group g v pre [] (by simpa using h) (.inl ⟨hs, rfl⟩) (by simpa using hg)
  exact ⟨w, hloop, by simpa using hr, hw,
    hdigits fun h ↦ absurd (h ▸ hs) (by simp [AtGroupStart])⟩

theorem colonTerminated : ∀ {groups : List Bytes} {v : Ipv6Validation} {pre : GroupsRead},
    v.Reads pre pre.text → AtGroupStart v.state → (∀ g ∈ groups, H16 g) →
    ∃ w, ipv6Loop v (Uri.colonTerminated groups) = some w ∧
      w.Reads (pre.append groups) (pre.append groups).text ∧
      w.state = if groups = [] then v.state else .colonAfterGroup
  | [], v, pre, h, _, _ => ⟨v, rfl, by simpa using h, rfl⟩
  | g :: groups, v, pre, h, hs, hgroups => by
    obtain ⟨w₁, hloop₁, h₁, hs₁, -⟩ := h.groupAtStart hs (hgroups g (List.mem_cons_self _ _))
    have h₂ := h₁.endGroup (hgroups g (List.mem_cons_self _ _)) rfl rfl
    rw [List.append_assoc, ← GroupsRead.text_push] at h₂
    obtain ⟨w, hloop, h, hw⟩ := h₂.colonTerminated (.inr (.inr rfl))
      fun g hg ↦ hgroups g (List.mem_cons_of_mem _ hg)
    refine ⟨w, ?_, by rwa [GroupsRead.append_cons],
      by rw [hw, if_neg (List.cons_ne_nil _ _)]; split_ifs <;> rfl⟩
    rw [show Uri.colonTerminated (g :: groups) = g ++ ':'.toUInt8 :: Uri.colonTerminated groups by
      simp [Uri.colonTerminated], ipv6Loop_append _ hloop₁ h₁.ipv4,
      ipv6Loop_cons_of_step _ (ipv6Step_colon_of_inGroup hs₁) h₁.ipv4]
    exact hloop

end Ipv6Validation.Reads

theorem ipv6Loop_compressed {before : List Bytes} (hbefore : ∀ g ∈ before, H16 g) :
    ∃ w, ipv6Loop ⟨.noGroupsYet, 0, 0, false, 0, 0, false⟩ (colonSeparated before ++ doubleColon) =
        some w ∧ w.Reads ⟨before, some []⟩ (colonSeparated before ++ doubleColon) ∧
      w.state = .afterDoubleColon := by
  rcases eq_or_ne before [] with rfl | hne
  · exact ⟨⟨.afterDoubleColon, 0, 0, true, 0, 2, false⟩, rfl,
      ⟨by simp [GroupsRead.groups], rfl, rfl, rfl, rfl, ⟨rfl, rfl, rfl⟩, nofun⟩, rfl⟩
  obtain ⟨w, hloop, h, hs⟩ := Ipv6Validation.reads_init.colonTerminated (.inl rfl) hbefore
  rw [if_neg hne] at hs
  have hdc : w.doubleColonEncountered = false := by
    simpa [GroupsRead.append] using h.doubleColon
  have hstep : ipv6Step w ':'.toUInt8 =
      some { w with doubleColonEncountered := true, state := .afterDoubleColon } := by
    simp [ipv6Step, hs, hdc]
  have h' : w.Reads ⟨before, none⟩ (colonTerminated before) := by
    simpa [GroupsRead.append, GroupsRead.text] using h
  rw [colonSeparated_append_doubleColon hne]
  exact ⟨_, by rw [ipv6Loop_append _ hloop h.ipv4, ipv6Loop_cons_of_step _ hstep h.ipv4]; rfl,
    h'.compress hne (h.atGroupStart_text (.inr (.inr hs))).2 rfl, rfl⟩

theorem Ls32.h16_h16 {tail : Bytes} (h : Ls32 tail) (hdot : '.'.toUInt8 ∉ tail) :
    ∃ a b, H16 a ∧ H16 b ∧ tail = a ++ ':'.toUInt8 :: b := by
  rcases h with h | ⟨a, b, c, d, -, -, -, -, rfl⟩
  · exact h
  · exact absurd (by simp) hdot

theorem ipv6Loop_groupsRead {pre : GroupsRead} (hpre : ∀ g ∈ pre.groups, H16 g) :
    ∃ w, ipv6Loop ⟨.noGroupsYet, 0, 0, false, 0, 0, false⟩ pre.text = some w ∧
      w.Reads pre pre.text ∧ AtGroupStart w.state := by
  obtain ⟨before, _ | after⟩ := pre
  · obtain ⟨w, hloop, h, hs⟩ := Ipv6Validation.reads_init.colonTerminated (.inl rfl) hpre
    refine ⟨w, hloop, by simpa [GroupsRead.append] using h, ?_⟩
    rw [hs]
    split_ifs <;> simp [AtGroupStart]
  · have hbefore : ∀ g ∈ before, H16 g := fun g hg ↦ hpre g (by simp [GroupsRead.groups, hg])
    obtain ⟨w₁, hloop₁, h₁, hs₁⟩ := ipv6Loop_compressed hbefore
    rw [← GroupsRead.text_compressed] at h₁
    obtain ⟨w, hloop, h, hs⟩ := @Ipv6Validation.Reads.colonTerminated after w₁ _ h₁
      (.inr (.inl hs₁)) fun g hg ↦ hpre g (by simp [GroupsRead.groups, hg])
    refine ⟨w, ?_, by simpa [GroupsRead.append] using h, ?_⟩
    · show ipv6Loop _ (colonSeparated before ++ doubleColon ++ colonTerminated after) = _
      rw [ipv6Loop_append _ hloop₁ h₁.ipv4]
      exact hloop
    rw [hs]
    split_ifs <;> simp [AtGroupStart, hs₁]

theorem ipv6Loop_group {pre : GroupsRead} {g : Bytes} (hpre : ∀ g ∈ pre.groups, H16 g)
    (hg : H16 g) :
    ∃ w, ipv6Loop ⟨.noGroupsYet, 0, 0, false, 0, 0, false⟩ (pre.text ++ g) = some w ∧
      w.Reads pre (pre.text ++ g) ∧ InGroup w.state ∧
      ((∀ c ∈ g, digit.contains c = true) → w.state = .inGroupCouldBeIpv4) := by
  obtain ⟨w₁, hloop₁, h₁, hs₁⟩ := ipv6Loop_groupsRead hpre
  obtain ⟨w, hloop, h, hs, hdigits⟩ := h₁.groupAtStart hs₁ hg
  exact ⟨w, by rw [ipv6Loop_append _ hloop₁ h₁.ipv4]; exact hloop, h, hs, hdigits⟩

/-- The loop reads every `IPv6address` without a `.` to a reading that the test after it accepts. -/
theorem Ipv6Address.reads {t : Bytes} (h : Ipv6Address t) (hdot : '.'.toUInt8 ∉ t) :
    ∃ v pre, ipv6Loop ⟨.noGroupsYet, 0, 0, false, 0, 0, false⟩ t = some v ∧ v.Reads pre t ∧
      Accepts v.state pre := by
  cases h with
  | @full groups tail hlength hgroups htail =>
    -- the first group of the `ls32` is the seventh complete group
    obtain ⟨a, b, ha, hb, rfl⟩ := htail.h16_h16 fun h ↦ hdot (List.mem_append_right _ h)
    obtain ⟨w, hloop, h, hs, -⟩ := @ipv6Loop_group ⟨groups ++ [a], none⟩ b
      (List.forall_mem_append.2 ⟨hgroups, List.forall_mem_singleton.2 ha⟩) hb
    have htext : colonTerminated groups ++ (a ++ ':'.toUInt8 :: b) =
        GroupsRead.text ⟨groups ++ [a], none⟩ ++ b := by
      simp [GroupsRead.text, colonTerminated_append, colonTerminated_singleton]
    rw [htext]
    exact ⟨w, _, hloop, h, by
      rcases hs with hs | hs <;> simp [Accepts, hs, GroupsRead.count, hlength]⟩
  | @compressed before after tail hafter hcount hbefore hafter' htail =>
    obtain ⟨a, b, ha, hb, rfl⟩ := htail.h16_h16 fun h ↦ hdot (List.mem_append_right _ h)
    obtain ⟨w, hloop, h, hs, -⟩ := @ipv6Loop_group ⟨before, some (after ++ [a])⟩ b
      (List.forall_mem_append.2 ⟨hbefore, List.forall_mem_append.2 ⟨hafter',
        List.forall_mem_singleton.2 ha⟩⟩) hb
    have htext : colonSeparated before ++ doubleColon ++ colonTerminated after ++
        (a ++ ':'.toUInt8 :: b) = GroupsRead.text ⟨before, some (after ++ [a])⟩ ++ b := by
      simp [GroupsRead.text, colonTerminated_append, colonTerminated_singleton]
    rw [htext]
    exact ⟨w, _, hloop, h, by
      rcases hs with hs | hs <;> simp [Accepts, hs, GroupsRead.count] <;> omega⟩
  | @compressedH16 before last hlength hbefore hlast =>
    obtain ⟨w, hloop, h, hs, -⟩ := @ipv6Loop_group ⟨before, some []⟩ last
      (by simpa [GroupsRead.groups] using hbefore) hlast
    rw [GroupsRead.text_compressed] at hloop h
    exact ⟨w, _, hloop, h, by
      rcases hs with hs | hs <;> simp [Accepts, hs, GroupsRead.count] <;> omega⟩
  | @compressedEnd before hlength hbefore =>
    obtain ⟨w, hloop, h, hs⟩ := ipv6Loop_compressed hbefore
    exact ⟨w, _, hloop, h, by simp [Accepts, hs, GroupsRead.count, hlength]⟩

/-- What `ValidateIpv6Address` accepts without a `.` is an `IPv6address`. -/
theorem ipv6Address_of_validateIpv6Address {t : Bytes} (hdot : '.'.toUInt8 ∉ t)
    (h : validateIpv6Address t = true) : Ipv6Address t := by
  rcases hloop : ipv6Loop ⟨.noGroupsYet, 0, 0, false, 0, 0, false⟩ t with _ | v
  · simp [validateIpv6Address, hloop] at h
  obtain ⟨pre, hr⟩ := Ipv6Validation.reads_init.loop hdot hloop
  rw [List.nil_append] at hr
  exact hr.ipv6Address ((validateIpv6Address_eq_true_iff_accepts hloop hr).1 h)

/-- `ValidateIpv6Address` accepts every `IPv6address` without a `.`. -/
theorem validateIpv6Address_of_ipv6Address {t : Bytes} (hdot : '.'.toUInt8 ∉ t)
    (h : Ipv6Address t) : validateIpv6Address t = true := by
  obtain ⟨v, pre, hloop, hr, haccepts⟩ := h.reads hdot
  exact (validateIpv6Address_eq_true_iff_accepts hloop hr).2 haccepts

/-- On an address without a `.`, `ValidateIpv6Address` accepts exactly RFC 3986's `IPv6address`. -/
theorem validateIpv6Address_iff_of_dot_not_mem {t : Bytes} (hdot : '.'.toUInt8 ∉ t) :
    validateIpv6Address t = true ↔ Ipv6Address t :=
  ⟨ipv6Address_of_validateIpv6Address hdot, validateIpv6Address_of_ipv6Address hdot⟩

/-- `2001:db8::1`, an address without an IPv4 tail. -/
theorem validateIpv6Address_iff_2001_db8 :
    '.'.toUInt8 ∉ bytesOf "2001:db8::1" ∧
      (validateIpv6Address (bytesOf "2001:db8::1") = true ↔ Ipv6Address (bytesOf "2001:db8::1")) :=
  ⟨by decide, validateIpv6Address_iff_of_dot_not_mem (by decide)⟩

/-! ## Addresses with an IPv4 part -/

theorem ipv6Loop_append_of_none {v : Ipv6Validation} {a : Bytes} (b : Bytes)
    (h : ipv6Loop v a = none) : ipv6Loop v (a ++ b) = none := by
  induction a generalizing v with
  | nil => simp [ipv6Loop] at h
  | cons c a ih =>
    rw [List.cons_append, ipv6Loop]
    rw [ipv6Loop] at h
    rcases hstep : ipv6Step v c with _ | v'
    · rfl
    simp only [hstep] at h ⊢
    split_ifs at h ⊢
    exact ih h

theorem ipv6Loop_dot (v : Ipv6Validation) (r : Bytes) :
    ipv6Loop v ('.'.toUInt8 :: r) =
      if v.state = .inGroupCouldBeIpv4 then some { v with ipv4AddressEncountered := true }
      else none := by
  have hdigit : digit.contains '.'.toUInt8 = false := by decide
  have hhex : hexdig.contains '.'.toUInt8 = false := by decide
  have hcolon : '.'.toUInt8 ≠ ':'.toUInt8 := by decide
  obtain ⟨state, numGroups, numDigits, dc, start, position, ipv4⟩ := v
  cases state <;> simp [ipv6Loop, ipv6Step, hdigit, hhex, hcolon]

/-- After a loop without `.`, on a `.` and a rest: accepted exactly when the loop is in a group of
decimal digits, `ValidateIpv4Address` accepts the text from that group on, and the groups
come to eight, or at most seven around a `::`, counting the IPv4 part as three. -/
theorem validateIpv6Address_append_dot {p r : Bytes} {w : Ipv6Validation} {pre : GroupsRead}
    (hloop : ipv6Loop ⟨.noGroupsYet, 0, 0, false, 0, 0, false⟩ p = some w) (h : w.Reads pre p) :
    validateIpv6Address (p ++ '.'.toUInt8 :: r) = true ↔
      w.state = .inGroupCouldBeIpv4 ∧
        validateIpv4Address ((p ++ '.'.toUInt8 :: r).drop pre.text.length) = true ∧
        (if pre.after.isSome then pre.count + 3 ≤ 7 else pre.count + 3 = 8) := by
  have hfull := ipv6Loop_append ('.'.toUInt8 :: r) hloop h.ipv4
  rw [ipv6Loop_dot] at hfull
  by_cases hs : w.state = .inGroupCouldBeIpv4
  · rw [if_pos hs] at hfull
    have hstart := h.ipv4Start hs
    obtain ⟨state, numGroups, numDigits, dc, start, position, ipv4⟩ := w
    obtain ⟨-, hnum, hdc, -, -, -, -⟩ := h
    dsimp only at hs hnum hdc hstart
    subst hs hnum hdc hstart
    unfold validateIpv6Address
    rw [hfull]
    simp [Nat.add_assoc]
  · rw [if_neg hs] at hfull
    simp [validateIpv6Address, hfull, hs]

/-- What `ValidateIpv6Address` accepts with an IPv4 part: five groups, or at most four around a
`::`, then a group of one to four decimal digits starting a text `ValidateIpv4Address` accepts. -/
def Ipv4PartAccepted (t : Bytes) : Prop :=
  ∃ (pre : GroupsRead) (g r : Bytes), (∀ h ∈ pre.groups, H16 h) ∧ H16 g ∧
    (∀ c ∈ g, digit.contains c = true) ∧ validateIpv4Address (g ++ '.'.toUInt8 :: r) = true ∧
    (if pre.after.isSome then pre.count + 3 ≤ 7 else pre.count + 3 = 8) ∧
    t = pre.text ++ (g ++ '.'.toUInt8 :: r)

/-- What `ValidateIpv6Address` accepts with a `.` is a text of `Ipv4PartAccepted`. -/
theorem ipv4PartAccepted_of_validateIpv6Address {t : Bytes} (hdot : '.'.toUInt8 ∈ t)
    (h : validateIpv6Address t = true) : Ipv4PartAccepted t := by
  obtain ⟨p, r, rfl, hp⟩ := exists_eq_append_cons hdot
  rcases hloop : ipv6Loop ⟨.noGroupsYet, 0, 0, false, 0, 0, false⟩ p with _ | w
  · simp [validateIpv6Address, ipv6Loop_append_of_none _ hloop] at h
  obtain ⟨pre, hr⟩ := Ipv6Validation.reads_init.loop hp hloop
  rw [List.nil_append] at hr
  obtain ⟨hs, hipv4, hcount⟩ := (validateIpv6Address_append_dot hloop hr).1 h
  have hstate := hr.state
  rw [hs] at hstate
  obtain ⟨g, hg, -, rfl, hdigits⟩ := hstate
  rw [List.append_assoc, List.drop_left] at hipv4
  exact ⟨pre, g, r, hr.h16, hg, hdigits, hipv4, hcount, List.append_assoc _ _ _⟩

/-- `ValidateIpv6Address` accepts every text of `Ipv4PartAccepted`. -/
theorem validateIpv6Address_of_ipv4PartAccepted {t : Bytes} (h : Ipv4PartAccepted t) :
    validateIpv6Address t = true := by
  obtain ⟨pre, g, r, hpre, hg, hdigits, hipv4, hcount, rfl⟩ := h
  obtain ⟨w, hloop, hr, -, hcould⟩ := ipv6Loop_group hpre hg
  rw [← List.append_assoc]
  refine (validateIpv6Address_append_dot hloop hr).2 ⟨hcould hdigits, ?_, hcount⟩
  rwa [List.append_assoc, List.drop_left]

/-- `ValidateIpv6Address` accepts exactly the `IPv6address`es without a `.`, and the texts of
`Ipv4PartAccepted`: with an IPv4 part it wants one group fewer than RFC 3986 does, holds the
part's first octet to four digits, and takes the rest as `ValidateIpv4Address` does. -/
theorem validateIpv6Address_iff (t : Bytes) :
    validateIpv6Address t = true ↔
      ('.'.toUInt8 ∉ t ∧ Ipv6Address t) ∨ Ipv4PartAccepted t := by
  by_cases hdot : '.'.toUInt8 ∈ t
  · refine ⟨fun h ↦ .inr (ipv4PartAccepted_of_validateIpv6Address hdot h), ?_⟩
    rintro (⟨hnot, -⟩ | h)
    · exact absurd hdot hnot
    · exact validateIpv6Address_of_ipv4PartAccepted h
  · refine ⟨fun h ↦ .inl ⟨hdot, ipv6Address_of_validateIpv6Address hdot h⟩, ?_⟩
    rintro (⟨-, h⟩ | h)
    · exact validateIpv6Address_of_ipv6Address hdot h
    · exact validateIpv6Address_of_ipv4PartAccepted h

example : Ipv4PartAccepted (bytesOf "1:2:3:4:5:1.2.3.4") :=
  ⟨⟨["1", "2", "3", "4", "5"].map bytesOf, none⟩, bytesOf "1", bytesOf "2.3.4", by decide,
    by decide, by decide, by decide, by decide, rfl⟩

end Uri
