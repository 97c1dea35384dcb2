import Uri.DottedQuad

/-!
# `ValidateIpv6Address` and the groups of an IPv4 tail

RFC 3986 counts an IPv4 tail, `ls32`'s second alternative, as two of an address's eight
groups, and so do the spec and the `numGroups += 2` of `ValidateIpv6Address`. But the machine
stops at the tail's first `.` in the state of a group that could be IPv4, which the count of a
trailing group also takes: the tail counts three. Six groups and a tail are rejected, and five
groups and a tail without `::` are accepted (`validateIpv6Address_ipv4Tail_groups`). The tail
goes to `ValidateIpv4Address`, which also takes a `.` after its fourth octet.

Two facts of the grammar rule out the addresses the validator accepts wrongly: an
`IPv6address` holds a `::` or at least six `:` (`Ipv6Address.doubleColon_or_colons`), and it
ends in a hexadecimal digit or a `:` (`Ipv6Address.getLast?_mem`).
-/

namespace Uri

instance : DecidablePred H16 := fun _ ↦ inferInstanceAs (Decidable (_ ∧ _ ∧ _))

/-! ## Colons and last characters of the grammar -/

theorem H16.colon_not_mem {g : Bytes} (h : H16 g) : ':'.toUInt8 ∉ g :=
  fun hc ↦ absurd (h.2.2 _ hc) (by decide)

theorem count_colonTerminated {groups : List Bytes} (h : ∀ g ∈ groups, H16 g) :
    (colonTerminated groups).count ':'.toUInt8 = groups.length := by
  induction groups with
  | nil => rfl
  | cons g groups ih =>
    have hg := List.count_eq_zero_of_not_mem (h g (List.mem_cons_self _ _)).colon_not_mem
    simp only [colonTerminated, List.flatMap_cons, List.count_append, hg] at ih ⊢
    rw [ih fun g' hg' ↦ h g' (List.mem_cons_of_mem _ hg')]
    simp [List.count_singleton]
    omega

/-- An `IPv6address` holds a `::`, or at least six `:`. -/
theorem Ipv6Address.doubleColon_or_colons {t : Bytes} (h : Ipv6Address t) :
    doubleColon <:+: t ∨ 6 ≤ t.count ':'.toUInt8 := by
  cases h with
  | @full groups tail hlength hgroups _ =>
    right
    rw [List.count_append, count_colonTerminated hgroups, hlength]
    omega
  | @compressed before after tail _ _ _ _ _ =>
    exact .inl ⟨colonSeparated before, colonTerminated after ++ tail, by simp⟩
  | @compressedH16 before last _ _ _ =>
    exact .inl ⟨colonSeparated before, last, rfl⟩
  | @compressedEnd before _ _ =>
    exact .inl ⟨colonSeparated before, [], by simp⟩

theorem getLast?_append_cons {a b : Bytes} (c : UInt8) (hb : b ≠ []) :
    (a ++ c :: b).getLast? = b.getLast? := by
  obtain ⟨y, ys, rfl⟩ := List.exists_cons_of_ne_nil hb
  rw [List.getLast?_append_of_ne_nil _ (List.cons_ne_nil _ _), List.getLast?_cons_cons]

theorem getLast?_hexdig {g : Bytes} (hne : g ≠ []) (h : ∀ c ∈ g, hexdig.contains c = true) :
    ∃ x, g.getLast? = some x ∧ hexdig.contains x = true := by
  obtain ⟨x, hx⟩ := Option.ne_none_iff_exists'.1 (mt List.getLast?_eq_none_iff.1 hne)
  exact ⟨x, hx, h x (List.mem_of_getLast?_eq_some hx)⟩

theorem Ls32.getLast? {t : Bytes} (h : Ls32 t) :
    ∃ x, t.getLast? = some x ∧ hexdig.contains x = true := by
  rcases h with ⟨a, b, -, hb, rfl⟩ | ⟨a, b, c, d, -, -, -, ⟨n, -, rfl⟩, rfl⟩
  · rw [getLast?_append_cons _ hb.1]
    exact getLast?_hexdig hb.1 hb.2.2
  · rw [getLast?_append_cons _ (decimal_ne_nil n)]
    exact getLast?_hexdig (decimal_ne_nil n) fun x hx ↦ digit_hexdig (decimal_digit n x hx)

theorem Ipv6Address.getLast?_mem {t : Bytes} (h : Ipv6Address t) :
    ∀ x, t.getLast? = some x → hexdig.contains x = true ∨ x = ':'.toUInt8 := by
  intro x hx
  have hlast : ∀ {a b : Bytes}, (∃ y, b.getLast? = some y ∧ hexdig.contains y = true) →
      (a ++ b).getLast? = some x → hexdig.contains x = true := by
    rintro a b ⟨y, hy, hhex⟩ hx
    rw [List.getLast?_append_of_ne_nil _ (fun h ↦ by simp [h] at hy), hy] at hx
    exact Option.some_injective _ hx ▸ hhex
  cases h with
  | full _ _ htail => exact .inl (hlast htail.getLast? hx)
  | compressed _ _ _ _ htail => exact .inl (hlast htail.getLast? hx)
  | compressedH16 _ _ hlast' => exact .inl (hlast (getLast?_hexdig hlast'.1 hlast'.2.2) hx)
  | compressedEnd _ _ =>
    rw [List.getLast?_append_of_ne_nil _ (by simp [doubleColon])] at hx
    exact .inr (Option.some_injective _ hx).symm

/-! ## The tail counts three groups -/

/-- `1:2:3:4:5:6:1.2.3.4` is an `IPv6address` and is rejected; `1:2:3:4:5:1.2.3.4` and
`::1.2.3.4.` are not, and are accepted. -/
theorem validateIpv6Address_ipv4Tail_groups :
    (Ipv6Address (bytesOf "1:2:3:4:5:6:1.2.3.4") ∧
        validateIpv6Address (bytesOf "1:2:3:4:5:6:1.2.3.4") = false) ∧
      (¬Ipv6Address (bytesOf "1:2:3:4:5:1.2.3.4") ∧
        validateIpv6Address (bytesOf "1:2:3:4:5:1.2.3.4") = true) ∧
      (¬Ipv6Address (bytesOf "::1.2.3.4.") ∧
        validateIpv6Address (bytesOf "::1.2.3.4.") = true) := by
  refine ⟨⟨?_, by decide⟩, ⟨fun h ↦ ?_, by decide⟩, ⟨fun h ↦ ?_, by decide⟩⟩
  · have hoctet : ∀ n ≤ 255, DecOctet (decimal n) := fun n hn ↦ ⟨n, hn, rfl⟩
    have h := @Ipv6Address.full (["1", "2", "3", "4", "5", "6"].map bytesOf)
      (bytesOf "1.2.3.4") rfl (by decide)
      (.inr ⟨decimal 1, decimal 2, decimal 3, decimal 4, hoctet 1 (by norm_num),
        hoctet 2 (by norm_num), hoctet 3 (by norm_num), hoctet 4 (by norm_num), by decide⟩)
    exact (show colonTerminated (["1", "2", "3", "4", "5", "6"].map bytesOf) ++
      bytesOf "1.2.3.4" = bytesOf "1:2:3:4:5:6:1.2.3.4" by decide) ▸ h
  · rcases h.doubleColon_or_colons with h | h
    · exact absurd h (by decide)
    · exact absurd h (by decide)
  · exact absurd (h.getLast?_mem '.'.toUInt8 rfl) (by decide)

end Uri
