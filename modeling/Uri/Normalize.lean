import Uri.Impl

/-!
# Path normalization

`Impl::NormalizePath` rebuilds the path one segment at a time, applying `.` and `..` as it goes
and collapsing a directory marker that follows another. Whether a `..` may remove a segment is
`CanNavigatePathUpOneLevel`, asked of the path rebuilt so far: never the root of an absolute
path.

An absolute path stays absolute (`isPathAbsolute_normalizePath`): the first step of the loop
rebuilds the root, and no later step removes it. A relative path stays relative: the rebuilt
path is empty only at directory level, where an empty segment is not appended.

What the loop leaves is in `NormalForm`: no `.` or `..` segment, and no empty segment right
after another. Its invariant (`NormalizeState.Valid`) adds that the rebuilt path ends in an
empty segment only at directory level. A path in normal form goes through the loop unchanged,
so normalizing twice is normalizing once.
-/

namespace Uri

/-- `Impl::CanNavigatePathUpOneLevel`, on the path rebuilt so far. -/
def canNavigatePathUpOneLevel (path : List Bytes) : Bool :=
  !isPathAbsolute path || path.length > 1

/-- The variables of `NormalizePath`'s loop. -/
structure NormalizeState where
  path : List Bytes
  atDirectoryLevel : Bool

/-- One iteration of `NormalizePath`'s loop. -/
def normalizeStep (s : NormalizeState) (segment : Bytes) : NormalizeState :=
  if segment = ['.'.toUInt8] then { s with atDirectoryLevel := true }
  else if segment = ['.'.toUInt8, '.'.toUInt8] then
    { path := if !s.path.isEmpty && canNavigatePathUpOneLevel s.path then s.path.dropLast
              else s.path,
      atDirectoryLevel := true }
  else
    { path := if !s.atDirectoryLevel || !segment.isEmpty then s.path ++ [segment] else s.path,
      atDirectoryLevel := segment.isEmpty }

/-- `Impl::NormalizePath`, on the path. -/
def normalizePath (oldPath : List Bytes) : List Bytes :=
  let s := oldPath.foldl normalizeStep ⟨[], false⟩
  match s.path.getLast? with
  | some last => if s.atDirectoryLevel && !last.isEmpty then s.path ++ [[]] else s.path
  | none => s.path

/-- `Uri::NormalizePath`. -/
def Impl.normalizePath (u : Impl) : Impl := { u with path := Uri.normalizePath u.path }

/-- `Impl::CopyAndNormalizePath`. -/
def Impl.copyAndNormalizePath (u other : Impl) : Impl := (u.copyPath other).normalizePath

/-! ## Absolute paths stay absolute -/

theorem isPathAbsolute_append {path : List Bytes} (h : isPathAbsolute path = true)
    (more : List Bytes) : isPathAbsolute (path ++ more) = true := by
  obtain ⟨rest, rfl⟩ := (isPathAbsolute_iff path).1 h
  rfl

theorem isPathAbsolute_normalizeStep {s : NormalizeState} (h : isPathAbsolute s.path = true)
    (segment : Bytes) : isPathAbsolute (normalizeStep s segment).path = true := by
  obtain ⟨rest, hs⟩ := (isPathAbsolute_iff _).1 h
  unfold normalizeStep
  split_ifs with h₁ h₂ h₃ h₄
  · exact h
  · -- a `..` removes a segment only from a path with more than the root
    simp only [canNavigatePathUpOneLevel, h, hs, Bool.not_true, Bool.false_or,
      List.isEmpty_cons, Bool.and_true, Bool.not_false, decide_eq_true_eq] at h₃
    cases rest with
    | nil => simp [isPathAbsolute] at h₃
    | cons x rest => simp [hs, List.dropLast, isPathAbsolute]
  · exact h
  · exact isPathAbsolute_append h _
  · exact h

theorem isPathAbsolute_foldl_normalizeStep (segments : List Bytes) :
    ∀ s : NormalizeState, isPathAbsolute s.path = true →
      isPathAbsolute (segments.foldl normalizeStep s).path = true := by
  induction segments with
  | nil => exact fun s h ↦ h
  | cons segment segments ih =>
    exact fun s h ↦ ih _ (isPathAbsolute_normalizeStep h segment)

/-- Normalizing an absolute path gives an absolute path. -/
theorem isPathAbsolute_normalizePath {path : List Bytes} (h : isPathAbsolute path = true) :
    isPathAbsolute (normalizePath path) = true := by
  obtain ⟨rest, rfl⟩ := (isPathAbsolute_iff path).1 h
  have hfold := isPathAbsolute_foldl_normalizeStep rest ⟨[[]], true⟩ rfl
  have hroot : normalizeStep ⟨[], false⟩ [] = ⟨[[]], true⟩ := rfl
  unfold normalizePath
  simp only [List.foldl_cons, hroot]
  split
  · split_ifs
    · exact isPathAbsolute_append hfold _
    · exact hfold
  · exact hfold

/-! ## The normal form -/

/-- A `.` or `..` segment. -/
def IsDotSegment (segment : Bytes) : Prop :=
  segment = ['.'.toUInt8] ∨ segment = ['.'.toUInt8, '.'.toUInt8]

instance : DecidablePred IsDotSegment := fun _ ↦ inferInstanceAs (Decidable (_ ∨ _))

/-- What `NormalizePath` leaves: no `.` or `..` segment, and no empty segment after another. -/
structure NormalForm (path : List Bytes) : Prop where
  no_dot_segment : ∀ segment ∈ path, ¬IsDotSegment segment
  no_adjacent_empty : path.Chain' fun a b ↦ a ≠ [] ∨ b ≠ []

theorem normalForm_cons {segment : Bytes} {path : List Bytes} :
    NormalForm (segment :: path) ↔
      ¬IsDotSegment segment ∧ (segment = [] → path.head? ≠ some []) ∧ NormalForm path := by
  simp only [← and_assoc]
  constructor
  · rintro ⟨hdot, hchain⟩
    rw [List.chain'_cons'] at hchain
    refine ⟨⟨hdot _ (List.mem_cons_self _ _), fun hs hhead ↦ ?_⟩, ⟨fun t ht ↦
      hdot t (List.mem_cons_of_mem _ ht), hchain.2⟩⟩
    simpa [hs] using hchain.1 [] hhead
  · rintro ⟨⟨hdot, hhead⟩, hpath⟩
    refine ⟨by simpa [hdot] using hpath.no_dot_segment, List.chain'_cons'.2 ⟨?_, hpath.2⟩⟩
    intro t ht
    by_cases hs : segment = []
    · exact .inr fun h ↦ hhead hs (h ▸ ht)
    · exact .inl hs

theorem normalForm_nil : NormalForm [] := ⟨by simp, List.chain'_nil⟩

theorem NormalForm.append {path : List Bytes} (h : NormalForm path) {segment : Bytes}
    (hdot : ¬IsDotSegment segment) (hempty : segment = [] → path.getLast? ≠ some []) :
    NormalForm (path ++ [segment]) := by
  refine ⟨by simpa [or_imp, forall_and, hdot] using h.no_dot_segment,
    List.Chain'.append h.no_adjacent_empty (List.chain'_singleton _) ?_⟩
  intro x hx y hy
  obtain rfl : y = segment := by simpa using hy.symm
  by_cases hs : y = []
  · exact .inl fun h ↦ hempty hs (h ▸ hx)
  · exact .inr hs

/-- The loop's invariant: the path so far is in normal form, and empty only at directory level. -/
structure NormalizeState.Valid (s : NormalizeState) : Prop where
  normal_form : NormalForm s.path
  last_empty : s.path.getLast? = some [] → s.atDirectoryLevel = true

/-- A step keeps the loop's invariant. -/
theorem NormalizeState.Valid.normalizeStep {s : NormalizeState} (h : s.Valid) (segment : Bytes) :
    (Uri.normalizeStep s segment).Valid := by
  unfold Uri.normalizeStep
  split_ifs with hdot hdotdot hnavigate happend
  · exact ⟨h.normal_form, fun _ ↦ rfl⟩
  · exact ⟨⟨fun t ht ↦ h.normal_form.no_dot_segment t (List.dropLast_subset _ ht),
      h.normal_form.no_adjacent_empty.init⟩, fun _ ↦ rfl⟩
  · exact ⟨h.normal_form, fun _ ↦ rfl⟩
  · have hsegment : ¬IsDotSegment segment := by simp [IsDotSegment, hdot, hdotdot]
    refine ⟨h.normal_form.append hsegment fun hs hlast ↦ ?_, fun hlast ↦ ?_⟩
    · simp [hs, h.last_empty hlast] at happend
    · simpa using (List.getLast?_concat _).symm.trans hlast
  · simp only [Bool.not_eq_true', Bool.or_eq_true, not_or, Bool.not_eq_false] at happend
    exact ⟨h.normal_form, fun _ ↦ happend.2⟩

theorem NormalizeState.Valid.foldl {s : NormalizeState} (h : s.Valid) (segments : List Bytes) :
    (segments.foldl Uri.normalizeStep s).Valid := by
  induction segments generalizing s with
  | nil => exact h
  | cons segment segments ih => exact ih (h.normalizeStep segment)

/-- `NormalizePath` leaves a path in normal form. -/
theorem normalizePath_normalForm (path : List Bytes) : NormalForm (normalizePath path) := by
  have h : (path.foldl normalizeStep ⟨[], false⟩).Valid :=
    NormalizeState.Valid.foldl ⟨normalForm_nil, by simp⟩ path
  unfold normalizePath
  dsimp only
  split
  · split_ifs with hmarker
    · refine h.normal_form.append (by decide) fun _ hlast ↦ ?_
      simp_all
    · exact h.normal_form
  · exact h.normal_form

/-! ## Relative paths stay relative -/

@[simp]
theorem isPathAbsolute_nil : isPathAbsolute [] = false := rfl

theorem ne_nil_of_isPathAbsolute {path : List Bytes} (h : isPathAbsolute path = true) :
    path ≠ [] := by
  rintro rfl
  exact Bool.noConfusion h

@[simp]
theorem isPathAbsolute_cons (segment : Bytes) (path : List Bytes) :
    isPathAbsolute (segment :: path) = segment.isEmpty := by
  cases segment <;> rfl

theorem isPathAbsolute_append_of_ne_nil {path : List Bytes} (h : path ≠ []) (more : List Bytes) :
    isPathAbsolute (path ++ more) = isPathAbsolute path := by
  obtain ⟨first, rest, rfl⟩ := List.exists_cons_of_ne_nil h
  simp

theorem isPathAbsolute_dropLast_of_relative :
    ∀ {path : List Bytes}, isPathAbsolute path = false → isPathAbsolute path.dropLast = false
  | [], _ => rfl
  | [_], _ => rfl
  | _ :: _ :: _, h => by simpa using h

/-- The loop's invariant on a relative path: relative so far, empty only at directory level. -/
def NormalizeState.Relative (s : NormalizeState) : Prop :=
  isPathAbsolute s.path = false ∧ (s.path = [] → s.atDirectoryLevel = true)

theorem NormalizeState.Relative.normalizeStep {s : NormalizeState} (h : s.Relative)
    (segment : Bytes) : (Uri.normalizeStep s segment).Relative := by
  unfold Uri.normalizeStep
  split_ifs with hdot hdotdot hnavigate happend
  · exact ⟨h.1, fun _ ↦ rfl⟩
  · exact ⟨isPathAbsolute_dropLast_of_relative h.1, fun _ ↦ rfl⟩
  · exact ⟨h.1, fun _ ↦ rfl⟩
  · refine ⟨?_, fun hnil ↦ absurd hnil (by simp)⟩
    cases hpath : s.path with
    | nil =>
      simp only [hpath, h.2 hpath, Bool.not_true, Bool.false_or, Bool.not_eq_true',
        List.isEmpty_eq_false] at happend
      simpa using happend
    | cons first rest => simpa [hpath] using h.1
  · simp only [Bool.not_eq_true', Bool.or_eq_true, not_or, Bool.not_eq_false] at happend
    exact ⟨h.1, fun _ ↦ happend.2⟩

theorem NormalizeState.Relative.foldl {s : NormalizeState} (h : s.Relative)
    (segments : List Bytes) : (segments.foldl Uri.normalizeStep s).Relative := by
  induction segments generalizing s with
  | nil => exact h
  | cons segment segments ih => exact ih (h.normalizeStep segment)

theorem normalizeStep_init_relative {first : Bytes} (h : first ≠ []) :
    (normalizeStep ⟨[], false⟩ first).Relative := by
  unfold normalizeStep NormalizeState.Relative
  split_ifs <;> simp_all

/-- `NormalizePath` keeps a relative path relative. -/
theorem isPathAbsolute_normalizePath_of_relative {path : List Bytes}
    (h : isPathAbsolute path = false) : isPathAbsolute (normalizePath path) = false := by
  have hfold : isPathAbsolute (path.foldl normalizeStep ⟨[], false⟩).path = false := by
    cases path with
    | nil => rfl
    | cons first rest =>
      exact ((normalizeStep_init_relative (by simpa using h)).foldl rest).1
  unfold normalizePath
  dsimp only
  split
  · split_ifs
    · next hlast _ =>
      rw [isPathAbsolute_append_of_ne_nil fun h ↦ by simp [h] at hlast]
      exact hfold
    · exact hfold
  · exact hfold

/-- `NormalizePath` leaves no `.` or `..` segment and no empty segment right after another,
and the path it leaves is absolute exactly when the path it was given is. -/
theorem normalizePath_normalForm_isPathAbsolute (path : List Bytes) :
    NormalForm (normalizePath path) ∧
      isPathAbsolute (normalizePath path) = isPathAbsolute path := by
  refine ⟨normalizePath_normalForm path, ?_⟩
  cases h : isPathAbsolute path
  · exact isPathAbsolute_normalizePath_of_relative h
  · exact isPathAbsolute_normalizePath h

/-! ## Normalizing twice -/

theorem foldl_normalizeStep_of_normalForm :
    ∀ {path : List Bytes}, NormalForm path → ∀ (built : List Bytes) (atDirectoryLevel : Bool),
      (atDirectoryLevel = true → path.head? ≠ some []) →
      path.foldl normalizeStep ⟨built, atDirectoryLevel⟩ =
        ⟨built ++ path, (path.getLast?.map List.isEmpty).getD atDirectoryLevel⟩
  | [], _, built, atDirectoryLevel, _ => by simp
  | segment :: path, h, built, atDirectoryLevel, hhead => by
    obtain ⟨hdot, hempty, hpath⟩ := normalForm_cons.1 h
    have hstep : normalizeStep ⟨built, atDirectoryLevel⟩ segment =
        ⟨built ++ [segment], segment.isEmpty⟩ := by
      have happend : (!atDirectoryLevel || !segment.isEmpty) = true := by
        cases atDirectoryLevel <;> cases segment <;> simp_all
      simp only [IsDotSegment, not_or] at hdot
      simp [normalizeStep, hdot.1, hdot.2, happend]
    rw [List.foldl_cons, hstep, foldl_normalizeStep_of_normalForm hpath _ _
      fun h ↦ hempty (List.isEmpty_iff.1 h)]
    simp [List.getLast?_cons]

/-- `NormalizePath` leaves a path in normal form as it is. -/
theorem normalizePath_of_normalForm {path : List Bytes} (h : NormalForm path) :
    normalizePath path = path := by
  unfold normalizePath
  rw [foldl_normalizeStep_of_normalForm h [] false (by simp)]
  simp only [List.nil_append]
  split
  · next last hlast =>
    simp [hlast]
  · rfl

/-- Normalizing a normalized path changes nothing. -/
theorem normalizePath_idempotent (path : List Bytes) :
    normalizePath (normalizePath path) = normalizePath path :=
  normalizePath_of_normalForm (normalizePath_normalForm path)

end Uri
