import Uri.Normalize

/-!
# `remove_dot_segments`

RFC 3986 §5.2.4 removes the dot segments of a path written as text: a loop moves the text from
an input buffer to an output buffer, one rule at a time, and each rule looks only at how the
input begins. `NormalizePath`, whose comment names that routine, works on the path's segments.

On an absolute path whose segments hold no `/`, written with its segments joined by `/` and
the root path as `/` (`pathText`), the two agree when the path's only empty segments are its
root and its last one (`pathText_normalizePath`): each segment after the root is then one step
of the RFC's loop, and the directory marker `NormalizePath` adds at the end is the `/` the RFC
leaves of a last `.` or `..`. An empty segment elsewhere is a directory marker the RFC moves to
the output like any other segment; `NormalizePath` drops it after a `.`, a `..` or another
marker, and writes no marker after a `..` that leaves an empty segment last.
-/

namespace Uri

/-! ## The RFC's loop -/

/-- The path written as text: its segments joined by `/`, the root path `[""]` as `/`. -/
def pathText (path : List Bytes) : Bytes :=
  if path = [[]] then ['/'.toUInt8] else ['/'.toUInt8].intercalate path

/-- Rule E: the input's first segment, with the `/` before it if any, up to the next `/`. -/
def firstSegment : Bytes → Bytes
  | [] => []
  | c :: rest => c :: rest.takeWhile (· ≠ '/'.toUInt8)

/-- Rule C of the loop: the output without its last segment and the `/` before it, if any. -/
def removeLastSegment (output : Bytes) : Bytes :=
  ((output.reverse.dropWhile (· ≠ '/'.toUInt8)).drop 1).reverse

/-- RFC 3986 §5.2.4 step 2; each rule takes a character off the input, so its length is fuel. -/
def removeDotSegmentsLoop : Nat → Bytes → Bytes → Bytes
  | 0, _, output => output
  | _ + 1, [], output => output
  | fuel + 1, input, output =>
    -- A: a prefix "../" or "./" is removed
    if ['.'.toUInt8, '.'.toUInt8, '/'.toUInt8].isPrefixOf input then
      removeDotSegmentsLoop fuel (input.drop 3) output
    else if ['.'.toUInt8, '/'.toUInt8].isPrefixOf input then
      removeDotSegmentsLoop fuel (input.drop 2) output
    -- B: a prefix "/./", or the input "/.", becomes "/"
    else if ['/'.toUInt8, '.'.toUInt8, '/'.toUInt8].isPrefixOf input then
      removeDotSegmentsLoop fuel (input.drop 2) output
    else if input = ['/'.toUInt8, '.'.toUInt8] then
      removeDotSegmentsLoop fuel ['/'.toUInt8] output
    -- C: likewise for "/../" and "/..", which also remove the output's last segment
    else if ['/'.toUInt8, '.'.toUInt8, '.'.toUInt8, '/'.toUInt8].isPrefixOf input then
      removeDotSegmentsLoop fuel (input.drop 3) (removeLastSegment output)
    else if input = ['/'.toUInt8, '.'.toUInt8, '.'.toUInt8] then
      removeDotSegmentsLoop fuel ['/'.toUInt8] (removeLastSegment output)
    -- D: an input "." or ".." is removed
    else if input = ['.'.toUInt8] ∨ input = ['.'.toUInt8, '.'.toUInt8] then
      removeDotSegmentsLoop fuel [] output
    -- E: the first segment moves to the output
    else
      removeDotSegmentsLoop fuel (input.drop (firstSegment input).length)
        (output ++ firstSegment input)

/-- RFC 3986 §5.2.4 `remove_dot_segments`. -/
def removeDotSegments (path : Bytes) : Bytes := removeDotSegmentsLoop path.length path []

/-! ## Segments after the root -/

/-- Segments, each after a `/`: the text of an absolute path after its root. -/
def slashed (segments : List Bytes) : Bytes := segments.flatMap ('/'.toUInt8 :: ·)

@[simp]
theorem slashed_nil : slashed [] = [] := rfl

@[simp]
theorem slashed_cons (segment : Bytes) (segments : List Bytes) :
    slashed (segment :: segments) = '/'.toUInt8 :: (segment ++ slashed segments) := rfl

@[simp]
theorem slashed_append (segments more : List Bytes) :
    slashed (segments ++ more) = slashed segments ++ slashed more := by
  simp [slashed]

theorem intercalate_slash_cons (segment : Bytes) :
    ∀ segments : List Bytes, ['/'.toUInt8].intercalate (segment :: segments) =
      segment ++ slashed segments
  | [] => by simp [List.intercalate]
  | next :: segments => by
    rw [intercalate_cons_cons, intercalate_slash_cons next segments]
    simp

theorem pathText_root (segments : List Bytes) :
    pathText ([] :: segments) = slashed (if segments = [] then [[]] else segments) := by
  cases segments with
  | nil => rfl
  | cons segment segments => simp [pathText, intercalate_slash_cons]

theorem removeLastSegment_slashed {output : List Bytes} (h : ∀ s ∈ output, '/'.toUInt8 ∉ s) :
    removeLastSegment (slashed output) = slashed output.dropLast := by
  rcases List.eq_nil_or_concat output with rfl | ⟨built, last, rfl⟩
  · rfl
  · have hlast : ∀ c ∈ last, c ≠ '/'.toUInt8 := fun c hc heq ↦ h last (by simp) (heq ▸ hc)
    simp only [removeLastSegment, List.concat_eq_append, slashed_append, slashed_cons,
      slashed_nil, List.append_nil, List.reverse_append, List.reverse_cons, List.append_assoc,
      List.singleton_append, List.dropWhile_append]
    simp only [List.isEmpty_iff, List.dropWhile_eq_nil_iff, List.mem_reverse, ne_eq,
      decide_eq_true_eq]
    rw [if_pos hlast]
    simp

/-! ## One segment of the RFC's loop -/

@[simp]
theorem removeDotSegmentsLoop_nil (fuel : Nat) (output : Bytes) :
    removeDotSegmentsLoop fuel [] output = output := by
  cases fuel <;> rfl

theorem removeDotSegmentsLoop_slash (fuel : Nat) (output : Bytes) :
    removeDotSegmentsLoop (fuel + 1) ['/'.toUInt8] output = output ++ ['/'.toUInt8] := by
  cases fuel <;> rfl

section Segment

variable {segment tail : Bytes} (hsegment : '/'.toUInt8 ∉ segment)
  (htail : tail = [] ∨ tail.head? = some '/'.toUInt8)
include hsegment htail

theorem takeWhile_segment : (segment ++ tail).takeWhile (· ≠ '/'.toUInt8) = segment := by
  have hall : ∀ c ∈ segment, decide (c ≠ '/'.toUInt8) = true :=
    fun c hc ↦ decide_eq_true fun h ↦ hsegment (h ▸ hc)
  rw [List.takeWhile_append_of_pos hall]
  rcases htail with rfl | htail
  · simp
  · obtain ⟨t, rfl⟩ : ∃ t, tail = '/'.toUInt8 :: t := by
      cases tail with
      | nil => cases htail
      | cons c t => exact ⟨t, by simpa using htail⟩
    simp

theorem isPrefixOf_segment (word : Bytes) (hword : '/'.toUInt8 ∉ word) :
    (word ++ ['/'.toUInt8]).isPrefixOf (segment ++ tail) = true ↔ segment = word ∧ tail ≠ [] := by
  rw [List.isPrefixOf_iff_prefix]
  constructor
  · rintro ⟨rest, hrest⟩
    have hword' : (word ++ '/'.toUInt8 :: rest).takeWhile (· ≠ '/'.toUInt8) = word :=
      takeWhile_segment hword (.inr rfl)
    have hsplit : word ++ '/'.toUInt8 :: rest = segment ++ tail := by simpa using hrest
    rw [hsplit, takeWhile_segment hsegment htail] at hword'
    subst hword'
    refine ⟨rfl, fun h ↦ ?_⟩
    simp [h] at hrest
  · rintro ⟨rfl, htail'⟩
    obtain ⟨t, rfl⟩ : ∃ t, tail = '/'.toUInt8 :: t := by
      cases tail with
      | nil => exact absurd rfl htail'
      | cons c t => exact ⟨t, by simpa using htail.resolve_left htail'⟩
    exact ⟨t, by simp⟩

theorem segment_append_eq (word : Bytes) (hword : '/'.toUInt8 ∉ word) :
    segment ++ tail = word ↔ segment = word ∧ tail = [] := by
  constructor
  · intro h
    have hsame := takeWhile_segment hsegment htail
    have hall : ∀ c ∈ word, decide (c ≠ '/'.toUInt8) = true :=
      fun c hc ↦ decide_eq_true fun heq ↦ hword (heq ▸ hc)
    rw [h, List.takeWhile_eq_self_iff.2 hall] at hsame
    subst hsame
    exact ⟨rfl, by simpa using h⟩
  · rintro ⟨rfl, rfl⟩
    simp

theorem removeDotSegmentsLoop_segment (fuel : Nat) (output : Bytes) :
    removeDotSegmentsLoop (fuel + 1) ('/'.toUInt8 :: (segment ++ tail)) output =
      if segment = ['.'.toUInt8] then
        removeDotSegmentsLoop fuel (if tail = [] then ['/'.toUInt8] else tail) output
      else if segment = ['.'.toUInt8, '.'.toUInt8] then
        removeDotSegmentsLoop fuel (if tail = [] then ['/'.toUInt8] else tail)
          (removeLastSegment output)
      else removeDotSegmentsLoop fuel tail (output ++ '/'.toUInt8 :: segment) := by
  have hB₁ : ['/'.toUInt8, '.'.toUInt8, '/'.toUInt8].isPrefixOf
      ('/'.toUInt8 :: (segment ++ tail)) = true ↔ segment = ['.'.toUInt8] ∧ tail ≠ [] :=
    isPrefixOf_segment hsegment htail ['.'.toUInt8] (by decide)
  have hB₂ : '/'.toUInt8 :: (segment ++ tail) = ['/'.toUInt8, '.'.toUInt8] ↔
      segment = ['.'.toUInt8] ∧ tail = [] := by
    rw [List.cons.injEq, segment_append_eq hsegment htail ['.'.toUInt8] (by decide)]
    simp
  have hC₁ : ['/'.toUInt8, '.'.toUInt8, '.'.toUInt8, '/'.toUInt8].isPrefixOf
      ('/'.toUInt8 :: (segment ++ tail)) = true ↔
        segment = ['.'.toUInt8, '.'.toUInt8] ∧ tail ≠ [] :=
    isPrefixOf_segment hsegment htail ['.'.toUInt8, '.'.toUInt8] (by decide)
  have hC₂ : '/'.toUInt8 :: (segment ++ tail) = ['/'.toUInt8, '.'.toUInt8, '.'.toUInt8] ↔
      segment = ['.'.toUInt8, '.'.toUInt8] ∧ tail = [] := by
    rw [List.cons.injEq, segment_append_eq hsegment htail ['.'.toUInt8, '.'.toUInt8] (by decide)]
    simp
  have hA₁ : ['.'.toUInt8, '.'.toUInt8, '/'.toUInt8].isPrefixOf
      ('/'.toUInt8 :: (segment ++ tail)) = false := rfl
  have hA₂ : ['.'.toUInt8, '/'.toUInt8].isPrefixOf ('/'.toUInt8 :: (segment ++ tail)) = false :=
    rfl
  have hD : ¬('/'.toUInt8 :: (segment ++ tail) = ['.'.toUInt8] ∨
      '/'.toUInt8 :: (segment ++ tail) = ['.'.toUInt8, '.'.toUInt8]) := by
    have : '/'.toUInt8 ≠ '.'.toUInt8 := by decide
    simp [this]
  have hE : firstSegment ('/'.toUInt8 :: (segment ++ tail)) = '/'.toUInt8 :: segment :=
    congrArg _ (takeWhile_segment hsegment htail)
  rw [removeDotSegmentsLoop]
  · simp only [hA₁, hA₂, hB₁, hB₂, hC₁, hC₂, hD, hE, Bool.false_eq_true, ↓reduceIte]
    by_cases hdot : segment = ['.'.toUInt8]
    · subst hdot
      by_cases ht : tail = [] <;> simp [ht]
    · by_cases hdotdot : segment = ['.'.toUInt8, '.'.toUInt8]
      · subst hdotdot
        by_cases ht : tail = [] <;> simp [ht]
      · simp [hdot, hdotdot]
  · exact List.cons_ne_nil _ _

end Segment

theorem slashed_eq_nil_or_head {segments : List Bytes} :
    slashed segments = [] ∨ (slashed segments).head? = some '/'.toUInt8 := by
  cases segments <;> simp

/-! ## `NormalizePath` after the root -/

/-- The end of `NormalizePath`: a directory marker after the loop, when its state asks for one. -/
def NormalizeState.finish (s : NormalizeState) : List Bytes :=
  match s.path.getLast? with
  | some last => if s.atDirectoryLevel && !last.isEmpty then s.path ++ [[]] else s.path
  | none => s.path

/-- `NormalizePath` is its loop, then its end. -/
theorem normalizePath_eq_finish (path : List Bytes) :
    normalizePath path = (path.foldl normalizeStep ⟨[], false⟩).finish := rfl

theorem normalizeStep_of_not_dot (s : NormalizeState) {segment : Bytes}
    (h : ¬IsDotSegment segment) :
    normalizeStep s segment =
      ⟨if !s.atDirectoryLevel || !segment.isEmpty then s.path ++ [segment] else s.path,
        segment.isEmpty⟩ := by
  simp only [IsDotSegment, not_or] at h
  simp [normalizeStep, h.1, h.2]

theorem normalizeStep_root_dotdot (built : List Bytes) (atDirectoryLevel : Bool) :
    normalizeStep ⟨[] :: built, atDirectoryLevel⟩ ['.'.toUInt8, '.'.toUInt8] =
      ⟨[] :: built.dropLast, true⟩ := by
  cases built with
  | nil => rfl
  | cons segment built => simp [normalizeStep, canNavigatePathUpOneLevel]

theorem pathText_finish_marked {built : List Bytes} (h : ∀ s ∈ built, s ≠ []) :
    pathText (NormalizeState.finish ⟨[] :: built, true⟩) = slashed (built ++ [[]]) := by
  rcases List.eq_nil_or_concat built with rfl | ⟨built, last, rfl⟩
  · rfl
  · have hlast : last ≠ [] := h last (by simp)
    simp [NormalizeState.finish, List.getLast?_cons, hlast, pathText_root]

theorem pathText_finish_last {built : List Bytes} {last : Bytes} {atDirectoryLevel : Bool}
    (h : atDirectoryLevel = true → last = []) :
    pathText (NormalizeState.finish ⟨[] :: (built ++ [last]), atDirectoryLevel⟩) =
      slashed (built ++ [last]) := by
  have hmarker : (atDirectoryLevel && !last.isEmpty) = false := by
    cases atDirectoryLevel <;> simp_all
  simp [NormalizeState.finish, List.getLast?_cons, hmarker, pathText_root]

/-! ## The two agree -/

/-- On segments after the root, only the last of them empty, the RFC's loop is `NormalizePath`'s. -/
theorem removeDotSegmentsLoop_slashed :
    ∀ {segments : List Bytes}, segments ≠ [] → (∀ s ∈ segments, '/'.toUInt8 ∉ s) →
      (∀ s ∈ segments.dropLast, s ≠ []) →
      ∀ {built : List Bytes} (atDirectoryLevel : Bool) {fuel : Nat},
        (∀ s ∈ built, s ≠ [] ∧ '/'.toUInt8 ∉ s) → (slashed segments).length ≤ fuel →
        removeDotSegmentsLoop fuel (slashed segments) (slashed built) =
          pathText (segments.foldl normalizeStep ⟨[] :: built, atDirectoryLevel⟩).finish
  | [], hne, _, _, _, _, _, _, _ => absurd rfl hne
  | segment :: more, _, hslash, hempty, built, atDirectoryLevel, fuel, hbuilt, hfuel => by
    obtain ⟨fuel, rfl⟩ : ∃ f, fuel = f + 1 :=
      Nat.exists_eq_add_one.2 (lt_of_lt_of_le (by simp) hfuel)
    have hsegment : '/'.toUInt8 ∉ segment := hslash segment (List.mem_cons_self _ _)
    have hmore : ∀ s ∈ more, '/'.toUInt8 ∉ s := fun s hs ↦ hslash s (List.mem_cons_of_mem _ hs)
    have hmarkers : ∀ s ∈ built, s ≠ [] := fun s hs ↦ (hbuilt s hs).1
    have hlength : segment.length + (slashed more).length ≤ fuel := by
      simp only [slashed_cons, List.length_cons, List.length_append] at hfuel
      omega
    -- what the RFC's loop does after this segment, when more segments follow
    have hnext : more ≠ [] → ∀ {built : List Bytes} (atDirectoryLevel : Bool),
        (∀ s ∈ built, s ≠ [] ∧ '/'.toUInt8 ∉ s) →
        removeDotSegmentsLoop fuel (slashed more) (slashed built) =
          pathText (more.foldl normalizeStep ⟨[] :: built, atDirectoryLevel⟩).finish :=
      fun hne _ atDirectoryLevel hbuilt ↦ removeDotSegmentsLoop_slashed hne hmore
        (fun s hs ↦ hempty s (by rw [List.dropLast_cons_of_ne_nil hne]; exact .tail _ hs))
        atDirectoryLevel hbuilt (by omega)
    -- after a dot segment, the RFC's loop goes on at a directory
    have hafterDot : 0 < fuel → ∀ {built : List Bytes}, (∀ s ∈ built, s ≠ [] ∧ '/'.toUInt8 ∉ s) →
        removeDotSegmentsLoop fuel (if slashed more = [] then ['/'.toUInt8] else slashed more)
          (slashed built) = pathText (more.foldl normalizeStep ⟨[] :: built, true⟩).finish := by
      intro hpos built hbuilt
      cases more with
      | nil =>
        obtain ⟨fuel, rfl⟩ : ∃ f, fuel = f + 1 := Nat.exists_eq_add_one.2 hpos
        rw [List.foldl_nil, pathText_finish_marked fun s hs ↦ (hbuilt s hs).1]
        simp [removeDotSegmentsLoop_slash]
      | cons next more => simpa using hnext (List.cons_ne_nil _ _) true hbuilt
    rw [slashed_cons, removeDotSegmentsLoop_segment hsegment slashed_eq_nil_or_head,
      List.foldl_cons]
    by_cases hdot : segment = ['.'.toUInt8]
    · subst hdot
      rw [if_pos rfl, show normalizeStep ⟨[] :: built, atDirectoryLevel⟩ ['.'.toUInt8] =
        ⟨[] :: built, true⟩ from rfl]
      exact hafterDot (by simp at hlength; omega) hbuilt
    by_cases hdotdot : segment = ['.'.toUInt8, '.'.toUInt8]
    · subst hdotdot
      rw [if_neg (by decide), if_pos rfl, normalizeStep_root_dotdot,
        removeLastSegment_slashed fun s hs ↦ (hbuilt s hs).2]
      exact hafterDot (by simp at hlength; omega) fun s hs ↦ hbuilt s (List.dropLast_subset _ hs)
    rw [if_neg hdot, if_neg hdotdot,
      normalizeStep_of_not_dot _ (by simp [IsDotSegment, hdot, hdotdot])]
    by_cases hmarker : segment = []
    · -- a marker is the last segment
      subst hmarker
      obtain rfl : more = [] := by
        by_contra hne
        exact hempty [] (by simp [List.dropLast_cons_of_ne_nil hne]) rfl
      rw [List.foldl_nil, slashed_nil, removeDotSegmentsLoop_nil]
      cases atDirectoryLevel
      · simp only [List.isEmpty_nil, Bool.not_false, Bool.not_true, Bool.or_false, ↓reduceIte,
          List.cons_append]
        rw [pathText_finish_last fun _ ↦ rfl]
        simp
      · simp only [List.isEmpty_nil, Bool.not_true, Bool.or_false, Bool.false_eq_true, ↓reduceIte]
        rw [pathText_finish_marked hmarkers]
        simp
    have hisEmpty : segment.isEmpty = false := List.isEmpty_eq_false.2 hmarker
    have hout : slashed built ++ '/'.toUInt8 :: segment = slashed (built ++ [segment]) := by simp
    simp only [hisEmpty, Bool.not_false, Bool.or_true, ↓reduceIte, List.cons_append, hout]
    cases more with
    | nil =>
      rw [List.foldl_nil, slashed_nil, removeDotSegmentsLoop_nil,
        pathText_finish_last fun h ↦ absurd h (by simp)]
    | cons next more =>
      refine hnext (List.cons_ne_nil _ _) false fun s hs ↦ ?_
      rcases List.mem_append.1 hs with hs | hs
      · exact hbuilt s hs
      · obtain rfl := List.mem_singleton.1 hs
        exact ⟨hmarker, hsegment⟩

/-- On an absolute path whose segments hold no `/` and whose only empty segments are its root
and its last one, `NormalizePath` is RFC 3986 `remove_dot_segments` on the path's text. -/
theorem pathText_normalizePath {path : List Bytes} (habsolute : isPathAbsolute path = true)
    (hslash : ∀ segment ∈ path, '/'.toUInt8 ∉ segment)
    (hempty : ∀ segment ∈ path.tail.dropLast, segment ≠ []) :
    pathText (normalizePath path) = removeDotSegments (pathText path) := by
  obtain ⟨segments, rfl⟩ := (isPathAbsolute_iff path).1 habsolute
  rw [normalizePath_eq_finish, List.foldl_cons, pathText_root, removeDotSegments]
  by_cases hnil : segments = []
  · subst hnil
    rfl
  · rw [if_neg hnil]
    exact (removeDotSegmentsLoop_slashed hnil (fun s hs ↦ hslash s (.tail _ hs)) hempty true
      (by simp) le_rfl).symm

/-- The example of RFC 3986 §5.2.4, `/a/b/c/./../../g`. -/
theorem pathText_normalizePath_rfc_example :
    isPathAbsolute (["", "a", "b", "c", ".", "..", "..", "g"].map bytesOf) = true ∧
      (∀ segment ∈ ["", "a", "b", "c", ".", "..", "..", "g"].map bytesOf,
        '/'.toUInt8 ∉ segment) ∧
      (∀ segment ∈ (["", "a", "b", "c", ".", "..", "..", "g"].map bytesOf).tail.dropLast,
        segment ≠ []) ∧
      pathText (normalizePath (["", "a", "b", "c", ".", "..", "..", "g"].map bytesOf)) =
        removeDotSegments (pathText (["", "a", "b", "c", ".", "..", "..", "g"].map bytesOf)) :=
  ⟨by decide, by decide, by decide, pathText_normalizePath (by decide) (by decide) (by decide)⟩

/-- `NormalizePath` gives `/a/b` for `/a/.//b` and `/a/` for `/a//b/..`, where the RFC gives
`/a//b` and `/a//`. -/
theorem normalizePath_differs_from_removeDotSegments :
    ([["", "a", ".", "", "b"], ["", "a", "", "b", ".."]].map (List.map bytesOf)).all
      (fun path ↦ isPathAbsolute path && path.all (fun segment ↦ !segment.contains '/'.toUInt8) &&
        pathText (normalizePath path) != removeDotSegments (pathText path)) = true := by
  decide

end Uri
