import Uri.Congruence

/-!
# A `Uri` object under its public methods

A `Uri` object changes only through its public methods: the setters and the clearers,
`ParseFromString`, `NormalizePath`, assignment from another object, and assignment of a
resolution that takes the object as base or as reference. A `Call` is one of them, and
`Call.run` is the object after a run of calls, or `none` once a parse fails, after which the
object is to be discarded.

`operator==` ignores the port, the query and the fragment where their flags are off, and no
call brings them back: a setter writes the text together with its flag. `Resolve` alone reads
a field that `operator==` does not compare, whether the query text of its reference is empty.
So two objects that agree on what `operator==` observes and on that test stay so under every
run (`Call.run_indistinguishable`), and end equal under `operator==` with the same
`GenerateString`. `operator==` alone is not enough: a query set and cleared changes a later
resolution.
-/

namespace Uri

open Impl

/-- A call of a public method that changes a `Uri` object. -/
inductive Call where
  | parseFromString (uriString : Bytes)
  | setScheme (scheme : Bytes)
  | setUserInfo (userInfo : Bytes)
  | setHost (host : Bytes)
  | setPort (port : UInt16)
  | clearPort
  | setPath (path : List Bytes)
  | clearQuery
  | setQuery (query : Bytes)
  | clearFragment
  | setFragment (fragment : Bytes)
  | normalizePath
  /-- `operator=` from another object. -/
  | assign (other : Impl)
  /-- The object becomes its own `Resolve` of a reference. -/
  | resolve (relativeReference : Impl)
  /-- The object becomes the `Resolve` of itself against a base. -/
  | resolveAgainst (base : Impl)

/-- The object after a call; `none` where `ParseFromString` returns false. -/
def Call.apply : Call → Impl → Option Impl
  | .parseFromString uriString, u => Uri.parseFromString u uriString
  | .setScheme scheme, u => some (Uri.setScheme u scheme)
  | .setUserInfo userInfo, u => some (Uri.setUserInfo u userInfo)
  | .setHost host, u => some (Uri.setHost u host)
  | .setPort port, u => some (Uri.setPort u port)
  | .clearPort, u => some (Uri.clearPort u)
  | .setPath path, u => some (Uri.setPath u path)
  | .clearQuery, u => some (Uri.clearQuery u)
  | .setQuery query, u => some (Uri.setQuery u query)
  | .clearFragment, u => some (Uri.clearFragment u)
  | .setFragment fragment, u => some (Uri.setFragment u fragment)
  | .normalizePath, u => some u.normalizePath
  | .assign other, _ => some other
  | .resolve relativeReference, u => some (Uri.resolve u relativeReference)
  | .resolveAgainst base, u => some (Uri.resolve base u)

/-- The object after a run of calls, or `none` once a parse fails. -/
def Call.run : List Call → Impl → Option Impl
  | [], u => some u
  | call :: calls, u => (call.apply u).bind (Call.run calls)

/-- What `operator==` observes of two objects, and whether their query texts are empty. -/
structure Indistinguishable (a b : Impl) : Prop where
  observed : a.observed = b.observed
  query_isEmpty : a.query.isEmpty = b.query.isEmpty

theorem Indistinguishable.refl (u : Impl) : Indistinguishable u u := ⟨rfl, rfl⟩

theorem Indistinguishable.equals {a b : Impl} (h : Indistinguishable a b) :
    Uri.equals a b = true :=
  (equals_iff_observed a b).2 h.observed

theorem Indistinguishable.generateString_eq {a b : Impl} (h : Indistinguishable a b) :
    generateString a = generateString b :=
  generateString_eq_of_observed h.observed

theorem indistinguishable_iff {a b : Impl} :
    Indistinguishable a b ↔ Uri.equals a b = true ∧ a.query.isEmpty = b.query.isEmpty :=
  ⟨fun h ↦ ⟨h.equals, h.query_isEmpty⟩, fun h ↦ ⟨(equals_iff_observed a b).1 h.1, h.2⟩⟩

instance (a b : Impl) : Decidable (Indistinguishable a b) :=
  decidable_of_iff _ indistinguishable_iff.symm

theorem keepPort_observed (p₁ p₂ : UInt16) (v : Impl) :
    (keepPort p₁ v).observed = (keepPort p₂ v).observed :=
  (equals_iff_observed _ _).1 (equals_keepPort p₁ p₂ v)

theorem keepPort_query (port : UInt16) (v : Impl) : (keepPort port v).query = v.query := by
  unfold keepPort
  split <;> rfl

/-- Parses of one string from indistinguishable objects both fail or stay indistinguishable. -/
theorem parseFromString_indistinguishable (a b : Impl) (uriString : Bytes) :
    Option.Rel Indistinguishable (parseFromString a uriString) (parseFromString b uriString) := by
  rw [parseFromString_eq_map_default a, parseFromString_eq_map_default b]
  cases parseFromString default uriString with
  | none => exact .none
  | some v =>
    exact .some ⟨keepPort_observed _ _ v, by rw [keepPort_query, keepPort_query]⟩

/-- `Resolve` keeps indistinguishable arguments indistinguishable. -/
theorem Indistinguishable.resolve {base base' reference reference' : Impl}
    (hbase : Indistinguishable base base') (hreference : Indistinguishable reference reference') :
    Indistinguishable (Uri.resolve base reference) (Uri.resolve base' reference') := by
  refine ⟨resolve_observed_eq hbase.observed hreference.observed hreference.query_isEmpty, ?_⟩
  have hrs : reference.scheme = reference'.scheme := congrArg (·.1) hreference.observed
  have hrh : reference.host = reference'.host := congrArg (·.2.2.1) hreference.observed
  have hrp : reference.path = reference'.path := congrArg (·.2.2.2.2.1) hreference.observed
  rw [resolve_eq, resolve_eq]
  simp only [hrs, hrh, hrp, hreference.query_isEmpty]
  split
  · exact hbase.query_isEmpty
  · exact hreference.query_isEmpty

/-- One call keeps two objects indistinguishable. -/
theorem Call.apply_indistinguishable {a b : Impl} (h : Indistinguishable a b) (call : Call) :
    Option.Rel Indistinguishable (call.apply a) (call.apply b) := by
  have hobserved := h.observed
  simp only [Impl.observed, Prod.mk.injEq] at hobserved
  obtain ⟨hs, hu, hh, hport, hp, hq, hf⟩ := hobserved
  cases call with
  | parseFromString uriString => exact parseFromString_indistinguishable a b uriString
  | assign other => exact .some (.refl other)
  | resolve relativeReference => exact .some (h.resolve (.refl relativeReference))
  | resolveAgainst base => exact .some ((Indistinguishable.refl base).resolve h)
  | setQuery query =>
    exact .some ⟨by simp only [Impl.observed, Uri.setQuery, hs, hu, hh, hport, hp, hf], rfl⟩
  | _ =>
    exact .some ⟨by simp only [Impl.observed, Uri.setScheme, Uri.setUserInfo, Uri.setHost,
      Uri.setPort, Uri.clearPort, Uri.setPath, Uri.clearQuery, Uri.clearFragment, Uri.setFragment,
      Impl.normalizePath, Bool.false_eq_true, ↓reduceIte, hs, hu, hh, hport, hp, hq, hf],
      h.query_isEmpty⟩

/-- Objects that agree on what `operator==` observes and on empty query texts stay so under every
run: the same calls fail, and after any run they are equal with one `GenerateString`. -/
theorem Call.run_indistinguishable {a b : Impl} (h : Indistinguishable a b) (calls : List Call) :
    Option.Rel Indistinguishable (Call.run calls a) (Call.run calls b) := by
  induction calls generalizing a b with
  | nil => exact .some h
  | cons call calls ih =>
    show Option.Rel _ ((call.apply a).bind (Call.run calls)) ((call.apply b).bind (Call.run calls))
    match call.apply a, call.apply b, Call.apply_indistinguishable h call with
    | none, none, .none => exact .none
    | some _, some _, .some hstep => exact ih hstep

/-- `http://a:8080/b` with its port cleared and `http://a/b` stay indistinguishable through a
query set and cleared, and a resolution against `http://c/d`. -/
theorem run_indistinguishable_cleared_port :
    ∃ a b base, parseFromString default (bytesOf "http://a:8080/b") = some a ∧
      parseFromString default (bytesOf "http://a/b") = some b ∧
      parseFromString default (bytesOf "http://c/d") = some base ∧
      Option.Rel Indistinguishable
        (Call.run [.setQuery (bytesOf "x"), .clearQuery, .resolveAgainst base] (clearPort a))
        (Call.run [.setQuery (bytesOf "x"), .clearQuery, .resolveAgainst base] b) :=
  ⟨_, _, _, rfl, rfl, rfl, Call.run_indistinguishable (by decide) _⟩

end Uri
