import MxLib.Http.UrlHostSplit
import MxLib.Http.UrlQueries

/-!
# Narrow and wide URLs

The two versions of `ParseFromString` are compared on a text of ASCII without percent and
plus signs and on its wide copy.  They part in four places: the names of the local host, the
check of a host, a query parameter with an empty name, and the value of one without an equals
sign, for which the wide version takes what stands behind the separator.

`parseAgrees_iff` says when they agree, for any names of the local host and any memory behind
the wide text.
-/

namespace MxLib.Http

open HostResolver

/-! ### Hosts -/

/-- The wide `SetHost` stores what it is given, where there is no colon. -/
theorem setHostW_eq_ok {szHostW : List WChar} (hcolon : 0x3A ∉ szHostW) (hne : szHostW ≠ [])
    (cStrHostW : List WChar) :
    setHostW szHostW = .ok cStrHostW ↔
      (isValidIPV4 szHostW = true ∨ IsCheckedStart szHostW) ∧ cStrHostW = szHostW := by
  have hcolon' : 0x3A ∉ szHostW.drop 1 := fun h => hcolon (List.mem_of_mem_drop h)
  have hsix : ∀ n, isValidIPV6 true szHostW n = false := not_isValidIPV6 hcolon
  have hsix' : ∀ n, isValidIPV6 true (szHostW.drop 1) n = false := not_isValidIPV6 hcolon'
  have haddress : isAddress true szHostW = true ↔ isValidIPV4 szHostW = true := by
    rw [isAddress, hsix, hsix', Bool.and_false, Bool.or_false, Bool.or_false]
  have hstored : ∀ v, validateHostAddress szHostW = .ok v → v = szHostW := by
    intro v h
    rw [validateHostAddress, if_neg hne] at h
    simp only [hsix, hsix', Bool.and_false, Bool.false_eq_true, if_false] at h
    split at h
    · exact (Except.ok.inj h).symm
    · split at h
      · cases h
      · split at h
        · cases h
        · exact (Except.ok.inj h).symm
  rw [setHostW, if_neg hne, ← haddress, ← validateHostAddress_iff hne]
  constructor
  · intro h
    exact ⟨⟨cStrHostW, h⟩, hstored cStrHostW h⟩
  · rintro ⟨⟨v, hv⟩, rfl⟩
    rw [hv, hstored v hv]

/-- What is stored of a path. -/
def storedPath (szSchemeW : List WChar) (szPathA : List Byte) : Except HResult (List WChar) :=
  (reducePath (setPathW (widen (pathText szPathA)) szSchemeW) szSchemeW).map fun cStrPathW =>
    normalizePath (prependSlash szSchemeW cStrPathW) szSchemeW

def UrlParts.path (parts : UrlParts) : Except HResult (List WChar) :=
  storedPath parts.cStrSchemeW (parts.rest.take (pathEnd parts.rest))

structure UrlParts.Plain (parts : UrlParts) : Prop where
  host : IsPlainAscii parts.cStrTempHostA
  rest : IsPlainAscii parts.rest

/-- What the parts have in common, whatever is taken for the local host. -/
structure SameParts (a w : UrlParts) : Prop where
  plain : a.Plain
  plain' : w.Plain
  scheme : a.cStrSchemeW = w.cStrSchemeW
  host : a = w ∨ isMail a.cStrSchemeW = false ∧ a.cStrTempHostA = [] ∧ w.cStrTempHostA = []

theorem SameParts.refl {parts : UrlParts} (h : parts.Plain) : SameParts parts parts :=
  ⟨h, h, rfl, Or.inl rfl⟩

end MxLib.Http
