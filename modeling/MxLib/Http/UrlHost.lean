import MxLib.Comm.HostResolver
import MxLib.Http.Punycode
import MxLib.Http.Url

/-!
# Hosts and mail addresses

What `CUrl` asks about a host: the narrow `SetHost` decodes what it is given, checks the
result and then stores what it was given; the wide one checks the text it stores.  The
check of the wide one looks at the first characters only, in every turn of its loop.

A narrow text becomes a wide one byte by byte.  Where it is not ASCII that depends on the
code page, and the URLs that are read back below have no such byte.
-/

namespace MxLib.Http

open HostResolver

def isReservedW (chW : WChar) : Bool := (wide ":/?#[]@!$&'()*+,;=\"").contains chW

/-- `IsValidHostAddress` for wide strings. -/
def isValidHostAddress (szHostW : List WChar) : Bool :=
  let last := charAt szHostW (szHostW.length - 1)
  if szHostW = [] then false
  else if isValidIPV4 szHostW || isValidIPV6 true szHostW szHostW.length then true
  else if charAt szHostW 0 == 0x5B && last == 0x5D &&
      isValidIPV6 true (szHostW.drop 1) (szHostW.length - 2) then true
  else if charAt szHostW 0 == dotW || last == dotW then false
  else (List.range (szHostW.length - 1)).all fun i =>
    !(charAt szHostW i == dotW && charAt szHostW (i + 1) == dotW) && !isReservedW (charAt szHostW i)

/-- `ValidateHostAddress`, with the host it leaves. -/
def validateHostAddress (cStrHostW : List WChar) : Except HResult (List WChar) :=
  let last := charAt cStrHostW (cStrHostW.length - 1)
  if cStrHostW = [] then .error .mxInvalidData
  else if isValidIPV4 cStrHostW then .ok cStrHostW
  else if isValidIPV6 true cStrHostW cStrHostW.length then .ok ([0x5B] ++ cStrHostW ++ [0x5D])
  else if cStrHostW.length > 2 && charAt cStrHostW 0 == 0x5B && last == 0x5D &&
      isValidIPV6 true (cStrHostW.drop 1) (cStrHostW.length - 2) then .ok cStrHostW
  else if charAt cStrHostW 0 == dotW || last == dotW then .error .mxInvalidData
  else if cStrHostW.length > 1 && (charAt cStrHostW 0 == dotW && charAt cStrHostW 1 == dotW ||
      isReservedW (charAt cStrHostW 0)) then .error .mxInvalidData
  else .ok cStrHostW

/-- The text of a decoded host. -/
def hostText (cStrTempA : List Byte) : List WChar :=
  match Punycode.decode cStrTempA with
  | .ok cStrTempW => cStrTempW
  | .error _ =>
    match utf8Decode cStrTempA with
    | .ok cStrTempW => cStrTempW
    | .error _ => cStrTempA.map UInt8.toUInt16

/-- `SetHost(szHostA, nHostLen)`, with the host it stores. -/
def setHostA (szHostA : List Byte) : Except HResult (List WChar) :=
  let szHostW := szHostA.map UInt8.toUInt16
  if szHostA = [] then .ok []
  else if isValidIPV4 szHostW || isValidIPV6 false szHostW szHostW.length then .ok szHostW
  else if szHostA.length > 2 && charAt szHostA 0 == 0x5B &&
      charAt szHostA (szHostA.length - 1) == 0x5D &&
      isValidIPV6 false (szHostW.drop 1) (szHostW.length - 2) then
    .ok ([0x5B] ++ szHostW ++ [0x5D])
  else
    match decode szHostA with
    | .error hRes => .error hRes
    | .ok cStrTempA =>
      if isValidHostAddress (hostText cStrTempA) then .ok szHostW else .error .mxInvalidData

/-- `SetHost(szHostW, nHostLen)`, with the host it stores. -/
def setHostW (szHostW : List WChar) : Except HResult (List WChar) :=
  if szHostW = [] then .ok [] else validateHostAddress szHostW

/-- The loop of `IsValidEMailAddress`, at the character with index `i`. -/
def mailFrom : List WChar → Nat → Bool → Option Nat → Bool
  | [], i, bLastWasDot, szAtPosW => !(bLastWasDot || szAtPosW == none || szAtPosW == some (i - 1))
  | chW :: szAddressW, i, bLastWasDot, szAtPosW =>
    if chW ≤ 0x20 then false
    else if chW == dotW then
      if bLastWasDot || szAtPosW == some (i - 1) then false
      else mailFrom szAddressW (i + 1) true szAtPosW
    else if chW == 0x40 then
      if bLastWasDot || szAtPosW != none then false else mailFrom szAddressW (i + 1) false (some i)
    else if (wide "()<>,;:\\/\"[]").contains chW then false
    else mailFrom szAddressW (i + 1) false szAtPosW

/-- `IsValidEMailAddress` for wide strings. -/
def isValidEMailAddress (szAddressW : List WChar) : Bool :=
  if szAddressW = [] || charAt szAddressW 0 == 0x40 then false
  else mailFrom szAddressW 0 false none

/-- The hosts and addresses of the source, where `isLocalHost` is left open. -/
def urlEnv (isLocalHost : List Byte → Bool) : UrlEnv :=
  ⟨isLocalHost, setHostA, isValidEMailAddress, validateHostAddress⟩

/-! ### Hosts without a colon -/

theorem toUInt16_inj {ch ch' : Byte} : ch.toUInt16 = ch'.toUInt16 ↔ ch = ch' := by
  rw [← UInt16.toNat_inj, UInt8.toNat_toUInt16, UInt8.toNat_toUInt16, UInt8.toNat_inj]

theorem map_toUInt16_inj {l l' : List Byte} :
    l.map UInt8.toUInt16 = l'.map UInt8.toUInt16 ↔ l = l' :=
  List.map_inj_right fun _ _ => toUInt16_inj.mp

theorem not_isValidIPV6 {bWide : Bool} {szHostW : List WChar} (h : 0x3A ∉ szHostW) (n : Nat) :
    isValidIPV6 bWide szHostW n = false :=
  Bool.eq_false_iff.mpr fun hv => h (colon_mem_of_isValidIPV6 hv)

/-- The narrow `SetHost` takes a host that is not the number of a machine. -/
def IsReadHost (szHostA : List Byte) : Prop :=
  isValidIPV4 (szHostA.map UInt8.toUInt16) = true ∨
    ∃ cStrTempA, decode szHostA = .ok cStrTempA ∧ isValidHostAddress (hostText cStrTempA) = true

/-- **The narrow `SetHost` stores what it is given**, where there is no colon. -/
theorem setHostA_eq_ok {szHostA : List Byte} (hcolon : 0x3A ∉ szHostA) (hne : szHostA ≠ [])
    (szHostW : List WChar) :
    setHostA szHostA = .ok szHostW ↔ IsReadHost szHostA ∧ szHostW = szHostA.map UInt8.toUInt16 := by
  have hcolonW : 0x3A ∉ szHostA.map UInt8.toUInt16 := by
    intro h
    obtain ⟨ch, hch, heq⟩ := List.mem_map.mp h
    exact hcolon ((show ch = 0x3A from toUInt16_inj.mp heq) ▸ hch)
  have hcolonW' : 0x3A ∉ (szHostA.map UInt8.toUInt16).drop 1 :=
    fun h => hcolonW (List.mem_of_mem_drop h)
  have hset : setHostA szHostA =
      if isValidIPV4 (szHostA.map UInt8.toUInt16) then .ok (szHostA.map UInt8.toUInt16)
      else
        match decode szHostA with
        | .error hRes => .error hRes
        | .ok cStrTempA =>
          if isValidHostAddress (hostText cStrTempA) then .ok (szHostA.map UInt8.toUInt16)
          else .error .mxInvalidData := by
    rw [setHostA, if_neg hne, not_isValidIPV6 hcolonW, Bool.or_false, not_isValidIPV6 hcolonW',
      Bool.and_false, if_neg Bool.false_ne_true]
  rw [hset, IsReadHost]
  by_cases h4 : isValidIPV4 (szHostA.map UInt8.toUInt16) = true
  · rw [if_pos h4, Except.ok.injEq, eq_comm, and_iff_right (Or.inl h4)]
  · rw [if_neg h4, or_iff_right h4]
    cases hdecode : decode szHostA with
    | error hRes => simp
    | ok cStrTempA =>
      by_cases hvalid : isValidHostAddress (hostText cStrTempA) = true
      · simp [hvalid, @eq_comm _ szHostW]
      · simp [hvalid]

end MxLib.Http
