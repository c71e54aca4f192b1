import MxLib.Strings.Strings

/-!
# Addresses

`IsValidIPV4` and `IsValidIPV6` of the host resolver.  The narrow versions compare
the same characters as the wide ones, so both are read as wide characters; the one
difference, in `Helper_IPv6_Fill`, is the argument `bWide`.  A text is given without
the zero that ends it.  The address that is stored is left out, up to the words that
the check at the end reads.
-/

namespace MxLib.HostResolver

/-- The value of a hexadecimal digit. -/
def hexaDigit (chW : WChar) : Option Nat :=
  if 0x30 ≤ chW && chW ≤ 0x39 then some (chW.toNat - 0x30)
  else if 0x41 ≤ chW && chW ≤ 0x46 then some (chW.toNat - 0x41 + 10)
  else if 0x61 ≤ chW && chW ≤ 0x66 then some (chW.toNat - 0x61 + 10)
  else none

/-! ### IPv4 -/

/-- The blocks between the dots, `n + 1` at most. -/
def ipv4Blocks : Nat → List WChar → Option (List (List WChar))
  | n, szAddressW =>
    let inBlock (chW : WChar) : Bool := chW != 0x2E && chW != 0x2F && chW != 0x25
    let block := szAddressW.takeWhile inBlock
    match n, szAddressW.dropWhile inBlock with
    | _, [] => some [block]
    | 0, chW :: _ => if chW == 0x2E then none else some [block]
    | n + 1, chW :: rest =>
      if chW == 0x2E then (ipv4Blocks n rest).map (block :: ·) else some [block]

/-- The digits of a block, with the checks for an overflow that the source makes. -/
def ipv4Digits (dwBase : Nat) : List WChar → Nat → Option Nat
  | [], dwValue => some dwValue
  | chW :: sW, dwValue =>
    match hexaDigit chW with
    | none => none
    | some dw =>
      let dwTempValue := dwValue * dwBase % 2 ^ 32
      if dw ≥ dwBase || dwTempValue < dwValue || (dwTempValue + dw) % 2 ^ 32 < dwTempValue then none
      else ipv4Digits dwBase sW ((dwTempValue + dw) % 2 ^ 32)

/-- The value of a block: hexadecimal behind `0x`, octal behind another zero. -/
def ipv4Value (block : List WChar) : Option Nat :=
  if block = [] then none
  else if charAt block 0 == 0x30 && block.length ≥ 2 then
    if charAt block 1 == 0x58 || charAt block 1 == 0x78 then
      if block.drop 2 = [] then none else ipv4Digits 16 (block.drop 2) 0
    else ipv4Digits 8 (block.drop 1) 0
  else ipv4Digits 10 block 0

/-- Every block but the last one is a byte. -/
def ipv4Values : List (List WChar) → Bool
  | [] => true
  | [block] => (ipv4Value block).isSome
  | block :: blocks =>
    match ipv4Value block with
    | none => false
    | some dwValue => dwValue ≤ 255 && ipv4Values blocks

/-- `IsValidIPV4` -/
def isValidIPV4 (szAddressW : List WChar) : Bool :=
  match ipv4Blocks 3 szAddressW with
  | none => false
  | some blocks => blocks.length ≥ 2 && ipv4Values blocks

/-! ### IPv6 -/

/-- `StrFindW(szStrW, L"::")`, as an index. -/
def findColons : List WChar → Option Nat
  | 0x3A :: 0x3A :: _ => some 0
  | [] => none
  | _ :: sW => (findColons sW).map (· + 1)

/-- The loop of `Helper_IPv6_Fill`, with `nLen` characters left; `none` stands for
`(SIZE_T)-1`. -/
def fillFrom : Nat → List WChar → Nat → List Nat → Option (List Nat)
  | 0, _, dwValue, words => if words.length = 8 then none else some (words ++ [dwValue % 2 ^ 16])
  | _ + 1, [], _, _ => none -- the zero at the end is no digit
  | nLen + 1, chW :: sW, dwValue, words =>
    if chW == 0x3A then
      if nLen = 0 || words.length = 8 then none
      else fillFrom nLen sW 0 (words ++ [dwValue % 2 ^ 16])
    else
      match hexaDigit chW with
      | none => none
      | some dw =>
        if dwValue * 16 % 2 ^ 32 < dwValue || dwValue > 0xFFFF - dw then none
        else fillFrom nLen sW (dwValue * 16 % 2 ^ 32 + dw) words

/-- `Helper_IPv6_Fill`.  The narrow version looks for a double colon among the `nLen`
characters, the wide one in the whole text. -/
def fill (bWide : Bool) (szStrW : List WChar) (nLen : Nat) : Option (List Nat) :=
  if nLen = 0 then some []
  else if (findColons (if bWide then szStrW else szStrW.take nLen)).isSome then none
  else fillFrom nLen szStrW 0 []

/-- The words in front of an IPv4 address of `nSlots` words.  Behind a double colon
the number of characters left is of type `SIZE_T`. -/
def ipv6Words (bWide : Bool) (szAddressW : List WChar) (nAddressLen nSlots : Nat) :
    Option (List Nat) :=
  match findColons szAddressW with
  | some nPos => do
    let right ← fill bWide (szAddressW.drop (nPos + 2)) ((nAddressLen + 2 ^ 64 - nPos - 2) % 2 ^ 64)
    if right.length + nSlots > 8 then none
    let left ← fill bWide szAddressW nPos
    if left.length + right.length + nSlots > 7 then none
    some (left ++ List.replicate (8 - nSlots - right.length - left.length) 0 ++ right)
  | none => do
    let words ← fill bWide szAddressW nAddressLen
    if words.length = 8 - nSlots then some words else none

/-- The text between the brackets, if there are any, and its length. -/
def stripBrackets (szAddressW : List WChar) (nAddressLen : Nat) : List WChar × Nat :=
  if nAddressLen ≥ 2 && charAt szAddressW 0 == 0x5B && charAt szAddressW (nAddressLen - 1) == 0x5D then
    (szAddressW.drop 1, nAddressLen - 2)
  else (szAddressW, nAddressLen)

/-- The words before an IPv4 address at the end say that there may be one. -/
def checkWords (nSlots : Nat) (words : List Nat) : Bool :=
  nSlots == 0 || (words.take nSlots).any (· != 0) ||
    ((words.take 5).all (· == 0) && (words.getD 5 0 == 0 || words.getD 5 0 == 0xFFFF))

/-- `IsValidIPV6(szAddressW, nAddressLen)`; the text goes on behind the `nAddressLen`
characters. -/
def isValidIPV6 (bWide : Bool) (szAddressW : List WChar) (nAddressLen : Nat) : Bool :=
  let (szAddressW, nAddressLen) := stripBrackets szAddressW nAddressLen
  let address := (szAddressW.take nAddressLen).takeWhile fun chW => chW != 0x2F && chW != 0x25
  if address.length < 2 then false
  else
    match address.reverse.findIdx? (· == 0x3A) with
    | none => false
    | some k =>
      -- IPv4 behind the last colon?
      let nLastColonPos := address.length - 1 - k
      let bIPv4 := k > 0 && isValidIPV4 (address.drop (nLastColonPos + 1))
      let nSlots := if bIPv4 then 2 else 0
      let nAddressLen :=
        if !bIPv4 then address.length
        else if nLastColonPos > 0 && charAt szAddressW (nLastColonPos - 1) == 0x3A then
          nLastColonPos + 1
        else nLastColonPos
      match ipv6Words bWide szAddressW nAddressLen nSlots with
      | none => false
      | some words => checkWords nSlots words

/-- There is a colon in an IPv6 address. -/
theorem colon_mem_of_isValidIPV6 {bWide : Bool} {szAddressW : List WChar} {nAddressLen : Nat}
    (h : isValidIPV6 bWide szAddressW nAddressLen = true) : 0x3A ∈ szAddressW := by
  rw [isValidIPV6] at h
  have hstrip : ∀ chW ∈ (stripBrackets szAddressW nAddressLen).1, chW ∈ szAddressW := by
    intro chW hch
    rw [stripBrackets] at hch
    split at hch
    · exact List.mem_of_mem_drop hch
    · exact hch
  generalize stripBrackets szAddressW nAddressLen = stripped at h hstrip
  obtain ⟨sW, nLen⟩ := stripped
  dsimp only at h
  split at h
  · cases h
  · split at h
    · cases h
    · next k hk =>
      obtain ⟨hlt, hcolon, -⟩ := List.findIdx?_eq_some_iff_getElem.mp hk
      have hmem : 0x3A ∈ (sW.take nLen).takeWhile fun chW => chW != 0x2F && chW != 0x25 := by
        rw [← List.mem_reverse, ← beq_iff_eq.mp hcolon]
        exact List.getElem_mem hlt
      exact hstrip _ (List.mem_of_mem_take ((List.takeWhile_sublist _).subset hmem))

example : isValidIPV4 (wide "10.0x1.3") = true ∧ isValidIPV6 false (wide "[fe80::1:2]") 11 = true ∧
    isValidIPV6 true (wide "fe80::1:2") 9 = false := by
  decide +kernel

end MxLib.HostResolver
