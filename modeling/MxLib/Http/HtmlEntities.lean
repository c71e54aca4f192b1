import Mathlib.Data.List.Nodup
import MxLib.Library.BinarySearch
import MxLib.Strings.Utf8

/-!
# HTML entities

`ConvertTo` and `ConvertFrom` of `HtmlEntities`, for narrow and for wide strings, and
`Decode`.  A string is given as its `nStrLen` characters.  The run between the start
pointer and the current one is kept as the list of its characters; it is added to the
result by `AddString`.

`Decode` reads the same codes in a narrow string and in a wide one, so it is written
over the codes.
-/

namespace MxLib.Http.HtmlEntities

open MxLib.Library.BinarySearch

/-! ### The table -/

/-- `aHtmlEntities`, with the names as strings. -/
def entityDefs : List (String × Nat) :=
  [("quot", 34), ("amp", 38), ("apos", 39), ("lt", 60), ("gt", 62), ("nbsp", 160),
    ("iexcl", 161), ("cent", 162), ("pound", 163), ("curren", 164), ("yen", 165), ("brvbar", 166),
    ("sect", 167), ("uml", 168), ("copy", 169), ("ordf", 170), ("laquo", 171), ("not", 172),
    ("shy", 173), ("reg", 174), ("macr", 175), ("deg", 176), ("plusmn", 177), ("sup2", 178),
    ("sup3", 179), ("acute", 180), ("micro", 181), ("para", 182), ("middot", 183), ("cedil", 184),
    ("sup1", 185), ("ordm", 186), ("raquo", 187), ("frac14", 188), ("frac12", 189),
    ("frac34", 190), ("iquest", 191), ("Agrave", 192), ("Aacute", 193), ("Acirc", 194),
    ("Atilde", 195), ("Auml", 196), ("Aring", 197), ("AElig", 198), ("Ccedil", 199),
    ("Egrave", 200), ("Eacute", 201), ("Ecirc", 202), ("Euml", 203), ("Igrave", 204),
    ("Iacute", 205), ("Icirc", 206), ("Iuml", 207), ("ETH", 208), ("Ntilde", 209),
    ("Ograve", 210), ("Oacute", 211), ("Ocirc", 212), ("Otilde", 213), ("Ouml", 214),
    ("times", 215), ("Oslash", 216), ("Ugrave", 217), ("Uacute", 218), ("Ucirc", 219),
    ("Uuml", 220), ("Yacute", 221), ("THORN", 222), ("szlig", 223), ("agrave", 224),
    ("aacute", 225), ("acirc", 226), ("atilde", 227), ("auml", 228), ("aring", 229),
    ("aelig", 230), ("ccedil", 231), ("egrave", 232), ("eacute", 233), ("ecirc", 234),
    ("euml", 235), ("igrave", 236), ("iacute", 237), ("icirc", 238), ("iuml", 239), ("eth", 240),
    ("ntilde", 241), ("ograve", 242), ("oacute", 243), ("ocirc", 244), ("otilde", 245),
    ("ouml", 246), ("divide", 247), ("oslash", 248), ("ugrave", 249), ("uacute", 250),
    ("ucirc", 251), ("uuml", 252), ("yacute", 253), ("thorn", 254), ("yuml", 255), ("OElig", 338),
    ("oelig", 339), ("Scaron", 352), ("scaron", 353), ("Yuml", 376), ("fnof", 402), ("circ", 710),
    ("tilde", 732), ("Alpha", 913), ("Beta", 914), ("Gamma", 915), ("Delta", 916),
    ("Epsilon", 917), ("Zeta", 918), ("Eta", 919), ("Theta", 920), ("Iota", 921), ("Kappa", 922),
    ("Lambda", 923), ("Mu", 924), ("Nu", 925), ("Xi", 926), ("Omicron", 927), ("Pi", 928),
    ("Rho", 929), ("Sigma", 931), ("Tau", 932), ("Upsilon", 933), ("Phi", 934), ("Chi", 935),
    ("Psi", 936), ("Omega", 937), ("alpha", 945), ("beta", 946), ("gamma", 947), ("delta", 948),
    ("epsilon", 949), ("zeta", 950), ("eta", 951), ("theta", 952), ("iota", 953), ("kappa", 954),
    ("lambda", 955), ("mu", 956), ("nu", 957), ("xi", 958), ("omicron", 959), ("pi", 960),
    ("rho", 961), ("sigmaf", 962), ("sigma", 963), ("tau", 964), ("upsilon", 965), ("phi", 966),
    ("chi", 967), ("psi", 968), ("omega", 969), ("thetasym", 977), ("upsih", 978), ("piv", 982),
    ("ensp", 8194), ("emsp", 8195), ("thinsp", 8201), ("zwnj", 8204), ("zwj", 8205),
    ("lrm", 8206), ("rlm", 8207), ("ndash", 8211), ("mdash", 8212), ("lsquo", 8216),
    ("rsquo", 8217), ("sbquo", 8218), ("ldquo", 8220), ("rdquo", 8221), ("bdquo", 8222),
    ("dagger", 8224), ("Dagger", 8225), ("bull", 8226), ("hellip", 8230), ("permil", 8240),
    ("prime", 8242), ("Prime", 8243), ("lsaquo", 8249), ("rsaquo", 8250), ("oline", 8254),
    ("frasl", 8260), ("euro", 8364), ("image", 8465), ("weierp", 8472), ("real", 8476),
    ("trade", 8482), ("alefsym", 8501), ("larr", 8592), ("uarr", 8593), ("rarr", 8594),
    ("darr", 8595), ("harr", 8596), ("crarr", 8629), ("lArr", 8656), ("uArr", 8657),
    ("rArr", 8658), ("dArr", 8659), ("hArr", 8660), ("forall", 8704), ("part", 8706),
    ("exist", 8707), ("empty", 8709), ("nabla", 8711), ("isin", 8712), ("notin", 8713),
    ("ni", 8715), ("prod", 8719), ("sum", 8721), ("minus", 8722), ("lowast", 8727),
    ("radic", 8730), ("prop", 8733), ("infin", 8734), ("ang", 8736), ("and", 8743), ("or", 8744),
    ("cap", 8745), ("cup", 8746), ("int", 8747), ("there4", 8756), ("sim", 8764), ("cong", 8773),
    ("asymp", 8776), ("ne", 8800), ("equiv", 8801), ("le", 8804), ("ge", 8805), ("sub", 8834),
    ("sup", 8835), ("nsub", 8836), ("sube", 8838), ("supe", 8839), ("oplus", 8853),
    ("otimes", 8855), ("perp", 8869), ("sdot", 8901), ("lceil", 8968), ("rceil", 8969),
    ("lfloor", 8970), ("rfloor", 8971), ("lang", 9001), ("rang", 9002), ("loz", 9674),
    ("spades", 9824), ("clubs", 9827), ("hearts", 9829), ("diams", 9830)]

/-- `HTMLENTITY_DEF` -/
structure EntityDef where
  szNameA : List Byte
  chCharCodeW : WChar
deriving DecidableEq

/-- `aHtmlEntities` -/
def aHtmlEntities : List EntityDef := entityDefs.map fun d => ⟨ascii d.1, UInt16.ofNat d.2⟩

/-- `HtmlEntities_Compare` -/
def compareEntity (chW : WChar) (lpDef : EntityDef) : Ordering :=
  if chW < lpDef.chCharCodeW then .lt else if chW > lpDef.chCharCodeW then .gt else .eq

/-- `Get` -/
def get (chW : WChar) : Option (List Byte) :=
  (bsearch (compareEntity chW) aHtmlEntities).map (·.szNameA)

set_option maxRecDepth 4000 in
theorem aHtmlEntities_sorted :
    aHtmlEntities.Pairwise fun d d' => d.chCharCodeW.toNat < d'.chCharCodeW.toNat := by
  rw [← List.isChain_iff_pairwise]
  decide

theorem compareEntity_eq (chW : WChar) :
    compareEntity chW = compareKey (fun d : EntityDef => d.chCharCodeW.toNat) chW.toNat := by
  funext d
  simp only [compareEntity, compareKey, gt_iff_lt, UInt16.lt_iff_toNat_lt]

/-- **`Get` looks through the whole table.** -/
theorem get_eq_some_iff {chW : WChar} {szNameA : List Byte} :
    get chW = some szNameA ↔ ⟨szNameA, chW⟩ ∈ aHtmlEntities := by
  rw [get, compareEntity_eq, Option.map_eq_some_iff]
  constructor
  · rintro ⟨d, hd, rfl⟩
    obtain ⟨hmem, hcode⟩ := (bsearch_eq_some_iff aHtmlEntities_sorted).mp hd
    rwa [← UInt16.toNat_inj.mp hcode]
  · intro hmem
    exact ⟨_, (bsearch_eq_some_iff aHtmlEntities_sorted).mpr ⟨hmem, rfl⟩, rfl⟩

/-! ### Converting to entities -/

def ampA : Byte := 0x26
def ampW : WChar := 0x26
def semicolonA : Byte := 0x3B
def semicolonW : WChar := 0x3B

/-- The reference to a control character. -/
def hexReferenceA (chA : Byte) : List Byte :=
  let szHexaNumA := ascii "0123456789ABCDEF"
  ascii "&#x" ++ [charAt szHexaNumA ((chA >>> 4) &&& 0x0F).toNat,
    charAt szHexaNumA (chA &&& 0x0F).toNat, semicolonA]

/-- The same in a wide string. -/
def hexReferenceW (chW : WChar) : List WChar :=
  let szHexaNumW := wide "0123456789ABCDEF"
  wide "&#x" ++ [charAt szHexaNumW ((chW >>> 4) &&& 0x0F).toNat,
    charAt szHexaNumW (chW &&& 0x0F).toNat, semicolonW]

/-- The reference by name. -/
def nameReferenceA (szEntityA : List Byte) : List Byte := ampA :: szEntityA ++ [semicolonA]

/-- The same in a wide string.  A name is copied up to 32 characters. -/
def nameReferenceW (szEntityA : List Byte) : List WChar :=
  let szTempBufW := (szEntityA.take 32).map UInt8.toUInt16
  ampW :: szTempBufW ++ [semicolonW]

/-- The loop of `ConvertTo` for narrow strings, with at most `fuel` turns; `run` is the
text between `szStartA` and `szStrA`. -/
def convertToFromA : Nat → List Byte → List Byte → List Byte → List Byte
  | 0, _, run, cStrA => cStrA ++ run
  | _ + 1, [], run, cStrA => cStrA ++ run
  | fuel + 1, chA :: rest, run, cStrA =>
    if chA < 32 then convertToFromA fuel rest [] (cStrA ++ run ++ hexReferenceA chA)
    else
      match utf8DecodeChar (chA :: rest) with
      | none => convertToFromA fuel rest (run ++ [chA]) cStrA
      | some (chW0, chW1, nChars) =>
        match if chW1 == 0 then get chW0 else none with
        | some szEntityA =>
          convertToFromA fuel ((chA :: rest).drop nChars) []
            (cStrA ++ run ++ nameReferenceA szEntityA)
        | none =>
          convertToFromA fuel ((chA :: rest).drop nChars) (run ++ (chA :: rest).take nChars) cStrA

/-- `ConvertTo` for narrow strings. -/
def convertToA (szStrA : List Byte) : List Byte := convertToFromA szStrA.length szStrA [] []

/-- The loop of `ConvertTo` for wide strings. -/
def convertToFromW : List WChar → List WChar → List WChar → List WChar
  | [], run, cStrW => cStrW ++ run
  | chW :: rest, run, cStrW =>
    if chW < 32 then convertToFromW rest [] (cStrW ++ run ++ hexReferenceW chW)
    else
      match get chW with
      | some szEntityA => convertToFromW rest [] (cStrW ++ run ++ nameReferenceW szEntityA)
      | none => convertToFromW rest (run ++ [chW]) cStrW

/-- `ConvertTo` for wide strings. -/
def convertToW (szStrW : List WChar) : List WChar := convertToFromW szStrW [] []

/-! ### Decoding a reference -/

/-- `nDigit` of a character. -/
def decodeDigit (c : Nat) : Option Nat :=
  if 0x30 ≤ c ∧ c ≤ 0x39 then some (c - 0x30)
  else if 0x41 ≤ c ∧ c ≤ 0x46 then some (c - 0x41 + 10)
  else if 0x61 ≤ c ∧ c ≤ 0x66 then some (c - 0x61 + 10)
  else none

/-- The loop over the digits of a number, of which `n` characters were read before. -/
def decodeDigits (nBase : WChar) : List Nat → WChar → Nat → Option (WChar × Nat)
  | [], _, _ => none
  | c :: szStr, chW, n =>
    if c = 0x3B then some (chW, n + 1)
    else if c = 0 then none
    else
      match decodeDigit c with
      | none => none
      | some nDigit =>
        if nDigit ≥ nBase.toNat then none
        else
          let chTempW := chW * nBase
          if chTempW < chW then none
          else if chTempW + .ofNat nDigit < chTempW then none
          else decodeDigits nBase szStr (chTempW + .ofNat nDigit) (n + 1)

/-- The name is at the beginning of the text, and a semicolon behind it; the text must
not end there. -/
def matchesName (szStr : List Nat) (szNameA : List Byte) : Bool :=
  (szNameA.map UInt8.toNat).isPrefixOf szStr && decide (szStr.length - 1 > szNameA.length) &&
    szStr[szNameA.length]? == some 0x3B

/-- `Decode`: the character, and how many characters of the text stand for it.  `none`
where it returns 0 and leaves `lpszAfterEntityA` at the beginning. -/
def decode : List Nat → Option (WChar × Nat)
  | [] => none
  | c :: szStr =>
    if c ≠ 0x26 then none
    else
      match szStr with
      | [] => none
      | c1 :: rest =>
        if c1 = 0x23 then
          if rest[0]? = some 0x78 ∨ rest[0]? = some 0x58 then decodeDigits 16 (rest.drop 1) 0 3
          else decodeDigits 10 rest 0 2
        else
          (aHtmlEntities.find? fun d => matchesName (c1 :: rest) d.szNameA).map fun d =>
            (d.chCharCodeW, 1 + d.szNameA.length + 1)

/-! ### Converting from entities -/

/-- The character that a reference stands for, if `ConvertFrom` takes it for one. -/
def decodeNonzero (szStr : List Nat) : Option (WChar × Nat) :=
  (decode szStr).filter fun r => r.1 != 0

/-- The loop of `ConvertFrom` for narrow strings.  `szStrA = szStrA = szDecodeEndA`
leaves `szStartA` where it was, so the reference stays in the run. -/
def convertFromFromA : Nat → List Byte → List Byte → List Byte → List Byte
  | 0, _, run, cStrA => cStrA ++ run
  | _ + 1, [], run, cStrA => cStrA ++ run
  | fuel + 1, chA :: rest, run, cStrA =>
    match decodeNonzero ((chA :: rest).map UInt8.toNat) with
    | some (chW, n) =>
      convertFromFromA fuel ((chA :: rest).drop n) (run ++ (chA :: rest).take n)
        (cStrA ++ run ++ (utf8EncodeChar chW 0).getD [])
    | none => convertFromFromA fuel rest (run ++ [chA]) cStrA

/-- `ConvertFrom` for narrow strings. -/
def convertFromA (szStrA : List Byte) : List Byte := convertFromFromA szStrA.length szStrA [] []

/-- The loop of `ConvertFrom` for wide strings. -/
def convertFromFromW : Nat → List WChar → List WChar → List WChar → List WChar
  | 0, _, run, cStrW => cStrW ++ run
  | _ + 1, [], run, cStrW => cStrW ++ run
  | fuel + 1, chW :: rest, run, cStrW =>
    match decodeNonzero ((chW :: rest).map UInt16.toNat) with
    | some (ch, n) => convertFromFromW fuel ((chW :: rest).drop n) [] (cStrW ++ run ++ [ch])
    | none => convertFromFromW fuel rest (run ++ [chW]) cStrW

/-- `ConvertFrom` for wide strings. -/
def convertFromW (szStrW : List WChar) : List WChar := convertFromFromW szStrW.length szStrW [] []

/-! ### Facts about the table -/

/-- A letter or a digit. -/
def isNameCode (c : Nat) : Bool :=
  (0x30 ≤ c && c ≤ 0x39) || (0x41 ≤ c && c ≤ 0x5A) || (0x61 ≤ c && c ≤ 0x7A)

/-- No number of the list comes twice or is a bit of the set `m`. -/
def distinctFrom : Nat → List Nat → Bool
  | _, [] => true
  | m, a :: l => !m.testBit a && distinctFrom (m ||| 1 <<< a) l

theorem nodup_of_distinctFrom {m : Nat} {l : List Nat} (h : distinctFrom m l = true) :
    l.Nodup ∧ ∀ a ∈ l, m.testBit a = false := by
  induction l generalizing m with
  | nil => exact ⟨List.nodup_nil, nofun⟩
  | cons a l ih =>
    rw [distinctFrom, Bool.and_eq_true, Bool.not_eq_true'] at h
    obtain ⟨hnodup, hbits⟩ := ih h.2
    refine ⟨List.nodup_cons.mpr ⟨fun hmem => ?_, hnodup⟩, ?_⟩
    · have hbit := hbits a hmem
      rw [Nat.testBit_or, Nat.one_shiftLeft, Nat.testBit_two_pow_self, Bool.or_true] at hbit
      cases hbit
    · intro b hb
      rcases List.mem_cons.mp hb with rfl | hb
      · exact h.1
      · have hbit := hbits b hb
        rw [Nat.testBit_or, Bool.or_eq_false_iff] at hbit
        exact hbit.1

/-- A small number that tells the names of the table apart. -/
def nameKey (szNameA : List Byte) : Nat :=
  szNameA.foldl (fun n ch => n * 256 + ch.toNat) 0 % 4739

set_option maxRecDepth 4000 in
theorem entityDefs_ascii : ∀ d ∈ entityDefs, ascii d.1 = d.1.toByteArray.data.toList := by
  have hall : (entityDefs.all fun d => d.1.toByteArray.data.toList.all (decide <| · < 0x80)) =
    true := by decide
  intro d hd
  apply ascii_eq_bytes
  intro b hb
  exact of_decide_eq_true (List.all_eq_true.mp (List.all_eq_true.mp hall d hd) b hb)

set_option maxRecDepth 4000 in
theorem names_nodup : (aHtmlEntities.map (·.szNameA)).Nodup := by
  have hkeys : distinctFrom 0 (entityDefs.map fun d => nameKey d.1.toByteArray.data.toList) =
    true := by decide
  refine List.Nodup.of_map nameKey ?_
  rw [aHtmlEntities, List.map_map, List.map_map]
  rw [← List.map_congr_left fun d hd => congrArg nameKey (entityDefs_ascii d hd)] at hkeys
  exact (nodup_of_distinctFrom hkeys).1

/-- The names are short words of letters and digits, and the codes those of printable
characters below the surrogates. -/
theorem aHtmlEntities_names : ∀ d ∈ aHtmlEntities, 2 ≤ d.szNameA.length ∧ d.szNameA.length ≤ 8 ∧
    (d.szNameA.all fun ch => isNameCode ch.toNat) = true ∧ 32 ≤ d.chCharCodeW.toNat ∧
      d.chCharCodeW.toNat < 0xD000 := by
  have hall : ∀ d ∈ entityDefs, 2 ≤ d.1.toByteArray.data.toList.length ∧
      d.1.toByteArray.data.toList.length ≤ 8 ∧
        (d.1.toByteArray.data.toList.all fun ch => isNameCode ch.toNat) = true ∧
          32 ≤ (UInt16.ofNat d.2).toNat ∧ (UInt16.ofNat d.2).toNat < 0xD000 := by
    decide +kernel
  intro e he
  obtain ⟨d, hd, rfl⟩ := List.mem_map.mp he
  have hnames := hall d hd
  rwa [← entityDefs_ascii d hd] at hnames

set_option maxRecDepth 4000 in
/-- The characters with a meaning in markup have a name. -/
theorem get_markup : ∀ c ∈ ([0x22, 0x26, 0x27, 0x3C, 0x3E] : List WChar), get c ≠ none := by
  have hall : (([0x22, 0x26, 0x27, 0x3C, 0x3E] : List WChar).all fun c => (get c).isSome) = true :=
    by decide
  intro c hc
  exact Option.ne_none_iff_isSome.mpr (List.all_eq_true.mp hall c hc)

end MxLib.Http.HtmlEntities
