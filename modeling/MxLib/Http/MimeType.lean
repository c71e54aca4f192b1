import Mathlib.Data.List.TakeWhile
import MxLib.Library.BinarySearch
import MxLib.Strings.Strings
import MxLib.Strings.Utf8Compare

/-!
# MIME types

`GetMimeType` takes the type of a file from its extension.  The table is in order and in small
letters, and the search is a binary search that stays in it (`searchMime_eq`); it is given the
extension as it is written, though, not the one in small letters that was made of it.  A file of a
type in the table has the default type, where its extension has a capital (`mimeLookup_iff`).

A narrow name and a wide one are compared by the codes of their characters.
-/

namespace MxLib.Http.Mime

open MxLib.Library.BinarySearch
open MxLib.Compare (compareLens minLen minLen_eq compareLens_of_ne)

/-! ### The table -/

/-- The extensions and their types, as the source has them. -/
def mimeTypes : List (String × String) :=
  [("3gp", "video/3gpp"), ("3gpp", "video/3gpp"), ("7z", "application/x-7z-compressed"),
    ("ai", "application/postscript"), ("asf", "video/x-ms-asf"), ("asx", "video/x-ms-asf"),
    ("atom", "application/atom+xml"), ("avi", "video/x-msvideo"), ("bmp", "image/x-ms-bmp"),
    ("cco", "application/x-cocoa"), ("crt", "application/x-x509-ca-cert"), ("css", "text/css"),
    ("der", "application/x-x509-ca-cert"), ("doc", "application/msword"),
    ("docx", "application/vnd.openxmlformats-officedocument.wordprocessingml.document"),
    ("ear", "application/java-archive"), ("eot", "application/vnd.ms-fontobject"),
    ("eps", "application/postscript"), ("flv", "video/x-flv"), ("gif", "image/gif"),
    ("hqx", "application/mac-binhex40"), ("htc", "text/x-component"), ("htm", "text/html"),
    ("html", "text/html"), ("ico", "image/x-icon"), ("jad", "text/vnd.sun.j2me.app-descriptor"),
    ("jar", "application/java-archive"), ("jardiff", "application/x-java-archive-diff"),
    ("jng", "image/x-jng"), ("jnlp", "application/x-java-jnlp-file"), ("jpeg", "image/jpeg"),
    ("jpg", "image/jpeg"), ("js", "application/javascript"), ("json", "application/json"),
    ("kar", "audio/midi"), ("kml", "application/vnd.google-earth.kml+xml"),
    ("kmz", "application/vnd.google-earth.kmz"), ("m3u8", "application/vnd.apple.mpegurl"),
    ("m4a", "audio/x-m4a"), ("m4v", "video/x-m4v"), ("mid", "audio/midi"), ("midi", "audio/midi"),
    ("mml", "text/mathml"), ("mng", "video/x-mng"), ("mov", "video/quicktime"),
    ("mp3", "audio/mpeg"), ("mp4", "video/mp4"), ("mpeg", "video/mpeg"), ("mpg", "video/mpeg"),
    ("odg", "application/vnd.oasis.opendocument.graphics"),
    ("odp", "application/vnd.oasis.opendocument.presentation"),
    ("ods", "application/vnd.oasis.opendocument.spreadsheet"),
    ("odt", "application/vnd.oasis.opendocument.text"), ("ogg", "audio/ogg"),
    ("pdb", "application/x-pilot"), ("pdf", "application/pdf"),
    ("pem", "application/x-x509-ca-cert"), ("pl", "application/x-perl"),
    ("pm", "application/x-perl"), ("png", "image/png"), ("ppt", "application/vnd.ms-powerpoint"),
    ("pptx", "application/vnd.openxmlformats-officedocument.presentationml.presentation"),
    ("prc", "application/x-pilot"), ("ps", "application/postscript"), ("ra", "audio/x-realaudio"),
    ("rar", "application/x-rar-compressed"), ("rpm", "application/x-redhat-package-manager"),
    ("rss", "application/rss+xml"), ("rtf", "application/rtf"), ("run", "application/x-makeself"),
    ("sea", "application/x-sea"), ("shtml", "text/html"), ("sit", "application/x-stuffit"),
    ("svg", "image/svg+xml"), ("svgz", "image/svg+xml"), ("swf", "application/x-shockwave-flash"),
    ("tcl", "application/x-tcl"), ("tif", "image/tiff"), ("tiff", "image/tiff"),
    ("tk", "application/x-tcl"), ("ts", "video/mp2t"), ("txt", "text/plain"),
    ("war", "application/java-archive"), ("wbmp", "image/vnd.wap.wbmp"), ("webm", "video/webm"),
    ("webp", "image/webp"), ("wml", "text/vnd.wap.wml"), ("wmlc", "application/vnd.wap.wmlc"),
    ("wmv", "video/x-ms-wmv"), ("woff", "font/woff"), ("woff2", "font/woff2"),
    ("xhtml", "application/xhtml+xml"), ("xls", "application/vnd.ms-excel"),
    ("xlsx", "application/vnd.openxmlformats-officedocument.spreadsheetml.sheet"),
    ("xml", "text/xml"), ("xpi", "application/x-xpinstall"), ("xspf", "application/xspf+xml"),
    ("zip", "application/zip")]

/-- The elements of `aMimeTypes`. -/
structure MimeType where
  szExtensionA : List Byte
  szMimeTypeA : List Byte
deriving DecidableEq

/-- `aMimeTypes` -/
def aMimeTypes : List MimeType := mimeTypes.map fun e => ⟨ascii e.1, ascii e.2⟩

def szDefaultMimeTypeA : List Byte := ascii "application/octet-stream"

/-! ### Comparing -/

/-- `strncmp`: the difference of the first characters that differ. -/
def strncmp : Nat → List Byte → List Byte → Int
  | 0, _, _ => 0
  | nLen + 1, szSrcA1, szSrcA2 =>
    let chA1 := charAt szSrcA1 0
    let chA2 := charAt szSrcA2 0
    if chA1 ≠ chA2 then (chA1.toNat : Int) - chA2.toNat
    else if chA1 = 0 then 0
    else strncmp nLen (szSrcA1.drop 1) (szSrcA2.drop 1)

/-- `StrNCompareA`, where capitals are not small letters. -/
def strNCompareA (szSrcA1 szSrcA2 : List Byte) (nLen : Nat) : Int :=
  if nLen = 0 then 0 else strncmp nLen szSrcA1 szSrcA2

/-- `StrCompareA`, where capitals are not small letters. -/
def strCompareA (szSrcA1 szSrcA2 : List Byte) : Int :=
  let nLen0 := (szStr szSrcA1).length
  let nLen1 := (szStr szSrcA2).length
  compareLens (strNCompareA szSrcA1 szSrcA2 (minLen nLen0 nLen1)) nLen0 nLen1

/-! ### The search -/

/-- The loop over the `n` elements from `nBase` on, with at most `fuel` turns; `none` stands for a
read outside of the table. -/
def searchMime (szExtA : List Byte) : Nat → Nat → Nat → Option (Option MimeType)
  | 0, _, _ => some none
  | fuel + 1, nBase, n =>
    if n > 0 then
      let nMid := nBase + (n >>> 1)
      match aMimeTypes[nMid]? with
      | none => none
      | some e =>
        let comp := strCompareA szExtA e.szExtensionA
        if comp = 0 then some (some e)
        else if comp > 0 then searchMime szExtA fuel (nMid + 1) ((n - 1) >>> 1)
        else searchMime szExtA fuel nBase (n >>> 1)
    else some none

/-- `GetMimeTypeFromExtensionA`.  The extension in small letters is made, and not looked for. -/
def getMimeTypeFromExtensionA (szExtA : List Byte) : Option (List Byte) :=
  let szExtLcA := ((szStr szExtA).take 8).map lowerA
  let i := szExtLcA.length
  if i > 0 && i < 8 && charAt szExtA i == 0 then
    (searchMime szExtA aMimeTypes.length 0 aMimeTypes.length).map fun r =>
      match r with
      | some e => e.szMimeTypeA
      | none => szDefaultMimeTypeA
  else some szDefaultMimeTypeA

/-- `GetMimeTypeFromExtensionW` -/
def getMimeTypeFromExtensionW (szExtW : List WChar) : Option (List Byte) :=
  let szExtA := (((szStr szExtW).take 8).takeWhile (· ≤ 127)).map UInt16.toUInt8
  let i := szExtA.length
  if i ≥ 8 || charAt szExtW i != 0 then some szDefaultMimeTypeA
  else getMimeTypeFromExtensionA szExtA

/-- Where the loop of `GetMimeType` stops. -/
def extensionStart {α : Type} [OfNat α 0] (isStop : α → Bool) (szFileName : List α) : Nat → Nat
  | 0 => 0
  | n + 1 => if isStop (charAt szFileName n) then n + 1 else extensionStart isStop szFileName n

/-- What the two `GetMimeType` do: the type, a null pointer if there is no name, and `none` for a
read outside of the table. -/
def mimeTypeOf {α : Type} [BEq α] [OfNat α 0] (chDot chBackslash chSlash : α)
    (fromExtension : List α → Option (List Byte)) (szFileName : List α) :
    Option (Option (List Byte)) :=
  let szFileName := szStr szFileName
  if szFileName.isEmpty then some none
  else
    let n := extensionStart (fun ch => ch == chDot || ch == chBackslash || ch == chSlash) szFileName
      szFileName.length
    if n > 0 && charAt szFileName (n - 1) == chDot then
      (fromExtension (szFileName.drop n)).map some
    else some (some szDefaultMimeTypeA)

/-- `GetMimeType` of a narrow name. -/
def getMimeTypeA (szFileNameA : List Byte) : Option (Option (List Byte)) :=
  mimeTypeOf 0x2E 0x5C 0x2F getMimeTypeFromExtensionA szFileNameA

/-- `GetMimeType` of a wide name. -/
def getMimeTypeW (szFileNameW : List WChar) : Option (Option (List Byte)) :=
  mimeTypeOf 0x2E 0x5C 0x2F getMimeTypeFromExtensionW szFileNameW

/-! ### What is looked for -/

/-- A character between two components of a path. -/
def isPathSeparator (c : Nat) : Bool := c == 0x5C || c == 0x2F

/-- The last component of a path. -/
def lastComponent (name : List Nat) : List Nat :=
  (name.reverse.takeWhile fun c => !isPathSeparator c).reverse

/-- The text behind the last dot of the last component. -/
def IsExtension (name ext : List Nat) : Prop :=
  ∃ base, lastComponent name = base ++ 0x2E :: ext ∧ 0x2E ∉ ext

/-- A code without its case. -/
def lowerCode (c : Nat) : Nat := if 0x41 ≤ c ∧ c ≤ 0x5A then c + 0x20 else c

/-- The codes of an extension of the table. -/
def MimeType.codes (e : MimeType) : List Nat := e.szExtensionA.map UInt8.toNat

/-- An element of the table that a name has, but for the case. -/
def Names (name : List Nat) (e : MimeType) : Prop :=
  ∃ ext, IsExtension name ext ∧ e.codes.map lowerCode = ext.map lowerCode

/-- The type that a file should have. -/
def IsMimeTypeOf (name : List Nat) (szMimeTypeA : List Byte) : Prop :=
  (∃ e ∈ aMimeTypes, Names name e ∧ szMimeTypeA = e.szMimeTypeA) ∨
    (¬ (∃ e ∈ aMimeTypes, Names name e) ∧ szMimeTypeA = szDefaultMimeTypeA)

/-- There is a type for the name, if it is not empty. -/
def MimeLookup (name : List Nat) (r : Option (Option (List Byte))) : Prop :=
  name ≠ [] → ∃ szMimeTypeA, r = some (some szMimeTypeA) ∧ IsMimeTypeOf name szMimeTypeA

/-- An extension with a capital, which the table has in small letters. -/
def HasCapitals (name : List Nat) : Prop :=
  ∃ ext, IsExtension name ext ∧ (∃ c ∈ ext, 0x41 ≤ c ∧ c ≤ 0x5A) ∧
    ∃ e ∈ aMimeTypes, e.codes = ext.map lowerCode

/-! ### The order of the table -/

/-- The codes of a narrow text. -/
def codes (sA : List Byte) : List Nat := sA.map UInt8.toNat

/-- The comparison of texts without zeros. -/
def compareTexts (s t : List Byte) : Int :=
  compareLens (strncmp (min s.length t.length) s t) s.length t.length

theorem compareTexts_cons {chA : Byte} (hzero : chA ≠ 0) (chB : Byte) (s t : List Byte) :
    compareTexts (chA :: s) (chB :: t) =
      if chA = chB then compareTexts s t else (chA.toNat : Int) - chB.toNat := by
  have hmin : min (s.length + 1) (t.length + 1) = min s.length t.length + 1 := by omega
  have hlens (res : Int) : compareLens res (s.length + 1) (t.length + 1) =
      compareLens res s.length t.length := by
    simp only [compareLens, Nat.add_lt_add_iff_right, gt_iff_lt]
  rw [compareTexts, compareTexts, List.length_cons, List.length_cons, hlens, hmin, strncmp,
    charAt_cons_zero, charAt_cons_zero]
  by_cases hch : chA = chB
  · rw [if_neg (not_not.mpr hch), if_neg hzero, if_pos hch, List.drop_one, List.drop_one,
      List.tail_cons, List.tail_cons]
  · have hne : chA.toNat ≠ chB.toNat := fun h => hch (UInt8.toNat_inj.mp h)
    rw [if_pos hch, if_neg hch, compareLens_of_ne (by omega)]

/-- **Texts are compared in the order of a dictionary.** -/
theorem compareTexts_sign (s : List Byte) : ∀ t : List Byte, (∀ ch ∈ s, ch ≠ 0) →
    (compareTexts s t < 0 ↔ codes s < codes t) ∧ (compareTexts s t = 0 ↔ codes s = codes t) := by
  induction s with
  | nil =>
    intro t _
    cases t with
    | nil => exact ⟨iff_of_false (by decide) (lt_irrefl _), iff_of_true rfl rfl⟩
    | cons chB t =>
      have hcomp : compareTexts [] (chB :: t) = -1 := by
        rw [compareTexts, List.length_nil, Nat.zero_min]
        rfl
      rw [hcomp]
      exact ⟨iff_of_true (by decide) (List.nil_lt_cons _ _), iff_of_false (by decide) (by nofun)⟩
  | cons chA s ih =>
    intro t hs
    cases t with
    | nil =>
      have hcomp : compareTexts (chA :: s) [] = 1 := by
        rw [compareTexts, List.length_nil, Nat.min_zero]
        rfl
      rw [hcomp]
      exact ⟨iff_of_false (by decide) (List.not_lt_nil _), iff_of_false (by decide) (by nofun)⟩
    | cons chB t =>
      rw [compareTexts_cons (hs chA List.mem_cons_self), codes, codes, List.map_cons, List.map_cons,
        List.cons_lt_cons_iff, List.cons.injEq]
      by_cases hch : chA = chB
      · obtain ⟨hlt, heq⟩ := ih t fun ch hc => hs ch (List.mem_cons_of_mem _ hc)
        rw [if_pos hch, hlt, heq, hch]
        exact ⟨⟨fun h => .inr ⟨rfl, h⟩, fun h => (h.resolve_left (lt_irrefl _)).2⟩,
          ⟨fun h => ⟨rfl, h⟩, And.right⟩⟩
      · have hne : chA.toNat ≠ chB.toNat := fun h => hch (UInt8.toNat_inj.mp h)
        rw [if_neg hch]
        refine ⟨⟨fun h => .inl (by omega), fun h => ?_⟩, ⟨fun h => by omega, fun h => ?_⟩⟩
        · rcases h with h | ⟨h, -⟩
          · omega
          · exact absurd h hne
        · exact absurd h.1 hne

theorem strCompareA_eq {s t : List Byte} (hs : ∀ ch ∈ s, ch ≠ 0) (ht : ∀ ch ∈ t, ch ≠ 0) :
    strCompareA s t = compareTexts s t := by
  have hn : strNCompareA s t (min s.length t.length) = strncmp (min s.length t.length) s t := by
    rw [strNCompareA]
    by_cases hzero : min s.length t.length = 0
    · rw [if_pos hzero, hzero, strncmp]
    · rw [if_neg hzero]
  rw [strCompareA, szStr_of_ne_zero hs, szStr_of_ne_zero ht, minLen_eq,
    hn, compareTexts]

/-- The table, as its texts are stored. -/
theorem aMimeTypes_eq : aMimeTypes =
    mimeTypes.map fun e => ⟨e.1.toByteArray.data.toList, e.2.toByteArray.data.toList⟩ := by
  have hall : (mimeTypes.all fun e => (e.1.toByteArray.data.toList.all (decide <| · < 0x80)) &&
      e.2.toByteArray.data.toList.all (decide <| · < 0x80)) = true := by decide
  refine List.map_congr_left fun e he => ?_
  have hascii := List.all_eq_true.mp hall e he
  simp only [Bool.and_eq_true, List.all_eq_true, decide_eq_true_iff] at hascii
  rw [ascii_eq_bytes hascii.1, ascii_eq_bytes hascii.2]

/-- What is in the table: small letters and digits, fewer than the buffer has room for. -/
theorem aMimeTypes_facts : ∀ e ∈ aMimeTypes, (∀ ch ∈ e.szExtensionA, ch ≠ 0 ∧ ch.toNat ≤ 127 ∧
      ¬ (0x41 ≤ ch.toNat ∧ ch.toNat ≤ 0x5A)) ∧ 0 < e.szExtensionA.length ∧
    e.szExtensionA.length < 8 ∧ e.szMimeTypeA ≠ szDefaultMimeTypeA := by
  have hall : (aMimeTypes.all fun e => e.szExtensionA.all (fun ch => decide (ch ≠ 0 ∧
      ch.toNat ≤ 127 ∧ ¬ (0x41 ≤ ch.toNat ∧ ch.toNat ≤ 0x5A))) &&
      decide (0 < e.szExtensionA.length) && decide (e.szExtensionA.length < 8) &&
      decide (e.szMimeTypeA ≠ szDefaultMimeTypeA)) = true := by
    rw [aMimeTypes_eq, szDefaultMimeTypeA, ascii_eq_map (by rfl)]
    decide
  intro e he
  have hfacts := List.all_eq_true.mp hall e he
  simp only [Bool.and_eq_true, decide_eq_true_iff, List.all_eq_true] at hfacts
  exact ⟨hfacts.1.1.1, hfacts.1.1.2, hfacts.1.2, hfacts.2⟩

/-- **The table is in the order of the comparison.** -/
theorem aMimeTypes_sorted : aMimeTypes.Pairwise fun e e' => e.codes < e'.codes := by
  have hchain : aMimeTypes.IsChain
      fun e e' => compareTexts e.szExtensionA e'.szExtensionA < 0 := by
    rw [aMimeTypes_eq]
    decide +kernel
  rw [← List.isChain_iff_pairwise]
  refine List.IsChain.imp_of_mem_imp ?_ hchain
  intro e e' he _ hlt
  exact (compareTexts_sign _ _ fun ch hch => ((aMimeTypes_facts e he).1 ch hch).1).1.mp hlt

/-- The elements differ in their extensions. -/
theorem aMimeTypes_inj {e e' : MimeType} (he : e ∈ aMimeTypes) (he' : e' ∈ aMimeTypes)
    (hcodes : e.codes = e'.codes) : e = e' := by
  have hfound := (bsearch_eq_some_iff aMimeTypes_sorted).mpr ⟨he, hcodes⟩
  have hfound' := (bsearch_eq_some_iff aMimeTypes_sorted).mpr ⟨he', rfl⟩
  exact Option.some.inj (hfound.symm.trans hfound')

/-- **The search stays in the table**, and does what any binary search does. -/
theorem searchMime_eq {szExtA : List Byte} (hext : ∀ ch ∈ szExtA, ch ≠ 0) (fuel : Nat) :
    ∀ nBase n, nBase + n ≤ aMimeTypes.length →
    searchMime szExtA fuel nBase n =
      some (searchFrom (compareKey MimeType.codes (codes szExtA)) aMimeTypes fuel nBase n) := by
  induction fuel with
  | zero => exact fun _ _ _ => rfl
  | succ fuel ih =>
    intro nBase n hend
    rw [searchMime, searchFrom]
    by_cases hn : n = 0
    · subst hn
      rfl
    have hshift : n >>> 1 = n / 2 := Nat.shiftRight_eq_div_pow n 1
    have hhalf : (n - 1) >>> 1 = n - n / 2 - 1 := by
      rw [Nat.shiftRight_eq_div_pow]
      omega
    have hmid : nBase + n / 2 < aMimeTypes.length := by omega
    obtain ⟨e, hget⟩ : ∃ e, aMimeTypes[nBase + n / 2]? = some e :=
      ⟨_, List.getElem?_eq_getElem hmid⟩
    have he := List.mem_of_getElem? hget
    rw [if_pos (Nat.pos_of_ne_zero hn), if_neg hn, hshift, hhalf]
    dsimp only
    rw [hget]
    dsimp only
    obtain ⟨hlt, heq⟩ := compareTexts_sign szExtA e.szExtensionA hext
    rw [strCompareA_eq hext fun ch hch => ((aMimeTypes_facts e he).1 ch hch).1, compareKey]
    rcases lt_trichotomy (codes szExtA) e.codes with h | h | h
    · have hneg := hlt.mpr h
      rw [if_neg (by omega), if_neg (by omega), if_pos h, ih nBase (n / 2) (by omega)]
    · rw [if_pos (heq.mpr h), if_neg (by rw [h]; exact lt_irrefl _),
        if_neg (by rw [h]; exact lt_irrefl _)]
    · have hne : ¬ compareTexts szExtA e.szExtensionA = 0 := fun hzero =>
        absurd (heq.mp hzero) h.ne'
      have hpos : compareTexts szExtA e.szExtensionA > 0 := by
        have hnot : ¬ compareTexts szExtA e.szExtensionA < 0 := fun hneg =>
          absurd (hlt.mp hneg) h.not_gt
        omega
      rw [if_neg hne, if_pos hpos, if_neg h.not_gt, if_pos h, ih _ _ (by omega)]

/-- The type of an extension as it is written. -/
def IsTypeOf (ext : List Nat) (szMimeTypeA : List Byte) : Prop :=
  (∃ e ∈ aMimeTypes, e.codes = ext ∧ szMimeTypeA = e.szMimeTypeA) ∨
    (¬ (∃ e ∈ aMimeTypes, e.codes = ext) ∧ szMimeTypeA = szDefaultMimeTypeA)

/-- **An extension without zeros is looked for in the whole table.** -/
theorem getMimeTypeFromExtensionA_spec {szExtA : List Byte} (hext : ∀ ch ∈ szExtA, ch ≠ 0) :
    ∃ szMimeTypeA, getMimeTypeFromExtensionA szExtA = some szMimeTypeA ∧
      IsTypeOf (codes szExtA) szMimeTypeA := by
  have hstop : charAt szExtA szExtA.length = 0 := charAt_of_length_le (Nat.le_refl _)
  rw [getMimeTypeFromExtensionA, szStr_of_ne_zero hext, List.length_map, List.length_take]
  by_cases hlen : 0 < szExtA.length ∧ szExtA.length < 8
  · rw [Nat.min_eq_right (by omega), hstop, decide_eq_true hlen.1, decide_eq_true hlen.2,
      if_pos (by decide), searchMime_eq hext _ _ _ (Nat.le_of_eq (Nat.zero_add _)),
      Option.map_some]
    refine ⟨_, rfl, ?_⟩
    have hsearch := @bsearch_eq_some_iff _ _ _ _ _ aMimeTypes_sorted (codes szExtA)
    rw [bsearch] at hsearch
    cases hr : searchFrom (compareKey MimeType.codes (codes szExtA)) aMimeTypes aMimeTypes.length 0
        aMimeTypes.length with
    | some e =>
      obtain ⟨he, hcodes⟩ := hsearch.mp hr
      exact .inl ⟨e, he, hcodes, rfl⟩
    | none =>
      refine .inr ⟨?_, rfl⟩
      rintro ⟨e, he, hcodes⟩
      have hfound := hsearch.mpr ⟨he, hcodes⟩
      rw [hr] at hfound
      cases hfound
  · refine ⟨szDefaultMimeTypeA, ?_, .inr ⟨?_, rfl⟩⟩
    · rw [if_neg]
      simp only [Bool.and_eq_true, decide_eq_true_iff, gt_iff_lt]
      omega
    · rintro ⟨e, he, hcodes⟩
      have heq := congrArg List.length hcodes
      rw [MimeType.codes, codes, List.length_map, List.length_map] at heq
      have hfacts := aMimeTypes_facts e he
      omega

theorem charAt_eq_getElem {α : Type} [OfNat α 0] {s : List α} {k : Nat} (h : k < s.length) :
    charAt s k = s[k] := by
  rw [charAt, List.getD_eq_getElem?_getD, List.getElem?_eq_getElem h, Option.getD_some]

/-- The codes of a wide text. -/
def codesW (sW : List WChar) : List Nat := sW.map UInt16.toNat

/-- Units that are characters are the same as bytes. -/
theorem codes_map_toUInt8 {sW : List WChar} (h : ∀ ch ∈ sW, ch ≤ 127) :
    codes (sW.map UInt16.toUInt8) = codesW sW := by
  rw [codes, codesW, List.map_map]
  refine List.map_congr_left fun ch hch => ?_
  have hle : ch.toNat ≤ 127 := UInt16.le_iff_toNat_le.mp (h ch hch)
  rw [Function.comp_apply, UInt16.toNat_toUInt8]
  omega

/-- **A wide extension is looked for as a narrow one.** -/
theorem getMimeTypeFromExtensionW_spec {szExtW : List WChar} (hext : ∀ ch ∈ szExtW, ch ≠ 0) :
    ∃ szMimeTypeA, getMimeTypeFromExtensionW szExtW = some szMimeTypeA ∧
      IsTypeOf (codesW szExtW) szMimeTypeA := by
  rw [getMimeTypeFromExtensionW, szStr_of_ne_zero hext]
  have hprefix : (szExtW.take 8).takeWhile (· ≤ 127) <+: szExtW :=
    (List.takeWhile_prefix _).trans (List.take_prefix 8 szExtW)
  have hsmall : ∀ ch ∈ (szExtW.take 8).takeWhile (· ≤ 127), ch ≤ 127 := fun ch hch => by
    simpa using List.mem_takeWhile_imp hch
  by_cases hall : (∀ ch ∈ szExtW, ch ≤ 127) ∧ szExtW.length < 8
  · -- all of it is in the buffer
    have hwhole : (szExtW.take 8).takeWhile (· ≤ 127) = szExtW := by
      rw [List.take_of_length_le (by omega), List.takeWhile_eq_self_iff]
      exact fun ch hch => decide_eq_true (hall.1 ch hch)
    have hzero : ∀ ch ∈ szExtW.map UInt16.toUInt8, ch ≠ 0 := by
      intro ch hch hzero
      obtain ⟨u, hu, rfl⟩ := List.mem_map.mp hch
      have hcode := congrArg UInt8.toNat hzero
      have hle : u.toNat ≤ 127 := UInt16.le_iff_toNat_le.mp (hall.1 u hu)
      rw [UInt16.toNat_toUInt8, UInt8.toNat_zero, Nat.mod_eq_of_lt (by omega)] at hcode
      exact hext u hu (UInt16.toNat_inj.mp hcode)
    rw [hwhole, List.length_map, charAt_of_length_le (Nat.le_refl _),
      decide_eq_false (by omega), bne_self_eq_false, Bool.or_self, if_neg (by decide),
      ← codes_map_toUInt8 hall.1]
    exact getMimeTypeFromExtensionA_spec hzero
  · refine ⟨szDefaultMimeTypeA, ?_, .inr ⟨?_, rfl⟩⟩
    · rw [if_pos]
      rw [Bool.or_eq_true, decide_eq_true_iff, bne_iff_ne, List.length_map]
      by_contra hnot
      obtain ⟨hlt, hstop⟩ := not_or.mp hnot
      have hle := hprefix.length_le
      have hlen : szExtW.length ≤ ((szExtW.take 8).takeWhile (· ≤ 127)).length := by
        by_contra hshort
        rw [not_not, charAt_eq_getElem (by omega)] at hstop
        exact hext _ (List.getElem_mem _) hstop
      have hwhole := hprefix.eq_of_length (by omega)
      rw [hwhole] at hsmall hlt
      exact hall ⟨hsmall, by omega⟩
    · rintro ⟨e, he, hcodes⟩
      have hfacts := aMimeTypes_facts e he
      have heq := congrArg List.length hcodes
      rw [MimeType.codes, codesW, List.length_map, List.length_map] at heq
      refine hall ⟨fun u hu => ?_, by omega⟩
      have hmem : u.toNat ∈ e.codes := hcodes ▸ List.mem_map_of_mem hu
      obtain ⟨ch, hch, hcode⟩ := List.mem_map.mp hmem
      have hle := (hfacts.1 ch hch).2.1
      exact UInt16.le_iff_toNat_le.mpr (hcode ▸ hle)

/-! ### The extension of a name -/

/-- A character the loop stops behind. -/
def isStopCode (c : Nat) : Bool := c == 0x2E || isPathSeparator c

theorem isExtension_iff {name ext : List Nat} :
    IsExtension name ext ↔ ∃ front, name = front ++ 0x2E :: ext ∧
      ∀ c ∈ ext, isStopCode c = false := by
  constructor
  · rintro ⟨base, hlast, hdot⟩
    have hsplit : name = (name.reverse.dropWhile fun c => !isPathSeparator c).reverse ++
        lastComponent name := by
      rw [lastComponent, ← List.reverse_append, List.takeWhile_append_dropWhile,
        List.reverse_reverse]
    refine ⟨(name.reverse.dropWhile fun c => !isPathSeparator c).reverse ++ base, ?_,
      fun c hc => ?_⟩
    · rw [List.append_assoc, ← hlast]
      exact hsplit
    · have hmem : c ∈ lastComponent name := by
        rw [hlast]
        exact List.mem_append_right _ (List.mem_cons_of_mem _ hc)
      have hsep := List.mem_takeWhile_imp (List.mem_reverse.mp hmem)
      have hne : c ≠ 0x2E := fun h => hdot (h ▸ hc)
      rw [isStopCode, beq_false_of_ne hne, Bool.false_or]
      simpa using hsep
  · rintro ⟨front, rfl, hext⟩
    have hpass : ∀ c ∈ ext.reverse, (!isPathSeparator c) = true := by
      intro c hc
      have hstop := hext c (List.mem_reverse.mp hc)
      rw [isStopCode, Bool.or_eq_false_iff] at hstop
      rw [hstop.2]
      rfl
    refine ⟨(front.reverse.takeWhile fun c => !isPathSeparator c).reverse, ?_, fun hdot => ?_⟩
    · rw [lastComponent, List.reverse_append, List.reverse_cons, List.append_assoc,
        List.takeWhile_append_of_pos hpass, List.singleton_append,
        List.takeWhile_cons_of_pos (by decide), List.reverse_append, List.reverse_cons,
        List.reverse_reverse, List.append_assoc]
      rfl
    · exact absurd (hext _ hdot) (by decide)

/-- A name has one extension at most. -/
theorem isExtension_unique {name ext ext' : List Nat} (h : IsExtension name ext)
    (h' : IsExtension name ext') : ext = ext' := by
  obtain ⟨front, rfl, hext⟩ := isExtension_iff.mp h
  obtain ⟨front', heq, hext'⟩ := isExtension_iff.mp h'
  have hread : ∀ front ext : List Nat, (∀ c ∈ ext, isStopCode c = false) →
      ((front ++ 0x2E :: ext).reverse.takeWhile fun c => !isStopCode c) = ext.reverse := by
    intro front ext hext
    have hpass : ∀ c ∈ ext.reverse, (!isStopCode c) = true := fun c hc => by
      rw [hext c (List.mem_reverse.mp hc)]
      rfl
    rw [List.reverse_append, List.reverse_cons, List.append_assoc,
      List.takeWhile_append_of_pos hpass, List.singleton_append,
      List.takeWhile_cons_of_neg (by decide), List.append_nil]
  have hrev := hread front ext hext
  rw [heq, hread front' ext' hext'] at hrev
  exact List.reverse_injective hrev.symm

/-- The place where the loop stops. -/
theorem extensionStart_spec {α : Type} [OfNat α 0] (isStop : α → Bool) (s : List α) :
    ∀ n ≤ s.length, extensionStart isStop s n ≤ n ∧
      (∀ k, extensionStart isStop s n ≤ k → k < n → isStop (charAt s k) = false) ∧
      (0 < extensionStart isStop s n →
        isStop (charAt s (extensionStart isStop s n - 1)) = true) := by
  intro n
  induction n with
  | zero =>
    intro _
    exact ⟨Nat.le_refl _, fun k _ hk => absurd hk (Nat.not_lt_zero k),
      fun h => absurd h (Nat.lt_irrefl 0)⟩
  | succ n ih =>
    intro hn
    rw [extensionStart]
    by_cases hstop : isStop (charAt s n) = true
    · rw [if_pos hstop]
      exact ⟨Nat.le_refl _, fun k hlo hhi => by omega, fun _ => hstop⟩
    · obtain ⟨hle, hpass, hlast⟩ := ih (by omega)
      rw [if_neg hstop]
      refine ⟨by omega, fun k hlo hhi => ?_, hlast⟩
      rcases Nat.lt_or_ge k n with hk | hk
      · exact hpass k hlo hk
      · obtain rfl : k = n := by omega
        exact Bool.not_eq_true _ ▸ hstop

/-- What is found for a name: the type of its extension as it is written. -/
def IsTypeFor (name : List Nat) (szMimeTypeA : List Byte) : Prop :=
  (∃ ext, IsExtension name ext ∧ IsTypeOf ext szMimeTypeA) ∨
    ((∀ ext, ¬ IsExtension name ext) ∧ szMimeTypeA = szDefaultMimeTypeA)

section Name

variable {α : Type} [BEq α] [LawfulBEq α] [OfNat α 0] {chDot chBackslash chSlash : α}
  {code : α → Nat} {fromExtension : List α → Option (List Byte)}

/-- **The extension of a name is found**, if it has one. -/
theorem mimeTypeOf_spec (hdot : ∀ ch, (ch == chDot) = (code ch == 0x2E))
    (hbackslash : ∀ ch, (ch == chBackslash) = (code ch == 0x5C))
    (hslash : ∀ ch, (ch == chSlash) = (code ch == 0x2F))
    (hfrom : ∀ ext : List α, (∀ ch ∈ ext, ch ≠ 0) →
      ∃ szMimeTypeA, fromExtension ext = some szMimeTypeA ∧ IsTypeOf (ext.map code) szMimeTypeA)
    {szFileName : List α} (hne : szStr szFileName ≠ []) :
    ∃ szMimeTypeA, mimeTypeOf chDot chBackslash chSlash fromExtension szFileName =
      some (some szMimeTypeA) ∧ IsTypeFor ((szStr szFileName).map code) szMimeTypeA := by
  obtain ⟨-, -, hzero, -⟩ := exists_szStr_append szFileName
  have hempty : (szStr szFileName).isEmpty = false := by
    rw [List.isEmpty_eq_false_iff]
    exact hne
  rw [mimeTypeOf, hempty]
  generalize szStr szFileName = s at hne hzero
  have hstops : (fun ch => ch == chDot || ch == chBackslash || ch == chSlash) =
      fun ch => isStopCode (code ch) := by
    funext ch
    rw [hdot, hbackslash, hslash, isStopCode, isPathSeparator, Bool.or_assoc]
  rw [hstops]
  obtain ⟨hle, hpass, hlast⟩ := extensionStart_spec (fun ch => isStopCode (code ch)) s s.length
    (Nat.le_refl _)
  generalize extensionStart (fun ch => isStopCode (code ch)) s s.length = n at hle hpass hlast
  have hext : ∀ c ∈ (s.drop n).map code, isStopCode c = false := by
    intro c hc
    obtain ⟨ch, hch, rfl⟩ := List.mem_map.mp hc
    obtain ⟨k, hk, rfl⟩ := List.getElem_of_mem hch
    rw [List.length_drop] at hk
    have hstop := hpass (n + k) (Nat.le_add_right _ _) (by omega)
    rwa [charAt_eq_getElem (by omega), ← List.getElem_drop] at hstop
  rw [if_neg Bool.false_ne_true]
  dsimp only
  by_cases hfound : (decide (n > 0) && charAt s (n - 1) == chDot) = true
  · rw [if_pos hfound]
    rw [Bool.and_eq_true, decide_eq_true_iff, hdot, beq_iff_eq] at hfound
    obtain ⟨hpos, hcode⟩ := hfound
    rw [charAt_eq_getElem (by omega)] at hcode
    obtain ⟨szMimeTypeA, hfound, htype⟩ := hfrom (s.drop n) fun ch hch hz =>
      hzero (hz ▸ List.mem_of_mem_drop hch)
    have hsplit : s.map code = (s.take (n - 1)).map code ++ 0x2E :: (s.drop n).map code := by
      have hdrop := List.drop_eq_getElem_cons (show n - 1 < s.length by omega)
      rw [Nat.sub_add_cancel hpos] at hdrop
      rw [← hcode, ← List.map_cons, ← hdrop, ← List.map_append, List.take_append_drop]
    refine ⟨szMimeTypeA, by rw [hfound, Option.map_some], .inl ⟨_, ?_, htype⟩⟩
    exact isExtension_iff.mpr ⟨_, hsplit, hext⟩
  · rw [if_neg hfound]
    refine ⟨szDefaultMimeTypeA, rfl, .inr ⟨fun ext hisExt => hfound ?_, rfl⟩⟩
    obtain ⟨front, hname, hpassExt⟩ := isExtension_iff.mp hisExt
    have hlen := congrArg List.length hname
    rw [List.length_map, List.length_append, List.length_cons] at hlen
    have hat (k : Nat) (hk : k < s.length) :
        (front ++ 0x2E :: ext)[k]? = some (code (charAt s k)) := by
      rw [← hname, List.getElem?_map, List.getElem?_eq_getElem hk, charAt_eq_getElem hk,
        Option.map_some]
    have hcode : code (charAt s front.length) = 0x2E := by
      have hget := hat front.length (by omega)
      rw [List.getElem?_append_right (Nat.le_refl _), Nat.sub_self] at hget
      exact (Option.some.inj hget).symm
    -- the loop stops behind the dot, or earlier
    have hlt : front.length < n := by
      by_contra hnot
      have hstop := hpass front.length (by omega) (by omega)
      rw [hcode] at hstop
      exact absurd hstop (by decide)
    have hn : n - 1 = front.length := by
      by_contra hne'
      have hget := hat (n - 1) (by omega)
      have hstop := hlast (by omega)
      rw [List.getElem?_append_right (by omega),
        show n - 1 - front.length = (n - 2 - front.length) + 1 by omega,
        List.getElem?_cons_succ] at hget
      rw [hpassExt _ (List.mem_of_getElem? hget)] at hstop
      cases hstop
    rw [hn, hdot, hcode, decide_eq_true (by omega)]
    rfl

end Name

/-- A narrow name and what is found for it. -/
theorem getMimeTypeA_spec {szFileNameA : List Byte} (hne : szStr szFileNameA ≠ []) :
    ∃ szMimeTypeA, getMimeTypeA szFileNameA = some (some szMimeTypeA) ∧
      IsTypeFor (codes (szStr szFileNameA)) szMimeTypeA := by
  have hcode (ch chA : Byte) : (ch == chA) = (ch.toNat == chA.toNat) := by
    rw [Bool.eq_iff_iff, beq_iff_eq, beq_iff_eq, UInt8.toNat_inj]
  exact mimeTypeOf_spec (fun ch => hcode ch 0x2E) (fun ch => hcode ch 0x5C)
    (fun ch => hcode ch 0x2F) (fun _ hext => getMimeTypeFromExtensionA_spec hext) hne

/-- A wide name and what is found for it. -/
theorem getMimeTypeW_spec {szFileNameW : List WChar} (hne : szStr szFileNameW ≠ []) :
    ∃ szMimeTypeA, getMimeTypeW szFileNameW = some (some szMimeTypeA) ∧
      IsTypeFor (codesW (szStr szFileNameW)) szMimeTypeA := by
  have hcode (ch chW : WChar) : (ch == chW) = (ch.toNat == chW.toNat) := by
    rw [Bool.eq_iff_iff, beq_iff_eq, beq_iff_eq, UInt16.toNat_inj]
  exact mimeTypeOf_spec (fun ch => hcode ch 0x2E) (fun ch => hcode ch 0x5C)
    (fun ch => hcode ch 0x2F) (fun _ hext => getMimeTypeFromExtensionW_spec hext) hne

/-- A name has one type. -/
theorem isTypeFor_unique {name : List Nat} {szMimeTypeA szMimeTypeA' : List Byte}
    (h : IsTypeFor name szMimeTypeA) (h' : IsTypeFor name szMimeTypeA') :
    szMimeTypeA = szMimeTypeA' := by
  have hexact : ∀ ext, IsTypeOf ext szMimeTypeA → IsTypeOf ext szMimeTypeA' →
      szMimeTypeA = szMimeTypeA' := by
    rintro ext (⟨e, he, hcodes, rfl⟩ | ⟨hnone, rfl⟩) (⟨e', he', hcodes', rfl⟩ | ⟨hnone', rfl⟩)
    · rw [aMimeTypes_inj he he' (hcodes.trans hcodes'.symm)]
    · exact absurd ⟨e, he, hcodes⟩ hnone'
    · exact absurd ⟨e', he', hcodes'⟩ hnone
    · rfl
  rcases h with ⟨ext, hext, htype⟩ | ⟨hnone, rfl⟩
  · rcases h' with ⟨ext', hext', htype'⟩ | ⟨hnone', rfl⟩
    · rw [← isExtension_unique hext hext'] at htype'
      exact hexact ext htype htype'
    · exact absurd hext (hnone' ext)
  · rcases h' with ⟨ext', hext', -⟩ | ⟨-, rfl⟩
    · exact absurd hext' (hnone ext')
    · rfl

/-- The table has small letters. -/
theorem lowerCode_codes {e : MimeType} (he : e ∈ aMimeTypes) : e.codes.map lowerCode = e.codes := by
  refine List.map_congr_left (fun c hc => ?_) |>.trans (List.map_id' _)
  obtain ⟨ch, hch, rfl⟩ := List.mem_map.mp hc
  exact if_neg ((aMimeTypes_facts e he).1 ch hch).2.2

/-- **What is found is right, but for an extension with capitals.** -/
theorem isMimeTypeOf_iff {name : List Nat} {szMimeTypeA : List Byte}
    (h : IsTypeFor name szMimeTypeA) : IsMimeTypeOf name szMimeTypeA ↔ ¬ HasCapitals name := by
  constructor
  · rintro hright ⟨ext, hext, ⟨c, hc, hcapital⟩, e, he, hcodes⟩
    -- the table has no capitals, so the extension is not found in it
    have hdefault : szMimeTypeA = szDefaultMimeTypeA := by
      rcases h with ⟨ext', hext', ⟨e', he', hcodes', -⟩ | ⟨-, hdefault⟩⟩ | ⟨hnone, -⟩
      · rw [isExtension_unique hext' hext] at hcodes'
        rw [← hcodes', MimeType.codes] at hc
        obtain ⟨ch, hch, rfl⟩ := List.mem_map.mp hc
        exact absurd hcapital ((aMimeTypes_facts e' he').1 ch hch).2.2
      · exact hdefault
      · exact absurd hext (hnone ext)
    have hnames : Names name e := ⟨ext, hext, by rw [lowerCode_codes he, hcodes]⟩
    rcases hright with ⟨e', he', -, htype⟩ | ⟨hnone, -⟩
    · exact (aMimeTypes_facts e' he').2.2.2 (htype.symm.trans hdefault)
    · exact hnone ⟨e, he, hnames⟩
  · intro hsmall
    rcases h with ⟨ext, hext, ⟨e, he, hcodes, htype⟩ | ⟨hnone, hdefault⟩⟩ | ⟨hnone, hdefault⟩
    · exact .inl ⟨e, he, ⟨ext, hext, by rw [hcodes]⟩, htype⟩
    · refine .inr ⟨?_, hdefault⟩
      rintro ⟨e, he, ext', hext', halike⟩
      rw [isExtension_unique hext' hext, lowerCode_codes he] at halike
      by_cases hcapital : ∃ c ∈ ext, 0x41 ≤ c ∧ c ≤ 0x5A
      · exact hsmall ⟨ext, hext, hcapital, e, he, halike⟩
      · have hlower : ext.map lowerCode = ext :=
          (List.map_congr_left fun c hc => if_neg fun h => hcapital ⟨c, hc, h⟩).trans
            (List.map_id' _)
        exact hnone ⟨e, he, halike.trans hlower⟩
    · refine .inr ⟨?_, hdefault⟩
      rintro ⟨e, -, ext, hext, -⟩
      exact hnone ext hext

/-- A narrow name that was made wide. -/
theorem codesW_map_toUInt16 (szFileNameA : List Byte) :
    szStr (szFileNameA.map UInt8.toUInt16) = (szStr szFileNameA).map UInt8.toUInt16 ∧
      codesW (szStr (szFileNameA.map UInt8.toUInt16)) = codes (szStr szFileNameA) := by
  have hzero (ch : Byte) : (ch.toUInt16 != 0) = (ch != 0) := by
    rw [Bool.eq_iff_iff, bne_iff_ne, bne_iff_ne, ne_eq, ne_eq, ← UInt16.toNat_inj,
      ← UInt8.toNat_inj, UInt8.toNat_toUInt16]
    rfl
  have hstr : szStr (szFileNameA.map UInt8.toUInt16) =
      (szStr szFileNameA).map UInt8.toUInt16 := by
    rw [szStr, szStr, List.takeWhile_map]
    exact congrArg _ (congrArg (List.takeWhile · szFileNameA) (funext hzero))
  refine ⟨hstr, ?_⟩
  rw [hstr, codesW, codes, List.map_map]
  exact List.map_congr_left fun ch _ => UInt8.toNat_toUInt16 ch

/-- What is found for a name is looked for where it should be. -/
theorem mimeLookup_of_spec {name : List Nat} {r : Option (Option (List Byte))}
    {szMimeTypeA : List Byte} (hr : r = some (some szMimeTypeA)) (hne : name ≠ [])
    (htype : IsTypeFor name szMimeTypeA) : MimeLookup name r ↔ ¬ HasCapitals name := by
  rw [← isMimeTypeOf_iff htype]
  constructor
  · intro hlookup
    obtain ⟨szMimeTypeA', hr', hright⟩ := hlookup hne
    rw [hr] at hr'
    rwa [Option.some.inj (Option.some.inj hr')]
  · exact fun hright _ => ⟨szMimeTypeA, hr, hright⟩

/-- There is nothing to look for in an empty name. -/
theorem mimeLookup_nil (r : Option (Option (List Byte))) :
    MimeLookup [] r ↔ ¬ HasCapitals [] := by
  refine iff_of_true (fun hne => absurd rfl hne) ?_
  rintro ⟨ext, hext, -⟩
  obtain ⟨front, hname, -⟩ := isExtension_iff.mp hext
  exact absurd (congrArg List.length hname) (by simp)

/-- **When MIME types are found**: just where the extension has no capitals, or is none of the
table's, narrow or wide.  A narrow name and the same one wide have the same type, and the search
never leaves the table. -/
theorem mimeLookup_iff (szFileNameA : List Byte) (szFileNameW : List WChar) :
    (MimeLookup (codes (szStr szFileNameA)) (getMimeTypeA szFileNameA) ↔
      ¬ HasCapitals (codes (szStr szFileNameA))) ∧
    (MimeLookup (codesW (szStr szFileNameW)) (getMimeTypeW szFileNameW) ↔
      ¬ HasCapitals (codesW (szStr szFileNameW))) ∧
    getMimeTypeW (szFileNameA.map UInt8.toUInt16) = getMimeTypeA szFileNameA ∧
    getMimeTypeA szFileNameA ≠ none ∧ getMimeTypeW szFileNameW ≠ none := by
  obtain ⟨hstr, hcodes⟩ := codesW_map_toUInt16 szFileNameA
  have hwide : (MimeLookup (codesW (szStr szFileNameW)) (getMimeTypeW szFileNameW) ↔
      ¬ HasCapitals (codesW (szStr szFileNameW))) ∧ getMimeTypeW szFileNameW ≠ none := by
    by_cases hnil : szStr szFileNameW = []
    · rw [hnil, getMimeTypeW, mimeTypeOf, hnil]
      exact ⟨mimeLookup_nil _, by simp⟩
    · obtain ⟨szMimeTypeA, hr, htype⟩ := getMimeTypeW_spec hnil
      exact ⟨mimeLookup_of_spec hr (fun h => hnil (List.map_eq_nil_iff.mp h)) htype, by simp [hr]⟩
  by_cases hnil : szStr szFileNameA = []
  · have hnilW : szStr (szFileNameA.map UInt8.toUInt16) = [] := by rw [hstr, hnil, List.map_nil]
    refine ⟨?_, hwide.1, ?_, ?_, hwide.2⟩
    · rw [hnil]
      exact mimeLookup_nil _
    · rw [getMimeTypeW, getMimeTypeA, mimeTypeOf, mimeTypeOf, hnil, hnilW]
      rfl
    · rw [getMimeTypeA, mimeTypeOf, hnil]
      simp
  · obtain ⟨szMimeTypeA, hr, htype⟩ := getMimeTypeA_spec hnil
    have hnilW : szStr (szFileNameA.map UInt8.toUInt16) ≠ [] := by
      rw [hstr]
      exact fun h => hnil (List.map_eq_nil_iff.mp h)
    obtain ⟨szMimeTypeA', hrW, htypeW⟩ := getMimeTypeW_spec hnilW
    rw [hcodes] at htypeW
    refine ⟨mimeLookup_of_spec hr (fun h => hnil (List.map_eq_nil_iff.mp h)) htype, hwide.1, ?_,
      by simp [hr], hwide.2⟩
    rw [hrW, hr, isTypeFor_unique htypeW htype]

/-- A page whose extension is in capitals has the default type. -/
theorem not_mimeLookup_html : getMimeTypeA (ascii "index.HTML") = some (some szDefaultMimeTypeA) ∧
    ¬ MimeLookup (codes (szStr (ascii "index.HTML"))) (getMimeTypeA (ascii "index.HTML")) := by
  have hfound : getMimeTypeA (ascii "index.HTML") = some (some szDefaultMimeTypeA) := by
    decide
  refine ⟨hfound, fun hlookup => ?_⟩
  obtain ⟨szMimeTypeA, hr, hright⟩ := hlookup (by decide)
  rw [hfound] at hr
  obtain rfl := Option.some.inj (Option.some.inj hr)
  have hmem : ⟨ascii "html", ascii "text/html"⟩ ∈ aMimeTypes := by decide
  rcases hright with ⟨e, he, -, htype⟩ | ⟨hnone, -⟩
  · exact (aMimeTypes_facts e he).2.2.2 htype.symm
  · refine hnone ⟨_, hmem, codes (ascii "HTML"), ⟨codes (ascii "index"), ?_, ?_⟩, ?_⟩
    · decide
    · decide
    · decide

end MxLib.Http.Mime
