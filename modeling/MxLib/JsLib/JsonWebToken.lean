import MxLib.DateTime.Sub
import MxLib.Library.Decimal
import MxLib.Strings.Strings

/-!
# The times of a token

`getOptionalTimestamp` is `GetOptionalTimestamp` of the plugin for web tokens, with a date as its
ticks.  A text counts from the base, which is now if there is none: an optional sign, digits,
spaces and a unit.

The units are compared in either case of letters, so what is read depends on the small letters
only (`readUnits_lower`), and every spelling is one of a few texts (`readUnits_of_isSpelling`).
-/

namespace MxLib.JsLib.JsonWebToken

open MxLib.Library MxLib.DateTime

/-- What the option is to the script engine.  What `GetDate` makes of a `Date` stands for it. -/
inductive JsOption
  | undefined
  | null
  | date (cDt : Except HResult Nat)
  | string (sA : List Byte)
  | number (nOffset : Int)
  | other

/-! ### The text -/

/-- The digits from here on, with the 32 bits of `nOffset`, and the rest. -/
def readOffset : Nat → List Byte → Except HResult (Nat × List Byte)
  | nOffset, [] => .ok (nOffset, [])
  | nOffset, ch :: sA =>
    if Decimal.isDigit ch.toNat then
      let nOffset := (nOffset * 10 + (ch.toNat - 0x30)) % 2 ^ 32
      if nOffset > 0x7FFFFFFF then .error .mxArithmeticOverflow else readOffset nOffset sA
    else .ok (nOffset, ch :: sA)

/-- Weeks are days. -/
def inWeeks (nOffset : Nat) : Except HResult (Nat × EUnits) :=
  let nDays := nOffset * 7 % 2 ^ 32
  if nDays < nOffset then .error .mxArithmeticOverflow
  else if nDays > 0x7FFFFFFF then .error .mxArithmeticOverflow
  else .ok (nDays, .day)

/-- The letter, in either case; `chA` is the small one. -/
def isLetter (ch chA : Byte) : Bool := ch == chA || ch == chA - 0x20

/-- A unit of one letter. -/
def letterUnits (nOffset : Nat) (ch : Byte) : Except HResult (Nat × EUnits) :=
  if isLetter ch 0x79 then .ok (nOffset, .year)
  else if isLetter ch 0x77 then inWeeks nOffset
  else if isLetter ch 0x64 then .ok (nOffset, .day)
  else if isLetter ch 0x68 then .ok (nOffset, .hours)
  else if isLetter ch 0x6D then .ok (nOffset, .minutes)
  else if isLetter ch 0x73 then .ok (nOffset, .seconds)
  else .error .eInvalidArg

/-- The text is the word, which may have an `s` behind it. -/
def isWord (sA word : List Byte) : Bool :=
  strNCompareA sA word word.length true &&
    (charAt sA word.length == 0 ||
      (isLetter (charAt sA word.length) 0x73 && charAt sA (word.length + 1) == 0))

/-- A unit of more letters. -/
def wordUnits (nOffset : Nat) (sA : List Byte) : Except HResult (Nat × EUnits) :=
  if isWord sA (ascii "yr") then .ok (nOffset, .year)
  else if isWord sA (ascii "year") then .ok (nOffset, .year)
  else if isWord sA (ascii "week") then inWeeks nOffset
  else if isWord sA (ascii "day") then .ok (nOffset, .day)
  else if isWord sA (ascii "hr") then .ok (nOffset, .hours)
  else if isWord sA (ascii "hour") then .ok (nOffset, .hours)
  else if isWord sA (ascii "min") then .ok (nOffset, .minutes)
  else if isWord sA (ascii "minute") then .ok (nOffset, .minutes)
  else if isWord sA (ascii "sec") then .ok (nOffset, .seconds)
  else if isWord sA (ascii "second") then .ok (nOffset, .seconds)
  else if isWord sA (ascii "msec") then .ok (nOffset, .milliseconds)
  else if isWord sA (ascii "millisecond") then .ok (nOffset, .milliseconds)
  else if strCompareA sA (ascii "ms") true then .ok (nOffset, .milliseconds)
  else .error .eInvalidArg

/-- The unit, which is the millisecond where nothing is left. -/
def readUnits (nOffset : Nat) (sA : List Byte) : Except HResult (Nat × EUnits) :=
  if charAt sA 0 == 0 then .ok (nOffset, .milliseconds)
  else if charAt sA 1 == 0 then letterUnits nOffset (charAt sA 0)
  else wordUnits nOffset sA

/-- The number without its sign, and the unit. -/
def readCount (sA : List Byte) : Except HResult (Nat × EUnits) :=
  if !Decimal.isDigit (charAt sA 0).toNat then .error .eInvalidArg
  else do
    let (nOffset, sA) ← readOffset 0 sA
    readUnits nOffset (sA.dropWhile (· == 0x20))

/-! ### The date -/

/-- The date to count from. -/
def baseDate (lpBaseDt : Option Nat) (setFromNow : Except HResult Nat) : Except HResult Nat :=
  match lpBaseDt with
  | some cDt => .ok cDt
  | none => setFromNow

/-- A code that failed is thrown. -/
def thrown (r : HResult × Nat) : Except HResult Nat := if r.1.failed then .error r.1 else .ok r.2

/-- `GetOptionalTimestamp` -/
def getOptionalTimestamp (v : JsOption) (lpBaseDt : Option Nat) (setFromNow : Except HResult Nat) :
    Except HResult Nat :=
  match v with
  | .undefined | .null => .ok 0
  | .date cDt => cDt
  | .string sA => do
    let bNegative := charAt sA 0 == 0x2D
    let (nOffset, nUnits) ← readCount (if bNegative then sA.drop 1 else sA)
    let cDt ← baseDate lpBaseDt setFromNow
    thrown (if bNegative then sub cDt (-nOffset) nUnits else add cDt nOffset nUnits)
  | .number nOffset => do
    let cDt ← baseDate lpBaseDt setFromNow
    thrown (add cDt nOffset .seconds)
  | .other => .error .mxUnsupported

/-! ### Numbers -/

section Numbers

variable {digits rest : List Byte}

/-- The number that the digits are. -/
def numberOf (digits : List Byte) : Nat := Decimal.value 0 (digits.map UInt8.toNat)

/-- A number of 31 bits is read to the end of its digits. -/
theorem readOffset_append (hdigits : ∀ ch ∈ digits, Decimal.isDigit ch.toNat = true)
    (hrest : Decimal.isDigit (charAt rest 0).toNat = false) {nOffset : Nat}
    (hlt : Decimal.value nOffset (digits.map UInt8.toNat) < 2 ^ 31) :
    readOffset nOffset (digits ++ rest) =
      .ok (Decimal.value nOffset (digits.map UInt8.toNat), rest) := by
  induction digits generalizing nOffset with
  | nil =>
    cases rest with
    | nil => rfl
    | cons ch rest => exact if_neg (by rw [show Decimal.isDigit ch.toNat = false from hrest]; simp)
  | cons ch digits ih =>
    rw [List.map_cons, Decimal.value_cons] at hlt ⊢
    have hle := Decimal.le_value (digits.map UInt8.toNat) (10 * nOffset + (ch.toNat - 0x30))
    have hnew : (nOffset * 10 + (ch.toNat - 0x30)) % 2 ^ 32 =
        10 * nOffset + (ch.toNat - 0x30) := by
      omega
    rw [List.cons_append, readOffset, if_pos (hdigits ch List.mem_cons_self)]
    dsimp only
    rw [hnew, if_neg (by omega)]
    exact ih (fun ch hch => hdigits ch (List.mem_cons_of_mem _ hch)) hlt

/-- The number and its unit, with spaces between them. -/
theorem readCount_eq (hne : digits ≠ [])
    (hdigits : ∀ ch ∈ digits, Decimal.isDigit ch.toNat = true) (hlt : numberOf digits < 2 ^ 31)
    (nBlanks : Nat) {unit : List Byte} (hdigit : Decimal.isDigit (charAt unit 0).toNat = false)
    (hspace : charAt unit 0 ≠ 0x20) :
    readCount (digits ++ (List.replicate nBlanks 0x20 ++ unit)) =
      readUnits (numberOf digits) unit := by
  obtain ⟨ch, tail, rfl⟩ := List.exists_cons_of_ne_nil hne
  have hfirst : Decimal.isDigit ch.toNat = true := hdigits ch List.mem_cons_self
  have hrest : Decimal.isDigit (charAt (List.replicate nBlanks 0x20 ++ unit) 0).toNat = false := by
    cases nBlanks with
    | zero => exact hdigit
    | succ nBlanks => rfl
  have hskip : (List.replicate nBlanks 0x20 ++ unit).dropWhile (· == 0x20) = unit := by
    rw [List.dropWhile_append_of_pos fun ch hch => beq_iff_eq.mpr (List.eq_of_mem_replicate hch)]
    cases unit with
    | nil => rfl
    | cons ch unit => exact List.dropWhile_cons_of_neg (by simpa using hspace)
  have hcond : (!Decimal.isDigit (charAt (ch :: tail ++ (List.replicate nBlanks 0x20 ++ unit))
      0).toNat) = false := by
    rw [List.cons_append, charAt_cons_zero, hfirst]
    rfl
  rw [readCount, hcond, readOffset_append hdigits hrest hlt]
  change readUnits _ ((List.replicate nBlanks 0x20 ++ unit).dropWhile (· == 0x20)) = _
  rw [hskip]
  rfl

end Numbers

/-! ### Units -/

/-- What a unit stands for. -/
inductive TimeUnit
  | years | weeks | days | hours | minutes | seconds | milliseconds
deriving DecidableEq

/-- The ways to write the unit, in small letters.  Nothing is a millisecond too. -/
def TimeUnit.spellings : TimeUnit → List (List Byte)
  | .years => ["y", "yr", "yrs", "year", "years"].map ascii
  | .weeks => ["w", "week", "weeks"].map ascii
  | .days => ["d", "day", "days"].map ascii
  | .hours => ["h", "hr", "hrs", "hour", "hours"].map ascii
  | .minutes => ["m", "min", "mins", "minute", "minutes"].map ascii
  | .seconds => ["s", "sec", "secs", "second", "seconds"].map ascii
  | .milliseconds => ["", "ms", "msec", "msecs", "millisecond", "milliseconds"].map ascii

/-- The text is one of the spellings, with letters of either case. -/
def TimeUnit.IsSpelling (u : TimeUnit) (text : List Byte) : Prop :=
  text.map lowerA ∈ u.spellings

instance (u : TimeUnit) (text : List Byte) : Decidable (u.IsSpelling text) :=
  inferInstanceAs (Decidable (_ ∈ _))

/-- The count that is added, and its unit. -/
def TimeUnit.count (u : TimeUnit) (nOffset : Nat) : Except HResult (Nat × EUnits) :=
  match u with
  | .years => .ok (nOffset, .year)
  | .weeks => inWeeks nOffset
  | .days => .ok (nOffset, .day)
  | .hours => .ok (nOffset, .hours)
  | .minutes => .ok (nOffset, .minutes)
  | .seconds => .ok (nOffset, .seconds)
  | .milliseconds => .ok (nOffset, .milliseconds)

theorem lowerA_lowerA (ch : Byte) : lowerA (lowerA ch) = lowerA ch :=
  forall_byte (P := fun ch => lowerA (lowerA ch) = lowerA ch) (by decide) ch

theorem lowerA_eq_zero_iff (ch : Byte) : lowerA ch = 0 ↔ ch = 0 :=
  forall_byte (P := fun ch => lowerA ch = 0 ↔ ch = 0) (by decide) ch

theorem szStr_lower (sA : List Byte) : szStr (sA.map lowerA) = (szStr sA).map lowerA := by
  have hcomp : (fun ch => ch != 0) ∘ lowerA = fun ch => ch != 0 := by
    funext ch
    rw [Function.comp_apply, Bool.eq_iff_iff, bne_iff_ne, bne_iff_ne, Ne, lowerA_eq_zero_iff]
  rw [szStr, szStr, List.takeWhile_map, hcomp]

theorem map_lowerA_map (sA : List Byte) : (sA.map lowerA).map lowerA = sA.map lowerA := by
  rw [List.map_map]
  exact List.map_congr_left fun ch _ => lowerA_lowerA ch

theorem charAt_lower (sA : List Byte) (k : Nat) :
    charAt (sA.map lowerA) k = lowerA (charAt sA k) := charAt_map lowerA (by decide) sA k

theorem charAt_lower_beq_zero (sA : List Byte) (k : Nat) :
    (charAt (sA.map lowerA) k == 0) = (charAt sA k == 0) := by
  rw [charAt_lower, Bool.eq_iff_iff, beq_iff_eq, beq_iff_eq, lowerA_eq_zero_iff]

theorem isLetter_iff {ch chA : Byte} (h : 0x61 ≤ chA) (h' : chA ≤ 0x7A) :
    isLetter ch chA = true ↔ lowerA ch = chA := by
  rw [isLetter, Bool.or_eq_true, beq_iff_eq, beq_iff_eq, lowerA_eq_iff h h']

theorem isLetter_lower (ch : Byte) {chA : Byte} (h : 0x61 ≤ chA) (h' : chA ≤ 0x7A) :
    isLetter (lowerA ch) chA = isLetter ch chA := by
  rw [Bool.eq_iff_iff, isLetter_iff h h', isLetter_iff h h', lowerA_lowerA]

theorem letterUnits_lower (nOffset : Nat) (ch : Byte) :
    letterUnits nOffset (lowerA ch) = letterUnits nOffset ch := by
  simp (disch := decide) only [letterUnits, isLetter_lower]

theorem isWord_lower (sA word : List Byte) : isWord (sA.map lowerA) word = isWord sA word := by
  have hcompare : strNCompareA (sA.map lowerA) word word.length true =
      strNCompareA sA word word.length true := by
    rw [strNCompareA, strNCompareA, szStr_lower]
    dsimp only
    rw [if_pos rfl, if_pos rfl, if_pos rfl, ← List.map_take, map_lowerA_map]
  rw [isWord, isWord, hcompare, charAt_lower_beq_zero, charAt_lower_beq_zero, charAt_lower,
    isLetter_lower _ (by decide) (by decide)]

/-- **The case of the letters does not matter.** -/
theorem readUnits_lower (nOffset : Nat) (sA : List Byte) :
    readUnits nOffset (sA.map lowerA) = readUnits nOffset sA := by
  have hcompare : strCompareA (sA.map lowerA) (ascii "ms") true =
      strCompareA sA (ascii "ms") true := by
    rw [strCompareA, strCompareA, szStr_lower]
    dsimp only
    rw [if_pos rfl, if_pos rfl, if_pos rfl, map_lowerA_map]
  have hword : wordUnits nOffset (sA.map lowerA) = wordUnits nOffset sA := by
    simp only [wordUnits, isWord_lower, hcompare]
  rw [readUnits, readUnits, charAt_lower_beq_zero, charAt_lower_beq_zero, charAt_lower,
    letterUnits_lower, hword]

/-- **Every spelling is read as its unit.** -/
theorem readUnits_of_isSpelling {u : TimeUnit} {text : List Byte} (h : u.IsSpelling text)
    (nOffset : Nat) : readUnits nOffset text = u.count nOffset := by
  have hall : ∀ sA ∈ u.spellings, readUnits nOffset sA = u.count nOffset := by
    cases u <;>
      simp only [TimeUnit.spellings, List.map_cons, List.map_nil, List.forall_mem_cons]
    · exact ⟨rfl, rfl, rfl, rfl, rfl, List.forall_mem_nil _⟩
    · exact ⟨rfl, rfl, rfl, List.forall_mem_nil _⟩
    · exact ⟨rfl, rfl, rfl, List.forall_mem_nil _⟩
    · exact ⟨rfl, rfl, rfl, rfl, rfl, List.forall_mem_nil _⟩
    · exact ⟨rfl, rfl, rfl, rfl, rfl, List.forall_mem_nil _⟩
    · exact ⟨rfl, rfl, rfl, rfl, rfl, List.forall_mem_nil _⟩
    · exact ⟨rfl, rfl, rfl, rfl, rfl, rfl, List.forall_mem_nil _⟩
  rw [← readUnits_lower]
  exact hall _ h

/-- The text is the word, or the word with an `s`. -/
theorem isWord_iff {sA word : List Byte} (hzero : ∀ ch ∈ sA, ch ≠ 0)
    (hword : (szStr word).map lowerA = word) :
    isWord sA word = true ↔ sA.map lowerA = word ∨ sA.map lowerA = word ++ [0x73] := by
  have hlen : (szStr word).length = word.length := by rw [← List.length_map lowerA, hword]
  have hcompare : strNCompareA sA word word.length true = true ↔
      (sA.map lowerA).take word.length = word := by
    rw [strNCompareA, szStr_of_ne_zero hzero]
    dsimp only
    rw [if_pos rfl, if_pos rfl, beq_iff_eq, List.take_of_length_le (Nat.le_of_eq hlen), hword,
      List.map_take]
  have hnz : ∀ ch ∈ sA.map lowerA, ch ≠ 0 := fun ch hch => by
    obtain ⟨ch', hch', rfl⟩ := List.mem_map.mp hch
    exact (lowerA_eq_zero_iff ch').not.mpr (hzero ch' hch')
  have hend : ∀ rest, sA.map lowerA = word ++ rest →
      (charAt sA word.length = 0 ↔ charAt rest 0 = 0) ∧
        (isLetter (charAt sA word.length) 0x73 = true ↔ charAt rest 0 = 0x73) ∧
        (charAt sA (word.length + 1) = 0 ↔ charAt rest 1 = 0) := by
    intro rest hrest
    have hfirst := charAt_lower sA word.length
    have hsecond := charAt_lower sA (word.length + 1)
    rw [hrest, charAt_append_length] at hfirst
    rw [hrest, charAt_append_add] at hsecond
    rw [hfirst, hsecond, lowerA_eq_zero_iff, lowerA_eq_zero_iff,
      isLetter_iff (by decide) (by decide)]
    exact ⟨Iff.rfl, Iff.rfl, Iff.rfl⟩
  rw [isWord, Bool.and_eq_true, hcompare, Bool.or_eq_true, Bool.and_eq_true, beq_iff_eq,
    beq_iff_eq]
  constructor
  · rintro ⟨htake, hlast⟩
    have hsplit : sA.map lowerA = word ++ (sA.map lowerA).drop word.length := by
      conv_lhs => rw [← List.take_append_drop word.length (sA.map lowerA), htake]
    obtain ⟨h0, hs, h1⟩ := hend _ hsplit
    rw [h0, hs, h1] at hlast
    generalize (sA.map lowerA).drop word.length = rest at hsplit hlast
    rw [hsplit] at hnz ⊢
    cases rest with
    | nil => exact .inl (List.append_nil word)
    | cons ch rest =>
      have hch : ch ≠ 0 := hnz ch (List.mem_append_right _ List.mem_cons_self)
      obtain ⟨hs, hnext⟩ := hlast.resolve_left hch
      obtain rfl : ch = 0x73 := hs
      cases rest with
      | nil => exact .inr rfl
      | cons ch' rest =>
        exact absurd hnext
          (hnz ch' (List.mem_append_right _ (List.mem_cons_of_mem _ List.mem_cons_self)))
  · rintro (heq | heq)
    · obtain ⟨h0, -⟩ := hend [] (by rw [heq, List.append_nil])
      exact ⟨by rw [heq, List.take_length], .inl (h0.mpr rfl)⟩
    · obtain ⟨-, hs, h1⟩ := hend [0x73] heq
      exact ⟨by rw [heq, List.take_left], .inr ⟨hs.mpr rfl, h1.mpr rfl⟩⟩

theorem letterUnits_of_not_isSpelling {ch : Byte} (hno : ∀ u : TimeUnit, ¬ u.IsSpelling [ch])
    (nOffset : Nat) : letterUnits nOffset ch = .error .eInvalidArg := by
  have hletter : ∀ (u : TimeUnit) (chA : Byte), 0x61 ≤ chA → chA ≤ 0x7A →
      [chA] ∈ u.spellings → isLetter ch chA = false := by
    intro u chA h h' hmem
    refine Bool.eq_false_iff.mpr fun hch => hno u ?_
    rw [TimeUnit.IsSpelling, List.map_cons, (isLetter_iff h h').mp hch]
    exact hmem
  simp only [letterUnits, hletter .years 0x79 (by decide) (by decide) (by decide),
    hletter .weeks 0x77 (by decide) (by decide) (by decide),
    hletter .days 0x64 (by decide) (by decide) (by decide),
    hletter .hours 0x68 (by decide) (by decide) (by decide),
    hletter .minutes 0x6D (by decide) (by decide) (by decide),
    hletter .seconds 0x73 (by decide) (by decide) (by decide), Bool.false_eq_true, if_false]

theorem wordUnits_of_not_isSpelling {sA : List Byte} (hzero : ∀ ch ∈ sA, ch ≠ 0)
    (hno : ∀ u : TimeUnit, ¬ u.IsSpelling sA) (nOffset : Nat) :
    wordUnits nOffset sA = .error .eInvalidArg := by
  have hword : ∀ (u : TimeUnit) (word : List Byte), (szStr word).map lowerA = word →
      word ∈ u.spellings → word ++ [0x73] ∈ u.spellings → isWord sA word = false := by
    intro u word hlower hmem hmem'
    refine Bool.eq_false_iff.mpr fun h => hno u ?_
    rw [TimeUnit.IsSpelling]
    rcases (isWord_iff hzero hlower).mp h with heq | heq <;> rw [heq]
    · exact hmem
    · exact hmem'
  have hms : strCompareA sA (ascii "ms") true = false := by
    refine Bool.eq_false_iff.mpr fun h => hno .milliseconds ?_
    rw [strCompareA, szStr_of_ne_zero hzero] at h
    have heq : sA.map lowerA = ascii "ms" := beq_iff_eq.mp h
    rw [TimeUnit.IsSpelling, heq]
    decide
  simp only [wordUnits, hms, hword .years (ascii "yr") (by decide) (by decide) (by decide),
    hword .years (ascii "year") (by decide) (by decide) (by decide),
    hword .weeks (ascii "week") (by decide) (by decide) (by decide),
    hword .days (ascii "day") (by decide) (by decide) (by decide),
    hword .hours (ascii "hr") (by decide) (by decide) (by decide),
    hword .hours (ascii "hour") (by decide) (by decide) (by decide),
    hword .minutes (ascii "min") (by decide) (by decide) (by decide),
    hword .minutes (ascii "minute") (by decide) (by decide) (by decide),
    hword .seconds (ascii "sec") (by decide) (by decide) (by decide),
    hword .seconds (ascii "second") (by decide) (by decide) (by decide),
    hword .milliseconds (ascii "msec") (by decide) (by decide) (by decide),
    hword .milliseconds (ascii "millisecond") (by decide) (by decide) (by decide),
    Bool.false_eq_true, if_false]

theorem count_ne_invalidArg (u : TimeUnit) (nOffset : Nat) :
    u.count nOffset ≠ .error .eInvalidArg := by
  cases u with
  | weeks =>
    rw [TimeUnit.count, inWeeks]
    split
    · nofun
    · split <;> nofun
  | _ => nofun

/-- **Nothing else is a unit.** -/
theorem readUnits_eq_invalidArg_iff {sA : List Byte} (hzero : ∀ ch ∈ sA, ch ≠ 0) (nOffset : Nat) :
    readUnits nOffset sA = .error .eInvalidArg ↔ ∀ u : TimeUnit, ¬ u.IsSpelling sA := by
  constructor
  · intro hinvalid u hu
    rw [readUnits_of_isSpelling hu] at hinvalid
    exact count_ne_invalidArg u nOffset hinvalid
  · intro hno
    match sA, hzero, hno with
    | [], _, hno => exact absurd (by decide) (hno .milliseconds)
    | [ch], hzero, hno =>
      rw [readUnits, charAt_cons_zero, if_neg (by simpa using hzero ch List.mem_cons_self)]
      exact letterUnits_of_not_isSpelling hno nOffset
    | ch :: ch' :: sA, hzero, hno =>
      have hnext : ch' ≠ 0 := hzero ch' (List.mem_cons_of_mem _ List.mem_cons_self)
      rw [readUnits, charAt_cons_zero, if_neg (by simpa using hzero ch List.mem_cons_self),
        if_neg (by simpa using hnext)]
      exact wordUnits_of_not_isSpelling hzero hno nOffset

/-- A unit begins with a letter. -/
theorem first_of_isSpelling {u : TimeUnit} {text : List Byte} (h : u.IsSpelling text) :
    Decimal.isDigit (charAt text 0).toNat = false ∧ charAt text 0 ≠ 0x20 := by
  have hletter : ∀ sA ∈ u.spellings, charAt sA 0 = 0 ∨ 0x61 ≤ charAt sA 0 := by
    cases u <;> decide
  have hch : ∀ ch : Byte, lowerA ch = 0 ∨ 0x61 ≤ lowerA ch →
      Decimal.isDigit ch.toNat = false ∧ ch ≠ 0x20 := fun ch =>
    forall_byte (P := fun ch => lowerA ch = 0 ∨ 0x61 ≤ lowerA ch →
      Decimal.isDigit ch.toNat = false ∧ ch ≠ 0x20) (by decide) ch
  refine hch _ ?_
  rw [← charAt_lower]
  exact hletter _ h

end MxLib.JsLib.JsonWebToken
