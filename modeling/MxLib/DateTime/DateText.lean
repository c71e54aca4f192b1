import Mathlib.Data.Bool.AllAny
import MxLib.DateTime.SetFromString

/-!
# What the items read

A number with the digits its item may have, and a name of one of the tables, are taken from
the front of a text whatever comes behind them.  For the names this is settled by the text up
to the character behind the name: no other name of either table agrees with it that far.
-/

namespace MxLib.DateTime

/-! ### Numbers -/

/-- The last `k` decimal digits of a number. -/
def fixedDigits : Nat → Nat → List WChar
  | 0, _ => []
  | k + 1, n => fixedDigits k (n / 10) ++ [.ofNat (0x30 + n % 10)]

theorem length_fixedDigits (k n : Nat) : (fixedDigits k n).length = k := by
  induction k generalizing n with
  | zero => rfl
  | succ k ih => rw [fixedDigits, List.length_append, ih, List.length_singleton]

theorem toNat_digit (n : Nat) : (UInt16.ofNat (0x30 + n % 10)).toNat = 0x30 + n % 10 :=
  UInt16.toNat_ofNat_of_lt' (by have : UInt16.size = 65536 := rfl; omega)

theorem isDigitW_iff (ch : WChar) : isDigitW ch = true ↔ 0x30 ≤ ch.toNat ∧ ch.toNat ≤ 0x39 := by
  simp [isDigitW, UInt16.le_iff_toNat_le]

theorem isDigitW_digit (n : Nat) : isDigitW (.ofNat (0x30 + n % 10)) = true := by
  rw [isDigitW_iff, toNat_digit]
  omega

theorem fixedDigits_digits (k n : Nat) : ∀ ch ∈ fixedDigits k n, isDigitW ch = true := by
  induction k generalizing n with
  | zero => exact nofun
  | succ k ih =>
    intro ch hch
    rw [fixedDigits, List.mem_append, List.mem_singleton] at hch
    rcases hch with hch | rfl
    · exact ih _ ch hch
    · exact isDigitW_digit n

theorem isDigitW_charAt_fixedDigits {k : Nat} (hk : 0 < k) (n : Nat) (rest : List WChar) :
    isDigitW (charAt (fixedDigits k n ++ rest) 0) = true := by
  have hlen := length_fixedDigits k n
  cases htext : fixedDigits k n with
  | nil =>
    rw [htext] at hlen
    exact absurd hlen (Nat.ne_of_lt hk)
  | cons ch text => exact fixedDigits_digits k n ch (by rw [htext]; exact List.mem_cons_self)

theorem isBlankW_charAt_fixedDigits {k : Nat} (hk : 0 < k) (n : Nat) (rest : List WChar) :
    isBlankW (charAt (fixedDigits k n ++ rest) 0) = false := by
  have hdigit := (isDigitW_iff _).mp (isDigitW_charAt_fixedDigits hk n rest)
  rw [isBlankW, Bool.or_eq_false_iff, beq_eq_false_iff_ne, beq_eq_false_iff_ne]
  constructor
  · intro h
    rw [h] at hdigit
    exact absurd hdigit.1 (by decide)
  · intro h
    rw [h] at hdigit
    exact absurd hdigit.1 (by decide)

/-- The last digit of a number that is printed with two digits at least. -/
theorem formatAddNumber_succ (n k : Nat) :
    formatAddNumber n (k + 2) = formatAddNumber (n / 10) (k + 1) ++ [.ofNat (0x30 + n % 10)] := by
  have hchar : ∀ d < 10, UInt16.ofNat (Nat.digitChar d).toNat = .ofNat (0x30 + d) := by decide
  by_cases h : n < 10
  · rw [Nat.div_eq_of_lt h, Nat.mod_eq_of_lt h, formatAddNumber, formatAddNumber,
      Nat.toDigits_of_lt_base h, Nat.toDigits_of_lt_base (by decide), ← hchar n h]
    have hzero : UInt16.ofNat (Nat.digitChar 0).toNat = 0x30 := hchar 0 (by decide)
    simp [List.replicate_succ', hzero]
  · rw [formatAddNumber, formatAddNumber, Nat.toDigits_of_base_le (by decide) (Nat.not_lt.mp h),
      ← hchar (n % 10) (Nat.mod_lt n (by decide))]
    simp

/-- **A number that its digits are enough for is printed with as many.** -/
theorem formatAddNumber_eq {n k : Nat} (h : n < 10 ^ (k + 1)) :
    formatAddNumber n (k + 1) = fixedDigits (k + 1) n := by
  have hchar : ∀ d < 10, UInt16.ofNat (Nat.digitChar d).toNat = .ofNat (0x30 + d % 10) := by decide
  induction k generalizing n with
  | zero =>
    rw [Nat.zero_add, Nat.pow_one] at h
    rw [formatAddNumber, Nat.toDigits_of_lt_base h, List.map_singleton, hchar n h]
    rfl
  | succ k ih =>
    rw [Nat.pow_succ] at h
    rw [formatAddNumber_succ, ih (Nat.div_lt_of_lt_mul (by omega))]
    rfl

/-- More digits than asked for are printed where there are more. -/
theorem formatAddNumber_of_le {n k : Nat} (hk : 0 < k) (h : 10 ^ k ≤ n) :
    formatAddNumber n k = formatAddNumber n (k + 1) := by
  have hlen : k < (Nat.toDigits 10 n).length := by
    rw [← Nat.not_le, Nat.length_toDigits_le_iff (by decide) hk]
    exact Nat.not_lt.mpr h
  rw [formatAddNumber, formatAddNumber, List.length_map, Nat.sub_eq_zero_of_le hlen.le,
    Nat.sub_eq_zero_of_le hlen]

/-- Digits are read one after the other. -/
theorem readDigits_fixedDigits (k j nTemp n : Nat) (rest : List WChar) :
    readDigits (k + j) nTemp (fixedDigits k n ++ rest) =
      readDigits j (nTemp * 10 ^ k + n % 10 ^ k) rest := by
  induction k generalizing j n rest with
  | zero => simp [fixedDigits, Nat.mod_one]
  | succ k ih =>
    have hvalue : (nTemp * 10 ^ k + n / 10 % 10 ^ k) * 10 + n % 10 =
        nTemp * 10 ^ (k + 1) + n % 10 ^ (k + 1) := by
      rw [Nat.pow_succ', Nat.mod_mul, Nat.mul_left_comm]
      omega
    rw [fixedDigits, List.append_assoc, show k + 1 + j = k + (j + 1) by omega, ih,
      List.singleton_append, readDigits, if_pos (isDigitW_digit n), toNat_digit,
      Nat.add_sub_cancel_left, hvalue]

theorem readDigits_stop {nTemp : Nat} {rest : List WChar} (h : isDigitW (charAt rest 0) = false)
    (j : Nat) : readDigits j nTemp rest = (nTemp, rest) := by
  cases j with
  | zero => rfl
  | succ j =>
    cases rest with
    | nil => rfl
    | cons ch rest => rw [readDigits, if_neg (by rw [← Bool.not_eq_true] at h; exact h)]

section Items

variable {env : DateEnvironment} {nTwoDigitsYearRule : Int} {chBefore : Option WChar}
  {v : DateValues} {rest : List WChar}

theorem readItem_number {item : WChar} (h : isNumberItem item = true) (szDateW : List WChar) :
    readItem env nTwoDigitsYearRule chBefore item szDateW v =
      numberItem env nTwoDigitsYearRule chBefore item szDateW v := by
  have hletters : ∀ ch ∈ wide "dHIjmMSfwUWyY", ¬ (ch == 0x61 || ch == 0x41) = true ∧
      ¬ (ch == 0x62 || ch == 0x42) = true := List.all_iff_forall_prop.mp (by decide)
  obtain ⟨hday, hmonth⟩ := hletters item (List.contains_iff_mem.mp h)
  rw [readItem, if_neg hday, if_neg hmonth, if_pos h]

/-- **A number is read** where no more digits follow. -/
theorem readItem_fixedDigits {item : WChar} (hitem : isNumberItem item = true) (hf : item ≠ 0x66)
    {k : Nat} (hk : 0 < k) (hmax : k ≤ maxDigits item) (hrest : isDigitW (charAt rest 0) = false)
    (n : Nat) {v' : DateValues}
    (hstore : storeNumber env nTwoDigitsYearRule item (n % 10 ^ k) v = .ok v') :
    readItem env nTwoDigitsYearRule chBefore item (fixedDigits k n ++ rest) v = .ok (rest, v') := by
  obtain ⟨j, hj⟩ := Nat.exists_eq_add_of_le hmax
  have hdigits : readDigits (maxDigits item) 0 (fixedDigits k n ++ rest) = (n % 10 ^ k, rest) := by
    rw [hj, readDigits_fixedDigits, Nat.zero_mul, Nat.zero_add, readDigits_stop hrest]
  have hfalse : (item == 0x66) = false := beq_eq_false_iff_ne.mpr hf
  rw [readItem_number hitem, numberItem, hfalse, Bool.false_and, if_neg Bool.false_ne_true]
  change (if !isDigitW (charAt (fixedDigits k n ++ rest) 0) then _ else _) = _
  rw [isDigitW_charAt_fixedDigits hk, Bool.not_true, if_neg Bool.false_ne_true, hdigits]
  dsimp only
  rw [hstore]
  rfl

theorem readItem_noDigit {item : WChar} (hitem : isNumberItem item = true) (hf : item ≠ 0x66)
    {szDateW : List WChar} (h : isDigitW (charAt szDateW 0) = false) :
    readItem env nTwoDigitsYearRule chBefore item szDateW v = .error .eFail := by
  have hfalse : (item == 0x66) = false := beq_eq_false_iff_ne.mpr hf
  rw [readItem_number hitem, numberItem, hfalse, Bool.false_and, if_neg Bool.false_ne_true]
  change (if !isDigitW (charAt szDateW 0) then _ else _) = _
  rw [h, Bool.not_false, if_pos rfl]

theorem isPlainItem_of_number {item : WChar} (h : isNumberItem item = true) : IsPlainItem item := by
  have hletters : ∀ ch ∈ wide "dHIjmMSfwUWyY", IsPlainItem ch :=
    List.all_iff_forall_prop.mp (by decide)
  exact hletters item (List.contains_iff_mem.mp h)

theorem scanFrom_digits {szOrigDateW : List WChar} {item : WChar}
    (hitem : isNumberItem item = true) (hf : item ≠ 0x66) {k : Nat} (hk : 0 < k)
    (hmax : k ≤ maxDigits item) (hrest : isDigitW (charAt rest 0) = false) {n : Nat}
    {v' : DateValues} (hstore : storeNumber env nTwoDigitsYearRule item (n % 10 ^ k) v = .ok v')
    (szFormatW : List WChar) :
    scanFrom env nTwoDigitsYearRule szOrigDateW
        ⟨0x25 :: item :: szFormatW, fixedDigits k n ++ rest, none, v⟩ =
      scanFrom env nTwoDigitsYearRule szOrigDateW ⟨szFormatW, rest, none, v'⟩ := by
  have hne : fixedDigits k n ++ rest ≠ [] := by
    refine List.ne_nil_of_length_pos ?_
    rw [List.length_append, length_fixedDigits]
    exact Nat.add_pos_left hk _
  exact scanFrom_item (isPlainItem_of_number hitem) hne
    (readItem_fixedDigits hitem hf hk hmax hrest n hstore)

/-- **A number that its digits are enough for.** -/
theorem scanFrom_number {szOrigDateW : List WChar} {item : WChar}
    (hitem : isNumberItem item = true) (hf : item ≠ 0x66) {k : Nat} (hk : 0 < k)
    (hmax : k ≤ maxDigits item) (hrest : isDigitW (charAt rest 0) = false) {n : Nat}
    (hn : n < 10 ^ k) {v' : DateValues}
    (hstore : storeNumber env nTwoDigitsYearRule item n v = .ok v') (szFormatW : List WChar) :
    scanFrom env nTwoDigitsYearRule szOrigDateW
        ⟨0x25 :: item :: szFormatW, fixedDigits k n ++ rest, none, v⟩ =
      scanFrom env nTwoDigitsYearRule szOrigDateW ⟨szFormatW, rest, none, v'⟩ :=
  scanFrom_digits hitem hf hk hmax hrest (by rwa [Nat.mod_eq_of_lt hn]) szFormatW

/-! The numbers in their ranges. -/

variable {n : Nat}

theorem storeNumber_day (h : 1 ≤ n) (h31 : n ≤ 31) :
    storeNumber env nTwoDigitsYearRule 0x64 n v = .ok { v with nDay := n } := by
  rw [storeNumber, if_pos (by decide), if_neg]
  rw [Bool.or_eq_true, decide_eq_true_iff, decide_eq_true_iff]
  omega

theorem storeNumber_hours (h : n ≤ 23) :
    storeNumber env nTwoDigitsYearRule 0x48 n v = .ok { v with nHours := n, nHourFlag := 0 } := by
  rw [storeNumber, if_neg (by decide), if_pos (by decide), if_neg (Nat.not_lt.mpr h)]

/-- The hour of a clock of twelve hours is stored with one taken off. -/
theorem storeNumber_twelveHour (h : 1 ≤ n) (h12 : n ≤ 12) :
    storeNumber env nTwoDigitsYearRule 0x49 n v =
      .ok { v with nHours := n - 1, nHourFlag := -1 } := by
  rw [storeNumber, if_neg (by decide), if_neg (by decide), if_pos (by decide), if_neg]
  rw [Bool.or_eq_true, decide_eq_true_iff, decide_eq_true_iff]
  omega

theorem storeNumber_yearDay (h : 1 ≤ n) (h366 : n ≤ 366) :
    storeNumber env nTwoDigitsYearRule 0x6A n v = .ok { v with nYDay := n } := by
  rw [storeNumber, if_neg (by decide), if_neg (by decide), if_neg (by decide), if_pos (by decide),
    if_neg]
  rw [Bool.or_eq_true, decide_eq_true_iff, decide_eq_true_iff]
  omega

theorem storeNumber_month (h : 1 ≤ n) (h12 : n ≤ 12) :
    storeNumber env nTwoDigitsYearRule 0x6D n v = .ok { v with nMonth := n } := by
  rw [storeNumber, if_neg (by decide), if_neg (by decide), if_neg (by decide), if_neg (by decide),
    if_pos (by decide), if_neg]
  rw [Bool.or_eq_true, decide_eq_true_iff, decide_eq_true_iff]
  omega

theorem storeNumber_minutes (h : n ≤ 59) :
    storeNumber env nTwoDigitsYearRule 0x4D n v = .ok { v with nMinutes := n } := by
  rw [storeNumber, if_neg (by decide), if_neg (by decide), if_neg (by decide), if_neg (by decide),
    if_neg (by decide), if_pos (by decide), if_neg (Nat.not_lt.mpr h)]

theorem storeNumber_seconds (h : n ≤ 59) :
    storeNumber env nTwoDigitsYearRule 0x53 n v = .ok { v with nSeconds := n } := by
  rw [storeNumber, if_neg (by decide), if_neg (by decide), if_neg (by decide), if_neg (by decide),
    if_neg (by decide), if_neg (by decide), if_pos (by decide), if_neg (Nat.not_lt.mpr h)]

/-- The year, from the year that the digits stand for. -/
theorem storeNumber_year {nYear : Nat} (h : 1 ≤ nYear) (h9999 : nYear ≤ 9999)
    (hyear : (if n ≤ 99 then doTwoDigitsYearAdjustment env n nTwoDigitsYearRule
      else .ok (n : Int)) = .ok (nYear : Int)) :
    storeNumber env nTwoDigitsYearRule 0x59 n v = .ok { v with nYear := nYear } := by
  rw [storeNumber, if_neg (by decide), if_neg (by decide), if_neg (by decide), if_neg (by decide),
    if_neg (by decide), if_neg (by decide), if_neg (by decide), if_neg (by decide),
    if_neg (by decide), if_neg (by decide), hyear]
  dsimp only
  rw [if_neg]
  rw [Bool.or_eq_true, decide_eq_true_iff, decide_eq_true_iff]
  omega

/-- **The year of the hundred that end with the last one of the rule.** -/
theorem doTwoDigitsYearAdjustment_eq {nRule : Int} (hrule : env.yearRule = .ok nRule) {nYear : Nat}
    (hmod : nYear % 100 = n) (hle : (nYear : Int) ≤ nRule) (hlt : nRule < nYear + 100) :
    doTwoDigitsYearAdjustment env n 0 = .ok (nYear : Int) := by
  have hk : nRule.tmod 100 = nRule % 100 := Int.tmod_eq_emod_of_nonneg (by omega)
  rw [doTwoDigitsYearAdjustment, if_pos rfl, hrule]
  change Except.ok (_ + if _ > nRule.tmod 100 then nRule - nRule.tmod 100 - 100
    else nRule - nRule.tmod 100) = _
  rw [hk]
  congr 1
  split <;> omega

end Items

/-! ### Names -/

/-- Two texts differ before one of them ends, small letters taken for capitals. -/
def differs (p name : List WChar) : Bool :=
  let nLen := min p.length name.length
  (p.take nLen).map lowerW != (name.take nLen).map lowerW

/-- What stands in front of a text is enough to say whether it begins with the name. -/
def settles (p name : List WChar) : Bool :=
  !p.contains 0 && !name.contains 0 && (decide (name.length < p.length) || differs p name)

theorem szStr_append {p : List WChar} (hp : (0 : WChar) ∉ p) (q : List WChar) :
    szStr (p ++ q) = p ++ szStr q := by
  refine List.takeWhile_append_of_pos fun ch hch => ?_
  rw [bne_iff_ne]
  rintro rfl
  exact hp hch

/-- **The rest of the text does not matter.** -/
theorem compareStrW_append {p name : List WChar} (h : settles p name = true) (q : List WChar) :
    compareStrW (p ++ q) name = compareStrW p name := by
  rw [settles, Bool.and_eq_true, Bool.and_eq_true, Bool.or_eq_true, Bool.not_eq_true',
    Bool.not_eq_true', List.contains_eq_mem, List.contains_eq_mem, decide_eq_false_iff_not,
    decide_eq_false_iff_not, decide_eq_true_iff] at h
  obtain ⟨⟨hp, hname⟩, hcase⟩ := h
  have hcompare : ∀ q, strNCompareW (p ++ q) name name.length true =
      (((p ++ szStr q).take name.length).map lowerW == name.map lowerW) := by
    intro q
    rw [strNCompareW, szStr_append hp,
      szStr_of_ne_zero fun ch hch (h0 : ch = 0) => hname (h0 ▸ hch), List.take_length]
    rfl
  have hp' := hcompare []
  rw [List.append_nil, szStr_nil, List.append_nil] at hp'
  rcases hcase with hlt | hdiffers
  · have htake : (p ++ szStr q).take name.length = p.take name.length :=
      List.take_append_of_le_length (Nat.le_of_lt hlt)
    have hchar : charAt (p ++ q) name.length = charAt p name.length := by
      rw [charAt, charAt, List.getD_eq_getElem?_getD, List.getD_eq_getElem?_getD,
        List.getElem?_append_left hlt]
    rw [compareStrW, compareStrW, hcompare, hp', htake, hchar]
  · -- neither begins with the name
    have hfalse : ∀ r, (((p ++ r).take name.length).map lowerW == name.map lowerW) = false := by
      intro r
      rw [beq_eq_false_iff_ne]
      intro heq
      rw [differs, bne_iff_ne] at hdiffers
      refine hdiffers ?_
      have hcut := congrArg (List.take (min p.length name.length)) heq
      rwa [← List.map_take, ← List.map_take, List.take_take, Nat.min_eq_left (Nat.min_le_right _ _),
        List.take_append_of_le_length (Nat.min_le_left _ _)] at hcut
    have hfalse' := hfalse []
    rw [List.append_nil] at hfalse'
    rw [compareStrW, compareStrW, hcompare, hp', hfalse, hfalse']
    rfl

theorem findName_append {p : List WChar} {names : List (List WChar)}
    (h : ∀ name ∈ names, settles p name = true) (q : List WChar) :
    findName (p ++ q) names = findName p names := by
  induction names with
  | nil => rfl
  | cons name names ih =>
    obtain ⟨hname, hnames⟩ := List.forall_mem_cons.mp h
    rw [findName, findName, compareStrW_append hname, ih hnames]

/-- A text that begins with `p` is found at `i`, with `nTemp` characters. -/
def finds (longNames shortNames : List (List WChar)) (p : List WChar) (i nTemp : Nat) : Bool :=
  (longNames ++ shortNames).all (settles p) && findEither p longNames shortNames == (i, nTemp)

theorem findEither_of_finds {longNames shortNames : List (List WChar)} {p : List WChar}
    {i nTemp : Nat} (h : finds longNames shortNames p i nTemp = true) (q : List WChar) :
    findEither (p ++ q) longNames shortNames = (i, nTemp) := by
  rw [finds, Bool.and_eq_true, List.all_eq_true, beq_iff_eq] at h
  obtain ⟨hsettles, hfind⟩ := h
  rw [← hfind, findEither, findEither,
    findName_append fun name hname => hsettles name (List.mem_append_left _ hname),
    findName_append fun name hname => hsettles name (List.mem_append_right _ hname)]

theorem finds_weekDay : ∀ names ∈ [szLongDayNamesW, szShortDayNamesW], ∀ w < 7,
    ((wide ", ").all fun ch => finds szLongDayNamesW szShortDayNamesW (names.getD w [] ++ [ch]) w
      (names.getD w []).length) = true := by
  decide

theorem finds_month : ∀ m < 12, ((wide " -").all fun ch =>
    finds szLongMonthNamesW szShortMonthNamesW (szShortMonthNamesW.getD m [] ++ [ch]) m
      (szShortMonthNamesW.getD m []).length) = true := by
  decide

section Items

variable {env : DateEnvironment} {nTwoDigitsYearRule : Int} {chBefore : Option WChar}
  {v : DateValues}

/-- **The name of a day is read**, before a comma or a blank. -/
theorem readItem_weekDay {item : WChar} (hitem : item ∈ wide "aA") {names : List (List WChar)}
    (hnames : names ∈ [szLongDayNamesW, szShortDayNamesW]) {w : Nat} (hw : w < 7) {ch : WChar}
    (hch : ch ∈ wide ", ") (rest : List WChar) :
    readItem env nTwoDigitsYearRule chBefore item (names.getD w [] ++ ch :: rest) v =
      .ok (ch :: rest, { v with nWeekDay := w, i := w }) := by
  have hletter : ∀ ch ∈ wide "aA", (ch == 0x61 || ch == 0x41) = true :=
    List.all_eq_true.mp (by decide)
  have hfind := findEither_of_finds (List.all_eq_true.mp (finds_weekDay names hnames w hw) ch hch) rest
  rw [List.append_assoc, List.singleton_append] at hfind
  rw [readItem, if_pos (hletter item hitem), weekDayItem, hfind]
  dsimp only
  rw [if_pos hw, List.drop_left]

/-- **The short name of a month is read**, before a blank or a hyphen. -/
theorem readItem_month {m : Nat} (hm : m < 12) {ch : WChar} (hch : ch ∈ wide " -")
    (rest : List WChar) :
    readItem env nTwoDigitsYearRule chBefore 0x62 (szShortMonthNamesW.getD m [] ++ ch :: rest) v =
      .ok (ch :: rest, { v with nMonth := m + 1, i := m }) := by
  have hfind := findEither_of_finds (List.all_eq_true.mp (finds_month m hm) ch hch) rest
  rw [List.append_assoc, List.singleton_append] at hfind
  rw [readItem, if_neg (by decide), if_pos (by decide), monthItem, hfind]
  dsimp only
  rw [if_neg (Nat.not_le.mpr hm), List.drop_left]

/-- **The zone GMT is read** at the end of the text. -/
theorem readItem_gmt : readItem env nTwoDigitsYearRule chBefore 0x7A (wide "GMT") v =
    .ok ([], { v with nOffset := 0, bOffsetSpecified := true }) := by
  rw [readItem, if_neg (by decide), if_neg (by decide), if_neg (by decide), if_neg (by decide),
    if_pos (by decide), zoneItem]
  dsimp only
  rw [if_neg (by decide), if_pos (by decide), if_pos (by decide), if_neg (by decide)]
  rfl

end Items

/-! ### Characters that stand for themselves -/

section Scan

variable {env : DateEnvironment} {nTwoDigitsYearRule : Int} {szOrigDateW : List WChar}
  {v : DateValues}

/-- The characters of a format that stand for others. -/
def isSpecial (ch : WChar) : Bool := (wide "%/:\\ \t").contains ch

theorem ne_of_isSpecial {ch ch' : WChar} (hch : isSpecial ch = false)
    (hmem : ch' ∈ wide "%/:\\ \t") : ch ≠ ch' := by
  rintro rfl
  rw [isSpecial, List.contains_iff_mem.mpr hmem] at hch
  cases hch

theorem readLiteral_of_not_isSpecial {ch : WChar} (hch : isSpecial ch = false)
    (szFormatW szDateW : List WChar) :
    readLiteral ch szFormatW szDateW =
      if charToUpperW (charAt szDateW 0) == charToUpperW ch then .ok (szFormatW, szDateW.drop 1)
      else .error .eFail := by
  have hne : ∀ {ch'}, ch' ∈ wide "%/:\\ \t" → ¬ (ch == ch') = true := by
    intro ch' hmem
    rw [beq_iff_eq]
    exact ne_of_isSpecial hch hmem
  have hblank : isBlankW ch = false := by
    rw [isBlankW, Bool.or_eq_false_iff, ← Bool.not_eq_true, ← Bool.not_eq_true]
    exact ⟨hne (by decide), hne (by decide)⟩
  unfold readLiteral
  rw [if_neg (hne (by decide)), if_neg (hne (by decide)), if_neg (hne (by decide)), hblank,
    if_neg Bool.false_ne_true]

/-- A character that stands for itself. -/
theorem scanFrom_char {ch : WChar} (hch : isSpecial ch = false) (szFormatW szDateW : List WChar) :
    scanFrom env nTwoDigitsYearRule szOrigDateW ⟨ch :: szFormatW, ch :: szDateW, none, v⟩ =
      scanFrom env nTwoDigitsYearRule szOrigDateW ⟨szFormatW, szDateW, none, v⟩ := by
  refine scanFrom_literal (ne_of_isSpecial hch (by decide)) (List.cons_ne_nil _ _) ?_
  rw [readLiteral_of_not_isSpecial hch, if_pos (by rw [charAt_cons_zero, beq_self_eq_true])]
  rfl

theorem scanFrom_colon (szFormatW szDateW : List WChar) :
    scanFrom env nTwoDigitsYearRule szOrigDateW ⟨0x3A :: szFormatW, 0x3A :: szDateW, none, v⟩ =
      scanFrom env nTwoDigitsYearRule szOrigDateW ⟨szFormatW, szDateW, none, v⟩ := by
  have hread : readSeparator szTimeSeparatorW (0x3A :: szDateW) = .ok szDateW := by
    have hsame : strNCompareW (0x3A :: szDateW) szTimeSeparatorW szTimeSeparatorW.length true =
        true := by
      rw [strNCompareW]
      rfl
    rw [readSeparator, hsame]
    rfl
  refine scanFrom_literal (by decide) (List.cons_ne_nil _ _) ?_
  unfold readLiteral
  rw [if_neg (by decide), if_pos (by decide), hread]
  rfl

/-- A blank, where no other one follows. -/
theorem scanFrom_blank {szFormatW szDateW : List WChar}
    (hformat : isBlankW (charAt szFormatW 0) = false)
    (hdate : isBlankW (charAt szDateW 0) = false) :
    scanFrom env nTwoDigitsYearRule szOrigDateW ⟨0x20 :: szFormatW, 0x20 :: szDateW, none, v⟩ =
      scanFrom env nTwoDigitsYearRule szOrigDateW ⟨szFormatW, szDateW, none, v⟩ := by
  have hdrop : ∀ {sW : List WChar}, isBlankW (charAt sW 0) = false →
      sW.dropWhile isBlankW = sW := by
    intro sW h
    cases sW with
    | nil => rfl
    | cons ch sW => rw [List.dropWhile_cons, if_neg (by rw [← Bool.not_eq_true] at h; exact h)]
  refine scanFrom_literal (by decide) (List.cons_ne_nil _ _) ?_
  unfold readLiteral
  rw [if_neg (by decide), if_neg (by decide), if_neg (by decide), if_pos (by decide),
    if_neg (by rw [charAt_cons_zero]; decide), List.dropWhile_cons, if_pos (by decide),
    hdrop hformat, hdrop hdate]

/-- Another character, or none. -/
theorem scanFrom_char_error {ch : WChar} (hch : isSpecial ch = false) (szFormatW : List WChar)
    {szDateW : List WChar} (hne : szDateW ≠ [])
    (hdate : charToUpperW (charAt szDateW 0) ≠ charToUpperW ch) :
    scanFrom env nTwoDigitsYearRule szOrigDateW ⟨ch :: szFormatW, szDateW, none, v⟩ =
      .error .eFail := by
  refine scanFrom_literal_error (ne_of_isSpecial hch (by decide)) hne ?_
  rw [readLiteral_of_not_isSpecial hch, if_neg (by rw [beq_iff_eq]; exact hdate)]

theorem scanFrom_blank_error (szFormatW : List WChar) {szDateW : List WChar} (hne : szDateW ≠ [])
    (hdate : isBlankW (charAt szDateW 0) = false) :
    scanFrom env nTwoDigitsYearRule szOrigDateW ⟨0x20 :: szFormatW, szDateW, none, v⟩ =
      .error .eFail := by
  refine scanFrom_literal_error (by decide) hne ?_
  unfold readLiteral
  rw [if_neg (by decide), if_neg (by decide), if_neg (by decide), if_pos (by decide), hdate]
  rfl

end Scan

/-- **A text that is read to its end** is stored. -/
theorem setFromStringW_eq {env : DateEnvironment} {szDateW szFormatW : List WChar}
    (hzero : ∀ ch ∈ szDateW, ch ≠ 0)
    (hne : szDateW ≠ []) (hformat : ∀ ch ∈ szFormatW, ch ≠ 0) (cDt : CDateTime) :
    setFromStringW env cDt szDateW szFormatW 0 =
      match scanFrom env 0 szDateW ⟨szFormatW, szDateW, none, { i := env.i }⟩ with
      | .error hRes => (hRes, cDt)
      | .ok v => storeValues cDt v := by
  rw [setFromStringW, szStr_of_ne_zero hzero, szStr_of_ne_zero hformat]
  exact (if_neg (by rwa [List.isEmpty_iff])).trans (if_neg (by omega))

/-! ### What is stored -/

theorem day_le_of_isDateValid {nYear nMonth nDay : Nat}
    (h : isDateValid nYear nMonth nDay = true) : nDay ≤ 31 := by
  obtain ⟨-, ⟨h1, h12⟩, -, hle⟩ := (isDateValid_iff _ _ _).mp h
  refine hle.trans ?_
  rw [monthDays]
  cases isLeapYear nYear <;> interval_cases nMonth <;> decide

theorem setDateTimeOf_eq {f : DateFields} (h : f.Valid) (nTicks : Nat) :
    setDateTimeOf nTicks f.nYear f.nMonth f.nDay f.nHours f.nMinutes f.nSeconds f.nMilliSeconds =
      (.sOk, f.ticks) := by
  have hcall := setDateTime_eq h nTicks
  rw [setDateTime] at hcall
  cases hdate : setDate nTicks f.nYear f.nMonth f.nDay with
  | error hRes =>
    rw [hdate] at hcall
    cases hcall
  | ok nTicks' =>
    rw [hdate] at hcall
    dsimp only at hcall
    have hdateOf : setDateOf nTicks f.nYear f.nMonth f.nDay = (.sOk, nTicks') := by
      rw [setDateOf, if_neg (by omega)]
      simp only [Int.toNat_natCast]
      rw [hdate]
    have htimeOf : setTimeOf nTicks' f.nHours f.nMinutes f.nSeconds f.nMilliSeconds =
        (.sOk, f.ticks) := by
      rw [setTimeOf, if_neg (by omega)]
      simp only [Int.toNat_natCast]
      rw [hcall]
    have hok : HResult.sOk.succeeded = true := rfl
    rw [setDateTimeOf, hdateOf]
    dsimp only
    rw [hok, if_pos rfl, htimeOf]
    rfl

/-- The variables hold a date and a time of day. -/
structure DateValues.Holds (v : DateValues) (f : DateFields) : Prop where
  year : v.nYear = f.nYear
  month : v.nMonth = f.nMonth
  day : v.nDay = f.nDay
  hours : v.nHours = f.nHours
  minutes : v.nMinutes = f.nMinutes
  seconds : v.nSeconds = f.nSeconds
  milliSeconds : v.nMilliSeconds = f.nMilliSeconds
  hourFlag : v.nHourFlag ≠ 2

/-- **What was read is stored**, with twelve hours more in the afternoon. -/
theorem storeValues_of_hours {v : DateValues} {f : DateFields} (hyear : v.nYear = f.nYear)
    (hmonth : v.nMonth = f.nMonth) (hday : v.nDay = f.nDay)
    (hhours : (if v.nHourFlag = 2 ∧ v.nHours < 12 then v.nHours + 12 else v.nHours) = f.nHours)
    (hminutes : v.nMinutes = f.nMinutes) (hseconds : v.nSeconds = f.nSeconds)
    (hmilliSeconds : v.nMilliSeconds = f.nMilliSeconds) (hf : f.Valid) (cDt : CDateTime) :
    storeValues cDt v = (.sOk, ⟨f.ticks, if v.bOffsetSpecified then v.nOffset else 0⟩) := by
  obtain ⟨w, hw⟩ : ∃ w : DateValues, w = if v.nHourFlag = 2 ∧ v.nHours < 12 then
    { v with nHours := v.nHours + 12 } else v := ⟨_, rfl⟩
  have hsame : w = { v with nHours := f.nHours } := by
    rw [hw]
    split
    · rename_i hafternoon
      rw [if_pos hafternoon] at hhours
      rw [hhours]
    · rename_i hafternoon
      rw [if_neg hafternoon] at hhours
      rw [← hhours]
  have hfix : fixMonth w = .ok w := by
    rw [hsame, fixMonth, if_neg (by dsimp only; omega)]
  have hkeep : (if w.nYear < 0 ∨ w.nMonth < 0 ∨ w.nDay < 0 then
      { w with nYear := 1, nMonth := 1, nDay := 1 } else w) = w := by
    rw [hsame]
    exact if_neg (by dsimp only; omega)
  rw [storeValues, ← hw]
  dsimp only
  rw [hfix]
  dsimp only
  rw [hkeep, hsame]
  dsimp only
  rw [hyear, hmonth, hday, hminutes, hseconds, hmilliSeconds, setDateTimeOf_eq hf]
  rfl

/-- **What was read is stored.** -/
theorem storeValues_eq {v : DateValues} {f : DateFields} (hv : v.Holds f) (hf : f.Valid)
    (cDt : CDateTime) :
    storeValues cDt v = (.sOk, ⟨f.ticks, if v.bOffsetSpecified then v.nOffset else 0⟩) := by
  refine storeValues_of_hours hv.year hv.month hv.day ?_ hv.minutes hv.seconds hv.milliSeconds
    hf cDt
  rw [if_neg fun h => hv.hourFlag h.1]
  exact hv.hours

end MxLib.DateTime
