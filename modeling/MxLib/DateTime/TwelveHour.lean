import MxLib.DateTime.Separators

/-!
# The clock of twelve hours

A date that `AppendFormat` writes with `%I` and `%p`, read back by `SetFromString` with the same
format.  The hour is stored with one taken off, as if the clock began with zero, and what follows
adds twelve in the afternoon and no more.  So the hour that is read is never the one that was
written, wherever `%p` stands (`not_roundTrips`); everything else is read back.
-/

namespace MxLib.DateTime

/-! ### Formats -/

/-- A run of blanks and commas. -/
def IsSeparator (sep : List WChar) : Prop := ∀ ch ∈ sep, ch ∈ wide " \t,"

/-- Every item of a date and of a twelve-hour clock once, with separators between them. -/
structure TwelveHourFormat where
  /-- The items, each with the separator in front of it. -/
  parts : List (List WChar × WChar)
  /-- What stands behind the last item. -/
  behind : List WChar
  items : (parts.map Prod.snd).Perm (wide "YmdIMSp")
  separators : ∀ part ∈ parts, IsSeparator part.1
  separated : ∀ part ∈ parts.tail, part.1 ≠ []
  separatorBehind : IsSeparator behind

/-- Items and what they stand for, with their separators. -/
def joinParts (text : WChar → List WChar) (parts : List (List WChar × WChar))
    (behind : List WChar) : List WChar :=
  parts.flatMap (fun part => part.1 ++ text part.2) ++ behind

def TwelveHourFormat.szFormatW (format : TwelveHourFormat) : List WChar :=
  joinParts (fun item => [0x25, item]) format.parts format.behind

/-- What `Format` writes is read as the same date and time, to the second. -/
def RoundTrips (env : DateEnvironment) (cDt x : CDateTime) (szFormatW : List WChar) : Prop :=
  ∃ szDateW, formatFrom x.cTicks x.nGmtOffset szFormatW.length szFormatW = .ok szDateW ∧
    (setFromStringW env cDt szDateW szFormatW 0).1.succeeded = true ∧
    (setFromStringW env cDt szDateW szFormatW 0).2.cTicks / ticksPerSecond =
      x.cTicks / ticksPerSecond

/-! ### Writing -/

theorem joinParts_cons (text : WChar → List WChar) (part : List WChar × WChar)
    (parts : List (List WChar × WChar)) (behind : List WChar) :
    joinParts text (part :: parts) behind =
      part.1 ++ (text part.2 ++ joinParts text parts behind) := by
  rw [joinParts, List.flatMap_cons, List.append_assoc, List.append_assoc]
  rfl

theorem isSeparator_chars {ch : WChar} (h : ch ∈ wide " \t,") :
    ch ≠ 0x25 ∧ ch ≠ 0x2F ∧ ch ≠ 0x3A ∧ ch ≠ 0x5C ∧ ch ≠ 0 ∧ isDigitW ch = false ∧
      isLetterW ch = false := by
  have hchars : ∀ ch ∈ wide " \t,", ch ≠ 0x25 ∧ ch ≠ 0x2F ∧ ch ≠ 0x3A ∧ ch ≠ 0x5C ∧ ch ≠ 0 ∧
      isDigitW ch = false ∧ isLetterW ch = false := List.all_iff_forall_prop.mp (by decide)
  exact hchars ch h

theorem separatorFormat_eq {sep : List WChar} (h : IsSeparator sep) :
    separatorFormat sep = sep := by
  induction sep with
  | nil => rfl
  | cons ch sep ih =>
    obtain ⟨hch, hsep⟩ := List.forall_mem_cons.mp h
    obtain ⟨hpercent, -, -, hbackslash, -⟩ := isSeparator_chars hch
    rw [separatorFormat_plain hpercent hbackslash, ih hsep]

section Writing

variable {nTicks : Nat} {nGmtOffset : Int}

/-- A separator is written as it stands. -/
theorem formatFrom_separator {sep : List WChar} (h : IsSeparator sep) (fuel : Nat)
    (szFormatW : List WChar) :
    formatFrom nTicks nGmtOffset (fuel + sep.length) (sep ++ szFormatW) =
      (formatFrom nTicks nGmtOffset fuel szFormatW).map (sep ++ ·) := by
  induction sep with
  | nil =>
    rw [List.length_nil, Nat.add_zero, List.nil_append]
    cases formatFrom nTicks nGmtOffset fuel szFormatW <;> rfl
  | cons ch sep ih =>
    obtain ⟨hch, hsep⟩ := List.forall_mem_cons.mp h
    obtain ⟨hpercent, hslash, hcolon, hbackslash, -⟩ := isSeparator_chars hch
    have hpart : nextPart false (ch :: (sep ++ szFormatW)) = (.text [ch], sep ++ szFormatW) := by
      simp [nextPart, hpercent, hslash, hcolon, hbackslash]
    rw [List.length_cons, ← Nat.add_assoc, List.cons_append, formatFrom_text _ _ hpart, ih hsep]
    cases formatFrom nTicks nGmtOffset fuel szFormatW <;> rfl

theorem formatFrom_nil (fuel : Nat) : formatFrom nTicks nGmtOffset fuel [] = .ok [] := by
  cases fuel with
  | zero => rfl
  | succ fuel => rfl

/-- **The items are written one after the other.** -/
theorem formatFrom_joinParts {parts : List (List WChar × WChar)} {behind : List WChar}
    (hitems : ∀ part ∈ parts, part.2 ∈ wide "YmdIMSp")
    (hseps : ∀ part ∈ parts, IsSeparator part.1) (hbehind : IsSeparator behind) {fuel : Nat}
    (hfuel : (joinParts (fun item => [0x25, item]) parts behind).length ≤ fuel) :
    formatFrom nTicks nGmtOffset fuel (joinParts (fun item => [0x25, item]) parts behind) =
      .ok (joinParts (itemText nTicks nGmtOffset false) parts behind) := by
  have hplain : ∀ item ∈ wide "YmdIMSp", ¬ item = 0x23 ∧ itemFormat false item = none :=
    List.all_iff_forall_prop.mp (by decide)
  induction parts generalizing fuel with
  | nil =>
    obtain ⟨rest, rfl⟩ := Nat.exists_eq_add_of_le' hfuel
    have hwrite := @formatFrom_separator nTicks nGmtOffset behind hbehind rest []
    rw [formatFrom_nil, List.append_nil] at hwrite
    exact hwrite.trans (congrArg _ (List.append_nil _))
  | cons part parts ih =>
    obtain ⟨hitem, hitems⟩ := List.forall_mem_cons.mp hitems
    obtain ⟨hsep, hseps⟩ := List.forall_mem_cons.mp hseps
    obtain ⟨hflag, hformat⟩ := hplain part.2 hitem
    rw [joinParts_cons, List.length_append, List.length_append] at hfuel
    change part.1.length + (2 + _) ≤ fuel at hfuel
    obtain ⟨rest, rfl⟩ := Nat.exists_eq_add_of_le' (Nat.le_of_add_right_le hfuel)
    obtain ⟨rest, rfl⟩ : ∃ n, rest = n + 1 := Nat.exists_eq_succ_of_ne_zero (by omega)
    have hpart : ∀ rest, nextPart false (0x25 :: part.2 :: rest) = (.item false part.2, rest) := by
      intro rest
      simp [nextPart, hflag]
    rw [joinParts_cons, formatFrom_separator hsep, joinParts_cons]
    change (formatFrom nTicks nGmtOffset (rest + 1)
      (0x25 :: part.2 :: joinParts (fun item => [0x25, item]) parts behind)).map _ = _
    rw [formatFrom_item _ _ (hpart _) hformat, ih hitems hseps (by omega)]
    rfl

end Writing

/-! ### Reading -/

/-- The hour on a clock of twelve hours. -/
def twelveHour (nHours : Nat) : Nat := if nHours % 12 == 0 then 12 else nHours % 12

/-- The variables behind an item that was written for this date and time. -/
def readPart (f : DateFields) (v : DateValues) (item : WChar) : DateValues :=
  let i : Nat := if f.nHours < 12 then 0 else 1
  { v with
    nYear := if item == 0x59 then f.nYear else v.nYear
    nMonth := if item == 0x6D then f.nMonth else v.nMonth
    nDay := if item == 0x64 then f.nDay else v.nDay
    nHours := if item == 0x49 then twelveHour f.nHours - 1 else v.nHours
    nMinutes := if item == 0x4D then f.nMinutes else v.nMinutes
    nSeconds := if item == 0x53 then f.nSeconds else v.nSeconds
    nHourFlag := if item == 0x49 then -1 else if item == 0x70 then i + 1 else v.nHourFlag
    i := if item == 0x70 then i else v.i }

section Reading

variable {env : DateEnvironment} {nTwoDigitsYearRule : Int} {szOrigDateW : List WChar}
  {nTicks : Nat} {nGmtOffset : Int} {v : DateValues}

/-- Behind an item there is a separator, or the end of the text. -/
def EndsItem (sW : List WChar) : Prop :=
  isDigitW (charAt sW 0) = false ∧ isLetterW (charAt sW 0) = false

/-- A name is compared with one of its length, where no letter follows. -/
theorem compareStrW_of_length {p name rest : List WChar} (hp : (0 : WChar) ∉ p)
    (hname : (0 : WChar) ∉ name) (hlen : p.length = name.length)
    (hrest : isLetterW (charAt rest 0) = false) :
    compareStrW (p ++ rest) name = if p.map lowerW == name.map lowerW then name.length else 0 := by
  have hchar : charAt (p ++ rest) name.length = charAt rest 0 := by
    rw [charAt, charAt, List.getD_eq_getElem?_getD, List.getD_eq_getElem?_getD,
      List.getElem?_append_right (Nat.le_of_eq hlen), hlen, Nat.sub_self]
  have hcompare : strNCompareW (p ++ rest) name name.length true =
      (p.map lowerW == name.map lowerW) := by
    rw [strNCompareW, szStr_append hp,
      szStr_of_ne_zero fun ch hch (h0 : ch = 0) => hname (h0 ▸ hch), List.take_length,
      List.take_append_of_le_length (Nat.le_of_eq hlen.symm), ← hlen, List.take_length]
    rfl
  rw [compareStrW, hcompare, hchar, hrest, Bool.or_false]
  cases p.map lowerW == name.map lowerW <;> rfl

/-- The text of a marker is found. -/
theorem findName_amPm {k : Nat} (hk : k < 2) {rest : List WChar} (hrest : EndsItem rest) :
    findName ([wide "AM", wide "PM"].getD k [] ++ rest) [wide "AM", wide "PM"] = (k, 2) := by
  have hcompare : ∀ p ∈ [wide "AM", wide "PM"], ∀ name ∈ [wide "AM", wide "PM"],
      compareStrW (p ++ rest) name =
        if p.map lowerW == name.map lowerW then name.length else 0 := by
    have hshape : ∀ p ∈ [wide "AM", wide "PM"], p.length = 2 ∧ (0 : WChar) ∉ p := by decide
    intro p hp name hname
    exact compareStrW_of_length (hshape p hp).2 (hshape name hname).2
      ((hshape p hp).1.trans (hshape name hname).1.symm) hrest.2
  obtain rfl | rfl : k = 0 ∨ k = 1 := by omega
  · rw [findName, List.getD_cons_zero, hcompare _ (by decide) _ (by decide)]
    rfl
  · rw [findName, findName, List.getD_cons_succ, List.getD_cons_zero,
      hcompare _ (by decide) _ (by decide), hcompare _ (by decide) _ (by decide)]
    rfl

theorem twelveHour_bounds (nHours : Nat) : 1 ≤ twelveHour nHours ∧ twelveHour nHours ≤ 12 := by
  rw [twelveHour]
  split
  · omega
  · rename_i h
    rw [beq_iff_eq] at h
    omega

theorem readItem_amPm {chBefore : Option WChar} {k : Nat} (hk : k < 2) {rest : List WChar}
    (hrest : EndsItem rest) :
    readItem env nTwoDigitsYearRule chBefore 0x70 ([wide "AM", wide "PM"].getD k [] ++ rest) v =
      .ok (rest, { v with nHourFlag := k + 1, i := k }) := by
  have hlen : ([wide "AM", wide "PM"].getD k []).length = 2 := by
    obtain rfl | rfl : k = 0 ∨ k = 1 := by omega
    · rfl
    · rfl
  rw [readItem, if_neg (by decide), if_neg (by decide), if_neg (by decide), if_pos (by decide),
    amPmItem, findName_amPm hk hrest]
  dsimp only
  rw [if_neg (Nat.not_le.mpr hk), ← hlen, List.drop_left]

theorem itemText_amPm : itemText nTicks nGmtOffset false 0x70 =
    [wide "AM", wide "PM"].getD (if (getDateTime nTicks).nHours < 12 then 0 else 1) [] := by
  have hmarker : itemText nTicks nGmtOffset false 0x70 =
      if (getDateTime nTicks).nHours < 12 then wide "AM" else wide "PM" := rfl
  rw [hmarker]
  split <;> rfl

/-- The digits of an item that is a number, and what they are stored as. -/
theorem exists_digits (h : nTicks ≤ xMaxValueTicks) (hyear : 100 ≤ (getDateTime nTicks).nYear)
    {item : WChar} (hitem : item ∈ wide "YmdIMS") :
    ∃ k n, (0 < k ∧ k ≤ maxDigits item) ∧ n < 10 ^ k ∧
      itemText nTicks nGmtOffset false item = fixedDigits k n ∧
      ∀ env nTwoDigitsYearRule v, storeNumber env nTwoDigitsYearRule item n v =
        .ok (readPart (getDateTime nTicks) v item) := by
  have hitems : wide "YmdIMS" = [0x59, 0x6D, 0x64, 0x49, 0x4D, 0x53] := by decide
  obtain ⟨hvalid, -, -⟩ := getDateTime_date h
  obtain ⟨⟨hy1, hy9999⟩, ⟨hm1, hm12⟩, hd1, -⟩ := (isDateValid_iff _ _ _).mp hvalid
  have hd31 := day_le_of_isDateValid hvalid
  obtain ⟨hh, hmin, hsec, -⟩ := time_le nTicks
  have hminutes : (getDateTime nTicks).nMinutes ≤ 59 := hmin
  have hseconds : (getDateTime nTicks).nSeconds ≤ 59 := hsec
  obtain ⟨hclock, hclock12⟩ := twelveHour_bounds (getDateTime nTicks).nHours
  have htwo : ∀ n < 10 ^ 2, formatAddNumber n 2 = fixedDigits 2 n := fun n hn =>
    formatAddNumber_eq hn
  rw [hitems] at hitem
  simp only [List.mem_cons, List.not_mem_nil, or_false] at hitem
  rcases hitem with rfl | rfl | rfl | rfl | rfl | rfl
  · -- three or four digits
    have htext : itemText nTicks nGmtOffset false 0x59 =
        formatAddNumber (getDateTime nTicks).nYear 2 := rfl
    have hstore := fun env nTwoDigitsYearRule v => @storeNumber_year env nTwoDigitsYearRule v _ _
      hy1 hy9999 (if_neg (Nat.not_le.mpr hyear))
    rw [htext, formatAddNumber_of_le (by decide) hyear]
    by_cases hfour : 1000 ≤ (getDateTime nTicks).nYear
    · rw [formatAddNumber_of_le (by decide) hfour]
      exact ⟨4, _, by decide, by omega, @formatAddNumber_eq _ 3 (by omega), hstore⟩
    · exact ⟨3, _, by decide, by omega, @formatAddNumber_eq _ 2 (by omega), hstore⟩
  · have hlt : (getDateTime nTicks).nMonth < 10 ^ 2 := by omega
    exact ⟨2, _, by decide, hlt, htwo _ hlt, fun _ _ _ => storeNumber_month hm1 hm12⟩
  · have hlt : (getDateTime nTicks).nDay < 10 ^ 2 := by omega
    exact ⟨2, _, by decide, hlt, htwo _ hlt, fun _ _ _ => storeNumber_day hd1 hd31⟩
  · have hlt : twelveHour (getDateTime nTicks).nHours < 10 ^ 2 := by omega
    exact ⟨2, _, by decide, hlt, htwo _ hlt, fun _ _ _ => storeNumber_twelveHour hclock hclock12⟩
  · have hlt : (getDateTime nTicks).nMinutes < 10 ^ 2 := by omega
    exact ⟨2, _, by decide, hlt, htwo _ hlt, fun _ _ _ => storeNumber_minutes hminutes⟩
  · have hlt : (getDateTime nTicks).nSeconds < 10 ^ 2 := by omega
    exact ⟨2, _, by decide, hlt, htwo _ hlt, fun _ _ _ => storeNumber_seconds hseconds⟩

/-- An item is a number, or the marker. -/
theorem item_cases {item : WChar} (hitem : item ∈ wide "YmdIMSp") :
    item ∈ wide "YmdIMS" ∧ isNumberItem item = true ∧ item ≠ 0x66 ∨ item = 0x70 := by
  have hitems : ∀ item ∈ wide "YmdIMSp",
      item ∈ wide "YmdIMS" ∧ isNumberItem item = true ∧ item ≠ 0x66 ∨ item = 0x70 :=
    List.all_iff_forall_prop.mp (by decide)
  exact hitems item hitem

/-- **An item is read** where a separator or the end follows. -/
theorem scanFrom_part (h : nTicks ≤ xMaxValueTicks) (hyear : 100 ≤ (getDateTime nTicks).nYear)
    {item : WChar} (hitem : item ∈ wide "YmdIMSp") {rest : List WChar} (hrest : EndsItem rest)
    (szFormatW : List WChar) :
    scanFrom env nTwoDigitsYearRule szOrigDateW
        ⟨0x25 :: item :: szFormatW, itemText nTicks nGmtOffset false item ++ rest, none, v⟩ =
      scanFrom env nTwoDigitsYearRule szOrigDateW
        ⟨szFormatW, rest, none, readPart (getDateTime nTicks) v item⟩ := by
  rcases item_cases hitem with ⟨hdigits, hnumber, hf⟩ | rfl
  · obtain ⟨k, n, ⟨hk, hmax⟩, hn, htext, hstore⟩ := exists_digits h hyear hdigits
    rw [htext]
    exact scanFrom_number hnumber hf hk hmax hrest.1 hn (hstore _ _ _) szFormatW
  · have hk : (if (getDateTime nTicks).nHours < 12 then 0 else 1) < 2 := by
      split <;> decide
    have hne : itemText nTicks nGmtOffset false 0x70 ++ rest ≠ [] := by
      rw [itemText_amPm]
      apply List.append_ne_nil_of_left_ne_nil
      split <;> decide
    refine scanFrom_item (by decide) hne ?_
    rw [itemText_amPm]
    exact readItem_amPm hk hrest

theorem endsItem_joinParts (text : WChar → List WChar) {parts : List (List WChar × WChar)}
    {behind : List WChar} (hseps : ∀ part ∈ parts, IsSeparator part.1)
    (hne : ∀ part ∈ parts, part.1 ≠ []) (hbehind : IsSeparator behind) :
    EndsItem (joinParts text parts behind) := by
  have hsep : ∀ {sep rest}, IsSeparator sep → sep ≠ [] → EndsItem (sep ++ rest) := by
    intro sep rest hsep hne
    cases sep with
    | nil => exact absurd rfl hne
    | cons ch sep =>
      obtain ⟨-, -, -, -, -, hdigit, hletter⟩ := isSeparator_chars (hsep ch List.mem_cons_self)
      exact ⟨hdigit, hletter⟩
  cases parts with
  | nil =>
    by_cases hnil : behind = []
    · subst hnil
      exact ⟨rfl, rfl⟩
    · rw [← List.append_nil (joinParts _ _ _)]
      exact hsep hbehind hnil
  | cons part parts =>
    rw [joinParts_cons]
    exact hsep (hseps part List.mem_cons_self) (hne part List.mem_cons_self)

/-- The text of an item does not begin with a blank. -/
theorem isBlankW_itemText (h : nTicks ≤ xMaxValueTicks)
    (hyear : 100 ≤ (getDateTime nTicks).nYear) {item : WChar} (hitem : item ∈ wide "YmdIMSp")
    (rest : List WChar) :
    isBlankW (charAt (itemText nTicks nGmtOffset false item ++ rest) 0) = false := by
  rcases item_cases hitem with ⟨hdigits, -, -⟩ | rfl
  · obtain ⟨k, n, ⟨hk, -⟩, -, htext, -⟩ := @exists_digits nTicks nGmtOffset h hyear item hdigits
    rw [htext]
    exact isBlankW_charAt_fixedDigits hk n rest
  · rw [itemText_amPm]
    split <;> rfl

/-- **The items are read one after the other.** -/
theorem scanFrom_joinParts (h : nTicks ≤ xMaxValueTicks)
    (hyear : 100 ≤ (getDateTime nTicks).nYear) {parts : List (List WChar × WChar)}
    {behind : List WChar} (hitems : ∀ part ∈ parts, part.2 ∈ wide "YmdIMSp")
    (hseps : ∀ part ∈ parts, IsSeparator part.1) (hne : ∀ part ∈ parts.tail, part.1 ≠ [])
    (hbehind : IsSeparator behind) :
    scanFrom env nTwoDigitsYearRule szOrigDateW
        ⟨joinParts (fun item => [0x25, item]) parts behind,
          joinParts (itemText nTicks nGmtOffset false) parts behind, none, v⟩ =
      .ok ((parts.map Prod.snd).foldl (readPart (getDateTime nTicks)) v) := by
  have hbackslash : ∀ {sep}, IsSeparator sep → (0x5C : WChar) ∉ sep := by
    intro sep hsep hmem
    exact absurd (hsep _ hmem) (by decide)
  induction parts generalizing v with
  | nil =>
    have hread := @scanFrom_separator env nTwoDigitsYearRule szOrigDateW v [] [] (by decide)
      (by decide) behind (hbackslash hbehind)
    rw [separatorFormat_eq hbehind, scanFrom_nil, List.append_nil] at hread
    exact hread
  | cons part parts ih =>
    obtain ⟨hitem, hitems⟩ := List.forall_mem_cons.mp hitems
    obtain ⟨hsep, hseps⟩ := List.forall_mem_cons.mp hseps
    have hends := endsItem_joinParts (itemText nTicks nGmtOffset false) hseps hne hbehind
    have hread := @scanFrom_separator env nTwoDigitsYearRule szOrigDateW v
      (0x25 :: part.2 :: joinParts (fun item => [0x25, item]) parts behind)
      (itemText nTicks nGmtOffset false part.2 ++
        joinParts (itemText nTicks nGmtOffset false) parts behind)
      rfl (isBlankW_itemText h hyear hitem _) part.1 (hbackslash hsep)
    rw [separatorFormat_eq hsep, scanFrom_part h hyear hitem hends,
      ih hitems hseps fun part hpart => hne part (List.mem_of_mem_tail hpart)] at hread
    rw [joinParts_cons, joinParts_cons]
    exact hread

end Reading

/-! ### What is stored -/

/-- What one item of a list writes, and no other one, is what it holds in the end. -/
theorem foldl_eq_of_mem {σ β ν : Type*} {step : σ → β → σ} {r : σ → ν} {b : β} {x : ν}
    (hb : ∀ s, r (step s b) = x) (hne : ∀ s c, c ≠ b → r (step s c) = r s)
    {l : List β} {s : σ} (h : b ∈ l ∨ r s = x) : r (l.foldl step s) = x := by
  induction l generalizing s with
  | nil => exact h.resolve_left List.not_mem_nil
  | cons c l ih =>
    rw [List.foldl_cons]
    by_cases hc : c = b
    · exact ih (.inr (hc ▸ hb s))
    · refine ih (h.imp (fun hmem => ?_) fun hs => (hne s c hc).trans hs)
      exact (List.mem_cons.mp hmem).resolve_left (Ne.symm hc)

/-- The variables behind all items. -/
structure ReadTwelveHour (f : DateFields) (v : DateValues) : Prop where
  year : v.nYear = f.nYear
  month : v.nMonth = f.nMonth
  day : v.nDay = f.nDay
  hours : v.nHours = twelveHour f.nHours - 1
  minutes : v.nMinutes = f.nMinutes
  seconds : v.nSeconds = f.nSeconds
  milliSeconds : v.nMilliSeconds = 0
  hourFlag : v.nHourFlag = 2 → 12 ≤ f.nHours

/-- **Every item leaves what it stands for**, in any order. -/
theorem readTwelveHour (f : DateFields) (i : Nat) {items : List WChar}
    (hitems : items.Perm (wide "YmdIMSp")) :
    ReadTwelveHour f (items.foldl (readPart f) { i := i }) := by
  have hmem : ∀ item ∈ wide "YmdIMSp", item ∈ items := fun item h => hitems.symm.subset h
  have hne : ∀ {c b : WChar}, c ≠ b → ¬ (c == b) = true := fun hc heq => hc (beq_iff_eq.mp heq)
  constructor
  case year =>
    exact foldl_eq_of_mem (b := 0x59) (r := DateValues.nYear) (fun s => rfl)
      (fun s c hc => if_neg (hne hc)) (.inl (hmem _ (by decide)))
  case month =>
    exact foldl_eq_of_mem (b := 0x6D) (r := DateValues.nMonth) (fun s => rfl)
      (fun s c hc => if_neg (hne hc)) (.inl (hmem _ (by decide)))
  case day =>
    exact foldl_eq_of_mem (b := 0x64) (r := DateValues.nDay) (fun s => rfl)
      (fun s c hc => if_neg (hne hc)) (.inl (hmem _ (by decide)))
  case hours =>
    exact foldl_eq_of_mem (b := 0x49) (r := DateValues.nHours) (fun s => rfl)
      (fun s c hc => if_neg (hne hc)) (.inl (hmem _ (by decide)))
  case minutes =>
    exact foldl_eq_of_mem (b := 0x4D) (r := DateValues.nMinutes) (fun s => rfl)
      (fun s c hc => if_neg (hne hc)) (.inl (hmem _ (by decide)))
  case seconds =>
    exact foldl_eq_of_mem (b := 0x53) (r := DateValues.nSeconds) (fun s => rfl)
      (fun s c hc => if_neg (hne hc)) (.inl (hmem _ (by decide)))
  case milliSeconds =>
    refine List.foldlRecOn (b := { i := i }) items (readPart f)
      (motive := fun v => v.nMilliSeconds = 0) rfl ?_
    intro v hv item _
    exact hv
  case hourFlag =>
    refine List.foldlRecOn (b := { i := i }) items (readPart f)
      (motive := fun v => v.nHourFlag = 2 → 12 ≤ f.nHours) (fun h => nomatch h) ?_
    intro v hv item _ hflag
    rw [readPart] at hflag
    dsimp only at hflag
    split at hflag
    · cases hflag
    split at hflag
    · split at hflag
      · cases hflag
      · omega
    · exact hv hflag

/-- The hour that is stored. -/
def storedHour (nHours : Nat) (nHourFlag : Int) : Nat :=
  if nHourFlag = 2 then twelveHour nHours - 1 + 12 else twelveHour nHours - 1

/-- **The hour that is stored is another one.** -/
theorem storedHour_ne {nHours : Nat} (h : nHours ≤ 23) {nHourFlag : Int}
    (hflag : nHourFlag = 2 → 12 ≤ nHours) :
    storedHour nHours nHourFlag ≠ nHours ∧ storedHour nHours nHourFlag ≤ 23 := by
  rw [storedHour, twelveHour]
  split_ifs with h2 hzero hzero
  · have hge := hflag h2
    rw [beq_iff_eq] at hzero
    omega
  · have hge := hflag h2
    rw [beq_iff_eq] at hzero
    omega
  · rw [beq_iff_eq] at hzero
    omega
  · rw [beq_iff_eq] at hzero
    omega

/-- The date and the time of day that are stored. -/
def storedFields (f : DateFields) (nHourFlag : Int) : DateFields :=
  { f with nHours := storedHour f.nHours nHourFlag, nMilliSeconds := 0 }

section Result

variable {env : DateEnvironment} {cDt x : CDateTime}

theorem joinParts_ne_zero {text : WChar → List WChar} {parts : List (List WChar × WChar)}
    {behind : List WChar} (htext : ∀ part ∈ parts, ∀ ch ∈ text part.2, ch ≠ 0)
    (hseps : ∀ part ∈ parts, IsSeparator part.1) (hbehind : IsSeparator behind) :
    ∀ ch ∈ joinParts text parts behind, ch ≠ 0 := by
  have hsep : ∀ {sep}, IsSeparator sep → ∀ ch ∈ sep, ch ≠ 0 := fun hsep ch hch =>
    (isSeparator_chars (hsep ch hch)).2.2.2.2.1
  intro ch hch
  rw [joinParts, List.mem_append, List.mem_flatMap] at hch
  rcases hch with ⟨part, hpart, hch⟩ | hch
  · rw [List.mem_append] at hch
    exact hch.elim (hsep (hseps part hpart) ch) (htext part hpart ch)
  · exact hsep hbehind ch hch

theorem itemText_ne_zero (hx : x.cTicks ≤ xMaxValueTicks)
    (hyear : 100 ≤ (getDateTime x.cTicks).nYear) {item : WChar} (hitem : item ∈ wide "YmdIMSp") :
    ∀ ch ∈ itemText x.cTicks x.nGmtOffset false item, ch ≠ 0 := by
  rcases item_cases hitem with ⟨hdigits, -, -⟩ | rfl
  · obtain ⟨k, n, -, -, htext, -⟩ := exists_digits hx hyear hdigits
    rw [htext]
    rintro ch hch rfl
    exact absurd (fixedDigits_digits k n 0 hch) (by decide)
  · rw [itemText_amPm]
    split <;> exact List.all_iff_forall_prop.mp (by decide)

theorem itemText_ne_nil (hx : x.cTicks ≤ xMaxValueTicks)
    (hyear : 100 ≤ (getDateTime x.cTicks).nYear) {item : WChar} (hitem : item ∈ wide "YmdIMSp") :
    itemText x.cTicks x.nGmtOffset false item ≠ [] := by
  rcases item_cases hitem with ⟨hdigits, -, -⟩ | rfl
  · obtain ⟨k, n, ⟨hk, -⟩, -, htext, -⟩ := @exists_digits _ x.nGmtOffset hx hyear item hdigits
    rw [htext]
    apply List.ne_nil_of_length_pos
    rwa [length_fixedDigits]
  · rw [itemText_amPm]
    split <;> decide

/-- **What the text of a date is read as.** -/
theorem setFromStringW_joinParts (hx : x.cTicks ≤ xMaxValueTicks)
    (hyear : 100 ≤ (getDateTime x.cTicks).nYear) (format : TwelveHourFormat) :
    ∃ szDateW v, formatFrom x.cTicks x.nGmtOffset format.szFormatW.length format.szFormatW =
        .ok szDateW ∧
      setFromStringW env cDt szDateW format.szFormatW 0 = storeValues cDt v ∧
      ReadTwelveHour (getDateTime x.cTicks) v := by
  have hitems : ∀ part ∈ format.parts, part.2 ∈ wide "YmdIMSp" := fun part hpart =>
    format.items.subset (List.mem_map_of_mem hpart)
  have hletters : ∀ item ∈ wide "YmdIMSp", ∀ ch ∈ [0x25, item], ch ≠ 0 := by
    have hall : ∀ item ∈ wide "YmdIMSp", item ≠ 0 := List.all_iff_forall_prop.mp (by decide)
    intro item hitem
    exact List.forall_mem_cons.mpr ⟨by decide, List.forall_mem_singleton.mpr (hall item hitem)⟩
  have hzero := joinParts_ne_zero (fun part hpart => itemText_ne_zero hx hyear (hitems part hpart))
    format.separators format.separatorBehind
  have hformatZero := @joinParts_ne_zero (fun item => [0x25, item]) format.parts format.behind
    (fun part hpart => hletters _ (hitems part hpart)) format.separators format.separatorBehind
  have hne : joinParts (itemText x.cTicks x.nGmtOffset false) format.parts format.behind ≠ [] := by
    obtain ⟨part, hpart, -⟩ : ∃ part ∈ format.parts, part.2 = 0x59 :=
      List.mem_map.mp (format.items.symm.subset (by decide))
    obtain ⟨ch, hch⟩ := List.exists_mem_of_ne_nil _ (itemText_ne_nil hx hyear (hitems part hpart))
    refine List.ne_nil_of_mem (a := ch) (List.mem_append_left _ ?_)
    exact List.mem_flatMap.mpr ⟨part, hpart, List.mem_append_right _ hch⟩
  refine ⟨_, _, formatFrom_joinParts hitems format.separators format.separatorBehind le_rfl, ?_,
    readTwelveHour (getDateTime x.cTicks) env.i format.items⟩
  rw [TwelveHourFormat.szFormatW, setFromStringW_eq hzero hne hformatZero,
    scanFrom_joinParts hx hyear hitems format.separators format.separated format.separatorBehind]

theorem storeValues_readTwelveHour {f : DateFields} (hf : f.Valid) {v : DateValues}
    (hv : ReadTwelveHour f v) : ∃ nGmtOffset, storeValues cDt v =
      (.sOk, ⟨(storedFields f v.nHourFlag).ticks, nGmtOffset⟩) := by
  obtain ⟨hclock, hclock12⟩ := twelveHour_bounds f.nHours
  obtain ⟨-, hle⟩ := storedHour_ne hf.hours hv.hourFlag
  have hhours := hv.hours
  refine ⟨_, @storeValues_of_hours v (storedFields f v.nHourFlag) hv.year hv.month hv.day ?_
    hv.minutes hv.seconds hv.milliSeconds
    ⟨hf.date, hle, hf.minutes, hf.seconds, Nat.zero_le _⟩ cDt⟩
  change _ = ((storedHour f.nHours v.nHourFlag : Nat) : Int)
  rw [storedHour]
  by_cases hflag : v.nHourFlag = 2
  · rw [if_pos ⟨hflag, by omega⟩, if_pos hflag]
    omega
  · rw [if_neg fun h => hflag h.1, if_neg hflag]
    omega

/-- The second of a date tells its hour. -/
theorem hours_eq_of_seconds {f : DateFields} (hf : f.nMilliSeconds ≤ 999) {nHourFlag : Int}
    (h : (storedFields f nHourFlag).ticks / ticksPerSecond = f.ticks / ticksPerSecond) :
    storedHour f.nHours nHourFlag = f.nHours := by
  rw [DateFields.ticks, DateFields.ticks, storedFields, timeTicks, timeTicks, ticksPerSecond,
    ticksPerDay] at h
  dsimp only at h
  omega

end Result

/-- **A date with a twelve-hour clock is never read back**: the hour is another one. -/
theorem not_roundTrips (env : DateEnvironment) (cDt x : CDateTime)
    (hx : x.cTicks ≤ xMaxValueTicks) (hyear : 100 ≤ (getDateTime x.cTicks).nYear)
    (format : TwelveHourFormat) : ¬ RoundTrips env cDt x format.szFormatW := by
  rintro ⟨szDateW, hformat, -, hticks⟩
  obtain ⟨szDateW', v, hformat', hread, hv⟩ := @setFromStringW_joinParts env cDt x hx hyear format
  have hvalid := valid_getDateTime hx
  obtain ⟨nGmtOffset, hstore⟩ := @storeValues_readTwelveHour cDt _ hvalid v hv
  obtain rfl := Except.ok.inj (hformat.symm.trans hformat')
  rw [hread, hstore] at hticks
  refine (storedHour_ne hvalid.hours hv.hourFlag).1 (hours_eq_of_seconds hvalid.milliSeconds ?_)
  rw [hticks, ticks_getDateTime hx, ticksPerSecond, ticksPerMillisecond]
  omega

/-- The items from the year to the second, with the marker in front of the hour. -/
def markerFirst : TwelveHourFormat where
  parts := [([], 0x59), (wide " ", 0x6D), (wide " ", 0x64), (wide ", ", 0x70), (wide " ", 0x49),
    (wide " ", 0x4D), (wide " ", 0x53)]
  behind := []
  items := by decide
  separators := by
    have hall : ∀ part ∈ [([], (0x59 : WChar)), (wide " ", 0x6D), (wide " ", 0x64),
        (wide ", ", 0x70), (wide " ", 0x49), (wide " ", 0x4D), (wide " ", 0x53)],
        part.1.all (fun ch => decide (ch ∈ wide " \t,")) = true := by decide
    exact fun part hpart => List.all_iff_forall_prop.mp (hall part hpart)
  separated := by decide
  separatorBehind := nofun

/-- Noon on January 1st 2000, with the marker in front of the hour. -/
theorem not_roundTrips_noon : ¬ RoundTrips ⟨none, ⟨2000, 1, 1, 0, 0, 0, 0⟩, 0⟩ .clear
    ⟨630822816000000000 + 432000000000, 0⟩ markerFirst.szFormatW :=
  not_roundTrips _ _ _ (by decide) (by decide) markerFirst

/-- One hour and a second past noon on the same day, with the marker at the end. -/
theorem not_roundTrips_afternoon : ¬ RoundTrips ⟨none, ⟨2000, 1, 1, 0, 0, 0, 0⟩, 0⟩ .clear
    ⟨630822816000000000 + 468010000000, 0⟩ (wide "%Y %m %d %I %M %S %p") := by
  rintro ⟨szDateW, hformat, -, hticks⟩
  have hwritten : formatFrom (630822816000000000 + 468010000000) 0 20
      (wide "%Y %m %d %I %M %S %p") = .ok (wide "2000 01 01 01 00 01 PM") := by
    decide
  obtain rfl := Except.ok.inj (hformat.symm.trans hwritten)
  revert hticks
  decide

end MxLib.DateTime
