import MxLib.Http.Multipart

/-!
# The buffer of the multipart parser

`aTempBuf` is the write buffer of a file part.  `AccumulateData` fills it for a
plain field as well, where nothing empties it: it is flushed on the file path
only, and its count goes back to zero when the next part begins.

In a reachable parser the count of a plain field is therefore the length of the
field so far (`BufferInv`), and a turn writes outside the buffer exactly when it
would make the field longer than the buffer (`charTurn_spec`).  A file part never
does.  `parseCalls_safe_iff` carries this over any number of calls of `Parse`.
-/

namespace MxLib.Http.Multipart

open MxLib.Library

/-- The data of a part is being read. -/
def EState.inData : EState → Bool
  | .data | .mayBeDataEnd | .mayBeDataEndAlt => true
  | _ => false

/-- The headers of a part are being read. -/
def EState.inHeaders : EState → Bool
  | .headerStart | .headerName | .headerValue | .headerValueEnding | .headersEnding => true
  | _ => false

/-- No text is kept: between the parts and after the headers. -/
def EState.noLine : EState → Bool
  | .boundary | .boundaryAfter | .boundaryAfter2 | .boundaryAfterEnd | .boundaryEndCheck
  | .boundaryEndCheckAfterDashes | .boundaryEndCheckAfterDashes2 | .headersEnding | .dataEnd => true
  | _ => false

section Buffer

variable {φ ω : Type} {e : Env φ ω}

/-- What holds of the buffer of every reachable parser. -/
structure BufferInv (s : Parser φ ω) : Prop where
  used_le : s.nUsedTempBuf ≤ tempBufSize
  field : s.nState.inData = true → s.cFileH = none → s.nUsedTempBuf = s.cStrCurrLineA.length
  file : s.nState.inData = true → s.cFileH ≠ none → s.nUsedTempBuf < tempBufSize
  headers : s.nState.inHeaders = true →
    s.nUsedTempBuf = 0 ∧ s.cFileH = none ∧ (0 : Byte) ∉ s.cStrCurrLineA
  noLine : s.nState.noLine = true → s.cStrCurrLineA = []

variable (e) in
/-- The bytes a character adds to the part being read: itself, or the bytes that
were held back because they could have been a boundary. -/
def appended (s : Parser φ ω) (ch : Byte) : List Byte :=
  match s.nState with
  | .data => if ch == chCR || ch == chLF then [] else [ch]
  | .mayBeDataEnd | .mayBeDataEndAlt => if isNotBoundary e s ch then heldBack e s else []
  | _ => []

variable (e) in
/-- A character that adds bytes to a plain field does not make the field longer
than the buffer. -/
def FieldFits (s : Parser φ ω) (ch : Byte) : Prop :=
  s.cFileH = none → appended e s ch ≠ [] →
    s.cStrCurrLineA.length + (appended e s ch).length ≤ tempBufSize

/-- What a turn does that fits, or does not. -/
def TurnSpec (fits : Prop) : CharTurn φ ω → Prop
  | .next _ s => fits ∧ BufferInv s
  | .again _ s => fits ∧ BufferInv s
  | .leave hRes s => fits ∧ hRes.failed = true ∧ s.nUsedTempBuf ≤ tempBufSize
  | .overrun _ => ¬ fits

/-! ### Accumulating -/

/-- A byte of a plain field is stored while the field is shorter than the buffer. -/
theorem accumulateData_field {s : Parser φ ω} (hf : s.cFileH = none)
    (hu : s.nUsedTempBuf = s.cStrCurrLineA.length) (hlt : s.cStrCurrLineA.length < tempBufSize)
    (ch : Byte) :
    ∃ s', accumulateData e s ch = .ok (.sOk, s') ∧ s'.nState = s.nState ∧ s'.cFileH = none ∧
      s'.nUsedTempBuf = s'.cStrCurrLineA.length ∧
      s'.cStrCurrLineA = s.cStrCurrLineA ++ [ch] := by
  have hmax := e.limits.le_maxFieldSize
  have hfield : ¬ s.cStrCurrLineA.length > e.limits.dwMaxFieldSize := by
    simp only [tempBufSize] at hlt
    omega
  refine ⟨{ s.put ch with cStrCurrLineA := s.cStrCurrLineA ++ [ch] }, ?_, rfl, hf, ?_, rfl⟩
  · rw [accumulateData, if_neg (by omega), hf]
    exact congrArg Except.ok (if_neg hfield)
  · simp [Parser.put, hu]

theorem accumulateData_full {s : Parser φ ω} (h : tempBufSize ≤ s.nUsedTempBuf) (ch : Byte) :
    accumulateData e s ch = .error s.nUsedTempBuf := by
  rw [accumulateData, if_pos h]

theorem writeBuffered_snd (s : Parser φ ω) (h : φ) :
    ∃ world, (writeBuffered e s h).2 = { s with world := world } := by
  rw [writeBuffered]
  split <;> exact ⟨_, rfl⟩

/-- The file takes the byte or fails; a full buffer is flushed. -/
theorem accumulateFile_spec {s : Parser φ ω} (hu : s.nUsedTempBuf ≤ tempBufSize) (h : φ) :
    (accumulateFile e s h).2.nState = s.nState ∧ (accumulateFile e s h).2.cFileH = s.cFileH ∧
      (accumulateFile e s h).2.nUsedTempBuf ≤ tempBufSize ∧
      ((accumulateFile e s h).1.failed = false →
        (accumulateFile e s h).2.nUsedTempBuf < tempBufSize) := by
  rw [accumulateFile]
  generalize hs1 : ({ s with nFileUploadSize := (s.nFileUploadSize + 1) % 2 ^ 64 } :
    Parser φ ω) = s1
  have hst : s1.nState = s.nState := by rw [← hs1]
  have hfile : s1.cFileH = s.cFileH := by rw [← hs1]
  have hused : s1.nUsedTempBuf = s.nUsedTempBuf := by rw [← hs1]
  rw [← hused] at hu
  obtain ⟨world, hw⟩ := writeBuffered_snd (e := e) s1 h
  dsimp only
  split
  · exact ⟨hst, hfile, hu, fun h =>
      absurd h (show ¬ HResult.failed .win32FileTooLarge = false by decide)⟩
  · split
    · rw [hw]
      split
      · exact ⟨hst, hfile, hu, fun h => by simp_all⟩
      · exact ⟨hst, hfile, Nat.zero_le _, fun _ => by simp [tempBufSize]⟩
    · exact ⟨hst, hfile, hu, fun _ => by simp only; omega⟩

/-- A byte of a file is always stored. -/
theorem accumulateData_file {s : Parser φ ω} {h : φ} (hf : s.cFileH = some h)
    (hu : s.nUsedTempBuf < tempBufSize) (ch : Byte) :
    ∃ hRes s', accumulateData e s ch = .ok (hRes, s') ∧ s'.nState = s.nState ∧
      s'.cFileH = some h ∧ s'.nUsedTempBuf ≤ tempBufSize ∧
      (hRes.failed = false → s'.nUsedTempBuf < tempBufSize) := by
  obtain ⟨hst, hfile, hle, hlt⟩ :=
    accumulateFile_spec (e := e) (s := s.put ch) (Nat.succ_le_of_lt hu) h
  refine ⟨_, _, ?_, hst, hfile.trans hf, hle, hlt⟩
  rw [accumulateData, if_neg (by omega), hf]

theorem accumulateAll_cons_error {s : Parser φ ω} {ch : Byte} {nIndex : Nat}
    (h : accumulateData e s ch = .error nIndex) (hRes : HResult) (rest : List Byte) :
    accumulateAll e hRes s (ch :: rest) = .error nIndex := by
  rw [accumulateAll, h]

theorem accumulateAll_cons_ok {s s' : Parser φ ω} {ch : Byte} {hRes' : HResult}
    (h : accumulateData e s ch = .ok (hRes', s')) (hRes : HResult) (rest : List Byte) :
    accumulateAll e hRes s (ch :: rest) =
      if hRes'.failed then .ok (hRes', s') else accumulateAll e hRes' s' rest := by
  rw [accumulateAll, h]

/-- Bytes of a plain field that fit are all stored. -/
theorem accumulateAll_field (l : List Byte) : ∀ {s : Parser φ ω} (hRes : HResult),
    s.cFileH = none → s.nUsedTempBuf = s.cStrCurrLineA.length →
    s.cStrCurrLineA.length + l.length ≤ tempBufSize →
    ∃ hRes' s', accumulateAll e hRes s l = .ok (hRes', s') ∧ s'.cFileH = none ∧
      s'.nUsedTempBuf = s'.cStrCurrLineA.length ∧ s'.nUsedTempBuf ≤ tempBufSize := by
  induction l with
  | nil =>
    intro s hRes hf hu hle
    exact ⟨hRes, s, rfl, hf, hu, by simpa [hu] using hle⟩
  | cons ch rest ih =>
    intro s hRes hf hu hle
    rw [List.length_cons] at hle
    obtain ⟨s', hs', -, hf', hu', hline⟩ :=
      accumulateData_field (e := e) hf hu (by omega) ch
    rw [accumulateAll_cons_ok hs', if_neg (by decide)]
    refine ih .sOk hf' hu' ?_
    rw [hline, List.length_append, List.length_singleton]
    omega

/-- **Bytes of a plain field that do not fit end with a write outside the buffer.** -/
theorem accumulateAll_field_overrun (l : List Byte) : ∀ {s : Parser φ ω} (hRes : HResult),
    s.cFileH = none → s.nUsedTempBuf = s.cStrCurrLineA.length → s.nUsedTempBuf ≤ tempBufSize →
    tempBufSize < s.cStrCurrLineA.length + l.length →
    accumulateAll e hRes s l = .error tempBufSize := by
  induction l with
  | nil =>
    intro s hRes hf hu hle hlt
    rw [List.length_nil] at hlt
    omega
  | cons ch rest ih =>
    intro s hRes hf hu hle hlt
    rw [List.length_cons] at hlt
    by_cases hfull : s.nUsedTempBuf = tempBufSize
    · rw [accumulateAll_cons_error (accumulateData_full (by omega) ch), hfull]
    · obtain ⟨s', hs', -, hf', hu', hline⟩ :=
        accumulateData_field (e := e) hf hu (by omega) ch
      have hlen : s'.cStrCurrLineA.length = s.cStrCurrLineA.length + 1 := by simp [hline]
      rw [accumulateAll_cons_ok hs', if_neg (by decide)]
      exact ih .sOk hf' hu' (by omega) (by omega)

/-- Bytes of a file are stored or the file fails, inside the buffer. -/
theorem accumulateAll_file (l : List Byte) : ∀ {s : Parser φ ω} {h : φ} (hRes : HResult),
    s.cFileH = some h → s.nUsedTempBuf < tempBufSize →
    ∃ hRes' s', accumulateAll e hRes s l = .ok (hRes', s') ∧ s'.cFileH = some h ∧
      s'.nUsedTempBuf ≤ tempBufSize ∧ (hRes'.failed = false → s'.nUsedTempBuf < tempBufSize) := by
  induction l with
  | nil =>
    intro s h hRes hf hu
    exact ⟨hRes, s, rfl, hf, hu.le, fun _ => hu⟩
  | cons ch rest ih =>
    intro s h hRes hf hu
    obtain ⟨hRes', s', hs', -, hf', hle, hlt⟩ := accumulateData_file (e := e) hf hu ch
    rw [accumulateAll_cons_ok hs']
    cases hfail : hRes'.failed with
    | true => exact ⟨hRes', s', by simp, hf', hle, hlt⟩
    | false => simpa using ih hRes' hf' (hlt hfail)

/-! ### One turn -/

theorem BufferInv.of_outside {s : Parser φ ω} (hu : s.nUsedTempBuf ≤ tempBufSize)
    (hl : s.cStrCurrLineA = []) (hd : s.nState.inData = false) (hh : s.nState.inHeaders = false) :
    BufferInv s :=
  ⟨hu, fun h => absurd h (by simp [hd]), fun h => absurd h (by simp [hd]),
    fun h => absurd h (by simp [hh]), fun _ => hl⟩

theorem BufferInv.of_headers {s : Parser φ ω} (hu : s.nUsedTempBuf = 0) (hf : s.cFileH = none)
    (hz : (0 : Byte) ∉ s.cStrCurrLineA) (hh : s.nState.inHeaders = true)
    (hl : s.nState.noLine = true → s.cStrCurrLineA = []) : BufferInv s := by
  have hd : s.nState.inData = false := by
    revert hh
    cases s.nState <;> decide
  exact ⟨by omega, fun h => absurd h (by simp [hd]), fun h => absurd h (by simp [hd]),
    fun _ => ⟨hu, hf, hz⟩, hl⟩

theorem BufferInv.of_data {s : Parser φ ω} (hd : s.nState.inData = true)
    (hle : s.nUsedTempBuf ≤ tempBufSize)
    (hfield : s.cFileH = none → s.nUsedTempBuf = s.cStrCurrLineA.length)
    (hfile : s.cFileH ≠ none → s.nUsedTempBuf < tempBufSize) : BufferInv s := by
  have hh : s.nState.inHeaders = false ∧ s.nState.noLine = false := by
    revert hd
    cases s.nState <;> decide
  exact ⟨hle, fun _ => hfield, fun _ => hfile, fun h => absurd h (by simp [hh]),
    fun h => absurd h (by simp [hh])⟩

/-- A parser that failed keeps the count in bounds and nothing else. -/
theorem BufferInv.of_error {s : Parser φ ω} (hu : s.nUsedTempBuf ≤ tempBufSize)
    (he : s.nState = .error) : BufferInv s := by
  refine ⟨hu, ?_, ?_, ?_, ?_⟩ <;> intro h <;> rw [he] at h <;> exact absurd h (by decide)

theorem bufferInv_create (world : ω) : BufferInv (Parser.create world : Parser φ ω) :=
  .of_outside (Nat.zero_le _) rfl rfl rfl

theorem appended_eq_nil {s : Parser φ ω} (hd : s.nState.inData = false) (ch : Byte) :
    appended e s ch = [] := by
  rw [appended]
  revert hd
  cases s.nState <;> simp [EState.inData]

/-- A turn that adds nothing to a part fits. -/
theorem fieldFits_of_not_inData {s : Parser φ ω} (hd : s.nState.inData = false) (ch : Byte) :
    FieldFits e s ch :=
  fun _ h => absurd (appended_eq_nil hd ch) h

theorem turnSpec_expect {fits : Prop} (hfits : fits) {s : Parser φ ω} {nState : EState}
    (hu : s.nUsedTempBuf ≤ tempBufSize) (h : BufferInv { s with nState := nState }) (ok : Bool)
    (hRes : HResult) : TurnSpec fits (expect ok hRes s nState) := by
  rw [expect]
  split
  · exact ⟨hfits, h⟩
  · exact ⟨hfits, rfl, hu⟩

theorem boundaryTurn_spec {s : Parser φ ω} (hs : BufferInv s) (hst : s.nState = .boundary)
    {fits : Prop} (hfits : fits) (hRes : HResult) (ch : Byte) :
    TurnSpec fits (boundaryTurn e hRes s ch) := by
  have hl : s.cStrCurrLineA = [] := hs.noLine (by rw [hst]; rfl)
  have hpos : BufferInv { s with nBoundaryPos := s.nBoundaryPos + 1 } :=
    .of_outside hs.used_le hl (by rw [hst]; rfl) (by rw [hst]; rfl)
  rw [boundaryTurn]
  split
  · exact ⟨hfits, hs⟩
  · split
    · split
      · exact ⟨hfits, rfl, hs.used_le⟩
      · exact ⟨hfits, hpos⟩
    · split
      · exact ⟨hfits, rfl, hs.used_le⟩
      · split
        · exact ⟨hfits, .of_outside hs.used_le hl rfl rfl⟩
        · exact ⟨hfits, hpos⟩

theorem blanksTurn_spec {s : Parser φ ω} (hs : BufferInv s) {nState : EState}
    (h : BufferInv { s with nState := nState }) {fits : Prop} (hfits : fits) (hRes : HResult)
    (ch : Byte) : TurnSpec fits (blanksTurn nState hRes s ch) := by
  rw [blanksTurn]
  split
  · exact ⟨hfits, hs⟩
  · exact turnSpec_expect hfits hs.used_le h _ _

/-! ### Headers -/

theorem headerNameTurn_spec {s : Parser φ ω} (hs : BufferInv s) (hst : s.nState = .headerName)
    {fits : Prop} (hfits : fits) (hRes : HResult) (ch : Byte) :
    TurnSpec fits (headerNameTurn hRes s ch) := by
  obtain ⟨hu, hf, hz⟩ := hs.headers (by rw [hst]; rfl)
  rw [headerNameTurn]
  split
  · exact ⟨hfits, rfl, hs.used_le⟩
  dsimp only
  split
  · split
    · exact ⟨hfits, rfl, hs.used_le⟩
    · refine ⟨hfits, .of_headers hu hf ?_ rfl (fun h => by cases h)⟩
      simpa using ⟨hz, by decide⟩
  · split
    · exact ⟨hfits, rfl, hs.used_le⟩
    · next hname =>
      split
      · exact ⟨hfits, rfl, hs.used_le⟩
      · have hl : EState.noLine s.nState = false := by rw [hst]; rfl
        have hne := isValidNameChar_ne_zero (by simpa using hname : isValidNameChar ch = true)
        exact ⟨hfits, .of_headers hu hf (by simpa using ⟨hz, hne.symm⟩) (by rw [hst]; rfl)
          (fun h => absurd h (by simp [hl]))⟩

/-- A header line is dropped when it is parsed, and nothing is kept of it but the
block. -/
theorem endHeaderLine_spec {s : Parser φ ω} (hz : (0 : Byte) ∉ s.cStrCurrLineA) (hRes : HResult) :
    ∃ line blk, (endHeaderLine e hRes s).2 =
        { s with sCurrentBlock := blk, cStrCurrLineA := line } ∧
      (line = [] ∨ (endHeaderLine e hRes s).1.failed = true) := by
  rw [endHeaderLine]
  split
  · next hempty => exact ⟨_, _, rfl, Or.inl (eq_nil_of_isEmptyStr hz hempty)⟩
  · dsimp only
    split
    · next hfail => exact ⟨_, _, rfl, Or.inr hfail⟩
    · exact ⟨_, _, rfl, Or.inl rfl⟩

theorem headerStartTurn_spec {s : Parser φ ω} (hs : BufferInv s) (hst : s.nState = .headerStart)
    {fits : Prop} (hfits : fits) (hRes : HResult) (ch : Byte) :
    TurnSpec fits (headerStartTurn e hRes s ch) := by
  obtain ⟨hu, hf, hz⟩ := hs.headers (by rw [hst]; rfl)
  obtain ⟨line, blk, hline, hend⟩ := endHeaderLine_spec (e := e) hz hRes
  rw [headerStartTurn]
  dsimp only
  split
  · rw [hline]
    split
    · next hfail => exact ⟨hfits, hfail, hs.used_le⟩
    · next hfail =>
      have hnil : line = [] := hend.resolve_right hfail
      exact ⟨hfits, .of_headers hu hf (by simp [hnil]) rfl (fun _ => hnil)⟩
  · split
    · split
      · exact ⟨hfits, rfl, hs.used_le⟩
      · exact ⟨hfits, .of_headers hu hf hz rfl (fun h => by cases h)⟩
    · rw [hline]
      split
      · next hfail => exact ⟨hfits, hfail, hs.used_le⟩
      · next hfail =>
        have hnil : line = [] := hend.resolve_right hfail
        refine headerNameTurn_spec ?_ rfl hfits _ ch
        exact .of_headers hu hf (by simp [hnil]) rfl (fun h => by cases h)

theorem headerValueTurn_spec {s : Parser φ ω} (hs : BufferInv s) (hst : s.nState = .headerValue)
    {fits : Prop} (hfits : fits) (hRes : HResult) (ch : Byte) :
    TurnSpec fits (headerValueTurn hRes s ch) := by
  obtain ⟨hu, hf, hz⟩ := hs.headers (by rw [hst]; rfl)
  rw [headerValueTurn]
  split
  · exact ⟨hfits, rfl, hs.used_le⟩
  dsimp only
  split
  · exact ⟨hfits, .of_headers hu hf hz rfl (fun h => by cases h)⟩
  · split
    · exact ⟨hfits, rfl, hs.used_le⟩
    · next hne =>
      split
      · exact ⟨hfits, rfl, hs.used_le⟩
      · have hl : EState.noLine s.nState = false := by rw [hst]; rfl
        have hne' : ch ≠ 0 := by simpa using hne
        exact ⟨hfits, .of_headers hu hf (by simpa using ⟨hz, hne'.symm⟩) (by rw [hst]; rfl)
          (fun h => absurd h (by simp [hl]))⟩

/-- Opening a file leaves the text and the count as they are. -/
theorem startFile_spec {s : Parser φ ω} (hRes : HResult) :
    (startFile e hRes s).2.cStrCurrLineA = s.cStrCurrLineA ∧
      (startFile e hRes s).2.nUsedTempBuf = s.nUsedTempBuf := by
  rw [startFile]
  dsimp only
  split
  · exact ⟨rfl, rfl⟩
  · cases e.cDownloadStartedCallback with
    | none => exact ⟨rfl, rfl⟩
    | some callback => dsimp only; split <;> exact ⟨rfl, rfl⟩

theorem headersEndingTurn_spec {s : Parser φ ω} (hs : BufferInv s)
    (hst : s.nState = .headersEnding) {fits : Prop} (hfits : fits) (hRes : HResult) (ch : Byte) :
    TurnSpec fits (headersEndingTurn e hRes s ch) := by
  obtain ⟨hu, hf, -⟩ := hs.headers (by rw [hst]; rfl)
  have hl : s.cStrCurrLineA = [] := hs.noLine (by rw [hst]; rfl)
  obtain ⟨hline, hused⟩ := startFile_spec (e := e) (s := s) hRes
  rw [hl] at hline
  rw [hu] at hused
  rw [headersEndingTurn]
  split
  · exact ⟨hfits, rfl, hs.used_le⟩
  split
  · exact ⟨hfits, rfl, hs.used_le⟩
  split
  · dsimp only
    split
    · next hfail => exact ⟨hfits, hfail, hused.trans_le (Nat.zero_le _)⟩
    · exact ⟨hfits, .of_data rfl (hused.trans_le (Nat.zero_le _))
        (fun _ => by simp [hused, hline]) (fun _ => by simp [hused, tempBufSize])⟩
  · exact ⟨hfits, .of_data rfl hs.used_le (fun _ => hu) (fun h => absurd hf h)⟩

/-! ### Data -/

theorem dataTurn_spec {s : Parser φ ω} (hs : BufferInv s) (hst : s.nState = .data)
    (hRes : HResult) (ch : Byte) : TurnSpec (FieldFits e s ch) (dataTurn e s hRes ch) := by
  have hd : s.nState.inData = true := by rw [hst]; rfl
  rw [dataTurn]
  by_cases hcr : ch = chCR
  · have happ : appended e s ch = [] := by simp [appended, hst, hcr]
    rw [if_pos (by simp [hcr])]
    exact ⟨fun _ h => absurd happ h, .of_data rfl hs.used_le (hs.field hd) (hs.file hd)⟩
  by_cases hlf : ch = chLF
  · have happ : appended e s ch = [] := by simp [appended, hst, hlf]
    rw [if_neg (by simp [hcr]), if_pos (by simp [hlf])]
    exact ⟨fun _ h => absurd happ h, .of_data rfl hs.used_le (hs.field hd) (hs.file hd)⟩
  have happ : appended e s ch = [ch] := by simp [appended, hst, hcr, hlf]
  rw [if_neg (by simp [hcr]), if_neg (by simp [hlf])]
  cases hf : s.cFileH with
  | none =>
    have hu := hs.field hd hf
    by_cases hlt : s.cStrCurrLineA.length < tempBufSize
    · obtain ⟨s', hs', hst', hf', hu', hline⟩ := accumulateData_field (e := e) hf hu hlt ch
      have hle : s'.nUsedTempBuf ≤ tempBufSize := by
        rw [hu', hline, List.length_append]
        exact hlt
      rw [hs']
      refine ⟨fun _ _ => by rw [happ]; exact hlt, ?_⟩
      exact .of_data (by rw [hst', hst]; rfl) hle (fun _ => hu') (fun h => absurd hf' h)
    · rw [accumulateData_full (by omega)]
      intro hfits
      have hfit := hfits hf (by simp [happ])
      rw [happ, List.length_singleton] at hfit
      omega
  | some h =>
    obtain ⟨hRes', s', hs', hst', hf', hle, hlt⟩ :=
      accumulateData_file (e := e) hf (hs.file hd (by simp [hf])) ch
    have hfits : FieldFits e s ch := fun h => by simp [hf] at h
    rw [hs']
    cases hfail : hRes'.failed with
    | true => simpa [hfail] using show TurnSpec _ (.leave hRes' s') from ⟨hfits, hfail, hle⟩
    | false =>
      simpa [hfail] using show TurnSpec _ (.next hRes' s') from
        ⟨hfits, .of_data (by rw [hst', hst]; rfl) hle (fun h => by simp [hf'] at h)
          (fun _ => hlt hfail)⟩

theorem addPart_spec {s : Parser φ ω} :
    (addPart e s).2.nState = s.nState ∧ (addPart e s).2.nUsedTempBuf = s.nUsedTempBuf := by
  rw [addPart]
  dsimp only
  cases hf : s.cFileH with
  | none =>
    dsimp only
    split <;> exact ⟨rfl, rfl⟩
  | some file =>
    obtain ⟨world, hw⟩ := writeBuffered_snd (e := e) s file
    dsimp only
    rw [hw]
    split
    · exact ⟨rfl, rfl⟩
    · split <;> exact ⟨rfl, rfl⟩

/-- The two states that hold back the start of a boundary. -/
theorem mayBeDataEndTurn_spec {s : Parser φ ω} (hs : BufferInv s)
    (hst : s.nState = .mayBeDataEnd ∨ s.nState = .mayBeDataEndAlt) (hRes : HResult) (ch : Byte) :
    TurnSpec (FieldFits e s ch) (mayBeDataEndTurn e hRes s ch) := by
  have hd : s.nState.inData = true := by rcases hst with hst | hst <;> rw [hst] <;> rfl
  have happ : appended e s ch = if isNotBoundary e s ch then heldBack e s else [] := by
    rcases hst with hst | hst <;> simp [appended, hst]
  rw [mayBeDataEndTurn]
  by_cases hb : isNotBoundary e s ch = true
  · rw [if_pos hb] at happ ⊢
    cases hf : s.cFileH with
    | none =>
      have hu := hs.field hd hf
      by_cases hle : s.cStrCurrLineA.length + (heldBack e s).length ≤ tempBufSize
      · obtain ⟨hRes', s', hs', hf', hu', hle'⟩ :=
          accumulateAll_field (e := e) (heldBack e s) hRes hf hu hle
        have hfits : FieldFits e s ch := fun _ _ => by rw [happ]; exact hle
        rw [hs']
        cases hfail : hRes'.failed with
        | true => simpa [hfail] using show TurnSpec _ (.leave hRes' s') from ⟨hfits, hfail, hle'⟩
        | false =>
          simpa [hfail] using show TurnSpec _ (.again hRes' { s' with nState := .data }) from
            ⟨hfits, .of_data rfl hle' (fun _ => hu') (fun h => absurd hf' h)⟩
      · rw [accumulateAll_field_overrun _ hRes hf hu hs.used_le (by omega)]
        intro hfits
        have hne : heldBack e s ≠ [] := by
          intro hnil
          rw [hnil, List.length_nil, ← hu] at hle
          exact hle hs.used_le
        have hfit := hfits hf (by rw [happ]; exact hne)
        rw [happ] at hfit
        exact hle hfit
    | some h =>
      obtain ⟨hRes', s', hs', hf', hle, hlt⟩ :=
        accumulateAll_file (e := e) (heldBack e s) hRes hf (hs.file hd (by simp [hf]))
      have hfits : FieldFits e s ch := fun h => by simp [hf] at h
      rw [hs']
      cases hfail : hRes'.failed with
      | true => simpa [hfail] using show TurnSpec _ (.leave hRes' s') from ⟨hfits, hfail, hle⟩
      | false =>
        simpa [hfail] using show TurnSpec _ (.again hRes' { s' with nState := .data }) from
          ⟨hfits, .of_data rfl hle (fun h => by simp [hf'] at h) (fun _ => hlt hfail)⟩
  · rw [if_neg hb] at happ ⊢
    have hfits : FieldFits e s ch := fun _ h => absurd happ h
    obtain ⟨-, hused⟩ := addPart_spec (e := e) (s := s)
    have hle := hused.trans_le hs.used_le
    split
    · dsimp only
      split
      · next hfail => exact ⟨hfits, hfail, hle⟩
      · exact ⟨hfits, .of_outside hle rfl rfl rfl⟩
    · exact ⟨hfits, .of_data hd hs.used_le (hs.field hd) (hs.file hd)⟩

theorem dataEndTurn_spec {s : Parser φ ω} (hs : BufferInv s) (hst : s.nState = .dataEnd)
    {fits : Prop} (hfits : fits) (hRes : HResult) (ch : Byte) :
    TurnSpec fits (dataEndTurn hRes s ch) := by
  have hl : s.cStrCurrLineA = [] := hs.noLine (by rw [hst]; rfl)
  rw [dataEndTurn]
  split
  · exact ⟨hfits, .of_outside hs.used_le hl rfl rfl⟩
  · split <;> exact ⟨hfits, .of_outside hs.used_le hl rfl rfl⟩

theorem boundaryAfterEndTurn_spec {s : Parser φ ω} (hs : BufferInv s)
    (hst : s.nState = .boundaryAfterEnd) {fits : Prop} (hfits : fits) (hRes : HResult)
    (ch : Byte) : TurnSpec fits (boundaryAfterEndTurn hRes s ch) := by
  have hl : s.cStrCurrLineA = [] := hs.noLine (by rw [hst]; rfl)
  rw [boundaryAfterEndTurn]
  split
  · exact ⟨hfits, rfl, hs.used_le⟩
  · exact ⟨hfits, .of_headers rfl rfl (by simp [hl]) rfl (fun h => by cases h)⟩

/-- **A turn keeps the invariant when what it adds fits, and writes outside the
buffer when it does not.** -/
theorem charTurn_spec {s : Parser φ ω} (hs : BufferInv s) (hRes : HResult) (ch : Byte) :
    TurnSpec (FieldFits e s ch) (charTurn e hRes s ch) := by
  have hfits := fun hd : s.nState.inData = false => fieldFits_of_not_inData (e := e) hd ch
  rw [charTurn]
  cases hst : s.nState with
  | boundary => exact boundaryTurn_spec hs hst (hfits (by rw [hst]; rfl)) hRes ch
  | boundaryAfter =>
    have hl : s.cStrCurrLineA = [] := hs.noLine (by rw [hst]; rfl)
    dsimp only
    split
    · exact ⟨hfits (by rw [hst]; rfl), .of_outside hs.used_le hl rfl rfl⟩
    · refine blanksTurn_spec ?_ ?_ (hfits (by rw [hst]; rfl)) hRes ch
      · exact .of_outside hs.used_le hl rfl rfl
      · exact .of_outside hs.used_le hl rfl rfl
  | boundaryAfter2 =>
    have hl : s.cStrCurrLineA = [] := hs.noLine (by rw [hst]; rfl)
    refine blanksTurn_spec hs ?_ (hfits (by rw [hst]; rfl)) hRes ch
    exact .of_outside hs.used_le hl rfl rfl
  | boundaryAfterEnd => exact boundaryAfterEndTurn_spec hs hst (hfits (by rw [hst]; rfl)) hRes ch
  | boundaryEndCheck =>
    have hl : s.cStrCurrLineA = [] := hs.noLine (by rw [hst]; rfl)
    refine turnSpec_expect (hfits (by rw [hst]; rfl)) hs.used_le ?_ _ hRes
    exact .of_outside hs.used_le hl rfl rfl
  | boundaryEndCheckAfterDashes =>
    have hl : s.cStrCurrLineA = [] := hs.noLine (by rw [hst]; rfl)
    refine blanksTurn_spec hs ?_ (hfits (by rw [hst]; rfl)) hRes ch
    exact .of_outside hs.used_le hl rfl rfl
  | boundaryEndCheckAfterDashes2 =>
    have hl : s.cStrCurrLineA = [] := hs.noLine (by rw [hst]; rfl)
    refine turnSpec_expect (hfits (by rw [hst]; rfl)) hs.used_le ?_ _ hRes
    exact .of_outside hs.used_le hl rfl rfl
  | headerStart => exact headerStartTurn_spec hs hst (hfits (by rw [hst]; rfl)) hRes ch
  | headerName => exact headerNameTurn_spec hs hst (hfits (by rw [hst]; rfl)) hRes ch
  | headerValue => exact headerValueTurn_spec hs hst (hfits (by rw [hst]; rfl)) hRes ch
  | headerValueEnding =>
    obtain ⟨hu, hf, hz⟩ := hs.headers (by rw [hst]; rfl)
    refine turnSpec_expect (hfits (by rw [hst]; rfl)) hs.used_le ?_ _ hRes
    exact .of_headers hu hf hz rfl (fun h => by cases h)
  | headersEnding => exact headersEndingTurn_spec hs hst (hfits (by rw [hst]; rfl)) hRes ch
  | data => exact dataTurn_spec hs hst hRes ch
  | dataEnd => exact dataEndTurn_spec hs hst (hfits (by rw [hst]; rfl)) hRes ch
  | mayBeDataEnd => exact mayBeDataEndTurn_spec hs (Or.inl hst) hRes ch
  | mayBeDataEndAlt => exact mayBeDataEndTurn_spec hs (Or.inr hst) hRes ch
  | done => exact ⟨hfits (by rw [hst]; rfl), hs⟩
  | error => exact ⟨hfits (by rw [hst]; rfl), hs⟩

/-! ### The loop ends -/

/-- A character is looked at again only from a state that may ask for it, in a
state that may not. -/
def PushesBack (nState : EState) : CharTurn φ ω → Prop
  | .again _ s => nState.mayPushBack = 1 ∧ s.nState.mayPushBack = 0
  | _ => True

theorem pushesBack_expect (st : EState) (ok : Bool) (hRes : HResult) (s : Parser φ ω)
    (nState : EState) : PushesBack st (expect ok hRes s nState) := by
  rw [expect]
  split <;> trivial

theorem pushesBack_blanksTurn (st nState : EState) (hRes : HResult) (s : Parser φ ω) (ch : Byte) :
    PushesBack st (blanksTurn nState hRes s ch) := by
  rw [blanksTurn]
  split
  · trivial
  · exact pushesBack_expect _ _ _ _ _

theorem pushesBack_headerNameTurn (st : EState) (hRes : HResult) (s : Parser φ ω) (ch : Byte) :
    PushesBack st (headerNameTurn hRes s ch) := by
  rw [headerNameTurn]
  dsimp only
  split_ifs <;> trivial

theorem charTurn_pushesBack (hRes : HResult) (s : Parser φ ω) (ch : Byte) :
    PushesBack s.nState (charTurn e hRes s ch) := by
  rw [charTurn]
  cases s.nState with
  | boundary => dsimp only; rw [boundaryTurn]; split_ifs <;> trivial
  | boundaryAfter =>
    dsimp only
    split
    · trivial
    · exact pushesBack_blanksTurn _ _ _ _ _
  | boundaryAfter2 => exact pushesBack_blanksTurn _ _ _ _ _
  | boundaryAfterEnd => dsimp only; rw [boundaryAfterEndTurn]; split_ifs <;> trivial
  | boundaryEndCheck => exact pushesBack_expect _ _ _ _ _
  | boundaryEndCheckAfterDashes => exact pushesBack_blanksTurn _ _ _ _ _
  | boundaryEndCheckAfterDashes2 => exact pushesBack_expect _ _ _ _ _
  | headerStart =>
    dsimp only
    rw [headerStartTurn]
    dsimp only
    split_ifs
    · trivial
    · trivial
    · trivial
    · exact ⟨rfl, rfl⟩
    · trivial
    · exact pushesBack_headerNameTurn _ _ _ _
  | headerName => exact pushesBack_headerNameTurn _ _ _ _
  | headerValue => dsimp only; rw [headerValueTurn]; dsimp only; split_ifs <;> trivial
  | headerValueEnding => exact pushesBack_expect _ _ _ _ _
  | headersEnding => dsimp only; rw [headersEndingTurn]; dsimp only; split_ifs <;> trivial
  | data =>
    dsimp only
    rw [dataTurn]
    split
    · trivial
    · split
      · trivial
      · split
        · trivial
        · split <;> trivial
  | dataEnd =>
    dsimp only
    rw [dataEndTurn]
    split_ifs
    · trivial
    · trivial
    · exact ⟨rfl, rfl⟩
  | mayBeDataEnd | mayBeDataEndAlt =>
    dsimp only
    rw [mayBeDataEndTurn]
    split
    · split
      · trivial
      · split
        · trivial
        · exact ⟨rfl, rfl⟩
    · dsimp only
      split_ifs <;> trivial
  | done => trivial
  | error => trivial

theorem mayPushBack_le (nState : EState) : nState.mayPushBack ≤ 1 := by
  cases nState <;> decide

/-- **Every turn of `Parse` drops the measure.** -/
theorem parseTurn_measure (c c' : Cursor φ ω) (h : parseTurn e c = .inl c') :
    c'.measure < c.measure := by
  obtain ⟨hRes, s, szDataA⟩ := c
  cases szDataA with
  | nil => simp [parseTurn] at h
  | cons ch rest =>
    have hback := charTurn_pushesBack (e := e) hRes s ch
    simp only [parseTurn] at h
    cases hturn : charTurn e hRes s ch with
    | next hRes' s' =>
      rw [hturn] at h
      obtain rfl := Sum.inl.inj h
      have hle := mayPushBack_le s'.nState
      simp only [Cursor.measure, List.length_cons]
      omega
    | again hRes' s' =>
      rw [hturn] at h hback
      obtain rfl := Sum.inl.inj h
      obtain ⟨hone, hzero⟩ := hback
      simp only [Cursor.measure]
      omega
    | leave hRes' s' => rw [hturn] at h; cases h
    | overrun nIndex => rw [hturn] at h; cases h

/-! ### Runs -/

variable (e) in
/-- The next character of a cursor, if there is one, fits. -/
def CursorFits (c : Cursor φ ω) : Prop :=
  ∀ ch rest, c.szDataA = ch :: rest → FieldFits e c.s ch

variable (e) in
/-- `c` is a turn of one of the calls of `Parse`, made one after the other from `s`. -/
inductive Visits : Parser φ ω → List (Option (List Byte)) → Cursor φ ω → Prop
  | turn {s : Parser φ ω} {szDataA : List Byte} {calls : List (Option (List Byte))}
      {c : Cursor φ ω} (hdone : s.nState ≠ .done) (herror : s.nState ≠ .error)
      (hreach : Loop.Reach (parseTurn e) ⟨.sOk, s, szDataA⟩ c) :
      Visits s (some szDataA :: calls) c
  | call {s s' : Parser φ ω} {lpData : Option (List Byte)} {hRes : HResult}
      {calls : List (Option (List Byte))} {c : Cursor φ ω}
      (hparse : parse e s lpData = .ok (hRes, s')) (hvisits : Visits s' calls c) :
      Visits s (lpData :: calls) c

/-- A turn that goes on fits, and keeps the invariant. -/
theorem parseTurn_inl {c c' : Cursor φ ω} (hc : BufferInv c.s) (h : parseTurn e c = .inl c') :
    CursorFits e c ∧ BufferInv c'.s := by
  obtain ⟨hRes, s, szDataA⟩ := c
  cases szDataA with
  | nil => simp [parseTurn] at h
  | cons ch rest =>
    have hspec := charTurn_spec (e := e) hc hRes ch
    have hfits : FieldFits e s ch → CursorFits e ⟨hRes, s, ch :: rest⟩ := by
      rintro hfits _ _ heq
      obtain ⟨rfl, -⟩ := List.cons.inj heq
      exact hfits
    simp only [parseTurn] at h
    cases hturn : charTurn e hRes s ch with
    | next hRes' s' =>
      rw [hturn] at h hspec
      obtain rfl := Sum.inl.inj h
      exact ⟨hfits hspec.1, hspec.2⟩
    | again hRes' s' =>
      rw [hturn] at h hspec
      obtain rfl := Sum.inl.inj h
      exact ⟨hfits hspec.1, hspec.2⟩
    | leave hRes' s' => rw [hturn] at h; cases h
    | overrun nIndex => rw [hturn] at h; cases h

/-- The turn that leaves the loop writes outside the buffer exactly when it does
not fit. -/
theorem parseTurn_inr {c : Cursor φ ω} {r : Except Nat (HResult × Parser φ ω)}
    (hc : BufferInv c.s) (h : parseTurn e c = .inr r) :
    (CursorFits e c → ∃ hRes s', r = .ok (hRes, s') ∧ BufferInv s') ∧
      (¬ CursorFits e c → ∃ nIndex, r = .error nIndex) := by
  obtain ⟨hRes, s, szDataA⟩ := c
  have hfinish : ∀ {hRes' : HResult} {s' : Parser φ ω}, s'.nUsedTempBuf ≤ tempBufSize →
      (hRes'.failed = false → BufferInv s') → BufferInv (finish hRes' s').2 := by
    intro hRes' s' hle hs'
    cases hfail : hRes'.failed with
    | true => simpa [finish, hfail] using BufferInv.of_error (s := { s' with nState := .error }) hle rfl
    | false => simpa [finish, hfail] using hs' hfail
  cases szDataA with
  | nil =>
    obtain rfl := Sum.inr.inj h
    exact ⟨fun _ => ⟨_, _, rfl, hfinish hc.used_le fun _ => hc⟩,
      fun hfits => absurd (fun _ _ heq => by cases heq) hfits⟩
  | cons ch rest =>
    have hspec := charTurn_spec (e := e) hc hRes ch
    have hfits : CursorFits e ⟨hRes, s, ch :: rest⟩ ↔ FieldFits e s ch := by
      constructor
      · exact fun hfits => hfits ch rest rfl
      · rintro hfits _ _ heq
        obtain ⟨rfl, -⟩ := List.cons.inj heq
        exact hfits
    rw [hfits]
    simp only [parseTurn] at h
    cases hturn : charTurn e hRes s ch with
    | next hRes' s' => rw [hturn] at h; cases h
    | again hRes' s' => rw [hturn] at h; cases h
    | leave hRes' s' =>
      rw [hturn] at h hspec
      obtain rfl := Sum.inr.inj h
      obtain ⟨hfit, hfail, hle⟩ := hspec
      exact ⟨fun _ => ⟨_, _, rfl, hfinish hle fun h => by simp [hfail] at h⟩,
        fun hnot => absurd hfit hnot⟩
    | overrun nIndex =>
      rw [hturn] at h hspec
      obtain rfl := Sum.inr.inj h
      exact ⟨fun hfit => absurd hfit hspec, fun _ => ⟨nIndex, rfl⟩⟩

theorem bufferInv_of_reach {c c' : Cursor φ ω} (hc : BufferInv c.s)
    (h : Loop.Reach (parseTurn e) c c') : BufferInv c'.s :=
  Loop.reach_induct (fun c => BufferInv c.s) (fun _ _ hc h => (parseTurn_inl hc h).2) hc h

/-- A call of `Parse` without characters to read leaves the buffer as it is. -/
theorem parse_inactive {s : Parser φ ω} (hs : BufferInv s) {lpData : Option (List Byte)}
    (h : s.nState = .done ∨ s.nState = .error ∨ lpData = none) :
    ∃ hRes s', parse e s lpData = .ok (hRes, s') ∧ BufferInv s' := by
  unfold parse
  by_cases hdone : s.nState = .done
  · exact ⟨_, _, if_pos hdone, hs⟩
  by_cases herror : s.nState = .error
  · exact ⟨_, _, by rw [if_neg hdone, if_pos herror], hs⟩
  obtain rfl : lpData = none := by tauto
  exact ⟨.mxInvalidData, { s with nState := .error }, by rw [if_neg hdone, if_neg herror],
    .of_error hs.used_le rfl⟩

theorem parse_active {s : Parser φ ω} (hdone : s.nState ≠ .done) (herror : s.nState ≠ .error)
    (szDataA : List Byte) : parse e s (some szDataA) =
      Loop.exec (parseTurn e) Cursor.measure (.ok (finish .sOk s)) ⟨.sOk, s, szDataA⟩ := by
  rw [parse, if_neg hdone, if_neg herror]

/-- **A call whose turns all fit stays inside the buffer, and a call with a turn
that does not fit leaves it.** -/
theorem parse_spec {s : Parser φ ω} (hs : BufferInv s) (szDataA : List Byte)
    (hdone : s.nState ≠ .done) (herror : s.nState ≠ .error) :
    ((∀ c, Loop.Reach (parseTurn e) ⟨.sOk, s, szDataA⟩ c → CursorFits e c) →
      ∃ hRes s', parse e s (some szDataA) = .ok (hRes, s') ∧ BufferInv s') ∧
    ((∃ c, Loop.Reach (parseTurn e) ⟨.sOk, s, szDataA⟩ c ∧ ¬ CursorFits e c) →
      ∃ nIndex, parse e s (some szDataA) = .error nIndex) := by
  rw [parse_active hdone herror]
  obtain ⟨last, hlast, hleave⟩ := Loop.exists_reach_exec parseTurn_measure
    (.ok (finish .sOk s)) (⟨.sOk, s, szDataA⟩ : Cursor φ ω)
  constructor
  · intro hfits
    exact (parseTurn_inr (bufferInv_of_reach hs hlast) hleave).1 (hfits last hlast)
  · rintro ⟨c, hc, hnot⟩
    have hinv := bufferInv_of_reach hs hc
    rw [Loop.exec_of_reach parseTurn_measure _ hc]
    cases hb : parseTurn e c with
    | inl c' => exact absurd (parseTurn_inl hinv hb).1 hnot
    | inr r =>
      rw [Loop.exec_inr _ hb]
      exact (parseTurn_inr hinv hb).2 hnot

variable (e) in
/-- Every write to `aTempBuf` is inside it, and its count never exceeds its size:
on each turn of each call, and after the last one. -/
structure TempBufSafe (s : Parser φ ω) (calls : List (Option (List Byte))) : Prop where
  write : ∀ nIndex, parseCalls e s calls ≠ .error nIndex
  turn : ∀ c, Visits e s calls c → c.s.nUsedTempBuf ≤ tempBufSize
  last : ∀ s', parseCalls e s calls = .ok s' → s'.nUsedTempBuf ≤ tempBufSize

theorem parse_ok {s s' : Parser φ ω} {lpData : Option (List Byte)} {hRes : HResult}
    (hs : BufferInv s) (h : parse e s lpData = .ok (hRes, s')) : BufferInv s' := by
  by_cases hin : s.nState = .done ∨ s.nState = .error ∨ lpData = none
  · obtain ⟨hRes', s'', hparse, hinv⟩ := parse_inactive (e := e) hs hin
    rw [hparse] at h
    obtain ⟨-, rfl⟩ := Prod.mk.inj (Except.ok.inj h)
    exact hinv
  · obtain ⟨hdone, herror, hsome⟩ := by simpa [not_or] using hin
    obtain ⟨szDataA, rfl⟩ := Option.ne_none_iff_exists'.mp hsome
    obtain ⟨hok, herr⟩ := parse_spec (e := e) hs szDataA hdone herror
    by_cases hfits : ∀ c, Loop.Reach (parseTurn e) ⟨.sOk, s, szDataA⟩ c → CursorFits e c
    · obtain ⟨hRes', s'', hparse, hinv⟩ := hok hfits
      rw [hparse] at h
      obtain ⟨-, rfl⟩ := Prod.mk.inj (Except.ok.inj h)
      exact hinv
    · obtain ⟨nIndex, hparse⟩ := herr (by simpa using hfits)
      rw [hparse] at h
      cases h

theorem visits_inv {s : Parser φ ω} {calls : List (Option (List Byte))} {c : Cursor φ ω}
    (hs : BufferInv s) (h : Visits e s calls c) : BufferInv c.s := by
  induction h with
  | turn hdone herror hreach => exact bufferInv_of_reach hs hreach
  | call hparse _ ih => exact ih (parse_ok hs hparse)

/-- The first call of a run stays inside the buffer when all its turns fit. -/
theorem exists_parse_of_fits {s : Parser φ ω} (hs : BufferInv s) {lpData : Option (List Byte)}
    {calls : List (Option (List Byte))}
    (hfits : ∀ c, Visits e s (lpData :: calls) c → CursorFits e c) :
    ∃ hRes s', parse e s lpData = .ok (hRes, s') := by
  by_cases hin : s.nState = .done ∨ s.nState = .error ∨ lpData = none
  · obtain ⟨hRes, s', hparse, -⟩ := parse_inactive (e := e) hs hin
    exact ⟨hRes, s', hparse⟩
  · obtain ⟨hdone, herror, hsome⟩ := by simpa [not_or] using hin
    obtain ⟨szDataA, rfl⟩ := Option.ne_none_iff_exists'.mp hsome
    obtain ⟨hRes, s', hparse, -⟩ := (parse_spec (e := e) hs szDataA hdone herror).1
      fun c hc => hfits c (.turn hdone herror hc)
    exact ⟨hRes, s', hparse⟩

theorem parseCalls_cons_ok {s s' : Parser φ ω} {lpData : Option (List Byte)} {hRes : HResult}
    (h : parse e s lpData = .ok (hRes, s')) (calls : List (Option (List Byte))) :
    parseCalls e s (lpData :: calls) = parseCalls e s' calls := by
  rw [parseCalls, h]

theorem parseCalls_cons_error {s : Parser φ ω} {lpData : Option (List Byte)} {nIndex : Nat}
    (h : parse e s lpData = .error nIndex) (calls : List (Option (List Byte))) :
    parseCalls e s (lpData :: calls) = .error nIndex := by
  rw [parseCalls, h]

theorem tempBufSafe_iff (calls : List (Option (List Byte))) : ∀ {s : Parser φ ω},
    BufferInv s → (TempBufSafe e s calls ↔ ∀ c, Visits e s calls c → CursorFits e c) := by
  induction calls with
  | nil =>
    intro s hs
    constructor
    · intro _ c hc
      cases hc
    · intro _
      refine ⟨?_, ?_, ?_⟩
      · intro nIndex h
        cases h
      · intro c hc
        cases hc
      · intro s' h
        obtain rfl := Except.ok.inj h
        exact hs.used_le
  | cons lpData calls ih =>
    intro s hs
    constructor
    · intro hsafe c hc
      cases hc with
      | turn hdone herror hreach =>
        by_contra hnot
        obtain ⟨nIndex, hparse⟩ := (parse_spec hs _ hdone herror).2 ⟨c, hreach, hnot⟩
        exact hsafe.write nIndex (parseCalls_cons_error hparse calls)
      | call hparse hvisits =>
        have hcons := parseCalls_cons_ok hparse calls
        refine (ih (parse_ok hs hparse)).mp ⟨?_, ?_, ?_⟩ c hvisits
        · exact fun nIndex h => hsafe.write nIndex (hcons.trans h)
        · exact fun c' hc' => hsafe.turn c' (.call hparse hc')
        · exact fun s'' h => hsafe.last s'' (hcons.trans h)
    · intro hfits
      obtain ⟨hRes, s', hparse⟩ := exists_parse_of_fits hs hfits
      have hcons := parseCalls_cons_ok hparse calls
      have hrest := (ih (parse_ok hs hparse)).mpr fun c hc => hfits c (.call hparse hc)
      refine ⟨fun nIndex h => hrest.write nIndex (hcons.symm.trans h), ?_,
        fun s'' h => hrest.last s'' (hcons.symm.trans h)⟩
      exact fun c hc => (visits_inv hs hc).used_le

/-- **Over any calls of `Parse` the buffer is safe exactly when no character makes
a plain field longer than the buffer.** -/
theorem parseCalls_tempBufSafe_iff (e : Env φ ω) (world : ω)
    (calls : List (Option (List Byte))) :
    TempBufSafe e (Parser.create world) calls ↔
      ∀ c, Visits e (Parser.create world) calls c → CursorFits e c :=
  tempBufSafe_iff calls (bufferInv_create world)

/-! ### A field that is too long -/

/-- Plain characters of a field are stored one after the other. -/
theorem reach_data (l : List Byte) : ∀ {c : Cursor φ ω} {rest : List Byte},
    c.s.nState = .data → c.s.cFileH = none → c.s.nUsedTempBuf = c.s.cStrCurrLineA.length →
    c.s.cStrCurrLineA.length + l.length ≤ tempBufSize → c.szDataA = l ++ rest →
    (∀ ch ∈ l, ch ≠ chCR ∧ ch ≠ chLF) →
    ∃ c', Loop.Reach (parseTurn e) c c' ∧ c'.s.nState = .data ∧ c'.s.cFileH = none ∧
      c'.s.cStrCurrLineA = c.s.cStrCurrLineA ++ l ∧ c'.szDataA = rest := by
  induction l with
  | nil => exact fun hst hf _ _ hrest _ => ⟨_, .refl, hst, hf, by simp, hrest⟩
  | cons ch l ih =>
    intro c rest hst hf hu hle hrest hplain
    rw [List.length_cons] at hle
    obtain ⟨s', hs', hst', hf', hu', hline⟩ :=
      accumulateData_field (e := e) hf hu (by omega) ch
    have hch := hplain ch List.mem_cons_self
    have hturn : parseTurn e c = .inl ⟨.sOk, s', l ++ rest⟩ := by
      simp [parseTurn, hrest, charTurn, hst, dataTurn, hch, hs']
    obtain ⟨c', hreach, hst'', hf'', hline', hrest'⟩ := ih (c := ⟨.sOk, s', l ++ rest⟩)
      (hst'.trans hst) hf' hu' (by rw [hline, List.length_append, List.length_singleton]; omega)
      rfl (fun ch h => hplain ch (List.mem_cons_of_mem _ h))
    exact ⟨c', .head hturn hreach, hst'', hf'', by simp [hline', hline], hrest'⟩

/-- Characters that come later do not change the turns made before them. -/
theorem reach_append {c c' : Cursor φ ω} (rest : List Byte)
    (h : Loop.Reach (parseTurn e) c c') :
    Loop.Reach (parseTurn e) ⟨c.hRes, c.s, c.szDataA ++ rest⟩
      ⟨c'.hRes, c'.s, c'.szDataA ++ rest⟩ := by
  induction h with
  | refl => exact .refl
  | @tail c₁ c₂ _ hturn ih =>
    refine ih.tail ?_
    obtain ⟨hRes, s, szDataA⟩ := c₁
    cases szDataA with
    | nil => cases hturn
    | cons ch l =>
      simp only [Loop.Turn, parseTurn, List.cons_append] at hturn ⊢
      cases hch : charTurn e hRes s ch with
      | next hRes' s' => rw [hch] at hturn; obtain rfl := Sum.inl.inj hturn; rfl
      | again hRes' s' => rw [hch] at hturn; obtain rfl := Sum.inl.inj hturn; rfl
      | leave hRes' s' => rw [hch] at hturn; cases hturn
      | overrun nIndex => rw [hch] at hturn; cases hturn

/-- A body up to the value of its first field. -/
def longFieldHead : List Byte :=
  ascii "--b\r\nContent-Disposition:form-data;name=a\r\n\r\n"

theorem longFieldHead_eq : longFieldHead =
    "--b\r\nContent-Disposition:form-data;name=a\r\n\r\n".toByteArray.data.toList :=
  ascii_eq_bytes (by decide +kernel)

/-- Settings under which `longFieldHead` is parsed: the header classes read what
it holds, and nothing else is reached. -/
def longFieldEnv : Env Unit Unit where
  cStrBoundaryA := ascii "b"
  limits := .create 256000 2097152 4
  contentDisposition := fun _ => .ok ⟨ascii "form-data", wide "a", false, []⟩
  contentType := fun _ => .ok []
  contentTransferEncoding := fun _ => .ok true
  cDownloadStartedCallback := none
  writeFile := fun _ l _ => (.ok l.length, ())
  addField := fun _ _ _ => (.sOk, ())
  addFileField := fun _ _ _ _ _ => (.sOk, ())

/-- The turns over `longFieldHead` leave the parser at the start of the field. -/
theorem turns_longFieldHead :
    (Loop.turns (parseTurn longFieldEnv) 45 ⟨.sOk, .create (), longFieldHead⟩).map
      (fun c => (c.s.nState, c.s.cFileH, c.s.nUsedTempBuf, c.s.cStrCurrLineA, c.szDataA)) =
      some (.data, none, 0, [], []) := by
  rw [longFieldHead_eq]
  decide

/-- A plain field of 16385 bytes makes the parser write outside its buffer. -/
theorem parseCalls_longField_unsafe :
    ¬ TempBufSafe longFieldEnv (.create ())
      [some (longFieldHead ++ List.replicate 16385 0x61)] := by
  rw [tempBufSafe_iff _ (bufferInv_create ())]
  intro hfits
  have hbody : List.replicate 16385 (0x61 : Byte) = List.replicate 16384 0x61 ++ [0x61] :=
    List.replicate_succ'
  obtain ⟨c, hturns, hkey⟩ := Option.map_eq_some_iff.mp turns_longFieldHead
  simp only [Prod.mk.injEq] at hkey
  obtain ⟨hst, hf, hu, hline, hrest⟩ := hkey
  have hc := reach_append (List.replicate 16385 0x61) (Loop.reach_of_turns hturns)
  rw [hrest, List.nil_append] at hc
  obtain ⟨c', hc', hst', hf', hline', hrest'⟩ := reach_data (e := longFieldEnv)
    (List.replicate 16384 0x61) (c := ⟨c.hRes, c.s, List.replicate 16385 0x61⟩) hst hf (by rw [hu, hline]; rfl)
    (by rw [hline, List.length_replicate]; decide) hbody
    (fun ch h => by obtain rfl := List.eq_of_mem_replicate h; decide)
  have hfit := hfits c' (.turn (by decide) (by decide) (hc.trans hc')) 0x61 [] hrest' hf'
  have happ : appended longFieldEnv c'.s 0x61 = [0x61] := by
    rw [appended, hst']
    rfl
  rw [happ, hline', hline, List.nil_append, List.length_replicate] at hfit
  exact absurd (hfit (by simp)) (by decide)

end Buffer

end MxLib.Http.Multipart
