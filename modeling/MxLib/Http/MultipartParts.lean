import MxLib.Http.MultipartStream
import MxLib.Library.Delimiter

/-!
# What the multipart parser reads of a part

From the end of its headers to its closing delimiter the parser is a reader of text
up to a delimiter: `nBoundaryPos` and the state say what is held back, and
`AccumulateData` gets the bytes of the text in order (`parseChar_reads`).  A plain
field holds them in `cStrCurrLineA`, a file part in the file and in `aTempBuf`
behind it.

`AccumulateData` takes as many bytes as `aTempBuf` has for a field, as nothing
empties it there, and one less than the file limit for a file (`capacity`).  Up to
that size a part is read exactly, however the body is cut, and a longer one never
comes to its delimiter (`partRead_iff`).
-/

namespace MxLib.Http.Multipart

open MxLib.Library MxLib.Library.Stream MxLib.Library.Delimiter

section Parts

variable {φ ω : Type} (e : Env φ ω)

/-- A boundary as the header gives it. -/
structure IsBoundary (cStrBoundaryA : List Byte) : Prop where
  ne_nil : cStrBoundaryA ≠ []
  cr_notMem : chCR ∉ cStrBoundaryA
  lf_notMem : chLF ∉ cStrBoundaryA
  zero_notMem : (0 : Byte) ∉ cStrBoundaryA

/-- The delimiter after a part. -/
def delimiter (hasCr : Bool) : List Byte :=
  (if hasCr then [chCR] else []) ++ chLF :: chDash :: chDash :: e.cStrBoundaryA

/-- The delimiter after a part is recognised at a character. -/
def closesPart (s : Parser φ ω) (ch : Byte) : Bool :=
  (s.nState == .mayBeDataEnd || s.nState == .mayBeDataEndAlt) &&
    !isNotBoundary e s ch && isBoundaryEnd e s

/-- What is in a file.  `WriteFile` writes what it is given behind it. -/
structure WritesAll (written : φ → ω → List Byte) : Prop where
  write : ∀ h l world, l.length ≤ tempBufSize →
    ∃ world', e.writeFile h l world = (.ok l.length, world') ∧
      written h world' = written h world ++ l

/-- The bytes of the part being read: the text of a field, and of a file what is in
it once the buffer is flushed. -/
def partData (written : φ → ω → List Byte) (s : Parser φ ω) : List Byte :=
  match s.cFileH with
  | none => s.cStrCurrLineA
  | some h => written h (writeBuffered e s h).2.world

/-- The bytes of a part that `AccumulateData` takes. -/
def capacity (s : Parser φ ω) : Nat :=
  match s.cFileH with
  | none => tempBufSize
  | some _ => e.limits.ullMaxFileSize - 1

/-- Of the turns from character `nFirst` of the body on, the first that recognises
a delimiter is at character `nLast`, and the part holds `data` then. -/
structure PartRead (written : φ → ω → List Byte) (world : ω) (bufs : List (List Byte))
    (nFirst nLast : Nat) (data : List Byte) : Prop where
  closes : ∃ c ch, TurnAt e (.create world) bufs nLast c ∧ c.szDataA.head? = some ch ∧
    closesPart e c.s ch = true ∧ partData e written c.s = data
  first : ∀ n c ch, TurnAt e (.create world) bufs n c → c.szDataA.head? = some ch →
    nFirst ≤ n → n < nLast → closesPart e c.s ch = false

variable {e}

/-! ### The start of a part -/

/-- No byte is counted while the headers of a part are read. -/
def SizeInv (s : Parser φ ω) : Prop := s.nState.inHeaders = true → s.nFileUploadSize = 0

theorem SizeInv.of_outside {s : Parser φ ω} (h : s.nState.inHeaders = false) : SizeInv s :=
  fun hin => absurd (h.symm.trans hin) (by decide)

/-- A turn that leaves a parser with the invariant. -/
def KeepsSize : CharTurn φ ω → Prop
  | .next _ s => SizeInv s
  | .again _ s => SizeInv s
  | _ => True

theorem keepsSize_expect {s : Parser φ ω} {nState : EState}
    (h : SizeInv { s with nState := nState }) (ok : Bool) (hRes : HResult) :
    KeepsSize (expect ok hRes s nState) := by
  rw [expect]
  split
  · exact h
  · trivial

theorem keepsSize_blanksTurn {s : Parser φ ω} {nState : EState} (hs : SizeInv s)
    (h : nState.inHeaders = false) (hRes : HResult) (ch : Byte) :
    KeepsSize (blanksTurn nState hRes s ch) := by
  rw [blanksTurn]
  split
  · exact hs
  · exact keepsSize_expect (.of_outside h) _ _

theorem keepsSize_headerNameTurn {s : Parser φ ω} (h : s.nFileUploadSize = 0) (hRes : HResult)
    (ch : Byte) : KeepsSize (headerNameTurn hRes s ch) := by
  rw [headerNameTurn]
  dsimp only
  split_ifs
  · trivial
  · trivial
  · exact fun _ => h
  · trivial
  · trivial
  · exact fun _ => h

theorem endHeaderLine_size (hRes : HResult) (s : Parser φ ω) :
    (endHeaderLine e hRes s).2.nFileUploadSize = s.nFileUploadSize := by
  rw [endHeaderLine]
  split
  · rfl
  · dsimp only
    split <;> rfl

theorem keepsSize_headerStartTurn {s : Parser φ ω} (h : s.nFileUploadSize = 0) (hRes : HResult)
    (ch : Byte) : KeepsSize (headerStartTurn e hRes s ch) := by
  have hend := (endHeaderLine_size (e := e) hRes s).trans h
  rw [headerStartTurn]
  dsimp only
  split_ifs
  · trivial
  · exact fun _ => hend
  · trivial
  · exact fun _ => h
  · trivial
  · exact keepsSize_headerNameTurn (s := { (endHeaderLine e hRes s).2 with nState := .headerName })
      hend _ _

theorem accumulateField_nState (s : Parser φ ω) (ch : Byte) :
    (accumulateField e s ch).2.nState = s.nState := by
  rw [accumulateField]
  split <;> rfl

theorem writeBuffered_nState (s : Parser φ ω) (h : φ) :
    (writeBuffered e s h).2.nState = s.nState := by
  obtain ⟨world, hw⟩ := writeBuffered_snd (e := e) s h
  rw [hw]

theorem accumulateFile_nState (s : Parser φ ω) (h : φ) :
    (accumulateFile e s h).2.nState = s.nState := by
  rw [accumulateFile]
  dsimp only
  split_ifs
  · rfl
  · exact writeBuffered_nState _ h
  · exact writeBuffered_nState _ h
  · rfl

theorem accumulateData_nState {s s' : Parser φ ω} {ch : Byte} {hRes : HResult}
    (h : accumulateData e s ch = .ok (hRes, s')) : s'.nState = s.nState := by
  rw [accumulateData] at h
  split at h
  · cases h
  · cases hf : s.cFileH with
    | none =>
      rw [hf] at h
      have hs' : (accumulateField e (s.put ch) ch).2 = s' := congrArg Prod.snd (Except.ok.inj h)
      rw [← hs', accumulateField_nState]
      rfl
    | some file =>
      rw [hf] at h
      have hs' : (accumulateFile e (s.put ch) file).2 = s' := congrArg Prod.snd (Except.ok.inj h)
      rw [← hs', accumulateFile_nState]
      rfl

theorem keepsSize_charTurn {s : Parser φ ω} (hs : SizeInv s) (hRes : HResult) (ch : Byte) :
    KeepsSize (charTurn e hRes s ch) := by
  rw [charTurn]
  cases hst : s.nState with
  | boundary =>
    dsimp only
    rw [boundaryTurn]
    split_ifs
    · exact hs
    · trivial
    · exact .of_outside (by rw [hst]; rfl)
    · trivial
    · exact .of_outside rfl
    · exact .of_outside (by rw [hst]; rfl)
  | boundaryAfter =>
    dsimp only
    split
    · exact .of_outside rfl
    · exact keepsSize_blanksTurn (.of_outside rfl) rfl _ _
  | boundaryAfter2 => exact keepsSize_blanksTurn hs rfl _ _
  | boundaryAfterEnd =>
    dsimp only
    rw [boundaryAfterEndTurn]
    split
    · trivial
    · exact fun _ => rfl
  | boundaryEndCheck => exact keepsSize_expect (.of_outside rfl) _ _
  | boundaryEndCheckAfterDashes => exact keepsSize_blanksTurn hs rfl _ _
  | boundaryEndCheckAfterDashes2 => exact keepsSize_expect (.of_outside rfl) _ _
  | headerStart => exact keepsSize_headerStartTurn (hs (by rw [hst]; rfl)) _ _
  | headerName => exact keepsSize_headerNameTurn (hs (by rw [hst]; rfl)) _ _
  | headerValue =>
    have hsize := hs (by rw [hst]; rfl)
    dsimp only
    rw [headerValueTurn]
    dsimp only
    split_ifs
    · trivial
    · exact fun _ => hsize
    · trivial
    · trivial
    · exact fun _ => hsize
  | headerValueEnding =>
    have hsize : SizeInv { s with nState := .headerStart } := fun _ => hs (by rw [hst]; rfl)
    exact keepsSize_expect hsize _ _
  | headersEnding =>
    dsimp only
    rw [headersEndingTurn]
    dsimp only
    split_ifs
    · trivial
    · trivial
    · trivial
    · exact .of_outside rfl
    · exact .of_outside rfl
  | data =>
    dsimp only
    rw [dataTurn]
    split
    · exact .of_outside rfl
    split
    · exact .of_outside rfl
    cases hacc : accumulateData e s ch with
    | error nIndex => trivial
    | ok r =>
      have hst' := (accumulateData_nState hacc).trans hst
      dsimp only
      split
      · trivial
      · exact .of_outside (by rw [hst']; rfl)
  | dataEnd =>
    dsimp only
    rw [dataEndTurn]
    split_ifs <;> exact .of_outside rfl
  | mayBeDataEnd | mayBeDataEndAlt =>
    dsimp only
    rw [mayBeDataEndTurn]
    split
    · cases accumulateAll e hRes s (heldBack e s) with
      | error nIndex => trivial
      | ok r =>
        dsimp only
        split
        · trivial
        · exact .of_outside rfl
    · dsimp only
      split_ifs
      · trivial
      · exact .of_outside rfl
      · exact .of_outside (by rw [hst]; rfl)
  | done => exact hs
  | error => exact hs

theorem feed_sizeInv {s s' : Parser φ ω} {l : List Byte} (hs : SizeInv s)
    (h : feed (parseChar e) s l = .ok s') : SizeInv s' := by
  refine feed_induct (fun s ch s' (hs : SizeInv s) hchar => ?_) hs h
  refine parseChar_keeps (fun s hst => .of_outside (by rw [hst]; rfl)) ?_ ?_ hs hchar
  · intro s ch hRes' s' hs hturn
    have := keepsSize_charTurn (e := e) hs .sOk ch
    rw [hturn] at this
    exact this
  · intro s ch hRes' s' hs hturn
    have := keepsSize_charTurn (e := e) hs .sOk ch
    rw [hturn] at this
    exact this

theorem feed_bufferInv {s s' : Parser φ ω} {l : List Byte} (hs : BufferInv s)
    (h : feed (parseChar e) s l = .ok s') : BufferInv s' := by
  refine feed_induct (fun s ch s' (hs : BufferInv s) hchar => ?_) hs h
  rw [parseChar] at hchar
  cases hparse : parse e s (some [ch]) with
  | error nIndex =>
    rw [hparse] at hchar
    cases hchar
  | ok r =>
    rw [hparse] at hchar
    obtain rfl := Except.ok.inj hchar
    exact parse_ok hs hparse

/-- A part whose data has not begun. -/
structure DataStart (s : Parser φ ω) : Prop where
  nState : s.nState = .data
  cStrCurrLineA : s.cStrCurrLineA = []
  nUsedTempBuf : s.nUsedTempBuf = 0
  nFileUploadSize : s.nFileUploadSize = 0

theorem startFile_size (hRes : HResult) (s : Parser φ ω) :
    (startFile e hRes s).2.nFileUploadSize = s.nFileUploadSize := by
  rw [startFile]
  dsimp only
  split
  · rfl
  · cases e.cDownloadStartedCallback with
    | none => rfl
    | some callback => dsimp only; split <;> rfl

/-- **The data of a part begins with nothing accumulated.** -/
theorem dataStart_of_feed {world : ω} {pre : List Byte} {s₀ s₁ : Parser φ ω}
    (hpre : feed (parseChar e) (.create world) pre = .ok s₀) (hheaders : s₀.nState = .headersEnding)
    (hlf : parseChar e s₀ chLF = .ok s₁) (hdata : s₁.nState = .data) : DataStart s₁ := by
  have hbuffer := feed_bufferInv (bufferInv_create world) hpre
  have hsize := feed_sizeInv (.of_outside rfl) hpre (by rw [hheaders]; rfl)
  have hline := hbuffer.noLine (by rw [hheaders]; rfl)
  have hused := (hbuffer.headers (by rw [hheaders]; rfl)).1
  have hspec := parseChar_spec (e := e) (s := s₀) (by rw [hheaders]; rfl) HResult.failed_sOk chLF
  have hturn : charTurn e .sOk s₀ chLF = headersEndingTurn e .sOk s₀ chLF := by
    rw [charTurn, hheaders]
  rw [hturn, headersEndingTurn, if_neg (by simp)] at hspec
  obtain ⟨hline', hused'⟩ := startFile_spec (e := e) (s := s₀) .sOk
  have hsize' := startFile_size (e := e) .sOk s₀
  by_cases hname : isEmptyStr s₀.sCurrentBlock.sContentDisposition.cStrNameW = true
  · rw [if_pos hname] at hspec
    obtain rfl := Except.ok.inj (hlf.symm.trans hspec)
    cases hdata
  rw [if_neg hname] at hspec
  by_cases hfile : s₀.sCurrentBlock.sContentDisposition.bHasFileName = true
  · rw [if_pos hfile] at hspec
    dsimp only at hspec
    by_cases hfail : (startFile e .sOk s₀).1.failed = true
    · rw [if_pos hfail] at hspec
      obtain rfl := Except.ok.inj (hlf.symm.trans hspec)
      cases hdata
    · rw [if_neg hfail] at hspec
      obtain rfl := Except.ok.inj (hlf.symm.trans hspec.2)
      exact ⟨rfl, hline'.trans hline, hused'.trans hused, hsize'.trans hsize⟩
  · rw [if_neg hfile] at hspec
    obtain rfl := Except.ok.inj (hlf.symm.trans hspec.2)
    exact ⟨rfl, rfl, hused, hsize⟩

/-! ### Accumulating -/

section Accumulate

variable {written : φ → ω → List Byte}

variable (written) in
/-- The parser `s` has accumulated `data` since the part began in `s₁`. -/
structure HasRead (s₁ s : Parser φ ω) (data : List Byte) : Prop where
  cFileH : s.cFileH = s₁.cFileH
  field : s.cFileH = none → s.cStrCurrLineA = data ∧ s.nUsedTempBuf = data.length
  file : ∀ h, s.cFileH = some h →
    written h s.world ++ s.buffered = written h s₁.world ++ data ∧
      s.nUsedTempBuf < tempBufSize ∧ s.nFileUploadSize = data.length

theorem DataStart.hasRead {s₁ : Parser φ ω} (h : DataStart s₁) : HasRead written s₁ s₁ [] where
  cFileH := rfl
  field := fun _ => ⟨h.cStrCurrLineA, h.nUsedTempBuf⟩
  file := fun file _ => by
    refine ⟨?_, by rw [h.nUsedTempBuf]; decide, h.nFileUploadSize⟩
    rw [Parser.buffered, h.nUsedTempBuf]
    rfl

/-- A parser with another state and place in the delimiter has read the same. -/
theorem HasRead.withState {s₁ s : Parser φ ω} {data : List Byte} (h : HasRead written s₁ s data)
    (nState : EState) (nBoundaryPos : Nat) :
    HasRead written s₁ { s with nState := nState, nBoundaryPos := nBoundaryPos } data :=
  ⟨h.cFileH, h.field, h.file⟩

@[simp] theorem length_buffered (s : Parser φ ω) : s.buffered.length = s.nUsedTempBuf := by
  simp [Parser.buffered]

/-- A byte stored in the buffer comes after those in use. -/
theorem buffered_put (s : Parser φ ω) (ch : Byte) : (s.put ch).buffered = s.buffered ++ [ch] := by
  have hold : ∀ k ∈ List.range s.nUsedTempBuf, (s.put ch).aTempBuf k = s.aTempBuf k := by
    intro k hk
    exact if_neg (Nat.ne_of_lt (List.mem_range.mp hk))
  rw [Parser.buffered, show (s.put ch).nUsedTempBuf = s.nUsedTempBuf + 1 from rfl,
    List.range_succ, List.map_append, List.map_congr_left hold]
  simp [Parser.buffered, Parser.put]

/-- The bytes in use are written behind what is in the file. -/
theorem writeBuffered_ok (hw : WritesAll e written) {s : Parser φ ω}
    (hu : s.nUsedTempBuf ≤ tempBufSize) (h : φ) :
    ∃ world, writeBuffered e s h = (.sOk, { s with world := world }) ∧
      written h world = written h s.world ++ s.buffered := by
  obtain ⟨world, hwrite, hworld⟩ :=
    hw.write h s.buffered s.world (by rw [length_buffered]; exact hu)
  refine ⟨world, ?_, hworld⟩
  rw [writeBuffered, hwrite]
  simp

theorem HasRead.partData_eq (hw : WritesAll e written) {s₁ s : Parser φ ω} {data : List Byte}
    (hstart : DataStart s₁) (h : HasRead written s₁ s data) :
    partData e written s = partData e written s₁ ++ data := by
  rw [partData, partData, ← h.cFileH]
  cases hf : s.cFileH with
  | none => rw [(h.field hf).1, hstart.cStrCurrLineA, List.nil_append]
  | some file =>
    obtain ⟨hdata, hu, -⟩ := h.file file hf
    obtain ⟨world, hwrite, hworld⟩ := writeBuffered_ok hw hu.le file
    obtain ⟨world₁, hwrite₁, hworld₁⟩ :=
      writeBuffered_ok hw (s := s₁) (by rw [hstart.nUsedTempBuf]; exact Nat.zero_le _) file
    have hnil : s₁.buffered = [] := by rw [Parser.buffered, hstart.nUsedTempBuf]; rfl
    simp only [hwrite, hwrite₁, hworld, hworld₁, hdata, hnil, List.append_nil]

theorem capacity_field {s : Parser φ ω} (h : s.cFileH = none) : capacity e s = tempBufSize := by
  rw [capacity, h]

theorem capacity_file {s : Parser φ ω} {file : φ} (h : s.cFileH = some file) :
    capacity e s = e.limits.ullMaxFileSize - 1 := by
  rw [capacity, h]

/-- A byte of a file is stored, and the buffer is written when it is full. -/
theorem accumulateFile_fits (hw : WritesAll e written) {s : Parser φ ω} {file : φ}
    {data : List Byte}
    (hu : s.nUsedTempBuf ≤ tempBufSize) (hsize : s.nFileUploadSize + 1 < e.limits.ullMaxFileSize)
    (hmax : e.limits.ullMaxFileSize ≤ 2 ^ 64) (hdata : written file s.world ++ s.buffered = data) :
    ∃ s', accumulateFile e s file = (.sOk, s') ∧ s'.nState = s.nState ∧
      s'.nBoundaryPos = s.nBoundaryPos ∧ s'.cFileH = s.cFileH ∧
      written file s'.world ++ s'.buffered = data ∧ s'.nUsedTempBuf < tempBufSize ∧
      s'.nFileUploadSize = s.nFileUploadSize + 1 := by
  have hmod : (s.nFileUploadSize + 1) % 2 ^ 64 = s.nFileUploadSize + 1 :=
    Nat.mod_eq_of_lt (by omega)
  rw [accumulateFile, hmod]
  dsimp only
  rw [if_neg (by omega)]
  by_cases hfull : s.nUsedTempBuf ≥ tempBufSize
  · obtain ⟨world, hwrite, hworld⟩ := writeBuffered_ok hw (e := e)
      (s := { s with nFileUploadSize := s.nFileUploadSize + 1 }) hu file
    rw [if_pos hfull, hwrite]
    refine ⟨_, if_neg Bool.false_ne_true, rfl, rfl, rfl, ?_, Nat.succ_pos _, rfl⟩
    rw [← hdata]
    simpa [Parser.buffered] using hworld
  · rw [if_neg hfull]
    exact ⟨_, rfl, rfl, rfl, rfl, hdata, by simpa using hfull, rfl⟩

/-- **A byte of a part that is shorter than its capacity is accumulated.** -/
theorem accumulateData_fits (hw : WritesAll e written) (hmax : e.limits.ullMaxFileSize ≤ 2 ^ 64)
    {s₁ s : Parser φ ω} {data : List Byte} (h : HasRead written s₁ s data)
    (hlt : data.length < capacity e s₁) (ch : Byte) :
    ∃ s', accumulateData e s ch = .ok (.sOk, s') ∧ s'.nState = s.nState ∧
      s'.nBoundaryPos = s.nBoundaryPos ∧ HasRead written s₁ s' (data ++ [ch]) := by
  cases hf : s.cFileH with
  | none =>
    rw [capacity_field (h.cFileH.symm.trans hf)] at hlt
    obtain ⟨hline, hu⟩ := h.field hf
    have hmax := e.limits.le_maxFieldSize
    have hfield : ¬ s.cStrCurrLineA.length > e.limits.dwMaxFieldSize := by
      rw [hline]
      simp only [tempBufSize] at hlt
      omega
    refine ⟨{ s.put ch with cStrCurrLineA := s.cStrCurrLineA ++ [ch] }, ?_, rfl, rfl, ?_⟩
    · rw [accumulateData, if_neg (by rw [hu]; omega), hf]
      exact congrArg Except.ok (if_neg hfield)
    · refine ⟨h.cFileH, fun _ => ⟨by rw [hline], ?_⟩, fun file hfile => ?_⟩
      · rw [List.length_append, ← hu]
        rfl
      · exact absurd (hf.symm.trans hfile) (by simp)
  | some file =>
    rw [capacity_file (h.cFileH.symm.trans hf)] at hlt
    obtain ⟨hdata, hu, hsize⟩ := h.file file hf
    have hput : written file (s.put ch).world ++ (s.put ch).buffered =
        written file s₁.world ++ (data ++ [ch]) := by
      rw [buffered_put, ← List.append_assoc, ← List.append_assoc, ← hdata]
      rfl
    obtain ⟨s', hs', hst, hpos, hfile, hdata', hu', hsize'⟩ := accumulateFile_fits hw
      (s := s.put ch) (Nat.succ_le_of_lt hu)
      (by rw [show (s.put ch).nFileUploadSize = data.length from hsize]; omega) hmax hput
    refine ⟨s', ?_, hst, hpos, hfile.trans h.cFileH, fun hnone => ?_, fun file' hfile' => ?_⟩
    · rw [accumulateData, if_neg (by omega), hf]
      exact congrArg Except.ok hs'
    · exact absurd (hnone.symm.trans (hfile.trans hf)) (by simp)
    · obtain rfl := Option.some.inj (hfile'.symm.trans (hfile.trans hf))
      refine ⟨hdata', hu', hsize'.trans ?_⟩
      rw [List.length_append, ← hsize]
      rfl

/-- What comes of a call of the parser that fails or writes outside the buffer. -/
def Accumulates.Fails (r : Except Nat (HResult × Parser φ ω)) : Prop :=
  ∀ hRes s, r = .ok (hRes, s) → hRes.failed = true

/-- **A byte of a part that has reached its capacity is not taken.** -/
theorem accumulateData_fails (hmax : e.limits.ullMaxFileSize < 2 ^ 64) {s₁ s : Parser φ ω}
    {data : List Byte} (h : HasRead written s₁ s data) (hle : data.length = capacity e s₁)
    (ch : Byte) : Accumulates.Fails (accumulateData e s ch) := by
  intro hRes s' hacc
  cases hf : s.cFileH with
  | none =>
    rw [capacity_field (h.cFileH.symm.trans hf)] at hle
    rw [accumulateData, if_pos (by rw [(h.field hf).2, hle])] at hacc
    cases hacc
  | some file =>
    rw [capacity_file (h.cFileH.symm.trans hf)] at hle
    obtain ⟨-, hu, hsize⟩ := h.file file hf
    rw [accumulateData, if_neg (by omega), hf] at hacc
    have hnext : (s.put ch).nFileUploadSize + 1 = data.length + 1 := congrArg (· + 1) hsize
    have hfull : (data.length + 1) % 2 ^ 64 ≥ e.limits.ullMaxFileSize := by
      rw [Nat.mod_eq_of_lt (by omega)]
      omega
    have hres := congrArg Prod.fst (Except.ok.inj hacc)
    rw [accumulateFile, hnext] at hres
    dsimp only at hres
    rw [if_pos hfull] at hres
    obtain rfl := hres
    rfl

/-- Bytes that fit into a part are all accumulated, in order. -/
theorem accumulateAll_fits (hw : WritesAll e written) (hmax : e.limits.ullMaxFileSize ≤ 2 ^ 64)
    {s₁ : Parser φ ω} (l : List Byte) : ∀ {s : Parser φ ω} {data : List Byte} {hRes : HResult},
    HasRead written s₁ s data → (data ++ l).length ≤ capacity e s₁ → hRes.failed = false →
    ∃ hRes' s', accumulateAll e hRes s l = .ok (hRes', s') ∧ hRes'.failed = false ∧
      HasRead written s₁ s' (data ++ l) := by
  induction l with
  | nil =>
    intro s data hRes h _ hok
    rw [List.append_nil]
    exact ⟨hRes, s, rfl, hok, h⟩
  | cons ch l ih =>
    intro s data hRes h hle hok
    have hlen : (data ++ ch :: l).length = data.length + (l.length + 1) := by simp
    obtain ⟨s', hs', -, -, h'⟩ := accumulateData_fits hw hmax h (by omega) ch
    rw [List.append_cons] at hle ⊢
    rw [accumulateAll_cons_ok hs', if_neg (by decide)]
    exact ih h' hle rfl

/-- Bytes that do not fit into a part are not all taken. -/
theorem accumulateAll_fails (hw : WritesAll e written) (hmax : e.limits.ullMaxFileSize < 2 ^ 64)
    {s₁ : Parser φ ω} (l : List Byte) : ∀ {s : Parser φ ω} {data : List Byte} (hRes : HResult),
    HasRead written s₁ s data → data.length ≤ capacity e s₁ →
    capacity e s₁ < (data ++ l).length → Accumulates.Fails (accumulateAll e hRes s l) := by
  induction l with
  | nil =>
    intro s data hRes h hle hlt
    rw [List.append_nil] at hlt
    omega
  | cons ch l ih =>
    intro s data hRes h hle hlt
    rcases hle.eq_or_lt with heq | hroom
    · have hfails := accumulateData_fails hmax h heq ch
      intro hRes' s' hall
      cases hacc : accumulateData e s ch with
      | error nIndex =>
        rw [accumulateAll_cons_error hacc] at hall
        cases hall
      | ok r =>
        have hfail := hfails r.1 r.2 hacc
        rw [accumulateAll_cons_ok hacc, if_pos hfail] at hall
        obtain ⟨rfl, -⟩ := Prod.mk.inj (Except.ok.inj hall)
        exact hfail
    · obtain ⟨s', hs', -, -, h'⟩ := accumulateData_fits hw hmax.le h hroom ch
      rw [List.append_cons] at hlt
      rw [accumulateAll_cons_ok hs', if_neg (by decide)]
      refine ih .sOk h' ?_ hlt
      rw [List.length_append]
      exact hroom

end Accumulate

/-! ### The delimiter -/

section Delimiter

variable (e) in
/-- The marks of the delimiter after a part. -/
def marks (hb : IsBoundary e.cStrBoundaryA) : Marks Byte where
  cr := chCR
  lf := chLF
  tail := chDash :: chDash :: e.cStrBoundaryA
  cr_ne_lf := by decide
  cr_notMem := by simpa [chCR, chDash] using hb.cr_notMem
  lf_notMem := by simpa [chLF, chDash] using hb.lf_notMem
  tail_ne_nil := List.cons_ne_nil _ _

/-- What the parser holds back. -/
def Parser.mode (s : Parser φ ω) : Mode :=
  match s.nState with
  | .mayBeDataEnd => .held true s.nBoundaryPos
  | .mayBeDataEndAlt => .held false s.nBoundaryPos
  | _ => .text

variable {hb : IsBoundary e.cStrBoundaryA}

theorem marks_delimiter (hasCr : Bool) : (marks e hb).delimiter hasCr = delimiter e hasCr := rfl

theorem length_marks_line : (marks e hb).line.length = e.cStrBoundaryA.length + 3 := rfl

/-- The character the parser waits for is the next one of the delimiter. -/
theorem isNotBoundary_eq {s : Parser φ ω} (h : s.nBoundaryPos < (marks e hb).line.length)
    (ch : Byte) : isNotBoundary e s ch = false ↔ (marks e hb).line[s.nBoundaryPos]? = some ch := by
  rw [length_marks_line] at h
  have hnext : ∀ a : Byte, (ch != a) = false ↔ some a = some ch := fun a => by
    rw [bne_eq_false_iff_eq, Option.some_inj, eq_comm]
  rw [isNotBoundary]
  rcases hpos : s.nBoundaryPos with _ | _ | _ | n
  · exact hnext chLF
  · exact hnext chDash
  · exact hnext chDash
  · have hn : n < e.cStrBoundaryA.length := by omega
    have hchar : charAt e.cStrBoundaryA n = e.cStrBoundaryA[n] := by simp [charAt, hn]
    have hline : (marks e hb).line[n + 3]? = some e.cStrBoundaryA[n] := by
      simp [marks, Marks.line, hn]
    rw [hline, ← hnext, ← hchar]
    rfl

/-- The last character of the delimiter is where the text of the boundary ends. -/
theorem isBoundaryEnd_iff {s : Parser φ ω} (h : s.nBoundaryPos < (marks e hb).line.length) :
    isBoundaryEnd e s = true ↔ s.nBoundaryPos + 1 = (marks e hb).line.length := by
  rw [length_marks_line] at h ⊢
  have hne := List.length_pos_iff.mpr hb.ne_nil
  rw [isBoundaryEnd, Bool.and_eq_true, decide_eq_true_eq, beq_iff_eq, charAt]
  by_cases hlast : s.nBoundaryPos - 2 < e.cStrBoundaryA.length
  · have hchar : e.cStrBoundaryA.getD (s.nBoundaryPos - 2) 0 ∈ e.cStrBoundaryA := by
      simp [List.getD, hlast]
    constructor
    · rintro ⟨-, hzero⟩
      rw [hzero] at hchar
      exact absurd hchar hb.zero_notMem
    · intro heq
      omega
  · have hzero : e.cStrBoundaryA.getD (s.nBoundaryPos - 2) 0 = 0 := by simp [List.getD, hlast]
    rw [hzero]
    constructor
    · intro _
      omega
    · intro _
      exact ⟨by omega, rfl⟩

/-- The bytes held back are the start of the delimiter. -/
theorem heldBack_eq {s : Parser φ ω} (hst : s.nState = .mayBeDataEnd ∨ s.nState = .mayBeDataEndAlt)
    (h : s.nBoundaryPos < (marks e hb).line.length) :
    heldBack e s = heldText (marks e hb) s.mode := by
  rw [length_marks_line] at h
  have htake : (if s.nBoundaryPos > 0 then [chLF] else []) ++
      ((if s.nBoundaryPos > 1 then [chDash] else []) ++
        ((if s.nBoundaryPos > 2 then [chDash] else []) ++
          (List.range (s.nBoundaryPos - 3)).map (charAt e.cStrBoundaryA))) =
      (marks e hb).line.take s.nBoundaryPos := by
    rcases hpos : s.nBoundaryPos with _ | _ | _ | n
    · rfl
    · rfl
    · rfl
    · have hchars : (List.range n).map (charAt e.cStrBoundaryA) = e.cStrBoundaryA.take n := by
        refine List.ext_getElem (by simp; omega) fun k hk _ => ?_
        rw [List.length_map, List.length_range] at hk
        simp [charAt, show k < e.cStrBoundaryA.length by omega]
      simp [marks, Marks.line, hchars]
  rw [heldBack, htake]
  rcases hst with hst | hst
  · rw [Parser.mode, hst]
    rfl
  · rw [Parser.mode, hst]
    rfl

/-- The parser `s` is at a reader's place in the part that began in `s₁`. -/
structure Reads (written : φ → ω → List Byte) (s₁ s : Parser φ ω) (r : Reader Byte) : Prop where
  inData : s.nState.inData = true
  mode : s.mode = r.mode
  hasRead : HasRead written s₁ s r.read

section Reading

variable {written : φ → ω → List Byte} {s₁ s : Parser φ ω} {r r' : Reader Byte}

theorem Reads.nState_text (h : Reads written s₁ s r) (hmode : r.mode = .text) :
    s.nState = .data := by
  have hin := h.inData
  have hm := h.mode.trans hmode
  rw [Parser.mode] at hm
  cases hst : s.nState with
  | data => rfl
  | mayBeDataEnd => rw [hst] at hm; cases hm
  | mayBeDataEndAlt => rw [hst] at hm; cases hm
  | _ => rw [hst] at hin; cases hin

theorem Reads.nState_held (h : Reads written s₁ s r) {hasCr : Bool} {n : Nat}
    (hmode : r.mode = .held hasCr n) :
    (s.nState = .mayBeDataEnd ∨ s.nState = .mayBeDataEndAlt) ∧ s.nBoundaryPos = n := by
  have hin := h.inData
  have hm := h.mode.trans hmode
  rw [Parser.mode] at hm
  cases hst : s.nState with
  | data => rw [hst] at hm; cases hm
  | mayBeDataEnd =>
    rw [hst] at hm
    exact ⟨Or.inl rfl, (Mode.held.inj hm).2⟩
  | mayBeDataEndAlt =>
    rw [hst] at hm
    exact ⟨Or.inr rfl, (Mode.held.inj hm).2⟩
  | _ => rw [hst] at hin; cases hin

theorem Reads.inert (h : Reads written s₁ s r) : s.nState.inert = false := by
  have hin := h.inData
  cases hst : s.nState with
  | done => rw [hst] at hin; cases hin
  | error => rw [hst] at hin; cases hin
  | _ => rfl

/-- The parser writes outside its buffer or fails. -/
def Stops (r : Except Nat (Parser φ ω)) : Prop := ∀ s, r = .ok s → s.nState = .error

theorem stops_of_leave (hin : s.nState.inert = false) {ch : Byte} {hRes : HResult}
    {s' : Parser φ ω} (hturn : charTurn e .sOk s ch = .leave hRes s') :
    Stops (parseChar e s ch) := by
  have hspec := parseChar_spec (e := e) hin HResult.failed_sOk ch
  rw [hturn] at hspec
  intro s'' h
  obtain rfl := Except.ok.inj (h.symm.trans hspec)
  rfl

theorem stops_of_overrun (hin : s.nState.inert = false) {ch : Byte} {nIndex : Nat}
    (hturn : charTurn e .sOk s ch = .overrun nIndex) : Stops (parseChar e s ch) := by
  have hspec := parseChar_spec (e := e) hin HResult.failed_sOk ch
  rw [hturn] at hspec
  intro s'' h
  cases h.symm.trans hspec

theorem parseChar_next (hin : s.nState.inert = false) {ch : Byte} {hRes : HResult}
    {s' : Parser φ ω} (hturn : charTurn e .sOk s ch = .next hRes s') :
    parseChar e s ch = .ok s' := by
  have hspec := parseChar_spec (e := e) hin HResult.failed_sOk ch
  rw [hturn] at hspec
  exact hspec.2

variable (hw : WritesAll e written) (hmax : e.limits.ullMaxFileSize < 2 ^ 64)
include hw hmax

/-- A character of the data with nothing held back. -/
theorem parseChar_begin (hst : s.nState = .data) {data : List Byte}
    (h : HasRead written s₁ s data) (hle : data.length ≤ capacity e s₁) (ch : Byte) :
    ((begin (marks e hb) data ch).read.length ≤ capacity e s₁ →
      ∃ s', parseChar e s ch = .ok s' ∧ Reads written s₁ s' (begin (marks e hb) data ch)) ∧
    (capacity e s₁ < (begin (marks e hb) data ch).read.length → Stops (parseChar e s ch)) := by
  have hin : s.nState.inert = false := by rw [hst]; rfl
  have hturn : charTurn e .sOk s ch = dataTurn e s .sOk ch := by rw [charTurn, hst]
  rw [dataTurn] at hturn
  by_cases hcr : ch = chCR
  · have hbegin : begin (marks e hb) data ch = ⟨data, .held true 0⟩ := if_pos hcr
    rw [if_pos (by rw [hcr]; rfl)] at hturn
    rw [hbegin]
    exact ⟨fun _ => ⟨_, parseChar_next hin hturn, rfl, rfl, h.withState _ _⟩,
      fun hlt => absurd hle (Nat.not_le_of_lt hlt)⟩
  by_cases hlf : ch = chLF
  · have hbegin : begin (marks e hb) data ch = ⟨data, .held false 1⟩ :=
      (if_neg hcr).trans (if_pos hlf)
    rw [if_neg (by simpa using hcr), if_pos (by rw [hlf]; rfl)] at hturn
    rw [hbegin]
    exact ⟨fun _ => ⟨_, parseChar_next hin hturn, rfl, rfl, h.withState _ _⟩,
      fun hlt => absurd hle (Nat.not_le_of_lt hlt)⟩
  have hbegin : begin (marks e hb) data ch = ⟨data ++ [ch], .text⟩ :=
    (if_neg hcr).trans (if_neg hlf)
  rw [if_neg (by simpa using hcr), if_neg (by simpa using hlf)] at hturn
  rw [hbegin]
  constructor
  · intro hfits
    rw [List.length_append] at hfits
    obtain ⟨s', hs', hst', -, h'⟩ := accumulateData_fits hw hmax.le h hfits ch
    rw [hs'] at hturn
    have hmode : s'.mode = .text := by rw [Parser.mode, hst', hst]
    exact ⟨s', parseChar_next hin hturn, by rw [hst', hst]; rfl, hmode, h'⟩
  · intro hfull
    rw [List.length_append] at hfull
    have hfails := accumulateData_fails hmax h (hle.antisymm (Nat.le_of_lt_succ hfull)) ch
    cases hacc : accumulateData e s ch with
    | error nIndex =>
      rw [hacc] at hturn
      exact stops_of_overrun hin hturn
    | ok res =>
      rw [hacc] at hturn
      dsimp only at hturn
      rw [if_pos (hfails res.1 res.2 hacc)] at hturn
      exact stops_of_leave hin hturn

/-- **The parser takes a character as the reader does**, as long as the text fits. -/
theorem parseChar_reads (h : Reads written s₁ s r) (hr : r.Unfinished (marks e hb))
    (hle : r.read.length ≤ capacity e s₁) {ch : Byte} (hstep : step (marks e hb) r ch = .ok r') :
    (r'.read.length ≤ capacity e s₁ → ∃ s', parseChar e s ch = .ok s' ∧ Reads written s₁ s' r') ∧
    (capacity e s₁ < r'.read.length → Stops (parseChar e s ch)) := by
  rw [step] at hstep
  cases hmode : r.mode with
  | text =>
    rw [hmode] at hstep
    obtain rfl := Except.ok.inj hstep
    exact parseChar_begin hw hmax (h.nState_text hmode) h.hasRead hle ch
  | held hasCr n =>
    obtain ⟨hst, hpos⟩ := h.nState_held hmode
    have hn : s.nBoundaryPos < (marks e hb).line.length := by
      rw [hpos]
      exact (hr hasCr n hmode).1
    have hturn : charTurn e .sOk s ch = mayBeDataEndTurn e .sOk s ch := by
      rcases hst with hst | hst <;> rw [charTurn, hst]
    rw [mayBeDataEndTurn] at hturn
    rw [hmode] at hstep
    dsimp only at hstep
    by_cases hnext : (marks e hb).line[n]? = some ch
    · have hnot : ¬ isNotBoundary e s ch = true := by
        rw [Bool.not_eq_true, isNotBoundary_eq hn, hpos]
        exact hnext
      rw [if_pos hnext] at hstep
      split at hstep
      · cases hstep
      · next hlast =>
        obtain rfl := Except.ok.inj hstep
        rw [← hpos, ← isBoundaryEnd_iff hn] at hlast
        rw [if_neg hnot, if_neg hlast] at hturn
        refine ⟨fun _ => ⟨_, parseChar_next h.inert hturn, h.inData, ?_, h.hasRead.withState _ _⟩,
          fun hlt => absurd hle (Nat.not_le_of_lt hlt)⟩
        have hm := h.mode.trans hmode
        rw [Parser.mode] at hm ⊢
        rcases hst with hst | hst
        · simp only [hst, Mode.held.injEq] at hm ⊢
          exact ⟨hm.1, congrArg (· + 1) hm.2⟩
        · simp only [hst, Mode.held.injEq] at hm ⊢
          exact ⟨hm.1, congrArg (· + 1) hm.2⟩
    · have hnot : isNotBoundary e s ch = true := by
        rw [← Bool.not_eq_false, isNotBoundary_eq hn, hpos]
        exact hnext
      rw [if_neg hnext] at hstep
      obtain rfl := Except.ok.inj hstep
      have hheld : heldBack e s = heldText (marks e hb) r.mode := by rw [heldBack_eq hst hn, h.mode]
      have hall : r.read ++ heldBack e s = r.all (marks e hb) := by rw [hheld, Reader.all]
      have hmono := (begin_read (m := marks e hb) (r.all (marks e hb)) ch).length_le
      rw [if_pos hnot] at hturn
      by_cases hfits : (r.all (marks e hb)).length ≤ capacity e s₁
      · obtain ⟨hRes, s', hs', hok, h'⟩ := accumulateAll_fits hw hmax.le (heldBack e s)
          h.hasRead (by rw [hall]; exact hfits) HResult.failed_sOk
        rw [hs'] at hturn
        dsimp only at hturn
        rw [if_neg (by rw [hok]; exact Bool.false_ne_true)] at hturn
        obtain ⟨-, -, hagain⟩ := parseChar_again h.inert rfl hturn
        rw [hall] at h'
        rw [hagain]
        exact parseChar_begin hw hmax rfl (h'.withState .data s'.nBoundaryPos) hfits ch
      · refine ⟨fun hle' => absurd (hmono.trans hle') hfits, fun _ => ?_⟩
        have hfails := accumulateAll_fails hw hmax (heldBack e s) .sOk h.hasRead hle
          (by rw [hall]; exact Nat.lt_of_not_le hfits)
        cases hacc : accumulateAll e .sOk s (heldBack e s) with
        | error nIndex =>
          rw [hacc] at hturn
          exact stops_of_overrun h.inert hturn
        | ok res =>
          rw [hacc] at hturn
          dsimp only at hturn
          rw [if_pos (hfails res.1 res.2 hacc)] at hturn
          exact stops_of_leave h.inert hturn

/-- **The parser reads the characters of a part as the reader does**, as long as the
text fits, and stops otherwise. -/
theorem feed_reads {l : List Byte} : ∀ {s : Parser φ ω} {r r' : Reader Byte},
    Reads written s₁ s r → r.Unfinished (marks e hb) → r.read.length ≤ capacity e s₁ →
    feed (step (marks e hb)) r l = .ok r' →
    (r'.read.length ≤ capacity e s₁ →
      ∃ s', feed (parseChar e) s l = .ok s' ∧ Reads written s₁ s' r') ∧
    (capacity e s₁ < r'.read.length → Stops (feed (parseChar e) s l)) := by
  induction l with
  | nil =>
    intro s r r' h _ hle hfeed
    obtain rfl := Except.ok.inj hfeed
    exact ⟨fun _ => ⟨s, rfl, h⟩, fun hlt => absurd hle (Nat.not_le_of_lt hlt)⟩
  | cons ch l ih =>
    intro s r r' h hr hle hfeed
    cases hstep : step (marks e hb) r ch with
    | error text =>
      rw [feed_cons_error hstep] at hfeed
      cases hfeed
    | ok r₁ =>
      rw [feed_cons_ok hstep] at hfeed
      obtain ⟨hr₁, -, -⟩ := step_ok hr hstep
      have hmono := (feed_ok hr₁ hfeed).2.length_le
      obtain ⟨hfits, hstops⟩ := parseChar_reads hw hmax h hr hle hstep
      by_cases hle₁ : r₁.read.length ≤ capacity e s₁
      · obtain ⟨s', hs', h'⟩ := hfits hle₁
        rw [feed_cons_ok hs']
        exact ih h' hr₁ hle₁ hfeed
      · refine ⟨fun hle' => absurd (hmono.trans hle') hle₁, fun _ => ?_⟩
        have hstop := hstops (Nat.lt_of_not_le hle₁)
        intro s' hs'
        cases hchar : parseChar e s ch with
        | error nIndex =>
          rw [feed_cons_error hchar] at hs'
          cases hs'
        | ok s₂ =>
          have herror := hstop s₂ hchar
          rw [feed_cons_ok hchar, feed_inert (by rw [herror]; rfl)] at hs'
          obtain rfl := Except.ok.inj hs'
          exact herror

end Reading

/-- The delimiter is recognised where the reader stops. -/
theorem closesPart_iff {written : φ → ω → List Byte} {s₁ s : Parser φ ω} {r : Reader Byte}
    (h : Reads written s₁ s r) (hr : r.Unfinished (marks e hb)) (ch : Byte) :
    closesPart e s ch = true ↔ ∃ text, step (marks e hb) r ch = .error text := by
  rw [step]
  cases hmode : r.mode with
  | text =>
    rw [closesPart, h.nState_text hmode]
    simp
  | held hasCr n =>
    obtain ⟨hst, hpos⟩ := h.nState_held hmode
    have hn : s.nBoundaryPos < (marks e hb).line.length := by
      rw [hpos]
      exact (hr hasCr n hmode).1
    have hheld : (s.nState == .mayBeDataEnd || s.nState == .mayBeDataEndAlt) = true := by
      rcases hst with hst | hst <;> rw [hst] <;> rfl
    rw [closesPart, hheld, Bool.true_and, Bool.and_eq_true, Bool.not_eq_true',
      isNotBoundary_eq hn, isBoundaryEnd_iff hn, hpos]
    dsimp only
    split_ifs with hnext hlast
    · simp [hnext, hlast]
    · simp [hlast]
    · simp [hnext]

/-- A character looked at again does not end a part. -/
theorem closesPart_of_mayPushBack {s : Parser φ ω} (h : s.nState.mayPushBack = 0) (ch : Byte) :
    closesPart e s ch = false := by
  rw [closesPart]
  cases hst : s.nState with
  | mayBeDataEnd => rw [hst] at h; cases h
  | mayBeDataEndAlt => rw [hst] at h; cases h
  | _ => rfl

/-- A turn that ends a part looks at the parser that the characters before lead to. -/
theorem Follows.eq_of_closesPart {s₀ : Parser φ ω} {c : Cursor φ ω} (h : Follows e s₀ c)
    {ch : Byte} (hclose : closesPart e c.s ch = true) : c.s = s₀ := by
  rcases h with h | ⟨hzero, -⟩
  · exact h
  · rw [closesPart_of_mayPushBack hzero] at hclose
    cases hclose

end Delimiter

/-! ### A part of a body -/

section Part

variable {written : φ → ω → List Byte} {world : ω} {pre : List Byte} {s₀ s₁ : Parser φ ω}
  {content : List Byte} {hasCr : Bool} {post : List Byte} {bufs : List (List Byte)}

theorem reads_start {s₁ : Parser φ ω} (h : DataStart s₁) : Reads written s₁ s₁ .start :=
  ⟨by rw [h.nState]; rfl, by rw [Parser.mode, h.nState]; rfl, h.hasRead⟩

/-- A part in a body: the reader comes to the last character of the delimiter with
the content. -/
theorem exists_text (hb : IsBoundary e.cStrBoundaryA) (hfree : ¬ delimiter e false <:+: content)
    (hlast : hasCr = false → content.getLast? ≠ some chCR)
    (hbufs : bufs.flatten = pre ++ chLF :: (content ++ delimiter e hasCr ++ post)) :
    ∃ text last, bufs.flatten = (pre ++ [chLF]) ++ (text ++ last :: post) ∧
      pre.length + (content ++ delimiter e hasCr).length = (pre ++ [chLF] ++ text).length ∧
      feed (step (marks e hb)) .start text =
        .ok ⟨content, .held hasCr (marks e hb).tail.length⟩ ∧
      step (marks e hb) ⟨content, .held hasCr (marks e hb).tail.length⟩ last = .error content := by
  obtain ⟨last, hdelimiter, hstep⟩ := exists_last (marks e hb) hasCr
  rw [marks_delimiter] at hdelimiter
  have hsplit : content ++ delimiter e hasCr =
      content ++ (delimiter e hasCr).dropLast ++ [last] := by
    rw [List.append_assoc, ← hdelimiter]
  refine ⟨content ++ (delimiter e hasCr).dropLast, last, ?_, ?_, ?_, hstep content⟩
  · rw [hbufs, hsplit]
    simp
  · rw [hsplit]
    simp only [List.length_append, List.length_singleton]
    omega
  · exact feed_dropLast (m := marks e hb) hfree hlast

variable (hb : IsBoundary e.cStrBoundaryA) (hw : WritesAll e written)
  (hmax : e.limits.ullMaxFileSize < 2 ^ 64)
  (hpre : feed (parseChar e) (.create world) pre = .ok s₀) (hheaders : s₀.nState = .headersEnding)
  (hlf : parseChar e s₀ chLF = .ok s₁) (hdata : s₁.nState = .data)
  (hfree : ¬ delimiter e false <:+: content)
  (hlast : hasCr = false → content.getLast? ≠ some chCR)
  (hbufs : bufs.flatten = pre ++ chLF :: (content ++ delimiter e hasCr ++ post))
include hb hw hmax hpre hheaders hlf hdata hfree hlast hbufs

/-- A part that is longer than its capacity never comes to its delimiter. -/
theorem not_partRead (hlt : capacity e s₁ < content.length) (data : List Byte) :
    ¬ PartRead e written world bufs (pre.length + 1)
        (pre.length + (content ++ delimiter e hasCr).length) data := by
  have hstart := dataStart_of_feed hpre hheaders hlf hdata
  have hfeed : feed (parseChar e) (.create world) (pre ++ [chLF]) = .ok s₁ := by
    rw [feed_append hpre, feed_singleton, hlf]
  obtain ⟨text, last, hbody, hnLast, hreader, -⟩ := exists_text hb hfree hlast hbufs
  rw [hnLast]
  rintro ⟨⟨c, ch, hturn, -, hclose, -⟩, -⟩
  obtain ⟨-, s', hs', hfollows⟩ := follows_of_turnAt hturn
  rw [hbody, ← List.append_assoc, List.take_left, feed_append hfeed] at hs'
  have hstop := (feed_reads hw hmax (reads_start hstart) start_unfinished (Nat.zero_le _)
    hreader).2 hlt s' hs'
  rw [hfollows.eq_of_closesPart hclose, closesPart, hstop] at hclose
  cases hclose

/-- A part within its capacity is read up to its delimiter. -/
theorem partRead_of_le (hle : content.length ≤ capacity e s₁) :
    PartRead e written world bufs (pre.length + 1)
      (pre.length + (content ++ delimiter e hasCr).length) (partData e written s₁ ++ content) := by
  have hstart := dataStart_of_feed hpre hheaders hlf hdata
  have hreads : Reads written s₁ s₁ .start := reads_start hstart
  have hfeed : feed (parseChar e) (.create world) (pre ++ [chLF]) = .ok s₁ := by
    rw [feed_append hpre, feed_singleton, hlf]
  obtain ⟨text, last, hbody, hnLast, hreader, hstep⟩ := exists_text hb hfree hlast hbufs
  rw [hnLast]
  refine ⟨?_, ?_⟩
  · obtain ⟨s', hs', hreads'⟩ :=
      (feed_reads hw hmax hreads start_unfinished (Nat.zero_le _) hreader).1 hle
    have hpart : feed (parseChar e) (.create world) (pre ++ [chLF] ++ text) = .ok s' := by
      rw [feed_append hfeed, hs']
    obtain ⟨hRes, rest, hturn⟩ :=
      exists_turnAt (e := e) hreads'.inert (by rw [hbody, ← List.append_assoc]) hpart
    refine ⟨_, last, hturn, rfl, ?_, hreads'.hasRead.partData_eq hw hstart⟩
    exact (closesPart_iff hreads' (feed_ok start_unfinished hreader).1 last).mpr ⟨content, hstep⟩
  · intro n c ch hturn hhead hfirst hn
    rw [← Bool.not_eq_true]
    intro hclose
    obtain ⟨hrest, s', hs', hfollows⟩ := follows_of_turnAt hturn
    rw [hfollows.eq_of_closesPart hclose] at hclose
    -- the turn is at character `k` of the text of the part
    obtain ⟨k, rfl⟩ : ∃ k, n = (pre ++ [chLF]).length + k :=
      ⟨n - (pre ++ [chLF]).length, by simp; omega⟩
    have hk : k < text.length := by
      have hlength : (pre ++ [chLF] ++ text).length = (pre ++ [chLF]).length + text.length :=
        List.length_append
      omega
    rw [hbody, List.drop_length_add_append, List.drop_append_of_le_length hk.le,
      List.drop_eq_getElem_cons hk] at hrest
    have hch : text[k] = ch := by
      obtain ⟨szDataA, hszDataA⟩ := List.head?_eq_some_iff.mp hhead
      rw [hszDataA] at hrest
      obtain ⟨t, ht⟩ := hrest
      exact (List.cons.inj ht).1.symm
    have hcut : text = text.take k ++ text[k] :: text.drop (k + 1) := by
      rw [← List.drop_eq_getElem_cons hk, List.take_append_drop]
    rw [hbody, List.take_length_add_append, List.take_append_of_le_length hk.le,
      feed_append hfeed] at hs'
    have hreader' := hreader
    rw [hcut] at hreader'
    obtain ⟨r, hr, hend⟩ := exists_feed_of_append hreader'
    obtain ⟨hunfinished, -⟩ := feed_ok start_unfinished hr
    have hle' := (feed_ok hunfinished hend).2.length_le
    obtain ⟨s'', hs'', hreads'⟩ :=
      (feed_reads hw hmax hreads start_unfinished (Nat.zero_le _) hr).1 (hle'.trans hle)
    obtain rfl := Except.ok.inj (hs'.symm.trans hs'')
    obtain ⟨text', hstop⟩ := (closesPart_iff hreads' hunfinished ch).mp hclose
    rw [hch, feed_cons_error hstop] at hend
    cases hend

end Part

/-- **A part is read exactly when its content fits into what `AccumulateData`
takes**: in any body with a part whose content does not hold the delimiter, and
however the body is cut into buffers, the parser recognises the delimiter behind the
content, not before, and has accumulated the content, byte for byte, then. -/
theorem partRead_iff (e : Env φ ω) (written : φ → ω → List Byte) (hb : IsBoundary e.cStrBoundaryA)
    (hw : WritesAll e written) (hmax : e.limits.ullMaxFileSize < 2 ^ 64) (world : ω)
    {pre : List Byte} {s₀ s₁ : Parser φ ω} (hpre : feed (parseChar e) (.create world) pre = .ok s₀)
    (hheaders : s₀.nState = .headersEnding) (hlf : parseChar e s₀ chLF = .ok s₁)
    (hdata : s₁.nState = .data) (content : List Byte) (hasCr : Bool)
    (hfree : ¬ delimiter e false <:+: content)
    (hlast : hasCr = false → content.getLast? ≠ some chCR) (post : List Byte)
    (bufs : List (List Byte))
    (hbufs : bufs.flatten = pre ++ chLF :: (content ++ delimiter e hasCr ++ post)) :
    PartRead e written world bufs (pre.length + 1)
        (pre.length + (content ++ delimiter e hasCr).length) (partData e written s₁ ++ content) ↔
      content.length ≤ capacity e s₁ := by
  constructor
  · intro hread
    by_contra hlt
    exact not_partRead hb hw hmax hpre hheaders hlf hdata hfree hlast hbufs (Nat.lt_of_not_le hlt)
      _ hread
  · exact partRead_of_le hb hw hmax hpre hheaders hlf hdata hfree hlast hbufs

/-- Settings under which the head of a part is parsed.  The world is what was written
to the one file there is. -/
def partEnv (bHasFileName : Bool) : Env Unit (List Byte) where
  cStrBoundaryA := ascii "b"
  limits := .create 256000 2097152 4
  contentDisposition := fun _ => .ok ⟨ascii "form-data", wide "a", bHasFileName, wide "f"⟩
  contentType := fun _ => .ok []
  contentTransferEncoding := fun _ => .ok true
  cDownloadStartedCallback := some fun _ world => (.sOk, some (), world)
  writeFile := fun _ l world => (.ok l.length, world ++ l)
  addField := fun _ _ world => (.sOk, world)
  addFileField := fun _ _ _ _ world => (.sOk, world)

theorem partEnv_writesAll (bHasFileName : Bool) :
    WritesAll (partEnv bHasFileName) fun _ world => world :=
  ⟨fun _ l world _ => ⟨world ++ l, rfl, rfl⟩⟩

theorem partEnv_isBoundary (bHasFileName : Bool) :
    IsBoundary (partEnv bHasFileName).cStrBoundaryA := by
  refine ⟨?_, ?_, ?_, ?_⟩ <;> simp [partEnv, ascii, chCR, chLF]

theorem longFieldHead_append (l : List Byte) :
    longFieldHead ++ l = longFieldHead.dropLast ++ chLF :: l := by
  have heq : longFieldHead = longFieldHead.dropLast ++ [chLF] := by
    rw [longFieldHead_eq]
    decide
  rw [List.append_cons, ← heq]

theorem exists_of_toOption_map {ε α β : Type} {x : Except ε α} {f : α → β} {b : β}
    (h : x.toOption.map f = some b) : ∃ a, x = .ok a ∧ f a = b := by
  cases x with
  | error r => cases h
  | ok a => exact ⟨a, rfl, Option.some.inj h⟩

/-- The parser at the end of the headers of a part, and after them. -/
theorem partEnv_start (bHasFileName : Bool) :
    ∃ s₀ s₁, feed (parseChar (partEnv bHasFileName)) (.create []) longFieldHead.dropLast = .ok s₀ ∧
      s₀.nState = .headersEnding ∧ parseChar (partEnv bHasFileName) s₀ chLF = .ok s₁ ∧
      s₁.nState = .data ∧ s₁.cFileH = (if bHasFileName then some () else none) ∧
      s₁.world = [] := by
  have hheaders : ((feed (parseChar (partEnv bHasFileName)) (.create [])
      longFieldHead.dropLast).toOption.map fun s => s.nState) = some .headersEnding := by
    rw [longFieldHead_eq]
    cases bHasFileName <;> decide
  have hdata : ((feed (parseChar (partEnv bHasFileName)) (.create []) longFieldHead).toOption.map
      fun s => (s.nState, s.cFileH, s.world)) =
        some (.data, if bHasFileName then some () else none, []) := by
    rw [longFieldHead_eq]
    cases bHasFileName <;> decide
  obtain ⟨s₀, hpre, hst₀⟩ := exists_of_toOption_map hheaders
  obtain ⟨s₁, hfeed, hst₁⟩ := exists_of_toOption_map hdata
  rw [← List.append_nil longFieldHead, longFieldHead_append, feed_append hpre,
    feed_singleton] at hfeed
  simp only [Prod.mk.injEq] at hst₁
  exact ⟨s₀, s₁, hpre, hst₀, hfeed, hst₁⟩

/-- A part that goes to a file and holds beginnings of the delimiter, cut inside two
of them. -/
theorem partRead_file :
    PartRead (partEnv true) (fun _ world => world) []
      [longFieldHead ++ ascii "x\r", ascii "\n--\r\r\n-", ascii "y\n\r\n-", ascii "-b--"] 45 60
      (ascii "x\r\n--\r\r\n-y\n") := by
  obtain ⟨s₀, s₁, hpre, hheaders, hlf, hdata, hfile, hworld⟩ := partEnv_start true
  have hcapacity : capacity (partEnv true) s₁ = 2097151 := capacity_file hfile
  have hdata₁ : partData (partEnv true) (fun _ world => world) s₁ = [] := by
    have hstart := dataStart_of_feed hpre hheaders hlf hdata
    rw [partData, hfile]
    simp [writeBuffered, Parser.buffered, hstart.nUsedTempBuf, partEnv, hworld]
  have hread := (partRead_iff (partEnv true) (fun _ world => world) (partEnv_isBoundary true)
    (partEnv_writesAll true) (by decide) [] hpre hheaders hlf hdata
    (ascii "x\r\n--\r\r\n-y\n") true (by decide) (fun h => by cases h) (ascii "--")
    [longFieldHead ++ ascii "x\r", ascii "\n--\r\r\n-", ascii "y\n\r\n-", ascii "-b--"]
    (by decide)).mpr (by rw [hcapacity]; decide)
  rw [hdata₁] at hread
  exact hread

/-- A field of 16385 bytes, which the limits allow, is not read. -/
theorem partRead_lost :
    (List.replicate 16385 (0x61 : Byte)).length ≤ (partEnv false).limits.dwMaxFieldSize ∧
      ¬ PartRead (partEnv false) (fun _ world => world) []
          [longFieldHead ++ (List.replicate 16385 0x61 ++ delimiter (partEnv false) true)] 45 16434
          (List.replicate 16385 0x61) := by
  obtain ⟨s₀, s₁, hpre, hheaders, hlf, hdata, hfile, -⟩ := partEnv_start false
  have hcapacity : capacity (partEnv false) s₁ = 16384 := capacity_field hfile
  have hfree : ¬ delimiter (partEnv false) false <:+: List.replicate 16385 (0x61 : Byte) := by
    intro h
    have hmem := h.subset (show chLF ∈ delimiter (partEnv false) false from List.mem_cons_self)
    exact absurd (List.eq_of_mem_replicate hmem) (by decide)
  refine ⟨by rw [List.length_replicate]; decide, ?_⟩
  have hbufs : [longFieldHead ++ (List.replicate 16385 0x61 ++
      delimiter (partEnv false) true)].flatten =
      longFieldHead.dropLast ++ chLF :: (List.replicate 16385 0x61 ++
        delimiter (partEnv false) true ++ []) := by
    rw [List.flatten_singleton, longFieldHead_append, List.append_nil]
  have hnot := not_partRead (partEnv_isBoundary false) (partEnv_writesAll false) (by decide) hpre
    hheaders hlf hdata hfree (fun h => by cases h) hbufs
    (by rw [hcapacity, List.length_replicate]; decide) (List.replicate 16385 0x61)
  rw [List.length_append, List.length_replicate] at hnot
  exact hnot

end Parts

end MxLib.Http.Multipart
