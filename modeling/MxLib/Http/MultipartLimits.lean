import MxLib.Http.MultipartParts

/-!
# The size limits of the multipart parser

A part is accepted when its delimiter is recognised with all of its content, and
rejected when the parser fails before.  `AccumulateData` tests the size of a field
before it adds the byte and the size of a file after it has counted it, so a file of
exactly `ullMaxFileSize` bytes is rejected; and a field outgrows `aTempBuf` long before
it comes to `dwMaxFieldSize` (`limitExact_iff`).  A file that nobody has opened is read
like a field.
-/

namespace MxLib.Http.Multipart

open MxLib.Library MxLib.Library.Stream MxLib.Library.Delimiter

section Limits

variable {φ ω : Type} (e : Env φ ω)

/-- The limit for a part, a file or a plain field. -/
def sizeLimit (s : Parser φ ω) : Nat :=
  if s.sCurrentBlock.sContentDisposition.bHasFileName then e.limits.ullMaxFileSize
  else e.limits.dwMaxFieldSize

/-- The parser fails in the part whose delimiter would end at character `nLast`: it is
in the state of an error after the last call, and has not recognised the delimiter. -/
structure PartRejected (written : φ → ω → List Byte) (world : ω) (bufs : List (List Byte))
    (nFirst nLast : Nat) : Prop where
  error : ∃ s, parseCalls e (.create world) (bufs.map some) = .ok s ∧ s.nState = .error
  notRead : ∀ data, ¬ PartRead e written world bufs nFirst nLast data

/-- A part is accepted up to its limit, and rejected above. -/
structure LimitExact (written : φ → ω → List Byte) (world : ω) (bufs : List (List Byte))
    (nFirst nLast : Nat) (s₁ : Parser φ ω) (content : List Byte) : Prop where
  accepted : content.length ≤ sizeLimit e s₁ →
    PartRead e written world bufs nFirst nLast (partData e written s₁ ++ content)
  rejected : sizeLimit e s₁ < content.length → PartRejected e written world bufs nFirst nLast

/-- What is read like a field is not longer than `aTempBuf`, nor than a file may be when
it is one; an open file does not have exactly the size of the limit. -/
def AwayFromLimit (s : Parser φ ω) (content : List Byte) : Prop :=
  match s.cFileH with
  | none => content.length ≤ tempBufSize ∧
      (s.sCurrentBlock.sContentDisposition.bHasFileName = true →
        content.length ≤ e.limits.ullMaxFileSize)
  | some _ => content.length ≠ e.limits.ullMaxFileSize ∨ content = []

variable {e}

/-! ### Where a part is given up -/

/-- Bytes of a field that are stored do not fail. -/
theorem accumulateAll_field_ok (l : List Byte) : ∀ {s s' : Parser φ ω} {hRes hRes' : HResult},
    s.cFileH = none → s.nUsedTempBuf = s.cStrCurrLineA.length → hRes.failed = false →
    accumulateAll e hRes s l = .ok (hRes', s') →
    hRes'.failed = false ∧ s'.cFileH = none ∧ s'.nUsedTempBuf = s'.cStrCurrLineA.length := by
  induction l with
  | nil =>
    intro s s' hRes hRes' hf hu hok h
    obtain ⟨rfl, rfl⟩ := Prod.mk.inj (Except.ok.inj h)
    exact ⟨hok, hf, hu⟩
  | cons ch l ih =>
    intro s s' hRes hRes' hf hu hok h
    by_cases hfull : tempBufSize ≤ s.nUsedTempBuf
    · rw [accumulateAll_cons_error (accumulateData_full hfull ch)] at h
      cases h
    · obtain ⟨s₂, hs₂, -, hf₂, hu₂, -⟩ := accumulateData_field (e := e) hf hu (by omega) ch
      rw [accumulateAll_cons_ok hs₂, if_neg (by decide)] at h
      exact ih hf₂ hu₂ HResult.failed_sOk h

/-- A character of a field that is stored does not fail. -/
theorem parseChar_field_data {s s' : Parser φ ω} (hst : s.nState = .data) (hf : s.cFileH = none)
    (hu : s.nUsedTempBuf = s.cStrCurrLineA.length) {ch : Byte} (h : parseChar e s ch = .ok s') :
    s'.nState ≠ .error := by
  have hspec := parseChar_spec (e := e) (s := s) (by rw [hst]; rfl) HResult.failed_sOk ch
  have hturn : charTurn e .sOk s ch = dataTurn e s .sOk ch := by rw [charTurn, hst]
  rw [hturn, dataTurn] at hspec
  split_ifs at hspec
  · obtain rfl := Except.ok.inj (h.symm.trans hspec.2)
    exact fun hst => by cases hst
  · obtain rfl := Except.ok.inj (h.symm.trans hspec.2)
    exact fun hst => by cases hst
  by_cases hfull : tempBufSize ≤ s.nUsedTempBuf
  · rw [accumulateData_full hfull] at hspec
    cases h.symm.trans hspec
  · obtain ⟨s₂, hs₂, hst₂, -, -, -⟩ := accumulateData_field (e := e) hf hu (by omega) ch
    rw [hs₂] at hspec
    dsimp only at hspec
    rw [if_neg (by decide)] at hspec
    obtain rfl := Except.ok.inj (h.symm.trans hspec.2)
    rw [hst₂, hst]
    exact fun hst => by cases hst

/-- A character of a file is never written outside the buffer. -/
theorem parseChar_file_data {s : Parser φ ω} {file : φ} (hst : s.nState = .data)
    (hf : s.cFileH = some file) (hu : s.nUsedTempBuf < tempBufSize) (ch : Byte) :
    ∃ s', parseChar e s ch = .ok s' := by
  have hspec := parseChar_spec (e := e) (s := s) (by rw [hst]; rfl) HResult.failed_sOk ch
  have hturn : charTurn e .sOk s ch = dataTurn e s .sOk ch := by rw [charTurn, hst]
  rw [hturn, dataTurn] at hspec
  split_ifs at hspec
  · exact ⟨_, hspec.2⟩
  · exact ⟨_, hspec.2⟩
  obtain ⟨hRes, s₂, hs₂, -⟩ := accumulateData_file (e := e) hf hu ch
  rw [hs₂] at hspec
  dsimp only at hspec
  split_ifs at hspec
  · exact ⟨_, hspec⟩
  · exact ⟨_, hspec.2⟩

section Reading

variable {hb : IsBoundary e.cStrBoundaryA} {written : φ → ω → List Byte} {s₁ s : Parser φ ω}
  {r r' : Reader Byte}

theorem parseChar_field (h : Reads written s₁ s r) (hf : s₁.cFileH = none)
    (hr : r.Unfinished (marks e hb)) {ch : Byte} (hstep : step (marks e hb) r ch = .ok r')
    {s' : Parser φ ω} (hchar : parseChar e s ch = .ok s') : s'.nState ≠ .error := by
  have hfile := h.hasRead.cFileH.trans hf
  obtain ⟨hline, hused⟩ := h.hasRead.field hfile
  have hu : s.nUsedTempBuf = s.cStrCurrLineA.length := by rw [hused, hline]
  cases hmode : r.mode with
  | text => exact parseChar_field_data (h.nState_text hmode) hfile hu hchar
  | held hasCr n =>
    obtain ⟨hst, hpos⟩ := h.nState_held hmode
    have hturn : charTurn e .sOk s ch = mayBeDataEndTurn e .sOk s ch := by
      rcases hst with hst | hst <;> rw [charTurn, hst]
    have hspec := parseChar_spec (e := e) h.inert HResult.failed_sOk ch
    have hopen : closesPart e s ch = false := by
      rw [← Bool.not_eq_true, closesPart_iff h hr]
      rintro ⟨text, htext⟩
      cases hstep.symm.trans htext
    rw [mayBeDataEndTurn] at hturn
    by_cases hnot : isNotBoundary e s ch = true
    · rw [if_pos hnot] at hturn
      cases hall : accumulateAll e .sOk s (heldBack e s) with
      | error nIndex =>
        rw [hall] at hturn
        rw [hturn] at hspec
        cases hchar.symm.trans hspec
      | ok res =>
        obtain ⟨hok, hfile', hu'⟩ := accumulateAll_field_ok (heldBack e s) hfile hu HResult.failed_sOk hall
        rw [hall] at hturn
        dsimp only at hturn
        rw [if_neg (by rw [hok]; exact Bool.false_ne_true)] at hturn
        obtain ⟨-, -, hagain⟩ := parseChar_again h.inert rfl hturn
        rw [hagain] at hchar
        exact parseChar_field_data (s := { res.2 with nState := .data }) rfl hfile' hu' hchar
    · have hend : ¬ isBoundaryEnd e s = true := by
        intro hend
        rw [closesPart, hend, Bool.eq_false_iff.mpr hnot] at hopen
        rcases hst with hst | hst <;> simp [hst] at hopen
      rw [if_neg hnot, if_neg hend] at hturn
      rw [hturn] at hspec
      obtain rfl := Except.ok.inj (hchar.symm.trans hspec.2)
      rcases hst with hst | hst
      · exact fun hst' => by cases hst.symm.trans hst'
      · exact fun hst' => by cases hst.symm.trans hst'

theorem parseChar_file (h : Reads written s₁ s r) {file : φ} (hf : s₁.cFileH = some file) (ch : Byte) :
    ∃ s', parseChar e s ch = .ok s' := by
  have hfile := h.hasRead.cFileH.trans hf
  have hu := (h.hasRead.file file hfile).2.1
  cases hmode : r.mode with
  | text => exact parseChar_file_data (h.nState_text hmode) hfile hu ch
  | held hasCr n =>
    obtain ⟨hst, hpos⟩ := h.nState_held hmode
    have hturn : charTurn e .sOk s ch = mayBeDataEndTurn e .sOk s ch := by
      rcases hst with hst | hst <;> rw [charTurn, hst]
    have hspec := parseChar_spec (e := e) h.inert HResult.failed_sOk ch
    rw [mayBeDataEndTurn] at hturn
    by_cases hnot : isNotBoundary e s ch = true
    · obtain ⟨hRes', s', hall, hfile', -, hu'⟩ :=
        accumulateAll_file (e := e) (heldBack e s) .sOk hfile hu
      rw [if_pos hnot, hall] at hturn
      dsimp only at hturn
      cases hfail : hRes'.failed with
      | true =>
        rw [if_pos hfail] at hturn
        rw [hturn] at hspec
        exact ⟨_, hspec⟩
      | false =>
        rw [if_neg (by rw [hfail]; exact Bool.false_ne_true)] at hturn
        obtain ⟨-, -, hagain⟩ := parseChar_again h.inert rfl hturn
        rw [hagain]
        exact parseChar_file_data (s := { s' with nState := .data }) rfl hfile' (hu' hfail) ch
    · rw [if_neg hnot] at hturn
      split_ifs at hturn
      · dsimp only at hturn
        split_ifs at hturn
        · rw [hturn] at hspec
          exact ⟨_, hspec⟩
        · rw [hturn] at hspec
          exact ⟨_, hspec.2⟩
      · rw [hturn] at hspec
        exact ⟨_, hspec.2⟩

variable (hw : WritesAll e written) (hmax : e.limits.ullMaxFileSize < 2 ^ 64)
include hw hmax

/-- **How a part that does not fit is given up**: a field by a write outside the buffer,
a file by an error. -/
theorem feed_givenUp {l : List Byte} : ∀ {s : Parser φ ω} {r r' : Reader Byte},
    Reads written s₁ s r → r.Unfinished (marks e hb) → r.read.length ≤ capacity e s₁ →
    feed (step (marks e hb)) r l = .ok r' → capacity e s₁ < r'.read.length →
    (s₁.cFileH = none → ∃ nIndex, feed (parseChar e) s l = .error nIndex) ∧
      (∀ file, s₁.cFileH = some file → ∃ s', feed (parseChar e) s l = .ok s' ∧ s'.nState = .error) := by
  induction l with
  | nil =>
    intro s r r' h _ hle hfeed hlt
    obtain rfl := Except.ok.inj hfeed
    exact absurd hle (Nat.not_le_of_lt hlt)
  | cons ch l ih =>
    intro s r r' h hr hle hfeed hlt
    cases hstep : step (marks e hb) r ch with
    | error text =>
      rw [feed_cons_error hstep] at hfeed
      cases hfeed
    | ok r₁ =>
      rw [feed_cons_ok hstep] at hfeed
      obtain ⟨hfits, hstops⟩ := parseChar_reads hw hmax h hr hle hstep
      by_cases hle₁ : r₁.read.length ≤ capacity e s₁
      · obtain ⟨s', hs', h'⟩ := hfits hle₁
        rw [feed_cons_ok hs']
        exact ih h' (step_ok hr hstep).1 hle₁ hfeed hlt
      · have hstop := hstops (Nat.lt_of_not_le hle₁)
        refine ⟨fun hf => ?_, fun file hf => ?_⟩
        · cases hchar : parseChar e s ch with
          | error nIndex => exact ⟨nIndex, feed_cons_error hchar l⟩
          | ok s' => exact absurd (hstop s' hchar) (parseChar_field h hf hr hstep hchar)
        · obtain ⟨s', hchar⟩ := parseChar_file h hf ch
          have herror := hstop s' hchar
          exact ⟨s', by rw [feed_cons_ok hchar, feed_inert (by rw [herror]; rfl)], herror⟩

end Reading

theorem startFile_block (hRes : HResult) (s : Parser φ ω) :
    (startFile e hRes s).2.sCurrentBlock = s.sCurrentBlock := by
  rw [startFile]
  dsimp only
  split
  · rfl
  · cases e.cDownloadStartedCallback with
    | none => rfl
    | some callback => dsimp only; split <;> rfl

/-- A file is only opened for a part with the name of a file. -/
theorem hasFileName_of_file {world : ω} {pre : List Byte} {s₀ s₁ : Parser φ ω}
    (hpre : feed (parseChar e) (.create world) pre = .ok s₀) (hheaders : s₀.nState = .headersEnding)
    (hlf : parseChar e s₀ chLF = .ok s₁) (hdata : s₁.nState = .data) {file : φ}
    (hfile : s₁.cFileH = some file) : s₁.sCurrentBlock.sContentDisposition.bHasFileName = true := by
  have hnone := ((feed_bufferInv (bufferInv_create world) hpre).headers (by rw [hheaders]; rfl)).2.1
  have hspec := parseChar_spec (e := e) (s := s₀) (by rw [hheaders]; rfl) HResult.failed_sOk chLF
  have hturn : charTurn e .sOk s₀ chLF = headersEndingTurn e .sOk s₀ chLF := by
    rw [charTurn, hheaders]
  rw [hturn, headersEndingTurn, if_neg (by simp)] at hspec
  split_ifs at hspec with hname hfileName
  · obtain rfl := Except.ok.inj (hlf.symm.trans hspec)
    cases hdata
  · dsimp only at hspec
    split_ifs at hspec
    · obtain rfl := Except.ok.inj (hlf.symm.trans hspec)
      cases hdata
    · obtain rfl := Except.ok.inj (hlf.symm.trans hspec.2)
      change (startFile e .sOk s₀).2.sCurrentBlock.sContentDisposition.bHasFileName = true
      rw [startFile_block]
      exact hfileName
  · obtain rfl := Except.ok.inj (hlf.symm.trans hspec.2)
    cases hnone.symm.trans hfile

/-- **The size limits are exact away from the limits.** -/
theorem limitExact_iff (e : Env φ ω) (written : φ → ω → List Byte) (hb : IsBoundary e.cStrBoundaryA)
    (hw : WritesAll e written) (hmax : e.limits.ullMaxFileSize < 2 ^ 64) (world : ω)
    {pre : List Byte} {s₀ s₁ : Parser φ ω} (hpre : feed (parseChar e) (.create world) pre = .ok s₀)
    (hheaders : s₀.nState = .headersEnding) (hlf : parseChar e s₀ chLF = .ok s₁)
    (hdata : s₁.nState = .data) (content : List Byte) (hasCr : Bool)
    (hfree : ¬ delimiter e false <:+: content)
    (hlast : hasCr = false → content.getLast? ≠ some chCR) (post : List Byte)
    (bufs : List (List Byte))
    (hbufs : bufs.flatten = pre ++ chLF :: (content ++ delimiter e hasCr ++ post)) :
    LimitExact e written world bufs (pre.length + 1)
        (pre.length + (content ++ delimiter e hasCr).length) s₁ content ↔
      AwayFromLimit e s₁ content := by
  have hnot := not_partRead hb hw hmax hpre hheaders hlf hdata hfree hlast hbufs
  have hread := partRead_of_le hb hw hmax hpre hheaders hlf hdata hfree hlast hbufs
  have hfeed : feed (parseChar e) (.create world) (pre ++ [chLF]) = .ok s₁ := by
    rw [feed_append hpre, feed_singleton, hlf]
  -- what the calls come to when the part is given up
  have hgiven : capacity e s₁ < content.length →
      (s₁.cFileH = none → ∃ nIndex, parseCalls e (.create world) (bufs.map some) = .error nIndex) ∧
        (∀ file, s₁.cFileH = some file →
          ∃ s, parseCalls e (.create world) (bufs.map some) = .ok s ∧ s.nState = .error) := by
    intro hlt
    obtain ⟨text, last, hbody, -, hreader, -⟩ := exists_text hb hfree hlast hbufs
    obtain ⟨hfield, hfile⟩ := feed_givenUp hw hmax (reads_start (dataStart_of_feed hpre hheaders hlf hdata))
      start_unfinished (Nat.zero_le _) hreader hlt
    rw [parseCalls_eq_feed, hbody, feed_append hfeed]
    refine ⟨fun hf => ?_, fun file hf => ?_⟩
    · obtain ⟨nIndex, htext⟩ := hfield hf
      exact ⟨nIndex, feed_append_error htext _⟩
    · obtain ⟨s, htext, herror⟩ := hfile file hf
      exact ⟨s, by rw [feed_append htext, feed_inert (by rw [herror]; rfl)], herror⟩
  rw [AwayFromLimit]
  cases hf : s₁.cFileH with
  | none =>
    have hcapacity := capacity_field (e := e) hf
    have hbig : tempBufSize < e.limits.dwMaxFieldSize :=
      Nat.lt_of_lt_of_le (by decide) e.limits.le_maxFieldSize
    rw [hcapacity] at hnot hread hgiven
    dsimp only
    constructor
    · intro h
      have hle : content.length ≤ tempBufSize := by
        by_contra hlong
        have hlt := Nat.lt_of_not_le hlong
        by_cases hle : content.length ≤ sizeLimit e s₁
        · exact hnot hlt _ (h.accepted hle)
        · obtain ⟨s, hs, -⟩ := (h.rejected (Nat.lt_of_not_le hle)).error
          obtain ⟨nIndex, herror⟩ := (hgiven hlt).1 hf
          cases hs.symm.trans herror
      refine ⟨hle, fun hname => ?_⟩
      by_contra hlong
      have hlimit : sizeLimit e s₁ = e.limits.ullMaxFileSize := if_pos hname
      exact (h.rejected (by omega)).notRead _ (hread hle)
    · rintro ⟨hle, hname⟩
      refine ⟨fun _ => hread hle, fun hlt => ?_⟩
      rw [sizeLimit] at hlt
      split at hlt
      next hfileName => exact absurd (hname hfileName) (Nat.not_le_of_lt hlt)
      · omega
  | some file =>
    have hcapacity := capacity_file (e := e) hf
    have hlimit : sizeLimit e s₁ = e.limits.ullMaxFileSize :=
      if_pos (hasFileName_of_file hpre hheaders hlf hdata hf)
    rw [hcapacity] at hnot hread hgiven
    dsimp only
    constructor
    · intro h
      by_contra haway
      obtain ⟨heq, hne⟩ := not_or.mp haway
      rw [not_not] at heq
      have hpos : 0 < content.length := List.length_pos_iff.mpr hne
      exact hnot (by omega) _ (h.accepted (by omega))
    · intro haway
      refine ⟨fun hle => hread ?_, fun hlt => ⟨(hgiven (by omega)).2 file hf, hnot (by omega)⟩⟩
      rcases haway with hne | rfl
      · omega
      · exact Nat.zero_le _

/-- A file of four bytes, far from the limit. -/
theorem limitExact_file : ∃ s₁, feed (parseChar (partEnv true)) (.create []) longFieldHead = .ok s₁ ∧
    LimitExact (partEnv true) (fun _ world => world) [] [longFieldHead ++ ascii "xyz!\r\n--b--"] 45 53 s₁
      (ascii "xyz!") := by
  obtain ⟨s₀, s₁, hpre, hheaders, hlf, hdata, hfile, -⟩ := partEnv_start true
  have hhead : feed (parseChar (partEnv true)) (.create []) longFieldHead = .ok s₁ := by
    rw [← List.append_nil longFieldHead, longFieldHead_append, feed_append hpre, feed_singleton, hlf]
  have hiff := limitExact_iff (partEnv true) (fun _ world => world) (partEnv_isBoundary true)
    (partEnv_writesAll true) (by decide) [] hpre hheaders hlf hdata (ascii "xyz!") true (by decide)
    (fun h => by cases h) (ascii "--") [longFieldHead ++ ascii "xyz!\r\n--b--"] (by decide)
  refine ⟨s₁, hhead, hiff.mpr ?_⟩
  rw [AwayFromLimit, hfile]
  exact .inl (by decide)

/-- A file of exactly the size that is allowed is not accepted. -/
theorem not_limitExact_file : ∃ s₁,
    feed (parseChar (partEnv true)) (.create []) longFieldHead = .ok s₁ ∧
    (partEnv true).limits.ullMaxFileSize = 2097152 ∧
    ¬ LimitExact (partEnv true) (fun _ world => world) []
        [longFieldHead ++ (List.replicate 2097152 0x61 ++ delimiter (partEnv true) true)] 45 2097201 s₁
        (List.replicate 2097152 0x61) := by
  obtain ⟨s₀, s₁, hpre, hheaders, hlf, hdata, hfile, -⟩ := partEnv_start true
  have hhead : feed (parseChar (partEnv true)) (.create []) longFieldHead = .ok s₁ := by
    rw [← List.append_nil longFieldHead, longFieldHead_append, feed_append hpre, feed_singleton, hlf]
  have hcapacity : capacity (partEnv true) s₁ = 2097151 := capacity_file hfile
  have hfree : ¬ delimiter (partEnv true) false <:+: List.replicate 2097152 (0x61 : Byte) := by
    intro h
    have hmem := h.subset (show chLF ∈ delimiter (partEnv true) false from List.mem_cons_self)
    exact absurd (List.eq_of_mem_replicate hmem) (by decide)
  have hbufs : [longFieldHead ++ (List.replicate 2097152 0x61 ++
      delimiter (partEnv true) true)].flatten =
      longFieldHead.dropLast ++ chLF :: (List.replicate 2097152 0x61 ++
        delimiter (partEnv true) true ++ []) := by
    rw [List.flatten_singleton, longFieldHead_append, List.append_nil]
  have hnot := not_partRead (partEnv_isBoundary true) (partEnv_writesAll true) (by decide) hpre
    hheaders hlf hdata hfree (fun h => by cases h) hbufs
    (by rw [hcapacity, List.length_replicate]; decide)
  have hlimit : sizeLimit (partEnv true) s₁ = 2097152 :=
    if_pos (hasFileName_of_file hpre hheaders hlf hdata hfile)
  rw [List.length_append, List.length_replicate] at hnot
  refine ⟨s₁, hhead, rfl, fun h => hnot _ (h.accepted ?_)⟩
  rw [hlimit, List.length_replicate]

end Limits

end MxLib.Http.Multipart
