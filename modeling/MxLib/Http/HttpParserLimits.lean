import MxLib.Http.HttpParserProgress

/-!
# The size of the headers

`Parse` counts the characters of the lines of the headers in `dwHeadersLen`, also those of
a value that goes on in the next line, and the carriage return at the end of a value.  The
count is kept below `dwMaxHeaderSize`, and a line below 4098 characters: the colon after a
name is the only one that is added without a look at the length of the line.

`Reachable` is any run of a parser, from a new or a reset one: calls of `Parse` with any
buffers, and the body parser set between two calls.  It counts the accepted characters from
the outside; `dwMaxHeaderSize` is what `SetOption_MaxHeaderSize` has left before the run.
-/

namespace MxLib.Http.HttpParser

open MxLib.Library

variable {e : ParserEnv}

/-! ### Runs -/

/-- The states in which a character belongs to the line of a header. -/
def EState.inHeaderLine : EState → Bool
  | .headerStart | .headerName | .headerValue => true
  | _ => false

/-- The character is one of the line of a header: of its name, the colon, or of its value. -/
def isHeaderChar (nState : EState) (ch : Byte) : Bool := nState.inHeaderLine && ch != chCR

section Run

variable {r : Receiver e}

/-- The characters of the lines of headers a turn of the loop accepts. -/
def Cursor.accepted (c c' : Cursor r) : Nat :=
  match c.szDataA with
  | [] => 0
  | ch :: _ => if isHeaderChar c.s.p.nState ch ∧ c.nDataUsed < c'.nDataUsed then 1 else 0

variable (r) in
/-- Between two calls of `Parse`, or in the loop of one. -/
inductive Place
  | between (s : Session r)
  | inside (c : Cursor r)

def Place.p : Place r → Parser e
  | .between s => s.p
  | .inside c => c.s.p

/-- A run from a parser that has been reset, with the number of characters of the lines of
headers that it has accepted. -/
inductive Reachable : Place r → Nat → Prop
  | reset (p : Parser e) : Reachable (.between (.create r p.reset)) 0
  | setBodyParser {s s' : Session r} {n : Nat} : Reachable (.between s) n →
    setBodyParser s = .ok s' → Reachable (.between s') n
  | call {s : Session r} {n : Nat} (lpData : List Byte) : Reachable (.between s) n →
    s.p.nState ≠ .done → s.p.nState ≠ .error → Reachable (.inside ⟨s, lpData, 0⟩) n
  | turn {c c' : Cursor r} {n : Nat} : Reachable (.inside c) n → parseTurn c = .inl c' →
    Reachable (.inside c') (n + c.accepted c')
  | leave {c : Cursor r} {out : Parsed r} {n : Nat} : Reachable (.inside c) n →
    parseTurn c = .inr out → Reachable (.between out.s) n

end Run

/-- The next character would take the headers, or the line, above its limit. -/
inductive Exceeds (n : Nat) (p : Parser e) (ch : Byte) : Prop
  | headers : isHeaderChar p.nState ch = true → p.dwMaxHeaderSize < n + 1 → Exceeds n p ch
  | line : p.nState = .requestOrStatusLine ∨ p.nState = .headerName ∨ p.nState = .headerValue ∨
      p.nState = .headerStart ∧ isBlank ch = true → ch ≠ chCR →
    4098 < p.cStrCurrLineA.length + 1 → Exceeds n p ch

/-! ### What the lines leave alone -/

/-- The count and the limit are the same. -/
def SameSize (p q : Parser e) : Prop :=
  q.dwHeadersLen = p.dwHeadersLen ∧ q.dwMaxHeaderSize = p.dwMaxHeaderSize

theorem sameSize_parseFirstLine {p q : Parser e} {szLineA : List Byte}
    (h : parseFirstLine p szLineA = .ok q) : SameSize p q := by
  rw [parseFirstLine] at h
  split at h
  · rw [parseRequestLine] at h
    split at h
    · cases h
    · split at h
      · cases h
      · obtain ⟨cUrl, -, h⟩ := exists_of_bind_ok h
        obtain ⟨nHttpProtocol, -, h⟩ := exists_of_bind_ok h
        obtain rfl := Except.ok.inj h
        exact ⟨rfl, rfl⟩
  · rw [parseStatusLine] at h
    split at h
    · cases h
    · obtain rfl := Except.ok.inj h
      exact ⟨rfl, rfl⟩

theorem sameSize_setRequestHost {p q : Parser e} {value : e.header.Value}
    (h : setRequestHost p value = .ok q) : SameSize p q := by
  rw [setRequestHost] at h
  split at h <;> obtain ⟨cStrHostW, -, h⟩ := exists_of_bind_ok h <;>
    obtain rfl := Except.ok.inj h <;> exact ⟨rfl, rfl⟩

theorem sameSize_cacheHeader {p q : Parser e} {cHeader : Header e.header}
    (h : cacheHeader p cHeader = .ok q) : SameSize p q := by
  cases cHeader with
  | transferEncoding nEncoding =>
    cases nEncoding <;> first | cases h; exact ⟨rfl, rfl⟩ | cases h
  | contentLength nLength =>
    obtain rfl := Except.ok.inj h
    exact ⟨rfl, rfl⟩
  | contentEncoding nEncoding =>
    cases nEncoding <;> first | cases h; exact ⟨rfl, rfl⟩ | cases h
  | typed cls value =>
    simp only [cacheHeader] at h
    split_ifs at h
    · obtain rfl := Except.ok.inj h
      exact ⟨rfl, rfl⟩
    · obtain rfl := Except.ok.inj h
      exact ⟨rfl, rfl⟩
    · obtain rfl := Except.ok.inj h
      exact ⟨rfl, rfl⟩
    · obtain rfl := Except.ok.inj h
      exact ⟨rfl, rfl⟩
    · obtain rfl := Except.ok.inj h
      exact ⟨rfl, rfl⟩
    · obtain rfl := Except.ok.inj h
      exact ⟨rfl, rfl⟩
    · exact sameSize_setRequestHost h
    · obtain rfl := Except.ok.inj h
      exact ⟨rfl, rfl⟩
  | generic cStrHeaderNameA cStrValueA =>
    simp only [cacheHeader] at h
    split_ifs at h <;> obtain rfl := Except.ok.inj h <;> exact ⟨rfl, rfl⟩

theorem sameSize_parseHeader {p q : Parser e} {szLineA : List Byte}
    (h : parseHeader p szLineA = .ok q) : SameSize p q := by
  rw [parseHeader] at h
  split at h
  · obtain rfl := Except.ok.inj h
    exact ⟨rfl, rfl⟩
  · split at h
    · cases h
    · split_ifs at h
      · obtain ⟨cCookieArray, -, rfl⟩ := exists_of_map_ok h
        exact ⟨rfl, rfl⟩
      · obtain ⟨cCookie, -, h⟩ := exists_of_bind_ok h
        obtain ⟨cCookies, -, h⟩ := exists_of_bind_ok h
        obtain rfl := Except.ok.inj h
        exact ⟨rfl, rfl⟩
      · obtain ⟨cNewHeader, -, h⟩ := exists_of_bind_ok h
        obtain ⟨cHeaders, -, h⟩ := exists_of_bind_ok h
        have hsame := sameSize_cacheHeader h
        exact ⟨hsame.1, hsame.2⟩

/-! ### The invariant -/

/-- The length a line has at most. -/
def EState.lineLimit : EState → Nat
  | .headerName => 4097
  | _ => 4098

theorem EState.lineLimit_le (nState : EState) : nState.lineLimit ≤ 4098 := by
  cases nState <;> decide

/-- `n` characters of the lines of headers have been accepted, and the limits are kept. -/
structure Counted (n : Nat) (p : Parser e) : Prop where
  total : n ≤ p.dwHeadersLen
  size : p.dwHeadersLen ≤ p.dwMaxHeaderSize
  line : p.cStrCurrLineA.length ≤ p.nState.lineLimit
  nonzero : (0 : Byte) ∉ p.cStrCurrLineA

section Counted

variable {n a nLeft : Nat} {p q : Parser e}

theorem counted_reset (p : Parser e) : Counted 0 p.reset where
  total := Nat.zero_le _
  size := Nat.zero_le _
  line := Nat.zero_le _
  nonzero := List.not_mem_nil

theorem Counted.line_le (h : Counted n p) : p.cStrCurrLineA.length ≤ 4098 :=
  Nat.le_trans h.line p.nState.lineLimit_le

/-- Only other parts of the parser have changed. -/
theorem Counted.congr (h : Counted n p) (hsame : SameSize p q)
    (hline : q.cStrCurrLineA = p.cStrCurrLineA) (hstate : q.nState ≠ .headerName) :
    Counted n q where
  total := by
    rw [hsame.1]
    exact h.total
  size := by
    rw [hsame.1, hsame.2]
    exact h.size
  line := by
    have hlimit : q.nState.lineLimit = 4098 := by
      cases hq : q.nState with
      | headerName => exact absurd hq hstate
      | _ => rfl
    rw [hline, hlimit]
    exact h.line_le
  nonzero := by
    rw [hline]
    exact h.nonzero

/-- A new line has been begun. -/
theorem Counted.newLine (h : Counted n p) (hsame : SameSize p q) (hline : q.cStrCurrLineA = []) :
    Counted n q where
  total := by
    rw [hsame.1]
    exact h.total
  size := by
    rw [hsame.1, hsame.2]
    exact h.size
  line := by
    rw [hline]
    exact Nat.zero_le _
  nonzero := by
    rw [hline]
    exact List.not_mem_nil

/-- `n` characters and `a` more are counted after a turn that goes on, and `n` after one
that stays or ends the call. -/
def Turn.Counts (n a : Nat) : Turn e → Prop
  | .move k p => Counted (if 0 < k then n + a else n) p
  | .leave _ p => Counted n p
  | .fail _ _ p => Counted n p
  | .content _ p => Counted (n + a) p
  | .lastContent _ p => Counted n p
  | .flush p => Counted n p

theorem counts_expect (h : Counted n p) (ok : Bool) {nNext : EState} (hnext : nNext ≠ .headerName) :
    (expect ok p nNext).Counts n 0 := by
  cases ok with
  | true => exact h.congr ⟨rfl, rfl⟩ rfl hnext
  | false => exact h

/-- A character goes to the line, which has room for it. -/
theorem counts_addToLine {ch : Byte} (h : Counted n p) (hcount : n + a ≤ p.dwHeadersLen)
    (hch : ch ≠ 0) : (addToLine 4096 p ch).Counts n a := by
  rw [addToLine]
  split
  · exact h
  · rename_i hroom
    refine ⟨hcount, h.size, ?_, ?_⟩
    · have hlimit : 4097 ≤ p.nState.lineLimit := by cases p.nState <;> decide
      rw [List.length_append, List.length_singleton]
      exact Nat.le_trans (by omega) hlimit
    · rw [List.mem_append, List.mem_singleton]
      exact fun hmem => hmem.elim h.nonzero fun heq => hch heq.symm

theorem counts_startTurn (h : Counted n p) (ch : Byte) : (startTurn p ch).Counts n 0 := by
  rw [startTurn]
  split
  · exact h
  · exact h.congr ⟨rfl, rfl⟩ rfl (by rintro ⟨⟩)

theorem counts_requestOrStatusLineTurn (h : Counted n p) (ch : Byte) :
    (requestOrStatusLineTurn p ch).Counts n 0 := by
  rw [requestOrStatusLineTurn]
  split_ifs with hcr hlow
  · exact h.congr ⟨rfl, rfl⟩ rfl (by rintro ⟨⟩)
  · exact h
  · refine counts_addToLine h h.total ?_
    rintro rfl
    exact hlow rfl

theorem counts_requestOrStatusLineEndingTurn (h : Counted n p) (ch : Byte) :
    (requestOrStatusLineEndingTurn p ch).Counts n 0 := by
  rw [requestOrStatusLineEndingTurn]
  split_ifs
  · exact h
  · cases hparse : parseFirstLine p p.cStrCurrLineA with
    | error hRes => exact h
    | ok q =>
      have hsame := sameSize_parseFirstLine hparse
      exact h.newLine ⟨hsame.1, hsame.2⟩ rfl

/-- The line is empty after its header is parsed. -/
theorem endHeaderLine_spec (h : Counted n p) (hend : endHeaderLine p = .ok q) :
    SameSize p q ∧ q.cStrCurrLineA = [] := by
  rw [endHeaderLine] at hend
  split at hend
  · obtain rfl := Except.ok.inj hend
    exact ⟨⟨rfl, rfl⟩, eq_nil_of_isEmptyStr h.nonzero (by assumption)⟩
  · obtain ⟨q', hparse, rfl⟩ := exists_of_map_ok hend
    have hsame := sameSize_parseHeader hparse
    exact ⟨⟨hsame.1, hsame.2⟩, rfl⟩

/-- The count goes up by one, for a character that is accepted or ends the value. -/
theorem Counted.count (h : Counted n p) (hroom : ¬ p.dwHeadersLen ≥ p.dwMaxHeaderSize) :
    Counted n { p with dwHeadersLen := p.dwHeadersLen + 1 } where
  total := Nat.le_succ_of_le h.total
  size := Nat.not_le.mp hroom
  line := h.line
  nonzero := h.nonzero

theorem counts_headerNameTurn (h : Counted n p) (hstate : p.nState = .headerName) (ch : Byte) :
    (headerNameTurn p ch).Counts n 1 := by
  have hline := h.line
  rw [hstate] at hline
  simp only [headerNameTurn]
  split_ifs with hroom hcolon hempty hvalid
  · exact h
  · exact h.count hroom
  · -- the colon is added whatever the length of the line
    refine ⟨Nat.succ_le_succ h.total, Nat.not_le.mp hroom, ?_, ?_⟩
    · rw [List.length_append, List.length_singleton]
      exact Nat.succ_le_succ hline
    · rw [List.mem_append, List.mem_singleton]
      exact fun hmem => hmem.elim h.nonzero (by decide)
  · exact h.count hroom
  · refine counts_addToLine (h.count hroom) (Nat.succ_le_succ h.total) ?_
    exact isValidNameChar_ne_zero (by simpa using hvalid)

theorem counts_headerValueTurn (h : Counted n p) (ch : Byte) :
    (headerValueTurn p ch).Counts n (if ch = chCR then 0 else 1) := by
  by_cases hcr : ch = chCR
  · have hbeq : (ch == chCR) = true := beq_iff_eq.mpr hcr
    simp only [headerValueTurn, if_pos hcr, if_pos hbeq]
    split
    · exact h
    · rename_i hroom
      exact (h.count hroom).congr ⟨rfl, rfl⟩ rfl (by rintro ⟨⟩)
  · have hbeq : ¬ (ch == chCR) = true := fun h => hcr (beq_iff_eq.mp h)
    simp only [headerValueTurn, if_neg hcr, if_neg hbeq]
    split_ifs with hroom hzero
    · exact h
    · exact h.count hroom
    · refine counts_addToLine (h.count hroom) (Nat.succ_le_succ h.total) ?_
      exact fun h => hzero (beq_iff_eq.mpr h)

theorem Counted.mono {m : Nat} (h : Counted n p) (hle : m ≤ n) : Counted m p :=
  ⟨Nat.le_trans hle h.total, h.size, h.line, h.nonzero⟩

theorem Turn.Counts.mono {t : Turn e} {b : Nat} (h : t.Counts n a) (hle : b ≤ a) :
    t.Counts n b := by
  cases t with
  | move k p =>
    refine Counted.mono h ?_
    split <;> omega
  | leave k p => exact h
  | fail hRes k p => exact h
  | content k p => exact Counted.mono h (by omega)
  | lastContent k p => exact h
  | flush p => exact h

theorem counts_headerStartTurn (h : Counted n p) (ch : Byte) :
    (headerStartTurn p ch).Counts n (if ch = chCR then 0 else 1) := by
  by_cases hcr : ch = chCR
  · have hbeq : (ch == chCR) = true := beq_iff_eq.mpr hcr
    simp only [headerStartTurn, if_pos hcr, if_pos hbeq]
    cases hend : endHeaderLine p with
    | error hRes => exact h
    | ok q =>
      obtain ⟨hsame, hline⟩ := endHeaderLine_spec h hend
      exact h.newLine ⟨hsame.1, hsame.2⟩ hline
  · have hbeq : ¬ (ch == chCR) = true := fun h => hcr (beq_iff_eq.mp h)
    simp only [headerStartTurn, if_neg hcr, if_neg hbeq]
    split_ifs with hblank hempty
    · exact h
    · exact h.congr ⟨rfl, rfl⟩ rfl (by rintro ⟨⟩)
    · cases hend : endHeaderLine p with
      | error hRes => exact h
      | ok q =>
        obtain ⟨hsame, hline⟩ := endHeaderLine_spec h hend
        have hnew : Counted n { q with nState := .headerName } :=
          h.newLine ⟨hsame.1, hsame.2⟩ hline
        exact counts_headerNameTurn hnew rfl ch

theorem counted_bodyOrDone (h : Counted n p) : Counted n (bodyOrDone p) := by
  rw [bodyOrDone]
  split_ifs
  · exact h.congr ⟨rfl, rfl⟩ rfl (by rintro ⟨⟩)
  · exact h.congr ⟨rfl, rfl⟩ rfl (by rintro ⟨⟩)
  · exact h.congr ⟨rfl, rfl⟩ rfl (by rintro ⟨⟩)
  · exact h.congr ⟨rfl, rfl⟩ rfl (by rintro ⟨⟩)

theorem counts_headersEndingTurn (h : Counted n p) (ch : Byte) :
    (headersEndingTurn p ch).Counts n 0 := by
  rw [headersEndingTurn, requestHeadersEnd, responseHeadersEnd]
  split_ifs
  · exact h
  · exact h
  · exact h.congr ⟨rfl, rfl⟩ rfl (by rintro ⟨⟩)
  · exact h
  · exact counted_bodyOrDone h
  · exact counted_bodyOrDone h
  · exact h.congr ⟨rfl, rfl⟩ rfl (by rintro ⟨⟩)
  · exact counted_bodyOrDone h

theorem counts_bodyStartTurn (h : Counted n p) : (bodyStartTurn p).Counts n 0 := by
  refine h.congr ⟨rfl, rfl⟩ rfl ?_
  dsimp only
  split <;> nofun

theorem counts_identityBodyStartTurn (h : Counted n p) (hstate : p.nState ≠ .headerName) :
    (identityBodyStartTurn p nLeft).Counts n 0 := by
  rw [identityBodyStartTurn]
  split
  · exact h.congr ⟨rfl, rfl⟩ rfl (by rintro ⟨⟩)
  · exact h.congr ⟨rfl, rfl⟩ rfl hstate

theorem counts_chunkStartTurn (h : Counted n p) (hstate : p.nState ≠ .headerName) (ch : Byte) :
    (chunkStartTurn p ch).Counts n 0 := by
  rw [chunkStartTurn]
  cases chunkDigit ch with
  | some nDigit =>
    dsimp only
    split
    · exact h
    · exact h.congr ⟨rfl, rfl⟩ rfl hstate
  | none =>
    dsimp only
    split
    · exact h.congr ⟨rfl, rfl⟩ rfl (by rintro ⟨⟩)
    · exact counts_expect h _ (by rintro ⟨⟩)

theorem counts_chunkPreStartTurn (h : Counted n p) (ch : Byte) :
    (chunkPreStartTurn p ch).Counts n 0 := by
  rw [chunkPreStartTurn]
  split
  · exact h
  · have hstart : Counted n { p with nState := .chunkStart, sChunk := ⟨0, 0⟩ } :=
      h.congr ⟨rfl, rfl⟩ rfl (by rintro ⟨⟩)
    exact counts_chunkStartTurn hstart (by rintro ⟨⟩) ch

theorem counts_chunkStartEndingTurn (h : Counted n p) (ch : Byte) :
    (chunkStartEndingTurn p ch).Counts n 0 := by
  rw [chunkStartEndingTurn]
  split_ifs
  · exact h
  · exact h.congr ⟨rfl, rfl⟩ rfl (by rintro ⟨⟩)
  · exact h.congr ⟨rfl, rfl⟩ rfl (by rintro ⟨⟩)

theorem counts_chunkStartIgnoreExtensionTurn (h : Counted n p) (hstate : p.nState ≠ .headerName)
    (ch : Byte) : (chunkStartIgnoreExtensionTurn p ch).Counts n 0 := by
  rw [chunkStartIgnoreExtensionTurn]
  split
  · exact h.congr ⟨rfl, rfl⟩ rfl nofun
  · exact h.congr ⟨rfl, rfl⟩ rfl hstate

theorem counts_chunkDataTurn (h : Counted n p) (hstate : p.nState ≠ .headerName) :
    (chunkDataTurn p nLeft).Counts n 0 := by
  refine h.congr ⟨rfl, rfl⟩ rfl ?_
  dsimp only
  split
  · nofun
  · exact hstate

theorem counts_chunkAfterDataTurn (h : Counted n p) (ch : Byte) :
    (chunkAfterDataTurn p ch).Counts n 0 := by
  rw [chunkAfterDataTurn]
  split
  · exact h.congr ⟨rfl, rfl⟩ rfl (by rintro ⟨⟩)
  · exact counts_expect h _ (by rintro ⟨⟩)

/-- **A turn counts the characters it accepts**, and keeps the limits. -/
theorem charTurn_counts (h : Counted n p) (ch : Byte) (nLeft : Nat) :
    (charTurn p ch nLeft).Counts n (if isHeaderChar p.nState ch then 1 else 0) := by
  have hnot : ∀ {nState : EState}, p.nState = nState → nState ≠ .headerName →
      p.nState ≠ .headerName := fun heq hne => by rwa [heq]
  have hcr : (if (ch != chCR) = true then 1 else 0) = if ch = chCR then 0 else 1 := by
    by_cases hch : ch = chCR <;> simp [hch]
  rw [charTurn]
  cases hstate : p.nState with
  | start => exact counts_startTurn h ch
  | requestOrStatusLine => exact counts_requestOrStatusLineTurn h ch
  | requestOrStatusLineEnding => exact counts_requestOrStatusLineEndingTurn h ch
  | headerStart =>
    simp only [isHeaderChar, EState.inHeaderLine, Bool.true_and, hcr]
    exact counts_headerStartTurn h ch
  | headerName =>
    refine (counts_headerNameTurn h hstate ch).mono ?_
    split <;> omega
  | headerValue =>
    simp only [isHeaderChar, EState.inHeaderLine, Bool.true_and, hcr]
    exact counts_headerValueTurn h ch
  | headerValueEnding => exact counts_expect h _ (by rintro ⟨⟩)
  | headersEnding => exact counts_headersEndingTurn h ch
  | bodyStart => exact counts_bodyStartTurn h
  | identityBodyStart => exact counts_identityBodyStartTurn h (hnot hstate (by rintro ⟨⟩))
  | chunkPreStart => exact counts_chunkPreStartTurn h ch
  | chunkStart => exact counts_chunkStartTurn h (hnot hstate (by rintro ⟨⟩)) ch
  | chunkStartEnding => exact counts_chunkStartEndingTurn h ch
  | chunkStartIgnoreExtension =>
    exact counts_chunkStartIgnoreExtensionTurn h (hnot hstate (by rintro ⟨⟩)) ch
  | chunkData => exact counts_chunkDataTurn h (hnot hstate (by rintro ⟨⟩))
  | chunkAfterData => exact counts_chunkAfterDataTurn h ch
  | nearEndOfChunkAfterData => exact counts_expect h _ (by rintro ⟨⟩)
  | done => exact h
  | error => exact h

end Counted

/-! ### Every run -/

section Run

variable {r : Receiver e} {n : Nat}

theorem counted_fail {p : Parser e} (h : Counted n p) :
    Counted n { p with nState := .error } := h.congr ⟨rfl, rfl⟩ rfl nofun

theorem counted_endMessage {s : Session r} {p : Parser e} (h : Counted n p) (nDataUsed : Nat) :
    Counted n (endMessage s p nDataUsed).s.p := by
  rw [endMessage]
  cases s.flush with
  | error err => exact counted_fail h
  | ok s => exact h

theorem counted_turn {c c' : Cursor r} (h : Counted n c.s.p) (hturn : parseTurn c = .inl c') :
    Counted (n + c.accepted c') c'.s.p := by
  obtain ⟨ch, rest, hdata, hgoes⟩ := parseTurn_goes hturn
  have hcounts := charTurn_counts h ch (rest.length + 1)
  rw [Cursor.accepted, hdata]
  dsimp only
  cases hgoes with
  | move k p hchar hc' =>
    subst hc'
    rw [hchar] at hcounts
    refine Counted.mono hcounts ?_
    cases isHeaderChar c.s.p.nState ch <;> by_cases hk : 0 < k <;> simp [hk]
  | content k p s hchar hc' =>
    subst hc'
    rw [hchar] at hcounts
    refine Counted.mono hcounts ?_
    cases isHeaderChar c.s.p.nState ch <;> by_cases hk : 0 < k <;> simp [hk]

theorem counted_leave {c : Cursor r} {out : Parsed r} (h : Counted n c.s.p)
    (hturn : parseTurn c = .inr out) : Counted n out.s.p := by
  rcases parseTurn_ends hturn with ⟨-, rfl⟩ | ⟨ch, rest, -, hends⟩
  · exact h
  have hcounts := charTurn_counts h ch (rest.length + 1)
  cases hends with
  | leave k p hchar hout =>
    rw [hout]
    rw [hchar] at hcounts
    exact hcounts
  | fail hRes k p hchar hout =>
    rw [hout]
    rw [hchar] at hcounts
    exact counted_fail hcounts
  | reject err passed hout =>
    rw [hout]
    exact counted_fail h
  | lastContent k p s hchar hout =>
    rw [hout]
    rw [hchar] at hcounts
    exact counted_endMessage hcounts _
  | flush p hchar hout =>
    rw [hout]
    rw [hchar] at hcounts
    exact counted_endMessage hcounts _

theorem counted_of_reachable {place : Place r} (h : Reachable place n) : Counted n place.p := by
  induction h with
  | reset p => exact counted_reset p
  | setBodyParser _ hset ih =>
    obtain ⟨st, -, rfl⟩ := exists_of_map_ok hset
    exact ih
  | call lpData _ _ _ ih => exact ih
  | turn _ hturn ih => exact counted_turn ih hturn
  | leave _ hturn ih => exact counted_leave ih hturn

/-- What a call of `Parse` leaves is part of a run. -/
theorem reachable_parse {s : Session r} (h : Reachable (.between s) n) (lpData : List Byte) :
    ∃ m, Reachable (.between (parse s lpData).s) m := by
  rw [parse]
  split_ifs with hdone herror
  · exact ⟨n, h⟩
  · exact ⟨n, h⟩
  · obtain ⟨c, hreach, hleave⟩ :=
      Loop.exists_reach_exec parseTurn_measure (⟨.sOk, s, 0⟩ : Parsed r) ⟨s, lpData, 0⟩
    have hinside : ∃ m, Reachable (.inside c) m := by
      refine Loop.reach_induct (fun c => ∃ m, Reachable (.inside c) m) ?_
        ⟨n, h.call lpData hdone herror⟩ hreach
      rintro c c' ⟨m, hm⟩ hturn
      exact ⟨_, hm.turn hturn⟩
    obtain ⟨m, hm⟩ := hinside
    exact ⟨m, hm.leave hleave⟩

/-- What is left of a message that comes in any buffers is part of a run. -/
theorem reachable_drive (buffers : List (List Byte)) : ∀ {s : Session r} {n : Nat},
    Reachable (.between s) n → ∃ m, Reachable (.between (drive s buffers).s) m := by
  have hdeliver : ∀ {s : Session r} {n : Nat}, Reachable (.between s) n → ∀ lpData,
      ∃ m, Reachable (.between (deliver s lpData).s) m := by
    intro s n h lpData
    obtain ⟨m, hm⟩ := reachable_parse h lpData
    rw [deliver]
    dsimp only
    split_ifs
    · exact ⟨m, hm⟩
    · cases hset : setBodyParser (parse s lpData).s with
      | error err => exact ⟨m, hm⟩
      | ok s' => exact reachable_parse (hm.setBodyParser hset) _
  induction buffers with
  | nil => exact fun h => ⟨_, h⟩
  | cons lpData buffers ih =>
    intro s n h
    obtain ⟨m, hm⟩ := hdeliver h lpData
    rw [drive]
    dsimp only
    split_ifs
    · exact ⟨m, hm⟩
    · exact ih hm

end Run

/-! ### Above a limit -/

section Exceeds

variable {n nLeft : Nat} {p : Parser e} {ch : Byte}

/-- The turn ends the call with a failure. -/
def Turn.Fails (t : Turn e) : Prop := ∃ hRes k p, t = .fail hRes k p

theorem fails_addToLine (h : 4096 < p.cStrCurrLineA.length) : (addToLine 4096 p ch).Fails :=
  ⟨_, _, _, if_pos h⟩

theorem fails_headerNameTurn (h : p.dwMaxHeaderSize ≤ p.dwHeadersLen) :
    (headerNameTurn p ch).Fails :=
  ⟨_, _, _, if_pos h⟩

theorem fails_headerValueTurn (hcr : ch ≠ chCR)
    (h : p.dwMaxHeaderSize ≤ p.dwHeadersLen ∨ 4096 < p.cStrCurrLineA.length) :
    (headerValueTurn p ch).Fails := by
  simp only [headerValueTurn]
  split_ifs with hroom hbeq hzero
  · exact ⟨_, _, _, rfl⟩
  · exact absurd (beq_iff_eq.mp hbeq) hcr
  · exact ⟨_, _, _, rfl⟩
  · exact fails_addToLine (h.resolve_left hroom)

theorem fails_requestOrStatusLineTurn (hcr : ch ≠ chCR) (h : 4096 < p.cStrCurrLineA.length) :
    (requestOrStatusLineTurn p ch).Fails := by
  rw [requestOrStatusLineTurn, if_neg fun hbeq => hcr (beq_iff_eq.mp hbeq)]
  split
  · exact ⟨_, _, _, rfl⟩
  · exact fails_addToLine h

/-- At the start of a line the failure may have to wait for the next turn. -/
theorem fails_headerStartTurn (hcount : Counted n p) (hcr : ch ≠ chCR)
    (h : p.dwMaxHeaderSize ≤ p.dwHeadersLen ∨
      isBlank ch = true ∧ 4096 < p.cStrCurrLineA.length) :
    (headerStartTurn p ch).Fails ∨
      headerStartTurn p ch = .again { p with nState := .headerValue } := by
  rw [headerStartTurn, if_neg fun hbeq => hcr (beq_iff_eq.mp hbeq)]
  split_ifs with hblank hempty
  · exact Or.inl ⟨_, _, _, rfl⟩
  · exact Or.inr rfl
  · cases hend : endHeaderLine p with
    | error hRes => exact Or.inl ⟨_, _, _, rfl⟩
    | ok q =>
      obtain ⟨hsame, -⟩ := endHeaderLine_spec hcount hend
      refine Or.inl (fails_headerNameTurn ?_)
      dsimp only
      rw [hsame.1, hsame.2]
      exact h.resolve_right fun hline => hblank hline.1

variable {r : Receiver e}

theorem run_of_fails {c : Cursor r} {rest : List Byte} (hdata : c.szDataA = ch :: rest)
    (h : (charTurn c.s.p ch (rest.length + 1)).Fails) :
    ∃ out, Loop.run parseTurn 1 c = some out ∧ out.s.p.nState = .error := by
  obtain ⟨hRes, k, p, hturn⟩ := h
  have hleave : parseTurn c =
      .inr (failWith hRes { c.s with p := p } (c.nDataUsed + k)) := by
    rw [parseTurn, hdata]
    dsimp only
    rw [hturn]
  exact ⟨_, Loop.run_succ_inr hleave 0, rfl⟩

/-- **A character that would take the headers or the line above its limit ends in
`Error`.** -/
theorem run_of_exceeds {c : Cursor r} {rest : List Byte} (h : Counted n c.s.p)
    (hdata : c.szDataA = ch :: rest) (hex : Exceeds n c.s.p ch) :
    ∃ k out, Loop.run parseTurn k c = some out ∧ out.s.p.nState = .error := by
  have hvalue : ∀ p : Parser e, p.nState = .headerValue → ch ≠ chCR →
      p.dwMaxHeaderSize ≤ p.dwHeadersLen ∨ 4096 < p.cStrCurrLineA.length →
      (charTurn p ch (rest.length + 1)).Fails := by
    intro p hstate hcr hlimit
    rw [charTurn, hstate]
    exact fails_headerValueTurn hcr hlimit
  have hstart : c.s.p.nState = .headerStart → ch ≠ chCR →
      c.s.p.dwMaxHeaderSize ≤ c.s.p.dwHeadersLen ∨
        isBlank ch = true ∧ 4096 < c.s.p.cStrCurrLineA.length →
      ∃ k out, Loop.run parseTurn k c = some out ∧ out.s.p.nState = .error := by
    intro hstate hcr hlimit
    rcases fails_headerStartTurn h hcr hlimit with hfails | hagain
    · obtain ⟨out, hrun, herror⟩ := run_of_fails hdata (by rw [charTurn, hstate]; exact hfails)
      exact ⟨1, out, hrun, herror⟩
    · have hturn : parseTurn c =
          .inl ⟨{ c.s with p := { c.s.p with nState := .headerValue } }, ch :: rest,
            c.nDataUsed⟩ := by
        rw [parseTurn, hdata]
        dsimp only
        rw [charTurn, hstate]
        dsimp only
        rw [hagain]
        rfl
      obtain ⟨out, hrun, herror⟩ := run_of_fails (r := r)
        (c := ⟨{ c.s with p := { c.s.p with nState := .headerValue } }, ch :: rest,
          c.nDataUsed⟩) rfl (hvalue _ rfl hcr (hlimit.imp_right fun h => h.2))
      exact ⟨2, out, (Loop.run_succ_inl hturn 1).trans hrun, herror⟩
  have hone : (charTurn c.s.p ch (rest.length + 1)).Fails →
      ∃ k out, Loop.run parseTurn k c = some out ∧ out.s.p.nState = .error := by
    intro hfails
    obtain ⟨out, hrun, herror⟩ := run_of_fails hdata hfails
    exact ⟨1, out, hrun, herror⟩
  cases hex with
  | headers hchar hover =>
    have hmax : c.s.p.dwMaxHeaderSize ≤ c.s.p.dwHeadersLen :=
      Nat.le_trans (Nat.le_of_lt_succ hover) h.total
    rw [isHeaderChar, Bool.and_eq_true, bne_iff_ne] at hchar
    obtain ⟨hin, hcr⟩ := hchar
    cases hstate : c.s.p.nState with
    | headerStart => exact hstart hstate hcr (Or.inl hmax)
    | headerName =>
      refine hone ?_
      rw [charTurn, hstate]
      exact fails_headerNameTurn hmax
    | headerValue => exact hone (hvalue _ hstate hcr (Or.inl hmax))
    | _ => rw [hstate] at hin; cases hin
  | line hstate hcr hover =>
    rcases hstate with hstate | hstate | hstate | ⟨hstate, hblank⟩
    · refine hone ?_
      rw [charTurn, hstate]
      exact fails_requestOrStatusLineTurn hcr (by omega)
    · -- a name has no room for more than the colon
      have hline := h.line
      rw [hstate, EState.lineLimit] at hline
      omega
    · exact hone (hvalue _ hstate hcr (Or.inr (by omega)))
    · exact hstart hstate hcr (Or.inr ⟨hblank, by omega⟩)

/-- **The headers and each line are bounded**, in every state of a run, and a character
that would go above a limit ends it in `Error`. -/
theorem headerSize_bounded {place : Place r} (h : Reachable place n) :
    n ≤ place.p.dwMaxHeaderSize ∧ place.p.cStrCurrLineA.length ≤ 4098 ∧
      ∀ c ch rest, place = .inside c → c.szDataA = ch :: rest → Exceeds n c.s.p ch →
        ∃ k out, Loop.run parseTurn k c = some out ∧ out.s.p.nState = .error := by
  have hcount := counted_of_reachable h
  refine ⟨Nat.le_trans hcount.total hcount.size, hcount.line_le, ?_⟩
  rintro c ch rest rfl hdata hex
  exact run_of_exceeds hcount hdata hex

end Exceeds

/-- An environment without header classes, cookies and hosts. -/
def bareEnv : ParserEnv where
  header := ⟨Unit, fun _ _ => .error .mxUnsupported, fun _ _ => .error .mxUnsupported⟩
  url := ⟨fun _ => false, fun _ => .error .mxUnsupported, fun _ => false,
    fun _ => .error .mxUnsupported⟩
  hasConnection := fun _ _ => false
  hasProduct := fun _ _ => false
  getHost := fun _ => []
  getPort := fun _ => none
  Cookie := Unit
  cookieName := fun _ => []
  parseFromRequestHeader := fun _ => .error .mxUnsupported
  parseFromResponseHeader := fun _ => .error .mxUnsupported
  getBrowserFromUserAgent := fun _ => .other

/-- A receiver that takes all content. -/
def bareReceiver : Receiver bareEnv := ⟨Unit, fun _ => .ok (), fun _ _ _ => .ok (), fun _ => .ok ()⟩

/-- A client after a status line and the first character of a header. -/
def afterStatusLine : Session bareReceiver :=
  (parse (.create bareReceiver (Parser.create bareEnv false).reset)
    (ascii "HTTP/1.0 200 OK\r\nA")).s

theorem headerSize_bounded_status :
    afterStatusLine.p.cStrCurrLineA = ascii "A" ∧ ∃ n, Reachable (.between afterStatusLine) n ∧
      n ≤ afterStatusLine.p.dwMaxHeaderSize ∧ afterStatusLine.p.cStrCurrLineA.length ≤ 4098 := by
  obtain ⟨n, hn⟩ := reachable_parse (Reachable.reset (r := bareReceiver)
    (Parser.create bareEnv false)) (ascii "HTTP/1.0 200 OK\r\nA")
  obtain ⟨hsize, hline, -⟩ := headerSize_bounded hn
  exact ⟨by decide, n, hn, hsize, hline⟩

end MxLib.Http.HttpParser
