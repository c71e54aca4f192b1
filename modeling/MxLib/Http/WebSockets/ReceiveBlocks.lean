import Mathlib.Data.List.Nodup
import MxLib.Http.WebSockets.ReceiveBytes

/-!
# The blocks of a message

The bytes of a message lie in blocks of 16384 bytes, all of them full but the last
one.  `Blocks s content` says that the blocks of the socket hold `content`, and
that no block is used twice: not in the list, nor in the list and in the cache.

A byte of a data frame is added to the content (`blocks_dataByte`).  Its mask is
looked up at its place in the block, which modulo 4 is its place in the message.
-/

namespace MxLib.Http.WebSockets

open MxLib.Library MxLib.Library.Stream

/-- The bytes of a full block. -/
def fullBlock (memory : Nat → Nat → Byte) (blk : Nat) : List Byte :=
  readBytes (memory blk) receiveDataBlockSize

/-- The last block of the list holds the first `nFilledFrame` of its bytes. -/
structure LastBlock (s : Receive) (pre : List Nat) (blk : Nat) (content : List Byte) : Prop where
  list_eq : s.sCurrentMessage.aReceivedDataList = pre ++ [blk]
  content_eq : content =
    pre.flatMap (fullBlock s.memory) ++ readBytes (s.memory blk) s.sCurrentMessage.nFilledFrame

/-- The blocks of a socket hold `content`. -/
structure Blocks (s : Receive) (content : List Byte) : Prop where
  total : s.sCurrentMessage.nTotalDataLength = content.length
  nodup : (s.sCurrentMessage.aReceivedDataList ++ s.sReceiveCache).Nodup
  fresh : ∀ blk ∈ s.sCurrentMessage.aReceivedDataList ++ s.sReceiveCache, blk < s.nextBlock
  layout :
    (s.sCurrentMessage.aReceivedDataList = [] ∧ s.sCurrentMessage.lpData = none ∧ content = []) ∨
    ∃ pre blk, LastBlock s pre blk content ∧ 0 < s.sCurrentMessage.nFilledFrame ∧
      s.sCurrentMessage.nFilledFrame ≤ receiveDataBlockSize ∧
      s.sCurrentMessage.lpData =
        if s.sCurrentMessage.nFilledFrame = receiveDataBlockSize then none
        else some (blk, s.sCurrentMessage.nFilledFrame)

/-- There is room for the next byte. -/
structure Room (s : Receive) (pre : List Nat) (blk : Nat) (content : List Byte) : Prop where
  total : s.sCurrentMessage.nTotalDataLength = content.length
  nodup : (s.sCurrentMessage.aReceivedDataList ++ s.sReceiveCache).Nodup
  fresh : ∀ blk ∈ s.sCurrentMessage.aReceivedDataList ++ s.sReceiveCache, blk < s.nextBlock
  last : LastBlock s pre blk content
  lt : s.sCurrentMessage.nFilledFrame < receiveDataBlockSize
  lpData : s.sCurrentMessage.lpData = some (blk, s.sCurrentMessage.nFilledFrame)

/-- What the bytes of a data frame leave alone. -/
structure SameFrame (s t : Receive) : Prop where
  nState : t.nState = s.nState
  header0 : t.header0 = s.header0
  header1 : t.header1 = s.header1
  uMasking : t.uMasking = s.uMasking
  control : t.sCurrentControlFrame = s.sCurrentControlFrame
  opcode : t.sCurrentMessage.nOpcode = s.sCurrentMessage.nOpcode
  closeError : t.hrCloseError = s.hrCloseError
  events : t.events = s.events

theorem SameFrame.refl (s : Receive) : SameFrame s s := ⟨rfl, rfl, rfl, rfl, rfl, rfl, rfl, rfl⟩

theorem SameFrame.trans {s t u : Receive} (h : SameFrame s t) (h' : SameFrame t u) :
    SameFrame s u :=
  ⟨h'.nState.trans h.nState, h'.header0.trans h.header0, h'.header1.trans h.header1,
    h'.uMasking.trans h.uMasking, h'.control.trans h.control, h'.opcode.trans h.opcode,
    h'.closeError.trans h.closeError, h'.events.trans h.events⟩

theorem length_fullBlocks (memory : Nat → Nat → Byte) (pre : List Nat) :
    (pre.flatMap (fullBlock memory)).length = receiveDataBlockSize * pre.length := by
  induction pre with
  | nil => rfl
  | cons blk pre ih =>
    rw [List.flatMap_cons, List.length_append, ih, fullBlock, length_readBytes, List.length_cons,
      Nat.mul_succ, Nat.add_comm]

theorem LastBlock.length {s : Receive} {pre : List Nat} {blk : Nat} {content : List Byte}
    (h : LastBlock s pre blk content) :
    content.length = receiveDataBlockSize * pre.length + s.sCurrentMessage.nFilledFrame := by
  rw [h.content_eq, List.length_append, length_fullBlocks, length_readBytes]

/-! ### A block for the next byte -/

theorem sameFrame_provideBlock (s : Receive) : SameFrame s (provideBlock s) := by
  rw [provideBlock]
  cases s.sCurrentMessage.lpData with
  | some p => exact .refl s
  | none =>
    dsimp only
    rw [getReceiveBufferFromCache]
    cases s.sReceiveCache.getLast? <;> exact ⟨rfl, rfl, rfl, rfl, rfl, rfl, rfl, rfl⟩

/-- Where the list of blocks ends with a full block, the content is that of full
blocks. -/
theorem Blocks.content_of_none {s : Receive} {content : List Byte} (hs : Blocks s content)
    (h : s.sCurrentMessage.lpData = none) :
    content = s.sCurrentMessage.aReceivedDataList.flatMap (fullBlock s.memory) := by
  rcases hs.layout with ⟨hnil, -, hcontent⟩ | ⟨pre, blk, hlast, -, -, hdata⟩
  · rw [hnil, hcontent]
    rfl
  · rw [h] at hdata
    have hfull : s.sCurrentMessage.nFilledFrame = receiveDataBlockSize := by
      by_contra hne
      rw [if_neg hne] at hdata
      cases hdata
    rw [hlast.content_eq, hlast.list_eq, hfull, List.flatMap_append, List.flatMap_singleton]
    rfl

/-- **A block is provided that is in use nowhere else.** -/
theorem room_provideBlock {s : Receive} {content : List Byte} (hs : Blocks s content) :
    ∃ pre blk, Room (provideBlock s) pre blk content := by
  cases hp : s.sCurrentMessage.lpData with
  | some p =>
    rw [provideBlock_of_some hp]
    rcases hs.layout with ⟨-, hnone, -⟩ | ⟨pre, blk, hlast, -, hle, hdata⟩
    · rw [hp] at hnone
      cases hnone
    · have hne : s.sCurrentMessage.nFilledFrame ≠ receiveDataBlockSize := by
        intro hfull
        rw [if_pos hfull, hp] at hdata
        cases hdata
      rw [if_neg hne] at hdata
      exact ⟨pre, blk, hs.total, hs.nodup, hs.fresh, hlast, by omega, hdata⟩
  | none =>
    have hcontent := hs.content_of_none hp
    refine ⟨s.sCurrentMessage.aReceivedDataList, (getReceiveBufferFromCache s).1, ?_⟩
    rw [provideBlock, hp]
    dsimp only
    rw [getReceiveBufferFromCache]
    cases hlast : s.sReceiveCache.getLast? with
    | some blk =>
      have hcache : s.sReceiveCache = s.sReceiveCache.dropLast ++ [blk] :=
        (List.dropLast_append_getLast? blk hlast).symm
      have hperm : (s.sCurrentMessage.aReceivedDataList ++ [blk] ++ s.sReceiveCache.dropLast).Perm
          (s.sCurrentMessage.aReceivedDataList ++ s.sReceiveCache) := by
        rw [List.append_assoc]
        conv_rhs => rw [hcache]
        exact List.Perm.append_left _ List.perm_append_comm
      refine ⟨hs.total, hperm.nodup_iff.mpr hs.nodup, ?_, ⟨rfl, ?_⟩, by simp [receiveDataBlockSize],
        rfl⟩
      · exact fun k hk => hs.fresh k (hperm.mem_iff.mp hk)
      · simpa using hcontent
    | none =>
      have hcache : s.sReceiveCache = [] := List.getLast?_eq_none_iff.mp hlast
      refine ⟨hs.total, ?_, ?_, ⟨rfl, ?_⟩, by simp [receiveDataBlockSize], rfl⟩
      · have hnew : s.nextBlock ∉ s.sCurrentMessage.aReceivedDataList := by
          intro hmem
          exact absurd (hs.fresh _ (List.mem_append_left _ hmem)) (Nat.lt_irrefl _)
        have hnodup := hs.nodup
        rw [hcache, List.append_nil] at hnodup
        simp only [hcache, List.append_nil]
        exact List.nodup_append.mpr ⟨hnodup, List.nodup_singleton _, by
          intro a ha b hb
          rw [List.mem_singleton.mp hb]
          rintro rfl
          exact hnew ha⟩
      · intro k hk
        simp only [hcache, List.append_nil, List.mem_append, List.mem_singleton] at hk
        rcases hk with hk | rfl
        · exact Nat.lt_succ_of_lt (hs.fresh k (List.mem_append_left _ hk))
        · exact Nat.lt_succ_self _
      · simpa using hcontent

/-! ### One byte -/

theorem fullBlocks_congr {memory memory' : Nat → Nat → Byte} {pre : List Nat}
    (h : ∀ blk ∈ pre, memory' blk = memory blk) :
    pre.flatMap (fullBlock memory') = pre.flatMap (fullBlock memory) := by
  induction pre with
  | nil => rw [List.flatMap_nil, List.flatMap_nil]
  | cons blk pre ih =>
    have hblk : fullBlock memory' blk = fullBlock memory blk :=
      congrArg (fun buf => readBytes buf receiveDataBlockSize) (h blk List.mem_cons_self)
    rw [List.flatMap_cons, List.flatMap_cons, hblk, ih fun k hk => h k (List.mem_cons_of_mem _ hk)]

/-- **A byte of a data frame is added to the content**, unmasked at its place in the
message. -/
theorem blocks_dataByte {s : Receive} {content : List Byte} (hs : Blocks s content) (b : Byte) :
    Blocks (dataByte s b) (content ++ [unmaskByte s content.length b]) ∧
      SameFrame s (dataByte s b) ∧ (dataByte s b).nPayloadLen = s.nPayloadLen - 1 := by
  obtain ⟨pre, blk, hroom⟩ := room_provideBlock hs
  have hsame := sameFrame_provideBlock s
  have hlen := hroom.last.length
  have hbyte : unmaskByte (provideBlock s) (provideBlock s).sCurrentMessage.nFilledFrame b =
      unmaskByte s content.length b := by
    have hmod : (provideBlock s).sCurrentMessage.nFilledFrame % 4 = content.length % 4 := by
      have hmul : receiveDataBlockSize * pre.length = 4 * (4096 * pre.length) := by
        rw [← Nat.mul_assoc]
        rfl
      omega
    rw [unmaskByte, unmaskByte, Receive.nMask, Receive.nMask, hsame.header1, hsame.uMasking,
      MaskKey.at_congr s.uMasking hmod]
  have hnotin : blk ∉ pre := by
    have hnodup := (List.nodup_append.mp hroom.nodup).1
    rw [hroom.last.list_eq] at hnodup
    intro hmem
    exact (List.nodup_append.mp hnodup).2.2 blk hmem blk (List.mem_singleton_self _) rfl
  obtain ⟨hpay, -, -⟩ := nPayloadLen_provideBlock s
  obtain ⟨-, hpay', -, -⟩ := copyToBlock_spec hroom.lpData [b] hroom.lt
  refine ⟨⟨?_, ?_, ?_, Or.inr ⟨pre, blk, ⟨?_, ?_⟩, ?_, ?_, ?_⟩⟩, ?_, ?_⟩
  · simp only [dataByte, copyToBlock, hroom.lpData, List.length_append, List.length_singleton,
      hroom.total]
  · simp only [dataByte, copyToBlock, hroom.lpData]
    exact hroom.nodup
  · simp only [dataByte, copyToBlock, hroom.lpData]
    exact hroom.fresh
  · simp only [dataByte, copyToBlock, hroom.lpData]
    exact hroom.last.list_eq
  · simp only [dataByte, copyToBlock, hroom.lpData, List.length_singleton, if_true]
    rw [unmaskFrom_singleton, hbyte, readBytes_memCopy_succ, ← List.append_assoc]
    refine congrArg (· ++ _) ?_
    rw [@fullBlocks_congr (provideBlock s).memory]
    · exact hroom.last.content_eq
    · intro k hk
      rw [if_neg]
      rintro rfl
      exact hnotin hk
  · simp only [dataByte, copyToBlock, hroom.lpData, List.length_singleton]
    omega
  · have hlt := hroom.lt
    simp only [dataByte, copyToBlock, hroom.lpData, List.length_singleton]
    omega
  · simp only [dataByte, copyToBlock, hroom.lpData, List.length_singleton]
  · refine hsame.trans ?_
    simp only [dataByte, copyToBlock, hroom.lpData]
    exact ⟨rfl, rfl, rfl, rfl, rfl, rfl, rfl, rfl⟩
  · rw [dataByte, hpay', hpay, List.length_singleton]

/-- **The bytes of a data frame are added to the content**, unmasked at their
places in the message. -/
theorem blocks_foldl_dataByte (l : List Byte) : ∀ {s : Receive} {content : List Byte},
    Blocks s content →
    Blocks (l.foldl dataByte s) (content ++ unmaskFrom s content.length l) ∧
      SameFrame s (l.foldl dataByte s) ∧
      (l.foldl dataByte s).nPayloadLen = s.nPayloadLen - l.length := by
  induction l with
  | nil =>
    intro s content hs
    have hnil : unmaskFrom s content.length [] = [] := by
      simp only [unmaskFrom]
      split <;> rfl
    rw [hnil, List.append_nil]
    exact ⟨hs, .refl s, rfl⟩
  | cons b l ih =>
    intro s content hs
    obtain ⟨hs', hsame, hpay⟩ := blocks_dataByte hs b
    obtain ⟨hs'', hsame', hpay'⟩ := ih hs'
    have hunmask : ∀ n, unmaskFrom (dataByte s b) n l = unmaskFrom s n l := by
      intro n
      rw [unmaskFrom, unmaskFrom, Receive.nMask, Receive.nMask, hsame.header1, hsame.uMasking]
    rw [List.foldl_cons]
    refine ⟨?_, hsame.trans hsame', by rw [hpay', hpay, List.length_cons]; omega⟩
    rw [hunmask, List.length_append, List.length_singleton, List.append_assoc,
      ← unmaskFrom_singleton, ← unmaskFrom_cons] at hs''
    exact hs''

/-! ### The end of a message -/

theorem flatMap_range_getD {α : Type} (l : List Nat) (f : Nat → List α) :
    (List.range l.length).flatMap (fun i => f (l.getD i 0)) = l.flatMap f := by
  induction l with
  | nil => rfl
  | cons k l ih =>
    rw [List.length_cons, List.range_succ_eq_map, List.flatMap_cons, List.flatMap_map,
      List.flatMap_cons, List.getD_cons_zero]
    exact congrArg (f k ++ ·) ih

/-- **The application gets the content of the blocks.** -/
theorem fullMessage_eq {s : Receive} {content : List Byte} (hs : Blocks s content)
    (hne : content ≠ []) : fullMessage s = content := by
  rcases hs.layout with ⟨-, -, hnil⟩ | ⟨pre, blk, hlast, -, hle, -⟩
  · exact absurd hnil hne
  have hlen := hlast.length
  simp only [fullMessage, hs.total, hlast.list_eq]
  by_cases hsmall : content.length < receiveDataBlockSize
  · have hpre : pre = [] := by
      cases pre with
      | nil => rfl
      | cons k pre => rw [List.length_cons, Nat.mul_add] at hlen; omega
    subst hpre
    rw [if_pos hsmall]
    rw [List.length_nil, Nat.mul_zero, Nat.zero_add] at hlen
    rw [hlen, hlast.content_eq]
    rfl
  · rw [if_neg hsmall, List.length_append, List.length_singleton, List.range_succ,
      List.flatMap_append, List.flatMap_singleton, Nat.add_sub_cancel, if_neg (Nat.lt_irrefl _)]
    have hrest : content.length - pre.length * receiveDataBlockSize =
        s.sCurrentMessage.nFilledFrame := by
      rw [hlen, Nat.mul_comm]
      omega
    have hlastBlk : (pre ++ [blk]).getD pre.length 0 = blk := by simp
    rw [hrest, hlastBlk, hlast.content_eq]
    have hpre : ((List.range pre.length).flatMap fun i =>
        readBytes (s.memory ((pre ++ [blk]).getD i 0))
          (if i < pre.length then receiveDataBlockSize else s.sCurrentMessage.nFilledFrame)) =
        pre.flatMap (fullBlock s.memory) := by
      rw [← flatMap_range_getD pre (fullBlock s.memory)]
      apply List.flatMap_congr
      intro i hi
      rw [List.mem_range] at hi
      have hget : (pre ++ [blk]).getD i 0 = pre.getD i 0 := by
        simp [List.getElem?_append_left hi]
      rw [if_pos hi, hget, fullBlock]
    rw [hpre]

/-- The blocks of a message go back to the cache, or are freed. -/
theorem blocks_putAllReceiveBuffersOnCache {s : Receive} {content : List Byte}
    (hs : Blocks s content) :
    (putAllReceiveBuffersOnCache s).sCurrentMessage.aReceivedDataList = [] ∧
      (putAllReceiveBuffersOnCache s).sReceiveCache.Nodup ∧
      ∀ blk ∈ (putAllReceiveBuffersOnCache s).sReceiveCache,
        blk < (putAllReceiveBuffersOnCache s).nextBlock := by
  have hperm : (s.sCurrentMessage.aReceivedDataList ++ s.sReceiveCache).Perm
      (s.sReceiveCache ++ s.sCurrentMessage.aReceivedDataList) := List.perm_append_comm
  have hsub : ∀ n, (s.sReceiveCache ++ s.sCurrentMessage.aReceivedDataList.take n).Sublist
      (s.sReceiveCache ++ s.sCurrentMessage.aReceivedDataList) :=
    fun n => List.Sublist.append_left (List.take_sublist _ _) _
  refine ⟨rfl, ?_, ?_⟩
  · exact (hsub _).nodup (hperm.nodup_iff.mp hs.nodup)
  · exact fun blk hblk => hs.fresh blk (hperm.mem_iff.mpr ((hsub _).subset hblk))

end MxLib.Http.WebSockets
