import ZlibNg.Deflate.StoredCalls
import ZlibNg.Deflate.TallySpec
import ZlibNg.Inflate.Schedule
import ZlibNg.Trees.BlockSeq

/-! Runs of `deflate` with Huffman codes only or with run lengths: what is written and tallied is what
was taken, and `inflate` reads it back. -/
namespace ZlibNg

theorem BufferedSym.expand_suffix (x : BufferedSym) (hist : List UInt8) : hist <:+ x.expand hist := by
  unfold BufferedSym.expand
  split
  · exact List.suffix_cons _ _
  · generalize x.lc + 3 = len
    induction len generalizing hist with
    | zero => exact List.suffix_rfl
    | succ len ih => exact (List.suffix_cons _ _).trans (ih _)

theorem denoted_suffix (syms : List BufferedSym) (hist : List UInt8) : hist <:+ denoted syms hist := by
  induction syms generalizing hist with
  | nil => exact List.suffix_rfl
  | cons x xs ih => exact (x.expand_suffix hist).trans (ih _)

theorem denoted_snoc (syms : List BufferedSym) (x : BufferedSym) (hist : List UInt8) :
    denoted (syms ++ [x]) hist = x.expand (denoted syms hist) := by
  simp only [denoted, List.foldl_append, List.foldl_cons, List.foldl_nil]

theorem inHistory_snoc {syms : List BufferedSym} {x : BufferedSym} {hist : List UInt8}
    (h : InHistory syms hist) (hx : x.dist ≤ (denoted syms hist).length) :
    InHistory (syms ++ [x]) hist := by
  induction syms generalizing hist with
  | nil => exact ⟨hx, trivial⟩
  | cons y ys ih => exact ⟨h.1, ih h.2 hx⟩

/-- Literals stand for one byte each. -/
theorem length_denoted_literals {syms : List BufferedSym} (h : ∀ x ∈ syms, x.dist = 0)
    (hist : List UInt8) : (denoted syms hist).length = syms.length + hist.length := by
  induction syms generalizing hist with
  | nil => exact (Nat.zero_add _).symm
  | cons x xs ih =>
    have hx := h x List.mem_cons_self
    have hexpand : x.expand hist = UInt8.ofNat x.lc :: hist := if_pos hx
    have hrest := ih (fun y hy => h y (List.mem_cons_of_mem x hy)) (x.expand hist)
    rw [hexpand, List.length_cons] at hrest
    rw [denoted, List.foldl_cons, hexpand]
    exact hrest.trans (by rw [List.length_cons]; omega)

namespace StoredStream
variable {s s' s'' : StoredStream} {w : BitWriter} {t u : BitStream}

/-- The output and the bit buffer, when nothing is about to be put. -/
structure Settled (s : StoredStream) : Prop where
  outset : s.head.pending = 0 → s.head.pendingOut = 0
  lt : s.biBuf < 2 ^ s.biValid
  valid : s.biValid < 8

theorem Settled.held (h : s.Settled) : s.writer.Held :=
  ⟨h.lt, show s.biValid < 64 from h.valid.trans (by decide)⟩

/-- Only the output and the bit buffer change, and hold `t` in the end; what is pending waits for
room. -/
structure Flushes (s s' : StoredStream) (t : BitStream) : Prop where
  settled : s'.Settled
  sent : s'.sent = t
  drained : s'.head.availOut ≠ 0 → s'.head.pending = 0
  win : s'.win = s.win
  finish : s'.finish = s.finish
  level : s'.head.level = s.head.level
  strategy : s'.head.strategy = s.head.strategy
  status : s'.head.status = s.head.status
  wrap : s'.head.wrap = s.head.wrap

theorem flush_flushes (h : s.Settled) :
    s.Flushes s.flushPending s.sent ∧ s.flushPending.biValid = s.biValid := by
  obtain ⟨p, q, a, out, heq, hq, ha, hsent, -⟩ := flushPending_spec h.valid h.outset
  rw [heq] at hsent ⊢
  exact ⟨⟨⟨hq, h.lt, h.valid⟩, hsent, fun hne => by_contra fun hp => hne (ha hp), rfl, rfl, rfl, rfl,
    rfl, rfl⟩, rfl⟩

/-- What a bit writer has goes out as far as there is room. -/
theorem absorb_flushes (hout : s.head.pendingOut = 0) (hw : w.Held) :
    s.Flushes (s.absorb w).flushPending (s.whole.append w.stream) ∧
      (s.absorb w).flushPending.biValid = w.biValid % 8 := by
  have hheld : (s.absorb w).writer.Held := ⟨hw.lt, hw.valid⟩
  obtain ⟨hbits, hstream, hvalid⟩ := BitWriter.trFlushBits_spec hheld
  have hsettled : ((s.absorb w).absorb (s.absorb w).writer.trFlushBits).Settled :=
    ⟨fun _ => hout, hbits.lt, hvalid.trans_lt (Nat.mod_lt _ (by decide))⟩
  obtain ⟨hflush, hkept⟩ := flush_flushes hsettled
  have heq : ((s.absorb w).absorb (s.absorb w).writer.trFlushBits).flushPending =
      (s.absorb w).flushPending := flushPending_eq hsettled.valid
  have hsent : ((s.absorb w).absorb (s.absorb w).writer.trFlushBits).sent = s.whole.append w.stream := by
    have hhold : (s.absorb w).head.pendingOut = 0 := hout
    rw [sent_absorb hhold, hstream, writer_stream, ← sent_absorb hout]
    rfl
  rw [heq, hsent] at hflush
  rw [heq] at hkept
  exact ⟨⟨hflush.settled, hflush.sent, hflush.drained, hflush.win, hflush.finish, hflush.level,
    hflush.strategy, hflush.status, hflush.wrap⟩, hkept.trans hvalid⟩

end StoredStream

/-- A block is not longer than a stored block can be: it has literals only, or matches that need more
bytes than the window ends with. -/
def Tallier.Short (t : Tallier) (s : TallyStream) : Prop :=
  ((∀ win, (t.turn win).dist = 0) ∧ ∀ x ∈ s.syms, x.dist = 0) ∨
    (t.need = stdMaxMatch + 1 ∧ s.base.win.strstart < 2 ^ 16)

namespace TallyStream
open StoredStream
variable {s s' : TallyStream} {t : Tallier} {cmp : Compare256} {dl : Nat → TreeKind → Nat → Nat}
  {taken input : List UInt8} {flush : Flush}

/-- The bytes that were taken are in the blocks, in the symbol buffer and in the window. -/
structure Tallied (s : TallyStream) (taken done hist : List UInt8) : Prop where
  taken : taken = done ++ s.base.win.ahead
  front : s.base.win.front <:+ done
  leads : Leads id s.base.sent hist false
  inHistory : InHistory s.syms hist
  denoted : denoted s.syms hist = done.reverse
  length : (s.base.win.strstart - s.base.win.blockStart : Int) + hist.length = done.length

/-- A raw stream before its last block. -/
structure Holds (t : Tallier) (s : TallyStream) (taken : List UInt8) : Prop where
  settled : s.base.Settled
  status : s.base.head.status = .busy ∨ (s.base.head.status = .init ∧ s.base.head.wrap = 0)
  wrap : s.base.win.wrap = 0
  shape : s.base.win.Shape
  room : s.base.win.strstart + s.base.win.lookahead ≤ s.base.win.fillEnd + minLookahead
  buffer : s.syms.length + 1 ≤ s.litBufsize
  limit : 2 ≤ s.litBufsize ∧ s.litBufsize ≤ 2 ^ 15
  short : t.Short s
  tallied : ∃ done hist, s.Tallied taken done hist

/-- A raw stream behind its last block. -/
structure Finished (s : TallyStream) (taken : List UInt8) : Prop where
  settled : s.base.Settled
  status : s.base.head.status = .busy ∨ (s.base.head.status = .init ∧ s.base.head.wrap = 0)
  wrap : s.base.win.wrap = 0
  lookahead : s.base.win.lookahead = 0
  valid : s.base.biValid = 0
  sent : ∃ bits, Leads id bits taken.reverse true ∧ s.base.sent = bits.pad

theorem Tallied.left {done hist : List UInt8} (h : s.Tallied taken done hist) :
    s.base.left + hist.length = done.length ∧
      (s.base.win.strstart : Int) = s.base.win.blockStart + s.base.left := by
  have hle := (denoted_suffix s.syms hist).length_le
  rw [h.denoted, List.length_reverse] at hle
  have hlen := h.length
  unfold StoredStream.left
  omega

/-- The block is in the window, if its start is. -/
theorem Tallied.describes {done hist : List UInt8} (h : s.Tallied taken done hist) (hshort : t.Short s)
    (hbuffer : s.syms.length < 2 ^ 16) (last : Bool) : (s.flushArgs last).Describes s.syms hist := by
  obtain ⟨hleft, hstart⟩ := h.left
  have hlt : 0 ≤ s.base.win.blockStart → s.base.left < 2 ^ 16 := by
    intro h0
    rcases hshort with ⟨-, hlits⟩ | ⟨-, hsmall⟩
    · have hlen := length_denoted_literals hlits hist
      rw [h.denoted, List.length_reverse] at hlen
      omega
    · omega
  have hblock : 0 ≤ s.base.win.blockStart →
      (readBytes s.base.win.window s.base.win.blockStart.toNat s.base.left).reverse ++ hist =
        done.reverse := by
    intro h0
    obtain ⟨before, hdone⟩ := h.front
    obtain ⟨later, hdenoted⟩ := denoted_suffix s.syms hist
    rw [h.denoted] at hdenoted
    have hfront : s.base.win.front = readBytes s.base.win.window 0 s.base.win.blockStart.toNat ++
        readBytes s.base.win.window s.base.win.blockStart.toNat s.base.left := by
      have hsplit : s.base.win.strstart = s.base.win.blockStart.toNat + s.base.left := by omega
      rw [DeflateState.front, hsplit, readBytes_add, Nat.zero_add]
    rw [← hdone, hfront, ← List.append_assoc, List.reverse_append] at hdenoted
    have hlen : later.length =
        (readBytes s.base.win.window s.base.win.blockStart.toNat s.base.left).reverse.length := by
      have hcount := congrArg List.length hdenoted
      have hall := congrArg List.length hdone
      rw [hfront] at hall
      simp only [List.length_append, List.length_reverse, length_readBytes] at hcount hall ⊢
      omega
    rw [← (List.append_inj hdenoted hlen).1, hdenoted, ← List.reverse_append, List.append_assoc, ← hfront,
      hdone]
  have hbuf : ∀ buf, (s.flushArgs last).buf = some buf → 0 ≤ s.base.win.blockStart ∧
      readBytes s.base.win.window s.base.win.blockStart.toNat s.base.left = buf := by
    intro buf hbuf
    unfold flushArgs at hbuf
    dsimp only at hbuf
    split at hbuf
    · next h0 => exact ⟨h0, Option.some.inj hbuf⟩
    · cases hbuf
  constructor
  · intro buf hsome
    obtain ⟨h0, rfl⟩ := hbuf buf hsome
    refine ⟨?_, hlt h0⟩
    rw [List.length_take, length_readBytes]
    exact Nat.min_self _
  · intro buf hsome
    obtain ⟨h0, rfl⟩ := hbuf buf hsome
    have hall : (readBytes s.base.win.window s.base.win.blockStart.toNat s.base.left).take
        (s.flushArgs last).storedLen =
          readBytes s.base.win.window s.base.win.blockStart.toNat s.base.left :=
      List.take_of_length_le (by rw [length_readBytes]; rfl)
    rw [hall, hblock h0, h.denoted]

/-- The stream goes on where the output has only moved on. -/
theorem Holds.base (h : Holds t s taken) {base : StoredStream}
    (hf : s.base.Flushes base s.base.sent) : Holds t { s with base } taken := by
  obtain ⟨done, hist, ht⟩ := h.tallied
  obtain ⟨hsettled, hsent, -, hwin, -, -, -, hstatus, hwrap⟩ := hf
  refine ⟨hsettled, ?_, ?_, ?_, ?_, h.buffer, h.limit, ?_, done, hist, ?_, ?_, ?_, ht.inHistory,
    ht.denoted, ?_⟩
  · dsimp only
    rw [hstatus, hwrap]
    exact h.status
  · dsimp only
    rw [hwin]
    exact h.wrap
  · dsimp only
    rw [hwin]
    exact h.shape
  · dsimp only
    rw [hwin]
    exact h.room
  · refine h.short.imp id fun hsmall => ⟨hsmall.1, ?_⟩
    dsimp only
    rw [hwin]
    exact hsmall.2
  · dsimp only
    rw [hwin]
    exact ht.taken
  · dsimp only
    rw [hwin]
    exact ht.front
  · dsimp only
    rw [hsent]
    exact ht.leads
  · dsimp only
    rw [hwin]
    exact ht.length

theorem Finished.base (h : s.Finished taken) {base : StoredStream}
    (hf : s.base.Flushes base s.base.sent) (hvalid : base.biValid = s.base.biValid) :
    Finished { s with base } taken := by
  obtain ⟨bits, hleads, hbits⟩ := h.sent
  obtain ⟨hsettled, hsent, -, hwin, -, -, -, hstatus, hwrap⟩ := hf
  refine ⟨hsettled, ?_, ?_, ?_, hvalid.trans h.valid, bits, hleads, hsent.trans hbits⟩
  · dsimp only
    rw [hstatus, hwrap]
    exact h.status
  · dsimp only
    rw [hwin]
    exact h.wrap
  · dsimp only
    rw [hwin]
    exact h.lookahead

/-- What `FLUSH_BLOCK_ONLY` leaves: the symbol buffer is empty, and the input that waits is the same. -/
structure Flushed (t : Tallier) (taken : List UInt8) (last : Bool) (s s' : TallyStream) : Prop where
  syms : s'.syms = []
  limit : s'.litBufsize = s.litBufsize
  win : s'.base.win = { s.base.win with blockStart := s.base.win.strstart }
  finish : s'.base.finish = s.base.finish
  level : s'.base.head.level = s.base.head.level
  strategy : s'.base.head.strategy = s.base.head.strategy
  drained : s'.base.head.availOut ≠ 0 → s'.base.head.pending = 0
  goes : if last then s.base.win.lookahead = 0 → s'.Finished taken else Holds t s' taken

theorem flushBlockOnly_spec (dl : Nat → TreeKind → Nat → Nat) (h : Holds t s taken)
    (hp : s.base.head.pending = 0) (last : Bool) :
    ∃ s', s.flushBlockOnly dl last = some s' ∧ Flushed t taken last s s' := by
  obtain ⟨done, hist, ht⟩ := h.tallied
  have hbuffer := h.buffer
  obtain ⟨hlarge, hlimit⟩ := h.limit
  obtain ⟨f, sent, hf, hsends, hwriter⟩ := trFlushSyms_sends
    (show ReachesBack id from fun n => Nat.min_le_left _ _) ht.inHistory (ht.describes h.short (by omega) last)
    h.settled.held hlimit (by omega) (dl s.blocks)
  have hlen : s.base.sent.len % 8 = s.base.writer.biValid % 8 := by
    rw [StoredStream.sent, BitStream.append_len, Nat.add_mod, s.base.whole_len, Nat.zero_add,
      Nat.mod_mod]
    rfl
  have hleads := hsends.leads ht.leads hlen
  rw [ht.denoted] at hleads
  have hbits : s.base.whole.append f.block.stream = s.base.sent.append sent := by
    rw [hsends.stream, ← BitStream.append_assoc, writer_stream]
    rfl
  -- the start of the block moves on before the bytes go out, or after that
  generalize hb : ({ s.base with win := { s.base.win with blockStart := s.base.win.strstart } } :
    StoredStream) = b
  have hout : b.head.pendingOut = 0 := by
    rw [← hb]
    exact h.settled.outset hp
  have hwhole : b.whole = s.base.whole := by rw [← hb]; rfl
  have heq : s.flushBlockOnly dl last = some { s with
      base := (b.absorb f.writer).flushPending, syms := [], blocks := s.blocks + 1 } := by
    rw [flushBlockOnly, hf, ← hb]
    rfl
  have hheld : f.writer.Held := by
    rw [hwriter]
    split
    · exact (BitWriter.biWindup_spec hsends.held).1
    · exact hsends.held
  obtain ⟨hflushes, hvalid⟩ := absorb_flushes hout hheld
  have hstatus : (b.absorb f.writer).flushPending.head.status = .busy ∨
      ((b.absorb f.writer).flushPending.head.status = .init ∧
        (b.absorb f.writer).flushPending.head.wrap = 0) := by
    rw [hflushes.status, hflushes.wrap, ← hb]
    exact h.status
  have hwin : (b.absorb f.writer).flushPending.win =
      { s.base.win with blockStart := s.base.win.strstart } := by rw [hflushes.win, ← hb]
  refine ⟨_, heq, rfl, rfl, hwin, ?_, ?_, ?_, hflushes.drained, ?_⟩
  · rw [hflushes.finish, ← hb]
  · rw [hflushes.level, ← hb]
  · rw [hflushes.strategy, ← hb]
  cases last with
  | false =>
    have hplain : f.writer = f.block := hwriter
    have hsent : (b.absorb f.writer).flushPending.sent = s.base.sent.append sent := by
      rw [hflushes.sent, hwhole, hplain, hbits]
    change Holds t _ taken
    refine ⟨hflushes.settled, hstatus, ?_, ?_, ?_, Nat.le_of_lt hlarge, ⟨hlarge, hlimit⟩, ?_, done,
      done.reverse, ?_, ?_, ?_, trivial, rfl, ?_⟩
    · dsimp only
      rw [hwin]
      exact h.wrap
    · dsimp only
      rw [hwin]
      exact h.shape.congr rfl rfl rfl
    · dsimp only
      rw [hwin]
      exact h.room
    · refine h.short.imp (fun hlits => ⟨hlits.1, fun x hx => absurd hx List.not_mem_nil⟩) fun hsmall =>
        ⟨hsmall.1, ?_⟩
      dsimp only
      rw [hwin]
      exact hsmall.2
    · dsimp only
      rw [hwin]
      exact ht.taken
    · dsimp only
      rw [hwin]
      exact ht.front
    · dsimp only
      rw [hsent]
      exact hleads
    · dsimp only
      rw [hwin, List.length_reverse]
      dsimp only
      omega
  | true =>
    have hpad : f.writer = f.block.biWindup := hwriter
    obtain ⟨-, hstream, hzero, -⟩ := BitWriter.biWindup_spec hsends.held
    have hsent : (b.absorb f.writer).flushPending.sent = (s.base.sent.append sent).pad := by
      rw [hflushes.sent, hwhole, hpad, hstream, ← BitStream.append_pad s.base.whole_len, hbits]
    change s.base.win.lookahead = 0 → Finished _ taken
    intro hlook
    have hall : done = taken := by
      rw [ht.taken, DeflateState.ahead, hlook, readBytes_zero, List.append_nil]
    refine ⟨hflushes.settled, hstatus, ?_, ?_, ?_, _, hall ▸ hleads, hsent⟩
    · dsimp only
      rw [hwin]
      exact h.wrap
    · dsimp only
      rw [hwin]
      exact hlook
    · dsimp only
      rw [hvalid, hpad, hzero]

/-- `fill_window` takes some of the input. -/
theorem fillWindow_spec (h : Holds t s taken) (input : List UInt8) :
    ∃ n s', s.fillWindow input = some (s', input.drop n) ∧ n ≤ input.length ∧
      Holds t s' (taken ++ input.take n) ∧ s'.syms = s.syms ∧ s'.litBufsize = s.litBufsize ∧
      s'.base.finish = s.base.finish ∧ s'.base.head.level = s.base.head.level ∧
      s'.base.head.strategy = s.base.head.strategy ∧ s'.base.head.pending = s.base.head.pending ∧
      s'.base.win.lookahead = s.base.win.lookahead + n ∧
      s'.base.win.strstart < s'.base.win.fillEnd ∧
      (minLookahead ≤ s'.base.win.lookahead ∨ input.drop n = []) := by
  obtain ⟨done, hist, ht⟩ := h.tallied
  obtain ⟨n, win, hfill, hrefills, hn, hend⟩ :=
    DeflateState.fillWindow_refills h.shape h.room (Nat.lt_succ_self input.length)
  have heq : s.fillWindow input = some ({ s with base :=
      { s.base.readBuf (input.take (input.length - (input.drop n).length)) with win } },
      input.drop n) := by
    rw [fillWindow, hfill]
    rfl
  have hlook : win.lookahead = s.base.win.lookahead + n := by
    have hlen := congrArg List.length hrefills.ahead
    rw [List.length_append, DeflateState.ahead, DeflateState.ahead, length_readBytes, length_readBytes,
      List.length_take_of_le hn] at hlen
    exact hlen
  obtain ⟨hle, hstart⟩ := hrefills.start
  refine ⟨n, _, heq, hn, ⟨⟨h.settled.outset, h.settled.lt, h.settled.valid⟩, h.status,
    hrefills.wrap.trans h.wrap, hrefills.shape, hrefills.room, h.buffer, h.limit, ?_, done, hist, ?_,
    hrefills.front.trans ht.front, ht.leads, ht.inHistory, ht.denoted, ?_⟩, rfl, rfl, rfl, rfl, rfl,
    rfl, hlook, hrefills.near, hend⟩
  · exact h.short.imp id fun hsmall => ⟨hsmall.1, hle.trans_lt hsmall.2⟩
  · change taken ++ input.take n = done ++ win.ahead
    rw [hrefills.ahead, ← List.append_assoc, ← ht.taken]
  · change (win.strstart - win.blockStart : Int) + hist.length = done.length
    rw [hstart]
    exact ht.length

/-- The symbol of a turn is tallied. -/
theorem tally_spec (ht : t.Sound) (h : Holds t s taken) (hpos : 0 < s.base.win.lookahead)
    (hfree : s.syms.length + 1 < s.litBufsize)
    (hnear : t.need ≤ s.base.win.lookahead ∨ s.base.win.strstart < s.base.win.fillEnd) :
    Holds t (s.tally (t.turn s.base.win)) taken := by
  have h262 : minLookahead = 262 := rfl
  have h258 : stdMaxMatch = 258 := rfl
  obtain ⟨done, hist, htallied⟩ := h.tallied
  have hx := ht.fitting s.base.win hpos
  generalize hturn : t.turn s.base.win = x at hx
  have hsize := hx.size
  have hle := x.size_le
  have hroom := h.room
  have hfits := h.shape.fits
  have hlimit := h.shape.limit
  have hfront : s.base.win.front.reverse <+: denoted s.syms hist := by
    rw [htallied.denoted]
    exact List.reverse_prefix.mpr htallied.front
  obtain ⟨hexpand, hfar⟩ := DeflateState.expand_fitting hx hfront
  have hahead : s.base.win.ahead = readBytes s.base.win.window s.base.win.strstart x.size ++
      readBytes s.base.win.window (s.base.win.strstart + x.size) (s.base.win.lookahead - x.size) := by
    have hsplit : s.base.win.lookahead = x.size + (s.base.win.lookahead - x.size) := by omega
    rw [DeflateState.ahead]
    conv_lhs => rw [hsplit, readBytes_add]
  refine ⟨⟨h.settled.outset, h.settled.lt, h.settled.valid⟩, h.status, h.wrap,
    h.shape.congr rfl rfl rfl, ?_, ?_, h.limit, ?_, done ++ readBytes s.base.win.window
      s.base.win.strstart x.size, hist, ?_, ?_, htallied.leads, inHistory_snoc htallied.inHistory hfar,
    ?_, ?_⟩
  · change s.base.win.strstart + x.size + (s.base.win.lookahead - x.size) ≤
      s.base.win.fillEnd + minLookahead
    omega
  · change (s.syms ++ [x]).length + 1 ≤ s.litBufsize
    rw [List.length_append, List.length_singleton]
    omega
  · rcases h.short with ⟨hlits, hall⟩ | ⟨hneed, hsmall⟩
    · refine .inl ⟨hlits, fun y hy => ?_⟩
      rcases List.mem_append.mp hy with hy | hy
      · exact hall y hy
      · rw [List.mem_singleton.mp hy, ← hturn]
        exact hlits s.base.win
    · refine .inr ⟨hneed, ?_⟩
      change s.base.win.strstart + x.size < 2 ^ 16
      omega
  · change taken = done ++ readBytes _ _ _ ++ readBytes s.base.win.window
      (s.base.win.strstart + x.size) (s.base.win.lookahead - x.size)
    rw [List.append_assoc, ← hahead]
    exact htallied.taken
  · have hnext : readBytes s.base.win.window 0 (s.base.win.strstart + x.size) =
        s.base.win.front ++ readBytes s.base.win.window s.base.win.strstart x.size := by
      rw [readBytes_add, Nat.zero_add]
      rfl
    change readBytes s.base.win.window 0 (s.base.win.strstart + x.size) <:+ _
    rw [hnext]
    obtain ⟨before, hbefore⟩ := htallied.front
    exact ⟨before, by rw [← List.append_assoc, hbefore]⟩
  · change denoted (s.syms ++ [x]) hist = _
    rw [denoted_snoc, hexpand, htallied.denoted, List.reverse_append]
  · have hlen := htallied.length
    change ((s.base.win.strstart + x.size : Nat) - s.base.win.blockStart : Int) + hist.length = _
    rw [List.length_append, length_readBytes]
    omega

/-- How a loop leaves a stream, with `rest` of the input. -/
inductive Leaves (t : Tallier) (flush : Flush) (taken rest : List UInt8) :
    BlockState → TallyStream → Prop
  | needMore {s : TallyStream} (h : Holds t s taken) (free : s.syms.length + 1 < s.litBufsize)
      (full : flush = .noFlush ∨ s.base.head.availOut = 0) : Leaves t flush taken rest .needMore s
  | blockDone {s : TallyStream} (h : Holds t s taken) (syms : s.syms = [])
      (pending : s.base.head.pending = 0) (lookahead : s.base.win.lookahead = 0) (nil : rest = [])
      (open_ : flush ≠ .finish) : Leaves t flush taken rest .blockDone s
  | finishStarted {s : TallyStream} (h : s.Finished taken) (nil : rest = []) (close : flush = .finish) :
      Leaves t flush taken rest .finishStarted s
  | finishDone {s : TallyStream} (h : s.Finished taken) (pending : s.base.head.pending = 0)
      (nil : rest = []) (close : flush = .finish) : Leaves t flush taken rest .finishDone s

/-- What a loop does not change. -/
def Frame (s s' : TallyStream) : Prop :=
  s'.base.finish = s.base.finish ∧ s'.base.head.level = s.base.head.level ∧
    s'.base.head.strategy = s.base.head.strategy

theorem Frame.trans {s₁ s₂ s₃ : TallyStream} (h : Frame s₁ s₂) (h' : Frame s₂ s₃) : Frame s₁ s₃ :=
  ⟨h'.1.trans h.1, h'.2.1.trans h.2.1, h'.2.2.trans h.2.2⟩

theorem Flushed.frame {last : Bool} (h : Flushed t taken last s s') : Frame s s' :=
  ⟨h.finish, h.level, h.strategy⟩

theorem lastBlock_spec (dl : Nat → TreeKind → Nat → Nat) (flush : Flush) (h : Holds t s taken)
    (hp : s.base.head.pending = 0)
    (hlook : s.base.win.lookahead = 0) {rest : List UInt8} (hnil : rest = []) :
    ∃ r, s.lastBlock dl flush = some r ∧ Leaves t flush taken rest r.1 r.2 ∧ Frame s r.2 := by
  unfold lastBlock
  split
  · next hfinish =>
    obtain ⟨s', hs', hflushed⟩ := flushBlockOnly_spec dl h hp true
    have hgoes : s'.Finished taken := hflushed.goes hlook
    rw [hs']
    refine ⟨_, rfl, ?_, hflushed.frame⟩
    dsimp only
    split
    · exact .finishStarted hgoes hnil hfinish
    · next hroom => exact .finishDone hgoes (hflushed.drained hroom) hnil hfinish
  · next hfinish =>
    split
    · obtain ⟨s', hs', hflushed⟩ := flushBlockOnly_spec dl h hp false
      have hgoes : Holds t s' taken := hflushed.goes
      have hlook' : s'.base.win.lookahead = 0 := by
        rw [hflushed.win]
        exact hlook
      rw [hs']
      refine ⟨_, rfl, ?_, hflushed.frame⟩
      dsimp only
      split
      · next hfull =>
        refine .needMore hgoes ?_ (.inr hfull)
        have hlimit := hgoes.limit.1
        rw [hflushed.syms]
        exact hlimit
      · next hroom =>
        exact .blockDone hgoes hflushed.syms (hflushed.drained hroom) hlook' hnil hfinish
    · next hsyms =>
      exact ⟨_, rfl, .blockDone h (not_not.mp hsyms) hp hlook hnil hfinish, rfl, rfl, rfl⟩

/-- The bytes a turn asks for are read, as far as there is input. -/
theorem readAhead_spec (ht : t.Sound) (h : Holds t s taken) (input : List UInt8) :
    ∃ n s', s.readAhead t input = some (s', input.drop n) ∧ n ≤ input.length ∧
      Holds t s' (taken ++ input.take n) ∧ Frame s s' ∧ s'.syms = s.syms ∧ s'.litBufsize = s.litBufsize ∧
      s'.base.head.pending = s.base.head.pending ∧
      s'.base.win.lookahead = s.base.win.lookahead + n ∧
      (t.need ≤ s'.base.win.lookahead ∨ s'.base.win.strstart < s'.base.win.fillEnd) ∧
      (s'.base.win.lookahead = 0 → input.drop n = []) := by
  have h262 : minLookahead = 262 := rfl
  have hpos := ht.pos
  unfold readAhead
  split
  · obtain ⟨n, s', hfill, hn, hholds, hsyms, hlimit, hfinish, hlevel, hstrategy, hpending, hlook, hnear,
      hend⟩ := fillWindow_spec h input
    exact ⟨n, s', hfill, hn, hholds, ⟨hfinish, hlevel, hstrategy⟩, hsyms, hlimit, hpending, hlook, .inr hnear,
      fun h0 => hend.resolve_left (by omega)⟩
  · next henough =>
    refine ⟨0, s, ?_, Nat.zero_le _, ?_, ⟨rfl, rfl, rfl⟩, rfl, rfl, rfl, rfl, .inl (Nat.le_of_not_lt henough),
      fun h0 => by omega⟩
    · rw [List.drop_zero]
    · rw [List.take_zero, List.append_nil]
      exact h

/-- The loop of a strategy comes to an end, and loses nothing. -/
theorem tallyLoop_spec (dl : Nat → TreeKind → Nat → Nat) (flush : Flush) (ht : t.Sound) {fuel : Nat}
    (h : Holds t s taken)
    (hp : s.base.head.pending = 0) (hfree : s.syms.length + 1 < s.litBufsize)
    (hfuel : s.base.win.lookahead + input.length < fuel) :
    ∃ n state s', s.tallyLoop t dl flush fuel input = some (state, s', input.drop n) ∧
      n ≤ input.length ∧ Leaves t flush (taken ++ input.take n) (input.drop n) state s' ∧
      Frame s s' := by
  induction fuel generalizing s taken input with
  | zero => omega
  | succ fuel ih =>
    obtain ⟨n, s₁, hread, hn, h₁, hframe₁, hsyms₁, hlimit₁, hpending₁, hlook₁, hnear, hend⟩ :=
      readAhead_spec ht h input
    have hp₁ := hpending₁.trans hp
    have hfree₁ : s₁.syms.length + 1 < s₁.litBufsize := by
      rw [hsyms₁, hlimit₁]
      exact hfree
    rw [tallyLoop, hread, Option.bind_eq_bind, Option.bind_some]
    dsimp only
    by_cases hmore : s₁.base.win.lookahead < t.need ∧ flush = .noFlush
    · rw [if_pos hmore]
      exact ⟨n, _, s₁, rfl, hn, .needMore h₁ hfree₁ (.inl hmore.2), hframe₁⟩
    rw [if_neg hmore]
    by_cases hlook : s₁.base.win.lookahead = 0
    · obtain ⟨r, hlast, hleaves, hframe⟩ :=
        lastBlock_spec dl flush h₁ hp₁ hlook (hend hlook)
      rw [if_pos hlook, hlast]
      exact ⟨n, _, _, rfl, hn, hleaves, hframe₁.trans hframe⟩
    rw [if_neg hlook]
    have hturn := tally_spec ht h₁ (Nat.pos_of_ne_zero hlook) hfree₁ hnear
    have hsize := (ht.fitting s₁.base.win (Nat.pos_of_ne_zero hlook)).size
    have hone := (t.turn s₁.base.win).size_pos
    -- the loop goes on with what is left
    have hgo : ∀ s₂ : TallyStream, Holds t s₂ (taken ++ input.take n) → s₂.base.head.pending = 0 →
        s₂.syms.length + 1 < s₂.litBufsize →
        s₂.base.win.lookahead = s₁.base.win.lookahead - (t.turn s₁.base.win).size → Frame s₁ s₂ →
        ∃ m state s', s₂.tallyLoop t dl flush fuel (input.drop n) = some (state, s', input.drop m) ∧
          m ≤ input.length ∧ Leaves t flush (taken ++ input.take m) (input.drop m) state s' ∧
          Frame s s' := by
      intro s₂ h₂ hp₂ hfree₂ hlook₂ hframe₂
      obtain ⟨m, state, s', hloop, hm, hleaves, hframe⟩ := ih h₂ hp₂ hfree₂
        (show s₂.base.win.lookahead + (input.drop n).length < fuel by
          rw [List.length_drop, hlook₂]
          omega)
      rw [List.length_drop] at hm
      rw [List.drop_drop] at hloop hleaves
      rw [List.append_assoc, ← List.take_add] at hleaves
      exact ⟨n + m, state, s', hloop, by omega, hleaves, (hframe₁.trans hframe₂).trans hframe⟩
    have hcount : (s₁.tally (t.turn s₁.base.win)).syms.length = s₁.syms.length + 1 := by
      change (s₁.syms ++ [_]).length = _
      rw [List.length_append, List.length_singleton]
    have hbuf : (s₁.tally (t.turn s₁.base.win)).litBufsize = s₁.litBufsize := rfl
    by_cases hfull : (s₁.tally (t.turn s₁.base.win)).syms.length =
        (s₁.tally (t.turn s₁.base.win)).litBufsize - 1
    · obtain ⟨s₃, hs₃, hflushed⟩ := flushBlockOnly_spec dl hturn hp₁ false
      have h₃ : Holds t s₃ (taken ++ input.take n) := hflushed.goes
      have hfree₃ : s₃.syms.length + 1 < s₃.litBufsize := by
        have hlarge := h₃.limit.1
        rw [hflushed.syms]
        exact hlarge
      have hframe₃ : Frame s₁ s₃ := hflushed.frame
      rw [if_pos hfull, hs₃, Option.bind_eq_bind, Option.bind_some]
      by_cases hroom : s₃.base.head.availOut = 0
      · rw [if_pos hroom]
        exact ⟨n, _, s₃, rfl, hn, .needMore h₃ hfree₃ (.inr hroom),
          hframe₁.trans hframe₃⟩
      · rw [if_neg hroom]
        refine hgo s₃ h₃ (hflushed.drained hroom) hfree₃ ?_ hframe₃
        rw [hflushed.win]
        rfl
    · rw [if_neg hfull]
      exact hgo _ hturn hp₁ (by omega) rfl ⟨rfl, rfl, rfl⟩

/-- Where no symbol and no byte ahead is left, all that was taken is in the blocks. -/
theorem Tallied.all_sent {done hist : List UInt8} (h : s.Tallied taken done hist) (hsyms : s.syms = [])
    (hlook : s.base.win.lookahead = 0) : hist = taken.reverse ∧ taken = done := by
  have hall : taken = done := by
    rw [h.taken, DeflateState.ahead, hlook, readBytes_zero, List.append_nil]
  have hdenoted := h.denoted
  rw [hsyms, ← hall] at hdenoted
  exact ⟨hdenoted, hall⟩

/-- A block that stands for no bytes leaves the window and the symbols as they are. -/
theorem Holds.block (h : Holds t s taken) (hp : s.base.head.pending = 0) {done hist : List UInt8}
    (ht : s.Tallied taken done hist) {form : BlockForm} {block : BitWriter} {sent : BitStream}
    (hsends : SendsBlock id form s.base.writer block sent hist false hist) :
    ∃ base, (s.base.absorb block).flushPending = base ∧ Holds t { s with base } taken ∧
      (base.head.availOut ≠ 0 → base.head.pending = 0) ∧ Frame s { s with base } ∧
      base.win = s.base.win ∧ base.biValid = block.biValid % 8 ∧ Leads id base.sent hist false := by
  have hlen : s.base.sent.len % 8 = s.base.writer.biValid % 8 := by
    rw [StoredStream.sent, BitStream.append_len, Nat.add_mod, s.base.whole_len, Nat.zero_add,
      Nat.mod_mod]
    rfl
  have hleads := hsends.leads ht.leads hlen
  obtain ⟨hflushes, hvalid⟩ := absorb_flushes (h.settled.outset hp) hsends.held
  have hsent : (s.base.absorb block).flushPending.sent = s.base.sent.append sent := by
    rw [hflushes.sent, hsends.stream, ← BitStream.append_assoc, writer_stream]
    rfl
  obtain ⟨hsettled, -, hdrained, hwin, hfinish, hlevel, hstrategy, hstatus, hwrap⟩ := hflushes
  generalize (s.base.absorb block).flushPending = base at *
  refine ⟨base, rfl, ⟨hsettled, ?_, ?_, ?_, ?_, h.buffer, h.limit, ?_, done, hist, ?_, ?_, ?_,
    ht.inHistory, ht.denoted, ?_⟩, hdrained, ⟨hfinish, hlevel, hstrategy⟩, hwin, hvalid, ?_⟩
  · dsimp only
    rw [hstatus, hwrap]
    exact h.status
  · dsimp only
    rw [hwin]
    exact h.wrap
  · dsimp only
    rw [hwin]
    exact h.shape
  · dsimp only
    rw [hwin]
    exact h.room
  · refine h.short.imp id fun hsmall => ⟨hsmall.1, ?_⟩
    dsimp only
    rw [hwin]
    exact hsmall.2
  · dsimp only
    rw [hwin]
    exact ht.taken
  · dsimp only
    rw [hwin]
    exact ht.front
  · dsimp only
    rw [hsent]
    exact hleads
  · dsimp only
    rw [hwin]
    exact ht.length
  · rw [hsent]
    exact hleads

/-- A full flush forgets the history, when all that was taken is in the blocks. -/
theorem Holds.forget (h : Holds t s taken) (hsyms : s.syms = []) (hlook : s.base.win.lookahead = 0) :
    Holds t { s with base := { s.base with win := s.base.win.fullFlush } } taken := by
  obtain ⟨done, hist, ht⟩ := h.tallied
  obtain ⟨hempty, hall⟩ := ht.all_sent hsyms hlook
  have hforget : s.base.win.fullFlush = { s.base.win with strstart := 0, blockStart := 0 } :=
    if_pos hlook
  have hroom := h.room
  refine ⟨⟨h.settled.outset, h.settled.lt, h.settled.valid⟩, h.status, ?_, ?_, ?_,
    h.buffer, h.limit, ?_, done, hist, ?_, ?_, ht.leads, ht.inHistory, ht.denoted, ?_⟩
  · dsimp only
    rw [hforget]
    exact h.wrap
  · dsimp only
    rw [hforget]
    exact h.shape.congr rfl rfl rfl
  · dsimp only
    rw [hforget]
    dsimp only
    omega
  · refine h.short.imp id fun hsmall => ⟨hsmall.1, ?_⟩
    dsimp only
    rw [hforget]
    exact Nat.two_pow_pos 16
  · dsimp only [DeflateState.ahead]
    rw [hforget]
    dsimp only
    rw [hlook, readBytes_zero, List.append_nil]
    exact hall
  · dsimp only [DeflateState.front]
    rw [hforget]
    exact List.nil_suffix
  · dsimp only
    rw [hforget, hempty, hall, List.length_reverse]
    dsimp only
    omega

/-- An empty block completes a flush. -/
theorem blockDone_spec (flush : Flush) (h : Holds t s taken) (hsyms : s.syms = [])
    (hp : s.base.head.pending = 0) (hlook : s.base.win.lookahead = 0) :
    ∃ base, s.base.blockDone flush = some base ∧ Holds t { s with base } taken ∧
      (base.head.availOut ≠ 0 → base.head.pending = 0) ∧ Frame s { s with base } ∧
      (flush ≠ .partialFlush ∧ flush ≠ .block →
        base.biValid = 0 ∧ Leads id base.sent taken.reverse false) := by
  obtain ⟨done, hist, ht⟩ := h.tallied
  obtain ⟨rfl, -⟩ := ht.all_sent hsyms hlook
  unfold StoredStream.blockDone flushBlock
  split
  · next hpartial =>
    obtain ⟨block, sent, halign, -, hsends⟩ :=
      trAlign_sends (show ReachesBack id from fun n => Nat.min_le_left _ _) h.settled.held taken.reverse
    obtain ⟨base, hbase, hholds, hdrained, hframe, -⟩ := h.block hp ht hsends
    refine ⟨base, ?_, hholds, hdrained, hframe, fun hne => absurd hpartial hne.1⟩
    rw [emit, halign, Option.map_some, Option.map_some, hbase]
  · split
    · obtain ⟨block, sent, hblock, hsends⟩ := storedBlock_sends h.settled.held taken.reverse
      obtain ⟨base, hbase, hholds, hdrained, hframe, hwin, hvalid, hleads⟩ := h.block hp ht hsends
      rw [hsends.whole rfl] at hvalid
      by_cases hfull : flush = .fullFlush
      · have hlook' : base.win.lookahead = 0 := by
          rw [hwin]
          exact hlook
        refine ⟨{ base with win := base.win.fullFlush }, ?_, hholds.forget hsyms hlook', hdrained,
          hframe, fun _ => ⟨hvalid, hleads⟩⟩
        rw [emit, hblock, Option.map_some, Option.map_some, Option.map_some, if_pos hfull, ← hbase]
        rfl
      · refine ⟨base, ?_, hholds, hdrained, hframe, fun _ => ⟨hvalid, hleads⟩⟩
        rw [emit, hblock, Option.map_some, Option.map_some, Option.map_some, if_neg hfull, hbase]
    · next hblock =>
      obtain ⟨hflushes, -⟩ := flush_flushes h.settled
      exact ⟨_, rfl, h.base hflushes, hflushes.drained, ⟨hflushes.finish, hflushes.level, hflushes.strategy⟩,
        fun hne => absurd hne.2 hblock⟩

end TallyStream
end ZlibNg
