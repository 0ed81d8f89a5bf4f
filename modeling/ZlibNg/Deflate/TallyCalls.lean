import ZlibNg.Deflate.TallyRun

/-! Calls of `deflate` with Huffman codes only or with run lengths, on a raw stream. -/
namespace ZlibNg

/-- A raw stream has no header: it goes straight to its blocks. -/
theorem HeaderState.writeHeader_raw {h : HeaderState}
    (hs : h.status = .busy ∨ (h.status = .init ∧ h.wrap = 0)) :
    h.writeHeader = (none, { h with status := .busy }) := by
  have hbusy : (if h.status = .init ∧ h.wrap = 0 then { h with status := .busy } else h) =
      { h with status := .busy } := by
    split
    · rfl
    · next hne =>
      have hst := hs.resolve_right hne
      cases h
      cases hst
      rfl
  unfold writeHeader
  dsimp only
  rw [hbusy]
  exact if_neg fun hne => hne.1 rfl

namespace TallyStream
open StoredStream
variable {s s' : TallyStream} {t : Tallier} {cmp : Compare256} {dl : Nat → TreeKind → Nat → Nat}
  {taken input : List UInt8} {flush : Flush}

/-- A raw stream between calls. -/
structure Going (cmp : Compare256) (s : TallyStream) (taken : List UInt8) : Prop where
  level : s.base.head.level ≠ 0
  stage : ∃ t, Tallier.of cmp s.base.head.strategy = some t ∧
    ((s.base.finish = false ∧ Holds t s taken ∧ s.syms.length + 1 < s.litBufsize) ∨
      (s.base.finish = true ∧ s.Finished taken))

/-- All of a raw stream is in the output. -/
def Whole (s : TallyStream) (taken : List UInt8) : Prop :=
  ∃ bits, Leads id bits taken.reverse true ∧ BitStream.ofBytes s.base.head.out = bits.pad

/-- All that was taken is in the output, and can be read. -/
def Synced (s : TallyStream) (taken : List UInt8) : Prop :=
  Leads id (.ofBytes s.base.head.out) taken.reverse false

theorem Going.settled (h : Going cmp s taken) : s.base.Settled := by
  obtain ⟨t, -, ⟨-, h, -⟩ | ⟨-, h⟩⟩ := h.stage
  · exact h.settled
  · exact h.settled

theorem Going.status (h : Going cmp s taken) :
    s.base.head.status = .busy ∨ (s.base.head.status = .init ∧ s.base.head.wrap = 0) := by
  obtain ⟨t, -, ⟨-, h, -⟩ | ⟨-, h⟩⟩ := h.stage
  · exact h.status
  · exact h.status

/-- What does not touch the data. -/
theorem Going.base (h : Going cmp s taken) {base : StoredStream}
    (hf : s.base.Flushes base s.base.sent) (hvalid : base.biValid = s.base.biValid) :
    Going cmp { s with base } taken := by
  have hlevel := h.level
  obtain ⟨t, hs, h⟩ := h.stage
  refine ⟨hf.level.trans_ne hlevel, t, ?_, h.imp (fun h => ⟨hf.finish.trans h.1, h.2.1.base hf, h.2.2⟩) fun h =>
    ⟨hf.finish.trans h.1, h.2.base hf hvalid⟩⟩
  dsimp only
  rw [hf.strategy]
  exact hs

/-- The counters of a call have no part in the stream, nor has the note that the header is written. -/
theorem Going.touch (h : Going cmp s taken) (a : Nat) (l : Int) (k : Nat) {st : Status}
    (hst : st = .busy ∨ st = s.base.head.status) : Going cmp { s with base := { s.base with
      head := { s.base.head with availOut := a, lastFlush := l, strstart := k, status := st } } }
      taken := by
  have hstatus : st = .busy ∨ (st = .init ∧ s.base.head.wrap = 0) := by
    rcases hst with rfl | rfl
    · exact .inl rfl
    · exact h.status
  have hlevel := h.level
  obtain ⟨t, hs, ⟨hf, h, hfree⟩ | ⟨hf, h⟩⟩ := h.stage
  · obtain ⟨done, hist, ht⟩ := h.tallied
    refine ⟨hlevel, t, hs, .inl ⟨hf, ⟨⟨h.settled.outset, h.settled.lt, h.settled.valid⟩, hstatus, h.wrap, h.shape,
      h.room, h.buffer, h.limit, h.short, done, hist, ht.taken, ht.front, ht.leads, ht.inHistory,
      ht.denoted, ht.length⟩, hfree⟩⟩
  · exact ⟨hlevel, t, hs, .inr ⟨hf, ⟨⟨h.settled.outset, h.settled.lt, h.settled.valid⟩, hstatus, h.wrap,
      h.lookahead, h.valid, h.sent⟩⟩⟩

/-- How a call leaves a stream. -/
structure Called (cmp : Compare256) (flush : Flush) (taken input : List UInt8)
    (r : Ret × TallyStream × List UInt8) : Prop where
  used : ∃ n ≤ input.length, r.2.2 = input.drop n ∧ Going cmp r.2.1 (taken ++ input.take n)
  ends : r.1 = .streamEnd → r.2.2 = [] ∧ Whole r.2.1 (taken ++ input)
  synced : r.1 = .ok → flush = .syncFlush ∨ flush = .fullFlush → r.2.1.base.head.availOut ≠ 0 →
    r.2.2 = [] ∧ Synced r.2.1 (taken ++ input)

theorem Called.kept {ret : Ret} (h : Going cmp s taken) (hret : ret ≠ .streamEnd)
    (hok : ret ≠ .ok ∨ flush = .noFlush ∨ s.base.head.availOut = 0) :
    Called cmp flush taken input (ret, s, input) := by
  refine ⟨⟨0, Nat.zero_le _, rfl, by simpa using h⟩, fun he => absurd he hret, fun he hf hroom => ?_⟩
  rcases hok with hne | rfl | hfull
  · exact absurd he hne
  · rcases hf with hf | hf <;> cases hf
  · exact absurd hfull hroom

/-- A raw stream has no trailer: what is pending goes out. -/
theorem trailer_spec (hlevel : s.base.head.level ≠ 0) (hs : Tallier.of cmp s.base.head.strategy = some t) (h : s.Finished taken)
    (hf : s.base.finish = true) (hp : s.base.head.pending = 0) :
    Going cmp { s with base := (s.base.trailer .finish).2 } taken ∧
      Whole { s with base := (s.base.trailer .finish).2 } taken := by
  have hput : s.base.head.put (trailerBytes s.base.win.wrap s.base.head.adler s.base.totalIn) =
      s.base.head := by
    rw [h.wrap]
    exact put_nil _
  obtain ⟨hflushes, hvalid⟩ := flush_flushes h.settled
  have hwrap : s.base.flushPending.win.wrap = 0 := by
    rw [hflushes.win]
    exact h.wrap
  have hsame : (s.base.trailer .finish).2 = s.base.flushPending := by
    have hkeep : ({ s.base.flushPending with win := { s.base.flushPending.win with
        wrap := if 0 < s.base.flushPending.win.wrap then -s.base.flushPending.win.wrap
          else s.base.flushPending.win.wrap } } : StoredStream) = s.base.flushPending := by
      rw [if_neg (by omega)]
    rw [trailer, if_neg (by simp)]
    dsimp only
    rw [hput]
    exact hkeep
  obtain ⟨p, q, a, out, heq, hq, -, hsent, hall⟩ := flushPending_spec h.settled.valid h.settled.outset
  obtain ⟨rfl, -⟩ := hall (by rw [hp]; exact Nat.zero_le _)
  obtain ⟨bits, hleads, hbits⟩ := h.sent
  rw [hsame]
  refine ⟨⟨hflushes.level.trans_ne hlevel, t, ?_, .inr ⟨hflushes.finish.trans hf, h.base hflushes hvalid⟩⟩, bits, hleads, ?_⟩
  · dsimp only
    rw [hflushes.strategy]
    exact hs
  · have hbytes : BitStream.ofBytes s.base.flushPending.head.out = s.base.flushPending.sent := by
      rw [heq, sent, whole]
      dsimp only
      rw [h.valid, BitStream.append_ofNat_zero]
      simp [HeaderState.held]
    rw [hbytes, hsent, hbits]

/-- The end of a call that ended the stream, before or now. -/
theorem Called.trailer (hlevel : s.base.head.level ≠ 0)
    (hs : Tallier.of cmp s.base.head.strategy = some t) (h : s.Finished (taken ++ input)) (hf : s.base.finish = true) (hp : s.base.head.pending = 0) :
    Called cmp .finish taken input
      ((s.base.trailer .finish).1, { s with base := (s.base.trailer .finish).2 }, []) := by
  obtain ⟨hgoing, hwhole⟩ := trailer_spec hlevel hs h hf hp
  refine ⟨⟨input.length, le_rfl, List.drop_length.symm, ?_⟩, fun _ => ⟨rfl, hwhole⟩, fun _ hf => ?_⟩
  swap
  · rcases hf with hf | hf <;> cases hf
  rw [List.take_length]
  exact hgoing

theorem Finished.closed (h : s.Finished taken) :
    Finished { s with base := { s.base with finish := true } } taken :=
  ⟨⟨h.settled.outset, h.settled.lt, h.settled.valid⟩, h.status, h.wrap, h.lookahead, h.valid, h.sent⟩

theorem Called.more {n : Nat} (hn : n ≤ input.length) (h : Going cmp s (taken ++ input.take n))
    (hsync : flush = .syncFlush ∨ flush = .fullFlush → s.base.head.availOut ≠ 0 →
      input.drop n = [] ∧ Synced s (taken ++ input)) :
    Called cmp flush taken input (.ok, s, input.drop n) :=
  ⟨⟨n, hn, rfl, h⟩, fun he => (by cases he), fun _ => hsync⟩

/-- The bits that are written are in the output, when there is room for them. -/
theorem synced_of_sent (hvalid : s.base.biValid = 0) (hp : s.base.head.pending = 0)
    (hleads : Leads id s.base.sent taken.reverse false) : Synced s taken := by
  have hbytes : BitStream.ofBytes s.base.head.out = s.base.sent := by
    rw [sent, whole, hvalid, BitStream.append_ofNat_zero, HeaderState.held, hp]
    simp
  rw [Synced, hbytes]
  exact hleads

/-- `FINISH_STATE` is not entered where the last block is yet to come. -/
theorem close_open {state : BlockState} (hstarted : state ≠ .finishStarted)
    (hdone : state ≠ .finishDone) : s.close state = s := by
  have hkeep : (s.base.finish || decide (state = .finishStarted) || decide (state = .finishDone)) =
      s.base.finish := by simp [hstarted, hdone]
  unfold TallyStream.close
  rw [hkeep]

theorem close_last {state : BlockState} (h : state = .finishStarted ∨ state = .finishDone) :
    s.close state = { s with base := { s.base with finish := true } } := by
  have hset : (s.base.finish || decide (state = .finishStarted) || decide (state = .finishDone)) =
      true := by
    rcases h with rfl | rfl <;> simp
  unfold TallyStream.close
  rw [hset]

theorem take_of_drop_nil {n : Nat} (hnil : input.drop n = []) : input.take n = input :=
  List.take_of_length_le (List.drop_eq_nil_iff.mp hnil)

/-- The loop waits for input, or for room in the output. -/
theorem Called.waits {n : Nat} (hn : n ≤ input.length) (h : Going cmp s (taken ++ input.take n))
    (hsync : flush = .syncFlush ∨ flush = .fullFlush → s.base.head.availOut = 0) :
    Called cmp flush taken input
      (.ok, if s.base.head.availOut = 0 then s.again else s, input.drop n) := by
  split
  · next hroom => exact .more hn (h.touch _ _ _ (.inr rfl)) fun _ hne => absurd hroom hne
  · exact .more hn h fun hf hne => absurd (hsync hf) hne

/-- An empty block completes a flush, and the call ends behind it. -/
theorem Called.flushed {n : Nat} (hn : n ≤ input.length) (hlevel : s.base.head.level ≠ 0)
    (hs : Tallier.of cmp s.base.head.strategy = some t) (hopen : s.base.finish = false)
    (h : Holds t s (taken ++ input.take n)) (hsyms : s.syms = []) (hp : s.base.head.pending = 0)
    (hlook : s.base.win.lookahead = 0) (hnil : input.drop n = []) (hflush : flush ≠ .finish) :
    ∃ r, (s.afterLoop flush .blockDone (input.drop n)).map (conclude flush) = some r ∧
      Called cmp flush taken input r := by
  obtain ⟨base, hbase, hholds, hdrained, ⟨hfinish, hlevel', hstrategy⟩, hsync⟩ :=
    blockDone_spec flush h hsyms hp hlook
  have hfree : s.syms.length + 1 < s.litBufsize := by
    rw [hsyms]
    exact h.limit.1
  have hgoing : Going cmp { s with base } (taken ++ input.take n) :=
    ⟨hlevel'.trans_ne hlevel, t, (congrArg _ hstrategy).trans hs,
      .inl ⟨hfinish.trans hopen, hholds, hfree⟩⟩
  rw [afterLoop, hbase, Option.bind_eq_bind, Option.bind_some]
  dsimp only
  by_cases hroom : base.head.availOut = 0
  · rw [if_pos hroom]
    exact ⟨_, rfl, .more hn (hgoing.touch _ _ _ (.inr rfl)) fun _ hne => absurd hroom hne⟩
  · have hkept : base.trailer flush = (.ok, base) := if_pos hflush
    rw [if_neg hroom]
    refine ⟨_, rfl, ?_⟩
    rw [conclude]
    dsimp only
    rw [hkept]
    refine .more hn hgoing fun hf _ => ⟨hnil, ?_⟩
    rw [take_of_drop_nil hnil] at hsync
    obtain ⟨hvalid, hleads⟩ := hsync (by rcases hf with rfl | rfl <;> decide)
    exact synced_of_sent hvalid (hdrained hroom) hleads

/-- What follows a loop ends the call as it is to. -/
theorem Leaves.called {n : Nat} {state : BlockState} (h : Leaves t flush (taken ++ input.take n) (input.drop n) state s)
    (hn : n ≤ input.length) (hlevel : s.base.head.level ≠ 0)
    (hs : Tallier.of cmp s.base.head.strategy = some t) (hopen : s.base.finish = false) :
    ∃ r, ((s.close state).afterLoop flush state (input.drop n)).map (conclude flush) = some r ∧
      Called cmp flush taken input r := by
  cases h with
  | needMore hholds hfree hfull =>
    have hgoing : Going cmp s (taken ++ input.take n) :=
      ⟨hlevel, t, hs, .inl ⟨hopen, hholds, hfree⟩⟩
    rw [close_open (by decide) (by decide)]
    refine ⟨_, rfl, .waits hn hgoing fun hf => hfull.resolve_left ?_⟩
    rcases hf with rfl | rfl <;> decide
  | blockDone hholds hsyms hp hlook hnil hflush =>
    rw [close_open (by decide) (by decide)]
    exact Called.flushed hn hlevel hs hopen hholds hsyms hp hlook hnil hflush
  | finishStarted hend hnil hflush =>
    have hgoing : Going cmp { s with base := { s.base with finish := true } }
        (taken ++ input.take n) := ⟨hlevel, t, hs, .inr ⟨rfl, hend.closed⟩⟩
    rw [close_last (.inl rfl)]
    refine ⟨_, rfl, .waits hn hgoing fun hf => ?_⟩
    rw [hflush] at hf
    rcases hf with hf | hf <;> cases hf
  | finishDone hend hp hnil hflush =>
    rw [take_of_drop_nil hnil] at hend
    rw [close_last (.inr rfl), hnil, hflush]
    exact ⟨_, rfl, .trailer (s := { s with base := { s.base with finish := true } }) hlevel hs
      hend.closed rfl hp⟩

/-- Where there is nothing to compress, the call goes to its end. -/
theorem deflateBody_idle (hlevel : s.base.head.level ≠ 0)
    (hidle : ¬(input ≠ [] ∨ s.base.win.lookahead ≠ 0 ∨ (flush ≠ .noFlush ∧ ¬s.base.finish))) :
    s.deflateBody cmp dl flush input = some (conclude flush (none, s, input)) := by
  rw [deflateBody, compress, if_neg hlevel, if_neg hidle]
  rfl

theorem deflateBody_spec (h : Going cmp s taken) (hp : s.base.head.pending = 0)
    (hfinish : s.base.finish = true → flush = .finish ∧ input = []) :
    ∃ r, s.deflateBody cmp dl flush input = some r ∧ Called cmp flush taken input r := by
  have hlevel := h.level
  obtain ⟨t, hs, ⟨hopen, hholds, hfree⟩ | ⟨hclosed, hend⟩⟩ := h.stage
  · by_cases hdue : input ≠ [] ∨ s.base.win.lookahead ≠ 0 ∨ (flush ≠ .noFlush ∧ ¬s.base.finish)
    · obtain ⟨n, state, s₁, hloop, hn, hleaves, hfin, hlevel₁, hstrategy⟩ :=
        tallyLoop_spec dl flush (Tallier.of_sound hs) hholds hp hfree
          (Nat.lt_succ_self (s.base.win.lookahead + input.length))
      rw [deflateBody, compress, if_neg hlevel, if_pos hdue, hs, Option.bind_eq_bind, Option.bind_some,
        hloop, Option.bind_eq_bind, Option.bind_some]
      exact hleaves.called hn (hlevel₁.trans_ne hlevel) ((congrArg _ hstrategy).trans hs)
        (hfin.trans hopen)
    · rw [deflateBody_idle hlevel hdue]
      rw [not_or, not_or, not_and_or, not_not, not_not, hopen] at hdue
      have hflush : flush = .noFlush := not_not.mp (hdue.2.2.resolve_right (by simp))
      have hkept : s.base.trailer flush = (.ok, s.base) := if_pos (by rw [hflush]; decide)
      refine ⟨_, rfl, ?_⟩
      rw [conclude]
      dsimp only
      rw [hkept]
      exact .kept h (show Ret.ok ≠ .streamEnd by decide) (.inr (.inl hflush))
  · obtain ⟨rfl, rfl⟩ := hfinish hclosed
    rw [deflateBody_idle hlevel (by simp [hend.lookahead, hclosed])]
    refine ⟨_, rfl, .trailer hlevel hs ?_ hclosed hp⟩
    rw [List.append_nil]
    exact hend

/-- Every call takes the front of its input and goes on. -/
theorem deflate_spec (dl : Nat → TreeKind → Nat → Nat) (h : Going cmp s taken) (flush : Flush) (availOut : Nat) (input : List UInt8) :
    ∃ r, s.deflate cmp dl flush availOut input = some r ∧ Called cmp flush taken input r := by
  unfold deflate
  split
  · exact ⟨_, rfl, .kept h (by decide) (.inl (by decide))⟩
  next hflush =>
  split
  · exact ⟨_, rfl, .kept h (by decide) (.inl (by decide))⟩
  have htouch := h.touch availOut (HeaderState.flushCode flush) s.base.head.strstart (.inr rfl)
  generalize hb : ({ s.base with head := { s.base.head with
    availOut := availOut, lastFlush := HeaderState.flushCode flush } } : StoredStream) = b
  have htouch' : Going cmp { s with base := b } taken := by
    rw [← hb]
    exact htouch
  have hfin : b.finish = s.base.finish := by rw [← hb]
  have hpending : b.head.pending = s.base.head.pending := by rw [← hb]
  -- what is pending goes out first
  have hdrain : ∃ b₁, (if s.base.head.pending ≠ 0 then b.flushPending else b) = b₁ ∧
      Going cmp { s with base := b₁ } taken ∧ b₁.finish = s.base.finish ∧
      (¬(s.base.head.pending ≠ 0 ∧ b₁.head.availOut = 0) → b₁.head.pending = 0) := by
    refine ⟨_, rfl, ?_⟩
    split
    · next hp =>
      obtain ⟨hflushes, hvalid⟩ := flush_flushes htouch'.settled
      exact ⟨htouch'.base hflushes hvalid, hflushes.finish.trans hfin, fun hne =>
        hflushes.drained fun h0 => hne ⟨hp, h0⟩⟩
    · next hp => exact ⟨htouch', hfin, fun _ => hpending.trans (not_not.mp hp)⟩
  obtain ⟨b₁, heq, hgoing, hfin₁, hempty⟩ := hdrain
  dsimp only
  rw [heq]
  split
  · next hfull =>
    exact ⟨_, rfl, .kept (hgoing.touch _ _ _ (.inr rfl)) (by decide) (.inr (.inr hfull.2))⟩
  next hdrained =>
  split
  · exact ⟨_, rfl, .kept hgoing (by decide) (.inl (by decide))⟩
  split
  · exact ⟨_, rfl, .kept hgoing (by decide) (.inl (by decide))⟩
  next hinput =>
  have hp := hempty hdrained
  have hlast : b₁.finish = true → flush = .finish ∧ input = [] := by
    intro hf
    refine ⟨?_, by_contra fun hne => hinput ⟨hf, hne⟩⟩
    by_contra hne
    exact hflush (.inr ⟨hfin₁.symm.trans hf, hne⟩)
  by_cases hf : b₁.finish = true
  · rw [if_pos hf]
    exact deflateBody_spec hgoing hp hlast
  · rw [if_neg hf]
    have hraw := HeaderState.writeHeader_raw (h := { b₁.head with strstart := b₁.win.strstart })
      hgoing.status
    rw [hraw]
    exact deflateBody_spec (hgoing.touch b₁.head.availOut b₁.head.lastFlush b₁.win.strstart (.inl rfl)) hp
      hlast

/-- A raw stream at its start. -/
theorem start_going (buf window : Nat → UInt8) {windowBits memLevel level strategy : Nat}
    (h8 : 8 ≤ windowBits) (h15 : windowBits ≤ 15) (h9 : memLevel ≤ 9) (hlevel : level ≠ 0)
    (hs : strategy = zHuffmanOnly ∨ strategy = zRle) :
    Going cmp (start buf window 0 windowBits memLevel level strategy) [] := by
  have htracks := @DeflateState.tracks_init 0 level windowBits (2 ^ (memLevel + 6) * 4) window h8 h15
  obtain ⟨t, ht⟩ : ∃ t, Tallier.of cmp strategy = some t := by
    rcases hs with rfl | rfl
    · exact ⟨_, rfl⟩
    · exact ⟨_, rfl⟩
  have hlarge : 2 ^ 6 ≤ 2 ^ (memLevel + 6) := Nat.pow_le_pow_right (by decide) (by omega)
  have hlimit : 2 ^ (memLevel + 6) ≤ 2 ^ 15 := Nat.pow_le_pow_right (by decide) (by omega)
  have hfree : 1 < 2 ^ (memLevel + 6) := lt_of_lt_of_le (by decide) hlarge
  have hshort : t.Short (start buf window 0 windowBits memLevel level strategy) := by
    rcases (Tallier.of_sound ht).short with hlits | hneed
    · exact .inl ⟨hlits, fun x hx => absurd hx List.not_mem_nil⟩
    · exact .inr ⟨hneed, Nat.two_pow_pos 16⟩
  refine ⟨hlevel, t, ht, .inl ⟨rfl, ⟨⟨fun _ => rfl, show 0 < 2 ^ 0 by decide, show 0 < 8 by decide⟩,
    .inr ⟨rfl, rfl⟩, abs_zero, htracks.shape, ?_, hfree.le, ⟨hfree, hlimit⟩, hshort, [], [], rfl,
    List.suffix_rfl, ?_, trivial, rfl, rfl⟩, hfree⟩⟩
  · exact Nat.zero_le _
  · have hnil : (start buf window 0 windowBits memLevel level strategy).base.sent = .ofBytes [] := by
      change ((BitStream.ofBytes []).append (BitStream.ofNat 0 0)) = _
      rw [BitStream.append_ofNat_zero]
    rw [hnil]
    exact .nil

theorem run_spec (dl : Nat → TreeKind → Nat → Nat) (h : Going cmp s taken) (calls : List StoredStream.Call) :
    ∃ s' taken', s.run cmp dl taken calls = some (s', taken') ∧ Going cmp s' taken' := by
  induction calls generalizing s taken with
  | nil => exact ⟨s, taken, rfl, h⟩
  | cons c calls ih =>
    obtain ⟨r, hr, hcalled⟩ := deflate_spec dl h c.flush c.availOut c.input
    obtain ⟨n, hn, hrest, hgoing⟩ := hcalled.used
    have hused : c.input.length - r.2.2.length = n := by
      rw [hrest, List.length_drop]
      omega
    obtain ⟨s', taken', hrun, hgoing'⟩ := ih hgoing
    refine ⟨s', taken', ?_, hgoing'⟩
    rw [run, hr, Option.bind_eq_bind, Option.bind_some]
    dsimp only
    rw [hused]
    exact hrun

end TallyStream

namespace Session
variable {s₀ : Session} {st : InflateState} {bytes data : List UInt8} {e : Decoder}

/-- Bytes given to `inflate` in any calls: there is no error, the output is always the beginning of
the data, and a call that is given all the bytes that are left and does not use up its space writes all
of them; at the end of the stream it says so. -/
def Yields (windowBits : Int) (bytes data : List UInt8) (done : Bool) : Prop :=
  ∀ st s₀ z, Session.start st windowBits = some s₀ → Fed bytes s₀ z →
    z.strm.st.mode ≠ .bad ∧ z.out.reverse <+: data ∧
      ∀ mem nextIn availIn availOut flush ret z', bytesAt mem nextIn availIn = bytes.drop z.taken.toNat →
        flush ≠ .block ∧ flush ≠ .trees →
        z.call (.inflate mem nextIn availIn availOut flush) = some (ret, z') →
        z'.strm.availOut ≠ 0 → z'.out.reverse = data ∧ (done = true → ret = .streamEnd)

/-- The machine of a raw stream goes straight to the first block. -/
theorem start_raw (h0 : Session.start st (-15) = some s₀) (bytes : List UInt8) :
    s₀.strm.st.wbits = 15 ∧ ∃ b : InflateState,
      (s₀.machine bytes).next id = some ⟨b, .ofBytes bytes, []⟩ ∧ b.AtBlock false ∧ b.wrap = 0 := by
  have hfresh : Session.start st (-15) =
      some ⟨⟨0, 0, 0, 0, 0, 0, { st with wrap := 0, wbits := 15 }.reset, 0, 0, Nat.one_pos⟩, 0, [], []⟩ :=
    rfl
  rw [hfresh] at h0
  obtain rfl := Option.some.inj h0
  exact ⟨rfl, _, rfl, ⟨.inl rfl, rfl⟩, rfl⟩

/-- Bytes that lead the machine to the end of the stream. -/
theorem yields_done {windowBits : Int} (h : ∀ st s₀, Session.start st windowBits = some s₀ →
    s₀.strm.st.wbits = 15 ∧ ∃ s', Decoder.Steps id (s₀.machine bytes) ⟨s', .ofBytes [], data.reverse⟩ ∧
      s'.mode = .done) : Yields windowBits bytes data true := by
  intro st s₀ z h0 hfed
  obtain ⟨hwbits, s', hsteps, hdone⟩ := h st s₀ h0
  obtain ⟨hbad, hsuffix, hends⟩ := hfed.inflates h0 hwbits hsteps hdone
  refine ⟨hbad, List.reverse_suffix.mp (by rwa [List.reverse_reverse]), ?_⟩
  intro mem nextIn availIn availOut flush ret z' hin hplain hcall hleft
  obtain ⟨hret, hout⟩ := hends mem nextIn availIn availOut flush ret z' hin hplain hcall hleft
  refine ⟨?_, fun _ => hret⟩
  rw [hout, List.reverse_reverse]

theorem yields_end (hbytes : ∃ bits, Leads id bits data.reverse true ∧ BitStream.ofBytes bytes = bits.pad) :
    Yields (-15) bytes data true := by
  obtain ⟨bits, hleads, hbits⟩ := hbytes
  apply yields_done
  intro st s₀ h0
  obtain ⟨hwbits, b, hfirst, hb, hwrap⟩ := start_raw h0 bytes
  rw [hbits] at hfirst
  obtain ⟨s', hsteps, hdone⟩ := hleads.ends hb hwrap
  exact ⟨hwbits, s', .head hfirst hsteps, hdone⟩

theorem yields_part (hleads : Leads id (.ofBytes bytes) data.reverse false) :
    Yields (-15) bytes data false := by
  intro st s₀ z h0 hfed
  obtain ⟨hwbits, b, hfirst, hb, -⟩ := start_raw h0 bytes
  obtain ⟨s', hsteps, hs'⟩ := hleads b (.ofBytes []) hb (by
    rw [BitStream.ofBytes_len, BitStream.ofBytes_len]
    exact Nat.mul_add_mod 8 _ _)
  rw [BitStream.append_nil] at hsteps
  -- between blocks the machine waits for the bits of the next
  have hcase : s'.bitCase = some s'.caseTypedo := by
    unfold InflateState.bitCase
    rcases hs'.mode with hm | hm <;> rw [hm]
  have hmode : s'.mode ≠ .length ∧ s'.mode ≠ .bad := by
    rcases hs'.mode with hm | hm <;> rw [hm] <;> decide
  have hwait : Decoder.next id ⟨s', .ofBytes [], data.reverse⟩ = none := by
    have hlast : ¬s'.last = true := by
      rw [hs'.last]
      decide
    rw [Decoder.next_prog hcase hmode.1, Decoder.runCase, InflateState.caseTypedo, if_neg hlast]
    rfl
  obtain ⟨hbad, hsuffix, hcomes⟩ := hfed.comes_to h0 hwbits (.head hfirst hsteps) hwait hmode.2
  refine ⟨hbad, List.reverse_suffix.mp (by rwa [List.reverse_reverse]), ?_⟩
  intro mem nextIn availIn availOut flush ret z' hin hplain hcall hleft
  obtain ⟨hout, -⟩ := hcomes mem nextIn availIn availOut flush ret z' hin hplain hcall hleft
  refine ⟨?_, fun h => (by cases h)⟩
  rw [hout, List.reverse_reverse]

end Session

namespace TallyStream
section RoundTrip
variable (buf window : Nat → UInt8) {windowBits memLevel strategy : Nat} (h9 : 9 ≤ windowBits)
  (h15 : windowBits ≤ 15) (hmem : memLevel ≤ 9) (hs : strategy = zHuffmanOnly ∨ strategy = zRle)
  {level : Nat} (hlevel : level ≠ 0) (cmp : Compare256) (dl : Nat → TreeKind → Nat → Nat)
  (calls : List StoredStream.Call) (last : StoredStream.Call)
include h9 h15 hmem hs hlevel

/-- When `deflate` ends a raw stream, `inflate` reads its output back to the input of all the calls,
however the calls of both are cut. -/
theorem deflate_inflates :
    ∃ s taken ret s' rest,
      (start buf window 0 windowBits memLevel level strategy).run cmp dl [] calls = some (s, taken) ∧
      s.deflate cmp dl last.flush last.availOut last.input = some (ret, s', rest) ∧
      rest <:+ last.input ∧
      (ret = .streamEnd → rest = [] ∧ Session.Yields (-15) s'.base.head.out (taken ++ last.input) true) := by
  obtain ⟨s, taken, hrun, hgoing⟩ :=
    run_spec dl (@start_going cmp buf window windowBits memLevel level strategy (by omega) h15 hmem
      hlevel hs)
      calls
  obtain ⟨⟨ret, s', rest⟩, hr, hcalled⟩ :=
    deflate_spec dl hgoing last.flush last.availOut last.input
  obtain ⟨n, -, hrest, -⟩ := hcalled.used
  refine ⟨s, taken, ret, s', rest, hrun, hr, ?_, fun hret => ?_⟩
  · rw [show rest = last.input.drop n from hrest]
    exact List.drop_suffix n last.input
  obtain ⟨hnil, hwhole⟩ := hcalled.ends hret
  exact ⟨hnil, Session.yields_end hwhole⟩

/-- When a call with `Z_SYNC_FLUSH` or `Z_FULL_FLUSH` has room left, it has taken all its input, and
`inflate` gets all the input so far out of the output so far. -/
theorem deflate_flushes :
    ∃ s taken ret s' rest,
      (start buf window 0 windowBits memLevel level strategy).run cmp dl [] calls = some (s, taken) ∧
      s.deflate cmp dl last.flush last.availOut last.input = some (ret, s', rest) ∧
      rest <:+ last.input ∧
      (ret = .ok → last.flush = .syncFlush ∨ last.flush = .fullFlush → s'.base.head.availOut ≠ 0 →
        rest = [] ∧ Session.Yields (-15) s'.base.head.out (taken ++ last.input) false) := by
  obtain ⟨s, taken, hrun, hgoing⟩ :=
    run_spec dl (@start_going cmp buf window windowBits memLevel level strategy (by omega) h15 hmem
      hlevel hs)
      calls
  obtain ⟨⟨ret, s', rest⟩, hr, hcalled⟩ :=
    deflate_spec dl hgoing last.flush last.availOut last.input
  obtain ⟨n, -, hrest, -⟩ := hcalled.used
  refine ⟨s, taken, ret, s', rest, hrun, hr, ?_, fun hret hflush hroom => ?_⟩
  · rw [show rest = last.input.drop n from hrest]
    exact List.drop_suffix n last.input
  obtain ⟨hnil, hsynced⟩ := hcalled.synced hret hflush hroom
  exact ⟨hnil, Session.yields_part hsynced⟩

end RoundTrip

/-- A run of sevens up to a flush, and two more bytes up to the end. -/
theorem deflate_inflates_runs : ∃ s s', (start (fun _ => 0) (fun _ => 0) 0 15 1 6 zRle).run
      .words (fun _ _ _ => 0) [] [⟨.syncFlush, List.replicate 12 7, 100⟩] =
        some (s, List.replicate 12 7) ∧
    s.deflate .words (fun _ _ _ => 0) .finish 100 [7, 8] = some (.streamEnd, s', []) ∧
    s'.base.head.out = [98, 71, 2, 0, 0, 0, 0, 255, 255, 99, 231, 0, 0] ∧
    Session.Yields (-15) [98, 71, 2, 0, 0, 0, 0, 255, 255, 99, 231, 0, 0]
      (List.replicate 13 7 ++ [8]) true := by
  have hrun : ((start (fun _ => 0) (fun _ => 0) 0 15 1 6 zRle).run .words (fun _ _ _ => 0) []
      [⟨.syncFlush, List.replicate 12 7, 100⟩]).bind (fun r =>
        (r.1.deflate .words (fun _ _ _ => 0) .finish 100 [7, 8]).map fun x =>
          (r.2, x.1, x.2.1.base.head.out)) =
        some (List.replicate 12 7, .streamEnd, [98, 71, 2, 0, 0, 0, 0, 255, 255, 99, 231, 0, 0]) := by
    decide +kernel
  obtain ⟨s, taken, ret, s', rest, h₁, h₂, -, hend⟩ :=
    deflate_inflates (fun _ => 0) (fun _ => 0) (show 9 ≤ 15 by decide) le_rfl (show 1 ≤ 9 by decide)
      (show _ ∨ zRle = zRle from .inr rfl) (show 6 ≠ 0 by decide) .words (fun _ _ _ => 0)
      [⟨.syncFlush, List.replicate 12 7, 100⟩] ⟨.finish, [7, 8], 100⟩
  dsimp only at h₂ hend
  rw [h₁, Option.bind_some, h₂, Option.map_some] at hrun
  obtain ⟨rfl, hlast⟩ := Prod.mk.inj (Option.some.inj hrun)
  obtain ⟨rfl, hout⟩ := Prod.mk.inj hlast
  obtain ⟨rfl, hyields⟩ := hend rfl
  rw [hout] at hyields
  exact ⟨s, s', h₁, h₂, hout, hyields⟩

/-- Literals of two calls, in the output with a full flush. -/
theorem deflate_flushes_literals : ∃ s s', (start (fun _ => 0) (fun _ => 0) 0 15 1 6 zHuffmanOnly).run
      .bytes (fun _ _ _ => 0) [] [⟨.noFlush, [97, 98, 97], 100⟩] = some (s, [97, 98, 97]) ∧
    s.deflate .bytes (fun _ _ _ => 0) .fullFlush 100 [98, 97] = some (.ok, s', []) ∧
    s'.base.head.out = [74, 76, 74, 76, 74, 4, 0, 0, 0, 255, 255] ∧
    Session.Yields (-15) [74, 76, 74, 76, 74, 4, 0, 0, 0, 255, 255] [97, 98, 97, 98, 97] false := by
  have hrun : ((start (fun _ => 0) (fun _ => 0) 0 15 1 6 zHuffmanOnly).run .bytes (fun _ _ _ => 0) []
      [⟨.noFlush, [97, 98, 97], 100⟩]).bind (fun r =>
        (r.1.deflate .bytes (fun _ _ _ => 0) .fullFlush 100 [98, 97]).map fun x =>
          (r.2, x.1, x.2.1.base.head.out, x.2.1.base.head.availOut)) =
        some ([97, 98, 97], .ok, [74, 76, 74, 76, 74, 4, 0, 0, 0, 255, 255], 89) := by decide +kernel
  obtain ⟨s, taken, ret, s', rest, h₁, h₂, -, hsync⟩ :=
    deflate_flushes (fun _ => 0) (fun _ => 0) (show 9 ≤ 15 by decide) le_rfl (show 1 ≤ 9 by decide)
      (show zHuffmanOnly = zHuffmanOnly ∨ _ from .inl rfl) (show 6 ≠ 0 by decide) .bytes
      (fun _ _ _ => 0) [⟨.noFlush, [97, 98, 97], 100⟩] ⟨.fullFlush, [98, 97], 100⟩
  dsimp only at h₂ hsync
  rw [h₁, Option.bind_some, h₂, Option.map_some] at hrun
  obtain ⟨rfl, hlast⟩ := Prod.mk.inj (Option.some.inj hrun)
  obtain ⟨rfl, hlast⟩ := Prod.mk.inj hlast
  obtain ⟨hout, hroom⟩ := Prod.mk.inj hlast
  obtain ⟨rfl, hyields⟩ := hsync rfl (.inr rfl) (by rw [hroom]; decide)
  rw [hout] at hyields
  exact ⟨s, s', h₁, h₂, hout, hyields⟩

end TallyStream
end ZlibNg
