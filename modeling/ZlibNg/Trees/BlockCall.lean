import ZlibNg.Inflate.Simulation
import ZlibNg.Trees.BlockRead

/-! A call of `inflate` with `Z_BLOCK` reads a block back. -/
namespace ZlibNg

namespace Session
variable {s : Session} {mem : Int → UInt8} {nextIn : Int} {availIn availOut : Nat}

/-- A call with `Z_BLOCK` reads what the machine reads back, given the space. -/
theorem Inv.reads_block (h : s.Inv) (hm : s.strm.st.mode = .type) (hl : s.strm.st.last = false)
    {block rest : BitStream} {last : Bool} {hist' : List UInt8}
    (hread : ReadsBack (Regs.callReach s.hist s.strm.st.whave) block s.hist last rest hist')
    (hblock : (s.load mem nextIn availIn availOut).acc.stream = block)
    (hroom : hist'.length ≤ s.hist.length + availOut) :
    ∃ ret strm bytes,
      (s.feed nextIn availIn availOut).inflate mem .block = some (ret, strm, bytes) ∧
      bytes.reverse ++ s.hist = hist' ∧ (strm.load mem).acc.stream = rest ∧
      strm.st.mode = .type ∧ strm.st.last = last := by
  obtain ⟨x, hx, hret⟩ := h.returned mem nextIn availIn availOut .block
  obtain ⟨hgood, hlazy, hwin⟩ := h.load mem nextIn availIn availOut
  have hst : (s.load mem nextIn availIn availOut).st = { s.strm.st with mode := .typedo } := by
    unfold Session.load InflateStream.load feed
    dsimp only
    rw [if_pos hm]
  have hmode : (s.load mem nextIn availIn availOut).st.mode = .typedo := by rw [hst]
  have hlast : (s.load mem nextIn availIn availOut).st.last = false := by rw [hst]; exact hl
  have hhave : (s.load mem nextIn availIn availOut).st.whave = s.strm.st.whave := by rw [hst]
  have hin : (s.load mem nextIn availIn availOut).InBlock s.out s.hist s.strm.totalOut :=
    ⟨hgood, hlazy, hwin.ok (by rw [hmode]; decide), .inl (by rw [hmode]; rfl), fun _ => hlast⟩
  have hv : (s.load mem nextIn availIn availOut).Shows s.hist availOut []
      ⟨(s.load mem nextIn availIn availOut).st, block, s.hist⟩ :=
    ⟨rfl, rfl, hblock.symm.trans (BitStream.append_nil _).symm, rfl, rfl⟩
  obtain ⟨s', he, hem, hel⟩ := hread _ hmode hlast
  rw [← hhave] at he
  cases hret with
  | needDict hp hdict hs hgood' hf =>
    obtain ⟨hin', -⟩ := hin.passes hp hv
    have hphase := hin'.mode
    rw [hdict] at hphase
    rcases hphase with hphase | hphase <;> cases hphase
  | sync hsync =>
    rw [hm] at hsync
    cases hsync
  | @leave r r' code hp hs hgood' hf hends =>
    obtain ⟨hin', hhave', d, hsteps, hv'⟩ := hin.passes hp hv
    obtain ⟨d', hsteps', hv'', hend⟩ := hin'.leave hv' hs
    rw [hhave'] at hsteps' hend
    have hd : d' = ⟨s', rest, hist'⟩ := by
      refine Decoder.Within.reached (hsteps.trans hsteps') he hem fun x hne hx hrest => ?_
      rcases hend with htype | hnone | hfull
      · exact hne htype
      · rw [hnone] at hx
        cases hx
      · rcases hfull.next hv'' hx with hbad | hlt
        · have hxe := Decoder.Within.reached .refl hrest hem fun y _ hy => by
            rw [Decoder.next_bad hbad] at hy
            cases hy
          rw [hxe, hem] at hbad
          cases hbad
        · -- the space would not do
          have hle := hrest.hist
          have hmark := hgood'.early (by
            rcases hfull.mode with ⟨h, -⟩ | h | h <;> rw [h] <;> decide)
          have hsize := hv''.mark
          have hleft := hfull.left
          rw [hv''.out, List.length_append] at hlt
          dsimp only at hle
          omega
    subst hd
    have hwin' := (hwin.follows hf).bounds
    obtain ⟨n, heq⟩ := InflateStream.infLeave_eq (s.feed nextIn availIn availOut) .block code r' hwin'.2
    obtain ⟨wsize, whave, wnext, window, adler, check, hst', -⟩ :=
      Regs.leaveState_eq .block code hwin'.2
    have hmode' := hv''.mode
    have hlast' : s'.last = r'.st.last := (congrArg InflateState.last hv''.live).symm
    refine ⟨_, _, _, hx, ?_, ?_, ?_, ?_⟩
    · rw [List.reverse_reverse]
      exact hv''.out.symm
    · have hmem : r'.acc.mem = mem := hf.mem
      rw [heq, show rest = r'.acc.stream from hv''.stream.trans (BitStream.append_nil _)]
      simp only [BitReader.stream, hmem]
      rfl
    · rw [heq, hst']
      exact hmode'.symm.trans hem
    · rw [heq, hst']
      exact hlast'.symm.trans hel

end Session

/-- A window of 32K bytes holds what a distance can refer to. -/
theorem WindowOk.reachesBack {s : InflateState} {hist : List UInt8} (hw : WindowOk s hist)
    (hwbits : s.wbits = 15) : ReachesBack (Regs.callReach hist s.whave) := by
  intro n
  have hall := hw.all
  have hsize := hw.size
  rw [hwbits] at hsize
  unfold Regs.callReach
  omega

/-- Whichever form is taken for it, a block is read back: given its bits, and space for the bytes of
its symbols, a call of `inflate` with `Z_BLOCK` writes just these bytes, stops at the first bit
behind the block, and knows whether it was the last one. After a stored block, the input has to go on
with whole bytes. -/
theorem trFlushSyms_inflates {may : Session → Call → Prop} {s : Session}
    (hr : Session.Run may s) (hm : s.strm.st.mode = .type) (hl : s.strm.st.last = false)
    (hwbits : s.strm.st.wbits = 15) {syms : List BufferedSym} (hin : InHistory syms s.hist)
    {a : FlushArgs} (ha : a.Describes syms s.hist) {w : BitWriter} (hw : w.Held) {litBufsize : Nat}
    (hsize : litBufsize ≤ 2 ^ 15) (hroom : syms.length ≤ litBufsize) (dl : TreeKind → Nat → Nat) :
    ∃ f sent, trFlushSyms a syms dl w = some f ∧ f.block.stream = w.stream.append sent ∧
      ∀ mem nextIn availIn availOut rest,
        (s.load mem nextIn availIn availOut).acc.stream = sent.append rest →
        (f.form = .stored → rest.len % 8 = 0) →
        (denoted syms s.hist).length ≤ s.hist.length + availOut →
        ∃ ret strm bytes,
          (s.feed nextIn availIn availOut).inflate mem .block = some (ret, strm, bytes) ∧
          bytes.reverse ++ s.hist = denoted syms s.hist ∧ (strm.load mem).acc.stream = rest ∧
          strm.st.mode = .type ∧ strm.st.last = a.last := by
  have hinv := hr.inv
  have hwin := hinv.windowed.ok (by rw [hm]; decide)
  obtain ⟨f, sent, hf, hsent, hread⟩ := trFlushSyms_decodes (hwin.reachesBack hwbits) hin ha hw hsize
    hroom dl
  exact ⟨f, sent, hf, hsent, fun mem nextIn availIn availOut rest hstream hrest hspace =>
    hinv.reads_block hm hl (hread rest hrest) hstream hspace⟩

/-- Four literals and a match, behind a stored block of one byte. -/
theorem trFlushSyms_inflates_five : ∃ s f sent, Session.Run (fun _ _ => True) s ∧
    s.hist = [0x61] ∧
    trFlushSyms ⟨some [97, 98, 97, 98, 97, 98, 99, 100], 8, true, 1, false⟩ litsAndMatch
      (fun _ _ => 0) ⟨[], 3, 3, 0⟩ = some f ∧
    f.block.stream = BitStream.append (BitWriter.stream ⟨[], 3, 3, 0⟩) sent ∧
    ∀ mem nextIn availIn rest, (s.load mem nextIn availIn 8).acc.stream = sent.append rest →
      (f.form = .stored → rest.len % 8 = 0) →
      ∃ ret strm bytes, (s.feed nextIn availIn 8).inflate mem .block = some (ret, strm, bytes) ∧
        bytes.reverse ++ [0x61] = [100, 99, 98, 97, 98, 97, 98, 97, 0x61] ∧
        (strm.load mem).acc.stream = rest ∧ strm.st.mode = .type ∧ strm.st.last = true := by
  have hrun : ((Session.fresh (-15) rfl).call
      (.inflate (Session.memOf [0x00, 0x01, 0x00, 0xfe, 0xff, 0x61]) 0 6 9 .noFlush)).map
        (fun x => (x.2.strm.st.mode, x.2.strm.st.last, x.2.strm.st.wbits, x.2.hist)) =
          some (.type, false, 15, [0x61]) := by decide
  obtain ⟨⟨ret, s⟩, hc, hs⟩ := Option.map_eq_some_iff.mp hrun
  simp only [Prod.mk.injEq] at hs
  obtain ⟨hm, hl, hwbits, hhist⟩ := hs
  have hreached : Session.Run (fun _ _ => True) s := .call (Session.fresh_run rfl) trivial hc
  have hin : InHistory litsAndMatch s.hist := by
    rw [hhist]
    simp only [litsAndMatch, InHistory]
    decide
  have ha : FlushArgs.Describes ⟨some [97, 98, 97, 98, 97, 98, 99, 100], 8, true, 1, false⟩
      litsAndMatch s.hist := by
    rw [hhist]
    exact ⟨fun buf h => by cases h; decide, fun buf h => by cases h; rfl⟩
  obtain ⟨f, sent, hf, hsent, hread⟩ := trFlushSyms_inflates hreached hm hl hwbits hin ha
    (w := ⟨[], 3, 3, 0⟩) ⟨by decide, by decide⟩ (Nat.le_refl _)
    (show litsAndMatch.length ≤ 2 ^ 15 by decide) fun _ _ => 0
  refine ⟨s, f, sent, hreached, hhist, hf, hsent, fun mem nextIn availIn rest hstream hrest => ?_⟩
  rw [hhist] at hread
  exact hread mem nextIn availIn 8 rest hstream hrest (by decide)

end ZlibNg
