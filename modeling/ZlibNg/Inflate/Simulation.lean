import ZlibNg.Inflate.Calls
import ZlibNg.Inflate.Machine

/-! In the blocks, a pass of the loop of `inflate` is steps of the abstract machine. -/
namespace ZlibNg
open BitProg

theorem Mode.inSymbol_phase {m : Mode} (h : m.inSymbol = true) :
    m.phase = 1 ∧ m ≠ .type ∧ m ≠ .typedo := by
  revert h
  cases m <;> decide

namespace Regs
variable {hist past rest : List UInt8} {start size : Nat} {reach : Nat → Nat} {r r' : Regs} {d x : Decoder}
  {flush : Flush}

/-- The machine stands where the loop of `inflate` does, in a call with space for `size` bytes; the
machine sees the bytes `rest` behind the input of the call. -/
structure Shows (hist : List UInt8) (size : Nat) (rest : List UInt8) (r : Regs) (d : Decoder) :
    Prop where
  live : r.st.live = d.st.live
  mode : d.st.mode = r.st.mode
  stream : d.stream = r.acc.stream.append (.ofBytes rest)
  out : d.hist = r.out ++ hist
  mark : r.mark = size

/-- The loop waits for space, in a mode that has something to write. -/
structure Full (r : Regs) : Prop where
  left : r.left = 0
  mode : r.st.mode = .copy ∧ r.st.length ≠ 0 ∨ r.st.mode = .match_ ∨ r.st.mode = .lit

/-- The machine can follow to where a pass of the loop in a block ends, and goes no further when the
loop waits for input and there is none. -/
def Goes (hist : List UInt8) (size : Nat) (rest : List UInt8) (reach : Nat → Nat) (d : Decoder) :
    Ctl → Prop
  | .loop r' => (r'.st.mode ≠ .typedo ∧ r'.st.mode ≠ .check) ∧
      ∃ d', d.Within reach d' ∧ r'.Shows hist size rest d'
  | .leave _ r' => ∃ d', d.Within reach d' ∧ r'.Shows hist size rest d' ∧
      ((rest = [] → d'.next reach = none) ∨ r'.Full)
  | .ret _ _ => False

theorem Goes.after {d' : Decoder} {ctl : Ctl} (h : d.Within reach d') (hg : Goes hist size rest reach d' ctl) :
    Goes hist size rest reach d ctl := by
  cases ctl with
  | loop r' =>
    obtain ⟨hstay, d'', hsteps, hv⟩ := hg
    exact ⟨hstay, d'', h.trans hsteps, hv⟩
  | leave code r' =>
    obtain ⟨d'', hsteps, hv, hend⟩ := hg
    exact ⟨d'', h.trans hsteps, hv, hend⟩
  | ret code r' => exact hg

theorem runCase_goes {p q : CaseProg} {L : Nat → Prop} (hwp : p.wp true r.acc.bits 0 L Fine)
    (hagree : Agree r.st.Alike p q) (hv : r.Shows hist size rest d) (hflush : flush ≠ .trees)
    (hm : d.st.mode ≠ .type) (hnext : d.next reach = d.runCase q)
    (hstay : ∀ s' v', p.runStream 0 r.acc.stream = some (s', v') →
      s'.mode ≠ .typedo ∧ s'.mode ≠ .check)
    (hstay' : ∀ s' v', q.runStream 0 d.stream = some (s', v') → s'.mode ≠ .typedo) :
    Goes hist size rest reach d (r.runCase flush p) := by
  have hspec := run_spec p hwp
  unfold Regs.runCase
  generalize p.run r.acc = res at hspec ⊢
  cases res with
  | leave acc =>
    obtain ⟨-, hleft⟩ := hspec
    refine ⟨d, .refl, ⟨hv.live, hv.mode, ?_, hv.out, hv.mark⟩, .inl fun hrest => ?_⟩
    · rw [hv.stream, hleft.stream]
    · have hstuck := hleft.stuck
      rw [hnext, Decoder.runCase, hv.stream, hrest, BitStream.append_nil, InflateState.Agree.none hagree hstuck]
      rfl
  | done st acc =>
    have hs := hspec.stream rest
    rcases agree_runStream hagree 0 d.stream with ⟨hnone, -⟩ | ⟨a, b, v', ha, hb, hR⟩
    · rw [← hv.stream, hnone] at hs
      cases hs
    · have hexact := hspec.stream []
      rw [BitStream.append_nil, BitStream.append_nil] at hexact
      rw [← hv.stream, ha] at hs
      obtain ⟨rfl, rfl⟩ : a = st ∧ v' = acc.stream.append (.ofBytes rest) := by simpa using hs
      have hstay := hstay _ _ hexact
      have hstay' := hstay' _ _ hb
      have hmode : b.mode = a.mode := by
        by_cases htype : a.mode = .type
        · have htype' := InflateState.type_of_live hR.1 (.inl htype)
          rw [htype]
          exact htype'.resolve_right hstay'
        · exact InflateState.mode_of_live hR.1 rfl ⟨htype, hstay.1⟩
      dsimp only
      rw [if_neg (by simp [hflush])]
      refine ⟨hstay, ⟨b, _, d.hist⟩, .single ⟨hm, ?_⟩, hR.1, hmode, rfl, hv.out, hv.mark⟩
      rw [hnext, Decoder.runCase, hb]
      rfl

/-- A case that reads bits is a step of the machine. -/
theorem bitCase_goes {p : CaseProg} (hok : r.st.Ok) (hbits : r.st.BitsOk r.acc.bits)
    (hv : r.Shows hist size rest d) (hp : r.st.bitCase = some p) (hm : r.st.mode.phase = 1)
    (ht : r.st.mode ≠ .type) (hlast : r.st.mode = .typedo → r.st.last = false)
    (hflush : flush ≠ .trees) : Goes hist size rest reach d (r.runCase flush p) := by
  have hlen : r.st.mode ≠ .length := by
    intro h
    rw [h] at hm
    cases hm
  obtain ⟨q, hq, hagree⟩ := InflateState.bitCase_agree hv.live hok (fun h => absurd h hlen) hp
  refine runCase_goes (InflateState.bitCase_wp hp hok hbits) hagree hv hflush
    (by rw [hv.mode]; exact ht) (Decoder.next_prog hq (by rw [hv.mode]; exact hlen))
    (fun s' v' hrun => ?_) fun s' v' hrun => ?_
  · have hleads := Mode.leads_ne (InflateState.bitCase_leads hp hm hrun)
    refine ⟨hleads.1, fun hcheck => ?_⟩
    have hdo := (hleads.2 hcheck).resolve_left ht
    rw [InflateState.bitCase, hdo] at hp
    obtain rfl := Option.some.inj hp
    exact InflateState.caseTypedo_check hrun (hlast hdo) hcheck
  · exact (Mode.leads_ne (InflateState.bitCase_leads hq (by rw [hv.mode]; exact hm) hrun)).1

/-- `STORED` goes to the next byte before it reads. -/
theorem caseStored_goes (h : r.Good past start) (hv : r.Shows hist size rest d) (hm : r.st.mode = .stored)
    (hflush : flush ≠ .trees) : Goes hist size rest reach d
      ({ r with acc := r.acc.drop (r.acc.bits % 8) }.runCase flush r.st.caseStored) := by
  have hbits := h.bits
  simp only [InflateState.BitsOk, hm] at hbits
  have hmode := hv.mode.trans hm
  have hne : d.st.mode ≠ .type := by rw [hmode]; decide
  have hlen : d.stream.len % 8 = r.acc.bits % 8 := by
    rw [hv.stream, BitStream.append_len, BitReader.stream_len, BitStream.ofBytes_len]
    omega
  have hstream : d.stream.drop (d.stream.len % 8) =
      (r.acc.drop (r.acc.bits % 8)).stream.append (.ofBytes rest) := by
    rw [hlen, hv.stream, BitReader.stream_drop (Nat.mod_le _ _), BitStream.drop_append]
    rw [BitReader.stream_len]
    exact (Nat.mod_le _ _).trans (Nat.le_add_right _ _)
  have halign : d.Within reach { d with stream := d.stream.drop (d.stream.len % 8) } := by
    by_cases h0 : d.stream.len % 8 = 0
    · rw [h0, BitStream.drop_zero]
      exact .refl
    · refine .single ⟨hne, ?_⟩
      unfold Decoder.next
      rw [hmode]
      dsimp only
      rw [if_pos h0]
  refine .after halign (runCase_goes
    (InflateState.caseStored_wp hm (by dsimp only [BitReader.drop_bits]; omega))
    (InflateState.caseStored_agree hm hv.live) ⟨hv.live, hv.mode, hstream, hv.out, hv.mark⟩ hflush hne ?_
    (fun s' v' hrun => ?_) fun s' v' hrun => ?_)
  · have h0 : (d.stream.drop (d.stream.len % 8)).len % 8 = 0 := by
      rw [BitStream.drop_len]
      omega
    unfold Decoder.next
    dsimp only
    rw [hmode]
    dsimp only
    rw [if_neg (fun h => h h0)]
  · rcases InflateState.caseStored_mode hrun with h | h <;> rw [h] <;> decide
  · rcases InflateState.caseStored_mode hrun with h | h <;> rw [h] <;> decide

theorem caseCopy_goes (h : r.Good past start) (hv : r.Shows hist size rest d) (hm : r.st.mode = .copy) :
    Goes hist size rest reach d r.caseCopy := by
  have hbits := h.bits
  simp only [InflateState.BitsOk, hm] at hbits
  have hmode := hv.mode.trans hm
  obtain ⟨x, hx⟩ : ∃ x, d.st = r.st.patch x :=
    ⟨d.st, InflateState.eq_patch hv.live (hmode.trans hm.symm)⟩
  have hlength : d.st.length = r.st.length := by
    rw [hx]
    simp only [hm, Mode.usesLength, cond_true]
  unfold caseCopy
  split
  · dsimp only
    split
    · next h0 =>
      refine ⟨d, .refl, hv, ?_⟩
      by_cases hleft : r.left = 0
      · exact .inr ⟨hleft, .inl ⟨hm, ‹_›⟩⟩
      · left
        intro hrest
        have hempty : d.stream.len = 0 := by
          rw [hv.stream, hrest, BitStream.append_nil, BitReader.stream_len]
          omega
        unfold Decoder.next
        rw [hmode]
        dsimp only
        rw [if_pos (by rw [hlength]; assumption), Decoder.takeByte, if_neg (by omega)]
    · next h0 =>
      generalize hn : min (min r.st.length r.acc.have_) r.left = n at h0 ⊢
      have hstream : d.stream =
          (BitStream.ofBytes (bytesAt r.acc.mem r.acc.next n)).append
            ((r.acc.advance n).stream.append (.ofBytes rest)) := by
        have hheld : ∀ v, r.acc.held.append v = v := by
          intro v
          have hnil : r.acc.held = BitStream.ofBytes [] := by
            have hlt := r.acc.lt
            rw [hbits, Nat.pow_zero, Nat.lt_one_iff] at hlt
            ext
            · exact hlt
            · exact hbits
          rw [hnil, BitStream.nil_append]
        have hsum : r.acc.have_ = n + (r.acc.have_ - n) := by omega
        have hadv : (r.acc.advance n).held = r.acc.held := rfl
        rw [hv.stream, BitReader.stream, BitReader.stream, hadv, hheld, hheld, hsum, bytesAt_add,
          BitStream.ofBytes_append, BitStream.append_assoc]
        simp only [BitReader.advance]
      have hcopy := @Decoder.copy_within reach d.st (bytesAt r.acc.mem r.acc.next n) hmode
        (by rw [length_bytesAt, hlength]; omega) ((r.acc.advance n).stream.append (.ofBytes rest)) d.hist
      rw [← hstream, length_bytesAt] at hcopy
      refine ⟨by dsimp only; rw [hm]; decide, _, hcopy, ?_, hv.mode, rfl, ?_, hv.mark⟩
      · dsimp only
        rw [hx]
        generalize r.st = s at hm ⊢
        cases s
        subst hm
        rfl
      · dsimp only
        rw [hv.out, List.append_assoc]
  · next h0 =>
    have hnext : d.next reach = some { d with st := { d.st with mode := .type } } := by
      unfold Decoder.next
      rw [hmode]
      dsimp only
      rw [if_neg (by rw [hlength]; exact h0)]
    refine ⟨⟨fun h => (by cases h), fun h => (by cases h)⟩, _, .single ⟨by rw [hmode]; decide, hnext⟩, ?_, rfl, hv.stream, hv.out, hv.mark⟩
    dsimp only
    rw [hx]
    generalize r.st = s at hm ⊢
    cases s
    subst hm
    rfl

theorem caseLit_goes (hv : r.Shows hist size rest d) (hm : r.st.mode = .lit) :
    Goes hist size rest reach d r.caseLit := by
  have hmode := hv.mode.trans hm
  obtain ⟨x, hx⟩ : ∃ x, d.st = r.st.patch x :=
    ⟨d.st, InflateState.eq_patch hv.live (hmode.trans hm.symm)⟩
  have hlength : d.st.length = r.st.length := by
    rw [hx]
    simp only [hm, Mode.usesLength, cond_true]
  unfold caseLit
  split
  · next hleft => exact ⟨d, .refl, hv, .inr ⟨hleft, .inr (.inr hm)⟩⟩
  · have hnext : d.next reach = some { d with
        st := { d.st with mode := .len }, hist := UInt8.ofNat d.st.length :: d.hist } := by
      unfold Decoder.next
      rw [hmode]
    refine ⟨⟨fun h => (by cases h), fun h => (by cases h)⟩, _, .single ⟨by rw [hmode]; decide, hnext⟩, ?_, rfl, hv.stream, ?_, hv.mark⟩
    · dsimp only
      rw [hx]
      generalize r.st = s at hm ⊢
      cases s
      subst hm
      rfl
    · dsimp only
      rw [hlength, hv.out]
      rfl

/-- How far back a match may reach in a call with the window of the history. -/
def callReach (hist : List UInt8) (whave : Nat) (n : Nat) : Nat := n - hist.length + whave

/-- The machine allows just the distances that the call does. -/
def SameReach (hist : List UInt8) (whave : Nat) (reach : Nat → Nat) : Prop :=
  ∀ n, hist.length ≤ n → ∀ offset ≤ 32768, offset ≤ callReach hist whave n ↔ offset ≤ reach n

theorem SameReach.refl (hist : List UInt8) (whave : Nat) :
    SameReach hist whave (callReach hist whave) := fun _ _ _ _ => Iff.rfl

theorem caseMatch_goes (h : r.Good past start) (hw : WindowOk r.st hist)
    (hreach : SameReach hist r.st.whave reach) (hv : r.Shows hist size rest d)
    (hm : r.st.mode = .match_) : Goes hist size rest reach d r.caseMatch := by
  have hok := h.ok
  simp only [InflateState.Ok, hm] at hok
  obtain ⟨-, ⟨hlen, -⟩, hoffset, hfar⟩ := hok
  have hreach := fun n hn => hreach n hn r.st.offset hfar
  have hmark := h.early (by rw [hm]; decide)
  have hmode := hv.mode.trans hm
  have hne : d.st.mode ≠ .type := by rw [hmode]; decide
  obtain ⟨x, hx⟩ : ∃ x, d.st = r.st.patch x :=
    ⟨d.st, InflateState.eq_patch hv.live (hmode.trans hm.symm)⟩
  have hlength : d.st.length = r.st.length := by
    rw [hx]
    simp only [hm, Mode.usesLength, cond_true]
  have hdist : d.st.offset = r.st.offset := by
    rw [hx]
    simp only [hm, Mode.usesOffset, cond_true]
  have hout : d.hist.length = r.out.length + hist.length := by rw [hv.out, List.length_append]
  by_cases h0 : r.left = 0
  · unfold caseMatch
    rw [if_pos h0]
    exact ⟨d, .refl, hv, .inr ⟨h0, .inr (.inl hm)⟩⟩
  · by_cases hfar : r.out.length + r.st.whave < r.st.offset
    · rw [caseMatch_far (by omega) hmark hfar]
      have hnext : d.next reach =
          some { d with st := d.st.setBad "invalid distance too far back" } := by
        have hle := (hreach d.hist.length (by omega)).not
        rw [callReach] at hle
        unfold Decoder.next
        rw [hmode]
        dsimp only
        rw [if_pos (by rw [hdist]; omega)]
      refine ⟨⟨fun h => (by cases h), fun h => (by cases h)⟩, _, .single ⟨hne, hnext⟩, ?_, rfl, hv.stream, hv.out, hv.mark⟩
      dsimp only
      rw [hx]
      generalize r.st = s at hm ⊢
      cases s
      subst hm
      rfl
    · obtain ⟨n, out, hn, hnl, -, hrun, hcopy⟩ := caseMatch_copy (by omega) hlen hmark hw.whave_le.1
        hoffset (by omega)
      rw [hrun]
      have hsteps := @Decoder.match_within reach d.st d.stream n hmode hn (by omega) d.hist
        fun k hk => by
          have hle := hreach k (by omega)
          rw [callReach] at hle
          rw [hdist]
          omega
      refine ⟨?_, _, hsteps, ?_, ?_, hv.stream, ?_, hv.mark⟩
      · dsimp only
        rw [hm]
        split <;> decide
      · dsimp only
        by_cases hlast : r.st.length - n = 0
        · rw [if_pos hlast, if_pos (by rw [hlength]; exact hlast), hx]
          generalize r.st = s at hm ⊢
          cases s
          subst hm
          rfl
        · rw [if_neg hlast, if_neg (by rw [hlength]; exact hlast), hx]
          generalize r.st = s at hm ⊢
          cases s
          subst hm
          rfl
      · dsimp only
        rw [hlength, hv.mode]
      · dsimp only
        have hall : r.out ++ hist = (r.out ++ r.st.windowHist) ++ hist.drop r.st.whave := by
          rw [List.append_assoc, hw.hist, List.take_append_drop]
        rw [hdist, hv.out, hall, copyMatch_append hoffset n (by
          rw [List.length_append, InflateState.length_windowHist]; omega), ← hcopy, hw.hist,
          List.append_assoc, List.take_append_drop]

/-- A pass of the slow states. -/
theorem slowStep_goes (h : r.Good past start) (hw : WindowOk r.st hist)
    (hreach : SameReach hist r.st.whave reach) (hv : r.Shows hist size rest d)
    (hflush : flush ≠ .trees) (hm : r.st.mode.inSymbol = true) :
    Goes hist size rest reach d (r.slowStep flush) := by
  obtain ⟨hphase, hne⟩ := Mode.inSymbol_phase hm
  have hlast : r.st.mode = .typedo → r.st.last = false := fun h => absurd h hne.2
  have hcase : ∀ {p}, r.st.bitCase = some p →
      Goes hist size rest reach d (r.runCase flush p) :=
    fun hp => bitCase_goes h.ok h.bits hv hp hphase hne.1 hlast hflush
  unfold slowStep step
  split
  · next hlen =>
    refine bitCase_goes (r := { r with st := { r.st with back := 0 } }) ?_ ?_
      ⟨hv.live, hv.mode, hv.stream, hv.out, hv.mark⟩ ?_ hphase hne.1 hlast hflush
    · have hok := h.ok
      simp only [InflateState.Ok, hlen] at hok ⊢
      exact ⟨hok.len, hok.lenbits, hok.dist, hok.distbits⟩
    · exact h.bits
    · unfold InflateState.bitCase
      dsimp only
      rw [hlen]
      rfl
  · next hlen =>
    unfold InflateState.bitCase at hcase
    generalize hmode : r.st.mode = m at hm hlen hcase
    cases m <;> simp only [Mode.inSymbol, Bool.false_eq_true] at hm
    case len => exact absurd rfl hlen
    case lenext => exact hcase rfl
    case dist => exact hcase rfl
    case distext => exact hcase rfl
    case match_ => exact caseMatch_goes h hw hreach hv hmode
    case lit => exact caseLit_goes hv hmode

/-- The window is not touched by a pass in the blocks. -/
theorem window_follows (hw : WindowOk r.st hist) (hf : r.Follows r') (hm : r.st.mode.phase = 1) :
    WindowOk r'.st hist ∧ r'.st.whave = r.st.whave := by
  have hwindow := hf.window
  have hwbits := hf.wbits (.inl fun h => by rw [h] at hm; cases hm)
  simp only [Prod.mk.injEq] at hwindow
  obtain ⟨hsize, hhave, hnext, hbytes⟩ := hwindow
  exact ⟨hw.congr (by rw [hsize, hhave, hnext, hbytes, hwbits]), hhave⟩

theorem slowSteps_goes (hs : SlowSteps flush r r') (h : r.Good past start) (hw : WindowOk r.st hist)
    (hreach : SameReach hist r.st.whave reach) (hv : r.Shows hist size rest d) (hflush : flush ≠ .trees) :
    ∃ d', d.Within reach d' ∧ r'.Shows hist size rest d' := by
  induction hs using Relation.ReflTransGen.head_induction_on generalizing d with
  | refl => exact ⟨d, .refl, hv⟩
  | head hstep _ ih =>
    have hgood := slowStep_good flush h hstep.1
    have hgoes := slowStep_goes h hw hreach hv hflush hstep.1
    rw [hstep.2] at hgood hgoes
    obtain ⟨-, d₁, hsteps, hv₁⟩ := hgoes
    obtain ⟨hw₁, hhave⟩ := window_follows hw hgood.2.1 (Mode.inSymbol_phase hstep.1).1
    obtain ⟨d', hsteps', hv'⟩ := ih hgood.1 hw₁ (by rw [hhave]; exact hreach) hv₁
    exact ⟨d', hsteps.trans hsteps', hv'⟩

/-- What `inflate_fast` leaves goes on as what the slow states leave. -/
theorem live_of_sameEnd {s s' : InflateState} (h : SameEnd s s')
    (hm : s.mode = .len ∨ s.mode = .type ∨ s.mode = .bad ∨ s.mode = .match_) : s'.live = s.live := by
  obtain ⟨hmode, hcodes, hpending⟩ := h
  have hkeep : ∀ x : InflateState, x.mode = .len ∨ x.mode = .type ∨ x.mode = .bad ∨ x.mode = .match_ →
      x.live = { x.codes with
        mode := x.mode
        length := if x.mode = Mode.match_ then x.length else 0
        offset := if x.mode = Mode.match_ then x.offset else 0 }.live := by
    intro x hx
    cases x
    rcases hx with hx | hx | hx | hx <;> subst hx <;> rfl
  have hcodes' : s'.codes = s.codes := hcodes
  rw [hkeep s hm, hkeep s' (by rw [hmode]; exact hm), hcodes', hmode]
  split
  · next hmatch => rw [(hpending hmatch).1, (hpending hmatch).2]
  · rfl

theorem stops_mode {s s' : InflateState} {h : List UInt8} {room n : Nat} {v : BitStream}
    (hs : Stops s h room v n s') : s'.mode = .type ∨ s'.mode = .bad ∨ s'.mode = .match_ := by
  cases hs with
  | endBlock => exact .inl rfl
  | badLen | badDist | tooFar => exact .inr (.inl rfl)
  | handOver => exact .inr (.inr rfl)

theorem enterFast_goes (h : r.Good past start) (hl : r.Lazy) (hw : WindowOk r.st hist)
    (hreach : SameReach hist r.st.whave reach) (hv : r.Shows hist size rest d) (hm : r.st.mode = .len)
    (hroom : inflateFastMinHave ≤ r.acc.have_ ∧ inflateFastMinSafe ≤ r.left) :
    Goes hist size rest reach d r.enterFast := by
  have hok := h.ok
  have hbits := h.bits
  simp only [InflateState.Ok, InflateState.BitsOk, hm] at hok hbits
  have hmark : r.mark = r.left + r.out.length := h.early (by rw [hm]; decide)
  obtain ⟨c, hf⟩ := inflateFast_spec (decide (r.left < inflateFastMinLeft)) hok h.whave
    (show r.acc.bits < 64 by omega) hroom.1 hroom.2 (by simp) hmark.symm
  obtain ⟨r', hsteps, hout, -, hstream, hend⟩ := hf.slow .noFlush hm hok hbits h.whave hmark
  obtain ⟨d', hwithin, hv'⟩ := slowSteps_goes hsteps h hw hreach hv (by decide)
  unfold enterFast
  dsimp only
  generalize inflateFast (decide (r.left < inflateFastMinLeft)) r.acc.mem (fun _ i => r.st.window i)
    r.mark r.st r.acc.next r.acc.have_ r.out r.left r.acc.hold r.acc.bits = f at hf hout hend ⊢
  obtain ⟨-, hsize⟩ := hf.size
  obtain ⟨-, -, -, -, hfstream⟩ := hf.rewind (by
    have := (hl.len hm hok).lt hok
    omega)
  have hmode : f.st.mode = .len ∨ f.st.mode = .type ∨ f.st.mode = .bad ∨ f.st.mode = .match_ := by
    rcases hf.symbols with ⟨hst, -⟩ | ⟨c₁, n, -, -, hs⟩
    · rw [hst]
      exact .inl hm
    · exact .inr (stops_mode hs)
  have hlive := live_of_sameEnd hend hmode
  have hst : (if f.st.mode = .type then { f.st with back := -1 } else f.st).mode = f.st.mode := by
    split <;> rfl
  refine ⟨?_, d', hwithin, ?_, ?_, ?_, ?_, hv.mark⟩
  · dsimp only
    rw [hst]
    rcases hmode with h | h | h | h <;> rw [h] <;> decide
  · rw [← hv'.live, hlive]
    dsimp only
    split <;> rfl
  · rw [hv'.mode, hend.mode]
    exact hst.symm
  · rw [hv'.stream, hstream]
    exact congrArg (·.append (.ofBytes rest)) hfstream.symm
  · rw [hv'.out, hout]

/-- A pass of the loop, in a block. -/
theorem step_goes (h : r.Good past start) (hl : r.Lazy) (hw : WindowOk r.st hist)
    (hreach : SameReach hist r.st.whave reach) (hv : r.Shows hist size rest d) (hflush : flush ≠ .trees) (hm : r.st.mode.phase = 1)
    (hne : r.st.mode ≠ .type) (hlast : r.st.mode = .typedo → r.st.last = false) :
    Goes hist size rest reach d (r.step flush) := by
  have hcase : ∀ {p}, r.st.bitCase = some p →
      Goes hist size rest reach d (r.runCase flush p) :=
    fun hp => bitCase_goes h.ok h.bits hv hp hm hne hlast hflush
  by_cases hsym : r.st.mode.inSymbol = true
  · have hslow := slowStep_goes h hw hreach hv hflush hsym
    unfold slowStep at hslow
    split at hslow
    · next hlen =>
      unfold step
      rw [hlen]
      dsimp only
      split
      · next hroom => exact enterFast_goes h hl hw hreach hv hlen hroom
      · exact hslow
    · exact hslow
  · unfold InflateState.bitCase at hcase
    unfold step
    generalize hmode : r.st.mode = m at hm hne hsym hcase
    have hd := hv.mode.trans hmode
    -- the modes that only move on
    have hmove : ∀ m', (d.next reach =
          some { d with st := { d.st with mode := m' } }) → d.st.mode ≠ .type →
        m' ≠ .typedo ∧ m' ≠ .check → { r.st with mode := m' }.live = { d.st with mode := m' }.live →
        Goes hist size rest reach d (.loop { r with st := { r.st with mode := m' } }) :=
      fun m' hnext hne' hstay hlive =>
        ⟨hstay, _, .single ⟨hne', hnext⟩, hlive, rfl, hv.stream, hv.out, hv.mark⟩
    cases m
    case type => exact absurd rfl hne
    case stored => exact caseStored_goes h hv hmode hflush
    case copy => exact caseCopy_goes h hv hmode
    case copy_ | len_ =>
      refine hmove _ ?_ (by rw [hd]; decide) (by decide) ?_
      · unfold Decoder.next
        rw [hd]
      · rw [InflateState.eq_patch hv.live (hd.trans hmode.symm)]
        generalize r.st = s at hmode ⊢
        cases s
        subst hmode
        rfl
    case typedo | table | lenlens | codelens => exact hcase rfl
    all_goals first | exact absurd hm (by decide) | exact absurd rfl hsym

/-- What holds between the passes of a call with `Z_BLOCK`, in a block. -/
structure InBlock (past hist : List UInt8) (start : Nat) (r : Regs) : Prop where
  good : r.Good past start
  lazy : r.Lazy
  window : WindowOk r.st hist
  mode : r.st.mode.phase = 1 ∨ r.st.mode = .bad
  last : r.st.mode = .typedo → r.st.last = false

/-- `Z_BLOCK` leaves at a block's first bit and after an error. -/
theorem InBlock.pass (h : r.InBlock past hist start) (hs : r.step .block = .loop r') :
    r.st.mode.phase = 1 ∧ r.st.mode ≠ .type := by
  constructor
  · refine h.mode.resolve_right fun hbad => ?_
    rw [step, hbad] at hs
    cases hs
  · intro htype
    rw [step, htype] at hs
    cases hs

theorem InBlock.step (h : r.InBlock past hist start) (hv : r.Shows hist size [] d)
    (hs : r.step .block = .loop r') :
    r'.InBlock past hist start ∧ r'.st.whave = r.st.whave ∧
      ∃ d', d.Within (callReach hist r.st.whave) d' ∧ r'.Shows hist size [] d' := by
  obtain ⟨hphase, htype⟩ := h.pass hs
  have hgoes := step_goes h.good h.lazy h.window (.refl _ _) hv (show Flush.block ≠ .trees by decide) hphase htype
    h.last
  have hgood := step_good .block h.good h.lazy
  rw [hs] at hgoes hgood
  obtain ⟨⟨hdo, hcheck⟩, d', hsteps, hv'⟩ := hgoes
  obtain ⟨hgood', hfollows, -, hnext⟩ := hgood
  obtain ⟨hw, hhave⟩ := window_follows h.window hfollows hphase
  refine ⟨⟨hgood', hfollows.lazy h.lazy, hw, ?_, fun h => absurd h hdo⟩, hhave, d', hsteps, hv'⟩
  obtain ⟨⟨hle, hge⟩, ⟨-, hsync⟩, -⟩ := (Mode.follows_iff _ _).mp hnext
  revert hle hge hsync hcheck
  rw [hphase]
  cases r'.st.mode <;> simp [Mode.phase]

theorem InBlock.passes (hp : Passes .block r r') (h : r.InBlock past hist start)
    (hv : r.Shows hist size [] d) : r'.InBlock past hist start ∧ r'.st.whave = r.st.whave ∧
      ∃ d', d.Within (callReach hist r.st.whave) d' ∧ r'.Shows hist size [] d' := by
  induction hp with
  | refl => exact ⟨h, rfl, d, .refl, hv⟩
  | tail _ hstep ih =>
    obtain ⟨h₁, hhave₁, d₁, hsteps₁, hv₁⟩ := ih
    obtain ⟨h₂, hhave₂, d₂, hsteps₂, hv₂⟩ := h₁.step hv₁ hstep
    rw [hhave₁] at hhave₂ hsteps₂
    exact ⟨h₂, hhave₂, d₂, hsteps₁.trans hsteps₂, hv₂⟩

/-- Where the loop waits for space, the machine writes a byte, or finds an error. -/
theorem Full.next (hf : r.Full) (hv : r.Shows hist size rest d) (h : d.next reach = some x) :
    x.st.mode = .bad ∨ d.hist.length < x.hist.length := by
  unfold Decoder.next at h
  rw [hv.mode] at h
  rcases hf.mode with ⟨hm, hlen⟩ | hm | hm
  · obtain ⟨y, hy⟩ : ∃ y, d.st = r.st.patch y := ⟨d.st, InflateState.eq_patch hv.live hv.mode⟩
    have hlength : d.st.length = r.st.length := by
      rw [hy]
      simp only [hm, Mode.usesLength, cond_true]
    rw [hm] at h
    dsimp only at h
    rw [if_pos (by rw [hlength]; exact hlen), Decoder.takeByte] at h
    split at h
    · obtain rfl := Option.some.inj h
      exact .inr (Nat.lt_succ_self _)
    · cases h
  · rw [hm] at h
    dsimp only at h
    split at h
    · obtain rfl := Option.some.inj h
      exact .inl rfl
    · obtain rfl := Option.some.inj h
      exact .inr (Nat.lt_succ_self _)
  · rw [hm] at h
    obtain rfl := Option.some.inj h
    exact .inr (Nat.lt_succ_self _)

/-- How a call with `Z_BLOCK` leaves a block: at the next one, out of input, or out of space. -/
theorem InBlock.leave {code : Ret} (h : r.InBlock past hist start) (hv : r.Shows hist size [] d)
    (hs : r.step .block = .leave code r') :
    ∃ d', d.Within (callReach hist r.st.whave) d' ∧ r'.Shows hist size [] d' ∧
      (d'.st.mode = .type ∨ d'.next (callReach hist r.st.whave) = none ∨ r'.Full) := by
  by_cases htype : r.st.mode = .type
  · rw [Regs.step, htype] at hs
    obtain ⟨-, rfl⟩ := Ctl.leave.inj hs
    exact ⟨d, .refl, hv, .inl (hv.mode.trans htype)⟩
  · rcases h.mode with hphase | hbad
    · have hgoes := step_goes h.good h.lazy h.window (.refl _ _) hv (show Flush.block ≠ .trees by decide) hphase
        htype h.last
      rw [hs] at hgoes
      obtain ⟨d', hsteps, hv', hend⟩ := hgoes
      exact ⟨d', hsteps, hv', .inr (hend.imp_left fun h => h rfl)⟩
    · rw [Regs.step, hbad] at hs
      obtain ⟨-, rfl⟩ := Ctl.leave.inj hs
      exact ⟨d, .refl, hv, .inr (.inl (Decoder.next_bad (hv.mode.trans hbad)))⟩

end Regs
end ZlibNg
