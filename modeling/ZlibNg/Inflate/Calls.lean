import ZlibNg.Inflate.Invariant

/-! The invariant holds after every call. -/
namespace ZlibNg
open BitProg

namespace Session
variable {s : Session} {mem : Int → UInt8} {nextIn : Int} {availIn availOut : Nat} {flush : Flush}

/-- How a call of `inflate` comes to its end, and what it returns. -/
inductive Returned (s : Session) (mem : Int → UInt8) (nextIn : Int) (availIn availOut : Nat)
    (flush : Flush) : Ret × InflateStream × List UInt8 → Prop
  | leave {r r' : Regs} {code : Ret} (hp : Regs.Passes flush (s.load mem nextIn availIn availOut) r)
      (hs : r.step flush = .leave code r') (hgood : r'.Good s.out s.strm.totalOut)
      (hf : (s.load mem nextIn availIn availOut).Follows r') (he : r.Ends r' code) :
      Returned s mem nextIn availIn availOut flush
        (((s.feed nextIn availIn availOut).infLeave flush code r').1,
          ((s.feed nextIn availIn availOut).infLeave flush code r').2, r'.out.reverse)
  | needDict {r : Regs} (hp : Regs.Passes flush (s.load mem nextIn availIn availOut) r)
      (hm : r.st.mode = .dict) (hs : r.step flush = .ret .needDict r)
      (hgood : r.Good s.out s.strm.totalOut)
      (hf : (s.load mem nextIn availIn availOut).Follows r) :
      Returned s mem nextIn availIn availOut flush
        (.needDict, (s.feed nextIn availIn availOut).restore r, [])
  | sync (hm : s.strm.st.mode = .sync) :
      Returned s mem nextIn availIn availOut flush
        (.streamError, s.feed nextIn availIn availOut, [])

/-- A call of `inflate` returns. -/
theorem Inv.returned (h : s.Inv) (mem : Int → UInt8) (nextIn : Int) (availIn availOut : Nat)
    (flush : Flush) : ∃ x, (s.feed nextIn availIn availOut).inflate mem flush = some x ∧
      Returned s mem nextIn availIn availOut flush x := by
  obtain ⟨hgood, hlazy, -⟩ := h.load mem nextIn availIn availOut
  obtain ⟨r, hp, hend⟩ := Regs.loop_passes flush hgood hlazy
    (Nat.lt_add_one (s.load mem nextIn availIn availOut).measure)
  obtain ⟨hr, hf⟩ := hp.good hgood hlazy
  have hstep := Regs.step_good flush hr (hf.lazy hlazy)
  unfold InflateStream.inflate
  change ∃ x, ((s.load mem nextIn availIn availOut).loop flush
    ((s.load mem nextIn availIn availOut).measure + 1)).map _ = some x ∧ _
  rcases hend with ⟨code, r', hs, hloop⟩ | ⟨code, r', hs, hloop⟩
  · rw [hloop]
    rw [hs] at hstep
    obtain ⟨hgood', hf', he⟩ := hstep
    exact ⟨_, rfl, .leave hp hs hgood' (hf.trans hf') he⟩
  · rw [hloop]
    rw [hs] at hstep
    obtain ⟨rfl, ⟨rfl, hm⟩ | ⟨rfl, hm⟩⟩ := hstep
    · obtain ⟨hout, -, -⟩ := hr.header (by rw [hm]; rfl)
      refine ⟨_, rfl, ?_⟩
      dsimp only
      rw [hout]
      exact .needDict hp hm hs hr hf
    · -- `SYNC` is not reached but from the start
      have hload : (s.load mem nextIn availIn availOut).st.mode = .sync := hf.sync hm
      have hmode : s.strm.st.mode = .sync := by
        unfold Session.load InflateStream.load feed at hload
        dsimp only at hload
        split at hload
        · cases hload
        · exact hload
      have hne : s.strm.st.mode ≠ .type := by rw [hmode]; nofun
      have hr' : r' = s.load mem nextIn availIn availOut := by
        rcases Relation.ReflTransGen.cases_head hp with heq | ⟨r₁, hfirst, -⟩
        · exact heq.symm
        · unfold Regs.step at hfirst
          rw [hload] at hfirst
          cases hfirst
      refine ⟨_, rfl, ?_⟩
      rw [hr']
      unfold Session.load InflateStream.load feed InflateStream.restore
      dsimp only
      rw [if_neg hne]
      exact .sync hmode

/-- The stream after a call of `inflate`. -/
theorem Inv.inflate (h : s.Inv) {ret : Ret} {strm : InflateStream} {bytes : List UInt8}
    (hr : Returned s mem nextIn availIn availOut flush (ret, strm, bytes)) (taken : Int) :
    Inv { strm := strm, taken := taken, out := bytes.reverse ++ s.out
          hist := bytes.reverse ++ s.hist } := by
  obtain ⟨-, hlazy, hwin⟩ := h.load mem nextIn availIn availOut
  cases hr with
  | leave hp hs hgood hf he =>
    rw [List.reverse_reverse]
    rw [h.totalOut] at hgood
    exact Inv.leave hgood (hf.lazy hlazy) (hwin.follows hf) he
  | @needDict r hp hm hs hgood hf =>
    have hphase : r.st.mode.phase = 0 := by rw [hm]; rfl
    obtain ⟨hout, hpast, htotal⟩ := hgood.header hphase
    have hmark := hgood.early (by omega)
    have hcounted := hgood.counted
    rw [hout, List.length_nil] at hmark hcounted
    have hstart := h.totalOut
    refine ⟨hgood.ok, hgood.bits, hwin.follows hf, fun _ => ⟨hpast, htotal⟩, ?_, ?_, hf.lazy hlazy⟩
    · intro h1
      dsimp only [InflateStream.restore] at h1
      omega
    · dsimp only [InflateStream.restore, List.reverse_nil, List.nil_append]
      omega
  | sync hm =>
    exact ⟨h.ok, h.bits, h.windowed, h.header, h.check, h.totalOut, h.lazy⟩

theorem Inv.setDictionary (h : s.Inv) (dictionary : List UInt8) :
    Inv { s with
      strm := (s.strm.inflateSetDictionary dictionary).2
      hist := if (s.strm.inflateSetDictionary dictionary).1 = .ok then dictionary.reverse ++ s.hist
        else s.hist } := by
  unfold InflateStream.inflateSetDictionary
  split
  · exact ⟨h.ok, h.bits, h.windowed, h.header, h.check, h.totalOut, h.lazy⟩
  · next hmode =>
    split
    · exact ⟨h.ok, h.bits, h.windowed, h.header, h.check, h.totalOut, h.lazy⟩
    · obtain ⟨a, ha⟩ := InflateState.updatewindow_rest h.windowed.bounds.2 dictionary false
      obtain ⟨hist', hw, heq⟩ := h.windowed.seen
      have hw' := hw.updatewindow dictionary false
      rw [if_pos rfl]
      rw [ha] at hw' ⊢
      refine ⟨?_, h.bits, ⟨⟨_, hw'.congr rfl, fun hp => ?_⟩, ?_⟩, h.header, ?_, h.totalOut, ?_⟩
      · exact h.ok.accounts
      · rw [heq hp]
      · intro hhead hne
        exact absurd ⟨hne, by dsimp only at hhead; rw [hhead]; decide⟩ hmode
      · exact h.check
      · rcases h.lazy with hl | hl | hl
        · exact .inl hl
        · exact .inr (.inl hl)
        · refine .inr (.inr (InflateState.prog_havedict true ?_))
          exact InflateState.prog_stuck (InflateState.accounts_live fun _ => rfl).symm h.ok hl

/-- A reset stream has nothing to account for. -/
theorem inv_reset {strm : InflateStream} (hm : strm.st.mode = .head)
    (hwin : strm.st.wsize = 0 ∧ strm.st.whave = 0 ∧ strm.st.wnext = 0) (htotal : strm.st.total = 0)
    (hbits : strm.bits = 0) (hout : strm.totalOut = 0) (taken : Int) :
    Inv { strm := strm, taken := taken, out := [], hist := [] } := by
  obtain ⟨h1, h2, h3⟩ := hwin
  refine ⟨?_, ?_, ⟨⟨[], ?_, fun _ => rfl⟩, fun _ _ => h1⟩, fun _ => ⟨rfl, htotal⟩, ?_, hout, .inl ?_⟩
  · dsimp only [InflateState.Ok]
    rw [hm]
    exact trivial
  · dsimp only [InflateState.BitsOk]
    rw [hm, hbits]
    exact ⟨Nat.zero_le _, fun _ => ⟨rfl, Nat.zero_le _⟩⟩
  · refine ⟨?_, .inl h1, .inr ⟨h1, h3⟩, .inl (h2.trans h1.symm), .inl h2⟩
    dsimp only
    rw [InflateState.windowHist, h2]
    rfl
  · intro h
    dsimp only at h
    rw [hm] at h
    exact absurd h.1 (by decide)
  · dsimp only
    rw [hbits]
    decide

theorem Inv.reset : Inv { strm := s.strm.inflateReset, taken := 0, out := [], hist := [] } :=
  inv_reset rfl ⟨rfl, rfl, rfl⟩ rfl rfl rfl 0

theorem start_inv {st : InflateState} {windowBits : Int} (h : start st windowBits = some s) :
    s.Inv := by
  unfold start InflateStream.inflateInit2 at h
  cases hw : wrapRequest windowBits with
  | none =>
    rw [hw] at h
    cases h
  | some w =>
    rw [hw] at h
    obtain rfl := Option.some.inj h
    exact inv_reset rfl ⟨rfl, rfl, rfl⟩ rfl rfl rfl 0

/-- A search leaves the window and the output alone, and less than a byte in the bit buffer. -/
theorem syncStart_eq {strm : InflateStream} (h : strm.st.mode = .sync → strm.bits < 8) :
    strm.syncStart.st = { strm.st with mode := .sync, have_ := strm.syncStart.st.have_ } ∧
      strm.syncStart.bits < 8 ∧ strm.syncStart.totalOut = strm.totalOut := by
  unfold InflateStream.syncStart
  split
  · next hm =>
    refine ⟨?_, h hm, rfl⟩
    rw [← hm]
  · exact ⟨rfl, Nat.zero_lt_succ 7, rfl⟩

theorem wrap_noCheck (w : Nat) : (w ^^^ (w &&& 4)) &&& 4 = 0 := by
  rw [Nat.and_xor_distrib_right, Nat.and_assoc, Nat.and_self, Nat.xor_self]

/-- The search for a new block leaves the accounts alone, or starts them anew. -/
theorem Inv.sync (h : s.Inv) (taken : Int) :
    Inv { s with
      strm := ((s.feed nextIn availIn availOut).inflateSync mem).2
      taken := taken
      hist := if ((s.feed nextIn availIn availOut).inflateSync mem).1 = .ok then [] else s.hist } := by
  have hbits : (s.feed nextIn availIn availOut).st.mode = .sync →
      (s.feed nextIn availIn availOut).bits < 8 := by
    intro hm
    rcases h.lazy with hl | hl | ⟨p, hp, -⟩
    · exact hl
    · exact absurd (hl.symm.trans hm) (by decide)
    · change s.strm.st.mode = .sync at hm
      unfold InflateState.prog InflateState.bitCase at hp
      rw [hm] at hp
      cases hp
  obtain ⟨hst, hlt, htotal⟩ := syncStart_eq hbits
  obtain ⟨hist', hw, -⟩ := h.windowed.seen
  unfold InflateStream.inflateSync
  split
  · exact ⟨h.ok, h.bits, h.windowed, h.header, h.check, h.totalOut, h.lazy⟩
  · dsimp only
    split
    · -- the pattern was not found
      unfold InflateStream.syncInput
      rw [hst]
      refine ⟨trivial, (show _ ≤ 32 from ?_), ⟨⟨hist', hw.congr rfl, nofun⟩, nofun⟩, nofun, nofun, ?_, .inl hlt⟩
      · dsimp only
        omega
      · exact htotal.trans h.totalOut
    · unfold InflateStream.syncRestart InflateStream.syncInput
      rw [hst, if_pos rfl]
      refine ⟨trivial, Nat.zero_le _, ⟨⟨[], ?_, fun _ => rfl⟩, nofun⟩, nofun, ?_, ?_, .inl (Nat.zero_lt_succ 7)⟩
      · exact ⟨rfl, .inl rfl, .inr ⟨rfl, rfl⟩, .inl rfl, .inl rfl⟩
      · intro _ hw4
        refine absurd ?_ hw4
        dsimp only [InflateState.reset, InflateState.resetKeep]
        split
        · rfl
        · exact wrap_noCheck _
      · exact htotal.trans h.totalOut

/-- The invariant holds after every call. -/
theorem Inv.call (h : s.Inv) {c : Call} {ret : Ret} {s' : Session} (hc : s.call c = some (ret, s')) :
    s'.Inv := by
  cases c with
  | inflate mem nextIn availIn availOut flush =>
    obtain ⟨⟨ret', strm, bytes⟩, hx, hreturned⟩ := h.returned mem nextIn availIn availOut flush
    unfold Session.call at hc
    dsimp only at hc
    rw [hx] at hc
    obtain ⟨rfl, rfl⟩ : ret' = ret ∧ _ = s' := by simpa using hc
    exact h.inflate hreturned _
  | setDictionary dictionary =>
    obtain ⟨-, rfl⟩ : _ ∧ _ = s' := by simpa only [Session.call, Option.some.injEq, Prod.mk.injEq] using hc
    exact h.setDictionary dictionary
  | sync mem nextIn availIn =>
    obtain ⟨-, rfl⟩ : _ ∧ _ = s' := by simpa only [Session.call, Option.some.injEq, Prod.mk.injEq] using hc
    exact h.sync _
  | reset =>
    obtain ⟨-, rfl⟩ : _ ∧ _ = s' := by simpa only [Session.call, Option.some.injEq, Prod.mk.injEq] using hc
    exact .reset

theorem Run.inv {may : Session → Call → Prop} (h : Run may s) : s.Inv := by
  induction h with
  | start h => exact start_inv h
  | call _ _ hc ih => exact ih.call hc

end Session
end ZlibNg
