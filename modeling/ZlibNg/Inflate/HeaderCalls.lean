import ZlibNg.Inflate.HeaderRead
import ZlibNg.Inflate.CheckValue

/-! A gzip header is read once, in any run of calls that offers its bytes in order, and the header
structure is left alone afterwards. -/
namespace ZlibNg
open BitProg BitStream

namespace InflateState
variable {s : InflateState}

@[simp] theorem afterLen_head (here : Code) (back : Nat) : (s.afterLen here back).head = s.head := by
  unfold afterLen
  dsimp only
  split
  · rfl
  · split
    · rfl
    · split <;> rfl

@[simp] theorem afterDist_head (here : Code) (back : Nat) : (s.afterDist here back).head = s.head := by
  unfold afterDist
  dsimp only
  split <;> rfl

@[simp] theorem repeatLens_head (len copy : Nat) : (s.repeatLens len copy).head = s.head := by
  unfold repeatLens
  split <;> rfl

@[simp] theorem buildTables_head : s.buildTables.head = s.head := by
  unfold buildTables
  split
  · rfl
  · split
    · rfl
    · dsimp only
      split <;> rfl

/-- Only the modes of the header change the header structure. -/
theorem bitCase_head {p : CaseProg} (hp : s.bitCase = some p) (hm : 1 ≤ s.mode.phase) :
    Agree (fun d _ => d.head = s.head) p p := by
  cases s with
  | mk mode =>
    unfold bitCase at hp
    cases mode <;> simp only [reduceCtorEq, Option.some.injEq] at hp <;> subst hp <;>
      simp only [Mode.phase, Nat.reduceLeDiff] at hm
    all_goals simp only [caseTypedo, caseTable, caseLenlens, caseCodelens, caseLen, caseLenext,
      caseDist, caseDistext, caseLength, needBits, hold, bits, initBits, dropBits, byteBits,
      pure_eq, ret_bind, need_bind, whole_bind, peek_bind, skip_bind, empty_bind, align_bind,
      find_bind, lookup, lookupSub, agree_ret, agree_need, agree_peek, agree_whole,
      agree_skip, agree_align, agree_empty, agree_find, agree_ite, true_and, implies_true,
      and_self, afterLen_head, afterDist_head, repeatLens_head, buildTables_head, fixedtables]
    -- what remains is the table of code length codes
    split <;> exact fun _ => rfl

end InflateState
namespace Regs
variable {past : List UInt8} {start : Nat} {r : Regs} {flush : Flush}

/-- The registers after a pass. -/
def Ctl.regs : Ctl → Regs
  | .loop r => r
  | .leave _ r => r
  | Ctl.ret _ r => r

/-- A program that leaves the header structure alone. -/
theorem runCase_head {s : InflateState} {p : CaseProg} {L : Nat → Prop}
    {Q : InflateState → Nat → Nat → Prop} (hwp : p.wp true r.acc.bits 0 L Q)
    (hk : Agree (fun d _ => d.head = s.head) p p) (hs : r.st.head = s.head) :
    (Ctl.regs (r.runCase flush p)).st.head = s.head := by
  have hspec := run_spec p hwp
  unfold runCase
  generalize p.run r.acc = res at hspec ⊢
  cases res with
  | leave acc => exact hs
  | done st acc =>
    have hstream := hspec.stream []
    rw [append_nil, append_nil] at hstream
    have hhead : st.head = s.head := by
      rcases agree_runStream hk 0 r.acc.stream with ⟨hnone, -⟩ | ⟨a, b, v, ha, -, hR⟩
      · rw [hnone] at hstream
        cases hstream
      · rw [hstream] at ha
        obtain ⟨rfl, -⟩ := Prod.mk.inj (Option.some.inj ha)
        exact hR
    dsimp only
    split
    · exact hhead
    · exact hhead

theorem matched_head (copy : Nat) (out : List UInt8) :
    (Ctl.regs (r.matched copy out)).st.head = r.st.head := rfl

theorem caseMatch_head : (Ctl.regs r.caseMatch).st.head = r.st.head := by
  unfold caseMatch
  dsimp only
  split
  · rfl
  · split
    · split
      · rfl
      · split
        · exact matched_head ..
        · exact matched_head ..
    · exact matched_head ..

theorem caseCheck_head (h : r.Good past start) (hm : r.st.mode = .check) :
    (Ctl.regs r.caseCheck).st.head = r.st.head := by
  have hbits := h.bits
  obtain ⟨c, a, heq⟩ := settle_eq r
  have hwp := InflateState.caseCheck_wp (s := r.settle) (b := r.acc.bits) (by rw [heq]; exact hm)
    (by rw [heq]; exact hbits)
  have hk : Agree (fun d _ => d.head = r.st.head) r.settle.caseCheck r.settle.caseCheck := by
    rw [heq]
    simp only [InflateState.caseCheck, needBits, hold, initBits, pure_eq, ret_bind, need_bind,
      whole_bind, empty_bind, agree_ret, agree_need, agree_whole, agree_empty, agree_ite, implies_true,
      and_self]
  have hspec := run_spec r.settle.caseCheck hwp
  unfold caseCheck
  generalize r.settle.caseCheck.run r.acc = res at hspec ⊢
  cases res with
  | leave acc => rfl
  | done st acc =>
    have hstream := hspec.stream []
    rw [append_nil, append_nil] at hstream
    have hhead : st.head = r.st.head := by
      rcases agree_runStream hk 0 r.acc.stream with ⟨hnone, -⟩ | ⟨d, e, v, hd, -, hR⟩
      · rw [hnone] at hstream
        cases hstream
      · rw [hstream] at hd
        obtain ⟨rfl, -⟩ := Prod.mk.inj (Option.some.inj hd)
        exact hR
    dsimp only
    split
    · exact hhead
    · rfl

theorem enterFast_head (h : r.Good past start) (hm : r.st.mode = .len)
    (hroom : inflateFastMinHave ≤ r.acc.have_ ∧ inflateFastMinSafe ≤ r.left) :
    (Ctl.regs r.enterFast).st.head = r.st.head := by
  have hok := h.ok
  have hbits := h.bits
  simp only [InflateState.Ok, InflateState.BitsOk, hm] at hok hbits
  have hmark : r.mark = r.left + r.out.length := h.early (by rw [hm]; decide)
  obtain ⟨c, hf⟩ := inflateFast_spec (decide (r.left < inflateFastMinLeft)) hok h.whave
    (show r.acc.bits < 64 by omega) hroom.1 hroom.2 (by simp) hmark.symm
  unfold enterFast
  dsimp only
  generalize inflateFast (decide (r.left < inflateFastMinLeft)) r.acc.mem (fun _ i => r.st.window i)
    r.mark r.st r.acc.next r.acc.have_ r.out r.left r.acc.hold r.acc.bits = f at hf ⊢
  have hhead : f.st.head = r.st.head := by
    rcases hf.symbols with ⟨hst, -⟩ | ⟨c₁, n, -, -, hs⟩
    · rw [hst]
    · generalize f.st = s' at hs
      cases hs <;> rfl
  split
  · exact hhead
  · exact hhead

/-- After the header, a pass leaves the header structure alone. -/
theorem step_head (flush : Flush) (h : r.Good past start) (hm : 1 ≤ r.st.mode.phase) :
    (Ctl.regs (r.step flush)).st.head = r.st.head := by
  have hcase : ∀ {p}, r.st.bitCase = some p → (Ctl.regs (r.runCase flush p)).st.head = r.st.head :=
    fun hp => runCase_head (InflateState.bitCase_wp hp h.ok h.bits) (InflateState.bitCase_head hp hm) rfl
  have hok := h.ok
  have hbits := h.bits
  unfold InflateState.bitCase at hcase
  unfold step
  cases hmode : r.st.mode <;> rw [hmode] at hm hcase <;> dsimp only at hcase ⊢
  case stored =>
    simp only [InflateState.BitsOk, hmode] at hbits
    refine runCase_head (r := { r with acc := r.acc.drop (r.acc.bits % 8) }) (s := r.st)
      (InflateState.caseStored_wp hmode ?_) ?_ rfl
    · simp only [BitReader.drop_bits]
      omega
    · simp only [InflateState.caseStored, needBits, hold, initBits, pure_eq, ret_bind, need_bind,
        whole_bind, empty_bind, agree_ret, agree_need, agree_whole, agree_empty, agree_ite, implies_true, and_self]
  case type =>
    split
    · rfl
    · exact hcase rfl
  case copy =>
    unfold caseCopy
    split
    · dsimp only
      split <;> rfl
    · rfl
  case len =>
    split
    · next hroom => exact enterFast_head h hmode hroom
    · have hlen : r.st.bitCase = some r.st.caseLen := by
        unfold InflateState.bitCase
        rw [hmode]
      exact runCase_head (r := { r with st := { r.st with back := 0 } }) (s := r.st)
        (InflateState.bitCase_wp hlen hok h.bits)
        (InflateState.bitCase_head hlen (by rw [hmode]; exact hm)) rfl
  case match_ => exact caseMatch_head
  case lit =>
    unfold caseLit
    split <;> rfl
  case check => exact caseCheck_head h hmode
  case extra => exact absurd hm (by decide)
  case name => exact absurd hm (by decide)
  case comment => exact absurd hm (by decide)
  case dict => exact absurd hm (by decide)
  all_goals first | rfl | exact hcase rfl

variable {f : Gzip.Fields} {hd : GzHeader} {rest later : List UInt8} {r₀ : Regs}

/-- The header ends in `TYPE`, just before the data. -/
theorem Reads.done (hr : r.Reads f hd rest later) (hm : r.st.mode.inHeader ≠ true) :
    r.st.mode = .type ∧ r.st.head = some (f.restore hd) ∧
      r.acc.stream.append (ofBytes later) = ofBytes rest := by
  obtain ⟨b, hb, hexp⟩ := hr
  unfold Expects at hexp
  generalize hmode : r.st.mode = m at hm hexp
  cases m <;> simp only [Mode.inHeader, ne_eq, not_true_eq_false] at hm hexp
  exact ⟨rfl, hexp.1, by rw [hb, hexp.2]⟩

/-- Inside the header, or past it with its structure filled in. -/
def HeaderAt (f : Gzip.Fields) (hd : GzHeader) (rest later : List UInt8) (r : Regs) : Prop :=
  (r.Reads f hd rest later ∧ r.st.mode.inHeader = true) ∨
    (r.st.head = some (f.restore hd) ∧ 1 ≤ r.st.mode.phase ∧ r.acc.have_ + later.length ≤ rest.length)

/-- In the header its structure is filled in; after it, that is left alone. -/
theorem Passes.header (hf : f.Ok) (hp : Passes flush r₀ r) (h : r₀.Good past start) (hl : r₀.Lazy)
    (hr : r₀.HeaderAt f hd rest later) : r.HeaderAt f hd rest later := by
  induction hp with
  | refl => exact hr
  | @tail r₁ r₂ hp₁ hs ih =>
    obtain ⟨hgood, hfollows⟩ := Passes.good hp₁ h hl
    have hstep := step_good flush hgood (hfollows.lazy hl)
    rw [hs] at hstep
    obtain ⟨-, hf₂, -, -⟩ := hstep
    rcases ih with ⟨hr₁, hm₁⟩ | ⟨hhead, hphase, hhave⟩
    · have hpar := step_parses flush hf hgood hr₁ hm₁
      rw [hs] at hpar
      by_cases hm₂ : r₂.st.mode.inHeader = true
      · exact .inl ⟨hpar, hm₂⟩
      · obtain ⟨hmode, hhead, hstream⟩ := Reads.done hpar hm₂
        have hlen := congrArg BitStream.len hstream
        rw [append_len, ofBytes_len, ofBytes_len, BitReader.stream_len] at hlen
        exact .inr ⟨hhead, by rw [hmode]; decide, by omega⟩
    · have hkept := step_head flush hgood hphase
      rw [hs] at hkept
      have hle := hf₂.have_le
      exact .inr ⟨hkept.trans hhead, hphase.trans hf₂.phase, by omega⟩

end Regs

variable {f : Gzip.Fields} {hd : GzHeader} {rest later b : List UInt8}

theorem Parsing.congr {s s' : InflateState} {head : GzHeader} {seen : List UInt8}
    (h : Parsing f rest s head seen b)
    (he : (s'.head, s'.wrap, s'.flags, s'.check) = (s.head, s.wrap, s.flags, s.check)) :
    Parsing f rest s' head seen b := by
  simp only [Prod.mk.injEq] at he
  obtain ⟨h1, h2, h3, h4⟩ := he
  exact ⟨by rw [h1]; exact h.head, by rw [h2]; exact h.wrap, by rw [h3]; exact h.flags,
    fun hc => by rw [h4]; exact h.hash hc, h.bytes⟩

/-- Only some fields of the state count in the header. -/
theorem Expects.congr {s s' : InflateState} (h : Expects f hd rest s b)
    (he : (s'.head, s'.wrap, s'.flags, s'.check) = (s.head, s.wrap, s.flags, s.check))
    (hm : s'.mode = s.mode) (hl : s'.length = s.length) : Expects f hd rest s' b := by
  have hpar : ∀ {head seen b}, Parsing f rest s head seen b → Parsing f rest s' head seen b :=
    fun h => h.congr he
  simp only [Prod.mk.injEq] at he
  obtain ⟨h1, h2, h3, h4⟩ := he
  unfold Expects at h ⊢
  rw [hm, h1, h2, h4, hl]
  generalize s.mode = m at h ⊢
  cases m <;> dsimp only at h ⊢
  case time | os | exlen =>
    obtain ⟨seen, hp, hb⟩ := h
    exact ⟨seen, hpar hp, hb⟩
  case extra | name | comment =>
    obtain ⟨seen, p, q, hp, hb⟩ := h
    exact ⟨seen, p, q, hpar hp, hb⟩
  case hcrc => exact ⟨hpar h.1, h.2⟩
  all_goals exact h

/-- In the header, it is not yet done. -/
theorem Expects.notDone {s : InflateState} (h : Expects f hd rest s b) (hm : s.mode.inHeader = true) :
    ∃ head, s.head = some head ∧ head.done = 0 := by
  unfold Expects at h
  generalize s.mode = m at h hm
  cases m <;> dsimp only at h <;> try cases hm
  case head => exact ⟨_, h.1, rfl⟩
  case flags => exact ⟨_, h.1, rfl⟩
  case time | os | exlen =>
    obtain ⟨seen, hp, -⟩ := h
    exact ⟨_, hp.head, rfl⟩
  case extra | name | comment =>
    obtain ⟨seen, p, q, hp, -⟩ := h
    exact ⟨_, hp.head, rfl⟩
  case hcrc => exact ⟨_, h.1.head, rfl⟩


/-- `inflateGetHeader`. -/
def InflateStream.inflateGetHeader (strm : InflateStream) (head : GzHeader) : Ret × InflateStream :=
  if strm.st.wrap &&& 2 = 0 then (.streamError, strm)
  else (.ok, { strm with st := { strm.st with head := some { head with done := 0 } } })

namespace Session
variable {s s' s₀ : Session} {mem : Int → UInt8} {nextIn : Int} {availIn availOut : Nat} {flush : Flush}
  {ret : Ret}

/-- The stream with a structure for the header. -/
def getHeader (s : Session) (head : GzHeader) : Ret × Session :=
  let (ret, strm) := s.strm.inflateGetHeader head
  (ret, { s with strm := strm })

/-- Runs of `inflate` that offer some bytes in order, in any pieces. -/
inductive Fed (bytes : List UInt8) (s₀ : Session) : Session → Prop
  | start : Fed bytes s₀ s₀
  | call {s s' : Session} {mem : Int → UInt8} {nextIn : Int} {availIn availOut : Nat} {flush : Flush}
      {ret : Ret} (h : Fed bytes s₀ s)
      (hin : bytesAt mem nextIn availIn <+: bytes.drop s.taken.toNat)
      (hcall : s.call (.inflate mem nextIn availIn availOut flush) = some (ret, s')) : Fed bytes s₀ s'

/-- Where a stream stands that is given a header: inside it, or past it with the structure filled. -/
def HeaderRead (f : Gzip.Fields) (hd : GzHeader) (rest : List UInt8) (s : Session) : Prop :=
  (s.strm.st.mode.inHeader = true ∧ s.taken < f.bytes.length ∧
    ∃ b, BitStream.append ⟨s.strm.hold, s.strm.bits, s.strm.lt⟩
        (ofBytes ((f.bytes ++ rest).drop s.taken.toNat)) = ofBytes b ∧
      Expects f hd rest s.strm.st b) ∨
  (s.strm.st.head = some (f.restore hd) ∧ 1 ≤ s.strm.st.mode.phase ∧ f.bytes.length ≤ s.taken)

/-- The bytes that are not yet given, in a call that is given what comes next. -/
theorem exists_later {bytes : List UInt8} {n : Nat} (hin : bytesAt mem nextIn availIn <+: bytes.drop n) :
    bytesAt mem nextIn availIn ++ bytes.drop (n + availIn) = bytes.drop n := by
  obtain ⟨t, ht⟩ := hin
  have hdrop := congrArg (List.drop availIn) ht
  rw [List.drop_left' (length_bytesAt ..), List.drop_drop] at hdrop
  rw [← hdrop, ht]

/-- A call begins where the last one ended. -/
theorem HeaderRead.load (availOut : Nat) (h : s.HeaderRead f hd rest)
    (hin : bytesAt mem nextIn availIn <+: (f.bytes ++ rest).drop s.taken.toNat) :
    (s.load mem nextIn availIn availOut).HeaderAt f hd rest
      ((f.bytes ++ rest).drop (s.taken.toNat + availIn)) := by
  have hlater := exists_later hin
  rcases h with ⟨hm, htaken, b, hb, hexp⟩ | ⟨hhead, hphase, htaken⟩
  · have hst : (s.load mem nextIn availIn availOut).st = s.strm.st :=
      load_mode mem nextIn availIn availOut (by
        intro ht
        rw [ht] at hm
        cases hm)
    refine .inl ⟨⟨b, ?_, by rw [hst]; exact hexp⟩, by rw [hst]; exact hm⟩
    rw [← hb, ← hlater, ofBytes_append, ← append_assoc]
    rfl
  · have hlen := congrArg List.length hlater
    rw [List.length_append, length_bytesAt, List.length_drop, List.length_drop, List.length_append] at hlen
    refine .inr ⟨?_, ?_, ?_⟩
    · unfold Session.load InflateStream.load feed
      dsimp only
      split <;> exact hhead
    · unfold Session.load InflateStream.load feed
      dsimp only
      split
      · exact le_rfl
      · exact hphase
    · change availIn + _ ≤ _
      rw [List.length_drop, List.length_append]
      omega

/-- A call goes on where the last one ended; one that ends inside the header has taken all its
input. -/
theorem HeaderRead.call (hf : f.Ok) (h : s.Inv) (hr : s.HeaderRead f hd rest) (h0 : 0 ≤ s.taken)
    (hin : bytesAt mem nextIn availIn <+: (f.bytes ++ rest).drop s.taken.toNat)
    (hcall : s.call (.inflate mem nextIn availIn availOut flush) = some (ret, s')) :
    s'.HeaderRead f hd rest ∧ 0 ≤ s'.taken ∧
      (s'.taken = s.taken + availIn ∨ f.bytes.length ≤ s'.taken) := by
  obtain ⟨hgood, hlazy, hwin⟩ := h.load mem nextIn availIn availOut
  have hat := hr.load availOut hin
  have hnext : (s.load mem nextIn availIn availOut).acc.next = nextIn := rfl
  have hhave : (s.load mem nextIn availIn availOut).acc.have_ = availIn := rfl
  have hlater : ((f.bytes ++ rest).drop (s.taken.toNat + availIn)).length =
      f.bytes.length + rest.length - (s.taken.toNat + availIn) := by
    rw [List.length_drop, List.length_append]
  obtain ⟨⟨ret', strm, bytes⟩, hx, hreturned⟩ := h.returned mem nextIn availIn availOut flush
  unfold Session.call at hcall
  dsimp only at hcall
  rw [hx] at hcall
  obtain ⟨rfl, rfl⟩ : ret' = ret ∧ _ = s' := by simpa using hcall
  cases hreturned with
  | @leave r r' code hp hs hgood' hfol he =>
    have hends := hfol.ends
    have hle := hfol.have_le
    have hbounds := (hwin.follows hfol).bounds.2
    obtain ⟨d, heq⟩ := InflateStream.infLeave_eq (s.feed nextIn availIn availOut) flush code r' hbounds
    obtain ⟨wsize, whave, wnext, window, adler, check, hst, hhash⟩ := Regs.leaveState_eq flush code hbounds
    obtain ⟨hgood₁, hfol₁⟩ := Regs.Passes.good hp hgood hlazy
    have hstep := Regs.step_good flush hgood₁ (hfol₁.lazy hlazy)
    rw [hs] at hstep
    obtain ⟨-, hfol₂, -⟩ := hstep
    rw [heq, hst]
    dsimp only [InflateStream.restore]
    rcases Regs.Passes.header hf hp hgood hlazy hat with ⟨hreads, hm⟩ | ⟨hhead, hphase, hunread⟩
    · have hpar := Regs.step_parses flush hf hgood₁ hreads hm
      rw [hs] at hpar
      obtain ⟨-, hempty, ⟨b, hb, hexp⟩, hmode, hshort⟩ := hpar
      have hcheck : check = r'.st.check := by
        have hm' : r'.st.mode.phase = 0 := by
          rw [hmode]
          exact (Mode.inHeader_iff _).mp hm
        obtain ⟨hout, -, -⟩ := hgood'.header hm'
        have hmark := hgood'.early (by omega)
        rcases hhash with hhash | hhash
        · exact hhash
        · rw [hhash, Regs.pending_of_eq hmark, hout, List.reverse_nil, InflateState.hash_nil]
      have htaken : s.taken + (r'.acc.next - nextIn) = s.taken + availIn := by omega
      have hnat : (s.taken + (availIn : Int)).toNat = s.taken.toNat + availIn := by omega
      have hbefore : s.taken + availIn < f.bytes.length := by omega
      have hpos : 0 ≤ s.taken + (availIn : Int) := by omega
      rw [htaken]
      refine ⟨.inl ⟨by rw [← hm, ← hmode], hbefore, b, ?_, ?_⟩, hpos, .inl rfl⟩
      · rw [hnat, ← hb, ← BitReader.held_of_empty hempty]
        rfl
      · refine hexp.congr ?_ rfl rfl
        rw [hcheck]
    · have hkept := Regs.step_head flush hgood₁ hphase
      rw [hs] at hkept
      have hle₂ := hfol₂.have_le
      have hpast : (f.bytes.length : Int) ≤ s.taken + (r'.acc.next - nextIn) := by omega
      have hpos : 0 ≤ s.taken + (r'.acc.next - nextIn) := by omega
      exact ⟨.inr ⟨hkept.trans hhead, hphase.trans hfol₂.phase, hpast⟩, hpos, .inr hpast⟩
  | @needDict r hp hm hs hgood' hfol =>
    -- a gzip header asks for no dictionary
    rcases Regs.Passes.header hf hp hgood hlazy hat with ⟨⟨b, -, hexp⟩, -⟩ | ⟨-, hphase, -⟩
    · simp only [Expects, hm] at hexp
    · rw [hm] at hphase
      exact absurd hphase (by decide)
  | sync hm =>
    rcases hr with ⟨hm', -⟩ | ⟨hhead, hphase, htaken⟩
    · rw [hm] at hm'
      cases hm'
    · have hsame : s.taken + ((s.feed nextIn availIn availOut).nextIn - nextIn) = s.taken := by
        dsimp only [feed]
        omega
      dsimp only
      rw [hsame]
      exact ⟨.inr ⟨hhead, hphase, htaken⟩, h0, .inr htaken⟩

end Session
end ZlibNg
