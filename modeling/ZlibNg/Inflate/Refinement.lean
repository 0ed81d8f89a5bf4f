import ZlibNg.Inflate.HeaderCalls
import ZlibNg.Inflate.Simulation

/-! Every pass of the loop of `inflate`, in the header, the blocks and the trailer, is steps of the
abstract machine, which sees all the input at once. -/
namespace ZlibNg
open BitProg

namespace InflateState
variable {s d : InflateState}

theorem headerCheck_append (xs ys : List UInt8) :
    (s.headerCheck xs).headerCheck ys = s.headerCheck (xs ++ ys) := by
  rw [headerCheck_eq, headerCheck_eq, headerCheck_eq (xs ++ ys)]
  dsimp only
  split
  · rw [crc32_append]
  · rfl

theorem headerCheck_nil : s.headerCheck [] = s := by
  rw [headerCheck_eq, crc32_nil, ite_self]

/-- Without a structure for the header nothing of it is saved. -/
theorem foldl_saveName (h : s.head = none) (bytes : List UInt8) : bytes.foldl saveName s = s := by
  induction bytes with
  | nil => rfl
  | cons b bytes ih =>
    have hone : s.saveName b = s := by rw [saveName, h]
    rw [List.foldl_cons, hone, ih]

theorem foldl_saveComment (h : s.head = none) (bytes : List UInt8) :
    bytes.foldl saveComment s = s := by
  induction bytes with
  | nil => rfl
  | cons b bytes ih =>
    have hone : s.saveComment b = s := by rw [saveComment, h]
    rw [List.foldl_cons, hone, ih]

theorem withHead_none (h : s.head = none) (f : GzHeader → GzHeader) : s.withHead f = s := by
  cases s
  dsimp only at h
  subst h
  rfl

end InflateState

/-- The bits of a byte before later bits. -/
theorem BitStream.ofBytes_cons_append (b : UInt8) (bytes : List UInt8) (v : BitStream) :
    (ofBytes (b :: bytes)).append v = (ofBytes [b]).append ((ofBytes bytes).append v) := by
  rw [← List.singleton_append, ofBytes_append, append_assoc]

namespace Decoder
variable {reach : Nat → Nat} {d d' : Decoder}

theorem takeByte_cons {d : Decoder} {b : UInt8} {v : BitStream}
    (hs : d.stream = (BitStream.ofBytes [b]).append v) (f : UInt8 → Decoder → Decoder) :
    d.takeByte f = some (f b { d with stream := v }) := by
  have hlen : 8 ≤ d.stream.len := by
    rw [hs, BitStream.append_len]
    exact Nat.le_add_right _ _
  have hpeek : d.stream.peek 8 = b.toNat := by
    rw [hs, BitStream.peek_append (Nat.le_refl 8), BitStream.peek, BitStream.ofBytes_val, leNat_cons,
      leNat_nil, Nat.mul_zero, Nat.add_zero, Nat.mod_eq_of_lt b.toNat_lt]
  have hdrop : d.stream.drop 8 = v := by
    rw [hs]
    have h := BitStream.drop_ofBytes [b] []
    rw [List.append_nil] at h
    rw [BitStream.drop_append (Nat.le_refl 8), show 8 = 8 * [b].length from rfl, h, BitStream.nil_append]
  rw [takeByte, if_pos hlen, hpeek, hdrop, UInt8.ofNat_toNat]

theorem Within.steps (h : d.Within reach d') : d.Steps reach d' := by
  induction h with
  | refl => exact .refl
  | tail _ hstep ih => exact ih.tail hstep.2

/-- Bytes of the extra field are read. -/
theorem extra_steps {s : InflateState} {bytes : List UInt8} (hm : s.mode = .extra)
    (hf : s.flags &&& 0x0400 ≠ 0) (hlen : bytes.length ≤ s.length) (v : BitStream) (hist : List UInt8) :
    Steps reach ⟨s, (BitStream.ofBytes bytes).append v, hist⟩
      ⟨{ s.headerCheck bytes with length := s.length - bytes.length }, v, hist⟩ := by
  induction bytes generalizing s with
  | nil =>
    rw [BitStream.nil_append, InflateState.headerCheck_nil]
    exact .refl
  | cons b bytes ih =>
    rw [List.length_cons] at hlen ⊢
    have hnext : next reach ⟨s, (BitStream.ofBytes (b :: bytes)).append v, hist⟩ =
        some ⟨{ s.headerCheck [b] with length := s.length - 1 }, (BitStream.ofBytes bytes).append v,
          hist⟩ := by
      have htake := @takeByte_cons ⟨s, (BitStream.ofBytes (b :: bytes)).append v, hist⟩ b
        ((BitStream.ofBytes bytes).append v) (BitStream.ofBytes_cons_append b bytes v)
      unfold next
      dsimp only
      rw [hm]
      dsimp only
      rw [if_pos ⟨hf, by omega⟩, htake]
    have hrest := @ih { s.headerCheck [b] with length := s.length - 1 }
      (by dsimp only; rw [InflateState.headerCheck_mode]; exact hm)
      (by dsimp only; rw [InflateState.headerCheck_flags]; exact hf) (by dsimp only; omega)
    have hend : ({ InflateState.headerCheck { s.headerCheck [b] with length := s.length - 1 } bytes with
        length := s.length - 1 - bytes.length } : InflateState) =
        { s.headerCheck (b :: bytes) with length := s.length - (bytes.length + 1) } := by
      rw [show b :: bytes = [b] ++ bytes from rfl, ← InflateState.headerCheck_append]
      rw [InflateState.headerCheck_eq bytes, InflateState.headerCheck_eq bytes]
      dsimp only
      rw [Nat.sub_sub, Nat.add_comm 1]
    dsimp only at hrest
    rw [hend] at hrest
    exact .head hnext hrest

/-- The name or the comment. -/
def inString (m : Mode) (s : InflateState) : Prop :=
  (m = .name ∧ s.flags &&& 0x0800 ≠ 0) ∨ (m = .comment ∧ s.flags &&& 0x1000 ≠ 0)

/-- What follows a string. -/
def afterString (s : InflateState) : InflateState :=
  if s.mode = .name then { s with length := 0, mode := .comment } else { s with mode := .hcrc }

theorem inString.next_eq {s : InflateState} {b : UInt8} {v : BitStream} {hist : List UInt8}
    (h : inString s.mode s) : next reach ⟨s, (BitStream.ofBytes [b]).append v, hist⟩ =
      some ⟨if b = 0 then afterString (s.headerCheck [b]) else s.headerCheck [b], v, hist⟩ := by
  have htake := @takeByte_cons ⟨s, (BitStream.ofBytes [b]).append v, hist⟩ b v rfl
  unfold next afterString
  rw [InflateState.headerCheck_mode]
  dsimp only
  rcases h with ⟨hm, hf⟩ | ⟨hm, hf⟩
  · rw [hm]
    dsimp only
    rw [if_pos hf, htake]
    rfl
  · rw [hm]
    dsimp only
    rw [if_pos hf, htake]
    rfl

theorem inString.next_none {s : InflateState} {v : BitStream} {hist : List UInt8}
    (h : inString s.mode s) (hv : v.len = 0) : next reach ⟨s, v, hist⟩ = none := by
  have htake : ∀ f, takeByte ⟨s, v, hist⟩ f = none := fun f => by
    rw [takeByte, if_neg (by dsimp only; omega)]
  unfold next
  dsimp only
  rcases h with ⟨hm, hf⟩ | ⟨hm, hf⟩
  · rw [hm]
    dsimp only
    rw [if_pos hf, htake]
  · rw [hm]
    dsimp only
    rw [if_pos hf, htake]

theorem takeString_prefix (bytes : List UInt8) : takeString bytes <+: bytes := by
  induction bytes with
  | nil => exact List.prefix_rfl
  | cons b bytes ih =>
    rw [takeString]
    split
    · exact ⟨bytes, rfl⟩
    · exact (List.cons_prefix_cons).mpr ⟨rfl, ih⟩

theorem takeString_takeString (bytes : List UInt8) :
    takeString (takeString bytes) = takeString bytes := by
  induction bytes with
  | nil => rfl
  | cons b bytes ih =>
    rw [takeString]
    split
    · next h0 => rw [takeString, if_pos h0]
    · next h0 => rw [takeString, if_neg h0, ih]

/-- A string, or the part of it that is there. -/
theorem string_steps {s : InflateState} {bytes : List UInt8} (h : inString s.mode s)
    (hb : takeString bytes = bytes) (v : BitStream) (hist : List UInt8) :
    Steps reach ⟨s, (BitStream.ofBytes bytes).append v, hist⟩
      ⟨if bytes.getLastD 0 = 0 ∧ bytes ≠ [] then afterString (s.headerCheck bytes)
        else s.headerCheck bytes, v, hist⟩ := by
  induction bytes generalizing s with
  | nil =>
    rw [BitStream.nil_append, InflateState.headerCheck_nil, if_neg (fun h => h.2 rfl)]
    exact .refl
  | cons b bytes ih =>
    have hnext := @inString.next_eq reach s b ((BitStream.ofBytes bytes).append v) hist h
    rw [BitStream.ofBytes_cons_append]
    rw [takeString] at hb
    split at hb
    · next h0 =>
      obtain rfl : bytes = [] := ((List.cons.inj hb).2).symm
      rw [if_pos h0] at hnext
      rw [if_pos ⟨by rw [h0]; rfl, List.cons_ne_nil _ _⟩]
      rw [BitStream.nil_append] at hnext ⊢
      exact .single hnext
    · next h0 =>
      rw [if_neg h0] at hnext
      have hrest := @ih (s.headerCheck [b])
        (by unfold inString at h ⊢; rw [InflateState.headerCheck_mode, InflateState.headerCheck_flags]; exact h)
        (List.cons.inj hb).2
      rw [InflateState.headerCheck_append] at hrest
      have hlast : ((b :: bytes).getLastD 0 = 0 ∧ b :: bytes ≠ []) ↔
          (bytes.getLastD 0 = 0 ∧ bytes ≠ []) := by
        cases bytes with
        | nil => simp [h0]
        | cons c bytes => simp
      simp only [hlast]
      exact .head hnext hrest

end Decoder

namespace Regs
variable {past rest : List UInt8} {start : Nat} {r r' : Regs} {d d' : Decoder} {flush : Flush}

/-- The machine stands where the loop of `inflate` does, in a call that began after the output
`past`, without a structure for the header and with a window of 32K bytes; `rest` is the input that
the call is not given. -/
structure Tracks (past rest : List UInt8) (r : Regs) (d : Decoder) : Prop where
  live : r.st.live = d.st.live
  stream : d.stream = r.acc.stream.append (.ofBytes rest)
  out : d.hist = r.out ++ past
  head : r.st.head = none
  wbits : r.st.wbits = 15

/-- The machine can follow to where a pass ends. Where the loop waits although it is given all the
input, and does not wait for space, the machine has come to its end. -/
def Followed (past rest : List UInt8) (d : Decoder) : Ctl → Prop
  | .loop r' => ∃ d', d.Steps id d' ∧ r'.Tracks past rest d'
  | .leave _ r' => ∃ d', d.Steps id d' ∧ r'.Tracks past rest d' ∧
      ((rest = [] → d'.next id = none) ∨ r'.Full)
  | .ret _ r' => r'.Tracks past rest d ∧ d.next id = none

theorem Tracks.shows (h : r.Tracks past rest d) (hm : r.st.mode ≠ .type ∧ r.st.mode ≠ .typedo) :
    r.Shows past r.mark rest d :=
  ⟨h.live, InflateState.mode_of_live h.live rfl hm, h.stream, h.out, rfl⟩

/-- A case that reads bits. -/
theorem runCase_followed {p q : CaseProg} {L : Nat → Prop} (hwp : p.wp true r.acc.bits 0 L Fine)
    (hagree : Agree r.st.Alike p q) (h : r.Tracks past rest d) (hnext : d.next id = d.runCase q) :
    Followed past rest d (r.runCase .noFlush p) := by
  have hspec := run_spec p hwp
  unfold runCase
  generalize p.run r.acc = res at hspec ⊢
  cases res with
  | leave acc =>
    obtain ⟨-, hleft⟩ := hspec
    refine ⟨d, .refl, ⟨h.live, ?_, h.out, h.head, h.wbits⟩, .inl fun hrest => ?_⟩
    · rw [h.stream, hleft.stream]
    · rw [hnext, Decoder.runCase, h.stream, hrest, BitStream.append_nil,
        InflateState.Agree.none hagree hleft.stuck]
      rfl
  | done st acc =>
    have hs := hspec.stream rest
    rcases agree_runStream hagree 0 d.stream with ⟨hnone, -⟩ | ⟨a, b, v', ha, hb, hlive, hkeeps⟩
    · rw [← h.stream, hnone] at hs
      cases hs
    · rw [← h.stream, ha] at hs
      obtain ⟨rfl, rfl⟩ : a = st ∧ v' = acc.stream.append (.ofBytes rest) := by simpa using hs
      dsimp only
      rw [if_neg (fun ht => by cases ht.1)]
      refine ⟨⟨b, _, d.hist⟩, .single ?_, hlive, rfl, h.out, hkeeps.head h.head, ?_⟩
      · rw [hnext, Decoder.runCase, hb]
        rfl
      · exact (hkeeps.wbits (.inl (by rw [h.wbits]; decide))).trans h.wbits

/-- A case of the switch that reads bits, in any part of the data. -/
theorem bitCase_followed {p : CaseProg} (hgood : r.Good past start) (h : r.Tracks past rest d)
    (hp : r.st.bitCase = some p) : Followed past rest d (r.runCase .noFlush p) := by
  have hwp := InflateState.bitCase_wp hp hgood.ok hgood.bits
  by_cases hlength : r.st.mode = .length
  · have hd := InflateState.mode_of_live h.live hlength (by decide)
    rw [InflateState.bitCase, hlength] at hp
    obtain rfl := Option.some.inj hp
    refine runCase_followed hwp (InflateState.caseLength_agree (d := { d.st with total := d.hist.length })
      hlength h.live fun hw => ?_) h ?_
    · obtain ⟨-, htotal⟩ := hgood.trailer (.inl (by rw [hlength]; rfl)) hw
      rw [htotal, h.out]
    · unfold Decoder.next
      rw [hd]
  · obtain ⟨q, hq, hagree⟩ := InflateState.bitCase_agree h.live hgood.ok (fun hm => absurd hm hlength) hp
    refine runCase_followed hwp hagree h (Decoder.next_prog hq fun hd => hlength ?_)
    exact InflateState.mode_of_live h.live.symm hd (by decide)

/-- The check value is compared with that of all the output. -/
theorem caseCheck_followed (hgood : r.Good past start) (h : r.Tracks past rest d)
    (hm : r.st.mode = .check) : Followed past rest d r.caseCheck := by
  have hbits := hgood.bits
  have hsettle := hgood.settle hm
  have hd := InflateState.mode_of_live h.live hm (by decide)
  have hflags : d.st.flags = r.st.flags := (congrArg InflateState.flags h.live).symm
  obtain ⟨c, a, heq⟩ := settle_eq r
  have hwp := InflateState.caseCheck_wp (s := r.settle) (b := r.acc.bits) (by rw [heq]; exact hm)
    (by rw [heq]; exact hbits)
  have hlive : r.settle.live = { d.st with
      check := hashOf d.st.flags d.hist.reverse, total := d.hist.length }.live := by
    have hleft : r.settle.live = r.st.live := by
      rw [heq]
      exact InflateState.accounts_live fun hin => by rw [hm] at hin; cases hin
    have hright : { d.st with
        check := hashOf d.st.flags d.hist.reverse, total := d.hist.length }.live = d.st.live :=
      InflateState.accounts_live fun hin => by rw [hd] at hin; cases hin
    rw [hleft, hright]
    exact h.live
  have hagree := InflateState.caseCheck_agree (by rw [heq]; exact hm) hlive fun hw => by
    rw [heq] at hw
    rw [(hsettle hw).1, checkOf, h.out, hflags]
  have hnext : d.next id = d.runCase { d.st with
      check := hashOf d.st.flags d.hist.reverse, total := d.hist.length }.caseCheck := by
    unfold Decoder.next
    rw [hd]
  have hspec := run_spec r.settle.caseCheck hwp
  unfold caseCheck
  generalize r.settle.caseCheck.run r.acc = res at hspec ⊢
  cases res with
  | leave acc =>
    obtain ⟨-, hleft⟩ := hspec
    refine ⟨d, .refl, ⟨h.live, ?_, h.out, h.head, h.wbits⟩, .inl fun hrest => ?_⟩
    · rw [h.stream, hleft.stream]
    · rw [hnext, Decoder.runCase, h.stream, hrest, BitStream.append_nil,
        InflateState.Agree.none hagree hleft.stuck]
      rfl
  | done st acc =>
    have hs := hspec.stream rest
    rcases agree_runStream hagree 0 d.stream with ⟨hnone, -⟩ | ⟨a', b, v', ha, hb, hlive', hkeeps⟩
    · rw [← h.stream, hnone] at hs
      cases hs
    · have ha' := ha
      rw [← h.stream, ha] at hs
      obtain ⟨rfl, rfl⟩ : a' = st ∧ v' = acc.stream.append (.ofBytes rest) := by simpa using hs
      have hstep : d.next id = some ⟨b, acc.stream.append (.ofBytes rest), d.hist⟩ := by
        rw [hnext, Decoder.runCase, hb]
        rfl
      dsimp only
      split
      · refine ⟨_, .single hstep, hlive', rfl, h.out, hkeeps.head ?_, ?_⟩
        · rw [heq]
          exact h.head
        · rw [hkeeps.wbits (.inl (by rw [heq]; dsimp only; rw [h.wbits]; decide)), heq]
          exact h.wbits
      · next hw =>
        -- without a check value the accounts stay as they are
        have hw' : r.settle.wrap = 0 := by
          rw [heq]
          exact not_not.mp hw
        rw [caseCheck_runStream, if_pos hw'] at ha'
        obtain ⟨rfl, -⟩ := Prod.mk.inj (Option.some.inj ha')
        refine ⟨_, .single hstep, ?_, rfl, h.out, h.head, h.wbits⟩
        rw [← hlive', heq]
        unfold InflateState.live
        dsimp only [Mode.live, Mode.inHeader, Mode.usesLength, Mode.usesOffset, Mode.usesExtra]
        rfl

/-- Input that is taken as it is. -/
theorem stream_advance (hbits : r.acc.bits = 0) {n : Nat} (hn : n ≤ r.acc.have_) (v : BitStream) :
    r.acc.stream.append v = (BitStream.ofBytes (bytesAt r.acc.mem r.acc.next n)).append
      ((r.acc.advance n).stream.append v) := by
  have hheld : ∀ v, r.acc.held.append v = v := by
    intro v
    have hnil : r.acc.held = BitStream.ofBytes [] := by
      have hlt := r.acc.lt
      rw [hbits, Nat.pow_zero, Nat.lt_one_iff] at hlt
      ext
      · exact hlt
      · exact hbits
    rw [hnil, BitStream.nil_append]
  have hsum : r.acc.have_ = n + (r.acc.have_ - n) := by omega
  have hadv : (r.acc.advance n).held = r.acc.held := rfl
  rw [BitReader.stream, BitReader.stream, hadv, hheld, hheld, hsum, bytesAt_add,
    BitStream.ofBytes_append, BitStream.append_assoc]
  simp only [BitReader.advance]

theorem headerCheck_live {s d : InflateState} (h : s.live = d.live) (hm : s.mode.inHeader = true)
    (bytes : List UInt8) : (s.headerCheck bytes).live = (d.headerCheck bytes).live := by
  have hd : d.mode = s.mode := by
    refine InflateState.mode_of_live h rfl ?_
    constructor <;> intro ht <;> rw [ht] at hm <;> cases hm
  obtain ⟨x, rfl⟩ : ∃ x, d = s.patch x := ⟨d, InflateState.eq_patch h hd⟩
  rw [InflateState.headerCheck_eq, InflateState.headerCheck_eq]
  unfold InflateState.live
  dsimp only
  rw [hm]
  cases s.mode.usesLength <;> cases s.mode.usesOffset <;> cases s.mode.usesExtra <;> rfl

/-- The extra field. -/
theorem caseExtra_followed (hgood : r.Good past start) (h : r.Tracks past rest d)
    (hm : r.st.mode = .extra) : Followed past rest d r.caseExtra := by
  have hbits := hgood.bits
  simp only [InflateState.BitsOk, hm] at hbits
  have hd := InflateState.mode_of_live h.live hm (by decide)
  obtain ⟨x, hx⟩ : ∃ x, d.st = r.st.patch x :=
    ⟨d.st, InflateState.eq_patch h.live (hd.trans hm.symm)⟩
  have hlength : d.st.length = r.st.length := by
    rw [hx]
    simp only [hm, Mode.usesLength, cond_true]
  have hflags : d.st.flags = r.st.flags := (congrArg InflateState.flags h.live).symm
  -- what follows the field
  have hend : ∀ {r₁ : Regs} {d₁ : Decoder}, d.Steps id d₁ → r₁.Tracks past rest d₁ →
      r₁.st.mode = .extra → ¬(d₁.st.flags &&& 0x0400 ≠ 0 ∧ d₁.st.length ≠ 0) →
      Followed past rest d (.loop { r₁ with st := { r₁.st with length := 0, mode := .name } }) := by
    intro r₁ d₁ hsteps h₁ hm₁ hcond
    have hd₁ := InflateState.mode_of_live h₁.live hm₁ (by decide)
    have hnext : d₁.next id = some { d₁ with st := { d₁.st with length := 0, mode := .name } } := by
      unfold Decoder.next
      rw [hd₁]
      dsimp only
      rw [if_neg hcond]
    refine ⟨_, hsteps.tail hnext, ?_, h₁.stream, h₁.out, h₁.head, h₁.wbits⟩
    rw [InflateState.eq_patch h₁.live (hd₁.trans hm₁.symm)]
    generalize r₁.st = s at hm₁ ⊢
    cases s
    subst hm₁
    rfl
  unfold caseExtra
  split
  · next hf =>
    dsimp only
    generalize hn : min r.st.length r.acc.have_ = n
    have hsave : r.st.saveExtra (bytesAt r.acc.mem r.acc.next n) = r.st :=
      InflateState.withHead_none h.head _
    have hstream := stream_advance hbits (show n ≤ r.acc.have_ by omega) (.ofBytes rest)
    have hsteps := @Decoder.extra_steps id d.st (bytesAt r.acc.mem r.acc.next n) hd
      (by rw [hflags]; exact hf) (by rw [length_bytesAt, hlength]; omega)
      ((r.acc.advance n).stream.append (.ofBytes rest)) d.hist
    rw [← hstream, ← h.stream, length_bytesAt, hlength] at hsteps
    have hlive : { r.st.headerCheck (bytesAt r.acc.mem r.acc.next n) with length := r.st.length - n }.live
        = { d.st.headerCheck (bytesAt r.acc.mem r.acc.next n) with length := r.st.length - n }.live := by
      rw [hx, InflateState.headerCheck_eq, InflateState.headerCheck_eq]
      generalize r.st = s at hm ⊢
      cases s
      subst hm
      rfl
    have h₁ : Tracks past rest { r with
        st := { r.st.headerCheck (bytesAt r.acc.mem r.acc.next n) with length := r.st.length - n }
        acc := r.acc.advance n }
        ⟨{ d.st.headerCheck (bytesAt r.acc.mem r.acc.next n) with length := r.st.length - n },
          (r.acc.advance n).stream.append (.ofBytes rest), d.hist⟩ := by
      refine ⟨hlive, rfl, h.out, ?_, ?_⟩
      · rw [InflateState.headerCheck_eq]
        exact h.head
      · rw [InflateState.headerCheck_eq]
        exact h.wbits
    have hlen' : (r.st.headerCheck (bytesAt r.acc.mem r.acc.next n)).length = r.st.length := by
      rw [InflateState.headerCheck_eq]
    have hr : (if n ≠ 0 then { r with
          st := { (r.st.saveExtra (bytesAt r.acc.mem r.acc.next n)).headerCheck
              (bytesAt r.acc.mem r.acc.next n) with
            length := ((r.st.saveExtra (bytesAt r.acc.mem r.acc.next n)).headerCheck
              (bytesAt r.acc.mem r.acc.next n)).length - n }
          acc := r.acc.advance n } else r) = { r with
        st := { r.st.headerCheck (bytesAt r.acc.mem r.acc.next n) with length := r.st.length - n }
        acc := r.acc.advance n } := by
      rw [hsave, hlen']
      split
      · rfl
      · next h0 =>
        obtain rfl := not_not.mp h0
        rw [show bytesAt r.acc.mem r.acc.next 0 = [] from rfl, InflateState.headerCheck_nil]
        simp only [BitReader.advance, Nat.sub_zero]
        obtain ⟨st, acc, left, out, mark, totalOut⟩ := r
        obtain ⟨mem, next, have_, hold, bits, lt⟩ := acc
        simp
    rw [hr]
    dsimp only
    split
    · next hleft =>
      refine ⟨_, hsteps, h₁, .inl fun hrest => ?_⟩
      have hempty : r.acc.have_ - n = 0 := by omega
      unfold Decoder.next
      dsimp only
      rw [InflateState.headerCheck_mode, hd]
      dsimp only
      rw [InflateState.headerCheck_flags, hflags, if_pos ⟨hf, hleft⟩, Decoder.takeByte, if_neg]
      dsimp only
      rw [hrest, BitStream.append_nil, BitReader.stream_len]
      simp only [BitReader.advance]
      omega
    · next hleft =>
      have hmode : (r.st.headerCheck (bytesAt r.acc.mem r.acc.next n)).mode = .extra := by
        rw [InflateState.headerCheck_mode]
        exact hm
      exact hend hsteps h₁ hmode fun hc => hleft hc.2
  · next hf => exact hend .refl h hm fun hc => hf (by rw [← hflags]; exact hc.1)

theorem takeString_bytesAt (mem : Int → UInt8) (next : Int) (have_ : Nat) :
    takeString (bytesAt mem next have_) =
      bytesAt mem next (takeString (bytesAt mem next have_)).length := by
  have hpre := List.prefix_iff_eq_take.mp (Decoder.takeString_prefix (bytesAt mem next have_))
  have hle := takeString_length (bytesAt mem next have_)
  rw [length_bytesAt] at hle
  generalize (takeString (bytesAt mem next have_)).length = n at hpre hle
  obtain ⟨k, rfl⟩ := Nat.exists_eq_add_of_le hle
  rw [hpre, bytesAt_add, List.take_left' (length_bytesAt ..)]

/-- The name and the comment. -/
theorem scanString_followed (hgood : r.Good past start) (h : r.Tracks past rest d)
    (hin : Decoder.inString r.st.mode r.st) {save : InflateState → UInt8 → InflateState}
    (hsave : ∀ bytes : List UInt8, bytes.foldl save r.st = r.st) {next : InflateState → InflateState}
    (hnext : ∀ s, s.mode = r.st.mode → next s = Decoder.afterString s) :
    Followed past rest d (r.scanString save next) := by
  have hhead : r.st.mode.inHeader = true ∧ r.st.mode ≠ .type ∧ r.st.mode ≠ .typedo := by
    rcases hin with ⟨hm, -⟩ | ⟨hm, -⟩ <;> rw [hm] <;> decide
  have hbits : r.acc.bits = 0 := by
    have hbits := hgood.bits
    unfold InflateState.BitsOk at hbits
    rcases hin with ⟨hm, -⟩ | ⟨hm, -⟩ <;> simpa only [hm] using hbits
  have hd := InflateState.mode_of_live h.live rfl hhead.2
  have hflags : d.st.flags = r.st.flags := (congrArg InflateState.flags h.live).symm
  have hin' : Decoder.inString d.st.mode d.st := by
    unfold Decoder.inString at hin ⊢
    rw [hd, hflags]
    exact hin
  have hafter : ∀ {s s' : InflateState}, s.live = s'.live → s'.mode = s.mode →
      s.mode = .name ∨ s.mode = .comment →
      (Decoder.afterString s).live = (Decoder.afterString s').live := by
    intro s s' hlive hmode hor
    obtain ⟨x, rfl⟩ : ∃ x, s' = s.patch x := ⟨s', InflateState.eq_patch hlive hmode⟩
    unfold Decoder.afterString
    dsimp only
    rcases hor with hm | hm
    · rw [if_pos hm, if_pos hm]
      unfold InflateState.live
      dsimp only
      rw [hm]
      rfl
    · rw [if_neg (by rw [hm]; decide), if_neg (by rw [hm]; decide)]
      unfold InflateState.live
      dsimp only
      rw [hm]
      rfl
  unfold scanString
  split
  · next h0 =>
    refine ⟨d, .refl, h, .inl fun hrest => Decoder.inString.next_none hin' ?_⟩
    rw [h.stream, hrest, BitStream.append_nil, BitReader.stream_len]
    omega
  · next h0 =>
    have hle := takeString_length (bytesAt r.acc.mem r.acc.next r.acc.have_)
    have hall := takeString_all (b := bytesAt r.acc.mem r.acc.next r.acc.have_)
    have hpos := takeString_pos (b := bytesAt r.acc.mem r.acc.next r.acc.have_) (by
      rw [← List.length_pos_iff, length_bytesAt]
      omega)
    have hidem := Decoder.takeString_takeString (bytesAt r.acc.mem r.acc.next r.acc.have_)
    have hpre : takeString (bytesAt r.acc.mem r.acc.next r.acc.have_) =
        bytesAt r.acc.mem r.acc.next
          (takeString (bytesAt r.acc.mem r.acc.next r.acc.have_)).length :=
      takeString_bytesAt r.acc.mem r.acc.next r.acc.have_
    generalize takeString (bytesAt r.acc.mem r.acc.next r.acc.have_) = bytes at hle hall hpos hidem hpre
    rw [length_bytesAt] at hle
    have hstream := stream_advance hbits hle (.ofBytes rest)
    rw [← hpre, ← h.stream] at hstream
    have hsteps := @Decoder.string_steps id d.st bytes hin' hidem
      ((r.acc.advance bytes.length).stream.append (.ofBytes rest)) d.hist
    rw [← hstream] at hsteps
    have hlive := headerCheck_live h.live hhead.1 bytes
    have hkeep : (r.st.headerCheck bytes).head = none ∧ (r.st.headerCheck bytes).wbits = 15 := by
      rw [InflateState.headerCheck_eq]
      exact ⟨h.head, h.wbits⟩
    have hmode : (d.st.headerCheck bytes).mode = (r.st.headerCheck bytes).mode := by
      rw [InflateState.headerCheck_mode, InflateState.headerCheck_mode]
      exact hd
    have hor : (r.st.headerCheck bytes).mode = .name ∨ (r.st.headerCheck bytes).mode = .comment := by
      rw [InflateState.headerCheck_mode]
      exact hin.imp And.left And.left
    dsimp only
    rw [hsave]
    split
    · next hlast =>
      rw [if_neg (fun hc => hlast hc.1)] at hsteps
      refine ⟨_, hsteps, ⟨hlive, rfl, h.out, hkeep.1, hkeep.2⟩, .inl fun hrest => ?_⟩
      refine Decoder.inString.next_none ?_ ?_
      · unfold Decoder.inString at hin' ⊢
        rw [InflateState.headerCheck_mode, InflateState.headerCheck_flags]
        exact hin'
      · have hlen := congrArg List.length (hall hlast)
        rw [length_bytesAt] at hlen
        rw [hrest, BitStream.append_nil, BitReader.stream_len]
        simp only [BitReader.advance]
        omega
    · next hlast =>
      rw [if_pos ⟨not_not.mp hlast, List.length_pos_iff.mp hpos⟩] at hsteps
      rw [hnext _ (InflateState.headerCheck_mode _)]
      refine ⟨_, hsteps, hafter hlive hmode hor, rfl, h.out, ?_, ?_⟩
      · unfold Decoder.afterString
        split
        · exact hkeep.1
        · exact hkeep.1
      · unfold Decoder.afterString
        split
        · exact hkeep.2
        · exact hkeep.2

theorem caseName_followed (hgood : r.Good past start) (h : r.Tracks past rest d)
    (hm : r.st.mode = .name) : Followed past rest d r.caseName := by
  have hd := InflateState.mode_of_live h.live hm (by decide)
  have hflags : d.st.flags = r.st.flags := (congrArg InflateState.flags h.live).symm
  unfold caseName
  split
  · next hf =>
    refine scanString_followed hgood h (.inl ⟨hm, hf⟩) (InflateState.foldl_saveName h.head) fun s hs => ?_
    rw [Decoder.afterString, if_pos (hs.trans hm)]
  · next hf =>
    rw [InflateState.withHead_none h.head]
    have hnext : d.next id = some { d with st := { d.st with length := 0, mode := .comment } } := by
      unfold Decoder.next
      rw [hd]
      dsimp only
      rw [hflags, if_neg hf]
    refine ⟨_, .single hnext, ?_, h.stream, h.out, h.head, h.wbits⟩
    rw [InflateState.eq_patch h.live (hd.trans hm.symm)]
    generalize r.st = s at hm ⊢
    cases s
    subst hm
    rfl

theorem caseComment_followed (hgood : r.Good past start) (h : r.Tracks past rest d)
    (hm : r.st.mode = .comment) : Followed past rest d r.caseComment := by
  have hd := InflateState.mode_of_live h.live hm (by decide)
  have hflags : d.st.flags = r.st.flags := (congrArg InflateState.flags h.live).symm
  unfold caseComment
  split
  · next hf =>
    refine scanString_followed hgood h (.inr ⟨hm, hf⟩) (InflateState.foldl_saveComment h.head)
      fun s hs => ?_
    rw [Decoder.afterString, if_neg (by rw [hs, hm]; decide)]
  · next hf =>
    rw [InflateState.withHead_none h.head]
    have hnext : d.next id = some { d with st := { d.st with mode := .hcrc } } := by
      unfold Decoder.next
      rw [hd]
      dsimp only
      rw [hflags, if_neg hf]
    refine ⟨_, .single hnext, ?_, h.stream, h.out, h.head, h.wbits⟩
    rw [InflateState.eq_patch h.live (hd.trans hm.symm)]
    generalize r.st = s at hm ⊢
    cases s
    subst hm
    rfl

theorem caseDict_followed (h : r.Tracks past rest d) (hm : r.st.mode = .dict) :
    Followed past rest d r.caseDict := by
  have hd := InflateState.mode_of_live h.live hm (by decide)
  have hhave : d.st.havedict = r.st.havedict := (congrArg InflateState.havedict h.live).symm
  unfold caseDict
  split
  · next hdict =>
    have hnext : d.next id = some { d with st := { d.st with
        adler := adler32InitialValue, check := adler32InitialValue, mode := .type } } := by
      unfold Decoder.next
      rw [hd]
      dsimp only
      rw [hhave, if_pos hdict]
    refine ⟨_, .single hnext, ?_, h.stream, h.out, h.head, h.wbits⟩
    rw [InflateState.eq_patch h.live (hd.trans hm.symm)]
    generalize r.st = s at hm ⊢
    cases s
    subst hm
    rfl
  · next hdict =>
    refine ⟨h, ?_⟩
    unfold Decoder.next
    rw [hd]
    dsimp only
    rw [hhave, if_neg hdict]

/-- A window of 32K bytes holds what a distance can refer to. -/
theorem sameReach_id {s : InflateState} {hist : List UInt8} (hw : WindowOk s hist)
    (hwbits : s.wbits = 15) : SameReach hist s.whave id := by
  intro n hn offset hoffset
  have hall := hw.all
  have hsize := hw.size
  rw [hwbits] at hsize
  unfold callReach id
  omega

/-- The blocks. -/
theorem block_followed (hgood : r.Good past start) (hl : r.Lazy) (hw : Windowed r.st past)
    (h : r.Tracks past rest d) (hm : r.st.mode.phase = 1)
    (hne : r.st.mode ≠ .type ∧ r.st.mode ≠ .typedo) : Followed past rest d (r.step .noFlush) := by
  have hok := hw.ok hm.le
  have hhead := step_head .noFlush hgood (Nat.le_of_eq hm.symm)
  have hgoes := step_goes hgood hl hok (sameReach_id hok h.wbits) (h.shows hne)
    (show Flush.noFlush ≠ .trees by decide) hm hne.1 fun ht => absurd ht hne.2
  have hstep := step_good .noFlush hgood hl
  have hnot : r.st.mode ≠ .head ∨ r.st.wrap = 0 := .inl fun h0 => by rw [h0] at hm; cases hm
  generalize r.step .noFlush = ctl at hhead hgoes hstep ⊢
  cases ctl with
  | loop r' =>
    obtain ⟨-, d', hsteps, hv⟩ := hgoes
    obtain ⟨-, hfollows, -⟩ := hstep
    exact ⟨d', hsteps.steps, hv.live, hv.stream, hv.out, hhead.trans h.head,
      (hfollows.wbits hnot).trans h.wbits⟩
  | leave code r' =>
    obtain ⟨d', hsteps, hv, hend⟩ := hgoes
    obtain ⟨-, hfollows, -⟩ := hstep
    exact ⟨d', hsteps.steps, ⟨hv.live, hv.stream, hv.out, hhead.trans h.head,
      (hfollows.wbits hnot).trans h.wbits⟩, hend⟩
  | ret code r' => exact hgoes.elim

/-- A pass of the loop, in any part of the data. -/
theorem step_followed (hgood : r.Good past start) (hl : r.Lazy) (hw : Windowed r.st past)
    (h : r.Tracks past rest d) : Followed past rest d (r.step .noFlush) := by
  have hcase : ∀ {p}, r.st.bitCase = some p → Followed past rest d (r.runCase .noFlush p) :=
    fun hp => bitCase_followed hgood h hp
  have hblock := block_followed hgood hl hw h
  unfold InflateState.bitCase at hcase
  unfold step at hblock ⊢
  generalize hm : r.st.mode = m at hcase hblock
  cases m
  case extra => exact caseExtra_followed hgood h hm
  case name => exact caseName_followed hgood h hm
  case comment => exact caseComment_followed hgood h hm
  case dict => exact caseDict_followed h hm
  case check => exact caseCheck_followed hgood h hm
  case type =>
    dsimp only
    rw [if_neg (by decide)]
    exact hcase rfl
  case done | bad =>
    refine ⟨d, .refl, h, .inl fun _ => ?_⟩
    unfold Decoder.next
    rw [InflateState.mode_of_live h.live hm (by decide)]
    dsimp only
    rw [InflateState.bitCase, InflateState.mode_of_live h.live hm (by decide)]
  case sync =>
    refine ⟨h, ?_⟩
    unfold Decoder.next
    rw [InflateState.mode_of_live h.live hm (by decide)]
    dsimp only
    rw [InflateState.bitCase, InflateState.mode_of_live h.live hm (by decide)]
  case stored | copy_ | copy | len_ | len | match_ | lit => exact hblock rfl (by decide)
  all_goals exact hcase rfl

/-- What a flush value changes in a case: the pass may leave where it would go on. -/
theorem runCase_flush (flush : Flush) (r : Regs) (p : CaseProg) :
    r.runCase flush p = r.runCase .noFlush p ∨
      ∃ r', r.runCase .noFlush p = .loop r' ∧ r.runCase flush p = .leave .ok r' := by
  unfold runCase
  cases p.run r.acc with
  | leave acc => exact .inl rfl
  | done st acc =>
    dsimp only
    rw [if_neg (show ¬(Flush.noFlush = .trees ∧ _) from fun h => by cases h.1)]
    split
    · exact .inr ⟨_, rfl, rfl⟩
    · exact .inl rfl

/-- `Z_BLOCK` and `Z_TREES` only make a pass leave, before it or after it. -/
theorem step_flush (flush : Flush) (r : Regs) :
    r.step flush = r.step .noFlush ∨ r.step flush = .leave .ok r ∨
      ∃ r', r.step .noFlush = .loop r' ∧ r.step flush = .leave .ok r' := by
  have hcase : ∀ (r₁ : Regs) (p : CaseProg), r₁.runCase flush p = r₁.runCase .noFlush p ∨ r₁.runCase flush p = .leave .ok r ∨
      ∃ r', r₁.runCase .noFlush p = .loop r' ∧ r₁.runCase flush p = .leave .ok r' :=
    fun r₁ p => (runCase_flush flush r₁ p).imp_right .inr
  unfold step
  cases r.st.mode
  case type =>
    dsimp only
    rw [if_neg (show ¬(Flush.noFlush = .block ∨ Flush.noFlush = .trees) by decide)]
    split
    · exact .inr (.inl rfl)
    · exact hcase r _
  case len =>
    dsimp only
    split
    · exact .inl rfl
    · exact hcase _ _
  all_goals first
    | exact .inl rfl
    | exact hcase _ _

/-- The other flush values change nothing in a pass. -/
theorem step_plain (hflush : flush ≠ .block ∧ flush ≠ .trees) (r : Regs) :
    r.step flush = r.step .noFlush := by
  have hcase : ∀ (r₁ : Regs) (p : CaseProg), r₁.runCase flush p = r₁.runCase .noFlush p := by
    intro r₁ p
    rcases runCase_flush flush r₁ p with heq | ⟨r', hloop, hleave⟩
    · exact heq
    · unfold runCase at hleave hloop
      cases hrun : p.run r₁.acc with
      | leave acc =>
        rw [hrun] at hloop
        cases hloop
      | done st acc =>
        rw [hrun] at hleave
        dsimp only at hleave
        rw [if_neg (fun h => hflush.2 h.1)] at hleave
        cases hleave
  unfold step
  cases r.st.mode
  case type =>
    dsimp only
    rw [if_neg (show ¬(Flush.noFlush = .block ∨ Flush.noFlush = .trees) by decide),
      if_neg (fun h => h.elim hflush.1 hflush.2)]
    exact hcase r _
  case len =>
    dsimp only
    split
    · rfl
    · exact hcase _ _
  all_goals first
    | rfl
    | exact hcase _ _

/-- Whatever the flush value, the machine can follow a pass. -/
theorem Tracks.step (hgood : r.Good past start) (hl : r.Lazy) (hw : Windowed r.st past)
    (h : r.Tracks past rest d) {code : Ret} (hs : r.step flush = .loop r' ∨ r.step flush = .leave code r') :
    ∃ d', d.Steps id d' ∧ r'.Tracks past rest d' := by
  have hfollowed := step_followed hgood hl hw h
  have hgoes : ∀ {ctl : Ctl}, Followed past rest d ctl → ctl = .loop r' ∨ ctl = .leave code r' →
      ∃ d', d.Steps id d' ∧ r'.Tracks past rest d' := by
    rintro ctl hf (rfl | rfl)
    · exact hf
    · obtain ⟨d', hsteps, h', -⟩ := hf
      exact ⟨d', hsteps, h'⟩
  rcases step_flush flush r with heq | heq | ⟨r₁, heq, hleave⟩
  · rw [heq] at hs
    exact hgoes hfollowed hs
  · rw [heq] at hs
    rcases hs with hs | hs
    · cases hs
    · obtain ⟨-, rfl⟩ := Ctl.leave.inj hs
      exact ⟨d, .refl, h⟩
  · rw [heq] at hfollowed
    rw [hleave] at hs
    rcases hs with hs | hs
    · cases hs
    · obtain ⟨-, rfl⟩ := Ctl.leave.inj hs
      exact hfollowed

/-- Where a call leaves with space to spare although it is given all the input, and is not asked to
stop at a block, the machine has come to its end. -/
theorem Tracks.leaves (hgood : r.Good past start) (hl : r.Lazy) (hw : Windowed r.st past)
    (h : r.Tracks past rest d) {code : Ret} (hs : r.step flush = .leave code r') :
    ∃ d', d.Steps id d' ∧ r'.Tracks past rest d' ∧
      (flush ≠ .block ∧ flush ≠ .trees → rest = [] → r'.left ≠ 0 → d'.next id = none) := by
  by_cases hflush : flush ≠ .block ∧ flush ≠ .trees
  · have hfollowed := step_followed hgood hl hw h
    rw [← step_plain hflush, hs] at hfollowed
    obtain ⟨d', hsteps, h', hend⟩ := hfollowed
    refine ⟨d', hsteps, h', fun _ hrest hleft => ?_⟩
    rcases hend with hend | hfull
    · exact hend hrest
    · exact absurd hfull.left hleft
  · obtain ⟨d', hsteps, h'⟩ := h.step hgood hl hw (.inr hs)
    exact ⟨d', hsteps, h', fun hplain => absurd hplain hflush⟩

/-- The passes of a call. -/
theorem Tracks.passes (hp : Passes flush r r') (hgood : r.Good past start) (hl : r.Lazy)
    (hw : Windowed r.st past) (h : r.Tracks past rest d) :
    ∃ d', d.Steps id d' ∧ r'.Tracks past rest d' := by
  induction hp with
  | refl => exact ⟨d, .refl, h⟩
  | tail hp₁ hs ih =>
    obtain ⟨hgood₁, hf⟩ := Passes.good hp₁ hgood hl
    obtain ⟨d₁, hsteps, h₁⟩ := ih
    obtain ⟨d', hsteps', h'⟩ := h₁.step hgood₁ (hf.lazy hl) (hw.follows hf)
      (.inl hs : _ ∨ _ = Ctl.leave .ok _)
    exact ⟨d', hsteps.trans hsteps', h'⟩

end Regs

namespace Session
variable {s s' s₀ : Session} {bytes : List UInt8} {d d' : Decoder} {mem : Int → UInt8} {nextIn : Int}
  {availIn availOut : Nat} {flush : Flush} {ret : Ret}

/-- The machine that sees all the bytes at once stands where the stream does between calls. -/
structure Stands (bytes : List UInt8) (s : Session) (d : Decoder) : Prop where
  live : s.strm.st.live = d.st.live
  stream : d.stream = BitStream.append ⟨s.strm.hold, s.strm.bits, s.strm.lt⟩
    (.ofBytes (bytes.drop s.taken.toNat))
  out : d.hist = s.out
  hist : s.hist = s.out
  head : s.strm.st.head = none
  wbits : s.strm.st.wbits = 15
  taken : 0 ≤ s.taken ∧ s.taken ≤ bytes.length

/-- A call begins where the last one ended. -/
theorem Stands.load (h : s.Stands bytes d) (availOut : Nat)
    (hin : bytesAt mem nextIn availIn <+: bytes.drop s.taken.toNat) :
    (s.load mem nextIn availIn availOut).Tracks s.out (bytes.drop (s.taken.toNat + availIn)) d := by
  have hstream : d.stream = (s.load mem nextIn availIn availOut).acc.stream.append
      (.ofBytes (bytes.drop (s.taken.toNat + availIn))) := by
    rw [h.stream, ← exists_later hin, BitStream.ofBytes_append, ← BitStream.append_assoc]
    rfl
  have hst : (s.load mem nextIn availIn availOut).st.live = s.strm.st.live ∧
      (s.load mem nextIn availIn availOut).st.head = s.strm.st.head ∧
      (s.load mem nextIn availIn availOut).st.wbits = s.strm.st.wbits := by
    unfold Session.load InflateStream.load feed
    dsimp only
    split
    · next hm => exact ⟨InflateState.typedo_live hm, rfl, rfl⟩
    · exact ⟨rfl, rfl, rfl⟩
  obtain ⟨hlive, hhead, hwbits⟩ := hst
  exact ⟨hlive.trans h.live, hstream, h.out, hhead.trans h.head, hwbits.trans h.wbits⟩

/-- The input that a call leaves, and what follows it. -/
theorem unread {n k : Nat} (hin : bytesAt mem nextIn availIn <+: bytes.drop n) (hk : k ≤ availIn) :
    bytes.drop (n + k) = bytesAt mem (nextIn + k) (availIn - k) ++ bytes.drop (n + availIn) := by
  have hsplit : bytesAt mem nextIn availIn =
      bytesAt mem nextIn k ++ bytesAt mem (nextIn + k) (availIn - k) := by
    rw [← bytesAt_add]
    congr 1
    omega
  rw [← List.drop_drop, ← exists_later hin, hsplit, List.append_assoc,
    List.drop_left' (length_bytesAt ..)]

/-- The machine can follow a call. It comes to its end where the call is given all the input, ends
with space to spare, and is not asked to stop at a block. -/
theorem Stands.call (h : s.Inv) (hs : s.Stands bytes d)
    (hin : bytesAt mem nextIn availIn <+: bytes.drop s.taken.toNat)
    (hcall : s.call (.inflate mem nextIn availIn availOut flush) = some (ret, s')) :
    ∃ d', d.Steps id d' ∧ s'.Stands bytes d' ∧
      (flush ≠ .block ∧ flush ≠ .trees → s.taken.toNat + availIn = bytes.length →
        s'.strm.availOut ≠ 0 → d'.next id = none) := by
  obtain ⟨hgood, hlazy, hwin⟩ := h.load mem nextIn availIn availOut
  have hload := hs.load availOut hin
  rw [hs.hist] at hwin
  have hle : s.taken.toNat + availIn ≤ bytes.length := by
    have hlen := hin.length_le
    have htaken := hs.taken
    rw [length_bytesAt, List.length_drop] at hlen
    omega
  obtain ⟨⟨ret', strm, out⟩, hx, hreturned⟩ := h.returned mem nextIn availIn availOut flush
  unfold Session.call at hcall
  dsimp only at hcall
  rw [hx] at hcall
  obtain ⟨rfl, rfl⟩ : ret' = ret ∧ _ = s' := by simpa using hcall
  -- the input left by the passes of the call
  have hrest : ∀ {r : Regs}, (s.load mem nextIn availIn availOut).Follows r →
      (0 ≤ s.taken + (r.acc.next - nextIn) ∧ s.taken + (r.acc.next - nextIn) ≤ bytes.length) ∧
      r.acc.stream.append (.ofBytes (bytes.drop (s.taken.toNat + availIn))) =
        r.acc.held.append (.ofBytes (bytes.drop (s.taken + (r.acc.next - nextIn)).toNat)) := by
    intro r hf
    have hends := hf.ends
    have hhave := hf.have_le
    have hmem := hf.mem
    have htaken := hs.taken
    change r.acc.next + r.acc.have_ = nextIn + availIn at hends
    change r.acc.have_ ≤ availIn at hhave
    change r.acc.mem = mem at hmem
    have hnat : (s.taken + (r.acc.next - nextIn)).toNat = s.taken.toNat + (availIn - r.acc.have_) := by
      omega
    have hnext : nextIn + ((availIn - r.acc.have_ : Nat) : Int) = r.acc.next := by omega
    refine ⟨by omega, ?_⟩
    rw [hnat, unread hin (Nat.sub_le _ _), hnext, Nat.sub_sub_self hhave, BitStream.ofBytes_append,
      ← BitStream.append_assoc, BitReader.stream, hmem]
  cases hreturned with
  | @leave r r' code hp hstep hgood' hf he =>
    obtain ⟨hgood₁, hf₁⟩ := Regs.Passes.good hp hgood hlazy
    obtain ⟨d₁, hsteps₁, h₁⟩ := hload.passes hp hgood hlazy hwin
    obtain ⟨d', hsteps, h', hend⟩ := h₁.leaves hgood₁ (hf₁.lazy hlazy) (hwin.follows hf₁) hstep
    have hbounds := (hwin.follows hf).bounds.2
    obtain ⟨n, heq⟩ := InflateStream.infLeave_eq (s.feed nextIn availIn availOut) flush code r' hbounds
    obtain ⟨wsize, whave, wnext, window, adler, check, hst, hhash⟩ :=
      Regs.leaveState_eq flush code hbounds
    have hcheck : r'.st.mode.inHeader = true → check = r'.st.check := by
      intro hm
      rw [Mode.inHeader_iff] at hm
      obtain ⟨hout, -, -⟩ := hgood'.header hm
      have hmark := hgood'.early (by omega)
      rcases hhash with hhash | hhash
      · exact hhash
      · rw [hhash, Regs.pending_of_eq hmark, hout, List.reverse_nil, InflateState.hash_nil]
    obtain ⟨htaken, hstream⟩ := hrest hf
    refine ⟨d', hsteps₁.trans hsteps, ?_⟩
    rw [heq, hst]
    refine ⟨⟨?_, h'.stream.trans hstream, ?_, ?_, h'.head, h'.wbits, htaken⟩, fun hplain hall hleft =>
      hend hplain (List.drop_eq_nil_of_le hall.ge) hleft⟩
    · exact (InflateState.accounts_live hcheck).trans h'.live
    · rw [List.reverse_reverse]
      exact h'.out
    · rw [hs.hist]
  | @needDict r hp hm hstep hgood' hf =>
    obtain ⟨d₁, hsteps₁, h₁⟩ := hload.passes hp hgood hlazy hwin
    obtain ⟨hout, -, -⟩ := hgood'.header (by rw [hm]; rfl)
    obtain ⟨htaken, hstream⟩ := hrest hf
    have hdict := Regs.caseDict_followed h₁ hm
    have hret : r.caseDict = .ret .needDict r := by
      rw [← hstep, Regs.step, hm]
    rw [hret] at hdict
    refine ⟨d₁, hsteps₁, ⟨h₁.live, h₁.stream.trans hstream, ?_, hs.hist, h₁.head, h₁.wbits, htaken⟩,
      fun _ _ _ => hdict.2⟩
    rw [h₁.out, hout]
    rfl
  | sync hm =>
    have hsame : s.taken + ((s.feed nextIn availIn availOut).nextIn - nextIn) = s.taken := by
      dsimp only [feed]
      omega
    rw [hsame]
    refine ⟨d, .refl, ⟨hs.live, hs.stream, hs.out, hs.hist, hs.head, hs.wbits, hs.taken⟩, fun _ _ _ => ?_⟩
    have hd := InflateState.mode_of_live hs.live hm (by decide)
    unfold Decoder.next InflateState.bitCase
    rw [hd]

/-- Where the machine begins, on all the bytes. -/
def machine (s₀ : Session) (bytes : List UInt8) : Decoder := ⟨s₀.strm.st, .ofBytes bytes, []⟩

theorem start_stands {st : InflateState} {windowBits : Int} (h0 : start st windowBits = some s₀)
    (hwbits : s₀.strm.st.wbits = 15) (bytes : List UInt8) : s₀.Stands bytes (s₀.machine bytes) := by
  unfold start InflateStream.inflateInit2 at h0
  cases hw : wrapRequest windowBits with
  | none =>
    rw [hw] at h0
    cases h0
  | some w =>
    rw [hw] at h0
    obtain rfl := Option.some.inj h0
    refine ⟨rfl, ?_, rfl, rfl, rfl, hwbits, le_rfl, Int.natCast_nonneg _⟩
    exact (BitStream.nil_append (.ofBytes bytes)).symm

/-- However the bytes are cut into calls, and whatever space and flush values these are given, the
stream stands where the machine comes to that sees all the bytes at once. -/
theorem Fed.stands {st : InflateState} {windowBits : Int} (h0 : Session.start st windowBits = some s₀)
    (hwbits : s₀.strm.st.wbits = 15) (h : Fed bytes s₀ s) :
    s.Inv ∧ ∃ d, (s₀.machine bytes).Steps id d ∧ s.Stands bytes d := by
  induction h with
  | start => exact ⟨start_inv h0, _, .refl, start_stands h0 hwbits bytes⟩
  | call _ hin hcall ih =>
    obtain ⟨hinv, d, hsteps, hs⟩ := ih
    obtain ⟨d', hsteps', hs', -⟩ := hs.call hinv hin hcall
    exact ⟨hinv.call hcall, d', hsteps.trans hsteps', hs'⟩

end Session
end ZlibNg
