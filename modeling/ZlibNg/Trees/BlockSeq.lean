import ZlibNg.Inflate.Refinement
import ZlibNg.Trees.BlockRead

/-! Blocks one after the other: what is written block by block is read back as a whole. -/
namespace ZlibNg
open BitProg

namespace InflateState
variable {s s' : InflateState} {v v' : BitStream}

/-- A case of the blocks or of the trailer keeps to itself. -/
theorem bitCase_keeps {p : CaseProg} (hp : s.bitCase = some p) (hm : s.mode.phase ≠ 0)
    (h : p.runStream 0 v = some (s', v')) : Keeps s s' := by
  have hagree : Agree (Alike s) p p := by
    unfold bitCase at hp
    split at hp <;> simp only [Option.some.injEq, reduceCtorEq] at hp <;> subst hp
    case h_8 hmode => exact caseTypedo_agree (.inl hmode) rfl
    case h_9 hmode => exact caseTypedo_agree (.inr hmode) rfl
    case h_10 hmode => exact caseTable_agree hmode rfl
    case h_11 hmode => exact caseLenlens_agree hmode rfl
    case h_12 hmode => exact caseCodelens_agree hmode rfl
    case h_13 hmode => exact caseLen_agree hmode rfl
    case h_14 hmode => exact caseLenext_agree hmode rfl
    case h_15 hmode => exact caseDist_agree hmode rfl
    case h_16 hmode => exact caseDistext_agree hmode rfl
    case h_17 hmode => exact caseLength_agree hmode rfl fun _ => rfl
    all_goals
      next hmode =>
      rw [hmode] at hm
      exact absurd rfl hm
  rcases agree_runStream hagree 0 v with ⟨hnone, -⟩ | ⟨a, b, w, ha, hb, -, hkeeps⟩
  · rw [hnone] at h
    cases h
  · rw [ha] at h
    obtain ⟨rfl, rfl⟩ := Prod.mk.inj (Option.some.inj h)
    exact hkeeps

/-- The format is the same, and the header is past. -/
def StaysPast (s s' : InflateState) : Prop :=
  s'.wrap = s.wrap ∧ s'.flags = s.flags ∧ s'.mode.phase ≠ 0

theorem caseTypedo_last (hl : s.last = true) (v : BitStream) :
    s.caseTypedo.runStream 0 v = some ({ s with mode := .check }, v.drop (v.len % 8)) := by
  unfold caseTypedo
  rw [if_pos hl]
  rfl

theorem caseStored_past (h : s.caseStored.runStream 0 v = some (s', v')) : s.StaysPast s' := by
  simp only [caseStored, needBits, hold, initBits, pure_eq, ret_bind, need_bind, whole_bind,
    empty_bind, runStream_ite, runStream] at h
  split_ifs at h
  all_goals
    obtain ⟨rfl, -⟩ := Prod.mk.inj (Option.some.inj h)
    exact ⟨rfl, rfl, by simp [Mode.phase]⟩

theorem caseCheck_past (h : s.caseCheck.runStream 0 v = some (s', v')) : s.StaysPast s' := by
  simp only [caseCheck, needBits, hold, initBits, pure_eq, ret_bind, need_bind, whole_bind,
    empty_bind, runStream_ite, runStream] at h
  split_ifs at h
  all_goals
    obtain ⟨rfl, -⟩ := Prod.mk.inj (Option.some.inj h)
    exact ⟨rfl, rfl, by simp [Mode.phase]⟩

theorem caseLength_past (h : s.caseLength.runStream 0 v = some (s', v')) : s.StaysPast s' := by
  simp only [caseLength, needBits, hold, initBits, pure_eq, ret_bind, need_bind, whole_bind,
    empty_bind, runStream_ite, runStream] at h
  split_ifs at h
  all_goals
    obtain ⟨rfl, -⟩ := Prod.mk.inj (Option.some.inj h)
    exact ⟨rfl, rfl, by simp [Mode.phase]⟩

end InflateState

namespace Decoder
variable {reach : Nat → Nat} {d d' : Decoder}

/-- A step from the first bit of a block is the same with either name of the mode. -/
theorem next_type {s : InflateState} (hm : s.mode = .type) (v : BitStream) (hist : List UInt8) :
    Decoder.next reach ⟨s, v, hist⟩ = Decoder.next reach ⟨{ s with mode := .typedo }, v, hist⟩ := by
  unfold Decoder.next
  dsimp only
  rw [hm]
  dsimp only [InflateState.bitCase]
  rw [hm]
  rfl

/-- Behind the header the machine keeps to the format it was given. -/
theorem next_past (hm : d.st.mode.phase ≠ 0) (h : d.next reach = some d') :
    d.st.StaysPast d'.st := by
  have hmove : ∀ {s : InflateState} {v : BitStream} {out : List UInt8},
      some (⟨s, v, out⟩ : Decoder) = some d' → d.st.StaysPast s → d.st.StaysPast d'.st := by
    intro s v out h hs
    obtain rfl := Option.some.inj h
    exact hs
  have hphase : ∀ {m : Mode}, d.st.mode = m → m.phase = 0 → d.st.StaysPast d'.st := by
    intro m hmode hz
    rw [hmode] at hm
    exact absurd hz hm
  have hto : ∀ m : Mode, m.phase ≠ 0 → d.st.StaysPast { d.st with mode := m } :=
    fun _ hm' => ⟨rfl, rfl, hm'⟩
  unfold next at h
  split at h
  case h_1 hmode | h_2 hmode | h_3 hmode | h_4 hmode => exact hphase hmode rfl
  case h_5 =>
    split at h
    · exact hmove h ⟨rfl, rfl, hm⟩
    · obtain ⟨x, hx, rfl⟩ := Option.map_eq_some_iff.mp h
      exact InflateState.caseStored_past hx
  case h_6 | h_8 | h_10 => exact hmove h (hto _ (by decide))
  case h_7 =>
    split at h
    · unfold takeByte at h
      split at h
      · exact hmove h ⟨rfl, rfl, hm⟩
      · cases h
    · exact hmove h (hto _ (by decide))
  case h_9 hmode =>
    split at h
    · exact hmove h (hto _ (by decide))
    · refine hmove h ⟨rfl, rfl, ?_⟩
      dsimp only
      split
      · decide
      · exact hm
  case h_11 =>
    obtain ⟨x, hx, rfl⟩ := Option.map_eq_some_iff.mp h
    have hpast := InflateState.caseCheck_past hx
    exact hpast
  case h_12 =>
    obtain ⟨x, hx, rfl⟩ := Option.map_eq_some_iff.mp h
    have hpast := InflateState.caseLength_past hx
    exact hpast
  case h_13 =>
    split at h
    · next p hp =>
      obtain ⟨x, hx, rfl⟩ := Option.map_eq_some_iff.mp h
      have hkeeps := InflateState.bitCase_keeps hp hm hx
      have hle := ((Mode.follows_iff _ _).mp hkeeps.phase).1.1
      exact ⟨hkeeps.wrap, (hkeeps.check hm).2, Nat.ne_of_gt ((Nat.pos_of_ne_zero hm).trans_le hle)⟩
    · cases h

theorem Steps.past (h : d.Steps reach d') (hm : d.st.mode.phase ≠ 0) : d.st.StaysPast d'.st := by
  induction h with
  | refl => exact ⟨rfl, rfl, hm⟩
  | tail _ hstep ih =>
    obtain ⟨hwrap, hflags, hphase⟩ := next_past ih.2.2 hstep
    exact ⟨hwrap.trans ih.1, hflags.trans ih.2.1, hphase⟩

end Decoder

/-- The machine stands between blocks. -/
structure InflateState.AtBlock (s : InflateState) (last : Bool) : Prop where
  mode : s.mode = .typedo ∨ s.mode = .type
  last : s.last = last

section Blocks
variable {reach : Nat → Nat} {s s' : InflateState} {t bits sent rest : BitStream}
  {hist hist' : List UInt8} {last : Bool}

/-- A block is read also where the last one ended. -/
theorem ReadsBack.steps (h : ReadsBack reach bits hist last rest hist') (hs : s.AtBlock false) :
    ∃ s', Decoder.Steps reach ⟨s, bits, hist⟩ ⟨s', rest, hist'⟩ ∧ s'.AtBlock last := by
  rcases hs.mode with hm | hm
  · obtain ⟨s', hw, hm', hl'⟩ := h s hm hs.last
    exact ⟨s', hw.steps, .inr hm', hl'⟩
  · obtain ⟨s', hw, hm', hl'⟩ := h { s with mode := .typedo } rfl hs.last
    refine ⟨s', ?_, .inr hm', hl'⟩
    cases hw using Relation.ReflTransGen.head_induction_on with
    | refl => cases hm'
    | head hstep hrest =>
      have hfirst := (Decoder.next_type hm bits hist).trans hstep.2
      exact .head hfirst (Decoder.Within.steps hrest)

/-- Bits that lead the machine from the start of the first block to the end of one, whatever follows
in whole bytes. -/
def Leads (reach : Nat → Nat) (t : BitStream) (hist : List UInt8) (last : Bool) : Prop :=
  ∀ (s : InflateState) (rest : BitStream), s.AtBlock false → (t.len + rest.len) % 8 = 0 →
    ∃ s', Decoder.Steps reach ⟨s, t.append rest, []⟩ ⟨s', rest, hist⟩ ∧ s'.AtBlock last

theorem Leads.nil : Leads reach (.ofBytes []) [] false := by
  intro s rest hs _
  rw [BitStream.nil_append]
  exact ⟨s, .refl, hs⟩

/-- A block is added. -/
theorem Leads.block (h : Leads reach t hist false)
    (hread : ∀ rest : BitStream, ((t.append sent).len + rest.len) % 8 = 0 →
      ReadsBack reach (sent.append rest) hist last rest hist') :
    Leads reach (t.append sent) hist' last := by
  intro s rest hs hlen
  obtain ⟨s₁, hsteps, hs₁⟩ := h s (sent.append rest) hs (by
    rw [BitStream.append_len] at hlen ⊢
    omega)
  obtain ⟨s', hblock, hs'⟩ := (hread rest hlen).steps hs₁
  rw [BitStream.append_assoc]
  exact ⟨s', hsteps.trans hblock, hs'⟩

/-- A block behind others, which end within a byte where the bit writer does. -/
theorem SendsBlock.leads {form : BlockForm} {w block : BitWriter}
    (hb : SendsBlock reach form w block sent hist last hist') (h : Leads reach t hist false)
    (hlen : t.len % 8 = w.biValid % 8) : Leads reach (t.append sent) hist' last := by
  refine h.block fun rest hrest => hb.reads rest fun hstored => ?_
  have hcount := congrArg BitStream.len hb.stream
  rw [BitStream.append_len, BitWriter.stream_len, BitWriter.stream_len, hb.whole hstored] at hcount
  rw [BitStream.append_len] at hrest
  omega

/-- Behind the last block the machine drops the padding and comes to the trailer. -/
theorem Leads.checks (h : Leads reach t hist true) (hs : s.AtBlock false) {v : BitStream}
    (hv : v.len % 8 = 0) :
    ∃ s', Decoder.Steps reach ⟨s, t.pad.append v, []⟩ ⟨s', v, hist⟩ ∧ s'.mode = .check ∧
      s'.wrap = s.wrap ∧ s'.flags = s.flags := by
  have hpad : (t.len + ((BitStream.ofNat 0 (BitStream.padBits t.len)).append v).len) % 8 = 0 := by
    rw [BitStream.append_len, BitStream.ofNat_len, BitStream.padBits]
    omega
  obtain ⟨s₁, hsteps, hs₁⟩ := h s _ hs hpad
  have hphase : s.mode.phase ≠ 0 := by
    rcases hs.mode with hm | hm <;> rw [hm] <;> decide
  obtain ⟨hwrap, hflags, -⟩ := hsteps.past hphase
  have hcount : ((BitStream.ofNat 0 (BitStream.padBits t.len)).append v).len % 8 =
      BitStream.padBits t.len := by
    rw [BitStream.append_len, BitStream.ofNat_len, BitStream.padBits]
    omega
  have hlast : Decoder.next reach ⟨s₁, (BitStream.ofNat 0 (BitStream.padBits t.len)).append v, hist⟩ =
      some ⟨{ s₁ with mode := .check }, v, hist⟩ := by
    have hcase : s₁.bitCase = some s₁.caseTypedo := by
      unfold InflateState.bitCase
      rcases hs₁.mode with hm | hm <;> rw [hm]
    have hne : s₁.mode ≠ .length := by
      rcases hs₁.mode with hm | hm <;> rw [hm] <;> decide
    rw [Decoder.next_prog hcase hne, Decoder.runCase, InflateState.caseTypedo_last hs₁.last,
      Option.map_some, hcount, BitStream.drop_ofNat_append]
  rw [BitStream.pad, BitStream.append_assoc]
  exact ⟨_, hsteps.tail hlast, rfl, hwrap, hflags⟩

/-- Behind the last block of a raw stream the machine comes to the end. -/
theorem Leads.ends (h : Leads reach t hist true) (hs : s.AtBlock false) (hwrap : s.wrap = 0) :
    ∃ s', Decoder.Steps reach ⟨s, t.pad, []⟩ ⟨s', .ofBytes [], hist⟩ ∧ s'.mode = .done := by
  obtain ⟨s₁, hsteps, hm, hwrap₁, -⟩ := h.checks hs (v := .ofBytes []) rfl
  rw [BitStream.append_nil] at hsteps
  have hcheck : Decoder.next reach ⟨s₁, .ofBytes [], hist⟩ =
      some ⟨{ s₁ with
        check := hashOf s₁.flags hist.reverse, total := hist.length, mode := .length },
        .ofBytes [], hist⟩ := by
    have hskip : ¬s₁.wrap ≠ 0 := not_not.mpr (hwrap₁.trans hwrap)
    unfold Decoder.next Decoder.runCase InflateState.caseCheck
    dsimp only
    rw [hm]
    dsimp only
    rw [if_neg hskip]
    rfl
  have hlength : Decoder.next reach ⟨{ s₁ with
        check := hashOf s₁.flags hist.reverse, total := hist.length, mode := .length },
        .ofBytes [], hist⟩ =
      some ⟨{ s₁ with
        check := hashOf s₁.flags hist.reverse, total := hist.length, mode := .done },
        .ofBytes [], hist⟩ := by
    have hskip : ¬(s₁.wrap ≠ 0 ∧ s₁.flags ≠ 0) := fun h => h.1 (hwrap₁.trans hwrap)
    unfold Decoder.next Decoder.runCase InflateState.caseLength
    dsimp only
    rw [if_neg hskip]
    rfl
  exact ⟨_, (hsteps.tail hcheck).tail hlength, rfl⟩

end Blocks

section Empty
variable {reach : Nat → Nat} {w : BitWriter} {hist : List UInt8}

/-- The empty stored block of a flush. -/
theorem storedBlock_sends (hw : w.Held) (hist : List UInt8) :
    ∃ block sent, w.storedBlock [] 0 false = some block ∧
      SendsBlock reach .stored w block sent hist false hist := by
  obtain ⟨block, pad, hblock, hpad, hheld, hvalid, hputs⟩ :=
    @storedBlock_writes w hw false [] 0 rfl
  obtain ⟨sent, hsent, hput⟩ := put_sent hputs
  refine ⟨block, sent, hblock, hsent, fun rest hrest => ?_, hheld, fun _ => hvalid⟩
  rw [hput]
  exact @stored_readsBack reach hist pad hpad [] (by decide) false rest (hrest rfl)

/-- The empty static block of a partial flush. -/
theorem trAlign_sends (hreach : ReachesBack reach) (hw : w.Held) (hist : List UInt8) :
    ∃ block sent, StoredStream.trAlign w = some block ∧ block.biValid < 8 ∧
      SendsBlock reach .static w block sent hist false hist := by
  have hin : InHistory [] hist := trivial
  have ha : FlushArgs.Describes ⟨none, 0, false, 0, false⟩ [] hist :=
    ⟨fun _ h => (by cases h), fun _ h => (by cases h)⟩
  obtain ⟨block, sent, hblock, hstream, hreads, hheld, -⟩ := emit_readsBack hreach hin ha hw .static
    none (fun _ _ => 0) (Nat.zero_le _) (fun h => by cases h) fun h => (by cases h)
  obtain ⟨hflush, hsame, hvalid⟩ := BitWriter.trFlushBits_spec hheld
  refine ⟨block.trFlushBits, sent, ?_, ?_, hsame.trans hstream, hreads, hflush, fun h => (by cases h)⟩
  · have hemit : (w.emitTree 1 false).bind
        (BitWriter.compressBlock staticLcodes staticDcodes []) = some block := hblock
    obtain ⟨w', hw', hcode⟩ := Option.bind_eq_some_iff.mp hemit
    have hend : w'.sendCode staticLcodes 256 = some block := by
      rw [← hcode, BitWriter.compressBlock, BitWriter.compressLoop]
      rfl
    rw [StoredStream.trAlign, hw', Option.bind_eq_bind, Option.bind_some, hend]
    rfl
  · rw [hvalid]
    exact Nat.mod_lt _ (by decide)

end Empty
end ZlibNg
