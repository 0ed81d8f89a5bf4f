import ZlibNg.Inflate.Refinement

/-! What a stream decodes to does not depend on how its input is cut into calls, nor on the space
and the flush values these are given. -/
namespace ZlibNg

namespace Decoder
variable {reach : Nat → Nat} {d d' d₁ d₂ e : Decoder}

theorem takeByte_suffix {f : UInt8 → Decoder → Decoder} (h : d.takeByte f = some d')
    (hf : ∀ b x, x.hist <:+ (f b x).hist) : d.hist <:+ d'.hist := by
  unfold takeByte at h
  split at h
  · obtain rfl := Option.some.inj h
    exact hf _ { d with stream := d.stream.drop 8 }
  · cases h

/-- A step adds to the output, at its end. -/
theorem next_suffix (h : d.next reach = some d') : d.hist <:+ d'.hist := by
  have hmove : ∀ {s : InflateState} {v : BitStream} {out : List UInt8}, d.hist <:+ out →
      some (⟨s, v, out⟩ : Decoder) = some d' → d.hist <:+ d'.hist := by
    intro s v out hout h
    obtain rfl := Option.some.inj h
    exact hout
  have hsame := List.suffix_refl d.hist
  have hcase : ∀ {p}, d.runCase p = some d' → d.hist <:+ d'.hist := by
    intro p h
    rw [runCase_hist h]
  unfold next at h
  split at h
  case h_1 | h_2 | h_3 =>
    split at h
    · exact takeByte_suffix h fun _ _ => List.suffix_refl _
    · exact hmove hsame h
  case h_4 =>
    split at h
    · exact hmove hsame h
    · cases h
  case h_5 =>
    split at h
    · exact hmove hsame h
    · exact hcase h
  case h_6 | h_8 => exact hmove hsame h
  case h_7 =>
    split at h
    · exact takeByte_suffix h fun _ _ => List.suffix_cons _ _
    · exact hmove hsame h
  case h_9 =>
    split at h
    · exact hmove hsame h
    · exact hmove (List.suffix_cons _ _) h
  case h_10 => exact hmove (List.suffix_cons _ _) h
  case h_11 | h_12 =>
    obtain ⟨x, -, rfl⟩ := Option.map_eq_some_iff.mp h
    exact hsame
  case h_13 =>
    split at h
    · exact hcase h
    · cases h

theorem Steps.suffix (h : d.Steps reach d') : d.hist <:+ d'.hist := by
  induction h with
  | refl => exact List.suffix_refl _
  | tail _ hstep ih => exact ih.trans (next_suffix hstep)

/-- Two runs from one place are parts of one run. -/
theorem Steps.total (h₁ : d.Steps reach d₁) (h₂ : d.Steps reach d₂) :
    d₁.Steps reach d₂ ∨ d₂.Steps reach d₁ := by
  have hright : Relator.RightUnique fun d d' : Decoder => d.next reach = some d' :=
    fun _ _ _ h h' => Option.some.inj (h.symm.trans h')
  exact Relation.ReflTransGen.total_of_right_unique hright h₁ h₂

theorem Steps.eq_of_none (h : d.Steps reach d') (he : d.next reach = none) : d' = d := by
  cases h using Relation.ReflTransGen.head_induction_on with
  | refl => rfl
  | head hstep _ =>
    rw [he] at hstep
    cases hstep

/-- Where the machine has come to its end, every other run leads there. -/
theorem Steps.to_end (h₁ : d.Steps reach d₁) (he : d.Steps reach e) (hend : e.next reach = none) :
    d₁.Steps reach e := by
  rcases h₁.total he with h | h
  · exact h
  · rw [h.eq_of_none hend]
    exact .refl

theorem next_ended (h : d.st.mode = .done ∨ d.st.mode = .bad) : d.next reach = none := by
  unfold next InflateState.bitCase
  rcases h with h | h <;> rw [h]

end Decoder

namespace Session
variable {s s' s₀ s₁ s₂ : Session} {bytes : List UInt8} {d e : Decoder} {mem : Int → UInt8} {nextIn : Int}
  {availIn availOut : Nat} {flush : Flush} {ret : Ret} {st : InflateState} {windowBits : Int}

/-- The stream has come to its end, or to an error. -/
def Ended (s : Session) : Prop := s.strm.st.mode = .done ∨ s.strm.st.mode = .bad

theorem Stands.mode (h : s.Stands bytes d) {m : Mode} (hm : s.strm.st.mode = m)
    (hne : m ≠ .type ∧ m ≠ .typedo) : d.st.mode = m := InflateState.mode_of_live h.live hm hne

theorem Stands.ended (h : s.Stands bytes d) (he : s.Ended) : d.next id = none := by
  rcases he with hm | hm
  · exact Decoder.next_ended (.inl (h.mode hm (by decide)))
  · exact Decoder.next_ended (.inr (h.mode hm (by decide)))

/-- A stored block of one byte, which ends the stream. -/
def oneByte : List UInt8 := [0x01, 0x01, 0x00, 0xfe, 0xff, 0x61]

/-- The raw stream of one byte is read in one call. -/
theorem oneByte_whole : ∃ s, Fed oneByte (fresh (-15) rfl) s ∧ s.strm.st.mode = .done ∧ s.taken = 6 ∧
    s.out = [0x61] := by
  have hrun : ((fresh (-15) rfl).call (.inflate (memOf oneByte) 0 6 9 .noFlush)).map
      (fun x => (x.2.strm.st.mode, x.2.taken, x.2.out)) = some (.done, 6, [0x61]) := by decide
  obtain ⟨⟨ret, s⟩, hc, hs⟩ := Option.map_eq_some_iff.mp hrun
  simp only [Prod.mk.injEq] at hs
  exact ⟨s, .call .start (by decide) hc, hs⟩

/-- A call that ends at the end of the stream says so. -/
theorem Inv.call_done (h : s.Inv)
    (hcall : s.call (.inflate mem nextIn availIn availOut flush) = some (ret, s'))
    (hm : s'.strm.st.mode = .done) : ret = .streamEnd := by
  obtain ⟨-, -, hwin⟩ := h.load mem nextIn availIn availOut
  obtain ⟨⟨ret', strm, out⟩, hx, hreturned⟩ := h.returned mem nextIn availIn availOut flush
  unfold Session.call at hcall
  dsimp only at hcall
  rw [hx] at hcall
  obtain ⟨rfl, rfl⟩ : ret' = ret ∧ _ = s' := by simpa using hcall
  cases hreturned with
  | @leave r r' code hp hstep hgood' hf he =>
    have hbounds := (hwin.follows hf).bounds.2
    obtain ⟨n, heq⟩ := InflateStream.infLeave_eq (s.feed nextIn availIn availOut) flush code r' hbounds
    obtain ⟨wsize, whave, wnext, window, adler, check, hst, -⟩ := Regs.leaveState_eq flush code hbounds
    rw [heq, hst] at hm
    rw [heq]
    change r'.st.mode = .done at hm
    cases he with
    | streamEnd => exact if_neg fun h => by cases h.2
    | dataError hbad _ =>
      rw [hbad] at hm
      cases hm
    | full _ hmode => rcases hmode with h | h | h <;> rw [h] at hm <;> cases hm
    | starved _ hmode =>
      rw [hm] at hmode
      exact absurd hmode.1 (by decide)
    | block hmode => rcases hmode with h | h | h <;> rw [h] at hm <;> cases hm
  | @needDict r hp hdict hstep hgood' hf =>
    change r.st.mode = .done at hm
    rw [hdict] at hm
    cases hm
  | sync hsync =>
    change s.strm.st.mode = .done at hm
    rw [hsync] at hm
    cases hm

/-- Where the machine that sees all the bytes comes to without an error, the output of every run of
calls is the beginning of what it writes, and a call that is given all the input that is left and does
not use up its space comes there, too. -/
theorem Fed.comes_to (h0 : Session.start st windowBits = some s₀) (hwbits : s₀.strm.st.wbits = 15)
    (he : (s₀.machine bytes).Steps id e) (hend : e.next id = none) (hgood : e.st.mode ≠ .bad)
    (h : Fed bytes s₀ s) :
    s.strm.st.mode ≠ .bad ∧ s.out <:+ e.hist ∧
      ∀ mem nextIn availIn availOut flush ret s', bytesAt mem nextIn availIn = bytes.drop s.taken.toNat →
        flush ≠ .block ∧ flush ≠ .trees →
        s.call (.inflate mem nextIn availIn availOut flush) = some (ret, s') →
        s'.strm.availOut ≠ 0 → s'.out = e.hist ∧ s'.strm.st.live = e.st.live := by
  obtain ⟨hinv, d, hsteps, hs⟩ := h.stands h0 hwbits
  have hon := hsteps.to_end he hend
  refine ⟨fun hbad => ?_, ?_, fun mem nextIn availIn availOut flush ret s' hin hplain hcall hleft => ?_⟩
  · have hm := hs.mode hbad (by decide)
    apply hgood
    rw [hon.eq_of_none (hs.ended (.inr hbad)), hm]
  · rw [← hs.out]
    exact hon.suffix
  · obtain ⟨d', hsteps', hs', hall⟩ := hs.call hinv (by rw [hin]) hcall
    have htaken := hs.taken
    have hlen := congrArg List.length hin
    rw [length_bytesAt, List.length_drop] at hlen
    have hnone := hall hplain (by omega) hleft
    obtain rfl := Decoder.Steps.unique (hsteps.trans hsteps') he hnone hend
    exact ⟨hs'.out.symm, hs'.live⟩

/-- Where the machine comes to the end of the stream, such a call returns `Z_STREAM_END`. -/
theorem Fed.inflates (h0 : Session.start st windowBits = some s₀) (hwbits : s₀.strm.st.wbits = 15)
    (he : (s₀.machine bytes).Steps id e) (hdone : e.st.mode = .done) (h : Fed bytes s₀ s) :
    s.strm.st.mode ≠ .bad ∧ s.out <:+ e.hist ∧
      ∀ mem nextIn availIn availOut flush ret s', bytesAt mem nextIn availIn = bytes.drop s.taken.toNat →
        flush ≠ .block ∧ flush ≠ .trees →
        s.call (.inflate mem nextIn availIn availOut flush) = some (ret, s') →
        s'.strm.availOut ≠ 0 → ret = .streamEnd ∧ s'.out = e.hist := by
  have hend := @Decoder.next_ended id e (.inl hdone)
  obtain ⟨hbad, hsuffix, hcomes⟩ := h.comes_to h0 hwbits he hend (by rw [hdone]; decide)
  refine ⟨hbad, hsuffix, fun mem nextIn availIn availOut flush ret s' hin hplain hcall hleft => ?_⟩
  obtain ⟨hout, hlive⟩ := hcomes mem nextIn availIn availOut flush ret s' hin hplain hcall hleft
  have hm : s'.strm.st.mode = .done := InflateState.mode_of_live hlive.symm hdone (by decide)
  exact ⟨(h.stands h0 hwbits).1.call_done hcall hm, hout⟩

/-- Every run of `inflate` refines the abstract machine, which sees all the bytes at once: between calls
the stream is in a state that goes on like the machine's, its output is the machine's, and the bits it
holds with the bytes it did not take are what the machine has to read. -/
theorem Fed.refines (h0 : Session.start st windowBits = some s₀) (hwbits : s₀.strm.st.wbits = 15)
    (h : Fed bytes s₀ s) :
    ∃ d, (s₀.machine bytes).Steps id d ∧ s.strm.st.live = d.st.live ∧ s.out = d.hist ∧
      d.stream = BitStream.append ⟨s.strm.hold, s.strm.bits, s.strm.lt⟩
        (.ofBytes (bytes.drop s.taken.toNat)) := by
  obtain ⟨-, d, hsteps, hs⟩ := h.stands h0 hwbits
  exact ⟨d, hsteps, hs.live, hs.out.symm, hs.stream⟩

/-- The machine writes the byte, too. -/
theorem Fed.refines_oneByte : ∃ d, ((fresh (-15) rfl).machine oneByte).Steps id d ∧
    d.st.mode = .done ∧ d.hist = [0x61] := by
  obtain ⟨s, h, hm, -, hout⟩ := oneByte_whole
  obtain ⟨d, hsteps, hlive, hd, -⟩ := Fed.refines (Option.some_get _).symm rfl h
  exact ⟨d, hsteps, InflateState.mode_of_live hlive hm (by decide), hd.symm.trans hout⟩

end Session
end ZlibNg
