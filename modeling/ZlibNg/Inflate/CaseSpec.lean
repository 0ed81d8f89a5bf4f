import ZlibNg.Inflate.Inflate

/-! What each case needs of the accumulator and of the saved state, and what it leaves. -/
namespace ZlibNg
open BitProg

/-- The tables of a block of codes. -/
structure TablesOk (s : InflateState) : Prop where
  len : TwoLevel LenEntry s.lencode s.lenbits
  lenbits : s.lenbits ≤ maxLenRootBits
  dist : TwoLevel DistEntry s.distcode s.distbits
  distbits : s.distbits ≤ 9

/-- The table of the code length codes. -/
structure CodesOk (s : InflateState) : Prop where
  look : ∀ v, ∃ l, 1 ≤ l ∧ l ≤ s.lenbits ∧ CodesEntry l (s.lencode (v % 2 ^ s.lenbits))
  stable : Stable (fun v => s.lencode (v % 2 ^ s.lenbits)) Code.bits
  lenbits : s.lenbits ≤ 7

/-- What holds of the saved state at each mode. -/
def InflateState.Ok (s : InflateState) : Prop :=
  match s.mode with
  | .time | .os | .exlen | .extra | .name | .comment | .hcrc => s.flags ≠ 0
  | .dictid | .dict => s.flags = 0
  | .lenlens => s.nlen ≤ 286 ∧ s.ndist ≤ 30 ∧ s.ncode ≤ 19 ∧ s.have_ ≤ s.ncode ∧
      ∀ k < s.have_, s.lens (order.getD k 0) < 8
  | .codelens => s.nlen ≤ 286 ∧ s.ndist ≤ 30 ∧ CodesOk s
  | .len_ | .len => TablesOk s
  | .lit => TablesOk s ∧ s.length < 256
  | .lenext => TablesOk s ∧ 3 ≤ s.length ∧ s.length + 2 ^ s.extra ≤ 259
  | .dist => TablesOk s ∧ 3 ≤ s.length ∧ s.length ≤ 258
  | .distext => TablesOk s ∧ (3 ≤ s.length ∧ s.length ≤ 258) ∧
      1 ≤ s.offset ∧ s.offset + 2 ^ s.extra ≤ 32769
  | .match_ => TablesOk s ∧ (1 ≤ s.length ∧ s.length ≤ 258) ∧ 1 ≤ s.offset ∧ s.offset ≤ 32768
  | _ => True

/-- The bits that may be held at each mode: whole bytes of an unfinished field in a header or
trailer, none where bytes are copied. -/
def InflateState.BitsOk (s : InflateState) (b : Nat) : Prop :=
  match s.mode with
  | .bad => True
  | .head => b ≤ 32 ∧ (s.wrap ≠ 0 → b % 8 = 0 ∧ b ≤ 16)
  | .flags | .os | .hcrc => b % 8 = 0 ∧ b ≤ 16
  | .exlen => b % 8 = 0 ∧ b ≤ 16 ∧ (s.flags &&& 0x0400 = 0 → b = 0)
  | .time | .dictid => b % 8 = 0 ∧ b ≤ 32
  | .extra | .name | .comment | .copy_ | .copy => b = 0
  | .check | .length => b ≤ 32 ∧ (s.wrap ≠ 0 → b % 8 = 0)
  | _ => b ≤ 32

/-- What a case leaves: a state for its mode, and no bits asked for but not taken. -/
def Fine (s : InflateState) (b u : Nat) : Prop := s.Ok ∧ s.BitsOk b ∧ (s.mode = .bad ∨ u = 0)

theorem fine_bad (s : InflateState) (errmsg : String) (b u : Nat) : Fine (s.setBad errmsg) b u := by
  simp [Fine, InflateState.Ok, InflateState.BitsOk]

namespace InflateState
variable {s : InflateState} {b : Nat}

@[simp] theorem withHead_mode (f : GzHeader → GzHeader) : (s.withHead f).mode = s.mode := rfl
@[simp] theorem withHead_wrap (f : GzHeader → GzHeader) : (s.withHead f).wrap = s.wrap := rfl
@[simp] theorem withHead_flags (f : GzHeader → GzHeader) : (s.withHead f).flags = s.flags := rfl

@[simp] theorem headerCheck_mode (bytes : List UInt8) : (s.headerCheck bytes).mode = s.mode := by
  unfold headerCheck; split <;> rfl

@[simp] theorem headerCheck_wrap (bytes : List UInt8) : (s.headerCheck bytes).wrap = s.wrap := by
  unfold headerCheck; split <;> rfl

@[simp] theorem headerCheck_flags (bytes : List UInt8) : (s.headerCheck bytes).flags = s.flags := by
  unfold headerCheck; split <;> rfl

theorem caseHead_wp (hm : s.mode = .head) (hb : s.BitsOk b) : s.caseHead.wp true b 0 s.BitsOk Fine := by
  simp only [BitsOk, hm] at hb
  simp only [caseHead, needBits, hold, bits, initBits, dropBits, pure_eq, ret_bind, need_bind,
    whole_bind, peek_bind, skip_bind, empty_bind, wp_ite, wp, true_and, BitsOk, hm]
  refine ⟨fun h => ?_, fun h => ⟨fun b' h1 h2 h3 => by omega, fun b' h1 h2 h3 h4 =>
    ⟨by omega, fun w _ => ⟨fun _ => ?_, fun _ => ?_⟩⟩⟩⟩
  · exact ⟨trivial, hb.1, .inr rfl⟩
  · simp [Fine, Ok, BitsOk]; omega
  · refine ⟨by omega, fun v _ => ⟨fun _ => fine_bad .., fun _ => ⟨by omega, fun m _ =>
      ⟨fun _ => fine_bad .., fun _ => ⟨by omega, by omega, by omega, fun l _ =>
      ⟨fun _ => fine_bad .., fun _ => ⟨by omega, fun w' _ => ⟨by omega, ?_⟩⟩⟩⟩⟩⟩⟩⟩
    by_cases hw : w' &&& 0x200 ≠ 0 <;> simp [Fine, Ok, BitsOk, hw]

theorem flags_ne_zero {flags : UInt32} (h : ¬ flags &&& 0xff ≠ UInt32.ofNat zDeflated) : flags ≠ 0 := by
  rintro rfl
  exact h (by decide)

theorem caseFlags_wp (hm : s.mode = .flags) (hb : s.BitsOk b) :
    s.caseFlags.wp true b 0 s.BitsOk Fine := by
  simp only [BitsOk, hm] at hb
  simp only [caseFlags, needBits, hold, initBits, pure_eq, ret_bind, need_bind, whole_bind,
    empty_bind, wp_ite, wp, true_and, BitsOk, hm]
  refine ⟨fun b' h1 h2 h3 => by omega, fun b' h1 h2 h3 h4 => ⟨by omega, fun w _ =>
    ⟨fun _ => fine_bad .., fun hf => ⟨fun _ => fine_bad .., fun _ => ⟨by omega, ?_⟩⟩⟩⟩⟩
  simpa [Fine, Ok, BitsOk] using flags_ne_zero hf

theorem caseTime_wp (hm : s.mode = .time) (hs : s.Ok) (hb : s.BitsOk b) :
    s.caseTime.wp true b 0 s.BitsOk Fine := by
  simp only [BitsOk, hm] at hb
  simp only [Ok, hm] at hs
  simp only [caseTime, needBits, hold, initBits, pure_eq, ret_bind, need_bind, whole_bind,
    empty_bind, wp, true_and, BitsOk, hm]
  refine ⟨fun b' h1 h2 h3 => by omega, fun b' h1 h2 h3 h4 => ⟨by omega, fun w _ => ⟨by omega, ?_⟩⟩⟩
  simp [Fine, Ok, BitsOk, hs]

theorem caseOs_wp (hm : s.mode = .os) (hs : s.Ok) (hb : s.BitsOk b) : s.caseOs.wp true b 0 s.BitsOk Fine := by
  simp only [BitsOk, hm] at hb
  simp only [Ok, hm] at hs
  simp only [caseOs, needBits, hold, initBits, pure_eq, ret_bind, need_bind, whole_bind,
    empty_bind, wp, true_and, BitsOk, hm]
  refine ⟨fun b' h1 h2 h3 => by omega, fun b' h1 h2 h3 h4 => ⟨by omega, fun w _ => ⟨by omega, ?_⟩⟩⟩
  simp [Fine, Ok, BitsOk, hs]

theorem caseExlen_wp (hm : s.mode = .exlen) (hs : s.Ok) (hb : s.BitsOk b) :
    s.caseExlen.wp true b 0 s.BitsOk Fine := by
  simp only [BitsOk, hm] at hb
  simp only [Ok, hm] at hs
  simp only [caseExlen, needBits, hold, initBits, pure_eq, ret_bind, need_bind, whole_bind,
    empty_bind, wp_ite, wp, true_and, BitsOk, hm]
  refine ⟨fun hf => ⟨fun b' h1 h2 h3 => ⟨by omega, by omega, fun h => absurd h hf⟩,
    fun b' h1 h2 h3 h4 => ⟨by omega, fun w _ => ⟨by omega, ?_⟩⟩⟩, fun h => ?_⟩
  · simp [Fine, Ok, BitsOk, hs]
  · exact ⟨hs, hb.2.2 (not_not.mp h), .inr rfl⟩

theorem headerDone_fine (hb : b ≤ 32) : Fine s.headerDone b 0 :=
  ⟨trivial, hb, .inr rfl⟩

theorem caseHcrc_wp (hm : s.mode = .hcrc) (hb : s.BitsOk b) :
    s.caseHcrc.wp true b 0 s.BitsOk Fine := by
  simp only [BitsOk, hm] at hb
  simp only [caseHcrc, needBits, hold, initBits, pure_eq, ret_bind, need_bind, whole_bind,
    empty_bind, wp_ite, wp, true_and, BitsOk, hm]
  exact ⟨fun _ => ⟨fun b' h1 h2 h3 => by omega, fun b' h1 h2 h3 h4 => ⟨by omega, fun w _ =>
    ⟨fun _ => fine_bad .., fun _ => ⟨by omega, headerDone_fine (by omega)⟩⟩⟩⟩,
    fun _ => headerDone_fine (by omega)⟩

theorem caseDictid_wp (hm : s.mode = .dictid) (hs : s.Ok) (hb : s.BitsOk b) :
    s.caseDictid.wp true b 0 s.BitsOk Fine := by
  simp only [BitsOk, hm] at hb
  simp only [Ok, hm] at hs
  simp only [caseDictid, needBits, hold, initBits, pure_eq, ret_bind, need_bind, whole_bind,
    empty_bind, wp, true_and, BitsOk, hm]
  refine ⟨fun b' h1 h2 h3 => by omega, fun b' h1 h2 h3 h4 => ⟨by omega, fun w _ => ⟨by omega, ?_⟩⟩⟩
  simp [Fine, Ok, BitsOk, hs]

theorem fixedtables_ok (s : InflateState) : TablesOk s.fixedtables :=
  ⟨lenfix_twoLevel, (by decide : 9 ≤ 10), distfix_twoLevel, (by decide : 5 ≤ 9)⟩

theorem caseTypedo_wp (hm : s.mode = .type ∨ s.mode = .typedo) (hb : s.BitsOk b) :
    s.caseTypedo.wp true b 0 s.BitsOk Fine := by
  have hB : ∀ b', s.BitsOk b' ↔ b' ≤ 32 := fun b' => by rcases hm with hm | hm <;> simp [BitsOk, hm]
  rw [hB] at hb
  simp only [caseTypedo, needBits, byteBits, bits, dropBits, pure_eq, ret_bind, need_bind,
    peek_bind, skip_bind, align_bind, wp_ite, wp, true_and, hB]
  refine ⟨fun _ => ?_, fun _ => ⟨fun b' h1 h2 h3 => by omega, fun b' h1 h2 h3 h4 => ⟨by omega, fun l _ =>
    ⟨by omega, by omega, by omega, fun t _ => ⟨by omega, by omega, fun _ => ?_, fun _ =>
    ⟨fun _ => ?_, fun _ => ⟨fun _ => ?_, fun _ => fine_bad ..⟩⟩⟩⟩⟩⟩⟩
  · exact ⟨trivial, (show _ ≤ 32 ∧ (_ → _) by omega), .inr rfl⟩
  · exact ⟨trivial, (show _ ≤ 32 by omega), .inr (by omega)⟩
  · have ht := fixedtables_ok { s with last := decide (l = 1) }
    exact ⟨⟨ht.1, ht.2, ht.3, ht.4⟩, (show _ ≤ 32 by omega), .inr (by omega)⟩
  · exact ⟨trivial, (show _ ≤ 32 by omega), .inr (by omega)⟩

theorem caseStored_wp (hm : s.mode = .stored) (hb : b % 8 = 0 ∧ b ≤ 32) :
    s.caseStored.wp true b 0 s.BitsOk Fine := by
  simp only [caseStored, needBits, hold, initBits, pure_eq, ret_bind, need_bind, whole_bind,
    empty_bind, wp_ite, wp, true_and, BitsOk, hm]
  refine ⟨fun b' h1 h2 h3 => by omega, fun b' h1 h2 h3 h4 => ⟨by omega, fun w _ =>
    ⟨fun _ => fine_bad .., fun _ => ⟨by omega, ?_⟩⟩⟩⟩
  exact ⟨trivial, (show (0 : Nat) = 0 from rfl), .inr rfl⟩

theorem caseTable_wp (hm : s.mode = .table) (hb : s.BitsOk b) :
    s.caseTable.wp true b 0 s.BitsOk Fine := by
  simp only [BitsOk, hm] at hb
  simp only [caseTable, needBits, bits, dropBits, pure_eq, ret_bind, need_bind, peek_bind,
    skip_bind, wp_ite, wp, true_and, BitsOk, hm]
  refine ⟨fun b' h1 h2 h3 => by omega, fun b' h1 h2 h3 h4 => ⟨by omega, fun n hn =>
    ⟨by omega, by omega, by omega, fun d hd => ⟨by omega, by omega, by omega, fun c hc =>
    ⟨by omega, by omega, fun _ => fine_bad .., fun _ => ?_⟩⟩⟩⟩⟩
  exact ⟨⟨by dsimp only; omega, by dsimp only; omega, by dsimp only; omega, Nat.zero_le _,
    fun k hk => absurd hk (Nat.not_lt_zero k)⟩, (show _ ≤ 32 by omega), .inr (by omega)⟩

theorem caseLenext_wp (hm : s.mode = .lenext) (hs : s.Ok) (hb : s.BitsOk b) :
    s.caseLenext.wp true b 0 s.BitsOk Fine := by
  simp only [Ok, hm] at hs
  simp only [BitsOk, hm] at hb
  obtain ⟨ht, h3, hx⟩ := hs
  have hx8 : s.extra < 9 := by
    by_contra h
    have := Nat.pow_le_pow_right (n := 2) (by norm_num) (show 9 ≤ s.extra by omega)
    omega
  simp only [caseLenext, needBits, bits, dropBits, pure_eq, ret_bind, need_bind, peek_bind,
    skip_bind, wp_ite, wp, true_and, BitsOk, hm]
  refine ⟨fun _ => ⟨fun b' h1 h2 h3 => by omega, fun b' h1 h2 h3 h4 => ⟨by omega, fun v hv =>
    ⟨by omega, by omega, ?_⟩⟩⟩, fun h => ?_⟩
  · exact ⟨⟨⟨ht.1, ht.2, ht.3, ht.4⟩, by dsimp only; omega, by dsimp only; omega⟩,
      (show _ ≤ 32 by omega), .inr (by omega)⟩
  · have h0 : s.extra = 0 := by omega
    rw [h0] at hx
    exact ⟨⟨⟨ht.1, ht.2, ht.3, ht.4⟩, h3, by dsimp only; omega⟩, hb, .inr rfl⟩

theorem caseDistext_wp (hm : s.mode = .distext) (hs : s.Ok) (hb : s.BitsOk b) :
    s.caseDistext.wp true b 0 s.BitsOk Fine := by
  simp only [Ok, hm] at hs
  simp only [BitsOk, hm] at hb
  obtain ⟨ht, hlen, h1, hx⟩ := hs
  have hx8 : s.extra < 16 := by
    by_contra h
    have := Nat.pow_le_pow_right (n := 2) (by norm_num) (show 16 ≤ s.extra by omega)
    omega
  simp only [caseDistext, needBits, bits, dropBits, pure_eq, ret_bind, need_bind, peek_bind,
    skip_bind, wp_ite, wp, true_and, BitsOk, hm]
  refine ⟨fun _ => ⟨fun b' h1 h2 h3 => by omega, fun b' h1 h2 h3 h4 => ⟨by omega, fun v hv =>
    ⟨by omega, by omega, ?_⟩⟩⟩, fun h => ?_⟩
  · exact ⟨⟨⟨ht.1, ht.2, ht.3, ht.4⟩, ⟨by dsimp only; omega, hlen.2⟩, by dsimp only; omega,
      by dsimp only; omega⟩, (show _ ≤ 32 by omega), .inr (by omega)⟩
  · have h0 : s.extra = 0 := by omega
    rw [h0] at hx
    exact ⟨⟨⟨ht.1, ht.2, ht.3, ht.4⟩, ⟨by dsimp only; omega, hlen.2⟩, h1, by dsimp only; omega⟩,
      hb, .inr rfl⟩

theorem caseCheck_wp (hm : s.mode = .check) (hb : s.BitsOk b) :
    s.caseCheck.wp true b 0 s.BitsOk Fine := by
  simp only [BitsOk, hm] at hb
  simp only [caseCheck, needBits, hold, initBits, pure_eq, ret_bind, need_bind, whole_bind,
    empty_bind, wp_ite, wp, true_and, BitsOk, hm]
  refine ⟨fun hw => ⟨fun b' h1 h2 h3 => by omega, fun b' h1 h2 h3 h4 => ⟨by omega, fun w _ =>
    ⟨fun _ => fine_bad .., fun _ => ⟨by omega, ?_⟩⟩⟩⟩, fun _ => ?_⟩
  · exact ⟨trivial, ⟨Nat.zero_le _, fun _ => rfl⟩, .inr rfl⟩
  · exact ⟨trivial, hb, .inr rfl⟩

theorem caseLength_wp (hm : s.mode = .length) (hb : s.BitsOk b) :
    s.caseLength.wp true b 0 s.BitsOk Fine := by
  simp only [BitsOk, hm] at hb
  simp only [caseLength, needBits, hold, initBits, pure_eq, ret_bind, need_bind, whole_bind,
    empty_bind, wp_ite, wp, true_and, BitsOk, hm]
  refine ⟨fun hw => ⟨fun b' h1 h2 h3 => by omega, fun b' h1 h2 h3 h4 => ⟨by omega, fun w _ =>
    ⟨fun _ => fine_bad .., fun _ => ⟨by omega, ?_⟩⟩⟩⟩, fun _ => ?_⟩
  · exact ⟨trivial, Nat.zero_le _, .inr rfl⟩
  · exact ⟨trivial, hb.1, .inr rfl⟩

end InflateState
end ZlibNg
