import ZlibNg.Inflate.Live
import ZlibNg.Inflate.Progress
import ZlibNg.Inflate.FastSlow

/-! What holds at every pass of the loop of `inflate`: the saved state is right for its mode, and
the input and the output of the call are accounted for. -/
namespace ZlibNg
open BitProg

/-- The check value of some output. -/
def checkOf (s : InflateState) (out : List UInt8) : Nat := hashOf s.flags out.reverse

/-- The program of a mode, the two included that do something before. -/
def InflateState.prog (s : InflateState) : Option CaseProg :=
  match s.mode with
  | .stored => some s.caseStored
  | .check => some s.caseCheck
  | _ => s.bitCase

namespace Regs

/-- The state in a call that began after the output `past`, newest first, of which `start` bytes
were in the total. -/
structure Good (past : List UInt8) (start : Nat) (r : Regs) : Prop where
  ok : r.st.Ok
  bits : r.st.BitsOk r.acc.bits
  whave : r.st.whave ≤ r.st.wsize
  left : r.left ≤ r.mark
  counted : r.totalOut + (r.mark - r.left) = start + r.out.length
  header : r.st.mode.phase = 0 → r.out = [] ∧ past = [] ∧ r.st.total = 0
  early : r.st.mode.phase ≤ 2 → r.mark = r.left + r.out.length
  late : r.st.mode.phase = 3 ∨ r.st.mode.phase = 4 → r.st.wrap ≠ 0 → r.mark = r.left
  check : r.st.mode.phase = 1 ∨ r.st.mode.phase = 2 → r.st.wrap &&& 4 ≠ 0 →
    r.st.check = checkOf r.st past ∧ r.st.total = past.length
  trailer : r.st.mode.phase = 3 ∨ r.st.mode.phase = 4 → r.st.wrap &&& 4 ≠ 0 →
    r.st.check = checkOf r.st (r.out ++ past) ∧ r.st.total = (r.out ++ past).length

/-- No more bits are held than a program could not use. -/
def Lazy (r : Regs) : Prop :=
  r.acc.bits < 8 ∨ r.st.mode = .bad ∨
    ∃ p, r.st.prog = some p ∧ p.runStream 0 r.acc.held = none

/-- What passes of the loop do not change, and what they may only use up. -/
structure Follows (r r' : Regs) : Prop where
  mem : r'.acc.mem = r.acc.mem
  ends : r'.acc.next + r'.acc.have_ = r.acc.next + r.acc.have_
  have_le : r'.acc.have_ ≤ r.acc.have_
  window : (r'.st.wsize, r'.st.whave, r'.st.wnext, r'.st.window) =
    (r.st.wsize, r.st.whave, r.st.wnext, r.st.window)
  wrap : r'.st.wrap = r.st.wrap
  wbits : r.st.mode ≠ .head ∨ r.st.wrap = 0 → r'.st.wbits = r.st.wbits
  head : r'.st.mode = .head → r.st.mode = .head
  sync : r'.st.mode = .sync → r.st.mode = .sync
  phase : r.st.mode.phase ≤ r'.st.mode.phase
  lazy : r.Lazy → r'.Lazy

theorem Follows.refl (r : Regs) : r.Follows r :=
  ⟨rfl, rfl, le_rfl, rfl, rfl, fun _ => rfl, id, id, le_rfl, id⟩

theorem Follows.trans {r r' r'' : Regs} (h : r.Follows r') (h' : r'.Follows r'') :
    r.Follows r'' where
  mem := h'.mem.trans h.mem
  ends := h'.ends.trans h.ends
  have_le := h'.have_le.trans h.have_le
  window := h'.window.trans h.window
  wrap := h'.wrap.trans h.wrap
  wbits hw := (h'.wbits (hw.imp (fun hm hm' => hm (h.head hm')) h.wrap.trans)).trans (h.wbits hw)
  head hm := h.head (h'.head hm)
  sync hm := h.sync (h'.sync hm)
  phase := h.phase.trans h'.phase
  lazy hl := h'.lazy (h.lazy hl)

variable {past : List UInt8} {start : Nat} {r : Regs} {flush : Flush}

/-- The accounts after a case that reads bits. -/
theorem Good.keep (h : r.Good past start) {s' : InflateState} {acc : BitReader}
    (hk : Keeps r.st s') (hok : s'.Ok) (hbits : s'.BitsOk acc.bits) (hm : r.st.mode.phase ≠ 2) :
    Good past start { r with st := s', acc := acc } := by
  obtain ⟨⟨hp, hp'⟩, -⟩ := (Mode.follows_iff _ _).mp hk.phase
  refine ⟨hok, hbits, ?_, h.left, h.counted, ?_, ?_, ?_, ?_, ?_⟩
  · rw [hk.whave, hk.wsize]
    exact h.whave
  · intro h0
    dsimp only at h0 ⊢
    rw [hk.total]
    exact h.header (by omega)
  · intro h2
    dsimp only at h2
    exact h.early (by omega)
  · intro h3 hw
    dsimp only at h3 hw
    exact h.late (by omega) (by rw [← hk.wrap]; exact hw)
  · intro h1 hw
    dsimp only at h1 hw ⊢
    by_cases h0 : r.st.mode.phase = 0
    · obtain ⟨-, rfl, htotal⟩ := h.header h0
      exact ⟨hk.start h0 (by omega) hw, by rw [hk.total, htotal]; rfl⟩
    · obtain ⟨hcheck, hflags⟩ := hk.check h0
      rw [hk.wrap] at hw
      rw [hcheck, hk.total, checkOf, hflags]
      exact h.check (by omega) hw
  · intro h3 hw
    dsimp only at h3 hw ⊢
    obtain ⟨hcheck, hflags⟩ := hk.check (show r.st.mode.phase ≠ 0 by omega)
    rw [hk.wrap] at hw
    rw [hcheck, hk.total, checkOf, hflags]
    exact h.trailer (by omega) hw

/-- How a call ends that leaves at the pass from `r₀`. -/
inductive Ends (r₀ r : Regs) : Ret → Prop
  | streamEnd (h : r.st.mode = .done) (h' : r₀ = r) : Ends r₀ r .streamEnd
  | dataError (h : r.st.mode = .bad) (h' : r₀ = r) : Ends r₀ r .dataError
  | full (h : r.left = 0) (hm : r.st.mode = .copy ∨ r.st.mode = .match_ ∨ r.st.mode = .lit) :
      Ends r₀ r .ok
  | starved (h : r.acc.have_ = 0) (hm : r.st.mode.phase ≤ 3 ∧ r.st.mode ≠ .dict) : Ends r₀ r .ok
  | block (hm : r.st.mode = .type ∨ r.st.mode = .len_ ∨ r.st.mode = .copy_) : Ends r₀ r .ok

/-- What a pass of the loop leaves. -/
def StepGood (past : List UInt8) (start : Nat) (r : Regs) : Ctl → Prop
  | .loop r' => Good past start r' ∧ r.Follows r' ∧ r'.measure < r.measure ∧
      r.st.mode.follows r'.st.mode = true
  | .leave code r' => Good past start r' ∧ r.Follows r' ∧ r.Ends r' code
  | .ret code r' => r' = r ∧
      (code = .needDict ∧ r.st.mode = .dict ∨ code = .streamError ∧ r.st.mode = .sync)

/-- What the run of a case comes to, from the saved state `s`. -/
def Ran (s : InflateState) (acc : BitReader) (p : CaseProg) : Result InflateState → Prop
  | .leave acc' => s.BitsOk acc'.bits ∧ acc'.have_ = 0 ∧ p.runStream 0 acc'.held = none ∧
      p.runStream 0 acc.stream = none
  | .done st acc' => Keeps s st ∧ st.Ok ∧ st.BitsOk acc'.bits ∧
      (st.mode = .bad ∨ (acc.bits < 8 ∨ p.runStream 0 acc.held = none → acc'.bits < 8)) ∧
      p.runStream 0 acc.stream = some (st, acc'.stream)

theorem run_ran {s : InflateState} {acc : BitReader} {p : CaseProg}
    (hwp : p.wp true acc.bits 0 s.BitsOk Fine) (hk : Agree s.Alike p p) : Ran s acc p (p.run acc) := by
  have hspec := run_spec p hwp
  generalize p.run acc = res at hspec ⊢
  cases res with
  | leave acc' =>
    obtain ⟨-, hleft⟩ := hspec
    refine ⟨hleft.held, hleft.empty, ?_, hleft.stuck⟩
    rw [BitReader.held_of_empty hleft.empty, hleft.stream]
    exact hleft.stuck
  | done st acc' =>
    have hs := hspec.stream []
    rw [BitStream.append_nil, BitStream.append_nil] at hs
    have hkeep : Keeps s st := by
      rcases agree_runStream hk 0 acc.stream with ⟨hnone, -⟩ | ⟨a, b, v', ha, -, hR⟩
      · rw [hnone] at hs
        cases hs
      · rw [hs] at ha
        obtain ⟨rfl, -⟩ : st = a ∧ _ := by simpa using ha
        exact hR.2
    obtain ⟨u, ⟨hok, hbits, hu⟩, hlazy⟩ := hspec.post
    refine ⟨hkeep, hok, hbits, hu.imp_right ?_, hs⟩
    rintro rfl h
    refine hlazy (h.imp_left fun h => ?_)
    rwa [Nat.zero_add]

/-- A case that is a program. -/
theorem Good.runCase (h : r.Good past start) {p : CaseProg}
    (hwp : p.wp true r.acc.bits 0 r.st.BitsOk Fine)
    (hk : Agree r.st.Alike p p) (hm : r.st.mode.phase ≠ 2)
    (hlow : r.st.mode.phase ≤ 3 ∧ r.st.mode ≠ .dict)
    (hprog : r.st.prog = some p)
    (hadv : ∀ s' v', p.runStream 0 r.acc.stream = some (s', v') →
      ∃ n, r.st.mode.Advances s' n ∧ v'.len + n ≤ r.acc.stream.len) :
    r.StepGood past start (r.runCase flush p) := by
  have hran := run_ran hwp hk
  have hends := run_ends p r.acc
  unfold Regs.runCase
  generalize p.run r.acc = res at hran hends ⊢
  obtain ⟨hmem, hends, hhave⟩ := hends
  cases res with
  | leave acc =>
    obtain ⟨hheld, hempty, hstuck, -⟩ := hran
    refine ⟨?_, ⟨hmem, hends, hhave, rfl, rfl, fun _ => rfl, id, id, le_rfl, ?_⟩,
      .starved hempty hlow⟩
    · exact { h with bits := hheld }
    · exact fun _ => .inr (.inr ⟨p, hprog, hstuck⟩)
  | done st acc =>
    obtain ⟨hkeep, hok, hbits, hlazy, hs⟩ := hran
    have hgood := h.keep hkeep hok hbits hm
    obtain ⟨⟨hp, -⟩, ⟨hhead, hsync⟩, -⟩ := (Mode.follows_iff _ _).mp hkeep.phase
    have hfollows : r.Follows { r with st := st, acc := acc } := by
      refine ⟨hmem, hends, hhave, ?_, hkeep.wrap, fun hw => hkeep.wbits (.inr hw),
        fun hm' => absurd hm' hhead, fun hm' => absurd hm' hsync, hp, fun hl => ?_⟩
      · rw [hkeep.wsize, hkeep.whave, hkeep.wnext, hkeep.window]
      · rcases hlazy with hbad | hlazy
        · exact .inr (.inl hbad)
        · refine .inl (hlazy ?_)
          rcases hl with hl | hl | ⟨q, hq, hstuck⟩
          · exact .inl hl
          · rw [hl] at hlow
            exact absurd hlow.1 (by decide)
          · rw [hprog] at hq
            obtain rfl := Option.some.inj hq
            exact .inr hstuck
    obtain ⟨n, hadv, hlen⟩ := hadv st acc.stream hs
    dsimp only
    split
    · next hflush => exact ⟨hgood, hfollows, .block (.inr hflush.2)⟩
    · refine ⟨hgood, hfollows, ?_, hkeep.phase⟩
      rw [BitReader.stream_len, BitReader.stream_len] at hlen
      have hrank : rank st.mode < 13 := by cases st.mode <;> decide
      unfold measure
      dsimp only
      rcases hadv with hadv | hadv <;> omega

/-- Programs run by themselves in the switch. -/
theorem bitCase_mode {s : InflateState} {p : CaseProg} (hp : s.bitCase = some p) :
    s.mode.phase ≠ 2 ∧ (s.mode.phase ≤ 3 ∧ s.mode ≠ .dict) ∧ s.prog = some p := by
  unfold InflateState.prog
  unfold InflateState.bitCase at hp ⊢
  generalize s.mode = m at hp ⊢
  cases m <;> simp only [reduceCtorEq] at hp <;> simp [Mode.phase, hp]

theorem Good.bitCase (h : r.Good past start) {p : CaseProg} (hp : r.st.bitCase = some p) :
    r.StepGood past start (r.runCase flush p) := by
  obtain ⟨hm, hlow, hprog⟩ := bitCase_mode hp
  obtain ⟨q, hq, hagree⟩ := InflateState.bitCase_agree rfl h.ok (fun _ _ => rfl) hp
  rw [hp] at hq
  obtain rfl := Option.some.inj hq
  exact h.runCase (InflateState.bitCase_wp hp h.ok h.bits) hagree hm hlow hprog
    fun s' v' hrun => InflateState.bitCase_advances h.ok hp hrun

/-- Where there is no program, no bits but the last of a byte are held. -/
theorem Lazy.bits_lt (h : r.Lazy) (hm : r.st.mode ≠ .bad) (hp : r.st.prog = none) :
    r.acc.bits < 8 := by
  rcases h with h | h | ⟨p, hp', -⟩
  · exact h
  · exact absurd h hm
  · rw [hp] at hp'
    cases hp'

section Header

theorem saveExtra_eq (s : InflateState) (bytes : List UInt8) :
    ∃ hd, s.saveExtra bytes = { s with head := hd } := ⟨_, rfl⟩

theorem saveName_eq (s : InflateState) (b : UInt8) :
    ∃ hd l, s.saveName b = { s with head := hd, length := l } := by
  unfold InflateState.saveName
  split
  · exact ⟨_, _, rfl⟩
  · split
    · exact ⟨_, _, rfl⟩
    · split <;> exact ⟨_, _, rfl⟩

theorem saveComment_eq (s : InflateState) (b : UInt8) :
    ∃ hd l, s.saveComment b = { s with head := hd, length := l } := by
  unfold InflateState.saveComment
  split
  · exact ⟨_, _, rfl⟩
  · split
    · exact ⟨_, _, rfl⟩
    · split <;> exact ⟨_, _, rfl⟩

/-- Saving bytes changes the header structure and the count only. -/
theorem foldl_save {save : InflateState → UInt8 → InflateState}
    (hsave : ∀ s b, ∃ hd l, save s b = { s with head := hd, length := l }) (bytes : List UInt8)
    (s : InflateState) : ∃ hd l, bytes.foldl save s = { s with head := hd, length := l } := by
  induction bytes generalizing s with
  | nil => exact ⟨_, _, rfl⟩
  | cons b bs ih =>
    obtain ⟨hd, l, hs⟩ := hsave s b
    rw [List.foldl_cons, hs]
    exact ih _

theorem headerCheck_eq (s : InflateState) (bytes : List UInt8) :
    ∃ c, s.headerCheck bytes = { s with check := c } := ⟨_, InflateState.headerCheck_eq bytes⟩

/-- The accounts after a step in the fields of a gzip header. -/
theorem Good.field (h : r.Good past start) (h0 : r.st.mode.phase = 0) (hf : r.st.flags ≠ 0)
    {acc : BitReader} (hb : acc.bits = 0) {m : Mode} (hm : m = .extra ∨ m = .name ∨ m = .comment ∨ m = .hcrc)
    (hd : Option GzHeader) (c l : Nat) : Good past start { r with
      st := { r.st with head := hd, check := c, length := l, mode := m }, acc := acc } := by
  have hp : m.phase = 0 := by rcases hm with rfl | rfl | rfl | rfl <;> rfl
  refine ⟨?_, ?_, h.whave, h.left, h.counted, fun _ => h.header h0, fun _ => h.early (by omega), ?_, ?_,
    ?_⟩
  · rcases hm with rfl | rfl | rfl | rfl <;> exact hf
  · rcases hm with rfl | rfl | rfl | rfl <;> simp [InflateState.BitsOk, hb]
  · intro h3
    dsimp only at h3
    omega
  · intro h1
    dsimp only at h1
    omega
  · intro h3
    dsimp only at h3
    omega

/-- A step in the fields of a gzip header leaves the rest alone. -/
theorem Follows.field {acc : BitReader} (h0 : r.st.mode.phase = 0) (hmem : acc.mem = r.acc.mem)
    (hends : acc.next + acc.have_ = r.acc.next + r.acc.have_) (hle : acc.have_ ≤ r.acc.have_)
    (hb : acc.bits = 0) {m : Mode} (hm : m = .extra ∨ m = .name ∨ m = .comment ∨ m = .hcrc)
    (hd : Option GzHeader) (c l : Nat) :
    r.Follows { r with
      st := { r.st with head := hd, check := c, length := l, mode := m }, acc := acc } := by
  have hhead : m ≠ .head := by rcases hm with rfl | rfl | rfl | rfl <;> nofun
  have hsync : m ≠ .sync := by rcases hm with rfl | rfl | rfl | rfl <;> nofun
  refine ⟨hmem, hends, hle, rfl, rfl, fun _ => rfl, fun h => absurd h hhead,
    fun h => absurd h hsync, ?_, fun _ => .inl ?_⟩
  · rw [h0]
    exact Nat.zero_le _
  · dsimp only
    omega

theorem caseExtra_good (h : r.Good past start) (hm : r.st.mode = .extra) :
    r.StepGood past start r.caseExtra := by
  have hok := h.ok
  have hbits := h.bits
  simp only [InflateState.Ok, InflateState.BitsOk, hm] at hok hbits
  have h0 : r.st.mode.phase = 0 := by rw [hm]; rfl
  have hend : ∀ {acc : BitReader} {hd : Option GzHeader} {c : Nat}, acc.mem = r.acc.mem →
      acc.next + acc.have_ = r.acc.next + r.acc.have_ → acc.have_ ≤ r.acc.have_ → acc.bits = 0 →
      r.StepGood past start (.loop { r with
        st := { r.st with head := hd, check := c, length := 0, mode := .name }, acc := acc }) := by
    intro acc hd c h1 h2 h3 h4
    refine ⟨h.field h0 hok h4 (.inr (.inl rfl)) hd c 0,
      .field h0 h1 h2 h3 h4 (m := .name) (.inr (.inl rfl)) hd c 0, ?_, by rw [hm]; rfl⟩
    simp only [measure, hm, rank]
    omega
  unfold caseExtra
  split
  · -- the bytes at hand are taken
    dsimp only
    obtain ⟨hd, hsave⟩ := saveExtra_eq r.st (bytesAt r.acc.mem r.acc.next (min r.st.length r.acc.have_))
    obtain ⟨c, hcheck⟩ := headerCheck_eq { r.st with head := hd }
      (bytesAt r.acc.mem r.acc.next (min r.st.length r.acc.have_))
    by_cases hcopy : min r.st.length r.acc.have_ ≠ 0
    · rw [if_pos hcopy, hsave, hcheck]
      dsimp only
      have hadv : (r.acc.advance (min r.st.length r.acc.have_)).next +
          (r.acc.advance (min r.st.length r.acc.have_)).have_ = r.acc.next + r.acc.have_ := by
        simp only [BitReader.advance]
        omega
      have hmem : (r.acc.advance (min r.st.length r.acc.have_)).mem = r.acc.mem := rfl
      have hnone : (r.acc.advance (min r.st.length r.acc.have_)).bits = 0 := hbits
      have hle : (r.acc.advance (min r.st.length r.acc.have_)).have_ ≤ r.acc.have_ := Nat.sub_le ..
      split
      · next hlen =>
        refine ⟨h.field h0 hok hnone (m := r.st.mode) (.inl hm) _ _ _,
          .field h0 hmem hadv hle hnone (m := r.st.mode) (.inl hm) _ _ _, .starved ?_ ?_⟩
        · simp only [BitReader.advance]
          omega
        · dsimp only
          rw [hm]
          decide
      · exact hend hmem hadv hle hnone
    · rw [if_neg hcopy]
      split
      · next hlen =>
        refine ⟨h, .refl r, .starved (by omega) ?_⟩
        rw [hm]
        decide
      · exact hend rfl rfl le_rfl hbits
  · exact hend rfl rfl le_rfl hbits

theorem takeString_length (bs : List UInt8) : (takeString bs).length ≤ bs.length := by
  induction bs with
  | nil => exact le_rfl
  | cons b bs ih =>
    unfold takeString
    split
    · simp
    · simpa using ih

/-- Bytes that do not end in a zero are all there are. -/
theorem takeString_all {b : List UInt8} (h : (takeString b).getLastD 0 ≠ 0) :
    takeString b = b := by
  induction b with
  | nil => rfl
  | cons b bs ih =>
    unfold takeString at h ⊢
    split at h
    · next hb => exact absurd hb h
    · next hb =>
      rw [if_neg hb]
      cases bs with
      | nil => rfl
      | cons b' bs =>
        have hne : takeString (b' :: bs) ≠ [] := by
          unfold takeString
          split <;> simp
        rw [List.getLastD_eq_getLast?, List.getLast?_cons_of_ne_nil hne,
          ← List.getLastD_eq_getLast?] at h
        rw [ih h]

theorem takeString_pos {b : List UInt8} (h : b ≠ []) : 0 < (takeString b).length := by
  cases b with
  | nil => exact absurd rfl h
  | cons b bs =>
    unfold takeString
    split <;> simp

/-- A string is scanned in one of the modes before the header check. -/
theorem scanString_good (h : r.Good past start) {save : InflateState → UInt8 → InflateState}
    {next : InflateState → InflateState} {m : Mode}
    (hm : r.st.mode = .name ∨ r.st.mode = .comment) (hm' : m = .comment ∨ m = .hcrc)
    (hsave : ∀ s b, ∃ hd l, save s b = { s with head := hd, length := l })
    (hnext : ∀ s, ∃ l, next s = { s with length := l, mode := m }) :
    r.StepGood past start (r.scanString save next) := by
  have hok := h.ok
  have hbits := h.bits
  have h0 : r.st.mode.phase = 0 := by rcases hm with hm | hm <;> rw [hm] <;> rfl
  have hfield : r.st.mode = .extra ∨ r.st.mode = .name ∨ r.st.mode = .comment ∨ r.st.mode = .hcrc :=
    .inr (hm.imp_right .inl)
  have hflags : r.st.flags ≠ 0 := by
    unfold InflateState.Ok at hok
    rcases hm with hm | hm <;> simpa only [hm] using hok
  have hnone : r.acc.bits = 0 := by
    unfold InflateState.BitsOk at hbits
    rcases hm with hm | hm <;> simpa only [hm] using hbits
  have hlow : r.st.mode.phase ≤ 3 ∧ r.st.mode ≠ .dict := by
    rcases hm with hm | hm <;> rw [hm] <;> decide
  unfold scanString
  split
  · next hempty => exact ⟨h, .refl r, .starved hempty hlow⟩
  · next hhave =>
    have hlen := takeString_length (bytesAt r.acc.mem r.acc.next r.acc.have_)
    have hpos := takeString_pos (b := bytesAt r.acc.mem r.acc.next r.acc.have_) (by
      rw [← List.length_pos_iff, length_bytesAt]
      omega)
    have hall := takeString_all (b := bytesAt r.acc.mem r.acc.next r.acc.have_)
    generalize takeString (bytesAt r.acc.mem r.acc.next r.acc.have_) = bytes at hlen hpos hall
    rw [length_bytesAt] at hlen
    obtain ⟨hd, l, hfold⟩ := foldl_save hsave bytes r.st
    obtain ⟨c, hcheck⟩ := headerCheck_eq { r.st with head := hd, length := l } bytes
    have hmem : (r.acc.advance bytes.length).mem = r.acc.mem := rfl
    have hadv : (r.acc.advance bytes.length).next + (r.acc.advance bytes.length).have_ =
        r.acc.next + r.acc.have_ := by
      simp only [BitReader.advance]
      omega
    have hle : (r.acc.advance bytes.length).have_ ≤ r.acc.have_ := Nat.sub_le ..
    have hbits' : (r.acc.advance bytes.length).bits = 0 := hnone
    dsimp only
    rw [hfold, hcheck]
    split
    · next hlast =>
      refine ⟨h.field h0 hflags hbits' (m := r.st.mode) hfield _ _ _,
        .field h0 hmem hadv hle hbits' (m := r.st.mode) hfield _ _ _, .starved ?_ hlow⟩
      rw [hall hlast, length_bytesAt]
      exact Nat.sub_self _
    · obtain ⟨l', hnext⟩ := hnext { r.st with head := hd, length := l, check := c }
      rw [hnext]
      have hrank : rank m ≤ 9 := by rcases hm' with rfl | rfl <;> decide
      have hmfield : m = .extra ∨ m = .name ∨ m = .comment ∨ m = .hcrc := .inr (.inr hm')
      refine ⟨h.field h0 hflags hbits' hmfield hd c l',
        .field h0 hmem hadv hle hbits' hmfield hd c l', ?_, ?_⟩
      · simp only [measure, BitReader.advance]
        omega
      · rcases hm with hm | hm <;> rcases hm' with rfl | rfl <;> rw [hm] <;> rfl

theorem caseName_good (h : r.Good past start) (hm : r.st.mode = .name) :
    r.StepGood past start r.caseName := by
  have hok := h.ok
  have hbits := h.bits
  simp only [InflateState.Ok, InflateState.BitsOk, hm] at hok hbits
  have h0 : r.st.mode.phase = 0 := by rw [hm]; rfl
  unfold caseName
  dsimp only
  split
  · exact scanString_good h (.inl hm) (.inl rfl) saveName_eq fun s => ⟨0, rfl⟩
  · refine ⟨h.field h0 hok hbits (m := .comment) (.inr (.inr (.inl rfl))) _ _ _,
      .field h0 rfl rfl le_rfl hbits (m := .comment) (.inr (.inr (.inl rfl))) _ _ _, ?_,
      by rw [hm]; rfl⟩
    simp only [measure, hm, rank]
    omega

theorem caseComment_good (h : r.Good past start) (hm : r.st.mode = .comment) :
    r.StepGood past start r.caseComment := by
  have hok := h.ok
  have hbits := h.bits
  simp only [InflateState.Ok, InflateState.BitsOk, hm] at hok hbits
  have h0 : r.st.mode.phase = 0 := by rw [hm]; rfl
  unfold caseComment
  dsimp only
  split
  · exact scanString_good h (.inr hm) (.inr rfl) saveComment_eq fun s => ⟨s.length, rfl⟩
  · refine ⟨h.field h0 hok hbits (m := .hcrc) (.inr (.inr (.inr rfl))) _ _ _,
      .field h0 rfl rfl le_rfl hbits (m := .hcrc) (.inr (.inr (.inr rfl))) _ _ _, ?_, by rw [hm]; rfl⟩
    simp only [measure, hm, rank]
    omega

theorem caseDict_good (h : r.Good past start) (hm : r.st.mode = .dict) :
    r.StepGood past start r.caseDict := by
  have hok := h.ok
  have hbits := h.bits
  simp only [InflateState.Ok, InflateState.BitsOk, hm] at hok hbits
  have h0 : r.st.mode.phase = 0 := by rw [hm]; rfl
  obtain ⟨hout, hpast, htotal⟩ := h.header h0
  unfold caseDict
  split
  · refine ⟨⟨trivial, hbits, h.whave, h.left, h.counted, by rintro ⟨⟩, fun _ => h.early (by omega),
      by rintro (⟨⟨⟩⟩ | ⟨⟨⟩⟩), fun _ _ => ⟨?_, ?_⟩, by rintro (⟨⟨⟩⟩ | ⟨⟨⟩⟩)⟩,
      ⟨rfl, rfl, le_rfl, rfl, rfl, fun _ => rfl, by rintro ⟨⟩, by rintro ⟨⟩, ?_, fun hl => ?_⟩, ?_,
      by rw [hm]; rfl⟩
    · rw [hpast, checkOf, hashOf, if_neg (not_not.mpr hok)]
      exact (adler32_nil _).symm
    · rw [htotal, hpast]
      rfl
    · rw [h0]
      exact Nat.zero_le _
    · refine .inl (hl.bits_lt (by rw [hm]; decide) ?_)
      simp only [InflateState.prog, InflateState.bitCase, hm]
    · simp only [measure, hm, rank]
      omega
  · exact ⟨rfl, .inl ⟨rfl, hm⟩⟩

end Header

end Regs
end ZlibNg
