import ZlibNg.Inflate.Machine
import ZlibNg.Trees.FixedCodes
import ZlibNg.Trees.HeaderSpec

/-! A block is read back: the decoder comes from the first bit of a block to the first bit behind
it, with the bytes of its symbols. -/
namespace ZlibNg
open BitProg

/-- The bytes of a symbol behind a history, newest first. -/
def BufferedSym.expand (x : BufferedSym) (hist : List UInt8) : List UInt8 :=
  if x.dist = 0 then UInt8.ofNat x.lc :: hist else copyMatch x.dist (x.lc + 3) hist

/-- The bytes that the symbols stand for. -/
def denoted (syms : List BufferedSym) (hist : List UInt8) : List UInt8 :=
  syms.foldl (fun hist x => x.expand hist) hist

/-- No match refers to a byte before the history. -/
def InHistory : List BufferedSym → List UInt8 → Prop
  | [], _ => True
  | x :: xs, hist => x.dist ≤ hist.length ∧ InHistory xs (x.expand hist)

namespace InflateState

/-- The tables are the same, and what is known of the last block. -/
structure SameCodes (s s' : InflateState) : Prop where
  lencode : s'.lencode = s.lencode
  lenbits : s'.lenbits = s.lenbits
  distcode : s'.distcode = s.distcode
  distbits : s'.distbits = s.distbits
  last : s'.last = s.last

theorem SameCodes.refl (s : InflateState) : s.SameCodes s := ⟨rfl, rfl, rfl, rfl, rfl⟩

theorem SameCodes.trans {s s' s'' : InflateState} (h : s.SameCodes s') (h' : s'.SameCodes s'') :
    s.SameCodes s'' :=
  ⟨h'.lencode.trans h.lencode, h'.lenbits.trans h.lenbits, h'.distcode.trans h.distcode,
    h'.distbits.trans h.distbits, h'.last.trans h.last⟩

end InflateState

section Steps
variable {reach : Nat → Nat} {s s' : InflateState} {v v' : BitStream} {hist : List UInt8}

/-- A case that only reads bits is a step. -/
theorem Decoder.next_bitCase {p : CaseProg} (hp : s.bitCase = some p) (hm : s.mode ≠ .length)
    (h : p.runStream 0 v = some (s', v')) :
    Decoder.next reach ⟨s, v, hist⟩ = some ⟨s', v', hist⟩ := by
  rw [Decoder.next_prog hp hm, Decoder.runCase, h]
  rfl

theorem SymbolRun.steps (h : SymbolRun s v s' v') (hist : List UInt8) :
    Decoder.Within reach ⟨s, v, hist⟩ ⟨s', v', hist⟩ := by
  induction h with
  | refl => exact .refl
  | step hm hp h _ ih =>
    refine .head ⟨fun htype => ?_, Decoder.next_bitCase hp (fun hlen => ?_) h⟩ ih
    · rw [htype] at hm
      cases hm
    · rw [hlen] at hm
      cases hm

/-- The modes of the header of a block with trees of its own. -/
def Mode.inTables : Mode → Bool
  | .table | .lenlens | .codelens => true
  | _ => false

/-- No case of such a header leads to another block. -/
theorem Mode.inTables_leads {m m' : Mode} (hm : m.inTables = true) (h : m.leads m' = true) :
    m'.inTables = true ∨ m' = .len_ ∨ m' = .bad := by
  revert hm h
  cases m <;> cases m' <;> decide

theorem CaseRun.steps (h : CaseRun s v s' v') (hs : s.mode.inTables = true) (hm : s'.mode = .len_)
    (hist : List UInt8) : Decoder.Within reach ⟨s, v, hist⟩ ⟨s', v', hist⟩ := by
  induction h with
  | refl => exact .refl
  | @step s s' s'' v v' v'' p hp h hr ih =>
    have hphase : s.mode.phase = 1 ∧ s.mode ≠ .type ∧ s.mode ≠ .length := by
      revert hs
      cases s.mode <;> decide
    refine .head ⟨hphase.2.1, Decoder.next_bitCase hp hphase.2.2 h⟩ ?_
    rcases Mode.inTables_leads hs (InflateState.bitCase_leads hp hphase.1 h) with hs' | hs' | hs'
    · exact ih hs' hm
    all_goals
      cases hr with
      | refl => exact .refl
      | step hp' _ _ =>
        rw [InflateState.bitCase, hs'] at hp'
        cases hp'

/-- A literal is read and written. -/
theorem Reads.lit_steps (ht : TablesOk s) (hm : s.mode = .len) {val n : Nat}
    (h : Reads s v (.lit val) n) (reach : Nat → Nat) (hist : List UInt8) :
    ∃ s', Decoder.Within reach ⟨s, v, hist⟩ ⟨s', v.drop n, UInt8.ofNat val :: hist⟩ ∧
      s'.mode = .len ∧ s.SameCodes s' := by
  obtain ⟨hrun, -⟩ := h.lit_run ht hm
  exact ⟨_, (hrun.steps hist).tail ⟨fun h => (by cases h), rfl⟩, rfl, rfl, rfl, rfl, rfl, rfl⟩

/-- The bytes of a match are written one after the other. -/
theorem match_steps (v : BitStream) {len dist : Nat} (hm : s.mode = .match_)
    (hlen : s.length = len + 1) (hdist : s.offset = dist) {hist : List UInt8}
    (hreach : ∀ n, hist.length ≤ n → dist ≤ reach n) :
    ∃ s', Decoder.Within reach ⟨s, v, hist⟩ ⟨s', v, copyMatch dist (len + 1) hist⟩ ∧
      s'.mode = .len ∧ s.SameCodes s' := by
  have hsteps := @Decoder.match_within reach s v (len + 1) hm (Nat.succ_pos _) hlen.ge hist
    fun n hn => by rw [hdist]; exact hreach n hn
  rw [hdist, if_pos (by omega)] at hsteps
  exact ⟨_, hsteps, rfl, rfl, rfl, rfl, rfl, rfl⟩

/-- A match is read and written. -/
theorem Reads.copy_steps (ht : TablesOk s) (hm : s.mode = .len) {len dist n : Nat}
    (h : Reads s v (.copy (len + 1) dist) n) {hist : List UInt8}
    (hreach : ∀ n, hist.length ≤ n → dist ≤ reach n) :
    ∃ s', Decoder.Within reach ⟨s, v, hist⟩ ⟨s', v.drop n, copyMatch dist (len + 1) hist⟩ ∧
      s'.mode = .len ∧ s.SameCodes s' := by
  obtain ⟨back, extra, hrun⟩ := h.copy_run ht hm
  obtain ⟨s', hsteps, hm', hsame⟩ := @match_steps reach (s.atMatch back extra (len + 1) dist)
    (v.drop n) len dist rfl rfl rfl hist hreach
  exact ⟨s', (hrun.steps hist).trans hsteps, hm', hsame.lencode, hsame.lenbits, hsame.distcode,
    hsame.distbits, hsame.last⟩

end Steps

/-- The decoder's tables have the codes of the symbols and of the end of the block. -/
structure BlockCodes (ltree dtree : CodeTree) (syms : List BufferedSym) (s : InflateState) : Prop where
  tables : TablesOk s
  lits : ∀ x ∈ syms, x.dist = 0 → HasCode .lens ltree s.lencode s.lenbits x.lc
  lens : ∀ x ∈ syms, x.dist ≠ 0 →
    HasCode .lens ltree s.lencode s.lenbits (zngLengthCode.getD x.lc 0 + 257)
  dists : ∀ x ∈ syms, x.dist ≠ 0 → HasCode .dists dtree s.distcode s.distbits (dCode (x.dist - 1))
  end_ : HasCode .lens ltree s.lencode s.lenbits 256

/-- A symbol before later bits. -/
def BufferedSym.putCode (ltree dtree : CodeTree) (x : BufferedSym) (rest : BitStream) : BitStream :=
  (BitStream.ofNat (x.code ltree dtree).1 (x.code ltree dtree).2).append rest

/-- The symbols of a block and its end, before later bits. -/
def putBlock (ltree dtree : CodeTree) (syms : List BufferedSym) (rest : BitStream) : BitStream :=
  syms.foldr (BufferedSym.putCode ltree dtree)
    ((BitStream.ofNat (ltree.code 256) (ltree.len 256)).append rest)

section Block
variable {ltree dtree : CodeTree} {syms : List BufferedSym} {s : InflateState} {reach : Nat → Nat}

theorem BlockCodes.congr {s' : InflateState} (h : BlockCodes ltree dtree syms s)
    (hs : s.SameCodes s') : BlockCodes ltree dtree syms s' := by
  obtain ⟨htables, hlits, hlens, hdists, hend⟩ := h
  rw [← hs.lencode, ← hs.lenbits] at hlits hlens hend
  rw [← hs.distcode, ← hs.distbits] at hdists
  refine ⟨⟨?_, ?_, ?_, ?_⟩, hlits, hlens, hdists, hend⟩
  · rw [hs.lencode, hs.lenbits]
    exact htables.len
  · rw [hs.lenbits]
    exact htables.lenbits
  · rw [hs.distcode, hs.distbits]
    exact htables.dist
  · rw [hs.distbits]
    exact htables.distbits

theorem BlockCodes.tail {x : BufferedSym} (h : BlockCodes ltree dtree (x :: syms) s) :
    BlockCodes ltree dtree syms s :=
  ⟨h.tables, fun y hy => h.lits y (List.mem_cons_of_mem _ hy),
    fun y hy => h.lens y (List.mem_cons_of_mem _ hy),
    fun y hy => h.dists y (List.mem_cons_of_mem _ hy), h.end_⟩

/-- A decoder that keeps the history, as far as a distance can reach. -/
def ReachesBack (reach : Nat → Nat) : Prop := ∀ n, min n 32768 ≤ reach n

/-- One symbol is read and written. -/
theorem BlockCodes.symbol_steps (hreach : ReachesBack reach) {x : BufferedSym}
    (h : BlockCodes ltree dtree (x :: syms) s) (hm : s.mode = .len) {hist : List UInt8}
    (hx : x.dist ≤ hist.length) (rest : BitStream) :
    ∃ s', Decoder.Within reach ⟨s, x.putCode ltree dtree rest, hist⟩ ⟨s', rest, x.expand hist⟩ ∧
      s'.mode = .len ∧ s.SameCodes s' := by
  unfold BufferedSym.putCode BufferedSym.code BufferedSym.expand
  by_cases h0 : x.dist = 0
  · have hread := (h.lits x List.mem_cons_self h0).lit_reads x.lc_lt rest
    obtain ⟨s', hsteps, hs'⟩ := hread.lit_steps h.tables hm reach hist
    rw [BitStream.drop_ofNat_append] at hsteps
    rw [if_pos h0, if_pos h0]
    exact ⟨s', hsteps, hs'⟩
  · obtain ⟨d, hd⟩ := Nat.exists_eq_add_of_le' (Nat.pos_of_ne_zero h0)
    have hdist := x.dist_le
    have hdcode := h.dists x List.mem_cons_self h0
    rw [hd, Nat.add_sub_cancel] at hdcode
    have hread := assembleDist_reads x.lc_lt (show d < 32768 by omega)
      (h.lens x List.mem_cons_self h0) hdcode rest
    rw [← hd] at hread
    have hback : ∀ n, hist.length ≤ n → x.dist ≤ reach n :=
      fun n hn => le_trans (by omega) (hreach n)
    obtain ⟨s', hsteps, hs'⟩ := hread.copy_steps h.tables hm hback
    rw [BitStream.drop_ofNat_append] at hsteps
    rw [if_neg h0, if_neg h0]
    exact ⟨s', hsteps, hs'⟩

/-- The symbols are read, and the end of the block behind them. -/
theorem BlockCodes.block_steps (hreach : ReachesBack reach) (h : BlockCodes ltree dtree syms s)
    (hm : s.mode = .len) {hist : List UInt8} (hin : InHistory syms hist) (rest : BitStream) :
    ∃ s', Decoder.Within reach ⟨s, putBlock ltree dtree syms rest, hist⟩
        ⟨s', rest, denoted syms hist⟩ ∧ s'.mode = .type ∧ s'.last = s.last := by
  induction syms generalizing s hist with
  | nil =>
    have hrun := (h.end_.end_reads rest).endBlock_run h.tables hm
    rw [BitStream.drop_ofNat_append] at hrun
    exact ⟨_, hrun.steps hist, rfl, rfl⟩
  | cons x syms ih =>
    obtain ⟨hx, hin⟩ := hin
    obtain ⟨s₁, hsteps, hm₁, hsame⟩ := h.symbol_steps hreach hm hx (putBlock ltree dtree syms rest)
    obtain ⟨s₂, hsteps', hm₂, hlast⟩ := ih (h.congr hsame).tail hm₁ hin
    exact ⟨s₂, hsteps.trans hsteps', hm₂, hlast.trans hsame.last⟩

theorem sentSyms_append (t : BitStream) (syms : List BufferedSym) (rest : BitStream) :
    (sentSyms ltree dtree t syms).append rest =
      t.append (syms.foldr (BufferedSym.putCode ltree dtree) rest) := by
  induction syms generalizing t with
  | nil => rfl
  | cons x syms ih =>
    change (sentSyms ltree dtree (t.append _) syms).append rest = _
    rw [ih, List.foldr_cons, BufferedSym.putCode, BitStream.append_assoc]

theorem compressBlock_writes (hl : ltree.Proper 286) (hd : dtree.Proper 30)
    (syms : List BufferedSym) :
    Writes (BitWriter.compressBlock ltree dtree syms) (putBlock ltree dtree syms) := by
  intro w hw
  obtain ⟨s, -, hblock, hheld, hstream, -⟩ :=
    compressBytes_spec hl hd (storeSyms_spec (fun _ => 0) syms).1 hw
  refine ⟨s.w, hblock, hheld, fun rest => ?_⟩
  rw [hstream, BitStream.append_assoc, sentSyms_append]
  rfl

end Block

/-- The first bits of a block. -/
def putHeader (type : Nat) (last : Bool) (rest : BitStream) : BitStream :=
  (BitStream.ofNat (type <<< 1 + last.toNat) 3).append rest

theorem emitTree_writes {type : Nat} (htype : type < 3) (last : Bool) :
    Writes (BitWriter.emitTree type last) (putHeader type last) :=
  Writes.sendBits (by decide) (by cases last <;> interval_cases type <;> decide)

section Header
variable {s : InflateState}

theorem putHeader_eq {type : Nat} (htype : type < 4) (last : Bool) (rest : BitStream) :
    putHeader type last rest =
      (BitStream.ofNat last.toNat 1).append ((BitStream.ofNat type 2).append rest) := by
  have hlast : last.toNat < 2 ^ 1 := by cases last <;> decide
  rw [putHeader, ← BitStream.append_assoc, BitStream.ofNat_append _ _ hlast,
    Nat.mod_eq_of_lt (show type < 2 ^ 2 by omega), Nat.shiftLeft_eq]
  congr 2
  omega

/-- The first bits of a block are read. -/
theorem header_step (reach : Nat → Nat) (hm : s.mode = .typedo) (hl : s.last = false) {type : Nat}
    (htype : type < 3) (last : Bool) (rest : BitStream) (hist : List UInt8) :
    Decoder.Within reach ⟨s, putHeader type last rest, hist⟩
      ⟨if type = 0 then { s with last := last, mode := .stored }
        else if type = 1 then { { s with last := last }.fixedtables with mode := .len_ }
        else { s with last := last, mode := .table }, rest, hist⟩ := by
  have hcase : s.bitCase = some s.caseTypedo := by rw [InflateState.bitCase, hm]
  refine .single ⟨by rw [hm]; decide, Decoder.next_bitCase hcase (by rw [hm]; decide) ?_⟩
  have h1 := peek_put (n := 1) (show last.toNat < 2 ^ 1 by cases last <;> decide)
  have h2 := peek_put (n := 2) (show type < 2 ^ 2 by omega)
  have hlast : decide (last.toNat = 1) = last := by cases last <;> rfl
  rw [putHeader_eq (by omega)]
  simp only [InflateState.caseTypedo, hl, Bool.false_eq_true, if_false, needBits, bits, dropBits,
    pure_eq, ret_bind, need_bind, peek_bind, skip_bind, runStream_ite, runStream,
    BitStream.append_len, BitStream.ofNat_len, h1, h2, BitStream.drop_ofNat_append, hlast]
  rw [if_pos (by omega)]
  split_ifs <;> first | rfl | omega

end Header

/-- A word and its complement. -/
theorem complement_xor {n : Nat} (h : n < 2 ^ 16) : (2 ^ 16 - 1 - n) ^^^ 0xffff = n := by
  apply Nat.eq_of_testBit_eq
  intro i
  rw [Nat.testBit_xor, show 2 ^ 16 - 1 - n = 2 ^ 16 - (n + 1) by omega,
    Nat.testBit_two_pow_sub_succ h, show 0xffff = 2 ^ 16 - 1 by rfl, Nat.testBit_two_pow_sub_one]
  by_cases hi : i < 16
  · simp [hi]
  · rw [Nat.testBit_lt_two_pow (h.trans_le (Nat.pow_le_pow_right (by omega) (by omega)))]
    simp [hi]

/-- The bits of a stored block behind the first ones: padding, lengths and bytes. -/
def putStored (pad : Nat) (bytes : List UInt8) (rest : BitStream) : BitStream :=
  (BitStream.ofNat 0 pad).append ((BitStream.ofNat bytes.length 16).append
    ((BitStream.ofNat (2 ^ 32 - 1 - bytes.length) 16).append ((BitStream.ofBytes bytes).append rest)))

section StoredSteps
variable {s : InflateState} {reach : Nat → Nat} {bytes : List UInt8}

/-- The lengths of a stored block are read. -/
theorem caseStored_run (hlen : bytes.length < 2 ^ 16) (rest : BitStream) :
    s.caseStored.runStream 0 ((BitStream.ofNat bytes.length 16).append
        ((BitStream.ofNat (2 ^ 32 - 1 - bytes.length) 16).append rest)) =
      some ({ s with length := bytes.length, mode := .copy_ }, rest) := by
  have hhigh : (2 ^ 32 - 1 - bytes.length) % 2 ^ 16 = 2 ^ 16 - 1 - bytes.length := by omega
  rw [← BitStream.append_assoc, BitStream.ofNat_append _ _ hlen, hhigh]
  have hword := peek_put (n := 32)
    (show bytes.length + 2 ^ 16 * (2 ^ 16 - 1 - bytes.length) < 2 ^ 32 by omega) rest
  simp only [InflateState.caseStored, needBits, hold, initBits, pure_eq, ret_bind, need_bind,
    whole_bind, empty_bind, runStream_ite, runStream, BitStream.append_len, BitStream.ofNat_len,
    Nat.zero_max, hword]
  have hlow : (bytes.length + 2 ^ 16 * (2 ^ 16 - 1 - bytes.length)) % 2 ^ 16 = bytes.length := by
    omega
  have hshift : (bytes.length + 2 ^ 16 * (2 ^ 16 - 1 - bytes.length)) >>> 16 =
      2 ^ 16 - 1 - bytes.length := by
    rw [Nat.shiftRight_eq_div_pow]
    omega
  rw [if_pos (Nat.le_add_right _ _), hlow, hshift, complement_xor hlen, if_neg (fun h => h rfl),
    BitStream.drop_ofNat_append]

/-- The bytes of a stored block are copied. -/
theorem copy_steps (hm : s.mode = .copy) (hlen : s.length = bytes.length) (rest : BitStream)
    (hist : List UInt8) :
    Decoder.Within reach ⟨s, (BitStream.ofBytes bytes).append rest, hist⟩
      ⟨{ s with length := 0, mode := .type }, rest, bytes.reverse ++ hist⟩ := by
  have hsteps := @Decoder.copy_within reach s bytes hm hlen.ge rest hist
  rw [hlen, Nat.sub_self] at hsteps
  refine hsteps.tail ⟨?_, ?_⟩
  · dsimp only
    rw [hm]
    decide
  · unfold Decoder.next
    dsimp only
    rw [hm]
    rfl

/-- A stored block is read, when the input is whole bytes. -/
theorem stored_steps (hm : s.mode = .stored) {pad : Nat} (hpad : pad < 8)
    (hlen : bytes.length < 2 ^ 16) {rest : BitStream} (hrest : rest.len % 8 = 0)
    (hist : List UInt8) :
    Decoder.Within reach ⟨s, putStored pad bytes rest, hist⟩
      ⟨{ s with length := 0, mode := .type }, rest, bytes.reverse ++ hist⟩ := by
  have hmod : (putStored pad bytes rest).len % 8 = pad := by
    simp only [putStored, BitStream.append_len, BitStream.ofNat_len, BitStream.ofBytes_len]
    omega
  have hzero : putStored 0 bytes rest = (BitStream.ofNat bytes.length 16).append
      ((BitStream.ofNat (2 ^ 32 - 1 - bytes.length) 16).append
        ((BitStream.ofBytes bytes).append rest)) := by
    rw [putStored, ← BitStream.drop_zero ((BitStream.ofNat 0 0).append _),
      BitStream.drop_ofNat_append]
  have hne : s.mode ≠ .type := by rw [hm]; decide
  have halign : Decoder.Within reach ⟨s, putStored pad bytes rest, hist⟩
      ⟨s, putStored 0 bytes rest, hist⟩ := by
    by_cases h0 : pad = 0
    · rw [h0]
      exact .refl
    · refine .single ⟨hne, ?_⟩
      unfold Decoder.next
      dsimp only
      rw [hm]
      dsimp only
      rw [hmod, if_pos h0, putStored, BitStream.drop_ofNat_append, hzero]
  have hlens : Decoder.next reach ⟨s, putStored 0 bytes rest, hist⟩ =
      some ⟨{ s with length := bytes.length, mode := .copy_ },
        (BitStream.ofBytes bytes).append rest, hist⟩ := by
    have hmod' : (putStored 0 bytes rest).len % 8 = 0 := by
      simp only [putStored, BitStream.append_len, BitStream.ofNat_len, BitStream.ofBytes_len]
      omega
    unfold Decoder.next
    dsimp only
    rw [hm]
    dsimp only
    rw [if_neg (fun h => h hmod'), Decoder.runCase, hzero]
    dsimp only
    rw [caseStored_run hlen]
    rfl
  have henter : Decoder.next reach ⟨{ s with length := bytes.length, mode := .copy_ },
      (BitStream.ofBytes bytes).append rest, hist⟩ =
        some ⟨{ s with length := bytes.length, mode := .copy },
          (BitStream.ofBytes bytes).append rest, hist⟩ := rfl
  have hcopy := @copy_steps { s with length := bytes.length, mode := .copy } reach bytes rfl rfl rest
    hist
  exact halign.trans (.head ⟨hne, hlens⟩ (.head ⟨fun h => (by cases h), henter⟩ hcopy))

end StoredSteps

/-- A block that the decoder reads back, from its first bit to the bits behind it. -/
def ReadsBack (reach : Nat → Nat) (block : BitStream) (hist : List UInt8) (last : Bool)
    (rest : BitStream) (hist' : List UInt8) : Prop :=
  ∀ s : InflateState, s.mode = .typedo → s.last = false →
    ∃ s', Decoder.Within reach ⟨s, block, hist⟩ ⟨s', rest, hist'⟩ ∧ s'.mode = .type ∧ s'.last = last

section Forms
variable {reach : Nat → Nat} (hreach : ReachesBack reach) {syms : List BufferedSym}
  {hist : List UInt8} (hin : InHistory syms hist)

theorem stored_readsBack {pad : Nat} (hpad : pad < 8) {bytes : List UInt8}
    (hlen : bytes.length < 2 ^ 16) (last : Bool) {rest : BitStream} (hrest : rest.len % 8 = 0) :
    ReadsBack reach (putHeader 0 last (putStored pad bytes rest)) hist last rest
      (bytes.reverse ++ hist) := by
  intro s hm hl
  have hhead := header_step reach hm hl (show 0 < 3 by decide) last
    (putStored pad bytes rest) hist
  have hsteps := @stored_steps { s with last := last, mode := .stored } reach bytes rfl pad hpad hlen
    rest hrest hist
  exact ⟨_, hhead.trans hsteps, rfl, rfl⟩

include hreach hin

theorem static_readsBack (last : Bool) (rest : BitStream) :
    ReadsBack reach (putHeader 1 last (putBlock staticLcodes staticDcodes syms rest)) hist last rest
      (denoted syms hist) := by
  intro s hm hl
  have hhead := header_step reach hm hl (show 1 < 3 by decide) last
    (putBlock staticLcodes staticDcodes syms rest) hist
  let s₁ : InflateState := { { s with last := last }.fixedtables with mode := .len }
  have henter : Decoder.next reach ⟨{ { s with last := last }.fixedtables with mode := .len_ },
      putBlock staticLcodes staticDcodes syms rest, hist⟩ =
        some ⟨s₁, putBlock staticLcodes staticDcodes syms rest, hist⟩ := rfl
  have hcodes : BlockCodes staticLcodes staticDcodes syms s₁ := by
    have htables := InflateState.fixedtables_ok s
    refine ⟨⟨htables.len, htables.lenbits, htables.dist, htables.distbits⟩,
      fun x _ _ => staticLcodes_hasCode s (x.lc_lt.trans (by decide)), fun x _ _ => ?_,
      fun x _ _ => staticDcodes_hasCode s (distance_tables x.pred_lt).1,
      staticLcodes_hasCode s (by decide)⟩
    have hcode := (length_tables x.lc_lt).1
    exact staticLcodes_hasCode s (by omega)
  obtain ⟨s', hsteps, hm', hlast⟩ := hcodes.block_steps hreach rfl hin rest
  exact ⟨s', hhead.trans (.head ⟨fun h => (by cases h), henter⟩ hsteps), hm', hlast⟩

omit hreach hin in
/-- A symbol in use has a code in the decoder's table. -/
theorem BuiltTree.Sent.hasCode {kind : TreeKind} {freq : Nat → Nat} {t : BuiltTree}
    (h : t.Sent kind freq) {type : CodeType} {bits : Nat} {blCount : Nat → Nat} {entry : Nat → Code}
    {root : Nat} (hsame : SameTree type bits t.lens blCount t.codeTree entry root) {n : Nat}
    (hn : n < kind.desc.elems) (h0 : freq n ≠ 0) : HasCode type t.codeTree entry root n := by
  obtain ⟨hlt, hne⟩ := lens_getD h.huffman h.counted hn h0
  exact hsame.hasCode hlt (by rw [hsame.len n hlt]; exact hne)

omit hreach hin in
/-- The decoder's table for the lengths of a tree. -/
theorem BuiltTree.Sent.sameTree {kind : TreeKind} {freq : Nat → Nat} {t : BuiltTree}
    (h : t.Sent kind freq) {type : CodeType} {bits : Nat} (hp : type.Passed t.lens.length bits)
    {d : DecodeTable} (hd : zngInflateTable type t.lens bits = .ok d) :
    SameTree type bits t.lens t.blCount t.codeTree d.entry d.bits := by
  have hmax := h.maxCode
  have hlen : t.lens.length = (t.maxCode + 1).toNat := by
    rw [BuiltTree.lens, List.length_map, List.length_range]
  rw [hlen] at hp
  obtain ⟨d', hd', hsame⟩ := t.sameTree h.huffman h.counted (k := (t.maxCode + 1).toNat)
    (by omega) (by omega) hp
  obtain rfl := Except.ok.inj (hd.symm.trans hd')
  exact hsame

/-- A block with trees of its own. -/
theorem dynamic_readsBack (dl : TreeKind → Nat → Nat) (hroom : syms.length ≤ 2 ^ 15) :
    ∃ t, buildTrees dl (syms.foldl tally initBlock) = some t ∧
      Writes (BitWriter.sendAllTrees t) t.put ∧ t.l.codeTree.Proper 286 ∧ t.d.codeTree.Proper 30 ∧
      ∀ last rest, ReadsBack reach
        (putHeader 2 last (t.put (putBlock t.l.codeTree t.d.codeTree syms rest))) hist last rest
        (denoted syms hist) := by
  obtain ⟨hlsum, hdsum⟩ := freqs_le literal_elems distance_elems syms
  have hlsum' := hlsum.trans (show syms.length + 1 ≤ 65535 by omega)
  have hdsum' := hdsum.trans (show syms.length ≤ 65535 by omega)
  obtain ⟨t, ht, hsend⟩ := buildTrees_sendable dl _ (tally_end syms) hlsum' hdsum'
  obtain ⟨hls, hds⟩ := buildTrees_sent hlsum' hdsum' ht
  obtain ⟨hlp, hdp⟩ := buildTrees_proper hlsum' hdsum' ht
  refine ⟨t, ht, sendAllTrees_writes hsend.l hsend.d.2 hsend.maxBlindex.2 hsend.blens hsend.lsyms
    hsend.dsyms hsend.bl, hlp, hdp, fun last rest s hm hl => ?_⟩
  have hhead := header_step reach hm hl (show 2 < 3 by decide) last
    (t.put (putBlock t.l.codeTree t.d.codeTree syms rest)) hist
  obtain ⟨s₁, hrun, hread, htables, hlast₁⟩ := hsend.read { s with last := last, mode := .table } rfl
    (putBlock t.l.codeTree t.d.codeTree syms rest)
  obtain ⟨lt, hlt, hlentry, hlbits⟩ := htables.l
  obtain ⟨dt, hdt, hdentry, hdbits⟩ := htables.d
  have hlsame := hls.sameTree (.lens hsend.l) hlt
  have hdsame := hds.sameTree (.dists hsend.d.2) hdt
  rw [← hlentry, ← hlbits] at hlsame
  rw [← hdentry, ← hdbits] at hdsame
  have henter : Decoder.next reach ⟨s₁, putBlock t.l.codeTree t.d.codeTree syms rest, hist⟩ =
      some ⟨{ s₁ with mode := .len }, putBlock t.l.codeTree t.d.codeTree syms rest, hist⟩ := by
    unfold Decoder.next
    dsimp only
    rw [hread.mode]
  have hcodes : BlockCodes t.l.codeTree t.d.codeTree syms { s₁ with mode := .len } := by
    have hused {x : BufferedSym} (hx : x ∈ syms) := tally_mem hx initBlock
    have htab := hlsame.tablesOk hdsame
    have hel : TreeKind.literal.desc.elems = 286 := rfl
    have hed : TreeKind.distance.desc.elems = 30 := rfl
    refine ⟨⟨htab.len, htab.lenbits, htab.dist, htab.distbits⟩, fun x hx h0 => ?_,
      fun x hx h0 => ?_, fun x hx h0 => ?_, hls.hasCode hlsame (by decide) (tally_end syms)⟩
    · have hlc := x.lc_lt
      exact hls.hasCode hlsame (by omega) ((hused hx).1 h0)
    · have hcode := (length_tables x.lc_lt).1
      exact hls.hasCode hlsame (by omega) ((hused hx).2 h0).1
    · have hcode := (distance_tables x.pred_lt).1
      exact hds.hasCode hdsame (by omega) ((hused hx).2 h0).2
  obtain ⟨s', hsteps, hm', hlast⟩ := hcodes.block_steps hreach rfl hin rest
  have hne : s₁.mode ≠ .type := by rw [hread.mode]; decide
  exact ⟨s', hhead.trans ((hrun.steps rfl hread.mode hist).trans (.head ⟨hne, henter⟩ hsteps)), hm',
    hlast.trans hlast₁⟩

end Forms

theorem BitStream.append_left_cancel {t u v : BitStream} (h : t.append u = t.append v) : u = v := by
  have hval := congrArg BitStream.val h
  have hlen := congrArg BitStream.len h
  rw [append_val, append_val] at hval
  rw [append_len, append_len] at hlen
  ext
  · exact Nat.eq_of_mul_eq_mul_left (Nat.two_pow_pos t.len) (Nat.add_left_cancel hval)
  · exact Nat.add_left_cancel hlen

/-- A stored block in the order of its bits. -/
theorem storedBlock_writes {w : BitWriter} (hw : w.Held) (last : Bool) {buf : List UInt8} {n : Nat}
    (hn : (buf.take n).length = n) :
    ∃ block pad, w.storedBlock buf n last = some block ∧ pad < 8 ∧ block.Held ∧ block.biValid = 0 ∧
      ∀ rest, block.stream.append rest =
        w.stream.append (putHeader 0 last (putStored pad (buf.take n) rest)) := by
  obtain ⟨bytes, used, hblock, hstream, -⟩ := BitWriter.storedBlock_spec hw last
  have hbits := BitWriter.stream_bytes (w := ⟨w.pending ++ bytes, 0, 0, used⟩) rfl rfl
    (leBytes n 2 ++ leBytes (2 ^ 32 - 1 - n) 2 ++ buf.take n)
  have hlast : 0 <<< 1 + last.toNat = last.toNat := by cases last <;> rfl
  refine ⟨_, BitStream.padBits (w.stream.append (BitStream.ofNat last.toNat 3)).len, hblock buf n,
    Nat.mod_lt _ (by decide), ⟨Nat.one_pos, Nat.succ_pos 63⟩, rfl, fun rest => ?_⟩
  rw [hbits, hstream, BitStream.pad, BitStream.ofBytes_append, BitStream.ofBytes_append,
    BitStream.ofBytes_leBytes, BitStream.ofBytes_leBytes, putHeader, hlast, putStored, hn]
  simp only [BitStream.append_assoc]

/-- `zng_tr_flush_block` for any list of symbols. -/
def trFlushSyms (a : FlushArgs) (syms : List BufferedSym) (dl : TreeKind → Nat → Nat)
    (w : BitWriter) : Option Flushed := do
  let (trees, optLen, staticLen, optLenb, staticLenb) :
      Option BlockTrees × Int × Int × Int × Int ←
    if syms.length = 0 then some (none, 0, 7, 0, 0)
    else if 0 < a.level then do
      let t ← buildTrees dl (syms.foldl tally initBlock)
      let optLenb := (t.optLen + 3 + 7) / 8
      let staticLenb := (t.staticLen + 3 + 7) / 8
      some (some t, t.optLen, t.staticLen,
        if staticLenb ≤ optLenb ∨ a.fixed then staticLenb else optLenb, staticLenb)
    else some (none, 0, 0, a.storedLen + 5, a.storedLen + 5)
  let form := a.form optLenb staticLenb
  let block ← a.emit form syms trees w
  some { form, optLen, staticLen, block, writer := if a.last then block.biWindup else block }

theorem trFlushBlock_eq (a : FlushArgs) (b : SymBuf) (dl : TreeKind → Nat → Nat) (w : BitWriter) :
    trFlushBlock a b dl w = trFlushSyms a b.syms dl w := rfl

/-- The input of a block is what its symbols stand for; it lies in the window, which is not longer
than a stored block. -/
structure FlushArgs.Describes (a : FlushArgs) (syms : List BufferedSym) (hist : List UInt8) :
    Prop where
  len : ∀ buf, a.buf = some buf → (buf.take a.storedLen).length = a.storedLen ∧ a.storedLen < 2 ^ 16
  bytes : ∀ buf, a.buf = some buf → denoted syms hist = (buf.take a.storedLen).reverse ++ hist

section Emit
variable {reach : Nat → Nat} (hreach : ReachesBack reach) {syms : List BufferedSym}
  {hist : List UInt8} (hin : InHistory syms hist) {a : FlushArgs} (ha : a.Describes syms hist)
  {w : BitWriter} (hw : w.Held)
include hreach hin ha hw

omit hreach hin ha hw in
/-- Bits before those that come later are bits by themselves. -/
theorem put_sent {t u : BitStream} {put : BitStream → BitStream}
    (h : ∀ rest, t.append rest = u.append (put rest)) :
    ∃ sent, t = u.append sent ∧ ∀ rest, sent.append rest = put rest := by
  have hnil := h (BitStream.ofBytes [])
  rw [BitStream.append_nil] at hnil
  refine ⟨put (BitStream.ofBytes []), hnil, fun rest => ?_⟩
  have hrest := h rest
  rw [hnil, BitStream.append_assoc] at hrest
  exact BitStream.append_left_cancel hrest

/-- A block is written that is read back. -/
structure SendsBlock (reach : Nat → Nat) (form : BlockForm) (w block : BitWriter) (sent : BitStream)
    (hist : List UInt8) (last : Bool) (hist' : List UInt8) : Prop where
  stream : block.stream = w.stream.append sent
  reads : ∀ rest, (form = .stored → rest.len % 8 = 0) →
    ReadsBack reach (sent.append rest) hist last rest hist'
  held : block.Held
  whole : form = .stored → block.biValid = 0

/-- The block in the form taken is read back. -/
theorem emit_readsBack (form : BlockForm) (trees : Option BlockTrees)
    (dl : TreeKind → Nat → Nat) (hroom : syms.length ≤ 2 ^ 15)
    (hstored : form = .stored → a.buf.isSome)
    (hdynamic : form = .dynamic → trees = buildTrees dl (syms.foldl tally initBlock)) :
    ∃ block sent, a.emit form syms trees w = some block ∧
      SendsBlock reach form w block sent hist a.last (denoted syms hist) := by
  cases form with
  | stored =>
    obtain ⟨buf, hbuf⟩ := Option.isSome_iff_exists.mp (hstored rfl)
    obtain ⟨hlen, hlt⟩ := ha.len buf hbuf
    obtain ⟨block, pad, hblock, hpad, hheld, hvalid, hputs⟩ := storedBlock_writes hw a.last hlen
    obtain ⟨sent, hsent, hput⟩ := put_sent hputs
    refine ⟨block, sent, ?_, hsent, fun rest hrest => ?_, hheld, fun _ => hvalid⟩
    · rw [FlushArgs.emit, hbuf]
      exact hblock
    · rw [ha.bytes buf hbuf, hput]
      exact stored_readsBack hpad (hlen.trans_lt hlt) a.last (hrest rfl)
  | static =>
    obtain ⟨w', hw', hheld, hputs⟩ := ((emitTree_writes (show 1 < 3 by decide) a.last).bind
      (compressBlock_writes staticLcodes_proper staticDcodes_proper syms)) w hw
    obtain ⟨sent, hsent, hput⟩ := put_sent hputs
    refine ⟨w', sent, hw', hsent, fun rest _ => ?_, hheld, fun h => (by cases h)⟩
    rw [hput]
    exact static_readsBack hreach hin a.last rest
  | dynamic =>
    obtain ⟨t, ht, hsend, hlp, hdp, hread⟩ := dynamic_readsBack hreach hin dl hroom
    obtain ⟨w', hw', hheld, hputs⟩ := ((emitTree_writes (show 2 < 3 by decide) a.last).bind (hsend.bind
      (compressBlock_writes hlp hdp syms))) w hw
    obtain ⟨sent, hsent, hput⟩ := put_sent hputs
    refine ⟨w', sent, ?_, hsent, fun rest _ => ?_, hheld, fun h => (by cases h)⟩
    · rw [hdynamic rfl, ht]
      exact hw'
    · rw [hput]
      exact hread a.last rest

omit hreach hin ha hw in
theorem FlushArgs.form_spec (optLenb staticLenb : Int) :
    (a.form optLenb staticLenb = .stored → a.buf.isSome) ∧
      (a.form optLenb staticLenb = .dynamic → staticLenb ≠ optLenb) := by
  unfold FlushArgs.form
  split_ifs with h1 h2
  · exact ⟨fun _ => h1.2, fun h => (by cases h)⟩
  · exact ⟨fun h => (by cases h), fun h => (by cases h)⟩
  · exact ⟨fun h => (by cases h), fun _ => h2⟩

/-- Whichever form is taken for it, a block is written that is read back; the last one is padded. -/
theorem trFlushSyms_sends {litBufsize : Nat} (hsize : litBufsize ≤ 2 ^ 15)
    (hroom : syms.length ≤ litBufsize) (dl : TreeKind → Nat → Nat) :
    ∃ f sent, trFlushSyms a syms dl w = some f ∧
      SendsBlock reach f.form w f.block sent hist a.last (denoted syms hist) ∧
      f.writer = if a.last then f.block.biWindup else f.block := by
  have hroom' := hroom.trans hsize
  unfold trFlushSyms
  by_cases h0 : syms.length = 0
  · rw [if_pos h0]
    obtain ⟨hstored, hdynamic⟩ := a.form_spec 0 0
    obtain ⟨block, sent, hblock, hsends⟩ := emit_readsBack hreach hin ha hw (a.form 0 0)
      none dl hroom' hstored fun h => absurd rfl (hdynamic h)
    simp only [Option.bind_eq_bind, Option.bind_some]
    rw [hblock]
    exact ⟨_, sent, rfl, hsends, rfl⟩
  · rw [if_neg h0]
    by_cases hlevel : 0 < a.level
    · obtain ⟨t, ht, -⟩ := dynamic_readsBack hreach hin dl hroom'
      rw [if_pos hlevel, ht]
      simp only [Option.bind_eq_bind, Option.bind_some]
      generalize hform : a.form _ _ = form
      obtain ⟨block, sent, hblock, hsends⟩ := emit_readsBack hreach hin ha hw form
        (some t) dl hroom' (fun h => (a.form_spec _ _).1 (hform.trans h))
        fun _ => ht.symm
      rw [hblock]
      exact ⟨_, sent, rfl, hsends, rfl⟩
    · rw [if_neg hlevel]
      obtain ⟨hstored, hdynamic⟩ := a.form_spec (a.storedLen + 5) (a.storedLen + 5)
      obtain ⟨block, sent, hblock, hsends⟩ := emit_readsBack hreach hin ha hw
        (a.form (a.storedLen + 5) (a.storedLen + 5)) none dl hroom' hstored
        fun h => absurd rfl (hdynamic h)
      simp only [Option.bind_eq_bind, Option.bind_some]
      rw [hblock]
      exact ⟨_, sent, rfl, hsends, rfl⟩

/-- Whichever form is taken for it, a block is read back: from its first bit the decoder comes to
the first bit behind it, with the bytes of the symbols, and knows whether it was the last one. After
a stored block, the input has to go on with whole bytes. -/
theorem trFlushSyms_decodes {litBufsize : Nat} (hsize : litBufsize ≤ 2 ^ 15)
    (hroom : syms.length ≤ litBufsize) (dl : TreeKind → Nat → Nat) :
    ∃ f sent, trFlushSyms a syms dl w = some f ∧ f.block.stream = w.stream.append sent ∧
      ∀ rest, (f.form = .stored → rest.len % 8 = 0) →
        ReadsBack reach (sent.append rest) hist a.last rest (denoted syms hist) := by
  obtain ⟨f, sent, hf, hsends, -⟩ := trFlushSyms_sends hreach hin ha hw hsize hroom dl
  exact ⟨f, sent, hf, hsends.stream, hsends.reads⟩

end Emit

end ZlibNg
