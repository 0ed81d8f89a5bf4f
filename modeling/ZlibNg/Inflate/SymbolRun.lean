import ZlibNg.Inflate.Window

/-! The cases `LEN`, `LENEXT`, `DIST` and `DISTEXT` take a symbol off the stream. -/
namespace ZlibNg
open BitProg

namespace InflateState
variable {s : InflateState}

theorem caseLenext_runStream (u : Nat) (v : BitStream) :
    s.caseLenext.runStream u v = if s.extra ≤ v.len then
      some ({ s with
        length := s.length + v.peek s.extra, back := s.back + s.extra
        was := s.length + v.peek s.extra, mode := .dist }, v.drop s.extra) else none := by
  simp only [caseLenext, needBits, bits, dropBits, pure_eq, ret_bind, need_bind, peek_bind,
    skip_bind, runStream_ite, runStream]
  by_cases h : s.extra = 0
  · simp [h, BitStream.peek, Nat.mod_one]
  · simp [h]

theorem caseDistext_runStream (u : Nat) (v : BitStream) :
    s.caseDistext.runStream u v = if s.extra ≤ v.len then
      some ({ s with
        offset := s.offset + v.peek s.extra, back := s.back + s.extra, mode := .match_ },
        v.drop s.extra) else none := by
  simp only [caseDistext, needBits, bits, dropBits, pure_eq, ret_bind, need_bind, peek_bind,
    skip_bind, runStream_ite, runStream]
  by_cases h : s.extra = 0
  · simp [h, BitStream.peek, Nat.mod_one]
  · simp [h]

end InflateState

/-- The modes in which the codes of a symbol are read. -/
def Mode.inCode : Mode → Bool
  | .len | .lenext | .dist | .distext => true
  | _ => false

/-- A run through the cases of a symbol, from a state and a stream to another. -/
inductive SymbolRun : InflateState → BitStream → InflateState → BitStream → Prop
  | refl (s : InflateState) (v : BitStream) : SymbolRun s v s v
  | step {s s' s'' : InflateState} {v v' v'' : BitStream} {p : CaseProg}
      (hm : s.mode.inCode = true) (hp : s.bitCase = some p) (h : p.runStream 0 v = some (s', v'))
      (hr : SymbolRun s' v' s'' v'') : SymbolRun s v s'' v''

namespace SymbolRun
variable {s s' s'' : InflateState} {v v' v'' : BitStream}

theorem len (hm : s.mode = .len) (h : s.caseLen.runStream 0 v = some (s', v'))
    (hr : SymbolRun s' v' s'' v'') : SymbolRun s v s'' v'' :=
  .step (by rw [hm]; rfl) (by simp [InflateState.bitCase, hm]) h hr

theorem lenext (hm : s.mode = .lenext) (h : s.caseLenext.runStream 0 v = some (s', v'))
    (hr : SymbolRun s' v' s'' v'') : SymbolRun s v s'' v'' :=
  .step (by rw [hm]; rfl) (by simp [InflateState.bitCase, hm]) h hr

theorem dist (hm : s.mode = .dist) (h : s.caseDist.runStream 0 v = some (s', v'))
    (hr : SymbolRun s' v' s'' v'') : SymbolRun s v s'' v'' :=
  .step (by rw [hm]; rfl) (by simp [InflateState.bitCase, hm]) h hr

theorem distext (hm : s.mode = .distext) (h : s.caseDistext.runStream 0 v = some (s', v'))
    (hr : SymbolRun s' v' s'' v'') : SymbolRun s v s'' v'' :=
  .step (by rw [hm]; rfl) (by simp [InflateState.bitCase, hm]) h hr

end SymbolRun

section Reads
variable {s : InflateState} {v : BitStream} {n : Nat}

/-- `LEN` selects a code. -/
theorem caseLen_lenCode (ht : TablesOk s) (h : s.lenSize v.val ≤ v.len) :
    s.caseLen.runStream 0 v =
      some (s.afterLen (s.lenCode v.val) (s.lenSize v.val), v.drop (s.lenSize v.val)) := by
  rw [InflateState.caseLen_runStream ht]
  exact if_pos h

theorem caseDist_distCode (ht : TablesOk s) (h : s.distSize v.val ≤ v.len) :
    s.caseDist.runStream 0 v =
      some (s.afterDist (s.distCode v.val) (s.distSize v.val), v.drop (s.distSize v.val)) := by
  rw [InflateState.caseDist_runStream ht]
  exact if_pos h

theorem Reads.lit_run (ht : TablesOk s) (hm : s.mode = .len) {val : Nat}
    (h : Reads s v (.lit val) n) :
    SymbolRun s v { s with back := n, length := val, mode := .lit } (v.drop n) ∧ val < 256 := by
  cases h with
  | lit l _ hv hc hn =>
    refine ⟨.len hm (caseLen_lenCode ht hn) ?_, hv⟩
    rw [hc]
    exact .refl _ _

theorem Reads.endBlock_run (ht : TablesOk s) (hm : s.mode = .len) (h : Reads s v .endBlock n) :
    SymbolRun s v { s with back := -1, length := 0, mode := .type } (v.drop n) := by
  cases h with
  | endBlock l hc hn =>
    refine .len hm (caseLen_lenCode ht hn) ?_
    rw [hc, InflateState.afterLen_eob]
    exact .refl _ _

theorem Reads.badLen_run (ht : TablesOk s) (hm : s.mode = .len) (h : Reads s v .badLen n) :
    SymbolRun s v ({ s with back := n, length := 0 }.setBad "invalid literal/length code")
      (v.drop n) := by
  cases h with
  | badLen op bits ho hc hn =>
    refine .len hm (caseLen_lenCode ht hn) ?_
    rw [hc, InflateState.afterLen_invalid s ho]
    exact .refl _ _

/-- The state at `DIST`, after a length with `extra` extra bits and a code of `size` bits. -/
def InflateState.atDist (s : InflateState) (size extra len : Nat) : InflateState :=
  { s with
    back := (size : Int) + extra, length := len, extra := extra, was := len, mode := .dist }

/-- The length of a match, up to its distance code. -/
theorem length_run (ht : TablesOk s) (hm : s.mode = .len) {l extra val : Nat} (hl : l ≤ 15)
    (hc : s.lenCode v.val = { op := 16 + l, bits := l + extra, val := val })
    (hn : s.lenSize v.val + extra ≤ v.len) {s' : InflateState} {v' : BitStream}
    (hr : SymbolRun (s.atDist (s.lenSize v.val) extra
      (val + v.val / 2 ^ s.lenSize v.val % 2 ^ extra)) (v.drop (s.lenSize v.val + extra)) s' v') :
    SymbolRun s v s' v' := by
  refine .len hm (caseLen_lenCode ht (by omega)) ?_
  rw [hc, InflateState.afterLen_base s hl]
  refine .lenext rfl (InflateState.caseLenext_runStream 0 _ |>.trans (if_pos ?_)) ?_
  · rw [BitStream.drop_len]
    dsimp only
    omega
  · rw [BitStream.drop_drop]
    exact hr

/-- The state at `DISTEXT`, after a distance code of `size` bits. -/
def InflateState.atDistext (s : InflateState) (size extra val : Nat) : InflateState :=
  { s with back := s.back + size, offset := val, extra := extra, mode := .distext }

theorem InflateState.atDist_tables (ht : TablesOk s) (size extra len : Nat) :
    TablesOk (s.atDist size extra len) := ⟨ht.1, ht.2, ht.3, ht.4⟩

theorem Reads.badDist_run (ht : TablesOk s) (hm : s.mode = .len) (h : Reads s v .badDist n) :
    ∃ back was length extra, SymbolRun s v
      ({ s with back := back, was := was, length := length, extra := extra }.setBad
        "invalid distance code") (v.drop n) := by
  cases h with
  | badDist l extra val l' m hl hc hm' hd hn =>
    subst hm'
    have hdist := caseDist_distCode (InflateState.atDist_tables ht (s.lenSize v.val) extra
      (val + v.val / 2 ^ s.lenSize v.val % 2 ^ extra)) (v := v.drop (s.lenSize v.val + extra)) (by
        rw [BitStream.drop_len, BitStream.drop_val]
        change s.distSize _ ≤ _
        omega)
    rw [BitStream.drop_val, BitStream.drop_drop] at hdist
    change _ = some (InflateState.afterDist _ (s.distCode _) _, _) at hdist
    rw [hd, InflateState.afterDist_invalid] at hdist
    exact ⟨_, _, _, _, length_run ht hm hl hc (by omega) (.dist rfl hdist (.refl _ _))⟩

/-- The state at `MATCH`, before anything has been copied. -/
def InflateState.atMatch (s : InflateState) (back : Int) (extra len dist : Nat) : InflateState :=
  { s with
    back := back, was := len, length := len, offset := dist, extra := extra, mode := .match_ }

theorem Reads.copy_run (ht : TablesOk s) (hm : s.mode = .len) {len dist : Nat}
    (h : Reads s v (.copy len dist) n) :
    ∃ back extra, SymbolRun s v (s.atMatch back extra len dist) (v.drop n) := by
  cases h with
  | copy l extra val l' extra' val' n m hl hl' hc hm' hd hm'' hn =>
    subst hm' hm''
    have hdist := caseDist_distCode (InflateState.atDist_tables ht (s.lenSize v.val) extra
      (val + v.val / 2 ^ s.lenSize v.val % 2 ^ extra)) (v := v.drop (s.lenSize v.val + extra)) (by
        rw [BitStream.drop_len, BitStream.drop_val]
        change s.distSize _ ≤ _
        omega)
    rw [BitStream.drop_val, BitStream.drop_drop] at hdist
    change _ = some (InflateState.afterDist _ (s.distCode _) _, _) at hdist
    rw [hd, InflateState.afterDist_base _ hl'] at hdist
    have hext := InflateState.caseDistext_runStream
      (s := (s.atDist (s.lenSize v.val) extra
        (val + v.val / 2 ^ s.lenSize v.val % 2 ^ extra)).atDistext
        (s.distSize (v.val / 2 ^ (s.lenSize v.val + extra))) extra' val') 0
      (v.drop (s.lenSize v.val + extra + s.distSize (v.val / 2 ^ (s.lenSize v.val + extra))))
    rw [if_pos (by
      rw [BitStream.drop_len]
      change extra' ≤ _
      omega), BitStream.drop_drop, BitStream.peek, BitStream.drop_val] at hext
    exact ⟨_, _, length_run ht hm hl hc (by omega) (.dist rfl hdist (.distext rfl hext (.refl _ _)))⟩

end Reads
end ZlibNg
