import ZlibNg.Inflate.Session

/-! What a call of `inflate` leaves in the stream. -/
namespace ZlibNg
open BitProg

namespace Mode

/-- Before the check value, and before an error, as the comparisons of modes have it. -/
theorem index_check (m : Mode) : m.index < Mode.check.index ↔ m.phase ≤ 1 := by
  cases m <;> decide

theorem index_bad (m : Mode) : m.index < Mode.bad.index ↔ m.phase ≤ 4 := by
  cases m <;> decide

end Mode

namespace Regs
variable {past : List UInt8} {start : Nat} {r₀ r : Regs} {flush : Flush} {code : Ret}

/-- The window is updated at the end of the call. -/
def Opens (flush : Flush) (r : Regs) : Prop :=
  r.st.wsize ≠ 0 ∨ (r.mark ≠ r.left ∧ r.st.mode.index < Mode.bad.index ∧
    (r.st.mode.index < Mode.check.index ∨ flush ≠ .finish))

instance (flush : Flush) (r : Regs) : Decidable (r.Opens flush) :=
  inferInstanceAs (Decidable (_ ∨ _))

/-- The window and the check value at the end of the call. -/
def leaveState (flush : Flush) (code : Ret) (r : Regs) : InflateState :=
  if r.Opens flush then r.st.updatewindow r.pending (r.st.wrap &&& 4 ≠ 0)
  else if flush = .finish ∧ code = .ok then r.st.infChksum r.pending
  else r.st

/-- What `inf_leave` changes of the state. -/
theorem leaveState_eq (flush : Flush) (code : Ret) (hn : r.st.wnext ≤ r.st.wsize) :
    ∃ wsize whave wnext window adler check, r.leaveState flush code = { r.st with
      wsize := wsize, whave := whave, wnext := wnext, window := window, adler := adler
      check := check } ∧ (check = r.st.check ∨ check = r.st.hash r.pending) := by
  unfold leaveState
  split
  · obtain ⟨a, ha⟩ := InflateState.updatewindow_rest hn r.pending (r.st.wrap &&& 4 ≠ 0)
    refine ⟨_, _, _, _, _, _, ha, ?_⟩
    split
    · exact .inr rfl
    · exact .inl rfl
  · split
    · exact ⟨_, _, _, _, _, _, rfl, .inr rfl⟩
    · exact ⟨_, _, _, _, _, _, rfl, .inl rfl⟩

theorem pending_of_eq (h : r.mark = r.left + r.out.length) : r.pending = r.out.reverse := by
  unfold pending
  rw [h, Nat.add_sub_cancel_left, List.take_length]

theorem pending_of_left (h : r.mark = r.left) : r.pending = [] := by
  unfold pending
  rw [h, Nat.sub_self, List.take_zero, List.reverse_nil]

/-- All the output is hashed when the call ends. -/
theorem leaveState_check (flush : Flush) (h : r.Good past start) (hn : r.st.wnext ≤ r.st.wsize)
    (hend : r₀.Ends r code) (h1 : 1 ≤ r.st.mode.phase ∧ r.st.mode.phase ≤ 4)
    (hw : r.st.wrap &&& 4 ≠ 0) :
    (r.leaveState flush code).check = checkOf r.st (r.out ++ past) ∧
      r.st.total + (r.mark - r.left) = (r.out ++ past).length := by
  have hw0 : r.st.wrap ≠ 0 := by
    intro h0
    rw [h0] at hw
    exact hw rfl
  by_cases h2 : r.st.mode.phase ≤ 2
  · obtain ⟨hcheck, htotal⟩ := h.check (by omega) hw
    have hmark := h.early h2
    have hhash : r.st.hash r.pending = checkOf r.st (r.out ++ past) := by
      rw [pending_of_eq hmark]
      exact hash_checkOf hcheck
    refine ⟨?_, by rw [List.length_append, htotal]; omega⟩
    unfold leaveState
    split
    · obtain ⟨a, ha⟩ := InflateState.updatewindow_rest hn r.pending (r.st.wrap &&& 4 ≠ 0)
      rw [ha]
      dsimp only
      rw [if_pos (decide_eq_true hw)]
      exact hhash
    · next hopens =>
      split
      · exact hhash
      · next hfinish =>
        -- nothing was written, or the check value has been reached with `Z_FINISH`
        unfold Opens at hopens
        rw [Mode.index_check, Mode.index_bad] at hopens
        by_cases hout : r.mark = r.left
        · have hnil : r.out = [] := List.length_eq_zero_iff.mp (by omega)
          rw [hnil]
          exact hcheck
        · have hmode : r.st.mode.phase = 2 ∧ flush = .finish := by
            constructor
            · by_contra h2'
              exact hopens (.inr ⟨hout, by omega, .inl (by omega)⟩)
            · by_contra hf
              exact hopens (.inr ⟨hout, by omega, .inr hf⟩)
          have hcode : code = .ok := by
            cases hend with
            | streamEnd hm | dataError hm =>
              rw [hm] at hmode
              cases hmode.1
            | full | starved | block => rfl
          exact absurd ⟨hmode.2, hcode⟩ hfinish
  · obtain ⟨hcheck, htotal⟩ := h.trailer (by omega) hw
    have hmark := h.late (by omega) hw0
    refine ⟨?_, by rw [htotal]; omega⟩
    obtain ⟨_, _, _, _, _, c, heq, hc⟩ := leaveState_eq flush code hn
    rw [heq]
    dsimp only
    rcases hc with hc | hc
    · rw [hc]
      exact hcheck
    · rw [hc, pending_of_left hmark, InflateState.hash_nil]
      exact hcheck

end Regs

namespace InflateStream
variable {strm : InflateStream} {r : Regs} {flush : Flush} {code : Ret}

/-- The stream after `inf_leave`. -/
theorem infLeave_eq (strm : InflateStream) (flush : Flush) (code : Ret) (r : Regs)
    (hn : r.st.wnext ≤ r.st.wsize) :
    ∃ d, strm.infLeave flush code r =
      (if ((strm.availIn - r.acc.have_ = 0 ∧ r.mark - r.left = 0) ∨ flush = .finish) ∧ code = .ok
        then .bufError else code,
      { strm.restore r with
        totalIn := strm.totalIn + (strm.availIn - r.acc.have_)
        totalOut := r.totalOut + (r.mark - r.left)
        dataType := d
        st := { r.leaveState flush code with total := r.st.total + (r.mark - r.left) } }) := by
  have hwsize : ∀ data ck, (r.st.updatewindow data ck).wsize ≠ 0 := by
    intro data ck
    obtain ⟨a, ha⟩ := InflateState.updatewindow_rest hn data ck
    rw [ha]
    exact r.st.opened_wsize
  have htotal : ∀ data ck, (r.st.updatewindow data ck).total = r.st.total := by
    intro data ck
    obtain ⟨a, ha⟩ := InflateState.updatewindow_rest hn data ck
    rw [ha]
  unfold infLeave Regs.leaveState
  by_cases hopens : r.Opens flush
  · rw [if_pos hopens]
    unfold Regs.Opens at hopens
    simp only [restore, hopens, if_true, hwsize, htotal, false_and, if_false]
    split <;> exact ⟨_, rfl⟩
  · rw [if_neg hopens]
    unfold Regs.Opens at hopens
    have h0 : r.st.wsize = 0 := not_not.mp fun h => hopens (.inl h)
    by_cases hbuf : ((strm.availIn - r.acc.have_ = 0 ∧ r.mark - r.left = 0) ∨ flush = .finish) ∧
        code = .ok
    · simp only [restore, hopens, if_false]
      rw [if_pos hbuf, if_pos hbuf]
      by_cases hf : flush = .finish
      · have hsum : r.st.wsize = 0 ∧ flush = .finish := ⟨h0, hf⟩
        have hsum' : flush = .finish ∧ code = .ok := ⟨hf, hbuf.2⟩
        rw [if_pos hsum, if_pos hsum']
        exact ⟨_, rfl⟩
      · have hsum : ¬(r.st.wsize = 0 ∧ flush = .finish) := fun h => hf h.2
        have hsum' : ¬(flush = .finish ∧ code = .ok) := fun h => hf h.1
        rw [if_neg hsum, if_neg hsum']
        exact ⟨_, rfl⟩
    · simp only [restore, hopens, if_false]
      have hsum : ¬(flush = .finish ∧ code = .ok) := fun h => hbuf ⟨.inr h.1, h.2⟩
      rw [if_neg hbuf, if_neg hbuf, if_neg hsum]
      exact ⟨_, rfl⟩

end InflateStream
end ZlibNg
