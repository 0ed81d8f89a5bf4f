import ZlibNg.Inflate.Symbol

/-! The sliding window as a history, newest byte first, and the copies from it. -/
namespace ZlibNg

/-- The byte that was written `k` bytes before the end of the window. -/
def InflateState.windowByte (s : InflateState) (k : Nat) : UInt8 :=
  if k ≤ s.wnext then s.window (s.wnext - k) else s.window (s.wsize - (k - s.wnext))

/-- The valid bytes of the window, newest first. -/
def InflateState.windowHist (s : InflateState) : List UInt8 :=
  (List.range s.whave).map fun i => s.windowByte (i + 1)

@[simp] theorem InflateState.length_windowHist (s : InflateState) :
    s.windowHist.length = s.whave := by
  simp [windowHist]

theorem InflateState.windowHist_getD {s : InflateState} {i : Nat} (h : i < s.whave) :
    s.windowHist.getD i 0 = s.windowByte (i + 1) := by
  rw [List.getD_eq_getElem _ _ (by simpa using h)]
  simp [windowHist]

section Copy
variable {s : InflateState}

/-- Bytes taken from the window in a row continue the copy of a match. -/
theorem copyWindow_eq {from_ n : Nat} (op : Nat) (out : List UInt8) (hn : n ≤ op) (hop : op ≤ s.whave)
    (hw : ∀ i < n, s.window (from_ + i) = s.windowByte (op - i)) :
    copyWindow (fun _ i => s.window i) from_ n out ++ s.windowHist =
      copyMatch (out.length + op) n (out ++ s.windowHist) := by
  induction n generalizing from_ op out with
  | zero => rfl
  | succ n ih =>
    have hbyte : (out ++ s.windowHist).getD (out.length + op - 1) 0 = s.window from_ := by
      rw [List.getD_append_right _ _ _ _ (by omega),
        InflateState.windowHist_getD (show out.length + op - 1 - out.length < s.whave by omega),
        show out.length + op - 1 - out.length + 1 = op by omega]
      simpa using (hw 0 (by omega)).symm
    rw [copyWindow, copyMatch, hbyte]
    have h := @ih (from_ + 1) (op - 1) (s.window from_ :: out) (by omega)
      (by omega) fun i hi => by
        rw [Nat.add_assoc, Nat.add_comm 1 i, hw (i + 1) (by omega)]
        congr 1
        omega
    rw [h, List.length_cons, show out.length + 1 + (op - 1) = out.length + op by omega]
    rfl

@[simp] theorem length_copyWindow (window : List UInt8 → Nat → UInt8) (from_ n : Nat)
    (out : List UInt8) : (copyWindow window from_ n out).length = n + out.length := by
  induction n generalizing from_ out with
  | zero => simp [copyWindow]
  | succ n ih =>
    rw [copyWindow, ih, List.length_cons]
    omega

/-- Where the byte `op` back is, unless it is past the wrap of the window. -/
theorem window_low {n : Nat} (op : Nat) (h : op ≤ s.wnext) (hn : n ≤ op) :
    ∀ i < n, s.window (s.wnext - op + i) = s.windowByte (op - i) := fun i hi => by
  rw [InflateState.windowByte, if_pos (by omega)]
  congr 1
  omega

theorem window_high {n : Nat} (op : Nat) (hsize : s.whave ≤ s.wsize) (hop : s.wnext + op ≤ s.whave)
    (hn : n ≤ op) :
    ∀ i < n, s.window (s.wsize - op + i) = s.windowByte (s.wnext + op - i) := fun i hi => by
  rw [InflateState.windowByte, if_neg (by omega)]
  congr 1
  omega

theorem copyRest_eq {e : FastEnv} (he : e.window = fun _ i => s.window i) {dist op from_ len : Nat}
    {out : List UInt8} (h0 : 0 < op) (hd : out.length + op = dist) (hop : op ≤ s.whave)
    (hw : ∀ i < min op len, s.window (from_ + i) = s.windowByte (op - i)) :
    FastRegs.copyRest e dist op from_ len out ++ s.windowHist =
      copyMatch dist len (out ++ s.windowHist) := by
  subst hd
  unfold FastRegs.copyRest
  rw [he]
  split
  · next hlt =>
    obtain ⟨k, rfl⟩ := Nat.exists_eq_add_of_le hlt.le
    rw [Nat.add_sub_cancel_left, ← copyMatch_append (by omega) k (by simp; omega),
      copyWindow_eq op out le_rfl hop fun i hi => hw i (by omega), ← copyMatch_add]
  · exact copyWindow_eq op out (by omega) hop fun i hi => hw i (by omega)

/-- `inflate_fast` copies a match as if byte by byte from the whole history. -/
theorem FastRegs.copy_out {e : FastEnv} {r : FastRegs} (he : e.window = fun _ i => r.st.window i)
    (hsize : r.st.whave ≤ r.st.wsize) (hout : e.start - r.room = r.out.length) {dist : Nat}
    (h0 : 0 < dist) (hd : dist ≤ r.out.length + r.st.whave) (len : Nat) :
    (r.copy e dist len).out ++ r.st.windowHist = copyMatch dist len (r.out ++ r.st.windowHist) := by
  simp only [copy, hout]
  split
  · next hlt =>
    split
    · next hw0 =>
      refine copyRest_eq he (by omega) (by omega) (by omega) ?_
      simpa only [hw0, Nat.zero_add] using
        window_high (dist - r.out.length) hsize (by omega) (Nat.min_le_left _ len)
    · split
      · next hlow =>
        exact copyRest_eq he (by omega) (by omega) (by omega)
          (window_low _ hlow (Nat.min_le_left _ len))
      · next hhigh =>
        have hback : r.st.wnext + (dist - r.out.length - r.st.wnext) = dist - r.out.length := by omega
        have hdist : r.out.length + (dist - r.out.length) = dist := by omega
        have hsrc : ∀ n, n ≤ dist - r.out.length - r.st.wnext → ∀ i < n,
            r.st.window (r.st.wsize - (dist - r.out.length - r.st.wnext) + i) =
              r.st.windowByte (dist - r.out.length - i) := fun n hn => by
          have := window_high (s := r.st) (dist - r.out.length - r.st.wnext) hsize (by omega) hn
          rwa [hback] at this
        split
        · next hlen =>
          have hfirst := copyWindow_eq (s := r.st) (dist - r.out.length) r.out
            (by omega) (by omega) (hsrc _ le_rfl)
          rw [copyRest_eq he (by omega) (by simp; omega) (by omega) fun i hi => by
            simpa using window_low (s := r.st) _ le_rfl (Nat.min_le_left _ _) i hi]
          rw [he, hfirst, hdist, ← copyMatch_add]
          congr 1
          omega
        · next hlen =>
          unfold copyRest
          rw [if_neg hlen, he, copyWindow_eq (dist - r.out.length) r.out (by omega) (by omega)
            (hsrc _ (by omega)), hdist]
  · exact (copyMatch_append h0 len (by omega) _).symm

end Copy
end ZlibNg
