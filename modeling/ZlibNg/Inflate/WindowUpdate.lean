import ZlibNg.Inflate.Window
import ZlibNg.Inflate.Live

/-! `updatewindow` keeps the newest output in the window, and the check value up to date. -/
namespace ZlibNg

/-- The window holds the newest bytes of the output `h`: all of them, or as many as fit. -/
structure WindowOk (s : InflateState) (h : List UInt8) : Prop where
  hist : s.windowHist = h.take s.whave
  size : s.wsize = 0 ∨ s.wsize = 2 ^ s.wbits
  next : s.wnext < s.wsize ∨ s.wsize = 0 ∧ s.wnext = 0
  wrapped : s.whave = s.wsize ∨ s.whave = s.wnext
  all : s.whave = h.length ∨ s.whave = s.wsize ∧ s.wsize ≠ 0 ∧ s.whave ≤ h.length

theorem WindowOk.whave_le {s : InflateState} {h : List UInt8} (hw : WindowOk s h) :
    s.whave ≤ s.wsize ∧ s.whave ≤ h.length := by
  obtain ⟨-, -, hnext, hwrapped, hall⟩ := hw
  constructor <;> omega

/-- Only the fields of the window count. -/
theorem WindowOk.congr {s s' : InflateState} {h : List UInt8} (hw : WindowOk s h)
    (he : (s'.wsize, s'.whave, s'.wnext, s'.window, s'.wbits) =
      (s.wsize, s.whave, s.wnext, s.window, s.wbits)) : WindowOk s' h := by
  simp only [Prod.mk.injEq] at he
  obtain ⟨h1, h2, h3, h4, h5⟩ := he
  have hbyte : s'.windowByte = s.windowByte := by
    funext k
    simp only [InflateState.windowByte, h1, h3, h4]
  have hhist : s'.windowHist = s.windowHist := by
    simp only [InflateState.windowHist, h2, hbyte]
  obtain ⟨g1, g2, g3, g4, g5⟩ := hw
  refine ⟨?_, ?_, ?_, ?_, ?_⟩
  · rw [hhist, h2]
    exact g1
  · rw [h1, h5]
    exact g2
  · rw [h1, h3]
    exact g3
  · rw [h1, h2, h3]
    exact g4
  · rw [h1, h2]
    exact g5

section Bytes
variable {s : InflateState} {h data : List UInt8} {k : Nat}

theorem writeBytes_mem {buf : Nat → UInt8} {pos i : Nat} (h1 : pos ≤ i)
    (h2 : i < pos + data.length) : writeBytes buf pos data i = data.getD (i - pos) 0 :=
  if_pos ⟨h1, h2⟩

theorem writeBytes_not_mem {buf : Nat → UInt8} {pos i : Nat} (h1 : i < pos ∨ pos + data.length ≤ i) :
    writeBytes buf pos data i = buf i :=
  if_neg (by omega)

theorem getD_take {n i : Nat} (hi : i < n) : (data.take n).getD i 0 = data.getD i 0 := by
  simp [List.getD_eq_getElem?_getD, hi]

theorem getD_drop {n i : Nat} : (data.drop n).getD i 0 = data.getD (n + i) 0 := by
  simp [List.getD_eq_getElem?_getD, List.getElem?_drop]

/-- The byte `k` back after new data. -/
theorem newest_getD (h0 : 0 < k) (hk : k ≤ data.length) :
    (data.reverse ++ h).getD (k - 1) 0 = data.getD (data.length - k) 0 := by
  rw [List.getD_append _ _ _ _ (by simp; omega), List.getD_eq_getElem _ _ (by simp; omega),
    List.getElem_reverse, List.getD_eq_getElem _ _ (by omega)]
  congr 1
  omega

theorem older_getD (hk : data.length < k) :
    (data.reverse ++ h).getD (k - 1) 0 = h.getD (k - data.length - 1) 0 := by
  rw [List.getD_append_right _ _ _ _ (by simp; omega), List.length_reverse]
  congr 1
  omega

/-- The bytes of the window are those of the output. -/
theorem WindowOk.byte (hw : WindowOk s h) (h0 : 0 < k) (hk : k ≤ s.whave) :
    s.windowByte k = h.getD (k - 1) 0 := by
  have hget := InflateState.windowHist_getD (s := s) (i := k - 1) (by omega)
  rw [hw.hist, getD_take (by omega), Nat.sub_add_cancel h0] at hget
  exact hget.symm

theorem windowHist_of_byte (hle : s.whave ≤ h.length)
    (hb : ∀ k, 0 < k → k ≤ s.whave → s.windowByte k = h.getD (k - 1) 0) :
    s.windowHist = h.take s.whave := by
  apply List.ext_getElem
  · simp [hle]
  · intro i hi _
    have hi' : i < s.whave := by simpa using hi
    simp only [InflateState.windowHist, List.getElem_map, List.getElem_range, List.getElem_take]
    rw [hb (i + 1) (by omega) (by omega), Nat.add_sub_cancel, List.getD_eq_getElem]

/-- More data than the window holds. -/
theorem WindowOk.fill (hw : WindowOk s h) (h0 : s.wsize ≠ 0) (hlen : s.wsize ≤ data.length) :
    WindowOk { s with
      window := writeBytes s.window 0 (data.drop (data.length - s.wsize))
      wnext := 0, whave := s.wsize } (data.reverse ++ h) := by
  refine ⟨windowHist_of_byte (by simp; omega) fun k hk0 hk => ?_, hw.size, .inl (by dsimp only; omega),
    .inl rfl, .inr ⟨rfl, h0, by simp; omega⟩⟩
  dsimp only at hk
  rw [newest_getD hk0 (by omega), InflateState.windowByte, if_neg (by dsimp only; omega)]
  dsimp only
  rw [writeBytes_mem (Nat.zero_le _) (by rw [List.length_drop]; omega), getD_drop]
  congr 1
  omega

/-- Data that fits before the end of the window. -/
theorem WindowOk.extend (hw : WindowOk s h) (hlen : data.length < s.wsize)
    (hfit : s.wnext + data.length ≤ s.wsize) :
    WindowOk { s with
      window := writeBytes s.window s.wnext data
      wnext := if s.wnext + data.length = s.wsize then 0 else s.wnext + data.length
      whave := if s.whave < s.wsize then s.whave + data.length else s.whave } (data.reverse ++ h) := by
  have hnext := hw.next
  have hwrapped := hw.wrapped
  have hall := hw.all
  obtain ⟨hle, hle'⟩ := hw.whave_le
  refine ⟨windowHist_of_byte ?_ fun k hk0 hk => ?_, hw.size, ?_, ?_, ?_⟩
  · rw [List.length_append, List.length_reverse]
    dsimp only
    split <;> omega
  · dsimp only at hk
    have hkw : k ≤ s.wsize ∧ k ≤ s.whave + data.length := by split at hk <;> omega
    -- the place of the byte is the one that it had, or one of those just written
    have hplace : InflateState.windowByte { s with
        window := writeBytes s.window s.wnext data
        wnext := if s.wnext + data.length = s.wsize then 0 else s.wnext + data.length
        whave := if s.whave < s.wsize then s.whave + data.length else s.whave } k =
        writeBytes s.window s.wnext data (if k ≤ s.wnext + data.length then
          s.wnext + data.length - k else s.wsize - (k - (s.wnext + data.length))) := by
      simp only [InflateState.windowByte]
      by_cases hend : s.wnext + data.length = s.wsize
      · rw [if_pos hend, if_neg (by omega), if_pos (by omega)]
        congr 1
        omega
      · rw [if_neg hend]
        split <;> rfl
    rw [hplace]
    rcases Nat.lt_or_ge data.length k with hold | hnew
    · rw [older_getD hold, ← hw.byte (k := k - data.length) (by omega) (by omega),
        InflateState.windowByte, writeBytes_not_mem (by split <;> omega)]
      split
      · rw [if_pos (by omega)]
        congr 1
        omega
      · rw [if_neg (by omega)]
        congr 1
        omega
    · rw [newest_getD hk0 hnew, if_pos (by omega), writeBytes_mem (by omega) (by omega)]
      congr 1
      omega
  · dsimp only
    split <;> omega
  · dsimp only
    split <;> split <;> omega
  · rw [List.length_append, List.length_reverse]
    dsimp only
    split <;> omega

/-- Data that goes on at the start of the window. -/
theorem WindowOk.wrap (hw : WindowOk s h) (hlen : data.length < s.wsize)
    (hfit : s.wsize < s.wnext + data.length) :
    WindowOk { s with
      window := writeBytes (writeBytes s.window s.wnext (data.take (s.wsize - s.wnext))) 0
        (data.drop (s.wsize - s.wnext))
      wnext := data.length - (s.wsize - s.wnext)
      whave := s.wsize } (data.reverse ++ h) := by
  have hnext := hw.next
  have hwrapped := hw.wrapped
  have hall := hw.all
  obtain ⟨hle, hle'⟩ := hw.whave_le
  have hfull : s.wsize ≤ data.length + h.length := by omega
  refine ⟨windowHist_of_byte ?_ fun k hk0 hk => ?_, hw.size, .inl (by dsimp only; omega), .inl rfl,
    .inr ⟨rfl, by dsimp only; omega, ?_⟩⟩
  · rw [List.length_append, List.length_reverse]
    exact hfull
  · dsimp only at hk
    simp only [InflateState.windowByte]
    rcases Nat.lt_or_ge data.length k with hold | hnew
    · rw [older_getD hold, ← hw.byte (k := k - data.length) (by omega) (by omega),
        InflateState.windowByte, if_neg (by omega), if_pos (by omega),
        writeBytes_not_mem (by simp only [List.length_drop]; omega), writeBytes_not_mem (by omega)]
      congr 1
      omega
    · rw [newest_getD hk0 hnew]
      split
      · rw [writeBytes_mem (Nat.zero_le _) (by simp only [List.length_drop]; omega), getD_drop]
        congr 1
        omega
      · rw [writeBytes_not_mem (by simp only [List.length_drop]; omega),
          writeBytes_mem (by omega) (by simp only [List.length_take]; omega), getD_take (by omega)]
        congr 1
        omega
  · rw [List.length_append, List.length_reverse]
    exact hfull

end Bytes

/-- The state with its window in use. -/
def InflateState.opened (s : InflateState) : InflateState :=
  if s.wsize = 0 then { s with wsize := 2 ^ s.wbits } else s

theorem InflateState.opened_wsize (s : InflateState) : s.opened.wsize ≠ 0 := by
  unfold opened
  split
  · exact (Nat.two_pow_pos _).ne'
  · assumption

theorem WindowOk.opened {s : InflateState} {h : List UInt8} (hw : WindowOk s h) :
    WindowOk s.opened h := by
  unfold InflateState.opened
  split
  · next h0 =>
    obtain ⟨hhist, -, hnext, hwrapped, hall⟩ := hw
    have hh : s.whave = 0 := by omega
    have hn : s.wnext = 0 := by omega
    have hl : h.length = 0 := by omega
    refine ⟨?_, .inr rfl, .inl ?_, .inr ?_, .inl ?_⟩
    · simp [InflateState.windowHist, hh]
    · dsimp only
      rw [hn]
      exact Nat.two_pow_pos _
    · dsimp only
      omega
    · dsimp only
      omega
  · exact hw

/-- The window after new data, in one, two or three pieces. -/
def InflateState.slide (s : InflateState) (data : List UInt8) : InflateState :=
  if s.wsize ≤ data.length then
    { s with
      window := writeBytes s.window 0 (data.drop (data.length - s.wsize))
      wnext := 0, whave := s.wsize }
  else if s.wnext + data.length ≤ s.wsize then
    { s with
      window := writeBytes s.window s.wnext data
      wnext := if s.wnext + data.length = s.wsize then 0 else s.wnext + data.length
      whave := if s.whave < s.wsize then s.whave + data.length else s.whave }
  else
    { s with
      window := writeBytes (writeBytes s.window s.wnext (data.take (s.wsize - s.wnext))) 0
        (data.drop (s.wsize - s.wnext))
      wnext := data.length - (s.wsize - s.wnext)
      whave := s.wsize }

theorem WindowOk.slide {s : InflateState} {h : List UInt8} (hw : WindowOk s h) (h0 : s.wsize ≠ 0)
    (data : List UInt8) : WindowOk (s.slide data) (data.reverse ++ h) := by
  unfold InflateState.slide
  split
  · next hlen => exact hw.fill h0 hlen
  · next hlen =>
    split
    · next hfit => exact hw.extend (by omega) hfit
    · next hfit => exact hw.wrap (by omega) (by omega)

namespace InflateState
variable {s : InflateState}

/-- The check value after some bytes. -/
def hash (s : InflateState) (bytes : List UInt8) : Nat :=
  if s.flags ≠ 0 then crc32 s.check bytes else adler32 s.check bytes

theorem hash_nil : s.hash [] = s.check := by
  unfold hash
  split
  · exact crc32_nil _
  · exact adler32_nil _

theorem hash_append (xs ys : List UInt8) :
    s.hash (xs ++ ys) = { s with check := s.hash xs }.hash ys := by
  unfold hash
  split
  · exact crc32_append ..
  · exact adler32_append ..

theorem infChksum_eq (src : List UInt8) :
    s.infChksum src = { s with adler := s.hash src, check := s.hash src } := rfl

theorem infChksumCpy_eq (src : List UInt8) :
    ∃ a, s.infChksumCpy src = { s with adler := a, check := s.hash src } := by
  unfold infChksumCpy
  split
  · next h0 =>
    obtain rfl := List.length_eq_zero_iff.mp h0
    rw [hash_nil]
    exact ⟨s.adler, rfl⟩
  · exact ⟨s.hash src, infChksum_eq src⟩

theorem opened_eq : s.opened = { s with wsize := s.opened.wsize } := by
  unfold opened
  split <;> rfl

theorem updatewindow_opened (data : List UInt8) (cksum : Bool) :
    s.updatewindow data cksum = s.opened.updatewindow data cksum := by
  unfold opened
  split
  · next h0 =>
    have hpos := (Nat.two_pow_pos s.wbits).ne'
    unfold updatewindow
    simp only [if_pos h0, if_neg hpos]
  · rfl

/-- `updatewindow` slides the window, and hashes each byte once when it is told to. -/
theorem updatewindow_eq (hn : s.wnext ≤ s.wsize) (data : List UInt8) (cksum : Bool) :
    ∃ a, s.updatewindow data cksum = { s.opened.slide data with
      adler := a, check := if cksum then s.hash data else s.check } := by
  have hopen : s.opened.hash = s.hash ∧ s.opened.check = s.check := by
    rw [opened_eq]
    exact ⟨rfl, rfl⟩
  have hnext : s.opened.wnext ≤ s.opened.wsize := by
    unfold opened
    split
    · next h0 =>
      rw [h0] at hn
      exact hn.trans (Nat.zero_le _)
    · exact hn
  have hne := s.opened_wsize
  rw [updatewindow_opened]
  generalize s.opened = t at hopen hnext hne ⊢
  obtain ⟨hhash, hcheck⟩ := hopen
  rw [← hhash, ← hcheck]
  unfold updatewindow
  simp only [if_neg hne]
  unfold slide
  by_cases hlen : t.wsize ≤ data.length
  · rw [if_pos hlen, if_pos hlen]
    cases cksum with
    | false => exact ⟨t.adler, rfl⟩
    | true =>
      simp only [if_true]
      by_cases hlt : t.wsize < data.length
      · obtain ⟨a, ha⟩ := infChksumCpy_eq (s := t.infChksum (data.take (data.length - t.wsize)))
          (data.drop (data.length - t.wsize))
        refine ⟨a, ?_⟩
        rw [if_pos hlt, ha, infChksum_eq]
        have happ := t.hash_append (data.take (data.length - t.wsize))
          (data.drop (data.length - t.wsize))
        rw [List.take_append_drop] at happ
        rw [happ]
        rfl
      · obtain ⟨a, ha⟩ := infChksumCpy_eq (s := t) (data.drop (data.length - t.wsize))
        refine ⟨a, ?_⟩
        rw [if_neg hlt, ha, show data.length - t.wsize = 0 by omega, List.drop_zero]
  · rw [if_neg hlen, if_neg hlen]
    by_cases hfit : t.wnext + data.length ≤ t.wsize
    · have hmin : min (t.wsize - t.wnext) data.length = data.length := by omega
      simp only [if_pos hfit, hmin, List.take_length, Nat.sub_self, ne_eq, not_true_eq_false, if_false]
      cases cksum with
      | false => exact ⟨t.adler, rfl⟩
      | true =>
        obtain ⟨a, ha⟩ := infChksumCpy_eq (s := t) data
        refine ⟨a, ?_⟩
        simp only [if_true, ha]
    · have hmin : min (t.wsize - t.wnext) data.length = t.wsize - t.wnext := by omega
      have hrest : data.length - (t.wsize - t.wnext) ≠ 0 := by omega
      simp only [if_neg hfit, hmin, if_pos hrest]
      cases cksum with
      | false => exact ⟨t.adler, rfl⟩
      | true =>
        simp only [if_true]
        obtain ⟨a, ha⟩ := infChksumCpy_eq (s := t) (data.take (t.wsize - t.wnext))
        rw [ha]
        obtain ⟨a', ha'⟩ := infChksumCpy_eq (s := { t with
            adler := a, check := t.hash (data.take (t.wsize - t.wnext))
            window := writeBytes t.window t.wnext (data.take (t.wsize - t.wnext)) })
          (data.drop (t.wsize - t.wnext))
        refine ⟨a', ?_⟩
        have happ := t.hash_append (data.take (t.wsize - t.wnext)) (data.drop (t.wsize - t.wnext))
        rw [List.take_append_drop] at happ
        rw [ha', happ]
        rfl

/-- Everything but the window and the check value stays. -/
theorem updatewindow_rest (hn : s.wnext ≤ s.wsize) (data : List UInt8) (cksum : Bool) :
    ∃ a, s.updatewindow data cksum = { s with
      wsize := s.opened.wsize, whave := (s.opened.slide data).whave
      wnext := (s.opened.slide data).wnext, window := (s.opened.slide data).window
      adler := a, check := if cksum then s.hash data else s.check } := by
  obtain ⟨a, ha⟩ := updatewindow_eq hn data cksum
  refine ⟨a, ?_⟩
  rw [ha]
  unfold slide opened
  split
  · split
    · rfl
    · split <;> rfl
  · split
    · rfl
    · split <;> rfl

end InflateState

theorem WindowOk.updatewindow {s : InflateState} {h : List UInt8} (hw : WindowOk s h)
    (data : List UInt8) (cksum : Bool) :
    WindowOk (s.updatewindow data cksum) (data.reverse ++ h) := by
  have hn := hw.next
  obtain ⟨a, ha⟩ := InflateState.updatewindow_eq (s := s) (by omega) data cksum
  rw [ha]
  exact (hw.opened.slide s.opened_wsize data).congr rfl

end ZlibNg
