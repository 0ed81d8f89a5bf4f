import ZlibNg.Inflate.Calls

/-! The window is the newest part of the history, and no match reaches further back. -/
namespace ZlibNg
open BitProg

section Window
variable {s : InflateState} {h : List UInt8}

theorem WindowOk.whave_eq (hw : WindowOk s h) : s.whave = min h.length s.wsize := by
  have hall := hw.all
  have hle := hw.whave_le
  omega

/-- The valid bytes of the circular buffer, oldest first, in one or two pieces. -/
theorem WindowOk.pieces (hw : WindowOk s h) :
    ((List.range (s.whave - s.wnext)).map fun i => s.window (s.wnext + i)) ++
      (List.range s.wnext).map s.window = s.windowHist.reverse := by
  have hnext := hw.next
  have hwrapped := hw.wrapped
  have hle := hw.whave_le.1
  have hsum : s.whave - s.wnext + s.wnext = s.whave := by omega
  apply List.ext_getElem
  · simp [hsum]
  · intro i hi hi'
    simp only [List.length_reverse, InflateState.length_windowHist] at hi'
    rw [List.getElem_reverse]
    simp only [InflateState.windowHist, List.getElem_map, List.getElem_range, List.length_map,
      List.length_range]
    rw [List.getElem_append]
    simp only [List.length_map, List.length_range, List.getElem_map, List.getElem_range,
      InflateState.windowByte]
    split
    · next hlow =>
      rw [if_neg (by omega)]
      congr 1
      omega
    · next hhigh =>
      rw [if_pos (by omega)]
      congr 1
      omega

/-- `inflateGetDictionary` copies the newest bytes of the history, oldest first. -/
theorem WindowOk.dictionary {strm : InflateStream} (hw : WindowOk strm.st h) :
    strm.inflateGetDictionary =
      ((h.take strm.st.wsize).reverse, min h.length strm.st.wsize) := by
  have hhave := hw.whave_eq
  have htake : h.take strm.st.whave = h.take strm.st.wsize := by
    rw [hhave]
    rcases le_total h.length strm.st.wsize with hle | hle
    · rw [min_eq_left hle, List.take_length, List.take_of_length_le hle]
    · rw [min_eq_right hle]
  unfold InflateStream.inflateGetDictionary
  rw [← hhave]
  dsimp only
  split
  · rw [hw.pieces, hw.hist, htake]
  · next hnone =>
    rw [← htake, not_not.mp hnone]
    rfl

end Window

section Decodes
variable {s : InflateState} {v v' : BitStream} {h h' : List UInt8}

/-- A distance is positive. -/
theorem Reads.dist_pos (ht : TablesOk s) {len dist n : Nat} (hr : Reads s v (.copy len dist) n) :
    0 < dist := by
  cases hr with
  | copy l extra val l' extra' val' n m hl hl' hc hm hd hm' hn =>
    obtain ⟨j, -, -, hp⟩ := ht.dist.select_shape ht.distbits_le distLink.op (v.val / 2 ^ n)
    change DistEntry j (s.distCode (v.val / 2 ^ n)) at hp
    rw [hd] at hp
    generalize hcode : ({ op := 16 + l', bits := l' + extra', val := val' } : Code) = code at hp
    cases hp with
    | base x y hx hy hz =>
      simp only [Code.mk.injEq] at hcode
      omega
    | invalid =>
      simp only [Code.mk.injEq] at hcode
      omega

/-- What is decoded does not depend on older bytes. -/
theorem Decodes.older (ht : TablesOk s) (hd : Decodes s v h v' h') (t : List UInt8) :
    Decodes s v (h ++ t) v' (h' ++ t) := by
  induction hd with
  | refl v h => exact .refl v _
  | lit hr _ ih => exact .lit hr ih
  | copy hr hlen _ ih =>
    refine .copy hr (by rw [List.length_append]; omega) ?_
    rw [copyMatch_append (hr.dist_pos ht) _ hlen]
    exact ih

end Decodes

namespace Regs
variable {past hist : List UInt8} {start : Nat} {r r' : Regs} {flush : Flush}

/-- Passes of the loop, and of the slow states in place of `inflate_fast`. -/
def Reaches (flush : Flush) : Regs → Regs → Prop :=
  Relation.ReflTransGen fun r r' => r.step flush = .loop r' ∨ SlowStep flush r r'

theorem Reaches.good (hp : Reaches flush r r') (h : r.Good past start) (hl : r.Lazy) :
    r'.Good past start ∧ r.Follows r' := by
  induction hp with
  | refl => exact ⟨h, .refl r⟩
  | tail _ hstep ih =>
    obtain ⟨hgood, hf⟩ := ih
    rcases hstep with hstep | hstep
    · have hs := step_good flush hgood (hf.lazy hl)
      rw [hstep] at hs
      exact ⟨hs.1, hf.trans hs.2.1⟩
    · have hs := slowStep_good flush hgood hstep.1
      rw [hstep.2] at hs
      exact ⟨hs.1, hf.trans hs.2.1⟩

/-- A distance that `MATCH` accepts is within the history. -/
theorem caseMatch_within (h : r.Good past start) (hw : WindowOk r.st hist) (hm : r.st.mode = .match_)
    (hs : r.caseMatch = .loop r') (hok : r'.st.mode ≠ .bad) :
    r.st.offset ≤ (r.out ++ hist).length := by
  have hmark := h.early (by rw [hm]; decide)
  have hhave := hw.whave_le.2
  rw [List.length_append]
  by_contra hfar
  unfold caseMatch at hs
  split at hs
  · cases hs
  · dsimp only at hs
    rw [if_pos (by omega), if_pos (by omega)] at hs
    obtain rfl := Ctl.loop.inj hs
    exact hok rfl

/-- So are the distances that `inflate_fast` accepts. -/
theorem enterFast_within (h : r.Good past start) (hw : WindowOk r.st hist) (hm : r.st.mode = .len)
    (hs : r.enterFast = .loop r')
    (hroom : inflateFastMinHave ≤ r.acc.have_ ∧ inflateFastMinSafe ≤ r.left) :
    ∃ v, Decodes r.st r.acc.stream (r.out ++ hist) v (r'.out ++ hist) := by
  have hok := h.ok
  have hbits := h.bits
  simp only [InflateState.Ok, InflateState.BitsOk, hm] at hok hbits
  have hmark : r.mark = r.left + r.out.length := h.early (by rw [hm]; decide)
  obtain ⟨c, hf⟩ := inflateFast_spec (decide (r.left < inflateFastMinLeft)) hok h.whave
    (show r.acc.bits < 64 by omega) hroom.1 hroom.2 (by simp) hmark.symm
  obtain rfl := Ctl.loop.inj hs
  dsimp only
  obtain ⟨v, hd⟩ : ∃ v, Decodes r.st r.acc.stream (r.out ++ r.st.windowHist) v
      ((inflateFast (decide (r.left < inflateFastMinLeft)) r.acc.mem (fun _ i => r.st.window i)
        r.mark r.st r.acc.next r.acc.have_ r.out r.left r.acc.hold r.acc.bits).out ++
          r.st.windowHist) := by
    rcases hf.symbols with ⟨-, hd⟩ | ⟨c₁, n, -, hd, -⟩
    · exact ⟨_, hd⟩
    · exact ⟨_, hd⟩
  have hd' := hd.older hok (hist.drop r.st.whave)
  rw [List.append_assoc, List.append_assoc, hw.hist, List.take_append_drop] at hd'
  exact ⟨v, hd'⟩

end Regs

namespace Session
variable {s s' : Session}

/-- In every run, at every return before the end of the blocks and but for an error, the window
that there is holds the newest bytes of the history, `inflateGetDictionary` gives just these, and in
no call a distance is accepted that refers to a byte before the history. -/
theorem history_kept {may : Session → Call → Prop} (hr : Run may s)
    (hm : s.strm.st.mode.phase ≤ 1) :
    (s.strm.st.wsize ≠ 0 →
      s.strm.st.whave = min s.hist.length s.strm.st.wsize ∧
      s.strm.st.windowHist = s.hist.take s.strm.st.wsize ∧
      s.strm.inflateGetDictionary =
        ((s.hist.take s.strm.st.wsize).reverse, min s.hist.length s.strm.st.wsize)) ∧
    ∀ mem nextIn availIn availOut flush r,
      Regs.Reaches flush (s.load mem nextIn availIn availOut) r →
      (∀ r', r.st.mode = .match_ → r.caseMatch = .loop r' → r'.st.mode ≠ .bad →
        r.st.offset ≤ (r.out ++ s.hist).length) ∧
      ∀ r', r.st.mode = .len → inflateFastMinHave ≤ r.acc.have_ ∧ inflateFastMinSafe ≤ r.left →
        r.enterFast = .loop r' →
        ∃ v, Decodes r.st r.acc.stream (r.out ++ s.hist) v (r'.out ++ s.hist) := by
  have h := hr.inv
  have hw := h.windowed.ok hm
  constructor
  · intro _
    have hdict := hw.dictionary
    have hhave := hw.whave_eq
    refine ⟨hhave, ?_, hdict⟩
    rw [hw.hist, hhave]
    rcases le_total s.hist.length s.strm.st.wsize with hle | hle
    · rw [min_eq_left hle, List.take_length, List.take_of_length_le hle]
    · rw [min_eq_right hle]
  · intro mem nextIn availIn availOut flush r hp
    obtain ⟨hgood, hlazy, hwin⟩ := h.load mem nextIn availIn availOut
    obtain ⟨hgood', hf⟩ := hp.good hgood hlazy
    have hwin' := hwin.follows hf
    constructor
    · intro r' hmode hs hok
      exact Regs.caseMatch_within hgood' (hwin'.ok (by rw [hmode]; decide)) hmode hs hok
    · intro r' hmode hroom hs
      exact Regs.enterFast_within hgood' (hwin'.ok (by rw [hmode]; decide)) hmode hs hroom

/-- The window after a stored block of one byte. -/
theorem history_kept_stored : ∃ s, Run (fun _ _ => True) s ∧ s.hist = [0x61] ∧
    s.strm.st.wsize = 32768 ∧ s.strm.inflateGetDictionary = ([0x61], 1) := by
  have hrun : ((fresh (-15) rfl).call
      (.inflate (memOf [0x00, 0x01, 0x00, 0xfe, 0xff, 0x61]) 0 6 9 .noFlush)).map
        (fun x => (x.1, x.2.strm.st.mode, x.2.strm.st.wsize, x.2.hist)) =
          some (.ok, .type, 32768, [0x61]) := by decide
  obtain ⟨⟨ret, s⟩, hc, hs⟩ := Option.map_eq_some_iff.mp hrun
  simp only [Prod.mk.injEq] at hs
  obtain ⟨-, hm, hwsize, hhist⟩ := hs
  have hreached : Run (fun _ _ => True) s := .call (fresh_run rfl) trivial hc
  obtain ⟨-, -, hdict⟩ := (history_kept hreached (by rw [hm]; decide)).1 (by rw [hwsize]; decide)
  rw [hwsize, hhist] at hdict
  exact ⟨s, hreached, hhist, hwsize, hdict⟩

/-- A call of `inflate` or of `inflateSetDictionary`. -/
def decodes : Call → Bool
  | .inflate .. | .setDictionary _ => true
  | _ => false

/-- After an error a raw stream takes a dictionary as the whole of its history. -/
theorem history_error : ¬ ∀ s, Run (fun _ c => decodes c = true) s →
    s.strm.st.mode.phase ≤ 1 ∨ (s.strm.st.mode = .bad ∧ s.strm.st.last = false) →
    s.strm.st.wsize ≠ 0 → s.strm.inflateGetDictionary =
      ((s.hist.take s.strm.st.wsize).reverse, min s.hist.length s.strm.st.wsize) := by
  intro h
  have hrun : (((fresh (-15) rfl).call
      (.inflate (memOf [0x00, 0x01, 0x00, 0xfe, 0xff, 0x61, 0x06]) 0 7 9 .noFlush)).bind
        (fun x => x.2.call (.setDictionary [0x62]))).map
          (fun x => decide ((x.2.strm.st.mode = .bad ∧ x.2.strm.st.last = false) ∧
            x.2.strm.st.wsize = 32768 ∧ x.2.hist = [0x62, 0x61] ∧
            x.2.strm.inflateGetDictionary = ([0x62], 1))) = some true := by decide
  obtain ⟨⟨ret, s⟩, hcalls, hs⟩ := Option.map_eq_some_iff.mp hrun
  obtain ⟨⟨ret', s₁⟩, hc₁, hc⟩ := Option.bind_eq_some_iff.mp hcalls
  obtain ⟨hm, hwsize, hhist, hdict⟩ := of_decide_eq_true hs
  have hreached : Run (fun _ c => decodes c = true) s := .call (.call (fresh_run rfl) rfl hc₁) rfl hc
  have hclaim := h s hreached (.inr hm) (by rw [hwsize]; decide)
  rw [hdict, hhist, hwsize] at hclaim
  cases hclaim

end Session
end ZlibNg
