import ZlibNg.Inflate.Calls

/-! `total_in` and `total_out` count what has been taken and written, unless a header that asks for
a dictionary has been read. -/
namespace ZlibNg
open BitProg

/-- Two bytes that are a zlib header with a dictionary request. -/
def InflateState.AsksDict (s : InflateState) (w : Nat) : Prop :=
  ¬(s.wrap &&& 2 ≠ 0 ∧ w = 0x8b1f) ∧
  ¬(s.wrap &&& 1 = 0 ∨ ((w % 2 ^ 8) <<< 8 + w >>> 8) % 31 ≠ 0) ∧ w % 2 ^ 4 = zDeflated ∧
  ¬(maxWbits < (w >>> 4) % 2 ^ 4 + 8 ∨
    (if s.wbits = 0 then (w >>> 4) % 2 ^ 4 + 8 else s.wbits) < (w >>> 4) % 2 ^ 4 + 8) ∧
  w >>> 4 &&& 0x200 ≠ 0

/-- The bits complete a zlib header with the identifier of a dictionary. -/
def InflateState.NeedsDict (s : InflateState) (v : BitStream) : Prop :=
  match s.mode with
  | .head => s.wrap ≠ 0 ∧ 48 ≤ v.len ∧ s.AsksDict (v.peek 16)
  | .dictid => 32 ≤ v.len
  | _ => False

namespace Regs
variable {past : List UInt8} {start : Nat} {r r' : Regs} {flush : Flush}

theorem peek_header (v : BitStream) :
    v.peek 8 = v.peek 16 % 2 ^ 8 ∧ v.peek 4 = v.peek 16 % 2 ^ 4 ∧
      (v.drop 4).peek 4 = (v.peek 16 >>> 4) % 2 ^ 4 ∧ (v.drop 4).peek 12 = v.peek 16 >>> 4 := by
  simp only [BitStream.peek, BitStream.drop_val, Nat.shiftRight_eq_div_pow]
  omega

theorem caseHead_dictid {s s' : InflateState} {v v' : BitStream}
    (h : s.caseHead.runStream 0 v = some (s', v')) (hm : s'.mode = .dictid) :
    s.wrap ≠ 0 ∧ v.len = v'.len + 16 ∧ s.AsksDict (v.peek 16) := by
  obtain ⟨h8, h4, h44, h12⟩ := peek_header v
  simp only [InflateState.caseHead, needBits, hold, bits, initBits, dropBits, pure_eq, ret_bind,
    need_bind, whole_bind, peek_bind, skip_bind, empty_bind, runStream, runStream_ite,
    Nat.zero_max, Nat.reduceSub, h8, h4, h44, h12] at h
  have hmode : ∀ {t : InflateState} {u : BitStream}, some (t, u) = some (s', v') → t.mode = .dictid := by
    intro t u ht
    obtain ⟨rfl, -⟩ : t = s' ∧ u = v' := by simpa using ht
    exact hm
  unfold InflateState.AsksDict
  split at h
  · cases hmode h
  next hwrap =>
  split at h
  swap
  · cases h
  next hlen =>
  split at h
  · cases hmode h
  next hgzip =>
  split at h
  · cases hmode h
  next hcheck =>
  split at h
  · cases hmode h
  next hmethod =>
  have hlast : ∀ {t : InflateState}, some (t, (v.drop 4).drop 12) = some (s', v') →
      v.len = v'.len + 16 := by
    intro t ht
    obtain ⟨-, rfl⟩ : t = s' ∧ (v.drop 4).drop 12 = v' := by simpa using ht
    simp only [BitStream.drop_len]
    omega
  have hdict : ∀ {m : Mode}, (if v.peek 16 >>> 4 &&& 0x200 ≠ 0 then Mode.dictid else m) = .dictid →
      m ≠ .dictid → v.peek 16 >>> 4 &&& 0x200 ≠ 0 := by
    intro m hif hne h0
    rw [if_neg (not_not.mpr h0)] at hif
    exact hne hif
  by_cases hwbits : s.wbits = 0
  · simp only [if_pos hwbits] at h ⊢
    split at h
    · cases hmode h
    · next hsize => exact ⟨hwrap, hlast h, hgzip, hcheck, not_not.mp hmethod, hsize, hdict (hmode h) (by decide)⟩
  · simp only [if_neg hwbits] at h ⊢
    split at h
    · cases hmode h
    · next hsize => exact ⟨hwrap, hlast h, hgzip, hcheck, not_not.mp hmethod, hsize, hdict (hmode h) (by decide)⟩

theorem caseDictid_len {s s' : InflateState} {v v' : BitStream}
    (h : s.caseDictid.runStream 0 v = some (s', v')) : 32 ≤ v.len := by
  simp only [InflateState.caseDictid, needBits, hold, initBits, pure_eq, ret_bind, need_bind, whole_bind,
    empty_bind, runStream] at h
  split at h
  · assumption
  · cases h

/-- The request for a dictionary comes from the bits at the start of the pass. -/
theorem needsDict_step (h : r.Good past start) (hl : r.Lazy) (hs : r.step flush = .loop r')
    (hd : r'.st.mode = .dict ∨ r'.st.NeedsDict r'.acc.stream) : r.st.NeedsDict r.acc.stream := by
  have hgood := step_good flush h hl
  rw [hs] at hgood
  obtain ⟨-, -, -, hnext⟩ := hgood
  obtain ⟨-, ⟨hhead, -⟩, hdict, hdictid⟩ := (Mode.follows_iff _ _).mp hnext
  have hrun : ∀ {p : CaseProg}, r.runCase flush p = .loop r' →
      p.wp true r.acc.bits 0 r.st.BitsOk Fine → p.runStream 0 r.acc.stream = some (r'.st, r'.acc.stream) := by
    intro p hp hwp
    have hspec := run_spec p hwp
    unfold Regs.runCase at hp
    generalize p.run r.acc = res at hspec hp
    cases res with
    | leave acc => cases hp
    | done st acc =>
      have hstream := hspec.stream []
      rw [BitStream.append_nil, BitStream.append_nil] at hstream
      dsimp only at hp
      split at hp
      · cases hp
      · obtain rfl := Ctl.loop.inj hp
        exact hstream
  unfold step at hs
  rcases hd with hd | hd
  · have hm := hdict hd
    have hok := h.ok
    have hbits := h.bits
    rw [hm] at hs
    unfold InflateState.NeedsDict
    rw [hm]
    exact caseDictid_len (hrun hs (InflateState.caseDictid_wp hm hok hbits))
  · unfold InflateState.NeedsDict at hd
    split at hd
    · next hm => exact absurd hm hhead
    · next hm' =>
      have hm := hdictid hm'
      rw [hm] at hs
      obtain ⟨hwrap, hlen, hasks⟩ := caseHead_dictid (hrun hs (InflateState.caseHead_wp hm h.bits)) hm'
      unfold InflateState.NeedsDict
      rw [hm]
      exact ⟨hwrap, by omega, hasks⟩
    · exact hd.elim

/-- A call that comes to ask for a dictionary was given the request, or stood there before. -/
theorem needsDict_passes (hp : Passes flush r r') (h : r.Good past start) (hl : r.Lazy)
    (hd : r'.st.mode = .dict) : r = r' ∨ r.st.NeedsDict r.acc.stream := by
  rcases Relation.ReflTransGen.cases_tail hp with rfl | ⟨r₁, hp₁, hs₁⟩
  · exact .inl rfl
  right
  clear hp
  have hback : r₁.st.NeedsDict r₁.acc.stream := by
    obtain ⟨hgood, hf⟩ := Passes.good hp₁ h hl
    exact needsDict_step hgood (hf.lazy hl) hs₁ (.inl hd)
  clear hs₁
  induction hp₁ with
  | refl => exact hback
  | tail hp₂ hs₂ ih =>
    obtain ⟨hgood, hf⟩ := Passes.good hp₂ h hl
    exact ih (needsDict_step hgood (hf.lazy hl) hs₂ (.inr hback))

end Regs

/-- The call completes a zlib header with the identifier of a dictionary. -/
def Call.NeedsDict (s : Session) : Call → Prop
  | .inflate mem nextIn availIn availOut _ =>
    (s.load mem nextIn availIn availOut).st.NeedsDict (s.load mem nextIn availIn availOut).acc.stream
  | _ => False

namespace Session
variable {s s' : Session}

/-- The counters count the bytes taken and written. -/
def Counted (s : Session) : Prop :=
  (s.strm.totalIn : Int) = s.taken ∧ s.strm.totalOut = s.out.length

/-- A call of `inflate` counts the input it takes. -/
theorem Returned.taken {mem : Int → UInt8} {nextIn : Int} {availIn availOut : Nat} {flush : Flush}
    {ret : Ret} {strm : InflateStream} {bytes : List UInt8}
    (hr : Returned s mem nextIn availIn availOut flush (ret, strm, bytes)) (h : s.Inv)
    (hd : ¬ (Call.inflate mem nextIn availIn availOut flush).NeedsDict s) :
    (strm.totalIn : Int) = s.strm.totalIn + (strm.nextIn - nextIn) := by
  obtain ⟨hgood, hlazy, hwin⟩ := h.load mem nextIn availIn availOut
  have hnext : (s.load mem nextIn availIn availOut).acc.next = nextIn := rfl
  have hhave : (s.load mem nextIn availIn availOut).acc.have_ = availIn := rfl
  cases hr with
  | @leave r r' code hp hs hgood' hf he =>
    obtain ⟨d, heq⟩ := InflateStream.infLeave_eq (s.feed nextIn availIn availOut) flush code r'
      (hwin.follows hf).bounds.2
    have hends := hf.ends
    have hle := hf.have_le
    rw [heq]
    dsimp only [InflateStream.restore, feed]
    omega
  | @needDict r hp hm hs hgood' hf =>
    rcases Regs.needsDict_passes hp hgood hlazy hm with heq | hneeds
    · rw [← heq]
      dsimp only [InflateStream.restore, feed]
      omega
    · exact absurd hneeds hd
  | sync hm =>
    dsimp only [feed]
    omega

/-- The search for a block counts the input it takes. -/
theorem sync_taken (strm : InflateStream) (mem : Int → UInt8) :
    ((strm.inflateSync mem).2.totalIn : Int) =
      strm.totalIn + ((strm.inflateSync mem).2.nextIn - strm.nextIn) := by
  have hstart : strm.syncStart.totalIn = strm.totalIn ∧ strm.syncStart.nextIn = strm.nextIn := by
    unfold InflateStream.syncStart
    split <;> exact ⟨rfl, rfl⟩
  unfold InflateStream.inflateSync
  split
  · simp
  · dsimp only
    split
    · simp only [InflateStream.syncInput, hstart]
      push_cast
      ring
    · simp only [InflateStream.syncRestart, InflateStream.syncInput, InflateStream.inflateReset, hstart]
      push_cast
      ring

/-- A call that asks for no dictionary keeps the counters. -/
theorem Counted.call (hc : s.Counted) (h : s.Inv) {c : Call} {ret : Ret} (hd : ¬ c.NeedsDict s)
    (hcall : s.call c = some (ret, s')) : s'.Counted := by
  refine ⟨?_, (h.call hcall).totalOut⟩
  obtain ⟨hin, -⟩ := hc
  cases c with
  | inflate mem nextIn availIn availOut flush =>
    obtain ⟨⟨ret', strm, bytes⟩, hx, hreturned⟩ := h.returned mem nextIn availIn availOut flush
    unfold Session.call at hcall
    dsimp only at hcall
    rw [hx] at hcall
    obtain ⟨rfl, rfl⟩ : ret' = ret ∧ _ = s' := by simpa using hcall
    have htaken := hreturned.taken h hd
    dsimp only
    omega
  | setDictionary dictionary =>
    obtain ⟨-, rfl⟩ : _ ∧ _ = s' := by
      simpa only [Session.call, Option.some.injEq, Prod.mk.injEq] using hcall
    unfold InflateStream.inflateSetDictionary
    dsimp only
    split
    · exact hin
    · split
      · exact hin
      · exact hin
  | sync mem nextIn availIn =>
    obtain ⟨-, rfl⟩ : _ ∧ _ = s' := by
      simpa only [Session.call, Option.some.injEq, Prod.mk.injEq] using hcall
    have htaken := sync_taken (s.feed nextIn availIn s.strm.availOut) mem
    dsimp only [feed] at htaken ⊢
    omega
  | reset =>
    obtain ⟨-, rfl⟩ : _ ∧ _ = s' := by
      simpa only [Session.call, Option.some.injEq, Prod.mk.injEq] using hcall
    rfl

/-- In every run in which no call completes the request for a dictionary, `total_in` and
`total_out` are the bytes taken and written. -/
theorem counters_kept (hr : Run (fun s c => ¬ c.NeedsDict s) s) : s.Counted := by
  induction hr with
  | @start st windowBits s h =>
    unfold Session.start InflateStream.inflateInit2 at h
    cases hw : wrapRequest windowBits with
    | none =>
      rw [hw] at h
      cases h
    | some w =>
      rw [hw] at h
      obtain rfl := Option.some.inj h
      exact ⟨rfl, rfl⟩
  | call hr hd hc ih => exact ih.call hr.inv hd hc

/-- A stored block of one byte. -/
theorem counters_kept_stored : ∃ s, Run (fun s c => ¬ c.NeedsDict s) s ∧ s.taken = 6 ∧
    s.out = [0x61] ∧ s.Counted := by
  have hrun : ((fresh (-15) rfl).call
      (.inflate (memOf [0x00, 0x01, 0x00, 0xfe, 0xff, 0x61]) 0 6 9 .noFlush)).map
        (fun x => (x.1, x.2.taken, x.2.out)) = some (.ok, 6, [0x61]) := by decide
  obtain ⟨⟨ret, s⟩, hc, hs⟩ := Option.map_eq_some_iff.mp hrun
  simp only [Prod.mk.injEq] at hs
  have hmay : Run (fun s c => ¬ c.NeedsDict s) s := by
    refine .call (fresh_run rfl) ?_ hc
    rintro ⟨hwrap, -⟩
    exact hwrap rfl
  exact ⟨s, hmay, hs.2.1, hs.2.2, counters_kept hmay⟩

/-- A zlib header with a dictionary request is taken, and not counted. -/
theorem counters_dictionary : ¬ ∀ s, Run (fun _ _ => True) s → s.Counted := by
  intro h
  have hrun : ((fresh 15 rfl).call
      (.inflate (memOf [0x78, 0x20, 0, 0, 0, 1]) 0 6 0 .noFlush)).map
        (fun x => (x.1, x.2.taken, x.2.strm.totalIn)) = some (.needDict, 6, 0) := by decide
  obtain ⟨⟨ret, s⟩, hc, hs⟩ := Option.map_eq_some_iff.mp hrun
  have hcount := (h s (.call (fresh_run rfl) trivial hc)).1
  simp only [Prod.mk.injEq] at hs
  omega

end Session
end ZlibNg
