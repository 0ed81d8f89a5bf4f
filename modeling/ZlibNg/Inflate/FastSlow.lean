import ZlibNg.Inflate.Init
import ZlibNg.Inflate.SlowSpec
import ZlibNg.Inflate.FastSpec

/-! `inflate_fast` and `inflate_fast_safe` reach what the slow states reach. -/
namespace ZlibNg

/-- The state without what the decoding of codes changes. -/
def InflateState.codes (s : InflateState) : InflateState :=
  { s with mode := .len, back := 0, was := 0, length := 0, offset := 0, extra := 0 }

/-- The states are the same but for what the decoding of codes changes. -/
def SameCodes (s s' : InflateState) : Prop := s'.codes = s.codes

namespace SameCodes
variable {s s' : InflateState} (h : SameCodes s s')
include h

theorem field {β : Type} (f : InflateState → β) : f s'.codes = f s.codes := congrArg f h

theorem lencode : s'.lencode = s.lencode := h.field InflateState.lencode
theorem lenbits : s'.lenbits = s.lenbits := h.field InflateState.lenbits
theorem distcode : s'.distcode = s.distcode := h.field InflateState.distcode
theorem distbits : s'.distbits = s.distbits := h.field InflateState.distbits
theorem wsize : s'.wsize = s.wsize := h.field InflateState.wsize
theorem whave : s'.whave = s.whave := h.field InflateState.whave
theorem wnext : s'.wnext = s.wnext := h.field InflateState.wnext
theorem window : s'.window = s.window := h.field InflateState.window
theorem msg : s'.msg = s.msg := h.field InflateState.msg

theorem tables (ht : TablesOk s) : TablesOk s' := by
  obtain ⟨h1, h2, h3, h4⟩ := ht
  rw [← h.lencode, ← h.lenbits] at h1
  rw [← h.distcode, ← h.distbits] at h3
  rw [← h.lenbits] at h2
  rw [← h.distbits] at h4
  exact ⟨h1, h2, h3, h4⟩

theorem setBad (errmsg : String) : SameCodes (s.setBad errmsg) (s'.setBad errmsg) := by
  unfold SameCodes at h ⊢
  exact congrArg (fun x : InflateState => { x with msg := some errmsg }) h

theorem windowHist : s'.windowHist = s.windowHist := by
  simp only [InflateState.windowHist, InflateState.windowByte, h.whave, h.wnext, h.wsize, h.window]

theorem lenCode : s'.lenCode = s.lenCode := by
  unfold InflateState.lenCode
  rw [h.lencode, h.lenbits]

theorem lenSize : s'.lenSize = s.lenSize := by
  unfold InflateState.lenSize
  rw [h.lencode, h.lenbits]

theorem distCode : s'.distCode = s.distCode := by
  unfold InflateState.distCode
  rw [h.distcode, h.distbits]

theorem distSize : s'.distSize = s.distSize := by
  unfold InflateState.distSize
  rw [h.distcode, h.distbits]

theorem reads {v : BitStream} {sym : Symbol} {n : Nat} (hr : Reads s v sym n) :
    Reads s' v sym n := by
  cases hr with
  | lit l val hv hc hn =>
    rw [← h.lenCode] at hc
    rw [← h.lenSize] at hn ⊢
    exact .lit l val hv hc hn
  | endBlock l hc hn =>
    rw [← h.lenCode] at hc
    rw [← h.lenSize] at hn ⊢
    exact .endBlock l hc hn
  | badLen op bits ho hc hn =>
    rw [← h.lenCode] at hc
    rw [← h.lenSize] at hn ⊢
    exact .badLen op bits ho hc hn
  | badDist l extra val l' n hl hc hm hd hn =>
    rw [← h.lenCode] at hc
    rw [← h.lenSize] at hm
    rw [← h.distCode] at hd
    rw [← h.distSize] at hn ⊢
    exact .badDist l extra val l' n hl hc hm hd hn
  | copy l extra val l' extra' val' n m hl hl' hc hm hd hm' hn =>
    rw [← h.lenCode] at hc
    rw [← h.lenSize] at hm ⊢
    rw [← h.distCode] at hd
    rw [← h.distSize] at hm'
    exact .copy l extra val l' extra' val' n m hl hl' hc hm hd hm' hn

end SameCodes

/-- The slow states stand at `LEN` before the stream `v`, with the history `h`. -/
structure SlowAt (s : InflateState) (mark : Nat) (v : BitStream) (h : List UInt8) (r : Regs) :
    Prop where
  mode : r.st.mode = .len
  codes : SameCodes s r.st
  stream : r.acc.stream = v
  bits : r.acc.bits ≤ 32
  out : r.out ++ s.windowHist = h
  mark : r.mark = mark
  left : r.mark = r.left + r.out.length

section Slow
variable (flush : Flush) {s : InflateState} {mark n : Nat} {v : BitStream} {h : List UInt8} {r : Regs}

/-- A symbol is read from `LEN` on. -/
theorem SlowAt.symbol (hr : SlowAt s mark v h r) (ht : TablesOk s) {s' : InflateState}
    {v' : BitStream} (hrun : SymbolRun r.st v s' v') :
    ∃ acc, SlowSteps flush r { r with st := s', acc := acc } ∧ acc.stream = v' ∧ s'.Ok ∧
      s'.BitsOk acc.bits := by
  obtain ⟨acc, hsteps, -, hs, hok⟩ := hrun.slow flush rfl hr.stream
    (by simpa only [InflateState.Ok, hr.mode] using hr.codes.tables ht)
    (by simpa only [InflateState.BitsOk, hr.mode] using hr.bits)
  exact ⟨acc, hsteps, hs, hok⟩

theorem slowStep_lit (hm : r.st.mode = .lit) (hleft : 0 < r.left) :
    r.slowStep flush = .loop { r with
      st := { r.st with mode := .len }, left := r.left - 1
      out := UInt8.ofNat r.st.length :: r.out } := by
  rw [Regs.slowStep, if_neg (by simp [hm]), Regs.step, hm]
  simp only [Regs.caseLit]
  rw [if_neg (by omega)]

theorem SlowAt.lit (hr : SlowAt s mark v h r) (ht : TablesOk s) {val : Nat}
    (hread : Reads s v (.lit val) n) (hleft : 0 < r.left) :
    ∃ r', SlowSteps flush r r' ∧ SlowAt s mark (v.drop n) (UInt8.ofNat val :: h) r' ∧
      r'.left + 1 = r.left := by
  obtain ⟨hrun, -⟩ := (hr.codes.reads hread).lit_run (hr.codes.tables ht) hr.mode
  obtain ⟨acc, hsteps, hs, -, hb⟩ := hr.symbol flush ht hrun
  have hout := hr.out
  have hmark := hr.left
  refine ⟨_, hsteps.tail ⟨rfl, slowStep_lit flush rfl hleft⟩,
    ⟨rfl, ?_, hs, hb, by rw [← hout]; rfl, hr.mark, ?_⟩, ?_⟩
  · exact hr.codes
  · simp only [List.length_cons]
    omega
  · dsimp only
    omega

theorem SlowAt.copy (hr : SlowAt s mark v h r) (ht : TablesOk s) (hw : s.whave ≤ s.wsize)
    {len dist : Nat} (hread : Reads s v (.copy len dist) n) (hdist : dist ≤ h.length)
    (hleft : len ≤ r.left) :
    ∃ r', SlowSteps flush r r' ∧ SlowAt s mark (v.drop n) (copyMatch dist len h) r' ∧
      r'.left + len = r.left := by
  obtain ⟨back, extra, hrun⟩ := (hr.codes.reads hread).copy_run (hr.codes.tables ht) hr.mode
  obtain ⟨acc, hsteps, hs, hok, hb⟩ := hr.symbol flush ht hrun
  have hok' : 1 ≤ len ∧ 1 ≤ dist := ⟨hok.2.1.1, hok.2.2.1⟩
  have hout := hr.out
  have hmark := hr.left
  have hlen := congrArg List.length hout
  simp only [List.length_append, InflateState.length_windowHist] at hlen
  have hhave := hr.codes.whave
  have hsize := hr.codes.wsize
  obtain ⟨out, hcopy, hout'⟩ := slow_copy flush
    (r := { r with st := r.st.atMatch back extra len dist, acc := acc })
    rfl hok'.1 hleft hmark (show r.st.whave ≤ r.st.wsize by omega) hok'.2
    (show dist ≤ r.out.length + r.st.whave by omega)
  have hout'' : out ++ s.windowHist = copyMatch dist len h := by
    have := hout'
    change out ++ r.st.windowHist = copyMatch dist len (r.out ++ r.st.windowHist) at this
    rwa [hr.codes.windowHist, hout] at this
  refine ⟨_, hsteps.trans hcopy, ⟨rfl, ?_, hs, hb, hout'', hr.mark, ?_⟩, ?_⟩
  · exact hr.codes
  · have := congrArg List.length hout''
    simp only [List.length_append, InflateState.length_windowHist, length_copyMatch] at this
    change r.mark = r.left - len + out.length
    omega
  · change r.left - len + len = r.left
    omega

/-- The slow states decode a run of literals and copies. -/
theorem SlowAt.decodes {v' : BitStream} {h' : List UInt8} (hd : Decodes s v h v' h')
    (hr : SlowAt s mark v h r) (ht : TablesOk s) (hw : s.whave ≤ s.wsize)
    (hleft : h'.length ≤ h.length + r.left) :
    ∃ r', SlowSteps flush r r' ∧ SlowAt s mark v' h' r' := by
  induction hd generalizing r with
  | refl => exact ⟨r, .refl, hr⟩
  | lit hread hd ih =>
    have hle := hd.length_le
    rw [List.length_cons] at hle
    obtain ⟨r₁, hsteps, hr₁, hleft₁⟩ := hr.lit flush ht hread (by omega)
    obtain ⟨r', hsteps', hr'⟩ := ih hr₁ (by rw [List.length_cons]; omega)
    exact ⟨r', hsteps.trans hsteps', hr'⟩
  | copy hread hdist hd ih =>
    have hle := hd.length_le
    rw [length_copyMatch] at hle
    obtain ⟨r₁, hsteps, hr₁, hleft₁⟩ := hr.copy flush ht hw hread hdist (by omega)
    obtain ⟨r', hsteps', hr'⟩ := ih hr₁ (by rw [length_copyMatch]; omega)
    exact ⟨r', hsteps.trans hsteps', hr'⟩

/-- What two states have in common after a symbol that ends the decoding. -/
structure SameEnd (s s' : InflateState) : Prop where
  mode : s'.mode = s.mode
  codes : SameCodes s s'
  pending : s.mode = .match_ → s'.length = s.length ∧ s'.offset = s.offset

/-- The slow states come to the same end. -/
theorem SlowAt.stops {s' : InflateState} (hs : Stops s h r.left v n s') (hr : SlowAt s mark v h r)
    (ht : TablesOk s) :
    ∃ r', SlowSteps flush r r' ∧ r'.out = r.out ∧ r'.left = r.left ∧ r'.acc.stream = v.drop n ∧
      SameEnd s' r'.st := by
  have ht' := hr.codes.tables ht
  cases hs with
  | endBlock hread =>
    obtain ⟨acc, hsteps, hs, -⟩ := hr.symbol flush ht
      ((hr.codes.reads hread).endBlock_run ht' hr.mode)
    exact ⟨_, hsteps, rfl, rfl, hs, rfl, hr.codes, fun h => by cases h⟩
  | badLen hread =>
    obtain ⟨acc, hsteps, hs, -⟩ := hr.symbol flush ht
      ((hr.codes.reads hread).badLen_run ht' hr.mode)
    exact ⟨_, hsteps, rfl, rfl, hs, rfl, hr.codes.setBad _, fun h => by cases h⟩
  | badDist hread =>
    obtain ⟨_, _, _, _, hrun⟩ := (hr.codes.reads hread).badDist_run ht' hr.mode
    obtain ⟨acc, hsteps, hs, -⟩ := hr.symbol flush ht hrun
    exact ⟨_, hsteps, rfl, rfl, hs, rfl, hr.codes.setBad _, fun h => by cases h⟩
  | handOver hread hroom =>
    obtain ⟨_, _, hrun⟩ := (hr.codes.reads hread).copy_run ht' hr.mode
    obtain ⟨acc, hsteps, hs, -⟩ := hr.symbol flush ht hrun
    exact ⟨_, hsteps, rfl, rfl, hs, rfl, hr.codes, fun _ => ⟨rfl, rfl⟩⟩
  | @tooFar len dist n hread hfar hroom =>
    obtain ⟨back, extra, hrun⟩ := (hr.codes.reads hread).copy_run ht' hr.mode
    obtain ⟨acc, hsteps, hs, hok, -⟩ := hr.symbol flush ht hrun
    have hpos : 1 ≤ len := hok.2.1.1
    have hlen := congrArg List.length hr.out
    simp only [List.length_append, InflateState.length_windowHist] at hlen
    have hhave := hr.codes.whave
    have hstep := caseMatch_far (r := { r with st := r.st.atMatch back extra len dist, acc := acc })
      (show 0 < r.left by omega) hr.left (show r.out.length + r.st.whave < dist by omega)
    exact ⟨_, hsteps.tail ⟨rfl, hstep⟩, rfl, rfl, hs, rfl, hr.codes.setBad _, fun h => by cases h⟩

end Slow

/-- The length and distance tables of a block: the fixed ones, or built from code lengths that a
block header can have. -/
inductive BlockTables (s : InflateState) : Prop
  | fixed (h : s.lencode = s.fixedtables.lencode ∧ s.lenbits = s.fixedtables.lenbits ∧
      s.distcode = s.fixedtables.distcode ∧ s.distbits = s.fixedtables.distbits)
  | dynamic (lens dists : List Nat) (t t' : DecodeTable) (hl : lens.length ≤ 286)
      (hd : dists.length ≤ 30) (h : zngInflateTable .lens lens maxLenRootBits = .ok t)
      (h' : zngInflateTable .dists dists 9 = .ok t')
      (hs : s.lencode = t.entry ∧ s.lenbits = t.bits ∧ s.distcode = t'.entry ∧ s.distbits = t'.bits)

theorem BlockTables.ok {s : InflateState} (h : BlockTables s) : TablesOk s := by
  cases h with
  | fixed h =>
    obtain ⟨h1, h2, h3, h4⟩ := h
    have ht := InflateState.fixedtables_ok s
    refine ⟨?_, ?_, ?_, ?_⟩
    · rw [h1, h2]; exact ht.len
    · rw [h2]; exact ht.lenbits
    · rw [h3, h4]; exact ht.dist
    · rw [h4]; exact ht.distbits
  | dynamic lens dists t t' hl hd h h' hs =>
    obtain ⟨h1, h2, h3, h4⟩ := hs
    have hlen := InflateState.lens_twoLevel hl h
    have hdist := InflateState.dists_twoLevel hd h'
    refine ⟨?_, ?_, ?_, ?_⟩
    · rw [h1, h2]; exact hlen.1
    · rw [h2]; exact hlen.2
    · rw [h3, h4]; exact hdist.1
    · rw [h4]; exact hdist.2

/-- The bits held are fewer than eight, or a code longer than them begins with them. -/
def InflateState.Lazy (s : InflateState) (acc : BitReader) : Prop :=
  acc.bits < 8 ∨ acc.bits < s.lenSize acc.hold

theorem InflateState.Lazy.bits_le {s : InflateState} {acc : BitReader} (ht : TablesOk s)
    (h : s.Lazy acc) : acc.bits ≤ 32 := by
  rcases h with h | h
  · omega
  · obtain ⟨l, h1, hl, hp⟩ := ht.len.select_shape ht.lenbits_le lenLink.op acc.hold
    have := (hp.le_codeBits (by omega)).2
    simp only [lenSize, selectBits] at h
    omega

/-- The first code takes all but seven of the bits held, or more. -/
theorem InflateState.Lazy.lt {s : InflateState} {acc : BitReader} (ht : TablesOk s)
    (h : s.Lazy acc) : acc.bits < s.lenSize acc.stream.val + 8 := by
  rcases h with h | h
  · omega
  · by_contra hge
    have hmod : acc.stream.val % 2 ^ s.lenSize acc.stream.val =
        acc.hold % 2 ^ s.lenSize acc.stream.val := (acc.hold_mod (by omega)).symm
    have hsel := ht.len.select_stable ht.lenbits_le lenLink.op hmod
    have : s.lenSize acc.stream.val = s.lenSize acc.hold := by
      simp only [lenSize, selectBits, hsel]
    omega

/-- What `inflate_fast` leaves is what the slow states reach. -/
theorem FastResult.Spec.slow {r : Regs} {f : FastResult} {c : Nat} (flush : Flush)
    (hf : f.Spec r.acc r.st r.out r.left c) (hm : r.st.mode = .len) (ht : TablesOk r.st)
    (hbits : r.acc.bits ≤ 32) (hw : r.st.whave ≤ r.st.wsize)
    (hmark : r.mark = r.left + r.out.length) :
    ∃ r', SlowSteps flush r r' ∧ r'.out = f.out ∧ r'.left = f.availOut ∧
      r'.acc.stream = r.acc.stream.drop c ∧ SameEnd f.st r'.st := by
  have hstart : SlowAt r.st r.mark r.acc.stream (r.out ++ r.st.windowHist) r :=
    ⟨hm, rfl, rfl, hbits, rfl, rfl, hmark⟩
  have hspace := hf.space
  have hdecodes : ∀ v, Decodes r.st r.acc.stream (r.out ++ r.st.windowHist) v
      (f.out ++ r.st.windowHist) → ∃ r', SlowSteps flush r r' ∧
        SlowAt r.st r.mark v (f.out ++ r.st.windowHist) r' ∧ r'.out = f.out ∧ r'.left = f.availOut := by
    intro v hd
    obtain ⟨r', hsteps, hr'⟩ := hstart.decodes flush hd ht hw
      (by simp only [List.length_append]; omega)
    have ho : r'.out = f.out := List.append_cancel_right hr'.out
    have hl := congrArg List.length ho
    have hm' := hr'.left
    have hk := hr'.mark
    exact ⟨r', hsteps, hr', ho, by omega⟩
  rcases hf.symbols with ⟨hst, hd⟩ | ⟨c₁, n, rfl, hd, hs⟩
  · obtain ⟨r', hsteps, hr', ho, hl⟩ := hdecodes _ hd
    refine ⟨r', hsteps, ho, hl, hr'.stream, ?_, ?_, ?_⟩
    · rw [hst, hr'.mode, hm]
    · rw [hst]
      exact hr'.codes
    · rw [hst, hm]
      intro h
      cases h
  · obtain ⟨r₁, hsteps, hr₁, ho, hl⟩ := hdecodes _ hd
    rw [← hl] at hs
    obtain ⟨r', hsteps', ho', hl', hv, hend⟩ := hr₁.stops flush hs ht
    rw [BitStream.drop_drop] at hv
    exact ⟨r', hsteps.trans hsteps', ho'.trans ho, hl'.trans hl, hv, hend⟩

end ZlibNg
