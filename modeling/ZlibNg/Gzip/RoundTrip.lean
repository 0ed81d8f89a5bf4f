import ZlibNg.Deflate.HeaderBytes
import ZlibNg.Inflate.HeaderCalls

/-! What `deflate` writes of a header given to `deflateSetHeader` is what `inflate` reads into the
one given to `inflateGetHeader`. -/
namespace ZlibNg
open BitStream BitProg

/-- Every schedule of calls writes these bytes: a call that does not go on to compress fills its
output, and when one goes on they are all written. -/
def HeaderState.Writes (s₀ : HeaderState) (bytes : List UInt8) : Prop :=
  ∀ s, Written s₀ s → s.out <+: bytes ∧
    ∀ flush availIn availOut, flush ≠ .trees → match s.deflate flush availIn availOut with
      | (some _, s') => s'.out <+: bytes ∧ s'.out.length = s.out.length + availOut
      | (none, s') => s'.out = bytes ∧ s'.pending = 0

/-- However the bytes are given to `inflate`, with others behind them: until they are taken the
structure is not done; then it is `head`, and the data begins at the first byte behind. -/
structure Session.Restores (s₀ : Session) (bytes rest : List UInt8) (head : GzHeader) : Prop where
  structure_ {s : Session} : Fed (bytes ++ rest) s₀ s →
    (s.taken < bytes.length ∧ ∃ part, s.strm.st.head = some part ∧ part.done = 0) ∨
      (bytes.length ≤ s.taken ∧ s.strm.st.head = some head)
  data {s : Session} {mem : Int → UInt8} {nextIn : Int} {availIn availOut : Nat} {flush : Flush}
    {r r' : Regs} : Fed (bytes ++ rest) s₀ s →
      bytesAt mem nextIn availIn <+: (bytes ++ rest).drop s.taken.toNat →
      Regs.Passes flush (s.load mem nextIn availIn availOut) r → r.step flush = .loop r' →
      r.st.mode.inHeader = true → r'.st.mode.inHeader ≠ true →
      r'.st.mode = .type ∧ r'.st.head = some head ∧
        r'.acc.stream.append (ofBytes ((bytes ++ rest).drop (s.taken.toNat + availIn))) = ofBytes rest
  returns {s : Session} {mem : Int → UInt8} {nextIn : Int} {availIn availOut : Nat} {flush : Flush} :
    Fed (bytes ++ rest) s₀ s → bytesAt mem nextIn availIn <+: (bytes ++ rest).drop s.taken.toNat →
      ∃ ret s', s.call (.inflate mem nextIn availIn availOut flush) = some (ret, s') ∧
        (s'.taken = s.taken + availIn ∨ bytes.length ≤ s'.taken)

/-- The structure into which a header is read: a flag is kept as a truth value, the numbers as far
as their bytes go, and the strings, with the zero at their end, as far as there is room. -/
def GzHead.restored (g : GzHead) (xflags : Nat) (hd : GzHeader) : GzHeader where
  text := if g.text ≠ 0 then 1 else 0
  time := g.time % 2 ^ 32
  xflags := xflags
  os := g.os % 256
  extra := g.extra.bind fun e => saved hd.extra hd.extraMax e
  extraLen := g.extra.elim hd.extraLen List.length
  extraMax := hd.extraMax
  name := g.name.bind fun n => saved hd.name hd.nameMax (n ++ [0])
  nameMax := hd.nameMax
  comment := g.comment.bind fun n => saved hd.comment hd.commMax (n ++ [0])
  commMax := hd.commMax
  hcrc := if g.hcrc ≠ 0 then 1 else 0
  done := 1

section Restored
variable {g : GzHead} {xflags : Nat} {hd : GzHeader} {f : Gzip.Fields} {rest : List UInt8}

theorem GzHead.restore_fields : (g.fields xflags).restore hd = g.restored xflags hd := by
  have hflag : ∀ n : Nat, (decide (n ≠ 0)).toNat = if n ≠ 0 then 1 else 0 := by
    intro n
    by_cases hn : n = 0
    · simp [hn]
    · simp [hn]
  unfold Gzip.Fields.restore Gzip.Fields.readExtra Gzip.Fields.readFixed GzHead.restored
    Gzip.Fields.extraData Gzip.Fields.nameData Gzip.Fields.commentData GzHead.fields
  dsimp only
  rw [hflag, hflag]
  cases g.extra <;> cases g.name <;> cases g.comment <;> rfl

theorem GzHead.Ok.fields (hg : g.Ok) (hx : xflags < 256) : (g.fields xflags).Ok where
  time := Nat.mod_lt _ (Nat.two_pow_pos 32)
  xflags := hx
  os := Nat.mod_lt _ (by decide)
  extra e he := Nat.lt_succ_of_le (hg.extra e he)
  name := hg.name
  comment := hg.comment

theorem HeaderState.gzipFlags_lt (s : HeaderState) : s.gzipFlags < 256 := by
  unfold gzipFlags
  split
  · decide
  · split <;> decide

/-- A request for a gzip header is one for its check value. -/
theorem wrapRequest_gzip {windowBits : Int} {wrap wbits : Nat}
    (h : wrapRequest windowBits = some (wrap, wbits)) (hw : wrap &&& 2 ≠ 0) : wrap &&& 4 ≠ 0 := by
  by_cases hneg : windowBits < 0
  · simp only [wrapRequest, if_pos hneg] at h
    split at h
    · cases h
    · obtain ⟨rfl, -⟩ := Prod.mk.inj (Option.some.inj h)
      exact absurd rfl hw
  · have hcases : wrap = 5 ∨ wrap = 6 ∨ wrap = 7 := by
      by_cases h48 : windowBits < 48
      · simp only [wrapRequest, if_neg hneg, if_pos h48] at h
        split at h
        · cases h
        · obtain ⟨hwrap, -⟩ := Prod.mk.inj (Option.some.inj h)
          omega
      · have hlarge : windowBits < -maxWbits ∨
            (windowBits ≠ 0 ∧ (windowBits < 8 ∨ (maxWbits : Int) < windowBits)) := by
          unfold maxWbits
          omega
        simp only [wrapRequest, if_neg hneg, if_neg h48, if_pos hlarge] at h
        cases h
    rcases hcases with rfl | rfl | rfl
    · exact absurd rfl hw
    · decide
    · decide

/-- A stream that is given a header is at the start of it. -/
theorem Session.headerRead_start (f : Gzip.Fields) (rest : List UInt8) {st : InflateState} {windowBits : Int} {s₁ s₀ : Session}
    (h : Session.start st windowBits = some s₁) (hhead : s₁.getHeader hd = (.ok, s₀)) :
    s₀.Inv ∧ s₀.taken = 0 ∧ s₀.HeaderRead f hd rest := by
  have hinv := Session.start_inv h
  unfold Session.start InflateStream.inflateInit2 at h
  cases hw : wrapRequest windowBits with
  | none =>
    rw [hw] at h
    cases h
  | some w =>
    obtain ⟨wrap, wbits⟩ := w
    rw [hw] at h
    obtain rfl := Option.some.inj h
    unfold Session.getHeader InflateStream.inflateGetHeader at hhead
    dsimp only at hhead
    split at hhead
    · cases hhead
    · next hw2 =>
      obtain ⟨-, rfl⟩ := Prod.mk.inj hhead
      have hlength : 0 < f.bytes.length := by
        rw [Gzip.Fields.bytes, Gzip.Fields.front, Gzip.Fields.fixed]
        simp
      refine ⟨inv_reset rfl ⟨rfl, rfl, rfl⟩ rfl rfl rfl 0, rfl,
        .inl ⟨rfl, Int.natCast_pos.mpr hlength, f.bytes ++ rest, ?_, ?_⟩⟩
      · ext <;> simp
      · exact ⟨rfl, wrapRequest_gzip hw hw2, hw2, rfl⟩

/-- In any run, the header is being read, or has been read. -/
theorem Session.Fed.headerRead (hf : f.Ok) {s₀ s : Session} (hinv : s₀.Inv) (h0 : 0 ≤ s₀.taken)
    (hr : s₀.HeaderRead f hd rest) (h : Fed (f.bytes ++ rest) s₀ s) :
    s.Inv ∧ 0 ≤ s.taken ∧ s.HeaderRead f hd rest := by
  induction h with
  | start => exact ⟨hinv, h0, hr⟩
  | call _ hin hcall ih =>
    obtain ⟨hinv', h0', hr'⟩ := ih
    obtain ⟨hnext, hpos, -⟩ := hr'.call hf hinv' h0' hin hcall
    exact ⟨hinv'.call hcall, hpos, hnext⟩

theorem Session.restores_start (hf : f.Ok) {st : InflateState} {windowBits : Int} {s₁ s₀ : Session}
    (h : Session.start st windowBits = some s₁) (hhead : s₁.getHeader hd = (.ok, s₀)) :
    s₀.Restores f.bytes rest (f.restore hd) := by
  obtain ⟨hinv, h0, hr⟩ := Session.headerRead_start f rest h hhead
  have hfed : ∀ {s}, Fed (f.bytes ++ rest) s₀ s → s.Inv ∧ 0 ≤ s.taken ∧ s.HeaderRead f hd rest :=
    fun h => h.headerRead hf hinv h0.ge hr
  refine ⟨fun h => ?_, fun {s mem nextIn availIn availOut flush r r'} h hin hp hs hm hm' => ?_,
    fun {s mem nextIn availIn availOut flush} h hin => ?_⟩
  · obtain ⟨-, -, ⟨hm, htaken, b, -, hexp⟩ | ⟨hdone, -, htaken⟩⟩ := hfed h
    · exact .inl ⟨htaken, hexp.notDone hm⟩
    · exact .inr ⟨htaken, hdone⟩
  · obtain ⟨hinv', -, hr'⟩ := hfed h
    obtain ⟨hgood, hlazy, -⟩ := hinv'.load _ _ _ _
    obtain ⟨hgood', -⟩ := hp.good hgood hlazy
    rcases hp.header hf hgood hlazy (hr'.load _ hin) with ⟨hreads, -⟩ | ⟨-, hphase, -⟩
    · have hpar := Regs.step_parses flush hf hgood' hreads hm
      rw [hs] at hpar
      exact Regs.Reads.done hpar hm'
    · rw [Mode.inHeader_iff] at hm
      omega
  · obtain ⟨hinv', h0', hr'⟩ := hfed h
    obtain ⟨x, hx, -⟩ := hinv'.returned mem nextIn availIn availOut flush
    cases hcall : s.call (.inflate mem nextIn availIn availOut flush) with
    | none =>
      unfold Session.call at hcall
      dsimp only at hcall
      rw [hx] at hcall
      cases hcall
    | some y =>
      obtain ⟨ret, s'⟩ := y
      exact ⟨ret, s', rfl, (hr'.call hf hinv' h0' hin hcall).2.2⟩

/-- The header comes out whole. -/
theorem HeaderState.start_writes (hg : g.Ok) (buf : Nat → UInt8) (memLevel level strategy wBits : Nat) :
    (start buf memLevel level strategy wBits g).Writes
      (g.fields (start buf memLevel level strategy wBits g).gzipFlags).bytes := by
  intro s hs
  have hbegun := hs.begun hg (start_begun buf memLevel level strategy wBits g)
  refine ⟨hbegun.written, fun flush availIn availOut hflush => ?_⟩
  have hcalled := hbegun.deflate hg hflush availIn availOut
  generalize s.deflate flush availIn availOut = x at hcalled ⊢
  obtain ⟨ret, s'⟩ := x
  cases ret with
  | none => exact hcalled
  | some ret => exact ⟨hcalled.1.written, hcalled.2⟩

end Restored

/-- The header that `deflate` writes is the one that `inflate` reads. -/
theorem gzip_header_round_trip {g : GzHead} (hg : g.Ok) (buf : Nat → UInt8)
    (memLevel level strategy wBits : Nat) {st : InflateState} {windowBits : Int} {hd : GzHeader}
    {s₁ s₀ : Session} (hstart : Session.start st windowBits = some s₁)
    (hhead : s₁.getHeader hd = (.ok, s₀)) :
    ∃ bytes, (HeaderState.start buf memLevel level strategy wBits g).Writes bytes ∧
      ∀ rest, s₀.Restores bytes rest
        (g.restored (HeaderState.start buf memLevel level strategy wBits g).gzipFlags hd) := by
  refine ⟨_, HeaderState.start_writes hg buf memLevel level strategy wBits, fun rest => ?_⟩
  rw [← GzHead.restore_fields]
  exact Session.restores_start (hg.fields (HeaderState.gzipFlags_lt _)) hstart hhead

/-- A header structure without buffers. -/
def GzHeader.zeroed : GzHeader where
  text := 0
  time := 0
  xflags := 0
  os := 0
  extra := none
  extraLen := 0
  extraMax := 0
  name := none
  nameMax := 0
  comment := none
  commMax := 0
  hcrc := 0
  done := 0

open Session in
/-- A header with every field, and a name that is cut. -/
theorem gzip_header_round_trip_name : ∃ bytes,
    (HeaderState.start (fun _ => 0) 1 6 0 15
      ⟨1, 5, 3, some [1, 2, 3], some [0x61, 0x62], some [], 1⟩).Writes bytes ∧
    ∀ rest, ((fresh 31 rfl).getHeader
        { GzHeader.zeroed with name := some fun _ => 0, nameMax := 1 }).2.Restores bytes rest
      (GzHead.restored ⟨1, 5, 3, some [1, 2, 3], some [0x61, 0x62], some [], 1⟩ 0
        { GzHeader.zeroed with name := some fun _ => 0, nameMax := 1 }) := by
  have hg : GzHead.Ok ⟨1, 5, 3, some [1, 2, 3], some [0x61, 0x62], some [], 1⟩ := by
    constructor
    · rintro e ⟨⟩
      decide
    · rintro n ⟨⟩
      decide
    · rintro n ⟨⟩
      decide
  have hstart : start .zeroed 31 = some (fresh 31 rfl) := (Option.some_get _).symm
  exact gzip_header_round_trip hg (fun _ => 0) 1 6 0 15 hstart rfl

open Session in
/-- A flag is restored as a truth value: not as it was given. -/
theorem gzip_header_text : ¬ ∀ (g : GzHead) (w : HeaderState) (hd : GzHeader) (s₀ s : Session)
    (head : GzHeader), g.Ok →
      (HeaderState.start (fun _ => 0) 1 6 0 15 g).deflate .noFlush 0 64 = (none, w) →
      (fresh 31 rfl).getHeader hd = (.ok, s₀) → Fed w.out s₀ s → w.out.length ≤ s.taken →
      s.strm.st.head = some head → head.text = g.text := by
  intro h
  obtain ⟨w, hw⟩ : ∃ w, (HeaderState.start (fun _ => 0) 1 6 0 15
      ⟨2, 0, 3, none, none, none, 0⟩).deflate .noFlush 0 64 = (none, w) := ⟨_, rfl⟩
  have hbytes : w.out = [31, 139, 8, 1, 0, 0, 0, 0, 0, 3] := by
    rw [← (Prod.mk.inj hw).2]
    decide
  have hrun : (((fresh 31 rfl).getHeader .zeroed).2.call
      (.inflate (memOf [31, 139, 8, 1, 0, 0, 0, 0, 0, 3]) 0 10 0 .noFlush)).map
        (fun x => (x.2.taken, x.2.strm.st.head.map GzHeader.text)) = some (10, some 1) := by decide
  obtain ⟨⟨ret, s⟩, hc, hs⟩ := Option.map_eq_some_iff.mp hrun
  obtain ⟨htaken, htext⟩ := Prod.mk.inj hs
  obtain ⟨head, hhead, htext⟩ := Option.map_eq_some_iff.mp htext
  have hfed : Fed w.out ((fresh 31 rfl).getHeader .zeroed).2 s := by
    rw [hbytes]
    exact .call .start (by decide) hc
  have hg : GzHead.Ok ⟨2, 0, 3, none, none, none, 0⟩ := by
    constructor <;> rintro n ⟨⟩
  have hsame := h _ w _ _ s head hg hw rfl hfed (by rw [hbytes, htaken]; decide) hhead
  rw [htext] at hsame
  exact absurd hsame (by decide)

end ZlibNg
