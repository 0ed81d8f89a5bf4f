import ZlibNg.Deflate.StoredRun

/-! The calls of `deflate` at level 0, from the header to the trailer. -/
namespace ZlibNg

/-- The header that `deflate` writes at level 0 when none is set. -/
def streamHeader (wrap wBits : Nat) : List UInt8 :=
  if wrap = 2 then [31, 139, 8, 0, 0, 0, 0, 0, 4, 3]
  else if wrap = 1 then
    let header := (8 + (wBits - 8) <<< 4) <<< 8
    (leBytes (header + (31 - header % 31)) 2).reverse
  else []

namespace HeaderState

/-- A header in the pending buffer. -/
structure Headed (header : List UInt8) (ret : Option Ret) (h : HeaderState) : Prop where
  ret_ok : ret = none ∨ ret = some .ok
  status : h.status = .busy
  bytes : h.out ++ h.held = header
  outset : h.pending = 0 → h.pendingOut = 0
  empty : ret = none → h.pending = 0

theorem flushAll_headed {h : HeaderState} (hstatus : h.status = .busy)
    (hout : h.pending = 0 → h.pendingOut = 0) :
    Headed (h.out ++ h.held) (HeaderStep.outcome h.flushAll).1 (HeaderStep.outcome h.flushAll).2 ∧
      ∀ h', h.flushAll = .ok h' → h'.status = .busy := by
  obtain ⟨p, q, a, out, heq, hq, -, -, hheld, -⟩ := flushPending_spec hout
  rw [heq] at hheld
  unfold flushAll
  rw [heq]
  dsimp only
  split
  · exact ⟨⟨.inr rfl, hstatus, hheld, hq, nofun⟩, nofun⟩
  · next h0 =>
    refine ⟨⟨.inl rfl, hstatus, hheld, hq, fun _ => not_not.mp h0⟩, fun h' heq' => ?_⟩
    rw [← Except.ok.inj heq']
    exact hstatus

theorem hcrcState_skip {s : HeaderState} (h : s.status ≠ .hcrc) : s.hcrcState = .ok s := by
  unfold hcrcState
  split
  · next hst _ => exact absurd hst h
  · rfl

/-- Once the header is written, the other parts are passed over. -/
theorem skip_rest {x : HeaderStep} (hx : ∀ s, x = .ok s → s.status = .busy) :
    (x >>= fun s => s.extraState >>= fun s => s.nameState >>= fun s => s.commentState >>= fun s =>
      s.hcrcState) = x := by
  cases x with
  | error s => rfl
  | ok s =>
    have hbusy := hx s rfl
    change (s.extraState >>= fun s => s.nameState >>= fun s => s.commentState >>= fun s =>
      s.hcrcState) = _
    rw [extraState_skip (by rw [hbusy]; decide)]
    change (s.nameState >>= fun s => s.commentState >>= fun s => s.hcrcState) = _
    rw [nameState_skip (by rw [hbusy]; decide)]
    change (s.commentState >>= fun s => s.hcrcState) = _
    rw [commentState_skip (by rw [hbusy]; decide)]
    exact hcrcState_skip (by rw [hbusy]; decide)

theorem writeHeader_busy {h : HeaderState} (hbusy : h.status = .busy) :
    h.writeHeader = (none, h) := by
  have hskip : (if h.status = .init ∧ h.wrap = 0 then { h with status := .busy } else h) = h :=
    if_neg fun hne => by simp [hbusy] at hne
  unfold writeHeader
  dsimp only
  rw [hskip]
  exact if_neg fun hne => hne.1 hbusy

/-- A stream of which nothing is written yet, and no header is set. -/
structure Blank (wrap wBits : Nat) (h : HeaderState) : Prop where
  status : h.status = if wrap = 2 then .gzip else .init
  wrap_eq : h.wrap = wrap
  level : h.level = 0
  strstart : h.strstart = 0
  gzhead : h.gzhead = none
  wBits_eq : h.wBits = wBits
  pending : h.pending = 0
  pendingOut : h.pendingOut = 0
  out : h.out = []

theorem Blank.held_nil {wrap wBits : Nat} {h : HeaderState} (hb : Blank wrap wBits h) : h.held = [] := by
  rw [HeaderState.held, hb.pending]
  rfl

/-- The header goes out as it is put. -/
theorem Blank.headed {wrap wBits : Nat} {h x : HeaderState} (hb : Blank wrap wBits h)
    (hwrap : wrap ≠ 0) {header : List UInt8} (hheaders : h.deflateHeaders = x.flushAll)
    (hstatus : x.status = .busy) (hpos : x.pendingOut = 0) (hbytes : x.out ++ x.held = header) :
    Headed header h.writeHeader.1 h.writeHeader.2 := by
  have hskip : (if h.status = .init ∧ h.wrap = 0 then { h with status := .busy } else h) = h :=
    if_neg fun hne => hwrap (hb.wrap_eq.symm.trans hne.2)
  have hdue : h.status ≠ .busy ∧ h.wrap ≠ 0 := by
    refine ⟨?_, by rwa [hb.wrap_eq]⟩
    rw [hb.status]
    split <;> decide
  have hall : h.writeHeader = HeaderStep.outcome x.flushAll := by
    unfold HeaderState.writeHeader
    dsimp only
    rw [hskip, if_pos hdue, hheaders]
  rw [hall, ← hbytes]
  exact (flushAll_headed hstatus fun _ => hpos).1

theorem Blank.zlib {wBits : Nat} {h : HeaderState} (hb : Blank 1 wBits h) :
    Headed (streamHeader 1 wBits) h.writeHeader.1 h.writeHeader.2 := by
  have hinit : h.status = .init := hb.status
  have hflags : h.levelFlags = 0 := if_pos (.inr (by rw [hb.level]; decide))
  have hheader : streamHeader 1 wBits = (leBytes ((8 + (wBits - 8) <<< 4) <<< 8 +
      (31 - (8 + (wBits - 8) <<< 4) <<< 8 % 31)) 2).reverse := by
    rw [streamHeader, if_neg (by decide), if_pos rfl]
  generalize streamHeader 1 wBits = header at *
  have hzlib : h.zlibHeader = ({ h.put header with
      adler := adler32InitialValue, status := .busy } : HeaderState).flushAll := by
    rw [zlibHeader, if_pos hinit, hheader]
    simp only [hflags, hb.strstart, hb.wBits_eq, ne_eq, not_true_eq_false, if_false,
      Nat.zero_shiftLeft, Nat.or_zero]
  have hbusy := (flushAll_headed (h := { h.put header with
    adler := adler32InitialValue, status := .busy }) rfl fun _ => hb.pendingOut).2
  refine hb.headed (by decide) (x := { h.put header with
    adler := adler32InitialValue, status := .busy }) ?_ rfl hb.pendingOut ?_
  · rw [deflateHeaders, hzlib]
    refine Eq.trans ?_ (skip_rest hbusy)
    generalize HeaderState.flushAll _ = y at hbusy
    cases y with
    | error s => rfl
    | ok s =>
      change (s.gzipHeader >>= _) = _
      rw [gzipHeader_skip (by rw [hbusy s rfl]; decide)]
  · have hput : held (h.put header) = h.held ++ header := held_put hb.pendingOut
    change h.out ++ held (h.put header) = header
    rw [hput, hb.held_nil, hb.out]
    rfl

theorem Blank.gzip {wBits : Nat} {h : HeaderState} (hb : Blank 2 wBits h) :
    Headed (streamHeader 2 wBits) h.writeHeader.1 h.writeHeader.2 := by
  have hgz : h.status = .gzip := hb.status
  have hxfl : h.gzipFlags = 4 := by
    rw [gzipFlags, hb.level, if_neg (by decide), if_pos (.inr (by decide))]
  generalize hx : ({ ({ h with adler := crc32InitialValue }.put [31, 139, 8]).put
    (leBytes 0 4 ++ [0] ++ [UInt8.ofNat 4, UInt8.ofNat osCode]) with
      status := .busy } : HeaderState) = x
  have hgzip : h.gzipHeader = x.flushAll := by
    have hnone : (HeaderState.put [31, 139, 8] { h with adler := crc32InitialValue }).gzhead =
        none := hb.gzhead
    have hflags : gzipFlags (HeaderState.put [31, 139, 8] { h with adler := crc32InitialValue }) =
        4 := hxfl
    rw [← hx, gzipHeader, if_pos hgz]
    dsimp only
    rw [hnone]
    dsimp only
    rw [hflags]
  have hstatus : x.status = .busy := by rw [← hx]
  have hpos : x.pendingOut = 0 := by
    rw [← hx]
    exact hb.pendingOut
  refine hb.headed (by decide) ?_ hstatus hpos ?_
  · rw [deflateHeaders, zlibHeader_skip (by rw [hgz]; decide)]
    change (h.gzipHeader >>= _) = _
    rw [hgzip]
    exact skip_rest (flushAll_headed hstatus fun _ => hpos).2
  · have hput₁ : held ({ h with adler := crc32InitialValue }.put [31, 139, 8]) =
        h.held ++ [31, 139, 8] := held_put hb.pendingOut
    have hput : x.held = held ({ h with adler := crc32InitialValue }.put [31, 139, 8]) ++
        (leBytes 0 4 ++ [0] ++ [UInt8.ofNat 4, UInt8.ofNat osCode]) := by
      rw [← hx]
      exact held_put hb.pendingOut
    rw [hput, hput₁, hb.held_nil, ← hx]
    change h.out ++ _ = _
    rw [hb.out]
    rfl

theorem Blank.writeHeader {wrap wBits : Nat} {h : HeaderState} (hb : Blank wrap wBits h)
    (hwrap : wrap ≤ 2) :
    Headed (streamHeader wrap wBits) h.writeHeader.1 h.writeHeader.2 := by
  obtain rfl | rfl | rfl : wrap = 0 ∨ wrap = 1 ∨ wrap = 2 := by omega
  · have heq : h.writeHeader = (none, { h with status := .busy }) := by
      have hraw : (if h.status = .init ∧ h.wrap = 0 then { h with status := .busy } else h) =
          { h with status := .busy } := if_pos ⟨hb.status, hb.wrap_eq⟩
      unfold HeaderState.writeHeader
      dsimp only
      rw [hraw]
      exact if_neg fun hne => hne.1 rfl
    rw [heq]
    exact ⟨.inl rfl, rfl, by rw [hb.out]; exact hb.held_nil, fun _ => hb.pendingOut,
      fun _ => hb.pending⟩
  · exact hb.zlib
  · exact hb.gzip

end HeaderState
namespace StoredStream
open StoredBlock
variable {s s' : StoredStream} {input rest taken header : List UInt8} {blocks : List StoredBlock}
  {flush : Flush} {wrap wBits : Nat}

/-- The last block is written, and perhaps the trailer. -/
structure Ended (header : List UInt8) (wrap : Nat) (s : StoredStream) (blocks : List StoredBlock) :
    Prop where
  finish : s.finish = true
  closed : Closed blocks
  left : s.left = 0
  valid : s.biValid = 0
  ends : (s.win.wrap = wrap ∧ s.sent = written (BitStream.ofBytes header) blocks) ∨
    (s.win.wrap = -wrap ∧ s.sent = (written (BitStream.ofBytes header) blocks).append
      (BitStream.ofBytes (trailerBytes wrap s.head.adler s.totalIn)))

/-- The header is written; the input that was taken is in the blocks and in the window. -/
structure Body (header : List UInt8) (wrap : Nat) (s : StoredStream) (taken : List UInt8)
    (blocks : List StoredBlock) : Prop where
  ready : s.Ready
  status : s.head.status = .busy
  bytes : payloads blocks ++ s.unread = taken
  part : (s.finish = false ∧ Plain blocks ∧ s.win.wrap = wrap ∧
    s.sent = written (BitStream.ofBytes header) blocks) ∨ Ended header wrap s blocks

/-- A stream before or after its header is written. -/
inductive Going (wrap wBits : Nat) (s : StoredStream) (taken : List UInt8) : Prop
  | blank (hblank : s.head.Blank wrap wBits) (htaken : taken = []) (ready : s.Ready)
      (bits : s.biValid = 0) (left : s.left = 0) (finish : s.finish = false)
      (hwrap : s.win.wrap = wrap) (start : s.win.strstart = 0)
  | body (blocks : List StoredBlock) (h : Body (streamHeader wrap wBits) wrap s taken blocks)

/-- The whole stream is written. -/
def Whole (wrap wBits : Nat) (s : StoredStream) (taken : List UInt8) : Prop :=
  ∃ blocks, Closed blocks ∧ payloads blocks = taken ∧
    BitStream.ofBytes s.head.out =
      (written (BitStream.ofBytes (streamHeader wrap wBits)) blocks).append
        (BitStream.ofBytes (trailerBytes wrap s.head.adler s.totalIn))

/-- Counters of a call have no part in the stream. -/
theorem Body.touch (h : Body header wrap s taken blocks) (a : Nat) (l : Int) (k : Nat) :
    Body header wrap { s with head := { s.head with availOut := a, lastFlush := l, strstart := k } }
      taken blocks := by
  obtain ⟨⟨h1, h2, h3, h4, h5⟩, hstatus, hbytes, hpart⟩ := h
  refine ⟨⟨h1, h2, h3, h4, h5⟩, hstatus, hbytes, hpart.imp id fun he => ?_⟩
  exact ⟨he.finish, he.closed, he.left, he.valid, he.ends⟩

theorem Body.flushed (h : Body header wrap s taken blocks) :
    Body header wrap s.flushPending taken blocks ∧
      (s.flushPending.head.availOut ≠ 0 → s.flushPending.head.pending = 0) := by
  obtain ⟨p, q, a, out, heq, hq, ha, hsent, -⟩ := flushPending_spec h.ready.valid h.ready.outset
  rw [heq] at hsent ⊢
  obtain ⟨⟨-, h2, h3, h4, h5⟩, hstatus, hbytes, hpart⟩ := h
  refine ⟨⟨⟨hq, h2, h3, h4, h5⟩, hstatus, hbytes, ?_⟩, fun hne => ?_⟩
  · rw [hsent]
    exact hpart.imp id fun he =>
      ⟨he.finish, he.closed, he.left, he.valid, by rw [hsent]; exact he.ends⟩
  · by_contra hp
    exact hne (ha hp)

/-- Bytes that are put at a byte boundary. -/
theorem sent_put (hout : s.head.pendingOut = 0) (hlt : s.biBuf < 2 ^ s.biValid)
    (hvalid : s.biValid = 0) (bytes : List UInt8) :
    sent { s with head := s.head.put bytes } = s.sent.append (BitStream.ofBytes bytes) := by
  have hheld : (s.head.put bytes).held = s.head.held ++ bytes := HeaderState.held_put hout
  have hbuf : s.biBuf = 0 := by
    rw [hvalid] at hlt
    omega
  have hwhole : whole { s with head := s.head.put bytes } =
      s.whole.append (BitStream.ofBytes bytes) := by
    rw [whole, whole, hheld, ← List.append_assoc, BitStream.ofBytes_append]
    rfl
  rw [sent, hwhole, sent]
  dsimp only
  rw [hvalid, hbuf, BitStream.append_ofNat_zero, BitStream.append_ofNat_zero]

theorem trailerBytes_neg (wrap a n : Nat) : trailerBytes (-wrap) a n = [] := by
  rw [trailerBytes, if_neg (by omega), if_neg (by omega)]

/-- The trailer is written once. -/
theorem trailer_spec (h : Body header wrap s taken blocks) (he : Ended header wrap s blocks)
    (hp : s.head.pending = 0) :
    Body header wrap (s.trailer .finish).2 taken blocks ∧
      ((s.trailer .finish).1 = .streamEnd → (s.trailer .finish).2.head.pending = 0 ∧
        (s.trailer .finish).2.biValid = 0 ∧
        sent (s.trailer .finish).2 = (written (BitStream.ofBytes header) blocks).append
          (BitStream.ofBytes (trailerBytes wrap (s.trailer .finish).2.head.adler
            (s.trailer .finish).2.totalIn))) := by
  have hput := sent_put (h.ready.outset hp) h.ready.lt he.valid
    (trailerBytes s.win.wrap s.head.adler s.totalIn)
  generalize hs₁ : ({ s with
    head := s.head.put (trailerBytes s.win.wrap s.head.adler s.totalIn) } : StoredStream) = s₁ at *
  obtain ⟨p, q, a, out, heq, hq, -, hsent, -⟩ := flushPending_spec (s := s₁)
    (by rw [← hs₁]; exact h.ready.valid) fun _ => by rw [← hs₁]; exact h.ready.outset hp
  have hends : s₁.sent = (written (BitStream.ofBytes header) blocks).append
      (BitStream.ofBytes (trailerBytes wrap s.head.adler s.totalIn)) := by
    rcases he.ends with ⟨hw, hold⟩ | ⟨hw, hold⟩
    · rw [hput, hw, hold]
    · rw [hput, hw, hold, trailerBytes_neg, BitStream.append_nil]
  have hwrap : (if 0 < s.win.wrap then -s.win.wrap else s.win.wrap) = -wrap := by
    rcases he.ends with ⟨hw, -⟩ | ⟨hw, -⟩ <;> split <;> omega
  have htrailer : s.trailer .finish =
      (if s₁.flushPending.head.pending = 0 then .streamEnd else .ok,
        { s₁.flushPending with win := { s.win with wrap := -wrap } }) := by
    rw [trailer, if_neg (by simp)]
    dsimp only
    rw [hs₁]
    have hwin : s₁.flushPending.win = s.win := by rw [heq, ← hs₁]
    rw [hwin, hwrap]
  have hadler : s₁.flushPending.head.adler = s.head.adler := by
    rw [heq, ← hs₁]
    rfl
  have htotal : s₁.flushPending.totalIn = s.totalIn := by rw [heq, ← hs₁]
  have hsent' : sent { s₁.flushPending with win := { s.win with wrap := -wrap } } =
      (written (BitStream.ofBytes header) blocks).append
        (BitStream.ofBytes (trailerBytes wrap s.head.adler s.totalIn)) := hsent.trans hends
  rw [htrailer]
  dsimp only
  have hvalid : s₁.flushPending.biValid = 0 := by
    rw [heq, ← hs₁]
    exact he.valid
  refine ⟨⟨⟨?_, ?_, ?_, h.ready.shape.congr rfl rfl rfl, ?_⟩, ?_, h.bytes, .inr ⟨?_, he.closed,
    he.left, hvalid, .inr ⟨rfl, ?_⟩⟩⟩, fun hret => ⟨?_, hvalid, ?_⟩⟩
  · rw [heq]
    exact hq
  · rw [heq, ← hs₁]
    exact h.ready.lt
  · rw [heq, ← hs₁]
    exact h.ready.valid
  · exact ⟨h.ready.rest.lookahead, h.ready.rest.fits, h.ready.rest.start_nonneg,
      h.ready.rest.start_le⟩
  · rw [heq, ← hs₁]
    exact h.status
  · rw [heq, ← hs₁]
    exact he.finish
  · rw [hsent', ← hadler, ← htotal]
  · by_contra hne
    rw [if_neg hne] at hret
    cases hret
  · rw [hsent', ← hadler, ← htotal]

/-- What a call takes is the front of its input. -/
theorem Moves.front (h : Moves s input s' rest blocks) :
    payloads blocks ++ s'.unread = s.unread ++ input.take (input.length - rest.length) := by
  obtain ⟨used, rfl⟩ := h.suffix
  have hbytes := h.bytes
  rw [← List.append_assoc, ← List.append_assoc] at hbytes
  rw [List.length_append, Nat.add_sub_cancel, List.take_left]
  exact List.append_cancel_right hbytes

/-- How a call leaves a stream. -/
structure Called (wrap wBits : Nat) (taken input : List UInt8)
    (r : Ret × StoredStream × List UInt8) : Prop where
  suffix : r.2.2 <:+ input
  going : Going wrap wBits r.2.1 (taken ++ input.take (input.length - r.2.2.length))
  ends : r.1 = .streamEnd → r.2.2 = [] ∧
    Whole wrap wBits r.2.1 (taken ++ input.take (input.length - r.2.2.length))

theorem Called.kept {ret : Ret} (h : Going wrap wBits s taken) (hret : ret ≠ .streamEnd) :
    Called wrap wBits taken input (ret, s, input) :=
  ⟨List.suffix_rfl, by simpa using h, fun he => absurd he hret⟩

theorem Called.trailer (h : Body (streamHeader wrap wBits) wrap s
      (taken ++ input.take (input.length - rest.length)) blocks)
    (he : Ended (streamHeader wrap wBits) wrap s blocks) (hp : s.head.pending = 0)
    (hsuffix : rest <:+ input) (hnil : rest = []) :
    Called wrap wBits taken input ((s.trailer flush).1, (s.trailer flush).2, rest) := by
  by_cases hflush : flush = .finish
  · subst hflush
    obtain ⟨hbody, hend⟩ := trailer_spec h he hp
    refine ⟨hsuffix, .body blocks hbody, fun hret => ⟨hnil, blocks, he.closed, ?_, ?_⟩⟩
    · rw [← h.bytes, unread_nil he.left, List.append_nil]
    · obtain ⟨hp', hvalid, hsent⟩ := hend hret
      rw [← hsent, sent, whole, hvalid, BitStream.append_ofNat_zero, HeaderState.held, hp']
      simp
  · have hkept : s.trailer flush = (.ok, s) := if_pos hflush
    rw [hkept]
    exact ⟨hsuffix, .body blocks h, fun hret => by cases hret⟩

theorem deflateBody_spec (h : Body (streamHeader wrap wBits) wrap s taken blocks)
    (hp : s.head.pending = 0) (hfinish : s.finish = true → flush = .finish ∧ input = []) :
    ∃ r, s.deflateBody flush input = some r ∧ Called wrap wBits taken input r := by
  rcases h.part with ⟨hopen, hplain, hwrap, hsent⟩ | he
  · obtain ⟨ret, s₁, rest, blocks', finish, hcompress, hret, hready, hmoves, hpart⟩ :=
      @compress_spec s input flush h.ready hp hopen
    have hbytes : payloads (blocks ++ blocks') ++ s₁.unread =
        taken ++ input.take (input.length - rest.length) := by
      rw [payloads_append, List.append_assoc, hmoves.front, ← List.append_assoc, h.bytes]
    have hstatus : s₁.head.status = .busy := hmoves.status.trans h.status
    have hwrap₁ : s₁.win.wrap = wrap := hmoves.wrap.trans hwrap
    have hsent₁ : s₁.sent = written (BitStream.ofBytes (streamHeader wrap wBits))
        (blocks ++ blocks') := by rw [hmoves.sent, hsent, written_append]
    have hready₁ : Ready { s₁ with finish := finish } :=
      ⟨hready.outset, hready.lt, hready.valid, hready.shape, hready.rest⟩
    rw [deflateBody, hcompress, Option.map_some]
    refine ⟨_, rfl, ?_⟩
    cases hpart with
    | opened hfin hplain₁ hne =>
      have hbody : Body (streamHeader wrap wBits) wrap { s₁ with finish := finish }
          (taken ++ input.take (input.length - rest.length)) (blocks ++ blocks') :=
        ⟨hready₁, hstatus, hbytes, .inl ⟨hfin, hplain.append hplain₁, hwrap₁, hsent₁⟩⟩
      rcases hret with rfl | rfl
      · have hkept : trailer flush { s₁ with finish := finish } = (.ok, _) := if_pos (hne rfl)
        dsimp only
        rw [hkept]
        exact ⟨hmoves.suffix, .body _ hbody, fun hret => by cases hret⟩
      · exact ⟨hmoves.suffix, .body _ hbody, fun hret => by cases hret⟩
    | closed hfin hclosed hleft hnil hvalid hempty =>
      have he : Ended (streamHeader wrap wBits) wrap { s₁ with finish := finish }
          (blocks ++ blocks') :=
        ⟨hfin, hplain.closed hclosed, hleft, hvalid, .inl ⟨hwrap₁, hsent₁⟩⟩
      have hbody : Body (streamHeader wrap wBits) wrap { s₁ with finish := finish }
          (taken ++ input.take (input.length - rest.length)) (blocks ++ blocks') :=
        ⟨hready₁, hstatus, hbytes, .inr he⟩
      rcases hret with rfl | rfl
      · exact Called.trailer hbody he (hempty rfl) hmoves.suffix hnil
      · exact ⟨hmoves.suffix, .body _ hbody, fun hret => by cases hret⟩
  · obtain ⟨rfl, rfl⟩ := hfinish he.finish
    have hidle : s.compress .finish [] = some (none, s, []) := by
      rw [compress, if_neg]
      rw [h.ready.rest.lookahead, he.finish]
      simp
    rw [deflateBody, hidle, Option.map_some]
    exact ⟨_, rfl, Called.trailer (by simpa using h) he hp List.suffix_rfl rfl⟩

/-- Every call takes the front of its input and goes on. -/
theorem deflate_spec (hwrap : wrap ≤ 2) (h : Going wrap wBits s taken) (flush : Flush)
    (availOut : Nat) (input : List UInt8) :
    ∃ r, s.deflate flush availOut input = some r ∧ Called wrap wBits taken input r := by
  unfold deflate
  split
  · exact ⟨_, rfl, .kept h (by decide)⟩
  split
  · exact ⟨_, rfl, .kept h (by decide)⟩
  next hflush hroom =>
  cases h with
  | blank hblank htaken ready bits left finish hwin hstart =>
    have hkept : ∀ ret, ret ≠ .streamEnd → Called wrap wBits taken input (ret, { s with
        head := { s.head with availOut := availOut, lastFlush := HeaderState.flushCode flush } },
        input) := fun ret hret => .kept (.blank ⟨hblank.status, hblank.wrap_eq, hblank.level,
          hblank.strstart, hblank.gzhead, hblank.wBits_eq, hblank.pending, hblank.pendingOut,
          hblank.out⟩ htaken ⟨ready.outset, ready.lt, ready.valid, ready.shape, ready.rest⟩ bits left
          finish hwin hstart) hret
    dsimp only
    rw [if_neg (not_not.mpr hblank.pending), if_neg fun hne => hne.1 hblank.pending]
    split
    · exact ⟨_, rfl, hkept _ (by decide)⟩
    rw [if_neg (by simp [finish]), if_neg (by simp [finish])]
    have hheaded := HeaderState.Blank.writeHeader (h := { s.head with
      availOut := availOut, lastFlush := HeaderState.flushCode flush
      strstart := s.win.strstart }) ⟨hblank.status, hblank.wrap_eq, hblank.level, hstart,
        hblank.gzhead, hblank.wBits_eq, hblank.pending, hblank.pendingOut, hblank.out⟩ hwrap
    generalize HeaderState.writeHeader _ = r at hheaded
    obtain ⟨ret, head⟩ := r
    obtain ⟨hret, hstatus, hbytes, hout, hempty⟩ := hheaded
    have hbody : Body (streamHeader wrap wBits) wrap { s with head := head } taken [] := by
      refine ⟨⟨hout, ready.lt, ready.valid, ready.shape, ready.rest⟩, hstatus, ?_,
        .inl ⟨finish, plain_nil, hwin, ?_⟩⟩
      · have hnil := unread_nil left
        change [] ++ s.unread = taken
        rw [hnil, htaken]
        rfl
      · rw [sent, whole, hbytes]
        dsimp only
        rw [bits, BitStream.append_ofNat_zero]
        rfl
    dsimp only at hret hempty ⊢
    rcases hret with rfl | rfl
    · exact deflateBody_spec hbody (hempty rfl) fun hfin => absurd (finish.symm.trans hfin) (by decide)
    · exact ⟨_, rfl, .kept (.body [] hbody) (by decide)⟩
  | body blocks hbody =>
    have htouch := hbody.touch availOut (HeaderState.flushCode flush) s.head.strstart
    have hdrain : ∃ s₁, (if s.head.pending ≠ 0 then flushPending { s with
          head := { s.head with availOut := availOut, lastFlush := HeaderState.flushCode flush } }
        else { s with
          head := { s.head with availOut := availOut, lastFlush := HeaderState.flushCode flush } }) =
            s₁ ∧ Body (streamHeader wrap wBits) wrap s₁ taken blocks ∧ s₁.finish = s.finish ∧
          (¬(s.head.pending ≠ 0 ∧ s₁.head.availOut = 0) → s₁.head.pending = 0) := by
      refine ⟨_, rfl, ?_⟩
      split
      · next hp =>
        obtain ⟨hflushed, hempty⟩ := htouch.flushed
        have hfin := (flush_spec htouch.ready input).2.1.finish
        exact ⟨hflushed, hfin, fun hne => hempty fun h0 => hne ⟨hp, h0⟩⟩
      · next hp => exact ⟨htouch, rfl, fun _ => not_not.mp hp⟩
    obtain ⟨s₁, heq, hbody₁, hfin, hempty⟩ := hdrain
    dsimp only
    rw [heq]
    have hagain : Body (streamHeader wrap wBits) wrap s₁.again taken blocks :=
      hbody₁.touch s₁.head.availOut (-1) s₁.head.strstart
    split
    · exact ⟨_, rfl, .kept (.body blocks hagain) (by decide)⟩
    next hdrained =>
    split
    · exact ⟨_, rfl, .kept (.body blocks hbody₁) (by decide)⟩
    split
    · exact ⟨_, rfl, .kept (.body blocks hbody₁) (by decide)⟩
    next hinput =>
    have hp := hempty hdrained
    have hcall : ∀ k, ∃ r, deflateBody flush { s₁ with head := { s₁.head with strstart := k } }
        input = some r ∧ Called wrap wBits taken input r := fun k => by
      refine deflateBody_spec (hbody₁.touch s₁.head.availOut s₁.head.lastFlush k) hp fun hf => ?_
      have hf' : s₁.finish = true := hf
      refine ⟨?_, by_contra fun hne => hinput ⟨hf', hne⟩⟩
      by_contra hne
      exact hflush (.inr ⟨hfin ▸ hf', hne⟩)
    by_cases hf : s₁.finish = true
    · rw [if_pos hf]
      exact hcall s₁.head.strstart
    · rw [if_neg hf, HeaderState.writeHeader_busy (by exact hbody₁.status)]
      exact hcall s₁.win.strstart

/-- A stream at its start. -/
theorem start_going (buf window : Nat → UInt8) {windowBits : Nat} (h8 : 8 ≤ windowBits)
    (h15 : windowBits ≤ 15) (memLevel strategy : Nat) :
    Going wrap (if windowBits = 8 then 9 else windowBits)
      (start buf window wrap windowBits memLevel strategy) [] := by
  obtain htracks := @DeflateState.tracks_init wrap 0 windowBits (2 ^ (memLevel + 6) * 4) window h8 h15
  refine .blank ⟨rfl, rfl, rfl, rfl, rfl, rfl, rfl, rfl, rfl⟩ rfl
    ⟨fun _ => rfl, show 0 < 2 ^ 0 by decide, show 0 < 8 by decide, htracks.shape, htracks.stored rfl⟩ rfl rfl rfl ?_ rfl
  exact abs_of_nonneg (Int.natCast_nonneg wrap)

theorem run_spec (hwrap : wrap ≤ 2) (h : Going wrap wBits s taken) (calls : List Call) :
    ∃ s' taken', s.run taken calls = some (s', taken') ∧ Going wrap wBits s' taken' := by
  induction calls generalizing s taken with
  | nil => exact ⟨s, taken, rfl, h⟩
  | cons c calls ih =>
    obtain ⟨r, hr, hcalled⟩ := deflate_spec hwrap h c.flush c.availOut c.input
    obtain ⟨s', taken', hrun, hgoing⟩ := ih hcalled.going
    exact ⟨s', taken', by rw [run, hr]; exact hrun, hgoing⟩

/-- When `deflate` at level 0 ends a stream, the header and the trailer hold stored blocks between
them, and the blocks hold all input in order; the last block alone is marked as the last. -/
theorem deflateStored_conserves (buf window : Nat → UInt8) {wrap windowBits : Nat}
    (hwrap : wrap ≤ 2) (h8 : 8 ≤ windowBits) (h15 : windowBits ≤ 15) (memLevel strategy : Nat)
    (calls : List Call) (last : Call) :
    ∃ s taken ret s' rest,
      (start buf window wrap windowBits memLevel strategy).run [] calls = some (s, taken) ∧
      s.deflate last.flush last.availOut last.input = some (ret, s', rest) ∧ rest <:+ last.input ∧
      (ret = .streamEnd → rest = [] ∧
        Whole wrap (if windowBits = 8 then 9 else windowBits) s' (taken ++ last.input)) := by
  obtain ⟨s, taken, hrun, hgoing⟩ :=
    run_spec hwrap (start_going buf window h8 h15 memLevel strategy) calls
  obtain ⟨⟨ret, s', rest⟩, hr, hcalled⟩ := deflate_spec hwrap hgoing last.flush last.availOut last.input
  refine ⟨s, taken, ret, s', rest, hrun, hr, hcalled.suffix, fun hret => ?_⟩
  obtain ⟨hnil, hwhole⟩ := hcalled.ends hret
  dsimp only at hnil hwhole
  refine ⟨hnil, ?_⟩
  rwa [hnil, List.length_nil, Nat.sub_zero, List.take_length] at hwhole

/-- One byte in a zlib stream, with an empty block of a flush before it. -/
theorem deflateStored_conserves_byte :
    (((start (fun _ => 0) (fun _ => 0) 1 15 8 0).run [] [⟨.syncFlush, [], 100⟩]).bind fun r =>
      (r.1.deflate .finish 100 [97]).map fun r => (r.1, r.2.1.head.out)) =
        some (.streamEnd, [120, 1, 0, 0, 0, 255, 255, 1, 1, 0, 254, 255, 97, 0, 98, 0, 98]) ∧
      ∃ s taken ret s' rest,
        (start (fun _ => 0) (fun _ => 0) 1 15 8 0).run [] [⟨.syncFlush, [], 100⟩] = some (s, taken) ∧
        s.deflate .finish 100 [97] = some (ret, s', rest) ∧ rest <:+ [97] ∧
        (ret = .streamEnd → rest = [] ∧ Whole 1 15 s' (taken ++ [97])) :=
  ⟨by decide +kernel, deflateStored_conserves (fun _ => 0) (fun _ => 0) (by decide) (by decide)
    (by decide) 8 0 [⟨.syncFlush, [], 100⟩] ⟨.finish, [97], 100⟩⟩

end StoredStream
end ZlibNg
