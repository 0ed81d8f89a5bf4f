import ZlibNg.Deflate.StoredBlocks

/-! `deflate` at level 0 loses no input: what is in the blocks and in the window is what it took. -/
namespace ZlibNg

theorem HeaderState.held_back (s : HeaderState) (k : Nat) :
    held { s with pending := s.pending - k } = s.held.take (s.pending - k) := by
  simp only [held, ← List.map_take, List.take_range]
  rw [Nat.min_eq_left (Nat.sub_le _ _)]

/-- The last four pending bytes are replaced. -/
theorem HeaderState.held_replace {h : HeaderState} (hout : h.pendingOut = 0) {xs ys : List UInt8}
    (hheld : h.held = xs ++ ys) (hys : ys.length = 4) (zs zs' : List UInt8) :
    held (put zs' (put zs { h with pending := h.pending - 4 })) = xs ++ (zs ++ zs') := by
  have hcount := congrArg List.length hheld
  rw [length_held, List.length_append] at hcount
  have hput : held (put zs { h with pending := h.pending - 4 }) = h.held.take (h.pending - 4) ++ zs := by
    rw [← held_back]
    exact held_put hout
  have hput' : held (put zs' (put zs { h with pending := h.pending - 4 })) =
      held (put zs { h with pending := h.pending - 4 }) ++ zs' := held_put hout
  rw [hput', hput, hheld, List.take_left' (by omega), List.append_assoc]

namespace StoredStream
open StoredBlock
variable {s s' : StoredStream} {input rest : List UInt8} {blocks : List StoredBlock}

/-- The whole bytes of the output and the pending buffer. -/
def whole (s : StoredStream) : BitStream := BitStream.ofBytes (s.head.out ++ s.head.held)

/-- All that is written, with the bits that are held. -/
def sent (s : StoredStream) : BitStream := s.whole.append (BitStream.ofNat s.biBuf s.biValid)

/-- What the window holds and no block does. -/
def unread (s : StoredStream) : List UInt8 := readBytes s.win.window s.win.blockStart.toNat s.left

@[simp] theorem length_unread : s.unread.length = s.left := length_readBytes

theorem whole_len (s : StoredStream) : s.whole.len % 8 = 0 := Nat.mul_mod_right 8 _

theorem writer_stream (s : StoredStream) : s.writer.stream = BitStream.ofNat s.biBuf s.biValid :=
  BitStream.nil_append _

theorem sent_absorb (hout : s.head.pendingOut = 0) (w : BitWriter) :
    (s.absorb w).sent = s.whole.append w.stream := by
  have hheld : (s.absorb w).head.held = s.head.held ++ w.pending := HeaderState.held_put hout
  rw [sent, whole, hheld, BitWriter.stream, whole, ← List.append_assoc, BitStream.ofBytes_append,
    BitStream.append_assoc]
  rfl

theorem put_nil (h : HeaderState) : h.put [] = h := by
  have hbuf : writeBytes h.pendingBuf h.pending [] = h.pendingBuf := by
    funext i
    exact if_neg (by simp)
  simp only [HeaderState.put, hbuf, List.length_nil, Nat.add_zero]

theorem trFlushBits_small {w : BitWriter} (h : w.biValid < 8) : w.trFlushBits = w := by
  simp only [BitWriter.trFlushBits, if_neg (show ¬48 ≤ w.biValid by omega),
    if_neg (show ¬32 ≤ w.biValid by omega), if_neg (show ¬16 ≤ w.biValid by omega),
    if_neg (show ¬8 ≤ w.biValid by omega)]

theorem flushPending_eq (h : s.biValid < 8) :
    s.flushPending = { s with head := s.head.flushPending } := by
  have hsame : s.absorb s.writer = s := by
    simp only [absorb, writer, put_nil]
  have hbits : s.writer.trFlushBits = s.writer := trFlushBits_small h
  simp only [flushPending, hbits, hsame]

/-- The pending bytes go out as far as there is room. -/
theorem flushPending_spec (h : s.biValid < 8) (hout : s.head.pending = 0 → s.head.pendingOut = 0) :
    ∃ p q a out, s.flushPending = { s with head := { s.head with
        pending := p, pendingOut := q, availOut := a, out := out } } ∧
      (p = 0 → q = 0) ∧ (p ≠ 0 → a = 0) ∧ s.flushPending.sent = s.sent ∧
      (s.head.pending ≤ s.head.availOut → p = 0 ∧ a = s.head.availOut - s.head.pending) := by
  obtain ⟨p, q, a, out, heq, hq, ha, -, hheld, hlen⟩ := HeaderState.flushPending_spec hout
  rw [flushPending_eq h]
  refine ⟨p, q, a, out, by rw [heq], hq, ha, ?_, fun hle => ?_⟩
  · have hout' : s.head.flushPending.out = out := by rw [heq]
    rw [sent, sent, whole, whole]
    dsimp only
    rw [hout', hheld]
  · have hpending : s.head.flushPending.pending = p := by rw [heq]
    have hcount := congrArg List.length hheld
    rw [List.length_append, List.length_append, HeaderState.length_held, HeaderState.length_held,
      hpending] at hcount
    by_cases h0 : p = 0
    · exact ⟨h0, by omega⟩
    · have := ha h0
      omega

/-- The lengths of a block, as they are put. -/
theorem lens_eq {len : Nat} (h : len ≤ maxStored) :
    leBytes (2 ^ 32 - 1 - len) 2 = leBytes (maxStored - len) 2 := by
  have hmax : maxStored = 65535 := rfl
  have hnlen : (2 ^ 32 - 1 - len) % 2 ^ (8 * 2) = (maxStored - len) % 2 ^ (8 * 2) := by omega
  rw [← leBytes_mod (maxStored - _), ← hnlen, leBytes_mod]

/-- The first bits of a stored block and the padding, and bytes behind them. -/
theorem absorb_block (hout : s.head.pendingOut = 0) {bytes : List UInt8} {used : Int} {last : Bool}
    (hstream : BitWriter.stream ⟨s.writer.pending ++ bytes, 0, 0, used⟩ =
      (s.writer.stream.append (BitStream.ofNat last.toNat 3)).pad) (ys : List UInt8) :
    (s.absorb ⟨s.writer.pending ++ bytes ++ ys, 0, 0, used⟩).sent =
      (s.sent.append (BitStream.ofNat last.toNat 3)).pad.append (BitStream.ofBytes ys) := by
  have hbytes := BitWriter.stream_bytes (w := ⟨s.writer.pending ++ bytes, 0, 0, used⟩) rfl rfl ys
  rw [sent_absorb hout, hbytes, hstream, writer_stream, sent, BitStream.append_assoc,
    BitStream.append_pad s.whole_len, BitStream.append_assoc]

/-- A stored block in the pending buffer. -/
theorem emit_stored (hout : s.head.pendingOut = 0) (hlt : s.biBuf < 2 ^ s.biValid)
    (hvalid : s.biValid < 8) {payload : List UInt8} (fits : payload.length ≤ maxStored)
    (last : Bool) : ∃ b p u,
    s.emit (BitWriter.storedBlock payload payload.length last) = some { s with
        head := { s.head with pendingBuf := b, pending := p }
        biBuf := 0, biValid := 0, biUsed := u } ∧
      sent { s with
        head := { s.head with pendingBuf := b, pending := p }
        biBuf := 0, biValid := 0, biUsed := u } = put s.sent (.stored payload last fits) := by
  obtain ⟨bytes, used, hblock, hstream, -⟩ :=
    BitWriter.storedBlock_spec (w := s.writer) ⟨hlt, by change s.biValid < 64; omega⟩ last
  have hbody : leBytes payload.length 2 ++ leBytes (2 ^ 32 - 1 - payload.length) 2 ++
      payload.take payload.length = body payload := by
    rw [body, List.take_length, lens_eq fits]
  exact ⟨_, _, used, by rw [emit, hblock, hbody]; rfl, absorb_block hout hstream (body payload)⟩

theorem readBytes_take {buf : Nat → UInt8} {p n k : Nat} :
    (readBytes buf p n).take k = readBytes buf p (min k n) := by
  refine List.ext_getElem (by simp) fun i _ _ => ?_
  simp [readBytes]

/-- A block is copied to the output: it holds the next bytes of the window and the input. -/
theorem copyBlock_spec (hp : s.head.pending = 0) (hout : s.head.pendingOut = 0)
    (hlt : s.biBuf < 2 ^ s.biValid) (hvalid : s.biValid < 8) {len : Nat} (hmax : len ≤ maxStored)
    (hin : len ≤ s.left + input.length) (hroom : storedHeader s.biValid + len ≤ s.head.availOut)
    (last : Bool) : ∃ b o d u t fits,
    s.copyBlock len last input = some ({ s with
        head := { s.head with
          pendingBuf := b, pending := 0, pendingOut := 0, out := o, adler := d
          availOut := s.head.availOut - storedHeader s.biValid - len }
        win := { s.win with blockStart := s.win.blockStart + (min s.left len : Nat) }
        biBuf := 0, biValid := 0, biUsed := u, totalIn := t }, input.drop (len - s.left)) ∧
      BitStream.ofBytes o = put s.sent (.stored ((s.unread ++ input).take len) last fits) := by
  obtain ⟨bytes, used, hblock, hstream, hcount⟩ :=
    BitWriter.storedBlock_spec (w := s.writer) ⟨hlt, by change s.biValid < 64; omega⟩ last
  have hlength : ((s.unread ++ input).take len).length = len := by
    rw [List.length_take, List.length_append, length_unread]
    omega
  -- the header of the block
  generalize hw : (⟨s.writer.pending ++ bytes ++ (leBytes 0 2 ++ leBytes (2 ^ 32 - 1 - 0) 2 ++
    [].take 0), 0, 0, used⟩ : BitWriter) = w at *
  have hemit : s.emit (BitWriter.storedBlock [] 0 last) = some (s.absorb w) := by
    rw [emit, hblock, hw]
    rfl
  have hheld : (s.absorb w).head.held = (s.head.held ++ bytes) ++ [0, 0, 255, 255] := by
    refine (HeaderState.held_put hout).trans ?_
    rw [← hw]
    simp only [writer, List.nil_append, List.append_assoc]
    rfl
  have hreplace : ((s.absorb w).setLen len).head.held =
      (s.head.held ++ bytes) ++ (leBytes len 2 ++ leBytes (maxStored - len) 2) := by
    rw [← lens_eq hmax]
    exact HeaderState.held_replace (h := (s.absorb w).head) hout hheld rfl _ _
  have hsent : ((s.absorb w).setLen len).sent =
      (s.sent.append (BitStream.ofNat last.toNat 3)).pad.append
        (BitStream.ofBytes (leBytes len 2 ++ leBytes (maxStored - len) 2)) := by
    have hsame : ((s.absorb w).setLen len).head.held = (s.absorb ⟨s.writer.pending ++ bytes ++
        (leBytes len 2 ++ leBytes (maxStored - len) 2), 0, 0, used⟩).head.held := by
      refine hreplace.trans (Eq.trans ?_ (HeaderState.held_put hout).symm)
      simp only [writer, List.nil_append, List.append_assoc]
    rw [← absorb_block hout hstream]
    change (BitStream.ofBytes (s.head.out ++ ((s.absorb w).setLen len).head.held)).append
      (BitStream.ofNat w.biBuf w.biValid) = _
    rw [hsame, ← hw]
    rfl
  have hvalid' : ((s.absorb w).setLen len).biValid = 0 := by
    rw [← hw]
    rfl
  have hpending : ((s.absorb w).setLen len).head.pending = storedHeader s.biValid := by
    have hlen := congrArg List.length hreplace
    rw [HeaderState.length_held] at hlen
    rw [hlen]
    simp only [List.length_append, HeaderState.length_held, hp, length_leBytes]
    exact (by omega : 0 + bytes.length + (2 + 2) = bytes.length + 4).trans hcount
  -- it goes to the output
  obtain ⟨p, q, a, out, heq, hq, -, hflush, hdrain⟩ :=
    flushPending_spec (s := (s.absorb w).setLen len) (by omega) fun _ => hout
  obtain ⟨rfl, ha⟩ := hdrain (by rw [hpending]; exact (Nat.le_add_right _ _).trans hroom)
  obtain rfl := hq rfl
  have hbytes : BitStream.ofBytes out = ((s.absorb w).setLen len).sent := by
    rw [← hflush, heq, sent, whole, hvalid']
    simp [HeaderState.held]
  -- the data follow
  have hn : len - min s.left len = len - s.left := by omega
  have hcopy : s.copyBlock len last input = some
      ((((((s.absorb w).setLen len).flushPending.write
        (readBytes s.win.window s.win.blockStart.toNat (min s.left len))).passed
          (min s.left len)).readBuf (input.take (len - s.left))).write
            (input.take (len - s.left)), input.drop (len - s.left)) := by
    rw [copyBlock, hemit, Option.bind_eq_bind, Option.bind_some, heq, ← hn]
    rfl
  have hpayload : (s.unread ++ input).take len =
      readBytes s.win.window s.win.blockStart.toNat (min s.left len) ++
        input.take (len - s.left) := by
    rw [List.take_append, length_unread, unread, readBytes_take, Nat.min_comm]
  have havail : a - (readBytes s.win.window s.win.blockStart.toNat (min s.left len)).length -
      (input.take (len - s.left)).length = s.head.availOut - storedHeader s.biValid - len := by
    rw [ha, hpending, length_readBytes, List.length_take]
    change s.head.availOut - _ - _ - _ = _
    omega
  refine ⟨((s.absorb w).setLen len).head.pendingBuf,
    out ++ readBytes s.win.window s.win.blockStart.toNat (min s.left len) ++
      input.take (len - s.left), (s.readBuf (input.take (len - s.left))).head.adler, used,
    (s.readBuf (input.take (len - s.left))).totalIn, by rw [hlength]; exact hmax,
    hcopy.trans ?_, ?_⟩
  · rw [heq]
    simp only [write, passed, readBuf, havail, ← hw]
    rfl
  · rw [put, body, hlength, hpayload, BitStream.ofBytes_append _ (_ ++ _),
      ← BitStream.append_assoc, ← hsent, ← hbytes, ← BitStream.ofBytes_append, List.append_assoc]

end StoredStream
end ZlibNg
