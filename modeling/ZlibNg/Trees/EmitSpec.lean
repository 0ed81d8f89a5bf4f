import ZlibNg.Trees.Emit

/-! The bit writer as a stream: the bytes written and the bits held are all that was sent, in
order. A flush of a full bit buffer is where C leaves the result open. -/
namespace ZlibNg

namespace BitWriter

/-- No bits are set above those held. -/
structure Held (s : BitWriter) : Prop where
  lt : s.biBuf < 2 ^ s.biValid
  valid : s.biValid < 64

/-- The bytes in the pending buffer and the bits held after them. -/
def stream (s : BitWriter) : BitStream :=
  (BitStream.ofBytes s.pending).append (BitStream.ofNat s.biBuf s.biValid)

@[simp] theorem stream_len (s : BitWriter) : s.stream.len = 8 * s.pending.length + s.biValid := rfl

/-- Bits put above those held are added to them. -/
theorem or_value {buf valid value length : Nat} (hbuf : buf < 2 ^ valid)
    (hvalue : value < 2 ^ length) :
    buf ||| value <<< valid = buf + 2 ^ valid * value ∧
      buf + 2 ^ valid * value < 2 ^ (valid + length) := by
  constructor
  · rw [Nat.or_comm, ← Nat.shiftLeft_add_eq_or_of_lt hbuf, Nat.shiftLeft_eq]
    ring
  · calc buf + 2 ^ valid * value < 2 ^ valid + 2 ^ valid * value := by omega
      _ = 2 ^ valid * (value + 1) := by ring
      _ ≤ 2 ^ valid * 2 ^ length := Nat.mul_le_mul_left _ hvalue
      _ = 2 ^ (valid + length) := (Nat.pow_add ..).symm

/-- The value merged into the buffer, in a word that may be too short for it. -/
theorem ofNat_merge {s : BitWriter} (h : s.Held) {value length : Nat}
    (hvalue : value < 2 ^ length) :
    (BitStream.ofNat s.biBuf s.biValid).append (BitStream.ofNat value length) =
      BitStream.ofNat (s.biBuf ||| value <<< s.biValid) (s.biValid + length) := by
  rw [BitStream.ofNat_append value length h.lt, Nat.mod_eq_of_lt hvalue, (or_value h.lt hvalue).1]

theorem sendBits_spec {s : BitWriter} (h : s.Held) {value length : Nat} (hlen : length ≤ 48)
    (hvalue : value < 2 ^ length) :
    ∃ s', s.sendBits value length = some s' ∧ s'.Held ∧
      s'.stream = s.stream.append (BitStream.ofNat value length) ∧
      s'.biValid = (s.biValid + length) % 64 := by
  have hvalid := h.valid
  have hword : value % 2 ^ 64 = value :=
    Nat.mod_eq_of_lt (hvalue.trans_le (Nat.pow_le_pow_right (by omega) (by omega)))
  obtain ⟨hor, hlt⟩ := or_value h.lt hvalue
  have hnot : ¬ 64 ≤ s.biValid := by omega
  by_cases hfull : 64 ≤ s.biValid + length
  · obtain ⟨n, hn⟩ := Nat.exists_eq_add_of_le hfull
    have hrest : (value >>> 1) >>> (63 - s.biValid % 64) =
        (s.biBuf ||| value <<< s.biValid) >>> 64 := by
      have hdiv : (s.biBuf + 2 ^ s.biValid * value) / 2 ^ s.biValid = value := by
        rw [Nat.add_mul_div_left _ _ (Nat.two_pow_pos _), Nat.div_eq_of_lt h.lt, Nat.zero_add]
      calc (value >>> 1) >>> (63 - s.biValid % 64) = value >>> (1 + (63 - s.biValid)) := by
            rw [Nat.mod_eq_of_lt hvalid, Nat.shiftRight_add]
        _ = (s.biBuf + 2 ^ s.biValid * value) >>> (s.biValid + (1 + (63 - s.biValid))) := by
            rw [Nat.shiftRight_add _ s.biValid, Nat.shiftRight_eq_div_pow _ s.biValid, hdiv]
        _ = (s.biBuf ||| value <<< s.biValid) >>> 64 := by
            rw [hor, show s.biValid + (1 + (63 - s.biValid)) = 64 by omega]
    have hheld : (s.biBuf ||| value <<< s.biValid) >>> 64 < 2 ^ n := by
      rw [hor, Nat.shiftRight_eq_div_pow, Nat.div_lt_iff_lt_mul (Nat.two_pow_pos _), ← Nat.pow_add,
        Nat.add_comm n, ← hn]
      exact hlt
    refine ⟨_, by rw [sendBits, if_neg hnot, if_pos hfull], ?_, ?_, ?_⟩
    · rw [hword, hrest]
      exact ⟨by simpa [hn] using hheld, by dsimp only; omega⟩
    · simp only [stream, put, hword, hrest, BitStream.ofBytes_append, BitStream.ofBytes_leBytes,
        BitStream.append_assoc]
      rw [ofNat_merge h hvalue, hn, BitStream.ofNat_split, Nat.add_sub_cancel_left, BitStream.ofNat_mod]
    · dsimp only
      omega
  · refine ⟨_, by rw [sendBits, if_neg hnot, if_neg hfull], ?_, ?_, ?_⟩
    · have hle : 2 ^ (s.biValid + length) ≤ 2 ^ 64 := Nat.pow_le_pow_right (by omega) (by omega)
      refine ⟨?_, by dsimp only; omega⟩
      dsimp only
      rw [hword, hor, Nat.mod_eq_of_lt (hlt.trans_le hle)]
      exact hlt
    · have hle : 2 ^ (s.biValid + length) ≤ 2 ^ 64 := Nat.pow_le_pow_right (by omega) (by omega)
      simp only [stream, hword, BitStream.append_assoc]
      rw [ofNat_merge h hvalue, hor, Nat.mod_eq_of_lt (hlt.trans_le hle)]
    · dsimp only
      omega

/-- Complete bytes that go out are still in the stream. -/
theorem spill_spec {s : BitWriter} (h : s.Held) {n : Nat} (hn : 8 * n ≤ s.biValid) :
    (s.spill n).Held ∧ (s.spill n).stream = s.stream := by
  obtain ⟨k, hk⟩ := Nat.exists_eq_add_of_le hn
  have hlt := h.lt
  have hvalid := h.valid
  refine ⟨⟨?_, by simp only [spill, put]; omega⟩, ?_⟩
  · rw [hk, Nat.pow_add] at hlt
    simp only [spill, hk, Nat.add_sub_cancel_left, Nat.shiftRight_eq_div_pow]
    exact Nat.div_lt_of_lt_mul hlt
  · simp only [stream, spill, put, BitStream.ofBytes_append, BitStream.ofBytes_leBytes,
      BitStream.append_assoc, hk, Nat.add_sub_cancel_left, ← BitStream.ofNat_split]

theorem spill_eq (s : BitWriter) (n : Nat) :
    s.spill n = ⟨s.pending ++ leBytes s.biBuf n, s.biBuf >>> (8 * n), s.biValid - 8 * n, s.biUsed⟩ := rfl

/-- The bytes stored in two pieces are those of one. -/
theorem put_put (s : BitWriter) (m n : Nat) :
    (s.put m s.biBuf).put n (s.biBuf >>> (8 * m)) = s.put (m + n) s.biBuf := by
  simp only [put, leBytes_add, List.append_assoc]

theorem trFlushBits_spec {s : BitWriter} (h : s.Held) :
    s.trFlushBits.Held ∧ s.trFlushBits.stream = s.stream ∧
      s.trFlushBits.biValid = s.biValid % 8 := by
  have hvalid := h.valid
  -- After the first step fewer than 32 bits are held, after the second fewer than 16.
  have hfirst : ∃ s₁ : BitWriter, s₁.Held ∧ s₁.stream = s.stream ∧ s₁.biValid < 32 ∧
      s₁.biValid % 8 = s.biValid % 8 ∧
      s.trFlushBits = (let s := if 16 ≤ s₁.biValid then s₁.spill 2 else s₁
        if 8 ≤ s.biValid then s.spill 1 else s) := by
    unfold trFlushBits
    split
    · next h48 =>
      obtain ⟨hheld, hstream⟩ := spill_spec h (n := 6) (by omega)
      exact ⟨s.spill 6, hheld, hstream, by simp only [spill, put]; omega,
        by simp only [spill, put]; omega, by rw [put_put s 4 2]; rfl⟩
    · split
      · next h48 h32 =>
        obtain ⟨hheld, hstream⟩ := spill_spec h (n := 4) (by omega)
        exact ⟨s.spill 4, hheld, hstream, by simp only [spill, put]; omega,
          by simp only [spill, put]; omega, rfl⟩
      · exact ⟨s, h, rfl, by omega, rfl, rfl⟩
  obtain ⟨s₁, h₁, hstream₁, hlt₁, hmod₁, heq⟩ := hfirst
  have hsecond : ∃ s₂ : BitWriter, s₂.Held ∧ s₂.stream = s.stream ∧ s₂.biValid < 16 ∧
      s₂.biValid % 8 = s.biValid % 8 ∧ s.trFlushBits = if 8 ≤ s₂.biValid then s₂.spill 1 else s₂ := by
    rw [heq]
    by_cases h16 : 16 ≤ s₁.biValid
    · obtain ⟨hheld, hstream⟩ := spill_spec h₁ (n := 2) (by omega)
      exact ⟨s₁.spill 2, hheld, hstream.trans hstream₁, by simp only [spill, put]; omega,
        by simp only [spill, put]; omega, by rw [if_pos h16]⟩
    · exact ⟨s₁, h₁, hstream₁, by omega, hmod₁, by rw [if_neg h16]⟩
  obtain ⟨s₂, h₂, hstream₂, hlt₂, hmod₂, heq⟩ := hsecond
  rw [heq]
  split
  · next h8 =>
    obtain ⟨hheld, hstream⟩ := spill_spec h₂ (n := 1) (by omega)
    exact ⟨hheld, hstream.trans hstream₂, by simp only [spill, put]; omega⟩
  · exact ⟨h₂, hstream₂, by omega⟩

/-- As many bytes as the bits held take. -/
theorem windupBytes_eq (s : BitWriter) (h : s.biValid < 64) :
    s.windupBytes.1 = leBytes s.biBuf ((s.biValid + 7) / 8) ∧
      (s.windupBytes.2 - 1) % 8 = ((s.biValid : Int) - 1) % 8 := by
  have hsplit (m n : Nat) : leBytes s.biBuf m ++ leBytes (s.biBuf >>> (8 * m)) n =
      leBytes s.biBuf (m + n) := (leBytes_add ..).symm
  by_cases h56 : 56 < s.biValid
  · simp only [windupBytes, if_pos h56]
    rw [show (s.biValid + 7) / 8 = 8 by omega]
    exact ⟨rfl, trivial⟩
  simp only [windupBytes, if_neg h56]
  by_cases h24 : 24 < s.biValid
  · simp only [if_pos h24]
    by_cases h40 : 8 < (s.biValid : Int) - 32
    · simp only [if_pos h40]
      refine ⟨?_, by omega⟩
      split
      · rw [hsplit 4 2, ← Nat.shiftRight_add, hsplit 6 1]
        congr 1; omega
      · rw [hsplit 4 2, List.append_nil]
        congr 1; omega
    · simp only [if_neg h40, List.append_nil]
      refine ⟨?_, by omega⟩
      split
      · rw [hsplit 4 1]
        congr 1; omega
      · rw [List.append_nil]
        congr 1; omega
  · simp only [if_neg h24, List.nil_append]
    by_cases h8 : 8 < (s.biValid : Int)
    · simp only [if_pos h8]
      refine ⟨?_, by omega⟩
      split
      · rw [hsplit 2 1]
        congr 1; omega
      · rw [List.append_nil]
        congr 1; omega
    · simp only [if_neg h8, List.nil_append]
      refine ⟨?_, trivial⟩
      split
      · congr 1; omega
      · rw [show (s.biValid + 7) / 8 = 0 by omega]
        rfl

theorem biWindup_spec {s : BitWriter} (h : s.Held) :
    s.biWindup.Held ∧ s.biWindup.stream = s.stream.pad ∧ s.biWindup.biValid = 0 ∧
      s.biWindup.biUsed = BitStream.lastBits s.stream.len := by
  have hvalid := h.valid
  obtain ⟨hbytes, hused⟩ := windupBytes_eq s hvalid
  refine ⟨⟨by simp [biWindup], by simp [biWindup]⟩, ?_, rfl, ?_⟩
  · have hpad : 8 * ((s.biValid + 7) / 8) = s.biValid + BitStream.padBits s.stream.len := by
      simp only [BitStream.padBits, stream_len]
      omega
    simp only [stream, biWindup, hbytes, BitStream.append_ofNat_zero, BitStream.ofBytes_append,
      BitStream.ofBytes_leBytes, BitStream.pad, BitStream.append_assoc]
    rw [hpad, BitStream.ofNat_pad h.lt]
    rfl
  · have hlast : ((BitStream.lastBits s.stream.len : Nat) : Int) = ((s.biValid : Int) - 1) % 8 + 1 := by
      rw [BitStream.lastBits, stream_len]
      split <;> omega
    rw [hlast, ← hused]
    rfl

theorem sendBitsFlush_spec {s : BitWriter} (hlt : s.biBuf < 2 ^ s.biValid) (hvalid : s.biValid < 64) :
    ∃ s', s.sendBitsFlush = some s' ∧ s'.Held ∧ s'.stream = s.stream ∧
      s'.biValid = s.biValid % 8 := by
  obtain ⟨hheld, hstream⟩ := spill_spec ⟨hlt, hvalid⟩ (n := s.biValid / 8) (by omega)
  have heq : s.sendBitsFlush = some (s.spill (s.biValid / 8)) := by
    rw [sendBitsFlush, if_neg (by omega), take_leBytes _ (by omega), spill_eq,
      Nat.mul_comm, Nat.mod_def]
  exact ⟨_, heq, hheld, hstream, by simp only [spill, put]; omega⟩

/-- Merges keep the stream as long as the word has room for them. -/
theorem sendBitsMerge_spec {s : BitWriter} (h : s.Held) {value length : Nat}
    (hvalue : value < 2 ^ length) (hroom : s.biValid + length ≤ 64) :
    ∃ s', s.sendBitsMerge value length = some s' ∧ s'.biBuf < 2 ^ s'.biValid ∧
      s'.stream = s.stream.append (BitStream.ofNat value length) ∧
      s'.biValid = s.biValid + length := by
  have hvalid := h.valid
  have hword : value % 2 ^ 64 = value :=
    Nat.mod_eq_of_lt (hvalue.trans_le (Nat.pow_le_pow_right (by omega) (by omega)))
  obtain ⟨hor, hlt⟩ := or_value h.lt hvalue
  have hle : 2 ^ (s.biValid + length) ≤ 2 ^ 64 := Nat.pow_le_pow_right (by omega) hroom
  have hbuf : (s.biBuf ||| (value % 2 ^ 64) <<< s.biValid) % 2 ^ 64 =
      s.biBuf ||| value <<< s.biValid := by
    rw [hword, Nat.mod_eq_of_lt]
    rw [hor]
    exact hlt.trans_le hle
  refine ⟨_, by rw [sendBitsMerge, if_neg (by omega)], ?_, ?_, rfl⟩
  · dsimp only
    rw [hbuf, hor]
    exact hlt
  · simp only [stream, hbuf, BitStream.append_assoc, ofNat_merge h hvalue]

end BitWriter

namespace EmitCall

/-- The number of bits in a list of pieces. -/
def total (pieces : List (Nat × Nat)) : Nat := (pieces.map Prod.snd).sum

/-- A value fits in its length. -/
def FitsIn (p : Nat × Nat) : Prop := p.2 ≤ 48 ∧ p.1 < 2 ^ p.2

/-- What the caller guarantees of a call, `n` bits being held. -/
def Fits (n : Nat) : EmitCall → Prop
  | sendBits value length => FitsIn (value, length)
  | mergeFlush pieces => (∀ p ∈ pieces, FitsIn p) ∧ n + total pieces ≤ 64
  | flushBits => True
  | windup => True

/-- The number of bits held after a call. -/
def held (n : Nat) : EmitCall → Nat
  | sendBits _ length => (n + length) % 64
  | mergeFlush pieces => (n + total pieces) % 8
  | flushBits => n % 8
  | windup => 0

/-- The buffer is not full when it is flushed. -/
def Room (n : Nat) : EmitCall → Prop
  | mergeFlush pieces => n + total pieces ≠ 64
  | sendBits .. => True
  | flushBits => True
  | windup => True

/-- A stream after what a call sends. -/
def sent (t : BitStream) : EmitCall → BitStream
  | sendBits value length => t.append (BitStream.ofNat value length)
  | mergeFlush pieces => pieces.foldl (fun t p => t.append (BitStream.ofNat p.1 p.2)) t
  | flushBits => t
  | windup => t.pad

/-- Whether a call writes out all complete bytes. -/
def IsFlush : EmitCall → Prop
  | sendBits .. => False
  | mergeFlush _ => True
  | flushBits => True
  | windup => True

end EmitCall

namespace BitWriter
open EmitCall

theorem merges_spec {s : BitWriter} (h : s.Held) {pieces : List (Nat × Nat)}
    (hfit : ∀ p ∈ pieces, EmitCall.FitsIn p) (hroom : s.biValid + EmitCall.total pieces < 64) :
    ∃ s', pieces.foldlM (fun s p => s.sendBitsMerge p.1 p.2) s = some s' ∧ s'.Held ∧
      s'.stream = EmitCall.sent s.stream (.mergeFlush pieces) ∧
      s'.biValid = s.biValid + EmitCall.total pieces := by
  induction pieces generalizing s with
  | nil => exact ⟨s, rfl, h, rfl, rfl⟩
  | cons p ps ih =>
    have htotal : EmitCall.total (p :: ps) = p.2 + EmitCall.total ps := rfl
    obtain ⟨s₁, hs₁, hlt₁, hstream₁, hvalid₁⟩ :=
      sendBitsMerge_spec h (hfit p List.mem_cons_self).2 (by omega)
    obtain ⟨s', hs', hheld, hstream, hvalid⟩ :=
      ih ⟨hlt₁, by omega⟩ (fun q hq => hfit q (List.mem_cons_of_mem _ hq)) (by omega)
    refine ⟨s', ?_, hheld, ?_, by omega⟩
    · rw [List.foldlM_cons, hs₁]
      exact hs'
    · rw [hstream, hstream₁]
      rfl

/-- A full buffer is not flushed. -/
theorem merges_full {s : BitWriter} {pieces : List (Nat × Nat)}
    (h : s.biValid + EmitCall.total pieces = 64) :
    (do let s ← pieces.foldlM (fun s p => s.sendBitsMerge p.1 p.2) s; s.sendBitsFlush) = none := by
  induction pieces generalizing s with
  | nil =>
    have h64 : s.biValid = 64 := h
    simp [sendBitsFlush, h64]
  | cons p ps ih =>
    have htotal : EmitCall.total (p :: ps) = p.2 + EmitCall.total ps := rfl
    rw [List.foldlM_cons, sendBitsMerge]
    split
    · rfl
    · exact @ih { s with
        biBuf := (s.biBuf ||| (p.1 % 2 ^ 64) <<< s.biValid) % 2 ^ 64
        biValid := s.biValid + p.2 } (by dsimp only; omega)

/-- One call: what it sends is added to the stream, and no stray bits are left. -/
theorem call_spec {s : BitWriter} (h : s.Held) {c : EmitCall} (hfit : c.Fits s.biValid)
    (hroom : c.Room s.biValid) :
    ∃ s', s.call c = some s' ∧ s'.Held ∧ s'.stream = c.sent s.stream ∧
      s'.biValid = c.held s.biValid ∧
      (c = .windup → s'.biUsed = BitStream.lastBits s.stream.len) := by
  cases c with
  | sendBits value length =>
    obtain ⟨s', hs', hheld, hstream, hvalid⟩ := sendBits_spec h hfit.1 hfit.2
    exact ⟨s', hs', hheld, hstream, hvalid, by simp⟩
  | mergeFlush pieces =>
    have hle : s.biValid + EmitCall.total pieces ≤ 64 := hfit.2
    have hne : s.biValid + EmitCall.total pieces ≠ 64 := hroom
    obtain ⟨s₁, hs₁, hheld₁, hstream₁, hvalid₁⟩ := merges_spec h hfit.1 (by omega)
    obtain ⟨s', hs', hheld, hstream, hvalid⟩ := sendBitsFlush_spec hheld₁.lt hheld₁.valid
    refine ⟨s', ?_, hheld, hstream.trans hstream₁, ?_, by simp⟩
    · rw [call, hs₁]
      exact hs'
    · rw [hvalid, hvalid₁]
      rfl
  | flushBits =>
    obtain ⟨hheld, hstream, hvalid⟩ := trFlushBits_spec h
    exact ⟨_, rfl, hheld, hstream, hvalid, by simp⟩
  | windup =>
    obtain ⟨hheld, hstream, hvalid, hused⟩ := biWindup_spec h
    exact ⟨_, rfl, hheld, hstream, hvalid, fun _ => hused⟩

theorem held_flush {c : EmitCall} (h : c.IsFlush) (n : Nat) : c.held n ≤ 7 := by
  cases c with
  | sendBits value length => exact h.elim
  | mergeFlush pieces => exact Nat.le_of_lt_succ (Nat.mod_lt _ (by omega))
  | flushBits => exact Nat.le_of_lt_succ (Nat.mod_lt _ (by omega))
  | windup => exact Nat.zero_le 7

/-- Each call of a sequence, the first with `n` bits held, meets a condition. -/
def Along (P : Nat → EmitCall → Prop) : Nat → List EmitCall → Prop
  | _, [] => True
  | n, c :: cs => P n c ∧ Along P (c.held n) cs

theorem Along.append {P : Nat → EmitCall → Prop} {n : Nat} {cs ds : List EmitCall} :
    Along P n (cs ++ ds) ↔ Along P n cs ∧ Along P (cs.foldl EmitCall.held n) ds := by
  induction cs generalizing n with
  | nil => exact (true_and _).symm.to_iff
  | cons c cs ih =>
    simp only [List.cons_append, Along, List.foldl_cons, ih]
    exact and_assoc.symm

/-- All that a sequence of calls sends, after a stream. -/
def written (t : BitStream) (calls : List EmitCall) : BitStream := calls.foldl EmitCall.sent t

theorem run_spec {s : BitWriter} (h : s.Held) {calls : List EmitCall}
    (hfit : Along EmitCall.Fits s.biValid calls) (hroom : Along EmitCall.Room s.biValid calls) :
    ∃ s', s.run calls = some s' ∧ s'.Held ∧ s'.stream = written s.stream calls ∧
      s'.biValid = calls.foldl EmitCall.held s.biValid := by
  induction calls generalizing s with
  | nil => exact ⟨s, rfl, h, rfl, rfl⟩
  | cons c cs ih =>
    obtain ⟨s₁, hs₁, hheld₁, hstream₁, hvalid₁, -⟩ := call_spec h hfit.1 hroom.1
    obtain ⟨s', hs', hheld, hstream, hvalid⟩ :=
      ih hheld₁ (hvalid₁ ▸ hfit.2) (hvalid₁ ▸ hroom.2)
    refine ⟨s', ?_, hheld, ?_, ?_⟩
    · rw [run, List.foldlM_cons, hs₁]
      exact hs'
    · rw [hstream, hstream₁]
      rfl
    · rw [hvalid, hvalid₁]
      rfl

theorem run_concat (s : BitWriter) (cs : List EmitCall) (c : EmitCall) :
    s.run (cs ++ [c]) = (s.run cs).bind fun s' => s'.call c := by
  rw [run, List.foldlM_append, run]
  simp only [List.foldlM_cons, List.foldlM_nil, bind_pure]
  rfl

/-- What holds after the last of the calls `done ++ [c]`. -/
structure Kept (s : BitWriter) (done : List EmitCall) (c : EmitCall) (s' : BitWriter) : Prop where
  stream : s'.stream = written s.stream (done ++ [c])
  held : s'.Held
  flushed : c.IsFlush → s'.biValid ≤ 7
  used : c = .windup → s'.biUsed = BitStream.lastBits (written s.stream done).len

/-- Every call of a sequence adds what it sends, and leaves no stray bits, exactly if none
flushes a full buffer. -/
theorem run_written (s : BitWriter) (h : s.Held) (calls : List EmitCall)
    (hfit : Along EmitCall.Fits s.biValid calls) :
    (∀ done c, done ++ [c] <+: calls → ∃ s', s.run (done ++ [c]) = some s' ∧ Kept s done c s') ↔
      Along EmitCall.Room s.biValid calls := by
  constructor
  · intro hkept
    induction calls generalizing s with
    | nil => trivial
    | cons c cs ih =>
      obtain ⟨s₁, hs₁, -⟩ := hkept [] c (by simp)
      have hcall : s.call c = some s₁ := by simpa [run] using hs₁
      have hroom : c.Room s.biValid := by
        cases c with
        | mergeFlush pieces =>
          intro hfull
          rw [call, merges_full hfull] at hcall
          cases hcall
        | sendBits value length => trivial
        | flushBits => trivial
        | windup => trivial
      obtain ⟨s₁', hs₁', hheld₁, hstream₁, hvalid₁, -⟩ := call_spec h hfit.1 hroom
      obtain rfl : s₁' = s₁ := Option.some.inj (hs₁'.symm.trans hcall)
      refine ⟨hroom, hvalid₁ ▸ ih _ hheld₁ (hvalid₁ ▸ hfit.2) ?_⟩
      intro done d hpre
      obtain ⟨s', hs', hk⟩ := hkept (c :: done) d (by simpa using hpre)
      have hw (ds : List EmitCall) : written s.stream (c :: ds) = written s₁'.stream ds := by
        rw [hstream₁]
        rfl
      refine ⟨s', ?_, (hk.stream.trans (hw _)), hk.held, hk.flushed, fun hd => ?_⟩
      · have hrun : s.run (c :: (done ++ [d])) = s₁'.run (done ++ [d]) := by
          rw [run, List.foldlM_cons, hcall]
          rfl
        exact hrun.symm.trans hs'
      · rw [← hw]
        exact hk.used hd
  · intro hroom done c ⟨rest, hrest⟩
    rw [← hrest] at hfit hroom
    obtain ⟨hfit, -⟩ := Along.append.mp hfit
    obtain ⟨hroom, -⟩ := Along.append.mp hroom
    obtain ⟨hfit, hfitc, -⟩ := Along.append.mp hfit
    obtain ⟨hroom, hroomc, -⟩ := Along.append.mp hroom
    obtain ⟨s₁, hs₁, hheld₁, hstream₁, hvalid₁⟩ := run_spec h hfit hroom
    rw [← hvalid₁] at hfitc hroomc
    obtain ⟨s', hs', hheld, hstream, hvalid, hused⟩ := call_spec hheld₁ hfitc hroomc
    refine ⟨s', ?_, ?_, hheld, fun hflush => ?_, fun hc => ?_⟩
    · rw [run_concat, hs₁]
      exact hs'
    · rw [hstream, hstream₁, written, written, List.foldl_append]
      rfl
    · rw [hvalid]
      exact held_flush hflush _
    · rw [hused hc, hstream₁]

/-- An empty writer, and 64 bits merged into it. -/
theorem run_written_merge_full :
    (BitWriter.mk [] 0 0 8).Held ∧
      Along EmitCall.Fits 0 [.mergeFlush [(5, 48), (65535, 16)]] ∧
      ¬ (∀ done c, done ++ [c] <+: [EmitCall.mergeFlush [(5, 48), (65535, 16)]] →
        ∃ s', (BitWriter.mk [] 0 0 8).run (done ++ [c]) = some s' ∧
          Kept (BitWriter.mk [] 0 0 8) done c s') := by
  refine ⟨⟨by decide, by decide⟩,
    by simp [Along, EmitCall.Fits, EmitCall.FitsIn, EmitCall.total], fun h => ?_⟩
  obtain ⟨s', hs', -⟩ := h [] (.mergeFlush [(5, 48), (65535, 16)]) (by simp)
  have hnone : (BitWriter.mk [] 0 0 8).run [.mergeFlush [(5, 48), (65535, 16)]] = none := by decide
  rw [List.nil_append, hnone] at hs'
  cases hs'

/-- A spill, a flush after merges and a windup, with bits held at the start. -/
theorem run_written_spill :
    (∀ done c, done ++ [c] <+: [EmitCall.sendBits 7 48, .sendBits 1 20,
        .mergeFlush [(3, 10), (1, 40)], .windup] →
      ∃ s', (BitWriter.mk [9] 5 3 8).run (done ++ [c]) = some s' ∧
        Kept (BitWriter.mk [9] 5 3 8) done c s') ↔
      Along EmitCall.Room 3 [.sendBits 7 48, .sendBits 1 20, .mergeFlush [(3, 10), (1, 40)], .windup] :=
  run_written (BitWriter.mk [9] 5 3 8) ⟨by decide, by decide⟩ _
    (by simp [Along, EmitCall.Fits, EmitCall.FitsIn, EmitCall.total, EmitCall.held])

end BitWriter
end ZlibNg
