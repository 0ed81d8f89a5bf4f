import ZlibNg.Deflate.HeaderBytes
import ZlibNg.Deflate.StoredStream
import ZlibNg.Trees.EmitSpec

/-! The blocks that `deflate` writes at level 0, and the input they hold. -/
namespace ZlibNg

section Bytes
variable {buf : Nat → UInt8} {p k m n pos : Nat} {xs : List UInt8}

theorem readBytes_add : readBytes buf p (m + n) = readBytes buf p m ++ readBytes buf (p + m) n := by
  unfold readBytes
  rw [← List.map_append, List.range'_append_1]

/-- Data written behind others are read after them. -/
theorem readBytes_behind (h : p ≤ pos) :
    readBytes (writeBytes buf pos xs) p (pos - p + xs.length) = readBytes buf p (pos - p) ++ xs := by
  have hwrite := congrArg (List.drop p) (@readBytes_write buf pos xs)
  rw [List.drop_append_of_le_length (by rwa [length_readBytes]), readBytes_drop, readBytes_drop,
    Nat.zero_add] at hwrite
  rwa [show pos - p + xs.length = pos + xs.length - p by omega]

/-- Data that are moved are read further down. -/
theorem readBytes_moved (h : p + m ≤ n) :
    readBytes (moveDown buf k n) p m = readBytes buf (k + p) m := by
  refine List.ext_getElem (by simp) fun i h1 h2 => ?_
  rw [length_readBytes] at h1
  simp [readBytes, moveDown, show p + i < n by omega, Nat.add_assoc]

end Bytes

/-- A block that `deflate` writes at level 0: a stored block, or the empty static block of a partial
flush. -/
inductive StoredBlock
  | stored (payload : List UInt8) (last : Bool) (fits : payload.length ≤ maxStored)
  | align

namespace StoredBlock

def payload : StoredBlock → List UInt8
  | .stored payload .. => payload
  | .align => []

def last : StoredBlock → Bool
  | .stored _ last _ => last
  | .align => false

/-- LEN, its complement and the data. -/
def body (payload : List UInt8) : List UInt8 :=
  leBytes payload.length 2 ++ leBytes (maxStored - payload.length) 2 ++ payload

/-- A block after a bit string. -/
def put (t : BitStream) : StoredBlock → BitStream
  | .stored payload last _ =>
    (t.append (BitStream.ofNat last.toNat 3)).pad.append (BitStream.ofBytes (body payload))
  | .align => t.append (BitStream.ofNat 2 10)

/-- One block after the other. -/
def written (t : BitStream) (blocks : List StoredBlock) : BitStream := blocks.foldl put t

/-- The data of all blocks. -/
def payloads (blocks : List StoredBlock) : List UInt8 := blocks.flatMap payload

/-- No block is marked as the last. -/
def Plain (blocks : List StoredBlock) : Prop := ∀ b ∈ blocks, b.last = false

/-- The final block is marked as the last, and no other. -/
def Closed (blocks : List StoredBlock) : Prop :=
  ∃ before payload fits, blocks = before ++ [.stored payload true fits] ∧ Plain before

theorem Plain.append {xs ys : List StoredBlock} (h : Plain xs) (h' : Plain ys) : Plain (xs ++ ys) := by
  intro b hb
  exact (List.mem_append.mp hb).elim (h b) (h' b)

theorem Plain.closed {xs ys : List StoredBlock} (h : Plain xs) (h' : Closed ys) :
    Closed (xs ++ ys) := by
  obtain ⟨before, payload, fits, rfl, hplain⟩ := h'
  exact ⟨xs ++ before, payload, fits, (List.append_assoc ..).symm, h.append hplain⟩

theorem plain_nil : Plain [] := fun _ hb => absurd hb (List.not_mem_nil)

theorem plain_one {payload : List UInt8} {fits : payload.length ≤ maxStored} :
    Plain [.stored payload false fits] := fun b hb => by
  rw [List.mem_singleton.mp hb]
  rfl

theorem closed_one {payload : List UInt8} {fits : payload.length ≤ maxStored} :
    Closed [.stored payload true fits] := ⟨[], payload, fits, rfl, plain_nil⟩

@[simp] theorem written_append (t : BitStream) (xs ys : List StoredBlock) :
    written t (xs ++ ys) = written (written t xs) ys := List.foldl_append

@[simp] theorem payloads_append (xs ys : List StoredBlock) :
    payloads (xs ++ ys) = payloads xs ++ payloads ys := List.flatMap_append

end StoredBlock

namespace BitStream

@[simp] theorem nil_append (t : BitStream) : (ofBytes []).append t = t := by
  ext <;> simp

/-- Bytes go before the padding. -/
theorem append_pad {t u : BitStream} (h : t.len % 8 = 0) : (t.append u).pad = t.append u.pad := by
  unfold pad
  rw [append_assoc, append_len, padBits, padBits, Nat.add_mod, h, Nat.zero_add, Nat.mod_mod]

end BitStream

namespace BitWriter

/-- The bytes behind a bit writer at a byte boundary. -/
theorem stream_bytes {w : BitWriter} (hbuf : w.biBuf = 0) (hvalid : w.biValid = 0)
    (bytes : List UInt8) :
    stream { w with pending := w.pending ++ bytes } = w.stream.append (BitStream.ofBytes bytes) := by
  simp only [stream, hbuf, hvalid, BitStream.append_ofNat_zero, BitStream.ofBytes_append]

/-- A stored block: its first bits and the padding, and bytes behind them. -/
theorem storedBlock_spec {w : BitWriter} (h : w.Held) (last : Bool) :
    ∃ bytes used, (∀ buf n, w.storedBlock buf n last = some ⟨w.pending ++ bytes ++
          (leBytes n 2 ++ leBytes (2 ^ 32 - 1 - n) 2 ++ buf.take n), 0, 0, used⟩) ∧
      stream ⟨w.pending ++ bytes, 0, 0, used⟩ =
        (w.stream.append (BitStream.ofNat last.toNat 3)).pad ∧
      bytes.length + 4 = storedHeader w.biValid := by
  have hvalue : 0 <<< 1 + last.toNat < 2 ^ 3 := by cases last <;> decide
  obtain ⟨w₁, hw₁, hheld₁, hstream₁, -⟩ := sendBits_spec h (show 3 ≤ 48 by decide) hvalue
  obtain ⟨hheld₂, hstream₂, hvalid₂, -⟩ := biWindup_spec hheld₁
  have hlast : 0 <<< 1 + last.toNat = last.toNat := by cases last <;> rfl
  rw [hlast] at hstream₁
  have hpending : ∃ bytes, w₁.biWindup.pending = w.pending ++ bytes := by
    have hsend : ∃ bytes, w₁.pending = w.pending ++ bytes := by
      rw [sendBits] at hw₁
      dsimp only at hw₁
      split at hw₁
      · cases hw₁
      · split at hw₁
        · obtain rfl := Option.some.inj hw₁
          exact ⟨_, rfl⟩
        · obtain rfl := Option.some.inj hw₁
          exact ⟨[], (List.append_nil _).symm⟩
    obtain ⟨bytes, hbytes⟩ := hsend
    exact ⟨bytes ++ w₁.windupBytes.1, by rw [biWindup, hbytes, List.append_assoc]⟩
  obtain ⟨bytes, hbytes⟩ := hpending
  have heq : w₁.biWindup = ⟨w.pending ++ bytes, 0, 0, w₁.biWindup.biUsed⟩ := by
    rw [← hbytes]
    rfl
  refine ⟨bytes, w₁.biWindup.biUsed, fun buf n => ?_, ?_, ?_⟩
  · rw [storedBlock, emitTree, hw₁, Option.bind_eq_bind, Option.bind_some, heq]
    simp only [put, List.append_assoc]
  · rw [← heq, hstream₂, hstream₁]
  · have hlen := congrArg BitStream.len hstream₂
    rw [hstream₁, stream_len, hvalid₂, hbytes, BitStream.pad] at hlen
    simp only [BitStream.append_len, BitStream.ofNat_len, stream_len, BitStream.padBits,
      List.length_append] at hlen
    rw [storedHeader]
    omega

end BitWriter

end ZlibNg
