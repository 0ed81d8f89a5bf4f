import ZlibNg.Deflate.StoredCheck
import ZlibNg.Deflate.TallyCalls
import ZlibNg.Inflate.Format

/-! `inflate` reads what `deflate` writes at level 0. -/
namespace ZlibNg
open StoredBlock

section Blocks
variable {reach : Nat → Nat} {t : BitStream} {hist : List UInt8} {blocks : List StoredBlock}

/-- The lengths of a stored block, before its data. -/
theorem StoredBlock.ofBytes_body {payload : List UInt8} (h : payload.length ≤ maxStored) :
    BitStream.ofBytes (body payload) = (BitStream.ofNat payload.length 16).append
      ((BitStream.ofNat (2 ^ 32 - 1 - payload.length) 16).append (BitStream.ofBytes payload)) := by
  have hle : payload.length ≤ 2 ^ 16 - 1 := h
  have hneg : (2 ^ 32 - 1 - payload.length) % 2 ^ 16 = maxStored - payload.length := by
    rw [show maxStored = 2 ^ 16 - 1 from rfl]
    omega
  rw [body, BitStream.ofBytes_append, BitStream.ofBytes_append, BitStream.ofBytes_leBytes,
    BitStream.ofBytes_leBytes, BitStream.append_assoc, ← hneg]
  rw [show 8 * 2 = 16 from rfl, BitStream.ofNat_mod]

/-- Every block is read back behind those before it. -/
theorem Leads.put (hreach : ReachesBack reach) (b : StoredBlock) (h : Leads reach t hist false) :
    Leads reach (b.put t) (b.payload.reverse ++ hist) b.last := by
  cases b with
  | stored payload last fits =>
    have hhead : (0 <<< 1 + last.toNat) = last.toNat := by cases last <;> rfl
    change Leads reach (StoredBlock.put t (.stored payload last fits)) (payload.reverse ++ hist) last
    rw [StoredBlock.put, BitStream.pad, ofBytes_body fits, BitStream.append_assoc, BitStream.append_assoc]
    apply h.block
    intro rest hrest
    have hread := @stored_readsBack reach hist
      (BitStream.padBits (t.append (BitStream.ofNat last.toNat 3)).len) (Nat.mod_lt _ (by decide))
      payload (fits.trans_lt (by decide)) last rest ?_
    · rw [putHeader, hhead, putStored] at hread
      simpa only [BitStream.append_assoc] using hread
    · simp only [BitStream.append_len, BitStream.ofNat_len, BitStream.ofBytes_len,
        BitStream.padBits] at hrest ⊢
      omega
  | align =>
    have hcode : staticLcodes.code 256 = 0 := by decide +kernel
    have hlen : staticLcodes.len 256 = 7 := by decide +kernel
    have hbits : (BitStream.ofNat (1 <<< 1 + false.toNat) 3).append (BitStream.ofNat 0 7) =
        BitStream.ofNat 2 10 := by
      rw [BitStream.ofNat_append 0 7 (by decide)]
      rfl
    apply h.block
    intro rest _
    have hin : InHistory [] hist := trivial
    have hread := static_readsBack hreach hin false rest
    rw [putHeader, putBlock, hcode, hlen, List.foldr_nil, ← BitStream.append_assoc, hbits] at hread
    exact hread

/-- Blocks of which none is marked as the last lead the machine on. -/
theorem Leads.written (hreach : ReachesBack reach) (h : Leads reach t hist false) (hplain : Plain blocks) :
    Leads reach (written t blocks) ((payloads blocks).reverse ++ hist) false := by
  induction blocks generalizing t hist with
  | nil => exact h
  | cons b blocks ih =>
    have hlast : b.last = false := hplain b List.mem_cons_self
    have hb := h.put hreach b
    rw [hlast] at hb
    have hrest := ih hb fun x hx => hplain x (List.mem_cons_of_mem b hx)
    rw [payloads, List.flatMap_cons, List.reverse_append, List.append_assoc]
    exact hrest

/-- Closed blocks lead it to the end of the last. -/
theorem Leads.closed (hreach : ReachesBack reach) (hclosed : Closed blocks) :
    Leads reach (StoredBlock.written (.ofBytes []) blocks) (payloads blocks).reverse true := by
  obtain ⟨before, payload, fits, rfl, hplain⟩ := hclosed
  have hbefore := Leads.nil.written hreach hplain
  have hall := hbefore.put hreach (.stored payload true fits)
  rw [List.append_nil, ← List.reverse_append] at hall
  rw [written_append, payloads_append, payloads, payloads, List.flatMap_singleton]
  exact hall

end Blocks

/-- A header of whole bytes stands before the blocks. -/
theorem StoredBlock.written_behind (header : List UInt8) (t : BitStream) (blocks : List StoredBlock) :
    written ((BitStream.ofBytes header).append t) blocks = (BitStream.ofBytes header).append (written t blocks) := by
  induction blocks generalizing t with
  | nil => rfl
  | cons b blocks ih =>
    have hlen : (BitStream.ofBytes header).len % 8 = 0 := by
      rw [BitStream.ofBytes_len]
      exact Nat.mul_mod_right 8 _
    have hput : StoredBlock.put ((BitStream.ofBytes header).append t) b =
        (BitStream.ofBytes header).append (StoredBlock.put t b) := by
      cases b with
      | stored payload last fits =>
        rw [StoredBlock.put, StoredBlock.put, BitStream.append_assoc, BitStream.append_pad hlen,
          BitStream.append_assoc]
      | align => rw [StoredBlock.put, StoredBlock.put, BitStream.append_assoc]
    change written (StoredBlock.put _ b) blocks = _
    rw [hput, ih]
    rfl

/-- Closed blocks end at a byte boundary. -/
theorem StoredBlock.closed_pad {header : List UInt8} {blocks : List StoredBlock} (h : Closed blocks) :
    (written (.ofBytes header) blocks).pad = written (.ofBytes header) blocks := by
  obtain ⟨before, payload, fits, rfl, -⟩ := h
  have hlen : (written (.ofBytes header) (before ++ [.stored payload true fits])).len % 8 = 0 := by
    rw [written_append]
    change (((written (.ofBytes header) before).append (BitStream.ofNat 1 3)).pad.append
      (BitStream.ofBytes (body payload))).len % 8 = 0
    simp only [BitStream.pad, BitStream.append_len, BitStream.ofNat_len, BitStream.ofBytes_len,
      BitStream.padBits]
    omega
  have hnone : BitStream.padBits (written (.ofBytes header) (before ++ [.stored payload true fits])).len =
      0 := by
    rw [BitStream.padBits]
    omega
  rw [BitStream.pad, hnone, BitStream.append_ofNat_zero]

/-- The header of a zlib stream without a dictionary is one that `inflate` takes. -/
theorem streamHeader_word {wBits : Nat} (h9 : 9 ≤ wBits) (h15 : wBits ≤ 15) :
    ZlibWord (leNat (streamHeader 1 wBits)) ∧
      BitStream.ofBytes (streamHeader 1 wBits) = .ofNat (leNat (streamHeader 1 wBits)) 16 := by
  have hlen : (streamHeader 1 wBits).length = 2 := rfl
  constructor
  · interval_cases wBits <;>
      exact ⟨by decide, by decide, by decide, by decide, by decide, by decide⟩
  · have hlt := leNat_lt (streamHeader 1 wBits)
    rw [hlen] at hlt
    ext
    · rw [BitStream.ofBytes_val, BitStream.ofNat_val, Nat.mod_eq_of_lt hlt]
    · rw [BitStream.ofBytes_len, BitStream.ofNat_len, hlen]

namespace Session
variable {bytes data : List UInt8} {blocks : List StoredBlock} {wBits : Nat}

/-- Stored blocks between a header and a trailer which the machine reads. -/
theorem yields_between {windowBits : Int} {header trailer : List UInt8} (hclosed : Closed blocks)
    (hdata : payloads blocks = data)
    (hbytes : BitStream.ofBytes bytes =
      (written (.ofBytes header) blocks).append (.ofBytes trailer))
    (hread : ∀ st s₀, Session.start st windowBits = some s₀ → s₀.strm.st.wbits = 15 ∧
      ∀ rest, ∃ s₁ : InflateState,
        Decoder.Steps id ⟨s₀.strm.st, (BitStream.ofBytes header).append rest, []⟩ ⟨s₁, rest, []⟩ ∧
        s₁.AtBlock false ∧
        ∀ s₂ : InflateState, s₂.mode = .check → s₂.wrap = s₁.wrap → s₂.flags = s₁.flags →
          ∃ s₃, Decoder.Steps id ⟨s₂, .ofBytes trailer, data.reverse⟩ ⟨s₃, .ofBytes [], data.reverse⟩ ∧
            s₃.mode = .done) :
    Yields windowBits bytes data true := by
  apply yields_done
  intro st s₀ h0
  obtain ⟨hwbits, hhead⟩ := hread st s₀ h0
  obtain ⟨s₁, hfirst, hat, hend⟩ := hhead ((written (.ofBytes []) blocks).append (.ofBytes trailer))
  have hstream : BitStream.ofBytes bytes = (BitStream.ofBytes header).append
      ((written (.ofBytes []) blocks).append (.ofBytes trailer)) := by
    rw [hbytes, ← BitStream.append_assoc, ← StoredBlock.written_behind, BitStream.append_nil]
  have hleads := Leads.closed (show ReachesBack id from fun n => Nat.min_le_left n 32768) hclosed
  rw [hdata] at hleads
  obtain ⟨s₂, hsteps, hm₂, hw₂, hf₂⟩ := hleads.checks hat (v := .ofBytes trailer) (by
    rw [BitStream.ofBytes_len]
    exact Nat.mul_mod_right 8 _)
  rw [StoredBlock.closed_pad hclosed] at hsteps
  obtain ⟨s₃, hlast, hm₃⟩ := hend s₂ hm₂ hw₂ hf₂
  refine ⟨hwbits, s₃, ?_, hm₃⟩
  rw [Session.machine, hstream]
  exact hfirst.trans (hsteps.trans hlast)

/-- A stream of stored blocks with the header and the trailer of zlib. -/
theorem yields_zlib (h9 : 9 ≤ wBits) (h15 : wBits ≤ 15) {windowBits : Int}
    (hbits : windowBits = 15 ∨ windowBits = 47) (hclosed : Closed blocks) (hdata : payloads blocks = data)
    (hbytes : BitStream.ofBytes bytes = (written (.ofBytes (streamHeader 1 wBits)) blocks).append
      (.ofBytes (leBytes (adler32 adler32InitialValue data) 4).reverse)) :
    Yields windowBits bytes data true := by
  refine yields_between hclosed hdata hbytes fun st s₀ h0 => ?_
  obtain ⟨hword, heq⟩ := streamHeader_word h9 h15
  obtain ⟨hwbits, hwrap, hmode, hlast⟩ : s₀.strm.st.wbits = 15 ∧ s₀.strm.st.wrap &&& 1 ≠ 0 ∧
      s₀.strm.st.mode = .head ∧ s₀.strm.st.last = false := by
    rcases hbits with rfl | rfl
    · obtain rfl := Option.some.inj h0
      exact ⟨rfl, show 5 &&& 1 ≠ 0 by decide, rfl, rfl⟩
    · obtain rfl := Option.some.inj h0
      exact ⟨rfl, show 7 &&& 1 ≠ 0 by decide, rfl, rfl⟩
  refine ⟨hwbits, fun rest => ?_⟩
  obtain ⟨s₁, hhead, hm₁, hw₁, hf₁, hl₁⟩ := caseHead_zlib hword hwrap hwbits rest
  refine ⟨s₁, .single ?_, ⟨.inr hm₁, hl₁.trans hlast⟩, fun s₂ hm₂ hw₂ hf₂ => ?_⟩
  · have hcase : s₀.strm.st.bitCase = some s₀.strm.st.caseHead := by
      unfold InflateState.bitCase
      rw [hmode]
    rw [Decoder.next_prog hcase (by rw [hmode]; decide), Decoder.runCase, heq, hhead]
    rfl
  · have hwrap₂ : s₂.wrap ≠ 0 := by
      rw [hw₂, hw₁]
      intro h
      rw [h] at hwrap
      exact hwrap rfl
    obtain ⟨s₃, hend, hm₃⟩ := @checks_zlib s₂ id data.reverse hm₂ hwrap₂ (hf₂.trans hf₁)
    rw [List.reverse_reverse] at hend
    exact ⟨s₃, hend, hm₃⟩

/-- A stream of stored blocks with the header and the trailer of gzip. -/
theorem yields_gzip {windowBits : Int} (hbits : windowBits = 31 ∨ windowBits = 47)
    (hclosed : Closed blocks) (hdata : payloads blocks = data)
    (hbytes : BitStream.ofBytes bytes = (written (.ofBytes (streamHeader 2 wBits)) blocks).append
      (.ofBytes (leBytes (crc32 crc32InitialValue data) 4 ++ leBytes data.length 4))) :
    Yields windowBits bytes data true := by
  refine yields_between hclosed hdata hbytes fun st s₀ h0 => ?_
  have heq : BitStream.ofBytes (streamHeader 2 wBits) = (BitStream.ofNat 0x8b1f 16).append
      ((BitStream.ofNat 8 16).append ((BitStream.ofNat 0 32).append (BitStream.ofNat 0x304 16))) := by
    rw [streamHeader, if_pos rfl]
    ext
    · decide
    · rfl
  obtain ⟨hwbits, hwrap, hmode, hlast⟩ : s₀.strm.st.wbits = 15 ∧ s₀.strm.st.wrap &&& 2 ≠ 0 ∧
      s₀.strm.st.mode = .head ∧ s₀.strm.st.last = false := by
    rcases hbits with rfl | rfl
    · obtain rfl := Option.some.inj h0
      exact ⟨rfl, show 6 &&& 2 ≠ 0 by decide, rfl, rfl⟩
    · obtain rfl := Option.some.inj h0
      exact ⟨rfl, show 7 &&& 2 ≠ 0 by decide, rfl, rfl⟩
  refine ⟨hwbits, fun rest => ?_⟩
  rw [heq, BitStream.append_assoc, BitStream.append_assoc, BitStream.append_assoc]
  obtain ⟨s₁, h₁, hm₁, hw₁, hl₁⟩ := @head_gzip s₀.strm.st id [] _ hmode hwrap hlast
  obtain ⟨s₂, h₂, hs₂⟩ := @flags_gzip s₁ id [] _ hm₁ hl₁
  obtain ⟨s₃, h₃, hs₃⟩ := hs₂.time
  obtain ⟨s₄, h₄, hs₄⟩ := hs₃.os (show 0x304 < 2 ^ 16 by decide)
  obtain ⟨s₅, h₅, hs₅⟩ := hs₄.skips rest
  have hfirst : Decoder.Steps id _ ⟨s₁, _, []⟩ := .single h₁
  refine ⟨s₅, (((hfirst.tail h₂).tail h₃).tail h₄).trans h₅, ⟨.inr hs₅.mode, hs₅.last⟩,
    fun s hm hw hf => ?_⟩
  have hwrap₅ : s.wrap ≠ 0 := by
    rw [hw, hs₅.wrap, hw₁]
    intro h
    rw [h] at hwrap
    exact hwrap rfl
  have hflags : s.flags ≠ 0 := by
    rw [hf, hs₅.flags]
    decide
  obtain ⟨s₆, hend, hm₆⟩ := @checks_gzip s id data.reverse hm hwrap₅ hflags
  rw [List.reverse_reverse, List.length_reverse] at hend
  exact ⟨s₆, hend, hm₆⟩

end Session

/-- The window bits with which `inflate` takes a format: raw, zlib and gzip, the last two also found by
itself. -/
def TakesFormat (windowBits : Int) (wrap : Nat) : Prop :=
  (wrap = 0 ∧ windowBits = -15) ∨ (wrap = 1 ∧ (windowBits = 15 ∨ windowBits = 47)) ∨
    (wrap = 2 ∧ (windowBits = 31 ∨ windowBits = 47))

namespace StoredStream
variable {s : StoredStream} {data : List UInt8} {wrap wBits : Nat} {inflateBits : Int}

/-- A whole stream is read back, with its header and its check value. -/
theorem Whole.yields (hwhole : Whole wrap wBits s data) (hc : Checks wrap s data)
    (h9 : 9 ≤ wBits) (h15 : wBits ≤ 15) (hformat : TakesFormat inflateBits wrap) :
    Session.Yields inflateBits s.head.out data true := by
  obtain ⟨blocks, hclosed, hdata, hout⟩ := hwhole
  rcases hformat with ⟨rfl, rfl⟩ | ⟨rfl, hbits⟩ | ⟨rfl, hbits⟩
  · have hleads := Leads.closed (show ReachesBack id from fun n => Nat.min_le_left n 32768) hclosed
    rw [hdata] at hleads
    have hraw : trailerBytes ((0 : Nat) : Int) s.head.adler s.totalIn = [] := rfl
    rw [streamHeader, if_neg (by decide), if_neg (by decide), hraw, BitStream.append_nil] at hout
    exact Session.yields_end ⟨_, hleads, hout.trans (StoredBlock.closed_pad hclosed).symm⟩
  · have hcheck : s.head.adler = adler32 adler32InitialValue data := hc.adler
    have htrailer : trailerBytes ((1 : Nat) : Int) s.head.adler s.totalIn =
        (leBytes (adler32 adler32InitialValue data) 4).reverse := by
      rw [hcheck]
      rfl
    rw [htrailer] at hout
    exact Session.yields_zlib h9 h15 hbits hclosed hdata hout
  · have hcheck : s.head.adler = crc32 crc32InitialValue data := hc.adler
    have htrailer : trailerBytes ((2 : Nat) : Int) s.head.adler s.totalIn =
        leBytes (crc32 crc32InitialValue data) 4 ++ leBytes data.length 4 := by
      rw [hcheck, hc.totalIn]
      rfl
    rw [htrailer] at hout
    exact Session.yields_gzip hbits hclosed hdata hout

section RoundTrip
variable (buf window : Nat → UInt8) {windowBits : Nat} (h8 : 8 ≤ windowBits) (h15 : windowBits ≤ 15)
  (memLevel strategy : Nat) (calls : List Call) (last : Call) (hformat : TakesFormat inflateBits wrap)
include h8 h15 hformat

/-- When `deflate` at level 0 ends a raw, zlib or gzip stream, `inflate` reads its output back to the
input of all the calls, however the calls of both are cut. -/
theorem storedDeflate_inflates :
    ∃ s taken ret s' rest,
      (start buf window wrap windowBits memLevel strategy).run [] calls = some (s, taken) ∧
      s.deflate last.flush last.availOut last.input = some (ret, s', rest) ∧
      rest <:+ last.input ∧
      (ret = .streamEnd → rest = [] ∧
        Session.Yields inflateBits s'.head.out (taken ++ last.input) true) := by
  have hwrap : wrap ≤ 2 := by
    rcases hformat with ⟨rfl, -⟩ | ⟨rfl, -⟩ | ⟨rfl, -⟩ <;> decide
  obtain ⟨s, taken, hrun, hgoing, hchecks⟩ := run_checks hwrap
    (start_going buf window h8 h15 memLevel strategy)
    (start_checks buf window wrap windowBits memLevel strategy) calls
  obtain ⟨⟨ret, s', rest⟩, hr, hcalled⟩ :=
    deflate_spec hwrap hgoing last.flush last.availOut last.input
  have hchecks' := deflate_checks hgoing hchecks hr
  refine ⟨s, taken, ret, s', rest, hrun, hr, hcalled.suffix, fun hret => ?_⟩
  obtain ⟨hnil, hwhole⟩ := hcalled.ends hret
  dsimp only at hnil hwhole
  rw [hnil, List.length_nil, Nat.sub_zero, List.take_length] at hwhole hchecks'
  have h9 : 9 ≤ if windowBits = 8 then 9 else windowBits := by split <;> omega
  have hle : (if windowBits = 8 then 9 else windowBits) ≤ 15 := by split <;> omega
  exact ⟨hnil, hwhole.yields hchecks' h9 hle hformat⟩

end RoundTrip

/-- A byte in a zlib stream, with a flush before it. -/
theorem storedDeflate_inflates_byte : ∃ s s', (start (fun _ => 0) (fun _ => 0) 1 15 8 0).run []
      [⟨.syncFlush, [], 100⟩] = some (s, []) ∧
    s.deflate .finish 100 [97] = some (.streamEnd, s', []) ∧
    s'.head.out = [120, 1, 0, 0, 0, 255, 255, 1, 1, 0, 254, 255, 97, 0, 98, 0, 98] ∧
    Session.Yields 15 [120, 1, 0, 0, 0, 255, 255, 1, 1, 0, 254, 255, 97, 0, 98, 0, 98] [97] true := by
  have hrun : ((start (fun _ => 0) (fun _ => 0) 1 15 8 0).run [] [⟨.syncFlush, [], 100⟩]).bind
      (fun r => (r.1.deflate .finish 100 [97]).map fun x => (r.2, x.1, x.2.1.head.out)) =
        some ([], .streamEnd, [120, 1, 0, 0, 0, 255, 255, 1, 1, 0, 254, 255, 97, 0, 98, 0, 98]) := by
    decide +kernel
  obtain ⟨s, taken, ret, s', rest, h₁, h₂, -, hend⟩ :=
    storedDeflate_inflates (fun _ => 0) (fun _ => 0) (show 8 ≤ 15 by decide) le_rfl 8 0
      [⟨.syncFlush, [], 100⟩] ⟨.finish, [97], 100⟩
      (show TakesFormat 15 1 from .inr (.inl ⟨rfl, .inl rfl⟩))
  dsimp only at h₂ hend
  rw [h₁, Option.bind_some, h₂, Option.map_some] at hrun
  obtain ⟨rfl, rfl, hout⟩ : taken = [] ∧ ret = .streamEnd ∧ s'.head.out = _ := by simpa using hrun
  obtain ⟨rfl, hyields⟩ := hend rfl
  rw [hout] at hyields
  exact ⟨s, s', h₁, h₂, hout, hyields⟩

end StoredStream
end ZlibNg
