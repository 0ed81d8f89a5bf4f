import ZlibNg.Gzip.Header
import ZlibNg.Inflate.Calls

/-! A gzip header is read into the structure given to `inflateGetHeader`, wherever the input is cut. -/
namespace ZlibNg
open BitProg BitStream

theorem BitStream.peek_ofBytes (x t : List UInt8) : (ofBytes (x ++ t)).peek (8 * x.length) = leNat x := by
  rw [ofBytes_append, peek_append (ofBytes_len x).ge, peek, ofBytes_val]
  exact Nat.mod_eq_of_lt (leNat_lt x)

theorem BitStream.drop_ofBytes (x t : List UInt8) :
    (ofBytes (x ++ t)).drop (8 * x.length) = ofBytes t := by
  ext
  · rw [drop_val, ofBytes_val, ofBytes_val, leNat_append]
    rw [Nat.add_mul_div_left _ _ (Nat.two_pow_pos _), Nat.div_eq_of_lt (leNat_lt x), Nat.zero_add]
  · simp only [drop_len, ofBytes_len, List.length_append]
    omega

/-- Byte strings are told apart by their bits. -/
theorem BitStream.ofBytes_inj {x y : List UInt8} (h : ofBytes x = ofBytes y) : x = y := by
  have hval : leNat x = leNat y := congrArg BitStream.val h
  have hlen : x.length = y.length := by
    have h' := congrArg BitStream.len h
    rw [ofBytes_len, ofBytes_len] at h'
    omega
  clear h
  induction x generalizing y with
  | nil => exact (List.length_eq_zero_iff.mp hlen.symm).symm
  | cons a x ih =>
    cases y with
    | nil => cases hlen
    | cons c y =>
      rw [leNat_cons, leNat_cons] at hval
      have ha := a.toNat_lt
      have hc := c.toNat_lt
      have hhead : a = c := by
        rw [← UInt8.toNat_inj]
        omega
      have htail : leNat x = leNat y := by omega
      rw [hhead, ih htail (by simpa using hlen)]

section Word
variable {γ α : Type} {x t : List UInt8} {n : Nat}

/-- A program asks for some bytes and takes them as a number. -/
theorem BitProg.runStream_word (hn : 8 * x.length = n) (k : Nat → BitProg γ α) :
    (need n (whole k)).runStream 0 (ofBytes (x ++ t)) =
      (k (leNat x)).runStream n (ofBytes (x ++ t)) := by
  have hlen : n ≤ (ofBytes (x ++ t)).len := by
    rw [ofBytes_len, List.length_append]
    omega
  have hpeek := peek_ofBytes x t
  rw [hn] at hpeek
  simp only [runStream, if_pos hlen, Nat.zero_max, hpeek]

/-- Such a program stops only where the bytes are not there. -/
theorem BitProg.runStream_word_none {k : Nat → BitProg γ α} (hk : ∀ w u v, (k w).runStream u v ≠ none)
    (v : BitStream) (h : (need n (whole k)).runStream 0 v = none) : v.len < n := by
  by_contra hlen
  simp only [runStream, if_pos (not_lt.mp hlen)] at h
  exact hk _ _ _ h

theorem BitProg.runStream_empty (hn : 8 * x.length = n) (p : BitProg γ α) :
    (empty p).runStream n (ofBytes (x ++ t)) = p.runStream 0 (ofBytes t) := by
  have hdrop := drop_ofBytes x t
  rw [hn] at hdrop
  simp only [runStream, hdrop]

end Word

/-- A buffer of `max` bytes into which bytes are saved, as far as they fit. -/
def saved (buf : Option (Nat → UInt8)) (max : Nat) (bytes : List UInt8) : Option (Nat → UInt8) :=
  buf.map fun b => writeBytes b 0 (bytes.take max)

theorem saved_nil (buf : Option (Nat → UInt8)) (max : Nat) : saved buf max [] = buf := by
  cases buf with
  | none => rfl
  | some b =>
    refine congrArg some (funext fun i => ?_)
    simp [writeBytes]

/-- Bytes written behind others. -/
theorem writeBytes_append (buf : Nat → UInt8) (x y : List UInt8) :
    writeBytes (writeBytes buf 0 x) x.length y = writeBytes buf 0 (x ++ y) := by
  funext i
  simp only [writeBytes, Nat.zero_le, true_and, Nat.zero_add, Nat.sub_zero, List.length_append]
  by_cases h₁ : i < x.length
  · rw [if_neg (by omega), if_pos h₁, if_pos (by omega), List.getD_append _ _ _ _ h₁]
  · by_cases h₂ : i < x.length + y.length
    · rw [if_pos ⟨by omega, h₂⟩, if_pos h₂, List.getD_append_right _ _ _ _ (by omega)]
    · rw [if_neg (by omega), if_neg h₁, if_neg h₂]

theorem update_eq_writeBytes (buf : Nat → UInt8) (i : Nat) (b : UInt8) :
    Function.update buf i b = writeBytes buf i [b] := by
  funext j
  unfold writeBytes
  by_cases h : j = i
  · rw [h, Function.update_self, if_pos ⟨le_rfl, by simp⟩]
    simp
  · rw [Function.update_of_ne h, if_neg (by simp; omega)]

namespace Gzip.Fields
variable (f : Fields) (hd : GzHeader)

/-- The header structure once the fields of fixed length are read. -/
def readFixed : GzHeader :=
  { hd with done := 0, text := f.text.toNat, time := f.time, xflags := f.xflags, os := f.os }

/-- The header structure when `p` of the extra field is read. -/
def readExtra (p : List UInt8) : GzHeader :=
  { f.readFixed hd with
    extra := f.extra.bind fun _ => saved hd.extra hd.extraMax p
    extraLen := f.extra.elim hd.extraLen List.length }

/-- The header structure when `p` of the name is read. -/
def readName (p : List UInt8) : GzHeader :=
  { f.readExtra hd f.extraData with name := saved hd.name hd.nameMax p }

/-- The header structure when `p` of the comment is read. -/
def readComment (p : List UInt8) : GzHeader :=
  { f.readExtra hd f.extraData with
    name := f.name.bind fun _ => saved hd.name hd.nameMax f.nameData
    comment := saved hd.comment hd.commMax p }

/-- The header structure with the header read into it. -/
def restore : GzHeader :=
  { f.readExtra hd f.extraData with
    name := f.name.bind fun _ => saved hd.name hd.nameMax f.nameData
    comment := f.comment.bind fun _ => saved hd.comment hd.commMax f.commentData
    hcrc := f.hcrc.toNat
    done := 1 }

end Gzip.Fields

variable {f : Gzip.Fields} {hd : GzHeader} {rest later b : List UInt8}

/-- The bytes of the header after those of fixed length. -/
def Gzip.Fields.strings (f : Gzip.Fields) : List UInt8 := f.nameData ++ (f.commentData ++ f.checkData)

/-- A state in the header, with the structure `head`, after the bytes `seen` and before `b`. -/
structure Parsing (f : Gzip.Fields) (rest : List UInt8) (s : InflateState) (head : GzHeader)
    (seen b : List UInt8) : Prop where
  head : s.head = some head
  wrap : s.wrap &&& 4 ≠ 0
  flags : s.flags = UInt32.ofNat f.flagWord
  hash : f.hcrc = true → s.check = crc32 crc32InitialValue seen
  bytes : seen ++ b = f.bytes ++ rest

/-- What is still to be read, at each mode. -/
def Expects (f : Gzip.Fields) (hd : GzHeader) (rest : List UInt8) (s : InflateState) (b : List UInt8) :
    Prop :=
  match s.mode with
  | .head => s.head = some { hd with done := 0 } ∧ s.wrap &&& 4 ≠ 0 ∧ s.wrap &&& 2 ≠ 0 ∧
      b = f.bytes ++ rest
  | .flags => s.head = some { hd with done := 0 } ∧ s.wrap &&& 4 ≠ 0 ∧
      s.check = crc32 crc32InitialValue [31, 139] ∧ [31, 139] ++ b = f.bytes ++ rest
  | .time => ∃ seen, Parsing f rest s { hd with done := 0, text := f.text.toNat } seen b ∧
      b = leBytes f.time 4 ++ ([UInt8.ofNat f.xflags, UInt8.ofNat f.os] ++
        (f.extraLength ++ (f.extraData ++ (f.strings ++ rest))))
  | .os => ∃ seen, Parsing f rest s { hd with done := 0, text := f.text.toNat, time := f.time } seen b ∧
      b = [UInt8.ofNat f.xflags, UInt8.ofNat f.os] ++
        (f.extraLength ++ (f.extraData ++ (f.strings ++ rest)))
  | .exlen => ∃ seen, Parsing f rest s (f.readFixed hd) seen b ∧
      b = f.extraLength ++ (f.extraData ++ (f.strings ++ rest))
  | .extra => ∃ seen p q, Parsing f rest s (f.readExtra hd p) seen b ∧ f.extraData = p ++ q ∧
      (f.extra.isSome = true → s.length = q.length) ∧ b = q ++ (f.strings ++ rest)
  | .name => ∃ seen p q, Parsing f rest s (f.readName hd p) seen b ∧ f.nameData = p ++ q ∧
      (f.name.isSome = true → q ≠ []) ∧ (f.name = none → p = []) ∧
      (hd.name.isSome = true → s.length = min p.length hd.nameMax) ∧
      b = q ++ (f.commentData ++ (f.checkData ++ rest))
  | .comment => ∃ seen p q, Parsing f rest s (f.readComment hd p) seen b ∧ f.commentData = p ++ q ∧
      (f.comment.isSome = true → q ≠ []) ∧ (f.comment = none → p = []) ∧
      (hd.comment.isSome = true → s.length = min p.length hd.commMax) ∧ b = q ++ (f.checkData ++ rest)
  | .hcrc => Parsing f rest s { f.restore hd with hcrc := hd.hcrc, done := 0 } f.front b ∧
      b = f.checkData ++ rest
  | .type => s.head = some (f.restore hd) ∧ b = rest
  | _ => False

namespace Regs

/-- The unread bits, those of `later` included that are not yet given, are as the mode expects. -/
def Reads (f : Gzip.Fields) (hd : GzHeader) (rest later : List UInt8) (r : Regs) : Prop :=
  ∃ b, r.acc.stream.append (ofBytes later) = ofBytes b ∧ Expects f hd rest r.st b

/-- What a pass in the header comes to: it goes on, or it leaves for want of input; then a part of
the header is not yet given. -/
def Parses (f : Gzip.Fields) (hd : GzHeader) (rest later : List UInt8) (r : Regs) : Ctl → Prop
  | .loop r' => Reads f hd rest later r'
  | .leave code r' => code = .ok ∧ r'.acc.have_ = 0 ∧ Reads f hd rest later r' ∧
      r'.st.mode = r.st.mode ∧ rest.length < later.length
  | Ctl.ret _ _ => False

variable {r : Regs} {flush : Flush}

/-- A pass that is a program, which asks for `n` bits of the header. -/
theorem parses_program {p : CaseProg} {s : InflateState} {c : List UInt8} {L : Nat → Prop}
    {Q : InflateState → Nat → Nat → Prop} (n : Nat) (hn : n + 8 * rest.length ≤ 8 * b.length)
    (hstuck : ∀ v, p.runStream 0 v = none → v.len < n) (hwp : p.wp true r.acc.bits 0 L Q)
    (hb : r.acc.stream.append (ofBytes later) = ofBytes b) (hexp : Expects f hd rest r.st b)
    (hrun : p.runStream 0 (ofBytes b) = some (s, ofBytes c)) (hnext : Expects f hd rest s c) :
    r.Parses f hd rest later (r.runCase flush p) := by
  have hspec := run_spec p hwp
  unfold runCase
  generalize p.run r.acc = res at hspec ⊢
  cases res with
  | leave acc =>
    obtain ⟨-, hleft⟩ := hspec
    have hlen := congrArg BitStream.len hb
    rw [append_len, ofBytes_len, ofBytes_len] at hlen
    have hshort := hstuck _ hleft.stuck
    exact ⟨rfl, hleft.empty, ⟨b, by rw [hleft.stream]; exact hb, hexp⟩, rfl, by omega⟩
  | done s' acc =>
    have hs := hspec.stream later
    rw [hb, hrun] at hs
    obtain ⟨rfl, hrest⟩ := Prod.mk.inj (Option.some.inj hs)
    have hmode : ¬ (flush = .trees ∧ (s.mode = .len_ ∨ s.mode = .copy_)) := by
      rintro ⟨-, hm | hm⟩ <;> simp [Expects, hm] at hnext
    dsimp only
    rw [if_neg hmode]
    exact ⟨c, hrest.symm, hnext⟩

/-- The state when a field is read and hashed. -/
abbrev fieldRead (s : InflateState) (x : List UInt8) (head : GzHeader) (l : Nat) (m : Mode) : InflateState :=
  { s with
    head := some head, length := l, mode := m
    check := if s.flags &&& 0x0200 ≠ 0 ∧ s.wrap &&& 4 ≠ 0 then crc32 s.check x else s.check }

/-- A field is read and hashed. -/
theorem parsing_field {s : InflateState} {head : GzHeader} {seen x b : List UInt8}
    (h : Parsing f rest s head seen (x ++ b)) (head' : GzHeader) (l : Nat) (m : Mode) :
    Parsing f rest (fieldRead s x head' l m) head' (seen ++ x) b := by
  refine ⟨rfl, h.wrap, h.flags, fun hcrc => ?_, by rw [List.append_assoc, h.bytes]⟩
  dsimp only
  rw [if_pos ⟨by rw [h.flags]; exact f.flagWord_fields.1.mpr hcrc, h.wrap⟩, h.hash hcrc, ← crc32_append]

variable {past : List UInt8} {start : Nat}

theorem caseHead_parses (h : r.Good past start) (hm : r.st.mode = .head)
    (hr : r.Reads f hd rest later) :
    r.Parses f hd rest later (r.runCase flush r.st.caseHead) := by
  obtain ⟨b, hb, hexp⟩ := hr
  have hexp' := hexp
  simp only [Expects, hm] at hexp'
  obtain ⟨hhead, hw4, hw2, hbytes⟩ := hexp'
  obtain ⟨t, ht⟩ : ∃ t, f.bytes ++ rest = [31, 139] ++ t := ⟨_, rfl⟩
  have hwrap : r.st.wrap ≠ 0 := by
    intro h0
    rw [h0] at hw2
    exact hw2 rfl
  rw [hbytes, ht] at hb
  rw [hbytes, ht] at hexp
  have hlength : rest.length ≤ t.length := by
    have hlen := congrArg List.length ht
    simp only [List.length_append, List.length_cons, List.length_nil, Gzip.Fields.bytes,
      Gzip.Fields.front, Gzip.Fields.fixed, length_leBytes] at hlen
    omega
  refine parses_program 16 (by simp; omega)
    (by
      simp only [InflateState.caseHead, if_neg hwrap, needBits, hold, bits, initBits, dropBits, pure_eq,
        ret_bind, need_bind, whole_bind]
      exact runStream_word_none fun w u v => by
        simp only [peek_bind, skip_bind, empty_bind, ret_bind, runStream_ite, runStream]
        repeat' split
        all_goals exact Option.some_ne_none _)
    (InflateState.caseHead_wp hm h.bits) hb hexp (c := t) (s := { r.st with
    wbits := if r.st.wbits = 0 then maxWbits else r.st.wbits
    check := crc32 crc32InitialValue [31, 139]
    mode := .flags }) ?_ ?_
  · have hword : leNat [31, 139] = 0x8b1f := by decide
    have hbytes : leBytes 0x8b1f 2 = [31, 139] := by decide
    simp only [InflateState.caseHead, if_neg hwrap, needBits, hold, initBits, pure_eq, ret_bind,
      need_bind, whole_bind]
    rw [runStream_word (x := [31, 139]) (n := 16) rfl, hword, if_pos ⟨hw2, rfl⟩, hbytes]
    simp only [empty_bind]
    exact runStream_empty rfl _
  · simp only [Expects]
    exact ⟨hhead, hw4, trivial, ht.symm⟩

/-- Cut a known start off the bytes. -/
theorem append_left_eq {x u v w : List UInt8} (h : x ++ u = v) (hv : v = x ++ w) : u = w :=
  List.append_cancel_left (h.trans hv)

theorem caseFlags_parses (h : r.Good past start) (hm : r.st.mode = .flags)
    (hr : r.Reads f hd rest later) :
    r.Parses f hd rest later (r.runCase flush r.st.caseFlags) := by
  obtain ⟨b, hb, hexp⟩ := hr
  have hexp' := hexp
  simp only [Expects, hm] at hexp'
  obtain ⟨hhead, hw4, hcheck, hbytes⟩ := hexp'
  obtain ⟨hmethod, hreserved, htext, hlt, -, -⟩ := f.flagWord_flags
  change _ = UInt32.ofNat zDeflated at hmethod
  obtain ⟨t, ht⟩ : ∃ t, t = leBytes f.time 4 ++ ([UInt8.ofNat f.xflags, UInt8.ofNat f.os] ++
        (f.extraLength ++ (f.extraData ++ (f.strings ++ rest)))) := ⟨_, rfl⟩
  have hsplit : b = leBytes f.flagWord 2 ++ t := by
    refine append_left_eq hbytes ?_
    rw [ht]
    simp only [Gzip.Fields.bytes, Gzip.Fields.front, Gzip.Fields.fixed, Gzip.Fields.strings,
      List.append_assoc]
  rw [hsplit] at hb hexp hbytes
  have hword : leNat (leBytes f.flagWord 2) = f.flagWord := by
    rw [leNat_leBytes]
    exact Nat.mod_eq_of_lt hlt
  refine parses_program 16 (by rw [ht]; simp; omega)
    (by
      simp only [InflateState.caseFlags, needBits, hold, initBits, pure_eq, ret_bind, need_bind, whole_bind, empty_bind]
      exact runStream_word_none fun w u v => by
        simp only [runStream_ite, runStream]
        split
        · exact Option.some_ne_none _
        · split <;> exact Option.some_ne_none _)
    (InflateState.caseFlags_wp hm h.bits) hb hexp (c := t) (s := { r.st with
    flags := UInt32.ofNat f.flagWord
    head := some { hd with done := 0, text := f.text.toNat }
    check := if UInt32.ofNat f.flagWord &&& 0x0200 ≠ 0 ∧ r.st.wrap &&& 4 ≠ 0 then
      crc32 r.st.check (leBytes f.flagWord 2) else r.st.check
    mode := .time }) ?_ ?_
  · simp only [InflateState.caseFlags, needBits, hold, initBits, pure_eq, ret_bind, need_bind, whole_bind]
    rw [runStream_word (x := leBytes f.flagWord 2) (by rw [length_leBytes]), hword,
      if_neg (not_not.mpr hmethod), if_neg (not_not.mpr hreserved)]
    simp only [empty_bind, InflateState.headerCheck_eq, hhead, htext, Option.map_some]
    exact runStream_empty (by rw [length_leBytes]) _
  · simp only [Expects]
    refine ⟨[31, 139] ++ leBytes f.flagWord 2, ⟨rfl, hw4, rfl, fun hcrc => ?_, ?_⟩, ht⟩
    · dsimp only
      rw [if_pos ⟨f.flagWord_fields.1.mpr hcrc, hw4⟩, hcheck, ← crc32_append]
    · rw [List.append_assoc]
      exact hbytes

theorem caseTime_parses (h : r.Good past start) (hm : r.st.mode = .time)
    (hr : r.Reads f hd rest later) (htime : f.time < 2 ^ 32) :
    r.Parses f hd rest later (r.runCase flush r.st.caseTime) := by
  obtain ⟨b, hb, hexp⟩ := hr
  have hexp' := hexp
  simp only [Expects, hm] at hexp'
  obtain ⟨seen, hpar, rfl⟩ := hexp'
  have hword : leNat (leBytes f.time 4) = f.time := by
    rw [leNat_leBytes]
    exact Nat.mod_eq_of_lt htime
  refine parses_program 32 (by simp; omega)
    (by
      simp only [InflateState.caseTime, needBits, hold, initBits, pure_eq, ret_bind, need_bind, whole_bind, empty_bind]
      exact runStream_word_none fun w u v => by
        simp only [runStream]
        exact Option.some_ne_none _)
    (InflateState.caseTime_wp hm h.ok h.bits) hb hexp
    (s := fieldRead r.st (leBytes f.time 4) { hd with done := 0, text := f.text.toNat, time := f.time }
      r.st.length .os) ?_ ⟨_, parsing_field hpar _ _ _, rfl⟩
  simp only [InflateState.caseTime, needBits, hold, initBits, pure_eq, ret_bind, need_bind, whole_bind]
  rw [runStream_word (x := leBytes f.time 4) (by rw [length_leBytes]), hword]
  simp only [empty_bind, InflateState.headerCheck_eq, hpar.head, Option.map_some, Nat.mod_eq_of_lt htime]
  exact runStream_empty (by rw [length_leBytes]) _

theorem caseOs_parses (h : r.Good past start) (hm : r.st.mode = .os)
    (hr : r.Reads f hd rest later) (hxflags : f.xflags < 256) (hos : f.os < 256) :
    r.Parses f hd rest later (r.runCase flush r.st.caseOs) := by
  obtain ⟨b, hb, hexp⟩ := hr
  have hexp' := hexp
  simp only [Expects, hm] at hexp'
  obtain ⟨seen, hpar, rfl⟩ := hexp'
  have hlow : (f.xflags + 256 * f.os) % 256 = f.xflags := by omega
  have hhigh : (f.xflags + 256 * f.os) >>> 8 = f.os := by
    rw [Nat.shiftRight_eq_div_pow]
    omega
  have hword : leNat [UInt8.ofNat f.xflags, UInt8.ofNat f.os] = f.xflags + 256 * f.os := by
    simp only [leNat_cons, leNat_nil, UInt8.toNat_ofNat', Nat.reducePow, Nat.mod_eq_of_lt hxflags,
      Nat.mod_eq_of_lt hos]
    omega
  have hback : leBytes (f.xflags + 256 * f.os) 2 = [UInt8.ofNat f.xflags, UInt8.ofNat f.os] := by
    rw [leBytes, leBytes, leBytes, hhigh]
    congr 1
    rw [← UInt8.toNat_inj, UInt8.toNat_ofNat', UInt8.toNat_ofNat']
    omega
  refine parses_program 16 (by simp; omega)
    (by
      simp only [InflateState.caseOs, needBits, hold, initBits, pure_eq, ret_bind, need_bind, whole_bind, empty_bind]
      exact runStream_word_none fun w u v => by
        simp only [runStream]
        exact Option.some_ne_none _)
    (InflateState.caseOs_wp hm h.ok h.bits) hb hexp
    (s := fieldRead r.st [UInt8.ofNat f.xflags, UInt8.ofNat f.os] (f.readFixed hd) r.st.length .exlen) ?_
    ⟨_, parsing_field hpar _ _ _, rfl⟩
  simp only [InflateState.caseOs, needBits, hold, initBits, pure_eq, ret_bind, need_bind, whole_bind]
  rw [runStream_word (x := [UInt8.ofNat f.xflags, UInt8.ofNat f.os]) (n := 16) rfl, hword]
  simp only [empty_bind, InflateState.headerCheck_eq, hpar.head, Option.map_some, hlow, hhigh, hback]
  exact runStream_empty (by rfl) _

theorem caseExlen_parses (h : r.Good past start) (hm : r.st.mode = .exlen)
    (hr : r.Reads f hd rest later) (hextra : ∀ e, f.extra = some e → e.length < 2 ^ 16) :
    r.Parses f hd rest later (r.runCase flush r.st.caseExlen) := by
  obtain ⟨b, hb, hexp⟩ := hr
  have hexp' := hexp
  simp only [Expects, hm] at hexp'
  obtain ⟨seen, hpar, rfl⟩ := hexp'
  have hwp := InflateState.caseExlen_wp hm h.ok h.bits
  have hflag := f.flagWord_fields.2.1
  rw [← hpar.flags] at hflag
  cases he : f.extra with
  | none =>
    have hlength : f.extraLength = [] := by rw [Gzip.Fields.extraLength, he]; rfl
    have hdata : f.extraData = [] := by rw [Gzip.Fields.extraData, he]; rfl
    rw [hlength, List.nil_append] at hb hexp hpar
    have hnone : ¬ (r.st.flags &&& 0x0400 ≠ 0) := by
      rw [hflag, he]
      exact Bool.false_ne_true
    refine parses_program 0 (by simp; omega)
      (fun v hv => by
        rw [InflateState.caseExlen, if_neg hnone] at hv
        cases hv)
      hwp hb hexp (s := { r.st with head := some (f.readExtra hd []), mode := .extra }) ?_ ⟨seen, [], [], ⟨rfl, hpar.wrap, hpar.flags, hpar.hash, hpar.bytes⟩, hdata, ?_, by rw [hdata]⟩
    · rw [InflateState.caseExlen, if_neg hnone]
      simp only [pure_eq, runStream, hpar.head, Option.map_some, Gzip.Fields.readExtra, he,
        Option.bind_none, Option.elim_none, Gzip.Fields.readFixed]
    · rw [he]
      exact fun h => absurd h Bool.false_ne_true
  | some e =>
    have hlength : f.extraLength = leBytes e.length 2 := by rw [Gzip.Fields.extraLength, he]; rfl
    have hdata : f.extraData = e := by rw [Gzip.Fields.extraData, he]; rfl
    rw [hlength] at hb hexp hpar
    have hsome : r.st.flags &&& 0x0400 ≠ 0 := by
      rw [hflag, he]
      rfl
    have hmod : e.length % 2 ^ 16 = e.length := Nat.mod_eq_of_lt (hextra e he)
    have hword : leNat (leBytes e.length 2) = e.length := by
      rw [leNat_leBytes]
      exact hmod
    refine parses_program 16 (by simp; omega)
      (by
        rw [InflateState.caseExlen, if_pos hsome]
        simp only [needBits, hold, initBits, pure_eq, ret_bind, need_bind, whole_bind, empty_bind]
        exact runStream_word_none fun w u v => by
          simp only [runStream]
          exact Option.some_ne_none _)
      hwp hb hexp
      (s := fieldRead r.st (leBytes e.length 2) (f.readExtra hd []) e.length .extra) ?_
      ⟨_, [], e, parsing_field hpar _ _ _, hdata, fun _ => rfl, by rw [hdata]⟩
    rw [InflateState.caseExlen, if_pos hsome]
    simp only [needBits, hold, initBits, pure_eq, ret_bind, need_bind, whole_bind]
    rw [runStream_word (x := leBytes e.length 2) (by rw [length_leBytes]), hword]
    simp only [empty_bind, InflateState.headerCheck_eq, hpar.head, Option.map_some, hmod,
      Gzip.Fields.readExtra, he, Option.bind_some, Option.elim_some, saved_nil, Gzip.Fields.readFixed]
    exact runStream_empty (by rw [length_leBytes]) _

/-- The end of the header. -/
theorem headerDone_expects {s : InflateState} {seen b : List UInt8}
    (h : Parsing f rest s { f.restore hd with hcrc := hd.hcrc, done := 0 } seen b) :
    Expects f hd rest s.headerDone rest := by
  have hhcrc := f.flagWord_flags.2.2.2.2.1
  rw [← h.flags] at hhcrc
  have hhead : s.headerDone.head = some (f.restore hd) := by
    unfold InflateState.headerDone
    dsimp only
    split <;> simp only [h.head, Option.map_some, hhcrc, Gzip.Fields.restore]
  have hmode : s.headerDone.mode = .type := rfl
  simp only [Expects, hmode]
  exact ⟨hhead, trivial⟩

theorem caseHcrc_parses (h : r.Good past start) (hm : r.st.mode = .hcrc)
    (hr : r.Reads f hd rest later) :
    r.Parses f hd rest later (r.runCase flush r.st.caseHcrc) := by
  obtain ⟨b, hb, hexp⟩ := hr
  have hexp' := hexp
  simp only [Expects, hm] at hexp'
  obtain ⟨hpar, rfl⟩ := hexp'
  have hwp := InflateState.caseHcrc_wp hm h.bits
  have hflag := f.flagWord_fields.1
  rw [← hpar.flags] at hflag
  have hdone := headerDone_expects hpar
  cases hc : f.hcrc with
  | false =>
    have hnone : ¬ (r.st.flags &&& 0x0200 ≠ 0) := by
      rw [hflag, hc]
      exact Bool.false_ne_true
    have hdata : f.checkData = [] := by
      rw [Gzip.Fields.checkData, hc]
      rfl
    rw [hdata] at hb hexp
    refine parses_program 0 (by simp)
      (fun v hv => by
        rw [InflateState.caseHcrc, if_neg hnone] at hv
        cases hv)
      hwp hb hexp ?_ hdone
    rw [InflateState.caseHcrc, if_neg hnone]
    rfl
  | true =>
    have hsome : r.st.flags &&& 0x0200 ≠ 0 := hflag.mpr hc
    have hdata : f.checkData = leBytes (crc32 crc32InitialValue f.front) 2 := by
      rw [Gzip.Fields.checkData, hc]
      rfl
    rw [hdata] at hb hexp
    have hword : leNat (leBytes (crc32 crc32InitialValue f.front) 2) = r.st.check % 2 ^ 16 := by
      rw [leNat_leBytes, hpar.hash hc]
    refine parses_program 16 (by simp; omega)
      (by
        rw [InflateState.caseHcrc, if_pos hsome]
        simp only [needBits, hold, initBits, pure_eq, ret_bind, need_bind, whole_bind, empty_bind]
        exact runStream_word_none fun w u v => by
          simp only [runStream_ite, runStream]
          split <;> exact Option.some_ne_none _)
      hwp hb hexp ?_ hdone
    rw [InflateState.caseHcrc, if_pos hsome]
    simp only [needBits, hold, initBits, pure_eq, ret_bind, need_bind, whole_bind]
    rw [runStream_word (x := leBytes (crc32 crc32InitialValue f.front) 2) (by rw [length_leBytes]), hword,
      if_neg (fun hne => hne.2 rfl)]
    simp only [empty_bind]
    exact runStream_empty (by rw [length_leBytes]) _

/-- Where no bits are held, what is unread is bytes. -/
theorem unread_bytes (hbits : r.acc.bits = 0) (hb : r.acc.stream.append (ofBytes later) = ofBytes b) :
    bytesAt r.acc.mem r.acc.next r.acc.have_ ++ later = b := by
  apply ofBytes_inj
  rw [ofBytes_append, ← hb]
  congr 1
  ext
  · rw [BitReader.stream_val, hbits, ofBytes_val]
    have hlt := r.acc.lt
    rw [hbits] at hlt
    simp only [Nat.pow_zero, Nat.lt_one_iff] at hlt
    simp [hlt]
  · rw [BitReader.stream_len, hbits, ofBytes_len, length_bytesAt]
    omega

/-- Bytes are taken off the start of what is unread. -/
theorem advance_unread {n : Nat} {x y : List UInt8} (hbits : r.acc.bits = 0) (hn : n ≤ r.acc.have_)
    (h : bytesAt r.acc.mem r.acc.next r.acc.have_ ++ later = x ++ y) (hx : x.length = n) :
    bytesAt r.acc.mem r.acc.next n = x ∧
      (r.acc.advance n).stream.append (ofBytes later) = ofBytes y := by
  obtain ⟨m, hm⟩ := Nat.exists_eq_add_of_le hn
  rw [hm, bytesAt_add, List.append_assoc] at h
  obtain ⟨h1, h2⟩ := List.append_inj h (by rw [length_bytesAt, hx])
  refine ⟨h1, ?_⟩
  rw [← h2, ofBytes_append]
  congr 1
  have hlt := r.acc.lt
  rw [hbits] at hlt
  simp only [Nat.pow_zero, Nat.lt_one_iff] at hlt
  ext
  · rw [BitReader.stream_val, ofBytes_val]
    simp only [BitReader.advance, hbits, hlt, hm, Nat.add_sub_cancel_left]
    simp
  · rw [BitReader.stream_len, ofBytes_len, length_bytesAt]
    simp only [BitReader.advance, hbits, hm]
    omega

/-- More of the extra field is saved. -/
theorem saveExtra_parses {s : InflateState} {p q x : List UInt8} {e : List UInt8} (he : f.extra = some e)
    (hshort : e.length < 2 ^ 16) (hdata : f.extraData = p ++ q)
    (hhead : s.head = some (f.readExtra hd p)) (hlen : s.length = q.length)
    (hx : x.length ≤ q.length) :
    s.saveExtra x = { s with head := some (f.readExtra hd (p ++ x)) } := by
  have hesplit : e.length = p.length + q.length := by
    rw [← List.length_append, ← hdata, Gzip.Fields.extraData, he]
    rfl
  unfold InflateState.saveExtra InflateState.withHead
  simp only [hhead, Option.map_some, Gzip.Fields.readExtra, Gzip.Fields.readFixed, he, Option.bind_some,
    Option.elim_some]
  cases hbuf : hd.extra with
  | none => simp [saved]
  | some buf =>
    have hpos : (e.length + 2 ^ 32 - s.length) % 2 ^ 32 = p.length := by
      rw [show e.length + 2 ^ 32 - s.length = p.length + 2 ^ 32 by omega, Nat.add_mod_right]
      exact Nat.mod_eq_of_lt (by omega)
    have hend : (p.length + x.length) % 2 ^ 32 = p.length + x.length := Nat.mod_eq_of_lt (by omega)
    simp only [saved, Option.map_some, hpos, hend]
    split
    · next hroom =>
      have hp : p.take hd.extraMax = p := List.take_of_length_le (le_of_lt hroom)
      have hcut : x.take (if p.length + x.length > hd.extraMax then hd.extraMax - p.length else x.length) =
          x.take (hd.extraMax - p.length) := by
        split
        · rfl
        · next hfits => rw [List.take_of_length_le (show x.length ≤ hd.extraMax - p.length by omega), List.take_length]
      rw [hp, hcut, writeBytes_append, List.take_append, hp]
    · next hfull =>
      have hp : (p ++ x).take hd.extraMax = p.take hd.extraMax :=
        List.take_append_of_le_length (by simpa using hfull)
      rw [hp]

/-- The name begins. -/
theorem name_expects {s : InflateState} {b : List UInt8} (seen : List UInt8)
    (h : Parsing f rest s (f.readExtra hd f.extraData) seen b) (hm : s.mode = .name) (hl : s.length = 0)
    (hb : b = f.strings ++ rest) : Expects f hd rest s b := by
  have hhead : f.readName hd [] = f.readExtra hd f.extraData := by
    unfold Gzip.Fields.readName
    rw [saved_nil]
    rfl
  simp only [Expects, hm]
  refine ⟨seen, [], f.nameData, ?_, rfl, ?_, fun _ => rfl, ?_, ?_⟩
  · rw [hhead]
    exact h
  · intro hsome
    obtain ⟨n, hn⟩ := Option.isSome_iff_exists.mp hsome
    simp [Gzip.Fields.nameData, hn]
  · intro _
    rw [hl]
    simp
  · rw [hb, Gzip.Fields.strings]
    simp only [List.append_assoc]

theorem caseExtra_parses (h : r.Good past start) (hm : r.st.mode = .extra)
    (hr : r.Reads f hd rest later) (hextra : ∀ e, f.extra = some e → e.length < 2 ^ 16) : r.Parses f hd rest later r.caseExtra := by
  obtain ⟨b, hb, hexp⟩ := hr
  simp only [Expects, hm] at hexp
  obtain ⟨seen, p, q, hpar, hdata, hlen, rfl⟩ := hexp
  have hbits := h.bits
  simp only [InflateState.BitsOk, hm] at hbits
  have hflag := f.flagWord_fields.2.1
  rw [← hpar.flags] at hflag
  unfold caseExtra
  cases he : f.extra with
  | none =>
    have hnone : ¬ (r.st.flags &&& 0x0400 ≠ 0) := by
      rw [hflag, he]
      exact Bool.false_ne_true
    have hnil : f.extraData = [] := by rw [Gzip.Fields.extraData, he]; rfl
    obtain ⟨rfl, rfl⟩ : p = [] ∧ q = [] := by
      rw [hnil] at hdata
      exact List.nil_eq_append_iff.mp hdata
    rw [if_neg hnone]
    refine ⟨_, hb, name_expects seen ?_ rfl rfl rfl⟩
    rw [hnil]
    exact ⟨hpar.head, hpar.wrap, hpar.flags, hpar.hash, hpar.bytes⟩
  | some e =>
    have hsome : r.st.flags &&& 0x0400 ≠ 0 := by
      rw [hflag, he]
      rfl
    have hlen := hlen (by rw [he]; rfl)
    rw [if_pos hsome]
    dsimp only
    obtain ⟨copy, hcopy⟩ : ∃ n, n = min r.st.length r.acc.have_ := ⟨_, rfl⟩
    rw [← hcopy]
    have hunread := unread_bytes hbits hb
    obtain ⟨x, hx⟩ : ∃ x, x = q.take copy := ⟨_, rfl⟩
    have hxlen : x.length = copy := by
      rw [hx, List.length_take]
      omega
    have hxq : x.length ≤ q.length := by
      rw [hxlen]
      omega
    have hq : q = x ++ q.drop copy := by rw [hx, List.take_append_drop]
    rw [hq, List.append_assoc] at hunread
    obtain ⟨hbytes, hadvance⟩ := advance_unread hbits (by omega) hunread hxlen
    rw [hbytes]
    have hread : ∃ r₁ : Regs, (if copy ≠ 0 then
          { r with
            st := { (r.st.saveExtra x).headerCheck x with
              length := ((r.st.saveExtra x).headerCheck x).length - copy }
            acc := r.acc.advance copy }
        else r) = r₁ ∧
        Parsing f rest r₁.st (f.readExtra hd (p ++ x)) (seen ++ x) (q.drop copy ++ (f.strings ++ rest)) ∧
        r₁.st.length = (q.drop copy).length ∧ r₁.st.mode = .extra ∧
        r₁.acc.stream.append (ofBytes later) = ofBytes (q.drop copy ++ (f.strings ++ rest)) ∧
        r₁.acc.have_ = r.acc.have_ - copy ∧ r₁.acc.bits = 0 := by
      rw [hq, List.append_assoc] at hpar
      by_cases h0 : copy = 0
      · have hxnil : x = [] := by rw [← List.length_eq_zero_iff, hxlen, h0]
        rw [if_neg (not_not.mpr h0)]
        rw [hxnil, List.nil_append] at hpar
        rw [hxnil, List.append_nil, List.append_nil, h0, Nat.sub_zero]
        rw [h0] at hpar
        exact ⟨r, rfl, hpar, hlen, hm, hb, rfl, hbits⟩
      · rw [if_pos h0]
        refine ⟨_, rfl, ?_, ?_, ?_, hadvance, rfl, hbits⟩
        · have hsave := saveExtra_parses he (hextra e he) hdata hpar.head hlen hxq
          rw [hsave, InflateState.headerCheck_eq]
          exact parsing_field hpar (f.readExtra hd (p ++ x)) _ r.st.mode
        · have hsave := saveExtra_parses he (hextra e he) hdata hpar.head hlen hxq
          rw [hsave, InflateState.headerCheck_eq, List.length_drop]
          exact congrArg (· - copy) hlen
        · have hsave := saveExtra_parses he (hextra e he) hdata hpar.head hlen hxq
          rw [hsave, InflateState.headerCheck_eq]
          exact hm
    obtain ⟨r₁, hr₁, hpar₁, hlen₁, hm₁, hb₁, hhave₁, hbits₁⟩ := hread
    rw [hr₁]
    have hall : f.extraData = (p ++ x) ++ q.drop copy := by
      rw [List.append_assoc, ← hq]
      exact hdata
    split
    · next hmore =>
      rw [hlen₁, List.length_drop] at hmore
      have htotal := congrArg BitStream.len hb₁
      rw [append_len, ofBytes_len, ofBytes_len, BitReader.stream_len, hbits₁, List.length_append,
        List.length_append, List.length_drop] at htotal
      refine ⟨rfl, by omega, ⟨_, hb₁, ?_⟩, hm₁.trans hm.symm, by omega⟩
      simp only [Expects, hm₁]
      exact ⟨_, p ++ x, q.drop copy, hpar₁, hall, fun _ => hlen₁, rfl⟩
    · next hdone =>
      have hnil : q.drop copy = [] := by
        rw [← List.length_eq_zero_iff, ← hlen₁]
        exact not_not.mp hdone
      rw [hnil, List.append_nil] at hall
      rw [hnil, ← hall] at hpar₁
      rw [hnil] at hb₁
      exact ⟨_, hb₁, name_expects (seen ++ x)
        ⟨hpar₁.head, hpar₁.wrap, hpar₁.flags, hpar₁.hash, hpar₁.bytes⟩ rfl rfl rfl⟩

theorem takeString_of_not_mem {x : List UInt8} (h : 0 ∉ x) : takeString x = x := by
  induction x with
  | nil => rfl
  | cons a x ih =>
    rw [List.mem_cons, not_or] at h
    rw [takeString, if_neg (Ne.symm h.1), ih h.2]

theorem takeString_zero {x : List UInt8} (h : 0 ∉ x) (t : List UInt8) :
    takeString (x ++ 0 :: t) = x ++ [0] := by
  induction x with
  | nil => rfl
  | cons a x ih =>
    rw [List.mem_cons, not_or] at h
    rw [List.cons_append, takeString, if_neg (Ne.symm h.1), ih h.2]
    rfl

/-- A string is scanned as far as the input goes. -/
theorem scanString_parses {save : InflateState → UInt8 → InflateState}
    {next : InflateState → InflateState} {string tail : List UInt8} (hbits : r.acc.bits = 0)
    (hzero : 0 ∉ string) (htail : rest.length ≤ tail.length) (hr : Reads f hd rest later r)
    (hb : r.acc.stream.append (ofBytes later) = ofBytes (string ++ 0 :: tail))
    (hsome : ∀ x y, string ++ [0] = x ++ y → y ≠ [] →
      Expects f hd rest ((x.foldl save r.st).headerCheck x) (y ++ tail) ∧
        ((x.foldl save r.st).headerCheck x).mode = r.st.mode)
    (hall : Expects f hd rest
      (next (((string ++ [0]).foldl save r.st).headerCheck (string ++ [0]))) tail) :
    r.Parses f hd rest later (r.scanString save next) := by
  have hunread := unread_bytes hbits hb
  have hlen : (bytesAt r.acc.mem r.acc.next r.acc.have_).length = r.acc.have_ := length_bytesAt ..
  have hlater : r.acc.have_ ≤ string.length → rest.length < later.length := by
    intro hle
    have htotal := congrArg List.length hunread
    rw [List.length_append, List.length_append, List.length_cons, hlen] at htotal
    omega
  unfold scanString
  split
  · next hempty => exact ⟨rfl, hempty, hr, rfl, hlater (by omega)⟩
  · next hhave =>
    dsimp only
    by_cases hend : r.acc.have_ ≤ string.length
    · -- the zero is not in the input yet
      obtain ⟨x, hx⟩ : ∃ x, x = string.take r.acc.have_ := ⟨_, rfl⟩
      have hxlen : x.length = r.acc.have_ := by
        rw [hx, List.length_take]
        omega
      have hsplit : string = x ++ string.drop r.acc.have_ := by rw [hx, List.take_append_drop]
      have hunread' : bytesAt r.acc.mem r.acc.next r.acc.have_ ++ later =
          x ++ (string.drop r.acc.have_ ++ 0 :: tail) := by
        rw [hunread, ← List.append_assoc, ← hsplit]
      obtain ⟨hbytes, hadvance⟩ := advance_unread hbits le_rfl hunread' hxlen
      have hnot : 0 ∉ x := fun hmem => hzero (hsplit ▸ List.mem_append_left _ hmem)
      rw [hbytes, takeString_of_not_mem hnot, hxlen]
      have hlast : x.getLastD 0 ≠ 0 := by
        have hne : x ≠ [] := by
          rw [← List.length_pos_iff]
          omega
        rw [List.getLastD_eq_getLast?, List.getLast?_eq_some_getLast hne, Option.getD_some]
        exact fun h0 => hnot (h0 ▸ List.getLast_mem hne)
      rw [if_pos hlast]
      obtain ⟨hexp, hmode⟩ := hsome x (string.drop r.acc.have_ ++ [0])
        (by rw [← List.append_assoc, ← hsplit]) (by simp)
      rw [List.append_assoc] at hexp
      exact ⟨rfl, Nat.sub_self _, ⟨_, hadvance, hexp⟩, hmode, hlater hend⟩
    · -- the string ends in the input
      obtain ⟨t, ht⟩ : ∃ t, bytesAt r.acc.mem r.acc.next r.acc.have_ = string ++ 0 :: t := by
        rcases List.append_eq_append_iff.mp hunread with ⟨c, hc, -⟩ | ⟨c, hc, hc'⟩
        · have hshort := congrArg List.length hc
          rw [List.length_append, hlen] at hshort
          omega
        · cases c with
          | nil =>
            have hshort := congrArg List.length hc
            rw [List.append_nil, hlen] at hshort
            omega
          | cons a t =>
            obtain ⟨rfl, -⟩ := List.cons.inj hc'
            exact ⟨t, hc⟩
      have hunread' : bytesAt r.acc.mem r.acc.next r.acc.have_ ++ later = (string ++ [0]) ++ tail := by
        rw [hunread, List.append_assoc]
        rfl
      obtain ⟨-, hadvance⟩ := advance_unread (n := string.length + 1) hbits (by omega) hunread' (by simp)
      rw [ht, takeString_zero hzero]
      have hlast : ¬ ((string ++ [0]).getLastD 0 ≠ 0) := by simp
      rw [if_neg hlast, List.length_append, List.length_singleton]
      exact ⟨_, hadvance, hall⟩

/-- One more byte is saved, if there is room. -/
theorem saved_push (buf : Nat → UInt8) (max : Nat) (p : List UInt8) (c : UInt8) :
    saved (some buf) max (p ++ [c]) = if p.length < max then
      some (Function.update (writeBytes buf 0 (p.take max)) (min p.length max) c)
    else saved (some buf) max p := by
  unfold saved
  split
  · next hroom =>
    have hp : p.take max = p := List.take_of_length_le hroom.le
    have hall : (p ++ [c]).take max = p ++ [c] := by
      apply List.take_of_length_le
      rw [List.length_append, List.length_singleton]
      exact hroom
    rw [hp, min_eq_left hroom.le, update_eq_writeBytes, writeBytes_append, Option.map_some, hall]
  · next hfull => rw [List.take_append_of_le_length (not_lt.mp hfull)]

theorem saveName_parses {s : InflateState} {p : List UInt8} (c : UInt8)
    (hhead : s.head = some (f.readName hd p))
    (hl : hd.name.isSome = true → s.length = min p.length hd.nameMax) : ∃ l,
    s.saveName c = { s with head := some (f.readName hd (p ++ [c])), length := l } ∧
      (hd.name.isSome = true → l = min (p ++ [c]).length hd.nameMax) := by
  have hname : (f.readName hd p).name = saved hd.name hd.nameMax p := rfl
  have hmax : (f.readName hd p).nameMax = hd.nameMax := rfl
  have hsame : saved hd.name hd.nameMax (p ++ [c]) = saved hd.name hd.nameMax p →
      f.readName hd (p ++ [c]) = f.readName hd p := by
    intro h
    unfold Gzip.Fields.readName
    rw [h]
  unfold InflateState.saveName
  rw [hhead]
  dsimp only
  rw [hname, hmax]
  cases hbuf : hd.name with
  | none =>
    rw [hbuf] at hsame
    rw [hsame rfl, ← hhead]
    exact ⟨s.length, rfl, fun h => absurd h Bool.false_ne_true⟩
  | some buf =>
    have hlength := hl (by rw [hbuf]; rfl)
    have hpush := saved_push buf hd.nameMax p c
    rw [List.length_append, List.length_singleton]
    change ∃ l, (if s.length < hd.nameMax then _ else s) = _ ∧ _
    by_cases hroom : p.length < hd.nameMax
    · rw [if_pos hroom] at hpush
      rw [if_pos (by omega)]
      refine ⟨s.length + 1, ?_, fun _ => by omega⟩
      unfold Gzip.Fields.readName
      rw [hbuf, hpush, hlength]
      rfl
    · rw [if_neg hroom] at hpush
      rw [if_neg (by omega)]
      rw [hbuf] at hsame
      rw [hsame hpush, ← hhead]
      exact ⟨s.length, rfl, fun _ => by omega⟩

theorem foldl_saveName (x : List UInt8) {s : InflateState} {p : List UInt8}
    (hhead : s.head = some (f.readName hd p))
    (hl : hd.name.isSome = true → s.length = min p.length hd.nameMax) : ∃ l,
    x.foldl InflateState.saveName s = { s with head := some (f.readName hd (p ++ x)), length := l } ∧
      (hd.name.isSome = true → l = min (p ++ x).length hd.nameMax) := by
  induction x generalizing s p with
  | nil =>
    refine ⟨s.length, ?_, by rwa [List.append_nil]⟩
    rw [List.append_nil, ← hhead]
    rfl
  | cons c x ih =>
    obtain ⟨l, hs, hl'⟩ := saveName_parses c hhead hl
    obtain ⟨l', hfold, hl''⟩ := ih (s := { s with head := some (f.readName hd (p ++ [c])), length := l })
      rfl hl'
    refine ⟨l', ?_, ?_⟩
    · rw [List.foldl_cons, hs, hfold, List.append_assoc]
      rfl
    · rw [List.append_assoc] at hl''
      exact hl''

theorem saveComment_parses {s : InflateState} {p : List UInt8} (c : UInt8)
    (hhead : s.head = some (f.readComment hd p))
    (hl : hd.comment.isSome = true → s.length = min p.length hd.commMax) : ∃ l,
    s.saveComment c = { s with head := some (f.readComment hd (p ++ [c])), length := l } ∧
      (hd.comment.isSome = true → l = min (p ++ [c]).length hd.commMax) := by
  have hname : (f.readComment hd p).comment = saved hd.comment hd.commMax p := rfl
  have hmax : (f.readComment hd p).commMax = hd.commMax := rfl
  have hsame : saved hd.comment hd.commMax (p ++ [c]) = saved hd.comment hd.commMax p →
      f.readComment hd (p ++ [c]) = f.readComment hd p := by
    intro h
    unfold Gzip.Fields.readComment
    rw [h]
  unfold InflateState.saveComment
  rw [hhead]
  dsimp only
  rw [hname, hmax]
  cases hbuf : hd.comment with
  | none =>
    rw [hbuf] at hsame
    rw [hsame rfl, ← hhead]
    exact ⟨s.length, rfl, fun h => absurd h Bool.false_ne_true⟩
  | some buf =>
    have hlength := hl (by rw [hbuf]; rfl)
    have hpush := saved_push buf hd.commMax p c
    rw [List.length_append, List.length_singleton]
    change ∃ l, (if s.length < hd.commMax then _ else s) = _ ∧ _
    by_cases hroom : p.length < hd.commMax
    · rw [if_pos hroom] at hpush
      rw [if_pos (by omega)]
      refine ⟨s.length + 1, ?_, fun _ => by omega⟩
      unfold Gzip.Fields.readComment
      rw [hbuf, hpush, hlength]
      rfl
    · rw [if_neg hroom] at hpush
      rw [if_neg (by omega)]
      rw [hbuf] at hsame
      rw [hsame hpush, ← hhead]
      exact ⟨s.length, rfl, fun _ => by omega⟩

theorem foldl_saveComment (x : List UInt8) {s : InflateState} {p : List UInt8}
    (hhead : s.head = some (f.readComment hd p))
    (hl : hd.comment.isSome = true → s.length = min p.length hd.commMax) : ∃ l,
    x.foldl InflateState.saveComment s = { s with head := some (f.readComment hd (p ++ x)), length := l } ∧
      (hd.comment.isSome = true → l = min (p ++ x).length hd.commMax) := by
  induction x generalizing s p with
  | nil =>
    refine ⟨s.length, ?_, by rwa [List.append_nil]⟩
    rw [List.append_nil, ← hhead]
    rfl
  | cons c x ih =>
    obtain ⟨l, hs, hl'⟩ := saveComment_parses c hhead hl
    obtain ⟨l', hfold, hl''⟩ := ih (s := { s with head := some (f.readComment hd (p ++ [c])), length := l })
      rfl hl'
    refine ⟨l', ?_, ?_⟩
    · rw [List.foldl_cons, hs, hfold, List.append_assoc]
      rfl
    · rw [List.append_assoc] at hl''
      exact hl''

/-- The comment begins. -/
theorem comment_expects {s : InflateState} {b : List UInt8} (seen : List UInt8)
    (h : Parsing f rest s (f.readComment hd []) seen b) (hm : s.mode = .comment) (hl : s.length = 0)
    (hb : b = f.commentData ++ (f.checkData ++ rest)) : Expects f hd rest s b := by
  simp only [Expects, hm]
  refine ⟨seen, [], f.commentData, h, rfl, ?_, fun _ => rfl, ?_, hb⟩
  · intro hsome
    obtain ⟨n, hn⟩ := Option.isSome_iff_exists.mp hsome
    simp [Gzip.Fields.commentData, hn]
  · intro _
    rw [hl]
    simp

/-- What is left of a string ends in its zero. -/
theorem exists_left {n p q : List UInt8} (h : n ++ [0] = p ++ q) (hq : q ≠ []) :
    ∃ m, q = m ++ [0] ∧ n = p ++ m := by
  rcases List.append_eq_append_iff.mp h with ⟨c, hp, hc⟩ | ⟨c, hn, hc⟩
  · cases c with
    | nil => exact ⟨[], hc.symm, by rw [hp, List.append_nil, List.append_nil]⟩
    | cons a c =>
      obtain ⟨-, hnil⟩ := List.cons.inj hc
      exact absurd (List.nil_eq_append_iff.mp hnil).2 hq
  · exact ⟨c, hc, hn⟩

theorem caseName_parses (h : r.Good past start) (hm : r.st.mode = .name)
    (hr : r.Reads f hd rest later) (hzero : ∀ n, f.name = some n → 0 ∉ n) :
    r.Parses f hd rest later r.caseName := by
  have hr' := hr
  obtain ⟨b, hb, hexp⟩ := hr
  simp only [Expects, hm] at hexp
  obtain ⟨seen, p, q, hpar, hdata, hne, hnil, hl, rfl⟩ := hexp
  have hbits := h.bits
  simp only [InflateState.BitsOk, hm] at hbits
  have hflag := f.flagWord_fields.2.2.1
  rw [← hpar.flags] at hflag
  unfold caseName
  dsimp only
  cases hn : f.name with
  | none =>
    have hnone : ¬ (r.st.flags &&& 0x0800 ≠ 0) := by
      rw [hflag, hn]
      exact Bool.false_ne_true
    obtain rfl := hnil hn
    have hq : q = [] := by
      have hdata' : f.nameData = [] := by rw [Gzip.Fields.nameData, hn]; rfl
      rw [hdata', List.nil_append] at hdata
      exact hdata.symm
    subst hq
    rw [if_neg hnone]
    refine ⟨_, hb, comment_expects seen ⟨?_, hpar.wrap, hpar.flags, hpar.hash, hpar.bytes⟩ rfl rfl rfl⟩
    change r.st.head.map _ = _
    rw [hpar.head, Option.map_some]
    simp only [Gzip.Fields.readName, Gzip.Fields.readComment, hn, Option.bind_none, saved_nil]
    rfl
  | some n =>
    have hsome : r.st.flags &&& 0x0800 ≠ 0 := by
      rw [hflag, hn]
      rfl
    rw [if_pos hsome]
    have hdata' : f.nameData = n ++ [0] := by rw [Gzip.Fields.nameData, hn]; rfl
    obtain ⟨m, rfl, hm'⟩ := exists_left (hdata'.symm.trans hdata) (hne (by rw [hn]; rfl))
    have hnot : 0 ∉ m := fun hmem => hzero n hn (hm' ▸ List.mem_append_right _ hmem)
    have hb' := hb
    rw [List.append_assoc] at hb'
    have htail : rest.length ≤ (f.commentData ++ (f.checkData ++ rest)).length := by
      rw [List.length_append, List.length_append]
      omega
    refine scanString_parses hbits hnot htail hr' hb' (fun x y hxy hy => ?_) ?_
    · obtain ⟨l, hfold, hl'⟩ := foldl_saveName x hpar.head hl
      rw [hxy, List.append_assoc] at hpar
      rw [hfold, InflateState.headerCheck_eq]
      refine ⟨?_, rfl⟩
      simp only [Expects, hm]
      refine ⟨seen ++ x, p ++ x, y, parsing_field hpar _ l .name, ?_, fun _ => hy, ?_, hl', rfl⟩
      · rw [hdata, hxy, List.append_assoc]
      · rw [hn]
        exact fun h => absurd h (Option.some_ne_none _)
    · obtain ⟨l, hfold, -⟩ := foldl_saveName (m ++ [0]) hpar.head hl
      rw [hfold, InflateState.headerCheck_eq, ← hdata]
      have hhead : f.readComment hd [] = f.readName hd f.nameData := by
        simp only [Gzip.Fields.readName, Gzip.Fields.readComment, hn, Option.bind_some, saved_nil]
        rfl
      refine comment_expects (seen ++ (m ++ [0])) ?_ rfl rfl rfl
      rw [hhead]
      exact parsing_field hpar _ 0 .comment

theorem caseComment_parses (h : r.Good past start) (hm : r.st.mode = .comment)
    (hr : r.Reads f hd rest later) (hzero : ∀ n, f.comment = some n → 0 ∉ n) :
    r.Parses f hd rest later r.caseComment := by
  have hr' := hr
  obtain ⟨b, hb, hexp⟩ := hr
  simp only [Expects, hm] at hexp
  obtain ⟨seen, p, q, hpar, hdata, hne, hnil, hl, rfl⟩ := hexp
  have hbits := h.bits
  simp only [InflateState.BitsOk, hm] at hbits
  have hflag := f.flagWord_fields.2.2.2
  rw [← hpar.flags] at hflag
  -- the header is read but for its check value
  have hend : ∀ {s : InflateState} (seen : List UInt8),
      Parsing f rest s { f.restore hd with hcrc := hd.hcrc, done := 0 } seen (f.checkData ++ rest) →
      s.mode = .hcrc → Expects f hd rest s (f.checkData ++ rest) := by
    intro s seen hp hs
    have hseen : seen = f.front := by
      have hbytes := hp.bytes
      rw [Gzip.Fields.bytes, List.append_assoc] at hbytes
      exact List.append_cancel_right hbytes
    rw [hseen] at hp
    simp only [Expects, hs]
    exact ⟨hp, trivial⟩
  unfold caseComment
  dsimp only
  cases hn : f.comment with
  | none =>
    have hnone : ¬ (r.st.flags &&& 0x1000 ≠ 0) := by
      rw [hflag, hn]
      exact Bool.false_ne_true
    obtain rfl := hnil hn
    have hq : q = [] := by
      have hdata' : f.commentData = [] := by rw [Gzip.Fields.commentData, hn]; rfl
      rw [hdata', List.nil_append] at hdata
      exact hdata.symm
    subst hq
    rw [if_neg hnone]
    refine ⟨_, hb, hend seen ⟨?_, hpar.wrap, hpar.flags, hpar.hash, hpar.bytes⟩ rfl⟩
    change r.st.head.map _ = _
    rw [hpar.head, Option.map_some]
    simp only [Gzip.Fields.restore, Gzip.Fields.readComment, hn, Option.bind_none]
    rfl
  | some n =>
    have hsome : r.st.flags &&& 0x1000 ≠ 0 := by
      rw [hflag, hn]
      rfl
    rw [if_pos hsome]
    have hdata' : f.commentData = n ++ [0] := by rw [Gzip.Fields.commentData, hn]; rfl
    obtain ⟨m, rfl, hm'⟩ := exists_left (hdata'.symm.trans hdata) (hne (by rw [hn]; rfl))
    have hnot : 0 ∉ m := fun hmem => hzero n hn (hm' ▸ List.mem_append_right _ hmem)
    have hb' := hb
    rw [List.append_assoc] at hb'
    have htail : rest.length ≤ (f.checkData ++ rest).length := by
      rw [List.length_append]
      omega
    refine scanString_parses hbits hnot htail hr' hb' (fun x y hxy hy => ?_) ?_
    · obtain ⟨l, hfold, hl'⟩ := foldl_saveComment x hpar.head hl
      rw [hxy, List.append_assoc] at hpar
      rw [hfold, InflateState.headerCheck_eq]
      refine ⟨?_, rfl⟩
      simp only [Expects, hm]
      refine ⟨seen ++ x, p ++ x, y, parsing_field hpar _ l .comment, ?_, fun _ => hy, ?_, hl', rfl⟩
      · rw [hdata, hxy, List.append_assoc]
      · rw [hn]
        exact fun h => absurd h (Option.some_ne_none _)
    · obtain ⟨l, hfold, -⟩ := foldl_saveComment (m ++ [0]) hpar.head hl
      rw [hfold, InflateState.headerCheck_eq, ← hdata]
      have hhead : { f.restore hd with hcrc := hd.hcrc, done := 0 } = f.readComment hd f.commentData := by
        simp only [Gzip.Fields.restore, Gzip.Fields.readComment, hn, Option.bind_some]
        rfl
      refine hend (seen ++ (m ++ [0])) ?_ rfl
      rw [hhead]
      exact parsing_field hpar _ l .hcrc

/-- A pass in the header. -/
theorem step_parses (flush : Flush) (hf : f.Ok) (h : r.Good past start) (hr : r.Reads f hd rest later)
    (hm : r.st.mode.inHeader = true) : r.Parses f hd rest later (r.step flush) := by
  have hexp : ∀ {m}, r.st.mode = m → m = .dictid ∨ m = .dict → False := by
    intro m hm hm'
    obtain ⟨b, -, hexp⟩ := hr
    rcases hm' with rfl | rfl <;> simp only [Expects, hm] at hexp
  unfold step
  cases hmode : r.st.mode <;> rw [hmode] at hm <;> try cases hm
  case head => exact caseHead_parses h hmode hr
  case flags => exact caseFlags_parses h hmode hr
  case time => exact caseTime_parses h hmode hr hf.time
  case os => exact caseOs_parses h hmode hr hf.xflags hf.os
  case exlen => exact caseExlen_parses h hmode hr hf.extra
  case extra => exact caseExtra_parses h hmode hr hf.extra
  case name => exact caseName_parses h hmode hr hf.name
  case comment => exact caseComment_parses h hmode hr hf.comment
  case hcrc => exact caseHcrc_parses h hmode hr
  case dictid => exact (hexp hmode (.inl rfl)).elim
  case dict => exact (hexp hmode (.inr rfl)).elim

end Regs
end ZlibNg
