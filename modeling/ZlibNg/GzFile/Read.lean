import Mathlib
import ZlibNg.GzFile.Seek

/-! Reading a gzip file: the loops of `gz_fetch`, `gz_skip`, `gz_read` and `gzgets`, and
`gzungetc`. The bytes of the output buffer are a list, for where they lie in it decides nothing.
A loop calls itself by `apply`, which keeps the place of the call out of the term. -/
namespace ZlibNg

def zStreamEnd : Int := 1
def zNeedDict : Int := 2
def zErrno : Int := -1
def zStreamError : Int := -2
def zDataError : Int := -3
def zMemError : Int := -4

/-- The result of `inflate`. -/
structure Inflated (φ : Type) where
  ret : Int
  out : List UInt8
  input : List UInt8
  env : φ

/-- The calls that reading rests on; `φ` holds the file and the inflate stream. `read` returns
`none` on an error and no bytes at the end, and `bufferAlloc` whether there is memory. -/
structure GzCalls (φ : Type) where
  read : φ → Nat → Option (List UInt8) × φ
  inflate : φ → List UInt8 → Nat → Inflated φ
  inflateReset : φ → φ
  bufferAlloc : φ → Bool
  inflateInit2 : φ → Int × φ

/-- What `gz_fetch` reads and sets of `gz_state`. The size is 0 until the buffers are there, and
`gzbuffer` keeps the one that is wanted at 8 bytes or more. -/
structure GzSource (φ : Type) where
  how : GzHow
  eof : Bool
  err : Int
  input : List UInt8
  direct : Int
  size : Nat
  want : Nat
  env : φ
  want_le : 8 ≤ want
  size_want : size = 0 ∨ size = want

/-- Whether a call succeeded, and what it put into the output buffer. -/
structure Fetched (φ : Type) where
  ok : Bool
  avail : List UInt8
  src : GzSource φ

/-- `gz_skip`: what is left of the output buffer and of the request. -/
structure Skipped (φ : Type) where
  ok : Bool
  avail : List UInt8
  left : Nat
  src : GzSource φ

/-- A loop that copies bytes to the caller, and whether it ran past the end. -/
structure Reading (φ : Type) where
  ok : Bool
  bytes : List UInt8
  avail : List UInt8
  past : Bool
  src : GzSource φ

/-- Some bytes before the others. -/
def Reading.prepend {φ : Type} (bytes : List UInt8) (r : Reading φ) : Reading φ :=
  { r with bytes := bytes ++ r.bytes }

namespace GzSource
variable {φ : Type} (io : GzCalls φ)

/-- No serious error. -/
def Fine (s : GzSource φ) : Prop := s.err = zOk ∨ s.err = zBufError

instance (s : GzSource φ) : Decidable s.Fine := inferInstanceAs (Decidable (_ ∨ _))

/-- All input is used. -/
def AtEnd (s : GzSource φ) : Prop := s.eof = true ∧ s.input = []

instance (s : GzSource φ) : Decidable s.AtEnd := inferInstanceAs (Decidable (_ ∧ _))

/-- `gz_load`, with `got` bytes loaded before. -/
def gzLoad (len : Nat) (s : GzSource φ) (got : List UInt8) : Option (Fetched φ) :=
  match io.read s.env (len - got.length) with
  | (none, env) => some ⟨false, [], { s with env, err := zErrno }⟩
  | (some [], env) => some ⟨true, got, { s with env, eof := true }⟩
  | (some (b :: bs), env) =>
    if (got ++ b :: bs).length < len then
      (by apply gzLoad : Nat → GzSource φ → List UInt8 → _) len { s with env } (got ++ b :: bs)
    else some ⟨true, got ++ b :: bs, { s with env }⟩
partial_fixpoint

/-- `gz_avail`. -/
def gzAvail (s : GzSource φ) : Option (Fetched φ) :=
  if ¬ s.Fine then some ⟨false, [], s⟩
  else if s.eof then some ⟨true, [], s⟩
  else do
    let f ← gzLoad io (s.size - s.input.length) s []
    if f.ok then return ⟨true, [], { f.src with input := s.input ++ f.avail }⟩ else return f

/-- What `gz_look` and `gz_decomp` do to have `n` bytes of input. -/
def gzNeed (n : Nat) (s : GzSource φ) : Option (Fetched φ) :=
  if s.input.length < n then gzAvail io s else some ⟨true, [], s⟩

/-- `gz_look` with memory allocated. -/
def lookMagic (s : GzSource φ) : Option (Fetched φ) :=
  if s.direct = -1 then
    some ⟨true, [], { s with how := .gzip, direct := 0, env := io.inflateReset s.env }⟩
  else do
    let f ← gzNeed io 2 s
    let s := f.src
    if f.ok = false then return f
    else if s.input = [] then return f
    else if s.input.take 2 = [31, 139] then
      return ⟨true, [], { s with how := .gzip, direct := 0, env := io.inflateReset s.env }⟩
    else if s.direct = 0 then
      -- trailing garbage
      return ⟨true, [], { s with input := [], eof := true }⟩
    else return ⟨true, s.input, { s with input := [], how := .copy, direct := 1 }⟩

/-- `gz_read_init`. -/
def gzReadInit (s : GzSource φ) : Fetched φ :=
  if io.bufferAlloc s.env = false then ⟨false, [], { s with err := zMemError }⟩
  else
    let (ret, env) := io.inflateInit2 s.env
    if ret ≠ zOk then
      ⟨false, [], { s with env, err := if ret = zMemError then zMemError else zStreamError }⟩
    else ⟨true, [], { s with env, size := s.want, size_want := .inr rfl }⟩

/-- `gz_look`. -/
def gzLook (s : GzSource φ) : Option (Fetched φ) :=
  if s.size = 0 then
    let f := gzReadInit io s
    if f.ok = false then some f else lookMagic io f.src
  else lookMagic io s

/-- `gz_decomp` into `availOut` bytes, with `out` decompressed before. -/
def gzDecomp (availOut : Nat) (s : GzSource φ) (out : List UInt8) : Option (Fetched φ) := do
  let f ← gzNeed io 1 s
  if f.ok = false then return f
  else if f.src.input = [] then return ⟨true, out, { f.src with err := zBufError }⟩
  else
    let r := io.inflate f.src.env f.src.input availOut
    let s := { f.src with input := r.input, env := r.env }
    if r.ret = zStreamError ∨ r.ret = zNeedDict then
      return ⟨false, [], { s with err := zStreamError }⟩
    else if r.ret = zMemError then return ⟨false, [], { s with err := zMemError }⟩
    else if r.ret = zDataError then return ⟨false, [], { s with err := zDataError }⟩
    else if availOut - r.out.length ≠ 0 ∧ r.ret ≠ zStreamEnd then
      (by apply gzDecomp : Nat → GzSource φ → List UInt8 → _) (availOut - r.out.length) s
        (out ++ r.out)
    else
      return ⟨true, out ++ r.out, if r.ret = zStreamEnd then { s with how := .look } else s⟩
partial_fixpoint

/-- `gz_fetch`. -/
def gzFetch (s : GzSource φ) : Option (Fetched φ) :=
  match s.how with
  | .look => do
    let f ← gzLook io s
    if f.ok = false ∨ f.src.how = .look then return f
    else if f.avail = [] ∧ ¬ f.src.AtEnd then (by apply gzFetch : GzSource φ → _) f.src
    else return f
  | .copy => gzLoad io (2 * s.size) s []
  | .gzip => do
    let f ← gzDecomp io (2 * s.size) s []
    if f.ok = false then return f
    else if f.avail = [] ∧ ¬ f.src.AtEnd then (by apply gzFetch : GzSource φ → _) f.src
    else return f
partial_fixpoint

/-- Data directly into the buffer of the caller. -/
def gzDirect (len : Nat) (s : GzSource φ) : Option (Fetched φ) :=
  if s.how = .copy then gzLoad io len s [] else gzDecomp io len s []

/-- Data in the output buffer: what is there, or what is fetched. -/
def gzFill (s : GzSource φ) (avail : List UInt8) : Option (Fetched φ) :=
  if avail = [] then gzFetch io s else some ⟨true, avail, s⟩

/-- `gz_skip`, where bytes are left to be skipped. -/
def gzSkip (s : GzSource φ) (avail : List UInt8) (skip : Nat) : Option (Skipped φ) :=
  if avail ≠ [] then
    if skip - min avail.length skip = 0 then
      some ⟨true, avail.drop (min avail.length skip), 0, s⟩
    else
      (by apply gzSkip : GzSource φ → List UInt8 → Nat → _) s (avail.drop (min avail.length skip))
        (skip - min avail.length skip)
  else if s.AtEnd then some ⟨true, [], skip, s⟩
  else do
    let f ← gzFetch io s
    if f.ok then (by apply gzSkip : GzSource φ → List UInt8 → Nat → _) f.src f.avail skip
    else return ⟨false, [], skip, f.src⟩
partial_fixpoint

/-- The loop of `gz_read`. -/
def readLoop (s : GzSource φ) (avail : List UInt8) (len : Nat) : Option (Reading φ) :=
  if len = 0 then some ⟨true, [], avail, false, s⟩
  else if avail ≠ [] then do
    let r ← (by apply readLoop : GzSource φ → List UInt8 → Nat → Option (Reading φ)) s
      (avail.drop (min avail.length len)) (len - min avail.length len)
    return r.prepend (avail.take (min avail.length len))
  else if s.AtEnd then some ⟨true, [], [], true, s⟩
  else if s.how = .look ∨ len < 2 * s.size then do
    let f ← gzFetch io s
    if f.ok then
      (by apply readLoop : GzSource φ → List UInt8 → Nat → Option (Reading φ)) f.src f.avail len
    else return ⟨false, [], [], false, f.src⟩
  else do
    let f ← gzDirect io len s
    if f.ok then do
      let r ← (by apply readLoop : GzSource φ → List UInt8 → Nat → Option (Reading φ)) f.src []
        (len - f.avail.length)
      return r.prepend f.avail
    else return ⟨false, [], [], false, f.src⟩
partial_fixpoint

/-- The loop of `gzgets`. -/
def getsLoop (s : GzSource φ) (avail : List UInt8) (left : Nat) : Option (Reading φ) :=
  if left = 0 then some ⟨true, [], avail, false, s⟩
  else do
    let f ← gzFill io s avail
    if f.ok = false then return ⟨false, [], [], false, f.src⟩
    else if f.avail = [] then return ⟨true, [], [], true, f.src⟩
    else
      match (f.avail.take (min f.avail.length left)).findIdx? (· = 10) with
      | some i => return ⟨true, f.avail.take (i + 1), f.avail.drop (i + 1), false, f.src⟩
      | none => do
        let r ← (by apply getsLoop : GzSource φ → List UInt8 → Nat → Option (Reading φ)) f.src
          (f.avail.drop (min f.avail.length left)) (left - min f.avail.length left)
        return r.prepend (f.avail.take (min f.avail.length left))
partial_fixpoint

end GzSource

/-- A file open for reading: `avail` is the `x.have` bytes at `x.next`. A request to skip is never
negative. -/
structure GzReader (φ : Type) where
  src : GzSource φ
  avail : List UInt8
  pos : Int64
  past : Bool
  skip : Nat

/-- No note of a read past the end. -/
def GzReader.clearPast {φ : Type} (s : GzReader φ) : GzReader φ := { s with past := false }

/-- The bytes copied to the caller. They are not returned where the call fails after them. -/
structure Delivery (φ : Type) where
  ok : Bool
  bytes : List UInt8
  state : GzReader φ

namespace Delivery
variable {φ : Type}

def returned (r : Delivery φ) : List UInt8 := if r.ok then r.bytes else []

/-- One byte before the others. -/
def prepend (b : UInt8) (r : Delivery φ) : Delivery φ := { r with bytes := b :: r.bytes }

def clearPast (r : Delivery φ) : Delivery φ := { r with state := r.state.clearPast }

/-- How `gzread` returns. -/
def count (r : Delivery φ) : Option (List UInt8) × GzReader φ :=
  (if r.returned = [] ∧ ¬ r.state.src.Fine then none else some r.returned, r.state)

/-- How `gzgets` returns. -/
def line (r : Delivery φ) : Option (List UInt8) × GzReader φ :=
  (if r.returned = [] then none else some r.returned, r.state)

end Delivery

namespace GzReader
variable {φ : Type} (io : GzCalls φ)

/-- `gztell`. -/
def gztell (s : GzReader φ) : Int64 := s.pos + if s.past then 0 else Int64.ofNat s.skip

/-- `gz_skip`, where it is called for a request. -/
def complete (s : GzReader φ) : Option (Bool × GzReader φ) :=
  if s.skip = 0 then some (true, s)
  else do
    let r ← s.src.gzSkip io s.avail s.skip
    return (r.ok, { s with
      src := r.src, avail := r.avail, skip := r.left, pos := s.pos + Int64.ofNat (s.skip - r.left) })

/-- The state after a loop that reads. -/
def after (s : GzReader φ) (r : Reading φ) : GzReader φ :=
  { s with
    src := r.src, avail := r.avail, past := s.past || r.past, pos := s.pos + Int64.ofNat r.bytes.length }

/-- `gz_read`. -/
def gzRead (s : GzReader φ) (len : Nat) : Option (Delivery φ) :=
  if len = 0 then some ⟨true, [], s⟩
  else do
    let (ok, s) ← s.complete io
    if ok then
      let r ← s.src.readLoop io s.avail len
      return ⟨r.ok, r.bytes, s.after r⟩
    else return ⟨false, [], s⟩

/-- `gzread`: `none` for -1. -/
def gzread (s : GzReader φ) (len : Nat) : Option (Option (List UInt8) × GzReader φ) :=
  if ¬ s.src.Fine then some (none, s)
  else if 2 ^ 31 ≤ len then
    some (none, { s with src := { s.src with err := zStreamError }, avail := [] })
  else (s.gzRead io len).map Delivery.count

/-- `gzgetc`. -/
def gzgetc (s : GzReader φ) : Option (Int × GzReader φ) :=
  if ¬ s.src.Fine then some (-1, s)
  else match s.avail with
    | b :: avail => some (b.toNat, { s with avail, pos := s.pos + 1 })
    | [] => (s.gzRead io 1).map fun r =>
      (match r.returned with
        | [] => -1
        | b :: _ => b.toNat, r.state)

/-- `gzgets` past its checks, for a buffer of `left` bytes and the terminating zero. -/
def gzGets (s : GzReader φ) (left : Nat) : Option (Delivery φ) := do
  let (ok, s) ← s.complete io
  if ok then
    let r ← s.src.getsLoop io s.avail left
    return ⟨r.ok, r.bytes, s.after r⟩
  else return ⟨false, [], s⟩

/-- `gzgets`: `none` for `NULL`. -/
def gzgets (s : GzReader φ) (len : Nat) : Option (Option (List UInt8) × GzReader φ) :=
  if len < 1 then some (none, s)
  else if ¬ s.src.Fine then some (none, s)
  else (s.gzGets io (len - 1)).map Delivery.line

/-- What `gzungetc` does first: the input buffer of a file just opened is set up. -/
def look (s : GzReader φ) : Option (GzReader φ) :=
  if s.src.how = .look ∧ s.avail = [] then do
    let f ← s.src.gzLook io
    return { s with src := f.src, avail := f.avail }
  else some s

/-- The byte pushed before the data. -/
def push (c : UInt8) (s : GzReader φ) : GzReader φ :=
  { s with avail := c :: s.avail, pos := s.pos - 1, past := false }

/-- `gzungetc`. -/
def gzungetc (s : GzReader φ) (c : Int) : Option (Int × GzReader φ) := do
  let s ← s.look io
  if ¬ s.src.Fine then return (-1, s)
  else
    let (ok, s) ← s.complete io
    if ok = false then return (-1, s)
    -- can't push EOF
    else if c < 0 then return (-1, s)
    else if s.avail = [] then return (c, s.push (UInt8.ofNat c.toNat))
    else if s.avail.length = 2 * s.src.size then
      return (-1, { s with src := { s.src with err := zDataError }, avail := [] })
    else return (c, s.push (UInt8.ofNat c.toNat))

/-- The state as `gzseek` sees it; the data starts at `start` in the file. -/
def toState (start : Int64) (s : GzReader φ) : GzState φ where
  mode := .read
  how := s.src.how
  avail := s.avail
  next := 0
  pos := s.pos
  start := start
  eof := s.src.eof
  past := s.past
  reset := false
  skip := Int64.ofNat s.skip
  err := s.src.err
  input := s.src.input
  fd := s.src.env
  past_read _ := rfl

/-- `gzseek` of a file open for reading. -/
def gzseek (lseek : φ → Int64 → Int → Option φ) (start : Int64) (s : GzReader φ)
    (offset : Int64) (whence : Int) : Int64 × GzReader φ :=
  let r := GzState.gzseek lseek (s.toState start) offset whence
  (r.ret,
    { src := { s.src with
        how := r.state.how, eof := r.state.eof, err := r.state.err, input := r.state.input
        env := r.state.fd }
      avail := r.state.avail
      pos := r.state.pos
      past := r.state.past
      skip := r.state.skip.toInt.toNat })

end GzReader

namespace GzState
variable {φ : Type} {lseek : φ → Int64 → Int → Option φ} {s : GzState φ}

/-- A request to skip is what the buffer does not hold of the way. -/
theorem requestSkip_skip {offset : Int64} (h : 0 ≤ offset) (hread : s.mode = .read) :
    (requestSkip s offset).state.skip.toInt = offset.toInt - min offset.toInt s.avail.length ∧
      (requestSkip s offset).state.avail = s.avail.drop offset.toInt.toNat := by
  have hpos : 0 ≤ offset.toInt := Int64.le_iff_toInt_le.mp h
  have hlt := offset.toInt_lt
  have hsub (n : Nat) (hle : (n : Int) ≤ offset.toInt) :
      (offset - Int64.ofNat n).toInt = offset.toInt - n := by
    have hn : (Int64.ofNat n).toInt = n := Int64.toInt_ofNat_of_lt (by omega)
    rw [Int64.toInt_sub, hn, Int.bmod_eq_of_le (by omega) (by omega)]
  simp only [requestSkip, if_pos hread]
  split
  · next hmore => exact ⟨by rw [hsub _ (by omega)]; omega, rfl⟩
  · next hless =>
    refine ⟨by rw [hsub _ (by omega)]; omega, ?_⟩
    rw [List.drop_length, List.drop_of_length_le (by omega)]

/-- After `gzseek` the request to skip is the former one, or there is none, or it goes on behind the
buffer: it is never negative, and it is pending with data in the buffer only if it was before. -/
theorem gzseek_skip (hread : s.mode = .read) (hskip : 0 ≤ s.skip) (offset : Int64) (whence : Int) :
    0 ≤ (gzseek lseek s offset whence).state.skip ∧
      (s.skip = 0 ∨ s.avail = [] → (gzseek lseek s offset whence).state.skip = 0 ∨
        (gzseek lseek s offset whence).state.avail = []) := by
  have hkeep : 0 ≤ s.skip ∧ (s.skip = 0 ∨ s.avail = [] → s.skip = 0 ∨ s.avail = []) := ⟨hskip, id⟩
  have hdrop : 0 ≤ (dropSkip whence s).skip ∧ (s.skip = 0 ∨ s.avail = [] →
      (dropSkip whence s).skip = 0 ∨ (dropSkip whence s).avail = []) := by
    unfold dropSkip
    split
    · exact hkeep
    · exact ⟨Int64.le_refl 0, fun _ => .inl rfl⟩
  have hrequest (t : GzState φ) {n : Int64} (ht : t.mode = .read) (hpos : 0 ≤ n) :
      0 ≤ (requestSkip t n).state.skip ∧ (s.skip = 0 ∨ s.avail = [] →
        (requestSkip t n).state.skip = 0 ∨ (requestSkip t n).state.avail = []) := by
    obtain ⟨hleft, hrest⟩ := requestSkip_skip hpos ht
    have hn : 0 ≤ n.toInt := Int64.le_iff_toInt_le.mp hpos
    refine ⟨Int64.le_iff_toInt_le.mpr (by rw [hleft, Int64.toInt_zero]; omega), fun _ => ?_⟩
    by_cases hlen : n.toInt ≤ t.avail.length
    · left
      rw [← Int64.toInt_inj, hleft, Int64.toInt_zero]
      omega
    · right
      rw [hrest, List.drop_of_length_le (by omega)]
  have hmode : (dropSkip whence s).mode = .read := by
    rw [(dropSkip_fields whence s).1, hread]
  unfold gzseek
  split
  · exact hkeep
  · split
    · exact hkeep
    · split
      · exact hkeep
      · dsimp only
        split
        · split
          · exact hdrop
          · exact ⟨Int64.le_refl 0, fun _ => .inl rfl⟩
        · split
          · split
            · exact hdrop
            · split
              · exact hdrop
              · next hstart =>
                split
                · unfold gzrewind
                  split
                  · exact hdrop
                  · split
                    · exact hdrop
                    · exact ⟨Int64.le_refl 0, fun _ => .inl rfl⟩
                · refine hrequest _ ?_ (Int64.not_lt.mp hstart)
                  unfold gzrewind
                  split
                  · exact hmode
                  · split
                    · exact hmode
                    · simp [gzReset, gzError, hmode]
          · next hneg => exact hrequest _ hmode (Int64.not_lt.mp hneg)

end GzState

end ZlibNg
