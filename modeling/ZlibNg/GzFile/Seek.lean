import Mathlib.Data.List.Basic
import Mathlib.Tactic.Common

/-! Positions in a gzip file: the pending seek, and what a refused seek leaves behind. -/
namespace ZlibNg

inductive GzMode where
  | none | read | write | append
  deriving DecidableEq

inductive GzHow where
  | look | copy | gzip
  deriving DecidableEq

def zOk : Int := 0
def zBufError : Int := -5
def seekSet : Int := 0
def seekCur : Int := 1

/-- `gz_state`, as far as positions go: `avail` is the `x.have` bytes at `x.next`, `next` the
offset of `x.next` in the output buffer, `input` the `strm.avail_in` bytes of input, and `fd` the
file behind the descriptor. Positions are a `z_off64_t`: their sums wrap at 64 bits. -/
structure GzState (φ : Type) where
  mode : GzMode
  how : GzHow
  avail : List UInt8
  next : Nat
  pos : Int64
  start : Int64
  eof : Bool
  past : Bool
  reset : Bool
  skip : Int64
  err : Int
  input : List UInt8
  fd : φ
  /-- Only reading runs past the end. -/
  past_read : past = true → mode = .read

namespace GzState
variable {φ : Type}

/-- `gz_error` without a message. -/
def gzError (err : Int) (s : GzState φ) : GzState φ :=
  { s with err, avail := if err ≠ zOk ∧ err ≠ zBufError then [] else s.avail }

/-- `gz_reset`. -/
def gzReset (s : GzState φ) : GzState φ :=
  let s : GzState φ := { s with avail := [] }
  let s : GzState φ :=
    if s.mode = .read then
      { s with eof := false, past := false, how := .look, past_read := fun h => by cases h }
    else { s with reset := false }
  let s : GzState φ := gzError zOk { s with skip := 0 }
  { s with pos := 0, input := [] }

/-- `gztell`. -/
def gztell (s : GzState φ) : Int64 :=
  if s.mode ≠ .read ∧ s.mode ≠ .write then -1
  else s.pos + if s.past then 0 else s.skip

/-- `gzclearerr`. -/
def gzclearerr (s : GzState φ) : GzState φ :=
  if s.mode ≠ .read ∧ s.mode ≠ .write then s
  else if s.mode = .read then
    gzError zOk { s with eof := false, past := false, past_read := fun h => by cases h }
  else gzError zOk s

/-- The result of `gzseek` or `gzrewind`, and whether `lseek` failed on the way. -/
structure Seek (φ : Type) where
  ret : Int64
  lseekFailed : Bool
  state : GzState φ

section Code
variable (lseek : φ → Int64 → Int → Option φ)

/-- `gzrewind`. -/
def gzrewind (s : GzState φ) : Seek φ :=
  if s.mode ≠ .read ∨ (s.err ≠ zOk ∧ s.err ≠ zBufError) then ⟨-1, false, s⟩
  else match lseek s.fd s.start seekSet with
    | none => ⟨-1, true, s⟩
    | some fd => ⟨0, false, gzReset { s with fd }⟩

/-- The offset from the current position: the pending seek counts unless it ran past the end. -/
def normalize (s : GzState φ) (offset : Int64) (whence : Int) : Int64 :=
  if whence = seekSet then offset - s.pos else offset + if s.past then 0 else s.skip

/-- For a relative target the pending seek is part of the offset from here on. -/
def dropSkip (whence : Int) (s : GzState φ) : GzState φ :=
  if whence = seekSet then s else { s with skip := 0 }

/-- The rest of `gzseek` for a target at or after the position: what is in the output buffer is
skipped while reading, and the rest is requested. -/
def requestSkip (s : GzState φ) (offset : Int64) : Seek φ :=
  let n : Nat :=
    if s.mode = .read then
      if (s.avail.length : Int) > offset.toInt then offset.toInt.toNat else s.avail.length
    else 0
  let s : GzState φ :=
    { s with avail := s.avail.drop n, next := s.next + n, pos := s.pos + Int64.ofNat n }
  let offset := offset - Int64.ofNat n
  ⟨s.pos + offset, false, { s with skip := offset }⟩

/-- `gzseek`. -/
def gzseek (s : GzState φ) (offset : Int64) (whence : Int) : Seek φ :=
  if s.mode ≠ .read ∧ s.mode ≠ .write then ⟨-1, false, s⟩
  else if s.err ≠ zOk ∧ s.err ≠ zBufError then ⟨-1, false, s⟩
  else if whence ≠ seekSet ∧ whence ≠ seekCur then ⟨-1, false, s⟩
  else
    let offset := normalize s offset whence
    let s := dropSkip whence s
    -- if within raw area while reading, just go there
    if s.mode = .read ∧ s.how = .copy ∧ s.pos + offset ≥ 0 then
      match lseek s.fd (offset - Int64.ofNat s.avail.length) seekCur with
      | none => ⟨-1, true, s⟩
      | some fd =>
        let s : GzState φ := { s with
          fd, avail := [], eof := false, past := false, skip := 0, past_read := fun h => by cases h }
        let s : GzState φ := { gzError zOk s with input := [], pos := s.pos + offset }
        ⟨s.pos, false, s⟩
    else if offset < 0 then
      if s.mode ≠ .read then ⟨-1, false, s⟩
      else if offset + s.pos < 0 then ⟨-1, false, s⟩
      else
        let r := gzrewind lseek s
        if r.ret = -1 then ⟨-1, r.lseekFailed, r.state⟩
        else requestSkip r.state (offset + s.pos)
    else requestSkip s offset

end Code

/-- The calls that drop a pending seek, or take bytes from the buffer, although they return -1:
a relative seek that is refused while a seek is pending, and one that ends at position -1. -/
def SeekLoses (s : GzState φ) (offset : Int64) (whence : Int) : Prop :=
  (s.mode = .read ∨ s.mode = .write) ∧ (s.err = zOk ∨ s.err = zBufError) ∧
  (whence = seekSet ∨ whence = seekCur) ∧
  ((normalize s offset whence < 0 ∧ (s.mode = .write ∨ s.pos + normalize s offset whence < 0) ∧
      whence = seekCur ∧ s.skip ≠ 0) ∨
    (0 ≤ normalize s offset whence ∧ s.pos + normalize s offset whence = -1 ∧
      ((s.mode = .read ∧ s.avail ≠ [] ∧ normalize s offset whence ≠ 0) ∨
        s.skip ≠ normalize s offset whence)))

/-- What the caller sees of a state: the position, the position after `gzclearerr`, and the bytes
that `gzgetc` delivers from the buffer. -/
def observed (s : GzState φ) : Int64 × Int64 × List UInt8 :=
  (s.gztell, s.gzclearerr.gztell, s.avail)

section Refused
variable {lseek : φ → Int64 → Int → Option φ} {s : GzState φ} {offset : Int64} {whence : Int}

theorem past_false (h : s.mode = .write) : s.past = false := by
  cases hp : s.past
  · rfl
  · have := s.past_read hp
    rw [h] at this
    cases this

/-- After `gzclearerr` a pending seek counts in any case. -/
theorem gztell_gzclearerr (h : s.mode = .read ∨ s.mode = .write) :
    s.gzclearerr.gztell = s.pos + s.skip := by
  obtain h | h := h
  · simp [gzclearerr, gztell, gzError, h]
  · simp [gzclearerr, gztell, gzError, h, past_false h]

/-- A request to skip returns the target, and the position and the request add up to it. -/
theorem requestSkip_spec (s : GzState φ) (offset : Int64) :
    (requestSkip s offset).ret = s.pos + offset ∧ (requestSkip s offset).lseekFailed = false ∧
      (requestSkip s offset).state.mode = s.mode ∧
      (requestSkip s offset).state.pos + (requestSkip s offset).state.skip = s.pos + offset := by
  refine ⟨?_, rfl, rfl, ?_⟩ <;>
    · simp only [requestSkip]
      grind

/-- Such a request changes nothing when nothing in the buffer is skipped and the same skip is
already requested. -/
theorem requestSkip_same (h : s.mode = .read → s.avail = [] ∨ offset = 0)
    (hskip : s.skip = offset) : (requestSkip s offset).state = s := by
  have hn : (if s.mode = .read then
      if (s.avail.length : Int) > offset.toInt then offset.toInt.toNat else s.avail.length
      else 0) = 0 := by
    split
    · next hr =>
      obtain hnil | rfl := h hr
      · rw [hnil]
        simp only [List.length_nil]
        split <;> omega
      · rw [Int64.toInt_zero]
        split <;> omega
    · rfl
  simp only [requestSkip, hn]
  simp [← hskip]

/-- With bytes in the buffer and a way to go, some of them are skipped. -/
theorem requestSkip_avail (hr : s.mode = .read) (h : s.avail ≠ []) (hpos : 0 < offset) :
    (requestSkip s offset).state.avail ≠ s.avail := by
  have hlen : 0 < s.avail.length := List.length_pos_iff.mpr h
  have hfar : 0 < offset.toInt := Int64.lt_iff_toInt_lt.mp hpos
  intro heq
  have hle := congrArg List.length heq
  simp only [requestSkip, if_pos hr, List.length_drop] at hle
  split at hle <;> omega

theorem dropSkip_fields (whence : Int) (s : GzState φ) : (dropSkip whence s).mode = s.mode ∧
    (dropSkip whence s).pos = s.pos ∧ (dropSkip whence s).avail = s.avail ∧
    (dropSkip whence s).how = s.how ∧ (dropSkip whence s).err = s.err := by
  unfold dropSkip
  split <;> exact ⟨rfl, rfl, rfl, rfl, rfl⟩

theorem dropSkip_same (h : whence = seekSet ∨ s.skip = 0) : dropSkip whence s = s := by
  unfold dropSkip
  split
  · rfl
  · next hne =>
    obtain h | h := h
    · exact absurd h hne
    · cases s
      cases h
      rfl

/-- A request to skip forgets the former one. -/
theorem requestSkip_dropSkip :
    requestSkip (dropSkip whence s) offset = requestSkip s offset := by
  unfold dropSkip
  split <;> rfl

theorem nonneg_ne {n : Int64} (h : 0 ≤ n) : n ≠ -1 := by
  rintro rfl
  exact absurd h (by decide)

/-- Rewinding ends at position 0, unless `lseek` fails. -/
theorem gzrewind_spec (hread : s.mode = .read) (herr : s.err = zOk ∨ s.err = zBufError) :
    gzrewind lseek s = ⟨-1, true, s⟩ ∨
      ∃ t, gzrewind lseek s = ⟨0, false, t⟩ ∧ t.pos = 0 := by
  have hgo : ¬ (s.mode ≠ .read ∨ (s.err ≠ zOk ∧ s.err ≠ zBufError)) := by tauto
  unfold gzrewind
  rw [if_neg hgo]
  cases lseek s.fd s.start seekSet with
  | none => exact .inl rfl
  | some fd => exact .inr ⟨_, rfl, rfl⟩

/-- A call past the first checks, by the place of the target. -/
theorem gzseek_eq (hmode : s.mode = .read ∨ s.mode = .write) (herr : s.err = zOk ∨ s.err = zBufError)
    (hwhence : whence = seekSet ∨ whence = seekCur) :
    (s.mode = .read ∧ s.how = .copy ∧ 0 ≤ s.pos + normalize s offset whence ∧
      ((gzseek lseek s offset whence).lseekFailed = true ∨
        (gzseek lseek s offset whence).ret = s.pos + normalize s offset whence)) ∨
    (normalize s offset whence < 0 ∧ (s.mode = .write ∨ s.pos + normalize s offset whence < 0) ∧
      gzseek lseek s offset whence = ⟨-1, false, dropSkip whence s⟩) ∨
    (normalize s offset whence < 0 ∧ s.mode = .read ∧ 0 ≤ s.pos + normalize s offset whence ∧
      ((gzseek lseek s offset whence).lseekFailed = true ∨
        (gzseek lseek s offset whence).ret = s.pos + normalize s offset whence)) ∨
    (0 ≤ normalize s offset whence ∧
      gzseek lseek s offset whence = requestSkip s (normalize s offset whence)) := by
  have h1 : ¬ (s.mode ≠ .read ∧ s.mode ≠ .write) := by tauto
  have h2 : ¬ (s.err ≠ zOk ∧ s.err ≠ zBufError) := by tauto
  have h3 : ¬ (whence ≠ seekSet ∧ whence ≠ seekCur) := by tauto
  obtain ⟨hm, hp, -, hh, he⟩ := dropSkip_fields whence s
  unfold gzseek
  rw [if_neg h1, if_neg h2, if_neg h3]
  dsimp only
  generalize hoffset : normalize s offset whence = n
  by_cases hraw : s.mode = .read ∧ s.how = .copy ∧ s.pos + n ≥ 0
  · left
    rw [if_pos (by rw [hm, hh, hp]; exact hraw)]
    refine ⟨hraw.1, hraw.2.1, hraw.2.2, ?_⟩
    split
    · exact .inl rfl
    · right
      simp only [hp]
  · right
    rw [if_neg (by rw [hm, hh, hp]; exact hraw)]
    by_cases hneg : n < 0
    · rw [if_pos hneg]
      by_cases hread : s.mode = .read
      · rw [if_neg (by rw [hm]; exact not_not.mpr hread), hp, Int64.add_comm n]
        by_cases hstart : s.pos + n < 0
        · left
          rw [if_pos hstart]
          exact ⟨hneg, .inr hstart, rfl⟩
        · right
          left
          rw [if_neg hstart]
          refine ⟨hneg, hread, Int64.not_lt.mp hstart, ?_⟩
          obtain hfail | ⟨t, hback, hzero⟩ :=
            @gzrewind_spec φ lseek (dropSkip whence s) (hm.trans hread) (by rw [he]; exact herr)
          · left
            rw [hfail, if_pos rfl]
          · right
            have hne : ¬ (0 : Int64) = -1 := by decide
            rw [hback, if_neg hne, (requestSkip_spec _ _).1, hzero, Int64.zero_add]
      · left
        rw [if_pos (by rw [hm]; exact hread)]
        exact ⟨hneg, .inl (hmode.resolve_left hread), rfl⟩
    · right
      right
      rw [if_neg hneg, requestSkip_dropSkip]
      exact ⟨Int64.not_lt.mp hneg, rfl⟩

/-- Where a call loses something, it returns -1 without a failure of `lseek`, and the caller sees
the difference. -/
theorem gzseek_loses (h : SeekLoses s offset whence) :
    (gzseek lseek s offset whence).ret = -1 ∧ (gzseek lseek s offset whence).lseekFailed = false ∧
      observed (gzseek lseek s offset whence).state ≠ observed s := by
  obtain ⟨hmode, herr, hwhence, hcase⟩ := h
  obtain ⟨hneg, hwhere, rfl, hskip⟩ | ⟨hpos, htarget, hlost⟩ := hcase
  · have hbefore (hr : s.mode = .read) (hle : 0 ≤ s.pos + normalize s offset seekCur) : False := by
      obtain hw | hlt := hwhere
      · rw [hr] at hw
        cases hw
      · exact Int64.not_le.mpr hlt hle
    have heq : gzseek lseek s offset seekCur = ⟨-1, false, dropSkip seekCur s⟩ := by
      obtain ⟨hr, -, hle, -⟩ | ⟨-, -, heq⟩ | ⟨-, hr, hle, -⟩ | ⟨hle, -⟩ :=
        @gzseek_eq φ lseek s offset _ hmode herr hwhence
      · exact (hbefore hr hle).elim
      · exact heq
      · exact (hbefore hr hle).elim
      · exact absurd hneg (Int64.not_lt.mpr hle)
    refine ⟨by rw [heq], by rw [heq], fun hsame => ?_⟩
    have htell := congrArg (fun o => o.2.1) hsame
    simp only [observed, heq] at htell
    rw [gztell_gzclearerr hmode, gztell_gzclearerr (s := dropSkip seekCur s) hmode] at htell
    change s.pos + 0 = s.pos + s.skip at htell
    exact hskip ((Int64.add_right_inj _).mp htell).symm
  · have heq : gzseek lseek s offset whence = requestSkip s (normalize s offset whence) := by
      obtain ⟨-, -, hle, -⟩ | ⟨hneg, -⟩ | ⟨hneg, -⟩ | ⟨-, heq⟩ :=
        @gzseek_eq φ lseek s offset _ hmode herr hwhence
      · exact absurd htarget (nonneg_ne hle)
      · exact absurd hneg (Int64.not_lt.mpr hpos)
      · exact absurd hneg (Int64.not_lt.mpr hpos)
      · exact heq
    obtain ⟨hret, hfail, hmode', hsum⟩ := requestSkip_spec s (normalize s offset whence)
    refine ⟨by rw [heq, hret, htarget], by rw [heq, hfail], fun hsame => ?_⟩
    obtain ⟨hr, havail, hne⟩ | hskip := hlost
    · refine @requestSkip_avail φ s (normalize s offset whence) hr havail ?_ ?_
      · exact Int64.lt_of_le_of_ne hpos (Ne.symm hne)
      · rw [← heq]
        exact congrArg (fun o => o.2.2) hsame
    · have htell := congrArg (fun o => o.2.1) hsame
      simp only [observed, heq] at htell
      rw [gztell_gzclearerr hmode, gztell_gzclearerr (by rw [hmode']; exact hmode), hsum] at htell
      exact hskip ((Int64.add_right_inj _).mp htell).symm

/-- Any other call that returns -1 without a failure of `lseek` leaves the state as it is. -/
theorem gzseek_keeps (h : ¬ SeekLoses s offset whence)
    (hret : (gzseek lseek s offset whence).ret = -1)
    (hfail : (gzseek lseek s offset whence).lseekFailed = false) :
    (gzseek lseek s offset whence).state = s := by
  by_cases hchecks : (s.mode = .read ∨ s.mode = .write) ∧ (s.err = zOk ∨ s.err = zBufError) ∧
      (whence = seekSet ∨ whence = seekCur)
  · obtain ⟨hmode, herr, hwhence⟩ := hchecks
    have hno : ¬ (_ ∨ _) := fun hcase => h ⟨hmode, herr, hwhence, hcase⟩
    rw [not_or] at hno
    have hdone (hle : 0 ≤ s.pos + normalize s offset whence)
        (hend : (gzseek lseek s offset whence).lseekFailed = true ∨
          (gzseek lseek s offset whence).ret = s.pos + normalize s offset whence) : False := by
      rw [hfail, hret] at hend
      exact nonneg_ne hle (hend.resolve_left Bool.false_ne_true).symm
    obtain ⟨-, -, hle, hend⟩ | ⟨hneg, hwhere, heq⟩ | ⟨-, -, hle, hend⟩ | ⟨hle, heq⟩ :=
      @gzseek_eq φ lseek s offset _ hmode herr hwhence
    · exact (hdone hle hend).elim
    · rw [heq]
      refine dropSkip_same (or_iff_not_imp_left.mpr fun hset => ?_)
      by_contra hskip
      exact hno.1 ⟨hneg, hwhere, hwhence.resolve_left hset, hskip⟩
    · exact (hdone hle hend).elim
    · rw [heq, (requestSkip_spec _ _).1] at hret
      rw [heq]
      have hlost : ¬ (_ ∨ _) := fun hlost => hno.2 ⟨hle, hret, hlost⟩
      rw [not_or] at hlost
      refine requestSkip_same (fun hr => ?_) (not_not.mp hlost.2)
      by_contra hboth
      rw [not_or] at hboth
      exact hlost.1 ⟨hr, hboth⟩
  · unfold gzseek
    split
    · rfl
    · split
      · rfl
      · split
        · rfl
        · exact absurd hchecks (by tauto)

end Refused

/-- A seek that is refused leaves the state as it was exactly where it loses nothing, and a loss
shows in the position or in the bytes of the buffer. -/
theorem gzseek_refused (lseek : φ → Int64 → Int → Option φ) (s : GzState φ) (offset : Int64)
    (whence : Int) :
    (((gzseek lseek s offset whence).ret = -1 →
        (gzseek lseek s offset whence).lseekFailed = false →
        (gzseek lseek s offset whence).state = s) ↔ ¬ SeekLoses s offset whence) ∧
    (SeekLoses s offset whence → (gzseek lseek s offset whence).ret = -1 ∧
      (gzseek lseek s offset whence).lseekFailed = false ∧
      observed (gzseek lseek s offset whence).state ≠ observed s) := by
  refine ⟨⟨?_, fun h hret hfail => gzseek_keeps h hret hfail⟩, gzseek_loses⟩
  intro hkeep hloses
  obtain ⟨hret, hfail, hne⟩ := @gzseek_loses φ lseek s offset whence hloses
  exact hne (by rw [hkeep hret hfail])

/-- Ten bytes written, and five more to be skipped. -/
def skipPending : GzState Unit where
  mode := .write
  how := .look
  avail := []
  next := 0
  pos := 10
  start := 0
  eof := false
  past := false
  reset := false
  skip := 5
  err := zOk
  input := []
  fd := ()
  past_read := fun h => by cases h

/-- A seek backwards is refused in writing, and the pending seek is gone. -/
theorem gzseek_drops_skip :
    (gzseek (fun _ _ _ => some ()) skipPending (-6) seekCur).ret = -1 ∧
    (gzseek (fun _ _ _ => some ()) skipPending (-6) seekCur).lseekFailed = false ∧
    skipPending.gztell = 15 ∧
    (gzseek (fun _ _ _ => some ()) skipPending (-6) seekCur).state.gztell = 10 := by
  decide

end GzState
end ZlibNg
