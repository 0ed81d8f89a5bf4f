import Mathlib.Tactic.IntervalCases
import ZlibNg.Gzip.Header
import ZlibNg.Inflate.Held

/-! `inflateSync`: the search for the marker, and what it leaves. -/
namespace ZlibNg

/-- The bytes that a full flush ends with. -/
def syncMarker : List UInt8 := [0, 0, 0xff, 0xff]

/-- The last bytes of `seen` are the first `k` of the marker. -/
def EndsWith (k : Nat) (seen : List UInt8) : Prop := syncMarker.take k <:+ seen

/-- `k` is the length of the longest proper prefix of the marker that `seen` ends with. -/
structure LongestPrefix (k : Nat) (seen : List UInt8) : Prop where
  lt : k < 4
  ends : EndsWith k seen
  longest : ∀ j < 4, EndsWith j seen → j ≤ k

/-- The first marker in `text` ends after `n` bytes. -/
structure FirstMarker (text : List UInt8) (n : Nat) : Prop where
  le : n ≤ text.length
  marker : EndsWith 4 (text.take n)
  first : ∀ m < n, ¬ EndsWith 4 (text.take m)

/-- No marker in `text`. -/
def NoMarker (text : List UInt8) : Prop := ∀ m, ¬ EndsWith 4 (text.take m)

theorem endsWith_zero (seen : List UInt8) : EndsWith 0 seen := List.nil_suffix

/-- One more byte: it continues a prefix. -/
theorem endsWith_succ {k : Nat} (hk : k < 4) (seen : List UInt8) (b : UInt8) :
    EndsWith (k + 1) (seen ++ [b]) ↔ b = syncMarker.getD k 0 ∧ EndsWith k seen := by
  have htake : syncMarker.take (k + 1) = syncMarker.take k ++ [syncMarker.getD k 0] := by
    have hall : ∀ k < 4, syncMarker.take (k + 1) = syncMarker.take k ++ [syncMarker.getD k 0] := by
      decide
    exact hall k hk
  unfold EndsWith
  rw [htake, List.suffix_concat_iff]
  constructor
  · rintro (hnil | ⟨t, ht, hsuffix⟩)
    · simp at hnil
    · obtain ⟨rfl, hb⟩ := List.append_inj' ht rfl
      exact ⟨(List.singleton_inj.mp hb).symm, hsuffix⟩
  · rintro ⟨rfl, hsuffix⟩
    exact .inr ⟨_, rfl, hsuffix⟩

theorem not_endsWith_nil (k : Nat) : ¬ EndsWith (k + 1) [] := by
  intro h
  have hlen := h.length_le
  simp [syncMarker] at hlen

/-- Two zeros at the end: one of them alone ends there too. -/
theorem endsWith_one {seen : List UInt8} (h : EndsWith 2 seen) : EndsWith 1 seen := by
  obtain rfl | ⟨t, x, rfl⟩ := List.eq_nil_or_concat' seen
  · exact absurd h (not_endsWith_nil _)
  · have hx := ((endsWith_succ (by decide : 1 < 4) t x).mp h).1
    exact (endsWith_succ (by decide : 0 < 4) t x).mpr ⟨hx, endsWith_zero t⟩

/-- The third byte of the marker is no zero. -/
theorem endsWith_three {seen : List UInt8} (h : EndsWith 3 seen) :
    ¬ EndsWith 1 seen ∧ ¬ EndsWith 2 seen := by
  obtain rfl | ⟨t, x, rfl⟩ := List.eq_nil_or_concat' seen
  · exact absurd h (not_endsWith_nil _)
  · have hx := ((endsWith_succ (by decide : 2 < 4) t x).mp h).1
    constructor
    · intro h1
      have hzero := ((endsWith_succ (by decide : 0 < 4) t x).mp h1).1
      rw [hx] at hzero
      exact absurd hzero (by decide)
    · intro h2
      have hzero := ((endsWith_succ (by decide : 1 < 4) t x).mp h2).1
      rw [hx] at hzero
      exact absurd hzero (by decide)

/-- The step of the search: `4 - got` is the next shorter prefix that a zero continues. -/
theorem LongestPrefix.step {got : Nat} {seen : List UInt8} (h : LongestPrefix got seen) (b : UInt8) :
    let got' := if b = (if got < 2 then 0 else 0xff) then got + 1 else if b ≠ 0 then 0 else 4 - got
    (got' = 4 ∧ EndsWith 4 (seen ++ [b])) ∨
      (LongestPrefix got' (seen ++ [b]) ∧ ¬ EndsWith 4 (seen ++ [b])) := by
  obtain ⟨hlt, hends, hlongest⟩ := h
  have hl1 := hlongest 1 (by decide)
  have hl2 := hlongest 2 (by decide)
  have hl3 := hlongest 3 (by decide)
  have h0 := endsWith_zero (seen ++ [b])
  have h1 : EndsWith 1 (seen ++ [b]) ↔ b = 0 ∧ EndsWith 0 seen := endsWith_succ (by decide) seen b
  have h2 : EndsWith 2 (seen ++ [b]) ↔ b = 0 ∧ EndsWith 1 seen := endsWith_succ (by decide) seen b
  have h3 : EndsWith 3 (seen ++ [b]) ↔ b = 0xff ∧ EndsWith 2 seen := endsWith_succ (by decide) seen b
  have h4 : EndsWith 4 (seen ++ [b]) ↔ b = 0xff ∧ EndsWith 3 seen := endsWith_succ (by decide) seen b
  have hne : (0 : UInt8) ≠ 0xff := by decide
  have hzero := endsWith_zero seen
  have hlongest' {k : Nat} (hk : k < 4) (hend : EndsWith k (seen ++ [b]))
      (h1' : EndsWith 1 (seen ++ [b]) → 1 ≤ k) (h2' : EndsWith 2 (seen ++ [b]) → 2 ≤ k)
      (h3' : EndsWith 3 (seen ++ [b]) → 3 ≤ k) : LongestPrefix k (seen ++ [b]) := by
    refine ⟨hk, hend, fun j hj hj' => ?_⟩
    interval_cases j
    · omega
    · exact h1' hj'
    · exact h2' hj'
    · exact h3' hj'
  have htwo := @endsWith_one seen
  have hthree := @endsWith_three seen
  by_cases hb : b = 0
  · subst hb
    have h3' : ¬ EndsWith 3 (seen ++ [0]) := fun h => hne (h3.mp h).1
    have h4' : ¬ EndsWith 4 (seen ++ [0]) := fun h => hne (h4.mp h).1
    right
    refine ⟨?_, h4'⟩
    interval_cases got
    · exact hlongest' (by decide) (h1.mpr ⟨rfl, hzero⟩) (fun _ => le_rfl)
        (fun h => absurd (hl1 (h2.mp h).2) (by decide)) (fun h => absurd h h3')
    · exact hlongest' (by decide) (h2.mpr ⟨rfl, hends⟩) (fun _ => by decide) (fun _ => le_rfl)
        (fun h => absurd h h3')
    · exact hlongest' (by decide) (h2.mpr ⟨rfl, htwo hends⟩) (fun _ => by decide) (fun _ => le_rfl)
        (fun h => absurd h h3')
    · exact hlongest' (by decide) (h1.mpr ⟨rfl, hzero⟩) (fun _ => le_rfl)
        (fun h => absurd (h2.mp h).2 (hthree hends).1) (fun h => absurd h h3')
  · have h1' : ¬ EndsWith 1 (seen ++ [b]) := fun h => hb (h1.mp h).1
    have h2' : ¬ EndsWith 2 (seen ++ [b]) := fun h => hb (h2.mp h).1
    have hnone (h3' : ¬ EndsWith 3 (seen ++ [b])) : LongestPrefix 0 (seen ++ [b]) :=
      hlongest' (by decide) h0 (fun h => absurd h h1') (fun h => absurd h h2')
        (fun h => absurd h h3')
    by_cases hf : b = 0xff
    · subst hf
      interval_cases got
      · refine .inr ⟨hnone fun h => ?_, fun h => ?_⟩
        · exact absurd (hl2 (h3.mp h).2) (by decide)
        · exact absurd (hl3 (h4.mp h).2) (by decide)
      · refine .inr ⟨hnone fun h => ?_, fun h => ?_⟩
        · exact absurd (hl2 (h3.mp h).2) (by decide)
        · exact absurd (hl3 (h4.mp h).2) (by decide)
      · refine .inr ⟨?_, fun h => absurd (hl3 (h4.mp h).2) (by decide)⟩
        exact hlongest' (by decide) (h3.mpr ⟨rfl, hends⟩) (fun _ => by decide) (fun _ => by decide)
          (fun _ => le_rfl)
      · exact .inl ⟨rfl, h4.mpr ⟨rfl, hends⟩⟩
    · have hother : b ≠ (if got < 2 then 0 else 0xff) := by
        split
        · exact hb
        · exact hf
      dsimp only
      rw [if_neg hother, if_pos hb]
      exact .inr ⟨hnone fun h => hf (h3.mp h).1, fun h => hf (h4.mp h).1⟩

theorem noMarker_nil : NoMarker [] := fun m h => by
  rw [List.take_nil] at h
  exact not_endsWith_nil 3 h

theorem NoMarker.concat {seen : List UInt8} (h : NoMarker seen) {b : UInt8}
    (hb : ¬ EndsWith 4 (seen ++ [b])) : NoMarker (seen ++ [b]) := by
  intro m hm
  by_cases hle : m ≤ seen.length
  · rw [List.take_append_of_le_length hle] at hm
    exact h m hm
  · rw [List.take_of_length_le (by simp; omega)] at hm
    exact hb hm

/-- The search in a buffer, after `seen` without a marker: it ends at the first marker, or with
the longest prefix at the end. -/
theorem syncsearch_spec {got : Nat} {seen : List UInt8} (h : LongestPrefix got seen)
    (hno : NoMarker seen) (buf : List UInt8) :
    ((syncsearch got buf).1 = 4 ∧
        FirstMarker (seen ++ buf) (seen.length + (syncsearch got buf).2) ∧
        (syncsearch got buf).2 ≤ buf.length) ∨
      (LongestPrefix (syncsearch got buf).1 (seen ++ buf) ∧ NoMarker (seen ++ buf) ∧
        (syncsearch got buf).2 = buf.length) := by
  induction buf generalizing got seen with
  | nil =>
    right
    rw [List.append_nil]
    exact ⟨h, hno, rfl⟩
  | cons b bs ih =>
    have hstep := h.step b
    have hcons : seen ++ b :: bs = (seen ++ [b]) ++ bs := by simp
    have hlen : (seen ++ [b]).length = seen.length + 1 := by simp
    rw [syncsearch, if_pos h.lt, hcons]
    dsimp only at hstep ⊢
    generalize (if b = (if got < 2 then 0 else 0xff) then got + 1
      else if b ≠ 0 then 0 else 4 - got) = got' at hstep ⊢
    obtain ⟨rfl, hend⟩ | ⟨hlongest, hend⟩ := hstep
    · left
      have hstop : syncsearch 4 bs = (4, 0) := by
        cases bs <;> rfl
      rw [hstop]
      have htake : ((seen ++ [b]) ++ bs).take (seen.length + (0 + 1)) = seen ++ [b] := by
        rw [List.take_append_of_le_length (by simp), List.take_of_length_le (by simp)]
      refine ⟨rfl, ⟨by simp, by rw [htake]; exact hend, fun m hm => ?_⟩, by simp⟩
      rw [List.append_assoc, List.take_append_of_le_length (by omega)]
      exact hno m
    · obtain ⟨hfour, hfirst, hle⟩ | ⟨hrest, hnone, hall⟩ := ih hlongest (hno.concat hend)
      · left
        rw [hlen] at hfirst
        have hsum : seen.length + ((syncsearch got' bs).2 + 1) =
            seen.length + 1 + (syncsearch got' bs).2 := by omega
        refine ⟨hfour, ?_, by simpa using hle⟩
        rw [hsum]
        exact hfirst
      · right
        exact ⟨hrest, hnone, by simpa using hall⟩

/-- Input for a call. -/
structure SyncFeed where
  mem : Int → UInt8
  nextIn : Int
  availIn : Nat

def SyncFeed.bytes (f : SyncFeed) : List UInt8 := bytesAt f.mem f.nextIn f.availIn

namespace InflateStream
variable {start strm : InflateStream} {input : List UInt8} {f : SyncFeed}

/-- The whole bytes left in the bit buffer. -/
def spilled (strm : InflateStream) : List UInt8 :=
  leBytes (strm.hold >>> (strm.bits % 8)) (strm.bits / 8)

def syncCall (strm : InflateStream) (f : SyncFeed) : Ret × InflateStream :=
  { strm with nextIn := f.nextIn, availIn := f.availIn }.inflateSync f.mem

/-- The calls of a search so far have not found the marker; `input` is what they have looked at. -/
inductive Searching (start : InflateStream) : List UInt8 → InflateStream → Prop
  | begin : Searching start [] start
  | call {input : List UInt8} {strm : InflateStream} (h : Searching start input strm) (f : SyncFeed)
      (hret : (strm.syncCall f).1 ≠ .ok) :
      Searching start (input ++ f.bytes) (strm.syncCall f).2
  -- what `inflatePrime` or `inflate` does in between does not concern the search
  | other {input : List UInt8} {strm strm' : InflateStream} (h : Searching start input strm)
      (hmode : strm.st.mode = .sync ∧ strm'.st.mode = .sync)
      (hhave : strm'.st.have_ = strm.st.have_) : Searching start input strm'

/-- The search is in progress after the bytes `seen`. -/
structure SyncState (strm : InflateStream) (seen : List UInt8) : Prop where
  mode : strm.st.mode = .sync
  found : LongestPrefix strm.st.have_ seen
  none : NoMarker seen

/-- A block begins after `n` bytes of the input, in a state that has been reset; what has been
counted is kept, and no check value is computed any more. -/
structure Resumed (strm : InflateStream) (f : SyncFeed) (n : Nat) (strm' : InflateStream) : Prop where
  reset : strm'.st =
    { ({ strm.st with have_ := 4, wrap := strm'.st.wrap } : InflateState).reset with
      flags := strm.st.flags, mode := .type }
  unchecked : strm'.st.wrap &&& 4 = 0
  mode : strm'.st.mode = .type
  last : strm'.st.last = false
  held : strm'.hold = 0 ∧ strm'.bits = 0
  window : strm'.st.whave = 0 ∧ strm'.st.wsize = 0 ∧ strm'.st.wnext = 0
  flags : strm'.st.flags = strm.st.flags
  input : strm'.nextIn = f.nextIn + n ∧ strm'.availIn = f.availIn - n
  totalIn : strm'.totalIn = strm.totalIn + n
  totalOut : strm'.totalOut = strm.totalOut

/-- What a call does to the search after `seen`. -/
def SyncResult (seen : List UInt8) (strm : InflateStream) (f : SyncFeed) : Ret → InflateStream → Prop
  | .ok, strm' => ∃ n ≤ f.availIn, FirstMarker (seen ++ f.bytes) (seen.length + n) ∧
      Resumed strm f n strm'
  | .dataError, strm' => strm'.SyncState (seen ++ f.bytes) ∧ strm'.availIn = 0
  | .bufError, strm' => f.bytes = [] ∧ strm' = { strm with nextIn := f.nextIn, availIn := f.availIn }
  | _, _ => False

theorem wrap_unchecked (wrap : Nat) : (wrap ^^^ (wrap &&& 4)) &&& 4 = 0 := by
  refine Nat.eq_of_testBit_eq fun i => ?_
  simp only [Nat.testBit_and, Nat.testBit_xor, Nat.zero_testBit]
  cases wrap.testBit i <;> cases (4 : Nat).testBit i <;> rfl

theorem length_feed (f : SyncFeed) : f.bytes.length = f.availIn := length_bytesAt _ _ _

/-- The search of the input, after the one in the bit buffer. -/
theorem syncInput_spec {seen : List UInt8} (hmode : strm.st.mode = .sync)
    (hnext : strm.nextIn = f.nextIn) (havail : strm.availIn = f.availIn)
    (hsearch : (strm.st.have_ = 4 ∧ FirstMarker seen seen.length) ∨
      (LongestPrefix strm.st.have_ seen ∧ NoMarker seen)) :
    if (strm.syncInput f.mem).st.have_ ≠ 4 then
      (strm.syncInput f.mem).SyncState (seen ++ f.bytes) ∧ (strm.syncInput f.mem).availIn = 0
    else ∃ n ≤ f.availIn, FirstMarker (seen ++ f.bytes) (seen.length + n) ∧
      Resumed strm f n (strm.syncInput f.mem).syncRestart := by
  have hbytes : bytesAt f.mem strm.nextIn strm.availIn = f.bytes := by
    rw [hnext, havail]
    rfl
  have hresumed {n : Nat} (hfour : (syncsearch strm.st.have_ f.bytes).1 = 4)
      (hn : n = (syncsearch strm.st.have_ f.bytes).2) :
      Resumed strm f n (strm.syncInput f.mem).syncRestart := by
    have hunchecked : (strm.syncInput f.mem).syncRestart.st.wrap &&& 4 = 0 := by
      change (if _ then 0 else _) &&& 4 = 0
      split
      · rfl
      · exact wrap_unchecked _
    generalize hfound : syncsearch strm.st.have_ f.bytes = found at hfour hn
    obtain ⟨got, len⟩ := found
    dsimp only at hfour hn
    subst hfour hn
    unfold syncInput at hunchecked ⊢
    rw [hbytes, hfound] at hunchecked ⊢
    exact ⟨rfl, hunchecked, rfl, rfl, ⟨rfl, rfl⟩, ⟨rfl, rfl, rfl⟩, rfl,
      ⟨by rw [← hnext]; rfl, by rw [← havail]; rfl⟩, rfl, rfl⟩
  have hhave : (strm.syncInput f.mem).st.have_ = (syncsearch strm.st.have_ f.bytes).1 := by
    unfold syncInput
    rw [hbytes]
  obtain ⟨hfour, hfirst⟩ | ⟨hlongest, hnone⟩ := hsearch
  · have hstop : syncsearch strm.st.have_ f.bytes = (4, 0) := by
      rw [hfour]
      cases f.bytes <;> rfl
    rw [hhave, hstop, if_neg (by decide)]
    refine ⟨0, Nat.zero_le _, ⟨by simp, ?_, fun m hm => ?_⟩, hresumed (by rw [hstop]) (by rw [hstop])⟩
    · rw [Nat.add_zero, List.take_append_of_le_length le_rfl]
      exact hfirst.marker
    · rw [List.take_append_of_le_length (by omega)]
      exact hfirst.first m (by omega)
  · obtain ⟨hfour, hfirst, hle⟩ | ⟨hrest, hno, hall⟩ := syncsearch_spec hlongest hnone f.bytes
    · rw [hhave, hfour, if_neg (by decide)]
      rw [length_feed] at hle
      exact ⟨_, hle, hfirst, hresumed hfour rfl⟩
    · have hne : (syncsearch strm.st.have_ f.bytes).1 ≠ 4 := by
        have := hrest.lt
        omega
      rw [hhave, if_pos hne]
      refine ⟨⟨hmode, ?_, hno⟩, ?_⟩
      · rw [hhave]
        exact hrest
      · unfold syncInput
        rw [hbytes]
        dsimp only
        rw [hall, length_feed, havail, Nat.sub_self]

/-- Four bytes at most are left, so a marker among them ends them. -/
theorem spilled_spec (h : strm.bits < 40) :
    strm.spilled.length ≤ 4 ∧
      (((syncsearch 0 strm.spilled).1 = 4 ∧ FirstMarker strm.spilled strm.spilled.length) ∨
        (LongestPrefix (syncsearch 0 strm.spilled).1 strm.spilled ∧ NoMarker strm.spilled)) := by
  have hlen : strm.spilled.length ≤ 4 := by
    unfold spilled
    rw [length_leBytes]
    omega
  refine ⟨hlen, ?_⟩
  have hstart : LongestPrefix 0 [] :=
    ⟨by decide, endsWith_zero [], fun j hj h => by
      cases j with
      | zero => exact le_rfl
      | succ j => exact absurd h (not_endsWith_nil _)⟩
  obtain ⟨hfour, hfirst, hle⟩ | ⟨hrest, hno, -⟩ :=
    syncsearch_spec hstart noMarker_nil strm.spilled
  · left
    rw [List.nil_append, List.length_nil, Nat.zero_add] at hfirst
    have hmarker := hfirst.marker.length_le
    have hfull : (syncMarker.take 4).length = 4 := rfl
    rw [hfull, List.length_take] at hmarker
    have heq : (syncsearch 0 strm.spilled).2 = strm.spilled.length := by omega
    exact ⟨hfour, heq ▸ hfirst⟩
  · right
    exact ⟨hrest, hno⟩

/-- One call. -/
theorem syncCall_spec {seen : List UInt8} (hbits : start.bits < 40)
    (h : (strm.st.mode ≠ .sync ∧ strm.bits = start.bits ∧ strm.hold = start.hold ∧
        seen = start.spilled) ∨ strm.SyncState seen) :
    SyncResult seen strm f (strm.syncCall f).1 (strm.syncCall f).2 := by
  set fed : InflateStream := { strm with nextIn := f.nextIn, availIn := f.availIn } with hfed
  have hkeep (n : Nat) (strm' : InflateStream) (hr : Resumed fed.syncStart f n strm') :
      Resumed strm f n strm' := by
    have hsame : fed.syncStart.st.flags = strm.st.flags ∧ fed.syncStart.totalIn = strm.totalIn ∧
        fed.syncStart.totalOut = strm.totalOut := by
      unfold syncStart
      split <;> exact ⟨rfl, rfl, rfl⟩
    have hstate (wrap : Nat) :
        ({ fed.syncStart.st with have_ := 4, wrap := wrap } : InflateState).reset =
          ({ strm.st with have_ := 4, wrap := wrap } : InflateState).reset := by
      unfold syncStart
      split <;> rfl
    obtain ⟨h1, h2, h3, h4, h5, h6, h7, h8, h9, h10⟩ := hr
    rw [hstate, hsame.1] at h1
    exact ⟨h1, h2, h3, h4, h5, h6, h7.trans hsame.1, h8, by rw [h9, hsame.2.1],
      h10.trans hsame.2.2⟩
  have hsearch : fed.syncStart.st.mode = .sync ∧
      fed.syncStart.nextIn = f.nextIn ∧ fed.syncStart.availIn = f.availIn ∧
      ((fed.syncStart.st.have_ = 4 ∧ FirstMarker seen seen.length) ∨
        (LongestPrefix fed.syncStart.st.have_ seen ∧ NoMarker seen)) := by
    obtain ⟨hmode, hb, hh, rfl⟩ | ⟨hmode, hfound, hnone⟩ := h
    · have heq : fed.spilled = start.spilled := by
        unfold spilled
        rw [← hb, ← hh]
      have hspec := (@spilled_spec start hbits).2
      unfold syncStart
      rw [if_neg (show ¬ fed.st.mode = .sync from hmode)]
      refine ⟨rfl, rfl, rfl, ?_⟩
      change ((syncsearch 0 fed.spilled).1 = 4 ∧ _) ∨ (LongestPrefix (syncsearch 0 fed.spilled).1 _ ∧ _)
      rw [heq]
      exact hspec
    · unfold syncStart
      rw [if_pos (show fed.st.mode = .sync from hmode)]
      exact ⟨hmode, rfl, rfl, .inr ⟨hfound, hnone⟩⟩
  obtain ⟨hmode, hnext, havail, hcases⟩ := hsearch
  have hinput := @syncInput_spec fed.syncStart f seen hmode hnext havail hcases
  unfold syncCall inflateSync
  split
  · next hnothing =>
    refine ⟨?_, rfl⟩
    exact List.eq_nil_of_length_eq_zero ((length_feed f).trans hnothing.1)
  · dsimp only
    split
    · next hmore =>
      rw [if_pos hmore] at hinput
      exact hinput
    · next hfound =>
      rw [if_neg hfound] at hinput
      obtain ⟨n, hn, hfirst, hresumed⟩ := hinput
      exact ⟨n, hn, hfirst, hkeep n _ hresumed⟩

/-- A search that has not begun has seen no bytes, and found none to look at. -/
theorem Searching.spec (hbits : start.bits < 40) (hmode : start.st.mode ≠ .sync)
    (h : start.Searching input strm) :
    (strm.st.mode ≠ .sync ∧ strm.bits = start.bits ∧ strm.hold = start.hold ∧ input = []) ∨
      strm.SyncState (start.spilled ++ input) := by
  induction h with
  | begin => exact .inl ⟨hmode, rfl, rfl, rfl⟩
  | @call input strm h f hret ih =>
    have hcall : SyncResult (start.spilled ++ input) strm f (strm.syncCall f).1
        (strm.syncCall f).2 := by
      refine syncCall_spec hbits (ih.imp_left fun h => ?_)
      exact ⟨h.1, h.2.1, h.2.2.1, by rw [h.2.2.2, List.append_nil]⟩
    rw [← List.append_assoc]
    cases hr : (strm.syncCall f).1 <;> rw [hr] at hcall
    case ok => exact absurd hr hret
    case dataError => exact .inr hcall.1
    case bufError =>
      obtain ⟨hnil, heq⟩ := hcall
      rw [hnil, heq, List.append_nil, List.append_nil]
      obtain ⟨h1, h2, h3, h4⟩ | ⟨h1, h2, h3⟩ := ih
      · exact .inl ⟨h1, h2, h3, h4⟩
      · exact .inr ⟨h1, h2, h3⟩
    all_goals exact hcall.elim
  | other h hmode' hhave ih =>
    obtain hnot | hstate := ih
    · exact absurd hmode'.1 hnot.1
    · exact .inr ⟨hmode'.2, hhave ▸ hstate.found, hstate.none⟩

/-- Whatever the state the search begins in, whatever bits are left, and however the input is
split: each call ends the search at the first marker of the bytes left and the input, or goes on
with the longest prefix at their end. -/
theorem inflateSync_first (hstart : start.Reached) (hmode : start.st.mode ≠ .sync)
    (h : start.Searching input strm) (f : SyncFeed) :
    start.spilled.length ≤ 4 ∧
      SyncResult (start.spilled ++ input) strm f (strm.syncCall f).1 (strm.syncCall f).2 := by
  have hbits := hstart.narrow.bits
  refine ⟨(spilled_spec hbits).1, syncCall_spec hbits ((h.spec hbits hmode).imp_left fun h => ?_)⟩
  exact ⟨h.1, h.2.1, h.2.2.1, by rw [h.2.2.2, List.append_nil]⟩

/-- A raw stream with 16 bits put in, all of them zero. -/
def primedStream : InflateStream :=
  (((inflateInit2 .zeroed (-15)).get rfl).inflatePrime 16 0).get rfl

theorem primedStream_reached : primedStream.Reached :=
  .prime (.init (Option.some_get rfl).symm) (Option.some_get rfl).symm

/-- The marker begins among the bits put in, and ends in the input. -/
theorem inflateSync_first_primed :
    primedStream.spilled.length ≤ 4 ∧
      SyncResult (primedStream.spilled ++ []) primedStream
        ⟨Session.memOf [0xff, 0xff, 0x03, 0x00], 0, 4⟩
        (primedStream.syncCall ⟨Session.memOf [0xff, 0xff, 0x03, 0x00], 0, 4⟩).1
        (primedStream.syncCall ⟨Session.memOf [0xff, 0xff, 0x03, 0x00], 0, 4⟩).2 :=
  inflateSync_first primedStream_reached (by decide) .begin _

example : (primedStream.syncCall ⟨Session.memOf [0xff, 0xff, 0x03, 0x00], 0, 4⟩).1 = .ok := by decide

end InflateStream
end ZlibNg
