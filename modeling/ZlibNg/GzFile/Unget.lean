import ZlibNg.GzFile.OutBuffer
import ZlibNg.GzFile.Read

/-! What `gzungetc` pushes is read next, and then what would have been read without it. -/
namespace ZlibNg

namespace GzSource
variable {φ : Type} {io : GzCalls φ} {s : GzSource φ}

/-- Loading keeps the error code, unless it fails. -/
theorem gzLoad_err {len : Nat} {got : List UInt8} {f : Fetched φ}
    (h : gzLoad io len s got = some f) (hok : f.ok = true) : f.src.err = s.err := by
  revert hok
  refine gzLoad.partial_correctness io len
    (fun s _ f => f.ok = true → f.src.err = s.err) ?_ s got f h
  intro load ih s got f hf hok
  split at hf
  · cases hf
    cases hok
  · cases hf
    rfl
  · split at hf
    · have herr := ih _ _ _ hf hok
      exact herr
    · cases hf
      rfl

theorem gzAvail_err {f : Fetched φ} (h : gzAvail io s = some f) (hok : f.ok = true) :
    f.src.err = s.err := by
  unfold gzAvail at h
  split at h
  · cases h
    cases hok
  · split at h
    · cases h
      rfl
    · obtain ⟨g, hg, h⟩ := Option.bind_eq_some_iff.mp h
      split at h
      · next hgok =>
        have herr := gzLoad_err hg hgok
        cases h
        exact herr
      · cases h
        exact absurd hok ‹_›

theorem gzNeed_err {n : Nat} {f : Fetched φ} (h : gzNeed io n s = some f) (hok : f.ok = true) :
    f.src.err = s.err := by
  unfold gzNeed at h
  split at h
  · exact gzAvail_err h hok
  · cases h
    rfl

theorem lookMagic_err {f : Fetched φ} (h : lookMagic io s = some f) (hok : f.ok = true) :
    f.src.err = s.err := by
  unfold lookMagic at h
  split at h
  · cases h
    rfl
  · obtain ⟨g, hg, h⟩ := Option.bind_eq_some_iff.mp h
    have herr := gzNeed_err hg
    dsimp only at h
    split at h
    · next hbad =>
      cases h
      rw [hbad] at hok
      cases hok
    · next hgood =>
      have hsrc := herr (by simpa using hgood)
      split at h
      · cases h
        exact hsrc
      · split at h
        · cases h
          exact hsrc
        · split at h
          · cases h
            exact hsrc
          · cases h
            exact hsrc

theorem gzReadInit_err (hok : (gzReadInit io s).ok = true) :
    (gzReadInit io s).src.err = s.err := by
  unfold gzReadInit at hok ⊢
  split
  · next hbad => simp [hbad] at hok
  · next hgood =>
    rw [if_neg hgood] at hok
    dsimp only at hok ⊢
    split
    · next hbad => simp [hbad] at hok
    · rfl

theorem gzLook_err {f : Fetched φ} (h : gzLook io s = some f) (hok : f.ok = true) :
    f.src.err = s.err := by
  unfold gzLook at h
  split at h
  · dsimp only at h
    split at h
    · next hbad =>
      cases h
      rw [hbad] at hok
      cases hok
    · next hgood => exact (lookMagic_err h hok).trans (gzReadInit_err (by simpa using hgood))
  · exact lookMagic_err h hok

/-- Decompression may set `Z_BUF_ERROR`. -/
theorem gzDecomp_fine {availOut : Nat} {out : List UInt8} {f : Fetched φ}
    (h : gzDecomp io availOut s out = some f) (hok : f.ok = true) (hfine : s.Fine) :
    f.src.Fine := by
  revert hok hfine
  refine gzDecomp.partial_correctness io
    (fun _ s _ f => f.ok = true → s.Fine → f.src.Fine) ?_ availOut s out f h
  intro decomp ih availOut s out f hf hok hfine
  obtain ⟨g, hg, hf⟩ := Option.bind_eq_some_iff.mp hf
  have herr (hgok : g.ok = true) : g.src.Fine := by
    unfold Fine
    rw [gzNeed_err hg hgok]
    exact hfine
  split at hf
  · next hbad =>
    cases hf
    rw [hbad] at hok
    cases hok
  · next hgood =>
    have hg := herr (by simpa using hgood)
    split at hf
    · cases hf
      exact .inr rfl
    · dsimp only at hf
      split at hf
      · cases hf
        cases hok
      · split at hf
        · cases hf
          cases hok
        · split at hf
          · cases hf
            cases hok
          · split at hf
            · exact ih _ _ _ _ hf hok hg
            · cases hf
              dsimp only
              split <;> exact hg

theorem gzFetch_fine {f : Fetched φ} (h : gzFetch io s = some f) (hok : f.ok = true)
    (hfine : s.Fine) : f.src.Fine := by
  revert hok hfine
  refine gzFetch.partial_correctness io (fun s f => f.ok = true → s.Fine → f.src.Fine) ?_ s f h
  intro fetch ih s f hf hok hfine
  split at hf
  · obtain ⟨g, hg, hf⟩ := Option.bind_eq_some_iff.mp hf
    have herr (hgok : g.ok = true) : g.src.Fine := by
      unfold Fine
      rw [gzLook_err hg hgok]
      exact hfine
    split at hf
    · cases hf
      exact herr hok
    · next hgood =>
      split at hf
      · exact ih _ _ hf hok (herr (by simpa using (not_or.mp hgood).1))
      · cases hf
        exact herr hok
  · unfold Fine
    rw [gzLoad_err hf hok]
    exact hfine
  · obtain ⟨g, hg, hf⟩ := Option.bind_eq_some_iff.mp hf
    split at hf
    · cases hf
      exact gzDecomp_fine hg hok hfine
    · next hgood =>
      split at hf
      · exact ih _ _ hf hok (gzDecomp_fine hg (by simpa using hgood) hfine)
      · cases hf
        exact gzDecomp_fine hg hok hfine

/-- The buffer and the input still have `n` bytes. -/
inductive Supplies (io : GzCalls φ) : GzSource φ → List UInt8 → Nat → Prop
  | here {s : GzSource φ} {avail : List UInt8} {n : Nat} (h : n ≤ avail.length) :
      Supplies io s avail n
  | more {s : GzSource φ} {avail : List UInt8} {n : Nat} {f : Fetched φ} (hend : ¬ s.AtEnd)
      (hf : gzFetch io s = some f) (hok : f.ok = true)
      (h : Supplies io f.src f.avail (n - avail.length)) : Supplies io s avail n

theorem supplies_drop {avail : List UInt8} {n : Nat} (h : avail.length < n) :
    Supplies io s avail n ↔ Supplies io s [] (n - avail.length) := by
  constructor
  · intro hs
    cases hs with
    | here hle => omega
    | more hend hf hok hs => exact .more hend hf hok (by simpa using hs)
  · intro hs
    cases hs with
    | here hle =>
      rw [List.length_nil] at hle
      omega
    | more hend hf hok hs => exact .more hend hf hok (by simpa using hs)

theorem supplies_fetch {n : Nat} {f : Fetched φ} (hn : 0 < n) (hend : ¬ s.AtEnd)
    (hf : gzFetch io s = some f) (hok : f.ok = true) :
    Supplies io s [] n ↔ Supplies io f.src f.avail n := by
  constructor
  · intro hs
    cases hs with
    | here hle =>
      rw [List.length_nil] at hle
      omega
    | more _ hg _ hs =>
      cases hf.symm.trans hg
      simpa using hs
  · intro hs
    exact .more hend hf hok (by simpa using hs)

/-- What `gz_skip` leaves when it succeeds. -/
structure SkipSpec (io : GzCalls φ) (s : GzSource φ) (avail : List UInt8) (skip : Nat)
    (r : Skipped φ) : Prop where
  fine : s.Fine → r.src.Fine
  done : r.left = 0 ↔ Supplies io s avail skip
  stop : r.left ≠ 0 → r.avail = [] ∧ r.src.AtEnd

/-- No more is left than was requested, and a failure leaves no data. -/
theorem gzSkip_left {avail : List UInt8} {skip : Nat} {r : Skipped φ}
    (h : gzSkip io s avail skip = some r) : r.left ≤ skip ∧ (r.ok = false → r.avail = []) := by
  refine gzSkip.partial_correctness io
    (fun _ _ skip r => r.left ≤ skip ∧ (r.ok = false → r.avail = [])) ?_ s avail skip r h
  intro gzSkip ih s avail skip r hr
  split at hr
  · split at hr
    · cases hr
      exact ⟨Nat.zero_le _, fun hno => Bool.noConfusion hno⟩
    · obtain ⟨hle, hno⟩ := ih _ _ _ _ hr
      exact ⟨by omega, hno⟩
  · split at hr
    · cases hr
      exact ⟨Nat.le_refl _, fun _ => rfl⟩
    · obtain ⟨f, -, hr⟩ := Option.bind_eq_some_iff.mp hr
      split at hr
      · exact ih _ _ _ _ hr
      · cases hr
        exact ⟨Nat.le_refl _, fun _ => rfl⟩

theorem gzSkip_spec {avail : List UInt8} {skip : Nat} {r : Skipped φ} (hpos : 0 < skip)
    (h : gzSkip io s avail skip = some r) (hok : r.ok = true) : SkipSpec io s avail skip r := by
  revert hok hpos
  refine gzSkip.partial_correctness io
    (fun s avail skip r => 0 < skip → r.ok = true → SkipSpec io s avail skip r) ?_ s avail skip r h
  intro gzSkip ih s avail skip r hr hpos hok
  split at hr
  · have hlen : 0 < avail.length := List.length_pos_iff.mpr ‹_›
    split at hr
    · next hzero =>
      cases hr
      exact ⟨id, iff_of_true rfl (.here (by omega)), fun h => absurd rfl h⟩
    · next hleft =>
      have hmin : min avail.length skip = avail.length := by omega
      rw [hmin] at hr hleft
      rw [List.drop_length] at hr
      obtain ⟨hfine, hdone, hstop⟩ := ih _ _ _ _ hr (by omega) hok
      exact ⟨hfine, hdone.trans (supplies_drop (by omega)).symm, hstop⟩
  · next hnil =>
    rw [not_not] at hnil
    subst hnil
    split at hr
    · next hend =>
      cases hr
      refine ⟨id, iff_of_false (by dsimp only; omega) ?_, fun _ => ⟨rfl, hend⟩⟩
      intro hs
      cases hs with
      | here hle =>
        rw [List.length_nil] at hle
        omega
      | more hnot => exact hnot hend
    · next hend =>
      obtain ⟨f, hf, hr⟩ := Option.bind_eq_some_iff.mp hr
      split at hr
      · next hfok =>
        obtain ⟨hfine, hdone, hstop⟩ := ih _ _ _ _ hr hpos hok
        exact ⟨fun h => hfine (gzFetch_fine hf hfok h),
          hdone.trans (supplies_fetch hpos hend hf hfok).symm, hstop⟩
      · cases hr
        cases hok

/-- A byte before the data is copied first, and the others as before. -/
theorem readLoop_cons (c : UInt8) (avail : List UInt8) (len : Nat) :
    readLoop io s (c :: avail) (len + 1) = (readLoop io s avail len).map (Reading.prepend [c]) := by
  have hmin : min (c :: avail).length (len + 1) = min avail.length len + 1 := by
    rw [List.length_cons]
    omega
  rw [readLoop, if_neg (by omega), if_pos (List.cons_ne_nil _ _), hmin, List.drop_succ_cons,
    List.take_succ_cons]
  have hlen : len + 1 - (min avail.length len + 1) = len - min avail.length len := by omega
  rw [hlen]
  by_cases hskip : len = 0 ∨ avail = []
  · have hzero : min avail.length len = 0 := by
      obtain rfl | rfl := hskip
      · exact Nat.min_zero _
      · exact Nat.zero_min _
    rw [hzero, List.drop_zero, List.take_zero, Nat.sub_zero]
    cases readLoop io s avail len <;> rfl
  · rw [not_or] at hskip
    rw [readLoop.eq_def io s avail len, if_neg hskip.1, if_pos hskip.2]
    cases readLoop io s (avail.drop (min avail.length len)) (len - min avail.length len) <;> rfl

/-- The same for a line, which ends with the byte if it is a newline. -/
theorem getsLoop_cons (c : UInt8) (avail : List UInt8) (left : Nat) :
    getsLoop io s (c :: avail) (left + 1) =
      if c = 10 then some ⟨true, [c], avail, false, s⟩
      else (getsLoop io s avail left).map (Reading.prepend [c]) := by
  have hmin : min (c :: avail).length (left + 1) = min avail.length left + 1 := by
    rw [List.length_cons]
    omega
  have hfill : gzFill io s (c :: avail) = some ⟨true, c :: avail, s⟩ := rfl
  rw [getsLoop, if_neg (by omega), hfill, Option.bind_eq_bind, Option.bind_some]
  dsimp only
  rw [if_neg (by decide), if_neg (List.cons_ne_nil _ _), hmin, List.take_succ_cons,
    List.drop_succ_cons]
  have hlen : left + 1 - (min avail.length left + 1) = left - min avail.length left := by omega
  rw [hlen, List.findIdx?_cons]
  by_cases hc : c = 10
  · simp [hc]
  · rw [if_neg (by simpa using hc), if_neg hc]
    by_cases hskip : left = 0 ∨ avail = []
    · have hzero : min avail.length left = 0 := by
        obtain rfl | rfl := hskip
        · exact Nat.min_zero _
        · exact Nat.zero_min _
      rw [hzero, List.drop_zero, List.take_zero, Nat.sub_zero, List.findIdx?_nil]
      cases getsLoop io s avail left <;> simp
    · rw [not_or] at hskip
      have hfill : gzFill io s avail = some ⟨true, avail, s⟩ := if_neg hskip.2
      rw [getsLoop.eq_def io s avail left, if_neg hskip.1, hfill]
      simp only [Option.bind_eq_bind, Option.bind_some]
      rw [if_neg (by decide), if_neg hskip.2]
      cases (avail.take (min avail.length left)).findIdx? (· = 10) with
      | some i => rfl
      | none =>
        cases getsLoop io s (avail.drop (min avail.length left))
          (left - min avail.length left) <;> simp [Reading.prepend]

end GzSource

namespace GzReader
variable {φ : Type} {io : GzCalls φ} {s t : GzReader φ}

/-- The calls that deliver bytes. -/
inductive ReadCall
  | read (len : Nat)
  | getc
  | gets (len : Nat)

/-- The bytes that a call delivers, none where it fails. -/
def ReadCall.run (io : GzCalls φ) (s : GzReader φ) : ReadCall → Option (List UInt8 × GzReader φ)
  | read len => (s.gzread io len).map fun r => (r.1.getD [], r.2)
  | getc => (s.gzgetc io).map fun r => (if r.1 < 0 then [] else [UInt8.ofNat r.1.toNat], r.2)
  | gets len => (s.gzgets io len).map fun r => (r.1.getD [], r.2)

/-- The bytes that the calls of a run deliver, one list for each call. -/
def delivered (io : GzCalls φ) : List ReadCall → GzReader φ → Option (List (List UInt8))
  | [], _ => some []
  | call :: calls, s => do
    let (bytes, s) ← call.run io s
    let rest ← delivered io calls s
    return bytes :: rest

/-- Bytes pushed one after the other, none of them refused. -/
def gzungetcs (io : GzCalls φ) : List Int → GzReader φ → Option (GzReader φ)
  | [], s => some s
  | c :: cs, s => do
    let (ret, s) ← s.gzungetc io c
    if ret = c then gzungetcs io cs s else none

def gzgetcs (io : GzCalls φ) : Nat → GzReader φ → Option (List Int × GzReader φ)
  | 0, s => some ([], s)
  | n + 1, s => do
    let (c, s) ← s.gzgetc io
    let (cs, s) ← gzgetcs io n s
    return (c :: cs, s)

/-- The law of a byte `c` pushed in the state `s`, with its seek completed; `t` is the state after
the push. The byte comes first, then the data, and then the bytes of earlier pushes; it lies before
the data wherever that is in the output buffer. -/
structure PushLaw (io : GzCalls φ) (s t : GzReader φ) (c : Int) : Prop where
  tell : t.gztell = s.gztell - 1
  getc : t.gzgetc io = some (c, s.clearPast)
  read : ∀ len, len + 1 < 2 ^ 31 → t.gzread io (len + 1) =
    (s.clearPast.gzRead io len).map fun r => (r.prepend (UInt8.ofNat c.toNat)).count
  gets : ∀ left, t.gzgets io (left + 2) =
    if c = 10 then some (some [10], s.clearPast)
    else (s.clearPast.gzGets io left).map fun r => (r.prepend (UInt8.ofNat c.toNat)).line
  placed : ∀ b : OutBuffer, b.bytes = s.avail → b.size = s.src.size →
    (b.push (UInt8.ofNat c.toNat)).map OutBuffer.bytes = some t.avail
  lifo : ∀ cs u, (∀ d ∈ cs, 0 ≤ d ∧ d ≤ 255) → gzungetcs io cs t = some u →
    gzgetcs io (cs.length + 1) u = some (cs.reverse ++ [c], s.clearPast)

theorem complete_clearPast (s : GzReader φ) :
    s.clearPast.complete io = (s.complete io).map fun r => (r.1, r.2.clearPast) := by
  unfold complete
  have hskip : s.clearPast.skip = s.skip := rfl
  rw [hskip]
  by_cases hzero : s.skip = 0
  · rw [if_pos hzero, if_pos hzero]
    rfl
  · have hsame : s.clearPast.src.gzSkip io s.clearPast.avail s.skip =
        s.src.gzSkip io s.avail s.skip := rfl
    rw [if_neg hzero, if_neg hzero, hsame]
    cases s.src.gzSkip io s.avail s.skip <;> rfl

/-- The note of a read past the end makes no difference to what is delivered. -/
theorem gzRead_clearPast (s : GzReader φ) (len : Nat) :
    (s.clearPast.gzRead io len).map Delivery.clearPast =
      (s.gzRead io len).map Delivery.clearPast := by
  unfold gzRead
  split
  · rfl
  · rw [complete_clearPast]
    cases s.complete io with
    | none => rfl
    | some r =>
      obtain ⟨ok, t⟩ := r
      cases ok with
      | false => rfl
      | true =>
        have hsame : t.clearPast.src.readLoop io t.clearPast.avail len =
            t.src.readLoop io t.avail len := rfl
        simp only [Option.map_some, Option.bind_eq_bind, Option.bind_some, hsame, if_true]
        cases t.src.readLoop io t.avail len <;> rfl

theorem gzGets_clearPast (s : GzReader φ) (left : Nat) :
    (s.clearPast.gzGets io left).map Delivery.clearPast =
      (s.gzGets io left).map Delivery.clearPast := by
  unfold gzGets
  rw [complete_clearPast]
  cases s.complete io with
  | none => rfl
  | some r =>
    obtain ⟨ok, t⟩ := r
    cases ok with
    | false => rfl
    | true =>
      have hsame : t.clearPast.src.getsLoop io t.clearPast.avail left =
          t.src.getsLoop io t.avail left := rfl
      simp only [Option.map_some, Option.bind_eq_bind, Option.bind_some, hsame, if_true]
      cases t.src.getsLoop io t.avail left <;> rfl

theorem ReadCall.run_clearPast (call : ReadCall) (s : GzReader φ) :
    (call.run io s.clearPast).map (fun r => (r.1, r.2.clearPast)) =
      (call.run io s).map fun r => (r.1, r.2.clearPast) := by
  have hsrc : s.clearPast.src = s.src := rfl
  have havail : s.clearPast.avail = s.avail := rfl
  cases call with
  | read len =>
    simp only [run, gzread, hsrc]
    split
    · rfl
    · split
      · rfl
      · have h := congrArg (Option.map fun r : Delivery φ => (r.count.1.getD [], r.count.2))
          (@gzRead_clearPast φ io s len)
        rw [Option.map_map, Option.map_map] at h
        rw [Option.map_map, Option.map_map, Option.map_map, Option.map_map]
        exact h
  | getc =>
    simp only [run, gzgetc, hsrc, havail]
    split
    · rfl
    · cases s.avail with
      | cons b avail => rfl
      | nil =>
        have h := @gzRead_clearPast φ io s 1
        dsimp only
        cases hr : s.clearPast.gzRead io 1 with
        | none =>
          rw [hr] at h
          rw [Option.map_eq_none_iff.mp h.symm]
        | some r =>
          rw [hr, Option.map_some] at h
          obtain ⟨t, ht, heq⟩ := Option.map_eq_some_iff.mp h.symm
          have hreturned := congrArg Delivery.returned heq
          have hstate := congrArg Delivery.state heq
          change t.returned = r.returned at hreturned
          change t.state.clearPast = r.state.clearPast at hstate
          rw [ht]
          simp only [Option.map_some, hreturned, hstate]
  | gets len =>
    simp only [run, gzgets, hsrc]
    split
    · rfl
    · split
      · rfl
      · have h := congrArg (Option.map fun r : Delivery φ => (r.line.1.getD [], r.line.2))
          (@gzGets_clearPast φ io s (len - 1))
        rw [Option.map_map, Option.map_map] at h
        rw [Option.map_map, Option.map_map, Option.map_map, Option.map_map]
        exact h

theorem delivered_clearPast (calls : List ReadCall) (s : GzReader φ) :
    delivered io calls s.clearPast = delivered io calls s := by
  induction calls generalizing s with
  | nil => rfl
  | cons call calls ih =>
    have hstep (s : GzReader φ) : delivered io (call :: calls) s =
        ((call.run io s).map fun r => (r.1, r.2.clearPast)).bind fun r =>
          (delivered io calls r.2).bind fun rest => some (r.1 :: rest) := by
      rw [delivered]
      cases call.run io s with
      | none => rfl
      | some r =>
        simp only [Option.bind_eq_bind, Option.bind_some, Option.map_some, ih]
        rfl
    rw [hstep, hstep, call.run_clearPast]

theorem run_error (call : ReadCall) (hs : ¬ s.src.Fine) : call.run io s = some ([], s) := by
  cases call with
  | read len =>
    simp only [ReadCall.run, gzread, if_pos hs]
    rfl
  | getc =>
    simp only [ReadCall.run, gzgetc, if_pos hs]
    rfl
  | gets len =>
    simp only [ReadCall.run, gzgets, if_pos hs, ite_self]
    rfl

/-- After a serious error nothing is delivered. -/
theorem delivered_error {calls : List ReadCall} {s t : GzReader φ} (hs : ¬ s.src.Fine)
    (ht : ¬ t.src.Fine) : delivered io calls s = delivered io calls t := by
  induction calls with
  | nil => rfl
  | cons call calls ih =>
    rw [delivered, delivered, run_error call hs, run_error call ht, Option.bind_eq_bind,
      Option.bind_some, Option.bind_some]
    dsimp only
    rw [ih]

/-- A byte comes through `gz_read`, or without a pending seek as if it did. -/
theorem gzgetc_eq (hfine : s.src.Fine) (hempty : s.avail = [] ∨ s.skip = 0) :
    s.gzgetc io = (s.gzRead io 1).map fun r =>
      (match r.returned with
        | [] => -1
        | b :: _ => b.toNat, r.state) := by
  unfold gzgetc
  rw [if_neg (not_not.mpr hfine)]
  cases hbuf : s.avail with
  | nil => rfl
  | cons b avail =>
    have hskip : s.skip = 0 := hempty.resolve_left (by rw [hbuf]; exact List.cons_ne_nil b avail)
    have hself : s.complete io = some (true, s) := if_pos hskip
    have hloop : s.src.readLoop io (b :: avail) 1 = some ⟨true, [b], avail, false, s.src⟩ := by
      rw [GzSource.readLoop_cons, GzSource.readLoop, if_pos rfl]
      rfl
    unfold GzReader.gzRead
    rw [if_neg (by decide), hself]
    simp only [Option.bind_eq_bind, Option.bind_some, if_true, hbuf, hloop]
    simp [after, Delivery.returned]

section Completed
variable {v : GzReader φ} (hdone : s.complete io = some (true, v)) (hzero : v.skip = 0)

include hdone hzero

theorem gzRead_complete {len : Nat} (hlen : len ≠ 0) : s.gzRead io len = v.gzRead io len := by
  have hself : v.complete io = some (true, v) := if_pos hzero
  unfold gzRead
  rw [if_neg hlen, if_neg hlen, hdone, hself]

theorem gzGets_complete (left : Nat) : s.gzGets io left = v.gzGets io left := by
  have hself : v.complete io = some (true, v) := if_pos hzero
  unfold gzGets
  rw [hdone, hself]

theorem gzgetc_complete (hs : s.src.Fine) (hv : v.src.Fine) (havail : s.avail = []) :
    s.gzgetc io = v.gzgetc io := by
  rw [gzgetc_eq hs (.inl havail), gzgetc_eq hv (.inr hzero), gzRead_complete hdone hzero (by decide)]

/-- A pending seek that ends within the data makes no difference, whenever it is completed. -/
theorem delivered_complete (hs : s.src.Fine) (hv : v.src.Fine) (havail : s.avail = [])
    (calls : List ReadCall) : delivered io calls v = delivered io calls s := by
  induction calls with
  | nil => rfl
  | cons call calls ih =>
    rw [delivered, delivered]
    cases call with
    | read len =>
      simp only [ReadCall.run, gzread, if_neg (not_not.mpr hs), if_neg (not_not.mpr hv)]
      split
      · have herr : ∀ s : GzReader φ,
            ¬ ({ s with src := { s.src with err := zStreamError }, avail := [] } :
              GzReader φ).src.Fine := fun s h => by
          obtain h | h := h <;> cases h
        have hrest := @delivered_error φ io calls _ _ (herr v) (herr s)
        simp only [Option.map_some, Option.bind_eq_bind, Option.bind_some]
        rw [hrest]
      · by_cases hlen : len = 0
        · have hv0 : v.gzRead io len = some ⟨true, [], v⟩ := if_pos hlen
          have hs0 : s.gzRead io len = some ⟨true, [], s⟩ := if_pos hlen
          rw [hv0, hs0]
          simp [Delivery.count, Delivery.returned, hs, hv, ih]
        · rw [gzRead_complete hdone hzero hlen]
    | getc =>
      simp only [ReadCall.run]
      rw [gzgetc_complete hdone hzero hs hv havail]
    | gets len =>
      simp only [ReadCall.run, gzgets, if_neg (not_not.mpr hs), if_neg (not_not.mpr hv)]
      split
      · simp [ih]
      · rw [gzGets_complete hdone hzero]

end Completed

section Pushed
variable {c : Int}

/-- A state with bytes in the buffer and no seek pending: the byte is pushed, or there is no room. -/
theorem gzungetc_busy (hfine : s.src.Fine) (hskip : s.skip = 0) (havail : s.avail ≠ [])
    {r : Int × GzReader φ} (h : s.gzungetc io c = some r) (hc : 0 ≤ c) (hret : r.1 = c) :
    r.2 = s.push (UInt8.ofNat c.toNat) := by
  have hlook : s.look io = some s := if_neg fun h => havail h.2
  have hdone : s.complete io = some (true, s) := if_pos hskip
  unfold gzungetc at h
  rw [hlook, Option.bind_eq_bind, Option.bind_some, if_neg (not_not.mpr hfine), hdone,
    Option.bind_eq_bind, Option.bind_some] at h
  dsimp only at h
  rw [if_neg (by decide), if_neg (by omega), if_neg havail] at h
  split at h
  · cases h
    dsimp only at hret
    omega
  · cases h
    rfl

/-- The byte lies before the others in the output buffer, for it has room. -/
theorem push_outBuffer (hroom : s.avail = [] ∨ s.avail.length ≠ 2 * s.src.size) {b : OutBuffer}
    (havail : b.bytes = s.avail) (hsize : b.size = s.src.size) (c : UInt8) :
    (b.push c).map OutBuffer.bytes = some (s.push c).avail := by
  have hfree : ¬ b.bytes.length = 2 * b.size := by
    have hpos := b.size_pos
    rw [havail]
    obtain hnil | hne := hroom
    · rw [hnil, List.length_nil]
      omega
    · rwa [hsize]
  rw [OutBuffer.push_bytes, if_neg hfree, havail]
  rfl

theorem gzgetc_cons (hfine : s.src.Fine) {b : UInt8} :
    (s.push b).gzgetc io = some ((b.toNat : Int), s.clearPast) := by
  have hpos : s.pos - 1 + 1 = s.pos := Int64.sub_add_cancel ..
  unfold gzgetc
  rw [if_neg (not_not.mpr (show (s.push _).src.Fine from hfine))]
  dsimp only [push]
  rw [hpos]
  rfl

theorem gzgetc_push (hfine : s.src.Fine) (hc : 0 ≤ c) (hmax : c ≤ 255) :
    (s.push (UInt8.ofNat c.toNat)).gzgetc io = some (c, s.clearPast) := by
  have hbyte : ((UInt8.ofNat c.toNat).toNat : Int) = c := by
    rw [UInt8.toNat_ofNat']
    omega
  rw [gzgetc_cons hfine, hbyte]

/-- The pushed byte makes up for the step back of the position. -/
theorem after_push (b : UInt8) (r : Reading φ) :
    (s.push b).after (r.prepend [b]) = s.clearPast.after r := by
  have hpos : s.pos - 1 + Int64.ofNat (1 + r.bytes.length) = s.pos + Int64.ofNat r.bytes.length := by
    rw [Int64.ofNat_add, ← Int64.add_assoc]
    exact congrArg (· + Int64.ofNat r.bytes.length) (Int64.sub_add_cancel s.pos 1)
  simp only [after, push, Reading.prepend, List.length_append, List.length_singleton, clearPast,
    hpos]

/-- What the loop delivers for a pushed byte and more. -/
theorem gzRead_push (hskip : s.skip = 0) (b : UInt8) (len : Nat) :
    (s.push b).gzRead io (len + 1) = (s.clearPast.gzRead io len).map (Delivery.prepend b) := by
  have hdone : (s.push b).complete io = some (true, s.push b) := if_pos hskip
  have hdone' : s.clearPast.complete io = some (true, s.clearPast) := if_pos hskip
  have hloop : (s.push b).src.readLoop io (s.push b).avail (len + 1) =
      (s.src.readLoop io s.avail len).map (Reading.prepend [b]) := GzSource.readLoop_cons b _ len
  have hshort : (s.push b).gzRead io (len + 1) =
      ((s.src.readLoop io s.avail len).map fun r =>
        (⟨r.ok, b :: r.bytes, s.clearPast.after r⟩ : Delivery φ)) := by
    unfold gzRead
    rw [if_neg (by omega), hdone]
    simp only [Option.bind_eq_bind, Option.bind_some, if_true, hloop]
    cases s.src.readLoop io s.avail len with
    | none => rfl
    | some r =>
      simp only [Option.map_some, Option.bind_some, after_push]
      rfl
  rw [hshort]
  unfold gzRead
  by_cases hlen : len = 0
  · subst hlen
    rw [GzSource.readLoop, if_pos rfl, if_pos rfl]
    simp [after, clearPast, Delivery.prepend]
  · rw [if_neg hlen, hdone']
    simp only [Option.bind_eq_bind, Option.bind_some, if_true]
    have hsame : s.clearPast.src.readLoop io s.clearPast.avail len =
        s.src.readLoop io s.avail len := rfl
    rw [hsame]
    cases s.src.readLoop io s.avail len <;> rfl

theorem gzGets_push (hskip : s.skip = 0) (b : UInt8) (left : Nat) :
    (s.push b).gzGets io (left + 1) =
      if b = 10 then some ⟨true, [b], s.clearPast⟩
      else (s.clearPast.gzGets io left).map (Delivery.prepend b) := by
  have hdone : (s.push b).complete io = some (true, s.push b) := if_pos hskip
  have hdone' : s.clearPast.complete io = some (true, s.clearPast) := if_pos hskip
  have hloop : (s.push b).src.getsLoop io (s.push b).avail (left + 1) =
      if b = 10 then some ⟨true, [b], s.avail, false, s.src⟩
      else (s.src.getsLoop io s.avail left).map (Reading.prepend [b]) :=
    GzSource.getsLoop_cons b _ left
  have hsame : s.clearPast.src.getsLoop io s.clearPast.avail left =
      s.src.getsLoop io s.avail left := rfl
  unfold gzGets
  rw [hdone, hdone']
  simp only [Option.bind_eq_bind, Option.bind_some, if_true, hloop, hsame]
  by_cases hb : b = 10
  · rw [if_pos hb, if_pos hb, Option.bind_some]
    simp [after, push, clearPast]
  · rw [if_neg hb, if_neg hb]
    cases s.src.getsLoop io s.avail left with
    | none => rfl
    | some r =>
      simp only [Option.map_some, Option.bind_some, after_push]
      rfl

/-- Bytes pushed onto a byte come back in the opposite order. -/
theorem gzgetcs_append {m : Nat} {cs : List Int} {u : GzReader φ}
    (h : gzgetcs io m s = some (cs, t)) (hlast : t.gzgetc io = some (c, u)) :
    gzgetcs io (m + 1) s = some (cs ++ [c], u) := by
  induction m generalizing s cs with
  | zero =>
    cases h
    simp [gzgetcs, hlast]
  | succ m ih =>
    rw [gzgetcs] at h
    obtain ⟨⟨d, v⟩, hd, h⟩ := Option.bind_eq_some_iff.mp h
    obtain ⟨⟨ds, w⟩, hds, h⟩ := Option.bind_eq_some_iff.mp h
    cases h
    rw [gzgetcs, hd, Option.bind_eq_bind, Option.bind_some]
    dsimp only
    rw [ih hds]
    rfl

theorem gzungetcs_lifo {cs : List Int} {u : GzReader φ} (hfine : s.src.Fine)
    (hskip : s.skip = 0) (havail : s.avail ≠ []) (hpast : s.past = false)
    (hcs : ∀ d ∈ cs, 0 ≤ d ∧ d ≤ 255) (h : gzungetcs io cs s = some u) :
    gzgetcs io cs.length u = some (cs.reverse, s) := by
  induction cs generalizing s with
  | nil =>
    cases h
    rfl
  | cons d ds ih =>
    obtain ⟨hd, hmax⟩ := hcs d (List.mem_cons_self ..)
    rw [gzungetcs] at h
    obtain ⟨⟨ret, v⟩, hpush, h⟩ := Option.bind_eq_some_iff.mp h
    dsimp only at h
    split at h
    · next hret =>
      have hv : v = s.push (UInt8.ofNat d.toNat) :=
        gzungetc_busy hfine hskip havail hpush hd hret
      subst hv
      have hrest := @ih (s.push _) hfine hskip (List.cons_ne_nil _ _) rfl
        (fun e he => hcs e (List.mem_cons_of_mem _ he)) h
      have hself : s.clearPast = s := by
        cases s
        cases hpast
        rfl
      have hget := @gzgetc_push φ io s d hfine hd hmax
      rw [hself] at hget
      rw [List.reverse_cons, List.length_cons]
      exact gzgetcs_append hrest hget
    · cases h

/-- With no seek pending, the law holds of a byte. -/
theorem pushLaw (hfine : s.src.Fine) (hskip : s.skip = 0) (hc : 0 ≤ c) (hmax : c ≤ 255)
    (hroom : s.avail = [] ∨ s.avail.length ≠ 2 * s.src.size) :
    PushLaw io s (s.push (UInt8.ofNat c.toNat)) c where
  tell := by
    simp only [gztell, push, hskip]
    split <;> simp
  getc := gzgetc_push hfine hc hmax
  read len hlen := by
    unfold gzread
    rw [if_neg (not_not.mpr (show (s.push _).src.Fine from hfine)), if_neg (by omega),
      gzRead_push hskip, Option.map_map]
    rfl
  gets left := by
    have hten : UInt8.ofNat c.toNat = 10 ↔ c = 10 := by
      rw [← UInt8.toNat_inj, UInt8.toNat_ofNat']
      simp only [UInt8.toNat_ofNat]
      omega
    have hlen : left + 2 - 1 = left + 1 := rfl
    unfold gzgets
    rw [if_neg (by omega), if_neg (not_not.mpr (show (s.push _).src.Fine from hfine)), hlen,
      gzGets_push hskip]
    by_cases h : c = 10
    · rw [if_pos h, if_pos (hten.mpr h), hten.mpr h]
      rfl
    · rw [if_neg h, if_neg fun hb => h (hten.mp hb), Option.map_map]
      rfl
  placed _ havail hsize := push_outBuffer hroom havail hsize _
  lifo cs u hcs h := gzgetcs_append
    (gzungetcs_lifo (s := s.push _) hfine hskip (List.cons_ne_nil _ _) rfl hcs h)
    (gzgetc_push hfine hc hmax)

/-- A seek that ran past the end stays pending: it takes the byte pushed before `gzread` comes to
it. -/
theorem gzRead_swallowed {b : UInt8} (hfine : s.src.Fine) (hskip : s.skip ≠ 0) (havail : s.avail = [])
    (hend : s.src.AtEnd) :
    ∃ u, (s.push b).gzRead io 1 = some ⟨true, [], u⟩ ∧ u.src.Fine := by
  have hskipped : ∃ k, s.src.gzSkip io [b] s.skip = some ⟨true, [], k, s.src⟩ := by
    rw [GzSource.gzSkip, if_pos (List.cons_ne_nil _ _)]
    have hmin : min [b].length s.skip = 1 := by
      rw [List.length_singleton]
      omega
    rw [hmin]
    split
    · exact ⟨0, rfl⟩
    · refine ⟨s.skip - 1, ?_⟩
      have hnil : [b].drop 1 = [] := rfl
      rw [hnil, GzSource.gzSkip, if_neg (by simp), if_pos hend]
  obtain ⟨k, hk⟩ := hskipped
  have hpushed : (s.push b).avail = [b] := by
    unfold push
    rw [havail]
  have hsrc : (s.push b).src = s.src := rfl
  have hkeep : (s.push b).skip = s.skip := rfl
  have hloop : s.src.readLoop io [] 1 = some ⟨true, [], [], true, s.src⟩ := by
    rw [GzSource.readLoop, if_neg (by decide), if_neg (by simp), if_pos hend]
  unfold gzRead complete
  rw [if_neg (by decide), hkeep, if_neg hskip, hpushed, hsrc, hk]
  simp only [Option.bind_eq_bind, Option.bind_some, pure, if_true, hloop]
  exact ⟨_, rfl, hfine⟩

end Pushed

/-- After a push that follows the law, `gzread` delivers the byte. -/
theorem PushLaw.read_one {c : Int} (h : PushLaw io s t c) :
    (t.gzread io 1).map Prod.fst = some (some [UInt8.ofNat c.toNat]) := by
  have hnone : s.clearPast.gzRead io 0 = some ⟨true, [], s.clearPast⟩ := if_pos rfl
  have hread := h.read 0 (by decide)
  rw [hnone] at hread
  rw [hread]
  rfl

/-- A seek that ran past the end stays pending, and takes the byte. -/
theorem gzread_swallowed {b : UInt8} (hfine : s.src.Fine) (hskip : s.skip ≠ 0)
    (havail : s.avail = []) (hend : s.src.AtEnd) :
    ((s.push b).gzread io 1).map Prod.fst = some (some []) := by
  obtain ⟨u, hu, hgood⟩ := @gzRead_swallowed φ io s b hfine hskip havail hend
  unfold gzread
  rw [if_neg (not_not.mpr (show (s.push _).src.Fine from hfine)), if_neg (by decide), hu]
  simp [Delivery.count, Delivery.returned, hgood]

end GzReader
end ZlibNg
