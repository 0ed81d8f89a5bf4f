import ZlibNg.Trees.Huffman
import ZlibNg.Trees.Segment

/-! The two buffers in which `build_tree` sorts its leaves and queues the nodes that it creates. -/
namespace ZlibNg

/-- `pq_leaves` and `pq_scratch`, of `L_CODES + 1` entries each. -/
inductive PqBuf where
  | leaves | scratch
  deriving DecidableEq, Repr

def lCodes : Nat := 286

/-- `pq_radix_pass` from one buffer to another. -/
def radixPass (buf : PqBuf → Nat → Nat) (src dst : PqBuf) (n shift : Nat) (count : Nat → Nat) :
    PqBuf → Nat → Nat :=
  Function.update buf dst
    ((List.range n).foldl (fun s i => radixStep shift s (buf src i)) (radixStarts count, buf dst)).2

/-- The buffers, which of them has the sorted leaves and which the created nodes, the positions in
both queues, and the tree under construction. -/
structure PqState where
  buf : PqBuf → Nat → Nat
  sorted : PqBuf
  internals : PqBuf
  nleaves : Nat
  li : Nat
  ihead : Nat
  itail : Nat
  node : Nat
  freq : Nat → Nat
  dl : Nat → Nat

/-- The scan of the frequencies, with the codes that are forced. -/
def StaticTreeDesc.scan (desc : StaticTreeDesc) (freq dl : Nat → Nat) (optLen staticLen : Int) :
    TreeScan :=
  ((List.range desc.elems).foldl TreeScan.step
    { leaves := [], countLo := fun _ => 0, countHi := fun _ => 0, maxCode := -1, freq := freq,
      dl := dl, optLen := optLen, staticLen := staticLen }).force desc

/-- The leaves are sorted: in place, or by one or two passes between the buffers. -/
def TreeScan.sortLeaves (s : TreeScan) (elems : Nat) (old : PqBuf → Nat → Nat) : PqState :=
  let n := s.leaves.length
  let buf := Function.update old .leaves fun i => s.leaves.getD i (old .leaves i)
  let q : PqState := {
    buf := buf, sorted := .leaves, internals := .scratch, nleaves := n, li := 0, ihead := 0
    itail := 0, node := elems, freq := s.freq, dl := s.dl }
  if n = 2 then
    let a := buf .leaves
    if a 0 > a 1 then
      { q with buf := Function.update buf .leaves (Function.update (Function.update a 0 (a 1)) 1 (a 0)) }
    else q
  else if s.countHi 1 = n then
    { q with
      buf := radixPass buf .leaves .scratch n pqNodeBits s.countLo
      sorted := .scratch
      internals := .leaves }
  else
    { q with
      buf := radixPass (radixPass buf .leaves .scratch n pqNodeBits s.countLo) .scratch .leaves n
        (pqNodeBits + 8) s.countHi }

namespace PqState

/-- `pq_take`: the smaller head, and the positions after it. -/
def take (q : PqState) : Nat × PqState :=
  if q.li < q.nleaves ∧
      (q.ihead = q.itail ∨ q.buf q.sorted q.li < q.buf q.internals q.ihead) then
    (q.buf q.sorted q.li, { q with li := q.li + 1 })
  else (q.buf q.internals q.ihead, { q with ihead := q.ihead + 1 })

/-- The sum that the frequency of the next node is made of. -/
def mergeSum (q : PqState) : Nat := pqFreq q.take.1 + pqFreq q.take.2.take.1

/-- Combine the two least frequent nodes. -/
def merge (q : PqState) : PqState :=
  let en := q.take
  let em := en.2.take
  let n := pqNode en.1
  let m := pqNode em.1
  let f := (pqFreq en.1 + pqFreq em.1) % 2 ^ 16
  let q := em.2
  { q with
    freq := Function.update q.freq q.node f
    dl := Function.update (Function.update q.dl m q.node) n q.node
    buf := Function.update q.buf q.internals
      (Function.update (q.buf q.internals) q.itail (pqPack f q.node))
    itail := q.itail + 1
    node := q.node + 1 }

def run : Nat → PqState → PqState
  | 0, q => q
  | k + 1, q => run k q.merge

/-- The queues as lists. -/
def queues (q : PqState) : MergeState :=
  { leaves := segment (q.buf q.sorted) q.li q.nleaves
    internals := segment (q.buf q.internals) q.ihead q.itail
    node := q.node
    freq := q.freq
    dl := q.dl }

/-- The queues are in different buffers, and neither position has passed the end. -/
structure Ok (q : PqState) : Prop where
  apart : q.sorted ≠ q.internals
  li : q.li ≤ q.nleaves
  ihead : q.ihead ≤ q.itail

/-- The number of entries in the queues. -/
def waiting (q : PqState) : Nat := q.nleaves - q.li + (q.itail - q.ihead)

/-- What `pq_take` leaves alone. -/
structure Same (q q' : PqState) : Prop where
  buf : q'.buf = q.buf
  sorted : q'.sorted = q.sorted
  internals : q'.internals = q.internals
  nleaves : q'.nleaves = q.nleaves
  itail : q'.itail = q.itail
  node : q'.node = q.node
  freq : q'.freq = q.freq
  dl : q'.dl = q.dl

variable {q : PqState}

/-- The head of either queue, from the cells that hold it. -/
theorem take_spec (h : q.Ok) (hne : q.li < q.nleaves ∨ q.ihead < q.itail) :
    pqTake q.queues.leaves q.queues.internals =
        (q.take.1, q.take.2.queues.leaves, q.take.2.queues.internals) ∧
      q.take.2.Ok ∧ q.Same q.take.2 ∧ q.take.2.li + q.take.2.ihead = q.li + q.ihead + 1 := by
  have hli := h.li
  have hihead := h.ihead
  have hleaf (hl : q.li < q.nleaves) : q.queues.leaves =
      q.buf q.sorted q.li :: segment (q.buf q.sorted) (q.li + 1) q.nleaves := segment_cons hl
  have hinternal (hi : q.ihead < q.itail) : q.queues.internals =
      q.buf q.internals q.ihead :: segment (q.buf q.internals) (q.ihead + 1) q.itail := segment_cons hi
  -- the positions after either head has been taken
  have hafter (hl : q.li < q.nleaves) :
      Ok { q with li := q.li + 1 } ∧ q.Same { q with li := q.li + 1 } :=
    ⟨⟨h.apart, hl, hihead⟩, ⟨rfl, rfl, rfl, rfl, rfl, rfl, rfl, rfl⟩⟩
  have hafter' (hi : q.ihead < q.itail) :
      Ok { q with ihead := q.ihead + 1 } ∧ q.Same { q with ihead := q.ihead + 1 } :=
    ⟨⟨h.apart, hli, hi⟩, ⟨rfl, rfl, rfl, rfl, rfl, rfl, rfl, rfl⟩⟩
  by_cases hcond : q.li < q.nleaves ∧
      (q.ihead = q.itail ∨ q.buf q.sorted q.li < q.buf q.internals q.ihead)
  · have htake : q.take = (q.buf q.sorted q.li, { q with li := q.li + 1 }) := if_pos hcond
    obtain ⟨hok, hsame⟩ := hafter hcond.1
    rw [htake]
    refine ⟨?_, hok, hsame, Nat.add_right_comm _ _ _⟩
    rw [hleaf hcond.1]
    rcases Nat.lt_or_ge q.ihead q.itail with hi | hi
    · rw [hinternal hi]
      have hlt := hcond.2.resolve_left hi.ne
      simp only [pqTake, if_pos hlt]
      rw [← hinternal hi]
      rfl
    · have hnil : q.queues.internals = [] := segment_of_le hi
      rw [hnil]
      exact congrArg (fun l => (_, _, l)) hnil.symm
  · have htake : q.take = (q.buf q.internals q.ihead, { q with ihead := q.ihead + 1 }) := if_neg hcond
    have hi : q.ihead < q.itail := by
      by_contra hge
      exact hcond ⟨hne.resolve_right hge, .inl (by omega)⟩
    obtain ⟨hok, hsame⟩ := hafter' hi
    rw [htake]
    refine ⟨?_, hok, hsame, rfl⟩
    rw [hinternal hi]
    rcases Nat.lt_or_ge q.li q.nleaves with hl | hl
    · rw [hleaf hl]
      have hge : ¬ q.buf q.sorted q.li < q.buf q.internals q.ihead := fun hlt => hcond ⟨hl, .inr hlt⟩
      simp only [pqTake, if_neg hge]
      rw [← hleaf hl]
      rfl
    · have hnil : q.queues.leaves = [] := segment_of_le hl
      rw [hnil]
      exact congrArg (fun l => (_, l, _)) hnil.symm

/-- A merge of the buffers is a merge of the queues, and touches the cell behind the created nodes
only. -/
structure Merged (q : PqState) : Prop where
  queues : q.merge.queues = q.queues.step
  ok : q.merge.Ok
  taken : q.merge.li + q.merge.ihead = q.li + q.ihead + 2
  places : (q.merge.sorted, q.merge.internals, q.merge.nleaves) = (q.sorted, q.internals, q.nleaves)
  itail : q.merge.itail = q.itail + 1
  kept : ∀ b i, (b = q.internals → i ≠ q.itail) → q.merge.buf b i = q.buf b i

theorem merge_spec (h : q.Ok) (hlen : 2 ≤ q.waiting) : q.Merged := by
  unfold waiting at hlen
  obtain ⟨ht1, hok1, hs1, hc1⟩ := take_spec h (by omega)
  have hli := h.li
  have hihead := h.ihead
  have hli1 := hok1.li
  have hihead1 := hok1.ihead
  rw [hs1.nleaves] at hli1
  rw [hs1.itail] at hihead1
  obtain ⟨ht2, hok2, hs2, hc2⟩ := take_spec hok1 (by rw [hs1.nleaves, hs1.itail]; omega)
  have hapart := h.apart
  have hli2 := hok2.li
  have hihead2 := hok2.ihead
  have hbuf : q.take.2.take.2.buf = q.buf := hs2.buf.trans hs1.buf
  have hsorted : q.take.2.take.2.sorted = q.sorted := hs2.sorted.trans hs1.sorted
  have hinternals : q.take.2.take.2.internals = q.internals := hs2.internals.trans hs1.internals
  have hnleaves : q.take.2.take.2.nleaves = q.nleaves := hs2.nleaves.trans hs1.nleaves
  have hitail : q.take.2.take.2.itail = q.itail := hs2.itail.trans hs1.itail
  have hnode : q.take.2.take.2.node = q.node := hs2.node.trans hs1.node
  rw [hnleaves] at hli2
  rw [hitail] at hihead2
  refine ⟨?_, ⟨?_, ?_, ?_⟩, ?_, ?_, ?_, fun b i hi => ?_⟩
  · unfold MergeState.step
    rw [ht1]
    dsimp only
    rw [ht2]
    unfold merge queues
    dsimp only
    rw [hbuf, hsorted, hinternals, hnleaves, hitail, hnode, Function.update_self,
      Function.update_of_ne hapart, segment_push hihead2, hs2.freq.trans hs1.freq,
      hs2.dl.trans hs1.dl]
  · exact (by rw [hsorted, hinternals]; exact hapart :
      q.take.2.take.2.sorted ≠ q.take.2.take.2.internals)
  · exact (by rw [hnleaves]; exact hli2 : q.take.2.take.2.li ≤ q.take.2.take.2.nleaves)
  · exact (by rw [hitail]; omega : q.take.2.take.2.ihead ≤ q.take.2.take.2.itail + 1)
  · exact (by omega : q.take.2.take.2.li + q.take.2.take.2.ihead = q.li + q.ihead + 2)
  · exact (by rw [hsorted, hinternals, hnleaves] :
      (q.take.2.take.2.sorted, q.take.2.take.2.internals, q.take.2.take.2.nleaves) = _)
  · exact (by rw [hitail] : q.take.2.take.2.itail + 1 = _)
  · unfold merge
    dsimp only
    rw [hbuf, hinternals, hitail]
    by_cases hb : b = q.internals
    · subst hb
      rw [Function.update_self, Function.update_of_ne (hi rfl)]
    · rw [Function.update_of_ne hb]

/-- One entry less waits after a merge. -/
theorem merge_waiting (h : q.Ok) (hlen : 2 ≤ q.waiting) : q.merge.waiting + 1 = q.waiting := by
  have hm := merge_spec h hlen
  have hplaces := hm.places
  have htaken := hm.taken
  have hitail := hm.itail
  simp only [Prod.mk.injEq] at hplaces
  obtain ⟨-, -, hnleaves⟩ := hplaces
  have hli := hm.ok.li
  have hihead := hm.ok.ihead
  have hli0 := h.li
  have hihead0 := h.ihead
  unfold waiting
  omega

/-- What `k` merges leave. -/
structure Ran (q : PqState) (k : Nat) : Prop where
  queues : (q.run k).queues = MergeState.run k q.queues
  ok : (q.run k).Ok
  taken : (q.run k).li + (q.run k).ihead = q.li + q.ihead + 2 * k
  places : ((q.run k).sorted, (q.run k).internals, (q.run k).nleaves) =
    (q.sorted, q.internals, q.nleaves)
  itail : (q.run k).itail = q.itail + k
  kept : ∀ b i, (b = q.internals → i < q.itail ∨ q.itail + k ≤ i) → (q.run k).buf b i = q.buf b i

theorem run_spec {k : Nat} (h : q.Ok) (hlen : k < q.waiting) :
    q.Ran k := by
  induction k generalizing q with
  | zero => exact ⟨rfl, h, rfl, rfl, rfl, fun _ _ _ => rfl⟩
  | succ k ih =>
    have hm := merge_spec h (by omega)
    have hwaiting := merge_waiting h (by omega)
    have hplaces := hm.places
    have htaken := hm.taken
    have hitail := hm.itail
    simp only [Prod.mk.injEq] at hplaces
    obtain ⟨hsorted, hinternals, hnleaves⟩ := hplaces
    have hr := ih hm.ok (by omega)
    refine ⟨?_, hr.ok, ?_, ?_, ?_, fun b i hi => ?_⟩
    · exact hr.queues.trans (congrArg (MergeState.run k) hm.queues)
    · exact hr.taken.trans (by omega)
    · exact hr.places.trans (by rw [hsorted, hinternals, hnleaves])
    · exact hr.itail.trans (by omega)
    · refine (hr.kept b i fun hb => ?_).trans (hm.kept b i fun hb => ?_)
      · have := hi (hb.trans hinternals)
        omega
      · have := hi hb
        omega

/-- The two entries taken next are the least of all that wait. -/
structure TakesLeast (q : PqState) : Prop where
  perm : (q.take.1 :: q.take.2.take.1 :: q.take.2.take.2.queues.items).Perm q.queues.items
  le : q.take.1 ≤ q.take.2.take.1
  least : ∀ e ∈ q.take.2.take.2.queues.items, q.take.2.take.1 ≤ e

theorem Ok.takes (h : q.Ok) (hlen : 2 ≤ q.waiting)
    (ho : q.queues.Ordered) : q.queues.Takes q.take.1 q.take.2.take.1
      q.take.2.take.2.queues.leaves q.take.2.take.2.queues.internals := by
  unfold waiting at hlen
  obtain ⟨ht1, hok1, hs1, hc1⟩ := take_spec h (by omega)
  have hli := hok1.li
  have hihead := hok1.ihead
  have hli0 := h.li
  have hihead0 := h.ihead
  rw [hs1.nleaves] at hli
  rw [hs1.itail] at hihead
  obtain ⟨ht2, -, -, -⟩ := take_spec hok1 (by rw [hs1.nleaves, hs1.itail]; omega)
  have hheads := ho.takes_heads (by
    rw [MergeState.items, List.length_append]
    unfold queues
    rw [length_segment, length_segment]
    exact hlen)
  rw [ht1] at hheads
  dsimp only at hheads
  rw [ht2] at hheads
  exact hheads

/-- A merge whose sum fits into 16 bits keeps the order and the sum of the frequencies. -/
theorem merge_ordered (h : q.Ok) (hlen : 2 ≤ q.waiting)
    (ho : q.queues.Ordered) (hnode : q.node < 2 ^ 10) (hsum : q.mergeSum < 2 ^ 16) :
    q.merge.queues.Ordered ∧
      (q.merge.queues.items.map pqFreq).sum = (q.queues.items.map pqFreq).sum := by
  have ht := h.takes hlen ho
  have hmod : (pqFreq q.take.1 + pqFreq q.take.2.take.1) % 2 ^ 16 =
      pqFreq q.take.1 + pqFreq q.take.2.take.1 := Nat.mod_eq_of_lt hsum
  rw [(merge_spec h hlen).queues]
  refine ⟨ht.ordered ho hnode (.inl hmod), ?_⟩
  have hfreq : pqFreq (pqPack ((pqFreq q.take.1 + pqFreq q.take.2.take.1) % 2 ^ 16) q.queues.node) =
      pqFreq q.take.1 + pqFreq q.take.2.take.1 := (pqFreq_pack _ hnode).trans hmod
  rw [ht.items_step, ht.sum_eq, List.map_append, List.sum_append, List.map_singleton,
    List.sum_singleton, hfreq]
  exact Nat.add_comm _ _

/-- No sum of the first `k` merges has reached 2^16. -/
def Unwrapped (q : PqState) (k : Nat) : Prop := ∀ j < k, (q.run j).mergeSum < 2 ^ 16

theorem run_ordered {k : Nat} (h : q.Ok) (hlen : k < q.waiting)
    (hnode : q.node + k ≤ 2 ^ 10) (ho : q.queues.Ordered) (hsum : q.Unwrapped k) :
    (q.run k).queues.Ordered := by
  induction k generalizing q with
  | zero => exact ho
  | succ k ih =>
    have hm := merge_spec h (by omega)
    have hwaiting := merge_waiting h (by omega)
    have hnode' : q.merge.node = q.node + 1 := congrArg MergeState.node hm.queues
    refine ih hm.ok (by omega) (by omega) ?_ fun j hj => hsum (j + 1) (by omega)
    exact (merge_ordered h (by omega) ho (by omega) (hsum 0 (Nat.succ_pos k))).1

/-- Frequencies that add up to less never reach it. -/
theorem unwrapped_of_total {k : Nat} (h : q.Ok) (hlen : k < q.waiting)
    (hnode : q.node + k ≤ 2 ^ 10) (ho : q.queues.Ordered)
    (htotal : (q.queues.items.map pqFreq).sum < 2 ^ 16) : q.Unwrapped k := by
  induction k generalizing q with
  | zero => exact fun j hj => absurd hj (Nat.not_lt_zero j)
  | succ k ih =>
    have hm := merge_spec h (by omega)
    have hwaiting := merge_waiting h (by omega)
    have hnode' : q.merge.node = q.node + 1 := congrArg MergeState.node hm.queues
    have hfirst : q.mergeSum < 2 ^ 16 := by
      have hsum := (h.takes (by omega) ho).sum_eq
      unfold mergeSum
      omega
    obtain ⟨ho', hsum'⟩ := merge_ordered h (by omega) ho (by omega) hfirst
    have hrest := ih hm.ok (by omega) (by omega) ho' (by rw [hsum']; exact htotal)
    intro j hj
    cases j with
    | zero => exact hfirst
    | succ j => exact hrest j (by omega)

end PqState

section Sorting
variable {buf old : PqBuf → Nat → Nat} {src dst : PqBuf} {n shift elems : Nat} {count : Nat → Nat}
  {s : TreeScan}

/-- A pass between buffers fills the cells of the entries, and no others. -/
theorem radixPass_spec (hne : src ≠ dst) (h : Histogram (segment (buf src) 0 n) shift count) :
    segment (radixPass buf src dst n shift count dst) 0 n =
        pqRadixPass (segment (buf src) 0 n) shift count ∧
      ∀ b i, (b = dst → n ≤ i) → radixPass buf src dst n shift count b i = buf b i := by
  have hfold : (List.range n).foldl (fun s i => radixStep shift s (buf src i))
      (radixStarts count, buf dst) =
        (segment (buf src) 0 n).foldl (radixStep shift) (radixStarts count, buf dst) := by
    rw [segment_zero, List.foldl_map]
  have hlen : (segment (buf src) 0 n).length = n := length_segment
  unfold radixPass
  rw [hfold]
  constructor
  · rw [Function.update_self, pqRadixPass_eq h, ← radix_cells h (buf dst), hlen, segment_zero]
  · intro b i hi
    by_cases hb : b = dst
    · subst hb
      rw [Function.update_self]
      exact (radix_foldl h (buf b) _ [] (List.append_nil _).symm).2.2 i (by rw [hlen]; exact hi rfl)
    · rw [Function.update_of_ne hb]

/-- The buffers before the first merge. -/
structure PqState.Starts (q : PqState) (s : TreeScan) (elems : Nat) (old : PqBuf → Nat → Nat) :
    Prop where
  queues : q.queues =
    { leaves := s.sorted, internals := [], node := elems, freq := s.freq, dl := s.dl }
  ok : q.Ok
  nleaves : q.nleaves = s.leaves.length
  heads : q.li = 0 ∧ q.ihead = 0 ∧ q.itail = 0
  kept : ∀ b i, q.nleaves ≤ i → q.buf b i = old b i

variable (old elems) in
/-- Whichever buffer the leaves end in, they are sorted there. -/
theorem TreeScan.sortLeaves_starts
    (hlo : s.leaves.length ≠ 2 → Histogram s.leaves pqNodeBits s.countLo)
    (hhi : s.leaves.length ≠ 2 → Histogram s.leaves (pqNodeBits + 8) s.countHi) :
    (s.sortLeaves elems old).Starts s elems old := by
  have hstored : segment (fun i => s.leaves.getD i (old .leaves i)) 0 s.leaves.length = s.leaves :=
    segment_getD _ _
  have hbehind : ∀ i, s.leaves.length ≤ i → s.leaves.getD i (old .leaves i) = old .leaves i := by
    intro i hi
    rw [List.getD_eq_getElem?_getD, List.getElem?_eq_none hi, Option.getD_none]
  unfold TreeScan.sortLeaves
  dsimp only
  generalize ha : (fun i => s.leaves.getD i (old .leaves i)) = a at hstored ⊢
  have hbuf : ∀ b i, s.leaves.length ≤ i → Function.update old .leaves a b i = old b i := by
    intro b i hi
    by_cases hb : b = .leaves
    · subst hb
      rw [Function.update_self, ← ha]
      exact hbehind i hi
    · rw [Function.update_of_ne hb]
  by_cases h2 : s.leaves.length = 2
  · obtain ⟨x, y, hxy⟩ := List.length_eq_two.mp h2
    have ha0 : a 0 = x := by rw [← ha, hxy]; rfl
    have ha1 : a 1 = y := by rw [← ha, hxy]; rfl
    have hsorted : s.sorted = if x > y then [y, x] else [x, y] := by
      simp [TreeScan.sorted, hxy]
    rw [if_pos h2, Function.update_self, ha0, ha1]
    split
    · next hgt =>
      refine ⟨?_, ⟨(fun h => by cases h), Nat.zero_le _, le_rfl⟩, rfl, ⟨rfl, rfl, rfl⟩, fun b i hi => ?_⟩
      · unfold PqState.queues
        dsimp only
        rw [Function.update_self, hsorted, if_pos hgt, h2, segment_of_le le_rfl]
        rfl
      · dsimp only at hi ⊢
        by_cases hb : b = .leaves
        · subst hb
          rw [Function.update_self, Function.update_of_ne (by omega), Function.update_of_ne (by omega),
            ← hbuf .leaves i hi, Function.update_self]
        · rw [Function.update_of_ne hb]
          exact hbuf b i hi
    · next hle =>
      refine ⟨?_, ⟨(fun h => by cases h), Nat.zero_le _, le_rfl⟩, rfl, ⟨rfl, rfl, rfl⟩, hbuf⟩
      unfold PqState.queues
      dsimp only
      rw [Function.update_self, hstored, hsorted, if_neg hle, hxy, segment_of_le le_rfl]
  · have hleaves : segment (Function.update old .leaves a .leaves) 0 s.leaves.length = s.leaves := by
      rw [Function.update_self]
      exact hstored
    obtain ⟨hpass, hkept⟩ := @radixPass_spec (Function.update old .leaves a) .leaves .scratch
      s.leaves.length pqNodeBits s.countLo (by decide) (by rw [hleaves]; exact hlo h2)
    rw [hleaves] at hpass
    have hkept' : ∀ b i, s.leaves.length ≤ i → radixPass (Function.update old .leaves a) .leaves
        .scratch s.leaves.length pqNodeBits s.countLo b i = old b i := fun b i hi =>
      (hkept b i fun _ => hi).trans (hbuf b i hi)
    rw [if_neg h2]
    split
    · next hone =>
      refine ⟨?_, ⟨(fun h => by cases h), Nat.zero_le _, le_rfl⟩, rfl, ⟨rfl, rfl, rfl⟩, hkept'⟩
      unfold PqState.queues TreeScan.sorted
      dsimp only
      rw [hpass, if_neg h2, if_pos hone, segment_of_le le_rfl]
    · next hone =>
      generalize radixPass (Function.update old .leaves a) .leaves .scratch s.leaves.length pqNodeBits
        s.countLo = buf₁ at hpass hkept'
      have hperm := pqRadixPass_perm (hlo h2)
      have hhi' : Histogram (pqRadixPass s.leaves pqNodeBits s.countLo) (pqNodeBits + 8) s.countHi :=
        ⟨(hhi h2).zero, fun d hd => ((hhi h2).succ d hd).trans (hperm.countP_eq _).symm⟩
      obtain ⟨hpass₂, hkept₂⟩ := @radixPass_spec buf₁ .scratch .leaves s.leaves.length
        (pqNodeBits + 8) s.countHi (by decide) (by rw [hpass]; exact hhi')
      refine ⟨?_, ⟨(fun h => by cases h), Nat.zero_le _, le_rfl⟩, rfl, ⟨rfl, rfl, rfl⟩, fun b i hi =>
        (hkept₂ b i fun _ => hi).trans (hkept' b i hi)⟩
      unfold PqState.queues TreeScan.sorted
      dsimp only
      rw [hpass₂, hpass, if_neg h2, if_neg hone, segment_of_le le_rfl]

end Sorting

section Scan
variable {desc : StaticTreeDesc} {freq dl : Nat → Nat} {optLen staticLen : Int}

variable (dl optLen staticLen) in
/-- Two leaves or more, and where the radix passes are used the histograms are those of the
leaves. -/
theorem StaticTreeDesc.scan_spec (hel : 3 ≤ desc.elems) (hel' : desc.elems ≤ 2 ^ 10)
    (hfreq : ∀ n < desc.elems, freq n < 2 ^ 16) :
    let s := desc.scan freq dl optLen staticLen
    2 ≤ s.leaves.length ∧
      (s.leaves.length ≠ 2 → Histogram s.leaves pqNodeBits s.countLo) ∧
      (s.leaves.length ≠ 2 → Histogram s.leaves (pqNodeBits + 8) s.countHi) ∧
      (2 ≤ (leavesOf freq desc.elems).length → s.leaves = leavesOf freq desc.elems) := by
  obtain ⟨h1, h2, h3, h4, h5, h6, -, h8⟩ := ZlibNg.scan_spec dl optLen staticLen hel' hfreq
  unfold StaticTreeDesc.scan
  generalize (List.range desc.elems).foldl TreeScan.step _ = s₀ at *
  dsimp only
  rcases Nat.lt_or_ge s₀.leaves.length 2 with hlt | hge
  · obtain ⟨⟨a, b, hab⟩, -⟩ := TreeScan.force_short hel hel' h2 h1 hlt h8
    have hlen : (s₀.force desc).leaves.length = 2 := by rw [hab]; rfl
    refine ⟨hlen.ge, fun h => absurd hlen h, fun h => absurd hlen h, fun h => ?_⟩
    rw [← h1] at h
    omega
  · rw [TreeScan.force_of_two hge]
    exact ⟨hge, fun _ => ⟨h3, fun d _ => h5 d⟩, fun _ => ⟨h4, fun d _ => h6 d⟩, fun _ => h1⟩

variable (dl optLen staticLen) in
/-- The leaves of two symbols or more, in the order of their entries. -/
theorem sorted_leavesOf (hel : 3 ≤ desc.elems) (hel' : desc.elems ≤ 2 ^ 10)
    (hfreq : ∀ n < desc.elems, freq n < 2 ^ 16) (htwo : 2 ≤ (leavesOf freq desc.elems).length) :
    let s := desc.scan freq dl optLen staticLen
    s.sorted.Perm (leavesOf freq desc.elems) ∧ s.sorted.Pairwise (· < ·) := by
  obtain ⟨-, hlo, hhi, hleaves⟩ := StaticTreeDesc.scan_spec dl optLen staticLen hel hel' hfreq
  have h1 := hleaves htwo
  dsimp only at *
  generalize desc.scan freq dl optLen staticLen = s at *
  rw [← h1]
  by_cases h2 : s.leaves.length = 2
  · obtain ⟨a, b, hab⟩ := List.length_eq_two.mp h2
    have hlist := leavesOf_list freq hel'
    rw [← h1, hab] at hlist
    refine ⟨?_, (sorted_two hab hlist).pairwise⟩
    have hsorted : s.sorted = if a > b then [b, a] else [a, b] := by
      simp [TreeScan.sorted, hab]
    rw [hsorted, hab]
    split
    · exact List.Perm.swap _ _ _
    · exact List.Perm.refl _
  · exact sorted_radix hel' h1 hfreq (hlo h2) (hhi h2) h2

end Scan

/-- `build_tree` over the buffers. -/
theorem buildTree_buffers {desc : StaticTreeDesc} {freq : Nat → Nat} (hel : 3 ≤ desc.elems)
    (hel' : desc.elems ≤ 2 ^ 10) (hfreq : ∀ n < desc.elems, freq n < 2 ^ 16) (dl : Nat → Nat)
    (optLen staticLen : Int) (old : PqBuf → Nat → Nat) :
    let s := desc.scan freq dl optLen staticLen
    let q := s.sortLeaves desc.elems old
    let q' := q.run (q.nleaves - 1)
    buildTree desc freq dl optLen staticLen =
      (genBitlen desc (segment (q'.buf q'.sorted) 0 q'.nleaves) (q'.node - 1) q'.freq q'.dl s.optLen
        s.staticLen).map fun b => { freq := q'.freq, len := b.dl, maxCode := s.maxCode,
                                    overflow := b.overflow, blCount := b.blCount, optLen := b.optLen,
                                    staticLen := b.staticLen } := by
  obtain ⟨htwo, hlo, hhi, -⟩ := StaticTreeDesc.scan_spec dl optLen staticLen hel hel' hfreq
  have hstart := TreeScan.sortLeaves_starts old desc.elems hlo hhi
  have hbuild : buildTree desc freq dl optLen staticLen =
      (fun scan : TreeScan =>
        let merged := MergeState.run (scan.leaves.length - 1)
          { leaves := scan.sorted, internals := [], node := desc.elems, freq := scan.freq
            dl := scan.dl }
        (genBitlen desc scan.sorted (merged.node - 1) merged.freq merged.dl scan.optLen
          scan.staticLen).map fun b => { freq := merged.freq, len := b.dl, maxCode := scan.maxCode,
                                         overflow := b.overflow, blCount := b.blCount
                                         optLen := b.optLen, staticLen := b.staticLen })
      (desc.scan freq dl optLen staticLen) := rfl
  rw [hbuild]
  dsimp only at *
  generalize desc.scan freq dl optLen staticLen = s at *
  generalize s.sortLeaves desc.elems old = q at *
  obtain ⟨hli, hihead, hitail⟩ := hstart.heads
  have hrun := PqState.run_spec (k := q.nleaves - 1) hstart.ok (by
    have := hstart.nleaves
    unfold PqState.waiting
    omega)
  have hqueues := hrun.queues
  have hplaces := hrun.places
  simp only [Prod.mk.injEq] at hplaces
  obtain ⟨hsorted, -, hnleaves⟩ := hplaces
  have hleaves : segment (q.buf q.sorted) 0 q.nleaves = s.sorted := by
    have h := congrArg MergeState.leaves hstart.queues
    rwa [PqState.queues, hli] at h
  have hkept : segment ((q.run (q.nleaves - 1)).buf q.sorted) 0 q.nleaves =
      segment (q.buf q.sorted) 0 q.nleaves :=
    segment_congr fun i _ _ => hrun.kept _ _ fun hb => absurd hb hstart.ok.apart
  rw [hstart.queues] at hqueues
  rw [hsorted, hnleaves, hkept, hleaves, ← hstart.nleaves, ← hqueues]
  rfl

namespace PqState

/-- After `k` merges: the leaves are where they were, in the other buffer than the created nodes, of
which there are `k`, and no cell behind those of the leaves has been written. -/
structure Keeps (q q' : PqState) (k : Nat) (old : PqBuf → Nat → Nat) : Prop where
  places : (q'.sorted, q'.internals, q'.nleaves) = (q.sorted, q.internals, q.nleaves)
  leaves : ∀ i < q.nleaves, q'.buf q.sorted i = q.buf q.sorted i
  itail : q'.itail = k
  heads : q'.li ≤ q.nleaves ∧ q'.ihead ≤ k ∧ q'.li + q'.ihead = 2 * k
  behind : ∀ b i, q.nleaves ≤ i → q'.buf b i = old b i

/-- The created nodes that are still to be taken. -/
def fifo (q : PqState) : List Nat := segment (q.buf q.internals) q.ihead q.itail

end PqState

/-- The queues of `build_tree`: the leaves are sorted, in the buffer that the created nodes are not
queued in; and as long as no sum has reached 2^16, as it never does for frequencies that add up to
less, the created nodes ascend and the two least entries are taken. -/
theorem buildTree_queues (kind : TreeKind) (freq dl : Nat → Nat) (optLen staticLen : Int)
    (old : PqBuf → Nat → Nat) (hfreq : ∀ n < kind.desc.elems, freq n < 2 ^ 16)
    (htwo : 2 ≤ ((List.range kind.desc.elems).filter fun n => freq n ≠ 0).length) :
    let s := kind.desc.scan freq dl optLen staticLen
    let q := s.sortLeaves kind.desc.elems old
    (segment (q.buf q.sorted) 0 q.nleaves).Perm (leavesOf freq kind.desc.elems) ∧
    (segment (q.buf q.sorted) 0 q.nleaves).Pairwise (· < ·) ∧
    q.sorted ≠ q.internals ∧ q.nleaves < lCodes + 1 ∧
    (∀ k < q.nleaves, q.Keeps (q.run k) k old) ∧
    (∀ k < q.nleaves, q.Unwrapped k →
      (q.run k).fifo.Pairwise (· < ·) ∧ (k + 1 < q.nleaves → (q.run k).TakesLeast)) ∧
    (((List.range kind.desc.elems).map freq).sum < 2 ^ 16 → ∀ k < q.nleaves, q.Unwrapped k) := by
  obtain ⟨hel, hel', -⟩ := kind.bounds
  have htwo' : 2 ≤ (leavesOf freq kind.desc.elems).length := by
    rw [leavesOf, List.length_map]
    exact htwo
  obtain ⟨-, hlo, hhi, hleaves⟩ := StaticTreeDesc.scan_spec dl optLen staticLen hel (by omega) hfreq
  obtain ⟨hperm, hpair⟩ := sorted_leavesOf dl optLen staticLen hel (by omega) hfreq htwo'
  have hstart := TreeScan.sortLeaves_starts old kind.desc.elems hlo hhi
  have hlist := leavesOf_list freq (show kind.desc.elems ≤ 2 ^ 10 by omega)
  have hmost : (leavesOf freq kind.desc.elems).length ≤ kind.desc.elems := by
    rw [leavesOf, List.length_map]
    exact (List.length_filter_le _ _).trans_eq List.length_range
  have hcodes : kind.desc.elems ≤ lCodes := by cases kind <;> decide
  have h1 := hleaves htwo'
  dsimp only at *
  generalize kind.desc.scan freq dl optLen staticLen = s at *
  generalize s.sortLeaves kind.desc.elems old = q at *
  obtain ⟨hli, hihead, hitail⟩ := hstart.heads
  have hok := hstart.ok
  have hnleaves := hstart.nleaves
  rw [h1] at hnleaves
  have hwaiting : q.waiting = q.nleaves := by
    unfold PqState.waiting
    omega
  have hcells : segment (q.buf q.sorted) 0 q.nleaves = s.sorted := by
    have h := congrArg MergeState.leaves hstart.queues
    rwa [PqState.queues, hli] at h
  have hnode : q.node = kind.desc.elems := congrArg MergeState.node hstart.queues
  have hitems : q.queues.items = s.sorted := by
    rw [hstart.queues]
    exact List.append_nil _
  have hordered : q.queues.Ordered := by
    refine ⟨?_, ?_, ?_, ?_⟩
    · rw [hstart.queues]
      exact hpair
    · rw [hstart.queues]
      exact List.Pairwise.nil
    · intro e he
      rw [hitems] at he
      exact (hlist.node_lt e (hperm.mem_iff.mp he)).trans_eq hnode.symm
    · rw [hstart.queues]
      exact fun y hy => absurd hy List.not_mem_nil
  refine ⟨hcells ▸ hperm, hcells ▸ hpair, hok.apart, by omega, fun k hk => ?_, fun k hk hsum => ?_,
    fun htotal k hk => ?_⟩
  · have hrun := PqState.run_spec hok (hwaiting ▸ hk)
    have hplaces := hrun.places
    simp only [Prod.mk.injEq] at hplaces
    have hle := hrun.ok.li
    have hle' := hrun.ok.ihead
    have htail := hrun.itail
    have htaken := hrun.taken
    refine ⟨hrun.places, fun i _ => hrun.kept _ _ fun hb => absurd hb hok.apart, by omega,
      ⟨by omega, by omega, by omega⟩, fun b i hi => ?_⟩
    exact (hrun.kept b i fun _ => .inr (by omega)).trans (hstart.kept b i hi)
  · have hrun := PqState.run_spec hok (hwaiting ▸ hk)
    have ho := PqState.run_ordered hok (hwaiting ▸ hk) (by omega) hordered hsum
    refine ⟨ho.internals, fun hk' => ?_⟩
    have hplaces := hrun.places
    simp only [Prod.mk.injEq] at hplaces
    have hle := hrun.ok.li
    have hle' := hrun.ok.ihead
    have htail := hrun.itail
    have htaken := hrun.taken
    have ht := hrun.ok.takes (by unfold PqState.waiting; omega) ho
    exact ⟨ht.perm, ht.le, ht.least⟩
  · refine PqState.unwrapped_of_total hok (hwaiting ▸ hk) (by omega) hordered ?_
    rw [hitems, (hperm.map pqFreq).sum_eq, leavesOf_sum (by omega)]
    exact htotal

/-- The last but one merge of five leaves. -/
theorem buildTree_queues_five :
    let q := (TreeKind.distance.desc.scan (fun n => [5, 1, 2, 300, 1].getD n 0) (fun _ => 0) 0
      0).sortLeaves 30 fun _ _ => 0
    q.nleaves = 5 ∧ (q.run 3).fifo.Pairwise (· < ·) ∧ (q.run 3).TakesLeast := by
  obtain ⟨hperm, -, -, -, -, hleast, htotal⟩ := buildTree_queues .distance
    (fun n => [5, 1, 2, 300, 1].getD n 0) (fun _ => 0) 0 0 (fun _ _ => 0) (by decide) (by decide)
  dsimp only at *
  have hlist : (leavesOf (fun n => [5, 1, 2, 300, 1].getD n 0)
      TreeKind.distance.desc.elems).length = 5 := by decide
  change _ = 5 ∧ _
  have hlen := hperm.length_eq
  rw [hlist, length_segment, Nat.sub_zero] at hlen
  have hk : 3 < 5 := by decide
  rw [← hlen] at hk
  obtain ⟨hfifo, htakes⟩ := hleast 3 hk (htotal (by decide) 3 hk)
  exact ⟨hlen, hfifo, htakes (by rw [hlen]; decide)⟩

/-- Four frequencies whose second sum wraps: the node of 14464 is queued behind that of 60000. -/
theorem buildTree_queues_wraps : ¬ ∀ freq : Nat → Nat, (∀ n < 30, freq n < 2 ^ 16) →
    2 ≤ ((List.range 30).filter fun n => freq n ≠ 0).length → ∀ dl optLen staticLen old,
      let q := (TreeKind.distance.desc.scan freq dl optLen staticLen).sortLeaves 30 old
      ∀ k < q.nleaves, (q.run k).fifo.Pairwise (· < ·) := by
  intro h
  have hfreq : ∀ n < 30, ([30000, 30000, 40000, 40000] : List Nat).getD n 0 < 2 ^ 16 := by decide
  have htwo : 2 ≤ ((List.range 30).filter
      fun n => ([30000, 30000, 40000, 40000] : List Nat).getD n 0 ≠ 0).length := by decide
  have hclaim := h _ hfreq htwo (fun _ => 0) 0 0 fun _ _ => 0
  have hlist : leavesOf (fun n => ([30000, 30000, 40000, 40000] : List Nat).getD n 0) 30 =
      [pqPack 30000 0, pqPack 30000 1, pqPack 40000 2, pqPack 40000 3] := by decide
  have hel : (3 : Nat) ≤ TreeKind.distance.desc.elems := by decide
  have hel' : TreeKind.distance.desc.elems ≤ 2 ^ 10 := by decide
  have hlen : 2 ≤ (leavesOf (fun n => ([30000, 30000, 40000, 40000] : List Nat).getD n 0)
      TreeKind.distance.desc.elems).length := by
    change 2 ≤ (leavesOf _ 30).length
    rw [hlist]
    decide
  obtain ⟨-, hlo, hhi, hleaves⟩ := StaticTreeDesc.scan_spec (fun _ => 0) 0 0 hel hel' hfreq
  obtain ⟨hperm, hpair⟩ := sorted_leavesOf (fun _ => 0) 0 0 hel hel' hfreq hlen
  have hstart := TreeScan.sortLeaves_starts (fun _ _ => 0) 30 hlo hhi
  have h1 := hleaves hlen
  dsimp only at *
  generalize TreeKind.distance.desc.scan _ _ _ _ = s at *
  generalize s.sortLeaves 30 _ = q at *
  have hsorted : s.sorted = [pqPack 30000 0, pqPack 30000 1, pqPack 40000 2, pqPack 40000 3] := by
    refine List.Perm.eq_of_pairwise (fun a b _ _ (hab : a < b) hba => absurd hab hba.asymm) hpair ?_
      (hperm.trans (List.Perm.of_eq hlist))
    decide
  have hnleaves : q.nleaves = 4 := by
    rw [hstart.nleaves, h1]
    exact congrArg List.length hlist
  obtain ⟨hli, hihead, hitail⟩ := hstart.heads
  have hrun := PqState.run_spec (k := 2) hstart.ok (by
    unfold PqState.waiting
    omega)
  have hfifo : (q.run 2).fifo = [pqPack 60000 30, pqPack 14464 31] := by
    have hinternals := congrArg MergeState.internals hrun.queues
    rw [hstart.queues, hsorted] at hinternals
    simpa [PqState.fifo, PqState.queues, MergeState.run, MergeState.step, pqTake, pqPack, pqFreq,
      pqNodeBits] using hinternals
  have hasc := hclaim 2 (by omega)
  rw [hfifo] at hasc
  exact absurd hasc (by decide)

end ZlibNg
