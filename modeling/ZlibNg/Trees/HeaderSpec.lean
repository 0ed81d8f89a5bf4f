import ZlibNg.Trees.Counts

/-! The description of the trees of a block: the bits that are sent, and the decoder's way through
them. -/
namespace ZlibNg

/-- A call that puts bits before those that come later. -/
def Writes (f : BitWriter → Option BitWriter) (put : BitStream → BitStream) : Prop :=
  ∀ w, w.Held → ∃ w', f w = some w' ∧ w'.Held ∧
    ∀ rest, w'.stream.append rest = w.stream.append (put rest)

namespace Writes

theorem bind {f g : BitWriter → Option BitWriter} {p q : BitStream → BitStream} (hf : Writes f p)
    (hg : Writes g q) : Writes (fun w => (f w).bind g) fun rest => p (q rest) := by
  intro w hw
  obtain ⟨w₁, h1, hw1, hs1⟩ := hf w hw
  obtain ⟨w₂, h2, hw2, hs2⟩ := hg w₁ hw1
  refine ⟨w₂, ?_, hw2, fun rest => (hs2 rest).trans (hs1 (q rest))⟩
  change (f w).bind g = some w₂
  rw [h1]
  exact h2

theorem foldlM {α : Type} {f : BitWriter → α → Option BitWriter} {p : α → BitStream → BitStream}
    {xs : List α} (h : ∀ x ∈ xs, Writes (fun w => f w x) (p x)) :
    Writes (fun w => xs.foldlM f w) fun rest => xs.foldr p rest := by
  induction xs with
  | nil => exact fun w hw => ⟨w, rfl, hw, fun _ => rfl⟩
  | cons x xs ih =>
    exact (h x List.mem_cons_self).bind (ih fun y hy => h y (List.mem_cons_of_mem _ hy))

theorem sendBits {value length : Nat} (hlen : length ≤ 48) (hvalue : value < 2 ^ length) :
    Writes (BitWriter.sendBits value length) fun rest => (BitStream.ofNat value length).append rest := by
  intro w hw
  obtain ⟨w', h, hw', hs, -⟩ := BitWriter.sendBits_spec hw hlen hvalue
  exact ⟨w', h, hw', fun rest => by rw [hs, BitStream.append_assoc]⟩

end Writes

/-- A symbol of the bit length tree, before later bits. -/
def LenSym.put (bl : CodeTree) (x : LenSym) (rest : BitStream) : BitStream :=
  (BitStream.ofNat (bl.code x.sym) (bl.len x.sym)).append
    (if x.extraBits = 0 then rest else (BitStream.ofNat x.extra x.extraBits).append rest)

/-- The description of the trees, before later bits. -/
def BlockTrees.put (t : BlockTrees) (rest : BitStream) : BitStream :=
  (BitStream.ofNat (t.l.lens.length - 257) 5).append
    ((BitStream.ofNat (t.d.lens.length - 1) 5).append
      ((BitStream.ofNat (t.maxBlindex + 1 - 4) 4).append
        ((List.range (t.maxBlindex + 1)).foldr
          (fun rank rest => (BitStream.ofNat (t.bl.len (blOrder.getD rank 0)) 3).append rest)
          ((sendTree t.l.lens).foldr (LenSym.put t.bl.codeTree)
            ((sendTree t.d.lens).foldr (LenSym.put t.bl.codeTree) rest)))))

theorem LenSym.put_writes {bl : CodeTree} {x : LenSym} (hlen : bl.len x.sym ≤ 15)
    (hcode : bl.code x.sym < 2 ^ bl.len x.sym) (hx : x.Proper) (hextra : x.extra < 2 ^ x.extraBits) :
    Writes (fun w => (w.sendCode bl x.sym).bind fun w =>
      if x.extraBits = 0 then some w else w.sendBits x.extra x.extraBits) (x.put bl) := by
  refine (Writes.sendBits (by omega) hcode).bind (q := fun rest =>
    if x.extraBits = 0 then rest else (BitStream.ofNat x.extra x.extraBits).append rest) ?_
  by_cases h0 : x.extraBits = 0
  · simp only [if_pos h0]
    exact fun w hw => ⟨w, rfl, hw, fun _ => rfl⟩
  · simp only [if_neg h0]
    refine Writes.sendBits ?_ hextra
    rw [hx.2]
    split_ifs <;> decide

/-- A run through the cases of the decoder, from a state and a stream to another. -/
inductive CaseRun : InflateState → BitStream → InflateState → BitStream → Prop
  | refl (s : InflateState) (v : BitStream) : CaseRun s v s v
  | step {s s' s'' : InflateState} {v v' v'' : BitStream} {p : CaseProg}
      (hp : s.bitCase = some p) (h : p.runStream 0 v = some (s', v'))
      (hr : CaseRun s' v' s'' v'') : CaseRun s v s'' v''

theorem CaseRun.trans {s s' s'' : InflateState} {v v' v'' : BitStream} (h : CaseRun s v s' v')
    (h' : CaseRun s' v' s'' v'') : CaseRun s v s'' v'' := by
  induction h with
  | refl => exact h'
  | step hp hs _ ih => exact .step hp hs (ih h')

theorem CaseRun.one {s s' : InflateState} {v v' : BitStream} {p : CaseProg}
    (hp : s.bitCase = some p) (h : p.runStream 0 v = some (s', v')) : CaseRun s v s' v' :=
  .step hp h (.refl _ _)

theorem peek_put {value n : Nat} (h : value < 2 ^ n) (rest : BitStream) :
    ((BitStream.ofNat value n).append rest).peek n = value := (ofNat_append_val h rest).1

section Cases
open BitProg InflateState
variable {s : InflateState}

theorem caseTable_run (hm : s.mode = .table) {nlen ndist ncode : Nat} (hl : 257 ≤ nlen)
    (hl' : nlen ≤ 286) (hd : 1 ≤ ndist) (hd' : ndist ≤ 30) (hc : 4 ≤ ncode) (hc' : ncode ≤ 19)
    (rest : BitStream) :
    CaseRun s ((BitStream.ofNat (nlen - 257) 5).append ((BitStream.ofNat (ndist - 1) 5).append
        ((BitStream.ofNat (ncode - 4) 4).append rest)))
      { s with nlen := nlen, ndist := ndist, ncode := ncode, have_ := 0, mode := .lenlens } rest := by
  refine .one (by rw [bitCase, hm]) ?_
  have h1 := peek_put (n := 5) (show nlen - 257 < 2 ^ 5 by omega)
  have h2 := peek_put (n := 5) (show ndist - 1 < 2 ^ 5 by omega)
  have h3 := peek_put (n := 4) (show ncode - 4 < 2 ^ 4 by omega)
  simp only [caseTable, needBits, bits, dropBits, pure_eq, ret_bind, need_bind, peek_bind, skip_bind,
    runStream_ite, runStream, BitStream.append_len, BitStream.ofNat_len, h1, h2, h3,
    BitStream.drop_ofNat_append]
  rw [if_pos (by omega), if_neg (by omega), show nlen - 257 + 257 = nlen by omega,
    show ndist - 1 + 1 = ndist by omega, show ncode - 4 + 4 = ncode by omega]

/-- One length of the bit length tree. -/
theorem caseLenlens_one (hm : s.mode = .lenlens) (hlt : s.have_ < s.ncode) {len : Nat} (hlen : len < 8)
    (rest : BitStream) : CaseRun s ((BitStream.ofNat len 3).append rest)
      { s with
        lens := Function.update s.lens (order.getD s.have_ 0) len
        have_ := s.have_ + 1 } rest := by
  refine .one (by rw [bitCase, hm]) ?_
  have h1 := peek_put (n := 3) (show len < 2 ^ 3 by omega)
  simp only [caseLenlens, needBits, bits, dropBits, pure_eq, ret_bind, need_bind, peek_bind, skip_bind,
    runStream, BitStream.append_len, BitStream.ofNat_len, h1, BitStream.drop_ofNat_append, if_pos hlt]
  rw [if_pos (by omega)]

theorem order_inj {a b : Nat} (ha : a < 19) (hb : b < 19)
    (h : order.getD a 0 = order.getD b 0) : a = b := by
  have hall : ∀ a < 19, ∀ b < 19, order.getD a 0 = order.getD b 0 → a = b := by decide
  exact hall a ha b hb h

/-- The lengths of the bit length tree that are sent, one after the other. -/
theorem caseLenlens_loop {bl : Nat → Nat} (hbl : ∀ r < 19, bl (order.getD r 0) < 8) (rest : BitStream)
    (j k : Nat) (hm : s.mode = .lenlens) (hk : s.have_ = k) (hn : s.ncode = k + j) (h19 : k + j ≤ 19)
    (hlens : ∀ r < k, s.lens (order.getD r 0) = bl (order.getD r 0)) :
    ∃ lens, CaseRun s ((List.range' k j).foldr
        (fun rank rest => (BitStream.ofNat (bl (order.getD rank 0)) 3).append rest) rest)
        { s with lens := lens, have_ := k + j } rest ∧
      ∀ r < k + j, lens (order.getD r 0) = bl (order.getD r 0) := by
  induction j generalizing k s with
  | zero =>
    refine ⟨s.lens, ?_, hlens⟩
    rw [Nat.add_zero, ← hk]
    exact .refl _ _
  | succ j ih =>
    have hone := caseLenlens_one hm (by omega) (hbl k (by omega)) ((List.range' (k + 1) j).foldr
      (fun rank rest => (BitStream.ofNat (bl (order.getD rank 0)) 3).append rest) rest)
    rw [hk] at hone
    obtain ⟨lens, hrun, hall⟩ := @ih { s with
        lens := Function.update s.lens (order.getD k 0) (bl (order.getD k 0)), have_ := k + 1 }
      (k + 1) hm rfl (by rw [hn]; omega) (by omega) fun r hr => by
        dsimp only
        by_cases hrk : r = k
        · rw [hrk, Function.update_self]
        · rw [Function.update_of_ne fun he => hrk (order_inj (by omega) (by omega) he)]
          exact hlens r (by omega)
    rw [show k + 1 + j = k + (j + 1) by omega] at hrun hall
    exact ⟨lens, hone.trans hrun, hall⟩

/-- The table of the bit length tree. -/
theorem caseLenlens_done {bl : Nat → Nat} (hm : s.mode = .lenlens) (hn : s.have_ = s.ncode)
    (h19 : s.ncode ≤ 19) (hlens : ∀ r < s.ncode, s.lens (order.getD r 0) = bl (order.getD r 0))
    (hzero : ∀ r, s.ncode ≤ r → r < 19 → bl (order.getD r 0) = 0) {d : DecodeTable}
    (hd : zngInflateTable .codes ((List.range 19).map bl) 7 = .ok d) (rest : BitStream) :
    ∃ lens, CaseRun s rest { s with
      lens := lens, lencode := d.entry, lenbits := d.bits, distcode := d.entry, have_ := 0,
      mode := .codelens } rest := by
  have hmem : ∀ k < 20, ∀ r < 19, order.getD r 0 ∈ order.drop k ↔ k ≤ r := by decide
  have hperm : ∀ i < 19, ∃ r < 19, order.getD r 0 = i := by decide
  have hmap : (List.range 19).map (clearLens s.lens (order.drop s.have_)) = (List.range 19).map bl := by
    refine List.map_congr_left fun i hi => ?_
    obtain ⟨r, hr, rfl⟩ := hperm i (List.mem_range.mp hi)
    rw [clearLens_apply, hn]
    by_cases hle : s.ncode ≤ r
    · rw [if_pos ((hmem _ (by omega) r hr).mpr hle), hzero r hle hr]
    · rw [if_neg fun h => hle ((hmem _ (by omega) r hr).mp h), hlens r (by omega)]
  refine ⟨clearLens s.lens (order.drop s.have_), .one (by rw [bitCase, hm]) ?_⟩
  unfold caseLenlens
  rw [if_neg (by omega)]
  dsimp only
  rw [hmap, hd]
  rfl

/-- The table gives each symbol of the bit length tree. -/
def TableFor (s : InflateState) (bl : CodeTree) : Prop :=
  ∀ sym < 19, bl.len sym ≠ 0 → ∀ v, v % 2 ^ bl.len sym = bl.code sym →
    s.lencode (v % 2 ^ s.lenbits) = { op := 0, bits := bl.len sym, val := sym }

/-- The lengths read so far. -/
structure LensRead (s : InflateState) (acc : List Nat) : Prop where
  have_ : s.have_ = acc.length
  lens : ∀ i < acc.length, s.lens i = acc.getD i 0

theorem LensRead.append {acc : List Nat} (h : LensRead s acc) (len copy : Nat) :
    LensRead { s with
      lens := fun i => if s.have_ ≤ i ∧ i < s.have_ + copy then len else s.lens i
      have_ := s.have_ + copy } (acc ++ List.replicate copy len) := by
  refine ⟨?_, fun i hi => ?_⟩
  · dsimp only
    rw [h.have_, List.length_append, List.length_replicate]
  · rw [List.length_append, List.length_replicate] at hi
    dsimp only
    rw [h.have_]
    by_cases hlt : i < acc.length
    · rw [if_neg (by omega), h.lens i hlt, List.getD_append _ _ _ _ hlt]
    · rw [if_pos (by omega), List.getD_append_right _ _ _ _ (by omega), List.getD_eq_getElem _ _
        (by rw [List.length_replicate]; omega), List.getElem_replicate]

section Symbol
variable {bl : CodeTree} {acc : List Nat} (hm : s.mode = .codelens) (htab : TableFor s bl)
  (hacc : LensRead s acc)
include hm htab hacc

/-- A length by itself. -/
theorem caseCodelens_len {sym : Nat} (hsym : sym < 16) (h0 : bl.len sym ≠ 0)
    (hcode : bl.code sym < 2 ^ bl.len sym) (hlt : acc.length < s.nlen + s.ndist) (rest : BitStream) :
    CaseRun s ((BitStream.ofNat (bl.code sym) (bl.len sym)).append rest)
      { s with lens := Function.update s.lens s.have_ sym, have_ := s.have_ + 1 } rest := by
  refine .one (by rw [bitCase, hm]) ?_
  have hhere := htab sym (by omega) h0 _ (ofNat_append_val hcode rest).1
  have hlt' : s.have_ < s.nlen + s.ndist := by
    rw [hacc.have_]
    exact hlt
  simp only [caseCodelens, lookup, dropBits, pure_eq, ret_bind, skip_bind, find_bind, if_pos hlt',
    runStream, hhere, if_pos hsym, BitStream.append_len, BitStream.ofNat_len,
    BitStream.drop_ofNat_append]
  rw [if_pos (Nat.le_add_right _ _)]

/-- A repetition, with its extra bits. -/
theorem caseCodelens_copy {sym base bits extra len : Nat} (hsym : 16 ≤ sym) (hsym' : sym < 19)
    (hbase : base = if sym = 18 then 11 else 3)
    (hbits : bits = if sym = 16 then 2 else if sym = 17 then 3 else 7) (h0 : bl.len sym ≠ 0)
    (hcode : bl.code sym < 2 ^ bl.len sym) (hextra : extra < 2 ^ bits)
    (hlast : sym = 16 → acc.getLast? = some len) (hzero : sym ≠ 16 → len = 0)
    (hle : acc.length + (base + extra) ≤ s.nlen + s.ndist) (rest : BitStream) :
    CaseRun s ((BitStream.ofNat (bl.code sym) (bl.len sym)).append
        ((BitStream.ofNat extra bits).append rest))
      { s with
        lens := fun i => if s.have_ ≤ i ∧ i < s.have_ + (base + extra) then len else s.lens i
        have_ := s.have_ + (base + extra) } rest := by
  refine .one (by rw [bitCase, hm]) ?_
  have hhere := htab sym (by omega) h0 _
    (ofNat_append_val hcode ((BitStream.ofNat extra bits).append rest)).1
  have hpos : 0 < base := by
    rw [hbase]
    split <;> decide
  have hlt : s.have_ < s.nlen + s.ndist := by
    rw [hacc.have_]
    omega
  have hrep : s.repeatLens len (base + extra) = { s with
      lens := fun i => if s.have_ ≤ i ∧ i < s.have_ + (base + extra) then len else s.lens i
      have_ := s.have_ + (base + extra) } := by
    unfold repeatLens
    rw [hacc.have_, if_neg (by omega)]
  have hpeek := peek_put hextra rest
  have hroom : bl.len sym + bits ≤ bl.len sym + (bits + rest.len) := by omega
  rcases show sym = 16 ∨ sym = 17 ∨ sym = 18 by omega with rfl | rfl | rfl
  · -- the last length again
    obtain rfl : bits = 2 := hbits
    obtain rfl : base = 3 := hbase
    have hl := hlast rfl
    have hne : s.have_ ≠ 0 := by
      rw [hacc.have_]
      intro h
      rw [List.length_eq_zero_iff.mp h] at hl
      cases hl
    have hprev : s.lens (s.have_ - 1) = len := by
      rw [List.getLast?_eq_getElem?] at hl
      rw [hacc.lens _ (by have := hacc.have_; omega), hacc.have_, List.getD_eq_getElem?_getD, hl]
      rfl
    simp only [caseCodelens, lookup, needBits, BitProg.bits, dropBits, pure_eq, ret_bind, need_bind,
      peek_bind, skip_bind, find_bind, if_pos hlt, runStream, hhere, BitStream.append_len,
      BitStream.ofNat_len, if_neg (Nat.lt_irrefl 16), if_pos, if_neg hne, BitStream.drop_ofNat_append,
      hpeek, hprev, hrep]
    rw [if_pos (Nat.le_add_right _ _), if_pos hroom]
  · obtain rfl : bits = 3 := hbits
    obtain rfl : base = 3 := hbase
    obtain rfl := hzero (by decide)
    simp only [caseCodelens, lookup, needBits, BitProg.bits, dropBits, pure_eq, ret_bind, need_bind,
      peek_bind, skip_bind, find_bind, if_pos hlt, runStream, hhere, BitStream.append_len,
      BitStream.ofNat_len, if_neg (show ¬ 17 < 16 by decide), if_neg (show ¬ 17 = 16 by decide), if_pos,
      BitStream.drop_ofNat_append, hpeek, hrep]
    rw [if_pos (Nat.le_add_right _ _), if_pos hroom]
  · obtain rfl : bits = 7 := hbits
    obtain rfl : base = 11 := hbase
    obtain rfl := hzero (by decide)
    simp only [caseCodelens, lookup, needBits, BitProg.bits, dropBits, pure_eq, ret_bind, need_bind,
      peek_bind, skip_bind, find_bind, if_pos hlt, runStream, hhere, BitStream.append_len,
      BitStream.ofNat_len, if_neg (show ¬ 18 < 16 by decide), if_neg (show ¬ 18 = 16 by decide),
      if_neg (show ¬ 18 = 17 by decide), BitStream.drop_ofNat_append, hpeek, hrep]
    rw [if_pos (Nat.le_add_right _ _), if_pos hroom]

/-- One symbol of the description, with what it expands to. -/
theorem caseCodelens_sym {x : LenSym} (hx : x.Proper) (hextra : x.extra < 2 ^ x.extraBits)
    (h0 : bl.len x.sym ≠ 0) (hcode : bl.code x.sym < 2 ^ bl.len x.sym) {acc' : List Nat}
    (hexp : x.expand acc = some acc') (hle : acc'.length ≤ s.nlen + s.ndist) (rest : BitStream) :
    ∃ lens, CaseRun s (x.put bl rest) { s with lens := lens, have_ := acc'.length } rest ∧
      LensRead { s with lens := lens, have_ := acc'.length } acc' := by
  obtain ⟨sym, extra, bits⟩ := x
  obtain ⟨hsym, hbits⟩ := hx
  dsimp only at hsym hbits hextra h0 hcode
  unfold LenSym.expand at hexp
  unfold LenSym.put
  dsimp only at hexp ⊢
  by_cases h16 : sym < 16
  · rw [if_neg (by omega), if_neg (by omega), if_neg (by omega)] at hbits
    rw [if_pos h16] at hexp
    obtain rfl := Option.some.inj hexp
    rw [List.length_append, List.length_singleton] at hle
    rw [if_pos hbits]
    have hrun := caseCodelens_len hm htab hacc h16 h0 hcode (by omega) rest
    have hhave : s.have_ + 1 = (acc ++ [sym]).length := by
      rw [hacc.have_, List.length_append, List.length_singleton]
    rw [hhave] at hrun
    refine ⟨_, hrun, rfl, fun i hi => ?_⟩
    rw [List.length_append, List.length_singleton] at hi
    dsimp only
    rw [hacc.have_]
    by_cases hlast : i = acc.length
    · rw [hlast, Function.update_self, List.getD_append_right _ _ _ _ (Nat.le_refl _), Nat.sub_self]
      rfl
    · rw [Function.update_of_ne hlast, List.getD_append _ _ _ _ (by omega)]
      exact hacc.lens i (by omega)
  · -- the repetitions
    rw [if_neg h16] at hexp
    have hne : bits ≠ 0 := by
      rw [hbits]
      split_ifs <;> omega
    have hcopy : ∃ base len, acc' = acc ++ List.replicate (base + extra) len ∧
        base = (if sym = 18 then 11 else 3) ∧ (sym = 16 → acc.getLast? = some len) ∧
        (sym ≠ 16 → len = 0) := by
      rcases show sym = 16 ∨ sym = 17 ∨ sym = 18 by omega with rfl | rfl | rfl
      · rw [if_pos rfl] at hexp
        obtain ⟨len, hlen, rfl⟩ := Option.map_eq_some_iff.mp hexp
        exact ⟨3, len, rfl, rfl, fun _ => hlen, fun h => absurd rfl h⟩
      · exact ⟨3, 0, (Option.some.inj hexp).symm, rfl, fun h => by omega, fun _ => rfl⟩
      · exact ⟨11, 0, (Option.some.inj hexp).symm, rfl, fun h => by omega, fun _ => rfl⟩
    obtain ⟨base, len, rfl, hbase, hlast, hzero⟩ := hcopy
    have hlength : (acc ++ List.replicate (base + extra) len).length = s.have_ + (base + extra) := by
      rw [hacc.have_, List.length_append, List.length_replicate]
    have hbits' : bits = if sym = 16 then 2 else if sym = 17 then 3 else 7 := by
      rw [hbits]
      split_ifs <;> omega
    have hrun := caseCodelens_copy hm htab hacc (by omega) hsym hbase hbits' h0 hcode hextra hlast hzero
      (by rw [hlength, hacc.have_] at hle; exact hle) rest
    rw [if_neg hne, hlength]
    exact ⟨_, hrun, hacc.append len (base + extra)⟩

end Symbol

theorem expand_length_lt {x : LenSym} {acc acc' : List Nat} (h : x.expand acc = some acc') :
    acc.length < acc'.length := by
  unfold LenSym.expand at h
  split_ifs at h
  · obtain rfl := Option.some.inj h
    simp
  · obtain ⟨len, -, rfl⟩ := Option.map_eq_some_iff.mp h
    rw [List.length_append, List.length_replicate]
    omega
  · obtain rfl := Option.some.inj h
    rw [List.length_append, List.length_replicate]
    omega
  · obtain rfl := Option.some.inj h
    rw [List.length_append, List.length_replicate]
    omega

theorem foldlM_expand_length_le {xs : List LenSym} {acc acc' : List Nat}
    (h : xs.foldlM LenSym.expand acc = some acc') : acc.length ≤ acc'.length := by
  induction xs generalizing acc with
  | nil =>
    obtain rfl := Option.some.inj h
    exact Nat.le_refl _
  | cons x xs ih =>
    obtain ⟨acc₁, h1, h2⟩ := Option.bind_eq_some_iff.mp h
    exact (expand_length_lt h1).le.trans (ih h2)

/-- A symbol that the bit length tree has a code for. -/
structure LenSym.Coded (bl : CodeTree) (x : LenSym) : Prop where
  proper : x.Proper
  extra : x.extra < 2 ^ x.extraBits
  len : bl.len x.sym ≠ 0
  code : bl.code x.sym < 2 ^ bl.len x.sym

/-- The symbols of a tree are read to the lengths that they expand to. -/
theorem caseCodelens_loop {bl : CodeTree} (hm : s.mode = .codelens) (htab : TableFor s bl)
    {acc acc' : List Nat} (hacc : LensRead s acc) {xs : List LenSym} (hxs : ∀ x ∈ xs, x.Coded bl)
    (hexp : xs.foldlM LenSym.expand acc = some acc') (hle : acc'.length ≤ s.nlen + s.ndist)
    (rest : BitStream) :
    ∃ lens, CaseRun s (xs.foldr (LenSym.put bl) rest)
        { s with lens := lens, have_ := acc'.length } rest ∧
      LensRead { s with lens := lens, have_ := acc'.length } acc' := by
  induction xs generalizing s acc with
  | nil =>
    obtain rfl := Option.some.inj hexp
    refine ⟨s.lens, ?_, rfl, hacc.lens⟩
    rw [← hacc.have_]
    exact .refl _ _
  | cons x xs ih =>
    obtain ⟨acc₁, h1, h2⟩ := Option.bind_eq_some_iff.mp hexp
    obtain ⟨hproper, hextra, h0, hcode⟩ := hxs x List.mem_cons_self
    obtain ⟨lens₁, hrun₁, hacc₁⟩ := caseCodelens_sym hm htab hacc hproper hextra h0 hcode h1
      ((foldlM_expand_length_le h2).trans hle) (xs.foldr (LenSym.put bl) rest)
    obtain ⟨lens, hrun, hacc'⟩ := @ih { s with lens := lens₁, have_ := acc₁.length } hm htab acc₁
      hacc₁
      (fun y hy => hxs y (List.mem_cons_of_mem _ hy)) h2 hle
    exact ⟨lens, hrun₁.trans hrun, hacc'⟩

/-- Both trees are accepted. -/
theorem caseCodelens_done {llens dlens : List Nat} (hm : s.mode = .codelens)
    (hacc : LensRead s (llens ++ dlens)) (hn : s.nlen = llens.length) (hd : s.ndist = dlens.length)
    (h256 : 256 < llens.length) (hend : llens.getD 256 0 ≠ 0) {lt dt : DecodeTable}
    (hlt : zngInflateTable .lens llens 10 = .ok lt) (hdt : zngInflateTable .dists dlens 9 = .ok dt)
    (rest : BitStream) :
    CaseRun s rest { s with
      lencode := lt.entry, lenbits := lt.bits, distcode := dt.entry, distbits := dt.bits,
      mode := .len_ } rest := by
  refine .one (by rw [bitCase, hm]) ?_
  have hlens : ∀ i < llens.length, s.lens i = llens.getD i 0 := by
    intro i hi
    rw [hacc.lens i (by rw [List.length_append]; omega), List.getD_append _ _ _ _ hi]
  have hdlens : ∀ i < dlens.length, s.lens (llens.length + i) = dlens.getD i 0 := by
    intro i hi
    rw [hacc.lens _ (by rw [List.length_append]; omega), List.getD_append_right _ _ _ _ (by omega),
      Nat.add_sub_cancel_left]
  have hmap (xs : List Nat) (f : Nat → Nat) (hf : ∀ i < xs.length, f i = xs.getD i 0) :
      (List.range xs.length).map f = xs := by
    refine List.ext_getElem (by rw [List.length_map, List.length_range]) fun i h1 h2 => ?_
    rw [List.getElem_map, List.getElem_range, hf i h2, List.getD_eq_getElem _ _ h2]
  have hall : s.have_ = s.nlen + s.ndist := by
    rw [hacc.have_, hn, hd, List.length_append]
  unfold caseCodelens
  rw [if_neg (by omega)]
  unfold buildTables
  rw [if_neg (by rw [hlens 256 h256]; exact hend), hn, hmap llens s.lens hlens]
  have hroot : maxLenRootBits = 10 := rfl
  rw [hroot, hlt]
  dsimp only
  rw [hd, hmap dlens (fun i => s.lens (llens.length + i)) hdlens, hdt]
  rfl

end Cases

/-- The decoder's table of the bit length tree has no second level. -/
theorem SameTree.tableFor {lens : List Nat} {blCount : Nat → Nat} {bl : CodeTree} {d : DecodeTable}
    (h : SameTree .codes 7 lens blCount bl d.entry d.bits) (hlen : lens.length = 19)
    (hlt : ∀ l ∈ lens, l < 8) (hd : zngInflateTable .codes lens 7 = .ok d) {s : InflateState}
    (hs : s.lencode = d.entry ∧ s.lenbits = d.bits) : TableFor s bl := by
  intro sym hsym h0 v hv
  obtain ⟨hsize, k, hk, hsel⟩ := h.select (by rw [hlen]; exact hsym) h0 hv
  obtain ⟨l, -, -, hent⟩ := (InflateState.codesOk_of_table hlen hlt hd hs).look v
  rw [hs.1, hs.2] at hent ⊢
  have hdirect : ZlibNg.select d.entry d.bits v = (0, d.entry (v % 2 ^ d.bits)) := by
    unfold ZlibNg.select
    have hop : ¬ (1 ≤ (d.entry (v % 2 ^ d.bits)).op ∧ (d.entry (v % 2 ^ d.bits)).op ≤ 15) := by
      generalize d.entry (v % 2 ^ d.bits) = here at hent
      cases hent with
      | len val h => exact fun h => absurd (show 1 ≤ 0 from h.1) (by decide)
      | invalid => exact fun h => absurd (show 64 ≤ 15 from h.2) (by decide)
    exact if_neg hop
  have hmatch : CodeType.matchSym .codes = 20 := rfl
  have hfor : entryFor .codes sym k = { op := 0, bits := k, val := sym } := by
    unfold entryFor
    rw [if_neg (by omega), if_pos (by omega)]
  rw [hdirect, hfor] at hsel
  dsimp only at hsel
  unfold selectBits at hsize
  rw [hdirect] at hsize
  dsimp only at hsize
  rw [hsel] at hsize ⊢
  have hcode : Code.codeBits { op := 0, bits := k, val := sym } = k := by
    simp [Code.codeBits]
  rw [hcode, Nat.zero_add] at hsize
  have hbits : k = bl.len sym := hsize
  rw [hbits]

theorem maxBlindex_above {len : Nat → Nat} {i r : Nat} (h : maxBlindex len i < r) (hr : r ≤ i) :
    len (blOrder.getD r 0) = 0 := by
  induction i with
  | zero => omega
  | succ i ih =>
    rw [maxBlindex] at h
    split at h
    · omega
    · next hnot =>
      push Not at hnot
      by_cases hri : r = i + 1
      · rw [hri]
        exact hnot.2
      · exact ih h (by omega)

/-- Repetitions alone expand to zeros. -/
theorem foldlM_expand_zero {xs : List LenSym} (hxs : ∀ x ∈ xs, 16 ≤ x.sym) {acc acc' : List Nat}
    (hacc : ∀ len ∈ acc, len = 0) (h : xs.foldlM LenSym.expand acc = some acc') :
    ∀ len ∈ acc', len = 0 := by
  induction xs generalizing acc with
  | nil =>
    obtain rfl := Option.some.inj h
    exact hacc
  | cons x xs ih =>
    obtain ⟨acc₁, h1, h2⟩ := Option.bind_eq_some_iff.mp h
    refine ih (fun y hy => hxs y (List.mem_cons_of_mem _ hy)) (fun len hlen => ?_) h2
    have hsym := hxs x List.mem_cons_self
    have hzeros : ∀ n v, v = 0 → acc ++ List.replicate n v = acc₁ → len = 0 := by
      rintro n v rfl rfl
      exact (List.mem_append.mp hlen).elim (hacc len) List.eq_of_mem_replicate
    unfold LenSym.expand at h1
    rw [if_neg (by omega)] at h1
    split_ifs at h1
    · obtain ⟨v, hv, h1⟩ := Option.map_eq_some_iff.mp h1
      exact hzeros _ v (hacc v (List.mem_of_getLast? hv)) h1
    · exact hzeros _ 0 rfl (Option.some.inj h1)
    · exact hzeros _ 0 rfl (Option.some.inj h1)

theorem sendAllTrees_writes {t : BlockTrees} (hl : t.l.lens.length ≤ 286) (hd : t.d.lens.length ≤ 30)
    (hb : t.maxBlindex ≤ 18) (hbl : ∀ r < 19, t.bl.len (blOrder.getD r 0) < 8)
    (hlx : ∀ x ∈ sendTree t.l.lens, x.Coded t.bl.codeTree)
    (hdx : ∀ x ∈ sendTree t.d.lens, x.Coded t.bl.codeTree) (hs : t.bl.codeTree.Short 19) :
    Writes (BitWriter.sendAllTrees t) t.put := by
  have hsyms {xs : List LenSym} (hxs : ∀ x ∈ xs, x.Coded t.bl.codeTree) :
      Writes (BitWriter.sendLens t.bl.codeTree xs) fun rest =>
        xs.foldr (LenSym.put t.bl.codeTree) rest :=
    Writes.foldlM fun x hx => LenSym.put_writes (hs.le _ (hxs x hx).proper.1) (hxs x hx).code
      (hxs x hx).proper (hxs x hx).extra
  have hlens : Writes (fun w => (List.range (t.maxBlindex + 1)).foldlM
      (fun w rank => w.sendBits (t.bl.len (blOrder.getD rank 0)) 3) w) fun rest =>
      (List.range (t.maxBlindex + 1)).foldr
        (fun rank rest => (BitStream.ofNat (t.bl.len (blOrder.getD rank 0)) 3).append rest) rest :=
    Writes.foldlM fun rank hrank => Writes.sendBits (by decide)
      (hbl rank (by have := List.mem_range.mp hrank; omega))
  exact (Writes.sendBits (by decide) (by omega)).bind ((Writes.sendBits (by decide) (by omega)).bind
    ((Writes.sendBits (by decide) (by omega)).bind (hlens.bind ((hsyms hlx).bind (hsyms hdx)))))

/-- What the decoder has after the description of two trees. -/
structure TreesRead (t : BlockTrees) (s' : InflateState) : Prop where
  mode : s'.mode = .len_
  nlen : s'.nlen = t.l.lens.length
  ndist : s'.ndist = t.d.lens.length
  lens : ∀ i < t.l.lens.length, s'.lens i = t.l.lens.getD i 0
  dists : ∀ i < t.d.lens.length, s'.lens (t.l.lens.length + i) = t.d.lens.getD i 0

/-- The tables that the decoder has built from the lengths of both trees. -/
structure TablesBuilt (t : BlockTrees) (s' : InflateState) : Prop where
  l : ∃ lt, zngInflateTable .lens t.l.lens 10 = .ok lt ∧ s'.lencode = lt.entry ∧ s'.lenbits = lt.bits
  d : ∃ dt, zngInflateTable .dists t.d.lens 9 = .ok dt ∧ s'.distcode = dt.entry ∧ s'.distbits = dt.bits

/-- The trees of a block, as far as their description goes. -/
structure BlockTrees.Sendable (t : BlockTrees) : Prop where
  l : t.l.lens.length ≤ 286
  end_ : 256 < t.l.lens.length ∧ t.l.lens.getD 256 0 ≠ 0
  d : 1 ≤ t.d.lens.length ∧ t.d.lens.length ≤ 30
  llens : ∀ len ∈ t.l.lens, len ≤ 15
  dlens : ∀ len ∈ t.d.lens, len ≤ 15
  bl : t.bl.codeTree.Short 19
  maxBlindex : 3 ≤ t.maxBlindex ∧ t.maxBlindex ≤ 18
  blens : ∀ r < 19, t.bl.len (blOrder.getD r 0) < 8
  above : ∀ r, t.maxBlindex < r → r < 19 → t.bl.len (blOrder.getD r 0) = 0
  lsyms : ∀ x ∈ sendTree t.l.lens, x.Coded t.bl.codeTree
  dsyms : ∀ x ∈ sendTree t.d.lens, x.Coded t.bl.codeTree
  table : ∃ d, zngInflateTable .codes ((List.range 19).map t.bl.len) 7 = .ok d ∧
    SameTree .codes 7 ((List.range 19).map t.bl.len) t.bl.blCount t.bl.codeTree d.entry d.bits
  ltable : ∃ d, zngInflateTable .lens t.l.lens 10 = .ok d
  dtable : ∃ d, zngInflateTable .dists t.d.lens 9 = .ok d

/-- The decoder's way through the description. -/
theorem BlockTrees.Sendable.read {t : BlockTrees} (h : t.Sendable) (s : InflateState)
    (hm : s.mode = .table) (rest : BitStream) :
    ∃ s', CaseRun s (t.put rest) s' rest ∧ TreesRead t s' ∧ TablesBuilt t s' ∧ s'.last = s.last := by
  obtain ⟨d, hd, hsame⟩ := h.table
  obtain ⟨lt, hlt⟩ := h.ltable
  obtain ⟨dt, hdt⟩ := h.dtable
  have hblt : ∀ l ∈ (List.range 19).map t.bl.len, l < 8 := by
    intro l hl
    obtain ⟨n, hn, rfl⟩ := List.mem_map.mp hl
    have hperm : ∀ i < 19, ∃ r < 19, blOrder.getD r 0 = i := by decide
    obtain ⟨r, hr, rfl⟩ := hperm n (List.mem_range.mp hn)
    exact h.blens r hr
  have hb := h.maxBlindex
  -- the numbers of codes
  have hrun₁ := caseTable_run hm (show 257 ≤ t.l.lens.length by have := h.end_.1; omega) h.l h.d.1 h.d.2
    (show 4 ≤ t.maxBlindex + 1 by omega) (show t.maxBlindex + 1 ≤ 19 by omega)
    ((List.range (t.maxBlindex + 1)).foldr
      (fun rank rest => (BitStream.ofNat (t.bl.len (blOrder.getD rank 0)) 3).append rest)
      ((sendTree t.l.lens).foldr (LenSym.put t.bl.codeTree)
        ((sendTree t.d.lens).foldr (LenSym.put t.bl.codeTree) rest)))
  -- the bit length tree
  obtain ⟨lens₂, hrun₂, hlens₂⟩ := @caseLenlens_loop { s with
      nlen := t.l.lens.length, ndist := t.d.lens.length, ncode := t.maxBlindex + 1, have_ := 0,
      mode := .lenlens } t.bl.len h.blens
    ((sendTree t.l.lens).foldr (LenSym.put t.bl.codeTree)
      ((sendTree t.d.lens).foldr (LenSym.put t.bl.codeTree) rest)) (t.maxBlindex + 1) 0 rfl rfl
    (Nat.zero_add _).symm (by omega) fun r hr => absurd hr (Nat.not_lt_zero r)
  rw [← List.range_eq_range', Nat.zero_add] at hrun₂
  rw [Nat.zero_add] at hlens₂
  obtain ⟨lens₃, hrun₃⟩ := @caseLenlens_done { s with
      nlen := t.l.lens.length, ndist := t.d.lens.length, ncode := t.maxBlindex + 1,
      lens := lens₂, have_ := t.maxBlindex + 1, mode := .lenlens } t.bl.len rfl rfl
    (by dsimp only; omega) hlens₂ (fun r h1 h2 => h.above r h1 h2) d hd
    ((sendTree t.l.lens).foldr (LenSym.put t.bl.codeTree)
      ((sendTree t.d.lens).foldr (LenSym.put t.bl.codeTree) rest))
  -- the two trees, one after the other
  obtain ⟨lens₄, hrun₄, hacc₄⟩ := @caseCodelens_loop { s with
      nlen := t.l.lens.length, ndist := t.d.lens.length, ncode := t.maxBlindex + 1, lens := lens₃,
      lencode := d.entry, lenbits := d.bits, distcode := d.entry, have_ := 0, mode := .codelens }
    t.bl.codeTree rfl (hsame.tableFor (by rw [List.length_map, List.length_range]) hblt hd ⟨rfl, rfl⟩)
    [] t.l.lens ⟨rfl, fun i hi => absurd hi (Nat.not_lt_zero i)⟩ (sendTree t.l.lens) h.lsyms
    (expand_sendTree h.llens []).1 (Nat.le_add_right _ _)
    ((sendTree t.d.lens).foldr (LenSym.put t.bl.codeTree) rest)
  obtain ⟨lens₅, hrun₅, hacc₅⟩ := @caseCodelens_loop { s with
      nlen := t.l.lens.length, ndist := t.d.lens.length, ncode := t.maxBlindex + 1, lens := lens₄,
      lencode := d.entry, lenbits := d.bits, distcode := d.entry, have_ := t.l.lens.length,
      mode := .codelens }
    t.bl.codeTree rfl (hsame.tableFor (by rw [List.length_map, List.length_range]) hblt hd ⟨rfl, rfl⟩)
    t.l.lens (t.l.lens ++ t.d.lens) hacc₄ (sendTree t.d.lens) h.dsyms
    (expand_sendTree h.dlens t.l.lens).1 (List.length_append).le rest
  have hrun₆ := caseCodelens_done rfl hacc₅ rfl rfl h.end_.1 h.end_.2 hlt hdt rest
  refine ⟨_, hrun₁.trans (hrun₂.trans (hrun₃.trans (hrun₄.trans (hrun₅.trans hrun₆)))),
    ⟨rfl, rfl, rfl, fun i hi => ?_, fun i hi => ?_⟩, ⟨⟨lt, hlt, rfl, rfl⟩, ⟨dt, hdt, rfl, rfl⟩⟩, rfl⟩
  · exact (hacc₅.lens i (by rw [List.length_append]; omega)).trans (List.getD_append _ _ _ _ hi)
  · refine (hacc₅.lens _ (by rw [List.length_append]; omega)).trans ?_
    rw [List.getD_append_right _ _ _ _ (Nat.le_add_right _ _), Nat.add_sub_cancel_left]

/-- A built tree that has a symbol in use. -/
theorem lens_getD {kind : TreeKind} {freq : Nat → Nat} {t : BuiltTree} (h : t.Huffman kind.desc freq)
    (hu : t.Counted kind.desc) {n : Nat} (hn : n < kind.desc.elems) (h0 : freq n ≠ 0) :
    n < t.lens.length ∧ t.lens.getD n 0 ≠ 0 := by
  have hused : t.freq n ≠ 0 := by
    rw [h.kept n hn h0]
    exact h0
  have hle := hu.used n hn hused
  unfold BuiltTree.lens
  have hlt : n < (t.maxCode + 1).toNat := by omega
  rw [List.length_map, List.length_range, getD_map_range hlt]
  exact ⟨hlt, (h.len_ne_zero n hn).mpr hused⟩

theorem BuiltTree.Huffman.lens_pos {kind : TreeKind} {freq : Nat → Nat} {t : BuiltTree}
    (h : t.Huffman kind.desc freq) (hu : t.Counted kind.desc) : 1 ≤ t.lens.length := by
  have hcard := h.used_card
  obtain ⟨n, hn⟩ := Finset.card_pos.mp (show 0 < (t.used kind.desc).card by omega)
  obtain ⟨hn, h0⟩ := Finset.mem_filter.mp hn
  have hle := hu.used n (Finset.mem_range.mp hn) h0
  unfold BuiltTree.lens
  rw [List.length_map, List.length_range]
  omega

/-- Every pair of trees, with the end of the block in the first one, can be sent. -/
theorem buildTrees_sendable (dl : TreeKind → Nat → Nat) (freqs : (Nat → Nat) × (Nat → Nat))
    (hend : freqs.1 256 ≠ 0)
    (hl : ((List.range TreeKind.literal.desc.elems).map freqs.1).sum ≤ 65535)
    (hd : ((List.range TreeKind.distance.desc.elems).map freqs.2).sum ≤ 65535) :
    ∃ t, buildTrees dl freqs = some t ∧ t.Sendable := by
  obtain ⟨l, hlt, hlh⟩ := buildTree_huffman .literal freqs.1 (dl .literal) 0 0 hl
  obtain ⟨d, hdt, hdh⟩ := buildTree_huffman .distance freqs.2 (dl .distance) l.optLen l.staticLen hd
  have hlu := buildTree_counted .literal hl hlt
  have hdu := buildTree_counted .distance hd hdt
  have hlm := buildTree_maxCode .literal (freq_lt_of_sum hl) hlt
  have hdm := buildTree_maxCode .distance (freq_lt_of_sum hd) hdt
  obtain ⟨hll, hln⟩ := lens_le hlh hlm
  obtain ⟨hdl, hdn⟩ := lens_le hdh hdm
  have hbt := blFreq_le hll hdl hln hdn
  obtain ⟨bl, hbl, hbh⟩ := buildTree_huffman .bitLength _ (dl .bitLength) d.optLen d.staticLen hbt
  have hbu := buildTree_counted .bitLength hbt hbl
  have hbm := buildTree_maxCode .bitLength (freq_lt_of_sum hbt) hbl
  obtain ⟨h256, hend'⟩ := lens_getD hlh hlu (show 256 < TreeKind.literal.desc.elems by decide) hend
  have helems : TreeKind.bitLength.desc.elems = 19 := rfl
  rw [helems] at hbm
  obtain ⟨bd, hbd, hsame⟩ := bl.sameTree hbh hbu (k := 19) hbm (Nat.le_refl _) (.codes (Nat.le_refl _))
  -- what is sent has a code
  have hcoded {lens : List Nat} (hlens : ∀ len ∈ lens, len ≤ 15)
      (hmem : ∀ x ∈ sendTree lens, scanTree d.lens (scanTree l.lens fun _ => 0) x.sym ≠ 0) :
      ∀ x ∈ sendTree lens, x.Coded bl.codeTree := by
    intro x hx
    have hproper := sendTree_proper hlens x hx
    have h0 : bl.len x.sym ≠ 0 := by
      refine (hbh.len_ne_zero _ hproper.1).mpr ?_
      rw [hbh.kept _ hproper.1 (hmem x hx)]
      exact hmem x hx
    exact ⟨hproper, (expand_sendTree hlens []).2 x hx, h0,
      hsame.code_lt (by rw [List.length_map, List.length_range]; exact hproper.1) h0⟩
  have hcount (x : LenSym) : scanTree d.lens (scanTree l.lens fun _ => 0) x.sym =
      (sendTree l.lens).countP (·.sym = x.sym) + (sendTree d.lens).countP (·.sym = x.sym) := by
    rw [scanTree_count, scanTree_count, Nat.zero_add]
  have hpos {xs : List LenSym} {x : LenSym} (hx : x ∈ xs) : 0 < xs.countP (·.sym = x.sym) :=
    List.countP_pos_iff.mpr ⟨x, hx, decide_eq_true rfl⟩
  have hlsyms := hcoded hll fun x hx => by
    have := hpos hx
    rw [hcount]
    omega
  have hdsyms := hcoded hdl fun x hx => by
    have := hpos hx
    rw [hcount]
    omega
  -- a length that is not zero is sent by itself
  have hsent : ∃ x ∈ sendTree l.lens, x.sym < 16 := by
    by_contra hno
    push Not at hno
    have hzero := foldlM_expand_zero hno (fun len hlen => absurd hlen List.not_mem_nil)
      (expand_sendTree hll []).1
    rw [List.nil_append] at hzero
    refine hend' ?_
    rw [List.getD_eq_getElem _ _ h256]
    exact hzero _ (List.getElem_mem h256)
  have hthree : 3 ≤ maxBlindex bl.len 18 := by
    obtain ⟨x, hx, h16⟩ := hsent
    have hperm : ∀ i < 16, ∃ r < 19, 3 ≤ r ∧ blOrder.getD r 0 = i := by decide
    obtain ⟨r, hr, hr3, hri⟩ := hperm x.sym h16
    by_contra hlt
    have hzero := @maxBlindex_above bl.len 18 r (by omega) (by omega)
    rw [hri] at hzero
    exact (hlsyms x hx).len hzero
  have hseven : ∀ r < 19, bl.len (blOrder.getD r 0) < 8 := by
    intro r hr
    have hin : ∀ r < 19, blOrder.getD r 0 < 19 := by decide
    have hmax : TreeKind.bitLength.desc.maxLength = 7 := rfl
    have := hbh.len_le _ (hin r hr)
    omega
  have hcomplete {kind : TreeKind} {f : Nat → Nat} {t : BuiltTree} (h : t.Huffman kind.desc f)
      (hu : t.Counted kind.desc) (hm : t.maxCode < kind.desc.elems) {type : CodeType} {bits : Nat}
      (hp : type.Passed t.lens.length bits) : ∃ d, zngInflateTable type t.lens bits = .ok d := by
    obtain ⟨d, hd, -⟩ := t.sameTree h hu (k := (t.maxCode + 1).toNat) (by omega) (by omega)
      (by rwa [BuiltTree.lens, List.length_map, List.length_range] at hp)
    exact ⟨d, hd⟩
  refine ⟨⟨l, d, bl, maxBlindex bl.len 18,
      bl.optLen + (3 * (maxBlindex bl.len 18 + 1) + 5 + 5 + 4 : Nat), bl.staticLen⟩, ?_,
    ⟨hln, ⟨h256, hend'⟩, ⟨hdh.lens_pos hdu, hdn⟩, hll, hdl, short_of_built hbh,
    ⟨hthree, maxBlindex_le _ _⟩, hseven, fun r h1 h2 => maxBlindex_above h1 (by omega), hlsyms, hdsyms,
    ⟨bd, hbd, hsame⟩, hcomplete hlh hlu hlm (.lens hln), hcomplete hdh hdu hdm (.dists hdn)⟩⟩
  unfold buildTrees
  rw [hlt, Option.bind_eq_bind, Option.bind_some, hdt, Option.bind_some]
  unfold buildBlTree
  dsimp only
  rw [hbl]
  rfl

/-- The description of the trees goes out and is read back: the decoder ends with the lengths of
both trees, and each symbol of the bit length tree is counted as often as it is sent. -/
theorem sendAllTrees_read (dl : TreeKind → Nat → Nat) (freqs : (Nat → Nat) × (Nat → Nat))
    (hend : freqs.1 256 ≠ 0)
    (hl : ((List.range TreeKind.literal.desc.elems).map freqs.1).sum ≤ 65535)
    (hd : ((List.range TreeKind.distance.desc.elems).map freqs.2).sum ≤ 65535) :
    ∃ t, buildTrees dl freqs = some t ∧
      (∀ w : BitWriter, w.Held → ∃ w', w.sendAllTrees t = some w' ∧ w'.Held ∧
        ∀ rest, w'.stream.append rest = w.stream.append (t.put rest)) ∧
      (∀ s : InflateState, s.mode = .table → ∀ rest, ∃ s',
        CaseRun s (t.put rest) s' rest ∧ TreesRead t s') ∧
      ∀ n, scanTree t.d.lens (scanTree t.l.lens fun _ => 0) n =
        (sendTree t.l.lens ++ sendTree t.d.lens).countP (·.sym = n) := by
  obtain ⟨t, ht, h⟩ := buildTrees_sendable dl freqs hend hl hd
  refine ⟨t, ht, fun w hw => ?_, fun s hm rest => ?_, fun n => ?_⟩
  · exact sendAllTrees_writes h.l h.d.2 h.maxBlindex.2 h.blens h.lsyms h.dsyms h.bl w hw
  · obtain ⟨s', hrun, hread, -⟩ := h.read s hm rest
    exact ⟨s', hrun, hread⟩
  · rw [scanTree_count, scanTree_count, Nat.zero_add, List.countP_append]

/-- A block of nothing but its end. -/
theorem sendAllTrees_read_end :
    ∃ t, buildTrees (fun _ _ => 0) initBlock = some t ∧
      (∀ w : BitWriter, w.Held → ∃ w', w.sendAllTrees t = some w' ∧ w'.Held ∧
        ∀ rest, w'.stream.append rest = w.stream.append (t.put rest)) ∧
      (∀ s : InflateState, s.mode = .table → ∀ rest, ∃ s',
        CaseRun s (t.put rest) s' rest ∧ TreesRead t s') ∧
      ∀ n, scanTree t.d.lens (scanTree t.l.lens fun _ => 0) n =
        (sendTree t.l.lens ++ sendTree t.d.lens).countP (·.sym = n) :=
  sendAllTrees_read _ _ (by decide) (by decide +kernel) (by decide +kernel)

end ZlibNg
