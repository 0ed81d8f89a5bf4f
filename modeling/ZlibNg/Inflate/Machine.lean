import ZlibNg.Deflate.StoredBlocks
import ZlibNg.Inflate.Decoder
import ZlibNg.Inflate.SymbolRun

/-! The steps of the abstract machine within a block. -/
namespace ZlibNg
open BitProg

/-- The modes that a case of the blocks leads to when it reads bits. -/
def Mode.leads (m m' : Mode) : Bool :=
  m' == .bad || match m with
    | .type | .typedo => m' == .check || m' == .stored || m' == .len_ || m' == .table
    | .table => m' == .lenlens
    | .lenlens => m' == .lenlens || m' == .codelens
    | .codelens => m' == .codelens || m' == .len_
    | .len => m' == .lit || m' == .type || m' == .lenext
    | .lenext => m' == .dist
    | .dist => m' == .distext
    | .distext => m' == .match_
    | _ => false

theorem Mode.leads_ne {m m' : Mode} (h : m.leads m' = true) :
    m' ≠ .typedo ∧ (m' = .check → m = .type ∨ m = .typedo) := by
  revert h
  cases m <;> cases m' <;> decide

namespace InflateState
variable {s s' : InflateState} {v v' : BitStream}

theorem bitCase_leads {p : CaseProg} (hp : s.bitCase = some p) (hm : s.mode.phase = 1)
    (h : p.runStream 0 v = some (s', v')) : s.mode.leads s'.mode = true := by
  unfold bitCase at hp
  generalize hmode : s.mode = m at hm hp
  cases m <;> simp only [reduceCtorEq, Option.some.injEq] at hp <;> subst hp
  case head | flags | time | os | exlen | hcrc | dictid | length => exact absurd hm (by decide)
  case type | typedo =>
    simp only [caseTypedo, needBits, bits, byteBits, dropBits, pure_eq, ret_bind, need_bind, peek_bind,
      skip_bind, align_bind, runStream_ite, runStream] at h
    split_ifs at h <;> obtain ⟨rfl, -⟩ := Prod.mk.inj (Option.some.inj h) <;> rfl
  case table =>
    simp only [caseTable, needBits, bits, dropBits, pure_eq, ret_bind, need_bind, peek_bind, skip_bind,
      runStream_ite, runStream] at h
    split_ifs at h <;> obtain ⟨rfl, -⟩ := Prod.mk.inj (Option.some.inj h) <;> rfl
  case lenlens =>
    simp only [caseLenlens, needBits, bits, dropBits, pure_eq, ret_bind, need_bind, peek_bind,
      skip_bind, runStream_ite, runStream] at h
    split_ifs at h
    · obtain ⟨rfl, -⟩ := Prod.mk.inj (Option.some.inj h)
      simp [hmode, Mode.leads]
    · split at h <;> obtain ⟨rfl, -⟩ := Prod.mk.inj (Option.some.inj h) <;> rfl
  case codelens =>
    have hrepeat : ∀ len copy, Mode.codelens.leads (s.repeatLens len copy).mode = true := by
      intro len copy
      unfold repeatLens
      split <;> simp [hmode, Mode.leads]
    have hbuild : Mode.codelens.leads s.buildTables.mode = true := by
      unfold buildTables
      split
      · rfl
      · split
        · rfl
        · dsimp only
          split <;> rfl
    simp only [caseCodelens, lookup, needBits, bits, dropBits, pure_eq, ret_bind, need_bind, peek_bind,
      skip_bind, find_bind, runStream_ite, runStream] at h
    split_ifs at h <;> obtain ⟨rfl, -⟩ := Prod.mk.inj (Option.some.inj h)
    · simp [hmode, Mode.leads]
    · rfl
    · exact hrepeat _ _
    · exact hrepeat _ _
    · exact hrepeat _ _
    · exact hbuild
  case len =>
    have hafter : ∀ here back, Mode.len.leads (s.afterLen here back).mode = true := by
      intro here back
      unfold afterLen
      split
      · rfl
      · split
        · rfl
        · split <;> rfl
    simp only [caseLen, lookupSub, lookup, dropBits, pure_eq, ret_bind, skip_bind, find_bind,
      runStream_ite, runStream] at h
    split_ifs at h <;> obtain ⟨rfl, -⟩ := Prod.mk.inj (Option.some.inj h) <;> exact hafter _ _
  case lenext =>
    rw [caseLenext_runStream] at h
    split at h
    · obtain ⟨rfl, -⟩ := Prod.mk.inj (Option.some.inj h)
      rfl
    · cases h
  case dist =>
    have hafter : ∀ here back, Mode.dist.leads (s.afterDist here back).mode = true := by
      intro here back
      unfold afterDist
      dsimp only
      split <;> rfl
    simp only [caseDist, lookupSub, lookup, dropBits, pure_eq, ret_bind, skip_bind, find_bind,
      runStream_ite, runStream] at h
    split_ifs at h <;> obtain ⟨rfl, -⟩ := Prod.mk.inj (Option.some.inj h) <;> exact hafter _ _
  case distext =>
    rw [caseDistext_runStream] at h
    split at h
    · obtain ⟨rfl, -⟩ := Prod.mk.inj (Option.some.inj h)
      rfl
    · cases h

/-- The trailer follows the last block only. -/
theorem caseTypedo_check (h : s.caseTypedo.runStream 0 v = some (s', v')) (hl : s.last = false) :
    s'.mode ≠ .check := by
  simp only [caseTypedo, hl, needBits, bits, byteBits, dropBits, pure_eq, ret_bind, need_bind,
    peek_bind, skip_bind, align_bind, runStream_ite, runStream, Bool.false_eq_true, if_false] at h
  split_ifs at h <;> obtain ⟨rfl, -⟩ := Prod.mk.inj (Option.some.inj h) <;> exact fun h => (by cases h)

theorem caseStored_mode (h : s.caseStored.runStream 0 v = some (s', v')) :
    s'.mode = .copy_ ∨ s'.mode = .bad := by
  simp only [caseStored, needBits, hold, initBits, pure_eq, ret_bind, need_bind, whole_bind,
    empty_bind, runStream_ite, runStream] at h
  split_ifs at h <;> obtain ⟨rfl, -⟩ := Prod.mk.inj (Option.some.inj h)
  · exact .inr rfl
  · exact .inl rfl

end InflateState

namespace Decoder
variable {reach : Nat → Nat} {d d' e : Decoder}

/-- Steps of which none begins at a block's first bit. -/
def Within (reach : Nat → Nat) : Decoder → Decoder → Prop :=
  Relation.ReflTransGen fun d d' => d.st.mode ≠ .type ∧ d.next reach = some d'

/-- A case that only reads bits is a step. -/
theorem next_prog {q : CaseProg} (hq : d.st.bitCase = some q) (hm : d.st.mode ≠ .length) :
    d.next reach = d.runCase q := by
  unfold next
  cases hmode : d.st.mode <;> simp only [InflateState.bitCase, hmode, reduceCtorEq] at hq <;>
    first
    | exact absurd hmode hm
    | simp only [InflateState.bitCase, hmode, hq]

/-- Some of the bytes of a stored block are copied. -/
theorem copy_within {s : InflateState} {bytes : List UInt8} (hm : s.mode = .copy)
    (hlen : bytes.length ≤ s.length) (rest : BitStream) (hist : List UInt8) :
    Within reach ⟨s, (BitStream.ofBytes bytes).append rest, hist⟩
      ⟨{ s with length := s.length - bytes.length }, rest, bytes.reverse ++ hist⟩ := by
  induction bytes generalizing s hist with
  | nil =>
    rw [BitStream.nil_append]
    exact .refl
  | cons b bytes ih =>
    have hbyte : BitStream.ofBytes (b :: bytes) =
        (BitStream.ofNat b.toNat 8).append (BitStream.ofBytes bytes) := by
      rw [← List.singleton_append, BitStream.ofBytes_append]
      congr 1
      ext
      · simp [Nat.mod_eq_of_lt b.toNat_lt]
      · simp
    have hpeek (v : BitStream) : ((BitStream.ofNat b.toNat 8).append v).peek 8 = b.toNat := by
      rw [BitStream.peek_append (Nat.le_refl 8), BitStream.peek, BitStream.ofNat_val, Nat.mod_mod,
        Nat.mod_eq_of_lt b.toNat_lt]
    rw [List.length_cons] at hlen ⊢
    have hnext : Decoder.next reach ⟨s, (BitStream.ofBytes (b :: bytes)).append rest, hist⟩ =
        some ⟨{ s with length := s.length - 1 }, (BitStream.ofBytes bytes).append rest,
          b :: hist⟩ := by
      unfold Decoder.next
      dsimp only
      rw [hm]
      dsimp only
      rw [if_pos (by omega), Decoder.takeByte, hbyte, BitStream.append_assoc]
      dsimp only
      rw [if_pos (by rw [BitStream.append_len, BitStream.ofNat_len]; exact Nat.le_add_right _ _),
        hpeek, BitStream.drop_ofNat_append, UInt8.ofNat_toNat, ← hm]
    have hrest := @ih { s with length := s.length - 1 } hm (by dsimp only; omega) (b :: hist)
    rw [List.reverse_cons, List.append_assoc, Nat.add_comm bytes.length, Nat.sub_add_eq]
    exact .head ⟨by dsimp only; rw [hm]; decide, hnext⟩ hrest

/-- Some of the bytes of a match are copied. -/
theorem match_within {s : InflateState} (v : BitStream) {n : Nat} (hm : s.mode = .match_)
    (hpos : 0 < n) (hlen : n ≤ s.length) {hist : List UInt8}
    (hreach : ∀ k, hist.length ≤ k → s.offset ≤ reach k) :
    Within reach ⟨s, v, hist⟩ ⟨{ s with
        length := s.length - n, mode := if s.length - n = 0 then .len else s.mode },
      v, copyMatch s.offset n hist⟩ := by
  induction n generalizing s hist with
  | zero => omega
  | succ n ih =>
    have hnext : Decoder.next reach ⟨s, v, hist⟩ = some ⟨{ s with
        length := s.length - 1, mode := if s.length = 1 then .len else s.mode },
        v, hist.getD (s.offset - 1) 0 :: hist⟩ := by
      unfold Decoder.next
      dsimp only
      rw [hm]
      dsimp only
      rw [if_neg (Nat.not_lt.mpr (hreach _ (Nat.le_refl _)))]
    have hne : s.mode ≠ .type := by rw [hm]; decide
    by_cases h0 : n = 0
    · subst h0
      refine .single ⟨hne, hnext.trans ?_⟩
      by_cases h1 : s.length = 1
      · rw [if_pos h1, if_pos (by omega)]
        rfl
      · rw [if_neg h1, if_neg (by omega)]
        rfl
    · rw [if_neg (by omega)] at hnext
      have hrest := @ih { s with length := s.length - 1 } hm (by omega) (by dsimp only; omega)
        (hist.getD (s.offset - 1) 0 :: hist)
        fun k hk => hreach k (by rw [List.length_cons] at hk; omega)
      rw [Nat.sub_add_eq, Nat.sub_right_comm]
      exact .head ⟨hne, hnext⟩ hrest

theorem takeByte_hist {f : UInt8 → Decoder → Decoder} (h : d.takeByte f = some d')
    (hf : ∀ b x, x.hist.length ≤ (f b x).hist.length) : d.hist.length ≤ d'.hist.length := by
  unfold takeByte at h
  split at h
  · obtain rfl := Option.some.inj h
    exact hf _ { d with stream := d.stream.drop 8 }
  · cases h

theorem runCase_hist {p : CaseProg} (h : d.runCase p = some d') : d'.hist = d.hist := by
  obtain ⟨x, -, rfl⟩ := Option.map_eq_some_iff.mp h
  rfl

/-- Nothing is taken back that was written. -/
theorem next_hist (h : d.next reach = some d') : d.hist.length ≤ d'.hist.length := by
  have hmove : ∀ {s : InflateState} {v : BitStream}, some (⟨s, v, d.hist⟩ : Decoder) = some d' →
      d.hist.length ≤ d'.hist.length := by
    intro s v h
    obtain rfl := Option.some.inj h
    exact le_rfl
  have hcase : ∀ {p}, d.runCase p = some d' → d.hist.length ≤ d'.hist.length :=
    fun h => (congrArg List.length (runCase_hist h)).ge
  have hwrite : ∀ {s : InflateState} {v : BitStream} {b : UInt8},
      some (⟨s, v, b :: d.hist⟩ : Decoder) = some d' → d.hist.length ≤ d'.hist.length := by
    intro s v b h
    obtain rfl := Option.some.inj h
    exact Nat.le_succ _
  unfold next at h
  split at h
  case h_1 | h_2 | h_3 =>
    split at h
    · exact takeByte_hist h fun _ _ => by dsimp only; exact le_rfl
    · exact hmove h
  case h_4 =>
    split at h
    · exact hmove h
    · cases h
  case h_5 =>
    split at h
    · exact hmove h
    · exact hcase h
  case h_6 | h_8 => exact hmove h
  case h_7 =>
    split at h
    · exact takeByte_hist h fun _ _ => Nat.le_succ _
    · exact hmove h
  case h_9 =>
    split at h
    · exact hmove h
    · exact hwrite h
  case h_10 => exact hwrite h
  case h_11 =>
    obtain ⟨x, -, rfl⟩ := Option.map_eq_some_iff.mp h
    exact le_rfl
  case h_12 =>
    obtain ⟨x, -, rfl⟩ := Option.map_eq_some_iff.mp h
    exact le_rfl
  case h_13 =>
    split at h
    · exact hcase h
    · cases h

theorem Within.hist (h : d.Within reach d') : d.hist.length ≤ d'.hist.length := by
  induction h with
  | refl => exact le_rfl
  | tail _ hstep ih => exact ih.trans (next_hist hstep.2)

/-- After an error there is no further step. -/
theorem next_bad (h : d.st.mode = .bad) : d.next reach = none := by
  unfold next InflateState.bitCase
  rw [h]

/-- Where the machine cannot go on to the end of the block, it is there. -/
theorem Within.reached (h : d.Within reach d') (he : d.Within reach e) (hm : e.st.mode = .type)
    (hstop : ∀ x, d'.st.mode ≠ .type → d'.next reach = some x → ¬ x.Within reach e) : d' = e := by
  have hright : Relator.RightUnique fun d d' : Decoder =>
      d.st.mode ≠ .type ∧ d.next reach = some d' :=
    fun _ _ _ h h' => Option.some.inj (h.2.symm.trans h'.2)
  rcases Relation.ReflTransGen.total_of_right_unique hright h he with hx | hx
  · cases hx using Relation.ReflTransGen.head_induction_on with
    | refl => rfl
    | head hstep hrest => exact absurd hrest (hstop _ hstep.1 hstep.2)
  · cases hx using Relation.ReflTransGen.head_induction_on with
    | refl => rfl
    | head hstep _ => exact absurd hm hstep.1

end Decoder

end ZlibNg
