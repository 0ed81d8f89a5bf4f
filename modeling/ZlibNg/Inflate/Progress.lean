import ZlibNg.Inflate.SymbolRun

/-! Every case takes bits off the stream or comes closer to one that does. -/
namespace ZlibNg
open BitProg

/-- A case that takes a bit at least, or leads to a lower mode. -/
def Mode.Advances (m : Mode) (s' : InflateState) (n : Nat) : Prop :=
  0 < n ∨ Regs.rank s'.mode < Regs.rank m

theorem Mode.Advances.lower {m : Mode} {s' : InflateState} {n : Nat}
    (h : (Regs.rank s'.mode).blt (Regs.rank m) = true) : m.Advances s' n := .inr (by simpa using h)

namespace InflateState
variable {s : InflateState}

theorem caseHead_takes : s.caseHead.takes 0 0 Mode.head.Advances := by
  simp only [caseHead, needBits, hold, bits, initBits, dropBits, pure_eq, ret_bind, need_bind,
    whole_bind, peek_bind, skip_bind, empty_bind, takes_ite, takes]
  refine ⟨fun _ => .lower rfl, fun _ w => ⟨fun _ => .inl (by decide), fun _ b =>
    ⟨fun _ => .lower rfl, fun _ m => ⟨fun _ => .lower rfl, fun _ => ⟨by decide, fun l =>
    ⟨fun _ => .lower rfl, fun _ w => .inl (by decide)⟩⟩⟩⟩⟩⟩

theorem caseFlags_takes : s.caseFlags.takes 0 0 Mode.flags.Advances := by
  simp only [caseFlags, needBits, hold, initBits, pure_eq, ret_bind, need_bind, whole_bind,
    empty_bind, takes_ite, takes]
  exact fun w => ⟨fun _ => .lower rfl, fun _ => ⟨fun _ => .lower rfl,
    fun _ => .inl (by decide)⟩⟩

theorem caseTime_takes : s.caseTime.takes 0 0 Mode.time.Advances := by
  simp only [caseTime, needBits, hold, initBits, pure_eq, ret_bind, need_bind, whole_bind,
    empty_bind, takes]
  exact fun w => .inl (by decide)

theorem caseOs_takes : s.caseOs.takes 0 0 Mode.os.Advances := by
  simp only [caseOs, needBits, hold, initBits, pure_eq, ret_bind, need_bind, whole_bind,
    empty_bind, takes]
  exact fun w => .inl (by decide)

theorem caseExlen_takes : s.caseExlen.takes 0 0 Mode.exlen.Advances := by
  simp only [caseExlen, needBits, hold, initBits, pure_eq, ret_bind, need_bind, whole_bind,
    empty_bind, takes_ite, takes]
  exact ⟨fun _ w => .lower rfl, fun _ => .lower rfl⟩

theorem caseHcrc_takes : s.caseHcrc.takes 0 0 Mode.hcrc.Advances := by
  simp only [caseHcrc, needBits, hold, initBits, pure_eq, ret_bind, need_bind, whole_bind,
    empty_bind, takes_ite, takes]
  exact ⟨fun _ w => ⟨fun _ => .lower rfl, fun _ => .inl (by decide)⟩, fun _ => .lower rfl⟩

theorem caseDictid_takes : s.caseDictid.takes 0 0 Mode.dictid.Advances := by
  simp only [caseDictid, needBits, hold, initBits, pure_eq, ret_bind, need_bind, whole_bind,
    empty_bind, takes]
  exact fun w => .inl (by decide)

theorem caseTypedo_takes {m : Mode} (hm : m = .type ∨ m = .typedo) :
    s.caseTypedo.takes 0 0 m.Advances := by
  simp only [caseTypedo, needBits, byteBits, bits, dropBits, pure_eq, ret_bind, need_bind,
    peek_bind, skip_bind, align_bind, takes_ite, takes]
  refine ⟨fun _ => ?_, fun _ l => ⟨by decide, fun t =>
    ⟨by decide, fun _ => .inl (by decide), fun _ => ⟨fun _ => .inl (by decide), fun _ =>
    ⟨fun _ => .inl (by decide), fun _ => .inl (by decide)⟩⟩⟩⟩⟩
  rcases hm with rfl | rfl <;> exact .lower rfl

theorem caseStored_takes : s.caseStored.takes 0 0 Mode.stored.Advances := by
  simp only [caseStored, needBits, hold, initBits, pure_eq, ret_bind, need_bind, whole_bind,
    empty_bind, takes_ite, takes]
  exact fun w => ⟨fun _ => .lower rfl, fun _ => .inl (by decide)⟩

theorem caseTable_takes : s.caseTable.takes 0 0 Mode.table.Advances := by
  simp only [caseTable, needBits, bits, dropBits, pure_eq, ret_bind, need_bind, peek_bind,
    skip_bind, takes_ite, takes]
  exact fun n => ⟨by decide, fun d => ⟨by decide, fun c => ⟨by decide, fun _ => .inl (by decide),
    fun _ => .inl (by decide)⟩⟩⟩

theorem caseLenlens_takes : s.caseLenlens.takes 0 0 Mode.lenlens.Advances := by
  simp only [caseLenlens, needBits, bits, dropBits, pure_eq, ret_bind, need_bind, peek_bind,
    skip_bind, takes_ite, takes]
  refine ⟨fun _ l => ⟨by decide, .inl (by decide)⟩, fun _ => ?_⟩
  split
  · exact .lower rfl
  · exact .lower rfl

theorem buildTables_advances : Mode.codelens.Advances s.buildTables 0 := by
  unfold buildTables
  split
  · exact .lower rfl
  · split
    · exact .lower rfl
    · dsimp only
      split <;> exact .lower rfl

theorem caseCodelens_takes (hm : s.mode = .codelens) (hs : s.Ok) :
    s.caseCodelens.takes 0 0 Mode.codelens.Advances := by
  simp only [Ok, hm] at hs
  obtain ⟨-, -, hcodes⟩ := hs
  have hbits : ∀ v, 0 < (s.lencode (v % 2 ^ s.lenbits)).bits := by
    intro v
    obtain ⟨l, hl, -, hc⟩ := hcodes.look v
    rw [hc.bits_eq.1]
    exact hl
  simp only [caseCodelens, lookup, needBits, bits, dropBits, pure_eq, ret_bind, need_bind,
    peek_bind, skip_bind, find_bind, takes_ite, takes]
  refine ⟨fun _ v => ?_, fun _ => buildTables_advances⟩
  have hv := hbits v
  generalize s.lencode (v % 2 ^ s.lenbits) = here at hv ⊢
  refine ⟨fun _ => ⟨by omega, .inl (by omega)⟩, fun _ => ⟨fun _ => ⟨by omega, fun _ => .inl (by omega),
    fun _ w => ⟨by omega, .inl (by omega)⟩⟩, fun _ => ⟨fun _ => ⟨by omega, fun w => ⟨by omega,
    .inl (by omega)⟩⟩, fun _ => ⟨by omega, fun w => ⟨by omega, .inl (by omega)⟩⟩⟩⟩⟩

theorem caseLenext_takes : s.caseLenext.takes 0 0 Mode.lenext.Advances := by
  simp only [caseLenext, needBits, bits, dropBits, pure_eq, ret_bind, need_bind, peek_bind,
    skip_bind, takes_ite, takes]
  exact ⟨fun _ v => ⟨by omega, .lower rfl⟩, fun _ => .lower rfl⟩

theorem caseDistext_takes : s.caseDistext.takes 0 0 Mode.distext.Advances := by
  simp only [caseDistext, needBits, bits, dropBits, pure_eq, ret_bind, need_bind, peek_bind,
    skip_bind, takes_ite, takes]
  exact ⟨fun _ v => ⟨by omega, .lower rfl⟩, fun _ => .lower rfl⟩

theorem caseCheck_takes : s.caseCheck.takes 0 0 Mode.check.Advances := by
  simp only [caseCheck, needBits, hold, initBits, pure_eq, ret_bind, need_bind, whole_bind,
    empty_bind, takes_ite, takes]
  exact ⟨fun _ w => ⟨fun _ => .lower rfl, fun _ => .lower rfl⟩, fun _ => .lower rfl⟩

theorem caseLength_takes : s.caseLength.takes 0 0 Mode.length.Advances := by
  simp only [caseLength, needBits, hold, initBits, pure_eq, ret_bind, need_bind, whole_bind,
    empty_bind, takes_ite, takes]
  exact ⟨fun _ w => ⟨fun _ => .lower rfl, fun _ => .lower rfl⟩, fun _ => .lower rfl⟩

/-- A code takes a bit at least. -/
theorem lenSize_pos (ht : TablesOk s) (x : Nat) : 0 < s.lenSize x := by
  obtain ⟨l, h1, hl, hp⟩ := ht.len.select_shape ht.lenbits_le lenLink.op x
  have := (hp.le_codeBits (by omega)).1
  simp only [lenSize, selectBits]
  omega

theorem distSize_pos (ht : TablesOk s) (x : Nat) : 0 < s.distSize x := by
  obtain ⟨l, h1, hl, hp⟩ := ht.dist.select_shape ht.distbits_le distLink.op x
  have := hp.codeBits_eq (by omega)
  simp only [distSize, selectBits]
  omega

/-- A case that is a program takes bits, or comes closer to one that does. -/
theorem bitCase_advances {p : CaseProg} {v v' : BitStream} {s' : InflateState} (hs : s.Ok)
    (hp : s.bitCase = some p) (hrun : p.runStream 0 v = some (s', v')) :
    ∃ n, s.mode.Advances s' n ∧ v'.len + n ≤ v.len := by
  have hok := hs
  unfold Ok at hok
  unfold bitCase at hp
  have hspec : ∀ {q : CaseProg} {m : Mode}, q.takes 0 0 m.Advances → s.mode = m → q = p →
      ∃ n, s.mode.Advances s' n ∧ v'.len + n ≤ v.len := by
    rintro q m htakes hm rfl
    rw [hm]
    exact takes_spec htakes le_rfl (Nat.zero_le _) hrun
  split at hp <;> simp only [Option.some.injEq, reduceCtorEq] at hp
  case h_1 hm => exact hspec caseHead_takes hm hp
  case h_2 hm => exact hspec caseFlags_takes hm hp
  case h_3 hm => exact hspec caseTime_takes hm hp
  case h_4 hm => exact hspec caseOs_takes hm hp
  case h_5 hm => exact hspec caseExlen_takes hm hp
  case h_6 hm => exact hspec caseHcrc_takes hm hp
  case h_7 hm => exact hspec caseDictid_takes hm hp
  case h_8 hm => exact hspec (caseTypedo_takes (.inl rfl)) hm hp
  case h_9 hm => exact hspec (caseTypedo_takes (.inr rfl)) hm hp
  case h_10 hm => exact hspec caseTable_takes hm hp
  case h_11 hm => exact hspec caseLenlens_takes hm hp
  case h_12 hm => exact hspec (caseCodelens_takes hm hs) hm hp
  case h_13 hm =>
    rw [hm] at hok
    rw [← hp, caseLen_runStream hok] at hrun
    split at hrun
    · next hle =>
      obtain ⟨-, rfl⟩ : _ ∧ _ := by simpa using hrun
      exact ⟨_, .inl (lenSize_pos hok v.val), (Nat.sub_add_cancel hle).le⟩
    · cases hrun
  case h_14 hm => exact hspec caseLenext_takes hm hp
  case h_15 hm =>
    rw [hm] at hok
    rw [← hp, caseDist_runStream hok.1] at hrun
    split at hrun
    · next hle =>
      obtain ⟨-, rfl⟩ : _ ∧ _ := by simpa using hrun
      exact ⟨_, .inl (distSize_pos hok.1 v.val), (Nat.sub_add_cancel hle).le⟩
    · cases hrun
  case h_16 hm => exact hspec caseDistext_takes hm hp
  case h_17 hm => exact hspec caseLength_takes hm hp

end InflateState
end ZlibNg
