import ZlibNg.Inflate.CodeSpec

/-! What the further decoding depends on, and what the cases leave alone. -/
namespace ZlibNg
open BitProg

namespace Mode

/-- The modes before the first block. -/
def inHeader : Mode → Bool
  | .head | .flags | .time | .os | .exlen | .extra | .name | .comment | .hcrc | .dictid | .dict => true
  | _ => false

/-- The part of the data that is being read: 0 the header, 1 the blocks, 2 the check value, 3 the
length, and 4 and 5 the end and an error. -/
def phase : Mode → Nat
  | .head | .flags | .time | .os | .exlen | .extra | .name | .comment | .hcrc | .dictid | .dict => 0
  | .check => 2
  | .length => 3
  | .done => 4
  | .bad | .sync => 5
  | _ => 1

theorem inHeader_iff (m : Mode) : m.inHeader = true ↔ m.phase = 0 := by
  cases m <;> simp [inHeader, phase]

/-- The parts follow each other, none left out but for an error; nothing leads to the start, or to
`SYNC`, and only a zlib header to the request for a dictionary. -/
def follows (m m' : Mode) : Bool :=
  m.phase.ble m'.phase && (m'.phase == 5 || m'.phase.ble (m.phase + 1)) &&
    (m' != .head && m' != .sync && ((m' != .dict || m == .dictid) && (m' != .dictid || m == .head)))

theorem follows_iff (m m' : Mode) : m.follows m' = true ↔
    (m.phase ≤ m'.phase ∧ (m'.phase = 5 ∨ m'.phase ≤ m.phase + 1)) ∧ (m' ≠ .head ∧ m' ≠ .sync) ∧
      (m' = .dict → m = .dictid) ∧ (m' = .dictid → m = .head) := by
  simp [follows, imp_iff_not_or]

def usesLength : Mode → Bool
  | .head | .flags | .time | .os | .exlen | .extra
  | .copy_ | .copy | .lenext | .dist | .distext | .match_ | .lit => true
  | _ => false

def usesOffset : Mode → Bool
  | .distext | .match_ => true
  | _ => false

def usesExtra : Mode → Bool
  | .lenext | .distext => true
  | _ => false

/-- `TYPE` and `TYPEDO` go on alike. -/
def live : Mode → Mode
  | .type => .typedo
  | m => m

end Mode

namespace InflateState

/-- The state without the fields that its mode has no use for, and without the window and the
accounts. -/
def live (s : InflateState) : InflateState :=
  { s with
    mode := s.mode.live
    check := bif s.mode.inHeader then s.check else 0
    total := 0, back := 0, was := 0, adler := 0
    wsize := 0, whave := 0, wnext := 0, window := fun _ => 0
    length := bif s.mode.usesLength then s.length else 0
    offset := bif s.mode.usesOffset then s.offset else 0
    extra := bif s.mode.usesExtra then s.extra else 0 }

end InflateState

/-- The check value of some output. -/
def hashOf (flags : UInt32) (bytes : List UInt8) : Nat :=
  if flags ≠ 0 then crc32 crc32InitialValue bytes else adler32 adler32InitialValue bytes

/-- What a case that reads bits does not change. -/
structure Keeps (s s' : InflateState) : Prop where
  wsize : s'.wsize = s.wsize
  whave : s'.whave = s.whave
  wnext : s'.wnext = s.wnext
  window : s'.window = s.window
  total : s'.total = s.total
  wrap : s'.wrap = s.wrap
  head : s.head = none → s'.head = none
  wbits : s.wbits ≠ 0 ∨ s.mode ≠ .head ∨ s.wrap = 0 → s'.wbits = s.wbits
  phase : s.mode.follows s'.mode = true
  check : s.mode.phase ≠ 0 → s'.check = s.check ∧ s'.flags = s.flags
  start : s.mode.phase = 0 → s'.mode.phase = 1 → s'.wrap &&& 4 ≠ 0 → s'.check = hashOf s'.flags []

namespace Keeps
variable {s s' : InflateState}

/-- A case of the header. -/
theorem of_header (hm : s.mode.phase = 0) (hp : s.mode.follows s'.mode = true)
    (h : (s'.wsize, s'.whave, s'.wnext, s'.window, s'.total, s'.wrap) =
      (s.wsize, s.whave, s.wnext, s.window, s.total, s.wrap))
    (hhead : s.head = none → s'.head = none)
    (hwbits : s.wbits ≠ 0 ∨ s.mode ≠ .head ∨ s.wrap = 0 → s'.wbits = s.wbits)
    (hstart : s'.mode.phase = 1 → s'.wrap &&& 4 ≠ 0 → s'.check = hashOf s'.flags []) :
    Keeps s s' := by
  simp only [Prod.mk.injEq] at h
  obtain ⟨h1, h2, h3, h4, h5, h6⟩ := h
  exact ⟨h1, h2, h3, h4, h5, h6, hhead, hwbits, hp, fun hm' => absurd hm hm', fun _ => hstart⟩

/-- A case of the header that does not lead to the blocks. -/
theorem in_header (hm : s.mode.phase = 0) (hp : s.mode.follows s'.mode = true)
    (h : (s'.wsize, s'.whave, s'.wnext, s'.window, s'.total, s'.wrap) =
      (s.wsize, s.whave, s.wnext, s.window, s.total, s.wrap))
    (hhead : s.head = none → s'.head = none)
    (hwbits : s.wbits ≠ 0 ∨ s.mode ≠ .head ∨ s.wrap = 0 → s'.wbits = s.wbits)
    (hne : (s'.mode.phase == 1) = false) : Keeps s s' :=
  .of_header hm hp h hhead hwbits fun h1 => absurd h1 (by simpa using hne)

/-- A case of the blocks or of the trailer. -/
theorem of_block (hm : s.mode.phase ≠ 0) (hp : s.mode.follows s'.mode = true)
    (h : (s'.wsize, s'.whave, s'.wnext, s'.window, s'.total, s'.wrap) =
      (s.wsize, s.whave, s.wnext, s.window, s.total, s.wrap))
    (h' : (s'.head, s'.wbits, s'.check, s'.flags) = (s.head, s.wbits, s.check, s.flags)) :
    Keeps s s' := by
  simp only [Prod.mk.injEq] at h h'
  obtain ⟨h1, h2, h3, h4, h5, h6⟩ := h
  obtain ⟨h7, h8, h9, h10⟩ := h'
  exact ⟨h1, h2, h3, h4, h5, h6, h7.trans, fun _ => h8, hp, fun _ => ⟨h9, h10⟩,
    fun hm' => absurd hm' hm⟩

end Keeps

namespace InflateState
variable {s d : InflateState}

theorem live_mode (h : s.live = d.live) : s.mode.live = d.mode.live := congrArg InflateState.mode h

theorem mode_of_live {m : Mode} (h : s.live = d.live) (hm : s.mode = m)
    (hne : m ≠ .type ∧ m ≠ .typedo) : d.mode = m := by
  have h' := live_mode h
  rw [hm] at h'
  revert h' hne
  cases m <;> cases d.mode <;> simp [Mode.live]

theorem type_of_live (h : s.live = d.live) (hm : s.mode = .type ∨ s.mode = .typedo) :
    d.mode = .type ∨ d.mode = .typedo := by
  have h' := live_mode h
  revert h'
  rcases hm with hm | hm <;> rw [hm] <;> cases d.mode <;> simp [Mode.live]

/-- The fields that `live` forgets, taken from another state. -/
abbrev patch (s x : InflateState) : InflateState :=
  { s with
    check := bif s.mode.inHeader then s.check else x.check
    total := x.total, back := x.back, was := x.was, adler := x.adler
    wsize := x.wsize, whave := x.whave, wnext := x.wnext, window := x.window
    length := bif s.mode.usesLength then s.length else x.length
    offset := bif s.mode.usesOffset then s.offset else x.offset
    extra := bif s.mode.usesExtra then s.extra else x.extra }

/-- States that go on alike differ in what `live` forgets. -/
theorem eq_patch (h : s.live = d.live) (hm : d.mode = s.mode) : d = s.patch d := by
  have hcond : ∀ (c : Bool) (x y : Nat), (bif c then x else 0) = (bif c then y else 0) →
      (bif c then x else y) = y := by
    intro c x y h
    cases c
    · rfl
    · exact h
  cases s
  cases d
  simp only at hm
  subst hm
  simp only [live, mk.injEq, true_and, and_true] at h
  obtain ⟨rfl, rfl, rfl, rfl, hcheck, rfl, rfl, rfl, rfl, rfl, rfl, hlength, hoffset, hextra, rfl, rfl,
    rfl, rfl, rfl, rfl⟩ := h
  simp only [patch, mk.injEq, true_and, and_true]
  exact ⟨(hcond _ _ _ hcheck).symm, (hcond _ _ _ hlength).symm, (hcond _ _ _ hoffset).symm,
    (hcond _ _ _ hextra).symm⟩

theorem headerCheck_eq (bytes : List UInt8) : s.headerCheck bytes = { s with
    check := if s.flags &&& 0x0200 ≠ 0 ∧ s.wrap &&& 4 ≠ 0 then crc32 s.check bytes else s.check } := by
  unfold headerCheck
  split <;> rfl

/-- What a case leaves in states that go on alike. -/
def Alike (s s' d' : InflateState) : Prop := s'.live = d'.live ∧ Keeps s s'

theorem caseHead_agree (hm : s.mode = .head) (h : s.live = d.live) :
    Agree (Alike s) s.caseHead d.caseHead := by
  rw [eq_patch h ((mode_of_live h hm (by decide)).trans hm.symm)]
  clear h
  cases s
  subst hm
  simp only [Mode.inHeader, cond_true, caseHead, needBits, hold, bits, initBits, dropBits, pure_eq,
    ret_bind, need_bind, whole_bind, peek_bind, skip_bind, empty_bind, agree_ret, agree_need,
    agree_peek, agree_whole, agree_skip, agree_empty, agree_ite, true_and]
  refine ⟨fun h0 => ⟨rfl, .of_header rfl rfl rfl id (fun _ => rfl) ?_⟩, fun hne w => ?_⟩
  · intro _ hwrap
    exact absurd (congrArg (· &&& 4) h0) hwrap
  have hwbits : ∀ {n : Nat}, n ≠ 0 ∨ Mode.head ≠ .head ∨ _ = 0 → ¬ n = 0 := fun h =>
    h.resolve_right fun h => h.elim (fun h => h rfl) hne
  refine ⟨fun _ => ⟨rfl, ?_⟩, fun _ b => ⟨fun _ => ⟨rfl, ?_⟩, fun _ m => ⟨fun _ => ⟨rfl, ?_⟩, fun _ l => ⟨fun _ => ⟨rfl, ?_⟩,
    fun _ w' => ?_⟩⟩⟩⟩
  · exact .in_header rfl rfl rfl id (fun h => if_neg (hwbits h)) rfl
  · exact .in_header rfl rfl rfl (congrArg (Option.map _)) (fun _ => rfl) rfl
  · exact .in_header rfl rfl rfl (congrArg (Option.map _)) (fun _ => rfl) rfl
  · exact .in_header rfl rfl rfl (congrArg (Option.map _)) (fun h => if_neg (hwbits h)) rfl
  · by_cases hw : w' &&& 0x200 ≠ 0
    · simp only [hw, ite_true, ne_eq, not_false_eq_true]
      exact ⟨rfl, .in_header rfl rfl rfl (congrArg (Option.map _)) (fun h => if_neg (hwbits h)) rfl⟩
    · simp only [hw, ite_false]
      exact ⟨rfl, .of_header rfl rfl rfl (congrArg (Option.map _)) (fun h => if_neg (hwbits h))
        fun _ _ => (adler32_nil _).symm⟩

theorem caseFlags_agree (hm : s.mode = .flags) (h : s.live = d.live) :
    Agree (Alike s) s.caseFlags d.caseFlags := by
  rw [eq_patch h ((mode_of_live h hm (by decide)).trans hm.symm)]
  clear h
  cases s
  subst hm
  simp only [Mode.inHeader, cond_true, caseFlags, needBits, hold, initBits, pure_eq, ret_bind,
    need_bind, whole_bind, empty_bind, headerCheck_eq, agree_ret, agree_need, agree_whole, agree_empty,
    agree_ite, true_and]
  refine fun w => ⟨fun _ => ⟨rfl, ?_⟩, fun _ => ⟨fun _ => ⟨rfl, ?_⟩, fun _ => ⟨rfl, ?_⟩⟩⟩
  · exact .in_header rfl rfl rfl id (fun _ => rfl) rfl
  · exact .in_header rfl rfl rfl id (fun _ => rfl) rfl
  · exact .in_header rfl rfl rfl (congrArg (Option.map _)) (fun _ => rfl) rfl

theorem caseTime_agree (hm : s.mode = .time) (h : s.live = d.live) :
    Agree (Alike s) s.caseTime d.caseTime := by
  rw [eq_patch h ((mode_of_live h hm (by decide)).trans hm.symm)]
  clear h
  cases s
  subst hm
  simp only [Mode.inHeader, cond_true, caseTime, needBits, hold, initBits, pure_eq, ret_bind,
    need_bind, whole_bind, empty_bind, headerCheck_eq, agree_ret, agree_need, agree_whole, agree_empty,
    true_and]
  exact fun w => ⟨rfl, .in_header rfl rfl rfl (congrArg (Option.map _)) (fun _ => rfl) rfl⟩

theorem caseOs_agree (hm : s.mode = .os) (h : s.live = d.live) :
    Agree (Alike s) s.caseOs d.caseOs := by
  rw [eq_patch h ((mode_of_live h hm (by decide)).trans hm.symm)]
  clear h
  cases s
  subst hm
  simp only [Mode.inHeader, cond_true, caseOs, needBits, hold, initBits, pure_eq, ret_bind, need_bind,
    whole_bind, empty_bind, headerCheck_eq, agree_ret, agree_need, agree_whole, agree_empty, true_and]
  exact fun w => ⟨rfl, .in_header rfl rfl rfl (congrArg (Option.map _)) (fun _ => rfl) rfl⟩

theorem caseExlen_agree (hm : s.mode = .exlen) (h : s.live = d.live) :
    Agree (Alike s) s.caseExlen d.caseExlen := by
  rw [eq_patch h ((mode_of_live h hm (by decide)).trans hm.symm)]
  clear h
  cases s
  subst hm
  simp only [Mode.inHeader, cond_true, caseExlen, needBits, hold, initBits, pure_eq, ret_bind,
    need_bind, whole_bind, empty_bind, headerCheck_eq, agree_ret, agree_need, agree_whole, agree_empty,
    agree_ite, true_and]
  refine ⟨fun _ w => ⟨rfl, ?_⟩, fun _ => ⟨rfl, ?_⟩⟩
  · exact .in_header rfl rfl rfl (congrArg (Option.map _)) (fun _ => rfl) rfl
  · exact .in_header rfl rfl rfl (congrArg (Option.map _)) (fun _ => rfl) rfl

theorem headerDone_alike (hm : s.mode = .hcrc) (h : s.live = d.live) (hf : s.flags ≠ 0) :
    s.Alike s.headerDone d.headerDone := by
  rw [eq_patch h ((mode_of_live h hm (by decide)).trans hm.symm)]
  clear h
  cases s
  subst hm
  simp only at hf
  simp only [headerDone, hf, and_true, ne_eq, not_false_eq_true]
  split
  · refine ⟨rfl, .of_header rfl rfl rfl (congrArg (Option.map _)) (fun _ => rfl) fun _ _ => ?_⟩
    simp [hashOf, hf]
  · next hwrap =>
    exact ⟨rfl, .of_header rfl rfl rfl (congrArg (Option.map _)) (fun _ => rfl)
      fun _ hwrap' => absurd hwrap' hwrap⟩

theorem caseHcrc_agree (hm : s.mode = .hcrc) (h : s.live = d.live) (hf : s.flags ≠ 0) :
    Agree (Alike s) s.caseHcrc d.caseHcrc := by
  have hdone := headerDone_alike hm h hf
  rw [eq_patch h ((mode_of_live h hm (by decide)).trans hm.symm)] at hdone ⊢
  clear h
  cases s
  subst hm
  simp only [Mode.inHeader, cond_true, caseHcrc, needBits, hold, initBits, pure_eq, ret_bind,
    need_bind, whole_bind, empty_bind, agree_ret, agree_need, agree_whole, agree_ite,
    true_and]
  refine ⟨fun _ w => (agree_ite _ _ _ _ _ _).mpr ⟨fun _ => ⟨rfl, ?_⟩, fun _ => hdone⟩, fun _ => hdone⟩
  exact .in_header rfl rfl rfl id (fun _ => rfl) rfl

theorem caseDictid_agree (hm : s.mode = .dictid) (h : s.live = d.live) :
    Agree (Alike s) s.caseDictid d.caseDictid := by
  rw [eq_patch h ((mode_of_live h hm (by decide)).trans hm.symm)]
  clear h
  cases s
  subst hm
  simp only [caseDictid, needBits, hold, initBits, pure_eq, ret_bind, need_bind, whole_bind,
    empty_bind, agree_ret, agree_need, agree_whole, agree_empty, true_and]
  exact fun w => ⟨rfl, .in_header rfl rfl rfl id (fun _ => rfl) rfl⟩

/-- A case of the blocks leaves the same in states that go on alike. -/
theorem Alike.block {s' d' : InflateState} (hlive : s'.live = d'.live) (hm : s.mode.phase ≠ 0)
    (hp : s.mode.follows s'.mode = true)
    (h : (s'.wsize, s'.whave, s'.wnext, s'.window, s'.total, s'.wrap) =
      (s.wsize, s.whave, s.wnext, s.window, s.total, s.wrap))
    (h' : (s'.head, s'.wbits, s'.check, s'.flags) = (s.head, s.wbits, s.check, s.flags)) :
    s.Alike s' d' := ⟨hlive, .of_block hm hp h h'⟩

theorem caseTypedo_agree (hm : s.mode = .type ∨ s.mode = .typedo) (h : s.live = d.live) :
    Agree (Alike s) s.caseTypedo d.caseTypedo := by
  have hlive : { s with mode := .typedo }.live = { d with mode := .typedo }.live := by
    have hsame : ∀ x : InflateState, x.mode = .type ∨ x.mode = .typedo →
        { x with mode := .typedo }.live = x.live := by
      rintro x (hx | hx) <;> simp [live, hx, Mode.live, Mode.inHeader, Mode.usesLength,
        Mode.usesOffset, Mode.usesExtra]
    rw [hsame s hm, hsame d (type_of_live h hm), h]
  change Agree _ _ (InflateState.caseTypedo { d with mode := .typedo })
  rw [eq_patch hlive rfl]
  clear hlive h
  cases s
  simp only at hm
  simp only [caseTypedo, needBits, bits, byteBits, dropBits, pure_eq, ret_bind, need_bind, peek_bind,
    skip_bind, align_bind, agree_ret, agree_need, agree_peek, agree_skip, agree_align, agree_ite,
    true_and]
  rcases hm with hm | hm
  all_goals
    subst hm
    refine ⟨fun _ => ?_, fun _ l t => ⟨fun _ => ?_, fun _ => ⟨fun _ => ?_, fun _ => ⟨fun _ => ?_,
      fun _ => ?_⟩⟩⟩⟩
    · exact .block rfl (Nat.succ_ne_zero _) rfl rfl rfl
    · exact .block rfl (Nat.succ_ne_zero _) rfl rfl rfl
    · exact .block rfl (Nat.succ_ne_zero _) rfl rfl rfl
    · exact .block rfl (Nat.succ_ne_zero _) rfl rfl rfl
    · exact .block rfl (Nat.succ_ne_zero _) rfl rfl rfl

theorem caseStored_agree (hm : s.mode = .stored) (h : s.live = d.live) :
    Agree (Alike s) s.caseStored d.caseStored := by
  rw [eq_patch h ((mode_of_live h hm (by decide)).trans hm.symm)]
  clear h
  cases s
  subst hm
  simp only [caseStored, needBits, hold, initBits, pure_eq, ret_bind, need_bind, whole_bind,
    empty_bind, agree_ret, agree_need, agree_whole, agree_empty, agree_ite, true_and]
  refine fun w => ⟨fun _ => ?_, fun _ => ?_⟩
  · exact .block rfl (Nat.succ_ne_zero _) rfl rfl rfl
  · exact .block rfl (Nat.succ_ne_zero _) rfl rfl rfl

theorem caseTable_agree (hm : s.mode = .table) (h : s.live = d.live) :
    Agree (Alike s) s.caseTable d.caseTable := by
  rw [eq_patch h ((mode_of_live h hm (by decide)).trans hm.symm)]
  clear h
  cases s
  subst hm
  simp only [caseTable, needBits, bits, dropBits, pure_eq, ret_bind, need_bind, peek_bind, skip_bind,
    agree_ret, agree_need, agree_peek, agree_skip, agree_ite, true_and]
  refine fun n k c => ⟨fun _ => ?_, fun _ => ?_⟩
  · exact .block rfl (Nat.succ_ne_zero _) rfl rfl rfl
  · exact .block rfl (Nat.succ_ne_zero _) rfl rfl rfl

theorem caseLenlens_agree (hm : s.mode = .lenlens) (h : s.live = d.live) :
    Agree (Alike s) s.caseLenlens d.caseLenlens := by
  rw [eq_patch h ((mode_of_live h hm (by decide)).trans hm.symm)]
  clear h
  cases s
  subst hm
  simp only [caseLenlens, needBits, bits, dropBits, pure_eq, ret_bind, need_bind, peek_bind,
    skip_bind, agree_ret, agree_need, agree_peek, agree_skip, agree_ite, true_and]
  refine ⟨fun _ len => ?_, fun _ => ?_⟩
  · exact .block rfl (Nat.succ_ne_zero _) rfl rfl rfl
  · split
    · exact .block rfl (Nat.succ_ne_zero _) rfl rfl rfl
    · exact .block rfl (Nat.succ_ne_zero _) rfl rfl rfl

theorem repeatLens_alike (hm : s.mode = .codelens) (h : s.live = d.live) (len copy : Nat) :
    s.Alike (s.repeatLens len copy) (d.repeatLens len copy) := by
  rw [eq_patch h ((mode_of_live h hm (by decide)).trans hm.symm)]
  clear h
  cases s
  subst hm
  simp only [repeatLens]
  split
  · exact .block rfl (Nat.succ_ne_zero _) rfl rfl rfl
  · exact .block rfl (Nat.succ_ne_zero _) rfl rfl rfl

theorem buildTables_alike (hm : s.mode = .codelens) (h : s.live = d.live) :
    s.Alike s.buildTables d.buildTables := by
  rw [eq_patch h ((mode_of_live h hm (by decide)).trans hm.symm)]
  clear h
  cases s
  subst hm
  simp only [buildTables]
  split
  · exact .block rfl (Nat.succ_ne_zero _) rfl rfl rfl
  · split
    · exact .block rfl (Nat.succ_ne_zero _) rfl rfl rfl
    · split
      · exact .block rfl (Nat.succ_ne_zero _) rfl rfl rfl
      · exact .block rfl (Nat.succ_ne_zero _) rfl rfl rfl

theorem caseCodelens_agree (hm : s.mode = .codelens) (h : s.live = d.live) :
    Agree (Alike s) s.caseCodelens d.caseCodelens := by
  have hrepeat := repeatLens_alike hm h
  have hbuild := buildTables_alike hm h
  rw [eq_patch h ((mode_of_live h hm (by decide)).trans hm.symm)] at hrepeat hbuild ⊢
  clear h
  cases s
  subst hm
  simp only [caseCodelens, lookup, needBits, bits, dropBits, pure_eq, ret_bind, need_bind, peek_bind,
    skip_bind, find_bind, agree_ret, agree_need, agree_peek, agree_skip, agree_find, agree_ite,
    true_and]
  refine ⟨fun _ here => ⟨fun _ => ?_, fun _ => ⟨fun _ => ⟨fun _ => ?_, fun _ v => hrepeat _ _⟩,
    fun _ => ⟨fun _ v => hrepeat _ _, fun _ v => hrepeat _ _⟩⟩⟩, fun _ => hbuild⟩
  · exact .block rfl (Nat.succ_ne_zero _) rfl rfl rfl
  · exact .block rfl (Nat.succ_ne_zero _) rfl rfl rfl

theorem afterLen_alike (hm : s.mode = .len) (h : s.live = d.live) (here : Code) (back : Nat) :
    s.Alike (s.afterLen here back) (d.afterLen here back) := by
  rw [eq_patch h ((mode_of_live h hm (by decide)).trans hm.symm)]
  clear h
  cases s
  subst hm
  simp only [afterLen]
  split
  · exact .block rfl (Nat.succ_ne_zero _) rfl rfl rfl
  · split
    · exact .block rfl (Nat.succ_ne_zero _) rfl rfl rfl
    · split
      · exact .block rfl (Nat.succ_ne_zero _) rfl rfl rfl
      · exact .block rfl (Nat.succ_ne_zero _) rfl rfl rfl

theorem caseLen_agree (hm : s.mode = .len) (h : s.live = d.live) :
    Agree (Alike s) s.caseLen d.caseLen := by
  have hafter := afterLen_alike hm h
  rw [eq_patch h ((mode_of_live h hm (by decide)).trans hm.symm)] at hafter ⊢
  clear h
  cases s
  subst hm
  simp only [caseLen, lookupSub, lookup, dropBits, pure_eq, ret_bind, skip_bind, find_bind, agree_ret,
    agree_skip, agree_find, agree_ite, true_and]
  exact fun last => ⟨fun _ here => hafter _ _, fun _ => hafter _ _⟩

theorem caseLenext_agree (hm : s.mode = .lenext) (h : s.live = d.live) :
    Agree (Alike s) s.caseLenext d.caseLenext := by
  rw [eq_patch h ((mode_of_live h hm (by decide)).trans hm.symm)]
  clear h
  cases s
  subst hm
  simp only [Mode.usesLength, Mode.usesExtra, cond_true, caseLenext, needBits, bits, dropBits, pure_eq,
    ret_bind, need_bind, peek_bind, skip_bind]
  refine (agree_ite _ _ _ _ _ _).mpr ⟨fun _ => ⟨rfl, rfl, fun v => ⟨rfl, ?_⟩⟩, fun _ => ?_⟩
  · exact .block rfl (Nat.succ_ne_zero _) rfl rfl rfl
  · exact .block rfl (Nat.succ_ne_zero _) rfl rfl rfl

theorem afterDist_alike (hm : s.mode = .dist) (h : s.live = d.live) (here : Code) (back : Nat) :
    s.Alike (s.afterDist here back) (d.afterDist here back) := by
  rw [eq_patch h ((mode_of_live h hm (by decide)).trans hm.symm)]
  clear h
  cases s
  subst hm
  simp only [afterDist]
  split
  · exact .block rfl (Nat.succ_ne_zero _) rfl rfl rfl
  · exact .block rfl (Nat.succ_ne_zero _) rfl rfl rfl

theorem caseDist_agree (hm : s.mode = .dist) (h : s.live = d.live) :
    Agree (Alike s) s.caseDist d.caseDist := by
  have hafter := afterDist_alike hm h
  rw [eq_patch h ((mode_of_live h hm (by decide)).trans hm.symm)] at hafter ⊢
  clear h
  cases s
  subst hm
  simp only [caseDist, lookupSub, lookup, dropBits, pure_eq, ret_bind, skip_bind, find_bind,
    agree_ret, agree_skip, agree_find, agree_ite, true_and]
  exact fun last => ⟨fun _ here => hafter _ _, fun _ => hafter _ _⟩

theorem caseDistext_agree (hm : s.mode = .distext) (h : s.live = d.live) :
    Agree (Alike s) s.caseDistext d.caseDistext := by
  rw [eq_patch h ((mode_of_live h hm (by decide)).trans hm.symm)]
  clear h
  cases s
  subst hm
  simp only [Mode.usesOffset, Mode.usesExtra, cond_true, caseDistext, needBits, bits, dropBits, pure_eq,
    ret_bind, need_bind, peek_bind, skip_bind]
  refine (agree_ite _ _ _ _ _ _).mpr ⟨fun _ => ⟨rfl, rfl, fun v => ⟨rfl, ?_⟩⟩, fun _ => ?_⟩
  · exact .block rfl (Nat.succ_ne_zero _) rfl rfl rfl
  · exact .block rfl (Nat.succ_ne_zero _) rfl rfl rfl

/-- The trailer is compared with the accounts, which must agree where the trailer is checked. -/
theorem caseCheck_agree (hm : s.mode = .check) (h : s.live = d.live)
    (hcheck : s.wrap &&& 4 ≠ 0 → s.check = d.check) : Agree (Alike s) s.caseCheck d.caseCheck := by
  have hcond : ∀ v, (s.wrap &&& 4 ≠ 0 ∧ v ≠ s.check) = (s.wrap &&& 4 ≠ 0 ∧ v ≠ d.check) := by
    intro v
    by_cases hw : s.wrap &&& 4 ≠ 0
    · rw [hcheck hw]
    · simp only [hw, false_and]
  have hphase : s.mode.phase ≠ 0 := by rw [hm]; exact Nat.succ_ne_zero _
  have hfollows : ∀ m : Mode, s.mode.follows m = Mode.follows _ m := fun m => by rw [hm]
  obtain ⟨x, rfl⟩ : ∃ x, d = s.patch x :=
    ⟨d, eq_patch h ((mode_of_live h hm (by decide)).trans hm.symm)⟩
  simp only [caseCheck, needBits, hold, initBits, pure_eq, ret_bind, need_bind, whole_bind,
    empty_bind, agree_ret, agree_need, agree_whole, agree_empty, agree_ite, true_and, hcond]
  refine ⟨fun _ w => ⟨fun _ => ?_, fun _ => ?_⟩, fun _ => ?_⟩
  · exact .block rfl hphase (hfollows _) rfl rfl
  · exact .block rfl hphase (hfollows _) rfl rfl
  · exact .block rfl hphase (hfollows _) rfl rfl

theorem caseLength_agree (hm : s.mode = .length) (h : s.live = d.live)
    (htotal : s.wrap &&& 4 ≠ 0 → s.total = d.total) : Agree (Alike s) s.caseLength d.caseLength := by
  have hcond : ∀ v, (s.wrap &&& 4 ≠ 0 ∧ v ≠ s.total % 2 ^ 32) =
      (s.wrap &&& 4 ≠ 0 ∧ v ≠ d.total % 2 ^ 32) := by
    intro v
    by_cases hw : s.wrap &&& 4 ≠ 0
    · rw [htotal hw]
    · simp only [hw, false_and]
  have hphase : s.mode.phase ≠ 0 := by rw [hm]; exact Nat.succ_ne_zero _
  have hfollows : ∀ m : Mode, s.mode.follows m = Mode.follows _ m := fun m => by rw [hm]
  obtain ⟨x, rfl⟩ : ∃ x, d = s.patch x :=
    ⟨d, eq_patch h ((mode_of_live h hm (by decide)).trans hm.symm)⟩
  simp only [caseLength, needBits, hold, initBits, pure_eq, ret_bind, need_bind, whole_bind,
    empty_bind, agree_ret, agree_need, agree_whole, agree_empty, agree_ite, true_and, hcond]
  refine ⟨fun _ w => ⟨fun _ => ?_, fun _ => ?_⟩, fun _ => ?_⟩
  · exact .block rfl hphase (hfollows _) rfl rfl
  · exact .block rfl hphase (hfollows _) rfl rfl
  · exact .block rfl hphase (hfollows _) rfl rfl

/-- The cases that are programs go on alike. -/
theorem bitCase_agree (h : s.live = d.live) (hok : s.Ok)
    (htotal : s.mode = .length → s.wrap &&& 4 ≠ 0 → s.total = d.total) {p : CaseProg}
    (hp : s.bitCase = some p) : ∃ q, d.bitCase = some q ∧ Agree (Alike s) p q := by
  unfold Ok at hok
  unfold bitCase at hp
  have hd : ∀ m, s.mode = m → m ≠ .type ∧ m ≠ .typedo → d.mode = m := fun m hm => mode_of_live h hm
  split at hp <;> simp only [Option.some.injEq, reduceCtorEq] at hp <;> subst hp
  case h_1 hm => exact ⟨_, by rw [bitCase, hd _ hm (by decide)], caseHead_agree hm h⟩
  case h_2 hm => exact ⟨_, by rw [bitCase, hd _ hm (by decide)], caseFlags_agree hm h⟩
  case h_3 hm => exact ⟨_, by rw [bitCase, hd _ hm (by decide)], caseTime_agree hm h⟩
  case h_4 hm => exact ⟨_, by rw [bitCase, hd _ hm (by decide)], caseOs_agree hm h⟩
  case h_5 hm => exact ⟨_, by rw [bitCase, hd _ hm (by decide)], caseExlen_agree hm h⟩
  case h_6 hm =>
    rw [hm] at hok
    exact ⟨_, by rw [bitCase, hd _ hm (by decide)], caseHcrc_agree hm h hok⟩
  case h_7 hm => exact ⟨_, by rw [bitCase, hd _ hm (by decide)], caseDictid_agree hm h⟩
  case h_8 hm =>
    refine ⟨_, ?_, caseTypedo_agree (.inl hm) h⟩
    rcases type_of_live h (.inl hm) with hd' | hd' <;> rw [bitCase, hd']
  case h_9 hm =>
    refine ⟨_, ?_, caseTypedo_agree (.inr hm) h⟩
    rcases type_of_live h (.inr hm) with hd' | hd' <;> rw [bitCase, hd']
  case h_10 hm => exact ⟨_, by rw [bitCase, hd _ hm (by decide)], caseTable_agree hm h⟩
  case h_11 hm => exact ⟨_, by rw [bitCase, hd _ hm (by decide)], caseLenlens_agree hm h⟩
  case h_12 hm => exact ⟨_, by rw [bitCase, hd _ hm (by decide)], caseCodelens_agree hm h⟩
  case h_13 hm => exact ⟨_, by rw [bitCase, hd _ hm (by decide)], caseLen_agree hm h⟩
  case h_14 hm => exact ⟨_, by rw [bitCase, hd _ hm (by decide)], caseLenext_agree hm h⟩
  case h_15 hm => exact ⟨_, by rw [bitCase, hd _ hm (by decide)], caseDist_agree hm h⟩
  case h_16 hm => exact ⟨_, by rw [bitCase, hd _ hm (by decide)], caseDistext_agree hm h⟩
  case h_17 hm =>
    exact ⟨_, by rw [bitCase, hd _ hm (by decide)], caseLength_agree hm h (htotal hm)⟩

end InflateState
end ZlibNg
