import ZlibNg.Deflate.StoredCalls

/-! The check value and the count of the input, over the runs of `deflate` at level 0. -/
namespace ZlibNg

/-- The check value of a format at its start. -/
def initialCheck (wrap : Nat) : Nat := if wrap = 2 then crc32InitialValue else adler32InitialValue

/-- The check value after more input. -/
def checked (wrap : Int) (check : Nat) (bytes : List UInt8) : Nat :=
  if wrap = 2 then crc32 check bytes else if wrap = 1 then adler32 check bytes else check

@[simp] theorem checked_nil (wrap : Int) (check : Nat) : checked wrap check [] = check := by
  unfold checked
  split_ifs <;> simp

theorem checked_append (wrap : Int) (check : Nat) (xs ys : List UInt8) :
    checked wrap check (xs ++ ys) = checked wrap (checked wrap check xs) ys := by
  unfold checked
  split_ifs
  · exact crc32_append check xs ys
  · exact adler32_append check xs ys
  · rfl

namespace HeaderState
variable {h h' : HeaderState} {check : Nat} {x : HeaderStep} {f : HeaderState → HeaderStep}

@[simp] theorem flushPending_adler (h : HeaderState) : h.flushPending.adler = h.adler := by
  unfold flushPending
  dsimp only
  split_ifs <;> rfl

/-- No header is set, and what is written of one does not change the check value. -/
structure Plain (check : Nat) (h : HeaderState) : Prop where
  gzhead : h.gzhead = none
  adler : h.adler = check
  status : h.status = .busy ∨ (h.status = .init ∧ check = adler32InitialValue) ∨
    (h.status = .gzip ∧ check = crc32InitialValue)

/-- The same of where a part of the header leads to. -/
def HeaderStep.Plain (check : Nat) (x : HeaderStep) : Prop :=
  (∀ h, x = .ok h → h.Plain check) ∧ ∀ r, x = .error r → r.2.adler = check

theorem Plain.flushAll (h : HeaderState) (hg : h.gzhead = none) (ha : h.adler = check)
    (hs : h.status = .busy) : HeaderStep.Plain check h.flushAll := by
  have hsame : h.flushPending.gzhead = h.gzhead ∧ h.flushPending.status = h.status := by
    unfold flushPending
    dsimp only
    split_ifs <;> exact ⟨rfl, rfl⟩
  unfold HeaderState.flushAll
  dsimp only
  split
  · refine ⟨fun _ h' => (by cases h'), fun h' heq => ?_⟩
    rw [← Except.error.inj heq]
    exact (flushPending_adler h).trans ha
  · refine ⟨fun h' heq => ?_, fun _ h' => (by cases h')⟩
    rw [← Except.ok.inj heq]
    exact ⟨hsame.1.trans hg, (flushPending_adler h).trans ha, .inl (hsame.2.trans hs)⟩

theorem HeaderStep.Plain.bind (hx : HeaderStep.Plain check x)
    (hf : ∀ h, h.Plain check → HeaderStep.Plain check (f h)) :
    HeaderStep.Plain check (x >>= f) := by
  cases x with
  | error h => exact ⟨fun _ h' => (by cases h'), fun h' heq => hx.2 h' (by cases heq; rfl)⟩
  | ok h => exact hf h (hx.1 h rfl)

theorem HeaderStep.Plain.ok (hh : h.Plain check) : HeaderStep.Plain check (.ok h) :=
  ⟨fun h' heq => (by cases heq; exact hh), fun _ heq => (by cases heq)⟩

theorem Plain.zlibHeader (hh : h.Plain check) : HeaderStep.Plain check h.zlibHeader := by
  by_cases hs : h.status = .init
  · have hc : check = adler32InitialValue := by
      rcases hh.status with hb | ⟨-, hc⟩ | ⟨hg, -⟩
      · rw [hs] at hb
        cases hb
      · exact hc
      · rw [hs] at hg
        cases hg
    unfold HeaderState.zlibHeader
    rw [if_pos hs]
    dsimp only
    apply Plain.flushAll
    · dsimp only
      split <;> exact hh.gzhead
    · exact hc.symm
    · rfl
  · rw [zlibHeader_skip hs]
    exact .ok hh

theorem Plain.gzipHeader (hh : h.Plain check) : HeaderStep.Plain check h.gzipHeader := by
  by_cases hs : h.status = .gzip
  · have hc : check = crc32InitialValue := by
      rcases hh.status with hb | ⟨hi, -⟩ | ⟨-, hc⟩
      · rw [hs] at hb
        cases hb
      · rw [hs] at hi
        cases hi
      · exact hc
    have hnone : (HeaderState.put [31, 139, 8] { h with adler := crc32InitialValue }).gzhead = none :=
      hh.gzhead
    unfold HeaderState.gzipHeader
    rw [if_pos hs]
    dsimp only
    rw [hnone]
    dsimp only
    exact Plain.flushAll _ hh.gzhead hc.symm rfl
  · rw [gzipHeader_skip hs]
    exact .ok hh

/-- A header that is not set leaves the check value as it is. -/
theorem Plain.writeHeader (hh : h.Plain check) : h.writeHeader.2.adler = check := by
  have hraw : (if h.status = .init ∧ h.wrap = 0 then { h with status := .busy } else h).Plain check := by
    split
    · exact ⟨hh.gzhead, hh.adler, .inl rfl⟩
    · exact hh
  unfold HeaderState.writeHeader
  dsimp only
  generalize (if h.status = .init ∧ h.wrap = 0 then { h with status := .busy } else h) = k at hraw
  have hskip : ∀ h : HeaderState, h.Plain check → h.status ≠ .extra ∧ h.status ≠ .name ∧
      h.status ≠ .comment ∧ h.status ≠ .hcrc := by
    intro h hh
    rcases hh.status with hs | ⟨hs, -⟩ | ⟨hs, -⟩ <;> rw [hs] <;> decide
  have hall : HeaderStep.Plain check k.deflateHeaders := by
    unfold deflateHeaders
    refine hraw.zlibHeader.bind fun h hh => hh.gzipHeader.bind fun h hh => ?_
    obtain ⟨h1, h2, h3, h4⟩ := hskip h hh
    rw [extraState_skip h1]
    change HeaderStep.Plain check (h.nameState >>= fun s => s.commentState >>= fun s => s.hcrcState)
    rw [nameState_skip h2]
    change HeaderStep.Plain check (h.commentState >>= fun s => s.hcrcState)
    rw [commentState_skip h3]
    change HeaderStep.Plain check h.hcrcState
    rw [hcrcState_skip h4]
    exact .ok hh
  split
  · cases hk : k.deflateHeaders with
    | ok h => exact (hall.1 h hk).adler
    | error h => exact hall.2 h hk
  · exact hraw.adler

end HeaderState

namespace StoredStream
variable {s s' s'' : StoredStream} {used used' input rest taken : List UInt8} {flush : Flush}

/-- Input is taken, and counted. -/
structure Counts (s : StoredStream) (used : List UInt8) (s' : StoredStream) : Prop where
  wrap : s'.win.wrap = s.win.wrap
  adler : s'.head.adler = checked s.win.wrap s.head.adler used
  totalIn : s'.totalIn = s.totalIn + used.length

/-- A step that takes no input. -/
theorem Counts.quiet (hwrap : s'.win.wrap = s.win.wrap) (hadler : s'.head.adler = s.head.adler)
    (htotal : s'.totalIn = s.totalIn) : Counts s [] s' :=
  ⟨hwrap, hadler.trans (checked_nil _ _).symm, htotal⟩

theorem Counts.trans (h : Counts s used s') (h' : Counts s' used' s'') : Counts s (used ++ used') s'' := by
  refine ⟨h'.wrap.trans h.wrap, ?_, ?_⟩
  · rw [h'.adler, h.wrap, h.adler, checked_append]
  · rw [h'.totalIn, h.totalIn, List.length_append, Nat.add_assoc]

/-- Nothing is taken after what is taken. -/
theorem Counts.then_quiet (h : Counts s used s') (hwrap : s''.win.wrap = s'.win.wrap)
    (hadler : s''.head.adler = s'.head.adler) (htotal : s''.totalIn = s'.totalIn) : Counts s used s'' :=
  ⟨hwrap.trans h.wrap, hadler.trans h.adler, htotal.trans h.totalIn⟩

theorem flushPending_counts (s : StoredStream) : Counts s [] s.flushPending :=
  .quiet rfl (HeaderState.flushPending_adler _) rfl

theorem emit_counts {f : BitWriter → Option BitWriter} (h : s.emit f = some s') : Counts s [] s' := by
  obtain ⟨w, -, rfl⟩ := Option.map_eq_some_iff.mp h
  exact .quiet rfl rfl rfl

theorem readBuf_counts (bytes : List UInt8) (s : StoredStream) : Counts s bytes (s.readBuf bytes) :=
  ⟨rfl, rfl, rfl⟩

/-- What a function takes is the front of its input. -/
def Takes (s : StoredStream) (input : List UInt8) (s' : StoredStream) (rest : List UInt8) : Prop :=
  ∃ used, input = used ++ rest ∧ Counts s used s'

theorem Takes.refl (s : StoredStream) (input : List UInt8) : Takes s input s input :=
  ⟨[], rfl, .quiet rfl rfl rfl⟩

theorem Takes.trans {rest' : List UInt8} (h : Takes s input s' rest) (h' : Takes s' rest s'' rest') :
    Takes s input s'' rest' := by
  obtain ⟨used, rfl, hc⟩ := h
  obtain ⟨used', rfl, hc'⟩ := h'
  exact ⟨used ++ used', (List.append_assoc ..).symm, hc.trans hc'⟩

theorem Takes.quiet (h : Takes s input s' rest) (h' : Counts s' [] s'') : Takes s input s'' rest :=
  h.trans ⟨[], rfl, h'⟩

theorem copyBlock_takes {len : Nat} {last : Bool} (h : s.copyBlock len last input = some (s', rest)) :
    Takes s input s' rest := by
  obtain ⟨s₁, he, h⟩ := Option.bind_eq_some_iff.mp h
  obtain ⟨rfl, rfl⟩ := Prod.mk.inj (Option.some.inj h)
  have h₁ : Counts s₁ [] (s₁.setLen len) := .quiet rfl rfl rfl
  have hflush := (emit_counts he).trans (h₁.trans (flushPending_counts (s₁.setLen len)))
  generalize (s₁.setLen len).flushPending = s₂ at hflush
  refine ⟨input.take (len - min s₂.left len), (List.take_append_drop _ _).symm, ?_⟩
  have hbefore : Counts s [] ((s₂.write (readBytes s₂.win.window s₂.win.blockStart.toNat
      (min s₂.left len))).passed (min s₂.left len)) := hflush.then_quiet rfl rfl rfl
  have hread := hbefore.trans (readBuf_counts (input.take (len - min s₂.left len)) _)
  exact hread.then_quiet rfl rfl rfl

theorem copyLoop_takes {minBlock fuel : Nat} {last : Bool}
    (h : s.copyLoop flush minBlock fuel input = some (s', rest, last)) : Takes s input s' rest := by
  induction fuel generalizing s input with
  | zero => cases h
  | succ fuel ih =>
    unfold copyLoop at h
    dsimp only at h
    split at h
    · obtain ⟨rfl, hrest⟩ := Prod.mk.inj (Option.some.inj h)
      rw [← (Prod.mk.inj hrest).1]
      exact .refl s input
    · split at h
      · obtain ⟨rfl, hrest⟩ := Prod.mk.inj (Option.some.inj h)
        rw [← (Prod.mk.inj hrest).1]
        exact .refl s input
      · obtain ⟨⟨s₁, input₁⟩, hcopy, h⟩ := Option.bind_eq_some_iff.mp h
        have hfirst := copyBlock_takes hcopy
        dsimp only at h
        split at h
        · obtain ⟨rfl, hrest⟩ := Prod.mk.inj (Option.some.inj h)
          rw [← (Prod.mk.inj hrest).1]
          exact hfirst
        · exact hfirst.trans (ih h)

theorem storedPending_counts {state : BlockState} (h : s.storedPending flush input = some (state, s')) :
    Counts s [] s' := by
  unfold storedPending at h
  dsimp only at h
  split at h
  · obtain ⟨s₁, he, h⟩ := Option.bind_eq_some_iff.mp h
    have hpassed : ∀ n, Counts s [] (s₁.passed n) := fun n => (emit_counts he).then_quiet rfl rfl rfl
    have hflush : ∀ n, Counts s [] (s₁.passed n).flushPending := fun n =>
      (hpassed n).trans (flushPending_counts _)
    split at h
    · obtain ⟨-, rfl⟩ := Prod.mk.inj (Option.some.inj h)
      exact (hflush _).then_quiet rfl rfl rfl
    · obtain ⟨-, rfl⟩ := Prod.mk.inj (Option.some.inj h)
      exact hflush _
  · obtain ⟨-, rfl⟩ := Prod.mk.inj (Option.some.inj h)
    exact .quiet rfl rfl rfl

theorem deflateStored_takes {state : BlockState}
    (h : s.deflateStored flush input = some (state, s', rest)) : Takes s input s' rest := by
  obtain ⟨⟨s₁, rest₁, last⟩, hloop, h⟩ := Option.bind_eq_some_iff.mp h
  have hcopied := copyLoop_takes hloop
  dsimp only at h
  have hwrap : ∀ copied, (s₁.win.storedUpdate copied).wrap = s₁.win.wrap := by
    intro copied
    unfold DeflateState.storedUpdate
    dsimp only
    split_ifs <;> rfl
  have hupdate : Takes s input (if input.length - rest₁.length ≠ 0 ∧ ¬last = true then
      { s₁ with win := s₁.win.storedUpdate (input.take (input.length - rest₁.length)) } else s₁) rest₁ := by
    split
    · exact hcopied.quiet (.quiet (hwrap _) rfl rfl)
    · exact hcopied
  generalize (if input.length - rest₁.length ≠ 0 ∧ ¬last = true then
    { s₁ with win := s₁.win.storedUpdate (input.take (input.length - rest₁.length)) } else s₁) = s₂
    at h hupdate
  split at h
  · obtain ⟨-, h⟩ := Prod.mk.inj (Option.some.inj h)
    obtain ⟨rfl, rfl⟩ := Prod.mk.inj h
    exact hupdate.quiet (.quiet rfl rfl rfl)
  · split at h
    · obtain ⟨-, h⟩ := Prod.mk.inj (Option.some.inj h)
      obtain ⟨rfl, rfl⟩ := Prod.mk.inj h
      exact hupdate
    · obtain ⟨⟨state', s₃⟩, hpending, h⟩ := Option.bind_eq_some_iff.mp h
      obtain ⟨-, h⟩ := Prod.mk.inj (Option.some.inj h)
      obtain ⟨rfl, rfl⟩ := Prod.mk.inj h
      have hslide : (s₂.win.storedSlide rest₁.length).wrap = s₂.win.wrap := by
        unfold DeflateState.storedSlide
        dsimp only
        split_ifs <;> rfl
      have hslid : Takes s input { s₂ with win := s₂.win.storedSlide rest₁.length } rest₁ :=
        hupdate.quiet (.quiet hslide rfl rfl)
      refine hslid.trans ⟨_, (List.take_append_drop _ _).symm, ?_⟩
      have hread := (readBuf_counts (rest₁.take ((s₂.win.storedSlide rest₁.length).windowSize -
        (s₂.win.storedSlide rest₁.length).strstart)) { s₂ with win := s₂.win.storedSlide rest₁.length })
      have hrest := storedPending_counts hpending
      exact ⟨hrest.wrap, (hrest.adler.trans (checked_nil _ _)).trans hread.adler,
        hrest.totalIn.trans hread.totalIn⟩

theorem blockDone_counts (h : s.blockDone flush = some s') : Counts s [] s' := by
  obtain ⟨s₁, hblock, rfl⟩ := Option.map_eq_some_iff.mp h
  have hfull : ∀ w : DeflateState, w.fullFlush.wrap = w.wrap := by
    intro w
    unfold DeflateState.fullFlush
    split <;> rfl
  have hfirst : Counts s [] s₁ := by
    unfold flushBlock at hblock
    split at hblock
    · exact emit_counts hblock
    · split at hblock
      · obtain ⟨s₂, he, rfl⟩ := Option.map_eq_some_iff.mp hblock
        split
        · exact (emit_counts he).then_quiet (hfull _) rfl rfl
        · exact emit_counts he
      · obtain rfl := Option.some.inj hblock
        exact .quiet rfl rfl rfl
  exact hfirst.trans (flushPending_counts s₁)

theorem compress_takes {ret : Option Ret} (h : s.compress flush input = some (ret, s', rest)) :
    Takes s input s' rest := by
  unfold compress at h
  split at h
  · obtain ⟨⟨state, s₁, rest₁⟩, hstored, h⟩ := Option.bind_eq_some_iff.mp h
    have htakes : ∀ finish, Takes s input { s₁ with finish := finish } rest₁ := fun _ =>
      (deflateStored_takes hstored).quiet (.quiet rfl rfl rfl)
    dsimp only at h
    generalize (s₁.finish || state = .finishStarted || state = .finishDone : Bool) = finish at h
    have hagain : Takes s input (if s₁.head.availOut = 0 then again { s₁ with finish := finish }
        else { s₁ with finish := finish }) rest₁ := by
      split
      · exact (htakes finish).quiet (.quiet rfl rfl rfl)
      · exact htakes finish
    split at h
    · obtain ⟨-, h⟩ := Prod.mk.inj (Option.some.inj h)
      obtain ⟨rfl, rfl⟩ := Prod.mk.inj h
      exact hagain
    · obtain ⟨-, h⟩ := Prod.mk.inj (Option.some.inj h)
      obtain ⟨rfl, rfl⟩ := Prod.mk.inj h
      exact hagain
    · obtain ⟨-, h⟩ := Prod.mk.inj (Option.some.inj h)
      obtain ⟨rfl, rfl⟩ := Prod.mk.inj h
      exact htakes finish
    · obtain ⟨s₃, hdone, h⟩ := Option.bind_eq_some_iff.mp h
      have hblock := (htakes finish).quiet (blockDone_counts hdone)
      split at h
      · obtain ⟨-, h⟩ := Prod.mk.inj (Option.some.inj h)
        obtain ⟨rfl, rfl⟩ := Prod.mk.inj h
        exact hblock.quiet (.quiet rfl rfl rfl)
      · obtain ⟨-, h⟩ := Prod.mk.inj (Option.some.inj h)
        obtain ⟨rfl, rfl⟩ := Prod.mk.inj h
        exact hblock
  · obtain ⟨-, h⟩ := Prod.mk.inj (Option.some.inj h)
    obtain ⟨rfl, rfl⟩ := Prod.mk.inj h
    exact .refl s input

/-- The check value and the count are those of the input that is taken. -/
structure Checks (wrap : Nat) (s : StoredStream) (taken : List UInt8) : Prop where
  adler : s.head.adler = checked wrap (initialCheck wrap) taken
  totalIn : s.totalIn = taken.length

theorem trailer_same (s : StoredStream) (flush : Flush) :
    (s.trailer flush).2.head.adler = s.head.adler ∧ (s.trailer flush).2.totalIn = s.totalIn := by
  unfold trailer
  split
  · exact ⟨rfl, rfl⟩
  · exact ⟨HeaderState.flushPending_adler _, rfl⟩

/-- What is taken behind the header is counted; once the trailer is written, nothing is. -/
theorem deflateBody_checks {wrap : Nat} {ret : Ret}
    (h : s.deflateBody flush input = some (ret, s', rest)) (hc : Checks wrap s taken)
    (hwrap : s.win.wrap = wrap ∨ input = []) :
    Checks wrap s' (taken ++ input.take (input.length - rest.length)) := by
  obtain ⟨⟨ret', s₁, rest₁⟩, hcompress, h⟩ := Option.map_eq_some_iff.mp h
  obtain ⟨used, hused, hcounts⟩ := compress_takes hcompress
  have hchecks : Checks wrap s₁ (taken ++ used) := by
    constructor
    · rcases hwrap with hw | rfl
      · rw [hcounts.adler, hc.adler, hw, checked_append]
      · obtain ⟨rfl, -⟩ := List.append_eq_nil_iff.mp hused.symm
        rw [hcounts.adler, hc.adler, checked_nil, List.append_nil]
    · rw [hcounts.totalIn, hc.totalIn, List.length_append]
  have htake : input.take (input.length - rest₁.length) = used := by
    rw [hused, List.length_append, Nat.add_sub_cancel, List.take_left]
  dsimp only at h
  split at h
  · obtain ⟨-, h⟩ := Prod.mk.inj h
    obtain ⟨rfl, rfl⟩ := Prod.mk.inj h
    rw [htake]
    exact hchecks
  · obtain ⟨-, h⟩ := Prod.mk.inj h
    obtain ⟨rfl, rfl⟩ := Prod.mk.inj h
    rw [htake]
    obtain ⟨hadler, htotal⟩ := trailer_same s₁ flush
    exact ⟨hadler.trans hchecks.adler, htotal.trans hchecks.totalIn⟩

/-- Before the last block the format is as it was asked for. -/
theorem Going.wrap_eq {wrap wBits : Nat} (h : Going wrap wBits s taken) (hf : s.finish = false) :
    s.win.wrap = wrap := by
  cases h with
  | blank _ _ _ _ _ _ hwrap _ => exact hwrap
  | body blocks hbody =>
    rcases hbody.part with ⟨-, -, hwrap, -⟩ | hended
    · exact hwrap
    · rw [hended.finish] at hf
      cases hf

/-- The header of a stream does not change its check value. -/
theorem Going.header {wrap wBits : Nat} (h : Going wrap wBits s taken) (hc : Checks wrap s taken)
    {head : HeaderState} (hstatus : head.status = s.head.status) (hgz : head.gzhead = s.head.gzhead)
    (hadler : head.adler = s.head.adler) : head.writeHeader.2.adler = s.head.adler := by
  cases h with
  | blank hblank htaken _ _ _ _ _ _ =>
    have hcheck : s.head.adler = initialCheck wrap := by rw [hc.adler, htaken, checked_nil]
    refine HeaderState.Plain.writeHeader ⟨hgz.trans hblank.gzhead, hadler, .inr ?_⟩
    rw [hstatus, hblank.status, hcheck, initialCheck]
    split
    · exact .inr ⟨rfl, rfl⟩
    · exact .inl ⟨rfl, rfl⟩
  | body blocks hbody =>
    rw [HeaderState.writeHeader_busy (hstatus.trans hbody.status)]
    exact hadler

/-- Every call counts what it takes. -/
theorem deflate_checks {wrap wBits availOut : Nat} {ret : Ret} (hgoing : Going wrap wBits s taken)
    (hc : Checks wrap s taken) (h : s.deflate flush availOut input = some (ret, s', rest)) :
    Checks wrap s' (taken ++ input.take (input.length - rest.length)) := by
  have hkept : ∀ {ret' : Ret} {s₁ : StoredStream}, Checks wrap s₁ taken →
      some (ret', s₁, input) = some (ret, s', rest) →
      Checks wrap s' (taken ++ input.take (input.length - rest.length)) := by
    intro ret' s₁ hs₁ heq
    obtain ⟨-, h⟩ := Prod.mk.inj (Option.some.inj heq)
    obtain ⟨rfl, rfl⟩ := Prod.mk.inj h
    rw [Nat.sub_self, List.take_zero, List.append_nil]
    exact hs₁
  unfold deflate at h
  split at h
  · exact hkept hc h
  split at h
  · exact hkept hc h
  have hdrain : ∃ s₁, (if s.head.pending ≠ 0 then flushPending { s with
        head := { s.head with availOut := availOut, lastFlush := HeaderState.flushCode flush } }
      else { s with
        head := { s.head with availOut := availOut, lastFlush := HeaderState.flushCode flush } }) =
          s₁ ∧ s₁.finish = s.finish ∧ s₁.win = s.win ∧ s₁.totalIn = s.totalIn ∧
        s₁.head.adler = s.head.adler ∧ s₁.head.status = s.head.status ∧
        s₁.head.gzhead = s.head.gzhead := by
    refine ⟨_, rfl, ?_⟩
    split
    · refine ⟨rfl, rfl, rfl, HeaderState.flushPending_adler _, ?_⟩
      unfold flushPending HeaderState.flushPending
      dsimp only
      split_ifs <;> exact ⟨rfl, rfl⟩
    · exact ⟨rfl, rfl, rfl, rfl, rfl, rfl⟩
  obtain ⟨s₁, heq, hfin, hwin, htotal, hadler, hstatus, hgz⟩ := hdrain
  dsimp only at h
  rw [heq] at h
  have hs₁ : Checks wrap s₁ taken := ⟨hadler.trans hc.adler, htotal.trans hc.totalIn⟩
  have hagain : Checks wrap s₁.again taken := ⟨hs₁.adler, hs₁.totalIn⟩
  split at h
  · exact hkept hagain h
  split at h
  · exact hkept hs₁ h
  split at h
  · exact hkept hs₁ h
  next hinput =>
  have hwrap : ∀ head, ({ s₁ with head := head } : StoredStream).win.wrap = wrap ∨ input = [] := by
    intro head
    by_cases hf : s₁.finish = true
    · exact .inr (by_contra fun hne => hinput ⟨hf, hne⟩)
    · refine .inl ?_
      dsimp only
      rw [hwin]
      exact hgoing.wrap_eq (hfin ▸ Bool.eq_false_iff.mpr hf)
  have hhead : (if s₁.finish = true then (none, s₁.head)
      else { s₁.head with strstart := s₁.win.strstart }.writeHeader).2.adler = s.head.adler := by
    split
    · exact hadler
    · exact hgoing.header hc hstatus hgz hadler
  generalize (if s₁.finish = true then (none, s₁.head)
    else { s₁.head with strstart := s₁.win.strstart }.writeHeader) = r at h hhead
  obtain ⟨ret', head⟩ := r
  have hs₂ : Checks wrap { s₁ with head := head } taken := ⟨hhead.trans hc.adler, hs₁.totalIn⟩
  dsimp only at h
  split at h
  · exact hkept hs₂ h
  · exact deflateBody_checks h hs₂ (hwrap head)

theorem run_checks {wrap wBits : Nat} (hwrap : wrap ≤ 2) (hgoing : Going wrap wBits s taken)
    (hc : Checks wrap s taken) (calls : List Call) :
    ∃ s' taken', s.run taken calls = some (s', taken') ∧ Going wrap wBits s' taken' ∧
      Checks wrap s' taken' := by
  induction calls generalizing s taken with
  | nil => exact ⟨s, taken, rfl, hgoing, hc⟩
  | cons c calls ih =>
    obtain ⟨⟨ret, s₁, rest⟩, hr, hcalled⟩ := deflate_spec hwrap hgoing c.flush c.availOut c.input
    obtain ⟨s', taken', hrun, h'⟩ := ih hcalled.going (deflate_checks hgoing hc hr)
    exact ⟨s', taken', by rw [run, hr]; exact hrun, h'⟩

theorem start_checks (buf window : Nat → UInt8) (wrap windowBits memLevel strategy : Nat) :
    Checks wrap (start buf window wrap windowBits memLevel strategy) [] :=
  ⟨(checked_nil _ _).symm, rfl⟩

/-- After any calls of `deflate` at level 0 the check value is that of all the input taken, and
`total_in` is its length. -/
theorem deflateStored_counts (buf window : Nat → UInt8) {wrap windowBits : Nat} (hwrap : wrap ≤ 2)
    (h8 : 8 ≤ windowBits) (h15 : windowBits ≤ 15) (memLevel strategy : Nat) (calls : List Call) :
    ∃ s taken, (start buf window wrap windowBits memLevel strategy).run [] calls = some (s, taken) ∧
      s.head.adler = checked wrap (initialCheck wrap) taken ∧ s.totalIn = taken.length := by
  obtain ⟨s, taken, hrun, -, hchecks⟩ := run_checks hwrap
    (start_going buf window h8 h15 memLevel strategy)
    (start_checks buf window wrap windowBits memLevel strategy) calls
  exact ⟨s, taken, hrun, hchecks.adler, hchecks.totalIn⟩

/-- Two calls on a gzip stream, of which the second ends it. -/
theorem deflateStored_counts_gzip : ∃ s, (start (fun _ => 0) (fun _ => 0) 2 15 8 0).run []
      [⟨.noFlush, [97], 100⟩, ⟨.finish, [98], 100⟩] = some (s, [97, 98]) ∧
    s.head.adler = crc32 crc32InitialValue [97, 98] ∧ s.totalIn = 2 := by
  have htaken : ((start (fun _ => 0) (fun _ => 0) 2 15 8 0).run []
      [⟨.noFlush, [97], 100⟩, ⟨.finish, [98], 100⟩]).map Prod.snd = some [97, 98] := by
    decide +kernel
  obtain ⟨s, taken, hrun, hadler, htotal⟩ := deflateStored_counts (fun _ => 0) (fun _ => 0)
    (show 2 ≤ 2 by decide) (show 8 ≤ 15 by decide) le_rfl 8 0
    [⟨.noFlush, [97], 100⟩, ⟨.finish, [98], 100⟩]
  rw [hrun] at htaken
  obtain rfl := Option.some.inj htaken
  exact ⟨s, hrun, hadler, htotal⟩

end StoredStream
end ZlibNg
