import ZlibNg.Deflate.StoredStreamSpec

/-! The runs of `deflate` at level 0. -/
namespace ZlibNg
namespace StoredStream
open StoredBlock
variable {s s' s'' : StoredStream} {input rest rest' : List UInt8} {blocks blocks' : List StoredBlock}
  {flush : Flush}

/-- Less than a byte is held, and the window is as `deflate_stored` leaves it. -/
structure Ready (s : StoredStream) : Prop where
  outset : s.head.pending = 0 → s.head.pendingOut = 0
  lt : s.biBuf < 2 ^ s.biValid
  valid : s.biValid < 8
  shape : s.win.Shape
  rest : s.win.AtRest

/-- The input that is taken goes to blocks or to the window, behind what the window held. -/
structure Moves (s : StoredStream) (input : List UInt8) (s' : StoredStream) (rest : List UInt8)
    (blocks : List StoredBlock) : Prop where
  status : s'.head.status = s.head.status
  wrap : s'.win.wrap = s.win.wrap
  finish : s'.finish = s.finish
  sent : s'.sent = written s.sent blocks
  bytes : payloads blocks ++ (s'.unread ++ rest) = s.unread ++ input
  suffix : rest <:+ input

theorem Moves.refl (s : StoredStream) (input : List UInt8) : Moves s input s input [] :=
  ⟨rfl, rfl, rfl, rfl, rfl, List.suffix_rfl⟩

theorem Moves.trans (h : Moves s input s' rest blocks) (h' : Moves s' rest s'' rest' blocks') :
    Moves s input s'' rest' (blocks ++ blocks') := by
  refine ⟨h'.status.trans h.status, h'.wrap.trans h.wrap, h'.finish.trans h.finish, ?_, ?_,
    h'.suffix.trans h.suffix⟩
  · rw [h'.sent, h.sent, written_append]
  · rw [payloads_append, List.append_assoc, h'.bytes, h.bytes]

/-- A step that writes nothing. -/
theorem Moves.quiet (h : Moves s input s' rest []) (h' : Moves s' rest s'' rest' blocks) :
    Moves s input s'' rest' blocks := h.trans h'

theorem Ready.left_le (h : s.Ready) : s.win.blockStart + s.left = s.win.strstart := by
  have := h.rest.start_le
  unfold left
  omega

/-- The window, when the data before `n` are written. -/
theorem AtRest.passed {w : DeflateState} (h : w.AtRest) {n : Nat}
    (hn : w.blockStart + n ≤ w.strstart) :
    DeflateState.AtRest { w with blockStart := w.blockStart + n } :=
  ⟨h.lookahead, h.fits, by have := h.start_nonneg; dsimp only; omega, hn⟩

theorem unread_passed (h : s.Ready) {n : Nat} (hn : n ≤ s.left) :
    (s.passed n).unread = s.unread.drop n := by
  have hstart := h.rest.start_nonneg
  have hleft := h.left_le
  have hleft' : (s.passed n).left = s.left - n := by
    unfold left passed
    dsimp only
    omega
  rw [unread, unread, readBytes_drop, hleft']
  congr 1
  unfold passed
  dsimp only
  omega

/-- One block that is copied takes the next bytes of the window and the input. -/
theorem copyBlock_moves (h : s.Ready) (hp : s.head.pending = 0) {len : Nat} (hmax : len ≤ maxStored)
    (hin : len ≤ s.left + input.length) (hroom : storedHeader s.biValid + len ≤ s.head.availOut)
    (last : Bool) : ∃ s₁ fits,
    s.copyBlock len last input = some (s₁, input.drop (len - s.left)) ∧ s₁.Ready ∧
      s₁.head.pending = 0 ∧ s₁.biValid = 0 ∧ s₁.left = s.left - len ∧
      s₁.head.availOut = s.head.availOut - storedHeader s.biValid - len ∧
      Moves s input s₁ (input.drop (len - s.left))
        [.stored ((s.unread ++ input).take len) last fits] := by
  obtain ⟨b, o, d, u, t, fits, hcopy, ho⟩ :=
    copyBlock_spec hp (h.outset hp) h.lt h.valid hmax hin hroom last
  have hleft := h.left_le
  generalize hs₁ : ({ s with
    head := { s.head with
      pendingBuf := b, pending := 0, pendingOut := 0, out := o, adler := d
      availOut := s.head.availOut - storedHeader s.biValid - len }
    win := { s.win with blockStart := s.win.blockStart + (min s.left len : Nat) }
    biBuf := 0, biValid := 0, biUsed := u, totalIn := t } : StoredStream) = s₁ at *
  have hready : s₁.Ready := by
    rw [← hs₁]
    exact ⟨fun _ => rfl, by simp, by simp, h.shape.congr rfl rfl rfl,
      AtRest.passed h.rest (by omega)⟩
  have hleft₁ : s₁.left = s.left - len := by
    rw [← hs₁]
    unfold left at hleft ⊢
    dsimp only
    omega
  have hunread : s₁.unread = s.unread.drop len := by
    have hpassed := unread_passed h (Nat.min_le_left s.left len)
    have hsame : s₁.unread = (s.passed (min s.left len)).unread := by
      rw [← hs₁]
      rfl
    rw [hsame, hpassed]
    rcases Nat.le_total s.left len with hle | hle
    · rw [Nat.min_eq_left hle, List.drop_of_length_le (by simp),
        List.drop_of_length_le (by simpa)]
    · rw [Nat.min_eq_right hle]
  refine ⟨s₁, fits, hcopy, hready, by rw [← hs₁], by rw [← hs₁], hleft₁, by rw [← hs₁],
    by rw [← hs₁], by rw [← hs₁], by rw [← hs₁], ?_, ?_, List.drop_suffix _ _⟩
  · rw [written, List.foldl_cons, List.foldl_nil, ← ho, ← hs₁, sent, whole]
    simp [HeaderState.held]
  · have hdrop : s₁.unread ++ input.drop (len - s.left) = (s.unread ++ input).drop len := by
      rw [List.drop_append, length_unread, hunread]
    rw [hdrop, payloads, List.flatMap_singleton, payload, List.take_append_drop]

/-- What the window holds does not grow while no input is taken. -/
theorem Moves.left_le (h : Moves s input s' input blocks) : s'.left ≤ s.left := by
  have hcount := congrArg List.length h.bytes
  rw [List.length_append, List.length_append, List.length_append, length_unread,
    length_unread] at hcount
  omega

/-- The loop copies data of the window first, and marks a block as the last only when nothing is
left. -/
theorem copyLoop_spec {minBlock fuel : Nat} (h : s.Ready) (hp : s.head.pending = 0)
    (hfuel : s.head.availOut < fuel) :
    ∃ s' rest last blocks, s.copyLoop flush minBlock fuel input = some (s', rest, last) ∧
      s'.Ready ∧ s'.head.pending = 0 ∧ Moves s input s' rest blocks ∧
      (rest ≠ input → s'.left = 0) ∧ (last = false → Plain blocks) ∧
      (last = true → Closed blocks ∧ rest = [] ∧ s'.left = 0 ∧ s'.biValid = 0 ∧
        flush = .finish) := by
  induction fuel generalizing s input with
  | zero => omega
  | succ fuel ih =>
    rw [copyLoop]
    have hheader : 5 ≤ storedHeader s.biValid := by
      unfold storedHeader
      omega
    dsimp only
    split
    · exact ⟨s, input, false, [], rfl, h, hp, .refl s input, fun hne => absurd rfl hne,
        fun _ => plain_nil, nofun⟩
    next hout =>
    split
    · exact ⟨s, input, false, [], rfl, h, hp, .refl s input, fun hne => absurd rfl hne,
        fun _ => plain_nil, nofun⟩
    generalize hlen : min (min maxStored (s.left + input.length))
      (s.head.availOut - storedHeader s.biValid) = len
    generalize hlast : decide (flush = .finish ∧ len = s.left + input.length) = last
    obtain ⟨s₁, fits, hcopy, hready, hp₁, hvalid, hleft, hroom, hmoves⟩ :=
      @copyBlock_moves s input h hp len (by omega) (by omega) (by omega) last
    rw [hcopy, Option.bind_eq_bind, Option.bind_some]
    dsimp only
    split
    · next htrue =>
      subst htrue
      obtain ⟨hfin, hall⟩ := of_decide_eq_true hlast
      exact ⟨s₁, _, true, _, rfl, hready, hp₁, hmoves, fun _ => by omega, nofun,
        fun _ => ⟨closed_one, List.drop_of_length_le (by omega), by omega, hvalid, hfin⟩⟩
    · next hfalse =>
      have hfalse' : last = false := by simpa using hfalse
      subst hfalse'
      obtain ⟨s₂, rest, last₂, blocks, hrun, hready₂, hp₂, hmoves₂, htaken, hplain, hclosed⟩ :=
        @ih s₁ (input.drop (len - s.left)) hready hp₁ (by omega)
      refine ⟨s₂, rest, last₂, _, hrun, hready₂, hp₂, hmoves.trans hmoves₂, fun hne => ?_,
        fun hl => plain_one.append (hplain hl), fun hl => ?_⟩
      · by_cases hsame : rest = input.drop (len - s.left)
        · -- input was taken for the first block, when the window was written
          subst hsame
          have hlong : s.left < len := by
            by_contra hle
            rw [Nat.sub_eq_zero_of_le (not_lt.mp hle)] at hne
            exact hne rfl
          have := hmoves₂.left_le
          omega
        · exact htaken hsame
      · obtain ⟨hc, hrest⟩ := hclosed hl
        exact ⟨plain_one.closed hc, hrest⟩

/-- Only the window changes, and not what is to be written. -/
theorem Moves.win {w : DeflateState} (hwrap : w.wrap = s.win.wrap)
    (hunread : unread { s with win := w } = s.unread) :
    Moves s input { s with win := w } input [] :=
  ⟨rfl, hwrap, rfl, rfl, by rw [hunread]; rfl, List.suffix_rfl⟩

theorem Ready.win (h : s.Ready) {w : DeflateState} (hs : w.Shape) (hr : w.AtRest) :
    Ready { s with win := w } := ⟨h.outset, h.lt, h.valid, hs, hr⟩

theorem unread_nil (h : s.left = 0) : s.unread = [] := by
  rw [unread, h]
  rfl

theorem update_spec (h : s.Ready) (hleft : s.left = 0) (copied : List UInt8) :
    Ready { s with win := s.win.storedUpdate copied } ∧
      left { s with win := s.win.storedUpdate copied } = 0 ∧
      Moves s input { s with win := s.win.storedUpdate copied } input [] := by
  obtain ⟨hsame, hrest, -⟩ := DeflateState.storedUpdate_spec h.shape h.rest
    (Recent.self s.win.wSize s.win.data) copied
  have hstart : (s.win.storedUpdate copied).blockStart = (s.win.storedUpdate copied).strstart := rfl
  have hwrap : (s.win.storedUpdate copied).wrap = s.win.wrap := by
    unfold DeflateState.storedUpdate
    split
    · rfl
    · dsimp only
      split <;> rfl
  have hleft' : left { s with win := s.win.storedUpdate copied } = 0 := by
    unfold left
    dsimp only
    omega
  refine ⟨h.win (hsame.shape h.shape) hrest, hleft', .win hwrap ?_⟩
  rw [unread_nil hleft', unread_nil hleft]

theorem slide_spec (h : s.Ready) (n : Nat) :
    Ready { s with win := s.win.storedSlide n } ∧
      Moves s input { s with win := s.win.storedSlide n } input [] := by
  obtain ⟨hsame, hrest, -⟩ := DeflateState.storedSlide_spec h.rest
    (Recent.self s.win.wSize s.win.data) n
  have hle := h.left_le
  have hnonneg := h.rest.start_nonneg
  refine ⟨h.win (hsame.shape h.shape) hrest, .win ?_ ?_⟩
  · unfold DeflateState.storedSlide
    split <;> rfl
  · by_cases hcond : s.win.windowSize - s.win.strstart < n ∧ (s.win.wSize : Int) ≤ s.win.blockStart
    · generalize hk : min s.win.blockStart.toNat (s.win.strstart - s.win.wSize) = k
      have heq : s.win.storedSlide n = { s.win with
          window := moveDown s.win.window k (s.win.strstart - k)
          strstart := s.win.strstart - k
          blockStart := s.win.blockStart - k } := by
        rw [DeflateState.storedSlide, if_pos hcond, hk]
      have hleft' : left { s with win := s.win.storedSlide n } = s.left := by
        rw [left, heq, left]
        dsimp only
        omega
      rw [unread, hleft', unread, heq]
      dsimp only
      rw [readBytes_moved (by omega)]
      congr 1
      omega
    · rw [DeflateState.storedSlide, if_neg hcond]

theorem read_spec (h : s.Ready) (input : List UInt8) :
    let room := s.win.windowSize - s.win.strstart
    let s' := { s.readBuf (input.take room) with win := s.win.storedRead input }
    Ready s' ∧ Moves s input s' (input.drop room) [] := by
  obtain ⟨hsame, hrest, -⟩ := DeflateState.storedRead_spec h.rest
    (Recent.self s.win.wSize s.win.data) input
  have hle := h.left_le
  have hnonneg := h.rest.start_nonneg
  intro room s'
  have hleft' : s'.left = s.left + (input.take room).length := by
    rw [left, left, List.length_take]
    change ((s.win.strstart + min room input.length : Nat) - s.win.blockStart).toNat = _
    omega
  have hunread : s'.unread = s.unread ++ input.take room := by
    have hbehind := @readBytes_behind s.win.window s.win.blockStart.toNat s.win.strstart
      (input.take room) (by omega)
    have hcount : s.win.strstart - s.win.blockStart.toNat = s.left := by omega
    rw [hcount] at hbehind
    rw [unread, hleft']
    exact hbehind
  refine ⟨⟨h.outset, h.lt, h.valid, hsame.shape h.shape, hrest⟩, rfl, rfl, rfl, rfl, ?_,
    List.drop_suffix _ _⟩
  rw [hunread, List.append_assoc, List.take_append_drop]
  rfl

/-- What is pending goes out, and nothing else changes. -/
theorem flush_spec (h : s.Ready) (input : List UInt8) : s.flushPending.Ready ∧
    Moves s input s.flushPending input [] ∧ s.flushPending.win = s.win ∧
      s.flushPending.biValid = s.biValid := by
  obtain ⟨p, q, a, out, heq, hq, -, hsent, -⟩ := flushPending_spec h.valid h.outset
  rw [heq] at hsent ⊢
  exact ⟨⟨hq, h.lt, h.valid, h.shape, h.rest⟩, ⟨rfl, rfl, rfl, hsent, rfl, List.suffix_rfl⟩, rfl, rfl⟩

/-- `bi_used` has no part in the stream. -/
theorem Ready.used (h : s.Ready) (u : Int) : Ready { s with biUsed := u } :=
  ⟨h.outset, h.lt, h.valid, h.shape, h.rest⟩

theorem Moves.used (h : Moves s input s' rest blocks) (u : Int) :
    Moves s input { s' with biUsed := u } rest blocks :=
  ⟨h.status, h.wrap, h.finish, h.sent, h.bytes, h.suffix⟩

/-- What a call of `deflate_stored` leaves. -/
def Leaves (flush : Flush) (s : StoredStream) (rest : List UInt8) (blocks : List StoredBlock) :
    BlockState → Prop
  | .needMore => Plain blocks
  | .blockDone => Plain blocks ∧ s.left = 0 ∧ s.head.pending = 0 ∧ flush ≠ .finish
  | .finishStarted => Closed blocks ∧ s.left = 0 ∧ rest = [] ∧ s.biValid = 0
  | .finishDone => Closed blocks ∧ s.left = 0 ∧ rest = [] ∧ s.biValid = 0 ∧ s.head.pending = 0

theorem Leaves.behind {state : BlockState} (h : Leaves flush s rest blocks state)
    (hplain : Plain blocks') : Leaves flush s rest (blocks' ++ blocks) state := by
  cases state with
  | needMore => exact hplain.append h
  | blockDone => exact ⟨hplain.append h.1, h.2⟩
  | finishStarted => exact ⟨hplain.closed h.1, h.2⟩
  | finishDone => exact ⟨hplain.closed h.1, h.2⟩

theorem storedPending_spec (h : s.Ready) (hp : s.head.pending = 0) :
    ∃ state s' blocks, s.storedPending flush input = some (state, s') ∧ s'.Ready ∧
      Moves s input s' input blocks ∧ Leaves flush s' input blocks state := by
  unfold storedPending
  dsimp only
  split
  · generalize hlen : min s.left (min (s.head.pendingBufSize - storedHeader s.biValid) maxStored) =
      len
    generalize hlast : decide (flush = .finish ∧ input = [] ∧ len = s.left) = last
    have hpayload : readBytes s.win.window s.win.blockStart.toNat len = s.unread.take len := by
      rw [unread, readBytes_take, Nat.min_eq_left (by omega)]
    have hlength : (s.unread.take len).length = len := by
      rw [List.length_take, length_unread]
      omega
    obtain ⟨b, p, u, hemit, hsent⟩ := @emit_stored s (h.outset hp) h.lt h.valid
      (s.unread.take len) (by omega) last
    rw [hlength] at hemit
    rw [hpayload, hemit, Option.bind_eq_bind, Option.bind_some]
    generalize hs₁ : ({ s with
      head := { s.head with pendingBuf := b, pending := p }
      biBuf := 0, biValid := 0, biUsed := u } : StoredStream) = s₁ at *
    have hle := h.left_le
    have hready : (s₁.passed len).Ready := by
      rw [← hs₁]
      exact ⟨fun _ => h.outset hp, by simp [passed], by simp [passed], h.shape.congr rfl rfl rfl,
        AtRest.passed h.rest (by omega)⟩
    have hunread : (s₁.passed len).unread = s.unread.drop len := by
      rw [← unread_passed h (by omega), ← hs₁]
      rfl
    have hmoves : Moves s input (s₁.passed len) input
        [.stored (s.unread.take len) last (by omega)] := by
      refine ⟨by rw [← hs₁]; rfl, by rw [← hs₁]; rfl, by rw [← hs₁]; rfl, hsent, ?_,
        List.suffix_rfl⟩
      rw [hunread, payloads, List.flatMap_singleton, payload, ← List.append_assoc,
        List.take_append_drop]
    obtain ⟨hready₂, hmoves₂, hwin, hbits⟩ := flush_spec hready input
    have hvalid : (s₁.passed len).flushPending.biValid = 0 := by
      rw [hbits, ← hs₁]
      rfl
    have hleft : (s₁.passed len).flushPending.left = s.left - len := by
      have hcount := congrArg List.length hunread
      rw [length_unread, List.length_drop, length_unread] at hcount
      rw [← hcount, left, hwin, left]
    cases last with
    | false =>
      exact ⟨.needMore, _, _, rfl, hready₂, hmoves.trans hmoves₂,
        plain_one.append plain_nil⟩
    | true =>
      obtain ⟨-, hnil, hall⟩ := of_decide_eq_true hlast
      exact ⟨.finishStarted, _, _, rfl, hready₂.used 8, (hmoves.trans hmoves₂).used 8,
        closed_one, hleft.trans (by omega), hnil, hvalid⟩
  · exact ⟨.needMore, s, [], rfl, h, .refl s input, plain_nil⟩

/-- `deflate_stored` puts the input in blocks and in the window. -/
theorem deflateStored_spec (h : s.Ready) (hp : s.head.pending = 0) :
    ∃ state s' rest blocks, s.deflateStored flush input = some (state, s', rest) ∧ s'.Ready ∧
      Moves s input s' rest blocks ∧ Leaves flush s' rest blocks state := by
  obtain ⟨s₁, rest, last, blocks, hloop, hready, hp₁, hmoves, htaken, hplain, hclosed⟩ :=
    @copyLoop_spec s input flush (min (s.head.pendingBufSize - 5) s.win.wSize) _ h hp
      (Nat.lt_succ_self _)
  rw [deflateStored, hloop, Option.bind_eq_bind, Option.bind_some]
  cases last with
  | true =>
    obtain ⟨hc, hnil, hleft, hvalid, -⟩ := hclosed rfl
    refine ⟨.finishDone, { s₁ with biUsed := 8 }, rest, blocks, ?_, hready.used 8, hmoves.used 8,
      hc, hleft, hnil, hvalid, hp₁⟩
    simp
  | false =>
    -- the input that was copied is in the window as well
    have hupdate : ∃ s₂, (if input.length - rest.length ≠ 0 ∧ ¬false then
        { s₁ with win := s₁.win.storedUpdate (input.take (input.length - rest.length)) }
        else s₁) = s₂ ∧ s₂.Ready ∧ s₂.head.pending = 0 ∧ Moves s input s₂ rest blocks := by
      refine ⟨_, rfl, ?_⟩
      split
      · next hused =>
        have hne : rest ≠ input := by
          rintro rfl
          exact hused.1 (Nat.sub_self _)
        obtain ⟨g1, -, g2⟩ := @update_spec s₁ rest hready (htaken hne)
          (input.take (input.length - rest.length))
        exact ⟨g1, hp₁, by simpa using hmoves.trans g2⟩
      · exact ⟨hready, hp₁, hmoves⟩
    obtain ⟨s₂, heq, hready₂, hp₂, hmoves₂⟩ := hupdate
    dsimp only
    rw [heq, if_neg (by simp)]
    split
    · next hdone =>
      have hleft : s₂.left = 0 := by
        unfold left
        omega
      exact ⟨.blockDone, s₂, rest, blocks, rfl, hready₂, hmoves₂, hplain rfl, hleft, hp₂,
        hdone.2.1⟩
    · obtain ⟨hready₃, hmoves₃⟩ := @slide_spec s₂ rest hready₂ rest.length
      obtain ⟨hready₄, hmoves₄⟩ := read_spec hready₃ rest
      obtain ⟨state, s₅, blocks', hpending, hready₅, hmoves₅, hleaves⟩ :=
        @storedPending_spec _ (rest.drop _) flush hready₄ hp₂
      have hall := (hmoves₂.trans hmoves₃).trans (hmoves₄.quiet hmoves₅)
      rw [List.append_nil] at hall
      refine ⟨state, s₅, _, blocks ++ blocks', ?_, hready₅, hall, ?_⟩
      · dsimp only at hpending ⊢
        rw [hpending]
        rfl
      · exact hleaves.behind (hplain rfl)

/-- The empty static block of a partial flush. -/
theorem emit_align (hout : s.head.pendingOut = 0) (hlt : s.biBuf < 2 ^ s.biValid)
    (hvalid : s.biValid < 8) : ∃ w, s.emit trAlign = some (s.absorb w) ∧ w.Held ∧ w.biValid < 8 ∧
      (s.absorb w).sent = put s.sent .align := by
  have hcode : staticLcodes.code 256 = 0 := by decide +kernel
  have hlen : staticLcodes.len 256 = 7 := by decide +kernel
  obtain ⟨w₁, hw₁, hheld₁, hstream₁, -⟩ := @BitWriter.sendBits_spec s.writer
    ⟨hlt, by change s.biValid < 64; omega⟩ (1 <<< 1 + false.toNat) 3 (by decide) (by decide)
  obtain ⟨w₂, hw₂, hheld₂, hstream₂, -⟩ := @BitWriter.sendBits_spec w₁ hheld₁ 0 7
    (by decide) (by decide)
  obtain ⟨hheld₃, hstream₃, hvalid₃⟩ := BitWriter.trFlushBits_spec hheld₂
  refine ⟨w₂.trFlushBits, ?_, hheld₃, by rw [hvalid₃]; exact Nat.mod_lt _ (by decide), ?_⟩
  · rw [emit, trAlign, BitWriter.emitTree, hw₁, Option.bind_eq_bind, Option.bind_some,
      BitWriter.sendCode, hcode, hlen, hw₂]
    rfl
  · have hbits : (BitStream.ofNat (1 <<< 1 + false.toNat) 3).append (BitStream.ofNat 0 7) =
        BitStream.ofNat 2 10 := by
      rw [BitStream.ofNat_append 0 7 (by decide)]
      rfl
    rw [sent_absorb hout, hstream₃, hstream₂, hstream₁, writer_stream, BitStream.append_assoc, hbits,
      put, sent, BitStream.append_assoc]

/-- A flush is completed by an empty block. -/
theorem blockDone_spec (h : s.Ready) (hp : s.head.pending = 0) (hleft : s.left = 0) :
    ∃ s' blocks, s.blockDone flush = some s' ∧ s'.Ready ∧ Moves s input s' input blocks ∧
      Plain blocks := by
  have hopen : ∃ s₁ blocks, s.flushBlock flush = some s₁ ∧ s₁.Ready ∧
      Moves s input s₁ input blocks ∧ Plain blocks := by
    unfold flushBlock
    split
    · obtain ⟨w, hemit, hheld, hvalid, hsent⟩ := emit_align (h.outset hp) h.lt h.valid
      refine ⟨_, [.align], hemit, ⟨fun _ => h.outset hp, hheld.lt, hvalid, h.shape, h.rest⟩,
        ⟨rfl, rfl, rfl, hsent, rfl, List.suffix_rfl⟩, fun b hb => ?_⟩
      rw [List.mem_singleton.mp hb]
      rfl
    · split
      · obtain ⟨b, p, u, hemit, hsent⟩ := @emit_stored s (h.outset hp) h.lt h.valid []
          (Nat.zero_le _) false
        generalize hs₁ : ({ s with
          head := { s.head with pendingBuf := b, pending := p }
          biBuf := 0, biValid := 0, biUsed := u } : StoredStream) = s₁ at *
        have hready : s₁.Ready := by
          rw [← hs₁]
          exact ⟨fun _ => h.outset hp, by simp, by simp, h.shape, h.rest⟩
        have hmoves : Moves s input s₁ input [.stored [] false (Nat.zero_le _)] :=
          ⟨by rw [← hs₁], by rw [← hs₁], by rw [← hs₁], hsent, by rw [← hs₁]; rfl, List.suffix_rfl⟩
        have hleft₁ : s₁.left = 0 := by rw [← hs₁]; exact hleft
        rw [List.length_nil] at hemit
        rw [hemit, Option.map_some]
        refine ⟨_, [.stored [] false (Nat.zero_le _)], rfl, ?_, ?_, plain_one⟩
        · split
          · rw [DeflateState.fullFlush, if_pos hready.rest.lookahead]
            exact hready.win (hready.shape.congr rfl rfl rfl)
              ⟨hready.rest.lookahead, Nat.zero_le _, le_rfl, le_rfl⟩
          · exact hready
        · split
          · have hfull : Moves s₁ input { s₁ with win := s₁.win.fullFlush } input [] := by
              rw [DeflateState.fullFlush, if_pos hready.rest.lookahead]
              exact .win rfl (by rw [unread_nil hleft₁, unread_nil rfl])
            exact (hmoves.trans hfull)
          · exact hmoves
      · exact ⟨s, [], rfl, h, .refl s input, plain_nil⟩
  obtain ⟨s₁, blocks, heq, hready, hmoves, hplain⟩ := hopen
  obtain ⟨hready₂, hmoves₂, -⟩ := flush_spec hready input
  refine ⟨_, blocks, ?_, hready₂, by simpa using hmoves.trans hmoves₂, hplain⟩
  rw [blockDone, heq, Option.map_some]

theorem Ready.again (h : s.Ready) : s.again.Ready :=
  ⟨h.outset, h.lt, h.valid, h.shape, h.rest⟩

theorem Moves.again (h : Moves s input s' rest blocks) : Moves s input s'.again rest blocks :=
  ⟨h.status, h.wrap, h.finish, h.sent, h.bytes, h.suffix⟩

/-- Before the last block is written, and after it; the trailer then follows. -/
inductive Part (flush : Flush) (ret : Option Ret) (s : StoredStream) (rest : List UInt8)
    (blocks : List StoredBlock) (finish : Bool) : Prop
  | opened (hfinish : finish = false) (plain : Plain blocks) (hret : ret = none → flush ≠ .finish)
  | closed (hfinish : finish = true) (hclosed : Closed blocks) (left : s.left = 0)
      (rest : rest = []) (valid : s.biValid = 0) (hret : ret = none → s.head.pending = 0)

/-- The compression up to the trailer. -/
theorem compress_spec (h : s.Ready) (hp : s.head.pending = 0) (hfinish : s.finish = false) :
    ∃ ret s' rest blocks finish, s.compress flush input =
        some (ret, { s' with finish := finish }, rest) ∧ (ret = none ∨ ret = some .ok) ∧ s'.Ready ∧
      Moves s input s' rest blocks ∧ Part flush ret s' rest blocks finish := by
  unfold compress
  split
  · obtain ⟨state, s₁, rest, blocks, hstored, hready, hmoves, hleaves⟩ :=
      @deflateStored_spec s input flush h hp
    have hfinish₁ : s₁.finish = false := hmoves.finish.trans hfinish
    rw [hstored, Option.bind_eq_bind, Option.bind_some]
    cases state with
    | needMore =>
      by_cases h0 : s₁.head.availOut = 0
      · exact ⟨some .ok, s₁.again, rest, blocks, false, by simp [hfinish₁, h0, again], .inr rfl,
          hready.again, hmoves.again, .opened rfl hleaves nofun⟩
      · exact ⟨some .ok, s₁, rest, blocks, false, by simp [hfinish₁, h0], .inr rfl,
          hready, hmoves, .opened rfl hleaves nofun⟩
    | finishStarted =>
      obtain ⟨hc, hleft, hnil, hvalid⟩ := hleaves
      by_cases h0 : s₁.head.availOut = 0
      · exact ⟨some .ok, s₁.again, rest, blocks, true, by simp [h0, again], .inr rfl,
          hready.again, hmoves.again, .closed rfl hc hleft hnil hvalid nofun⟩
      · exact ⟨some .ok, s₁, rest, blocks, true, by simp [h0], .inr rfl, hready, hmoves,
          .closed rfl hc hleft hnil hvalid nofun⟩
    | finishDone =>
      obtain ⟨hc, hleft, hnil, hvalid, hp₁⟩ := hleaves
      exact ⟨none, s₁, rest, blocks, true, by simp, .inl rfl, hready, hmoves,
        .closed rfl hc hleft hnil hvalid fun _ => hp₁⟩
    | blockDone =>
      obtain ⟨hplain, hleft, hp₁, hne⟩ := hleaves
      obtain ⟨s₂, blocks', hdone, hready₂, hmoves₂, hplain₂⟩ :=
        @blockDone_spec s₁ rest flush hready hp₁ hleft
      have hsame : ({ s₁ with finish := false } : StoredStream) = s₁ := by rw [← hfinish₁]
      have hfinish₂ : ({ s₂ with finish := false } : StoredStream) = s₂ := by
        rw [← hmoves₂.finish.trans hfinish₁]
      have hstep : ({ s₁ with finish := s₁.finish || BlockState.blockDone = .finishStarted ||
          BlockState.blockDone = .finishDone } : StoredStream).blockDone flush = some s₂ := by
        rw [hfinish₁]
        simpa [hsame] using hdone
      dsimp only
      rw [hstep, Option.bind_eq_bind, Option.bind_some]
      by_cases h0 : s₂.head.availOut = 0
      · exact ⟨some .ok, s₂.again, rest, blocks ++ blocks', false,
          by rw [if_pos h0, again]; simp [← hmoves₂.finish.trans hfinish₁], .inr rfl,
          hready₂.again, (hmoves.trans hmoves₂).again, .opened rfl (hplain.append hplain₂) nofun⟩
      · exact ⟨none, s₂, rest, blocks ++ blocks', false, by rw [if_neg h0, hfinish₂], .inl rfl,
          hready₂, hmoves.trans hmoves₂, .opened rfl (hplain.append hplain₂) fun _ => hne⟩
  · next hidle =>
    refine ⟨none, s, input, [], false, by rw [← hfinish], .inl rfl, h, .refl s input,
      .opened rfl plain_nil fun _ hfin => hidle ?_⟩
    exact .inr (.inr ⟨by rw [hfin]; decide, by simp [hfinish]⟩)

end StoredStream
end ZlibNg
