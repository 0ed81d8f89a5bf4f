import ZlibNg.Deflate.Header

/-! The bytes of a gzip header come out whole and in order, wherever `deflate` stops. -/
namespace ZlibNg
open HeaderState

/-- The fields of the header that is written. -/
def GzHead.fields (g : GzHead) (xflags : Nat) : Gzip.Fields where
  text := g.text ≠ 0
  time := g.time % 2 ^ 32
  xflags := xflags
  os := g.os % 256
  extra := g.extra
  name := g.name
  comment := g.comment
  hcrc := g.hcrc ≠ 0

/-- What the caller of `deflateSetHeader` has to see to: the length of the extra field fits, and the
strings end at their first zero. -/
structure GzHead.Ok (g : GzHead) : Prop where
  extra : ∀ e, g.extra = some e → e.length ≤ 65535
  name : ∀ n, g.name = some n → 0 ∉ n
  comment : ∀ n, g.comment = some n → 0 ∉ n

namespace HeaderState
variable {g : GzHead} {f : Gzip.Fields} {s s₀ s' : HeaderState} {bytes rest : List UInt8} {beg : Nat}

/-- The bytes that are still to be put, at each state. -/
def todo (f : Gzip.Fields) (s : HeaderState) : List UInt8 :=
  match s.status with
  | .init | .gzip => f.bytes
  | .extra => f.extraData.drop s.gzindex ++ (f.nameData ++ (f.commentData ++ f.checkData))
  | .name => f.nameData.drop s.gzindex ++ (f.commentData ++ f.checkData)
  | .comment => f.commentData.drop s.gzindex ++ f.checkData
  | .hcrc => f.checkData
  | .busy => []

/-- The index is inside the field that is being put. -/
def IndexOk (f : Gzip.Fields) (s : HeaderState) : Prop :=
  match s.status with
  | .extra => s.gzindex ≤ f.extraData.length
  | .name => s.gzindex ≤ f.nameData.length - 1
  | .comment => s.gzindex ≤ f.commentData.length - 1
  | _ => True

/-- The bytes written, held and to come make up the header. -/
structure Core (g : GzHead) (f : Gzip.Fields) (rest : List UInt8) (s : HeaderState) : Prop where
  head : s.gzhead = some g
  wrap : s.wrap = 2
  room : 12 ≤ s.pendingBufSize
  fits : s.pending ≤ s.pendingBufSize
  outset : s.pending = 0 → s.pendingOut = 0
  bytes : s.out ++ s.held ++ rest = f.bytes

/-- The check value of all but what is held from `beg` on. -/
def Hashed (g : GzHead) (beg : Nat) (s : HeaderState) : Prop :=
  g.hcrc ≠ 0 → s.adler = crc32 crc32InitialValue (s.out ++ s.held.take beg)

/-- A stream on which the header is begun and not yet finished. -/
structure Writing (g : GzHead) (f : Gzip.Fields) (s : HeaderState) : Prop where
  core : Core g f (s.todo f) s
  started : s.status ≠ .init ∧ s.status ≠ .gzip
  check : s.status ≠ .busy → Hashed g s.pending s
  index : s.IndexOk f
  lastFlush : s.lastFlush = -1

/-- The stream can take bytes. -/
structure Open (g : GzHead) (f : Gzip.Fields) (st : Status) (rest : List UInt8) (s : HeaderState) :
    Prop where
  core : Core g f rest s
  status : s.status = st
  outset : s.pendingOut = 0

@[simp] theorem length_held (s : HeaderState) : s.held.length = s.pending := by
  simp [held]

theorem held_take_pending (s : HeaderState) : s.held.take s.pending = s.held :=
  List.take_of_length_le (length_held s).le

theorem held_put (h : s.pendingOut = 0) : (s.put bytes).held = s.held ++ bytes := by
  refine List.ext_getElem ?_ fun i h₁ h₂ => ?_
  · simp [held, put]
  · simp only [held, put, h, writeBytes, List.getElem_map, List.getElem_range, Nat.zero_add]
    simp only [length_held, put] at h₁
    by_cases hi : i < s.pending
    · rw [if_neg (by omega), List.getElem_append_left (by simpa using hi)]
      simp
    · rw [if_pos ⟨by omega, h₁⟩, List.getElem_append_right (by simpa using hi)]
      simp [show i - s.pending < bytes.length by omega]

theorem pendingFrom_eq (h : s.pendingOut = 0) : s.pendingFrom beg = s.held.drop beg := by
  refine List.ext_getElem ?_ fun i h₁ h₂ => ?_
  · simp [pendingFrom, held]
  · simp [pendingFrom, held, h]

/-- What a part of `deflateHeaders` comes to: where it stops, it is with `Z_OK` and all the output
space is used, and where it goes on, `Q` holds. -/
def Step (g : GzHead) (f : Gzip.Fields) (s₀ : HeaderState) (Q : HeaderState → Prop) : HeaderStep → Prop
  | .error (ret, s) => ret = .ok ∧ Writing g f s ∧ s.availOut = 0 ∧
      s.out.length + s.availOut = s₀.out.length + s₀.availOut
  | .ok s => Q s ∧ s.out.length + s.availOut = s₀.out.length + s₀.availOut

theorem Step.bind {Q Q' : HeaderState → Prop} {x : HeaderStep} {k : HeaderState → HeaderStep}
    (hx : Step g f s₀ Q x) (hk : ∀ s, Q s → Step g f s Q' (k s)) : Step g f s₀ Q' (x >>= k) := by
  cases x with
  | error s => exact hx
  | ok s =>
    obtain ⟨hq, hspace⟩ := hx
    have hnext := hk s hq
    change Step g f s₀ Q' (k s)
    cases hks : k s with
    | error s' =>
      rw [hks] at hnext
      exact ⟨hnext.1, hnext.2.1, hnext.2.2.1, hnext.2.2.2.trans hspace⟩
    | ok s' =>
      rw [hks] at hnext
      exact ⟨hnext.1, hnext.2.trans hspace⟩

/-- Only the output and its space count where a step begins. -/
theorem Step.base {Q : HeaderState → Prop} {x : HeaderStep} (h : Step g f s Q x)
    (hout : s.out = s₀.out) (havail : s.availOut = s₀.availOut) : Step g f s₀ Q x := by
  unfold Step at h ⊢
  rw [hout, havail] at h
  exact h

theorem Step.mono {Q Q' : HeaderState → Prop} {x : HeaderStep} (h : Step g f s₀ Q x)
    (hq : ∀ s, Q s → Q' s) : Step g f s₀ Q' x := by
  cases x with
  | error s => exact h
  | ok s => exact ⟨hq s h.1, h.2⟩

section Put
variable {st : Status}

theorem Open.put (h : Open g f st (bytes ++ rest) s)
    (hfits : s.pending + bytes.length ≤ s.pendingBufSize) : Open g f st rest (s.put bytes) := by
  obtain ⟨⟨h1, h2, h3, h4, h5, h6⟩, hstatus, hout⟩ := h
  refine ⟨⟨h1, h2, h3, hfits, fun _ => hout, ?_⟩, hstatus, hout⟩
  rw [held_put hout]
  simpa [HeaderState.put] using h6

/-- What is put later is not hashed. -/
theorem Hashed.put (bytes : List UInt8) (h : Hashed g beg s) (hout : s.pendingOut = 0) (hbeg : beg ≤ s.pending) :
    Hashed g beg (s.put bytes) := by
  intro hg
  rw [held_put hout, List.take_append_of_le_length (by simpa using hbeg)]
  exact h hg

theorem hcrcUpdate_eq (g : GzHead) (beg : Nat) (s : HeaderState) :
    ∃ a, s.hcrcUpdate g beg = { s with adler := a } := by
  unfold hcrcUpdate
  split
  · exact ⟨_, rfl⟩
  · exact ⟨s.adler, rfl⟩

theorem Open.adler (h : Open g f st rest s) (a : Nat) : Open g f st rest { s with adler := a } :=
  ⟨⟨h.core.head, h.core.wrap, h.core.room, h.core.fits, h.core.outset, h.core.bytes⟩, h.status,
    h.outset⟩

/-- `HCRC_UPDATE` brings the check value up to date. -/
theorem Hashed.hcrcUpdate (h : Hashed g beg s) (hout : s.pendingOut = 0) (hbeg : beg ≤ s.pending) :
    Hashed g s.pending (s.hcrcUpdate g beg) := by
  intro hg
  unfold HeaderState.hcrcUpdate
  split
  · next hupdate =>
    change crc32 s.adler (s.pendingFrom beg) = crc32 _ (s.out ++ s.held.take s.pending)
    rw [h hg, pendingFrom_eq hout, ← crc32_append, List.append_assoc, List.take_append_drop,
      held_take_pending]
  · next hupdate =>
    obtain rfl : beg = s.pending := by
      by_contra hne
      exact hupdate ⟨hg, by omega⟩
    exact h hg

end Put

/-- The pending bytes go to the output in order. -/
theorem flushPending_spec (h : s.pending = 0 → s.pendingOut = 0) : ∃ p q a out,
    s.flushPending = { s with pending := p, pendingOut := q, availOut := a, out := out } ∧
      (p = 0 → q = 0) ∧ (p ≠ 0 → a = 0) ∧ p ≤ s.pending ∧
      out ++ s.flushPending.held = s.out ++ s.held ∧
      out.length + a = s.out.length + s.availOut := by
  unfold flushPending
  dsimp only
  split
  · next hlen =>
    exact ⟨s.pending, s.pendingOut, s.availOut, s.out, rfl, h, by omega, le_rfl, rfl, rfl⟩
  · next hlen =>
    have hsplit : ∀ k, k ≤ s.pending →
        ((List.range k).map fun i => s.pendingBuf (s.pendingOut + i)) ++
          ((List.range (s.pending - k)).map fun i => s.pendingBuf (s.pendingOut + k + i)) = s.held := by
      intro k hk
      obtain ⟨m, hm⟩ := Nat.exists_eq_add_of_le hk
      unfold held
      rw [hm, List.range_add, List.map_append, List.map_map, Nat.add_sub_cancel_left]
      congr 1
      refine List.map_congr_left fun i _ => ?_
      rw [Function.comp, Nat.add_assoc]
    have hk := hsplit (min s.pending s.availOut) (Nat.min_le_left ..)
    split
    · next hempty =>
      refine ⟨0, 0, _, _, by rw [← hempty], fun _ => rfl, nofun, Nat.zero_le _, ?_, ?_⟩
      · rw [hempty] at hk
        simpa [held, hempty] using hk
      · simp only [List.length_append, List.length_map, List.length_range]
        omega
    · next hrest =>
      refine ⟨_, _, _, _, rfl, fun h0 => absurd h0 hrest, fun _ => ?_, Nat.sub_le .., ?_, ?_⟩
      · omega
      · rw [← hk, ← List.append_assoc]
        rfl
      · simp only [List.length_append, List.length_map, List.length_range]
        omega

/-- A stream stops where the pending buffer does not get empty. -/
theorem Open.flushAll {st : Status} (h : Open g f st (s.todo f) s) (hstart : st ≠ .init ∧ st ≠ .gzip)
    (hindex : s.IndexOk f) (hcheck : st ≠ .busy → Hashed g s.pending s) :
    Step g f s (fun s' => Open g f st (s.todo f) s' ∧ s'.pending = 0 ∧ s'.gzindex = s.gzindex ∧
      (st ≠ .busy → Hashed g 0 s')) s.flushAll := by
  obtain ⟨p, q, a, out, heq, hp0, hp, hle, hheld, hspace⟩ := flushPending_spec h.core.outset
  obtain ⟨⟨h1, h2, h3, h4, -, h6⟩, hstatus, -⟩ := h
  have hbytes : out ++ s.flushPending.held ++ s.todo f = f.bytes := by rw [hheld, h6]
  have hadler : st ≠ .busy → Hashed g s.flushPending.pending s.flushPending := by
    intro hbusy hg
    have hcheck := hcheck hbusy hg
    rw [held_take_pending] at hcheck ⊢
    rw [heq] at hheld ⊢
    rw [hheld]
    exact hcheck
  unfold HeaderState.flushAll
  dsimp only
  rw [heq] at hbytes hadler ⊢
  split
  · next hrest =>
    refine ⟨rfl, ⟨⟨h1, h2, h3, hle.trans h4, hp0, hbytes⟩, ?_, ?_, hindex, rfl⟩, hp hrest, hspace⟩
    · rwa [← hstatus] at hstart
    · rwa [← hstatus] at hadler
  · next hempty =>
    obtain rfl : p = 0 := by simpa using hempty
    exact ⟨⟨⟨⟨h1, h2, h3, Nat.zero_le _, hp0, hbytes⟩, hstatus, hp0 rfl⟩, rfl, rfl, hadler⟩, hspace⟩

theorem Open.index {st : Status} (h : Open g f st rest s) (i : Nat) :
    Open g f st rest { s with gzindex := i } :=
  ⟨⟨h.core.head, h.core.wrap, h.core.room, h.core.fits, h.core.outset, h.core.bytes⟩, h.status,
    h.outset⟩

/-- Bytes are put, and hashed. -/
theorem Open.putHashed {st : Status} (h : Open g f st (bytes ++ rest) s) (hhash : Hashed g beg s)
    (hbeg : beg ≤ s.pending) (hfits : s.pending + bytes.length ≤ s.pendingBufSize) (i : Nat) :
    ∃ a, (s.put bytes).hcrcUpdate g beg = { s.put bytes with adler := a } ∧
      Open g f st rest { s.put bytes with adler := a, gzindex := i } ∧
      Hashed g (s.pending + bytes.length) { s.put bytes with adler := a, gzindex := i } := by
  obtain ⟨a, ha⟩ := hcrcUpdate_eq g beg (s.put bytes)
  have hupdate := (hhash.put bytes h.outset hbeg).hcrcUpdate h.outset
    (hbeg.trans (Nat.le_add_right ..))
  rw [ha] at hupdate
  exact ⟨a, ha, ((h.put hfits).adler a).index i, hupdate⟩

/-- The loop over the extra field puts what is left of it. -/
theorem extraLoop_spec {extra : List UInt8}
    (htodo : ∀ s : HeaderState, s.status = .extra → s.todo f = extra.drop s.gzindex ++ rest)
    (hindexOk : ∀ s : HeaderState, s.status = .extra → s.gzindex ≤ extra.length → s.IndexOk f)
    (fuel left : Nat) (h : Open g f .extra (extra.drop s.gzindex ++ rest) s) (hhash : Hashed g beg s)
    (hbeg : beg ≤ s.pending) (hleft : left = extra.length - s.gzindex)
    (hfuel : left + (if s.pending < s.pendingBufSize then 1 else 2) ≤ fuel) :
    Step g f s (fun s' => Open g f .extra rest s' ∧ Hashed g s'.pending s' ∧ s'.gzindex = 0)
      (extraLoop g extra fuel beg left s) := by
  induction fuel generalizing beg left s with
  | zero => split at hfuel <;> omega
  | succ fuel ih =>
    have hfits := h.core.fits
    have hroom := h.core.room
    have hlength : (extra.drop s.gzindex).length = left := by rw [List.length_drop, hleft]
    unfold extraLoop
    split
    · next hmore =>
      dsimp only
      obtain ⟨copy, hcopy⟩ : ∃ n, n = s.pendingBufSize - s.pending := ⟨_, rfl⟩
      rw [← hcopy]
      have htake : ((extra.drop s.gzindex).take copy).length = copy := by
        rw [List.length_take, hlength]
        omega
      have hsplit : extra.drop s.gzindex ++ rest =
          (extra.drop s.gzindex).take copy ++ (extra.drop (s.gzindex + copy) ++ rest) := by
        rw [← List.append_assoc, ← List.drop_drop, List.take_append_drop]
      rw [hsplit] at h
      obtain ⟨a, ha, hopen, hhashed⟩ := h.putHashed hhash hbeg (by omega) (s.gzindex + copy)
      rw [ha]
      rw [← htodo _ hopen.status] at hopen
      have hflush := hopen.flushAll (by decide)
        (hindexOk _ hopen.status (by dsimp only; omega)) fun _ => hhashed
      refine (hflush.base rfl rfl).bind fun s' hs' => ?_
      obtain ⟨hopen', hempty, hindex, hhash'⟩ := hs'
      have hindex' : s'.gzindex = s.gzindex + copy := hindex
      rw [htodo _ hopen.status] at hopen'
      refine ih _ ?_ (hhash' (by decide)) (Nat.zero_le _) ?_ ?_
      · rw [hindex']
        exact hopen'
      · rw [hindex']
        omega
      · have hroom' := hopen'.core.room
        rw [if_pos (by omega)]
        split at hfuel <;> omega
    · next hlast =>
      have htake : (extra.drop s.gzindex).take left = extra.drop s.gzindex :=
        List.take_of_length_le hlength.le
      dsimp only
      rw [htake]
      obtain ⟨a, ha, hopen, hhashed⟩ := h.putHashed hhash hbeg (by omega) 0
      rw [ha]
      exact ⟨⟨hopen, hhashed, rfl⟩, rfl⟩

/-- Room is made for a byte. -/
theorem Open.room {st : Status} (h : Open g f st (s.todo f) s)
    (hst : st ≠ .init ∧ st ≠ .gzip ∧ st ≠ .busy) (hindex : s.IndexOk f) (hhash : Hashed g beg s)
    (hbeg : beg ≤ s.pending) :
    Step g f s (fun s' => Open g f st (s.todo f) s' ∧ s'.pending < s'.pendingBufSize ∧
        s'.gzindex = s.gzindex ∧ Hashed g (if s.pending = s.pendingBufSize then 0 else beg) s' ∧
        (if s.pending = s.pendingBufSize then 0 else beg) ≤ s'.pending)
      (if s.pending = s.pendingBufSize then (s.hcrcUpdate g beg).flushAll else .ok s) := by
  split
  · next hfull =>
    have hupdate := hhash.hcrcUpdate h.outset hbeg
    obtain ⟨a, ha⟩ := hcrcUpdate_eq g beg s
    rw [ha] at hupdate ⊢
    have hflush := (h.adler a).flushAll (s := { s with adler := a }) ⟨hst.1, hst.2.1⟩ hindex
      fun _ => hupdate
    refine (hflush.base rfl rfl).mono fun s' hs' => ?_
    obtain ⟨hopen, hempty, hindex, hhash'⟩ := hs'
    have hroom := hopen.core.room
    exact ⟨hopen, by omega, hindex, hhash' hst.2.2, Nat.zero_le _⟩
  · next hroom =>
    have hfits := h.core.fits
    exact ⟨⟨h, by omega, rfl, hhash, hbeg⟩, rfl⟩

/-- The loop over a string puts the bytes that are left, and the zero. -/
theorem stringLoop_spec {data : List UInt8} {st : Status}
    (hst : st ≠ .init ∧ st ≠ .gzip ∧ st ≠ .busy)
    (htodo : ∀ s : HeaderState, s.status = st → s.todo f = data.drop s.gzindex ++ rest)
    (hindexOk : ∀ s : HeaderState, s.status = st → s.gzindex ≤ data.length - 1 → s.IndexOk f)
    (string : List UInt8) (hzero : 0 ∉ string) (hdata : data.drop s.gzindex = string ++ [0])
    (h : Open g f st (string ++ [0] ++ rest) s) (hhash : Hashed g beg s) (hbeg : beg ≤ s.pending) :
    Step g f s (fun s' => Open g f st rest s' ∧ Hashed g s'.pending s')
      (stringLoop g beg (string ++ [0]) s) := by
  have hindex : s.IndexOk f := by
    apply hindexOk s h.status
    have hlength := congrArg List.length hdata
    rw [List.length_drop, List.length_append, List.length_singleton] at hlength
    omega
  induction string generalizing beg s with
  | nil =>
    rw [List.nil_append] at hdata h ⊢
    rw [← hdata, ← htodo s h.status] at h
    unfold stringLoop
    refine (h.room hst hindex hhash hbeg).bind fun s' hs' => ?_
    obtain ⟨hopen, hroom, -, hhash', hbeg'⟩ := hs'
    rw [htodo s h.status, hdata] at hopen
    obtain ⟨a, ha, hopen', hhash''⟩ := (hopen.index (s'.gzindex + 1)).putHashed
      (s := { s' with gzindex := s'.gzindex + 1 }) hhash' hbeg' hroom (s'.gzindex + 1)
    simp only [ne_eq, not_true_eq_false, if_false]
    rw [ha]
    exact ⟨⟨hopen', hhash''⟩, rfl⟩
  | cons val string ih =>
    obtain ⟨hne, hzero⟩ : val ≠ 0 ∧ 0 ∉ string := by
      rw [List.mem_cons, not_or] at hzero
      exact ⟨Ne.symm hzero.1, hzero.2⟩
    have hopened := h
    rw [← hdata, ← htodo s h.status] at hopened
    rw [List.cons_append]
    unfold stringLoop
    refine (hopened.room hst hindex hhash hbeg).bind fun s' hs' => ?_
    obtain ⟨hopen, hroom, hindex', hhash', hbeg'⟩ := hs'
    rw [htodo s h.status, hdata] at hopen
    have hval : Open g f st ([val] ++ (string ++ [0] ++ rest)) { s' with gzindex := s'.gzindex + 1 } :=
      hopen.index _
    have hput := hval.put hroom
    have hhashed : Hashed g (if s.pending = s.pendingBufSize then 0 else beg)
        ({ s' with gzindex := s'.gzindex + 1 }.put [val]) :=
      Hashed.put (s := { s' with gzindex := s'.gzindex + 1 }) [val] hhash' hopen.outset hbeg'
    dsimp only
    rw [if_pos hne]
    have hdata' : data.drop (s'.gzindex + 1) = string ++ [0] := by
      rw [hindex', ← List.drop_drop, hdata]
      rfl
    refine (ih hzero hdata' hput hhashed (hbeg'.trans (Nat.le_add_right ..)) ?_).base rfl rfl
    apply hindexOk _ hput.status
    have hlength := congrArg List.length hdata'
    rw [List.length_drop, List.length_append, List.length_singleton] at hlength
    change s'.gzindex + 1 ≤ _
    omega

/-- A stream at the beginning of a state of the gzip header: what is held is hashed. -/
structure At (g : GzHead) (f : Gzip.Fields) (st : Status) (s : HeaderState) : Prop where
  opened : Open g f st (s.todo f) s
  index : s.IndexOk f
  hashed : Hashed g s.pending s

section States
variable {xflags : Nat}

/-- The next state begins with its own field. -/
theorem At.next {st st' : Status} {rest : List UInt8} {s : HeaderState} (h : Open g f st rest s)
    (hhash : Hashed g s.pending s) (htodo : { s with status := st' }.todo f = rest)
    (hindex : { s with status := st' }.IndexOk f) : At g f st' { s with status := st' } := by
  refine ⟨⟨⟨h.core.head, h.core.wrap, h.core.room, h.core.fits, h.core.outset, ?_⟩, rfl, h.outset⟩,
    hindex, hhash⟩
  rw [htodo]
  exact h.core.bytes

theorem At.extraState (hg : g.Ok) (h : At g (g.fields xflags) .extra s) :
    Step g (g.fields xflags) s (At g (g.fields xflags) .name) s.extraState := by
  obtain ⟨hopen, hindex, hhash⟩ := h
  have hstatus := hopen.status
  have hnext : ∀ s' : HeaderState, Open g (g.fields xflags) .extra
      ((g.fields xflags).nameData ++ ((g.fields xflags).commentData ++ (g.fields xflags).checkData)) s' →
      Hashed g s'.pending s' → s'.gzindex = 0 → At g (g.fields xflags) .name { s' with status := .name } := by
    intro s' ho hh h0
    refine At.next ho hh ?_ ?_
    · simp only [todo, h0, List.drop_zero]
    · simp only [IndexOk, h0]
      exact Nat.zero_le _
  unfold HeaderState.extraState
  rw [hstatus, hopen.core.head]
  dsimp only
  simp only [IndexOk, hstatus] at hindex
  cases he : g.extra with
  | none =>
    have h0 : s.gzindex = 0 := by simpa [Gzip.Fields.extraData, GzHead.fields, he] using hindex
    refine ⟨hnext s ?_ hhash h0, rfl⟩
    simp only [todo, hstatus] at hopen
    simpa [Gzip.Fields.extraData, GzHead.fields, he] using hopen
  | some extra =>
    have hlen := hg.extra extra he
    have hdata : (g.fields xflags).extraData = extra := by
      simp [Gzip.Fields.extraData, GzHead.fields, he]
    have hmod : extra.length % 2 ^ 16 = extra.length := Nat.mod_eq_of_lt (by omega)
    dsimp only
    rw [hmod]
    refine (extraLoop_spec (f := g.fields xflags) (fun s hs => ?_) (fun s hs hle => ?_) _ _ ?_ ?_ le_rfl rfl ?_).bind
      fun s' hs' => ⟨hnext s' hs'.1 hs'.2.1 hs'.2.2, rfl⟩
    · simp only [todo, hs, hdata]
    · simp only [IndexOk, hs, hdata]
      exact hle
    · simp only [todo, hstatus, hdata] at hopen
      exact hopen
    · exact hhash
    · split <;> omega

/-- The strings are put alike. -/
theorem At.string {st : Status} (string : Option (List UInt8)) (rest : List UInt8)
    (hzero : ∀ n, string = some n → 0 ∉ n) (hst : st ≠ .init ∧ st ≠ .gzip ∧ st ≠ .busy)
    (htodo : ∀ s : HeaderState, s.status = st →
      s.todo f = (string.elim [] (· ++ [0])).drop s.gzindex ++ rest)
    (hindexOk : ∀ s : HeaderState, s.status = st →
      (s.IndexOk f ↔ s.gzindex ≤ (string.elim [] (· ++ [0])).length - 1)) (h : At g f st s) :
    Step g f s (fun s' => Open g f st rest s' ∧ Hashed g s'.pending s' ∧ (string = none → s'.gzindex = 0))
      (match string with
        | none => .ok s
        | some n => stringLoop g s.pending ((n ++ [0]).drop s.gzindex) s) := by
  obtain ⟨hopen, hindex, hhash⟩ := h
  have hstatus := hopen.status
  rw [hindexOk s hstatus] at hindex
  rw [htodo s hstatus] at hopen
  cases string with
  | none =>
    have h0 : s.gzindex = 0 := by simpa using hindex
    refine ⟨⟨?_, hhash, fun _ => h0⟩, rfl⟩
    simpa using hopen
  | some n =>
    simp only [Option.elim_some] at hindex hopen htodo hindexOk ⊢
    have hle : s.gzindex ≤ n.length := by simpa using hindex
    have hdrop : (n ++ [0]).drop s.gzindex = n.drop s.gzindex ++ [0] :=
      List.drop_append_of_le_length hle
    rw [hdrop] at hopen ⊢
    have hloop := stringLoop_spec hst htodo (fun s hs => (hindexOk s hs).mpr) (n.drop s.gzindex)
      (fun hmem => hzero n rfl (List.mem_of_mem_drop hmem)) hdrop hopen hhash le_rfl
    exact hloop.mono fun s' hs' => ⟨hs'.1, hs'.2, nofun⟩

theorem At.nameState (hg : g.Ok) (h : At g (g.fields xflags) .name s) :
    Step g (g.fields xflags) s (At g (g.fields xflags) .comment) s.nameState := by
  have hstring := h.string g.name ((g.fields xflags).commentData ++ (g.fields xflags).checkData)
    hg.name (by decide)
    (fun s hs => by simp only [todo, hs]; rfl) (fun s hs => by simp only [IndexOk, hs]; rfl)
  have hnext : ∀ s' : HeaderState, Open g (g.fields xflags) .name
      ((g.fields xflags).commentData ++ (g.fields xflags).checkData) s' →
      Hashed g s'.pending s' → s'.gzindex = 0 →
      At g (g.fields xflags) .comment { s' with status := .comment } := by
    intro s' ho hh h0
    refine At.next ho hh ?_ ?_
    · simp only [todo, h0, List.drop_zero]
    · simp only [IndexOk, h0]
      exact Nat.zero_le _
  unfold HeaderState.nameState
  rw [h.opened.status, h.opened.core.head]
  dsimp only
  cases hn : g.name with
  | none =>
    rw [hn] at hstring
    obtain ⟨⟨hopen, hhash, h0⟩, -⟩ := hstring
    exact ⟨hnext s hopen hhash (h0 rfl), rfl⟩
  | some name =>
    rw [hn] at hstring
    refine hstring.bind fun s' hs' => ?_
    exact ⟨hnext { s' with gzindex := 0 } (hs'.1.index 0) hs'.2.1 rfl, rfl⟩

theorem At.commentState (hg : g.Ok) (h : At g (g.fields xflags) .comment s) :
    Step g (g.fields xflags) s (At g (g.fields xflags) .hcrc) s.commentState := by
  have hstring := h.string g.comment (g.fields xflags).checkData hg.comment (by decide)
    (fun s hs => by simp only [todo, hs]; rfl) (fun s hs => by simp only [IndexOk, hs]; rfl)
  unfold HeaderState.commentState
  rw [h.opened.status, h.opened.core.head]
  dsimp only
  cases hn : g.comment with
  | none =>
    rw [hn] at hstring
    obtain ⟨⟨hopen, hhash, -⟩, -⟩ := hstring
    exact ⟨At.next hopen hhash rfl trivial, rfl⟩
  | some comment =>
    rw [hn] at hstring
    exact hstring.bind fun s' hs' => ⟨At.next hs'.1 hs'.2.1 rfl trivial, rfl⟩

/-- The header is written whole. -/
def Whole (f : Gzip.Fields) (s : HeaderState) : Prop := s.out = f.bytes ∧ s.pending = 0

theorem At.hcrcState (h : At g (g.fields xflags) .hcrc s) :
    Step g (g.fields xflags) s (Whole (g.fields xflags)) s.hcrcState := by
  obtain ⟨hopen, hindex, hhash⟩ := h
  have hstatus := hopen.status
  have hbytes := hopen.core.bytes
  simp only [todo, hstatus] at hopen hbytes
  have hfront : s.out ++ s.held = (g.fields xflags).front := List.append_cancel_right hbytes
  -- what follows once the check value is put
  have hlast : ∀ s' : HeaderState, Open g (g.fields xflags) .hcrc [] s' →
      Step g (g.fields xflags) s' (Whole (g.fields xflags)) { s' with status := .busy }.flushAll := by
    intro s' ho
    have hbusy : Open g (g.fields xflags) .busy [] { s' with status := .busy } :=
      ⟨⟨ho.core.head, ho.core.wrap, ho.core.room, ho.core.fits, ho.core.outset, ho.core.bytes⟩, rfl,
        ho.outset⟩
    have hflush := Open.flushAll (s := { s' with status := .busy }) hbusy (by decide) trivial
      (fun hne => absurd rfl hne)
    refine (hflush.base rfl rfl).mono fun s'' hs'' => ⟨?_, hs''.2.1⟩
    have hheld : s''.held = [] := by
      rw [← List.length_eq_zero_iff, length_held]
      exact hs''.2.1
    have hall := hs''.1.core.bytes
    rw [hheld] at hall
    simpa [todo] using hall
  unfold HeaderState.hcrcState
  rw [hstatus, hopen.core.head]
  dsimp only
  split
  · next hcrc =>
    have hcheck : (g.fields xflags).checkData =
        leBytes (crc32 crc32InitialValue (g.fields xflags).front) 2 := by
      unfold Gzip.Fields.checkData
      exact if_pos (by simpa [GzHead.fields] using hcrc)
    -- room is made, and the value of the bytes so far is put
    have hput : ∀ s' : HeaderState, Open g (g.fields xflags) .hcrc (g.fields xflags).checkData s' →
        Hashed g s'.pending s' → s'.pending + 2 ≤ s'.pendingBufSize →
        Open g (g.fields xflags) .hcrc [] { s'.put (leBytes s'.adler 2) with adler := crc32InitialValue } := by
      intro s' ho hh hroom
      have hfront' : s'.out ++ s'.held = (g.fields xflags).front := List.append_cancel_right ho.core.bytes
      have hadler := hh hcrc
      rw [held_take_pending, hfront'] at hadler
      rw [hcheck, ← hadler, ← List.append_nil (leBytes _ _)] at ho
      exact (ho.put (by rwa [length_leBytes])).adler _
    have hroom : Step g (g.fields xflags) s (fun s' =>
        Open g (g.fields xflags) .hcrc (g.fields xflags).checkData s' ∧ Hashed g s'.pending s' ∧
          s'.pending + 2 ≤ s'.pendingBufSize)
        (if s.pendingBufSize < s.pending + 2 then s.flushAll else .ok s) := by
      split
      · next hfull =>
        have htodo : s.todo (g.fields xflags) = (g.fields xflags).checkData := by simp only [todo, hstatus]
        rw [← htodo] at hopen
        have hflush := hopen.flushAll (by decide) hindex fun _ => hhash
        rw [htodo] at hflush
        refine hflush.mono fun s' hs' => ?_
        obtain ⟨ho, hempty, -, hh⟩ := hs'
        have hsize := ho.core.room
        rw [hempty]
        exact ⟨ho, hh (by decide), by omega⟩
      · next hroom => exact ⟨⟨hopen, hhash, by omega⟩, rfl⟩
    refine hroom.bind fun s' hs' => ?_
    obtain ⟨ho, hh, hsize⟩ := hs'
    exact (hlast _ (hput s' ho hh hsize)).base rfl rfl
  · next hcrc =>
    have hnone : (g.fields xflags).checkData = [] := by
      unfold Gzip.Fields.checkData
      exact if_neg (by simpa [GzHead.fields] using hcrc)
    rw [hnone] at hopen
    exact hlast s hopen

/-- A stream whose header is not begun. -/
structure Fresh (g : GzHead) (xflags : Nat) (s : HeaderState) : Prop where
  status : s.status = .gzip
  wrap : s.wrap = 2
  head : s.gzhead = some g
  flags : s.gzipFlags = xflags
  room : 12 ≤ s.pendingBufSize
  pending : s.pending = 0
  outset : s.pendingOut = 0
  out : s.out = []

theorem fixed_eq (g : GzHead) (xflags : Nat) : (g.fields xflags).fixed =
    [31, 139, 8] ++ ([UInt8.ofNat (Gzip.flagByte (g.text ≠ 0) (g.hcrc ≠ 0) g.extra.isSome
      g.name.isSome g.comment.isSome)] ++ (leBytes g.time 4 ++ ([UInt8.ofNat xflags] ++
        [UInt8.ofNat (g.os &&& 0xff)]))) := by
  have hos : g.os % 256 = g.os &&& 0xff := (Nat.and_two_pow_sub_one_eq_mod g.os 8).symm
  unfold Gzip.Fields.fixed
  rw [Gzip.Fields.leBytes_flagWord]
  simp only [GzHead.fields, Gzip.Fields.flag, leBytes_mod g.time 4, hos, List.cons_append,
    List.nil_append]

/-- The fields of fixed length fit into the pending buffer. -/
theorem Open.putFields {tail : List UInt8} (h : Open g (g.fields xflags) .gzip
      ([UInt8.ofNat (Gzip.flagByte (g.text ≠ 0) (g.hcrc ≠ 0) g.extra.isSome g.name.isSome
        g.comment.isSome)] ++ (leBytes g.time 4 ++ ([UInt8.ofNat xflags] ++
          ([UInt8.ofNat (g.os &&& 0xff)] ++ ((g.fields xflags).extraLength ++ tail))))) s)
    (hflags : s.gzipFlags = xflags) (hpending : s.pending = 3) :
    Open g (g.fields xflags) .gzip tail (s.putFields g) ∧
      ((s.putFields g).adler, (s.putFields g).out, (s.putFields g).availOut) =
        (s.adler, s.out, s.availOut) := by
  have hroom := h.core.room
  have h1 := h.put (by simp only [hpending, List.length_singleton]; omega)
  have h2 := h1.put (by simp only [HeaderState.put, hpending, List.length_singleton, length_leBytes]; omega)
  have h3 := h2.put (by simp only [HeaderState.put, hpending, List.length_singleton, length_leBytes]; omega)
  have h4 := h3.put (by simp only [HeaderState.put, hpending, List.length_singleton, length_leBytes]; omega)
  unfold HeaderState.putFields
  dsimp only
  have hsame : ∀ b c : List UInt8, ((s.put b).put c).gzipFlags = xflags := fun b c => hflags
  rw [hsame]
  cases he : g.extra with
  | none =>
    rw [Gzip.Fields.extraLength, show (g.fields xflags).extra = none from he] at h4
    rw [he] at h4
    exact ⟨h4, rfl⟩
  | some extra =>
    rw [Gzip.Fields.extraLength, show (g.fields xflags).extra = some extra from he,
      Option.elim_some] at h4
    rw [he] at h4
    have hfits : 3 + 1 + 4 + 1 + 1 + 2 ≤ s.pendingBufSize := by omega
    constructor
    · apply h4.put
      simp only [HeaderState.put, hpending, List.length_singleton, length_leBytes]
      exact hfits
    · simp only [HeaderState.put]

/-- The first part of the header fits into the pending buffer. -/
theorem Fresh.gzipHeader (h : Fresh g xflags s) :
    Step g (g.fields xflags) s (At g (g.fields xflags) .extra) s.gzipHeader := by
  obtain ⟨hstatus, hwrap, hhead, hflags, hroom, hpending, hout, hnone⟩ := h
  have hheld : s.held = [] := by
    rw [← List.length_eq_zero_iff, length_held]
    exact hpending
  obtain ⟨tail, htail⟩ : ∃ l, l = (g.fields xflags).extraData ++ ((g.fields xflags).nameData ++
      ((g.fields xflags).commentData ++ (g.fields xflags).checkData)) := ⟨_, rfl⟩
  have hbytes : (g.fields xflags).bytes =
      (g.fields xflags).fixed ++ ((g.fields xflags).extraLength ++ tail) := by
    rw [htail, Gzip.Fields.bytes, Gzip.Fields.front]
    simp only [List.append_assoc]
  have hopen : Open g (g.fields xflags) .gzip (g.fields xflags).bytes
      { s with adler := crc32InitialValue } := by
    refine ⟨⟨hhead, hwrap, hroom, ?_, fun _ => hout, ?_⟩, hstatus, hout⟩
    · dsimp only
      omega
    · change s.out ++ s.held ++ _ = _
      rw [hnone, hheld]
      rfl
  rw [hbytes, fixed_eq] at hopen
  simp only [List.append_assoc] at hopen
  have hmagic := hopen.put (by simp only [hpending, List.length_cons, List.length_nil]; omega)
  obtain ⟨ho, hsame⟩ := hmagic.putFields hflags (by
    simp only [HeaderState.put, hpending, List.length_cons, List.length_nil])
  unfold HeaderState.gzipHeader
  rw [if_pos hstatus]
  dsimp only
  rw [show (HeaderState.put [31, 139, 8] { s with adler := crc32InitialValue }).gzhead = some g from hhead]
  dsimp only
  generalize (HeaderState.put [31, 139, 8] { s with adler := crc32InitialValue }).putFields g = s₆ at ho hsame
  simp only [HeaderState.put, hnone, Prod.mk.injEq] at hsame
  obtain ⟨ha, hn, havail⟩ := hsame
  have hspace : s₆.out.length + s₆.availOut = s.out.length + s.availOut := by rw [hn, havail, hnone]
  have hat : ∀ a, (g.hcrc ≠ 0 → a = crc32 s₆.adler (s₆.pendingFrom 0)) →
      At g (g.fields xflags) .extra { s₆ with adler := a, gzindex := 0, status := .extra } := by
    intro a hcheck
    refine At.next ((ho.adler a).index 0) ?_ ?_ ?_
    · intro hcrc
      change a = crc32 _ (s₆.out ++ s₆.held.take s₆.pending)
      rw [hcheck hcrc, pendingFrom_eq ho.outset, ha, hn, List.drop_zero, held_take_pending]
      rfl
    · rw [htail]
      simp only [todo, List.drop_zero]
    · simp only [IndexOk]
      exact Nat.zero_le _
  split
  · next hcrc => exact ⟨hat _ fun _ => rfl, hspace⟩
  · next hcrc => exact ⟨hat s₆.adler fun h => absurd h hcrc, hspace⟩

theorem zlibHeader_skip (h : s.status ≠ .init) : s.zlibHeader = .ok s := if_neg h

theorem gzipHeader_skip (h : s.status ≠ .gzip) : s.gzipHeader = .ok s := if_neg h

theorem extraState_skip (h : s.status ≠ .extra) : s.extraState = .ok s := by
  unfold HeaderState.extraState
  split
  · next hs _ => exact absurd hs h
  · rfl

theorem nameState_skip (h : s.status ≠ .name) : s.nameState = .ok s := by
  unfold HeaderState.nameState
  split
  · next hs _ => exact absurd hs h
  · rfl

theorem commentState_skip (h : s.status ≠ .comment) : s.commentState = .ok s := by
  unfold HeaderState.commentState
  split
  · next hs _ => exact absurd hs h
  · rfl

/-- From where it stopped, `deflateHeaders` goes on to the end of the header. -/
theorem At.deflateHeaders (hg : g.Ok) {st : Status} (h : At g (g.fields xflags) st s)
    (hst : st = .extra ∨ st = .name ∨ st = .comment ∨ st = .hcrc) :
    Step g (g.fields xflags) s (Whole (g.fields xflags)) s.deflateHeaders := by
  have hstatus := h.opened.status
  have hok : ∀ (k : HeaderState → HeaderStep) (s : HeaderState), (Except.ok s >>= k) = k s := fun _ _ => rfl
  have hcomment : ∀ s, At g (g.fields xflags) .comment s →
      Step g (g.fields xflags) s (Whole (g.fields xflags)) (s.commentState >>= fun s => s.hcrcState) :=
    fun s h => (h.commentState hg).bind fun s h => h.hcrcState
  have hname : ∀ s, At g (g.fields xflags) .name s → Step g (g.fields xflags) s (Whole (g.fields xflags))
      (s.nameState >>= fun s => s.commentState >>= fun s => s.hcrcState) :=
    fun s h => (h.nameState hg).bind hcomment
  unfold HeaderState.deflateHeaders
  rcases hst with rfl | rfl | rfl | rfl
  · rw [zlibHeader_skip (by rw [hstatus]; decide), hok, gzipHeader_skip (by rw [hstatus]; decide), hok]
    exact (h.extraState hg).bind hname
  · rw [zlibHeader_skip (by rw [hstatus]; decide), hok, gzipHeader_skip (by rw [hstatus]; decide), hok,
      extraState_skip (by rw [hstatus]; decide), hok]
    exact hname s h
  · rw [zlibHeader_skip (by rw [hstatus]; decide), hok, gzipHeader_skip (by rw [hstatus]; decide), hok,
      extraState_skip (by rw [hstatus]; decide), hok, nameState_skip (by rw [hstatus]; decide), hok]
    exact hcomment s h
  · rw [zlibHeader_skip (by rw [hstatus]; decide), hok, gzipHeader_skip (by rw [hstatus]; decide), hok,
      extraState_skip (by rw [hstatus]; decide), hok, nameState_skip (by rw [hstatus]; decide), hok,
      commentState_skip (by rw [hstatus]; decide), hok]
    exact h.hcrcState

theorem Fresh.deflateHeaders (hg : g.Ok) (h : Fresh g xflags s) :
    Step g (g.fields xflags) s (Whole (g.fields xflags)) s.deflateHeaders := by
  unfold HeaderState.deflateHeaders
  rw [zlibHeader_skip (by rw [h.status]; decide)]
  refine h.gzipHeader.bind fun s' hs' => ?_
  have hnext := hs'.deflateHeaders hg (.inl rfl)
  unfold HeaderState.deflateHeaders at hnext
  rw [zlibHeader_skip (by rw [hs'.opened.status]; decide)] at hnext
  change Step _ _ _ _ (s'.gzipHeader >>= _) at hnext
  rw [gzipHeader_skip (by rw [hs'.opened.status]; decide)] at hnext
  exact hnext

/-- A stream between calls, before compression. -/
def Begun (g : GzHead) (xflags : Nat) (s : HeaderState) : Prop :=
  (Fresh g xflags s ∧ s.lastFlush = -2) ∨ Writing g (g.fields xflags) s

/-- What is written is a part of the header. -/
theorem Begun.written (h : Begun g xflags s) : s.out <+: (g.fields xflags).bytes := by
  rcases h with ⟨h, -⟩ | h
  · rw [h.out]
    exact List.nil_prefix
  · have hbytes := h.core.bytes
    rw [List.append_assoc] at hbytes
    exact ⟨_, hbytes⟩

theorem rankOf_flush (flush : Flush) : 0 ≤ rankOf (flushCode flush) := by
  cases flush <;> decide

/-- The output of a call, as far as it has come. -/
def Called (g : GzHead) (xflags n : Nat) : Option Ret × HeaderState → Prop
  | (some _, s) => Begun g xflags s ∧ s.out.length = n
  | (none, s) => Whole (g.fields xflags) s

theorem Step.called {n : Nat} {x : HeaderStep} (h : Step g (g.fields xflags) s (Whole (g.fields xflags)) x)
    (hn : s.out.length + s.availOut = n) : Called g xflags n (HeaderStep.outcome x) := by
  cases x with
  | error s' =>
    obtain ⟨hret, hw, h0, hspace⟩ := h
    rw [HeaderStep.outcome, hret]
    exact ⟨.inr hw, by omega⟩
  | ok s' => exact h.1

theorem writeHeader_eq (h : s.status ≠ .init) (hw : s.wrap = 2) :
    s.writeHeader = if s.status = .busy then (none, s) else HeaderStep.outcome s.deflateHeaders := by
  have hskip : (if s.status = .init ∧ s.wrap = 0 then { s with status := .busy } else s) = s :=
    if_neg fun hne => h hne.1
  unfold writeHeader
  dsimp only
  rw [hskip]
  split
  · next hdue => rw [if_neg hdue.1]
  · next hdue =>
    rw [if_pos]
    by_contra hne
    exact hdue ⟨hne, by rw [hw]; decide⟩

theorem Fresh.called {n : Nat} (hg : g.Ok) (h : Fresh g xflags s)
    (hn : s.out.length + s.availOut = n) : Called g xflags n s.writeHeader := by
  rw [writeHeader_eq (by rw [h.status]; decide) h.wrap, if_neg (by rw [h.status]; decide)]
  exact (h.deflateHeaders hg).called hn

/-- A call of `deflate` fills the output space or finishes the header. -/
theorem Begun.deflate (hg : g.Ok) (h : Begun g xflags s) {flush : Flush} (hflush : flush ≠ .trees)
    (availIn availOut : Nat) :
    Called g xflags (s.out.length + availOut) (s.deflate flush availIn availOut) := by
  have hrank := rankOf_flush flush
  unfold HeaderState.deflate
  dsimp only
  rw [if_neg hflush]
  by_cases h0 : availOut = 0
  · rw [if_pos h0]
    refine ⟨?_, by rw [h0]; rfl⟩
    rcases h with ⟨⟨h1, h2, h3, h4, h5, h6, h7, h8⟩, h9⟩ | ⟨⟨h1, h2, h3, h4, h5, h6⟩, hs, hc, hi, hl⟩
    · exact .inl ⟨⟨h1, h2, h3, h4, h5, h6, h7, h8⟩, h9⟩
    · exact .inr ⟨⟨h1, h2, h3, h4, h5, h6⟩, hs, hc, hi, hl⟩
  rw [if_neg h0]
  rcases h with ⟨h, hlast⟩ | h
  · have hpending := h.pending
    have hrank' : ¬ (s.pending = 0 ∧ availIn = 0 ∧ rankOf (flushCode flush) ≤ rankOf s.lastFlush ∧
        flush ≠ .finish) := by
      rintro ⟨-, -, hle, -⟩
      rw [hlast] at hle
      exact absurd (hrank.trans hle) (by decide)
    rw [if_neg (fun hne => hne.1 hpending), if_neg hrank', if_neg (not_not.mpr hpending)]
    obtain ⟨h1, h2, h3, h4, h5, h6, h7, h8⟩ := h
    have hfresh : Fresh g xflags { s with availOut := availOut, lastFlush := flushCode flush } :=
      ⟨h1, h2, h3, h4, h5, h6, h7, h8⟩
    refine Fresh.called hg hfresh ?_
    rfl
  · -- what is held goes out first
    obtain ⟨p, q, a, out, heq, hp0, hp, hle, hheld, hspace⟩ :=
      flushPending_spec (s := { s with availOut := availOut, lastFlush := flushCode flush }) h.core.outset
    obtain ⟨⟨h1, h2, h3, h4, h5, h6⟩, hs, hc, hi, hl⟩ := h
    have hresume : ∀ s' : HeaderState, s'.status = s.status → s'.gzindex = s.gzindex →
        Core g (g.fields xflags) (s.todo (g.fields xflags)) s' → s'.pending = 0 →
        (s.status ≠ .busy → Hashed g s'.pending s') →
        s'.out.length + s'.availOut = s.out.length + availOut →
        Called g xflags (s.out.length + availOut) s'.writeHeader := by
      intro s' hstatus hindex hcore hempty hhash hn
      have htodo : s'.todo (g.fields xflags) = s.todo (g.fields xflags) := by
        simp only [todo, hstatus, hindex]
      have hindexOk : s'.IndexOk (g.fields xflags) := by
        simp only [IndexOk, hstatus, hindex] at hi ⊢
        exact hi
      rw [writeHeader_eq (fun hne => hs.1 (hstatus ▸ hne)) hcore.wrap]
      by_cases hbusy : s.status = .busy
      · rw [if_pos (hstatus.trans hbusy)]
        refine ⟨?_, hempty⟩
        have hheld : s'.held = [] := by
          rw [← List.length_eq_zero_iff, length_held]
          exact hempty
        have hbytes := hcore.bytes
        simp only [todo, hbusy, hheld, List.append_nil] at hbytes
        exact hbytes
      · rw [if_neg (fun hne => hbusy (hstatus ▸ hne))]
        have hat : At g (g.fields xflags) s.status s' :=
          ⟨⟨by rw [htodo]; exact hcore, hstatus, hcore.outset hempty⟩, hindexOk, hhash hbusy⟩
        refine (hat.deflateHeaders hg ?_).called hn
        generalize s.status = st at hs hbusy
        cases st <;> simp at hs hbusy ⊢
    have hrank' : ¬ (s.pending = 0 ∧ availIn = 0 ∧ rankOf (flushCode flush) ≤ rankOf s.lastFlush ∧
        flush ≠ .finish) := by
      rintro ⟨-, -, hle, -⟩
      rw [hl] at hle
      exact absurd (hrank.trans hle) (by decide)
    by_cases hpending : s.pending = 0
    · rw [if_neg (not_not.mpr hpending), if_neg (fun hne => hne.1 hpending), if_neg hrank']
      refine hresume { s with availOut := availOut, lastFlush := flushCode flush } rfl rfl
        ⟨h1, h2, h3, h4, h5, h6⟩ hpending (fun hb => ?_) rfl
      exact hc hb
    · have hbytes : out ++ (HeaderState.flushPending
          { s with availOut := availOut, lastFlush := flushCode flush }).held ++
            s.todo (g.fields xflags) = (g.fields xflags).bytes := by
        rw [hheld]
        exact h6
      rw [if_pos hpending]
      have hcheck : s.status ≠ .busy → Hashed g (HeaderState.flushPending
          { s with availOut := availOut, lastFlush := flushCode flush }).pending
            (HeaderState.flushPending { s with availOut := availOut, lastFlush := flushCode flush }) := by
        intro hb hcrc
        have hvalue := hc hb hcrc
        rw [held_take_pending] at hvalue ⊢
        rw [heq] at hheld ⊢
        rw [hheld]
        exact hvalue
      rw [heq] at hbytes hcheck ⊢
      have hfits : p ≤ s.pendingBufSize := le_trans hle h4
      split
      · next hfull =>
        refine ⟨.inr ⟨⟨h1, h2, h3, hfits, hp0, hbytes⟩, hs, hcheck, hi, rfl⟩, ?_⟩
        have ha : a = 0 := hfull.2
        rw [ha] at hspace
        exact hspace
      · next hroom =>
        have hempty : p = 0 := by
          by_contra hne
          exact hroom ⟨hpending, hp hne⟩
        exact hresume _ rfl rfl ⟨h1, h2, h3, hfits, hp0, hbytes⟩ hempty hcheck hspace

/-- The streams that calls lead to, before compression. -/
theorem Written.begun (hg : g.Ok) (h : Begun g xflags s₀) (hw : Written s₀ s) : Begun g xflags s := by
  induction hw with
  | start => exact h
  | @call s s' flush availIn availOut ret _ hcall ih =>
    by_cases hflush : flush = .trees
    · unfold HeaderState.deflate at hcall
      dsimp only at hcall
      rw [if_pos hflush] at hcall
      obtain ⟨-, rfl⟩ := Prod.mk.inj hcall
      rcases ih with ⟨⟨h1, h2, h3, h4, h5, h6, h7, h8⟩, h9⟩ | ⟨⟨h1, h2, h3, h4, h5, h6⟩, hs, hc, hi, hl⟩
      · exact .inl ⟨⟨h1, h2, h3, h4, h5, h6, h7, h8⟩, h9⟩
      · exact .inr ⟨⟨h1, h2, h3, h4, h5, h6⟩, hs, hc, hi, hl⟩
    · have hcalled := ih.deflate hg hflush availIn availOut
      rw [hcall] at hcalled
      exact hcalled.1

theorem start_begun (buf : Nat → UInt8) (memLevel level strategy wBits : Nat) (g : GzHead) :
    Begun g (start buf memLevel level strategy wBits g).gzipFlags
      (start buf memLevel level strategy wBits g) := by
  refine .inl ⟨⟨rfl, rfl, rfl, rfl, ?_, rfl, rfl, rfl⟩, rfl⟩
  have hpow : 2 ^ 6 ≤ 2 ^ (memLevel + 6) := Nat.pow_le_pow_right (by decide) (Nat.le_add_left ..)
  change 12 ≤ 2 ^ (memLevel + 6) * 4
  omega

end States
end HeaderState
end ZlibNg
