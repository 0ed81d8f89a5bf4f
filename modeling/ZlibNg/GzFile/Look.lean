import ZlibNg.GzFile.Unget

/-! Looking for a gzip header early, as `gzungetc` does, makes no difference to what is delivered. -/
namespace ZlibNg

namespace GzSource
variable {φ : Type} {io : GzCalls φ} {s : GzSource φ}

/-- Nothing is left to be delivered: only `gz_load` while copying reads on at the end of a file. -/
def Dry (s : GzSource φ) : Prop := s.AtEnd ∧ s.how ≠ .copy

/-- What `gz_look` leaves. -/
inductive LookSpec (f : Fetched φ) : Prop
  | failed (hok : f.ok = false) (hbad : ¬ f.src.Fine) (havail : f.avail = [])
  | ended (hok : f.ok = true) (hhow : f.src.how = .look) (havail : f.avail = [])
      (hend : f.src.AtEnd)
  | raw (hok : f.ok = true) (hhow : f.src.how = .copy) (havail : f.avail ≠ [])
  | header (hok : f.ok = true) (hhow : f.src.how = .gzip) (havail : f.avail = [])

theorem fine_of_err (err : Int) (h : s.err = err) (hne : err ≠ zOk ∧ err ≠ zBufError) : ¬ s.Fine := by
  rintro (hok | hbuf)
  · exact hne.1 (h.symm.trans hok)
  · exact hne.2 (h.symm.trans hbuf)

/-- Loading touches neither the input nor the sizes, and it ends without a byte at the end of the
file only. -/
theorem gzLoad_spec {len : Nat} {got : List UInt8} {f : Fetched φ}
    (h : gzLoad io len s got = some f) :
    f.src.how = s.how ∧ f.src.size = s.size ∧
      (f.ok = true → f.avail = [] → f.src.eof = true) ∧
      (f.ok = false → ¬ f.src.Fine ∧ f.avail = []) := by
  refine gzLoad.partial_correctness io len (fun s _ f => f.src.how = s.how ∧ f.src.size = s.size ∧
    (f.ok = true → f.avail = [] → f.src.eof = true) ∧
    (f.ok = false → ¬ f.src.Fine ∧ f.avail = [])) ?_ s got f h
  intro load ih s got f hf
  split at hf
  · cases hf
    exact ⟨rfl, rfl, fun hok => Bool.noConfusion hok,
      fun _ => ⟨fine_of_err zErrno rfl (by decide), rfl⟩⟩
  · cases hf
    exact ⟨rfl, rfl, fun _ _ => rfl, fun hok => Bool.noConfusion hok⟩
  · split at hf
    · obtain ⟨hhow, hsize, hempty, hbad⟩ := ih _ _ _ hf
      exact ⟨hhow, hsize, hempty, hbad⟩
    · cases hf
      refine ⟨rfl, rfl, fun _ hnil => ?_, fun hok => Bool.noConfusion hok⟩
      simp at hnil

theorem gzNeed_spec {n : Nat} {f : Fetched φ} (h : gzNeed io n s = some f) :
    f.src.how = s.how ∧ f.src.size = s.size ∧ f.avail = [] ∧
      (f.ok = true → 0 < n → f.src.input = [] → f.src.AtEnd) ∧ (f.ok = false → ¬ f.src.Fine) := by
  unfold gzNeed at h
  split at h
  · unfold gzAvail at h
    split at h
    · next hbad =>
      cases h
      exact ⟨rfl, rfl, rfl, fun hok => Bool.noConfusion hok, fun _ => hbad⟩
    · split at h
      · next heof =>
        cases h
        exact ⟨rfl, rfl, rfl, fun _ _ hnil => ⟨heof, hnil⟩, fun hok => Bool.noConfusion hok⟩
      · obtain ⟨g, hg, h⟩ := Option.bind_eq_some_iff.mp h
        obtain ⟨hhow, hsize, hempty, hbad⟩ := gzLoad_spec hg
        split at h
        · next hok =>
          cases h
          refine ⟨hhow, hsize, rfl, fun _ _ hnil => ⟨?_, hnil⟩, fun hno => Bool.noConfusion hno⟩
          exact hempty hok (List.append_eq_nil_iff.mp hnil).2
        · next hno =>
          cases h
          have hno : f.ok = false := by simpa using hno
          exact ⟨hhow, hsize, (hbad hno).2, fun hok => absurd hok (by simp [hno]),
            fun _ => (hbad hno).1⟩
  · next hlen =>
    cases h
    refine ⟨rfl, rfl, rfl, fun _ hpos hnil => ?_, fun hok => Bool.noConfusion hok⟩
    rw [show s.input = [] from hnil] at hlen
    exact absurd hpos hlen

theorem gzNeed_atEnd (hfine : s.Fine) (hend : s.AtEnd) (n : Nat) :
    gzNeed io n s = some ⟨true, [], s⟩ := by
  unfold gzNeed gzAvail
  rw [if_neg (not_not.mpr hfine), if_pos hend.1]
  exact ite_self _

theorem lookMagic_spec (hhow : s.how = .look) {f : Fetched φ} (h : lookMagic io s = some f) :
    LookSpec f ∧ f.src.size = s.size := by
  unfold lookMagic at h
  split at h
  · cases h
    exact ⟨.header rfl rfl rfl, rfl⟩
  · obtain ⟨g, hg, h⟩ := Option.bind_eq_some_iff.mp h
    obtain ⟨hsame, hsize, havail, hempty, hbad⟩ := gzNeed_spec hg
    dsimp only at h
    split at h
    · next hno =>
      cases h
      exact ⟨.failed hno (hbad hno) havail, hsize⟩
    · next hno =>
      have hok : g.ok = true := by simpa using hno
      split at h
      · next hnil =>
        cases h
        exact ⟨.ended hok (hsame.trans hhow) havail (hempty hok (by decide) hnil), hsize⟩
      · next hinput =>
        split at h
        · cases h
          exact ⟨.header rfl rfl rfl, hsize⟩
        · split at h
          · cases h
            exact ⟨.ended rfl (hsame.trans hhow) rfl ⟨rfl, rfl⟩, hsize⟩
          · cases h
            exact ⟨.raw rfl rfl hinput, hsize⟩

theorem gzReadInit_failed (h : (gzReadInit io s).ok = false) :
    ¬ (gzReadInit io s).src.Fine ∧ (gzReadInit io s).avail = [] := by
  unfold gzReadInit at h ⊢
  split
  · exact ⟨fine_of_err zMemError rfl (by decide), rfl⟩
  · next halloc =>
    rw [if_neg halloc] at h
    dsimp only at h ⊢
    split
    · refine ⟨?_, rfl⟩
      split
      · exact fine_of_err zMemError rfl (by decide)
      · exact fine_of_err zStreamError rfl (by decide)
    · next hinit =>
      rw [if_neg hinit] at h
      cases h

theorem gzReadInit_done (h : (gzReadInit io s).ok = true) :
    (gzReadInit io s).src.how = s.how ∧ (gzReadInit io s).src.size ≠ 0 ∧
      ((gzReadInit io s).src.AtEnd ↔ s.AtEnd) := by
  have hwant := s.want_le
  unfold gzReadInit at h ⊢
  split
  · next halloc =>
    rw [if_pos halloc] at h
    cases h
  · next halloc =>
    rw [if_neg halloc] at h
    dsimp only at h ⊢
    split
    · next hinit =>
      rw [if_pos hinit] at h
      cases h
    · exact ⟨rfl, by dsimp only; omega, Iff.rfl⟩

theorem gzLook_spec (hhow : s.how = .look) {f : Fetched φ} (h : gzLook io s = some f) :
    LookSpec f ∧ (f.ok = true → f.src.size ≠ 0) := by
  unfold gzLook at h
  split at h
  · dsimp only at h
    split at h
    · next hno =>
      cases h
      obtain ⟨hbad, havail⟩ := gzReadInit_failed hno
      exact ⟨.failed hno hbad havail, fun hok => absurd hok (by simp [hno])⟩
    · next hno =>
      obtain ⟨hsame, hsize, -⟩ := @gzReadInit_done φ io s (by simpa using hno)
      obtain ⟨hspec, hkeep⟩ := lookMagic_spec (hsame.trans hhow) h
      exact ⟨hspec, fun _ => by rw [hkeep]; exact hsize⟩
  · next hsize =>
    obtain ⟨hspec, hkeep⟩ := lookMagic_spec hhow h
    exact ⟨hspec, fun _ => by rw [hkeep]; exact hsize⟩

variable (io) in
theorem lookMagic_atEnd (hfine : s.Fine) (hend : s.AtEnd) (hhow : s.how = .look) :
    ∃ f, lookMagic io s = some f ∧ f.avail = [] ∧ f.src.Dry := by
  unfold lookMagic
  split
  · exact ⟨_, rfl, rfl, hend, fun h => by cases h⟩
  · have hstay : s.Dry := ⟨hend, fun h => by rw [hhow] at h; cases h⟩
    rw [gzNeed_atEnd hfine hend]
    refine ⟨⟨true, [], s⟩, ?_, rfl, hstay⟩
    simp [hend.2]

variable (io) in
/-- Looking at the end of the input finds nothing. -/
theorem gzLook_atEnd (hfine : s.Fine) (hend : s.AtEnd) (hhow : s.how = .look) :
    ∃ f, gzLook io s = some f ∧ f.avail = [] ∧ (f.ok = true → f.src.Dry) := by
  unfold gzLook
  split
  · dsimp only
    split
    · next hno =>
      exact ⟨_, rfl, (gzReadInit_failed hno).2, fun hok => absurd hok (by simp [hno])⟩
    · next hno =>
      have hok : (gzReadInit io s).ok = true := by simpa using hno
      obtain ⟨hsame, -, hstays⟩ := gzReadInit_done hok
      have hgood : (gzReadInit io s).src.Fine := by
        unfold Fine
        rw [gzReadInit_err hok]
        exact hfine
      obtain ⟨f, hf, havail, hdry⟩ :=
        lookMagic_atEnd io hgood (hstays.mpr hend) (hsame.trans hhow)
      exact ⟨f, hf, havail, fun _ => hdry⟩
  · obtain ⟨f, hf, havail, hdry⟩ := lookMagic_atEnd io hfine hend hhow
    exact ⟨f, hf, havail, fun _ => hdry⟩

/-- `gz_fetch` where a header was looked for: what was found, or the first data behind it. -/
theorem gzFetch_look (hhow : s.how = .look) {f : Fetched φ} (h : gzLook io s = some f)
    (hok : f.ok = true) :
    gzFetch io s = if f.src.how = .gzip ∧ ¬ f.src.AtEnd then gzFetch io f.src else some f := by
  rw [gzFetch.eq_def io s, hhow]
  dsimp only
  rw [h, Option.bind_eq_bind, Option.bind_some]
  cases (gzLook_spec hhow h).1 with
  | failed hno =>
    rw [hok] at hno
    cases hno
  | ended _ hhow' havail hend =>
    rw [if_pos (.inr hhow'), if_neg (fun hgo => hgo.2 hend)]
    rfl
  | raw _ hhow' havail =>
    have hno : ¬ (f.ok = false ∨ f.src.how = .look) := by
      rw [hok, hhow']
      decide
    rw [if_neg hno, if_neg (fun hnil => havail hnil.1), if_neg (by rw [hhow']; simp)]
    rfl
  | header _ hhow' havail =>
    have hno : ¬ (f.ok = false ∨ f.src.how = .look) := by
      rw [hok, hhow']
      decide
    rw [if_neg hno]
    by_cases hend : f.src.AtEnd
    · rw [if_neg (fun hgo => hgo.2 hend), if_neg (fun hgo => hgo.2 hend)]
      rfl
    · rw [if_pos ⟨havail, hend⟩, if_pos ⟨hhow', hend⟩]

variable (io) in
/-- `gz_fetch` with nothing left fetches nothing. -/
theorem gzFetch_dry (hfine : s.Fine) (hdry : s.Dry) :
    ∃ f, gzFetch io s = some f ∧ f.avail = [] ∧ (f.ok = true → f.src.Dry) ∧
      (f.ok = false → ¬ f.src.Fine) := by
  obtain ⟨hend, hcopy⟩ := hdry
  cases hhow : s.how with
  | copy => exact absurd hhow hcopy
  | look =>
    obtain ⟨f, hf, havail, hstay⟩ := gzLook_atEnd io hfine hend hhow
    cases hok : f.ok with
    | false =>
      refine ⟨f, ?_, havail, hstay, fun hno => ?_⟩
      · rw [gzFetch.eq_def io s, hhow]
        dsimp only
        rw [hf, Option.bind_eq_bind, Option.bind_some, if_pos (.inl hok)]
        rfl
      · cases (gzLook_spec hhow hf).1 with
        | failed _ hbad => exact hbad
        | ended h | raw h | header h =>
          rw [hno] at h
          cases h
    | true =>
      refine ⟨f, ?_, havail, hstay, fun hno => absurd hno (by simp [hok])⟩
      rw [gzFetch_look hhow hf hok, if_neg (fun hgo => hgo.2 (hstay hok).1)]
  | gzip =>
    have hnone : gzDecomp io (2 * s.size) s [] = some ⟨true, [], { s with err := zBufError }⟩ := by
      rw [gzDecomp, gzNeed_atEnd hfine hend, Option.bind_eq_bind, Option.bind_some]
      simp [hend.2]
    refine ⟨⟨true, [], { s with err := zBufError }⟩, ?_, rfl, fun _ => ⟨hend, ?_⟩,
      fun hno => Bool.noConfusion hno⟩
    · conv_lhs => rw [gzFetch.eq_def io s, hhow]
      dsimp only
      rw [hnone, Option.bind_eq_bind, Option.bind_some, if_neg (by simp),
        if_neg (fun hgo => hgo.2 hend)]
      rfl
    · dsimp only
      rw [hhow]
      simp

/-- A read of `len` bytes gets the same straight from `inflate` as through the output buffer. -/
def ReadsAlike (io : GzCalls φ) (s : GzSource φ) (len : Nat) : Prop :=
  readLoop io s [] len = (do
    let f ← gzFetch io s
    if f.ok then readLoop io f.src f.avail len else return ⟨false, [], [], false, f.src⟩)

/-- A short read goes through the output buffer. -/
theorem readsAlike_short {len : Nat} (hend : ¬ s.AtEnd) (hzero : len ≠ 0)
    (hlen : len < 2 * s.size) : ReadsAlike io s len := by
  unfold ReadsAlike
  rw [readLoop, if_neg hzero, if_neg (by simp), if_neg hend, if_pos (.inr hlen)]

section Looked
variable (hhow : s.how = .look) (hend : ¬ s.AtEnd) {f : Fetched φ} (hlook : gzLook io s = some f)
  (hok : f.ok = true)

include hhow hend hlook hok

theorem gzSkip_look {skip : Nat} : gzSkip io s [] skip = gzSkip io f.src f.avail skip := by
  rw [gzSkip.eq_def io s, if_neg (by simp), if_neg hend, gzFetch_look hhow hlook hok]
  by_cases hgo : f.src.how = .gzip ∧ ¬ f.src.AtEnd
  · have havail : f.avail = [] := by
      cases (gzLook_spec hhow hlook).1 with
      | raw _ hcopy => rw [hcopy] at hgo; cases hgo.1
      | failed _ _ h | ended _ _ h | header _ _ h => exact h
    rw [if_pos hgo, havail, gzSkip.eq_def io f.src, if_neg (by simp), if_neg hgo.2]
  · rw [if_neg hgo, Option.bind_eq_bind, Option.bind_some, if_pos hok]

theorem readLoop_look {len : Nat} (hzero : len ≠ 0)
    (hlen : f.src.how = .gzip → ¬ f.src.AtEnd → ReadsAlike io f.src len) :
    readLoop io s [] len = readLoop io f.src f.avail len := by
  rw [readLoop.eq_def io s, if_neg hzero, if_neg (by simp), if_neg hend, if_pos (.inl hhow),
    gzFetch_look hhow hlook hok]
  by_cases hgo : f.src.how = .gzip ∧ ¬ f.src.AtEnd
  · have havail : f.avail = [] := by
      cases (gzLook_spec hhow hlook).1 with
      | raw _ hcopy => rw [hcopy] at hgo; cases hgo.1
      | failed _ _ h | ended _ _ h | header _ _ h => exact h
    rw [if_pos hgo, havail]
    exact (hlen hgo.1 hgo.2).symm
  · rw [if_neg hgo, Option.bind_eq_bind, Option.bind_some, if_pos hok]

omit hend in
theorem gzFill_look (hmore : f.avail ≠ [] ∨ ¬ f.src.AtEnd) :
    gzFill io s [] = gzFill io f.src f.avail := by
  have hfetch : gzFill io s [] = gzFetch io s := if_pos rfl
  rw [hfetch, gzFetch_look hhow hlook hok]
  cases (gzLook_spec hhow hlook).1 with
  | failed hno =>
    rw [hok] at hno
    cases hno
  | ended _ _ havail hend' => exact absurd hmore (by simp [havail, hend'])
  | raw _ hcopy havail =>
    rw [if_neg (by rw [hcopy]; simp)]
    unfold gzFill
    rw [if_neg havail, ← hok]
  | header _ hgzip havail =>
    have hgo : ¬ f.src.AtEnd := hmore.resolve_left (not_not.mpr havail)
    rw [if_pos ⟨hgzip, hgo⟩, havail]
    rfl

omit hend in
/-- A look that leaves neither data nor input has found the end. -/
theorem dry_of_look (hnone : ¬ (f.avail ≠ [] ∨ ¬ f.src.AtEnd)) : f.src.Dry ∧ f.avail = [] := by
  obtain ⟨hnil, hstop⟩ := not_or.mp hnone
  rw [not_not] at hnil hstop
  refine ⟨⟨hstop, ?_⟩, hnil⟩
  cases (gzLook_spec hhow hlook).1 with
  | failed hno =>
    rw [hok] at hno
    cases hno
  | ended _ h | header _ h => rw [h]; simp
  | raw _ _ h => exact absurd hnil h

end Looked

end GzSource

namespace GzReader
variable {φ : Type} {io : GzCalls φ} {s t u : GzReader φ}

/-- No call delivers anything any more. -/
def Silent (s : GzReader φ) : Prop := s.src.Fine → s.src.Dry ∧ s.avail = []

variable (io) in
theorem Silent.complete (h : s.Silent) (hfine : s.src.Fine) : s.complete io = some (true, s) := by
  obtain ⟨⟨hend, -⟩, havail⟩ := h hfine
  unfold GzReader.complete
  split
  · rfl
  · rw [havail, GzSource.gzSkip, if_neg (by simp), if_pos hend]
    cases s
    cases havail
    simp

variable (io) in
theorem Silent.gzRead (h : s.Silent) (hfine : s.src.Fine) (len : Nat) :
    ∃ t, s.gzRead io len = some ⟨true, [], t⟩ ∧ t.Silent := by
  obtain ⟨hdry, havail⟩ := h hfine
  unfold GzReader.gzRead
  by_cases hzero : len = 0
  · exact ⟨s, if_pos hzero, h⟩
  · rw [if_neg hzero, h.complete io hfine, Option.bind_eq_bind, Option.bind_some]
    dsimp only
    rw [if_pos rfl, havail, GzSource.readLoop, if_neg hzero, if_neg (by simp), if_pos hdry.1]
    exact ⟨_, rfl, fun _ => ⟨hdry, rfl⟩⟩

variable (io) in
theorem Silent.gzGets (h : s.Silent) (hfine : s.src.Fine) (left : Nat) :
    ∃ r : Delivery φ, s.gzGets io left = some r ∧ r.bytes = [] ∧ r.state.Silent := by
  obtain ⟨hdry, havail⟩ := h hfine
  unfold GzReader.gzGets
  rw [h.complete io hfine, Option.bind_eq_bind, Option.bind_some]
  dsimp only
  rw [if_pos rfl, havail, GzSource.getsLoop]
  by_cases hzero : left = 0
  · rw [if_pos hzero]
    exact ⟨_, rfl, rfl, fun _ => ⟨hdry, rfl⟩⟩
  · have hfill : GzSource.gzFill io s.src [] = GzSource.gzFetch io s.src := if_pos rfl
    obtain ⟨f, hf, hnil, hstay, hbad⟩ := GzSource.gzFetch_dry io hfine hdry
    rw [if_neg hzero, hfill, hf]
    simp only [Option.bind_eq_bind, Option.bind_some, hnil]
    cases hok : f.ok with
    | false => exact ⟨_, rfl, rfl, fun hgood => absurd hgood (hbad hok)⟩
    | true => exact ⟨_, rfl, rfl, fun _ => ⟨hstay hok, rfl⟩⟩

variable (io) in
/-- A silent state stays silent. -/
theorem Silent.run (h : s.Silent) (call : ReadCall) :
    ∃ t, call.run io s = some ([], t) ∧ t.Silent := by
  by_cases hfine : s.src.Fine
  · cases call with
    | read len =>
      simp only [ReadCall.run, gzread, if_neg (not_not.mpr hfine)]
      split
      · exact ⟨_, rfl, fun hgood => absurd hgood (GzSource.fine_of_err zStreamError rfl (by decide))⟩
      · obtain ⟨t, ht, hsilent⟩ := h.gzRead io hfine len
        rw [ht]
        refine ⟨t, ?_, hsilent⟩
        simp only [Option.map_some, Delivery.count]
        split <;> rfl
    | getc =>
      obtain ⟨t, ht, hsilent⟩ := h.gzRead io hfine 1
      refine ⟨t, ?_, hsilent⟩
      simp only [ReadCall.run, gzgetc, if_neg (not_not.mpr hfine), (h hfine).2, ht]
      rfl
    | gets len =>
      simp only [ReadCall.run, gzgets, if_neg (not_not.mpr hfine)]
      split
      · exact ⟨s, rfl, h⟩
      · obtain ⟨r, hr, hnil, hsilent⟩ := h.gzGets io hfine (len - 1)
        rw [hr]
        refine ⟨r.state, ?_, hsilent⟩
        have hnone : r.returned = [] := by
          unfold Delivery.returned
          rw [hnil, ite_self]
        simp [Delivery.line, hnone]
  · exact ⟨s, run_error call hfine, h⟩

variable (io) in
theorem delivered_silent (hs : s.Silent) (ht : t.Silent) (calls : List ReadCall) :
    delivered io calls s = delivered io calls t := by
  induction calls generalizing s t with
  | nil => rfl
  | cons call calls ih =>
    obtain ⟨s', hs', hsilent⟩ := hs.run io call
    obtain ⟨t', ht', htsilent⟩ := ht.run io call
    rw [delivered, delivered, hs', ht', Option.bind_eq_bind, Option.bind_some, Option.bind_some]
    dsimp only
    rw [ih hsilent htsilent]

theorem gzGets_zero (hskip : s.skip = 0) : s.gzGets io 0 = some ⟨true, [], s⟩ := by
  have hself : s.complete io = some (true, s) := if_pos hskip
  unfold GzReader.gzGets
  rw [hself, Option.bind_eq_bind, Option.bind_some]
  dsimp only
  rw [if_pos rfl, GzSource.getsLoop, if_pos rfl]
  simp [after]

section Looked
variable (hskip : s.skip = 0) (havail : s.avail = []) (hhow : s.src.how = .look)
  (hend : ¬ s.src.AtEnd) {f : Fetched φ} (hlook : s.src.gzLook io = some f) (hok : f.ok = true)

include hskip havail hhow hlook hok

include hend in
theorem gzRead_look {len : Nat} (hzero : len ≠ 0)
    (hlen : f.src.how = .gzip → 2 * f.src.size ≤ len → f.src.ReadsAlike io len) :
    GzReader.gzRead io { s with src := f.src, avail := f.avail } len = s.gzRead io len := by
  have hloop := GzSource.readLoop_look hhow hend hlook hok hzero fun hgzip hmore =>
    if h : 2 * f.src.size ≤ len then hlen hgzip h
    else GzSource.readsAlike_short hmore hzero (by omega)
  have hself (s : GzReader φ) (h : s.skip = 0) : s.complete io = some (true, s) := if_pos h
  unfold GzReader.gzRead
  rw [if_neg hzero, if_neg hzero, hself s hskip,
    hself { s with src := f.src, avail := f.avail } hskip]
  simp only [Option.bind_eq_bind, Option.bind_some, if_true, havail, hloop]
  rfl

theorem gzGets_look {left : Nat} (hzero : left ≠ 0) (hmore : f.avail ≠ [] ∨ ¬ f.src.AtEnd) :
    GzReader.gzGets io { s with src := f.src, avail := f.avail } left = s.gzGets io left := by
  have hfill := GzSource.gzFill_look hhow hlook hok hmore
  have hself (s : GzReader φ) (h : s.skip = 0) : s.complete io = some (true, s) := if_pos h
  unfold GzReader.gzGets
  rw [hself s hskip, hself { s with src := f.src, avail := f.avail } hskip]
  simp only [Option.bind_eq_bind, Option.bind_some, if_true, havail]
  rw [GzSource.getsLoop.eq_def io s.src, GzSource.getsLoop.eq_def io f.src, if_neg hzero,
    if_neg hzero, hfill]
  rfl

/-- Where the look ended, there is no line. -/
theorem gzGets_ended {left : Nat} (hzero : left ≠ 0) (hnone : ¬ (f.avail ≠ [] ∨ ¬ f.src.AtEnd)) :
    ∃ t, s.gzGets io left = some ⟨true, [], t⟩ ∧ t.Silent := by
  obtain ⟨⟨hstop, hcopy⟩, hnil⟩ := GzSource.dry_of_look hhow hlook hok hnone
  have hfetch : GzSource.gzFill io s.src [] = some f := by
    refine (if_pos rfl : GzSource.gzFill io s.src [] = GzSource.gzFetch io s.src).trans ?_
    rw [GzSource.gzFetch_look hhow hlook hok, if_neg (fun hgo => hgo.2 hstop)]
  have hself : s.complete io = some (true, s) := if_pos hskip
  unfold GzReader.gzGets
  rw [hself]
  simp only [Option.bind_eq_bind, Option.bind_some, if_true, havail]
  rw [GzSource.getsLoop, if_neg hzero, hfetch]
  simp only [Option.bind_eq_bind, Option.bind_some, hok, hnil, if_true]
  exact ⟨_, rfl, fun _ => ⟨⟨hstop, hcopy⟩, rfl⟩⟩

/-- The calls after a look deliver what they would have delivered without it. -/
theorem delivered_look (hfine : s.src.Fine) (hgood : f.src.Fine) (calls : List ReadCall)
    (hlen : f.src.how = .gzip → ∀ len, .read len ∈ calls → 2 * f.src.size ≤ len →
      f.src.ReadsAlike io len) :
    delivered io calls { s with src := f.src, avail := f.avail } = delivered io calls s := by
  have hsize := (GzSource.gzLook_spec hhow hlook).2 hok
  by_cases hend : s.src.AtEnd
  · obtain ⟨g, hg, hnil, hdry⟩ := GzSource.gzLook_atEnd io hfine hend hhow
    cases hlook.symm.trans hg
    exact delivered_silent io (fun _ => ⟨hdry hok, hnil⟩)
      (fun _ => ⟨⟨hend, by rw [hhow]; simp⟩, havail⟩) calls
  · induction calls with
    | nil => rfl
    | cons call calls ih =>
      have ih := ih fun hgzip len hmem => hlen hgzip len (List.mem_cons_of_mem _ hmem)
      rw [delivered, delivered]
      cases call with
      | read len =>
        simp only [ReadCall.run, gzread, if_neg (not_not.mpr hfine), if_neg (not_not.mpr hgood)]
        split
        · have hrest := @delivered_error φ io calls
            { s with src := { f.src with err := zStreamError }, avail := [] }
            { s with src := { s.src with err := zStreamError }, avail := [] }
            (GzSource.fine_of_err zStreamError rfl (by decide))
            (GzSource.fine_of_err zStreamError rfl (by decide))
          simp only [Option.map_some, Option.bind_eq_bind, Option.bind_some]
          rw [hrest]
        · by_cases hzero : len = 0
          · have hnone (s : GzReader φ) : s.gzRead io len = some ⟨true, [], s⟩ := if_pos hzero
            rw [hnone, hnone]
            simp [Delivery.count, Delivery.returned, hfine, hgood, ih]
          · rw [gzRead_look hskip havail hhow hend hlook hok hzero
              fun hgzip => hlen hgzip len (List.mem_cons_self ..)]
      | getc =>
        simp only [ReadCall.run]
        rw [gzgetc_eq hfine (.inr hskip),
          gzgetc_eq (s := { s with src := f.src, avail := f.avail }) hgood (.inr hskip),
          gzRead_look hskip havail hhow hend hlook hok (by decide) fun _ h => by omega]
      | gets len =>
        simp only [ReadCall.run, gzgets, if_neg (not_not.mpr hfine), if_neg (not_not.mpr hgood)]
        split
        · simp [ih]
        · by_cases hzero : len - 1 = 0
          · rw [hzero, gzGets_zero hskip, gzGets_zero (s := { s with src := f.src, avail := f.avail })
              hskip]
            simp [Delivery.line, Delivery.returned, ih]
          · by_cases hmore : f.avail ≠ [] ∨ ¬ f.src.AtEnd
            · rw [gzGets_look hskip havail hhow hlook hok hzero hmore]
            · obtain ⟨t, ht, hsilent⟩ := gzGets_ended hskip havail hhow hlook hok hzero hmore
              have hstay : Silent ({ s with src := f.src, avail := f.avail } : GzReader φ) :=
                fun _ => GzSource.dry_of_look hhow hlook hok hmore
              obtain ⟨r, hr, hnil, hquiet⟩ := hstay.gzGets io hgood (len - 1)
              have hline : r.line.1 = none := by
                simp [Delivery.line, Delivery.returned, hnil]
              have hnone : (⟨true, [], t⟩ : Delivery φ).line.1 = none := rfl
              rw [ht, hr, Option.map_some, Option.map_some, Option.map_some, Option.map_some, hline,
                hnone]
              have hrest := delivered_silent io hquiet hsilent calls
              simp only [Option.bind_eq_bind, Option.bind_some]
              exact congrArg (fun rest => Option.bind rest _) hrest

end Looked

end GzReader
end ZlibNg
