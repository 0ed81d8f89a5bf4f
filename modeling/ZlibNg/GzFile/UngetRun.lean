import ZlibNg.GzFile.Look

/-! The law of `gzungetc` in a run of calls on a file open for reading. -/
namespace ZlibNg

namespace GzReader
variable {φ : Type} {io : GzCalls φ} {s t u v : GzReader φ}

/-- The pending seek, if any, ends within the data. -/
def SeekEnds (io : GzCalls φ) (s : GzReader φ) : Prop :=
  ∃ u, s.look io = some u ∧ u.src.Supplies io u.avail u.skip

/-- The calls behind a push that found a gzip header itself, before any data: a read as long as the
output buffer goes straight to `inflate` now, and would have filled the buffer first. -/
def ReadsOn (io : GzCalls φ) (s v : GzReader φ) (calls : List ReadCall) : Prop :=
  s.src.how = .look → s.avail = [] → s.skip = 0 → v.src.how = .gzip →
    ∀ len, ReadCall.read len ∈ calls → 2 * v.src.size ≤ len → v.src.ReadsAlike io len

/-- The law of a call from `s` to `t` that returns its byte: `v` is the state with the seek
completed, and behind the byte comes what `s` would have delivered. -/
def UngetLaw (io : GzCalls φ) (s t : GzReader φ) (c : Int) : Prop :=
  ∃ u v, s.look io = some u ∧ u.complete io = some (true, v) ∧ PushLaw io v t c ∧
    ∀ calls, ReadsOn io s v calls → delivered io calls v.clearPast = delivered io calls s

/-- The steps of a call that returns its byte. -/
theorem gzungetc_steps {c : Int} (hc : 0 ≤ c) (h : s.gzungetc io c = some (c, t)) :
    ∃ u v, s.look io = some u ∧ u.src.Fine ∧ u.complete io = some (true, v) ∧
      (v.avail = [] ∨ v.avail.length ≠ 2 * v.src.size) ∧ t = v.push (UInt8.ofNat c.toNat) := by
  unfold gzungetc at h
  obtain ⟨u, hlook, h⟩ := Option.bind_eq_some_iff.mp h
  split at h
  · cases h
    omega
  · next hfine =>
    obtain ⟨⟨ok, v⟩, hdone, h⟩ := Option.bind_eq_some_iff.mp h
    dsimp only at h
    split at h
    · cases h
      omega
    · next hok =>
      have hok : ok = true := by simpa using hok
      subst hok
      refine ⟨u, v, hlook, not_not.mp hfine, hdone, ?_⟩
      split at h
      · omega
      · split at h
        · next hnil =>
          cases h
          exact ⟨.inl hnil, rfl⟩
        · split at h
          · cases h
            omega
          · next hroom =>
            cases h
            exact ⟨.inr hroom, rfl⟩

/-- A seek that is completed leaves no request exactly if it ends within the data. -/
theorem complete_spec (hfine : s.src.Fine) (h : s.complete io = some (true, v)) :
    v.src.Fine ∧ (v.skip = 0 ↔ s.src.Supplies io s.avail s.skip) ∧
      (v.skip ≠ 0 → v.avail = [] ∧ v.src.AtEnd) := by
  unfold complete at h
  split at h
  · next hzero =>
    cases h
    exact ⟨hfine, iff_of_true hzero (by rw [hzero]; exact .here (Nat.zero_le _)),
      fun hne => absurd hzero hne⟩
  · next hne =>
    obtain ⟨r, hr, h⟩ := Option.bind_eq_some_iff.mp h
    have hok : r.ok = true := congrArg Prod.fst (Option.some.inj h)
    have hv := congrArg Prod.snd (Option.some.inj h)
    dsimp only at hv
    obtain ⟨hkeep, hdone, hstop⟩ := GzSource.gzSkip_spec (by omega) hr hok
    subst hv
    exact ⟨hkeep hfine, hdone, hstop⟩

/-- The buffer is looked for a header only where it is empty. -/
theorem look_cases (h : s.look io = some u) (hfine : u.src.Fine) :
    (u = s ∧ ¬ (s.src.how = .look ∧ s.avail = [])) ∨
      ∃ f, s.src.gzLook io = some f ∧ f.ok = true ∧ s.src.Fine ∧ s.src.how = .look ∧
        s.avail = [] ∧ u = { s with src := f.src, avail := f.avail } := by
  unfold look at h
  split at h
  · next hgo =>
    obtain ⟨f, hf, h⟩ := Option.bind_eq_some_iff.mp h
    cases h
    have hok : f.ok = true := by
      cases (GzSource.gzLook_spec hgo.1 hf).1 with
      | failed _ hbad => exact absurd hfine hbad
      | ended h | raw h | header h => exact h
    have hgood : s.src.Fine := by
      unfold GzSource.Fine
      rw [← GzSource.gzLook_err hf hok]
      exact hfine
    exact .inr ⟨f, hf, hok, hgood, hgo.1, hgo.2, rfl⟩
  · next hno =>
    cases h
    exact .inl ⟨rfl, hno⟩

/-- With the request pending or the buffer full, but not both, a seek that ends within the data is
completed without a difference to what is delivered. -/
theorem delivered_resumes (hrest : s.skip = 0 ∨ s.avail = []) (hlook : s.look io = some u)
    (hfine : u.src.Fine) (hdone : u.complete io = some (true, v)) (hgood : v.src.Fine)
    (hzero : v.skip = 0) (calls : List ReadCall) (hreads : ReadsOn io s v calls) :
    delivered io calls v = delivered io calls s := by
  obtain ⟨rfl, -⟩ | ⟨f, hf, hok, hs, hhow, havail, rfl⟩ := look_cases hlook hfine
  · by_cases hskip : u.skip = 0
    · have hself : u.complete io = some (true, u) := if_pos hskip
      cases hself.symm.trans hdone
      rfl
    · exact delivered_complete hdone hzero hfine hgood (hrest.resolve_left hskip) calls
  · by_cases hskip : s.skip = 0
    · have hself : complete io { s with src := f.src, avail := f.avail } =
          some (true, { s with src := f.src, avail := f.avail }) := if_pos hskip
      cases hself.symm.trans hdone
      exact delivered_look hskip havail hhow hf hok hs hgood calls (hreads hhow havail hskip)
    · have hend : ¬ s.src.AtEnd := by
        intro hend
        obtain ⟨g, hg, hnil, hdry⟩ := GzSource.gzLook_atEnd io hs hend hhow
        cases hf.symm.trans hg
        have hstay : Silent ({ s with src := f.src, avail := f.avail } : GzReader φ) :=
          fun _ => ⟨hdry hok, hnil⟩
        cases (hstay.complete io hfine).symm.trans hdone
        exact hskip hzero
      have hearly : s.complete io = some (true, v) := by
        rw [← hdone]
        unfold complete
        rw [if_neg hskip, if_neg hskip, havail, GzSource.gzSkip_look hhow hend hf hok]
      exact delivered_complete hearly hzero hs hgood havail calls

/-- A request to skip is pending only with the buffer empty, after a serious error perhaps. -/
structure Settled (s : GzReader φ) : Prop where
  bound : s.skip < 2 ^ 63
  rest : s.src.Fine → s.skip = 0 ∨ s.avail = []

/-- A byte that `gzungetc` returns is read next, with everything else as it was, exactly if it is
one and the pending seek ends within the data. -/
theorem Settled.unget {c : Int} (hs : s.Settled) (hc : 0 ≤ c) (h : s.gzungetc io c = some (c, t)) :
    UngetLaw io s t c ↔ c ≤ 255 ∧ SeekEnds io s := by
  obtain ⟨u, v, hlook, hfine, hdone, hroom, rfl⟩ := gzungetc_steps hc h
  obtain ⟨hgood, hzero, hstop⟩ := complete_spec hfine hdone
  constructor
  · rintro ⟨u', v', hlook', hdone', hlaw, -⟩
    cases hlook.symm.trans hlook'
    cases hdone.symm.trans hdone'
    constructor
    · have hbyte := congrArg Prod.fst (Option.some.inj ((gzgetc_cons hgood).symm.trans hlaw.getc))
      dsimp only at hbyte
      have hlt := (UInt8.ofNat c.toNat).toNat_lt
      omega
    · refine ⟨u, hlook, hzero.mp ?_⟩
      by_contra hne
      obtain ⟨havail, hend⟩ := hstop hne
      have hread := hlaw.read_one.symm.trans (gzread_swallowed hgood hne havail hend)
      cases hread
  · rintro ⟨hmax, u', hlook', hsupplies⟩
    cases hlook.symm.trans hlook'
    have hskip := hzero.mpr hsupplies
    refine ⟨u, v, hlook, hdone, pushLaw hgood hskip hc hmax hroom, fun calls hreads => ?_⟩
    have hsource : s.src.Fine := by
      obtain ⟨rfl, -⟩ | ⟨f, -, -, hs, -⟩ := look_cases hlook hfine
      · exact hfine
      · exact hs
    rw [delivered_clearPast]
    exact delivered_resumes (hs.rest hsource) hlook hfine hdone hgood hskip calls hreads

/-- Completing a request leaves the rest of it only at the end of the data. -/
theorem complete_settles {ok : Bool} (h : s.complete io = some (ok, v)) :
    v.skip ≤ s.skip ∧ (ok = true → s.src.Fine → v.src.Fine) ∧ (v.skip = 0 ∨ v.avail = []) ∧
      (ok = true → s.src.Fine → v.skip ≠ 0 → v.src.AtEnd) := by
  unfold complete at h
  split at h
  · next hzero =>
    cases h
    exact ⟨Nat.le_refl _, fun _ hfine => hfine, .inl hzero, fun _ _ hne => absurd hzero hne⟩
  · next hne =>
    obtain ⟨r, hr, h⟩ := Option.bind_eq_some_iff.mp h
    obtain ⟨hle, hno⟩ := GzSource.gzSkip_left hr
    have hok : r.ok = ok := congrArg Prod.fst (Option.some.inj h)
    have hv := congrArg Prod.snd (Option.some.inj h)
    dsimp only at hv
    subst hv
    subst hok
    cases hgood : r.ok with
    | false =>
      exact ⟨hle, fun h => Bool.noConfusion h, .inr (hno hgood), fun h => Bool.noConfusion h⟩
    | true =>
      obtain ⟨hkeep, -, hstop⟩ := GzSource.gzSkip_spec (by omega) hr hgood
      refine ⟨hle, fun _ => hkeep, ?_, fun _ _ hskip => (hstop hskip).2⟩
      exact or_iff_not_imp_left.mpr fun hskip => (hstop hskip).1

theorem gzRead_settles {len : Nat} {r : Delivery φ} (hfine : s.src.Fine) (hs : s.Settled)
    (h : s.gzRead io len = some r) : r.state.Settled := by
  unfold gzRead at h
  split at h
  · cases h
    exact hs
  · next hlen =>
    obtain ⟨⟨ok, v⟩, hdone, h⟩ := Option.bind_eq_some_iff.mp h
    obtain ⟨hle, -, hrest, hend⟩ := complete_settles hdone
    have hbound : v.skip < 2 ^ 63 := Nat.lt_of_le_of_lt hle hs.bound
    dsimp only at h
    split at h
    · next hok =>
      obtain ⟨r, hr, h⟩ := Option.bind_eq_some_iff.mp h
      cases h
      refine ⟨hbound, fun _ => ?_⟩
      by_cases hzero : v.skip = 0
      · exact .inl hzero
      · right
        rw [hrest.resolve_left hzero, GzSource.readLoop, if_neg hlen, if_neg (by simp),
          if_pos (hend hok hfine hzero)] at hr
        cases hr
        rfl
    · cases h
      exact ⟨hbound, fun _ => hrest⟩

/-- The file has grown when `gzgets` comes to read behind its end, with a seek past it pending. -/
def Grown (io : GzCalls φ) (s : GzReader φ) : Prop :=
  ∃ v, s.complete io = some (true, v) ∧ v.skip ≠ 0 ∧ v.src.how = .copy ∧
    ∃ b bs env, io.read v.src.env (2 * v.src.size) = (some (b :: bs), env)

theorem gzGets_settles {left : Nat} {r : Delivery φ} (hfine : s.src.Fine) (hs : s.Settled)
    (hgrown : ¬ s.Grown io) (h : s.gzGets io left = some r) : r.state.Settled := by
  unfold gzGets at h
  obtain ⟨⟨ok, v⟩, hdone, h⟩ := Option.bind_eq_some_iff.mp h
  obtain ⟨hle, hkeep, hrest, hend⟩ := complete_settles hdone
  have hbound : v.skip < 2 ^ 63 := Nat.lt_of_le_of_lt hle hs.bound
  dsimp only at h
  split at h
  · next hok =>
    obtain ⟨r, hr, h⟩ := Option.bind_eq_some_iff.mp h
    cases h
    refine ⟨hbound, fun _ => ?_⟩
    by_cases hzero : v.skip = 0
    · exact .inl hzero
    · right
      subst hok
      have hnil := hrest.resolve_left hzero
      have hfill : GzSource.gzFill io v.src [] = GzSource.gzFetch io v.src := if_pos rfl
      have hnone : ∀ f, GzSource.gzFetch io v.src = some f → f.avail = [] := by
        intro f hf
        by_cases hcopy : v.src.how = .copy
        · rw [GzSource.gzFetch.eq_def, hcopy] at hf
          dsimp only at hf
          rw [GzSource.gzLoad] at hf
          split at hf
          · cases hf
            rfl
          · cases hf
            rfl
          · next hread => exact absurd ⟨v, hdone, hzero, hcopy, _, _, _, hread⟩ hgrown
        · obtain ⟨g, hg, havail, -⟩ := GzSource.gzFetch_dry io (hkeep rfl hfine)
            ⟨hend rfl hfine hzero, hcopy⟩
          cases hf.symm.trans hg
          exact havail
      rw [hnil, GzSource.getsLoop, hfill] at hr
      split at hr
      · cases hr
        rfl
      · obtain ⟨f, hf, hr⟩ := Option.bind_eq_some_iff.mp hr
        rw [hnone f hf] at hr
        split at hr
        · cases hr
          rfl
        · rw [if_pos rfl] at hr
          cases hr
          rfl
  · cases h
    exact ⟨hbound, fun _ => hrest⟩

/-- A file that `gzopen` has just opened for reading. -/
structure Opened (s : GzReader φ) : Prop where
  how : s.src.how = .look
  eof : s.src.eof = false
  err : s.src.err = zOk
  input : s.src.input = []
  size : s.src.size = 0
  avail : s.avail = []
  pos : s.pos = 0
  past : s.past = false
  skip : s.skip = 0

/-- The states of a run of `gzread`, `gzgetc`, `gzgets`, `gzseek` and `gzungetc` in which no byte
was pushed that is none, or behind a seek past the end, and the file did not grow there. -/
inductive Reached (io : GzCalls φ) (lseek : φ → Int64 → Int → Option φ) (start : Int64) :
    GzReader φ → Prop
  | opened {s : GzReader φ} (h : s.Opened) : Reached io lseek start s
  | read {s t : GzReader φ} {len : Nat} {r : Option (List UInt8)} (hs : Reached io lseek start s)
      (h : s.gzread io len = some (r, t)) : Reached io lseek start t
  | getc {s t : GzReader φ} {c : Int} (hs : Reached io lseek start s)
      (h : s.gzgetc io = some (c, t)) : Reached io lseek start t
  | gets {s t : GzReader φ} {len : Nat} {r : Option (List UInt8)} (hs : Reached io lseek start s)
      (hgrown : ¬ s.Grown io) (h : s.gzgets io len = some (r, t)) : Reached io lseek start t
  | seek {s : GzReader φ} (offset : Int64) (whence : Int) (hs : Reached io lseek start s) :
      Reached io lseek start (s.gzseek lseek start offset whence).2
  | unget {s t : GzReader φ} {c r : Int} (hs : Reached io lseek start s)
      (h : s.gzungetc io c = some (r, t)) (hlaw : 0 ≤ r → c ≤ 255 ∧ SeekEnds io s) :
      Reached io lseek start t

theorem look_skip (h : s.look io = some u) : u.skip = s.skip := by
  unfold look at h
  split at h
  · obtain ⟨f, -, h⟩ := Option.bind_eq_some_iff.mp h
    cases h
    rfl
  · cases h
    rfl

theorem gzungetc_settles {c r : Int} (hs : s.Settled) (h : s.gzungetc io c = some (r, t))
    (hlaw : 0 ≤ r → SeekEnds io s) : t.Settled := by
  unfold gzungetc at h
  obtain ⟨u, hlook, h⟩ := Option.bind_eq_some_iff.mp h
  have hbound : u.skip < 2 ^ 63 := by
    rw [look_skip hlook]
    exact hs.bound
  split at h
  · next hbad =>
    cases h
    exact ⟨hbound, fun hfine => absurd hfine hbad⟩
  · next hfine =>
    obtain ⟨⟨ok, v⟩, hdone, h⟩ := Option.bind_eq_some_iff.mp h
    obtain ⟨hle, -, hrest, -⟩ := complete_settles hdone
    have hv : v.Settled := ⟨Nat.lt_of_le_of_lt hle hbound, fun _ => hrest⟩
    have hpush (hc : 0 ≤ c) (hret : r = c) (hok : ok = true) (b : UInt8) : (v.push b).Settled := by
      obtain ⟨u', hlook', hsupplies⟩ := hlaw (by rw [hret]; exact hc)
      cases hlook.symm.trans hlook'
      subst hok
      exact ⟨hv.bound, fun _ => .inl ((complete_spec (not_not.mp hfine) hdone).2.1.mpr hsupplies)⟩
    dsimp only at h
    split at h
    · cases h
      exact hv
    · next hno =>
      have hok : ok = true := by simpa using hno
      split at h
      · cases h
        exact hv
      · next hneg =>
        have hc : 0 ≤ c := by omega
        split at h
        · cases h
          exact hpush hc rfl hok _
        · split at h
          · cases h
            exact ⟨hv.bound, fun _ => .inr rfl⟩
          · cases h
            exact hpush hc rfl hok _

theorem gzseek_settles (lseek : φ → Int64 → Int → Option φ) (start offset : Int64) (whence : Int)
    (hs : s.Settled) : (s.gzseek lseek start offset whence).2.Settled := by
  have hskip : (s.toState start).skip.toInt = s.skip := Int64.toInt_ofNat_of_lt hs.bound
  obtain ⟨-, hrest⟩ := @GzState.gzseek_skip φ lseek (s.toState start) rfl
    (Int64.le_iff_toInt_le.mpr (by rw [hskip, Int64.toInt_zero]; omega)) offset whence
  have hlt := (GzState.gzseek lseek (s.toState start) offset whence).state.skip.toInt_lt
  refine ⟨by unfold gzseek; dsimp only; omega, fun hfine => ?_⟩
  have hgood : s.src.Fine := by
    by_contra hbad
    have hstay : GzState.gzseek lseek (s.toState start) offset whence =
        ⟨-1, false, s.toState start⟩ := by
      unfold GzState.gzseek
      have herr : (s.toState start).err ≠ zOk ∧ (s.toState start).err ≠ zBufError := not_or.mp hbad
      rw [if_neg (fun h => h.1 rfl), if_pos herr]
    unfold gzseek at hfine
    rw [hstay] at hfine
    exact hbad hfine
  have hbefore : (s.toState start).skip = 0 ∨ (s.toState start).avail = [] :=
    (hs.rest hgood).imp_left fun hzero => by
      rw [← Int64.toInt_inj, hskip, hzero]
      rfl
  refine (hrest hbefore).imp_left fun hzero => ?_
  unfold gzseek
  dsimp only
  rw [hzero]
  rfl

/-- In such a run a request to skip is pending only with the buffer empty. -/
theorem Reached.settled {lseek : φ → Int64 → Int → Option φ} {start : Int64}
    (h : Reached io lseek start s) : s.Settled := by
  induction h with
  | opened h => exact ⟨by rw [h.skip]; decide, fun _ => .inl h.skip⟩
  | @read s t len r _ h ih =>
    unfold gzread at h
    split at h
    · cases h
      exact ih
    · next hfine =>
      split at h
      · cases h
        exact ⟨ih.bound, fun _ => .inr rfl⟩
      · obtain ⟨d, hd, h⟩ := Option.map_eq_some_iff.mp h
        cases h
        exact gzRead_settles (not_not.mp hfine) ih hd
  | @getc s t c _ h ih =>
    unfold gzgetc at h
    split at h
    · cases h
      exact ih
    · next hfine =>
      split at h
      · next havail =>
        cases h
        have hzero := (ih.rest (not_not.mp hfine)).resolve_right (by rw [havail]; simp)
        exact ⟨ih.bound, fun _ => .inl hzero⟩
      · obtain ⟨d, hd, h⟩ := Option.map_eq_some_iff.mp h
        cases h
        exact gzRead_settles (not_not.mp hfine) ih hd
  | @gets s t len r _ hgrown h ih =>
    unfold gzgets at h
    split at h
    · cases h
      exact ih
    · split at h
      · cases h
        exact ih
      · next hfine =>
        obtain ⟨d, hd, h⟩ := Option.map_eq_some_iff.mp h
        cases h
        exact gzGets_settles (not_not.mp hfine) ih hgrown hd
  | seek offset whence _ ih => exact gzseek_settles _ _ _ _ ih
  | unget _ h hlaw ih => exact gzungetc_settles ih h fun hr => (hlaw hr).2

end GzReader
end ZlibNg
