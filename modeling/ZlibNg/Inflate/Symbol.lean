import ZlibNg.Inflate.CodeSpec

/-! What the bits after a block header say, symbol by symbol; the fast and the slow decoder are
both compared with this. -/
namespace ZlibNg

inductive Symbol
  | lit (val : Nat)
  | copy (len dist : Nat)
  | endBlock
  | badLen
  | badDist

/-- The literal/length code at the front of the bits `x`, with the bits it takes. -/
def InflateState.lenCode (s : InflateState) (x : Nat) : Code := (select s.lencode s.lenbits x).2
def InflateState.lenSize (s : InflateState) (x : Nat) : Nat := selectBits s.lencode s.lenbits x

/-- The distance code at the front of the bits `x`, with the bits it takes. -/
def InflateState.distCode (s : InflateState) (x : Nat) : Code := (select s.distcode s.distbits x).2
def InflateState.distSize (s : InflateState) (x : Nat) : Nat := selectBits s.distcode s.distbits x

/-- The stream `v` begins with a symbol of `n` bits. -/
inductive Reads (s : InflateState) (v : BitStream) : Symbol → Nat → Prop
  | lit (l val : Nat) (hv : val < 256)
      (hc : s.lenCode v.val = { op := 0, bits := l, val := val }) (hn : s.lenSize v.val ≤ v.len) :
      Reads s v (.lit val) (s.lenSize v.val)
  | endBlock (l : Nat) (hc : s.lenCode v.val = { op := 96, bits := l, val := 0 })
      (hn : s.lenSize v.val ≤ v.len) : Reads s v .endBlock (s.lenSize v.val)
  | badLen (op bits : Nat) (ho : op = 64 ∨ op = 75 ∨ op = 199)
      (hc : s.lenCode v.val = { op := op, bits := bits, val := 0 })
      (hn : s.lenSize v.val ≤ v.len) : Reads s v .badLen (s.lenSize v.val)
  | badDist (l extra val l' n : Nat) (hl : l ≤ 15)
      (hc : s.lenCode v.val = { op := 16 + l, bits := l + extra, val := val })
      (hm : n = s.lenSize v.val + extra)
      (hd : s.distCode (v.val / 2 ^ n) = { op := 64, bits := l', val := 0 })
      (hn : n + s.distSize (v.val / 2 ^ n) ≤ v.len) :
      Reads s v .badDist (n + s.distSize (v.val / 2 ^ n))
  | copy (l extra val l' extra' val' n m : Nat) (hl : l ≤ 15) (hl' : l' ≤ 15)
      (hc : s.lenCode v.val = { op := 16 + l, bits := l + extra, val := val })
      (hm : n = s.lenSize v.val + extra)
      (hd : s.distCode (v.val / 2 ^ n) = { op := 16 + l', bits := l' + extra', val := val' })
      (hm' : m = n + s.distSize (v.val / 2 ^ n)) (hn : m + extra' ≤ v.len) :
      Reads s v (.copy (val + v.val / 2 ^ s.lenSize v.val % 2 ^ extra)
        (val' + v.val / 2 ^ m % 2 ^ extra')) (m + extra')

theorem Reads.size_le {s : InflateState} {v : BitStream} {sym : Symbol} {n : Nat}
    (h : Reads s v sym n) : s.lenSize v.val ≤ n ∧ n ≤ v.len := by
  cases h with
  | lit | endBlock | badLen => exact ⟨le_rfl, by assumption⟩
  | badDist l extra val l' n hl hc hm hd hn => exact ⟨by omega, hn⟩
  | copy l extra val l' extra' val' n m hl hl' hc hm hd hm' hn => exact ⟨by omega, hn⟩

section Stable
variable {P : Nat → Code → Prop} {entry : Nat → Code} {root : Nat}

/-- The selected code depends only on the bits it takes. -/
theorem TwoLevel.select_stable (h : TwoLevel P entry root) (hr : root ≤ 15)
    (hP : ∀ l c, l ≤ 15 → P l c → c.op = 0 ∨ 16 ≤ c.op) {v w : Nat}
    (hvw : v % 2 ^ selectBits entry root v = w % 2 ^ selectBits entry root v) :
    select entry root v = select entry root w := by
  rcases h.select_cases hr hP v with ⟨hd, -⟩ | ⟨curr, next, he, h1, h15, -⟩
  · simp only [selectBits, select, if_neg hd, Nat.zero_add] at hvw
    have hst := h.stable v w hvw
    simp only [select, ← hst, if_neg hd]
  · have hc : 1 ≤ curr ∧ curr ≤ 15 := by omega
    simp only [selectBits, select, he, if_pos hc] at hvw
    obtain ⟨hroot, hsub⟩ := (mod_two_pow_add_iff v w root _).mp hvw
    have hst := (h.sub hr hP he hc.1 hc.2).2 (v / 2 ^ root) (w / 2 ^ root) hsub
    dsimp only at hst
    simp only [select, ← hroot, he, if_pos hc, hst]

end Stable

/-- A run of literals and copies: the streams and the output, newest first, before and after. -/
inductive Decodes (s : InflateState) : BitStream → List UInt8 → BitStream → List UInt8 → Prop
  | refl (v : BitStream) (h : List UInt8) : Decodes s v h v h
  | lit {v v' : BitStream} {h h' : List UInt8} {val n : Nat} (hr : Reads s v (.lit val) n)
      (hd : Decodes s (v.drop n) (UInt8.ofNat val :: h) v' h') : Decodes s v h v' h'
  | copy {v v' : BitStream} {h h' : List UInt8} {len dist n : Nat}
      (hr : Reads s v (.copy len dist) n) (hlen : dist ≤ h.length)
      (hd : Decodes s (v.drop n) (copyMatch dist len h) v' h') : Decodes s v h v' h'

theorem Decodes.trans {s : InflateState} {v v' v'' : BitStream} {h h' h'' : List UInt8}
    (h1 : Decodes s v h v' h') (h2 : Decodes s v' h' v'' h'') : Decodes s v h v'' h'' := by
  induction h1 with
  | refl => exact h2
  | lit hr _ ih => exact .lit hr (ih h2)
  | copy hr hlen _ ih => exact .copy hr hlen (ih h2)

/-- How a block ends, or the decoding of its codes: with output `h` and space for `room` more
bytes, the state `s'` is reached after `n` more bits. -/
inductive Stops (s : InflateState) (h : List UInt8) (room : Nat) (v : BitStream) :
    Nat → InflateState → Prop
  | endBlock {n : Nat} (hr : Reads s v .endBlock n) : Stops s h room v n { s with mode := .type }
  | badLen {n : Nat} (hr : Reads s v .badLen n) :
      Stops s h room v n (s.setBad "invalid literal/length code")
  | badDist {n : Nat} (hr : Reads s v .badDist n) :
      Stops s h room v n (s.setBad "invalid distance code")
  | tooFar {len dist n : Nat} (hr : Reads s v (.copy len dist) n) (hfar : h.length < dist)
      (hroom : len ≤ room) : Stops s h room v n (s.setBad "invalid distance too far back")
  | handOver {len dist n : Nat} (hr : Reads s v (.copy len dist) n) (hroom : room < len) :
      Stops s h room v n { s with mode := .match_, length := len, was := len, offset := dist }

theorem Stops.size_le {s s' : InflateState} {h : List UInt8} {room n : Nat} {v : BitStream}
    (hs : Stops s h room v n s') : s.lenSize v.val ≤ n ∧ n ≤ v.len := by
  cases hs with
  | endBlock hr | badLen hr | badDist hr | tooFar hr | handOver hr => exact hr.size_le

theorem length_copyMatch (dist len : Nat) (h : List UInt8) :
    (copyMatch dist len h).length = len + h.length := by
  induction len generalizing h with
  | zero => simp [copyMatch]
  | succ len ih =>
    rw [copyMatch, ih, List.length_cons]
    omega

/-- A copy looks no further back than its distance. -/
theorem copyMatch_append {dist : Nat} (h0 : 0 < dist) (len : Nat) {h : List UInt8}
    (hd : dist ≤ h.length) (t : List UInt8) :
    copyMatch dist len (h ++ t) = copyMatch dist len h ++ t := by
  induction len generalizing h with
  | zero => rfl
  | succ len ih =>
    have hget : (h ++ t).getD (dist - 1) 0 = h.getD (dist - 1) 0 :=
      List.getD_append _ _ _ _ (by omega)
    rw [copyMatch, copyMatch, hget, ← ih (by simp only [List.length_cons]; omega)]
    rfl

theorem copyMatch_add (dist m n : Nat) (h : List UInt8) :
    copyMatch dist (m + n) h = copyMatch dist n (copyMatch dist m h) := by
  induction m generalizing h with
  | zero => simp [copyMatch]
  | succ m ih => rw [Nat.succ_add, copyMatch, ih, copyMatch]

theorem Decodes.length_le {s : InflateState} {v v' : BitStream} {h h' : List UInt8}
    (hd : Decodes s v h v' h') : h.length ≤ h'.length := by
  induction hd with
  | refl => exact le_rfl
  | lit _ _ ih => exact (Nat.le_succ _).trans ih
  | copy _ _ _ ih =>
    rw [length_copyMatch] at ih
    omega

/-- Symbols take at least the bits of the first code. -/
theorem Decodes.size_le {s : InflateState} {v v' : BitStream} {h h' : List UInt8}
    (hd : Decodes s v h v' h') : v'.len ≤ v.len ∧ (v' = v ∨ v'.len + s.lenSize v.val ≤ v.len) := by
  induction hd with
  | refl => exact ⟨le_rfl, .inl rfl⟩
  | lit hr _ ih =>
    have := hr.size_le
    rw [BitStream.drop_len] at ih
    exact ⟨by omega, .inr (by omega)⟩
  | copy hr _ _ ih =>
    have := hr.size_le
    rw [BitStream.drop_len] at ih
    exact ⟨by omega, .inr (by omega)⟩

end ZlibNg
