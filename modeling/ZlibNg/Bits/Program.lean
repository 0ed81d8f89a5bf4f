import ZlibNg.Bits.Stream

/-! Programs that read bits through an accumulator filled byte by byte. A program runs on the
accumulator, where it stops when input runs out, and on the ideal bit stream; `wp` collects
what makes the two agree. -/
namespace ZlibNg

/-- A bit accumulator and the input it is filled from. -/
structure BitReader where
  mem : Int → UInt8
  next : Int
  have_ : Nat
  hold : Nat
  bits : Nat
  lt : hold < 2 ^ bits

namespace BitReader

/-- The bits that are held. -/
def held (r : BitReader) : BitStream := ⟨r.hold, r.bits, r.lt⟩

/-- All bits still to be read: those held, then the input. -/
def stream (r : BitReader) : BitStream :=
  r.held.append (.ofBytes (bytesAt r.mem r.next r.have_))

/-- Get a byte of input into the accumulator. -/
def pull (r : BitReader) : BitReader :=
  { r with
    have_ := r.have_ - 1
    hold := r.hold + (r.mem r.next).toNat <<< r.bits
    next := r.next + 1
    bits := r.bits + 8
    lt := by
      have h := r.lt
      have hb := (r.mem r.next).toNat_lt
      rw [Nat.shiftLeft_eq, Nat.pow_add]
      calc r.hold + (r.mem r.next).toNat * 2 ^ r.bits
          < 2 ^ r.bits + (r.mem r.next).toNat * 2 ^ r.bits := by omega
        _ = ((r.mem r.next).toNat + 1) * 2 ^ r.bits := by ring
        _ ≤ 2 ^ 8 * 2 ^ r.bits := Nat.mul_le_mul_right _ hb
        _ = 2 ^ r.bits * 2 ^ 8 := Nat.mul_comm _ _ }

/-- Remove `n` bits. -/
def drop (r : BitReader) (n : Nat) : BitReader :=
  { r with
    hold := r.hold >>> n
    bits := r.bits - n
    lt := by
      rw [Nat.shiftRight_eq_div_pow]
      exact (r.held.drop n).lt }

/-- Clear the accumulator. -/
def clear (r : BitReader) : BitReader := { r with hold := 0, bits := 0, lt := Nat.one_pos }

/-- Pull bytes until `ready`, as long as there are any. -/
def pullUntil (ready : BitReader → Bool) : Nat → BitReader → BitReader
  | 0, r => r
  | fuel + 1, r => if ready r then r else pullUntil ready fuel r.pull

@[simp] theorem held_val (r : BitReader) : r.held.val = r.hold := rfl
@[simp] theorem held_len (r : BitReader) : r.held.len = r.bits := rfl
@[simp] theorem pull_bits (r : BitReader) : r.pull.bits = r.bits + 8 := rfl
@[simp] theorem pull_have (r : BitReader) : r.pull.have_ = r.have_ - 1 := rfl
@[simp] theorem pull_mem (r : BitReader) : r.pull.mem = r.mem := rfl
@[simp] theorem drop_bits (r : BitReader) (n : Nat) : (r.drop n).bits = r.bits - n := rfl
@[simp] theorem drop_have (r : BitReader) (n : Nat) : (r.drop n).have_ = r.have_ := rfl
@[simp] theorem drop_mem (r : BitReader) (n : Nat) : (r.drop n).mem = r.mem := rfl
@[simp] theorem clear_bits (r : BitReader) : r.clear.bits = 0 := rfl
@[simp] theorem clear_have (r : BitReader) : r.clear.have_ = r.have_ := rfl
@[simp] theorem clear_mem (r : BitReader) : r.clear.mem = r.mem := rfl

theorem stream_len (r : BitReader) : r.stream.len = r.bits + 8 * r.have_ := by
  simp [stream]

theorem stream_val (r : BitReader) :
    r.stream.val = r.hold + 2 ^ r.bits * leNat (bytesAt r.mem r.next r.have_) := rfl

theorem held_drop (r : BitReader) (n : Nat) : (r.drop n).held = r.held.drop n := by
  ext
  · simp [drop, Nat.shiftRight_eq_div_pow]
  · simp

theorem held_of_empty {r : BitReader} (h : r.have_ = 0) : r.held = r.stream := by
  ext
  · simp [stream_val, h, bytesAt]
  · simp [stream_len, h]

/-- The held bits are the first bits of the stream. -/
theorem hold_eq_peek (r : BitReader) : r.hold = r.stream.peek r.bits := by
  rw [BitStream.peek, stream_val, Nat.add_mul_mod_self_left, Nat.mod_eq_of_lt r.lt]

theorem hold_mod (r : BitReader) {n : Nat} (h : n ≤ r.bits) :
    r.hold % 2 ^ n = r.stream.val % 2 ^ n := by
  rw [r.hold_eq_peek, BitStream.peek, Nat.mod_mod_of_dvd _ (Nat.pow_dvd_pow 2 h)]

@[simp] theorem stream_pull {r : BitReader} (h : r.have_ ≠ 0) : r.pull.stream = r.stream := by
  obtain ⟨k, hk⟩ := Nat.exists_eq_succ_of_ne_zero h
  ext
  · simp only [stream_val, pull, hk, bytesAt, Nat.succ_sub_one, leNat_cons, Nat.shiftLeft_eq,
      Nat.succ_eq_add_one]
    rw [Nat.pow_add]
    ring
  · simp only [stream_len, pull_bits, pull_have, hk, Nat.succ_eq_add_one]
    omega

theorem stream_drop {r : BitReader} {n : Nat} (h : n ≤ r.bits) :
    (r.drop n).stream = r.stream.drop n := by
  rw [stream, held_drop, stream, BitStream.drop_append (by simpa using h)]
  rfl

theorem stream_clear (r : BitReader) : r.clear.stream = r.stream.drop r.bits := by
  have : r.clear.stream = (r.drop r.bits).stream := by
    ext
    · simp only [stream_val, clear, drop, Nat.shiftRight_eq_div_pow, Nat.div_eq_of_lt r.lt,
        Nat.sub_self]
    · simp [stream_len]
  rw [this, stream_drop le_rfl]

/-- Pulling stops when ready or out of input, and never earlier than it has to. -/
theorem pullUntil_spec (ready : BitReader → Bool) (r : BitReader) :
    let r' := pullUntil ready r.have_ r
    (r'.stream = r.stream ∧ r'.mem = r.mem) ∧ (ready r' = true ∨ r'.have_ = 0) ∧
      (r' = r ∨ ∃ r₀, ready r₀ = false ∧ r₀.stream = r.stream ∧ r'.bits = r₀.bits + 8 ∧
        r.bits ≤ r₀.bits ∧ r₀.bits % 8 = r.bits % 8) := by
  generalize hf : r.have_ = fuel
  induction fuel generalizing r with
  | zero => simp [pullUntil, hf]
  | succ fuel ih =>
    unfold pullUntil
    rcases hr : ready r with _ | _
    · simp only [Bool.false_eq_true, ↓reduceIte]
      have hpull := stream_pull (r := r) (by omega)
      obtain ⟨⟨h1, h1'⟩, h2, h3⟩ := ih r.pull (by simp [hf])
      refine ⟨⟨h1.trans hpull, h1'⟩, h2, .inr ?_⟩
      rcases h3 with h3 | ⟨r₀, a, b, c, d, e⟩
      · exact ⟨r, hr, rfl, by rw [h3]; rfl, le_rfl, rfl⟩
      · rw [pull_bits] at d e
        exact ⟨r₀, a, b.trans hpull, c, by omega, by omega⟩
    · simp [hr]

end BitReader

/-- A program over the bit accumulator, with tables of entries in `γ`. -/
inductive BitProg (γ α : Type) where
  /-- The end, with the accumulator as it is. -/
  | ret (a : α)
  /-- At least `n` bits. -/
  | need (n : Nat) (k : BitProg γ α)
  /-- The value of the low `n` bits. -/
  | peek (n : Nat) (k : Nat → BitProg γ α)
  /-- The whole accumulator. -/
  | whole (k : Nat → BitProg γ α)
  /-- Without the low `n` bits. -/
  | skip (n : Nat) (k : BitProg γ α)
  /-- Without the bits up to a byte boundary. -/
  | align (k : BitProg γ α)
  /-- Empty. -/
  | empty (k : BitProg γ α)
  /-- The entry that the accumulator selects, with as many bits as the entry takes. -/
  | find (table : Nat → γ) (size : γ → Nat) (k : γ → BitProg γ α)

namespace BitProg
variable {γ α β : Type}

def bind : BitProg γ α → (α → BitProg γ β) → BitProg γ β
  | ret a, f => f a
  | need n k, f => need n (k.bind f)
  | peek n k, f => peek n fun v => (k v).bind f
  | whole k, f => whole fun v => (k v).bind f
  | skip n k, f => skip n (k.bind f)
  | align k, f => align (k.bind f)
  | empty k, f => empty (k.bind f)
  | find t s k, f => find t s fun c => (k c).bind f

instance : Monad (BitProg γ) where
  pure := ret
  bind := bind

def needBits (n : Nat) : BitProg γ Unit := need n (ret ())
def bits (n : Nat) : BitProg γ Nat := peek n ret
def hold : BitProg γ Nat := whole ret
def dropBits (n : Nat) : BitProg γ Unit := skip n (ret ())
def byteBits : BitProg γ Unit := align (ret ())
def initBits : BitProg γ Unit := empty (ret ())
def lookup (table : Nat → γ) (size : γ → Nat) : BitProg γ γ := find table size ret

section Simp
variable (f : α → BitProg γ β)

@[simp] theorem pure_eq (a : α) : (pure a : BitProg γ α) = ret a := rfl
@[simp] theorem ret_bind (a : α) : (ret a : BitProg γ α) >>= f = f a := rfl
@[simp] theorem need_bind (n : Nat) (k : BitProg γ α) : need n k >>= f = need n (k >>= f) := rfl
@[simp] theorem skip_bind (n : Nat) (k : BitProg γ α) : skip n k >>= f = skip n (k >>= f) := rfl
@[simp] theorem align_bind (k : BitProg γ α) : align k >>= f = align (k >>= f) := rfl
@[simp] theorem empty_bind (k : BitProg γ α) : empty k >>= f = empty (k >>= f) := rfl
@[simp] theorem peek_bind (n : Nat) (k : Nat → BitProg γ α) :
    peek n k >>= f = peek n fun v => k v >>= f := rfl
@[simp] theorem whole_bind (k : Nat → BitProg γ α) : whole k >>= f = whole fun v => k v >>= f := rfl
@[simp] theorem find_bind (t : Nat → γ) (s : γ → Nat) (k : γ → BitProg γ α) :
    find t s k >>= f = find t s fun c => k c >>= f := rfl
@[simp] theorem ite_bind (c : Prop) [Decidable c] (p q : BitProg γ α) :
    (if c then p else q) >>= f = if c then p >>= f else q >>= f := by
  split <;> rfl

end Simp

/-- Apply a function to the value. -/
def map (f : α → β) (p : BitProg γ α) : BitProg γ β := p.bind fun a => ret (f a)

theorem bind_pure (f : α → β) (p : BitProg γ α) : (p >>= fun a => pure (f a)) = p.map f := rfl

/-- The result of a run: the accumulator at the point where input ran out, or the value and
the accumulator at the end. -/
inductive Result (α : Type) where
  | leave (r : BitReader)
  | done (a : α) (r : BitReader)

/-- Run on an accumulator. -/
def run : BitProg γ α → BitReader → Result α
  | ret a, r => .done a r
  | need n k, r =>
    let r := r.pullUntil (fun r => n ≤ r.bits) r.have_
    if n ≤ r.bits then k.run r else .leave r
  | peek n k, r => (k (r.hold % 2 ^ n)).run r
  | whole k, r => (k r.hold).run r
  | skip n k, r => k.run (r.drop n)
  | align k, r => k.run (r.drop (r.bits % 8))
  | empty k, r => k.run r.clear
  | find table size k, r =>
    let r := r.pullUntil (fun r => size (table r.hold) ≤ r.bits) r.have_
    if size (table r.hold) ≤ r.bits then (k (table r.hold)).run r else .leave r

/-- Run on a bit stream, of which `u` bits have been asked for; nothing when it is too short. -/
def runStream : BitProg γ α → Nat → BitStream → Option (α × BitStream)
  | ret a, _, s => some (a, s)
  | need n k, u, s => if n ≤ s.len then k.runStream (max u n) s else none
  | peek n k, u, s => (k (s.peek n)).runStream u s
  | whole k, u, s => (k (s.peek u)).runStream u s
  | skip n k, u, s => k.runStream (u - n) (s.drop n)
  | align k, u, s => k.runStream u (s.drop (s.len % 8))
  | empty k, u, s => k.runStream 0 (s.drop u)
  | find table size k, u, s =>
    if size (table s.val) ≤ s.len then (k (table s.val)).runStream (max u (size (table s.val))) s
    else none

/-- An entry is selected by the bits it takes. -/
def Stable (table : Nat → γ) (size : γ → Nat) : Prop :=
  ∀ v w, v % 2 ^ size (table v) = w % 2 ^ size (table v) → table v = table w

/-- From `b` held bits of which `u` have been asked for, every run asks for bits before it
skips any, skips no more than asked for, and takes the accumulator whole only when it holds
just the bits asked for; `L` holds of the count where it leaves, and `Q` of the value and of
both counts at the end. -/
def wp : BitProg γ α → Bool → Nat → Nat → (Nat → Prop) → (α → Nat → Nat → Prop) → Prop
  | ret a, _, b, u, _, Q => Q a b u
  | need n k, fresh, b, u, L, Q => fresh = true ∧
      (∀ b', b ≤ b' → b' < n → b' % 8 = b % 8 → L b') ∧
      ∀ b', b ≤ b' → n ≤ b' → b' % 8 = b % 8 → b' = b ∨ b' < n + 8 → k.wp true b' (max u n) L Q
  | peek n k, fresh, b, u, L, Q => n ≤ b ∧ ∀ v, v < 2 ^ n → (k v).wp fresh b u L Q
  | whole k, fresh, b, u, L, Q => b = u ∧ ∀ v, v < 2 ^ b → (k v).wp fresh b u L Q
  | skip n k, _, b, u, L, Q => n ≤ b ∧ n ≤ u ∧ k.wp false (b - n) (u - n) L Q
  | align k, _, b, u, L, Q => k.wp false (b - b % 8) u L Q
  | empty k, _, b, u, L, Q => b = u ∧ k.wp false 0 0 L Q
  | find table size k, fresh, b, u, L, Q => fresh = true ∧ Stable table size ∧
      (∀ v b', b ≤ b' → b' < size (table v) → b' % 8 = b % 8 → L b') ∧
      ∀ v b', b ≤ b' → size (table v) ≤ b' → b' % 8 = b % 8 → b' = b ∨ b' < size (table v) + 8 →
        (k (table v)).wp true b' (max u (size (table v))) L Q

@[simp] theorem wp_ite (c : Prop) [Decidable c] (p q : BitProg γ α) (fresh : Bool) (b u : Nat)
    (L : Nat → Prop) (Q : α → Nat → Nat → Prop) : (if c then p else q).wp fresh b u L Q ↔
      (c → p.wp fresh b u L Q) ∧ (¬ c → q.wp fresh b u L Q) := by
  split <;> simp [*]

@[simp] theorem runStream_ite (c : Prop) [Decidable c] (p q : BitProg γ α) (u : Nat) (s : BitStream) :
    (if c then p else q).runStream u s = if c then p.runStream u s else q.runStream u s := by
  split <;> rfl

theorem runStream_map (f : α → β) (p : BitProg γ α) (u : Nat) (s : BitStream) :
    (p.map f).runStream u s = (p.runStream u s).map fun x => (f x.1, x.2) := by
  induction p generalizing u s with
  | ret a => rfl
  | need n k ih =>
    simp only [map, bind, runStream]
    split
    · exact ih ..
    · rfl
  | find table size k ih =>
    simp only [map, bind, runStream]
    split
    · exact ih ..
    · rfl
  | peek n k ih | whole k ih | skip n k ih | align k ih | empty k ih => exact ih ..

theorem wp_map (f : α → β) (p : BitProg γ α) (fresh : Bool) (b u : Nat) (L : Nat → Prop)
    (Q : β → Nat → Nat → Prop) :
    (p.map f).wp fresh b u L Q ↔ p.wp fresh b u L fun a => Q (f a) := by
  induction p generalizing fresh b u with
  | ret a => rfl
  | need n k ih => simp only [map, bind, wp] at ih ⊢; simp only [ih]
  | peek n k ih => simp only [map, bind, wp] at ih ⊢; simp only [ih]
  | whole k ih => simp only [map, bind, wp] at ih ⊢; simp only [ih]
  | skip n k ih => simp only [map, bind, wp] at ih ⊢; simp only [ih]
  | align k ih => simp only [map, bind, wp] at ih ⊢; simp only [ih]
  | empty k ih => simp only [map, bind, wp] at ih ⊢; simp only [ih]
  | find table size k ih => simp only [map, bind, wp] at ih ⊢; simp only [ih]

/-- Programs that read the same bits, and end in related values. -/
def Agree (R : α → β → Prop) : BitProg γ α → BitProg γ β → Prop
  | ret a, ret b => R a b
  | need n k, need m l => n = m ∧ Agree R k l
  | peek n k, peek m l => n = m ∧ ∀ v, Agree R (k v) (l v)
  | whole k, whole l => ∀ v, Agree R (k v) (l v)
  | skip n k, skip m l => n = m ∧ Agree R k l
  | align k, align l => Agree R k l
  | empty k, empty l => Agree R k l
  | find table size k, find table' size' l => table = table' ∧ size = size' ∧ ∀ c, Agree R (k c) (l c)
  | _, _ => False

section Agree
variable (R : α → β → Prop)

@[simp] theorem agree_ret (a : α) (b : β) : Agree R (ret a : BitProg γ α) (ret b) ↔ R a b := Iff.rfl

@[simp] theorem agree_need (n m : Nat) (k : BitProg γ α) (l : BitProg γ β) :
    Agree R (need n k) (need m l) ↔ n = m ∧ Agree R k l := Iff.rfl

@[simp] theorem agree_peek (n m : Nat) (k : Nat → BitProg γ α) (l : Nat → BitProg γ β) :
    Agree R (peek n k) (peek m l) ↔ n = m ∧ ∀ v, Agree R (k v) (l v) := Iff.rfl

@[simp] theorem agree_whole (k : Nat → BitProg γ α) (l : Nat → BitProg γ β) :
    Agree R (whole k) (whole l) ↔ ∀ v, Agree R (k v) (l v) := Iff.rfl

@[simp] theorem agree_skip (n m : Nat) (k : BitProg γ α) (l : BitProg γ β) :
    Agree R (skip n k) (skip m l) ↔ n = m ∧ Agree R k l := Iff.rfl

@[simp] theorem agree_align (k : BitProg γ α) (l : BitProg γ β) :
    Agree R (align k) (align l) ↔ Agree R k l := Iff.rfl

@[simp] theorem agree_empty (k : BitProg γ α) (l : BitProg γ β) :
    Agree R (empty k) (empty l) ↔ Agree R k l := Iff.rfl

@[simp] theorem agree_find (table table' : Nat → γ) (size size' : γ → Nat) (k : γ → BitProg γ α)
    (l : γ → BitProg γ β) : Agree R (find table size k) (find table' size' l) ↔
      table = table' ∧ size = size' ∧ ∀ c, Agree R (k c) (l c) := Iff.rfl

end Agree

@[simp] theorem agree_ite (R : α → β → Prop) (c : Prop) {hc hc' : Decidable c}
    (p q : BitProg γ α) (p' q' : BitProg γ β) :
    Agree R (@ite _ c hc p q) (@ite _ c hc' p' q') ↔ (c → Agree R p p') ∧ (¬ c → Agree R q q') := by
  by_cases h : c <;> simp [h]

/-- Programs that agree end alike on every stream. -/
theorem agree_runStream {R : α → β → Prop} {p : BitProg γ α} {q : BitProg γ β} (h : Agree R p q)
    (u : Nat) (v : BitStream) :
    (p.runStream u v = none ∧ q.runStream u v = none) ∨
    ∃ a b v', p.runStream u v = some (a, v') ∧ q.runStream u v = some (b, v') ∧ R a b := by
  induction p generalizing q u v with
  | ret a =>
    cases q with
    | ret b => exact .inr ⟨a, b, v, rfl, rfl, h⟩
    | _ => exact False.elim h
  | need n k ih =>
    cases q with
    | need m l =>
      obtain ⟨rfl, h⟩ := h
      simp only [runStream]
      split
      · exact ih h ..
      · exact .inl ⟨rfl, rfl⟩
    | _ => exact False.elim h
  | peek n k ih =>
    cases q with
    | peek m l =>
      obtain ⟨rfl, h⟩ := h
      exact ih _ (h _) ..
    | _ => exact False.elim h
  | whole k ih =>
    cases q with
    | whole l => exact ih _ (h _) ..
    | _ => exact False.elim h
  | skip n k ih =>
    cases q with
    | skip m l =>
      obtain ⟨rfl, h⟩ := h
      exact ih h ..
    | _ => exact False.elim h
  | align k ih =>
    cases q with
    | align l => exact ih h ..
    | _ => exact False.elim h
  | empty k ih =>
    cases q with
    | empty l => exact ih h ..
    | _ => exact False.elim h
  | find table size k ih =>
    cases q with
    | find table' size' l =>
      obtain ⟨rfl, rfl, h⟩ := h
      simp only [runStream]
      split
      · exact ih _ (h _) ..
      · exact .inl ⟨rfl, rfl⟩
    | _ => exact False.elim h

/-- What a run on the accumulator has to do with the run on the stream. -/
structure Result.Done (p : BitProg γ α) (u : Nat) (r : BitReader) (Q : α → Nat → Nat → Prop) (a : α)
    (r' : BitReader) : Prop where
  mem : r'.mem = r.mem
  stream : ∀ t : List UInt8, p.runStream u (r.stream.append (.ofBytes t)) =
    some (a, r'.stream.append (.ofBytes t))
  post : ∃ u', Q a r'.bits u' ∧
    (r.bits < u + 8 ∨ p.runStream u r.held = none → r'.bits < u' + 8)

structure Result.Left (p : BitProg γ α) (u : Nat) (r : BitReader) (L : Nat → Prop) (r' : BitReader) :
    Prop where
  mem : r'.mem = r.mem
  empty : r'.have_ = 0
  stream : r'.stream = r.stream
  stuck : p.runStream u r.stream = none
  held : L r'.bits

def Result.Spec (p : BitProg γ α) (fresh : Bool) (u : Nat) (r : BitReader)
    (L : Nat → Prop) (Q : α → Nat → Nat → Prop) : Result α → Prop
  | .done a r' => Result.Done p u r Q a r'
  | .leave r' => fresh = true ∧ Result.Left p u r L r'

/-- The first operation of a program is done: the rest of it, `k`, is run on `r₁`. -/
theorem Result.Spec.lift {p k : BitProg γ α} {fresh fresh₁ : Bool} {u u₁ : Nat} {r r₁ : BitReader}
    {L : Nat → Prop} {Q : α → Nat → Nat → Prop} {res : Result α}
    (h : Result.Spec k fresh₁ u₁ r₁ L Q res) (hmem : r₁.mem = r.mem)
    (hrun : ∀ t : List UInt8, p.runStream u (r.stream.append (.ofBytes t)) =
      k.runStream u₁ (r₁.stream.append (.ofBytes t)))
    (hlazy : r.bits < u + 8 ∨ p.runStream u r.held = none →
      r₁.bits < u₁ + 8 ∨ k.runStream u₁ r₁.held = none)
    (hleave : fresh₁ = true → fresh = true ∧ r₁.stream = r.stream ∧
      (k.runStream u₁ r₁.stream = none → p.runStream u r.stream = none)) :
    Result.Spec p fresh u r L Q res := by
  cases res with
  | leave r' =>
    obtain ⟨hfresh, hleft⟩ := h
    obtain ⟨hf, hs, hstuck⟩ := hleave hfresh
    exact ⟨hf, hleft.mem.trans hmem, hleft.empty, hleft.stream.trans hs, hstuck hleft.stuck,
      hleft.held⟩
  | done a r' =>
    obtain ⟨u', hQ, hu⟩ := h.post
    exact ⟨h.mem.trans hmem, fun t => (hrun t).trans (h.stream t), u', hQ, fun hl => hu (hlazy hl)⟩

/-- Whole bytes are pulled, and none but those needed for `n` bits. -/
theorem pullUntil_need {n : Nat} {r r₁ : BitReader}
    (h : BitReader.pullUntil (fun r => decide (n ≤ r.bits)) r.have_ r = r₁) :
    r.bits ≤ r₁.bits ∧ r₁.bits % 8 = r.bits % 8 ∧ (r₁ = r ∨ r₁.bits < n + 8) := by
  obtain ⟨-, -, hpull⟩ := BitReader.pullUntil_spec (fun r => decide (n ≤ r.bits)) r
  rw [h] at hpull
  rcases hpull with rfl | ⟨r₀, h0, -, h1, h2, h3⟩
  · exact ⟨le_rfl, rfl, .inl rfl⟩
  · simp only [decide_eq_false_iff_not] at h0
    exact ⟨by omega, by omega, .inr (by omega)⟩

/-- Whole bytes are pulled, and none but those needed for the entry. -/
theorem Stable.pullUntil_find {table : Nat → γ} {size : γ → Nat} (hst : Stable table size)
    {r r₁ : BitReader}
    (h : BitReader.pullUntil (fun r => decide (size (table r.hold) ≤ r.bits)) r.have_ r = r₁) :
    r.bits ≤ r₁.bits ∧ r₁.bits % 8 = r.bits % 8 ∧
      (size (table r₁.hold) ≤ r₁.bits → r₁ = r ∨ r₁.bits < size (table r₁.hold) + 8) := by
  obtain ⟨⟨hs, -⟩, -, hpull⟩ :=
    BitReader.pullUntil_spec (fun r => decide (size (table r.hold) ≤ r.bits)) r
  rw [h] at hs hpull
  rcases hpull with rfl | ⟨r₀, h0, hs0, h1, h2, h3⟩
  · exact ⟨le_rfl, rfl, fun _ => .inl rfl⟩
  · refine ⟨by omega, by omega, fun hn => .inr ?_⟩
    -- with a byte less the same entry would have been selected already
    by_contra hge
    have hle : size (table r₁.hold) ≤ r₀.bits := by omega
    have heq : table r₁.hold = table r₀.hold := hst _ _ (by
      rw [r₁.hold_mod hn, r₀.hold_mod hle, hs, hs0])
    rw [heq] at hle
    simp [hle] at h0

/-- What a selected entry is does not depend on the bits behind those it takes. -/
theorem Stable.selects {table : Nat → γ} {size : γ → Nat} (hst : Stable table size)
    {r r₁ : BitReader} (hs : r₁.stream = r.stream) (hn : size (table r₁.hold) ≤ r₁.bits)
    (t : BitStream) : table (r.stream.append t).val = table r₁.hold := by
  refine (hst _ _ ?_).symm
  have hpeek := BitStream.peek_append (s := r₁.stream) (n := size (table r₁.hold))
    (by rw [BitReader.stream_len]; omega) t
  rw [BitStream.peek, BitStream.peek] at hpeek
  rw [r₁.hold_mod hn, ← hs, hpeek]

/-- A program that passes `wp` does on the accumulator what it does on the stream: it ends in
the same value with the rest of the stream, or it leaves, with all bits still there, where the
stream is too short. -/
theorem run_spec (p : BitProg γ α) {fresh : Bool} {u : Nat} {r : BitReader}
    {L : Nat → Prop} {Q : α → Nat → Nat → Prop} (h : p.wp fresh r.bits u L Q) :
    Result.Spec p fresh u r L Q (p.run r) := by
  induction p generalizing fresh u r with
  | ret a =>
    refine ⟨rfl, fun t => rfl, u, h, ?_⟩
    rintro (h | h)
    · exact h
    · cases h
  | need n k ih =>
    obtain ⟨rfl, hleave, h⟩ := h
    simp only [run]
    obtain ⟨⟨hs, hm⟩, hend, -⟩ := BitReader.pullUntil_spec (fun r => decide (n ≤ r.bits)) r
    generalize hr₁ : BitReader.pullUntil (fun r => decide (n ≤ r.bits)) r.have_ r = r₁ at hs hm hend
    obtain ⟨hle, hmod, hlast⟩ := pullUntil_need hr₁
    have hlen := congrArg BitStream.len hs
    rw [BitReader.stream_len] at hlen
    split
    · next hn =>
      refine (ih (h r₁.bits hle hn hmod (hlast.imp_left fun e => by rw [e]))).lift hm
        (fun t => ?_) (fun hlazy => ?_) fun _ => ⟨rfl, hs, fun hstuck => ?_⟩
      · rw [runStream, if_pos (by simp only [BitStream.append_len]; omega), hs]
      · rcases hlast with rfl | hlt
        · refine hlazy.imp (fun h => by omega) fun h => ?_
          rwa [runStream, BitReader.held_len, if_pos hn] at h
        · exact .inl (by omega)
      · rw [runStream, if_pos (by omega), ← hs, hstuck]
    · next hn =>
      have hempty : r₁.have_ = 0 := hend.resolve_left (by simpa using hn)
      refine ⟨rfl, hm, hempty, hs, ?_, hleave _ hle (by omega) hmod⟩
      rw [runStream, if_neg (by omega)]
  | peek n k ih =>
    obtain ⟨hn, h⟩ := h
    refine (ih (r.hold % 2 ^ n) (h _ (Nat.mod_lt _ (Nat.two_pow_pos n)))).lift rfl (fun t => ?_) id
      fun hf => ⟨hf, rfl, fun hstuck => ?_⟩
    · rw [runStream, BitStream.peek_append (by rw [BitReader.stream_len]; omega), r.hold_mod hn]
      rfl
    · rw [runStream, BitStream.peek, ← r.hold_mod hn, hstuck]
  | whole k ih =>
    obtain ⟨rfl, h⟩ := h
    refine (ih r.hold (h _ r.lt)).lift rfl (fun t => ?_) (fun _ => .inl (by omega))
      fun hf => ⟨hf, rfl, fun hstuck => ?_⟩
    · rw [runStream, BitStream.peek_append (by rw [BitReader.stream_len]; omega), ← r.hold_eq_peek]
    · rw [runStream, ← r.hold_eq_peek, hstuck]
  | skip n k ih =>
    obtain ⟨hn, hu, h⟩ := h
    refine (ih h).lift rfl (fun t => ?_) (fun hlazy => hlazy.imp (fun h => ?_) fun h => ?_)
      fun hf => (by cases hf)
    · rw [runStream, BitStream.drop_append (by rw [BitReader.stream_len]; omega),
        ← BitReader.stream_drop hn]
    · rw [BitReader.drop_bits]
      omega
    · rwa [runStream, ← BitReader.held_drop] at h
  | align k ih =>
    have hn := Nat.mod_le r.bits 8
    refine (ih (r := r.drop (r.bits % 8)) h).lift rfl (fun t => ?_) (fun hlazy => hlazy.imp (fun h => ?_) fun h => ?_)
      fun hf => (by cases hf)
    · have hlen : (r.stream.append (.ofBytes t)).len % 8 = r.bits % 8 := by
        rw [BitStream.append_len, BitReader.stream_len, BitStream.ofBytes_len]
        omega
      rw [runStream, hlen, BitStream.drop_append (by rw [BitReader.stream_len]; omega),
        ← BitReader.stream_drop hn]
    · rw [BitReader.drop_bits]
      omega
    · rwa [runStream, BitReader.held_len, ← BitReader.held_drop] at h
  | empty k ih =>
    obtain ⟨rfl, h⟩ := h
    refine (ih h).lift rfl (fun t => ?_) (fun _ => .inl (by simp)) fun hf => (by cases hf)
    rw [runStream, BitStream.drop_append (by rw [BitReader.stream_len]; omega),
      ← BitReader.stream_clear]
  | find table size k ih =>
    obtain ⟨rfl, hst, hleave, h⟩ := h
    simp only [run]
    obtain ⟨⟨hs, hm⟩, hend, -⟩ :=
      BitReader.pullUntil_spec (fun r => decide (size (table r.hold) ≤ r.bits)) r
    generalize hr₁ : BitReader.pullUntil (fun r => decide (size (table r.hold) ≤ r.bits)) r.have_ r =
      r₁ at hs hm hend
    obtain ⟨hle, hmod, hlast⟩ := hst.pullUntil_find hr₁
    have hlen := congrArg BitStream.len hs
    rw [BitReader.stream_len] at hlen
    split
    · next hn =>
      refine (ih (table r₁.hold) (h r₁.hold r₁.bits hle hn hmod
        ((hlast hn).imp_left fun e => by rw [e]))).lift hm (fun t => ?_) (fun hlazy => ?_)
        fun _ => ⟨rfl, hs, fun hstuck => ?_⟩
      · rw [runStream, hst.selects hs hn, if_pos (by simp only [BitStream.append_len]; omega), hs]
      · rcases hlast hn with rfl | hlt
        · refine hlazy.imp (fun h => by omega) fun h => ?_
          rwa [runStream, BitReader.held_val, BitReader.held_len, if_pos hn] at h
        · exact .inl (by omega)
      · have hsel : table r.stream.val = table r₁.hold := (hst _ _ (by rw [r₁.hold_mod hn, hs])).symm
        rw [runStream, hsel, if_pos (by omega), ← hs, hstuck]
    · next hn =>
      have hempty : r₁.have_ = 0 := hend.resolve_left (by simpa using hn)
      refine ⟨rfl, hm, hempty, hs, ?_, hleave r₁.hold r₁.bits hle (by omega) hmod⟩
      rw [runStream, ← hs, ← BitReader.held_of_empty hempty, BitReader.held_val,
        BitReader.held_len, if_neg hn]

/-- With `u` bits asked for and `n` taken before, the program takes no bits but those asked for,
and `Q` holds at the end of the value and of a number of bits that were taken. -/
@[simp] def takes : BitProg γ α → Nat → Nat → (α → Nat → Prop) → Prop
  | ret a, _, n, Q => Q a n
  | need m k, u, n, Q => k.takes (max u m) n Q
  | peek _ k, u, n, Q => ∀ v, (k v).takes u n Q
  | whole k, u, n, Q => ∀ v, (k v).takes u n Q
  | skip m k, u, n, Q => m ≤ u ∧ k.takes (u - m) (n + m) Q
  | align k, _, n, Q => k.takes 0 n Q
  | empty k, u, n, Q => k.takes 0 (n + u) Q
  | find table size k, u, n, Q => ∀ v, (k (table v)).takes (max u (size (table v))) n Q

@[simp] theorem takes_ite (c : Prop) [Decidable c] (p q : BitProg γ α) (u n : Nat)
    (Q : α → Nat → Prop) :
    (if c then p else q).takes u n Q ↔ (c → p.takes u n Q) ∧ (¬ c → q.takes u n Q) := by
  split <;> simp [*]

theorem takes_spec {p : BitProg γ α} {u n : Nat} {Q : α → Nat → Prop} (h : p.takes u n Q)
    {u' : Nat} {v v' : BitStream} {a : α} (hu : u ≤ u') (hv : u ≤ v.len)
    (hrun : p.runStream u' v = some (a, v')) : ∃ m, Q a m ∧ v'.len + m ≤ v.len + n := by
  induction p generalizing u n u' v with
  | ret b =>
    obtain ⟨rfl, rfl⟩ : b = a ∧ v = v' := by simpa [runStream] using hrun
    exact ⟨n, h, le_rfl⟩
  | need m k ih =>
    simp only [runStream] at hrun
    split at hrun
    · exact ih h (by omega) (by omega) hrun
    · cases hrun
  | peek m k ih => exact ih _ (h _) hu hv hrun
  | whole k ih => exact ih _ (h _) hu hv hrun
  | skip m k ih =>
    obtain ⟨hm, hk⟩ := h
    obtain ⟨j, hj, hle⟩ := ih hk (by omega) (by rw [BitStream.drop_len]; omega) hrun
    rw [BitStream.drop_len] at hle
    exact ⟨j, hj, by omega⟩
  | align k ih =>
    obtain ⟨j, hj, hle⟩ := ih h (Nat.zero_le _) (Nat.zero_le _) hrun
    rw [BitStream.drop_len] at hle
    exact ⟨j, hj, by omega⟩
  | empty k ih =>
    obtain ⟨j, hj, hle⟩ := ih h (Nat.zero_le _) (Nat.zero_le _) hrun
    rw [BitStream.drop_len] at hle
    exact ⟨j, hj, by omega⟩
  | find table size k ih =>
    simp only [runStream] at hrun
    split at hrun
    · exact ih _ (h _) (by omega) (by omega) hrun
    · cases hrun

/-- The accumulator that a run leaves. -/
def Result.reader : Result α → BitReader
  | .leave r => r
  | .done _ r => r

theorem pullUntil_ends (ready : BitReader → Bool) (r : BitReader) :
    let r' := r.pullUntil ready r.have_
    r'.mem = r.mem ∧ r'.next + r'.have_ = r.next + r.have_ ∧ r'.have_ ≤ r.have_ := by
  generalize hf : r.have_ = fuel
  induction fuel generalizing r with
  | zero => simp [BitReader.pullUntil, hf]
  | succ fuel ih =>
    unfold BitReader.pullUntil
    split
    · simp [hf]
    · obtain ⟨h1, h2, h3⟩ := ih r.pull (by simp [hf])
      have hnext : r.pull.next = r.next + 1 := rfl
      refine ⟨h1, ?_, ?_⟩ <;> omega

/-- A run takes its input from the front. -/
theorem run_ends (p : BitProg γ α) (r : BitReader) :
    (p.run r).reader.mem = r.mem ∧
    (p.run r).reader.next + (p.run r).reader.have_ = r.next + r.have_ ∧
    (p.run r).reader.have_ ≤ r.have_ := by
  induction p generalizing r with
  | ret a => exact ⟨rfl, rfl, le_rfl⟩
  | need n k ih =>
    obtain ⟨h1, h2, h3⟩ := pullUntil_ends (fun r => decide (n ≤ r.bits)) r
    simp only [run]
    split
    · obtain ⟨g1, g2, g3⟩ := ih (r.pullUntil (fun r => decide (n ≤ r.bits)) r.have_)
      exact ⟨g1.trans h1, g2.trans h2, g3.trans h3⟩
    · exact ⟨h1, h2, h3⟩
  | find table size k ih =>
    obtain ⟨h1, h2, h3⟩ := pullUntil_ends (fun r => decide (size (table r.hold) ≤ r.bits)) r
    simp only [run]
    split
    · obtain ⟨g1, g2, g3⟩ :=
        ih _ (r.pullUntil (fun r => decide (size (table r.hold) ≤ r.bits)) r.have_)
      exact ⟨g1.trans h1, g2.trans h2, g3.trans h3⟩
    · exact ⟨h1, h2, h3⟩
  | peek n k ih => exact ih _ r
  | whole k ih => exact ih _ r
  | skip n k ih => exact ih (r.drop n)
  | align k ih => exact ih (r.drop (r.bits % 8))
  | empty k ih => exact ih r.clear

end BitProg
end ZlibNg
