import ZlibNg.Bits.Program

/-! A bound on the bits that a program asks for at a time bounds the bits it leaves. -/
namespace ZlibNg

namespace BitProg
variable {γ α : Type}

/-- No more than `n` bits are asked for at a time, and `Q` holds at the end, whatever the bits are. -/
def Bounded (n : Nat) (Q : α → Prop) : BitProg γ α → Prop
  | ret a => Q a
  | need m k => m ≤ n ∧ k.Bounded n Q
  | peek m k => ∀ v, v < 2 ^ m → (k v).Bounded n Q
  | whole k => ∀ v, (k v).Bounded n Q
  | skip _ k => k.Bounded n Q
  | align k => k.Bounded n Q
  | empty k => k.Bounded n Q
  | find table size k => ∀ v, size (table v) ≤ n ∧ (k (table v)).Bounded n Q

@[simp] theorem bounded_ite (c : Prop) [Decidable c] (p q : BitProg γ α) (n : Nat) (Q : α → Prop) :
    (if c then p else q).Bounded n Q ↔ (c → p.Bounded n Q) ∧ (¬ c → q.Bounded n Q) := by
  split <;> simp [*]

theorem bounded_map {β : Type} (f : α → β) (p : BitProg γ α) (n : Nat) (Q : β → Prop) :
    (p.map f).Bounded n Q ↔ p.Bounded n fun a => Q (f a) := by
  induction p with
  | ret a => rfl
  | need m k ih => simp only [map, bind, Bounded] at ih ⊢; simp only [ih]
  | peek m k ih => simp only [map, bind, Bounded] at ih ⊢; simp only [ih]
  | whole k ih => simp only [map, bind, Bounded] at ih ⊢; simp only [ih]
  | skip m k ih => simp only [map, bind, Bounded] at ih ⊢; simp only [ih]
  | align k ih => simp only [map, bind, Bounded] at ih ⊢; simp only [ih]
  | empty k ih => simp only [map, bind, Bounded] at ih ⊢; simp only [ih]
  | find table size k ih => simp only [map, bind, Bounded] at ih ⊢; simp only [ih]

theorem Bounded.mono {p : BitProg γ α} {n m : Nat} {Q : α → Prop} (h : p.Bounded n Q) (hle : n ≤ m) :
    p.Bounded m Q := by
  induction p with
  | ret a => exact h
  | need k p ih => exact ⟨h.1.trans hle, ih h.2⟩
  | peek k p ih => exact fun v hv => ih v (h v hv)
  | whole p ih => exact fun v => ih v (h v)
  | skip k p ih => exact ih h
  | align p ih => exact ih h
  | empty p ih => exact ih h
  | find table size p ih => exact fun v => ⟨(h v).1.trans hle, ih _ (h v).2⟩

/-- Where a run leaves or ends. -/
def Result.All (P : BitReader → Prop) (Q : α → BitReader → Prop) : Result α → Prop
  | .leave r => P r
  | .done a r => Q a r

/-- Bytes are pulled only while bits are missing. -/
theorem pullUntil_bits {ready : BitReader → Bool} {r : BitReader} {n : Nat}
    (hready : ∀ r, n ≤ r.bits → ready r = true) (h : r.bits ≤ n + 7) :
    (r.pullUntil ready r.have_).bits ≤ n + 7 := by
  obtain ⟨-, -, heq | ⟨r₀, hr₀, -, hbits, -⟩⟩ := r.pullUntil_spec ready
  · rw [heq]
    exact h
  · rw [hbits]
    by_contra hlt
    have := hready r₀ (by omega)
    rw [hr₀] at this
    cases this

theorem Bounded.run {p : BitProg γ α} {n : Nat} {Q : α → Prop} (h : p.Bounded n Q) {r : BitReader}
    (hr : r.bits ≤ n + 7) :
    (p.run r).All (fun r => r.bits ≤ n + 7) fun a r => Q a ∧ r.bits ≤ n + 7 := by
  induction p generalizing r with
  | ret a => exact ⟨h, hr⟩
  | need m k ih =>
    have hpull := @pullUntil_bits (fun r => decide (m ≤ r.bits)) r n
      (fun r hr => decide_eq_true (h.1.trans hr)) hr
    simp only [BitProg.run]
    split
    · exact ih h.2 hpull
    · exact hpull
  | peek m k ih => exact ih _ (h _ (Nat.mod_lt _ (Nat.two_pow_pos _))) hr
  | whole k ih => exact ih _ (h _) hr
  | skip m k ih => exact ih h ((Nat.sub_le _ _).trans hr)
  | align k ih => exact ih h ((Nat.sub_le _ _).trans hr)
  | empty k ih => exact ih h (Nat.zero_le _)
  | find table size k ih =>
    have hpull := @pullUntil_bits (fun r => decide (size (table r.hold) ≤ r.bits)) r n
      (fun r hr => decide_eq_true ((h r.hold).1.trans hr)) hr
    simp only [BitProg.run]
    split
    · exact ih _ (h _).2 hpull
    · exact hpull

end BitProg

end ZlibNg
