import ZlibNg.Checksum.Adler32

/-! What the byte loops and the word-parallel loop add to the component sums. -/
namespace ZlibNg

/-- The sum of the bytes. -/
def byteSum (bytes : List UInt8) : Nat := (bytes.map UInt8.toNat).sum

/-- The sum of the running sums of the bytes from `a` on. -/
def runningSum : Nat → List UInt8 → Nat
  | _, [] => 0
  | a, b :: bytes => (a + b.toNat) + runningSum (a + b.toNat) bytes

@[simp] theorem byteSum_nil : byteSum [] = 0 := rfl

@[simp] theorem byteSum_cons (b : UInt8) (bytes : List UInt8) :
    byteSum (b :: bytes) = b.toNat + byteSum bytes := by
  simp [byteSum]

theorem byteSum_append (xs ys : List UInt8) : byteSum (xs ++ ys) = byteSum xs + byteSum ys := by
  simp [byteSum]

theorem runningSum_append (a : Nat) (xs ys : List UInt8) :
    runningSum a (xs ++ ys) = runningSum a xs + runningSum (a + byteSum xs) ys := by
  induction xs generalizing a with
  | nil => simp [runningSum]
  | cons b xs ih =>
    simp only [List.cons_append, runningSum, ih, byteSum_cons]
    rw [← Nat.add_assoc a b.toNat (byteSum xs), ← Nat.add_assoc]

theorem runningSum_start (a : Nat) (bytes : List UInt8) :
    runningSum a bytes = a * bytes.length + runningSum 0 bytes := by
  induction bytes generalizing a with
  | nil => simp [runningSum]
  | cons b bytes ih =>
    simp only [runningSum, List.length_cons]
    rw [ih (a + b.toNat), ih (0 + b.toNat)]
    ring

theorem byteSum_le (bytes : List UInt8) : byteSum bytes ≤ 255 * bytes.length := by
  induction bytes with
  | nil => simp
  | cons b bytes ih =>
    have := b.toNat_lt
    simp only [byteSum_cons, List.length_cons]
    omega

theorem runningSum_le (bytes : List UInt8) :
    2 * runningSum 0 bytes ≤ 255 * (bytes.length * (bytes.length + 1)) := by
  induction bytes with
  | nil => simp [runningSum]
  | cons b bytes ih =>
    have hb := b.toNat_lt
    have hmul : b.toNat * (bytes.length + 1) ≤ 255 * (bytes.length + 1) :=
      Nat.mul_le_mul_right _ (by omega)
    have hsq : (bytes.length + 1) * (bytes.length + 1 + 1) =
        bytes.length * (bytes.length + 1) + 2 * (bytes.length + 1) := by ring
    simp only [runningSum, List.length_cons]
    rw [runningSum_start, Nat.zero_add, hsq]
    rw [Nat.mul_add] at hmul
    omega

section State
variable {copy : Bool} {s : AdlerState}

/-- The state after `n` more bytes, with exact sums. -/
def AdlerState.advance (copy : Bool) (n : Nat) (s : AdlerState) : AdlerState :=
  { s.move copy n with
    adler := s.adler + byteSum (s.buf.take n)
    sum2 := s.sum2 + runningSum s.adler (s.buf.take n) }

/-- The sums of the next `n` bytes fit the accumulators. -/
def AdlerState.Room (n : Nat) (s : AdlerState) : Prop :=
  s.adler + byteSum (s.buf.take n) < 2 ^ 32 ∧
    s.sum2 + runningSum s.adler (s.buf.take n) < 2 ^ 32

theorem AdlerState.move_move (m n : Nat) :
    (s.move copy m).move copy n = s.move copy (m + n) := by
  simp only [AdlerState.move, List.drop_drop, Nat.add_assoc, List.take_add, AdlerState.mk.injEq,
    true_and, and_true]
  split <;> simp

@[simp] theorem AdlerState.advance_zero : s.advance copy 0 = s := by
  simp [AdlerState.advance, AdlerState.move, runningSum]

theorem AdlerState.advance_advance (m n : Nat) :
    (s.advance copy m).advance copy n = s.advance copy (m + n) := by
  have hmove := @AdlerState.move_move copy s m n
  simp only [AdlerState.move, AdlerState.mk.injEq, true_and] at hmove
  obtain ⟨h1, h2, h3⟩ := hmove
  simp only [AdlerState.advance, AdlerState.move, AdlerState.mk.injEq, h1, h2, h3,
    List.take_add, byteSum_append, runningSum_append, and_true]
  omega

theorem AdlerState.Room.split {m n : Nat} (h : s.Room (m + n)) :
    s.Room m ∧ (s.advance copy m).Room n := by
  simp only [AdlerState.Room, AdlerState.advance, AdlerState.move, List.take_add, byteSum_append,
    runningSum_append] at h ⊢
  omega

theorem AdlerState.Room.mono {m n : Nat} (h : s.Room n) (hm : m ≤ n) : s.Room m := by
  obtain ⟨k, rfl⟩ := Nat.exists_eq_add_of_le hm
  exact (@AdlerState.Room.split false s _ _ h).1

end State

section Words
variable {A : WordArith} {order : ByteOrder} {copy : Bool}

/-- The lanes of a word with the numbers `f` for its eight bytes. -/
def ByteOrder.evenLanes (order : ByteOrder) (f : Nat → Nat) : Nat :=
  match order with
  | .littleEndian => lanes16 (f 0) (f 2) (f 4) (f 6)
  | .bigEndian => lanes16 (f 7) (f 5) (f 3) (f 1)

def ByteOrder.oddLanes (order : ByteOrder) (f : Nat → Nat) : Nat :=
  match order with
  | .littleEndian => lanes16 (f 1) (f 3) (f 5) (f 7)
  | .bigEndian => lanes16 (f 6) (f 4) (f 2) (f 0)

/-- The mask keeps every other byte of a word. -/
theorem even_bytes {b0 b1 b2 b3 b4 b5 b6 b7 : Nat} (h0 : b0 < 2 ^ 8) (h1 : b1 < 2 ^ 8)
    (h2 : b2 < 2 ^ 8) (h3 : b3 < 2 ^ 8) (h4 : b4 < 2 ^ 8) (h5 : b5 < 2 ^ 8) (h6 : b6 < 2 ^ 8) :
    (b0 + 2 ^ 8 * (b1 + 2 ^ 8 * (b2 + 2 ^ 8 * (b3 + 2 ^ 8 * (b4 + 2 ^ 8 * (b5 + 2 ^ 8 *
      (b6 + 2 ^ 8 * b7))))))) &&& adler32SwarEvenMask = lanes16 b0 b2 b4 b6 := by
  have hmask : adler32SwarEvenMask = 255 + 2 ^ 8 * (0 + 2 ^ 8 * (255 + 2 ^ 8 * (0 + 2 ^ 8 *
      (255 + 2 ^ 8 * (0 + 2 ^ 8 * (255 + 2 ^ 8 * 0)))))) := by decide
  have hlow : ∀ b < 2 ^ 8, b &&& 255 = b := fun b hb => Nat.and_two_pow_sub_one_of_lt_two_pow hb
  rw [hmask, and_two_pow_mul h0 (by decide), and_two_pow_mul h1 (by decide),
    and_two_pow_mul h2 (by decide), and_two_pow_mul h3 (by decide), and_two_pow_mul h4 (by decide),
    and_two_pow_mul h5 (by decide), and_two_pow_mul h6 (by decide), hlow _ h0, hlow _ h2,
    hlow _ h4, hlow _ h6]
  simp only [Nat.and_zero, lanes16]
  omega

theorem exists_eight {buf : List UInt8} (h : 8 ≤ buf.length) :
    ∃ b0 b1 b2 b3 b4 b5 b6 b7 rest, buf = b0 :: b1 :: b2 :: b3 :: b4 :: b5 :: b6 :: b7 :: rest := by
  rcases buf with _ | ⟨b0, _ | ⟨b1, _ | ⟨b2, _ | ⟨b3, _ | ⟨b4, _ | ⟨b5, _ | ⟨b6, _ | ⟨b7, rest⟩⟩⟩⟩⟩⟩⟩⟩
  all_goals first
    | exact ⟨_, _, _, _, _, _, _, _, _, rfl⟩
    | (simp only [List.length_cons, List.length_nil] at h; omega)

/-- The lanes of a word that is loaded. -/
theorem ByteOrder.load64_lanes {buf : List UInt8} (h : 8 ≤ buf.length) :
    order.load64 buf &&& adler32SwarEvenMask = order.evenLanes (fun i => (buf.getD i 0).toNat) ∧
    (order.load64 buf >>> 8) &&& adler32SwarEvenMask =
      order.oddLanes (fun i => (buf.getD i 0).toNat) := by
  obtain ⟨b0, b1, b2, b3, b4, b5, b6, b7, rest, rfl⟩ := exists_eight h
  have hlt : ∀ b : UInt8, b.toNat < 2 ^ 8 := UInt8.toNat_lt
  have hshift : ∀ b v : Nat, b < 2 ^ 8 → (b + 2 ^ 8 * v) >>> 8 = v := by
    intro b v hb
    rw [Nat.shiftRight_eq_div_pow]
    omega
  cases order with
  | littleEndian =>
    simp only [ByteOrder.load64, ByteOrder.evenLanes, ByteOrder.oddLanes, List.take_succ_cons,
      List.take_zero, List.foldr_cons, List.foldr_nil, List.getD_cons_zero, List.getD_cons_succ]
    rw [hshift _ _ (hlt b0)]
    exact ⟨even_bytes (hlt _) (hlt _) (hlt _) (hlt _) (hlt _) (hlt _) (hlt _),
      even_bytes (hlt _) (hlt _) (hlt _) (hlt _) (hlt _) (hlt _) (hlt _)⟩
  | bigEndian =>
    simp only [ByteOrder.load64, ByteOrder.evenLanes, ByteOrder.oddLanes, List.take_succ_cons,
      List.take_zero, List.foldl_cons, List.foldl_nil, List.getD_cons_zero, List.getD_cons_succ]
    rw [hshift _ _ (hlt b7)]
    exact ⟨even_bytes (hlt _) (hlt _) (hlt _) (hlt _) (hlt _) (hlt _) (hlt _),
      even_bytes (hlt _) (hlt _) (hlt _) (hlt _) (hlt _) (hlt _) (hlt _)⟩

/-- The lane sums after the words of `bytes`: `S` and `P` have the sums and the prefix sums for
each of the eight positions. -/
structure SwarSums.Holds (order : ByteOrder) (bytes : List UInt8) (words : Nat) (t : SwarSums)
    (S P : Nat → Nat) : Prop where
  sumEven : t.sumEven = order.evenLanes S
  sumOdd : t.sumOdd = order.oddLanes S
  prefixEven : t.prefixEven = order.evenLanes P
  prefixOdd : t.prefixOdd = order.oddLanes P
  total : S 0 + S 1 + S 2 + S 3 + S 4 + S 5 + S 6 + S 7 = byteSum bytes
  running : 8 * (P 0 + P 1 + P 2 + P 3 + P 4 + P 5 + P 6 + P 7) +
    (8 * S 0 + 7 * S 1 + 6 * S 2 + 5 * S 3 + 4 * S 4 + 3 * S 5 + 2 * S 6 + S 7) =
      runningSum 0 bytes
  sum_le : ∀ i, S i ≤ 255 * words
  prefix_le : ∀ i, 2 * P i ≤ 255 * (words * (words - 1))

theorem ByteOrder.addLanes_even (hA : A.Exact) {f g : Nat → Nat} (h : ∀ i, f i + g i < 2 ^ 16) :
    A.addLanes 16 (order.evenLanes f) (order.evenLanes g) =
      some (order.evenLanes fun i => f i + g i) := by
  cases order <;> exact hA.add16 _ _ _ _ _ _ _ _ (h _) (h _) (h _) (h _)

theorem ByteOrder.addLanes_odd (hA : A.Exact) {f g : Nat → Nat} (h : ∀ i, f i + g i < 2 ^ 16) :
    A.addLanes 16 (order.oddLanes f) (order.oddLanes g) =
      some (order.oddLanes fun i => f i + g i) := by
  cases order <;> exact hA.add16 _ _ _ _ _ _ _ _ (h _) (h _) (h _) (h _)

/-- No lane overflows within 23 words. -/
theorem SwarSums.Holds.bounds {bytes : List UInt8} {words : Nat} {t : SwarSums}
    {S P : Nat → Nat} (h : t.Holds order bytes words S P) (hw : words ≤ 23) (i : Nat) :
    S i ≤ 5865 ∧ P i ≤ 64515 := by
  have h1 := h.sum_le i
  have h2 := h.prefix_le i
  have hmul := Nat.mul_le_mul hw (show words - 1 ≤ 22 by omega)
  omega

/-- One more word. -/
theorem SwarSums.Holds.add (hA : A.Exact) {bytes : List UInt8} {words : Nat} {t : SwarSums}
    {S P : Nat → Nat} (h : t.Holds order bytes words S P) (buf : List UInt8) (hw : words < 23)
    (hbuf : 8 ≤ buf.length) :
    ∃ t' S' P', t.add A (order.load64 buf) = some t' ∧
      t'.Holds order (bytes ++ buf.take 8) (words + 1) S' P' := by
  obtain ⟨heven, hodd⟩ := @ByteOrder.load64_lanes order buf hbuf
  have hsq : words * (words - 1) + 2 * words = (words + 1) * words := by
    rcases words with _ | k
    · rfl
    · simp only [Nat.add_sub_cancel]
      ring
  have hbyte : ∀ i, (buf.getD i 0).toNat ≤ 255 := fun i => Nat.le_of_lt_succ (UInt8.toNat_lt _)
  have hpre : ∀ i, 2 * (P i + S i) ≤ 255 * ((words + 1) * words) := by
    intro i
    have h1 := h.sum_le i
    have h2 := h.prefix_le i
    omega
  have hlane : ∀ i, P i + S i < 2 ^ 16 := by
    intro i
    have h1 := hpre i
    have hmul := Nat.mul_le_mul (show words + 1 ≤ 23 by omega) (show words ≤ 22 by omega)
    omega
  have hsum : ∀ i, S i + (buf.getD i 0).toNat < 2 ^ 16 := by
    intro i
    have h1 := h.sum_le i
    have h2 := hbyte i
    omega
  refine ⟨{ sumEven := order.evenLanes fun i => S i + (buf.getD i 0).toNat
            sumOdd := order.oddLanes fun i => S i + (buf.getD i 0).toNat
            prefixEven := order.evenLanes fun i => P i + S i
            prefixOdd := order.oddLanes fun i => P i + S i },
    fun i => S i + (buf.getD i 0).toNat, fun i => P i + S i, ?_, ?_⟩
  · simp only [SwarSums.add, h.sumEven, h.sumOdd, h.prefixEven, h.prefixOdd, heven, hodd,
      ByteOrder.addLanes_even hA hlane, ByteOrder.addLanes_odd hA hlane,
      ByteOrder.addLanes_even hA hsum, ByteOrder.addLanes_odd hA hsum, Option.bind_eq_bind,
      Option.bind_some, Option.pure_def]
  · have htotal := h.total
    have hrun := h.running
    refine ⟨rfl, rfl, rfl, rfl, ?_, ?_, fun i => ?_, fun i => ?_⟩
    · rw [byteSum_append, ← htotal]
      obtain ⟨b0, b1, b2, b3, b4, b5, b6, b7, rest, rfl⟩ := exists_eight hbuf
      simp only [List.take_succ_cons, List.take_zero, byteSum_cons, byteSum_nil,
        List.getD_cons_zero, List.getD_cons_succ]
      omega
    · rw [runningSum_append, ← hrun, runningSum_start, ← htotal]
      obtain ⟨b0, b1, b2, b3, b4, b5, b6, b7, rest, rfl⟩ := exists_eight hbuf
      simp only [List.take_succ_cons, List.take_zero, runningSum, List.length_cons,
        List.length_nil, List.getD_cons_zero, List.getD_cons_succ]
      omega
    · have h1 := h.sum_le i
      have h2 := hbyte i
      omega
    · exact hpre i

theorem foldlM_adlerDo (hA : A.Exact) (bytes : List UInt8) (p : Nat × Nat)
    (h1 : p.1 + byteSum bytes < 2 ^ 32) (h2 : p.2 + runningSum p.1 bytes < 2 ^ 32) :
    bytes.foldlM (adlerDo A) p = some (p.1 + byteSum bytes, p.2 + runningSum p.1 bytes) := by
  induction bytes generalizing p with
  | nil => rfl
  | cons b bytes ih =>
    simp only [byteSum_cons, runningSum] at h1 h2 ⊢
    have hdo : adlerDo A p b = some (p.1 + b.toNat, p.2 + (p.1 + b.toNat)) := by
      simp only [adlerDo, hA.word _ (show p.1 + b.toNat < 2 ^ 32 by omega), Option.bind_some,
        hA.word _ (show p.2 + (p.1 + b.toNat) < 2 ^ 32 by omega), Option.map_some]
    rw [List.foldlM_cons, hdo]
    simp only [Option.bind_eq_bind, Option.bind_some]
    rw [ih _ (by simp only; omega) (by simp only; omega)]
    simp only [Nat.add_assoc]

theorem AdlerState.doBytes_eq (hA : A.Exact) {n : Nat} {s : AdlerState} (h : s.Room n) :
    s.doBytes A copy n = some (s.advance copy n) := by
  rw [AdlerState.doBytes, foldlM_adlerDo hA _ _ h.1 h.2]
  rfl

/-- Four bytes at a time leave less than four. -/
theorem AdlerState.doFours_eq (hA : A.Exact) {len : Nat} {s : AdlerState}
    (h : s.Room (len - len % 4)) :
    s.doFours A copy len = some (len % 4, s.advance copy (len - len % 4)) := by
  induction len using Nat.strong_induction_on generalizing s with
  | h len ih =>
    unfold AdlerState.doFours
    split
    · next hlen =>
      have hmod : (len - 4) % 4 = len % 4 := by omega
      have hsplit : len - len % 4 = 4 + (len - 4 - (len - 4) % 4) := by omega
      rw [hsplit] at h
      obtain ⟨h1, h2⟩ := @AdlerState.Room.split copy _ _ _ h
      rw [AdlerState.doBytes_eq hA h1, Option.bind_some, ih _ (by omega) h2,
        AdlerState.advance_advance, ← hsplit, hmod]
    · next hlen =>
      rw [Nat.mod_eq_of_lt (by omega), Nat.sub_self, AdlerState.advance_zero]

/-- A step that is taken or not. -/
theorem AdlerState.doBytesIf_eq (hA : A.Exact) {n : Nat} {s : AdlerState} {c : Prop} [Decidable c]
    (h : s.Room (if c then n else 0)) :
    s.doBytesIf A copy c n = some (s.advance copy (if c then n else 0)) := by
  unfold AdlerState.doBytesIf
  split
  · next hc =>
    rw [if_pos hc] at h
    exact AdlerState.doBytes_eq hA h
  · rw [AdlerState.advance_zero]

theorem AdlerState.copyAlign_eq (hA : A.Exact) {len : Nat} {s : AdlerState} (h : s.Room len) :
    s.copyAlign A copy len = some (s.advance copy len) := by
  have hlen : len = ((if len % 2 ≠ 0 then 1 else 0) + (if len / 2 % 2 ≠ 0 then 2 else 0)) +
      (len - len % 4) := by
    split <;> split <;> omega
  have hroom := h
  rw [hlen] at hroom
  obtain ⟨h12, h3⟩ := @AdlerState.Room.split copy _ _ _ hroom
  obtain ⟨h1, h2⟩ := @AdlerState.Room.split copy _ _ _ h12
  simp only [AdlerState.copyAlign, Option.bind_eq_bind, AdlerState.doBytesIf_eq hA h1,
    AdlerState.doBytesIf_eq hA h2, AdlerState.doFours_eq hA h3, Option.bind_some, Option.pure_def,
    AdlerState.advance_advance]
  rw [← hlen]

variable (copy) in
/-- The word loop leaves at most one word. -/
theorem swarLoop_spec (hA : A.Exact) {len words : Nat} {bytes : List UInt8} {t : SwarSums}
    {S P : Nat → Nat} {s : AdlerState} (h : t.Holds order bytes words S P) (h8 : len % 8 = 0)
    (hlen : len ≤ s.buf.length) (hw : words + len / 8 ≤ 23) :
    ∃ t' S' P', swarLoop A order copy len t s =
        some (len % 16, t', s.move copy (len - len % 16)) ∧
      t'.Holds order (bytes ++ s.buf.take (len - len % 16)) (words + (len - len % 16) / 8) S' P' := by
  induction len using Nat.strong_induction_on generalizing words bytes t S P s with
  | h len ih =>
    unfold swarLoop
    split
    · next hge =>
      obtain ⟨t1, S1, P1, ht1, h1⟩ := h.add hA s.buf (by omega) (by omega)
      obtain ⟨t2, S2, P2, ht2, h2⟩ := h1.add hA (s.buf.drop 8) (by omega)
        (by rw [List.length_drop]; omega)
      simp only [ht1, ht2, Option.bind_some]
      rw [List.append_assoc, ← List.take_add] at h2
      have hbuf : (s.move copy 16).buf = s.buf.drop 16 := rfl
      have hmod : (len - 16) % 16 = len % 16 := by omega
      obtain ⟨t3, S3, P3, ht3, h3⟩ := ih (len - 16) (by omega) (s := s.move copy 16) h2 (by omega)
        (by rw [hbuf, List.length_drop]; omega) (by omega)
      have hsplit : len - len % 16 = 16 + (len - 16 - len % 16) := by omega
      refine ⟨t3, S3, P3, ?_, ?_⟩
      · rw [ht3, AdlerState.move_move, hmod, ← hsplit]
      · rw [hbuf, List.append_assoc, ← List.take_add, hmod, ← hsplit] at h3
        rwa [show words + 1 + 1 + (len - 16 - len % 16) / 8 = words + (len - len % 16) / 8 by
          omega] at h3
    · next hlt =>
      have hmod : len % 16 = len := Nat.mod_eq_of_lt (by omega)
      refine ⟨t, S, P, ?_, ?_⟩
      · simp [hmod, AdlerState.move]
      · simpa [hmod] using h

/-- The widened prefix sums. -/
theorem and_low_lanes {a b c d : Nat} (ha : a < 2 ^ 16) (hb : b < 2 ^ 16) (hc : c < 2 ^ 16) :
    lanes16 a b c d &&& 0xFFFF0000FFFF = lanes32 a c := by
  have hword : lanes16 a b c d = a + 2 ^ 16 * (b + 2 ^ 16 * (c + 2 ^ 16 * d)) := by
    simp only [lanes16]
    omega
  have hmask : 0xFFFF0000FFFF = 65535 + 2 ^ 16 * (0 + 2 ^ 16 * (65535 + 2 ^ 16 * 0)) := by decide
  have hlow : ∀ b < 2 ^ 16, b &&& 65535 = b := fun b hb => Nat.and_two_pow_sub_one_of_lt_two_pow hb
  rw [hword, hmask, and_two_pow_mul ha (by decide), and_two_pow_mul hb (by decide),
    and_two_pow_mul hc (by decide), hlow _ ha, hlow _ hc]
  simp only [Nat.and_zero, lanes32]
  omega

theorem lanes16_shift {a b c d : Nat} (ha : a < 2 ^ 16) :
    lanes16 a b c d >>> 16 = lanes16 b c d 0 := by
  rw [Nat.shiftRight_eq_div_pow]
  simp only [lanes16]
  omega

theorem hsum_lanes : adler32SwarHsum = lanes16 1 1 1 1 := by decide

section Sums
variable {bytes : List UInt8} {words : Nat} {t : SwarSums} {S P : Nat → Nat}

theorem SwarSums.Holds.sum_eq (hA : A.Exact) (h : t.Holds order bytes words S P)
    (hw : words ≤ 23) :
    ((A.addLanes 16 t.sumEven t.sumOdd).bind fun total => A.topLane 16 total adler32SwarHsum) =
      some (byteSum bytes) := by
  have hS := fun i => (h.bounds hw i).1
  rw [h.sumEven, h.sumOdd, ← h.total, hsum_lanes]
  have h0 := hS 0; have h1 := hS 1; have h2 := hS 2; have h3 := hS 3
  have h4 := hS 4; have h5 := hS 5; have h6 := hS 6; have h7 := hS 7
  cases order with
  | littleEndian =>
    simp only [ByteOrder.evenLanes, ByteOrder.oddLanes]
    rw [hA.add16 _ _ _ _ _ _ _ _ (by omega) (by omega) (by omega) (by omega), Option.bind_some,
      @WordArith.Exact.dot16 A hA (2 * 5865) _ _ _ _ _ _ _ _ (by omega) (by omega) (by omega)
        (by omega) (by decide) (by decide) (by decide)]
    exact congrArg some (by omega)
  | bigEndian =>
    simp only [ByteOrder.evenLanes, ByteOrder.oddLanes]
    rw [hA.add16 _ _ _ _ _ _ _ _ (by omega) (by omega) (by omega) (by omega), Option.bind_some,
      @WordArith.Exact.dot16 A hA (2 * 5865) _ _ _ _ _ _ _ _ (by omega) (by omega) (by omega)
        (by omega) (by decide) (by decide) (by decide)]
    exact congrArg some (by omega)

theorem SwarSums.Holds.prefixTotal_eq (hA : A.Exact) (h : t.Holds order bytes words S P)
    (hw : words ≤ 23) :
    t.prefixTotal A = some (8 * (P 0 + P 1 + P 2 + P 3 + P 4 + P 5 + P 6 + P 7)) := by
  have hP := fun i => (h.bounds hw i).2
  have h0 := hP 0; have h1 := hP 1; have h2 := hP 2; have h3 := hP 3
  have h4 := hP 4; have h5 := hP 5; have h6 := hP 6; have h7 := hP 7
  have hweight : 0x800000008 = lanes32 8 8 := by decide
  have hlow : ∀ a b c d, a ≤ 64515 → b ≤ 64515 → c ≤ 64515 → d ≤ 64515 →
      lanes16 a b c d &&& 0xFFFF0000FFFF = lanes32 a c ∧
      lanes16 a b c d >>> 16 &&& 0xFFFF0000FFFF = lanes32 b d := by
    intro a b c d ha hb hc hd
    refine ⟨and_low_lanes (by omega) (by omega) (by omega), ?_⟩
    rw [lanes16_shift (by omega)]
    exact and_low_lanes (by omega) (by omega) (by omega)
  have hsum : ∀ a b c d a' b' c' d', a ≤ 64515 → b ≤ 64515 → c ≤ 64515 → d ≤ 64515 →
      a' ≤ 64515 → b' ≤ 64515 → c' ≤ 64515 → d' ≤ 64515 →
      ((A.addLanes 32 (lanes32 a c) (lanes32 a' c')).bind fun p =>
        (A.addLanes 32 p (lanes32 b d)).bind fun p =>
          (A.addLanes 32 p (lanes32 b' d')).bind fun p => A.topLane 32 p (lanes32 8 8)) =
        some (8 * (a + b + c + d + a' + b' + c' + d')) := by
    intro a b c d a' b' c' d' ha hb hc hd ha' hb' hc' hd'
    rw [hA.add32 _ _ _ _ (by omega) (by omega), Option.bind_some,
      hA.add32 _ _ _ _ (by omega) (by omega), Option.bind_some,
      hA.add32 _ _ _ _ (by omega) (by omega), Option.bind_some,
      hA.top32 _ _ _ _ (by omega) (by omega) (by omega) (by omega) (by omega) (by omega)]
    exact congrArg some (by omega)
  simp only [SwarSums.prefixTotal, h.prefixEven, h.prefixOdd, hweight, Option.bind_eq_bind]
  cases order with
  | littleEndian =>
    simp only [ByteOrder.evenLanes, ByteOrder.oddLanes, hlow _ _ _ _ h0 h2 h4 h6,
      hlow _ _ _ _ h1 h3 h5 h7]
    rw [hsum _ _ _ _ _ _ _ _ h0 h2 h4 h6 h1 h3 h5 h7]
    exact congrArg some (by omega)
  | bigEndian =>
    simp only [ByteOrder.evenLanes, ByteOrder.oddLanes, hlow _ _ _ _ h7 h5 h3 h1,
      hlow _ _ _ _ h6 h4 h2 h0]
    rw [hsum _ _ _ _ _ _ _ _ h7 h5 h3 h1 h6 h4 h2 h0]
    exact congrArg some (by omega)

/-- Each byte counts once more for each byte of its word from it on. -/
theorem SwarSums.Holds.weighted_eq (hA : A.Exact) (h : t.Holds order bytes words S P)
    (hw : words ≤ 23) : t.weighted A order =
      some (8 * S 0 + 7 * S 1 + 6 * S 2 + 5 * S 3 + 4 * S 4 + 3 * S 5 + 2 * S 6 + S 7) := by
  have hS := fun i => (h.bounds hw i).1
  have h0 := hS 0; have h1 := hS 1; have h2 := hS 2; have h3 := hS 3
  have h4 := hS 4; have h5 := hS 5; have h6 := hS 6; have h7 := hS 7
  simp only [SwarSums.weighted, h.sumEven, h.sumOdd, hsum_lanes, Option.bind_eq_bind]
  cases order with
  | littleEndian =>
    have hwe : ByteOrder.littleEndian.evenWeights = lanes16 1 2 3 4 := by decide
    have hwo : ByteOrder.littleEndian.oddWeights = lanes16 0 1 2 3 := by decide
    simp only [ByteOrder.evenLanes, ByteOrder.oddLanes, hwe, hwo]
    rw [hA.dot16 h0 h2 h4 h6 (by decide) (by decide) (by decide), Option.bind_some,
      hA.dot16 h1 h3 h5 h7 (by decide) (by decide) (by decide), Option.bind_some,
      hA.dot16 h1 h3 h5 h7 (by decide) (by decide) (by decide), Option.bind_some,
      hA.word _ (by omega), Option.bind_some, hA.word _ (by omega), Option.bind_some,
      hA.word _ (by omega), Option.bind_some, hA.word _ (by omega)]
    exact congrArg some (by omega)
  | bigEndian =>
    have hwe : ByteOrder.bigEndian.evenWeights = lanes16 3 2 1 0 := by decide
    have hwo : ByteOrder.bigEndian.oddWeights = lanes16 4 3 2 1 := by decide
    simp only [ByteOrder.evenLanes, ByteOrder.oddLanes, hwe, hwo]
    rw [hA.dot16 h7 h5 h3 h1 (by decide) (by decide) (by decide), Option.bind_some,
      hA.dot16 h7 h5 h3 h1 (by decide) (by decide) (by decide), Option.bind_some,
      hA.dot16 h6 h4 h2 h0 (by decide) (by decide) (by decide), Option.bind_some,
      hA.word _ (by omega), Option.bind_some, hA.word _ (by omega), Option.bind_some,
      hA.word _ (by omega), Option.bind_some, hA.word _ (by omega)]
    exact congrArg some (by omega)

end Sums

theorem SwarSums.holds_zero : SwarSums.Holds order [] 0
    { sumEven := 0, sumOdd := 0, prefixEven := 0, prefixOdd := 0 } (fun _ => 0) (fun _ => 0) := by
  refine ⟨?_, ?_, ?_, ?_, rfl, rfl, fun _ => le_rfl, fun _ => le_rfl⟩ <;> cases order <;> rfl

variable (order copy) in
/-- All words of a chunk. -/
theorem swar_words (hA : A.Exact) {len : Nat} {s : AdlerState} (h8 : len % 8 = 0)
    (hmax : len ≤ adler32SwarMaxBytes) (hlen : len ≤ s.buf.length) :
    ∃ t S P, ((swarLoop A order copy len
        { sumEven := 0, sumOdd := 0, prefixEven := 0, prefixOdd := 0 } s).bind fun r =>
          swarRest A order copy r.1 r.2.1 r.2.2) = some (t, s.move copy len) ∧
      t.Holds order (s.buf.take len) (len / 8) S P := by
  have h184 : adler32SwarMaxBytes = 184 := rfl
  obtain ⟨t, S, P, ht, h⟩ := swarLoop_spec copy hA SwarSums.holds_zero h8 hlen
    (show 0 + len / 8 ≤ 23 by omega)
  rw [List.nil_append, Nat.zero_add] at h
  rw [ht, Option.bind_some]
  dsimp only
  unfold swarRest
  split
  · next hrest =>
    have hsplit : len = len - len % 16 + 8 := by omega
    obtain ⟨t', S', P', ht', h'⟩ := h.add hA (s.buf.drop (len - len % 16)) (by omega)
      (by rw [List.length_drop]; omega)
    refine ⟨t', S', P', ?_, ?_⟩
    · have hbuf : (s.move copy (len - len % 16)).buf = s.buf.drop (len - len % 16) := rfl
      rw [hbuf, ht', Option.map_some, AdlerState.move_move, ← hsplit]
    · rw [← List.take_add, ← hsplit] at h'
      rwa [show (len - len % 16) / 8 + 1 = len / 8 by omega] at h'
  · next hrest =>
    have hmod : len - len % 16 = len := by omega
    rw [hmod] at h ⊢
    exact ⟨t, S, P, rfl, h⟩

/-- The word-parallel loop adds up what the bytes one by one do. -/
theorem AdlerState.swar_eq (hA : A.Exact) {len : Nat} {s : AdlerState} (h8 : len % 8 = 0)
    (hmax : len ≤ adler32SwarMaxBytes) (hlen : len ≤ s.buf.length) (h : s.Room len) :
    s.swar A order copy len = some (s.advance copy len) := by
  have h184 : adler32SwarMaxBytes = 184 := rfl
  obtain ⟨h1, h2⟩ := h
  have hrun := runningSum_start s.adler (s.buf.take len)
  rw [List.length_take, Nat.min_eq_left hlen] at hrun
  have hprod : s.adler * (len % 2 ^ 32) = s.adler * len := by rw [Nat.mod_eq_of_lt (by omega)]
  obtain ⟨t, S, P, ht, hsums⟩ := swar_words order copy hA
    (s := { s with sum2 := s.sum2 + s.adler * len }) h8 hmax hlen
  have hw : len / 8 ≤ 23 := by omega
  have hrunning := hsums.running
  dsimp only at hsums hrunning
  have hsum := hsums.sum_eq hA hw
  simp only [AdlerState.swar, hprod, Option.bind_eq_bind]
  rw [hA.word _ (by omega), Option.bind_some, hA.word _ (by omega), Option.bind_some]
  rw [← Option.bind_assoc, ht, Option.bind_some, ← Option.bind_assoc, hsum, Option.bind_some]
  simp only [hsums.prefixTotal_eq hA hw, hsums.weighted_eq hA hw, AdlerState.move,
    Option.bind_some]
  rw [hA.word _ h1, Option.bind_some, hA.word _ (by omega), Option.bind_some,
    hA.word _ (by omega), Option.bind_some]
  simp only [AdlerState.advance, AdlerState.move, Option.pure_def, Option.some.injEq,
    AdlerState.mk.injEq, and_true, true_and]
  omega

end Words
end ZlibNg
