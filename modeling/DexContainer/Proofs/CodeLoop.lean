import Mathlib.Algebra.Order.BigOperators.Group.List
import Mathlib.Algebra.Order.Ring.Nat
import DexContainer.Proofs.Section.Layout

/-! The loop in a layout. Class data stands in front of code and holds the offsets of code as
numbers of variable length, so where code starts depends on where code started in the round before.
Code that starts later has longer offsets and is pushed further, so code moves in one direction
only, by multiples of its alignment. Main statements: `exists_settles`, code stops moving; and
`settles_of_rising` and `settles_of_falling`, it does so within one round more than there are code
offsets, when no code offset takes more than five bytes. -/

namespace DexContainer

namespace Section

variable {k : Kind} {m n : Nat}

theorem alignUp_mono (k : Kind) (h : m ≤ n) : alignUp m k.alignment ≤ alignUp n k.alignment := by
  obtain ⟨e, he⟩ := alignment_eq_two_pow k
  rw [he]
  exact alignUp_two_pow_le (Nat.le_trans h (le_alignUp_two_pow n e)) (dvd_alignUp_two_pow n e)

/-- Items that are laid out from a later offset on do not start earlier. -/
theorem startsFrom_mono (sizes : List Nat) (h : m ≤ n) (i : Nat) :
    (startsFrom k m sizes)[i]?.getD 0 ≤ (startsFrom k n sizes)[i]?.getD 0 := by
  induction sizes generalizing m n i with
  | nil => exact Nat.le_refl _
  | cons size sizes ih =>
    have halign := alignUp_mono k h
    cases i with
    | zero => exact halign
    | succ i => exact ih (Nat.add_le_add_right halign size) i

theorem startsFrom_congr {sizes : List Nat} (h : alignUp m k.alignment = alignUp n k.alignment) :
    startsFrom k m sizes = startsFrom k n sizes := by
  rw [← startsFrom_alignUp, h, startsFrom_alignUp]

theorem alignUp_add (k : Kind) (offset n : Nat) :
    alignUp (offset + k.alignment * n) k.alignment =
      alignUp offset k.alignment + k.alignment * n := by
  rcases k.alignment_eq with h | h
  · rw [h, alignUp_one, alignUp_one]
  · rw [h, alignUp_four, alignUp_four]
    omega

/-- Items that are laid out from a multiple of their alignment further on keep their distances. -/
theorem startsFrom_add (cursor n : Nat) (sizes : List Nat) :
    startsFrom k (cursor + k.alignment * n) sizes =
      (startsFrom k cursor sizes).map (· + k.alignment * n) := by
  induction sizes generalizing cursor with
  | nil => rfl
  | cons size sizes ih =>
    rw [startsFrom, startsFrom, alignUp_add, Nat.add_right_comm, ih, List.map_cons]

theorem getElem?_startsFrom_le (cursor : Nat) (sizes : List Nat) (i : Nat) :
    (startsFrom k cursor sizes)[i]?.getD 0 ≤ finishFrom k cursor sizes := by
  cases hi : (startsFrom k cursor sizes)[i]? with
  | none => exact Nat.zero_le _
  | some start =>
    obtain ⟨hlt, rfl⟩ := List.getElem?_eq_some_iff.1 hi
    have hbounds := (forall₂_startsFrom k cursor sizes).get hlt (by simpa using hlt)
    exact Nat.le_trans (Nat.le_add_right ..) hbounds.2

theorem finishFrom_le (cursor : Nat) (sizes : List Nat) :
    finishFrom k cursor sizes ≤ cursor + (sizes.map (· + 3)).sum := by
  induction sizes generalizing cursor with
  | nil => exact Nat.le_refl _
  | cons size sizes ih =>
    have halign : alignUp cursor k.alignment ≤ cursor + 3 := by
      rcases k.alignment_eq with h | h
      · rw [h, alignUp_one]
        omega
      · rw [h, alignUp_four]
        omega
    have := ih (alignUp cursor k.alignment + size)
    rw [finishFrom, List.map_cons, List.sum_cons]
    omega

end Section

/-- What the rounds of a layout depend on. -/
structure CodeLoop where
  /-- Where code would start if the code offsets in front of it took no bytes. -/
  rest : Nat
  /-- For every code offset in front of code, the place of its code in file order. -/
  uses : List Nat
  /-- The lengths of code in file order. -/
  sizes : List Nat

namespace CodeLoop

variable {x : CodeLoop} {m n p rounds w : Nat}

/-- The offsets of code that is laid out from an offset on. -/
def starts (x : CodeLoop) (n : Nat) : List Nat := Section.startsFrom .code n x.sizes

/-- The length of the offset of code that was laid out from an offset on. -/
def width (x : CodeLoop) (n i : Nat) : Nat := Leb128.unsignedSize ((x.starts n)[i]?.getD 0)

/-- Where a round lays code out from when the round before has laid it out from `n` on. -/
def next (x : CodeLoop) (n : Nat) : Nat := x.rest + (x.uses.map (x.width n)).sum

/-- One of some rounds moves no code. -/
def settles (x : CodeLoop) : (rounds n : Nat) → Bool
  | 0, _ => false
  | rounds + 1, n => x.starts (x.next n) == x.starts n || x.settles rounds (x.next n)

/-- Where the first code starts. -/
def base (n : Nat) : Nat := alignUp n Kind.code.alignment

theorem base_eq (n : Nat) : base n = (n + 3) / 4 * 4 := alignUp_four n

theorem starts_congr (h : base m = base n) : x.starts m = x.starts n := Section.startsFrom_congr h

theorem next_congr (h : x.starts m = x.starts n) : x.next m = x.next n := by
  have hwidth : x.width m = x.width n := by
    funext i
    rw [width, width, h]
  rw [next, next, hwidth]

/-- Wherever code is laid out, the distances are the same. -/
theorem starts_eq_map (x : CodeLoop) (n : Nat) : x.starts n = (x.starts 0).map (· + base n) := by
  have hbase : base n = 0 + Kind.code.alignment * ((n + 3) / 4) := by
    rw [base_eq, show Kind.code.alignment = 4 from rfl]
    omega
  rw [starts, ← Section.startsFrom_alignUp, ← base, hbase, Section.startsFrom_add, starts,
    Nat.zero_add]

/-! ### One round -/

theorem width_mono (h : m ≤ n) (i : Nat) : x.width m i ≤ x.width n i :=
  Leb128.unsignedSize_mono (Section.startsFrom_mono x.sizes h i)

/-- A later start does not lead to an earlier one. -/
theorem next_mono (h : m ≤ n) : x.next m ≤ x.next n :=
  Nat.add_le_add_left (List.sum_le_sum fun i _ => width_mono h i) x.rest

theorem le_next (x : CodeLoop) (n : Nat) : x.rest + x.uses.length ≤ x.next n := by
  have := List.length_le_sum_of_one_le (x.uses.map (x.width n)) fun w hw => by
    obtain ⟨i, -, rfl⟩ := List.mem_map.1 hw
    exact Leb128.unsignedSize_pos _
  rw [List.length_map] at this
  exact Nat.add_le_add_left this x.rest

theorem next_le (h : ∀ i ∈ x.uses, x.width n i ≤ w) : x.next n ≤ x.rest + x.uses.length * w := by
  have := List.sum_le_card_nsmul (x.uses.map (x.width n)) w fun v hv => by
    obtain ⟨i, hi, rfl⟩ := List.mem_map.1 hv
    exact h i hi
  rw [List.length_map] at this
  exact Nat.add_le_add_left this x.rest

/-- A round that moves code moves it by a multiple of its alignment. -/
theorem base_add_le (hle : m ≤ n) (hne : x.starts n ≠ x.starts m) : base m + 4 ≤ base n := by
  have hbase : base m ≠ base n := fun h => hne (starts_congr h.symm)
  rw [base_eq, base_eq] at *
  omega

/-! ### All rounds -/

/-- Code that moves towards the end stops when there is a bound that no round crosses. -/
theorem settles_of_le_bound {bound : Nat} (hrise : n ≤ x.next n) (hn : base n ≤ bound)
    (hbound : ∀ m, base m ≤ bound → base (x.next m) ≤ bound) (hr : bound ≤ base n + 4 * rounds) :
    x.settles (rounds + 1) n = true := by
  induction rounds generalizing n with
  | zero =>
    have hsame : x.starts (x.next n) = x.starts n := by
      by_contra hne
      have := base_add_le hrise hne
      have := hbound n hn
      omega
    rw [settles, hsame, beq_self_eq_true, Bool.true_or]
  | succ rounds ih =>
    rw [settles, Bool.or_eq_true, beq_iff_eq]
    by_cases hsame : x.starts (x.next n) = x.starts n
    · exact .inl hsame
    · have := base_add_le hrise hsame
      exact .inr (ih (next_mono hrise) (hbound n hn) (by omega))

/-- Code that moves towards the start stops, for the code offsets take some bytes. -/
theorem settles_of_falling (hfall : x.next n ≤ n)
    (hr : base n ≤ base (x.rest + x.uses.length) + 4 * rounds) :
    x.settles (rounds + 1) n = true := by
  have hlow (m : Nat) : base (x.rest + x.uses.length) ≤ base (x.next m) :=
    Section.alignUp_mono .code (x.le_next m)
  induction rounds generalizing n with
  | zero =>
    have hsame : x.starts n = x.starts (x.next n) := by
      by_contra hne
      have := base_add_le hfall hne
      have := hlow n
      omega
    rw [settles, ← hsame, beq_self_eq_true, Bool.true_or]
  | succ rounds ih =>
    rw [settles, Bool.or_eq_true, beq_iff_eq]
    by_cases hsame : x.starts n = x.starts (x.next n)
    · exact .inl hsame.symm
    · have := base_add_le hfall hsame
      exact .inr (ih (next_mono hfall) (by omega))

/-- The lengths of offsets grow so slowly that no round crosses a distant bound. -/
theorem exists_bound (x : CodeLoop) (n : Nat) :
    ∃ bound, base n ≤ bound ∧ ∀ m, base m ≤ bound → base (x.next m) ≤ bound := by
  generalize htail : (x.sizes.map (· + 3)).sum = tail
  generalize hj : n + x.rest + x.uses.length + tail + 4 = j
  have hpow : j * j + 2 * j < 128 ^ j := by
    have h2 : j < 2 ^ j := Nat.lt_two_pow_self
    have h4 : (4 : Nat) ^ j = 2 ^ j * 2 ^ j := by rw [← Nat.mul_pow]
    have hmul : j * j ≤ 2 ^ j * 2 ^ j := Nat.mul_le_mul (Nat.le_of_lt h2) (Nat.le_of_lt h2)
    have hone : (1 : Nat) ≤ 4 ^ j := Nat.one_le_pow _ _ (by decide)
    have hle : (2 : Nat) ^ j ≤ 4 ^ j := Nat.pow_le_pow_left (by decide) j
    have hfive : (4 : Nat) ^ j * 4 ≤ 128 ^ j := by
      rw [show (128 : Nat) = 4 * 32 from rfl, Nat.mul_pow]
      have hpow : (32 : Nat) ^ 1 ≤ 32 ^ j := Nat.pow_le_pow_right (by decide) (by omega)
      exact Nat.mul_le_mul_left _ (Nat.le_trans (by decide) hpow)
    omega
  have hbase (m : Nat) : base m ≤ m + 3 := by
    rw [base_eq]
    omega
  refine ⟨x.rest + x.uses.length * j + n + 3, ?_, fun m hm => ?_⟩
  · have := hbase n
    omega
  · have huses : x.uses.length * j ≤ j * j := Nat.mul_le_mul_right j (by omega)
    have hwidth : ∀ i ∈ x.uses, x.width m i ≤ j := fun i _ => by
      refine Leb128.unsignedSize_le_of_lt_pow (by omega) ?_
      have hstart := Section.getElem?_startsFrom_le (k := .code) m x.sizes i
      have hfinish := Section.finishFrom_le (k := .code) m x.sizes
      have hm' : m ≤ base m := Section.le_alignUp .code m
      rw [starts]
      omega
    have := next_le hwidth
    have := hbase (x.next m)
    omega

/-- Code stops moving. -/
theorem exists_settles (x : CodeLoop) (n : Nat) : ∃ rounds, x.settles rounds n = true := by
  rcases Nat.le_total n (x.next n) with hrise | hfall
  · obtain ⟨bound, hn, hbound⟩ := x.exists_bound n
    exact ⟨bound + 1, settles_of_le_bound hrise hn hbound (by omega)⟩
  · exact ⟨base n + 1, settles_of_falling hfall (by omega)⟩

/-- Code that moves up to where it stays and has short offsets there moves few times. -/
theorem settles_of_rising (hrise : n ≤ x.next n) (hn : x.rest + x.uses.length ≤ n) (hnp : n ≤ p)
    (hp : x.next p = p) (hwidth : ∀ i ∈ x.uses, x.width p i ≤ 5) :
    x.settles (x.uses.length + 1) n = true := by
  have hle := next_le hwidth
  have hbound : base n ≤ base p := Section.alignUp_mono .code hnp
  refine settles_of_le_bound hrise hbound (fun m hm => ?_) ?_
  · -- what starts as late as where code stays is laid out from there in the next round
    have hm' : m ≤ base p := Nat.le_trans (Section.le_alignUp .code m) hm
    have hnext := next_mono (x := x) hm'
    have hsame : x.next (base p) = p := by
      rw [← hp]
      refine next_congr (starts_congr ?_)
      rw [hp, base, base, Section.alignUp_alignUp]
    exact Section.alignUp_mono .code (hsame ▸ hnext)
  · rw [base_eq, base_eq]
    omega

end CodeLoop

end DexContainer
