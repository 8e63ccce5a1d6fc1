import Mathlib.Data.List.Forall2
import DexContainer.Item.Places

/-! What a success tells of a sequence of steps. Main statements: a sequence succeeds exactly when
every step does, and the members of a list are measured or written exactly when each of them is. -/

namespace DexContainer

variable {ε ε' α β γ : Type}

/-! ### Steps -/

@[simp] theorem bind_eq_ok {e : Except ε α} {f : α → Except ε β} {b : β} :
    (e >>= f) = .ok b ↔ ∃ a, e = .ok a ∧ f a = .ok b := by
  cases e <;> simp [bind, Except.bind]

@[simp] theorem map_eq_error {e : Except ε α} {f : α → β} {x : ε} :
    (f <$> e) = .error x ↔ e = .error x := by
  cases e <;> simp [Functor.map, Except.map]

@[simp] theorem map_eq_ok {e : Except ε α} {f : α → β} {b : β} :
    (f <$> e) = .ok b ↔ ∃ a, e = .ok a ∧ f a = b := by
  cases e <;> simp [Functor.map, Except.map]

@[simp] theorem pure_eq_ok {a b : α} : (pure a : Except ε α) = .ok b ↔ a = b := by
  simp [pure, Except.pure]

@[simp] theorem throw_ne_ok {e : ε} {a : α} : (throw e : Except ε α) ≠ .ok a := by
  simp [throw, throwThe, MonadExceptOf.throw]

@[simp] theorem mapError_eq_ok {e : Except ε α} {f : ε → ε'} {a : α} :
    e.mapError f = .ok a ↔ e = .ok a := by
  cases e <;> simp [Except.mapError]

@[simp] theorem ok_bind (a : α) (f : α → Except ε β) : (.ok a >>= f) = f a := rfl

@[simp] theorem ok_map (a : α) (f : α → β) : f <$> (.ok a : Except ε α) = .ok (f a) := rfl

theorem pure_eq (a : α) : (pure a : Except ε α) = .ok a := rfl

/-! ### Lists -/

section mapM

variable {f : α → Except ε β} {xs : List α} {ys : List β}

theorem mapM_eq_ok : xs.mapM f = .ok ys ↔ List.Forall₂ (fun x y => f x = .ok y) xs ys := by
  induction xs generalizing ys with
  | nil => cases ys <;> simp
  | cons x xs ih => cases ys <;> simp [List.mapM_cons, ih]

theorem exists_mapM_eq_ok (h : ∀ x ∈ xs, ∃ y, f x = .ok y) : ∃ ys, xs.mapM f = .ok ys := by
  induction xs with
  | nil => exact ⟨[], rfl⟩
  | cons x xs ih =>
    obtain ⟨y, hy⟩ := h x (List.mem_cons_self ..)
    obtain ⟨ys, hys⟩ := ih fun z hz => h z (List.mem_cons_of_mem x hz)
    exact ⟨y :: ys, by simp [List.mapM_cons, hy, hys, pure_eq]⟩

theorem mapM_congr {g : α → Except ε β} (h : ∀ x ∈ xs, f x = g x) : xs.mapM f = xs.mapM g := by
  induction xs with
  | nil => rfl
  | cons x xs ih =>
    rw [List.mapM_cons, List.mapM_cons, h x (List.mem_cons_self ..),
      ih fun z hz => h z (List.mem_cons_of_mem x hz)]

theorem mapM_map (g : γ → α) (zs : List γ) : (zs.map g).mapM f = zs.mapM fun z => f (g z) := by
  induction zs with
  | nil => rfl
  | cons z zs ih => rw [List.map_cons, List.mapM_cons, List.mapM_cons, ih]

/-- Two steps, each taken for all members, are one step taken for all members. -/
theorem map_mapM (g : β → γ) : List.map g <$> xs.mapM f = xs.mapM fun x => g <$> f x := by
  induction xs with
  | nil => rfl
  | cons x xs ih =>
    rw [List.mapM_cons, List.mapM_cons, ← ih]
    cases f x with
    | error e => rfl
    | ok y => cases xs.mapM f <;> rfl

theorem mapM_bind_eq_ok {g : β → Except ε γ} {zs : List γ} :
    (xs.mapM fun x => f x >>= g) = .ok zs ↔ ∃ ys, xs.mapM f = .ok ys ∧ ys.mapM g = .ok zs := by
  induction xs generalizing zs with
  | nil => simp
  | cons x xs ih =>
    simp only [List.mapM_cons, bind_eq_ok, pure_eq_ok, ih]
    constructor
    · rintro ⟨z, ⟨y, hy, hz⟩, zs, ⟨ys, hys, hzs⟩, rfl⟩
      exact ⟨y :: ys, ⟨y, hy, ys, hys, rfl⟩, by simp [List.mapM_cons, hz, hzs]⟩
    · rintro ⟨_, ⟨y, hy, ys, hys, rfl⟩, hzs⟩
      simp only [List.mapM_cons, bind_eq_ok, pure_eq_ok] at hzs
      obtain ⟨z, hz, zs, hzs, rfl⟩ := hzs
      exact ⟨z, ⟨y, hy, hz⟩, zs, ⟨ys, hys, hzs⟩, rfl⟩

theorem exists_getElem?_of_mapM {i : Nat} {y : β} (h : xs.mapM f = .ok ys)
    (hy : ys[i]? = some y) : ∃ x, xs[i]? = some x ∧ f x = .ok y := by
  replace h := mapM_eq_ok.1 h
  induction h generalizing i with
  | nil => cases hy
  | cons hx _ ih =>
    cases i with
    | zero =>
      cases hy
      exact ⟨_, rfl, hx⟩
    | succ i => exact ih hy

theorem exists_of_mem_mapM {y : β} (h : xs.mapM f = .ok ys) (hy : y ∈ ys) :
    ∃ x ∈ xs, f x = .ok y := by
  obtain ⟨i, hi⟩ := List.mem_iff_getElem?.1 hy
  obtain ⟨x, hx, hf⟩ := exists_getElem?_of_mapM h hi
  exact ⟨x, List.mem_of_getElem? hx, hf⟩

theorem eq_map_of_mapM {g : α → β} (h : xs.mapM f = .ok ys)
    (hg : ∀ x ∈ xs, ∀ y, f x = .ok y → y = g x) : ys = xs.map g := by
  replace h := mapM_eq_ok.1 h
  induction h with
  | nil => rfl
  | cons hx _ ih =>
    rw [List.map_cons, hg _ (List.mem_cons_self ..) _ hx,
      ih fun x hmem => hg x (List.mem_cons_of_mem _ hmem)]

theorem exists_of_mapM_eq_ok {x : α} (h : xs.mapM f = .ok ys) (hx : x ∈ xs) :
    ∃ y, f x = .ok y := by
  replace h := mapM_eq_ok.1 h
  induction h with
  | nil => exact absurd hx (by simp)
  | cons hy _ ih =>
    rcases List.mem_cons.1 hx with rfl | hx
    · exact ⟨_, hy⟩
    · exact ih hx

theorem exists_of_mapM_eq_error {e : ε} (h : xs.mapM f = .error e) : ∃ x ∈ xs, f x = .error e := by
  induction xs with
  | nil => cases h
  | cons x xs ih =>
    rw [List.mapM_cons] at h
    cases hx : f x with
    | error e' =>
      rw [hx] at h
      cases h
      exact ⟨x, List.mem_cons_self .., hx⟩
    | ok y =>
      cases hxs : xs.mapM f with
      | error e' =>
        rw [hx, hxs] at h
        cases h
        obtain ⟨z, hz, herror⟩ := ih hxs
        exact ⟨z, List.mem_cons_of_mem _ hz, herror⟩
      | ok ys =>
        rw [hx, hxs] at h
        cases h

theorem length_of_mapM (h : xs.mapM f = .ok ys) : ys.length = xs.length :=
  (mapM_eq_ok.1 h).length_eq.symm

end mapM

/-! ### Measuring and writing lists -/

theorem writeAll_eq_ok {write : α → Written} {xs : List α} {bs : Bytes} :
    writeAll write xs = .ok bs ↔
      ∃ bss, List.Forall₂ (fun x bs => write x = .ok bs) xs bss ∧ bss.flatten = bs := by
  simp [writeAll, mapM_eq_ok]

theorem sizeOfAll_eq_ok {size : α → Size} {xs : List α} {n : Nat} :
    sizeOfAll size xs = .ok n ↔
      ∃ ns, List.Forall₂ (fun x n => size x = .ok n) xs ns ∧ ns.sum = n := by
  simp [sizeOfAll, mapM_eq_ok]

theorem writeAll_nil (write : α → Written) : writeAll write [] = .ok [] := rfl

theorem writeAll_cons (write : α → Written) (x : α) (xs : List α) :
    writeAll write (x :: xs) = do return (← write x) ++ (← writeAll write xs) := by
  simp [writeAll, List.mapM_cons]

theorem sizeOfAll_nil (size : α → Size) : sizeOfAll size [] = .ok 0 := rfl

theorem sizeOfAll_cons (size : α → Size) (x : α) (xs : List α) :
    sizeOfAll size (x :: xs) = do return (← size x) + (← sizeOfAll size xs) := by
  simp [sizeOfAll, List.mapM_cons]

/-- The members of a list are written as long as their lengths say. -/
theorem sizeOfAll_of_writeAll {write : α → Written} {size : α → Size} {xs : List α} {bs : Bytes}
    (hx : ∀ x ∈ xs, ∀ bs, write x = .ok bs → size x = .ok bs.length)
    (h : writeAll write xs = .ok bs) : sizeOfAll size xs = .ok bs.length := by
  obtain ⟨bss, hbss, rfl⟩ := writeAll_eq_ok.1 h
  refine sizeOfAll_eq_ok.2 ⟨bss.map List.length, ?_, (List.length_flatten ..).symm⟩
  induction hbss with
  | nil => exact .nil
  | cons hb _ ih =>
    rename_i hrest
    refine .cons (hx _ (List.mem_cons_self ..) _ hb) (ih ?_ ?_)
    · exact fun y hy => hx y (List.mem_cons_of_mem _ hy)
    · exact writeAll_eq_ok.2 ⟨_, hrest, rfl⟩

theorem length_of_writeAll {write : α → Written} {xs : List α} {bs : Bytes} {n : Nat}
    (hx : ∀ x ∈ xs, ∀ bs, write x = .ok bs → bs.length = n) (h : writeAll write xs = .ok bs) :
    bs.length = n * xs.length := by
  obtain ⟨bss, hbss, rfl⟩ := writeAll_eq_ok.1 h
  induction hbss with
  | nil => rfl
  | cons hb hrest ih =>
    have hhead := hx _ (List.mem_cons_self ..) _ hb
    have htail := ih (fun y hy => hx y (List.mem_cons_of_mem _ hy))
      (writeAll_eq_ok.2 ⟨_, hrest, rfl⟩)
    rw [List.flatten_cons, List.length_append, hhead, htail, List.length_cons, Nat.mul_succ]
    omega

theorem mul_length_le_of_writeAll {write : α → Written} {xs : List α} {bs : Bytes} {n : Nat}
    (hx : ∀ x ∈ xs, ∀ bs, write x = .ok bs → n ≤ bs.length) (h : writeAll write xs = .ok bs) :
    n * xs.length ≤ bs.length := by
  obtain ⟨bss, hbss, rfl⟩ := writeAll_eq_ok.1 h
  induction hbss with
  | nil => exact Nat.le_refl 0
  | cons hb hrest ih =>
    have hhead := hx _ (List.mem_cons_self ..) _ hb
    have htail := ih (fun y hy => hx y (List.mem_cons_of_mem _ hy))
      (writeAll_eq_ok.2 ⟨_, hrest, rfl⟩)
    rw [List.flatten_cons, List.length_append, List.length_cons, Nat.mul_succ]
    omega

theorem length_le_of_writeAll {write : α → Written} {xs : List α} {bs : Bytes}
    (hx : ∀ x ∈ xs, ∀ bs, write x = .ok bs → 0 < bs.length) (h : writeAll write xs = .ok bs) :
    xs.length ≤ bs.length := by
  have := mul_length_le_of_writeAll (n := 1) hx h
  omega

theorem length_le_of_mem_writeAll {write : α → Written} {xs : List α} {bs cs : Bytes} {x : α}
    (h : writeAll write xs = .ok bs) (hx : x ∈ xs) (hc : write x = .ok cs) :
    cs.length ≤ bs.length := by
  obtain ⟨bss, hbss, rfl⟩ := writeAll_eq_ok.1 h
  induction hbss with
  | nil => exact absurd hx (by simp)
  | cons hb hrest ih =>
    rw [List.flatten_cons, List.length_append]
    rcases List.mem_cons.1 hx with rfl | hx
    · rw [hc] at hb
      cases hb
      omega
    · have := ih hx (writeAll_eq_ok.2 ⟨_, hrest, rfl⟩)
      omega

theorem exists_writeAll {w : α → Written} {xs : List α} (h : ∀ x ∈ xs, ∃ bs, w x = .ok bs) :
    ∃ bs, writeAll w xs = .ok bs := by
  obtain ⟨bss, hbss⟩ := exists_mapM_eq_ok h
  exact ⟨bss.flatten, writeAll_eq_ok.2 ⟨bss, mapM_eq_ok.1 hbss, rfl⟩⟩

theorem exists_sizeOfAll {w : α → Size} {xs : List α} (h : ∀ x ∈ xs, ∃ n, w x = .ok n) :
    ∃ n, sizeOfAll w xs = .ok n := by
  obtain ⟨ns, hns⟩ := exists_mapM_eq_ok h
  exact ⟨ns.sum, sizeOfAll_eq_ok.2 ⟨ns, mapM_eq_ok.1 hns, rfl⟩⟩

theorem writeAll_map {v : β → Written} {w : α → Written} (g : α → β) {xs : List α}
    (h : ∀ x ∈ xs, v (g x) = w x) : writeAll v (xs.map g) = writeAll w xs := by
  rw [writeAll, writeAll, mapM_map, mapM_congr h]

theorem sizeOfAll_map {v : β → Size} {w : α → Size} (g : α → β) {xs : List α}
    (h : ∀ x ∈ xs, v (g x) = w x) : sizeOfAll v (xs.map g) = sizeOfAll w xs := by
  rw [sizeOfAll, sizeOfAll, mapM_map, mapM_congr h]

end DexContainer
