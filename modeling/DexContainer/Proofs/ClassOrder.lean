import Mathlib.Data.List.Find
import Std.Data.HashSet
import DexContainer.Container.ClassOrder

/-! The queue of the dependency order, and what it comes to. The places in the queue are those of
the classes that wait for nothing, and a class waits for as many classes as it must follow and have
not been emitted. Taking the least place out of the queue is therefore taking the first class whose
dependencies have been emitted. Main statements: `Tracks.release`, what one class that is emitted
leaves of this; and `arrange_eq`, the order that the queue leads to is the one of `emit`. -/

namespace DexContainer.ClassOrder

variable {awaited : List (List Nat)} {done places : List Nat} {place p : Nat} {s : Progress}
  {nodes : List Node}

/-! ### The order without a queue -/

/-- Everything that a class must follow has been emitted. -/
def Node.isReady (emitted : Std.HashSet Nat) (n : Node) : Bool :=
  n.dependencies.all emitted.contains

/-- Emits the first class that is ready, as long as there is one, and then all others. At most
`limit` classes are emitted as ready, which is no restriction when no more are waiting. -/
def emit (emitted : Std.HashSet Nat) : (limit : Nat) → (waiting : List Node) → List Nat
  | 0, waiting => waiting.map (·.id)
  | limit + 1, waiting =>
    match waiting.findIdx? (·.isReady emitted) with
    | none => waiting.map (·.id)
    | some i =>
      match waiting[i]? with
      | none => waiting.map (·.id)
      | some n => n.id :: emit (emitted.insert n.id) limit (waiting.eraseIdx i)

/-- When no class is ready, all are emitted as they stand. -/
theorem emit_of_stuck {emitted : Std.HashSet Nat} {limit : Nat} {waiting : List Node}
    (h : ∀ n ∈ waiting, ¬n.isReady emitted = true) :
    emit emitted limit waiting = waiting.map (·.id) := by
  have hnone : waiting.findIdx? (·.isReady emitted) = none :=
    List.findIdx?_eq_none_iff.2 fun n hn => Bool.eq_false_iff.2 (h n hn)
  cases limit with
  | zero => rfl
  | succ limit => rw [emit, hnone]

/-- The first class that is ready is emitted next. -/
theorem emit_of_split {emitted : Std.HashSet Nat} {limit : Nat} {before after : List Node}
    {n : Node} (hbefore : ∀ m ∈ before, ¬m.isReady emitted = true)
    (hn : n.isReady emitted = true) :
    emit emitted (limit + 1) (before ++ n :: after) =
      n.id :: emit (emitted.insert n.id) limit (before ++ after) := by
  have hfirst : (before ++ n :: after).findIdx? (·.isReady emitted) = some before.length := by
    have hnone : before.findIdx? (·.isReady emitted) = none :=
      List.findIdx?_eq_none_iff.2 fun m hm => Bool.eq_false_iff.2 (hbefore m hm)
    rw [List.findIdx?_append, hnone, List.findIdx?_cons, if_pos hn]
    simp
  have herase : (before ++ n :: after).eraseIdx before.length = before ++ after := by
    rw [List.eraseIdx_append_of_length_le (Nat.le_refl _), Nat.sub_self, List.eraseIdx_cons_zero]
  rw [emit, hfirst]
  simp only [List.getElem?_append_right (Nat.le_refl before.length), Nat.sub_self,
    List.getElem?_cons_zero, herase]

/-! ### The queue -/

theorem mem_enqueue {q : Nat} : q ∈ enqueue place places ↔ q = place ∨ q ∈ places := by
  induction places with
  | nil => simp [enqueue]
  | cons p ps ih =>
    rw [enqueue]
    split
    · simp
    · simp [ih, or_left_comm]

/-- The queue stands in ascending order. -/
theorem pairwise_enqueue (h : places.Pairwise (· < ·)) (hnew : place ∉ places) :
    (enqueue place places).Pairwise (· < ·) := by
  induction places with
  | nil => simp [enqueue]
  | cons p ps ih =>
    obtain ⟨hp, hps⟩ := List.pairwise_cons.1 h
    rw [List.mem_cons, not_or] at hnew
    rw [enqueue]
    split
    · rename_i hle
      have hlt : place < p := by omega
      refine .cons (List.forall_mem_cons.2 ⟨hlt, fun q hq => ?_⟩) h
      exact hlt.trans (hp q hq)
    · refine .cons (fun q hq => ?_) (ih hps hnew.2)
      rcases mem_enqueue.1 hq with rfl | hq
      · omega
      · exact hp q hq

/-! ### Classes that wait -/

theorem getElem?_modify_push (place : Nat) (hn : places.Nodup) (d : Array (Array Nat)) (p : Nat) :
    (places.foldl (fun d q => d.modify q (·.push place)) d)[p]? =
      if p ∈ places then d[p]?.map (·.push place) else d[p]? := by
  induction places generalizing d with
  | nil => simp
  | cons q qs ih =>
    obtain ⟨hq, hqs⟩ := List.nodup_cons.1 hn
    rw [List.foldl_cons, ih hqs, Array.getElem?_modify]
    by_cases hpq : q = p
    · subst hpq
      simp [hq]
    · simp [hpq, Ne.symm hpq]

/-- Entering all that a class waits for, one class after the other. -/
theorem getElem?_foldl_modify_push {entries : List (List Nat × Nat)}
    (hn : ∀ x ∈ entries, x.1.Nodup) (d : Array (Array Nat)) (hd : d[p]? = some places.toArray) :
    (entries.foldl (fun d x => x.1.foldl (fun d q => d.modify q (·.push x.2)) d) d)[p]? =
      some (places ++ (entries.filter fun x => p ∈ x.1).map (·.2)).toArray := by
  induction entries generalizing d places with
  | nil => simpa using hd
  | cons x entries ih =>
    obtain ⟨hx, hentries⟩ := List.forall_mem_cons.1 hn
    have hnext := getElem?_modify_push x.2 hx d p
    rw [List.foldl_cons]
    by_cases hpx : p ∈ x.1
    · rw [if_pos hpx, hd, Option.map_some, List.push_toArray] at hnext
      rw [ih hentries _ hnext]
      simp [hpx]
    · rw [if_neg hpx, hd] at hnext
      rw [ih hentries _ hnext]
      simp [hpx]

/-- The places of the classes that wait for the class at `p`. -/
theorem getElem?_dependents (hn : ∀ places ∈ awaited, places.Nodup) (hp : p < awaited.length) :
    (dependents awaited)[p]? =
      some ((awaited.zipIdx.filter fun x => p ∈ x.1).map (·.2)).toArray := by
  have hentries : ∀ x ∈ awaited.zipIdx, x.1.Nodup := fun x hx =>
    hn x.1 (List.fst_mem_of_mem_zipIdx hx)
  have hempty : (Array.replicate awaited.length (#[] : Array Nat))[p]? =
      some ([] : List Nat).toArray := by
    simp [hp]
  exact getElem?_foldl_modify_push hentries _ hempty

/-- The places of the classes that wait for the class at `p`, as they are released. -/
def released (awaited : List (List Nat)) (p : Nat) : List Nat :=
  ((dependents awaited)[p]?.getD #[]).toList

theorem mem_released (hn : ∀ places ∈ awaited, places.Nodup) (hp : p < awaited.length) :
    place ∈ released awaited p ↔ ∃ places, awaited[place]? = some places ∧ p ∈ places := by
  rw [released, getElem?_dependents hn hp, Option.getD_some]
  simp [List.mem_zipIdx_iff_getElem?]

theorem nodup_released (hn : ∀ places ∈ awaited, places.Nodup) (hp : p < awaited.length) :
    (released awaited p).Nodup := by
  rw [released, getElem?_dependents hn hp, Option.getD_some]
  refine List.Nodup.sublist (List.filter_sublist.map _) ?_
  rw [List.zipIdx_map_snd]
  exact List.nodup_range'

/-! ### Releasing -/

theorem getElem?_pending_release (hn : places.Nodup) (s : Progress) (p : Nat) :
    (places.foldl Progress.release s).pending[p]? =
      if p ∈ places then s.pending[p]?.map (· - 1) else s.pending[p]? := by
  induction places generalizing s with
  | nil => simp
  | cons q qs ih =>
    obtain ⟨hq, hqs⟩ := List.nodup_cons.1 hn
    have hpending : (s.release q).pending = s.pending.modify q (· - 1) := rfl
    rw [List.foldl_cons, ih hqs, hpending, Array.getElem?_modify]
    by_cases hpq : q = p
    · subst hpq
      simp [hq]
    · simp [hpq, Ne.symm hpq]

theorem mem_ready_release {q : Nat} : q ∈ (s.release p).ready ↔
    q ∈ s.ready ∨ q = p ∧ s.pending[p]?.map (· - 1) = some 0 := by
  have hready : (s.release p).ready =
      if s.pending[p]?.map (· - 1) = some 0 then enqueue p s.ready else s.ready := by
    rw [Progress.release, Array.getElem?_modify, if_pos rfl]
  rw [hready]
  split
  · rename_i h
    simp [mem_enqueue, h, or_comm]
  · rename_i h
    simp [h]

theorem mem_ready_foldl_release (hn : places.Nodup) (s : Progress) (p : Nat) :
    p ∈ (places.foldl Progress.release s).ready ↔
      p ∈ s.ready ∨ p ∈ places ∧ s.pending[p]?.map (· - 1) = some 0 := by
  induction places generalizing s with
  | nil => simp
  | cons q qs ih =>
    obtain ⟨hq, hqs⟩ := List.nodup_cons.1 hn
    have hpending : (s.release q).pending = s.pending.modify q (· - 1) := rfl
    rw [List.foldl_cons, ih hqs, mem_ready_release, hpending, Array.getElem?_modify]
    by_cases hpq : q = p
    · subst hpq
      simp [hq]
    · simp [hpq, Ne.symm hpq]

theorem pairwise_ready_foldl_release (hn : places.Nodup) (h : s.ready.Pairwise (· < ·))
    (hnew : ∀ p ∈ places, p ∉ s.ready) :
    (places.foldl Progress.release s).ready.Pairwise (· < ·) := by
  induction places generalizing s with
  | nil => exact h
  | cons q qs ih =>
    obtain ⟨hq, hqs⟩ := List.nodup_cons.1 hn
    obtain ⟨hnewq, hnewqs⟩ := List.forall_mem_cons.1 hnew
    rw [List.foldl_cons]
    refine ih hqs ?_ fun p hp hready => ?_
    · rw [Progress.release]
      split
      · exact pairwise_enqueue h hnewq
      · exact h
    · rcases mem_ready_release.1 hready with hready | ⟨rfl, -⟩
      · exact hnewqs p hp hready
      · exact hq hp

/-! ### What the queue knows -/

/-- The counts and the queue fit what has been emitted. -/
structure Tracks (awaited : List (List Nat)) (done : List Nat) (s : Progress) : Prop where
  pending : ∀ (p : Nat) (places : List Nat), awaited[p]? = some places →
    s.pending[p]? = some (places.countP (· ∉ done))
  mem_ready : ∀ p, p ∈ s.ready ↔
    p ∉ done ∧ ∃ places, awaited[p]? = some places ∧ ∀ q ∈ places, q ∈ done
  sorted : s.ready.Pairwise (· < ·)
  closed : ∀ p ∈ done, ∀ places, awaited[p]? = some places → ∀ q ∈ places, q ∈ done

theorem tracks_start (awaited : List (List Nat)) :
    Tracks awaited [] (Progress.start awaited) where
  pending p places h := by simp [Progress.start, h]
  mem_ready p := by
    simp only [Progress.start, List.mem_filter, List.mem_range, decide_eq_true_eq,
      List.not_mem_nil, not_false_eq_true, true_and]
    constructor
    · rintro ⟨-, h⟩
      exact ⟨[], h, by simp⟩
    · rintro ⟨places, h, hplaces⟩
      obtain rfl := List.eq_nil_iff_forall_not_mem.2 hplaces
      exact ⟨(List.getElem?_eq_some_iff.1 h).1, h⟩
  sorted := List.pairwise_lt_range.filter _
  closed := by simp

theorem Tracks.pairwise_of_ready {ready : List Nat} (h : Tracks awaited done s)
    (hready : s.ready = p :: ready) : (∀ q ∈ ready, p < q) ∧ ready.Pairwise (· < ·) := by
  rw [← List.pairwise_cons, ← hready]
  exact h.sorted

/-- A class waits for none when all that it must follow have been emitted. -/
theorem countP_notMem_eq_zero : places.countP (· ∉ done) = 0 ↔ ∀ q ∈ places, q ∈ done := by
  simp [List.countP_eq_zero]

/-- A class waits for one class less when a class that it waits for is emitted. -/
theorem countP_notMem_cons (hn : places.Nodup) (hp : p ∉ done) :
    places.countP (· ∉ done) =
      places.countP (· ∉ p :: done) + if p ∈ places then 1 else 0 := by
  induction places with
  | nil => rfl
  | cons q qs ih =>
    obtain ⟨hq, hqs⟩ := List.nodup_cons.1 hn
    rw [List.countP_cons, List.countP_cons, ih hqs]
    by_cases hqp : q = p
    · subst hqp
      simp [hq, hp]
    · have hpq : ¬p = q := fun h => hqp h.symm
      simp only [List.mem_cons, not_or, hqp, hpq, false_or]
      omega

section Release

variable (h : Tracks awaited done s) (hn : ∀ places ∈ awaited, places.Nodup) (hp : p ∈ s.ready)

include h hp

theorem Tracks.notMem_done : p ∉ done := ((h.mem_ready p).1 hp).1

theorem Tracks.lt_length : p < awaited.length := by
  obtain ⟨-, places, hplaces, -⟩ := (h.mem_ready p).1 hp
  exact (List.getElem?_eq_some_iff.1 hplaces).1

include hn

/-- No class that waits for a class in the queue has been emitted, or is in the queue. -/
theorem Tracks.notMem_of_mem_released {q : Nat} (hq : q ∈ released awaited p) :
    q ∉ p :: done ∧ q ∉ s.ready := by
  obtain ⟨hpdone, ps, hps, hdone⟩ := (h.mem_ready p).1 hp
  obtain ⟨qs, hqs, hpq⟩ := (mem_released hn (h.lt_length hp)).1 hq
  have hne : q ≠ p := by
    rintro rfl
    obtain rfl := Option.some.inj (hps.symm.trans hqs)
    exact hpdone (hdone q hpq)
  have hqdone : q ∉ done := fun hmem => hpdone (h.closed q hmem qs hqs p hpq)
  refine ⟨by simp [hne, hqdone], fun hmem => ?_⟩
  obtain ⟨-, qs', hqs', hall⟩ := (h.mem_ready q).1 hmem
  obtain rfl := Option.some.inj (hqs.symm.trans hqs')
  exact hpdone (hall p hpq)

/-- What is pending before a class in the queue is emitted, told by what is pending after that. -/
theorem Tracks.getElem?_pending (hplaces : awaited[place]? = some places) :
    s.pending[place]? =
      some (places.countP (· ∉ p :: done) + if p ∈ places then 1 else 0) := by
  rw [h.pending place places hplaces,
    countP_notMem_cons (hn places (List.mem_of_getElem? hplaces)) (h.notMem_done hp)]

/-- The counts after a class in the queue has been emitted. -/
theorem Tracks.pending_release {t : Progress} (ht : t.pending = s.pending)
    (hplaces : awaited[place]? = some places) :
    ((released awaited p).foldl Progress.release t).pending[place]? =
      some (places.countP (· ∉ p :: done)) := by
  have hlt := h.lt_length hp
  have hwaits : place ∈ released awaited p ↔ p ∈ places := by
    simp [mem_released hn hlt, hplaces]
  rw [getElem?_pending_release (nodup_released hn hlt), ht, h.getElem?_pending hn hp hplaces]
  by_cases hmem : p ∈ places
  · rw [if_pos (hwaits.2 hmem), if_pos hmem]
    rfl
  · rw [if_neg (mt hwaits.1 hmem), if_neg hmem]
    rfl

/-- A class that waited for the emitted class gets ready when it waits for no other. -/
theorem Tracks.getsReady_iff : (place ∈ released awaited p ∧
      s.pending[place]?.map (· - 1) = some 0) ↔
    ∃ places, awaited[place]? = some places ∧ p ∈ places ∧ ∀ q ∈ places, q ∈ p :: done := by
  rw [mem_released hn (h.lt_length hp)]
  constructor
  · rintro ⟨⟨places, hplaces, hmem⟩, hzero⟩
    rw [h.getElem?_pending hn hp hplaces, if_pos hmem] at hzero
    exact ⟨places, hplaces, hmem, countP_notMem_eq_zero.1 (Option.some.inj hzero)⟩
  · rintro ⟨places, hplaces, hmem, hall⟩
    refine ⟨⟨places, hplaces, hmem⟩, ?_⟩
    rw [h.getElem?_pending hn hp hplaces, if_pos hmem, countP_notMem_eq_zero.2 hall]
    rfl

end Release

/-- Emitting the first class of the queue and releasing those that wait for it keeps the counts and
the queue fitting. -/
theorem Tracks.release {ready : List Nat} (h : Tracks awaited done s)
    (hn : ∀ places ∈ awaited, places.Nodup) (hready : s.ready = p :: ready) :
    Tracks awaited (p :: done)
      ((released awaited p).foldl Progress.release { s with ready }) := by
  have hp : p ∈ s.ready := by simp [hready]
  have hnodup := nodup_released hn (h.lt_length hp)
  obtain ⟨hfirst, hsorted⟩ := h.pairwise_of_ready hready
  refine ⟨fun q qs => h.pending_release hn hp rfl, fun q => ?_, ?_, ?_⟩
  · rw [mem_ready_foldl_release hnodup, h.getsReady_iff hn hp]
    constructor
    · rintro (hq | ⟨qs, hqs, hpq, hall⟩)
      · obtain ⟨hqdone, qs, hqs, hall⟩ := (h.mem_ready q).1 (by simp [hready, hq])
        have hne : q ≠ p := (hfirst q hq).ne'
        exact ⟨by simp [hne, hqdone], qs, hqs, fun r hr => List.mem_cons_of_mem _ (hall r hr)⟩
      · have hq := (mem_released hn (h.lt_length hp)).2 ⟨qs, hqs, hpq⟩
        exact ⟨(h.notMem_of_mem_released hn hp hq).1, qs, hqs, hall⟩
    · rintro ⟨hqnew, qs, hqs, hall⟩
      by_cases hpq : p ∈ qs
      · exact .inr ⟨qs, hqs, hpq, hall⟩
      · rw [List.mem_cons, not_or] at hqnew
        have hmem : q ∈ s.ready := by
          refine (h.mem_ready q).2 ⟨hqnew.2, qs, hqs, fun r hr => ?_⟩
          exact (List.mem_cons.1 (hall r hr)).resolve_left (ne_of_mem_of_not_mem hr hpq)
        rw [hready] at hmem
        exact .inl ((List.mem_cons.1 hmem).resolve_left hqnew.1)
  · refine pairwise_ready_foldl_release hnodup hsorted fun q hq hmem => ?_
    exact (h.notMem_of_mem_released hn hp hq).2 (by simp [hready, hmem])
  · obtain ⟨-, ps, hps, hdone⟩ := (h.mem_ready p).1 hp
    intro q hq qs hqs r hr
    rcases List.mem_cons.1 hq with rfl | hq
    · obtain rfl := Option.some.inj (hps.symm.trans hqs)
      exact List.mem_cons_of_mem _ (hdone r hr)
    · exact List.mem_cons_of_mem _ (h.closed q hq qs hqs r hr)

/-! ### The first class of the queue is the first class that is ready -/

/-- The classes emitted so far, by place and by number. -/
structure Emits (nodes : List Node) (done : List Nat) (emitted : Std.HashSet Nat) : Prop where
  mem_emitted : ∀ id, id ∈ emitted ↔ ∃ p ∈ done, (nodes.map (·.id))[p]? = some id
  lt_length : ∀ p ∈ done, p < nodes.length
  first : ∀ p ∈ done, ∀ id, (nodes.map (·.id))[p]? = some id →
    (nodes.map (·.id)).idxOf id ∈ done

/-- What each class waits for. -/
def awaitedOf (nodes : List Node) : List (List Nat) := nodes.map (·.places (nodes.map (·.id)))

theorem getElem?_idxOf {ids : List Nat} {id : Nat} (h : id ∈ ids) :
    ids[ids.idxOf id]? = some id := by
  rw [List.getElem?_eq_getElem (List.idxOf_lt_length_iff.2 h), List.getElem_idxOf]

theorem idxOf_le {ids : List Nat} {id : Nat} (h : ids[p]? = some id) : ids.idxOf id ≤ p := by
  obtain ⟨hp, rfl⟩ := List.getElem?_eq_some_iff.1 h
  by_contra hlt
  exact absurd (List.not_of_lt_findIdx (not_le.1 hlt)) (by simp)

theorem nodup_eraseDups (places : List Nat) : places.eraseDups.Nodup := by
  match places with
  | [] => simp
  | p :: ps =>
    rw [List.eraseDups_cons, List.nodup_cons, List.mem_eraseDups]
    exact ⟨by simp, nodup_eraseDups _⟩
termination_by places.length
decreasing_by exact Nat.lt_succ_of_le (List.length_filter_le ..)

theorem nodup_awaitedOf (nodes : List Node) : ∀ places ∈ awaitedOf nodes, places.Nodup :=
  List.forall_mem_map.2 fun _ _ => nodup_eraseDups _

theorem Emits.isReady_iff {emitted : Std.HashSet Nat} (h : Emits nodes done emitted) (n : Node) :
    n.isReady emitted = true ↔ ∀ p ∈ n.places (nodes.map (·.id)), p ∈ done := by
  simp only [Node.isReady, List.all_eq_true, Std.HashSet.contains_iff_mem, Node.places,
    List.mem_eraseDups, List.forall_mem_map]
  refine forall₂_congr fun id _ => ?_
  rw [h.mem_emitted]
  constructor
  · rintro ⟨p, hp, hid⟩
    exact h.first p hp id hid
  · intro hid
    refine ⟨_, hid, getElem?_idxOf ?_⟩
    have := h.lt_length _ hid
    rwa [← List.idxOf_lt_length_iff, List.length_map]

theorem getElem?_awaitedOf {n : Node} (h : nodes[p]? = some n) :
    (awaitedOf nodes)[p]? = some (n.places (nodes.map (·.id))) := by
  simp [awaitedOf, h]

theorem Tracks.mem_ready_iff {emitted : Std.HashSet Nat} {n : Node}
    (h : Tracks (awaitedOf nodes) done s) (he : Emits nodes done emitted)
    (hn : nodes[p]? = some n) : p ∈ s.ready ↔ p ∉ done ∧ n.isReady emitted = true := by
  rw [h.mem_ready, he.isReady_iff]
  simp [getElem?_awaitedOf hn]

/-- Of the classes that are ready and have not been emitted, the first of the queue stands
earliest. -/
theorem Tracks.le_of_isReady {emitted : Std.HashSet Nat} {ready : List Nat} {q : Nat} {m : Node}
    (h : Tracks (awaitedOf nodes) done s) (he : Emits nodes done emitted)
    (hready : s.ready = p :: ready) (hm : nodes[q]? = some m) (hq : q ∉ done)
    (hmready : m.isReady emitted = true) : p ≤ q := by
  have hmem : q ∈ s.ready := (h.mem_ready_iff he hm).2 ⟨hq, hmready⟩
  rw [hready] at hmem
  rcases List.mem_cons.1 hmem with rfl | hmem
  · exact Nat.le_refl q
  · exact ((h.pairwise_of_ready hready).1 q hmem).le

/-- Emitting the first class of the queue emits its number. -/
theorem Emits.insert {emitted : Std.HashSet Nat} {ready : List Nat} {n : Node}
    (hsame : ∀ n ∈ nodes, ∀ m ∈ nodes, n.id = m.id → n = m)
    (h : Tracks (awaitedOf nodes) done s) (he : Emits nodes done emitted)
    (hready : s.ready = p :: ready) (hn : nodes[p]? = some n) :
    Emits nodes (p :: done) (emitted.insert n.id) := by
  have hid : (nodes.map (·.id))[p]? = some n.id := by simp [hn]
  refine ⟨fun id => ?_, List.forall_mem_cons.2
    ⟨(List.getElem?_eq_some_iff.1 hn).1, he.lt_length⟩, ?_⟩
  · rw [Std.HashSet.mem_insert, beq_iff_eq, he.mem_emitted]
    simp only [List.mem_cons, exists_eq_or_imp, hid, Option.some.injEq]
  · refine List.forall_mem_cons.2 ⟨fun id hpid => ?_, fun q hq id hqid =>
      List.mem_cons_of_mem _ (he.first q hq id hqid)⟩
    obtain rfl := Option.some.inj (hid.symm.trans hpid)
    -- a class of the same number that stands earlier is ready as well
    generalize hfirst : (nodes.map (·.id)).idxOf n.id = q
    have hq : (nodes.map (·.id))[q]? = some n.id :=
      hfirst ▸ getElem?_idxOf (List.mem_of_getElem? hid)
    obtain ⟨m, hm, hmid⟩ : ∃ m, nodes[q]? = some m ∧ m.id = n.id := by simpa using hq
    obtain rfl := hsame m (List.mem_of_getElem? hm) n (List.mem_of_getElem? hn) hmid
    by_cases hdone : q ∈ done
    · exact List.mem_cons_of_mem _ hdone
    have hmready := ((h.mem_ready_iff he hn).1 (by simp [hready])).2
    have hle : q ≤ p := hfirst ▸ idxOf_le hid
    obtain rfl := le_antisymm hle (h.le_of_isReady he hready hm hdone hmready)
    exact List.mem_cons_self

/-- The places that are left once one more place has been emitted. -/
theorem filter_notContains_cons {before after rest : List Nat} (hp : p ∉ before ++ after) :
    ((before ++ p :: after).filter fun q => !(p :: rest).contains q) =
      (before ++ after).filter fun q => !rest.contains q := by
  have hcongr (qs : List Nat) (hqs : p ∉ qs) :
      (qs.filter fun q => !(p :: rest).contains q) = qs.filter fun q => !rest.contains q :=
    List.filter_congr fun q hq => by simp [ne_of_mem_of_not_mem hq hqs]
  rw [List.mem_append, not_or] at hp
  rw [List.filter_append, List.filter_append, hcongr before hp.1,
    List.filter_cons_of_neg (by simp), hcongr after hp.2]

/-- A list of places in ascending order, taken apart at one of them. -/
theorem exists_split (h : places.Pairwise (· < ·)) (hp : p ∈ places) :
    ∃ before after, places = before ++ p :: after ∧ (∀ q ∈ before, q < p) ∧
      p ∉ before ++ after ∧ (before ++ after).Pairwise (· < ·) := by
  obtain ⟨before, after, rfl⟩ := List.append_of_mem hp
  obtain ⟨-, hafter, hbefore⟩ := List.pairwise_append.1 h
  refine ⟨before, after, rfl, fun q hq => hbefore q hq p List.mem_cons_self, fun hmem => ?_,
    h.sublist ((List.sublist_cons_self p after).append_left before)⟩
  rcases List.mem_append.1 hmem with hmem | hmem
  · exact lt_irrefl p (hbefore p hmem p List.mem_cons_self)
  · exact lt_irrefl p ((List.pairwise_cons.1 hafter).1 p hmem)

/-- The places that have not been emitted, once one more has been. -/
theorem mem_rest_iff {before after : List Nat} {length q : Nat}
    (h : ∀ q, q ∈ before ++ p :: after ↔ q < length ∧ q ∉ done) (hp : p ∉ before ++ after) :
    q ∈ before ++ after ↔ q < length ∧ q ∉ p :: done := by
  have hq := h q
  rw [List.mem_append, List.mem_cons] at hq
  by_cases hqp : q = p
  · subst hqp
    simpa using hp
  · simpa [hqp] using hq

/-- The classes in front of the first one of the queue are not ready. -/
theorem Tracks.not_isReady_of_lt {emitted : Std.HashSet Nat} {ready before : List Nat}
    (h : Tracks (awaitedOf nodes) done s) (he : Emits nodes done emitted)
    (hready : s.ready = p :: ready) (hbefore : ∀ q ∈ before, q < p ∧ q ∉ done) :
    ∀ m ∈ before.filterMap (nodes[·]?), ¬m.isReady emitted = true := by
  intro m hm hmready
  obtain ⟨q, hq, hm⟩ := List.mem_filterMap.1 hm
  obtain ⟨hlt, hdone⟩ := hbefore q hq
  exact absurd (h.le_of_isReady he hready hm hdone hmready) (not_le.2 hlt)

/-- Taking classes out of the queue is taking the first class that is ready. -/
theorem emit_eq_drain {emitted : Std.HashSet Nat} {limit : Nat}
    (hsame : ∀ n ∈ nodes, ∀ m ∈ nodes, n.id = m.id → n = m)
    (h : Tracks (awaitedOf nodes) done s) (he : Emits nodes done emitted)
    (hsorted : places.Pairwise (· < ·)) (hplaces : ∀ p, p ∈ places ↔ p < nodes.length ∧ p ∉ done)
    (hlimit : places.length ≤ limit) :
    emit emitted limit (places.filterMap (nodes[·]?)) =
      let rest := drain (dependents (awaitedOf nodes)) limit s
      (rest ++ places.filter fun p => !rest.contains p).filterMap ((nodes.map (·.id))[·]?) := by
  induction limit generalizing done places s emitted with
  | zero =>
    obtain rfl := List.eq_nil_of_length_eq_zero (Nat.le_zero.1 hlimit)
    rfl
  | succ limit ih =>
    rw [drain]
    cases hqueue : s.ready with
    | nil =>
      have hstuck : ∀ m ∈ places.filterMap (nodes[·]?), ¬m.isReady emitted = true := by
        intro m hm hmready
        obtain ⟨q, hq, hm⟩ := List.mem_filterMap.1 hm
        have hmem := (h.mem_ready_iff he hm).2 ⟨((hplaces q).1 hq).2, hmready⟩
        simp [hqueue] at hmem
      rw [emit_of_stuck hstuck]
      simp only [List.nil_append, List.contains_nil, Bool.not_false,
        List.filter_eq_self.2 fun _ _ => rfl, List.map_filterMap, List.getElem?_map]
    | cons p ready =>
      have hp : p ∈ s.ready := by simp [hqueue]
      have hlt : p < nodes.length := by simpa [awaitedOf] using h.lt_length hp
      have hn := List.getElem?_eq_getElem hlt
      have hready := ((h.mem_ready_iff he hn).1 hp).2
      obtain ⟨before, after, rfl, hbefore, hpnew, hrest⟩ :=
        exists_split hsorted ((hplaces p).2 ⟨hlt, h.notMem_done hp⟩)
      have hwaits := h.not_isReady_of_lt he hqueue fun q hq =>
        ⟨hbefore q hq, ((hplaces q).1 (List.mem_append_left _ hq)).2⟩
      have hlength : (before ++ after).length ≤ limit := by
        simp only [List.length_append, List.length_cons] at hlimit ⊢
        omega
      have hid : (nodes.map (·.id))[p]? = some nodes[p].id := by simp [hn]
      rw [List.filterMap_append, List.filterMap_cons_some hn, emit_of_split hwaits hready,
        ← List.filterMap_append, ih (h.release (nodup_awaitedOf nodes) hqueue)
          (he.insert hsame h hqueue hn) hrest (fun _ => mem_rest_iff hplaces hpnew) hlength]
      simp only [released, List.cons_append, filter_notContains_cons hpnew]
      rw [List.filterMap_cons_some (f := ((nodes.map (·.id))[·]?)) hid]

/-- The order that the queue leads to. -/
theorem arrange_eq (hsame : ∀ n ∈ nodes, ∀ m ∈ nodes, n.id = m.id → n = m) :
    arrange nodes = emit {} nodes.length nodes := by
  have hstart : Emits nodes [] {} := ⟨by simp, by simp, by simp⟩
  have hall (nodes : List Node) : (List.range nodes.length).filterMap (nodes[·]?) = nodes := by
    induction nodes with
    | nil => rfl
    | cons n nodes ih =>
      rw [List.length_cons, List.range_succ_eq_map,
        List.filterMap_cons_some (f := ((n :: nodes)[·]?)) rfl, List.filterMap_map]
      exact congrArg (n :: ·) ih
  have hdrain := emit_eq_drain hsame (tracks_start (awaitedOf nodes)) hstart
    (List.pairwise_lt_range (n := nodes.length)) (by simp) (Nat.le_of_eq List.length_range)
  rw [hall] at hdrain
  simp only [hdrain, arrange, awaitedOf]

end DexContainer.ClassOrder
