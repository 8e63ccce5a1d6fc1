import Mathlib.Data.Fintype.Pigeonhole
import Mathlib.Data.Nat.SuccPred
import Mathlib.Order.SuccPred.Relation
import DexContainer.Proofs.Container.Dependencies

/-! What the dependency order of the class definitions is. A class depends on the definers of its
superclass and of its interfaces. Those that no cycle of dependencies can be reached from are
emitted first, at each step the earliest whose dependencies have been emitted, and the others keep
their order behind them. Main statements: `exists_parts_of_emit`, the two parts of what is emitted;
`exists_cycle` and `not_transGen_self`, which classes belong to which part; and
`emitsByDependency`, the order as a whole. -/

namespace DexContainer

open Relation (ReflTransGen TransGen)

/-! ### Cycles -/

section Cycles

variable {R : Nat → Nat → Prop} {xs : List Nat} {x y : Nat}

/-- Members that all lead to members lead to a cycle. -/
theorem exists_cycle (h : ∀ x ∈ xs, ∃ y ∈ xs, R x y) (hx : x ∈ xs) :
    ∃ y, ReflTransGen R x y ∧ TransGen R y y := by
  choose! next hmem hnext using h
  -- a walk among finitely many members comes to one of them twice
  let walk : Nat → {x // x ∈ xs} := Nat.rec ⟨x, hx⟩ fun _ y => ⟨next y, hmem y y.2⟩
  have hstep (i : Nat) : R (walk i).1 (walk (i + 1)).1 := hnext _ (walk i).2
  have hreach (i : Nat) : ReflTransGen R x (walk i).1 := by
    induction i with
    | zero => exact .refl
    | succ i ih => exact ih.tail (hstep i)
  obtain ⟨i, j, hne, heq⟩ := Finite.exists_ne_map_eq_of_infinite walk
  have hcycle {i j : Nat} (hlt : i < j) : TransGen R (walk i).1 (walk j).1 :=
    (transGen_of_succ_of_lt (fun i j => R (walk i).1 (walk j).1) (fun i _ => hstep i) hlt).lift _
      fun _ _ h => h
  rcases Nat.lt_or_gt_of_ne hne with hlt | hlt
  · refine ⟨(walk i).1, hreach i, ?_⟩
    have := hcycle hlt
    rwa [← heq] at this
  · refine ⟨(walk j).1, hreach j, ?_⟩
    have := hcycle hlt
    rwa [heq] at this

/-- A list in which every member leads to members before it reaches no cycle. -/
theorem not_transGen_self (hn : xs.Nodup)
    (h : ∀ before x after, xs = before ++ x :: after → ∀ y, R x y → y ∈ before) (hx : x ∈ xs)
    (hy : ReflTransGen R x y) : ¬TransGen R y y := by
  have hstep {x y : Nat} (hx : x ∈ xs) (hxy : R x y) : y ∈ xs ∧ xs.idxOf y < xs.idxOf x := by
    obtain ⟨before, after, rfl⟩ := List.append_of_mem hx
    have hy := h before x after rfl y hxy
    have hnotMem : x ∉ before := fun hmem =>
      List.disjoint_of_nodup_append hn hmem List.mem_cons_self
    refine ⟨List.mem_append_left _ hy, ?_⟩
    rw [List.idxOf_append_of_mem hy, List.idxOf_append_of_notMem hnotMem]
    have := List.idxOf_lt_length_iff.2 hy
    omega
  have hmem : y ∈ xs := by
    induction hy with
    | refl => exact hx
    | tail _ hyz ih => exact (hstep ih hyz).1
  have hdescends {z : Nat} (hz : TransGen R y z) : z ∈ xs ∧ xs.idxOf z < xs.idxOf y := by
    induction hz with
    | single hyz => exact hstep hmem hyz
    | tail _ hz ih => exact ⟨(hstep ih.1 hz).1, (hstep ih.1 hz).2.trans ih.2⟩
  exact fun hcycle => absurd (hdescends hcycle).2 (Nat.lt_irrefl _)

/-- What is left of a list, in its order, once some of its members have been taken out. -/
theorem eq_filter_notMem {ys zs : List Nat} (hn : (xs ++ ys).Nodup) (hperm : (xs ++ ys).Perm zs)
    (hys : ys.Sublist zs) : ys = zs.filter (· ∉ xs) := by
  have hself : ys.filter (· ∉ xs) = ys := List.filter_eq_self.2 fun y hy =>
    decide_eq_true fun hmem => List.disjoint_of_nodup_append hn hmem hy
  have hnone : xs.filter (· ∉ xs) = [] := List.filter_eq_nil_iff.2 fun x hx => by simpa using hx
  have hsub := hys.filter (· ∉ xs)
  rw [hself] at hsub
  refine hsub.eq_of_length ?_
  have hlength := (hperm.filter (· ∉ xs)).length_eq
  rwa [List.filter_append, hself, hnone, List.nil_append] at hlength

end Cycles

namespace ClassOrder

variable {emitted : Std.HashSet Nat} {limit : Nat} {waiting nodes : List Node} {p : Nat → Prop}

/-! ### What is emitted -/

/-- The class is ready, and every class that stands before it has been emitted or is not ready. -/
structure Node.IsNext (waiting : List Node) (p : Nat → Prop) (n : Node) : Prop where
  ready : n.Ready p
  earliest : ∀ m, [m, n].Sublist waiting → p m.id ∨ ¬m.Ready p

/-- What stands before a member that occurs once. -/
theorem mem_of_pair_sublist {before after : List Node} {m n : Node} (hn : n ∉ after)
    (h : [m, n].Sublist (before ++ n :: after)) : m ∈ before := by
  obtain ⟨l, l', hl, hbefore, hafter⟩ := List.sublist_append_iff.1 h
  cases l with
  | nil =>
    obtain rfl : [m, n] = l' := hl
    have htail : [n].Sublist after := by
      cases hafter with
      | cons _ h => exact (List.sublist_cons_self m [n]).trans h
      | cons_cons _ h => exact h
    exact absurd (List.singleton_sublist.1 htail) hn
  | cons k l =>
    obtain ⟨rfl, -⟩ := List.cons.inj hl
    exact hbefore.mem List.mem_cons_self

/-- One class more has been emitted. -/
theorem or_mem_cons (p : Nat → Prop) (id : Nat) (ids : List Nat) :
    (fun i => (i = id ∨ p i) ∨ i ∈ ids) = fun i => p i ∨ i ∈ id :: ids := by
  funext i
  rw [List.mem_cons, or_assoc, or_left_comm]

/-- A class stays next when another one that has been emitted stood among those that wait. -/
theorem Node.IsNext.of_erase {before after : List Node} {m n : Node}
    (h : m.IsNext (before ++ after) p) (hmn : m.id ≠ n.id) (hn : p n.id) :
    m.IsNext (before ++ n :: after) p := by
  refine ⟨h.ready, fun k hk => ?_⟩
  by_cases hkn : k.id = n.id
  · exact .inl (hkn ▸ hn)
  have hothers := hk.filter fun x => x.id ≠ n.id
  simp only [List.filter_append, List.filter_cons, hkn, hmn, ne_eq, not_false_eq_true,
    decide_true, if_true, not_true_eq_false, decide_false, Bool.false_eq_true, if_false,
    List.filter_nil] at hothers
  exact h.earliest k (hothers.trans (List.filter_sublist.append List.filter_sublist))

/-- The classes that wait, in two parts: those that get ready one after the other, and the others in
the order in which they wait. -/
structure Parts (p : Nat → Prop) (waiting free left : List Node) : Prop where
  perm : (free ++ left).Perm waiting
  sublist : left.Sublist waiting
  stuck : ∀ n ∈ left, ¬n.Ready fun i => p i ∨ i ∈ free.map (·.id)
  next : ∀ before n after, free = before ++ n :: after →
    n.IsNext waiting fun i => p i ∨ i ∈ before.map (·.id)

theorem parts_of_stuck (h : ∀ n ∈ waiting, ¬n.Ready p) : Parts p waiting [] waiting :=
  ⟨.refl _, .refl _, by simpa using h, by simp⟩

/-- The first class that is ready comes in front of what follows once it has been emitted. -/
theorem Parts.cons {before after free left : List Node} {n : Node}
    (hn : ((before ++ n :: after).map (·.id)).Nodup) (hready : n.Ready p)
    (hbefore : ∀ m ∈ before, ¬m.Ready p)
    (h : Parts (fun i => i = n.id ∨ p i) (before ++ after) free left) :
    Parts p (before ++ n :: after) (n :: free) left := by
  have hids := (List.perm_middle.map Node.id).nodup_iff.1 hn
  rw [List.map_cons, List.nodup_cons] at hids
  refine ⟨(h.perm.cons n).trans List.perm_middle.symm,
    h.sublist.trans ((List.sublist_cons_self n after).append_left before), ?_, ?_⟩
  · have hstuck := h.stuck
    rwa [or_mem_cons] at hstuck
  · rintro (_ | ⟨k, free'⟩) m rest hsplit
    · obtain ⟨rfl, rfl⟩ := List.cons.inj hsplit
      have hafter : n ∉ after := fun hmem =>
        hids.1 (List.mem_map_of_mem (List.mem_append_right _ hmem))
      refine ⟨by simpa using hready, fun k hk => .inr ?_⟩
      simpa using hbefore k (mem_of_pair_sublist hafter hk)
    · obtain ⟨rfl, rfl⟩ := List.cons.inj hsplit
      have hm := h.next free' m rest rfl
      have hmem : m ∈ before ++ after := h.perm.mem_iff.1 (by simp)
      rw [or_mem_cons] at hm
      exact hm.of_erase (fun hid => hids.1 (hid ▸ List.mem_map_of_mem hmem)) (.inr (by simp))

/-- The classes are emitted one after the other as they get ready, and then the others in the order
in which they wait. -/
theorem exists_parts_of_emit (emitted : Std.HashSet Nat) (hn : (waiting.map (·.id)).Nodup)
    (hlimit : waiting.length ≤ limit) :
    ∃ free left, emit emitted limit waiting = (free ++ left).map (·.id) ∧
      Parts (· ∈ emitted) waiting free left := by
  induction limit generalizing emitted waiting with
  | zero =>
    obtain rfl := List.eq_nil_of_length_eq_zero (Nat.le_zero.1 hlimit)
    exact ⟨[], [], rfl, parts_of_stuck (by simp)⟩
  | succ limit ih =>
    by_cases hready : ∃ n ∈ waiting, n.isReady emitted = true
    · obtain ⟨before, n, after, rfl, hready, hbefore⟩ := exists_split_of_isReady hready
      have hsub : (before ++ after).Sublist (before ++ n :: after) :=
        (List.sublist_cons_self n after).append_left before
      obtain ⟨free, left, hemit, hparts⟩ :=
        ih (emitted.insert n.id) (hn.sublist (hsub.map _)) (length_le_of_split hlimit)
      simp only [mem_insert_iff] at hparts
      refine ⟨n :: free, left, ?_, hparts.cons hn (Node.isReady_iff.1 hready) fun m hm =>
        mt Node.isReady_iff.2 (hbefore m hm)⟩
      rw [emit_of_split hbefore hready, hemit]
      rfl
    · have hstuck : ∀ n ∈ waiting, ¬n.isReady emitted = true := fun n hn hr => hready ⟨n, hn, hr⟩
      exact ⟨[], waiting, emit_of_stuck hstuck,
        parts_of_stuck fun n hn => mt Node.isReady_iff.2 (hstuck n hn)⟩

/-- Classes that get ready one after the other stand in order, with those that never do behind
them. -/
theorem inOrder_of_parts {free left : List Node}
    (hfree : ∀ before n after, free = before ++ n :: after →
      n.Ready fun i => p i ∨ i ∈ before.map (·.id))
    (hleft : ∀ n ∈ left, ¬n.Ready fun i => p i ∨ i ∈ free.map (·.id)) :
    InOrder p (free ++ left) := by
  induction free generalizing p with
  | nil => exact .stuck (by simpa using hleft)
  | cons n free ih =>
    refine .ready (by simpa using hfree [] n free rfl) (ih (fun before m after hsplit => ?_) ?_)
    · rw [or_mem_cons]
      exact hfree (n :: before) m after (by rw [hsplit]; rfl)
    · simpa only [or_mem_cons, List.map_cons] using hleft

theorem mem_empty_or (ids : List Nat) :
    (fun i => i ∈ ({} : Std.HashSet Nat) ∨ i ∈ ids) = (· ∈ ids) := by
  simp

/-- Such classes are emitted in their order. -/
theorem emit_of_parts {free left : List Node}
    (hfree : ∀ before n after, free = before ++ n :: after → n.Ready (· ∈ before.map (·.id)))
    (hleft : ∀ n ∈ left, ¬n.Ready (· ∈ free.map (·.id))) :
    emit {} (free ++ left).length (free ++ left) = (free ++ left).map (·.id) := by
  refine emit_of_inOrder (inOrder_of_parts (fun before n after hsplit => ?_) fun n hn => ?_)
    (Nat.le_refl _)
  · rw [mem_empty_or]
    exact hfree before n after hsplit
  · rw [mem_empty_or]
    exact hleft n hn

end ClassOrder

namespace Container

variable {c : Container} {x y : Nat} {t : Handle .typeId}

/-! ### Dependencies -/

/-- The class definition names a type as its superclass or as one of its interfaces. -/
def Inherits (c : Container) (id : Nat) (t : Handle .typeId) : Prop :=
  ∃ x : ClassDef, (c.sectionOf .classDef).get? ⟨id⟩ = some x ∧
    (x.superclass = some t ∨
      ∃ (i : Handle .typeList) (list : TypeList), x.interfaces = some i ∧ c.get i = .ok list ∧
        t ∈ list.types)

/-- The definer of a type is the earliest class definition, in the current order, that defines
it. -/
def IsDefiner (c : Container) (t : Handle .typeId) (id : Nat) : Prop :=
  (c.sectionOf .classDef).order.toList.find? (c.defines t) = some id

/-- A class definition depends on the definers, other than itself, of its superclass and of its
interfaces. -/
def DependsOn (c : Container) (x y : Nat) : Prop :=
  y ≠ x ∧ ∃ t, c.Inherits x t ∧ c.IsDefiner t y

/-- A cycle of dependencies can be reached from a class definition. -/
def ReachesCycle (c : Container) (x : Nat) : Prop :=
  ∃ y, ReflTransGen c.DependsOn x y ∧ TransGen c.DependsOn y y

/-- Every class definition stands behind those that it depends on. -/
def FollowsDependencies (c : Container) (order : List Nat) : Prop :=
  ∀ before x after, order = before ++ x :: after → ∀ y, c.DependsOn x y → y ∈ before

/-- After the given class definitions another one is the earliest, in the current order, of those
whose dependencies are all among the given. -/
structure IsNext (c : Container) (emitted : List Nat) (x : Nat) : Prop where
  fresh : x ∉ emitted
  depends : ∀ y, c.DependsOn x y → y ∈ emitted
  earliest : ∀ y, [y, x].Sublist (c.sectionOf .classDef).order.toList →
    y ∈ emitted ∨ ∃ z, c.DependsOn y z ∧ z ∉ emitted

/-- The class definitions that reach no cycle come first, at each step the earliest whose
dependencies have all been emitted, and the others keep their order behind them. -/
structure EmitsByDependency (c : Container) (free left : List Nat) : Prop where
  perm : (free ++ left).Perm (List.range (c.sectionOf .classDef).items.size)
  mem_free : ∀ x < (c.sectionOf .classDef).items.size, x ∈ free ↔ ¬c.ReachesCycle x
  next : ∀ before x after, free = before ++ x :: after → c.IsNext before x
  left : left = (c.sectionOf .classDef).order.toList.filter (· ∉ free)

/-- The interface lists of the class definitions are items of the container. -/
def KnowsInterfaces (c : Container) : Prop :=
  ∀ (h : Handle .classDef) (x : ClassDef) (i : Handle .typeList),
    (c.sectionOf .classDef).get? h = some x → x.interfaces = some i → c.Resolves _ i

theorem knowsInterfaces_of_items {xs : Array ClassDef} (hxs : (c.sectionOf .classDef).items = xs)
    (h : ∀ x ∈ xs, ∀ i, x.interfaces = some i → c.Resolves _ i) : c.KnowsInterfaces := by
  intro y x i hx hi
  rw [Section.get?, hxs] at hx
  exact h x (Array.mem_of_getElem? hx) i hi

theorem mem_dependencies {x : ClassDef} {types : List (Handle .typeId)}
    (h : c.dependencies x = .ok types) : t ∈ types ↔ x.superclass = some t ∨
      ∃ (i : Handle .typeList) (list : TypeList), x.interfaces = some i ∧ c.get i = .ok list ∧
        t ∈ list.types := by
  rw [dependencies] at h
  cases hi : x.interfaces with
  | none =>
    rw [hi] at h
    cases h
    simp
  | some i =>
    rw [hi] at h
    obtain ⟨list, hlist, h⟩ := bind_eq_ok.1 h
    cases h
    simp [hlist]

/-- The node of a class definition holds what the class definition depends on. -/
theorem mem_dependencies_of_classNode {n : ClassOrder.Node}
    (h : c.classNode (c.definers (c.sectionOf .classDef).order.toList) x = .ok n) :
    y ∈ n.dependencies ↔ c.DependsOn n.id y := by
  obtain rfl := id_of_classNode h
  obtain ⟨d, hd, h⟩ := bind_eq_ok.1 h
  obtain ⟨types, htypes, h⟩ := bind_eq_ok.1 h
  have hinherits (t : Handle .typeId) : c.Inherits n.id t ↔ t ∈ types := by
    rw [mem_dependencies htypes, Inherits, Section.get_eq_ok.1 hd]
    simp
  have hn : n.dependencies =
      (types.filterMap ((c.definers (c.sectionOf .classDef).order.toList)[·]?)).filter
        (· ≠ n.id) := (congrArg ClassOrder.Node.dependencies (Except.ok.inj h)).symm
  simp only [hn, DependsOn, hinherits, IsDefiner, List.mem_filter, List.mem_filterMap,
    getElem?_definers, decide_eq_true_eq]
  exact and_comm

theorem ready_iff_of_classNode {n : ClassOrder.Node} {p : Nat → Prop}
    (h : c.classNode (c.definers (c.sectionOf .classDef).order.toList) x = .ok n) :
    n.Ready p ↔ ∀ y, c.DependsOn n.id y → p y :=
  forall_congr' fun _ => imp_congr_left (mem_dependencies_of_classNode h)

/-- What a class definition depends on is a class definition. -/
theorem mem_order_of_dependsOn (h : c.DependsOn x y) :
    y ∈ (c.sectionOf .classDef).order.toList := by
  obtain ⟨-, t, -, ht⟩ := h
  exact List.mem_of_find?_eq_some ht

theorem exists_classNodes (hwf : (c.sectionOf .classDef).WellFormed) (hlists : c.KnowsInterfaces) :
    ∃ nodes, (c.sectionOf .classDef).order.toList.mapM
      (c.classNode (c.definers (c.sectionOf .classDef).order.toList)) = .ok nodes := by
  refine exists_mapM_eq_ok fun id hid => ?_
  obtain ⟨x, hx⟩ := resolves_iff.2 (hwf.mem_order.1 hid)
  obtain ⟨types, htypes⟩ : ∃ types, c.dependencies x = .ok types := by
    rw [dependencies]
    cases hi : x.interfaces with
    | none => exact ⟨_, rfl⟩
    | some i =>
      obtain ⟨list, hlist⟩ := hlists _ x i hx hi
      exact ⟨_, by simp only [get_eq_ok.2 hlist, ok_bind]; rfl⟩
  exact ⟨_, by rw [classNode, Section.get_eq_ok.2 hx, ok_bind, htypes]; rfl⟩

/-! ### The order -/

section Nodes

variable {nodes : List ClassOrder.Node}
  (hnodes : (c.sectionOf .classDef).order.toList.mapM
    (c.classNode (c.definers (c.sectionOf .classDef).order.toList)) = .ok nodes)

include hnodes

theorem ids_of_classNodes : (c.sectionOf .classDef).order.toList = nodes.map (·.id) := by
  have hids := map_fst_of_mapM (p := id) hnodes fun _ _ h => id_of_classNode h
  rwa [List.map_id, eq_comm] at hids

theorem ready_iff_of_classNodes {n : ClassOrder.Node} (hn : n ∈ nodes) {p : Nat → Prop} :
    n.Ready p ↔ ∀ y, c.DependsOn n.id y → p y := by
  obtain ⟨id, -, hid⟩ := exists_of_mem_mapM hnodes hn
  exact ready_iff_of_classNode hid

theorem dependencyOrder_of_classNodes :
    c.dependencyOrder = .ok (ClassOrder.emit {} nodes.length nodes) := by
  simp only [dependencyOrder_eq, hnodes]
  rfl

/-- What a class definition among those that are left depends on, and has not been emitted. -/
theorem exists_dependsOn_of_not_ready {n : ClassOrder.Node} (hn : n ∈ nodes) {p : Nat → Prop}
    (h : ¬n.Ready p) : ∃ y, c.DependsOn n.id y ∧ ¬p y := by
  rw [ready_iff_of_classNodes hnodes hn] at h
  push Not at h
  exact h

/-- The class that is next, as a class definition. -/
theorem isNext_of_classNodes {n : ClassOrder.Node} {emitted : List Nat}
    (hwf : (c.sectionOf .classDef).WellFormed) (hn : n ∈ nodes) (hfresh : n.id ∉ emitted)
    (h : n.IsNext nodes (· ∈ emitted)) : c.IsNext emitted n.id := by
  have hids := ids_of_classNodes hnodes
  refine ⟨hfresh, (ready_iff_of_classNodes hnodes hn).1 h.ready, fun y hy => ?_⟩
  rw [hids] at hy
  obtain ⟨pair, hpair, hids'⟩ := List.sublist_map_iff.1 hy
  obtain ⟨m, rest, rfl, rfl, hrest⟩ := List.map_eq_cons_iff.1 hids'.symm
  obtain ⟨n', rfl, hid⟩ := List.map_eq_singleton_iff.1 hrest
  obtain rfl := List.inj_on_of_nodup_map (hids ▸ hwf.nodup) (hpair.mem (by simp)) hn hid
  exact (h.earliest m hpair).imp id
    (exists_dependsOn_of_not_ready hnodes (hpair.mem List.mem_cons_self))

/-- The two parts of what is emitted, as class definitions. -/
theorem emitsByDependency_of_parts {free left : List ClassOrder.Node}
    (hwf : (c.sectionOf .classDef).WellFormed)
    (h : ClassOrder.Parts (fun _ => False) nodes free left) :
    c.EmitsByDependency (free.map (·.id)) (left.map (·.id)) := by
  have hids := ids_of_classNodes hnodes
  have horder : (free.map (·.id) ++ left.map (·.id)).Perm
      (c.sectionOf .classDef).order.toList := by
    rw [← List.map_append, hids]
    exact h.perm.map _
  have hnodup := horder.nodup_iff.2 hwf.nodup
  have hfree := (List.nodup_append.1 hnodup).1
  have hnext : ∀ before x after, free.map (·.id) = before ++ x :: after → c.IsNext before x := by
    intro before x after hsplit
    rw [hsplit, List.nodup_append] at hfree
    obtain ⟨ms, ns, rfl, rfl, hns⟩ := List.map_eq_append_iff.1 hsplit
    obtain ⟨n, ns, rfl, rfl, rfl⟩ := List.map_eq_cons_iff.1 hns
    refine isNext_of_classNodes hnodes hwf (h.perm.mem_iff.1 (by simp))
      (fun hmem => hfree.2.2 _ hmem _ List.mem_cons_self rfl) ?_
    simpa only [false_or] using h.next ms n ns rfl
  have hwaits : ∀ x ∈ left.map (·.id), ∃ y ∈ left.map (·.id), c.DependsOn x y := by
    refine List.forall_mem_map.2 fun n hn => ?_
    obtain ⟨y, hy, hyfree⟩ := exists_dependsOn_of_not_ready hnodes
      (h.perm.mem_iff.1 (List.mem_append_right _ hn)) (h.stuck n hn)
    have hmem := List.mem_append.1 (horder.mem_iff.2 (mem_order_of_dependsOn hy))
    exact ⟨y, hmem.resolve_left fun hmem => hyfree (.inr hmem), hy⟩
  refine ⟨horder.trans hwf.order, fun x hx => ⟨?_, fun hcycle => ?_⟩, hnext, ?_⟩
  · rintro hx ⟨y, hxy, hy⟩
    exact not_transGen_self hfree
      (fun before x after hsplit => (hnext before x after hsplit).depends) hx hxy hy
  · by_contra hxfree
    have hmem := List.mem_append.1 (horder.mem_iff.2 (hwf.mem_order.2 hx))
    exact hcycle (exists_cycle hwaits (hmem.resolve_left hxfree))
  · refine eq_filter_notMem hnodup horder ?_
    rw [hids]
    exact h.sublist.map _

end Nodes

theorem exists_emitsByDependency (hwf : (c.sectionOf .classDef).WellFormed)
    (hlists : c.KnowsInterfaces) :
    ∃ free left, c.dependencyOrder = .ok (free ++ left) ∧ c.EmitsByDependency free left := by
  obtain ⟨nodes, hnodes⟩ := exists_classNodes hwf hlists
  obtain ⟨free, left, hemit, hparts⟩ := ClassOrder.exists_parts_of_emit {}
    (ids_of_classNodes hnodes ▸ hwf.nodup) (Nat.le_refl nodes.length)
  simp only [Std.HashSet.not_mem_empty] at hparts
  rw [dependencyOrder_of_classNodes hnodes, hemit, List.map_append]
  exact ⟨_, _, rfl, emitsByDependency_of_parts hnodes hwf hparts⟩

/-- An order stays as it is when every class definition stands behind those that it depends on, but
for some at the end that each depend on one at the end. -/
theorem dependencyOrder_eq_self {free left : List Nat} (hwf : (c.sectionOf .classDef).WellFormed)
    (hlists : c.KnowsInterfaces) (horder : (c.sectionOf .classDef).order.toList = free ++ left)
    (hfree : c.FollowsDependencies free) (hleft : ∀ x ∈ left, ∃ y, c.DependsOn x y ∧ y ∉ free) :
    c.dependencyOrder = .ok (free ++ left) := by
  obtain ⟨nodes, hnodes⟩ := exists_classNodes hwf hlists
  have hids := ids_of_classNodes hnodes
  rw [horder] at hids
  obtain ⟨fs, ls, rfl, rfl, rfl⟩ := List.map_eq_append_iff.1 hids.symm
  rw [dependencyOrder_of_classNodes hnodes, ← List.map_append]
  refine congrArg _
    (ClassOrder.emit_of_parts (fun before n after hsplit => ?_) fun n hn hready => ?_)
  · rw [ready_iff_of_classNodes hnodes (by simp [hsplit])]
    exact hfree _ n.id (after.map (·.id)) (by simp [hsplit])
  · obtain ⟨y, hy, hyfree⟩ := hleft n.id (List.mem_map_of_mem hn)
    rw [ready_iff_of_classNodes hnodes (List.mem_append_right _ hn)] at hready
    exact hyfree (hready y hy)

/-- The dependency order of class definitions whose interfaces are known. An order in which every
class definition stands behind those that it depends on stays as it is. -/
theorem emitsByDependency (hwf : (c.sectionOf .classDef).WellFormed)
    (hlists : c.KnowsInterfaces) :
    (∃ free left, c.dependencyOrder = .ok (free ++ left) ∧ c.EmitsByDependency free left) ∧
      (c.FollowsDependencies (c.sectionOf .classDef).order.toList →
        c.dependencyOrder = .ok (c.sectionOf .classDef).order.toList) := by
  refine ⟨exists_emitsByDependency hwf hlists, fun hfollows => ?_⟩
  have hnone : ∀ x ∈ ([] : List Nat), ∃ y, c.DependsOn x y ∧
      y ∉ (c.sectionOf .classDef).order.toList := by simp
  have hself := dependencyOrder_eq_self hwf hlists (List.append_nil _).symm hfollows hnone
  rwa [List.append_nil] at hself

/-! ### Two examples -/

/-- A container with two classes that extend each other and a third class definition, which extends
nothing and defines the given type. -/
def withCycle (third : String) : Except Violation Container := do
  let (c, a) ← (empty {}).internType "LA;"
  let (c, b) ← c.internType "LB;"
  let (c, t) ← c.internType third
  let (c, _) ← c.intern (k := .classDef) { type := a, accessFlags := 0, superclass := some b }
  let (c, _) ← c.intern (k := .classDef) { type := b, accessFlags := 0, superclass := some a }
  let (c, _) ← c.intern (k := .classDef) { type := t, accessFlags := 1 }
  return c

theorem reachable_of_withCycle {third : String} (h : withCycle third = .ok c) : c.Reachable := by
  obtain ⟨⟨c1, a⟩, h1, h⟩ := bind_eq_ok.1 h
  obtain ⟨⟨c2, b⟩, h2, h⟩ := bind_eq_ok.1 h
  obtain ⟨⟨c3, t⟩, h3, h⟩ := bind_eq_ok.1 h
  obtain ⟨⟨c4, _⟩, h4, h⟩ := bind_eq_ok.1 h
  obtain ⟨⟨c5, _⟩, h5, h⟩ := bind_eq_ok.1 h
  obtain ⟨⟨c6, _⟩, h6, h⟩ := bind_eq_ok.1 h
  cases h
  have htypes := (((Reachable.empty {}).internType h1).internType h2).internType h3
  exact ((htypes.intern h4).intern h5).intern h6

/-- The class definitions of such a container, given the third type. -/
def cyclicClasses (third : Nat) : Array ClassDef :=
  #[{ type := ⟨0⟩, accessFlags := 0, superclass := some ⟨1⟩ },
    { type := ⟨1⟩, accessFlags := 0, superclass := some ⟨0⟩ },
    { type := ⟨third⟩, accessFlags := 1 }]

/-- The third definition is emitted, and the two classes that extend each other stay behind it. -/
theorem dependencyOrder_of_cyclicClasses {third : Nat}
    (hitems : (c.sectionOf .classDef).items = cyclicClasses third)
    (horder : (c.sectionOf .classDef).order = #[0, 1, 2]) : c.dependencyOrder = .ok [2, 0, 1] := by
  have hnodes : [0, 1, 2].mapM (c.classNode (c.definers [0, 1, 2])) =
      .ok [⟨0, [1]⟩, ⟨1, [0]⟩, ⟨2, []⟩] := by
    simp [classNode, dependencies, getElem?_definers, defines, Section.get, Section.get?, hitems,
      cyclicClasses]
  simp only [dependencyOrder, horder, hnodes]
  decide

/-- A container with two classes that extend each other and a second definition of one of them. -/
def twiceDefined : Except Violation Container := withCycle "LA;"

theorem exists_twiceDefined : ∃ c, twiceDefined = .ok c ∧
    (c.sectionOf .classDef).items = cyclicClasses 0 ∧
    (c.sectionOf .classDef).order = #[0, 1, 2] := by
  have hclasses : (fun c => ((c.sectionOf .classDef).items, (c.sectionOf .classDef).order)) <$>
      twiceDefined = .ok (cyclicClasses 0, #[0, 1, 2]) := by
    cbv
  obtain ⟨c, hc, heq⟩ := map_eq_ok.1 hclasses
  exact ⟨c, hc, Prod.mk.inj heq⟩

/-- A container with three classes, of which the second extends the first, and the third extends the
second and implements the first. -/
def inherited : Except Violation Container := do
  let (c, a) ← (empty {}).internType "LA;"
  let (c, b) ← c.internType "LB;"
  let (c, t) ← c.internType "LC;"
  let (c, list) ← c.intern (k := .typeList) ⟨[a]⟩
  let (c, _) ← c.intern (k := .classDef) { type := a, accessFlags := 0 }
  let (c, _) ← c.intern (k := .classDef) { type := b, accessFlags := 0, superclass := some a }
  let (c, _) ← c.intern (k := .classDef)
    { type := t, accessFlags := 0, superclass := some b, interfaces := some list }
  return c

theorem reachable_of_inherited (h : inherited = .ok c) : c.Reachable := by
  obtain ⟨⟨c1, a⟩, h1, h⟩ := bind_eq_ok.1 h
  obtain ⟨⟨c2, b⟩, h2, h⟩ := bind_eq_ok.1 h
  obtain ⟨⟨c3, t⟩, h3, h⟩ := bind_eq_ok.1 h
  obtain ⟨⟨c4, list⟩, h4, h⟩ := bind_eq_ok.1 h
  obtain ⟨⟨c5, _⟩, h5, h⟩ := bind_eq_ok.1 h
  obtain ⟨⟨c6, _⟩, h6, h⟩ := bind_eq_ok.1 h
  obtain ⟨⟨c7, _⟩, h7, h⟩ := bind_eq_ok.1 h
  cases h
  have htypes := (((Reachable.empty {}).internType h1).internType h2).internType h3
  exact (((htypes.intern h4).intern h5).intern h6).intern h7

/-- The class definitions of that container. -/
def inheritedClasses : Array ClassDef :=
  #[{ type := ⟨0⟩, accessFlags := 0 },
    { type := ⟨1⟩, accessFlags := 0, superclass := some ⟨0⟩ },
    { type := ⟨2⟩, accessFlags := 0, superclass := some ⟨1⟩, interfaces := some ⟨0⟩ }]

theorem exists_inherited : ∃ c, inherited = .ok c ∧
    (c.sectionOf .classDef).items = inheritedClasses ∧
    (c.sectionOf .classDef).order = #[0, 1, 2] ∧ (c.sectionOf .typeList).items = #[⟨[⟨0⟩]⟩] := by
  have hsections : (fun c => ((c.sectionOf .classDef).items, (c.sectionOf .classDef).order,
      (c.sectionOf .typeList).items)) <$> inherited =
        .ok (inheritedClasses, #[0, 1, 2], #[⟨[⟨0⟩]⟩]) := by
    cbv
  obtain ⟨c, hc, heq⟩ := map_eq_ok.1 hsections
  exact ⟨c, hc, (Prod.mk.inj heq).1, Prod.mk.inj (Prod.mk.inj heq).2⟩

theorem followsDependencies_inherited
    (hitems : (c.sectionOf .classDef).items = inheritedClasses)
    (horder : (c.sectionOf .classDef).order = #[0, 1, 2])
    (hlists : (c.sectionOf .typeList).items = #[⟨[⟨0⟩]⟩]) : c.FollowsDependencies [0, 1, 2] := by
  have hnode (x : Nat) (dependencies : List Nat)
      (hn : c.classNode (c.definers (c.sectionOf .classDef).order.toList) x =
        .ok ⟨x, dependencies⟩) (y : Nat) : c.DependsOn x y ↔ y ∈ dependencies :=
    (mem_dependencies_of_classNode hn).symm
  have hfirst := hnode 0 [] (by
    simp [classNode, dependencies, getElem?_definers, defines, Section.get, Section.get?, horder,
      hitems, inheritedClasses])
  have hsecond := hnode 1 [0] (by
    simp [classNode, dependencies, getElem?_definers, defines, Section.get, Section.get?, horder,
      hitems, inheritedClasses])
  have hthird := hnode 2 [1, 0] (by
    simp [classNode, dependencies, getElem?_definers, defines, get, Section.get, Section.get?,
      horder, hitems, hlists, inheritedClasses])
  rintro (_ | ⟨_, _ | ⟨_, _ | ⟨_, before⟩⟩⟩) x after hsplit y hxy
  · cases hsplit
    exact (hfirst y).1 hxy
  · cases hsplit
    exact (hsecond y).1 hxy
  · cases hsplit
    exact List.mem_pair.2 (List.mem_pair.1 ((hthird y).1 hxy)).symm
  · simp at hsplit

theorem emitsByDependency_twiceDefined : ∃ c d, twiceDefined = .ok c ∧
    c.dependencyOrder = .ok [2, 0, 1] ∧
    (∃ free left, c.dependencyOrder = .ok (free ++ left) ∧ c.EmitsByDependency free left) ∧
    inherited = .ok d ∧ d.FollowsDependencies [0, 1, 2] ∧ d.dependencyOrder = .ok [0, 1, 2] := by
  obtain ⟨c, hc, hclasses, hids⟩ := exists_twiceDefined
  obtain ⟨d, hd, hitems, horder, hlists⟩ := exists_inherited
  have hfollows := followsDependencies_inherited hitems horder hlists
  have hemits := emitsByDependency ((reachable_of_withCycle hc).coherent.wellFormed .classDef)
    (knowsInterfaces_of_items hclasses (by simp [cyclicClasses]))
  have hsame := (emitsByDependency ((reachable_of_inherited hd).coherent.wellFormed .classDef)
    (knowsInterfaces_of_items hitems (by simp [inheritedClasses, resolves_iff, hlists]))).2
  rw [horder] at hsame
  exact ⟨c, d, hc, dependencyOrder_of_cyclicClasses hclasses hids, hemits.1, hd, hfollows,
    hsame hfollows⟩

end Container

end DexContainer
