import Mathlib.Data.List.Find
import DexContainer.Proofs.Container.Copying

/-! The dependency order is stable. Classes that were put into dependency order stand there as the
ones that are ready, one after the other, followed by the ones that never are, and such a list is
emitted as it stands. Main statements: `emit_of_inOrder`; `isOrdered_of_orderClasses`, what ordering
leads to; and `orderClasses_of_isOrdered`, ordering once more changes nothing. -/

namespace DexContainer

namespace ClassOrder

variable {emitted : Std.HashSet Nat} {limit : Nat} {waiting nodes : List Node} {p q : Nat → Prop}

/-- Everything that a class must follow is among the classes emitted so far. -/
def Node.Ready (p : Nat → Prop) (n : Node) : Prop := ∀ i ∈ n.dependencies, p i

theorem Node.isReady_iff {n : Node} : n.isReady emitted = true ↔ n.Ready (· ∈ emitted) := by
  simp [Node.isReady, Node.Ready, Std.HashSet.contains_iff_mem]

theorem mem_insert_iff {i j : Nat} : j ∈ emitted.insert i ↔ j = i ∨ j ∈ emitted := by
  rw [Std.HashSet.mem_insert, beq_iff_eq, eq_comm]

/-- The classes stand in the order in which they are emitted: each that is ready in its turn, and
then those that depend on a cycle. -/
inductive InOrder : (Nat → Prop) → List Node → Prop
  | stuck {p : Nat → Prop} {nodes : List Node} (h : ∀ n ∈ nodes, ¬n.Ready p) : InOrder p nodes
  | ready {p : Nat → Prop} {n : Node} {nodes : List Node} (h : n.Ready p)
    (hnodes : InOrder (fun i => i = n.id ∨ p i) nodes) : InOrder p (n :: nodes)

theorem InOrder.congr (hpq : ∀ i, p i ↔ q i) (h : InOrder p nodes) : InOrder q nodes := by
  obtain rfl : p = q := funext fun i => propext (hpq i)
  exact h

/-- The first class that is ready splits those that wait. -/
theorem exists_split_of_isReady (h : ∃ n ∈ waiting, n.isReady emitted = true) :
    ∃ before n after, waiting = before ++ n :: after ∧ n.isReady emitted = true ∧
      ∀ m ∈ before, ¬m.isReady emitted = true := by
  obtain ⟨n, hn⟩ := Option.isSome_iff_exists.1 (List.find?_isSome.2 h)
  obtain ⟨hready, before, after, rfl, hbefore⟩ := List.find?_eq_some_iff_append.1 hn
  exact ⟨before, n, after, rfl, hready, fun m hm => by simpa using hbefore m hm⟩

theorem length_le_of_split {before after : List Node} {n : Node}
    (h : (before ++ n :: after).length ≤ limit + 1) : (before ++ after).length ≤ limit := by
  simp only [List.length_append, List.length_cons] at h ⊢
  omega

/-- What is emitted stands in order. -/
theorem exists_of_emit (emitted : Std.HashSet Nat) (h : waiting.length ≤ limit) :
    ∃ nodes, nodes.Perm waiting ∧ emit emitted limit waiting = nodes.map (·.id) ∧
      InOrder (· ∈ emitted) nodes := by
  induction limit generalizing emitted waiting with
  | zero =>
    obtain rfl := List.eq_nil_of_length_eq_zero (Nat.le_zero.1 h)
    exact ⟨[], .nil, rfl, .stuck (by simp)⟩
  | succ limit ih =>
    by_cases hready : ∃ n ∈ waiting, n.isReady emitted = true
    · obtain ⟨before, n, after, rfl, hready, hbefore⟩ := exists_split_of_isReady hready
      obtain ⟨nodes, hperm, hemit, horder⟩ := ih (emitted.insert n.id) (length_le_of_split h)
      refine ⟨n :: nodes, (hperm.cons n).trans List.perm_middle.symm, ?_, ?_⟩
      · rw [emit_of_split hbefore hready, hemit, List.map_cons]
      · exact .ready (Node.isReady_iff.1 hready) (horder.congr fun j => mem_insert_iff)
    · have hstuck : ∀ n ∈ waiting, ¬n.isReady emitted = true := fun n hn hr => hready ⟨n, hn, hr⟩
      refine ⟨waiting, .refl _, emit_of_stuck hstuck, .stuck fun n hn => ?_⟩
      exact mt Node.isReady_iff.2 (hstuck n hn)

/-- Classes that stand in order are emitted as they stand. -/
theorem emit_of_inOrder (h : InOrder (· ∈ emitted) nodes) (hlimit : nodes.length ≤ limit) :
    emit emitted limit nodes = nodes.map (·.id) := by
  generalize hp : (· ∈ emitted) = p at h
  induction h generalizing emitted limit with
  | @stuck p nodes h =>
    subst hp
    exact emit_of_stuck fun n hn => mt Node.isReady_iff.1 (h n hn)
  | @ready p n nodes h _ ih =>
    subst hp
    cases limit with
    | zero => exact absurd hlimit (by simp)
    | succ limit =>
      have hnext := ih (Nat.le_of_succ_le_succ hlimit) (funext fun j => propext mem_insert_iff)
      have hsplit : emit emitted (limit + 1) ([] ++ n :: nodes) = _ :=
        emit_of_split (by simp) (Node.isReady_iff.2 h)
      exact hsplit.trans (congrArg (n.id :: ·) hnext)

/-- A class under another numbering. -/
def Node.renumber (f : Nat → Nat) (n : Node) : Node := ⟨f n.id, n.dependencies.map f⟩

/-- The order does not depend on the numbering. -/
theorem InOrder.renumber {f : Nat → Nat} {given : Nat → Prop} (h : InOrder p nodes)
    (hgiven : ∀ n ∈ nodes, given n.id ∧ ∀ i ∈ n.dependencies, given i)
    (hf : ∀ i j, given i → given j → f i = f j → i = j) (hq : ∀ i, given i → (q (f i) ↔ p i)) :
    InOrder q (nodes.map (Node.renumber f)) := by
  have hready {p q : Nat → Prop} {n : Node} (hn : ∀ i ∈ n.dependencies, given i)
      (hq : ∀ i, given i → (q (f i) ↔ p i)) : (n.renumber f).Ready q ↔ n.Ready p := by
    rw [Node.Ready, Node.Ready, Node.renumber, List.forall_mem_map]
    exact forall₂_congr fun i hi => hq i (hn i hi)
  induction h generalizing q with
  | stuck h =>
    refine .stuck (List.forall_mem_map.2 fun n hn => ?_)
    rw [hready (hgiven n hn).2 hq]
    exact h n hn
  | @ready p n nodes h _ ih =>
    obtain ⟨hn, hnodes⟩ := List.forall_mem_cons.1 hgiven
    refine .ready ((hready hn.2 hq).2 h) (ih hnodes fun i hi => ?_)
    have hid : f i = f n.id ↔ i = n.id := ⟨hf i n.id hi hn.1, congrArg f⟩
    rw [Node.renumber, hid, hq i hi]

end ClassOrder

namespace Container

variable {c d g : Container} {ρ : Renaming} {ids : List Nat} {t : Handle .typeId}

/-- No two class definitions define the same type. -/
def HasDistinctClasses (c : Container) : Prop :=
  ∀ (h h' : Handle .classDef) (x x' : ClassDef), (c.sectionOf .classDef).get? h = some x →
    (c.sectionOf .classDef).get? h' = some x' → x.type = x'.type → h = h'

/-- The class definition behind a number defines a type. -/
def defines (c : Container) (t : Handle .typeId) (id : Nat) : Bool :=
  ((c.sectionOf .classDef).get? ⟨id⟩).any fun x => ClassDef.type x == t

theorem defines_iff {id : Nat} :
    c.defines t id = true ↔
      ∃ x : ClassDef, (c.sectionOf .classDef).get? ⟨id⟩ = some x ∧ x.type = t := by
  simp [defines, Option.any_eq_true]

/-- The definer of a type is the first class definition that defines it. -/
theorem getElem?_definers (ids : List Nat) (t : Handle .typeId) :
    (c.definers ids)[t]? = ids.find? (c.defines t) := by
  have hfold (m : Std.HashMap (Handle .typeId) Nat) :
      (ids.foldl (fun definers id => ((c.sectionOf .classDef).get? ⟨id⟩).elim definers fun x =>
        definers.insertIfNew (ClassDef.type x) id) m)[t]? = m[t]?.or (ids.find? (c.defines t)) := by
    induction ids generalizing m with
    | nil => simp
    | cons id ids ih =>
      rw [List.foldl_cons, ih, List.find?_cons, defines]
      cases (c.sectionOf .classDef).get? ⟨id⟩ with
      | none => rfl
      | some x =>
        simp only [Option.elim_some, Option.any_some, Std.HashMap.getElem?_insertIfNew, beq_iff_eq]
        by_cases ht : ClassDef.type x = t
        · subst ht
          cases hm : m[ClassDef.type x]? with
          | none => simp [Std.HashMap.mem_iff_isSome_getElem?, hm]
          | some n => simp [Std.HashMap.mem_iff_isSome_getElem?, hm]
        · have hne : (ClassDef.type x == t) = false := beq_eq_false_iff_ne.2 ht
          simp [ht, hne]
  have h := hfold {}
  rw [Std.HashMap.getElem?_empty, Option.none_or] at h
  rw [← h, definers]
  congr 2
  funext m id
  cases (c.sectionOf .classDef).get? ⟨id⟩ <;> rfl

/-- The class definitions stand in dependency order. -/
def IsOrdered (c : Container) : Prop :=
  ∃ nodes, (c.sectionOf .classDef).order.toList.mapM
      (c.classNode (c.definers (c.sectionOf .classDef).order.toList)) = .ok nodes ∧
    ClassOrder.InOrder (fun _ => False) nodes

theorem classNode_congr {m m' : Std.HashMap (Handle .typeId) Nat} {id : Nat}
    (hclasses : (d.sectionOf .classDef).items = (c.sectionOf .classDef).items)
    (hlists : (d.sectionOf .typeList).items = (c.sectionOf .typeList).items)
    (hm : ∀ t : Handle .typeId, m'[t]? = m[t]?) : d.classNode m' id = c.classNode m id := by
  have hdependencies (x : ClassDef) : d.dependencies x = c.dependencies x := by
    simp only [dependencies, get, Section.get, Section.get?, hlists]
  simp only [classNode, Section.get, Section.get?, hclasses, hdependencies, hm]

/-- When no type is defined twice, the definers do not depend on the order. -/
theorem getElem?_definers_perm {ids' : List Nat} (hc : c.HasDistinctClasses)
    (hclasses : (d.sectionOf .classDef).items = (c.sectionOf .classDef).items)
    (h : ids'.Perm ids) (t : Handle .typeId) : (d.definers ids')[t]? = (c.definers ids)[t]? := by
  have hdefines : d.defines t = c.defines t := by
    funext id
    simp only [defines, Section.get?, hclasses]
  rw [getElem?_definers, getElem?_definers, hdefines]
  refine List.find?_eq_find?_of_perm h ?_
  rintro i ⟨-, hi⟩ j ⟨-, hj⟩
  obtain ⟨x, hx, hxt⟩ := defines_iff.1 hi
  obtain ⟨y, hy, hyt⟩ := defines_iff.1 hj
  exact congrArg Handle.id (hc _ _ x y hx hy (hxt.trans hyt.symm))

/-! ### Ordering -/

/-- Ordering leads to classes that stand in dependency order. -/
theorem isOrdered_of_orderClasses (hc : c.HasDistinctClasses)
    (hr : c.policy.reordersClasses = true) (h : c.orderClasses = .ok d) : d.IsOrdered := by
  rw [orderClasses, if_pos hr] at h
  obtain ⟨order, horder, h⟩ := bind_eq_ok.1 h
  cases h
  rw [dependencyOrder_eq] at horder
  obtain ⟨waiting, hwaiting, horder⟩ := bind_eq_ok.1 horder
  obtain ⟨nodes, hperm, hemit, hnodes⟩ :=
    ClassOrder.exists_of_emit {} (Nat.le_refl waiting.length)
  rw [hemit] at horder
  cases horder
  refine ⟨nodes, ?_, hnodes.congr fun i => by simp⟩
  rw [sectionOf_modifySection_self]
  show (nodes.map (·.id)).mapM _ = _
  have hids := map_fst_of_mapM (p := id) hwaiting fun _ _ h => id_of_classNode h
  rw [List.map_id] at hids
  have hordered : (nodes.map (·.id)).Perm (c.sectionOf .classDef).order.toList :=
    hids ▸ hperm.map _
  rw [mapM_map]
  refine mapM_eq_ok.2 (List.forall₂_same.2 fun n hn => ?_)
  obtain ⟨i, -, hi⟩ := exists_of_mem_mapM hwaiting (hperm.mem_iff.1 hn)
  obtain rfl := id_of_classNode hi
  have hclasses : ((c.modifySection .classDef
      (·.reorder (nodes.map (·.id)).toArray)).sectionOf .classDef).items =
        (c.sectionOf .classDef).items := by
    rw [sectionOf_modifySection_self]
    rfl
  rw [← hi]
  refine classNode_congr hclasses ?_ (getElem?_definers_perm hc hclasses hordered)
  rw [sectionOf_modifySection_of_ne _ _ (by decide)]

/-- Ordering classes that stand in dependency order changes nothing. -/
theorem orderClasses_of_isOrdered (h : c.IsOrdered) : c.orderClasses = .ok c := by
  obtain ⟨nodes, hnodes, horder⟩ := h
  have hids := map_fst_of_mapM (p := id) hnodes fun _ _ h => id_of_classNode h
  rw [List.map_id] at hids
  have hempty : ClassOrder.InOrder (· ∈ ({} : Std.HashSet Nat)) nodes :=
    horder.congr fun i => by simp
  have hemit := ClassOrder.emit_of_inOrder hempty (Nat.le_refl nodes.length)
  rw [orderClasses]
  split
  · have hself : (c.sectionOf .classDef).reorder (nodes.map (·.id)).toArray =
        c.sectionOf .classDef := by
      rw [hids]
      rfl
    rw [dependencyOrder_eq]
    simp only [hnodes, ok_bind, pure_eq, hemit]
    exact congrArg Except.ok
      (modifySection_eq_self (f := (·.reorder (nodes.map (·.id)).toArray)) hself)
  · rfl

theorem IsOrdered.congr (horder : (d.sectionOf .classDef).order = (c.sectionOf .classDef).order)
    (hclasses : (d.sectionOf .classDef).items = (c.sectionOf .classDef).items)
    (hlists : (d.sectionOf .typeList).items = (c.sectionOf .typeList).items)
    (h : c.IsOrdered) : d.IsOrdered := by
  obtain ⟨nodes, hnodes, h⟩ := h
  refine ⟨nodes, ?_, h⟩
  rw [horder, ← hnodes]
  have hdefines (t : Handle .typeId) : d.defines t = c.defines t := by
    funext id
    simp only [defines, Section.get?, hclasses]
  refine mapM_congr fun id _ => classNode_congr hclasses hlists fun t => ?_
  rw [getElem?_definers, getElem?_definers, hdefines]

/-! ### Copies -/

/-- Renames a type list. -/
theorem dependencies_rename {x : ClassDef} {types : List (Handle .typeId)} (h : c.IsCopy ρ g)
    (hx : c.dependencies x = .ok types) :
    g.dependencies (x.rename ρ) = .ok (types.map (ρ _)) := by
  rw [dependencies] at hx ⊢
  cases hi : x.interfaces with
  | none =>
    rw [hi] at hx
    cases hx
    have hnone : (x.rename ρ).interfaces = none := by rw [ClassDef.rename, hi]; rfl
    rw [hnone]
    exact congrArg Except.ok Option.toList_map
  | some i =>
    rw [hi] at hx
    obtain ⟨list, hlist, hx⟩ := bind_eq_ok.1 hx
    cases hx
    have hsome : (x.rename ρ).interfaces = some (ρ _ i) := by rw [ClassDef.rename, hi]; rfl
    have hcopy := h.get? (get_eq_ok.1 hlist)
    rw [hsome]
    simp only [get_eq_ok.2 hcopy, ok_bind, List.map_append]
    exact congrArg (fun types => Except.ok (types ++ _)) Option.toList_map

theorem resolves_of_dependencies {i : Handle .classDef} {x : ClassDef}
    {types : List (Handle .typeId)} (hc : c.Closed) (hi : (c.sectionOf .classDef).get? i = some x)
    (hx : c.dependencies x = .ok types) : ∀ t ∈ types, c.Resolves _ t := by
  obtain ⟨-, hsuper, -⟩ := ClassDef.each_handles.1 (hc _ i x hi)
  rw [dependencies] at hx
  cases hinterfaces : x.interfaces with
  | none =>
    rw [hinterfaces] at hx
    cases hx
    exact fun t ht => hsuper t (by simpa using ht)
  | some y =>
    rw [hinterfaces] at hx
    obtain ⟨list, hlist, hx⟩ := bind_eq_ok.1 hx
    cases hx
    have htypes := hc _ y list (get_eq_ok.1 hlist)
    simp only [Content.handles, TypeList.handles, each_map] at htypes
    intro t ht
    rcases List.mem_append.1 ht with ht | ht
    · exact hsuper t (by simpa using ht)
    · exact htypes t ht

theorem defines_rename (h : c.IsCopy ρ g) (ht : c.Resolves _ t) {id : Nat}
    (hid : id ∈ (c.sectionOf .classDef).order.toList) :
    g.defines (ρ _ t) (ρ .classDef ⟨id⟩).id = c.defines t id := by
  obtain ⟨x, hx⟩ := resolves_iff.2 ((h.wellFormed .classDef).mem_order.1 hid)
  have hcopy : (g.sectionOf .classDef).get? (ρ _ ⟨id⟩) = some (ClassDef.rename ρ x) := h.get? hx
  obtain ⟨htype, -⟩ := ClassDef.each_handles.1 (h.closed _ _ x hx)
  rw [Bool.eq_iff_iff, defines_iff, defines_iff]
  constructor
  · rintro ⟨y, hy, hyt⟩
    obtain rfl := Option.some.inj (hcopy.symm.trans hy)
    exact ⟨x, hx, h.injective htype ht hyt⟩
  · rintro ⟨y, hy, rfl⟩
    obtain rfl := Option.some.inj (hx.symm.trans hy)
    exact ⟨_, hcopy, rfl⟩

theorem getElem?_definers_rename (h : c.IsCopy ρ g) (ht : c.Resolves _ t) :
    (g.definers (g.sectionOf .classDef).order.toList)[ρ _ t]? =
      (c.definers (c.sectionOf .classDef).order.toList)[t]?.map
        fun id => (ρ .classDef ⟨id⟩).id := by
  rw [getElem?_definers, getElem?_definers, (h.sections _).order, List.find?_map]
  congr 1
  exact List.find?_congr fun id hid => defines_rename h ht hid

theorem mem_of_definers {types : List (Handle .typeId)} {id : Nat}
    (h : id ∈ types.filterMap fun t => (c.definers ids)[t]?) : id ∈ ids := by
  obtain ⟨t, -, ht⟩ := List.mem_filterMap.1 h
  rw [getElem?_definers] at ht
  exact List.mem_of_find?_eq_some ht

theorem classNode_rename (h : c.IsCopy ρ g) {id : Nat} {n : ClassOrder.Node}
    (hid : id ∈ (c.sectionOf .classDef).order.toList)
    (hn : c.classNode (c.definers (c.sectionOf .classDef).order.toList) id = .ok n) :
    g.classNode (g.definers (g.sectionOf .classDef).order.toList) (ρ .classDef ⟨id⟩).id =
      .ok (n.renumber fun id => (ρ .classDef ⟨id⟩).id) := by
  obtain ⟨x, hx, hn⟩ := bind_eq_ok.1 hn
  obtain ⟨types, htypes, hn⟩ := bind_eq_ok.1 hn
  cases hn
  have hx := Section.get_eq_ok.1 hx
  have hcopy : (g.sectionOf .classDef).get? (ρ _ ⟨id⟩) = some (ClassDef.rename ρ x) := h.get? hx
  have hresolves := resolves_of_dependencies h.closed hx htypes
  rw [classNode, Section.get_eq_ok.2 hcopy, ok_bind, dependencies_rename h htypes, ok_bind]
  have hdefiners : (types.map (ρ .typeId)).filterMap
      (fun t => (g.definers (g.sectionOf .classDef).order.toList)[t]?) =
        (types.filterMap fun t => (c.definers (c.sectionOf .classDef).order.toList)[t]?).map
          fun id => (ρ .classDef ⟨id⟩).id := by
    rw [List.filterMap_map, List.map_filterMap]
    exact List.filterMap_congr fun t ht => getElem?_definers_rename h (hresolves t ht)
  refine congrArg (fun dependencies => Except.ok (ClassOrder.Node.mk _ dependencies)) ?_
  rw [hdefiners, List.filter_map]
  congr 1
  refine List.filter_congr fun i hi => ?_
  have hne : (ρ .classDef ⟨i⟩).id = (ρ .classDef ⟨id⟩).id ↔ i = id :=
    ⟨fun heq => (h.sections _).injective (h.wellFormed_copy _) (mem_of_definers hi) hid
      (congrArg Handle.mk heq), fun heq => heq ▸ rfl⟩
  simp [hne]

theorem IsOrdered.copy (h : c.IsCopy ρ g) (hc : c.IsOrdered) : g.IsOrdered := by
  obtain ⟨nodes, hnodes, horder⟩ := hc
  have hall := (List.forall₂_and_left (p := (· ∈ (c.sectionOf .classDef).order.toList)) _ _).2
    ⟨fun _ hid => hid, mapM_eq_ok.1 hnodes⟩
  refine ⟨nodes.map (ClassOrder.Node.renumber fun id => (ρ .classDef ⟨id⟩).id), ?_, ?_⟩
  · rw [(h.sections _).order, mapM_map, ← (h.sections _).order]
    refine mapM_eq_ok.2 (List.forall₂_map_right_iff.2 ?_)
    exact hall.imp fun id n hn => classNode_rename h hn.1 hn.2
  · refine horder.renumber (fun n hn => ?_)
      (fun i j hi hj heq => (h.sections _).injective (h.wellFormed_copy _) hi hj
        (congrArg Handle.mk heq)) fun _ _ => Iff.rfl
    obtain ⟨id, hid, hnode⟩ := exists_of_mem_mapM hnodes hn
    obtain ⟨x, -, hnode⟩ := bind_eq_ok.1 hnode
    obtain ⟨types, -, hnode⟩ := bind_eq_ok.1 hnode
    cases hnode
    exact ⟨hid, fun i hi => mem_of_definers (List.mem_filter.1 hi).1⟩

end Container

end DexContainer
