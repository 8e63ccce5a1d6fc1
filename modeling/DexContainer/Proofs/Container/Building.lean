import DexContainer.Proofs.Container.Interning

/-! What can be built. Main statement: `exists_isFresh`, whatever different items are given for
every kind, a container of these items is made by adding one after the other. -/

namespace DexContainer

namespace Section

variable {k : Kind} {s : Section k}

theorem order_append (s : Section k) (x : Content k) :
    (s.append x).order = s.order.push s.items.size := by
  cases s
  rfl

/-- An empty section is laid out as nothing. -/
theorem sizes_of_items_eq_nil {places : Places} (hs : s.WellFormed) (h : s.items.toList = []) :
    s.sizes places = .ok [] := by
  have horder := hs.order
  rw [← Array.length_toList, h] at horder
  rw [sizes, List.perm_nil.1 horder]
  rfl

end Section

namespace Container

variable {k : Kind} {c : Container}

/-- The container was made by adding items, and nothing was laid out. -/
structure IsFresh (c : Container) : Prop where
  reachable : c.Reachable
  cleared : c.Cleared
  order : ∀ k, (c.sectionOf k).order = Array.range (c.sectionOf k).items.size

theorem isFresh_empty (o : Options) : (empty o).IsFresh := by
  refine ⟨.empty o, fun k => ?_, fun k => ?_⟩
  · have hposition (h : Handle k) : ((empty o).sectionOf k).position? h = none := by
      obtain ⟨id⟩ := h
      cases k <;> cases id <;> rfl
    exact ⟨hposition, by cases k <;> rfl⟩
  · cases k <;> rfl

/-- An item that is not there can be added. -/
theorem IsFresh.exists_add (hc : c.IsFresh) (hk : k.isSingleton = false) {x : Content k}
    (hcheck : Content.check k x = .ok ()) (hx : x ∉ (c.sectionOf k).items.toList) :
    ∃ d : Container, d.IsFresh ∧
      (d.sectionOf k).items.toList = (c.sectionOf k).items.toList ++ [x] ∧
      ∀ j, j ≠ k → (d.sectionOf j).items = (c.sectionOf j).items := by
  have hnew : ∀ h : Handle k, c.get h ≠ .ok x := fun h hh => by
    refine hx ?_
    rw [get_eq_ok, Section.get?, ← Array.getElem?_toList] at hh
    exact List.mem_of_getElem? hh
  have hd := intern_of_forall_get hc.reachable.findsFirst hk hcheck hnew
  have horder (j : Kind) : ((c.modifySection k (·.append x)).markMutated.sectionOf j).order =
      ((c.modifySection k (·.append x)).sectionOf j).order := by
    rw [sectionOf_markMutated]
    split <;> rfl
  have hitems := keepsItems_markMutated (c.modifySection k (·.append x))
  refine ⟨_, ⟨hc.reachable.intern hd, (adds_append c x).cleared (.inr hc.cleared), fun j => ?_⟩,
    ?_, fun j hj => ?_⟩
  · rw [horder, hitems j]
    refine forall_modifySection (P := fun _ s => s.order = Array.range s.items.size) ?_
      (fun j _ => hc.order j) j
    rw [Section.items_append, Section.order_append, hc.order, Array.size_push, Array.range_succ,
      Array.push_eq_append]
  · rw [hitems k, sectionOf_modifySection_self, Section.items_append, Array.toList_push]
  · rw [hitems j, sectionOf_modifySection_of_ne c _ hj]

theorem IsFresh.exists_addAll (hc : c.IsFresh) (hk : k.isSingleton = false) {xs : List (Content k)}
    (hcheck : ∀ x ∈ xs, Content.check k x = .ok ())
    (hn : ((c.sectionOf k).items.toList ++ xs).Nodup) :
    ∃ d : Container, d.IsFresh ∧ (d.sectionOf k).items.toList = (c.sectionOf k).items.toList ++ xs ∧
      ∀ j, j ≠ k → (d.sectionOf j).items = (c.sectionOf j).items := by
  induction xs generalizing c with
  | nil => exact ⟨c, hc, (List.append_nil _).symm, fun _ _ => rfl⟩
  | cons x xs ih =>
    have hx : x ∉ (c.sectionOf k).items.toList := fun hmem =>
      (List.nodup_append.1 hn).2.2 x hmem x (List.mem_cons_self ..) rfl
    obtain ⟨d, hd, hitems, hframe⟩ := hc.exists_add hk (hcheck x (List.mem_cons_self ..)) hx
    have hassoc : (d.sectionOf k).items.toList ++ xs = (c.sectionOf k).items.toList ++ x :: xs := by
      rw [hitems, List.append_assoc]
      rfl
    obtain ⟨e, he, hitems', hframe'⟩ :=
      ih hd (fun y hy => hcheck y (List.mem_cons_of_mem _ hy)) (hassoc ▸ hn)
    exact ⟨e, he, hitems'.trans hassoc, fun j hj => (hframe' j hj).trans (hframe j hj)⟩

/-- Different items of every kind make a container. -/
theorem exists_isFresh (xs : (k : Kind) → List (Content k)) (hn : ∀ k, (xs k).Nodup)
    (hcheck : ∀ k, ∀ x ∈ xs k, Content.check k x = .ok ()) :
    ∃ c : Container, c.IsFresh ∧
      ∀ k, k.isSingleton = false → (c.sectionOf k).items.toList = xs k := by
  have hadded (ks : List Kind) (hks : ks.Nodup) : ∃ c : Container, c.IsFresh ∧
      ∀ k, k.isSingleton = false → (c.sectionOf k).items.toList = if k ∈ ks then xs k else [] := by
    induction ks with
    | nil =>
      refine ⟨empty {}, isFresh_empty {}, fun k hk => ?_⟩
      cases k <;> first | rfl | cases hk
    | cons j ks ih =>
      obtain ⟨hj, hks⟩ := List.nodup_cons.1 hks
      obtain ⟨c, hc, hitems⟩ := ih hks
      cases hsingle : j.isSingleton with
      | true =>
        refine ⟨c, hc, fun k hk => ?_⟩
        have hkj : k ≠ j := by
          rintro rfl
          rw [hsingle] at hk
          cases hk
        simpa [hkj] using hitems k hk
      | false =>
        have hnil : (c.sectionOf j).items.toList = [] := by rw [hitems j hsingle, if_neg hj]
        obtain ⟨d, hd, hadded, hframe⟩ := hc.exists_addAll hsingle (hcheck j) (by
          rw [hnil]
          exact hn j)
        refine ⟨d, hd, fun k hk => ?_⟩
        by_cases hkj : k = j
        · subst hkj
          rw [hadded, hnil, if_pos (List.mem_cons_self ..)]
          rfl
        · rw [hframe k hkj, hitems k hk]
          simp [hkj]
  obtain ⟨c, hc, hitems⟩ := hadded Kind.readOrder Kind.readOrder_nodup
  exact ⟨c, hc, fun k hk => (hitems k hk).trans (if_pos (Kind.mem_readOrder k))⟩

/-- No handle leads nowhere when the items name each other only. -/
theorem closed_of_items {xs : (k : Kind) → List (Content k)}
    (hc : ∀ k, k.isSingleton = false → (c.sectionOf k).items.toList = xs k)
    (hxs : ∀ k, ∀ x ∈ xs k, Each (fun j h => j.isSingleton = false ∧ h.id < (xs j).length)
      (Content.handles k x)) : c.Closed := by
  intro k h x hx
  cases hk : k.isSingleton with
  | true => cases k <;> first | exact each_nil | cases hk
  | false =>
    rw [Section.get?, ← Array.getElem?_toList, hc k hk] at hx
    refine (hxs k x (List.mem_of_getElem? hx)).mono fun j y hy => ?_
    rw [resolves_iff, ← Array.length_toList, hc j hy.1]
    exact hy.2

end Container

end DexContainer
