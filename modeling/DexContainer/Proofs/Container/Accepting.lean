import DexContainer.Container.Reading
import DexContainer.Proofs.Container.Closed
import DexContainer.Proofs.Section.Accepting

/-! What a container that was read is like. The sections are decoded one after the other, each from
where the directory says, and in the end every reference is checked against the sections. Main
statement: `isAccepted_of_ofImage`, every handle in a container that was read leads to an item, and
every item can be written and read back. -/

namespace DexContainer

variable {α : Type} {s t : Source} {k : Kind}

namespace Decoder

variable {β : Type} {b : β}

theorem bind_eq_ok {d : Decoder α} {f : α → Decoder β} :
    (d >>= f) s = .ok b t ↔ ∃ a r, d s = .ok a r ∧ f a r = .ok b t := by
  constructor
  · exact exists_of_bind
  · rintro ⟨a, r, ha, h⟩
    rw [bind_of_ok ha, h]

theorem ofExcept_bind_eq_ok {e : Except Fault α} {f : α → Decoder β} :
    (ofExcept e >>= f) s = .ok b t ↔ ∃ a, e = .ok a ∧ f a s = .ok b t := by
  cases e <;> simp [ofExcept, bind_eq_ok]

theorem throw_bind_ne_ok {e : Fault} {f : α → Decoder β} :
    ((throw e : Decoder α) >>= f) s ≠ .ok b t := by
  simp [bind_eq_ok]

/-- Checks leave the source as it is, and the first one that fails ends them. -/
theorem forM_ofExcept (f : α → Except Fault Unit) (xs : List α) (s : Source) :
    (∀ x ∈ xs, f x = .ok ()) ∧ (xs.forM fun x => ofExcept (f x)) s = .ok () s ∨
      ∃ x ∈ xs, ∃ e, f x = .error e ∧ (xs.forM fun x => ofExcept (f x)) s = .error e s := by
  induction xs with
  | nil => exact .inl ⟨by simp, rfl⟩
  | cons x xs ih =>
    have hcons : ((x :: xs).forM fun x => ofExcept (f x)) =
        ofExcept (f x) >>= fun _ => xs.forM fun x => ofExcept (f x) := rfl
    rw [hcons]
    cases hx : f x with
    | error e => exact .inr ⟨x, List.mem_cons_self, e, hx, rfl⟩
    | ok _ =>
      rw [bind_of_ok (rfl : ofExcept (.ok ()) s = .ok () s)]
      rcases ih with ⟨hall, hok⟩ | ⟨y, hy, e, he, herror⟩
      · exact .inl ⟨List.forall_mem_cons.2 ⟨hx, hall⟩, hok⟩
      · exact .inr ⟨y, List.mem_cons_of_mem _ hy, e, he, herror⟩

theorem forM_ofExcept_bind_eq_ok {f : α → Except Fault Unit} {xs : List α} {g : Unit → Decoder β} :
    ((xs.forM fun x => ofExcept (f x)) >>= g) s = .ok b t ↔
      (∀ x ∈ xs, f x = .ok ()) ∧ g () s = .ok b t := by
  rcases forM_ofExcept f xs s with ⟨hall, hok⟩ | ⟨x, hx, e, he, herror⟩
  · rw [bind_of_ok hok]
    exact (and_iff_right hall).symm
  · rw [bind_of_error herror]
    constructor
    · intro h
      cases h
    · rintro ⟨hall, -⟩
      rw [hall x hx] at he
      cases he

end Decoder

namespace Container

variable {c d : Container} {r : RowOrder} {o : Options} {image : Image}
  {offset count mapOffset : Nat}
  {directory : List MapEntry}

/-- The sections read so far, none of which refers to anything but what was met. -/
structure IsRead (o : Options) (s : Source) (c : Container) : Prop where
  sound : s.references.Sound
  keeps : s.keepsSigned = o.preserveSignedRegisters
  sections : ∀ r, s.references ≤ r → ∀ k, (c.sectionOf k).IsAccepted o.preserveSignedRegisters r
  singletons : c.HasSingletons
  keepsSigned : c.keepsSigned = o.preserveSignedRegisters
  policy : c.policy = o.policy
  stage : c.stage = .constructed

theorem isAccepted_singleton {keeps : Bool} {r : References} {x : Content k}
    (hk : k.isSingleton = true) (hx : Content.IsAccepted keeps r k x) :
    (Section.push {} x).IsAccepted keeps r := by
  refine ⟨Section.wellFormed_empty.push x, fun h y hy => ?_, fun _ => rfl, fun _ h n hn => ?_,
    fun hk' => ?_⟩
  · rw [Section.get?_push] at hy
    split at hy
    · rwa [← Option.some.inj hy]
    · exact absurd hy (by simp [Section.get?])
  · rw [Section.position?_eq_some_iff] at hn
    obtain ⟨hlt, hn⟩ := Array.getElem?_eq_some_iff.1 hn
    have hid : h.id = 0 := by
      have : (Section.push {} x).positions.size = 1 := rfl
      omega
    simp [Section.push, hid] at hn
  · rw [hk] at hk'
    cases hk'

theorem isRead_empty (o : Options) (image : Image) :
    IsRead o { image, keepsSigned := o.preserveSignedRegisters } (empty o) := by
  refine ⟨References.sound_empty, rfl, fun r _ k => ?_, ⟨rfl, rfl⟩, rfl, rfl, rfl⟩
  cases k with
  | header =>
    refine isAccepted_singleton rfl ⟨each_nil, rfl, ?_, rfl⟩
    exact ⟨Header.isAccepted_default, by decide, by decide, by decide, by decide⟩
  | mapList =>
    refine isAccepted_singleton (k := .mapList) rfl ⟨each_nil, rfl, ?_, rfl⟩
    exact fun e he => absurd he (by simp)
  | _ => exact Section.isAccepted_empty r

theorem IsRead.decodeSection (hc : IsRead o s c) (hk : k.isSingleton = true → count = 1)
    (h : c.decodeSection k offset count s = .ok d t) : IsRead o t d := by
  obtain ⟨_, s1, hseek, h⟩ := Decoder.exists_of_bind h
  obtain ⟨-, rfl⟩ := Section.seek_eq_ok.1 hseek
  obtain ⟨x, s2, hx, h⟩ := Decoder.exists_of_bind h
  cases h
  obtain ⟨lead, hyields⟩ := Section.yields_decode k count _ x t hx hc.keeps
    hc.sound fun _ _ => trivial
  have hsize : ∀ j, j.isSingleton = true →
      ((c.modifySection k fun _ => x).sectionOf j).items.size = 1 := by
    refine forall_modifySection (P := fun j y => j.isSingleton = true → y.items.size = 1)
      (fun hj => ?_) fun j _ hj => ?_
    · rw [(hyields t.references (by rfl)).2 (Kind.isIndexed_of_isSingleton hj), hk hj]
    · cases j <;> first | exact hc.singletons.header | exact hc.singletons.map | cases hj
  refine ⟨lead.sound, lead.keepsSigned.trans hc.keeps, fun r hr => ?_,
    ⟨hsize .header rfl, hsize .mapList rfl⟩, by simp [hc.keepsSigned], by simp [hc.policy],
    by simp [hc.stage]⟩
  exact forall_modifySection (P := fun _ y => y.IsAccepted o.preserveSignedRegisters r)
    (hyields r hr).1 fun j _ => hc.sections r (References.extends_trans lead.references hr) j

theorem count_of_rowOf (h : rowOf directory mapOffset k = some (offset, count))
    (hk : k.isSingleton = true) : count = 1 := by
  cases k with
  | header => cases h; rfl
  | mapList => cases h; rfl
  | _ => cases hk

theorem IsRead.decodeRow (hc : IsRead o s c) (h : c.decodeRow directory mapOffset k s = .ok d t) :
    IsRead o t d := by
  simp only [Container.decodeRow] at h
  cases hrow : rowOf directory mapOffset k with
  | none =>
    rw [hrow] at h
    cases h
    exact hc
  | some row =>
    rw [hrow] at h
    exact hc.decodeSection (count_of_rowOf hrow) h

theorem IsRead.foldlM {ks : List Kind} (hc : IsRead o s c)
    (h : ks.foldlM (Container.decodeRow directory mapOffset) c s = .ok d t) : IsRead o t d := by
  induction ks generalizing c s with
  | nil =>
    cases h
    exact hc
  | cons k ks ih =>
    rw [List.foldlM_cons] at h
    obtain ⟨e, r, he, h⟩ := Decoder.exists_of_bind h
    exact ih (hc.decodeRow he) h

/-- What was met and checked leads to an item. -/
theorem resolves_of_checkReferences {r : References} {h : Handle k}
    (hcheck : c.checkReferences r k = .ok ()) (hh : r.Holds k h) : c.Resolves k h := by
  obtain ⟨_, hindices, hoffsets⟩ := bind_eq_ok.1 hcheck
  rw [resolves_iff]
  rw [References.Holds] at hh
  split at hh
  · obtain ⟨m, hm, hle⟩ := hh
    rw [References.checkIndices, hm] at hindices
    simp only at hindices
    split at hindices
    · cases hindices
    · rename_i hlt
      have : m < (c.sectionOf k).items.size := Nat.not_le.1 hlt
      omega
  · rw [References.checkOffsets] at hoffsets
    split at hoffsets
    · cases hoffsets
    · rename_i hlt
      exact Nat.lt_of_lt_of_le hh (Nat.not_lt.1 hlt)

/-- The order of the rows does not tell where a section is read. -/
theorem decodeRow_arrange {es : List MapEntry} (hn : (es.map (·.kind)).Nodup) (r : RowOrder)
    (mapOffset : Nat) : Container.decodeRow (r.arrange es) mapOffset =
      Container.decodeRow es mapOffset := by
  funext c k
  have hrow : rowOf (r.arrange es) mapOffset k = rowOf es mapOffset k := by
    cases k <;> simp only [rowOf, RowOrder.find?_arrange hn]
  rw [Container.decodeRow, hrow, Container.decodeRow]

/-- The order of the rows does not tell what is accepted. -/
theorem decode_eq_ok : decode r o s = .ok c t ↔
    ∃ c1 s1 c2 s2, (empty o).decodeSection .header 0 1 s = .ok c1 s1 ∧
      c1.header.mapOffset ≠ 0 ∧
      checkBounds .mapList c1.header.mapOffset 1 s.remaining = .ok () ∧
      c1.decodeSection .mapList c1.header.mapOffset 1 s1 = .ok c2 s2 ∧
      (c2.map.entries.map (·.kind)).Nodup ∧
      (∀ e ∈ c2.map.entries, checkBounds e.kind e.offset e.count s.remaining = .ok ()) ∧
      Kind.readOrder.foldlM (decodeRow c2.map.entries c1.header.mapOffset) c2 s2 = .ok c t ∧
      ∀ k, c.checkReferences t.references k = .ok () := by
  rw [decode, Decoder.bind_of_ok (rfl : Decoder.remaining s = .ok s.remaining s),
    Decoder.bind_eq_ok]
  refine exists_congr fun c1 => exists_congr fun s1 => ?_
  by_cases hne : c1.header.mapOffset = 0
  · simp only [hne, if_true, Decoder.throw_bind_ne_ok, ne_eq, not_true, false_and, and_false,
      exists_false]
  · simp only [hne, if_false, ne_eq, not_false_eq_true, true_and]
    rw [Decoder.ofExcept_bind_eq_ok]
    constructor
    · rintro ⟨h1, _, hbounds, h⟩
      obtain ⟨c2, s2, h2, h⟩ := Decoder.bind_eq_ok.1 h
      obtain ⟨_, hdirectory, h⟩ := Decoder.ofExcept_bind_eq_ok.1 h
      obtain ⟨hn, rfl⟩ := MapList.directory_eq_ok.1 hdirectory
      obtain ⟨hrows, h⟩ := Decoder.forM_ofExcept_bind_eq_ok.1 h
      simp only [RowOrder.mem_arrange] at hrows
      rw [decodeRow_arrange hn] at h
      obtain ⟨c3, s3, h3, h⟩ := Decoder.bind_eq_ok.1 h
      rw [Decoder.bind_of_ok (rfl : Decoder.references s3 = .ok s3.references s3)] at h
      obtain ⟨hchecks, h⟩ := Decoder.forM_ofExcept_bind_eq_ok.1 h
      cases h
      exact ⟨c2, s2, h1, hbounds, h2, hn, hrows, h3, fun k => hchecks k (Kind.mem_readOrder k)⟩
    · rintro ⟨c2, s2, h1, hbounds, h2, hn, hrows, h3, hchecks⟩
      refine ⟨h1, (), hbounds, Decoder.bind_eq_ok.2 ⟨c2, s2, h2, ?_⟩⟩
      refine Decoder.ofExcept_bind_eq_ok.2 ⟨_, MapList.directory_eq_ok.2 ⟨hn, rfl⟩, ?_⟩
      rw [decodeRow_arrange hn]
      refine Decoder.forM_ofExcept_bind_eq_ok.2
        ⟨fun e he => hrows e (RowOrder.mem_arrange.1 he), Decoder.bind_eq_ok.2 ⟨c, t, h3, ?_⟩⟩
      rw [Decoder.bind_of_ok (rfl : Decoder.references t = .ok t.references t)]
      exact Decoder.forM_ofExcept_bind_eq_ok.2 ⟨fun k _ => hchecks k, rfl⟩

theorem ofImage_eq_ok : ofImage r image o = .ok c ↔
    Header.length ≤ image.size ∧ (o.verifyIntegrity = true → Stamp.verify image = .ok ()) ∧
      ∃ t, decode r o { image, keepsSigned := o.preserveSignedRegisters } = .ok c t := by
  rw [ofImage]
  by_cases hsize : image.size < Header.length
  · simp [hsize, Nat.not_le.2 hsize]
  · simp only [hsize, if_false, Nat.not_lt.1 hsize, true_and]
    cases decode r o { image, keepsSigned := o.preserveSignedRegisters } with
    | ok d t =>
      cases o.verifyIntegrity with
      | false => simp
      | true =>
        simp only [if_true, bind_eq_ok, pure_eq_ok, forall_const, EStateM.Result.ok.injEq,
          exists_and_left, exists_eq', and_true]
        constructor
        · rintro ⟨_, hverify, hd⟩
          exact ⟨hverify, hd⟩
        · rintro ⟨hverify, hd⟩
          exact ⟨(), hverify, hd⟩
    | error e t => cases o.verifyIntegrity <;> simp

/-- What is accepted in one order of the rows is accepted alike in every other one. -/
theorem ofImage_of_ofImage {r' : RowOrder} (h : ofImage r image o = .ok c) :
    ofImage r' image o = .ok c := by
  obtain ⟨hsize, hverify, t, ht⟩ := ofImage_eq_ok.1 h
  exact ofImage_eq_ok.2 ⟨hsize, hverify, t, decode_eq_ok.2 (decode_eq_ok.1 ht)⟩

theorem IsRead.decode (hc : IsRead o s (empty o)) (h : Container.decode r o s = .ok c t) :
    IsRead o t c ∧ ∀ k, c.checkReferences t.references k = .ok () := by
  obtain ⟨c1, s1, c2, s2, h1, -, -, h2, -, -, h3, hchecks⟩ := decode_eq_ok.1 h
  have hc1 := hc.decodeSection (fun _ => rfl) h1
  have hc2 := hc1.decodeSection (fun _ => rfl) h2
  exact ⟨hc2.foldlM h3, hchecks⟩

/-- The container can be written and read back by a reader that keeps signed registers or does
not. -/
structure IsAccepted (keeps : Bool) (c : Container) : Prop where
  coherent : c.Coherent
  closed : c.Closed
  encodable : ∀ (k : Kind) (h : Handle k) (x : Content k), (c.sectionOf k).get? h = some x →
    Content.IsEncodable k x
  asRead : ∀ (k : Kind) (h : Handle k) (x : Content k), (c.sectionOf k).get? h = some x →
    Content.asRead keeps k x = x

/-- The index of a section that was read is that of its items. -/
theorem index_of_ofImage (h : ofImage r image o = .ok c) (hk : k.isSingleton = false) :
    (c.sectionOf k).index = Section.indexOf (c.sectionOf k).items := by
  obtain ⟨-, -, s, hs⟩ := ofImage_eq_ok.1 h
  exact (((isRead_empty o image).decode hs).1.sections s.references (by rfl) k).index hk

theorem isAccepted_of_ofImage (h : ofImage r image o = .ok c) :
    IsAccepted o.preserveSignedRegisters c ∧ c.keepsSigned = o.preserveSignedRegisters ∧
      c.policy = o.policy ∧ c.stage = .constructed := by
  obtain ⟨-, -, s, hs⟩ := ofImage_eq_ok.1 h
  obtain ⟨hc, hchecks⟩ := (isRead_empty o image).decode hs
  have hsections := hc.sections s.references (by rfl)
  refine ⟨⟨⟨fun k => ⟨(hsections k).wellFormed, fun hk => ?_, fun h x hx => ?_, fun hk => ?_,
    fun hk => ?_⟩, fun hstage => ?_⟩, fun k h x hx => ?_, fun k h x hx => ?_, fun k h x hx => ?_⟩,
    hc.keepsSigned, hc.policy, hc.stage⟩
  · cases k <;> first | exact hc.singletons.header | exact hc.singletons.map | cases hk
  · have hx := (hsections k).items h x hx
    cases k with
    | header => exact hx.encodable.toIsAccepted
    | _ => exact hx.check
  · exact (hsections k).order (by revert hk; cases k <;> decide)
  · exact (hsections k).positions (by revert hk; cases k <;> decide)
  · rw [hc.stage] at hstage
    cases hstage
  · exact ((hsections k).items h x hx).holds.mono fun j y => resolves_of_checkReferences (hchecks j)
  · exact ((hsections k).items h x hx).encodable
  · exact ((hsections k).items h x hx).asRead

end Container

end DexContainer
