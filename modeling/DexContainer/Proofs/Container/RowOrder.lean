import DexContainer.Proofs.Container.Resolution

/-! What the order can change in which a reader gets the rows of the map. Which rows there are does
not depend on it, nor does what is read by them; but rows that lie outside of the image are found in
this order, and the first one that is found is named. Main statement: `agreeUpTo_ofImage`. -/

namespace DexContainer

namespace Decoder

variable {α β : Type} {E : Fault → Fault → Prop} {d : Decoder α} {s : Source}

/-- The two readers give the same, or they find two faults of which a relation holds. -/
def AgreeUpTo (E : Fault → Fault → Prop) (d d' : Decoder α) (s : Source) : Prop :=
  d s = d' s ∨ ∃ e e' t t', d s = .error e t ∧ d' s = .error e' t' ∧ E e e'

theorem AgreeUpTo.bind {f f' : α → Decoder β}
    (h : ∀ a t, d s = .ok a t → AgreeUpTo E (f a) (f' a) t) :
    AgreeUpTo E (d >>= f) (d >>= f') s := by
  rw [AgreeUpTo]
  cases hd : d s with
  | ok a t =>
    rw [bind_of_ok hd, bind_of_ok hd]
    exact h a t hd
  | error e t =>
    rw [bind_of_error hd, bind_of_error hd]
    exact .inl rfl

theorem eq_of_ofExcept {e : Except Fault α} {a : α} {t : Source}
    (h : ofExcept e s = .ok a t) : t = s := by
  cases e <;> cases h
  rfl

/-- Which one of two orders is taken for some checks makes no difference but for the fault that is
found first. -/
theorem agreeUpTo_forM {f : α → Except Fault Unit} {xs ys : List α} {g : Unit → Decoder β}
    (hmem : ∀ x, x ∈ xs ↔ x ∈ ys)
    (hE : ∀ x ∈ xs, ∀ y ∈ xs, ∀ e e', f x = .error e → f y = .error e' → e = e' ∨ E e e') :
    AgreeUpTo E ((xs.forM fun x => ofExcept (f x)) >>= g)
      ((ys.forM fun x => ofExcept (f x)) >>= g) s := by
  rw [AgreeUpTo]
  rcases forM_ofExcept f xs s with ⟨hall, hok⟩ | ⟨x, hx, e, he, herror⟩ <;>
    rcases forM_ofExcept f ys s with ⟨hall', hok'⟩ | ⟨y, hy, e', he', herror'⟩
  · rw [bind_of_ok hok, bind_of_ok hok']
    exact .inl rfl
  · rw [hall y ((hmem y).2 hy)] at he'
    cases he'
  · rw [hall' x ((hmem x).1 hx)] at he
    cases he
  · rw [bind_of_error herror, bind_of_error herror']
    rcases hE x hx y ((hmem y).2 hy) e e' he he' with rfl | hE
    · exact .inl rfl
    · exact .inr ⟨e, e', s, s, rfl, rfl, hE⟩

end Decoder

namespace Container

variable {image : Image} {o : Options}

/-- Two rows of the map that stands in an image lie outside of it, and each has its own fault. -/
def HasStrayRows (image : Image) (keeps : Bool) (e e' : Fault) : Prop :=
  ∃ (l : Outline image keeps) (x y : MapEntry), x ∈ l.map.entries ∧ y ∈ l.map.entries ∧
    x.kind ≠ y.kind ∧ checkBounds x.kind x.offset x.count image.size = .error e ∧
    checkBounds y.kind y.offset y.count image.size = .error e'

theorem stands_of_decodeSingleton {c d : Container} {s t : Source} {k : Kind} {offset : Nat}
    (hk : k.isSingleton = true) (hs : s.references = {})
    (h : c.decodeSection k offset 1 s = .ok d t) :
    t.image = s.image ∧ t.keepsSigned = s.keepsSigned ∧ t.references = {} ∧
      ∃ x finish, Content.StandsAt s.image s.keepsSigned k offset finish x ∧
        (d.sectionOf k).get? (first k) = some x := by
  have hends : Ends (c.decodeSection k offset 1) s _ (Fault.IsFounded s.image s.keepsSigned) :=
    ends_decodeSingleton hk hs
  rw [Ends, h] at hends
  obtain ⟨himage, hkeeps, hreferences, -, hstands⟩ := hends
  exact ⟨himage, hkeeps, hreferences, hstands⟩

theorem exists_outline {c1 c2 : Container} {s1 s2 : Source}
    (h1 : (empty o).decodeSection .header 0 1
      { image, keepsSigned := o.preserveSignedRegisters } = .ok c1 s1)
    (h2 : c1.decodeSection .mapList c1.header.mapOffset 1 s1 = .ok c2 s2) :
    ∃ l : Outline image o.preserveSignedRegisters, l.map = c2.map := by
  obtain ⟨himage, hkeeps, hreferences, header, finish, hheader, hget⟩ :=
    stands_of_decodeSingleton rfl rfl h1
  obtain ⟨-, -, -, map, finish', hmap, hget'⟩ := stands_of_decodeSingleton rfl hreferences h2
  have hc1 : c1.header = header := by rw [Container.header, hget, Option.getD_some]
  rw [himage, hkeeps, hc1] at hmap
  exact ⟨⟨header, map, ⟨_, hheader⟩, ⟨_, hmap⟩⟩, by rw [Container.map, hget', Option.getD_some]⟩

/-- Which one of two orders is taken for the rows makes no difference but for the fault that is
found first when two rows lie outside of the image. -/
theorem agreeUpTo_decode (r r' : RowOrder) (image : Image) (o : Options) :
    Decoder.AgreeUpTo (HasStrayRows image o.preserveSignedRegisters) (decode r o) (decode r' o)
      { image, keepsSigned := o.preserveSignedRegisters } := by
  refine .bind fun length t ht => ?_
  cases ht
  refine .bind fun c1 s1 h1 => ?_
  dsimp only
  split
  · exact .inl rfl
  refine .bind fun _ t ht => ?_
  obtain rfl := Decoder.eq_of_ofExcept ht
  refine .bind fun c2 s2 h2 => ?_
  obtain ⟨l, hl⟩ := exists_outline h1 h2
  rw [MapList.directory, MapList.directory]
  cases hrepeated : MapList.repeated? [] c2.map.entries with
  | some k => exact .inl rfl
  | none =>
    obtain ⟨hn, -⟩ := MapList.repeated?_eq_none_iff.1 hrepeated
    have hpure (es : List MapEntry) :
        Decoder.ofExcept (pure es : Except Fault (List MapEntry)) = pure es := rfl
    simp only [hpure, pure_bind, decodeRow_arrange hn]
    refine Decoder.agreeUpTo_forM (fun e => RowOrder.mem_arrange.trans RowOrder.mem_arrange.symm)
      fun x hx y hy e e' he he' => ?_
    rw [RowOrder.mem_arrange, ← hl] at hx hy
    by_cases hxy : x.kind = y.kind
    · obtain rfl := List.inj_on_of_nodup_map (hl ▸ hn) hx hy hxy
      exact .inl (Except.error.inj (he.symm.trans he'))
    · exact .inr ⟨l, x, y, hx, hy, hxy, he, he'⟩

theorem agreeUpTo_ofImage (r r' : RowOrder) (image : Image) (o : Options) :
    ofImage r image o = ofImage r' image o ∨ ∃ e e', ofImage r image o = .error e ∧
      ofImage r' image o = .error e' ∧ HasStrayRows image o.preserveSignedRegisters e e' := by
  rw [ofImage, ofImage]
  rcases agreeUpTo_decode r r' image o with hsame | ⟨e, e', t, t', he, he', hstray⟩
  · rw [hsame]
    exact .inl rfl
  · rw [he, he']
    split
    · exact .inl rfl
    · cases o.verifyIntegrity with
      | false => exact .inr ⟨e, e', rfl, rfl, hstray⟩
      | true =>
        cases hverify : Stamp.verify image with
        | error f => exact .inl rfl
        | ok _ => exact .inr ⟨e, e', rfl, rfl, hstray⟩

end Container

end DexContainer
