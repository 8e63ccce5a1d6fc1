import Mathlib.Data.List.Permutation
import DexContainer.Container.Interning
import DexContainer.Container.Placement
import DexContainer.Proofs.Item.Blind

/-! How deep encoded values may lie in one another. The writer takes values of any depth, and the
reader counts the levels that it goes down. A lower limit changes nothing but that more values are
refused, so what one limit reads another one reads alike or finds nested too deeply; and what is
read has no more levels than the limit. Main statement: `Container.reads_written_value`, by which
the bytes of a value are read back exactly if no value in it lies deeper than 128 levels, and are
refused for their nesting otherwise. -/

namespace DexContainer

/-! ### Depths -/

namespace Value

variable {v : Value} {n : Nat}

/-- The values right below a value: the members of an array, or those of the elements of an
annotation. -/
def parts : Value → List Value
  | .scalar _ => []
  | .array vs => vs
  | .annotated a => a.elements.map (·.2)

/-- A value lies in another one, this many levels below it. -/
inductive HasAt : Value → Nat → Value → Prop
  | self (v : Value) : HasAt v 0 v
  | part {v w x : Value} {depth : Nat} (hw : w ∈ v.parts) (h : HasAt w depth x) :
    HasAt v (depth + 1) x

/-- What a value inherits from its parts holds of every value. -/
@[elab_as_elim]
theorem parts_induction {P : Value → Prop} (v : Value) (h : ∀ v, (∀ w ∈ v.parts, P w) → P v) :
    P v := by
  induction v using Value.form_induction with
  | scalar x => exact h _ fun _ hw => absurd hw List.not_mem_nil
  | array vs ih => exact h _ ih
  | annotated a ih => exact h _ (List.forall_mem_map.2 ih)

theorem levels_le_succ_iff : v.levels ≤ n + 1 ↔ ∀ w ∈ v.parts, w.levels ≤ n := by
  cases v with
  | scalar x => simp [levels_scalar, parts]
  | array vs =>
    rw [levels_array, parts, ← levelsAll_le_iff]
    omega
  | annotated a =>
    rw [levels_annotated, parts, List.forall_mem_map, ← AnnotationBody.levels_le_iff]
    omega

theorem levels_pos (v : Value) : 0 < v.levels := by
  cases v with
  | scalar x => exact Nat.one_pos
  | array vs | annotated a => exact Nat.lt_add_right _ Nat.one_pos

theorem levels_le_iff : v.levels ≤ n ↔ ∀ depth w, v.HasAt depth w → depth < n := by
  induction v using parts_induction generalizing n with
  | h v ih =>
    cases n with
    | zero =>
      have := v.levels_pos
      exact iff_of_false (by omega) fun h => absurd (h 0 v (.self v)) (by omega)
    | succ n =>
      rw [levels_le_succ_iff]
      refine ⟨fun hparts depth x h => ?_, fun h w hw => (ih w hw).2 fun depth x hx => ?_⟩
      · cases h with
        | self => exact Nat.succ_pos n
        | part hw h => exact Nat.succ_lt_succ ((ih _ hw).1 (hparts _ hw) _ x h)
      · exact Nat.lt_of_succ_lt_succ (h (depth + 1) x (.part hw hx))

theorem lt_levels_iff : n < v.levels ↔ ∃ depth w, v.HasAt depth w ∧ n ≤ depth := by
  rw [← Nat.not_le, levels_le_iff]
  simp only [not_forall, Nat.not_lt, exists_prop]

theorem parts_rename (ρ : Renaming) (v : Value) :
    (v.rename ρ).parts = v.parts.map (rename ρ) := by
  cases v with
  | scalar x => rfl
  | array vs => rw [rename_array, parts, parts]
  | annotated a =>
    rw [rename_annotated, AnnotationBody.rename_eq, parts, parts, List.map_map, List.map_map]
    rfl

/-- New handles leave the depths as they are. -/
theorem levels_rename (ρ : Renaming) (v : Value) : (v.rename ρ).levels = v.levels := by
  have hle (n : Nat) : (v.rename ρ).levels ≤ n ↔ v.levels ≤ n := by
    induction v using parts_induction generalizing n with
    | h v ih =>
      cases n with
      | zero =>
        have := v.levels_pos
        have := (v.rename ρ).levels_pos
        omega
      | succ n =>
        rw [levels_le_succ_iff, levels_le_succ_iff, parts_rename, List.forall_mem_map]
        exact forall₂_congr fun w hw => ih w hw n
  exact Nat.le_antisymm ((hle _).2 (Nat.le_refl _)) ((hle _).1 (Nat.le_refl _))

end Value

/-! ### Limits -/

section Limits

variable {α β : Type} {d d' : Decoder α} {f f' : α → Decoder β}

/-- The first reader does what the second one does, unless it finds a value nested too deeply. -/
def Restricts (d d' : Decoder α) : Prop := ∀ s : Source,
  d s = d' s ∨ ∃ start t, d s = .error (.invalidValue start .nestedTooDeeply) t

namespace Restricts

theorem refl (d : Decoder α) : Restricts d d := fun _ => .inl rfl

theorem bind (hd : Restricts d d') (hf : ∀ x, Restricts (f x) (f' x)) :
    Restricts (d >>= f) (d' >>= f') := by
  intro s
  rcases hd s with hs | ⟨start, t, hs⟩
  · cases h : d' s with
    | ok x t =>
      rw [h] at hs
      rw [Decoder.bind_of_ok hs, Decoder.bind_of_ok h]
      exact hf x t
    | error e t =>
      rw [h] at hs
      rw [Decoder.bind_of_error hs, Decoder.bind_of_error h]
      exact .inl rfl
  · exact .inr ⟨start, t, Decoder.bind_of_error hs⟩

theorem bind_right (d : Decoder α) (hf : ∀ x, Restricts (f x) (f' x)) :
    Restricts (d >>= f) (d >>= f') := (refl d).bind hf

theorem bind_left (hd : Restricts d d') (f : α → Decoder β) :
    Restricts (d >>= f) (d' >>= f) := hd.bind fun _ => refl _

theorem times (hd : Restricts d d') (count : Nat) :
    Restricts (Decoder.times count d) (Decoder.times count d') := by
  have h (read : List α) :
      Restricts (Decoder.timesOnto d count read) (Decoder.timesOnto d' count read) := by
    induction count generalizing read with
    | zero => exact refl _
    | succ count ih => exact hd.bind fun x => ih (x :: read)
  exact h []

end Restricts

/-- A lower limit only adds that values are nested too deeply. -/
theorem Value.restricts_of_le {m n : Nat} (hmn : m ≤ n) :
    Restricts (decodeWithin m) (decodeWithin n) := by
  induction m generalizing n with
  | zero => exact fun s => .inr ⟨s.position, s, rfl⟩
  | succ m ih =>
    obtain ⟨n, rfl⟩ := Nat.exists_eq_add_one.2 (Nat.zero_lt_of_lt hmn)
    have hvalue := ih (Nat.le_of_succ_le_succ hmn)
    have helement : Restricts (decodeElement (decodeWithin m)) (decodeElement (decodeWithin n)) :=
      .bind_right _ fun _ => .bind_right _ fun _ => hvalue.bind_left _
    rw [decodeWithin_succ, decodeWithin_succ]
    refine .bind_right _ fun start => .bind_right _ fun lead => ?_
    rw [decodeAfterLead, decodeAfterLead]
    split
    · refine Restricts.bind_left ?_ _
      exact .bind_right _ fun count => hvalue.times count
    · refine Restricts.bind_left ?_ _
      rw [AnnotationBody.decodeWith_eq, AnnotationBody.decodeWith_eq]
      refine .bind_right _ fun index => .bind_right _ fun type => .bind_right _ fun count => ?_
      exact (helement.times count).bind_left _
    · exact .refl _

end Limits

/-! ### References -/

namespace Value

variable {s t : Source} {v : Value} {limit : Nat}

/-- The references met before do not show in what is read, since a value refers to other items by
index only. -/
theorem decodeWithin_eq_ok_of_references (h : decodeWithin limit s = .ok v t) (r : References) :
    ∃ r', decodeWithin limit { s with references := r } = .ok v { t with references := r' } := by
  rcases Value.blind limit s with ⟨n, a, hs, met, ⟨x, ha, -⟩, -, hok⟩ | ⟨e, met, -, herror⟩
  · have hself (r : References) : a (r.meetAll met).handleOf = x := by
      rw [ha]
      exact rename_eq_self <|
        x.each_isIndexed.mono fun k h hk => (References.names_handleOf _).index hk h
    have hs := h.symm.trans (hok s.references _ (References.names_handleOf _))
    have hr := hok r _ (References.names_handleOf _)
    rw [hself] at hs hr
    cases hs
    exact ⟨_, hr⟩
  · obtain ⟨u, hu⟩ := herror s.references _ (References.names_handleOf _)
    cases h.symm.trans hu

theorem decodeWithin_eq_error_of_references {e : Fault} (h : decodeWithin limit s = .error e t)
    (r : References) : ∃ u, decodeWithin limit { s with references := r } = .error e u := by
  rcases Value.blind limit s with ⟨n, a, hs, met, -, -, hok⟩ | ⟨e', met, -, herror⟩
  · cases h.symm.trans (hok s.references _ (References.names_handleOf _))
  · obtain ⟨u, hu⟩ := herror s.references _ (References.names_handleOf _)
    cases h.symm.trans hu
    exact herror r _ (References.names_handleOf _)

end Value

/-! ### Reading back -/

/-- The placed index of every item in place of its handle. -/
def Places.indices (places : Places) : Renaming := fun k h =>
  match places.position? k h with
  | some n => ⟨n⟩
  | none => h

theorem Places.indices_of_position? {places : Places} {k : Kind} {h : Handle k} {n : Nat}
    (hn : places.position? k h = some n) : places.indices k h = ⟨n⟩ := by
  rw [indices, hn]

namespace Value

variable {places : Places} {v : Value} {bs tail : Bytes} {s : Source}

theorem rename_of_gives {r : References} {ρ : Renaming} (hv : Each places.IsPlaced v.handles)
    (hρ : r.Gives places ρ) : v.rename ρ = v.rename places.indices := by
  refine rename_congr fun h hmem => ?_
  obtain ⟨n, hn⟩ := hv h hmem
  have hgives := hρ h.1 h.2 n hn
  rw [if_pos (v.each_isIndexed h hmem)] at hgives
  rw [hgives, Places.indices_of_position? hn]

/-- A limit that admits the value reads it back, with indices in place of its handles. -/
theorem decodeWithin_of_write {limit : Nat} (hplaced : Each places.IsPlaced v.handles)
    (hword : Each places.FitsWord v.handles) (h : v.write places = .ok bs)
    (hb : bs.length < 2 ^ 32) (hs : s.rest = bs ++ tail) (hlimit : v.levels ≤ limit) :
    ∃ r, decodeWithin limit s =
      .ok (v.rename places.indices) { s.advance bs.length with references := r } := by
  have hpos : s.position < s.image.size := by
    obtain ⟨b, bs', rfl⟩ := List.exists_cons_of_length_pos (length_pos_of_write h)
    exact Source.position_lt_of_rest hs
  have hreads : Reads places s.keepsSigned (fun _ => True) s.position (decodeWithin limit) bs
      fun ρ => v.rename ρ := Value.reads hword hlimit h hb
  obtain ⟨x, r, hx, -, hr, ha⟩ := hreads { s with references := {} } tail rfl
    (Nat.le_of_lt hpos) hs rfl References.tracks_empty fun _ _ => trivial
  have hgives := r.gives_handlesRead places
  obtain rfl : v.rename places.indices = x :=
    (rename_of_gives hplaced hgives).symm.trans (ha _ hgives)
  exact decodeWithin_eq_ok_of_references hx s.references

/-- A limit that does not admit the value finds it nested too deeply. -/
theorem decodeWithin_of_write_of_lt {limit : Nat} (hplaced : Each places.IsPlaced v.handles)
    (hword : Each places.FitsWord v.handles) (h : v.write places = .ok bs)
    (hb : bs.length < 2 ^ 32) (hs : s.rest = bs ++ tail) (hlimit : limit < v.levels) :
    ∃ start t, decodeWithin limit s = .error (.invalidValue start .nestedTooDeeply) t := by
  let fresh : Source := { s with references := {} }
  obtain ⟨r, hx⟩ := decodeWithin_of_write (s := fresh) hplaced hword h hb hs (Nat.le_refl _)
  rcases restricts_of_le (Nat.le_of_lt hlimit) fresh with heq | ⟨start, t, hdeep⟩
  · -- what a limit reads has no more levels than that
    obtain ⟨-, hlevels⟩ := Value.yields limit fresh _ _ (heq.trans hx) rfl References.sound_empty
      fun _ _ => trivial
    have := (hlevels _ (References.extends_refl _)).2
    rw [levels_rename] at this
    omega
  · obtain ⟨u, hu⟩ := decodeWithin_eq_error_of_references hdeep s.references
    exact ⟨start, u, hu⟩

end Value

/-- A value whose handles are placed at 32-bit positions of a container, and whose size is a 32-bit
number, is written in as many bytes as its size says. Wherever these bytes stand in an image,
whatever follows them and whatever references were met before them, the reader gives back the value
with the placed index in place of each handle and stops right behind them, if no value in it lies
deeper than 128 levels. Otherwise it finds the value nested too deeply. -/
theorem Container.reads_written_value (c : Container) (v : Value)
    (hplaced : Each c.places.IsPlaced v.handles) (hword : Each c.places.FitsWord v.handles)
    (hsize : ∀ n, v.size c.places = .ok n → n < 2 ^ 32) :
    ∃ bs, v.write c.places = .ok bs ∧ v.size c.places = .ok bs.length ∧
      ∀ (s : Source) (tail : Bytes), s.rest = bs ++ tail →
        ((∀ depth w, v.HasAt depth w → depth ≤ 128) → ∃ r, Value.decode s =
          .ok (v.rename c.places.indices) { s.advance bs.length with references := r }) ∧
        ((∃ depth w, v.HasAt depth w ∧ 128 < depth) →
          ∃ start t, Value.decode s = .error (.invalidValue start .nestedTooDeeply) t) := by
  obtain ⟨bs, h⟩ := Value.exists_write hplaced
  have hn := Value.size_of_write h
  refine ⟨bs, h, hn, fun s tail hs => ⟨fun hv => ?_, fun hv => ?_⟩⟩
  · refine Value.decodeWithin_of_write hplaced hword h (hsize _ hn) hs ?_
    exact Value.levels_le_iff.2 fun depth w hw => Nat.lt_succ_of_le (hv depth w hw)
  · exact Value.decodeWithin_of_write_of_lt hplaced hword h (hsize _ hn) hs
      (Value.lt_levels_iff.2 hv)

/-- A value in this many arrays, one around the other. -/
def Value.boxed (arrays : Nat) (v : Value) : Value := Nat.repeat (fun w => .array [w]) arrays v

theorem Value.boxed_succ (arrays : Nat) (v : Value) :
    v.boxed (arrays + 1) = .array [v.boxed arrays] := rfl

theorem Value.handles_boxed (arrays : Nat) (v : Value) : (v.boxed arrays).handles = v.handles := by
  induction arrays with
  | zero => rfl
  | succ arrays ih => simp [boxed_succ, handles_array, ih]

theorem Value.levels_boxed (arrays : Nat) (v : Value) :
    (v.boxed arrays).levels = v.levels + arrays := by
  induction arrays with
  | zero => rfl
  | succ arrays ih =>
    rw [boxed_succ, levels_array, levelsAll, levelsAll, ih]
    omega

/-- An array adds its first byte and the count of its only value. -/
theorem Value.size_boxed {places : Places} {v : Value} {n : Nat} (h : v.size places = .ok n)
    (arrays : Nat) : (v.boxed arrays).size places = .ok (n + 2 * arrays) := by
  induction arrays with
  | zero => exact h
  | succ arrays ih =>
    have hone : Leb128.unsignedSize 1 = 1 := Leb128.unsignedSize_of_lt (by decide)
    rw [boxed_succ, size_array, sizeOfAll_cons, ih, sizeOfAll_nil, List.length_singleton, hone]
    exact congrArg Except.ok (by omega)

/-- The number of an annotation lies 128 levels deep in 127 arrays, and is refused in one more. -/
theorem Container.reads_written_value_boxed : ∃ (c : Container) (v : Value) (bs bs' : Bytes),
    v = .annotated ⟨⟨0⟩, [(⟨0⟩, .scalar (.int (-129)))]⟩ ∧
    (v.boxed 127).write c.places = .ok bs ∧ (v.boxed 128).write c.places = .ok bs' ∧
    (∃ r, Value.decode { image := bs.toArray } = .ok (v.boxed 127)
      { image := bs.toArray, position := 261, references := r }) ∧
    ∃ start t, Value.decode { image := bs'.toArray } =
      .error (.invalidValue start .nestedTooDeeply) t := by
  let v : Value := .annotated ⟨⟨0⟩, [(⟨0⟩, .scalar (.int (-129)))]⟩
  have hplace : ((empty {}).internType "I" >>= fun b =>
      (fun d => (d.1.position? (⟨0⟩ : Handle .typeId), d.1.position? (⟨0⟩ : Handle .stringId))) <$>
        b.1.place) = .ok (some 0, some 0) := by
    cbv
  obtain ⟨⟨b, t⟩, -, hplace⟩ := bind_eq_ok.1 hplace
  obtain ⟨⟨c, fileSize⟩, -, heq⟩ := map_eq_ok.1 hplace
  simp only [Prod.mk.injEq] at heq
  obtain ⟨htype, hname⟩ := heq
  have hsize (arrays : Nat) : (v.boxed arrays).size c.places = .ok (7 + 2 * arrays) := by
    have hwidth : Scalar.signedWidth (-129) = 2 := by decide
    refine Value.size_boxed ?_ arrays
    simp [v, Value.size, AnnotationBody.size, Value.sizeElements, Scalar.size, Places.position,
      places, htype, hname, Leb128.unsignedSize_of_lt, hwidth]
  have hlevels (arrays : Nat) : (v.boxed arrays).levels = 2 + arrays := Value.levels_boxed arrays v
  have hhandles (arrays : Nat) : (v.boxed arrays).handles = [⟨.typeId, ⟨0⟩⟩, ⟨.stringId, ⟨0⟩⟩] :=
    Value.handles_boxed arrays v
  have hplaced : Each c.places.IsPlaced [⟨.typeId, ⟨0⟩⟩, ⟨.stringId, ⟨0⟩⟩] :=
    each_cons.2 ⟨⟨0, htype⟩, each_cons.2 ⟨⟨0, hname⟩, each_nil⟩⟩
  have hword : Each c.places.FitsWord [⟨.typeId, ⟨0⟩⟩, ⟨.stringId, ⟨0⟩⟩] := by
    refine each_cons.2 ⟨fun n hn => ?_, each_cons.2 ⟨fun n hn => ?_, each_nil⟩⟩
    · cases htype.symm.trans hn
      decide
    · cases hname.symm.trans hn
      decide
  have hindices : (v.boxed 127).rename c.places.indices = v.boxed 127 := by
    refine Value.rename_eq_self ?_
    rw [hhandles]
    exact each_cons.2 ⟨Places.indices_of_position? htype,
      each_cons.2 ⟨Places.indices_of_position? hname, each_nil⟩⟩
  obtain ⟨bs, hbs, hlen, hread⟩ := reads_written_value c (v.boxed 127) (hhandles 127 ▸ hplaced)
    (hhandles 127 ▸ hword) (by rw [hsize]; rintro _ ⟨⟩; decide)
  obtain ⟨bs', hbs', -, hread'⟩ := reads_written_value c (v.boxed 128) (hhandles 128 ▸ hplaced)
    (hhandles 128 ▸ hword) (by rw [hsize]; rintro _ ⟨⟩; decide)
  have hlength : bs.length = 261 := by simpa [hsize, eq_comm] using hlen
  refine ⟨c, v, bs, bs', rfl, hbs, hbs', ?_, ?_⟩
  · obtain ⟨r, hr⟩ := (hread { image := bs.toArray } [] (by simp [Source.rest])).1 fun depth w hw =>
      Nat.le_of_lt_succ (Value.levels_le_iff.1 (Nat.le_of_eq (hlevels 127)) depth w hw)
    exact ⟨r, by rw [hr, hindices, hlength]; rfl⟩
  · refine (hread' { image := bs'.toArray } [] (by simp [Source.rest])).2 ?_
    exact Value.lt_levels_iff.1 (by rw [hlevels]; decide)

end DexContainer
