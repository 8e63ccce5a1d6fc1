import DexContainer.Item.ClassData
import DexContainer.Proofs.Reads.Primitives
import DexContainer.Proofs.Yields

/-! The members of a class as they are written and read. Both directions carry the index of the
member before, so every statement on a list is shown for any such index. -/

namespace DexContainer

variable {places places' : Places} {ρ : Renaming} {keeps : Bool} {p : Nat} {bs : Bytes}

/-- The field with its handle renamed. -/
def EncodedField.rename (ρ : Renaming) (x : EncodedField) : EncodedField :=
  { x with field := ρ _ x.field }

/-- The method with its handles renamed. -/
def EncodedMethod.rename (ρ : Renaming) (x : EncodedMethod) : EncodedMethod :=
  { x with method := ρ _ x.method, code := x.code.map (ρ _) }

/-- The handles of a method. -/
def EncodedMethod.handles (x : EncodedMethod) : List AnyHandle :=
  x.method.any :: x.code.toList.map Handle.any

namespace ClassData

variable {x : ClassData}

/-- The handles of the item. -/
def handles (x : ClassData) : List AnyHandle :=
  x.staticFields.map (·.field.any) ++ x.instanceFields.map (·.field.any) ++
    x.directMethods.flatMap EncodedMethod.handles ++
    x.virtualMethods.flatMap EncodedMethod.handles

/-- The item with its handles renamed. -/
def rename (ρ : Renaming) (x : ClassData) : ClassData where
  staticFields := x.staticFields.map (EncodedField.rename ρ)
  instanceFields := x.instanceFields.map (EncodedField.rename ρ)
  directMethods := x.directMethods.map (EncodedMethod.rename ρ)
  virtualMethods := x.virtualMethods.map (EncodedMethod.rename ρ)

theorem rename_id (x : ClassData) : x.rename (fun _ h => h) = x := by
  have hf : EncodedField.rename (fun _ h => h) = id := rfl
  have hm : EncodedMethod.rename (fun _ h => h) = id := by
    funext m
    simp [EncodedMethod.rename]
  simp [rename, hf, hm]

theorem each_method {P : HandleProperty} {m : EncodedMethod} :
    Each P m.handles ↔ P _ m.method ∧ ∀ h ∈ m.code, P _ h := by
  simp [EncodedMethod.handles]

theorem each_handles {P : HandleProperty} : Each P x.handles ↔
    (∀ f ∈ x.staticFields, P _ f.field) ∧ (∀ f ∈ x.instanceFields, P _ f.field) ∧
      (∀ m ∈ x.directMethods, P _ m.method ∧ ∀ h ∈ m.code, P _ h) ∧
      ∀ m ∈ x.virtualMethods, P _ m.method ∧ ∀ h ∈ m.code, P _ h := by
  have hf (fs : List EncodedField) :
      Each P (fs.map (·.field.any)) ↔ ∀ f ∈ fs, P _ f.field := by
    simp [Each, Handle.any]
  simp [handles, hf, each_method]

theorem each_handles_rename {P : HandleProperty} :
    Each P (x.rename ρ).handles ↔ Each (fun k h => P k (ρ k h)) x.handles := by
  simp only [each_handles, rename, EncodedField.rename, EncodedMethod.rename, Option.mem_def,
    Option.map_eq_some_iff, List.forall_mem_map, forall_exists_index, and_imp,
    forall_apply_eq_imp_iff₂]

/-! ### Differences -/

theorem difference_lt (index previous : Nat) : difference index previous < 2 ^ 32 :=
  Nat.mod_lt _ (Nat.two_pow_pos 32)

theorem add_difference {index : Nat} (previous : Nat) (h : index < 2 ^ 32) :
    (previous + difference index previous) % 2 ^ 32 = index := by
  rw [difference]
  omega

/-! ### Writing -/

theorem writeFields_cons_eq_ok {previous : Nat} {f : EncodedField} {fs : List EncodedField} :
    writeFields places previous (f :: fs) = .ok bs ↔
      ∃ index, places.position f.field = .ok index ∧
        ∃ cs, writeFields places index fs = .ok cs ∧
          Leb128.unsigned (difference index previous) ++ Leb128.unsigned f.accessFlags.toNat ++ cs =
            bs := by
  simp [writeFields]

theorem writeMethods_cons_eq_ok {previous : Nat} {m : EncodedMethod} {ms : List EncodedMethod} :
    writeMethods places previous (m :: ms) = .ok bs ↔
      ∃ index, places.position m.method = .ok index ∧
        ∃ code, places.optionalOffset m.code = .ok code ∧
          ∃ cs, writeMethods places index ms = .ok cs ∧
            Leb128.unsigned (difference index previous) ++ Leb128.unsigned m.accessFlags.toNat ++
              Leb128.unsigned code ++ cs = bs := by
  simp [writeMethods]

theorem write_eq_ok : x.write places = .ok bs ↔
    ∃ staticFields, writeFields places 0 x.staticFields = .ok staticFields ∧
    ∃ instanceFields, writeFields places 0 x.instanceFields = .ok instanceFields ∧
    ∃ directMethods, writeMethods places 0 x.directMethods = .ok directMethods ∧
    ∃ virtualMethods, writeMethods places 0 x.virtualMethods = .ok virtualMethods ∧
      Leb128.unsigned x.staticFields.length ++ Leb128.unsigned x.instanceFields.length ++
        Leb128.unsigned x.directMethods.length ++ Leb128.unsigned x.virtualMethods.length ++
        staticFields ++ instanceFields ++ directMethods ++ virtualMethods = bs := by
  simp [write]

theorem codeSize_of_optionalOffset {o : Option (Handle .code)} {n : Nat}
    (h : places.optionalOffset o = .ok n) : codeSize places o = Leb128.unsignedSize n := by
  cases o with
  | none =>
    obtain rfl : 0 = n := pure_eq_ok.1 h
    exact (Leb128.unsignedSize_of_lt (by decide)).symm
  | some h' => rw [codeSize, Places.position_eq_ok.1 h]

theorem sizeOfFields_of_write {previous : Nat} {fs : List EncodedField}
    (h : writeFields places previous fs = .ok bs) :
    sizeOfFields places previous fs = .ok bs.length := by
  induction fs generalizing previous bs with
  | nil =>
    obtain rfl := pure_eq_ok.1 h
    rfl
  | cons f fs ih =>
    obtain ⟨index, hi, cs, hcs, rfl⟩ := writeFields_cons_eq_ok.1 h
    simp [sizeOfFields, hi, ih hcs, Leb128.length_unsigned, pure_eq, Nat.add_assoc]

theorem sizeOfMethods_of_write {previous : Nat} {ms : List EncodedMethod}
    (h : writeMethods places previous ms = .ok bs) :
    sizeOfMethods places previous ms = .ok bs.length := by
  induction ms generalizing previous bs with
  | nil =>
    obtain rfl := pure_eq_ok.1 h
    rfl
  | cons m ms ih =>
    obtain ⟨index, hi, code, hcode, cs, hcs, rfl⟩ := writeMethods_cons_eq_ok.1 h
    simp [sizeOfMethods, hi, ih hcs, codeSize_of_optionalOffset hcode, Leb128.length_unsigned,
      pure_eq, Nat.add_assoc]

theorem size_of_write (h : x.write places = .ok bs) : x.size places = .ok bs.length := by
  obtain ⟨cs1, h1, cs2, h2, cs3, h3, cs4, h4, rfl⟩ := write_eq_ok.1 h
  simp [size, sizeOfFields_of_write h1, sizeOfFields_of_write h2, sizeOfMethods_of_write h3,
    sizeOfMethods_of_write h4, Leb128.length_unsigned, pure_eq, Nat.add_assoc]

theorem exists_writeFields {previous : Nat} {fs : List EncodedField}
    (h : ∀ f ∈ fs, places.IsPlaced _ f.field) :
    ∃ bs, writeFields places previous fs = .ok bs := by
  induction fs generalizing previous with
  | nil => exact ⟨[], rfl⟩
  | cons f fs ih =>
    obtain ⟨index, hi⟩ := (h f (List.mem_cons_self ..)).exists_position
    obtain ⟨cs, hcs⟩ := ih fun g hg => h g (List.mem_cons_of_mem f hg)
    exact ⟨_, writeFields_cons_eq_ok.2 ⟨index, hi, cs, hcs, rfl⟩⟩

theorem exists_writeMethods {previous : Nat} {ms : List EncodedMethod}
    (h : ∀ m ∈ ms, places.IsPlaced _ m.method ∧ ∀ c ∈ m.code, places.IsPlaced _ c) :
    ∃ bs, writeMethods places previous ms = .ok bs := by
  induction ms generalizing previous with
  | nil => exact ⟨[], rfl⟩
  | cons m ms ih =>
    obtain ⟨hm, hc⟩ := h m (List.mem_cons_self ..)
    obtain ⟨index, hi⟩ := hm.exists_position
    obtain ⟨code, hcode⟩ := Places.exists_optionalOffset hc
    obtain ⟨cs, hcs⟩ := ih fun l hl => h l (List.mem_cons_of_mem m hl)
    exact ⟨_, writeMethods_cons_eq_ok.2 ⟨index, hi, code, hcode, cs, hcs, rfl⟩⟩

theorem exists_write (h : Each places.IsPlaced x.handles) : ∃ bs, x.write places = .ok bs := by
  obtain ⟨h1, h2, h3, h4⟩ := each_handles.1 h
  obtain ⟨cs1, h1⟩ := exists_writeFields h1
  obtain ⟨cs2, h2⟩ := exists_writeFields h2
  obtain ⟨cs3, h3⟩ := exists_writeMethods h3
  obtain ⟨cs4, h4⟩ := exists_writeMethods h4
  exact ⟨_, write_eq_ok.2 ⟨cs1, h1, cs2, h2, cs3, h3, cs4, h4, rfl⟩⟩

theorem exists_sizeOfFields (previous : Nat) {fs : List EncodedField}
    (h : ∀ f ∈ fs, places.IsPlaced _ f.field) :
    ∃ n, sizeOfFields places previous fs = .ok n := by
  obtain ⟨bs, hbs⟩ := exists_writeFields h
  exact ⟨_, sizeOfFields_of_write hbs⟩

/-- Code need not be placed to measure a list of methods. -/
theorem exists_sizeOfMethods (previous : Nat) {ms : List EncodedMethod}
    (h : ∀ m ∈ ms, places.IsPlaced _ m.method) :
    ∃ n, sizeOfMethods places previous ms = .ok n := by
  induction ms generalizing previous with
  | nil => exact ⟨0, rfl⟩
  | cons m ms ih =>
    obtain ⟨index, hi⟩ := (h m (List.mem_cons_self ..)).exists_position
    obtain ⟨n, hn⟩ := ih index fun l hl => h l (List.mem_cons_of_mem m hl)
    exact ⟨_, by simp only [sizeOfMethods, hi, hn, ok_bind]; rfl⟩

theorem exists_size (h : Each places.IsMeasurable x.handles) : ∃ n, x.size places = .ok n := by
  obtain ⟨h1, h2, h3, h4⟩ := each_handles.1 h
  obtain ⟨n1, h1⟩ := exists_sizeOfFields 0 fun f hf => h1 f hf rfl (by decide)
  obtain ⟨n2, h2⟩ := exists_sizeOfFields 0 fun f hf => h2 f hf rfl (by decide)
  obtain ⟨n3, h3⟩ := exists_sizeOfMethods 0 fun m hm => (h3 m hm).1 rfl (by decide)
  obtain ⟨n4, h4⟩ := exists_sizeOfMethods 0 fun m hm => (h4 m hm).1 rfl (by decide)
  exact ⟨_, by simp only [size, h1, h2, h3, h4, ok_bind]; rfl⟩

/-! ### Renaming -/

theorem writeFields_rename (previous : Nat) {fs : List EncodedField}
    (h : ∀ f ∈ fs, places.Agrees places' ρ _ f.field) :
    writeFields places' previous (fs.map (EncodedField.rename ρ)) =
      writeFields places previous fs := by
  induction fs generalizing previous with
  | nil => rfl
  | cons f fs ih =>
    have hf : places'.position (ρ _ f.field) = places.position f.field :=
      h f (List.mem_cons_self ..)
    have hfs := fun previous => ih previous fun g hg => h g (List.mem_cons_of_mem f hg)
    simp only [List.map_cons, writeFields, EncodedField.rename, hf] at hfs ⊢
    simp only [hfs]

theorem writeMethods_rename (previous : Nat) {ms : List EncodedMethod}
    (h : ∀ m ∈ ms, places.Agrees places' ρ _ m.method ∧ ∀ c ∈ m.code, places.Agrees places' ρ _ c) :
    writeMethods places' previous (ms.map (EncodedMethod.rename ρ)) =
      writeMethods places previous ms := by
  induction ms generalizing previous with
  | nil => rfl
  | cons m ms ih =>
    obtain ⟨hm, hc⟩ := h m (List.mem_cons_self ..)
    rw [Places.Agrees] at hm
    have hc := Places.optionalOffset_map hc
    have hms := fun previous => ih previous fun l hl => h l (List.mem_cons_of_mem m hl)
    simp only [List.map_cons, writeMethods, EncodedMethod.rename, hm, hc] at hms ⊢
    simp only [hms]

theorem write_rename (hx : Each (places.Agrees places' ρ) x.handles) :
    (x.rename ρ).write places' = x.write places := by
  obtain ⟨h1, h2, h3, h4⟩ := each_handles.1 hx
  simp only [write, rename, writeFields_rename _ h1, writeFields_rename _ h2,
    writeMethods_rename _ h3,
    writeMethods_rename _ h4, List.length_map]

theorem sizeOfFields_rename (previous : Nat) {fs : List EncodedField}
    (h : ∀ f ∈ fs, places.Measures places' ρ _ f.field) :
    sizeOfFields places' previous (fs.map (EncodedField.rename ρ)) =
      sizeOfFields places previous fs := by
  induction fs generalizing previous with
  | nil => rfl
  | cons f fs ih =>
    have hf : places'.position (ρ _ f.field) = places.position f.field :=
      h f (List.mem_cons_self ..) rfl
    have hfs := fun previous => ih previous fun g hg => h g (List.mem_cons_of_mem f hg)
    simp only [List.map_cons, sizeOfFields, EncodedField.rename, hf] at hfs ⊢
    simp only [hfs]

theorem codeSize_rename {o : Option (Handle .code)}
    (h : ∀ c ∈ o, places.Measures places' ρ _ c) :
    codeSize places' (o.map (ρ _)) = codeSize places o := by
  cases o with
  | none => rfl
  | some c =>
    have hc := (h c rfl rfl).position?
    simp only [Option.map_some, codeSize, hc]

theorem sizeOfMethods_rename (previous : Nat) {ms : List EncodedMethod}
    (h : ∀ m ∈ ms, places.Measures places' ρ _ m.method ∧
      ∀ c ∈ m.code, places.Measures places' ρ _ c) :
    sizeOfMethods places' previous (ms.map (EncodedMethod.rename ρ)) =
      sizeOfMethods places previous ms := by
  induction ms generalizing previous with
  | nil => rfl
  | cons m ms ih =>
    obtain ⟨hm, hc⟩ := h m (List.mem_cons_self ..)
    have hm : places'.position (ρ _ m.method) = places.position m.method := hm rfl
    have hc := codeSize_rename hc
    have hms := fun previous => ih previous fun l hl => h l (List.mem_cons_of_mem m hl)
    simp only [List.map_cons, sizeOfMethods, EncodedMethod.rename, hm, hc] at hms ⊢
    simp only [hms]

theorem size_rename (hx : Each (places.Measures places' ρ) x.handles) :
    (x.rename ρ).size places' = x.size places := by
  obtain ⟨h1, h2, h3, h4⟩ := each_handles.1 hx
  simp only [size, rename, sizeOfFields_rename _ h1, sizeOfFields_rename _ h2,
    sizeOfMethods_rename _ h3,
    sizeOfMethods_rename _ h4, List.length_map]

/-! ### Reading back -/

theorem length_le_of_writeFields {previous : Nat} {fs : List EncodedField}
    (h : writeFields places previous fs = .ok bs) : fs.length ≤ bs.length := by
  induction fs generalizing previous bs with
  | nil => exact Nat.zero_le _
  | cons f fs ih =>
    obtain ⟨index, -, cs, hcs, rfl⟩ := writeFields_cons_eq_ok.1 h
    have := ih hcs
    have := List.length_pos_iff.2 (Leb128.unsigned_ne_nil (difference index previous))
    simp only [List.length_append, List.length_cons]
    omega

theorem length_le_of_writeMethods {previous : Nat} {ms : List EncodedMethod}
    (h : writeMethods places previous ms = .ok bs) : ms.length ≤ bs.length := by
  induction ms generalizing previous bs with
  | nil => exact Nat.zero_le _
  | cons m ms ih =>
    obtain ⟨index, -, code, -, cs, hcs, rfl⟩ := writeMethods_cons_eq_ok.1 h
    have := ih hcs
    have := List.length_pos_iff.2 (Leb128.unsigned_ne_nil (difference index previous))
    simp only [List.length_append, List.length_cons]
    omega

theorem reads_fields {given : Renaming → Prop} {previous : Nat} {fs : List EncodedField}
    (hp : places.Bounded) (h : writeFields places previous fs = .ok bs) (read : List EncodedField)
    (b : Renaming → List EncodedField)
    (hb : ∀ ρ, given ρ → b ρ = read.reverse ++ fs.map (EncodedField.rename ρ)) :
    Reads places keeps given p (fieldsOnto fs.length previous read) bs b := by
  induction fs generalizing given previous bs read p with
  | nil =>
    obtain rfl := pure_eq_ok.1 h
    exact Reads.pure fun ρ hρ => by simpa using hb ρ hρ
  | cons f fs ih =>
    obtain ⟨index, hi, cs, hcs, rfl⟩ := writeFields_cons_eq_ok.1 h
    have hi := Places.position_eq_ok.1 hi
    rw [List.append_assoc, List.length_cons, fieldsOnto]
    refine (Reads.unsigned (difference_lt index previous)).bind_const ?_
    rw [add_difference previous (hp.lt_word hi)]
    refine (Reads.index rfl hi).bind_nil fun field _ => ?_
    refine (Reads.unsigned f.accessFlags.toNat_lt).bind_const ?_
    refine ih hcs _ fun ρ hρ => ?_
    rw [hb ρ hρ.1, ← hρ.2]
    simp [EncodedField.rename]

theorem reads_methods {given : Renaming → Prop} {previous : Nat} {ms : List EncodedMethod}
    (hp : places.Bounded) (h : writeMethods places previous ms = .ok bs)
    (read : List EncodedMethod) (b : Renaming → List EncodedMethod)
    (hb : ∀ ρ, given ρ → b ρ = read.reverse ++ ms.map (EncodedMethod.rename ρ)) :
    Reads places keeps given p (methodsOnto ms.length previous read) bs b := by
  induction ms generalizing given previous bs read p with
  | nil =>
    obtain rfl := pure_eq_ok.1 h
    exact Reads.pure fun ρ hρ => by simpa using hb ρ hρ
  | cons m ms ih =>
    obtain ⟨index, hi, code, hcode, cs, hcs, rfl⟩ := writeMethods_cons_eq_ok.1 h
    have hi := Places.position_eq_ok.1 hi
    rw [List.append_assoc, List.append_assoc, List.length_cons, methodsOnto]
    refine (Reads.unsigned (difference_lt index previous)).bind_const ?_
    rw [add_difference previous (hp.lt_word hi)]
    refine (Reads.unsigned m.accessFlags.toNat_lt).bind_const ?_
    refine (Reads.unsigned (hp.optionalOffset_lt hcode)).bind_const ?_
    refine (Reads.optionalOffset hp rfl hcode).bind_nil fun code _ => ?_
    refine (Reads.index rfl hi).bind_nil fun method _ => ?_
    refine ih hcs _ fun ρ hρ => ?_
    rw [hb ρ hρ.1.1, ← hρ.1.2, ← hρ.2]
    simp [EncodedMethod.rename]

theorem reads (hp : places.Bounded) (h : x.write places = .ok bs) (hlen : bs.length < 2 ^ 32) :
    Reads places keeps (fun _ => True) p decode bs fun ρ => x.rename ρ := by
  obtain ⟨cs1, h1, cs2, h2, cs3, h3, cs4, h4, rfl⟩ := write_eq_ok.1 h
  have l1 := length_le_of_writeFields h1
  have l2 := length_le_of_writeFields h2
  have l3 := length_le_of_writeMethods h3
  have l4 := length_le_of_writeMethods h4
  simp only [List.length_append] at hlen
  simp only [List.append_assoc]
  rw [← List.append_nil cs4]
  refine (Reads.unsigned (by omega)).bind_const ?_
  refine (Reads.unsigned (by omega)).bind_const ?_
  refine (Reads.unsigned (by omega)).bind_const ?_
  refine (Reads.unsigned (by omega)).bind_const ?_
  refine (reads_fields hp h1 [] _ fun _ _ => rfl).bind fun staticFields _ => ?_
  refine (reads_fields hp h2 [] _ fun _ _ => rfl).bind fun instanceFields _ => ?_
  refine (reads_methods hp h3 [] _ fun _ _ => rfl).bind fun directMethods _ => ?_
  refine (reads_methods hp h4 [] _ fun _ _ => rfl).bind fun virtualMethods _ => ?_
  refine Reads.pure fun ρ hρ => ?_
  obtain ⟨⟨⟨⟨-, rfl⟩, rfl⟩, rfl⟩, rfl⟩ := hρ
  simp [rename]

/-! ### Accepting -/

theorem yields_fields {accepted : References → Prop} (count previous : Nat)
    (read : List EncodedField) :
    Yields keeps accepted 0 (fieldsOnto count previous read) fun r fs =>
      ∃ gs, fs = read.reverse ++ gs ∧ ∀ f ∈ gs, r.Holds _ f.field := by
  induction count generalizing accepted previous read with
  | zero => exact Yields.pure fun _ _ => ⟨[], by simp⟩
  | succ count ih =>
    rw [fieldsOnto]
    refine Yields.unsigned.bind_tail fun difference _ => ?_
    refine (Yields.index rfl _).bind fun field _ => ?_
    refine Yields.unsigned.bind_tail fun flags _ => ?_
    refine (ih _ _).mono (Nat.le_refl _) ?_
    rintro r _ ⟨⟨-, -, hfield⟩, -⟩ ⟨gs, rfl, hgs⟩
    refine ⟨⟨field, UInt32.ofNat flags⟩ :: gs, by simp, fun g hg => ?_⟩
    rcases List.mem_cons.1 hg with rfl | hg
    · exact hfield
    · exact hgs g hg

theorem yields_methods {accepted : References → Prop} (count previous : Nat)
    (read : List EncodedMethod) :
    Yields keeps accepted 0 (methodsOnto count previous read) fun r ms =>
      ∃ ls, ms = read.reverse ++ ls ∧
        ∀ m ∈ ls, r.Holds _ m.method ∧ ∀ c ∈ m.code, r.Holds _ c := by
  induction count generalizing accepted previous read with
  | zero => exact Yields.pure fun _ _ => ⟨[], by simp⟩
  | succ count ih =>
    rw [methodsOnto]
    refine Yields.unsigned.bind_tail fun difference _ => ?_
    refine Yields.unsigned.bind_tail fun flags _ => ?_
    refine Yields.unsigned.bind_tail fun offset _ => ?_
    refine (Yields.optionalOffset rfl offset).bind fun code _ => ?_
    refine (Yields.index rfl _).bind fun method _ => ?_
    refine (ih _ _).mono (Nat.le_refl _) ?_
    rintro r _ ⟨⟨-, hcode⟩, -, hmethod⟩ ⟨ls, rfl, hls⟩
    refine ⟨⟨method, UInt32.ofNat flags, code⟩ :: ls, by simp, fun l hl => ?_⟩
    rcases List.mem_cons.1 hl with rfl | hl
    · exact ⟨hmethod, hcode⟩
    · exact hls l hl

theorem yields : Yields keeps (fun _ => True) 1 decode fun r x => Each r.Holds x.handles := by
  refine Yields.unsigned.bind fun staticCount _ => ?_
  refine Yields.unsigned.bind_tail fun instanceCount _ => ?_
  refine Yields.unsigned.bind_tail fun directCount _ => ?_
  refine Yields.unsigned.bind_tail fun virtualCount _ => ?_
  refine (yields_fields staticCount 0 []).bind fun staticFields _ => ?_
  refine (yields_fields instanceCount 0 []).bind fun instanceFields _ => ?_
  refine (yields_methods directCount 0 []).bind fun directMethods _ => ?_
  refine (yields_methods virtualCount 0 []).bind fun virtualMethods _ => ?_
  refine Yields.pure fun r hr => ?_
  obtain ⟨⟨⟨⟨-, ⟨_, rfl, h1⟩⟩, ⟨_, rfl, h2⟩⟩, ⟨_, rfl, h3⟩⟩, ⟨_, rfl, h4⟩⟩ := hr
  exact each_handles.2 ⟨h1, h2, h3, h4⟩

end ClassData

end DexContainer
