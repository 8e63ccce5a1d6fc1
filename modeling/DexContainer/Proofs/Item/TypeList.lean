import DexContainer.Item.TypeList
import DexContainer.Proofs.Reads.Primitives
import DexContainer.Proofs.Yields

/-! Lists of types as they are written and read. -/

namespace DexContainer.TypeList

variable {places places' : Places} {ρ : Renaming} {keeps : Bool} {p : Nat} {bs : Bytes}
  {x : TypeList}

/-- The handles of the list. -/
def handles (x : TypeList) : List AnyHandle := x.types.map Handle.any

/-- The list with its handles renamed. -/
def rename (ρ : Renaming) (x : TypeList) : TypeList := ⟨x.types.map (ρ _)⟩

/-- The indices of the types fit into 16 bits. -/
def IsEncodable (places : Places) (x : TypeList) : Prop := ∀ t ∈ x.types, places.FitsHalf _ t

/-- The bytes of an entry. -/
def writeEntry (places : Places) (t : Handle .typeId) : Written := do
  return Word.half (← places.position t)

theorem rename_id (x : TypeList) : x.rename (fun _ h => h) = x := by
  simp [rename]

theorem write_eq_ok : x.write places = .ok bs ↔
    ∃ cs, writeAll (writeEntry places) x.types = .ok cs ∧ Word.full x.types.length ++ cs = bs := by
  have hw : x.write places = do
    return Word.full x.types.length ++ (← writeAll (writeEntry places) x.types) := rfl
  simp [hw]

theorem writeEntry_eq_ok {t : Handle .typeId} : writeEntry places t = .ok bs ↔
    ∃ n, places.position t = .ok n ∧ Word.half n = bs := by
  simp [writeEntry]

theorem length_of_write (h : x.write places = .ok bs) : x.size = bs.length := by
  obtain ⟨cs, hcs, rfl⟩ := write_eq_ok.1 h
  have : cs.length = 2 * x.types.length := by
    refine length_of_writeAll (fun t _ bs hb => ?_) hcs
    obtain ⟨n, -, rfl⟩ := writeEntry_eq_ok.1 hb
    exact Word.half_length n
  simp [size, this]

theorem exists_write (hx : Each places.IsPlaced x.handles) : ∃ bs, x.write places = .ok bs := by
  rw [handles, each_map] at hx
  obtain ⟨cs, hcs⟩ := exists_writeAll fun t ht => by
    obtain ⟨n, hn⟩ := (hx t ht).exists_position
    exact ⟨_, writeEntry_eq_ok.2 ⟨n, hn, rfl⟩⟩
  exact ⟨_, write_eq_ok.2 ⟨cs, hcs, rfl⟩⟩

theorem write_rename (hx : Each (places.Agrees places' ρ) x.handles) :
    (x.rename ρ).write places' = x.write places := by
  rw [handles, each_map] at hx
  have hw : writeAll (writeEntry places') (x.types.map (ρ _)) =
      writeAll (writeEntry places) x.types :=
    writeAll_map _ fun t ht => by
      have ht : places'.position (ρ _ t) = places.position t := hx t ht
      simp only [writeEntry, ht]
  unfold writeEntry at hw
  simp only [write, rename, hw, List.length_map]

theorem readsEntry {t : Handle .typeId} (ht : places.FitsHalf _ t)
    (h : writeEntry places t = .ok bs) :
    Reads places keeps (fun _ => True) p (do Decoder.index .typeId (← Decoder.half)) bs
      fun ρ => ρ _ t := by
  obtain ⟨n, hn, rfl⟩ := writeEntry_eq_ok.1 h
  have hn := Places.position_eq_ok.1 hn
  rw [← List.append_nil (Word.half n)]
  exact (Reads.half (ht n hn)).bind_const (Reads.index rfl hn)

theorem reads (hx : x.IsEncodable places) (h : x.write places = .ok bs)
    (hb : bs.length < 2 ^ 32) :
    Reads places keeps (fun _ => True) p decode bs fun ρ => x.rename ρ := by
  have hlen := length_of_write h
  obtain ⟨cs, hcs, rfl⟩ := write_eq_ok.1 h
  have hcount : x.types.length < 2 ^ 32 := by
    rw [size] at hlen
    omega
  refine (Reads.word hcount).bind_const ?_
  exact (Reads.writeAll hcs fun t ht bs hb _ p => readsEntry (hx t ht) hb).map TypeList.mk

theorem yields : Yields keeps (fun _ => True) 4 decode fun r x =>
    Each r.Holds x.handles ∧ ∀ t ∈ x.types, t.id < 2 ^ 16 := by
  refine Yields.word.bind fun count _ => ?_
  have hentry : Yields keeps (fun _ => True) 0
      (do Decoder.index .typeId (← Decoder.half)) fun r t => r.Holds _ t ∧ t.id < 2 ^ 16 := by
    refine Yields.half.bind_tail fun n _ => (Yields.index rfl n).mono (Nat.le_refl _) ?_
    rintro r t ⟨-, hn⟩ ⟨rfl, ht⟩
    exact ⟨ht, hn⟩
  refine (Yields.times hentry count).bind fun types _ => Yields.pure fun r hr => ?_
  obtain ⟨-, -, h⟩ := hr
  exact ⟨each_map.2 fun t ht => (h t ht).1, fun t ht => (h t ht).2⟩

end DexContainer.TypeList
