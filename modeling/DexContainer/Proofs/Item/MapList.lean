import Mathlib.Data.List.Find
import Mathlib.Data.List.Nodup
import DexContainer.Item.MapList
import DexContainer.Proofs.Reads.Primitives
import DexContainer.Proofs.Yields

/-! The map directory as it is written and read. Main statements: a directory takes four bytes and
twelve for each row, and a directory whose counts and offsets are words is read back as it was
written, save for the lengths of the sections, which the file does not hold; and
`RowOrder.find?_arrange`, the order in which a table gives back its rows does not tell which row is
found. -/

namespace DexContainer

variable {places : Places} {keeps : Bool} {given : Renaming → Prop} {p : Nat}

namespace MapEntry

variable {e : MapEntry}

/-- The count and the offset of the row are words. -/
structure IsEncodable (e : MapEntry) : Prop where
  count : e.count < 2 ^ 32
  offset : e.offset < 2 ^ 32

/-- The row that a reader sees. -/
def asRead (e : MapEntry) : MapEntry := { e with byteSize := 0 }

theorem length_write (e : MapEntry) : e.write.length = length := by
  simp [write, length]

theorem reads (he : e.IsEncodable) :
    Reads places keeps given p decode e.write fun _ => e.asRead := by
  rw [write, List.append_assoc, List.append_assoc, ← List.append_nil (Word.full e.offset)]
  refine (Reads.half e.kind.typeCode_lt).bind_const ?_
  rw [Kind.ofTypeCode?_typeCode]
  refine (Reads.pure (a := fun _ => e.kind) fun _ _ => rfl).bind_const ?_
  refine (Reads.half (by decide)).bind_const ?_
  refine (Reads.word he.count).bind_const ?_
  exact (Reads.word he.offset).bind_const (Reads.pure fun _ _ => rfl)

theorem yields : Yields keeps (fun _ => True) 2 decode fun _ e => e.IsEncodable ∧ e.asRead = e := by
  refine Yields.half.bind fun code _ => ?_
  have hrow (kind : Kind) (given : References → Prop) : Yields keeps given 0 (do
      let _ ← Decoder.half
      let count ← Decoder.word
      let offset ← Decoder.word
      return ({ kind, count, offset } : MapEntry)) fun _ e => e.IsEncodable ∧ e.asRead = e := by
    refine Yields.half.bind_tail fun _ _ => ?_
    refine Yields.word.bind_tail fun count hcount => ?_
    refine Yields.word.bind_tail fun offset hoffset => Yields.pure fun r hr => ?_
    obtain ⟨-, -, hcount⟩ := hcount
    exact ⟨⟨hcount, hr.2⟩, rfl⟩
  dsimp only
  split
  · exact hrow _ _
  · exact Yields.throw_bind

end MapEntry

namespace MapList

variable {x : MapList}

/-- The directory that a reader sees. -/
def asRead (x : MapList) : MapList := ⟨x.entries.map MapEntry.asRead⟩

/-- The rows can be read back. -/
def IsEncodable (x : MapList) : Prop := ∀ e ∈ x.entries, e.IsEncodable

theorem length_rows (es : List MapEntry) :
    (es.flatMap MapEntry.write).length = MapEntry.length * es.length := by
  induction es with
  | nil => rfl
  | cons e es ih =>
    rw [List.flatMap_cons, List.length_append, MapEntry.length_write, ih, List.length_cons]
    unfold MapEntry.length
    omega

theorem length_write (x : MapList) : x.write.length = x.size := by
  rw [write, size, List.length_append, Word.full_length, length_rows]

theorem reads (hx : x.IsEncodable) (hlen : x.size < 2 ^ 32) :
    Reads places keeps given p decode x.write fun _ => x.asRead := by
  have hcount : x.entries.length < 2 ^ 32 := by
    unfold size MapEntry.length at hlen
    omega
  refine (Reads.word hcount).bind_const ?_
  refine Reads.bind_remaining fun n hn => ?_
  rw [length_rows, Nat.mul_comm] at hn
  have hrows : ¬n / MapEntry.length < x.entries.length :=
    Nat.not_lt.2 ((Nat.le_div_iff_mul_le (by decide)).2 hn)
  rw [if_neg hrows]
  have hwrite : writeAll (fun e => .ok (MapEntry.write e)) x.entries =
      .ok (x.entries.flatMap MapEntry.write) := by
    refine writeAll_eq_ok.2 ⟨_, ?_, List.flatMap_def.symm⟩
    exact List.forall₂_map_right_iff.2 (List.forall₂_same.2 fun _ _ => rfl)
  refine (Reads.writeAll (a := fun e _ => e.asRead) hwrite fun e he bs hb _ q => ?_).map MapList.mk
  cases hb
  exact MapEntry.reads (hx e he)

theorem yields : Yields keeps (fun _ => True) 4 decode fun _ x =>
    x.IsEncodable ∧ x.asRead = x := by
  refine Yields.word.bind fun count _ => ?_
  refine Yields.remaining.bind fun n _ => ?_
  have hrows : Yields keeps (fun _ => True) 0 (MapList.mk <$> Decoder.times count MapEntry.decode)
      fun _ x => x.IsEncodable ∧ x.asRead = x := by
    refine ((Yields.times MapEntry.yields count).mono (Nat.le_refl _) fun r es _ hes => ?_).map _
    refine ⟨fun e he => (hes.2 e he).1, ?_⟩
    rw [asRead, (List.map_congr_left fun e he => (hes.2 e he).2).trans (List.map_id' es)]
  dsimp only
  split
  · exact Yields.position.bind fun _ _ => Yields.throw_bind
  · exact hrows.given_of fun _ _ => trivial

end MapList

/-! ### The table of rows -/

section Table

variable {r : RowOrder} {m : MapList} {es : List MapEntry} {e : MapEntry}

theorem RowOrder.mem_arrange : e ∈ r.arrange es ↔ e ∈ es := (r.perm es).mem_iff

/-- No kind has more than one row, so the row of a kind is found wherever it stands. -/
theorem RowOrder.find?_arrange (hn : (es.map (·.kind)).Nodup) (k : Kind) :
    (r.arrange es).find? (·.kind == k) = es.find? (·.kind == k) := by
  refine (List.find?_eq_find?_of_perm (r.perm es).symm ?_).symm
  rintro e ⟨he, hek⟩ f ⟨hf, hfk⟩
  exact List.inj_on_of_nodup_map hn he hf ((beq_iff_eq.1 hek).trans (beq_iff_eq.1 hfk).symm)

namespace MapList

theorem repeated?_eq_none_iff {seen : List Kind} : repeated? seen es = none ↔
    (es.map (·.kind)).Nodup ∧ ∀ e ∈ es, e.kind ∉ seen := by
  induction es generalizing seen with
  | nil => simp [repeated?]
  | cons e es ih =>
    rw [repeated?, List.map_cons, List.nodup_cons, List.forall_mem_cons]
    split
    · rename_i hseen
      simp [hseen]
    · rename_i hseen
      simp only [ih, List.mem_cons, not_or, List.mem_map, not_exists, not_and, hseen,
        not_false_eq_true, true_and]
      grind

theorem directory_eq_ok : m.directory r = .ok es ↔
    (m.entries.map (·.kind)).Nodup ∧ r.arrange m.entries = es := by
  rw [directory]
  cases h : repeated? [] m.entries with
  | none => simp [(repeated?_eq_none_iff.1 h).1, pure, Except.pure]
  | some k =>
    have hnot : ¬(m.entries.map (·.kind)).Nodup := fun hn => by
      rw [repeated?_eq_none_iff.2 ⟨hn, by simp⟩] at h
      cases h
    simp [hnot, throw, throwThe, MonadExceptOf.throw]

end MapList

end Table

end DexContainer
