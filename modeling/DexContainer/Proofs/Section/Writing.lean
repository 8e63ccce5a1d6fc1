import Mathlib.Data.List.Infix
import DexContainer.Proofs.Section.Layout

/-! Writing a section. Main statements: the bytes that are written are as many as a layout from the
same offset on provides for, every item stands at the offset that the layout gives it, and nothing
but zeros stands between the items. -/

namespace DexContainer.Section

variable {k : Kind} {places : Places} {s : Section k} {out : Array UInt8}

/-- The bytes of the item behind a number. -/
def bytesOf (places : Places) (s : Section k) (id : Nat) : Written := do
  Content.write places k (← s.get ⟨id⟩)

/-- The bytes of the items in file order. -/
def contents (places : Places) (s : Section k) : Except Violation (List Bytes) :=
  s.order.toList.mapM (s.bytesOf places)

/-- Adds runs of bytes, each from an aligned offset on. -/
def appendAll (k : Kind) (out : Array UInt8) (bss : List Bytes) : Array UInt8 :=
  bss.foldl (fun out (bs : Bytes) => pad k.alignment out ++ bs) out

theorem writeItem_eq (out : Array UInt8) (id : Nat) :
    writeItem places s out id = do return pad k.alignment out ++ (← s.bytesOf places id) := by
  simp only [writeItem, bytesOf, bind_assoc]

theorem write_eq (places : Places) (s : Section k) (out : Array UInt8) :
    s.write places out = do return appendAll k out (← s.contents places) := by
  rw [write, contents, ← Array.foldlM_toList]
  generalize s.order.toList = ids
  induction ids generalizing out with
  | nil => rfl
  | cons id ids ih =>
    rw [List.foldlM_cons, List.mapM_cons, writeItem_eq]
    cases s.bytesOf places id with
    | error e => rfl
    | ok bs =>
      rw [ok_bind, ok_bind, pure_bind, ih, bind_assoc]
      cases ids.mapM (s.bytesOf places) with
      | error e => rfl
      | ok bss => rfl

theorem write_eq_ok {out' : Array UInt8} : s.write places out = .ok out' ↔
    ∃ bss, s.contents places = .ok bss ∧ appendAll k out bss = out' := by
  rw [write_eq]
  simp

theorem sizeOf_of_bytesOf {id : Nat} {bs : Bytes} (h : s.bytesOf places id = .ok bs) :
    s.sizeOf places id = .ok bs.length := by
  obtain ⟨x, hx, hbs⟩ := bind_eq_ok.1 h
  rw [sizeOf, hx, ok_bind, Content.size_of_write hbs]

theorem sizes_of_contents {bss : List Bytes} (h : s.contents places = .ok bss) :
    s.sizes places = .ok (bss.map List.length) := by
  refine mapM_eq_ok.2 (List.forall₂_map_right_iff.2 ?_)
  exact (mapM_eq_ok.1 h).imp fun _ _ => sizeOf_of_bytesOf

/-! ### Where the bytes stand -/

theorem toList_pad (alignment : Nat) (out : Array UInt8) :
    (pad alignment out).toList = out.toList ++ List.replicate (padding out.size alignment) 0 := by
  simp [pad]

theorem size_pad (k : Kind) (out : Array UInt8) :
    (pad k.alignment out).size = alignUp out.size k.alignment := by
  have := le_alignUp k out.size
  simp only [pad, Array.size_append, Array.size_replicate, padding]
  omega

theorem appendAll_cons (k : Kind) (out : Array UInt8) (bs : Bytes) (bss : List Bytes) :
    appendAll k out (bs :: bss) = appendAll k (pad k.alignment out ++ bs) bss := rfl

theorem toList_pad_append (k : Kind) (out : Array UInt8) (bs : Bytes) :
    (pad k.alignment out ++ bs).toList =
      out.toList ++ List.replicate (padding out.size k.alignment) 0 ++ bs := by
  rw [Array.toList_appendList, toList_pad]

theorem size_pad_append (k : Kind) (out : Array UInt8) (bs : Bytes) :
    (pad k.alignment out ++ bs).size = alignUp out.size k.alignment + bs.length := by
  rw [← size_pad, ← Array.length_toList, Array.toList_appendList, List.length_append,
    Array.length_toList]

theorem size_appendAll (k : Kind) (out : Array UInt8) (bss : List Bytes) :
    (appendAll k out bss).size = finishFrom k out.size (bss.map List.length) := by
  induction bss generalizing out with
  | nil => rfl
  | cons bs bss ih => rw [appendAll_cons, ih, size_pad_append, List.map_cons, finishFrom]

theorem prefix_appendAll (k : Kind) (out : Array UInt8) (bss : List Bytes) :
    out.toList <+: (appendAll k out bss).toList := by
  induction bss generalizing out with
  | nil => exact List.prefix_rfl
  | cons bs bss ih =>
    refine List.IsPrefix.trans ?_ (ih _)
    rw [toList_pad_append, List.append_assoc]
    exact List.prefix_append _ _

/-- The bytes from a cursor to the end of runs of bytes that stand one after the other. -/
def spanOf (k : Kind) (cursor : Nat) : List Bytes → Bytes
  | [] => []
  | bs :: bss => List.replicate (padding cursor k.alignment) 0 ++ bs ++
      spanOf k (alignUp cursor k.alignment + bs.length) bss

theorem toList_appendAll (k : Kind) (out : Array UInt8) (bss : List Bytes) :
    (appendAll k out bss).toList = out.toList ++ spanOf k out.size bss := by
  induction bss generalizing out with
  | nil => simp [appendAll, spanOf]
  | cons bs bss ih =>
    rw [appendAll_cons, ih, toList_pad_append, size_pad_append, spanOf]
    simp only [List.append_assoc]

theorem length_spanOf (k : Kind) (cursor : Nat) (bss : List Bytes) :
    cursor + (spanOf k cursor bss).length = finishFrom k cursor (bss.map List.length) := by
  induction bss generalizing cursor with
  | nil => rfl
  | cons bs bss ih =>
    have := le_alignUp k cursor
    simp only [spanOf, List.map_cons, finishFrom, ← ih, List.length_append, List.length_replicate,
      padding]
    omega

/-- Runs of bytes that end at aligned offsets need no zeros between them. -/
theorem spanOf_eq_flatten {cursor : Nat} {bss : List Bytes} (hc : k.alignment ∣ cursor)
    (hb : ∀ bs ∈ bss, k.alignment ∣ bs.length) : spanOf k cursor bss = bss.flatten := by
  induction bss generalizing cursor with
  | nil => rfl
  | cons bs bss ih =>
    have hbs := hb bs (List.mem_cons_self ..)
    have hnext := ih (Nat.dvd_add hc hbs) fun cs hcs => hb cs (List.mem_cons_of_mem _ hcs)
    rw [spanOf, alignUp_of_dvd hc, hnext, padding, alignUp_of_dvd hc, Nat.sub_self]
    rfl

theorem drop_of_prefix_drop {bs cs xs : Bytes} {p : Nat} (h : bs ++ cs <+: xs.drop p) :
    cs <+: xs.drop (p + bs.length) := by
  obtain ⟨tail, htail⟩ := h
  refine ⟨tail, ?_⟩
  rw [← List.drop_drop, ← htail, List.append_assoc, List.drop_left]

/-- Every run of bytes stands where a layout puts it. -/
theorem stands_of_spanOf {xs : Bytes} {cursor : Nat} {bss : List Bytes}
    (h : spanOf k cursor bss <+: xs.drop cursor) :
    List.Forall₂ (fun start bs => bs <+: xs.drop start)
      (startsFrom k cursor (bss.map List.length)) bss := by
  induction bss generalizing cursor with
  | nil => exact .nil
  | cons bs bss ih =>
    rw [spanOf, List.append_assoc] at h
    have hle := le_alignUp k cursor
    have hstart : cursor + (List.replicate (padding cursor k.alignment) (0 : UInt8)).length =
        alignUp cursor k.alignment := by
      rw [List.length_replicate, padding]
      omega
    have hrest := drop_of_prefix_drop h
    rw [hstart] at hrest
    exact .cons ((List.prefix_append _ _).trans hrest) (ih (drop_of_prefix_drop hrest))

end DexContainer.Section
