import Mathlib.Data.List.Permutation
import DexContainer.Proofs.Container.Accepting

/-! The containers that occur in a run. Main statement: `Reachable.coherent`, whatever is read,
added, changed, laid out and written, in any order, every section holds together, and a container
that was not changed since its last layout stands as it was laid out. -/

namespace DexContainer.Container

variable {c d : Container}

/-- The containers that are made or read and then worked on in any order. -/
inductive Reachable : Container → Prop
  | empty (o : Options) : Reachable (empty o)
  | ofImage {r : RowOrder} {image : Image} {o : Options} {c : Container}
    (h : ofImage r image o = .ok c) : Reachable c
  | intern {c d : Container} {k : Kind} {x : Content k} {y : Handle k} (hc : Reachable c)
    (h : c.intern x = .ok (d, y)) : Reachable d
  | setPolicy {c : Container} (hc : Reachable c) (p : Policy) : Reachable (c.setPolicy p)
  | place {c d : Container} {fileSize : Nat} (hc : Reachable c)
    (h : c.place = .ok (d, fileSize)) : Reachable d
  | write {c d : Container} {image : Image} (hc : Reachable c) (h : c.write = .ok (d, image)) :
    Reachable d
  | toImage {c d : Container} {image : Image} (hc : Reachable c)
    (h : c.toImage = .ok (d, image)) : Reachable d

/-! ### Steps -/

theorem LaidOut.withStage {dataEnd : Nat} (h : c.LaidOut dataEnd) (stage : Stage) :
    ({ c with stage } : Container).LaidOut dataEnd :=
  ⟨h.tables, h.data, h.mapOffset, h.map, h.entries, h.dataSize⟩

theorem Coherent.withStage {dataEnd : Nat} (hc : c.Coherent) (h : c.LaidOut dataEnd)
    (stage : Stage) : ({ c with stage } : Container).Coherent :=
  ⟨hc.sections, fun _ => ⟨dataEnd, h.withStage stage⟩⟩

theorem write_eq_ok {image : Image} : c.write = .ok (d, image) ↔
    c.stage.isPlaced = true ∧ c.image = .ok image ∧ { c with stage := .written } = d := by
  rw [write]
  cases c.stage.isPlaced <;> simp

theorem toImage_eq_ok {image : Image} : c.toImage = .ok (d, image) ↔
    ∃ e fileSize out, c.place = .ok (e, fileSize) ∧ e.stage.isPlaced = true ∧ e.image = .ok out ∧
      Stamp.stamp out = .ok image ∧ { e with stage := .finalized } = d := by
  simp only [toImage, bind_eq_ok, mapError_eq_ok, pure_eq_ok, Prod.exists]
  constructor
  · rintro ⟨e, fileSize, hplace, f, out, hwrite, b, hstamp, h⟩
    cases h
    obtain ⟨hstage, himage, rfl⟩ := write_eq_ok.1 hwrite
    exact ⟨e, fileSize, out, hplace, hstage, himage, hstamp, rfl⟩
  · rintro ⟨e, fileSize, out, hplace, hstage, himage, hstamp, rfl⟩
    exact ⟨e, fileSize, hplace, _, out, write_eq_ok.2 ⟨hstage, himage, rfl⟩, image, hstamp, rfl⟩

theorem Coherent.place {fileSize : Nat} (hc : c.Coherent) (h : c.place = .ok (d, fileSize)) :
    d.Coherent :=
  coherent_of_placeWithin hc h

theorem Coherent.write {image : Image} (hc : c.Coherent) (h : c.write = .ok (d, image)) :
    d.Coherent := by
  obtain ⟨hstage, -, rfl⟩ := write_eq_ok.1 h
  obtain ⟨dataEnd, hlaid⟩ := hc.placed hstage
  exact hc.withStage hlaid _

theorem Coherent.toImage {image : Image} (hc : c.Coherent) (h : c.toImage = .ok (d, image)) :
    d.Coherent := by
  obtain ⟨e, fileSize, out, hplace, hstage, -, -, rfl⟩ := toImage_eq_ok.1 h
  have he := hc.place hplace
  obtain ⟨dataEnd, hlaid⟩ := he.placed hstage
  exact he.withStage hlaid _

/-! ### Runs -/

theorem Reachable.coherent (hc : c.Reachable) : c.Coherent := by
  induction hc with
  | empty o => exact coherent_empty o
  | ofImage h => exact (isAccepted_of_ofImage h).1.coherent
  | intern _ h ih => exact ih.intern h
  | setPolicy _ p ih => exact ih.setPolicy p
  | place _ h ih => exact ih.place h
  | write _ h ih => exact ih.write h
  | toImage _ h ih => exact ih.toImage h

theorem Reachable.internString {text : String} {h : Handle .stringId} (hc : c.Reachable)
    (hd : c.internString text = .ok (d, h)) : d.Reachable := by
  obtain ⟨⟨e, data⟩, he, hd⟩ := bind_eq_ok.1 hd
  exact .intern (.intern hc he) hd

theorem Reachable.internType {descriptor : String} {h : Handle .typeId} (hc : c.Reachable)
    (hd : c.internType descriptor = .ok (d, h)) : d.Reachable := by
  obtain ⟨⟨e, descriptor⟩, he, hd⟩ := bind_eq_ok.1 hd
  exact .intern (hc.internString he) hd

/-- A container with a method, its body and the class data that names both. -/
def oneMethod : Except Violation Container := do
  let (c, type) ← (empty {}).internType "V"
  let (c, proto) ← c.intern (k := .protoId) ⟨⟨0⟩, type, none⟩
  let (c, method) ← c.intern (k := .methodId) ⟨type, proto, ⟨0⟩⟩
  let (c, code) ← c.intern (k := .code) ⟨0, 0, 0, none, [0x000e], [], []⟩
  let (c, _) ← c.intern (k := .classData) ⟨[], [], [⟨method, 0, some code⟩], []⟩
  return c

theorem reachable_of_oneMethod (h : oneMethod = .ok c) : c.Reachable := by
  obtain ⟨⟨c1, type⟩, h1, h⟩ := bind_eq_ok.1 h
  obtain ⟨⟨c2, proto⟩, h2, h⟩ := bind_eq_ok.1 h
  obtain ⟨⟨c3, method⟩, h3, h⟩ := bind_eq_ok.1 h
  obtain ⟨⟨c4, code⟩, h4, h⟩ := bind_eq_ok.1 h
  obtain ⟨⟨c5, _⟩, h5, h⟩ := bind_eq_ok.1 h
  cases h
  exact .intern (.intern (.intern (.intern ((Reachable.empty {}).internType h1) h2) h3) h4) h5

/-- The items besides the header and the map. -/
theorem items_of_oneMethod (h : oneMethod = .ok c) :
    (c.sectionOf .stringData).items = #[⟨1, [0x56]⟩] ∧
    (c.sectionOf .stringId).items = #[⟨⟨0⟩⟩] ∧ (c.sectionOf .typeId).items = #[⟨⟨0⟩⟩] ∧
    (c.sectionOf .protoId).items = #[⟨⟨0⟩, ⟨0⟩, none⟩] ∧
    (c.sectionOf .methodId).items = #[⟨⟨0⟩, ⟨0⟩, ⟨0⟩⟩] ∧
    (c.sectionOf .code).items = #[⟨0, 0, 0, none, [0x000e], [], []⟩] ∧
    (c.sectionOf .classData).items = #[⟨[], [], [⟨⟨0⟩, 0, some ⟨0⟩⟩], []⟩] ∧
    Kind.readOrder.map (fun k => (c.sectionOf k).items.size) =
      [1, 1, 1, 1, 0, 1, 0, 1, 0, 0, 0, 0, 0, 0, 1, 1, 0, 1] := by
  have hitems : (fun c => ((c.sectionOf .stringData).items, (c.sectionOf .stringId).items,
      (c.sectionOf .typeId).items, (c.sectionOf .protoId).items, (c.sectionOf .methodId).items,
      (c.sectionOf .code).items, (c.sectionOf .classData).items,
      Kind.readOrder.map fun k => (c.sectionOf k).items.size)) <$> oneMethod =
      .ok (#[⟨1, [0x56]⟩], #[⟨⟨0⟩⟩], #[⟨⟨0⟩⟩], #[⟨⟨0⟩, ⟨0⟩, none⟩], #[⟨⟨0⟩, ⟨0⟩, ⟨0⟩⟩],
        #[⟨0, 0, 0, none, [0x000e], [], []⟩], #[⟨[], [], [⟨⟨0⟩, 0, some ⟨0⟩⟩], []⟩],
        [1, 1, 1, 1, 0, 1, 0, 1, 0, 0, 0, 0, 0, 0, 1, 1, 0, 1]) := by
    cbv
  obtain ⟨d, hd, heq⟩ := map_eq_ok.1 hitems
  cases h.symm.trans hd
  simpa only [Prod.mk.injEq] using heq

/-- The class data stands before the body, whose offset it holds. -/
theorem exists_place_oneMethod : ∃ c d, oneMethod = .ok c ∧ c.place = .ok (d, 284) ∧
    d.header.dataOffset = 140 ∧ d.header.mapOffset = 172 ∧
    d.position? (k := .classData) ⟨0⟩ = some 143 ∧ d.position? (k := .code) ⟨0⟩ = some 152 := by
  have hplace : (oneMethod >>= fun c => (fun x => (x.2, x.1.header.dataOffset,
      x.1.header.mapOffset, x.1.position? (k := .classData) ⟨0⟩,
      x.1.position? (k := .code) ⟨0⟩)) <$> c.place) =
      .ok (284, 140, 172, some 143, some 152) := by
    cbv
  obtain ⟨c, hc, hplace⟩ := bind_eq_ok.1 hplace
  obtain ⟨⟨d, fileSize⟩, hd, heq⟩ := map_eq_ok.1 hplace
  simp only [Prod.mk.injEq] at heq
  obtain ⟨rfl, hdata, hmap, hclass, hcode⟩ := heq
  exact ⟨c, d, hc, hd, hdata, hmap, hclass, hcode⟩

end DexContainer.Container
