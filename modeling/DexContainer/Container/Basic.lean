import DexContainer.Container.Sections
import DexContainer.Options

/-! A container: its sections, its layout policy and the stage that it has reached. -/

namespace DexContainer

/-- The contents of a file. -/
structure Container where
  sections : Sections := {}
  /-- Registers in the signed form were kept when the container was read. -/
  keepsSigned : Bool := true
  policy : Policy := {}
  stage : Stage := .constructed

/-- What is known of the layout of a section. -/
structure SectionStats where
  kind : Kind
  count : Nat
  offset? : Option Nat
  byteSize : Nat
deriving DecidableEq, Repr

namespace Container

/-- A container that holds only a header and a map without rows. -/
def empty (o : Options) : Container where
  sections := { header := Section.push {} ({} : Header), map := Section.push {} ({} : MapList) }
  keepsSigned := o.preserveSignedRegisters
  policy := o.policy

/-- The section of a kind. -/
def sectionOf (c : Container) (k : Kind) : Section k := c.sections.get k

/-- Changes the section of a kind. -/
def modifySection : Container → (k : Kind) → (Section k → Section k) → Container
  | ⟨sections, keepsSigned, policy, stage⟩, k, f =>
    ⟨sections.modify k f, keepsSigned, policy, stage⟩

/-- The item behind a handle. -/
def get {k : Kind} (c : Container) (h : Handle k) : Except Violation (Content k) :=
  (c.sectionOf k).get h

/-- The handle of the header and of the map. -/
def first (k : Kind) : Handle k := ⟨0⟩

/-- The header. -/
def header (c : Container) : Header := ((c.sectionOf .header).get? (first _)).getD {}

/-- The map directory. -/
def map (c : Container) : MapList := ((c.sectionOf .mapList).get? (first _)).getD {}

/-- The position of an item. -/
def position? {k : Kind} (c : Container) (h : Handle k) : Option Nat :=
  (c.sectionOf k).position? h

/-- The positions of all items. -/
def places (c : Container) : Places where
  position? _ h := c.position? h
  table k := ((c.sectionOf k).size, (c.sectionOf k).offset?.getD 0)

/-- What is known of the layout of a section. -/
def statsOf (c : Container) (k : Kind) : SectionStats :=
  let s := c.sectionOf k
  ⟨k, s.size, s.offset?, s.byteSize⟩

/-- What is known of the layout of all sections, in the order of reading. -/
def stats (c : Container) : List SectionStats := Kind.readOrder.map c.statsOf

/-- The text of a string. -/
def text (c : Container) (h : Handle .stringId) : Except Violation String := do
  return (← c.get (← c.get h).data).text

/-- The descriptor of a type. -/
def descriptor (c : Container) (h : Handle .typeId) : Except Violation String := do
  c.text (← c.get h).descriptor

@[simp] theorem sectionOf_modifySection_self (c : Container) (k : Kind)
    (f : Section k → Section k) : (c.modifySection k f).sectionOf k = f (c.sectionOf k) := by
  cases c
  exact Sections.get_modify_self ..

theorem sectionOf_modifySection_of_ne (c : Container) {j k : Kind} (f : Section k → Section k)
    (h : j ≠ k) : (c.modifySection k f).sectionOf j = c.sectionOf j := by
  cases c
  exact Sections.get_modify_of_ne _ _ h

/-- What holds of the changed section, and of the others as they were, holds of all sections. -/
theorem forall_modifySection {c : Container} {k : Kind} {f : Section k → Section k}
    {P : (j : Kind) → Section j → Prop} (hself : P k (f (c.sectionOf k)))
    (hother : ∀ j, j ≠ k → P j (c.sectionOf j)) (j : Kind) :
    P j ((c.modifySection k f).sectionOf j) := by
  by_cases hj : j = k
  · subst hj
    rwa [sectionOf_modifySection_self]
  · rw [sectionOf_modifySection_of_ne c f hj]
    exact hother j hj

end Container

end DexContainer
