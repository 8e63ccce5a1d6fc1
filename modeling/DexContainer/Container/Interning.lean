import DexContainer.Container.Basic

/-! Adding content. Content that is already there is not added again; its handle is returned. New
content and a new policy end the layout: a container that was placed forgets every position. -/

namespace DexContainer.Container

/-- Forgets the layout of all sections. -/
def invalidate (c : Container) : Container :=
  Kind.readOrder.foldl (fun c k => c.modifySection k Section.invalidate) c

/-- Marks a change of content or policy. -/
def markMutated (c : Container) : Container :=
  if c.stage.isPlaced then { c.invalidate with stage := .mutated }
  else { c with stage := .mutated }

/-- Adds an item that may be added. -/
def intern {k : Kind} (c : Container) (x : Content k) :
    Except Violation (Container × Handle k) := do
  if k.isSingleton then throw (.singleton k)
  Content.check k x
  match (c.sectionOf k).find? x with
  | some h => return (c, h)
  | none =>
    let h := ⟨(c.sectionOf k).size⟩
    return ((c.modifySection k (·.append x)).markMutated, h)

/-- Adds the data of a string and the string. -/
def internString (c : Container) (text : String) :
    Except Violation (Container × Handle .stringId) := do
  let (c, data) ← c.intern (k := .stringData) (StringData.ofText text)
  c.intern (k := .stringId) ⟨data⟩

/-- Adds a descriptor and the type. -/
def internType (c : Container) (descriptor : String) :
    Except Violation (Container × Handle .typeId) := do
  let (c, descriptor) ← c.internString descriptor
  c.intern (k := .typeId) ⟨descriptor⟩

/-- Changes the policy. -/
def setPolicy (c : Container) (p : Policy) : Container :=
  if c.policy = p then c else { c with policy := p }.markMutated

/-- Switches sorting. -/
def setSortAllItems (c : Container) (value : Bool) : Container :=
  c.setPolicy { c.policy with sortAllItems := value }

/-- Switches keeping the order. -/
def setInPlace (c : Container) (value : Bool) : Container :=
  c.setPolicy { c.policy with inPlace := value }

end DexContainer.Container
