import DexContainer.Container.Placement
import DexContainer.Stamp

/-! Writing: the bytes of a placed container, without or with its checksum and signature. -/

namespace DexContainer.Container

/-- Writes sections one after the other. -/
def writeSections (c : Container) (ks : List Kind) (out : Image) : Except Violation Image :=
  ks.foldlM (fun out k => (c.sectionOf k).write c.places out) out

/-- The bytes of a container that is laid out: the header, the tables, the data sections and the
map, which starts at an aligned offset even when it follows unaligned data. -/
def image (c : Container) : Except Violation Image := do
  let out ← c.writeSections (.header :: Kind.tables ++ Kind.dataOrder) #[]
  c.writeSections [.mapList] (Section.pad Kind.mapList.alignment out)

/-- Writes a container, which must be laid out. -/
def write (c : Container) : Except Violation (Container × Image) := do
  if !c.stage.isPlaced then throw (.notPlaced c.stage)
  let out ← c.image
  return ({ c with stage := .written }, out)

/-- Why a complete file cannot be made. -/
inductive Failure
  | violation (cause : Violation)
  | fault (cause : Fault)
deriving DecidableEq, Repr

/-- Lays out a container, writes it and stamps the bytes. -/
def toImage (c : Container) : Except Failure (Container × Image) := do
  let (c, _) ← c.place.mapError .violation
  let (c, out) ← c.write.mapError .violation
  let out ← (Stamp.stamp out).mapError .fault
  return ({ c with stage := .finalized }, out)

end DexContainer.Container
