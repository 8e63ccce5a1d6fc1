import DexContainer.Container.Basic
import DexContainer.Text.Columns
import DexContainer.Text.Structured

/-! The report on a file: what its header says, the rows of its map and the lengths of its
sections, as a table or as structured text. -/

namespace DexContainer.Report

open Structured

/-- The checksum that the header holds. -/
def checksum (c : Container) : String := Hexadecimal.markedPadded 8 c.header.checksum.toNat

/-- The signature that the header holds. -/
def signature (c : Container) : String := Hexadecimal.bytes c.header.signature.toList

/-- A line of the table of sections. -/
def row (kind count offset : String) : String :=
  "  " ++ Columns.left 28 kind ++ " " ++ Columns.right 8 count ++ " " ++
    Columns.right 10 offset ++ "\n"

/-- The line of a row of the map. -/
def rowOfEntry (e : MapEntry) : String :=
  row e.kind.name (toString e.count) (Hexadecimal.marked e.offset)

/-- The report as a table. -/
def table (file : String) (c : Container) : String :=
  file ++ "\n  version    " ++ c.header.version ++ "\n  file size  " ++
    toString c.header.fileSize ++ "\n  checksum   " ++ checksum c ++ "\n  signature  " ++
    signature c ++ "\n\n" ++ row "kind" "count" "offset" ++
    String.join (c.map.entries.map rowOfEntry)

/-- A row of the map as a structured value. -/
def treeOfEntry (e : MapEntry) : Tree :=
  .object [("kind", .text e.kind.key), ("count", .number e.count), ("offset", .number e.offset),
    ("byte_size", .number e.byteSize)]

/-- What is known of a section as a structured value. -/
def treeOfStats (s : SectionStats) : Tree :=
  .object [("kind", .text s.kind.key), ("count", .number s.count),
    ("offset", (s.offset?.map Tree.number).getD .absent), ("byte_size", .number s.byteSize)]

/-- The report as structured text. -/
def structured (c : Container) : String :=
  render 0 (.object [
    ("version", .text c.header.version),
    ("file_size", .number c.header.fileSize),
    ("checksum", .text (checksum c)),
    ("signature", .text (signature c)),
    ("map", .array (c.map.entries.map treeOfEntry)),
    ("sections", .array (c.stats.map treeOfStats))]) ++ "\n"

end DexContainer.Report
