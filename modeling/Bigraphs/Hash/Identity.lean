import Bigraphs.Graph.Basic
import Bigraphs.Hash.Blake3

/-! # Content ids and the canonical digest

Nodes and edges have ids that only depend on their labels, so that a copy keeps the id. A bigraph
has a digest that does not depend on the order of its construction: everything in it is written as
a record that speaks of places and links by their indices, labels and names, the records are
sorted, and each enters the hash behind its length. -/

namespace Bigraphs

/-- The bytes of a string. -/
def utf8 (s : String) : List UInt8 := s.toUTF8.data.toList

/-- The id of the node with this label. -/
def nodeId (label : String) : List UInt8 := Blake3.hash (utf8 "node:" ++ utf8 label)

/-- The id of the edge with this label. -/
def edgeId (label : String) : List UInt8 := Blake3.hash (utf8 "edge:" ++ utf8 label)

/-- The digit for a number below sixteen. -/
def hexDigit (n : Nat) : Char := "0123456789abcdef".toList.getD n '0'

/-- The bytes in lower-case hexadecimal. -/
def hex (bytes : List UInt8) : String :=
  .ofList (bytes.flatMap fun b => [hexDigit (b.toNat / 16), hexDigit (b.toNat % 16)])

namespace Bigraph

variable (g : Bigraph)

/-! ### Records -/

/-- How a record speaks of place `p`. -/
def placeKey (p : PlaceId) : String :=
  match g.kind p with
  | some (.root i) => "r" ++ toString i
  | some (.site i) => "s" ++ toString i
  | some (.node d) => "n" ++ d.label
  | none => ""

/-- How a record speaks of link `l`. -/
def linkKey (l : LinkId) : String := (if g.isEdge l then "e" else "o") ++ g.linkName l

/-- The key of the parent, empty if there is none. -/
def parentKey (p : PlaceId) : String := ((g.parent p).map g.placeKey).getD ""

/-- The record of place `p`. -/
def placeRecord (p : PlaceId) : String :=
  match g.kind p with
  | some (.root i) => "r:" ++ toString i
  | some (.site i) => "s:" ++ toString i ++ "<" ++ g.parentKey p
  | some (.node d) =>
    "n:" ++ d.label ++ ":" ++ d.control.text ++ "<" ++ g.parentKey p ++ "|" ++
      ",".intercalate (d.ports.map g.linkKey)
  | none => ""

/-- The record of link `l`. -/
def linkRecord (l : LinkId) : String := "l:" ++ g.linkKey l

/-- The record of inner name `i`. -/
def innerRecord (i : InnerId) : String :=
  "i:" ++ g.innerName i ++ ">" ++ ((g.innerLink i).map g.linkKey).getD "-"

/-- **All records,** in order. -/
def records : List String :=
  sortBy (· ≤ ·)
    (g.placeIds.map g.placeRecord ++ g.linkIds.map g.linkRecord ++ g.innerIds.map g.innerRecord)

/-! ### The digest -/

/-- A number as eight bytes, the lowest first. -/
def lengthBytes (n : Nat) : List UInt8 := (List.range 8).map fun i => (n >>> (8 * i)).toUInt8

/-- The record behind its length. -/
def frame (record : String) : List UInt8 := lengthBytes (utf8 record).length ++ utf8 record

/-- What the digest hashes. -/
def digestBytes : List UInt8 := utf8 "bigraph:" ++ g.records.flatMap frame

/-- **The canonical digest.** -/
def digest : List UInt8 := Blake3.hash g.digestBytes

end Bigraph

end Bigraphs
