import Hypermesh.Digest.Blake3
import Hypermesh.Digest.Canonical

/-!
The digest of a hypergraph's state is the BLAKE3 hash of its canonical bytes, written in hexadecimal.
-/

namespace Hypermesh

abbrev Digest := List UInt8

namespace Digest

def hexByte (b : UInt8) : List Char :=
  [Nat.digitChar (b.toNat / 16), Nat.digitChar (b.toNat % 16)]

def hex (bytes : List UInt8) : String := .ofList (bytes.flatMap hexByte)

def short (d : Digest) : String := hex (d.take 8)

end Digest

def Hypergraph.digest (g : Hypergraph) : Digest := Blake3.hash g.canonicalBytes

end Hypermesh
