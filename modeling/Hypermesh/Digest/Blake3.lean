/-!
BLAKE3 with its default key and 32 bytes of output. The input is cut into chunks of 1024 bytes, the
chunks are the leaves of a binary tree whose left parts are complete, and the root is hashed with a
flag of its own.
-/

namespace Hypermesh.Blake3

abbrev Chain := Vector UInt32 8

abbrev Block := Vector UInt32 16

def initial : Chain :=
  #v[0x6a09e667, 0xbb67ae85, 0x3c6ef372, 0xa54ff53a, 0x510e527f, 0x9b05688c, 0x1f83d9ab, 0x5be0cd19]

def chunkStart : UInt32 := 1

def chunkEnd : UInt32 := 2

def parentNode : UInt32 := 4

def rootNode : UInt32 := 8

def rotate (x bits : UInt32) : UInt32 := x >>> bits ||| x <<< (32 - bits)

def quarter (s : Block) (a b c d : Fin 16) (x y : UInt32) : Block :=
  let a₁ := s[a] + s[b] + x
  let d₁ := rotate (s[d] ^^^ a₁) 16
  let c₁ := s[c] + d₁
  let b₁ := rotate (s[b] ^^^ c₁) 12
  let a₂ := a₁ + b₁ + y
  let d₂ := rotate (d₁ ^^^ a₂) 8
  let c₂ := c₁ + d₂
  let b₂ := rotate (b₁ ^^^ c₂) 7
  (((s.set a a₂).set b b₂).set c c₂).set d d₂

def mix (s m : Block) : Block :=
  let s := quarter s 0 4 8 12 m[0] m[1]
  let s := quarter s 1 5 9 13 m[2] m[3]
  let s := quarter s 2 6 10 14 m[4] m[5]
  let s := quarter s 3 7 11 15 m[6] m[7]
  let s := quarter s 0 5 10 15 m[8] m[9]
  let s := quarter s 1 6 11 12 m[10] m[11]
  let s := quarter s 2 7 8 13 m[12] m[13]
  quarter s 3 4 9 14 m[14] m[15]

def permute (m : Block) : Block :=
  #v[m[2], m[6], m[3], m[10], m[7], m[0], m[4], m[13],
    m[1], m[11], m[12], m[5], m[9], m[14], m[15], m[8]]

def rounds (s m : Block) : Block :=
  ((List.range 7).foldl (fun (s, m) _ => (mix s m, permute m)) (s, m)).1

/-- The last input of a chunk or a parent, before it is known whether it is the root. -/
structure Output where
  chain : Chain
  block : Block
  counter : UInt64
  length : UInt32
  flags : UInt32

def Output.compress (o : Output) : Chain :=
  let s := rounds (o.chain ++ #v[initial[0], initial[1], initial[2], initial[3],
    o.counter.toUInt32, (o.counter >>> 32).toUInt32, o.length, o.flags]) o.block
  .ofFn fun i => s[i.val] ^^^ s[i.val + 8]

def Output.root (o : Output) : Chain :=
  { o with counter := 0, flags := o.flags ||| rootNode }.compress

/-- Cuts a list into pieces of `size + 1` items, the last of which may be shorter. -/
def pieces (size : Nat) : List UInt8 → List (List UInt8)
  | [] => []
  | b :: bytes => (b :: bytes.take size) :: pieces size (bytes.drop size)
termination_by bytes => bytes.length
decreasing_by simp only [List.length_drop, List.length_cons]; omega

/-- Sixteen words, low bytes first, with zeros after the end of the bytes. -/
def words (bytes : List UInt8) : Block :=
  let bytes := bytes.toArray
  let byte (i : Nat) : UInt32 := (bytes.getD i 0).toUInt32
  .ofFn fun i =>
    byte (4 * i) ||| byte (4 * i + 1) <<< 8 ||| byte (4 * i + 2) <<< 16 ||| byte (4 * i + 3) <<< 24

/-- Feeds the blocks of a chunk, of which the first and the last carry a flag. -/
def chunkFrom (counter : UInt64) (chain : Chain) (flags : UInt32) : List (List UInt8) → Output
  | [] => ⟨chain, words [], counter, 0, flags ||| chunkEnd⟩
  | [block] => ⟨chain, words block, counter, block.length.toUInt32, flags ||| chunkEnd⟩
  | block :: blocks =>
    let o : Output := ⟨chain, words block, counter, block.length.toUInt32, flags⟩
    chunkFrom counter o.compress 0 blocks

def chunk (counter : Nat) (bytes : List UInt8) : Output :=
  chunkFrom counter.toUInt64 initial chunkStart (pieces 63 bytes)

def parent (left right : Chain) : Output := ⟨initial, left ++ right, 0, 64, parentNode⟩

/-- The left part of a tree over `n` chunks is the largest complete tree that leaves some to the right. -/
def leftSize (n : Nat) : Nat := 1 <<< (n - 1).log2

theorem leftSize_pos (n : Nat) : 0 < leftSize n := by
  rw [leftSize, Nat.shiftLeft_eq, Nat.one_mul]
  exact Nat.two_pow_pos _

theorem leftSize_lt {n : Nat} (h : 2 ≤ n) : leftSize n < n := by
  have := Nat.log2_self_le (n := n - 1) (by omega)
  rw [leftSize, Nat.shiftLeft_eq]
  omega

def tree (counter : Nat) (chunks : List (List UInt8)) : Output :=
  if _ : 2 ≤ chunks.length then
    let k := leftSize chunks.length
    parent (tree counter (chunks.take k)).compress (tree (counter + k) (chunks.drop k)).compress
  else chunk counter (chunks.headD [])
termination_by chunks.length
decreasing_by
  · have := leftSize_lt ‹2 ≤ chunks.length›
    simp only [List.length_take]
    omega
  · have := leftSize_pos chunks.length
    simp only [List.length_drop]
    omega

def bytesOf (w : UInt32) : List UInt8 :=
  [w.toUInt8, (w >>> 8).toUInt8, (w >>> 16).toUInt8, (w >>> 24).toUInt8]

def hash (bytes : List UInt8) : List UInt8 :=
  (tree 0 (pieces 1023 bytes)).root.toList.flatMap bytesOf

@[simp] theorem length_hash (bytes : List UInt8) : (hash bytes).length = 32 := by
  simp [hash, bytesOf, List.length_flatMap, List.map_const']

end Hypermesh.Blake3
