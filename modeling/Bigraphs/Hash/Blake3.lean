/-! # BLAKE3

The hash function BLAKE3 with its default output of 32 bytes, on lists of bytes.

The input is cut into chunks of 1024 bytes and each chunk into blocks of 64. The blocks of a chunk
are compressed one after the other, each with the chaining value of the one before. The chunks are
the leaves of a binary tree in which every left subtree is full: it arises from joining neighbours,
level by level, where the last of an odd number moves up as it is. A node that still waits for its
last compression is a `Pending`: the root is compressed under a flag of its own. -/

namespace Bigraphs.Blake3

/-- Eight words: a chaining value. -/
abbrev Chain := Vector UInt32 8

/-- Sixteen words: a block of a message, or the state of a compression. -/
abbrev Block := Vector UInt32 16

/-- The initial chaining value. -/
def iv : Chain :=
  #v[0x6A09E667, 0xBB67AE85, 0x3C6EF372, 0xA54FF53A, 0x510E527F, 0x9B05688C, 0x1F83D9AB, 0x5BE0CD19]

/-! ### Flags -/

/-- The first block of a chunk. -/
def chunkStart : UInt32 := 1

/-- The last block of a chunk. -/
def chunkEnd : UInt32 := 2

/-- An inner node of the tree. -/
def parent : UInt32 := 4

/-- The root of the tree. -/
def root : UInt32 := 8

/-! ### Compression -/

/-- The word turned right by `n` bits, `0 < n < 32`. -/
def rotateRight (x : UInt32) (n : UInt32) : UInt32 := (x >>> n) ||| (x <<< (32 - n))

/-- Mixes the words `x` and `y` into the four words of the state at `a`, `b`, `c`, `d`. -/
def mix (s : Block) (a b c d : Fin 16) (x y : UInt32) : Block :=
  let s := s.set a (s[a] + s[b] + x)
  let s := s.set d (rotateRight (s[d] ^^^ s[a]) 16)
  let s := s.set c (s[c] + s[d])
  let s := s.set b (rotateRight (s[b] ^^^ s[c]) 12)
  let s := s.set a (s[a] + s[b] + y)
  let s := s.set d (rotateRight (s[d] ^^^ s[a]) 8)
  let s := s.set c (s[c] + s[d])
  s.set b (rotateRight (s[b] ^^^ s[c]) 7)

/-- A round: the columns of the state are mixed, then its diagonals. -/
def round (s m : Block) : Block :=
  let s := mix s 0 4 8 12 m[0] m[1]
  let s := mix s 1 5 9 13 m[2] m[3]
  let s := mix s 2 6 10 14 m[4] m[5]
  let s := mix s 3 7 11 15 m[6] m[7]
  let s := mix s 0 5 10 15 m[8] m[9]
  let s := mix s 1 6 11 12 m[10] m[11]
  let s := mix s 2 7 8 13 m[12] m[13]
  mix s 3 4 9 14 m[14] m[15]

/-- The order in which the words of a block enter the next round. -/
def permute (m : Block) : Block :=
  #v[m[2], m[6], m[3], m[10], m[7], m[0], m[4], m[13], m[1], m[11], m[12], m[5], m[9], m[14],
    m[15], m[8]]

/-- This many rounds, the words of the block reordered between them. -/
def rounds : Nat → Block → Block → Block
  | 0, s, _ => s
  | n + 1, s, m => rounds n (round s m) (permute m)

/-- A compression that is not carried out yet. -/
structure Pending where
  chain : Chain
  block : Block
  /-- The number of the chunk; zero for an inner node. -/
  counter : Nat
  /-- The number of bytes in the block. -/
  length : Nat
  flags : UInt32

/-- The first half of the state after the compression, both halves combined. -/
def Pending.compress (p : Pending) : Chain :=
  let h := p.chain
  let s := rounds 7
    #v[h[0], h[1], h[2], h[3], h[4], h[5], h[6], h[7], iv[0], iv[1], iv[2], iv[3],
      p.counter.toUInt32, (p.counter >>> 32).toUInt32, p.length.toUInt32, p.flags]
    p.block
  #v[s[0] ^^^ s[8], s[1] ^^^ s[9], s[2] ^^^ s[10], s[3] ^^^ s[11], s[4] ^^^ s[12], s[5] ^^^ s[13],
    s[6] ^^^ s[14], s[7] ^^^ s[15]]

/-! ### Chunks -/

/-- The pieces of `n` bytes, the last one perhaps shorter; at most `fuel` pieces. -/
def pieces (n : Nat) : Nat → List UInt8 → List (List UInt8)
  | 0, _ => []
  | _ + 1, [] => []
  | fuel + 1, bytes => bytes.take n :: pieces n fuel (bytes.drop n)

/-- The bytes as words of four, the lowest byte first, zeros after the end. -/
def words (bytes : List UInt8) : Block :=
  let byte (i : Nat) : UInt32 := (bytes.getD i 0).toUInt32
  Vector.ofFn fun i =>
    byte (4 * i) ||| (byte (4 * i + 1) <<< 8) ||| (byte (4 * i + 2) <<< 16) |||
      (byte (4 * i + 3) <<< 24)

/-- The blocks of chunk `counter`, compressed up to the last one, which is left pending. -/
def blocks (counter : Nat) (chain : Chain) (start : UInt32) : List (List UInt8) → Pending
  | [] => ⟨chain, words [], counter, 0, start ||| chunkEnd⟩
  | [b] => ⟨chain, words b, counter, b.length, start ||| chunkEnd⟩
  | b :: bs => blocks counter (Pending.compress ⟨chain, words b, counter, b.length, start⟩) 0 bs

/-- The chunk with this number. -/
def chunk (bytes : List UInt8) (counter : Nat) : Pending :=
  blocks counter iv chunkStart (pieces 64 bytes.length bytes)

/-! ### The tree -/

/-- The inner node over two nodes. -/
def join (left right : Pending) : Pending :=
  let l := left.compress
  let r := right.compress
  ⟨iv, #v[l[0], l[1], l[2], l[3], l[4], l[5], l[6], l[7], r[0], r[1], r[2], r[3], r[4], r[5], r[6],
    r[7]], 0, 64, parent⟩

/-- The next level: neighbours are joined, the last of an odd number stays. -/
def level : List Pending → List Pending
  | a :: b :: rest => join a b :: level rest
  | rest => rest

/-- The root over the nodes, after at most `fuel` levels. -/
def tree : Nat → List Pending → Pending
  | _, [] => chunk [] 0
  | _, [a] => a
  | 0, a :: _ => a
  | fuel + 1, nodes => tree fuel (level nodes)

/-- The four bytes of a word, the lowest first. -/
def wordBytes (x : UInt32) : List UInt8 :=
  [x.toUInt8, (x >>> 8).toUInt8, (x >>> 16).toUInt8, (x >>> 24).toUInt8]

/-- **The hash:** 32 bytes. -/
def hash (bytes : List UInt8) : List UInt8 :=
  let chunks := (pieces 1024 bytes.length bytes).zipIdx.map fun (b, i) => chunk b i
  let top := tree chunks.length chunks
  { top with flags := top.flags ||| root }.compress.toList.flatMap wordBytes

end Bigraphs.Blake3
