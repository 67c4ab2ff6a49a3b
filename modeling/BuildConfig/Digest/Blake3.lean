/-
The hash function BLAKE3 with thirty-two bytes of output.

The input is cut into chunks of 1024 bytes, which are the leaves of a binary tree whose
left subtrees are the largest full ones.  A leaf is the chain of compressions of the
chunk's blocks of sixty-four bytes, an inner node is one compression of the two values
below it, and the topmost compression is marked as the root.  `subtree` is that tree as
a recursion on the bytes.

A compression works on four rows of four words.  `State.mix` is the step that works on
all four columns at once; turning the rows before it makes it work on the diagonals.
-/

namespace BuildConfig.Digest.Blake3

/-! ### Rows of words -/

/-- Four words, worked on side by side. -/
structure Row where
  w0 : UInt32
  w1 : UInt32
  w2 : UInt32
  w3 : UInt32
  deriving DecidableEq

namespace Row

/-- A function of one word, on each of the four. -/
def map (f : UInt32 → UInt32) (x : Row) : Row :=
  ⟨f x.w0, f x.w1, f x.w2, f x.w3⟩

/-- A function of two words, on each of the four pairs. -/
def zip (f : UInt32 → UInt32 → UInt32) (x y : Row) : Row :=
  ⟨f x.w0 y.w0, f x.w1 y.w1, f x.w2 y.w2, f x.w3 y.w3⟩

/-- The sums of the words. -/
def add (x y : Row) : Row :=
  zip (· + ·) x y

/-- The words combined bit by bit by exclusive or. -/
def xor (x y : Row) : Row :=
  zip (· ^^^ ·) x y

/-- Every word rotated to the right. -/
def rotate (n : UInt32) (x : Row) : Row :=
  map (fun w => (w >>> n) ||| (w <<< (32 - n))) x

/-- The row moved on by one place. -/
def turn (x : Row) : Row :=
  ⟨x.w1, x.w2, x.w3, x.w0⟩

/-- The four words in order. -/
def words (x : Row) : List UInt32 :=
  [x.w0, x.w1, x.w2, x.w3]

end Row

/-- Eight words, what one compression hands to the next. -/
structure Chain where
  low : Row
  high : Row
  deriving DecidableEq

/-- The sixteen words of a block. -/
abbrev Block : Type :=
  Vector UInt32 16

/-- The words that every hash starts from. -/
def start : Chain :=
  ⟨⟨0x6A09E667, 0xBB67AE85, 0x3C6EF372, 0xA54FF53A⟩,
   ⟨0x510E527F, 0x9B05688C, 0x1F83D9AB, 0x5BE0CD19⟩⟩

/-! ### Compression -/

/-- What a compression works on. -/
structure State where
  r0 : Row
  r1 : Row
  r2 : Row
  r3 : Row

namespace State

/-- One half of a round: the words of the two rows are mixed into the columns. -/
def mix (s : State) (x y : Row) : State :=
  let r0 := (s.r0.add s.r1).add x
  let r3 := (s.r3.xor r0).rotate 16
  let r2 := s.r2.add r3
  let r1 := (s.r1.xor r2).rotate 12
  let r0 := (r0.add r1).add y
  let r3 := (r3.xor r0).rotate 8
  let r2 := r2.add r3
  let r1 := (r1.xor r2).rotate 7
  ⟨r0, r1, r2, r3⟩

/-- The diagonals become the columns. -/
def tilt (s : State) : State :=
  ⟨s.r0, s.r1.turn, s.r2.turn.turn, s.r3.turn.turn.turn⟩

/-- The columns become the diagonals they were before `tilt`. -/
def untilt (s : State) : State :=
  ⟨s.r0, s.r1.turn.turn.turn, s.r2.turn.turn, s.r3.turn⟩

/-- One round: the columns with the first half of the block, the diagonals with the second. -/
def round (s : State) (m : Block) : State :=
  let s := s.mix ⟨m[0], m[2], m[4], m[6]⟩ ⟨m[1], m[3], m[5], m[7]⟩
  (s.tilt.mix ⟨m[8], m[10], m[12], m[14]⟩ ⟨m[9], m[11], m[13], m[15]⟩).untilt

end State

/-- The order in which the next round takes the words of the block. -/
def permute (m : Block) : Block :=
  #v[m[2], m[6], m[3], m[10], m[7], m[0], m[4], m[13],
     m[1], m[11], m[12], m[5], m[9], m[14], m[15], m[8]]

/-- The given number of rounds. -/
def rounds : Nat → State → Block → State
  | 0, s, _ => s
  | n + 1, s, m => rounds n (s.round m) (permute m)

/-- What a compression is told besides its words. -/
structure Mark where
  /-- The number of the chunk. -/
  counter : UInt64
  /-- The number of bytes in the block. -/
  size : UInt32
  /-- Where in the tree the block stands, as a sum of the numbers below. -/
  place : UInt32

/-- The first block of a chunk. -/
def chunkStart : UInt32 := 1

/-- The last block of a chunk. -/
def chunkEnd : UInt32 := 2

/-- A block made of the values of two subtrees. -/
def parent : UInt32 := 4

/-- The topmost block. -/
def root : UInt32 := 8

/-- Seven rounds, after which the halves are folded onto each other. -/
def compress (chain : Chain) (block : Block) (mark : Mark) : Chain :=
  let last : Row := ⟨mark.counter.toUInt32, (mark.counter >>> 32).toUInt32, mark.size, mark.place⟩
  let s := rounds 7 ⟨chain.low, chain.high, start.low, last⟩ block
  ⟨s.r0.xor s.r2, s.r1.xor s.r3⟩

/-! ### Blocks, chunks and the tree -/

/-- The word of four bytes, the lowest first; bytes that are missing count as zero. -/
def word (bytes : Array UInt8) (offset : Nat) : UInt32 :=
  let byte (i : Nat) := (bytes.getD (offset + i) 0).toUInt32
  byte 0 ||| (byte 1 <<< 8) ||| (byte 2 <<< 16) ||| (byte 3 <<< 24)

/-- The block of at most sixty-four bytes. -/
def blockOfBytes (bytes : List UInt8) : Block :=
  let bytes := bytes.toArray
  Vector.ofFn fun i => word bytes (4 * i)

/-- The block of the values of two subtrees. -/
def blockOfChains (left right : Chain) : Block :=
  #v[left.low.w0, left.low.w1, left.low.w2, left.low.w3,
     left.high.w0, left.high.w1, left.high.w2, left.high.w3,
     right.low.w0, right.low.w1, right.low.w2, right.low.w3,
     right.high.w0, right.high.w1, right.high.w2, right.high.w3]

/-- The chain of the blocks of a chunk; `opening` marks the first and `closing` the last. -/
def chunk (counter : UInt64) (opening closing : UInt32) (chain : Chain) (bytes : List UInt8) :
    Chain :=
  if bytes.length ≤ 64 then
    compress chain (blockOfBytes bytes)
      ⟨counter, bytes.length.toUInt32, opening ||| chunkEnd ||| closing⟩
  else
    chunk counter 0 closing
      (compress chain (blockOfBytes (bytes.take 64)) ⟨counter, 64, opening⟩) (bytes.drop 64)
termination_by bytes.length
decreasing_by
  rw [List.length_drop]
  omega

/-- The bytes in the left subtree: the largest power of two of chunks that leaves some over. -/
def leftSize (size : Nat) : Nat :=
  1024 * (1 <<< Nat.log2 ((size - 1) / 1024))

private theorem leftSize_pos (size : Nat) : 0 < leftSize size := by
  rw [leftSize, Nat.one_shiftLeft]
  exact Nat.mul_pos (by decide) (Nat.pow_pos (by decide))

private theorem leftSize_lt {size : Nat} (h : 1024 < size) : leftSize size < size := by
  have hne : (size - 1) / 1024 ≠ 0 := by omega
  have := Nat.log2_self_le hne
  rw [leftSize, Nat.one_shiftLeft]
  omega

/-- The value of the subtree over the bytes, whose first chunk has the given number. -/
def subtree (first : Nat) (place : UInt32) (bytes : List UInt8) : Chain :=
  if _h : 1024 < bytes.length then
    let size := leftSize bytes.length
    let left := subtree first 0 (bytes.take size)
    let right := subtree (first + size / 1024) 0 (bytes.drop size)
    compress start (blockOfChains left right) ⟨0, 64, parent ||| place⟩
  else chunk first.toUInt64 chunkStart place start bytes
termination_by bytes.length
decreasing_by
  · rw [List.length_take]
    have := leftSize_lt _h
    omega
  · rw [List.length_drop]
    have := leftSize_pos bytes.length
    omega

/-- The bytes of a word, the lowest first. -/
def bytesOfWord (w : UInt32) : List UInt8 :=
  [w.toUInt8, (w >>> 8).toUInt8, (w >>> 16).toUInt8, (w >>> 24).toUInt8]

/-- The thirty-two bytes that the input hashes to. -/
def hash (bytes : List UInt8) : List UInt8 :=
  let top := subtree 0 root bytes
  (top.low.words ++ top.high.words).flatMap bytesOfWord

end BuildConfig.Digest.Blake3
