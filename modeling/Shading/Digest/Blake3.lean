import Shading.Literal

/-!
# BLAKE3

The 32-byte hash of a list of bytes. The message is cut into chunks of 1024 bytes and these into
blocks of 64; the blocks of a chunk are compressed one after the other, and the chunks are the
leaves of a binary tree whose left branches are complete. The compression at the root is marked as
such, so a vertex of the tree is kept uncompressed until its place is known. -/

namespace Shading.Blake3

abbrev Key := Vector UInt32 8

abbrev Block := Vector UInt32 16

def initialKey : Key :=
  #v[0x6A09E667, 0xBB67AE85, 0x3C6EF372, 0xA54FF53A, 0x510E527F, 0x9B05688C, 0x1F83D9AB, 0x5BE0CD19]

/-- The order in which a round leaves the words of the message to the next round. -/
def schedule : Vector (Fin 16) 16 := #v[2, 6, 3, 10, 7, 0, 4, 13, 1, 11, 12, 5, 9, 14, 15, 8]

def rotateRight (x n : UInt32) : UInt32 := (x >>> n) ||| (x <<< (32 - n))

/-- Mixes two words of the message into four words of the state. -/
def mix (v : Block) (a b c d : Fin 16) (x y : UInt32) : Block :=
  let va := v[a] + v[b] + x
  let vd := rotateRight (v[d] ^^^ va) 16
  let vc := v[c] + vd
  let vb := rotateRight (v[b] ^^^ vc) 12
  let va := va + vb + y
  let vd := rotateRight (vd ^^^ va) 8
  let vc := vc + vd
  let vb := rotateRight (vb ^^^ vc) 7
  (((v.set a va).set b vb).set c vc).set d vd

/-- One round: the columns of the state, then its diagonals. -/
def round (v m : Block) : Block :=
  let v := mix v 0 4 8 12 m[0] m[1]
  let v := mix v 1 5 9 13 m[2] m[3]
  let v := mix v 2 6 10 14 m[4] m[5]
  let v := mix v 3 7 11 15 m[6] m[7]
  let v := mix v 0 5 10 15 m[8] m[9]
  let v := mix v 1 6 11 12 m[10] m[11]
  let v := mix v 2 7 8 13 m[12] m[13]
  mix v 3 4 9 14 m[14] m[15]

def permute (m : Block) : Block := schedule.map fun i => m[i]

/-- The state after a number of rounds. -/
def rounds : Nat → Block → Block → Block
  | 0, v, _ => v
  | n + 1, v, m => rounds n (round v m) (permute m)

/-- What is compressed at a vertex of the tree. -/
structure Vertex where
  key : Key
  block : Block
  counter : Nat
  length : Nat
  flags : UInt32

def chunkStart : UInt32 := 1

def chunkEnd : UInt32 := 2

def parentFlag : UInt32 := 4

def rootFlag : UInt32 := 8

/-- Compresses a vertex into the key for the next one. -/
def Vertex.compress (o : Vertex) : Key :=
  let v : Block :=
    o.key ++ #v[0x6A09E667, 0xBB67AE85, 0x3C6EF372, 0xA54FF53A, UInt32.ofNat o.counter,
      UInt32.ofNat (o.counter >>> 32), UInt32.ofNat o.length, o.flags]
  let v := rounds 7 v o.block
  Vector.ofFn fun i : Fin 8 => v[i.val] ^^^ v[i.val + 8]

/-- The word at a position in a list of bytes, as if zeros followed its end. -/
def word (bytes : Array UInt8) (i : Nat) : UInt32 :=
  let byte (j : Nat) : UInt32 := (bytes.getD (4 * i + j) 0).toUInt32
  byte 0 ||| (byte 1 <<< 8) ||| (byte 2 <<< 16) ||| (byte 3 <<< 24)

def blockOfBytes (bytes : List UInt8) : Block :=
  let bytes := bytes.toArray
  Vector.ofFn fun i : Fin 16 => word bytes i.val

/-- Cuts a list into pieces of a given size. There is always a first piece, and the last one may be
shorter. -/
def pieces (size : Nat) (bytes : List UInt8) : List (List UInt8) :=
  if bytes.length ≤ size ∨ size = 0 then [bytes]
  else bytes.take size :: pieces size (bytes.drop size)
termination_by bytes.length
decreasing_by
  rw [List.length_drop]
  omega

/-- The last vertex of a chunk, given its blocks and the key that the blocks before them left. -/
def chunkVertex (counter : Nat) (key : Key) (flags : UInt32) : List (List UInt8) → Vertex
  | [] => ⟨key, blockOfBytes [], counter, 0, flags ||| chunkEnd⟩
  | [last] => ⟨key, blockOfBytes last, counter, last.length, flags ||| chunkEnd⟩
  | block :: blocks =>
    let o : Vertex := ⟨key, blockOfBytes block, counter, block.length, flags⟩
    chunkVertex counter o.compress 0 blocks

def leaf (chunk : List UInt8) (counter : Nat) : Vertex :=
  chunkVertex counter initialKey chunkStart (pieces 64 chunk)

def parent (left right : Vertex) : Vertex :=
  ⟨initialKey, left.compress ++ right.compress, 0, 64, parentFlag⟩

/-- Joins neighbours in pairs; a vertex without a neighbour moves up as it is. -/
def joinPairs : List Vertex → List Vertex
  | l :: r :: rest => parent l r :: joinPairs rest
  | rest => rest

theorem joinPairs_length (vs : List Vertex) : (joinPairs vs).length = (vs.length + 1) / 2 := by
  fun_induction joinPairs vs with
  | case1 l r rest ih =>
    simp only [List.length_cons, ih]
    omega
  | case2 rest h =>
    match rest with
    | [] => simp
    | [_] => simp
    | a :: b :: r => exact absurd rfl (h a b r)

/-- The root above a row of vertices. -/
def root : List Vertex → Vertex
  | [] => leaf [] 0
  | [o] => o
  | l :: r :: rest => root (joinPairs (l :: r :: rest))
termination_by vs => vs.length
decreasing_by
  rw [joinPairs_length]
  simp only [List.length_cons]
  omega

/-- The hash of a list of bytes. -/
def hash (bytes : List UInt8) : List UInt8 :=
  let top := root ((pieces 1024 bytes).zipIdx.map fun (chunk, i) => leaf chunk i)
  let key := { top with flags := top.flags ||| rootFlag }.compress
  key.toList.flatMap fun w => littleEndian 4 w.toNat

def hexDigit (n : Nat) : Char := if n < 10 then Char.ofNat (48 + n) else Char.ofNat (87 + n)

/-- Bytes in hexadecimal, two digits each. -/
def hex (bytes : List UInt8) : String :=
  String.ofList (bytes.flatMap fun b => [hexDigit (b.toNat / 16), hexDigit (b.toNat % 16)])

end Shading.Blake3
