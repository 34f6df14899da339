import Bytecode.Bytes

/-!
# BLAKE3

The hash function, in its unkeyed mode and with its default output of 32 bytes. The input is cut
into chunks of 1024 bytes, each chunk into blocks of 64 bytes. The blocks of a chunk are compressed
one after the other; the chaining values of the chunks are then joined in pairs, layer by layer,
where a last one without a partner moves up unchanged. The compression that yields the output is
marked as the root.
-/

namespace Bytecode.Digest.Blake3

/-- The eight words handed from one compression to the next. -/
abbrev ChainingValue := Vector UInt32 8

/-- The sixteen words of a block. -/
abbrev Block := Vector UInt32 16

/-- Where every chunk starts. -/
def initial : ChainingValue :=
  #v[0x6A09E667, 0xBB67AE85, 0x3C6EF372, 0xA54FF53A, 0x510E527F, 0x9B05688C, 0x1F83D9AB, 0x5BE0CD19]

/-! ## Domain flags -/

/-- Marks the first block of a chunk. -/
def chunkStart : UInt32 := 1

/-- Marks the last block of a chunk. -/
def chunkEnd : UInt32 := 2

/-- Marks the joining of two chaining values. -/
def parent : UInt32 := 4

/-- Marks the compression that yields the output. -/
def root : UInt32 := 8

/-! ## Compression -/

def rotateRight (word count : UInt32) : UInt32 :=
  (word >>> count) ||| (word <<< (32 - count))

/-- Mix two message words into a column or a diagonal of the state. -/
def mix (state : Block) (a b c d : Fin 16) (x y : UInt32) : Block :=
  let va := state[a] + state[b] + x
  let vd := rotateRight (state[d] ^^^ va) 16
  let vc := state[c] + vd
  let vb := rotateRight (state[b] ^^^ vc) 12
  let va := va + vb + y
  let vd := rotateRight (vd ^^^ va) 8
  let vc := vc + vd
  let vb := rotateRight (vb ^^^ vc) 7
  (((state.set a va a.isLt).set b vb b.isLt).set c vc c.isLt).set d vd d.isLt

/-- Mix the four columns, then the four diagonals. -/
def round (state message : Block) : Block :=
  let state := mix state 0 4 8 12 message[0] message[1]
  let state := mix state 1 5 9 13 message[2] message[3]
  let state := mix state 2 6 10 14 message[4] message[5]
  let state := mix state 3 7 11 15 message[6] message[7]
  let state := mix state 0 5 10 15 message[8] message[9]
  let state := mix state 1 6 11 12 message[10] message[11]
  let state := mix state 2 7 8 13 message[12] message[13]
  mix state 3 4 9 14 message[14] message[15]

/-- The order in which the next round takes the message words. -/
def permute (m : Block) : Block :=
  #v[m[2], m[6], m[3], m[10], m[7], m[0], m[4], m[13], m[1], m[11], m[12], m[5], m[9], m[14], m[15],
    m[8]]

/-- The given number of rounds, with the message permuted in between. -/
def rounds : Nat → Block → Block → Block
  | 0, state, _ => state
  | n + 1, state, message => rounds n (round state message) (permute message)

/-- Compress one block of `length` bytes, the `counter`-th chunk's, into a chaining value. -/
def compress (value : ChainingValue) (block : Block) (counter : UInt64) (length flags : UInt32) :
    ChainingValue :=
  let state : Block :=
    #v[value[0], value[1], value[2], value[3], value[4], value[5], value[6], value[7],
      initial[0], initial[1], initial[2], initial[3],
      counter.toUInt32, (counter >>> 32).toUInt32, length, flags]
  let state := rounds 7 state block
  #v[state[0] ^^^ state[8], state[1] ^^^ state[9], state[2] ^^^ state[10], state[3] ^^^ state[11],
    state[4] ^^^ state[12], state[5] ^^^ state[13], state[6] ^^^ state[14], state[7] ^^^ state[15]]

/-! ## Chunks -/

/-- The little-endian word at `offset`; beyond the end of the data the bytes are zero. -/
def word (data : Array UInt8) (offset : Nat) : UInt32 :=
  let byte (i : Nat) : UInt32 := (data.getD (offset + i) 0).toUInt32
  byte 0 ||| (byte 1 <<< 8) ||| (byte 2 <<< 16) ||| (byte 3 <<< 24)

/-- The block at `offset`, padded with zeros. -/
def blockAt (data : Array UInt8) (offset : Nat) : Block :=
  Vector.ofFn fun i ↦ word data (offset + 4 * i.val)

/-- The chaining value of the `index`-th chunk; `final` is the flag of its last compression beside
the chunk's own. -/
def chunkValue (data : Array UInt8) (index : Nat) (final : UInt32) : ChainingValue :=
  let start := 1024 * index
  let length := min 1024 (data.size - start)
  let blocks := max 1 ((length + 63) / 64)
  (List.range blocks).foldl
    (fun value i ↦
      let first := if i = 0 then chunkStart else 0
      let last := if i + 1 = blocks then chunkEnd ||| final else 0
      compress value (blockAt data (start + 64 * i)) (UInt64.ofNat index)
        (UInt32.ofNat (min 64 (length - 64 * i))) (first ||| last))
    initial

/-! ## The tree -/

/-- Join two neighbours. -/
def join (left right : ChainingValue) (final : UInt32) : ChainingValue :=
  compress initial (left ++ right) 0 64 (parent ||| final)

/-- The next layer of the tree. -/
def layer : List ChainingValue → List ChainingValue
  | left :: right :: rest => join left right 0 :: layer rest
  | short => short

theorem length_layer (values : List ChainingValue) :
    (layer values).length = (values.length + 1) / 2 := by
  fun_induction layer values with
  | case1 left right rest ih => simp only [List.length_cons, ih]; omega
  | case2 short h =>
    match short, h with
    | [], _ => rfl
    | [_], _ => simp
    | _ :: _ :: _, h => exact absurd rfl (h _ _ _)

/-- Join layer after layer, and mark the last joining. -/
def rootValue : List ChainingValue → ChainingValue
  | [] => initial
  | [value] => value
  | [left, right] => join left right root
  | a :: b :: c :: rest => rootValue (layer (a :: b :: c :: rest))
termination_by values => values.length
decreasing_by
  simp only [length_layer, List.length_cons]
  omega

/-- The hash of `bytes` as eight words. -/
def hashWords (bytes : Bytes) : ChainingValue :=
  let data := bytes.toArray
  if data.size ≤ 1024 then chunkValue data 0 root
  else rootValue ((List.range ((data.size + 1023) / 1024)).map fun i ↦ chunkValue data i 0)

/-- The 32 bytes of the hash of `bytes`. -/
def hash (bytes : Bytes) : Bytes :=
  (hashWords bytes).toList.flatMap fun w ↦ Bytes.littleEndian 4 w.toNat

end Bytecode.Digest.Blake3
