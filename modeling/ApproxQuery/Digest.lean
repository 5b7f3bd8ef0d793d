/-! The BLAKE3 digest of a list of bytes. The input is cut into chunks of 1024 bytes, each
chunk into blocks of 64; the chunks are the leaves of a binary tree whose left sub-trees are
complete. -/
namespace ApproxQuery

namespace Digest

abbrev Chain := Vector UInt32 8
abbrev Block := Vector UInt32 16

def initial : Chain :=
  #v[0x6A09E667, 0xBB67AE85, 0x3C6EF372, 0xA54FF53A, 0x510E527F, 0x9B05688C, 0x1F83D9AB, 0x5BE0CD19]

def chunkStart : UInt32 := 1
def chunkEnd : UInt32 := 2
def parentFlag : UInt32 := 4
def rootFlag : UInt32 := 8

def rotateRight (x count : UInt32) : UInt32 := (x >>> count) ||| (x <<< (32 - count))

/-- Mixes two message words into four words of the state. -/
def mix (v : Block) (a b c d : Fin 16) (x y : UInt32) : Block :=
  let v := v.set a (v[a] + v[b] + x)
  let v := v.set d (rotateRight (v[d] ^^^ v[a]) 16)
  let v := v.set c (v[c] + v[d])
  let v := v.set b (rotateRight (v[b] ^^^ v[c]) 12)
  let v := v.set a (v[a] + v[b] + y)
  let v := v.set d (rotateRight (v[d] ^^^ v[a]) 8)
  let v := v.set c (v[c] + v[d])
  v.set b (rotateRight (v[b] ^^^ v[c]) 7)

/-- Mixes the columns of the state, then its diagonals. -/
def round (v m : Block) : Block :=
  let v := mix v 0 4 8 12 m[0] m[1]
  let v := mix v 1 5 9 13 m[2] m[3]
  let v := mix v 2 6 10 14 m[4] m[5]
  let v := mix v 3 7 11 15 m[6] m[7]
  let v := mix v 0 5 10 15 m[8] m[9]
  let v := mix v 1 6 11 12 m[10] m[11]
  let v := mix v 2 7 8 13 m[12] m[13]
  mix v 3 4 9 14 m[14] m[15]

/-- The order in which the next round takes the message words. -/
def permute (m : Block) : Block :=
  #v[m[2], m[6], m[3], m[10], m[7], m[0], m[4], m[13], m[1], m[11], m[12], m[5], m[9], m[14],
    m[15], m[8]]

def rounds : Nat → Block → Block → Block
  | 0, v, _ => v
  | n + 1, v, m => rounds n (round v m) (permute m)

/-- One application of the compression function. -/
structure Step where
  chain : Chain
  block : Block
  counter : UInt64
  length : UInt32
  flags : UInt32

/-- The chaining value after the step, with further flags set. -/
def Step.output (s : Step) (flags : UInt32) : Chain :=
  let h := s.chain
  let start : Block :=
    #v[h[0], h[1], h[2], h[3], h[4], h[5], h[6], h[7],
      initial[0], initial[1], initial[2], initial[3],
      s.counter.toUInt32, (s.counter >>> 32).toUInt32, s.length, s.flags ||| flags]
  let v := rounds 7 start s.block
  #v[v[0] ^^^ v[8], v[1] ^^^ v[9], v[2] ^^^ v[10], v[3] ^^^ v[11], v[4] ^^^ v[12], v[5] ^^^ v[13],
    v[6] ^^^ v[14], v[7] ^^^ v[15]]

/-- Four bytes as a word, the least significant first; missing bytes are zero. -/
def word (bytes : List UInt8) : UInt32 :=
  (bytes.take 4).foldr (fun b rest => rest <<< 8 ||| b.toUInt32) 0

/-- Sixty-four bytes as words; missing bytes are zero. -/
def blockOf (bytes : List UInt8) : Block := Vector.ofFn fun i : Fin 16 => word (bytes.drop (4 * i))

/-- The blocks of a chunk but for the last are chained; the last is left as a step. -/
def chunkSteps (counter : UInt64) : Nat → Chain → UInt32 → List UInt8 → Step
  | 0, chain, flags, bytes => ⟨chain, blockOf bytes, counter, 0, flags⟩
  | fuel + 1, chain, flags, bytes =>
    let block := bytes.take 64
    let rest := bytes.drop 64
    let step : Step := ⟨chain, blockOf block, counter, block.length.toUInt32, flags⟩
    if rest.isEmpty then { step with flags := flags ||| chunkEnd }
    else chunkSteps counter fuel (step.output 0) 0 rest

/-- The last step of a chunk. -/
def chunk (counter : Nat) (bytes : List UInt8) : Step :=
  chunkSteps counter.toUInt64 16 initial chunkStart bytes

/-- Cuts the input into chunks; the empty input is one empty chunk. -/
def chunks : Nat → List UInt8 → List (List UInt8)
  | 0, bytes => [bytes]
  | fuel + 1, bytes =>
    let rest := bytes.drop 1024
    if rest.isEmpty then [bytes] else bytes.take 1024 :: chunks fuel rest

/-- The greatest power of two below a number above one. -/
def leftSize (count : Nat) : Nat := 1 <<< Nat.log2 (count - 1)

/-- The last step of the tree over the steps of some neighbouring chunks. -/
def tree : Nat → List Step → Step
  | 0, steps => steps.headD (chunk 0 [])
  | fuel + 1, steps =>
    match steps with
    | [] => chunk 0 []
    | [step] => step
    | steps =>
      let size := leftSize steps.length
      let left := (tree fuel (steps.take size)).output 0
      let right := (tree fuel (steps.drop size)).output 0
      ⟨initial, left ++ right, 0, 64, parentFlag⟩

def bytesOfWord (w : UInt32) : List UInt8 :=
  [w.toUInt8, (w >>> 8).toUInt8, (w >>> 16).toUInt8, (w >>> 24).toUInt8]

end Digest

/-- A digest of 256 bits. -/
structure Digest where
  bytes : List UInt8
deriving DecidableEq, Repr, Inhabited

namespace Digest

def ofBytes (bytes : List UInt8) : Digest :=
  let parts := chunks (bytes.length / 1024 + 1) bytes
  let steps := parts.zipIdx.map fun (part, i) => chunk i part
  ⟨((tree steps.length steps).output rootFlag).toList.flatMap bytesOfWord⟩

/-- The digest of a text is that of its UTF-8 bytes. -/
def ofText (text : String) : Digest := ofBytes text.toUTF8.toList

def hexByte (b : UInt8) : List Char :=
  [(Nat.toDigits 16 (b.toNat / 16)).headD '0', (Nat.toDigits 16 (b.toNat % 16)).headD '0']

/-- Two lower-case hexadecimal digits for each byte. -/
def hex (d : Digest) : String := String.ofList (d.bytes.flatMap hexByte)

/-- The first twelve hexadecimal digits. -/
def short (d : Digest) : String := String.ofList ((d.bytes.flatMap hexByte).take 12)

end Digest

end ApproxQuery
