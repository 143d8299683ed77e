import StreamingFft.Numeric.Power
/-!
The BLAKE3 digest of a byte string: chunks of 1024 bytes in blocks of 64, joined by a binary tree.
-/
namespace StreamingFft.Blake3

abbrev ChainingValue := Vector UInt32 8

abbrev Block := Vector UInt32 16

def initial : ChainingValue :=
  #v[0x6A09E667, 0xBB67AE85, 0x3C6EF372, 0xA54FF53A, 0x510E527F, 0x9B05688C, 0x1F83D9AB, 0x5BE0CD19]

/-- Message word `i` of a round comes from this place of the round before. -/
def schedule : Vector (Fin 16) 16 :=
  #v[2, 6, 3, 10, 7, 0, 4, 13, 1, 11, 12, 5, 9, 14, 15, 8]

def chunkStart : UInt32 := 1
def chunkEnd : UInt32 := 2
def parent : UInt32 := 4
def root : UInt32 := 8

def rotateRight (w : UInt32) (k : UInt32) : UInt32 :=
  (w >>> k) ||| (w <<< (32 - k))

/-- Mixes two message words into four words of the state. -/
def mix (v : Block) (a b c d : Fin 16) (x y : UInt32) : Block :=
  let va := v[a] + v[b] + x
  let vd := rotateRight (v[d] ^^^ va) 16
  let vc := v[c] + vd
  let vb := rotateRight (v[b] ^^^ vc) 12
  let va' := va + vb + y
  let vd' := rotateRight (vd ^^^ va') 8
  let vc' := vc + vd'
  let vb' := rotateRight (vb ^^^ vc') 7
  (((v.set a va').set b vb').set c vc').set d vd'

/-- Mixes the columns, then the diagonals. -/
def round (v m : Block) : Block :=
  let v := mix v 0 4 8 12 m[0] m[1]
  let v := mix v 1 5 9 13 m[2] m[3]
  let v := mix v 2 6 10 14 m[4] m[5]
  let v := mix v 3 7 11 15 m[6] m[7]
  let v := mix v 0 5 10 15 m[8] m[9]
  let v := mix v 1 6 11 12 m[10] m[11]
  let v := mix v 2 7 8 13 m[12] m[13]
  mix v 3 4 9 14 m[14] m[15]

def rounds : (count : Nat) → (state message : Block) → Block
  | 0, v, _ => v
  | count + 1, v, m => rounds count (round v m) (Vector.ofFn fun i => m[schedule[i]])

/-- Compresses a block into a chaining value. -/
def compress (cv : ChainingValue) (message : Block) (counter : Nat) (length flags : UInt32) :
    ChainingValue :=
  let v : Block :=
    #v[cv[0], cv[1], cv[2], cv[3], cv[4], cv[5], cv[6], cv[7],
      initial[0], initial[1], initial[2], initial[3],
      counter.toUInt32, (counter / 2 ^ 32).toUInt32, length, flags]
  let v := rounds 7 v message
  Vector.ofFn fun i : Fin 8 => v[i.val] ^^^ v[i.val + 8]

/-- Four bytes as a word, least significant first; bytes past the end count as zero. -/
def wordAt (bytes : Array UInt8) (start : Nat) : UInt32 :=
  let byte (i : Nat) : UInt32 := (bytes[start + i]?.getD 0).toUInt32
  byte 0 ||| (byte 1 <<< 8) ||| (byte 2 <<< 16) ||| (byte 3 <<< 24)

/-- The block of 64 bytes that begins at `start`. -/
def blockAt (bytes : Array UInt8) (start : Nat) : Block :=
  Vector.ofFn fun i => wordAt bytes (start + 4 * i.val)

/-- Blocks of a chunk of `length` bytes; an empty chunk still has one. -/
def blockCount (length : Nat) : Nat :=
  max 1 ((length + 63) / 64)

/-- Chains the blocks of one chunk; `last` is added to the flags of its final block. -/
def chunkValue (bytes : Array UInt8) (index : Nat) (last : UInt32) : ChainingValue :=
  let start := 1024 * index
  let length := min 1024 (bytes.size - start)
  let count := blockCount length
  (List.range count).foldl
    (fun cv i =>
      let flags := (if i = 0 then chunkStart else 0) |||
        (if i + 1 = count then chunkEnd ||| last else 0)
      compress cv (blockAt bytes (start + 64 * i)) index
        (min 64 (length - 64 * i)).toUInt32 flags)
    initial

/-- Joins two subtrees. -/
def join (left right : ChainingValue) (last : UInt32) : ChainingValue :=
  compress initial (left ++ right) 0 64 (parent ||| last)

/-- Joins neighbours; an odd one out moves up unchanged. -/
def level : List ChainingValue → List ChainingValue
  | a :: b :: rest => join a b 0 :: level rest
  | rest => rest

theorem length_level_le (cvs : List ChainingValue) : (level cvs).length ≤ cvs.length := by
  fun_induction level cvs with
  | case1 a b rest ih =>
    rw [List.length_cons, List.length_cons, List.length_cons]
    omega
  | case2 rest _ => exact Nat.le_refl _

/-- Joins level by level until two subtrees remain, whose parent is the root. -/
def joinAll : List ChainingValue → ChainingValue
  | [] => initial
  | [a] => a
  | [a, b] => join a b root
  | a :: b :: c :: rest => joinAll (level (a :: b :: c :: rest))
termination_by cvs => cvs.length
decreasing_by
  have := length_level_le (c :: rest)
  simp only [level, List.length_cons] at this ⊢
  omega

def chunkCount (length : Nat) : Nat :=
  max 1 ((length + 1023) / 1024)

/-- The 256-bit digest as eight words. -/
def digest (bytes : List UInt8) : ChainingValue :=
  let data := bytes.toArray
  let count := chunkCount data.size
  if count = 1 then chunkValue data 0 root
  else joinAll ((List.range count).map fun i => chunkValue data i 0)

/-- A byte as two lowercase hexadecimal digits. -/
def hexByte (b : Nat) : List Char :=
  [Nat.digitChar (b / 16 % 16), Nat.digitChar (b % 16)]

/-- A digest in hexadecimal, each word least significant byte first. -/
def hex (cv : ChainingValue) : String :=
  String.ofList <| cv.toList.flatMap fun w =>
    (List.range 4).flatMap fun i => hexByte (w.toNat / 256 ^ i % 256)

end StreamingFft.Blake3
