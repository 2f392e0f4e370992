import Downline.HexDigit

/-!
The BLAKE3 hash of 32 bytes. A message is cut into chunks of 1024 bytes and a chunk into blocks of 64;
the blocks of a chunk are compressed one after another, and the chunks form a binary tree whose left
parts are as large as possible.
-/

namespace Downline.Blake3

def iv : Array UInt32 :=
  #[0x6A09E667, 0xBB67AE85, 0x3C6EF372, 0xA54FF53A, 0x510E527F, 0x9B05688C, 0x1F83D9AB, 0x5BE0CD19]

/-- Where each message word goes from one round to the next. -/
def permutation : Array Nat := #[2, 6, 3, 10, 7, 0, 4, 13, 1, 11, 12, 5, 9, 14, 15, 8]

def chunkStart : UInt32 := 1
def chunkEnd : UInt32 := 2
def parent : UInt32 := 4
def root : UInt32 := 8

def rotateRight (w : UInt32) (n : UInt32) : UInt32 :=
  (w >>> n) ||| (w <<< (32 - n))

private def word (ws : Array UInt32) (i : Nat) : UInt32 := ws.getD i 0

def mix (v : Array UInt32) (a b c d : Nat) (x y : UInt32) : Array UInt32 :=
  let va := word v a + word v b + x
  let vd := rotateRight (word v d ^^^ va) 16
  let vc := word v c + vd
  let vb := rotateRight (word v b ^^^ vc) 12
  let va := va + vb + y
  let vd := rotateRight (vd ^^^ va) 8
  let vc := vc + vd
  let vb := rotateRight (vb ^^^ vc) 7
  (((v.setIfInBounds a va).setIfInBounds b vb).setIfInBounds c vc).setIfInBounds d vd

/-- One round: the columns, then the diagonals. -/
def round (v m : Array UInt32) : Array UInt32 :=
  let v := mix v 0 4 8 12 (word m 0) (word m 1)
  let v := mix v 1 5 9 13 (word m 2) (word m 3)
  let v := mix v 2 6 10 14 (word m 4) (word m 5)
  let v := mix v 3 7 11 15 (word m 6) (word m 7)
  let v := mix v 0 5 10 15 (word m 8) (word m 9)
  let v := mix v 1 6 11 12 (word m 10) (word m 11)
  let v := mix v 2 7 8 13 (word m 12) (word m 13)
  mix v 3 4 9 14 (word m 14) (word m 15)

/-- Message words in the order of the next round. -/
def permute (m : Array UInt32) : Array UInt32 := permutation.map (word m)

def rounds : Nat → Array UInt32 → Array UInt32 → Array UInt32
  | 0, v, _ => v
  | n + 1, v, m => rounds n (round v m) (permute m)

def compress (cv block : Array UInt32) (counter : Nat) (length flags : UInt32) : Array UInt32 :=
  let v := cv ++ iv.take 4 ++
    #[UInt32.ofNat counter, UInt32.ofNat (counter / UInt32.size), length, flags]
  let v := rounds 7 v block
  (Array.range 8).map fun i => word v i ^^^ word v (i + 8)

/-- The sixteen words of a block of bytes, the lowest byte first, filled up with zeros. -/
def wordsOf (bytes : List UInt8) : Array UInt32 :=
  let bs := bytes.toArray
  (Array.range 16).map fun i =>
    let b (k : Nat) : UInt32 := (bs.getD (4 * i + k) 0).toUInt32
    b 0 ||| (b 1 <<< 8) ||| (b 2 <<< 16) ||| (b 3 <<< 24)

/-- A list in parts of `n`, the last one shorter; an empty list is one empty part. -/
def parts {α : Type} (n : Nat) (l : List α) : List (List α) :=
  go l.length l
where
  go : Nat → List α → List (List α)
    | 0, l => [l]
    | k + 1, l => if l.length ≤ n then [l] else l.take n :: go k (l.drop n)

/-- The chaining value of a chunk from the blocks that are left. `flags` goes to the last one. -/
def chunkValue (counter : Nat) (flags : UInt32) :
    (cv : Array UInt32) → (first : Bool) → List (List UInt8) → Array UInt32
  | cv, _, [] => cv
  | cv, first, block :: rest =>
    let start := if first then chunkStart else 0
    let last := if rest.isEmpty then chunkEnd ||| flags else 0
    let cv := compress cv (wordsOf block) counter (UInt32.ofNat block.length) (start ||| last)
    chunkValue counter flags cv false rest

def chunk (counter : Nat) (flags : UInt32) (bytes : List UInt8) : Array UInt32 :=
  chunkValue counter flags iv true (parts 64 bytes)

def parentValue (flags : UInt32) (left right : Array UInt32) : Array UInt32 :=
  compress iv (left ++ right) 0 64 (parent ||| flags)

/-- The largest power of two below `n`, for `n` above one. -/
def leftSize (n : Nat) : Nat := Nat.pow 2 (n - 1).log2

/-- The chaining value of the tree over consecutive chunks. The fuel is the number of chunks. -/
def tree : (fuel : Nat) → (counter : Nat) → (flags : UInt32) → List (List UInt8) → Array UInt32
  | _, counter, flags, [c] => chunk counter flags c
  | 0, counter, flags, _ => chunk counter flags []
  | fuel + 1, counter, flags, cs =>
    let k := leftSize cs.length
    parentValue flags (tree fuel counter 0 (cs.take k)) (tree fuel (counter + k) 0 (cs.drop k))

def hashWords (bytes : List UInt8) : Array UInt32 :=
  let cs := parts 1024 bytes
  tree cs.length 0 root cs

/-- A word as eight hexadecimal digits, its lowest byte first. -/
def wordHex (w : UInt32) : List Char :=
  [0, 1, 2, 3].flatMap fun i => (HexDigit.ofNat 2 (w.toNat / Nat.pow 256 i)).map HexDigit.char

/-- The hash of a text, in 64 hexadecimal digits. -/
def hashHex (s : String) : String :=
  String.ofList ((hashWords s.toUTF8.toList).toList.flatMap wordHex)

end Downline.Blake3
