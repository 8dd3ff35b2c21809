import CellGraph.Bytes.Hex

/-!
# The BLAKE3 hash function

The unkeyed hash with 32 bytes of output. The input is cut into chunks of 1024 bytes and those into
blocks of 64; each chunk is compressed block by block into a chaining value, and the chaining values
are merged pairwise into one, a value without a partner moving up a level unchanged.

* `Words`, `Chain`: compression states and message blocks, and chaining values;
* `compress`: one block;
* `chunkValue`, `merge`: a chunk, and the tree above the chunks;
* `hash`: the whole function, with `length_hash`.
-/

namespace CellGraph.Blake3

/-! ### Words -/

/-- Sixteen words in four rows: a compression state, or a message block. -/
structure Words where
  a0 : UInt32
  a1 : UInt32
  a2 : UInt32
  a3 : UInt32
  b0 : UInt32
  b1 : UInt32
  b2 : UInt32
  b3 : UInt32
  c0 : UInt32
  c1 : UInt32
  c2 : UInt32
  c3 : UInt32
  d0 : UInt32
  d1 : UInt32
  d2 : UInt32
  d3 : UInt32
  deriving DecidableEq, Repr, Inhabited

/-- A chaining value: eight words in two rows. -/
structure Chain where
  a0 : UInt32
  a1 : UInt32
  a2 : UInt32
  a3 : UInt32
  b0 : UInt32
  b1 : UInt32
  b2 : UInt32
  b3 : UInt32
  deriving DecidableEq, Repr, Inhabited

/-- The initial chaining value. -/
def initial : Chain :=
  ⟨0x6A09E667, 0xBB67AE85, 0x3C6EF372, 0xA54FF53A, 0x510E527F, 0x9B05688C, 0x1F83D9AB, 0x5BE0CD19⟩

/-! ### Compression -/

/-- Four words of a state, one of each row: a column or a diagonal. -/
structure Column where
  a : UInt32
  b : UInt32
  c : UInt32
  d : UInt32

/-- Rotate a word right by `n` bits, for `n` from 1 to 31. -/
@[inline] def rotateRight (n : UInt32) (w : UInt32) : UInt32 := (w >>> n) ||| (w <<< (32 - n))

/-- Mix two message words into a column. -/
@[inline] def mix (a b c d x y : UInt32) : Column :=
  let a := a + b + x
  let d := rotateRight 16 (d ^^^ a)
  let c := c + d
  let b := rotateRight 12 (b ^^^ c)
  let a := a + b + y
  let d := rotateRight 8 (d ^^^ a)
  let c := c + d
  let b := rotateRight 7 (b ^^^ c)
  ⟨a, b, c, d⟩

/-- A round: the four columns, then the four diagonals. -/
@[inline] def Words.round (s m : Words) : Words :=
  let p := mix s.a0 s.b0 s.c0 s.d0 m.a0 m.a1
  let q := mix s.a1 s.b1 s.c1 s.d1 m.a2 m.a3
  let r := mix s.a2 s.b2 s.c2 s.d2 m.b0 m.b1
  let t := mix s.a3 s.b3 s.c3 s.d3 m.b2 m.b3
  let u := mix p.a q.b r.c t.d m.c0 m.c1
  let v := mix q.a r.b t.c p.d m.c2 m.c3
  let w := mix r.a t.b p.c q.d m.d0 m.d1
  let z := mix t.a p.b q.c r.d m.d2 m.d3
  { a0 := u.a, a1 := v.a, a2 := w.a, a3 := z.a
    b0 := z.b, b1 := u.b, b2 := v.b, b3 := w.b
    c0 := w.c, c1 := z.c, c2 := u.c, c3 := v.c
    d0 := v.d, d1 := w.d, d2 := z.d, d3 := u.d }

/-- The order in which the next round takes the message words. -/
@[inline] def Words.permute (m : Words) : Words where
  a0 := m.a2
  a1 := m.b2
  a2 := m.a3
  a3 := m.c2
  b0 := m.b3
  b1 := m.a0
  b2 := m.b0
  b3 := m.d1
  c0 := m.a1
  c1 := m.c3
  c2 := m.d0
  c3 := m.b1
  d0 := m.c1
  d1 := m.d2
  d2 := m.d3
  d3 := m.c0

/-- `n` rounds, the message permuted after each. -/
def Words.rounds : Nat → Words → Words → Words
  | 0, s, _ => s
  | n + 1, s, m => (s.round m).rounds n m.permute

/-- The first block of a chunk. -/
def chunkStart : UInt32 := 1
/-- The last block of a chunk. -/
def chunkEnd : UInt32 := 2
/-- A node above the chunks. -/
def parent : UInt32 := 4
/-- The last compression of all. -/
def root : UInt32 := 8

/-- Compress a block of `size` bytes into the chaining value; `counter` numbers the chunk. -/
def compress (chain : Chain) (m : Words) (counter : Nat) (size flags : UInt32) : Chain :=
  let start : Words :=
    { a0 := chain.a0, a1 := chain.a1, a2 := chain.a2, a3 := chain.a3
      b0 := chain.b0, b1 := chain.b1, b2 := chain.b2, b3 := chain.b3
      c0 := initial.a0, c1 := initial.a1, c2 := initial.a2, c3 := initial.a3
      d0 := UInt32.ofNat counter, d1 := UInt32.ofNat (counter / 4294967296), d2 := size, d3 := flags }
  let s := start.rounds 7 m
  { a0 := s.a0 ^^^ s.c0, a1 := s.a1 ^^^ s.c1, a2 := s.a2 ^^^ s.c2, a3 := s.a3 ^^^ s.c3
    b0 := s.b0 ^^^ s.d0, b1 := s.b1 ^^^ s.d1, b2 := s.b2 ^^^ s.d2, b3 := s.b3 ^^^ s.d3 }

/-! ### Bytes and words -/

/-- The words of a byte string, the low byte of each first; missing bytes are zero. -/
def wordsOf : Bytes → List UInt32
  | [] => []
  | [a] => [a.toUInt32]
  | [a, b] => [a.toUInt32 ||| (b.toUInt32 <<< 8)]
  | [a, b, c] => [a.toUInt32 ||| (b.toUInt32 <<< 8) ||| (c.toUInt32 <<< 16)]
  | a :: b :: c :: d :: rest =>
    (a.toUInt32 ||| (b.toUInt32 <<< 8) ||| (c.toUInt32 <<< 16) ||| (d.toUInt32 <<< 24)) ::
      wordsOf rest

/-- The words of a list, missing ones being zero. -/
def padWords (words : List UInt32) : Words :=
  match words ++ List.replicate 16 0 with
  | a0 :: a1 :: a2 :: a3 :: b0 :: b1 :: b2 :: b3 ::
      c0 :: c1 :: c2 :: c3 :: d0 :: d1 :: d2 :: d3 :: _ =>
    ⟨a0, a1, a2, a3, b0, b1, b2, b3, c0, c1, c2, c3, d0, d1, d2, d3⟩
  | _ => default

/-- The first sixteen words of a list, and the words after them. -/
def takeWords (words : List UInt32) : Words × List UInt32 :=
  match words with
  | a0 :: a1 :: a2 :: a3 :: b0 :: b1 :: b2 :: b3 ::
      c0 :: c1 :: c2 :: c3 :: d0 :: d1 :: d2 :: d3 :: rest =>
    (⟨a0, a1, a2, a3, b0, b1, b2, b3, c0, c1, c2, c3, d0, d1, d2, d3⟩, rest)
  | _ => (padWords words, [])

/-- The message of a node: the chaining values of its two children. -/
def Words.ofChains (l r : Chain) : Words where
  a0 := l.a0
  a1 := l.a1
  a2 := l.a2
  a3 := l.a3
  b0 := l.b0
  b1 := l.b1
  b2 := l.b2
  b3 := l.b3
  c0 := r.a0
  c1 := r.a1
  c2 := r.a2
  c3 := r.a3
  d0 := r.b0
  d1 := r.b1
  d2 := r.b2
  d3 := r.b3

/-- The four bytes of a word, the low one first, and then `rest`. -/
@[inline] def wordBytes (w : UInt32) (rest : Bytes) : Bytes :=
  w.toUInt8 :: (w >>> 8).toUInt8 :: (w >>> 16).toUInt8 :: (w >>> 24).toUInt8 :: rest

/-- The bytes of a chaining value. -/
def Chain.bytes (c : Chain) : Bytes :=
  wordBytes c.a0 <| wordBytes c.a1 <| wordBytes c.a2 <| wordBytes c.a3 <|
    wordBytes c.b0 <| wordBytes c.b1 <| wordBytes c.b2 <| wordBytes c.b3 []

/-! ### Chunks and the tree -/

/-- Cut a list into pieces of `size` elements, the last one possibly shorter. -/
def pieces {α : Type} (size : Nat) : Nat → List α → List (List α)
  | 0, _ => []
  | fuel + 1, xs =>
    if xs.isEmpty then [] else xs.take size :: pieces size fuel (xs.drop size)

/--
Compress the blocks of a chunk in order: `more` full blocks, then the last one, of `size` bytes and
marked with `last`.
-/
def foldBlocks (counter : Nat) (size last : UInt32) : Nat → Chain → UInt32 → List UInt32 → Chain
  | 0, chain, flags, words => compress chain (takeWords words).1 counter size (flags ||| last)
  | more + 1, chain, flags, words =>
    let (block, rest) := takeWords words
    foldBlocks counter size last more (compress chain block counter 64 flags) 0 rest

/-- The chaining value of the chunk numbered `counter`. An empty chunk has one empty block. -/
def chunkValue (counter : Nat) (extra : UInt32) (chunk : Bytes) : Chain :=
  let more := (chunk.length - 1) / 64
  foldBlocks counter (UInt32.ofNat (chunk.length - 64 * more)) (chunkEnd ||| extra) more initial
    chunkStart (wordsOf chunk)

/-- The chaining value of a node. -/
def parentValue (extra : UInt32) (l r : Chain) : Chain :=
  compress initial (.ofChains l r) 0 64 (parent ||| extra)

/-- One level of the tree: neighbours are merged, a last one without a partner is kept. -/
def pairUp : List Chain → List Chain
  | l :: r :: rest => parentValue 0 l r :: pairUp rest
  | rest => rest

/-- Merge levels until two values are left, which make the root. -/
def merge : Nat → List Chain → Chain
  | _, [] => initial
  | _, [c] => c
  | _, [l, r] => parentValue root l r
  | 0, c :: _ => c
  | fuel + 1, cs => merge fuel (pairUp cs)

/-- The chaining values of the chunks, numbered from `counter`. -/
def chunkValues : Nat → List Bytes → List Chain
  | _, [] => []
  | counter, chunk :: rest => chunkValue counter 0 chunk :: chunkValues (counter + 1) rest

/-- The chaining value of the root. -/
def rootValue (input : Bytes) : Chain :=
  if input.length ≤ 1024 then chunkValue 0 root input
  else
    let chunks := pieces 1024 (input.length / 1024 + 1) input
    merge chunks.length (chunkValues 0 chunks)

/-- The hash of a byte string. -/
def hash (input : Bytes) : Bytes := (rootValue input).bytes

@[simp] theorem length_chainBytes (c : Chain) : c.bytes.length = 32 := rfl

/-- A hash has 32 bytes. -/
@[simp] theorem length_hash (input : Bytes) : (hash input).length = 32 := length_chainBytes _

end CellGraph.Blake3
