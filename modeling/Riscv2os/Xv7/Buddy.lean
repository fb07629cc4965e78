import Riscv2os.Std.Loops
import Riscv2os.Std.Ring
import Riscv2os.Xv7.Kernel

/-!
# The buddy allocator

`buddy.c` with the lists of `list.c`. A pointer is its distance from `bd_base`, which is a
multiple of `LEAF_SIZE`. The bit arrays lie behind one another in the heap: they are one
sequence of bits, so that an index behind the end of an array reads the next one. What the
arrays do not cover is out of bounds, and so is a negative index. An `int` wraps.
-/

namespace Riscv2os.Xv7

open Riscv2os.Std

namespace Buddy

/-- A conversion to `int`. -/
def toInt (n : Int) : Int := Int.bmod n (2 ^ 32)

def LEAF_SIZE : Int := 16

def BLK_SIZE (k : Nat) : Int := 2 ^ k * LEAF_SIZE

/-- `NBLK(k)` for `nsizes` sizes. -/
def NBLK (nsizes k : Nat) : Nat := 2 ^ (nsizes - 1 - k)

/-- `HEAP_SIZE` for `nsizes` sizes. -/
def HEAP_SIZE (nsizes : Nat) : Int := BLK_SIZE (nsizes - 1)

/-- `sizeof(Sz_info)`. -/
def SZ_INFO : Nat := 32

/-- `ROUNDUP(NBLK(k), 8)/8`: the bytes of a bit array. -/
def bitBytes (nsizes k : Nat) : Nat := (NBLK nsizes k - 1) / 8 + 1

/-- `bd_sizes[k].alloc`. The arrays follow the sizes. -/
def allocAt (nsizes : Nat) : Nat → Nat
  | 0 => SZ_INFO * nsizes
  | k + 1 => allocAt nsizes k + bitBytes nsizes k

/-- `bd_sizes[k + 1].split`. There is no such array for the smallest size. -/
def splitAtSucc (nsizes : Nat) : Nat → Nat
  | 0 => allocAt nsizes nsizes
  | k + 1 => splitAtSucc nsizes k + bitBytes nsizes (k + 1)

/-- `bd_sizes[k].split` for a size that can be split. -/
def splitAt (nsizes k : Nat) : Nat := splitAtSucc nsizes (k - 1)

/-- The end of the bit arrays. -/
def arraysEnd (nsizes : Nat) : Nat := splitAt nsizes nsizes

/-- The end of the data structures, rounded up. -/
def metaEnd (nsizes : Nat) : Int := ((arraysEnd nsizes + 15) / 16 * 16 : Nat)

/-- `&bd_sizes[k].free`. -/
def freeHead (k : Nat) : Int := SZ_INFO * k

/-- `blk_index`. -/
def blkIndex (k : Nat) (p : Int) : Int := (toInt p).tdiv (BLK_SIZE k)

/-- `blk_index_next`: the first block that does not contain `p`. -/
def blkIndexNext (k : Nat) (p : Int) : Int :=
  let n := toInt (p.tdiv (BLK_SIZE k))
  if p.tmod (BLK_SIZE k) ≠ 0 then n + 1 else n

/-- `addr`. -/
def addr (k : Nat) (bi : Int) : Int := toInt (bi * BLK_SIZE k)

/-- The loop of `firstk`. A size that has overflowed to zero never gets large enough. -/
def firstkLoop : Nat → Nat → Nat → Nat → Except Fault Nat
  | 0, _, _, _ => .error .endless
  | rounds + 1, k, size, n =>
      if size < n then firstkLoop rounds (k + 1) (size * 2 % 2 ^ 64) n else .ok k

/-- The first size that is large enough. -/
def firstk (n : Nat) : Except Fault Nat := firstkLoop 64 0 LEAF_SIZE.toNat n

/-- `lst_remove`. -/
def lstRemove (links : Links Int) (e : Int) : Links Int :=
  let links := links.setNext (links.prev e) (links.next e)
  links.setPrev (links.next e) (links.prev e)

/-- `lst_push`. -/
def lstPush (links : Links Int) (lst p : Int) : Links Int :=
  let links := links.setNext p (links.next lst)
  let links := links.setPrev p lst
  let links := links.setPrev (links.next lst) p
  links.setNext lst p

def lstEmpty (links : Links Int) (lst : Int) : Bool := links.next lst == lst

def lstInit (links : Links Int) (lst : Int) : Links Int := (links.setNext lst lst).setPrev lst lst

/-- `lst_pop`. -/
def lstPop (links : Links Int) (lst : Int) : Except Fault (Int × Links Int) :=
  if links.next lst = lst then .error (.panic "lst_pop")
  else .ok (links.next lst, lstRemove links (links.next lst))

end Buddy

open Buddy

/-- The allocator: the number of sizes, the bits of its arrays, and the links of the list
nodes, which are the heads of the free lists and the free blocks. -/
structure Bd where
  nsizes : Nat
  bits : Nat → Bool
  links : Links Int

namespace Bd

/-- `MAXSIZE`. -/
def maxsize (s : Bd) : Nat := s.nsizes - 1

/-- The place of a bit among all bits. -/
def place (s : Bd) (array : Nat) (index : Int) : Except Fault Nat :=
  if index < 0 ∨ 8 * arraysEnd s.nsizes ≤ 8 * array + index.toNat then .error .outOfBounds
  else .ok (8 * array + index.toNat)

def bitIsset (s : Bd) (array : Nat) (index : Int) : Except Fault Bool := do
  return s.bits (← s.place array index)

/-- `bit_set` and `bit_clear`. -/
def bitPut (s : Bd) (array : Nat) (index : Int) (value : Bool) : Except Fault Bd := do
  let at_ ← s.place array index
  return { s with bits := Function.update s.bits at_ value }

/-- The loop of `bd_malloc` that splits the block `p` from the size `k` down to `fk`. -/
def splitDown (p : Int) (fk : Nat) : Nat → Bd → Except Fault Bd
  | 0, s => .ok s
  | k + 1, s =>
      if fk < k + 1 then do
        let q := p + BLK_SIZE k
        let s ← s.bitPut (splitAt s.nsizes (k + 1)) (blkIndex (k + 1) p) true
        let s ← s.bitPut (allocAt s.nsizes k) (blkIndex k p) true
        splitDown p fk k { s with links := lstPush s.links (freeHead k) q }
      else .ok s

/-- `bd_malloc`. The result is `none` for the null pointer. -/
def bdMalloc (s : Bd) (nbytes : Nat) : Except Fault (Option Int × Bd) := do
  let fk ← firstk nbytes
  match (List.range' fk (s.nsizes - fk)).find? fun k => !lstEmpty s.links (freeHead k) with
  | none => return (none, s)
  | some k => do
      let (p, links) ← lstPop s.links (freeHead k)
      let s ← { s with links := links }.bitPut (allocAt s.nsizes k) (blkIndex k p) true
      let s ← splitDown p fk k s
      return (some p, s)

/-- The loop of `size` from the size `k` on. The split bits of `bd_sizes[nsizes]` are behind
the end of the table. -/
def sizeLoop (s : Bd) (p : Int) : Nat → Nat → Except Fault Nat
  | 0, _ => .ok 0
  | rounds + 1, k =>
      if k + 1 ≥ s.nsizes then .error .outOfBounds
      else do
        if ← s.bitIsset (splitAt s.nsizes (k + 1)) (blkIndex (k + 1) p) then return k
        else s.sizeLoop p rounds (k + 1)

/-- `size`: the size of the block that `p` points to. -/
def size (s : Bd) (p : Int) : Except Fault Nat := s.sizeLoop p s.nsizes 0

/-- The loop of `bd_free`, which merges the block `p` of the size `k` with its buddies. -/
def mergeUp : Nat → Nat → Int → Bd → Except Fault (Nat × Int × Bd)
  | 0, k, p, s => .ok (k, p, s)
  | rounds + 1, k, p, s => do
      let bi := blkIndex k p
      let buddy := if bi.tmod 2 = 0 then bi + 1 else bi - 1
      let s ← s.bitPut (allocAt s.nsizes k) bi false
      if ← s.bitIsset (allocAt s.nsizes k) buddy then return (k, p, s)
      else do
        let q := addr k buddy
        let p := if buddy.tmod 2 = 0 then q else p
        let s ← { s with links := lstRemove s.links q }.bitPut (splitAt s.nsizes (k + 1))
          (blkIndex (k + 1) p) false
        mergeUp rounds (k + 1) p s

/-- `bd_free`. -/
def bdFree (s : Bd) (p : Int) : Except Fault Bd := do
  let k ← s.size p
  let (k, p, s) ← mergeUp (s.maxsize - k) k p s
  return { s with links := lstPush s.links (freeHead k) p }

/-- The part of `bd_mark` for the size `k`. -/
def markLevel (start stop : Int) (s : Bd) (k : Nat) : Except Fault Bd :=
  let bi := blkIndex k start
  let bj := blkIndexNext k stop
  (List.range (bj - bi).toNat).foldlM (fun s (j : Nat) => do
    -- if a block is allocated at size k, mark it as split too
    let s ← if k > 0 then s.bitPut (splitAt s.nsizes k) (bi + j) true else .ok s
    s.bitPut (allocAt s.nsizes k) (bi + j) true) s

/-- `bd_mark`. -/
def bdMark (s : Bd) (start stop : Int) : Except Fault Bd :=
  if start % LEAF_SIZE ≠ 0 ∨ stop % LEAF_SIZE ≠ 0 then .error (.panic "bd_mark")
  else (List.range s.nsizes).foldlM (markLevel start stop) s

/-- `bd_initfree_pair`. -/
def bdInitfreePair (s : Bd) (k : Nat) (bi : Int) : Except Fault (Int × Bd) := do
  let buddy := if bi.tmod 2 = 0 then bi + 1 else bi - 1
  let mine ← s.bitIsset (allocAt s.nsizes k) bi
  let other ← s.bitIsset (allocAt s.nsizes k) buddy
  if mine ≠ other then
    let block := if mine then addr k buddy else addr k bi
    return (toInt (BLK_SIZE k), { s with links := lstPush s.links (freeHead k) block })
  else return (0, s)

/-- The part of `bd_initfree` for the size `k`. -/
def initfreeLevel (left right : Int) (acc : Int × Bd) (k : Nat) : Except Fault (Int × Bd) := do
  let (free, s) := acc
  let left := blkIndexNext k left
  let right := blkIndex k right
  let (more, s) ← s.bdInitfreePair k left
  let free := toInt (free + more)
  if right ≤ left then return (free, s)
  else do
    let (more, s) ← s.bdInitfreePair k right
    return (toInt (free + more), s)

/-- `bd_initfree`. -/
def bdInitfree (s : Bd) (left right : Int) : Except Fault (Int × Bd) :=
  (List.range s.maxsize).foldlM (initfreeLevel left right) (0, s)

end Bd

namespace Buddy

/-- The number of sizes for a heap of `heap` bytes. The argument of `log2` is unsigned. -/
def sizesOf (heap : Int) : Nat :=
  let n := Nat.log2 (heap.tdiv LEAF_SIZE % 2 ^ 64).toNat + 1
  if heap > HEAP_SIZE n then n + 1 else n

/-- `unavailable` in `bd_mark_unavailable`. -/
def unavailable (heap : Int) : Int :=
  let n := toInt (HEAP_SIZE (sizesOf heap) - heap)
  if n > 0 then toInt (((n - 1).tdiv LEAF_SIZE + 1) * LEAF_SIZE) else n

/-- `bd_init` of the memory from `base` to `end`, whose words are `mem`. The result is the
allocator with the bounds of the memory that it manages. Addresses have 64 bits. -/
def bdInit (mem : Links Int) (base end_ : Nat) : Except Fault (Bd × Int × Int) := do
  let p := (base + 15) / 16 * 16
  let heap := Int.bmod (end_ - p) (2 ^ 64)
  let nsizes := sizesOf heap
  let s : Bd :=
    { nsizes := nsizes
      bits := fun _ => false
      links := (List.range nsizes).foldl (fun links k => lstInit links (freeHead k)) mem }
  let meta_ := toInt (metaEnd nsizes)
  let s ← s.bdMark 0 (metaEnd nsizes)
  let bdEnd := HEAP_SIZE nsizes - unavailable heap
  let s ← s.bdMark bdEnd (HEAP_SIZE nsizes)
  let (free, s) ← s.bdInitfree (metaEnd nsizes) bdEnd
  if free ≠ HEAP_SIZE nsizes - meta_ - unavailable heap then .error (.panic "bd_init: free mem")
  else return (s, metaEnd nsizes, bdEnd)

end Buddy

end Riscv2os.Xv7
