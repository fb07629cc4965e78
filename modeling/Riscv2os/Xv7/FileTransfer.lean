import Riscv2os.Xv7.Fs
import Riscv2os.Xv7.Vm

/-!
# What `read` and `write` say about their bytes

`fileread` and `filewrite` of an inode, with `readi`, `writei`, `copyin` and `copyout` below them. Of
the inode there is the size and the content of each block of the file, as `bmap` and the buffer cache
show it; a block that `bmap` has yet to allocate is zero, and a disk that is full is left out. Every
transfer is given with the number of bytes that `memmove` copied in it.
-/

namespace Riscv2os.Xv7

open Riscv2os.Std

namespace Uvm

variable {u : Uvm} {va len : Nat}

/-- A user address with a page. -/
def Mapped (u : Uvm) (va : Nat) : Prop := (u.walkaddr (pgRoundDown (va % 2 ^ 64))).isSome = true

/-- How many of `len` bytes at a user address `copyin` and `copyout` move. -/
def reach (u : Uvm) (va len : Nat) : Nat :=
  if _more : 0 < len then
    if (u.walkaddr (pgRoundDown va)).isSome then
      min (PGSIZE - va % PGSIZE) len +
        reach u ((pgRoundDown va + PGSIZE) % 2 ^ 64) (len - min (PGSIZE - va % PGSIZE) len)
    else 0
  else 0
  termination_by len
  decreasing_by
    have := Nat.mod_lt va (show 0 < PGSIZE by decide)
    omega

/-- The bytes that `copyin` copies from a user address. The C function returns -1 if they are fewer
than `len`. -/
def copyin (u : Uvm) (srcva len : Nat) : List UInt8 :=
  if _more : 0 < len then
    match u.walkaddr (pgRoundDown srcva) with
    | none => []
    | some pa0 =>
        (u.kmem.mem pa0).slice (srcva % PGSIZE) (min (PGSIZE - srcva % PGSIZE) len) ++
          copyin u ((pgRoundDown srcva + PGSIZE) % 2 ^ 64) (len - min (PGSIZE - srcva % PGSIZE) len)
  else []
  termination_by len
  decreasing_by
    have := Nat.mod_lt srcva (show 0 < PGSIZE by decide)
    omega

theorem reach_page (more : 0 < len) (page : (u.walkaddr (pgRoundDown va)).isSome = true) :
    u.reach va len = min (PGSIZE - va % PGSIZE) len +
      u.reach ((pgRoundDown va + PGSIZE) % 2 ^ 64) (len - min (PGSIZE - va % PGSIZE) len) := by
  rw [reach, dif_pos more, if_pos page]

theorem reach_unmapped (page : ¬ (u.walkaddr (pgRoundDown va)).isSome = true) : u.reach va len = 0 := by
  rw [reach]
  simp [page]

@[simp] theorem reach_zero (u : Uvm) (va : Nat) : u.reach va 0 = 0 := by rw [reach, dif_neg (by omega)]

theorem length_copyin (u : Uvm) (va len : Nat) : (u.copyin va len).length = u.reach va len := by
  induction va, len using copyin.induct u with
  | case1 va len more fails =>
      rw [copyin, dif_pos more, fails, reach_unmapped (by simp [fails])]
      rfl
  | case2 va len more pa0 found ih =>
      rw [copyin, dif_pos more, found, reach_page more (by simp [found]), ← ih]
      simp only [List.length_append, Bytes.length_slice]
  | case3 va len done =>
      rw [copyin, dif_neg done, Nat.eq_zero_of_not_pos done, reach_zero]
      rfl

theorem reach_le (u : Uvm) (va len : Nat) : u.reach va len ≤ len := by
  induction va, len using reach.induct u with
  | case1 va len more page ih =>
      rw [reach_page more page]
      omega
  | case2 va len more page =>
      rw [reach_unmapped page]
      exact Nat.zero_le len
  | case3 va len done =>
      rw [Nat.eq_zero_of_not_pos done, reach_zero]

/-- The addresses of one page. -/
theorem mapped_page {k : Nat} (small : va < 2 ^ 64) (inside : k < PGSIZE - va % PGSIZE) :
    u.Mapped (va + k) ↔ (u.walkaddr (pgRoundDown va)).isSome = true := by
  have same : pgRoundDown ((va + k) % 2 ^ 64) = pgRoundDown va := by
    unfold pgRoundDown
    simp only [PGSIZE] at inside ⊢
    omega
  rw [Mapped, same]

/-- All bytes are moved exactly if all their addresses have pages. -/
theorem reach_eq_iff (len : Nat) (small : va < 2 ^ 64) : u.reach va len = len ↔ ∀ k < len, u.Mapped (va + k) := by
  induction va, len using reach.induct u with
  | case1 va len more page ih =>
      have ih := ih (Nat.mod_lt _ (by decide))
      have rest := u.reach_le ((pgRoundDown va + PGSIZE) % 2 ^ 64) (len - min (PGSIZE - va % PGSIZE) len)
      rw [reach_page more page]
      -- An address behind the first page is an address of the rest.
      have shift : ∀ k, PGSIZE - va % PGSIZE ≤ k →
          (u.Mapped (va + k) ↔
            u.Mapped ((pgRoundDown va + PGSIZE) % 2 ^ 64 + (k - (PGSIZE - va % PGSIZE)))) := by
        intro k beyond
        have same : (va + k) % 2 ^ 64 =
            ((pgRoundDown va + PGSIZE) % 2 ^ 64 + (k - (PGSIZE - va % PGSIZE))) % 2 ^ 64 := by
          unfold pgRoundDown
          simp only [PGSIZE] at beyond ⊢
          omega
        unfold Mapped
        rw [same]
      constructor
      · intro all k below
        by_cases first : k < PGSIZE - va % PGSIZE
        · exact (mapped_page small first).mpr page
        · have moved := ih.mp (by omega) (k - (PGSIZE - va % PGSIZE)) (by omega)
          exact (shift k (by omega)).mpr moved
      · intro all
        have moved := ih.mpr fun k below => ?_
        · omega
        · have mapped := (shift (PGSIZE - va % PGSIZE + k) (by omega)).mp (all _ (by omega))
          rwa [Nat.add_sub_cancel_left] at mapped
  | case2 va len more page =>
      rw [reach_unmapped page]
      constructor
      · intro none
        omega
      · intro all
        have room := Nat.mod_lt va (show 0 < PGSIZE by decide)
        exact absurd ((mapped_page small (by omega)).mp (all 0 more)) page
  | case3 va len done =>
      rw [Nat.eq_zero_of_not_pos done, reach_zero]
      exact ⟨fun _ k below => absurd below (Nat.not_lt_zero k), fun _ => rfl⟩

theorem reach_congr {m : Kmem} : (⟨m, u.pagetable⟩ : Uvm).reach va len = u.reach va len := by
  induction va, len using reach.induct u with
  | case1 va len more page ih =>
      have page' : ((⟨m, u.pagetable⟩ : Uvm).walkaddr (pgRoundDown va)).isSome := page
      rw [reach_page more page, reach_page more page', ih]
  | case2 va len more page =>
      have page' : ¬ ((⟨m, u.pagetable⟩ : Uvm).walkaddr (pgRoundDown va)).isSome := page
      rw [reach_unmapped page, reach_unmapped page']
  | case3 va len done => rw [Nat.eq_zero_of_not_pos done, reach_zero, reach_zero]

theorem copyout_pagetable (u : Uvm) (va : Nat) (src : List UInt8) :
    (u.copyout va src).2.pagetable = u.pagetable := by
  induction u, va, src using copyout.induct with
  | case1 u va => rw [copyout, dif_pos rfl]
  | case2 u va src more fails => rw [copyout, dif_neg more, fails]
  | case3 u va src more pa0 found n page ih =>
      rw [copyout, dif_neg more, found]
      exact ih

/-- `copyout` returns 0 exactly if it moves all bytes. -/
theorem copyout_eq_true_iff (u : Uvm) (va : Nat) (src : List UInt8) :
    (u.copyout va src).1 = true ↔ u.reach va src.length = src.length := by
  induction u, va, src using copyout.induct with
  | case1 u va =>
      rw [copyout, dif_pos rfl]
      simp
  | case2 u va src more fails =>
      rw [copyout, dif_neg more, fails, reach_unmapped (by simp [fails])]
      simp [more, eq_comm]
  | case3 u va src more pa0 found n page ih =>
      have positive : 0 < src.length := List.length_pos_iff.mpr more
      have split : (u.copyout va src).1 = (copyout ⟨u.kmem.setPage pa0 page, u.pagetable⟩
          ((pgRoundDown va + PGSIZE) % 2 ^ 64) (src.drop n)).1 := by
        rw [copyout, dif_neg more, found]
      have left : (src.drop n).length = src.length - min (PGSIZE - va % PGSIZE) src.length :=
        List.length_drop ..
      rw [split, ih, reach_congr, left, reach_page positive (by simp [found])]
      have room := Nat.mod_lt va (show 0 < PGSIZE by decide)
      omega

/-- A byte of the user. -/
def userByte (u : Uvm) (va : Nat) : Option UInt8 :=
  (u.walkaddr (pgRoundDown (va % 2 ^ 64))).map fun pa => (u.kmem.mem pa).byte (va % 2 ^ 64 % PGSIZE)

theorem userByte_mod (u : Uvm) (va k : Nat) : u.userByte (va % 2 ^ 64 + k) = u.userByte (va + k) := by
  unfold userByte
  rw [Nat.mod_add_mod]

theorem mapped_mod (u : Uvm) (va k : Nat) : u.Mapped (va % 2 ^ 64 + k) ↔ u.Mapped (va + k) := by
  unfold Mapped
  rw [Nat.mod_add_mod]

/-- `copyin` copies the bytes of the user. -/
theorem getElem?_copyin {k : Nat} (len : Nat) (small : va < 2 ^ 64) (inside : k < u.reach va len) :
    (u.copyin va len)[k]? = u.userByte (va + k) := by
  induction va, len using copyin.induct u generalizing k with
  | case1 va len more fails =>
      rw [reach_unmapped (by simp [fails])] at inside
      cases inside
  | case2 va len more pa0 found ih =>
      rw [reach_page more (by simp [found])] at inside
      rw [copyin, dif_pos more, found]
      dsimp only
      by_cases first : k < min (PGSIZE - va % PGSIZE) len
      · rw [List.getElem?_append_left (by simpa using first)]
        have room : k < PGSIZE - va % PGSIZE := by omega
        have address : (va + k) % 2 ^ 64 = va + k ∧ pgRoundDown (va + k) = pgRoundDown va ∧
            (va + k) % PGSIZE = va % PGSIZE + k := by
          unfold pgRoundDown
          simp only [PGSIZE] at room ⊢
          omega
        rw [userByte, address.1, address.2.1, found, address.2.2]
        simp [Bytes.slice, first]
      · rw [List.getElem?_append_right (by rw [Bytes.length_slice]; omega), Bytes.length_slice,
          ih (Nat.mod_lt _ (by decide)) (by omega)]
        have whole : min (PGSIZE - va % PGSIZE) len = PGSIZE - va % PGSIZE := by
          have rest := u.reach_le ((pgRoundDown va + PGSIZE) % 2 ^ 64)
            (len - min (PGSIZE - va % PGSIZE) len)
          omega
        rw [userByte_mod]
        congr 1
        unfold pgRoundDown
        simp only [PGSIZE] at whole first ⊢
        omega
  | case3 va len done =>
      rw [Nat.eq_zero_of_not_pos done, reach_zero] at inside
      cases inside

end Uvm

/-- The content of an inode. -/
structure Content where
  size : Nat
  /-- The content of the block that `bmap` gives for a block number. -/
  block : Nat → Block

/-- What one call does: its result, the bytes that it copied, and the file and the user memory after
it. -/
structure Transfer where
  ret : Int
  copied : Nat
  ip : Content
  u : Uvm

/-- The result is the number of bytes that were copied, or says that there was an error. -/
def Transfer.CountTrue (t : Transfer) : Prop := t.ret < 0 ∨ t.ret = t.copied

namespace Content

/-- A byte of the file. -/
def byte (ip : Content) (k : Nat) : UInt8 := (ip.block (k / BSIZE)).byte (k % BSIZE)

/-- Put a block back. -/
def setBlock (ip : Content) (bn : Nat) (block : Block) : Content :=
  { ip with block := Function.update ip.block bn block }

/-- The loop of `readi`. -/
def readLoop (ip : Content) (n tot off dst copied : Nat) (u : Uvm) : Nat × Uvm :=
  if _more : tot < n then
    let m := min (n - tot) (BSIZE - off % BSIZE)
    match u.copyout dst ((ip.block (off / BSIZE)).slice (off % BSIZE) m) with
    | (true, u) => readLoop ip n (tot + m) (off + m) ((dst + m) % 2 ^ 64) (copied + m) u
    | (false, u') => (copied + u.reach dst m, u')
  else (copied, u)
  termination_by n - tot
  decreasing_by
    have := Nat.mod_lt off (show 0 < BSIZE by decide)
    omega

/-- Read data from an inode to a user address. The numbers are of type `uint`. -/
def readi (ip : Content) (u : Uvm) (dst off n : Nat) : Transfer :=
  if off > ip.size ∨ (off + n) % 2 ^ 32 < off then ⟨-1, 0, ip, u⟩
  else
    let n := if (off + n) % 2 ^ 32 > ip.size then ip.size - off else n
    let (copied, u) := ip.readLoop n 0 off dst 0 u
    ⟨(BitVec.ofNat 32 n).toInt, copied, ip, u⟩

/-- The loop of `writei`, which ends with the offset behind the last block that it copied whole. -/
def writeLoop (u : Uvm) (n tot off src copied : Nat) (ip : Content) : Nat × Nat × Content :=
  if _more : tot < n then
    let m := min (n - tot) (BSIZE - off % BSIZE)
    let bytes := u.copyin src m
    let ip := ip.setBlock (off / BSIZE) ((ip.block (off / BSIZE)).splice (off % BSIZE) bytes)
    if bytes.length < m then (copied + bytes.length, off, ip)
    else writeLoop u n (tot + m) (off + m) ((src + m) % 2 ^ 64) (copied + m) ip
  else (copied, off, ip)
  termination_by n - tot
  decreasing_by
    have := Nat.mod_lt off (show 0 < BSIZE by decide)
    omega

/-- Write data from a user address to an inode. -/
def writei (ip : Content) (u : Uvm) (src off n : Nat) : Transfer :=
  if off > ip.size ∨ (off + n) % 2 ^ 32 < off then ⟨-1, 0, ip, u⟩
  else if (off + n) % 2 ^ 32 > MAXFILE * BSIZE then ⟨-1, 0, ip, u⟩
  else
    let (copied, off, ip) := writeLoop u n 0 off src 0 ip
    ⟨(BitVec.ofNat 32 n).toInt, copied,
      if n > 0 ∧ off > ip.size then { ip with size := off } else ip, u⟩

end Content

/-- An open file of type `FD_INODE`. -/
structure OpenFile where
  readable : Bool
  writable : Bool
  off : Nat
  ip : Content

/-- What a call on an open file does. -/
structure FileTransfer where
  ret : Int
  copied : Nat
  f : OpenFile
  u : Uvm

namespace OpenFile

/-- The file after a transfer: `if((r = ..) > 0) f->off += r`. -/
def advance (f : OpenFile) (r : Transfer) : OpenFile :=
  { f with ip := r.ip, off := if r.ret > 0 then (f.off + r.ret.toNat) % 2 ^ 32 else f.off }

/-- Read from a file. -/
def fileread (f : OpenFile) (u : Uvm) (addr : Nat) (n : BitVec 32) : FileTransfer :=
  if f.readable = false then ⟨-1, 0, f, u⟩
  else
    let r := f.ip.readi u addr f.off n.toNat
    ⟨r.ret, r.copied, f.advance r, r.u⟩

/-- The most that `filewrite` writes in one transaction. -/
def maxChunk : Nat := ((MAXOPBLOCKS - 1 - 1 - 2) / 2) * BSIZE

/-- The loop of `filewrite`, with the bytes copied so far. -/
def chunks (u : Uvm) (addr n : Nat) (i copied : Nat) (f : OpenFile) :
    Except Fault FileTransfer :=
  if more : i < n then
    let n1 := min (n - i) maxChunk
    let r := f.ip.writei u ((addr + i) % 2 ^ 64) f.off n1
    if r.ret < 0 then .ok ⟨if i = n then n else -1, copied + r.copied, f.advance r, u⟩
    else if r.ret ≠ n1 then .error (.panic "short filewrite")
    else chunks u addr n (i + n1) (copied + r.copied) (f.advance r)
  else .ok ⟨if i = n then n else -1, copied, f, u⟩
  termination_by n - i
  decreasing_by
    have positive : 0 < maxChunk := by decide
    omega

/-- Write to a file. -/
def filewrite (f : OpenFile) (u : Uvm) (addr : Nat) (n : BitVec 32) : Except Fault FileTransfer :=
  if f.writable = false then .ok ⟨-1, 0, f, u⟩
  else if n.toInt < 0 then .ok ⟨-1, 0, f, u⟩
  else chunks u addr n.toNat 0 0 f

end OpenFile

namespace Content

variable {ip ip' ip'' : Content} {u : Uvm} {src off n : Nat}

theorem byte_setBlock (ip : Content) {start : Nat} {bytes : List UInt8} (bn k : Nat)
    (fits : start + bytes.length ≤ BSIZE) :
    (ip.setBlock bn ((ip.block bn).splice start bytes)).byte k =
      if bn * BSIZE + start ≤ k ∧ k < bn * BSIZE + start + bytes.length then
        bytes.getD (k - (bn * BSIZE + start)) 0
      else ip.byte k := by
  have inside := Nat.mod_lt k (show 0 < BSIZE by decide)
  have parts := Nat.div_add_mod' k BSIZE
  unfold byte setBlock
  by_cases same : k / BSIZE = bn
  · subst same
    simp only [Function.update_self, Bytes.byte_splice _ _ _ _ inside]
    have range : (start ≤ k % BSIZE ∧ k % BSIZE < start + bytes.length) ↔
        (k / BSIZE * BSIZE + start ≤ k ∧ k < k / BSIZE * BSIZE + start + bytes.length) := by omega
    have index : k - (k / BSIZE * BSIZE + start) = k % BSIZE - start := by omega
    simp only [range, index]
  · simp only [Function.update_of_ne same]
    rw [if_neg]
    rintro ⟨low, high⟩
    apply same
    have bounds : bn * BSIZE ≤ k ∧ k < (bn + 1) * BSIZE := by
      rw [Nat.add_mul]
      omega
    exact Nat.div_eq_of_lt_le bounds.1 bounds.2

/-- The file `ip'` has the `n` bytes of the user at `src`, at offset `off`, and else those of `ip`. -/
structure Writes (u : Uvm) (src off n : Nat) (ip ip' : Content) : Prop where
  data : ∀ k < n, u.userByte (src + k) = some (ip'.byte (off + k))
  rest : ∀ k, ¬ (off ≤ k ∧ k < off + n) → ip'.byte k = ip.byte k

theorem Writes.refl : Writes u src off 0 ip ip :=
  ⟨fun _ below => absurd below (Nat.not_lt_zero _), fun _ _ => rfl⟩

theorem Writes.append {a b : Nat} (first : Writes u src off a ip ip')
    (second : Writes u (src + a) (off + a) b ip' ip'') : Writes u src off (a + b) ip ip'' where
  data k below := by
    by_cases early : k < a
    · rw [second.rest _ (by omega)]
      exact first.data k early
    · have later := second.data (k - a) (by omega)
      rwa [Nat.add_assoc, Nat.add_assoc, Nat.add_sub_cancel' (by omega)] at later
  rest k outside := by
    rw [second.rest k (by omega), first.rest k (by omega)]

theorem Writes.mod : Writes u (src % 2 ^ 64) off n ip ip' ↔ Writes u src off n ip ip' := by
  constructor
  · exact fun writes => ⟨fun k below => (u.userByte_mod src k).symm.trans (writes.data k below), writes.rest⟩
  · exact fun writes => ⟨fun k below => (u.userByte_mod src k).trans (writes.data k below), writes.rest⟩

/-- The mapped part of a range, and then the rest. -/
theorem mapped_add {a b : Nat} : (∀ k < a + b, u.Mapped (src + k)) ↔
    (∀ k < a, u.Mapped (src + k)) ∧ ∀ k < b, u.Mapped ((src + a) % 2 ^ 64 + k) := by
  constructor
  · intro all
    refine ⟨fun k below => all k (by omega), fun k below => ?_⟩
    rw [Uvm.mapped_mod, Nat.add_assoc]
    exact all (a + k) (by omega)
  · rintro ⟨first, second⟩ k below
    by_cases early : k < a
    · exact first k early
    · have later := second (k - a) (by omega)
      rwa [Uvm.mapped_mod, Nat.add_assoc, Nat.add_sub_cancel' (by omega)] at later

/-- The loop of `readi` copies all bytes exactly if all their addresses have pages. -/
theorem readLoop_spec {dst : Nat} (ip : Content) (u : Uvm) (n tot off copied : Nat) (small : dst < 2 ^ 64) :
    (ip.readLoop n tot off dst copied u).1 ≤ copied + (n - tot) ∧
      ((ip.readLoop n tot off dst copied u).1 = copied + (n - tot) ↔
        ∀ k < n - tot, u.Mapped (dst + k)) := by
  induction tot, off, dst, copied, u using readLoop.induct ip n with
  | case1 tot off dst copied u more m u' copy ih =>
      have whole : u.reach dst m = m := by
        have moved := (u.copyout_eq_true_iff dst
          ((ip.block (off / BSIZE)).slice (off % BSIZE) m)).mp (by rw [copy])
        rwa [Bytes.length_slice] at moved
      have table : u'.pagetable = u.pagetable := by
        have same := u.copyout_pagetable dst ((ip.block (off / BSIZE)).slice (off % BSIZE) m)
        rwa [copy] at same
      have mapped : ∀ va, u'.Mapped va ↔ u.Mapped va := by
        intro va
        unfold Uvm.Mapped Uvm.walkaddr
        rw [table]
      have length : n - tot = m + (n - (tot + m)) := by omega
      have step : ip.readLoop n tot off dst copied u =
          ip.readLoop n (tot + m) (off + m) ((dst + m) % 2 ^ 64) (copied + m) u' := by
        rw [readLoop, dif_pos more]
        dsimp only
        rw [show u.copyout dst ((ip.block (off / BSIZE)).slice (off % BSIZE)
          (min (n - tot) (BSIZE - off % BSIZE))) = (true, u') from copy]
      rw [step]
      obtain ⟨most, all⟩ := ih (Nat.mod_lt _ (by decide))
      refine ⟨by omega, ?_⟩
      rw [length, mapped_add]
      have first := (Uvm.reach_eq_iff _ small).mp whole
      simp only [mapped] at all
      constructor
      · intro count
        exact ⟨first, all.mp (by omega)⟩
      · rintro ⟨-, second⟩
        have count := all.mpr second
        omega
  | case2 tot off dst copied u more m u' copy =>
      have short : ¬ u.reach dst m = m := by
        intro whole
        have moved := (u.copyout_eq_true_iff dst
          ((ip.block (off / BSIZE)).slice (off % BSIZE) m)).mpr (by rwa [Bytes.length_slice])
        rw [copy] at moved
        cases moved
      have most := u.reach_le dst m
      have step : ip.readLoop n tot off dst copied u = (copied + u.reach dst m, u') := by
        rw [readLoop, dif_pos more]
        dsimp only
        rw [show u.copyout dst ((ip.block (off / BSIZE)).slice (off % BSIZE)
          (min (n - tot) (BSIZE - off % BSIZE))) = (false, u') from copy]
      rw [step]
      refine ⟨?_, ?_⟩
      · show copied + u.reach dst m ≤ _
        omega
      · constructor
        · intro count
          change copied + u.reach dst m = _ at count
          omega
        · intro all
          exact absurd ((Uvm.reach_eq_iff _ small).mpr fun k below => all k (by omega)) short
  | case3 tot off dst copied u done =>
      rw [readLoop, dif_neg done]
      refine ⟨by omega, fun _ k below => absurd below (by omega), fun _ => ?_⟩
      show copied = _
      omega

/-- The loop of `writei` copies all bytes exactly if all their addresses have pages, and then the file
has them. -/
theorem writeLoop_spec (u : Uvm) (ip : Content) (n tot off copied : Nat) (small : src < 2 ^ 64) :
    (writeLoop u n tot off src copied ip).1 ≤ copied + (n - tot) ∧
      (writeLoop u n tot off src copied ip).2.1 ≤ off + (n - tot) ∧
      (writeLoop u n tot off src copied ip).2.2.size = ip.size ∧
      ((writeLoop u n tot off src copied ip).1 = copied + (n - tot) ↔
        ∀ k < n - tot, u.Mapped (src + k)) ∧
      ((∀ k < n - tot, u.Mapped (src + k)) →
        (writeLoop u n tot off src copied ip).2.1 = off + (n - tot) ∧
        Writes u src off (n - tot) ip (writeLoop u n tot off src copied ip).2.2) := by
  induction tot, off, src, copied, ip using writeLoop.induct u n with
  | case1 tot off src copied ip more m bytes short =>
      have length : bytes.length = u.reach src m := u.length_copyin src m
      have step : writeLoop u n tot off src copied ip = (copied + bytes.length, off,
          ip.setBlock (off / BSIZE) ((ip.block (off / BSIZE)).splice (off % BSIZE) bytes)) := by
        rw [writeLoop, dif_pos more]
        exact if_pos short
      rw [step]
      have unmapped : ¬ ∀ k < n - tot, u.Mapped (src + k) := by
        intro all
        have whole := (Uvm.reach_eq_iff m small).mpr fun k below => all k (by omega)
        omega
      refine ⟨?_, Nat.le_add_right _ _, rfl, ?_, fun all => absurd all unmapped⟩
      · show copied + bytes.length ≤ _
        omega
      · refine iff_of_false ?_ unmapped
        show ¬ copied + bytes.length = _
        omega
  | case2 tot off src copied ip more m bytes ip' long ih =>
      have length : bytes.length = u.reach src m := u.length_copyin src m
      have most := u.reach_le src m
      have whole : u.reach src m = m := by omega
      have room := Nat.mod_lt off (show 0 < BSIZE by decide)
      have parts := Nat.div_add_mod' off BSIZE
      have first := (Uvm.reach_eq_iff _ small).mp whole
      have written : Writes u src off m ip ip' := by
        have bytesAt : ∀ k, ip'.byte k = if off ≤ k ∧ k < off + m then bytes.getD (k - off) 0
            else ip.byte k := by
          intro k
          have block := ip.byte_setBlock (off / BSIZE) k
            (show off % BSIZE + bytes.length ≤ BSIZE by omega)
          rwa [parts, length, whole] at block
        refine ⟨fun k below => ?_, fun k outside => by rw [bytesAt, if_neg outside]⟩
        rw [bytesAt, if_pos (by omega), Nat.add_sub_cancel_left,
          ← Uvm.getElem?_copyin m small (by omega)]
        show bytes[k]? = some (bytes.getD k 0)
        rw [List.getD_eq_getElem?_getD, List.getElem?_eq_getElem (by omega), Option.getD_some]
      have step : writeLoop u n tot off src copied ip =
          writeLoop u n (tot + m) (off + m) ((src + m) % 2 ^ 64) (copied + m) ip' := by
        rw [writeLoop, dif_pos more]
        exact if_neg long
      rw [step]
      obtain ⟨mostCopied, mostOff, size, all, result⟩ := ih (Nat.mod_lt _ (by decide))
      have split : n - tot = m + (n - (tot + m)) := by omega
      have later : (∀ k < n - tot, u.Mapped (src + k)) →
          ∀ k < n - (tot + m), u.Mapped ((src + m) % 2 ^ 64 + k) := by
        intro mapped
        rw [split, mapped_add] at mapped
        exact mapped.2
      refine ⟨by omega, by omega, size, ?_, fun mapped => ?_⟩
      · rw [split, mapped_add]
        constructor
        · intro count
          exact ⟨first, all.mp (by omega)⟩
        · rintro ⟨-, second⟩
          have count := all.mpr second
          omega
      · obtain ⟨stop, rest⟩ := result (later mapped)
        refine ⟨by omega, ?_⟩
        rw [split]
        exact written.append (Writes.mod.mp rest)
  | case3 tot off src copied ip done =>
      have none : n - tot = 0 := by omega
      rw [writeLoop, dif_neg done, none]
      exact ⟨le_rfl, le_rfl, rfl, ⟨fun _ k below => absurd below (Nat.not_lt_zero k), fun _ => rfl⟩,
        fun _ => ⟨rfl, .refl⟩⟩

/-- How many bytes `readi` is to copy. -/
def readLength (ip : Content) (off n : Nat) : Nat :=
  if off > ip.size ∨ (off + n) % 2 ^ 32 < off then 0
  else if (off + n) % 2 ^ 32 > ip.size then ip.size - off
  else n

/-- Whether `writei` copies. -/
def Takes (ip : Content) (off n : Nat) : Prop :=
  off ≤ ip.size ∧ off + n ≤ MAXFILE * BSIZE

theorem MAXFILE_bytes : MAXFILE * BSIZE < 2 ^ 31 := by decide

theorem toInt_small {k : Nat} (small : k < 2 ^ 31) : (BitVec.ofNat 32 k).toInt = k := by
  rw [BitVec.toInt_eq_toNat_cond, BitVec.toNat_ofNat, Nat.mod_eq_of_lt (by omega), if_pos (by omega)]

/-- `readi` copies all that it is to copy exactly if the addresses have pages, and returns this
number in any case. -/
theorem readi_spec (u : Uvm) {dst : Nat} (off : Nat) (small : dst < 2 ^ 64) (narrow : n < 2 ^ 32)
    (fits : ip.size ≤ MAXFILE * BSIZE) :
    ((ip.readi u dst off n).ret = -1 ∧ ip.readLength off n = 0 ∨
      (ip.readi u dst off n).ret = ip.readLength off n) ∧ (ip.readi u dst off n).ip = ip ∧
      ((ip.readi u dst off n).copied = ip.readLength off n ↔
        ∀ k < ip.readLength off n, u.Mapped (dst + k)) := by
  have bound := MAXFILE_bytes
  unfold readi readLength
  split
  · exact ⟨.inl ⟨rfl, rfl⟩, rfl, fun _ k below => absurd below (Nat.not_lt_zero k), fun _ => rfl⟩
  next inside =>
    have most : (if (off + n) % 2 ^ 32 > ip.size then ip.size - off else n) ≤ ip.size := by
      split <;> omega
    obtain ⟨-, all⟩ := ip.readLoop_spec u
      (if (off + n) % 2 ^ 32 > ip.size then ip.size - off else n) 0 off 0 small
    rw [Nat.zero_add, Nat.sub_zero] at all
    exact ⟨.inr (toInt_small (by omega)), rfl, all⟩

theorem writei_rejected (u : Uvm) {src : Nat} (narrow : n < 2 ^ 32) (fits : ip.size ≤ MAXFILE * BSIZE)
    (rejected : ¬ ip.Takes off n) : ip.writei u src off n = ⟨-1, 0, ip, u⟩ := by
  have bound := MAXFILE_bytes
  unfold writei
  split
  · rfl
  next inside =>
  refine if_pos ?_
  by_contra low
  apply rejected
  unfold Takes
  omega

/-- `writei` copies all bytes that it takes exactly if their addresses have pages, and returns their
number in any case. -/
theorem writei_taken (u : Uvm) {src : Nat} (small : src < 2 ^ 64) (taken : ip.Takes off n) :
    (ip.writei u src off n).ret = n ∧ (ip.writei u src off n).copied ≤ n ∧
      (ip.writei u src off n).ip.size ≤ max ip.size (off + n) ∧
      ((ip.writei u src off n).copied = n ↔ ∀ k < n, u.Mapped (src + k)) ∧
      ((∀ k < n, u.Mapped (src + k)) → off + n ≤ (ip.writei u src off n).ip.size ∧
        Writes u src off n ip (ip.writei u src off n).ip) := by
  have bound := MAXFILE_bytes
  obtain ⟨low, high⟩ := taken
  obtain ⟨most, stop, size, all, result⟩ :=
    writeLoop_spec u ip n 0 off 0 small
  rw [Nat.zero_add, Nat.sub_zero] at most all
  rw [Nat.sub_zero] at stop result
  unfold writei
  rw [if_neg (by omega), if_neg (by omega)]
  refine ⟨toInt_small (by omega), most, ?_, all, fun mapped => ?_⟩
  · dsimp only
    split
    · exact le_trans stop (le_max_right _ _)
    · rw [size]
      exact le_max_left _ _
  · obtain ⟨last, writes⟩ := result mapped
    dsimp only
    rw [last, size]
    split
    · exact ⟨le_rfl, writes.data, writes.rest⟩
    · exact ⟨by rw [size]; omega, writes⟩

end Content

namespace OpenFile

variable {f : OpenFile} {u : Uvm}

/-- How many bytes `filewrite` is to copy, in chunks as long as the file can grow. -/
def writeLength (f : OpenFile) (n : Nat) : Nat :=
  if f.off > f.ip.size then 0
  else if f.off + n ≤ MAXFILE * BSIZE then n
  else (MAXFILE * BSIZE - f.off) / maxChunk * maxChunk

/-- What `read` says is true. -/
structure ReadTrue (f : OpenFile) (t : FileTransfer) : Prop where
  count : t.ret < 0 ∨ t.ret = t.copied
  offset : t.f.off = f.off + t.copied
  file : t.f.ip = f.ip

/-- What `write` says is true. -/
structure WriteTrue (f : OpenFile) (u : Uvm) (addr : Nat) (t : FileTransfer) : Prop where
  count : t.ret < 0 ∨ t.ret = t.copied
  offset : t.f.off = f.off + t.copied
  writes : Content.Writes u addr f.off t.copied f.ip t.f.ip

theorem fileread_iff {addr : Nat} (small : addr < 2 ^ 64) (fits : f.ip.size ≤ MAXFILE * BSIZE)
    (n : BitVec 32) (readable : f.readable = true) :
    f.ReadTrue (f.fileread u addr n) ↔ ∀ k < f.ip.readLength f.off n.toNat, u.Mapped (addr + k) := by
  obtain ⟨ret, same, all⟩ := Content.readi_spec u f.off small n.isLt fits
  have bound := Content.MAXFILE_bytes
  have most : f.ip.readLength f.off n.toNat = 0 ∨
      f.off + f.ip.readLength f.off n.toNat ≤ f.ip.size := by
    unfold Content.readLength
    have narrow := n.isLt
    split
    · exact .inl rfl
    · right
      split <;> omega
  unfold fileread
  rw [if_neg (by simp [readable]), ← all]
  generalize f.ip.readi u addr f.off n.toNat = r at ret same
  generalize f.ip.readLength f.off n.toNat = length at ret most
  have offset : (f.advance r).off = f.off + length := by
    show (if r.ret > 0 then (f.off + r.ret.toNat) % 2 ^ 32 else f.off) = _
    split <;> omega
  constructor
  · intro told
    have moved := told.offset
    change (f.advance r).off = f.off + r.copied at moved
    omega
  · intro count
    refine ⟨?_, ?_, same⟩
    · show r.ret < 0 ∨ r.ret = r.copied
      omega
    · show (f.advance r).off = f.off + r.copied
      omega

theorem maxChunk_pos : 0 < maxChunk := by decide

theorem writeLength_rejected {n n1 : Nat} (chunk : n1 = min n maxChunk)
    (rejected : ¬ f.ip.Takes f.off n1) : f.writeLength n = 0 := by
  have positive := maxChunk_pos
  unfold Content.Takes at rejected
  unfold writeLength
  split
  · rfl
  · rw [if_neg (show ¬ f.off + n ≤ MAXFILE * BSIZE by omega), Nat.div_eq_of_lt (by omega), Nat.zero_mul]

theorem writeLength_taken {f' : OpenFile} {n n1 : Nat} (chunk : n1 = min n maxChunk)
    (taken : f.ip.Takes f.off n1) (offset : f'.off = f.off + n1) (size : f'.off ≤ f'.ip.size) :
    f.writeLength n = n1 + f'.writeLength (n - n1) := by
  have positive := maxChunk_pos
  obtain ⟨low, high⟩ := taken
  unfold writeLength
  rw [if_neg (show ¬ f.off > f.ip.size by omega), if_neg (show ¬ f'.off > f'.ip.size by omega), offset]
  by_cases all : f.off + n ≤ MAXFILE * BSIZE
  · rw [if_pos all, if_pos (by omega)]
    omega
  · rw [if_neg all, if_neg (by omega)]
    have whole : n1 = maxChunk := by omega
    have step : MAXFILE * BSIZE - f.off = (MAXFILE * BSIZE - (f.off + n1)) + maxChunk := by omega
    rw [step, Nat.add_div_right _ positive, Nat.succ_mul, whole, Nat.add_comm]

theorem le_writeLength {n n1 : Nat} (chunk : n1 = min n maxChunk) (taken : f.ip.Takes f.off n1) :
    n1 ≤ f.writeLength n := by
  have grown : ∃ f' : OpenFile, f'.off = f.off + n1 ∧ f'.off ≤ f'.ip.size :=
    ⟨{ f with off := f.off + n1, ip := { f.ip with size := f.off + n1 } }, rfl, le_rfl⟩
  obtain ⟨f', offset, size⟩ := grown
  rw [writeLength_taken chunk taken offset size]
  exact Nat.le_add_right _ _

/-- What the loop of `filewrite` does from `f` on. -/
structure Chunks (u : Uvm) (addr n i copied : Nat) (f : OpenFile) (t : FileTransfer) : Prop where
  /-- The offset never stays behind the bytes that were copied. -/
  ahead : f.off + t.copied ≤ t.f.off + copied
  exact : t.f.off + copied = f.off + t.copied ↔
    ∀ k < f.writeLength (n - i), u.Mapped (addr + i + k)
  whole : (∀ k < f.writeLength (n - i), u.Mapped (addr + i + k)) →
    t.copied = copied + f.writeLength (n - i) ∧
      (t.ret = -1 ∨ t.ret = n ∧ f.writeLength (n - i) = n - i) ∧
      Content.Writes u (addr + i) f.off (f.writeLength (n - i)) f.ip t.f.ip

theorem chunks_spec {n i : Nat} (u : Uvm) (addr copied : Nat) (ordered : i ≤ n) (fits : f.ip.size ≤ MAXFILE * BSIZE) :
    ∃ t, chunks u addr n i copied f = .ok t ∧ Chunks u addr n i copied f t := by
  have bound := Content.MAXFILE_bytes
  have positive := maxChunk_pos
  have chunkSmall : maxChunk < 2 ^ 31 := by decide
  induction i, copied, f using chunks.induct u addr n with
  | case1 i copied f more n1 r failed =>
      have rejected : ¬ f.ip.Takes f.off n1 := by
        intro taken
        have ret := (Content.writei_taken u (Nat.mod_lt (addr + i) (by decide)) taken).1
        change r.ret = n1 at ret
        omega
      have same : r = ⟨-1, 0, f.ip, u⟩ := Content.writei_rejected u (by omega) fits rejected
      have none : f.writeLength (n - i) = 0 := writeLength_rejected rfl rejected
      refine ⟨⟨-1, copied, f, u⟩, ?_, ?_⟩
      · have result : f.ip.writei u ((addr + i) % 2 ^ 64) f.off (min (n - i) maxChunk) =
            ⟨-1, 0, f.ip, u⟩ := same
        rw [chunks, dif_pos more]
        simp only [result]
        rw [if_pos (by omega), if_neg more.ne]
        rfl
      · refine ⟨le_rfl, ?_, fun _ => ?_⟩
        · rw [none]
          exact ⟨fun _ k below => absurd below (Nat.not_lt_zero k), fun _ => rfl⟩
        · rw [none]
          exact ⟨rfl, .inl rfl, .refl⟩
  | case2 i copied f more n1 r success short =>
      have taken : f.ip.Takes f.off n1 := by
        by_contra rejected
        have same : r = ⟨-1, 0, f.ip, u⟩ := Content.writei_rejected u (by omega) fits rejected
        rw [same] at success
        exact success (show (-1 : Int) < 0 by decide)
      exact absurd (Content.writei_taken u (Nat.mod_lt (addr + i) (by decide)) taken).1 short
  | case3 i copied f more n1 r success exact ih =>
      have returned : r.ret = n1 := not_not.mp exact
      have taken : f.ip.Takes f.off n1 := by
        by_contra rejected
        have same : r = ⟨-1, 0, f.ip, u⟩ := Content.writei_rejected u (by omega) fits rejected
        rw [same] at success
        exact success (show (-1 : Int) < 0 by decide)
      obtain ⟨-, most, size, all, result⟩ :=
        Content.writei_taken u (Nat.mod_lt (addr + i) (by decide)) taken
      change r.copied ≤ n1 at most
      change r.ip.size ≤ _ at size
      change r.copied = n1 ↔ _ at all
      have offset : (f.advance r).off = f.off + n1 := by
        show (if r.ret > 0 then (f.off + r.ret.toNat) % 2 ^ 32 else f.off) = _
        have high := taken.2
        split <;> omega
      have fits' : (f.advance r).ip.size ≤ MAXFILE * BSIZE := by
        have high := taken.2
        show r.ip.size ≤ _
        omega
      obtain ⟨t, run, spec⟩ := ih (by omega) fits'
      have step : chunks u addr n i copied f = chunks u addr n (i + n1) (copied + r.copied) (f.advance r) := by
        rw [chunks, dif_pos more]
        exact (if_neg success).trans (if_neg exact)
      have mapped_iff : (∀ k < n1, u.Mapped ((addr + i) % 2 ^ 64 + k)) ↔
          ∀ k < n1, u.Mapped (addr + i + k) := by simp only [Uvm.mapped_mod]
      rw [mapped_iff] at all result
      have left : n - (i + n1) = n - i - n1 := by omega
      have shift : ∀ k, addr + (i + n1) + k = addr + i + n1 + k := fun k => by omega
      have ahead := spec.ahead
      refine ⟨t, step.trans run, ?_, ?_, fun mapped => ?_⟩
      · omega
      · by_cases first : ∀ k < n1, u.Mapped (addr + i + k)
        · have grown : (f.advance r).off ≤ (f.advance r).ip.size := offset ▸ (result first).1
          have copiedAll := all.mpr first
          rw [writeLength_taken rfl taken offset grown, Content.mapped_add]
          have rest := spec.exact
          simp only [left, shift] at rest
          simp only [Uvm.mapped_mod]
          constructor
          · intro count
            exact ⟨first, rest.mp (by omega)⟩
          · rintro ⟨-, second⟩
            have count := rest.mpr second
            omega
        · refine iff_of_false (fun count => ?_) fun mapped => ?_
          · have some : r.copied ≠ n1 := fun whole => first (all.mp whole)
            omega
          · exact first fun k below => mapped k (lt_of_lt_of_le below (le_writeLength rfl taken))
      · have first : ∀ k < n1, u.Mapped (addr + i + k) :=
          fun k below => mapped k (lt_of_lt_of_le below (le_writeLength rfl taken))
        obtain ⟨reached, writes⟩ := result first
        have grown : (f.advance r).off ≤ (f.advance r).ip.size := offset ▸ reached
        have copiedAll := all.mpr first
        have length := writeLength_taken rfl taken offset grown
        change f.writeLength (n - i) = n1 + (f.advance r).writeLength (n - i - n1) at length
        rw [length, Content.mapped_add] at mapped
        have rest := spec.whole
        simp only [left, shift] at rest
        obtain ⟨count, ret, later⟩ := rest (by simpa only [Uvm.mapped_mod] using mapped.2)
        rw [length]
        refine ⟨by omega, ?_, (Content.Writes.mod.mp writes).append ?_⟩
        · omega
        · rw [offset, show addr + (i + n1) = addr + i + n1 by omega] at later
          exact later
  | case4 i copied f done =>
      have same : i = n := by omega
      subst same
      have none : f.writeLength (i - i) = 0 := by
        unfold writeLength
        split
        · rfl
        · rw [if_pos (by omega), Nat.sub_self]
      refine ⟨⟨i, copied, f, u⟩, ?_, ?_⟩
      · rw [chunks, dif_neg done, if_pos rfl]
      · refine ⟨le_rfl, ?_, fun _ => ?_⟩
        · rw [none]
          exact ⟨fun _ k below => absurd below (Nat.not_lt_zero k), fun _ => rfl⟩
        · rw [none]
          exact ⟨rfl, .inr ⟨rfl, (Nat.sub_self i).symm⟩, .refl⟩

/-- A part of the memory of the user. -/
def Buffer (u : Uvm) (addr len : Nat) : Prop := ∀ k < len, u.Mapped (addr + k)

/-- What the calls on a file say about their bytes is true exactly if the part of the user's buffer that
they are to copy has pages. No write panics. -/
theorem transfers_true_iff (f : OpenFile) (u : Uvm) (addr : BitVec 64) (n : BitVec 32)
    (fits : f.ip.size ≤ MAXFILE * BSIZE) :
    ((f.ip.readi u addr.toNat f.off n.toNat).CountTrue ↔
        Buffer u addr.toNat (f.ip.readLength f.off n.toNat)) ∧
      ((f.ip.writei u addr.toNat f.off n.toNat).CountTrue ∧
          Content.Writes u addr.toNat f.off (f.ip.writei u addr.toNat f.off n.toNat).copied f.ip
            (f.ip.writei u addr.toNat f.off n.toNat).ip ↔
        ¬ f.ip.Takes f.off n.toNat ∨ Buffer u addr.toNat n.toNat) ∧
      (f.ReadTrue (f.fileread u addr.toNat n) ↔
        f.readable = false ∨ Buffer u addr.toNat (f.ip.readLength f.off n.toNat)) ∧
      ∃ t, f.filewrite u addr.toNat n = .ok t ∧
        (f.WriteTrue u addr.toNat t ↔
          f.writable = false ∨ n.toInt < 0 ∨ Buffer u addr.toNat (f.writeLength n.toNat)) := by
  have small := addr.isLt
  have narrow := n.isLt
  have refused : (-1 : Int) < 0 := by decide
  refine ⟨?_, ?_, ?_, ?_⟩
  · obtain ⟨ret, -, all⟩ := Content.readi_spec u f.off small narrow fits
    unfold Transfer.CountTrue Buffer
    rw [← all]
    rcases ret with ⟨failed, none⟩ | ret
    · have copied := all.mpr (by rw [none]; exact fun k below => absurd below (Nat.not_lt_zero k))
      exact iff_of_true (by omega) copied
    · omega
  · by_cases taken : f.ip.Takes f.off n.toNat
    · obtain ⟨ret, most, -, all, result⟩ := Content.writei_taken u small taken
      unfold Transfer.CountTrue
      constructor
      · rintro ⟨count, -⟩
        exact .inr (all.mp (by omega))
      · rintro (rejected | mapped)
        · exact absurd taken rejected
        · have copied := all.mpr mapped
          refine ⟨by omega, ?_⟩
          rw [copied]
          exact (result mapped).2
    · rw [Content.writei_rejected u narrow fits taken]
      exact iff_of_true ⟨.inl refused, .refl⟩ (.inl taken)
  · cases readable : f.readable with
    | false =>
        unfold fileread
        rw [if_pos readable]
        exact iff_of_true ⟨.inl refused, rfl, rfl⟩ (.inl rfl)
    | true =>
        rw [fileread_iff small fits n readable]
        simp [Buffer]
  · cases writable : f.writable with
    | false =>
        refine ⟨⟨-1, 0, f, u⟩, if_pos writable, ?_⟩
        exact iff_of_true ⟨.inl refused, rfl, .refl⟩ (.inl rfl)
    | true =>
    unfold filewrite
    rw [if_neg (by simp [writable])]
    by_cases negative : n.toInt < 0
    · refine ⟨⟨-1, 0, f, u⟩, if_pos negative, ?_⟩
      exact iff_of_true ⟨.inl refused, rfl, .refl⟩ (.inr (.inl negative))
    rw [if_neg negative]
    obtain ⟨t, run, spec⟩ := chunks_spec u addr.toNat 0 (Nat.zero_le n.toNat) fits
    have exact := spec.exact
    have whole := spec.whole
    rw [Nat.sub_zero, Nat.add_zero] at exact whole
    refine ⟨t, run, ?_⟩
    constructor
    · intro told
      exact .inr (.inr (exact.mp told.offset))
    · rintro (none | none | mapped)
      · cases none
      · exact absurd none negative
      · obtain ⟨copied, ret, writes⟩ := whole mapped
        rw [Nat.zero_add] at copied
        refine ⟨?_, exact.mpr mapped, by rwa [copied]⟩
        omega

/-- A file of one byte. -/
def oneByte : OpenFile := ⟨true, true, 0, ⟨1, fun _ _ => 7⟩⟩

/-- User memory of one page. -/
def onePage : Uvm :=
  ⟨⟨[], fun _ => 1, fun _ _ => 0⟩, ⟨1, ∅, AList.insert 0 ⟨0, true, true, false, true, false⟩ ∅⟩⟩

/-- What `read` says of one byte is true where the buffer has a page. -/
theorem read_onePage : oneByte.ReadTrue (oneByte.fileread onePage 0 1) := by
  refine (transfers_true_iff oneByte onePage 0 1 (by decide)).2.2.1.mpr (.inr fun k below => ?_)
  have first : k < 1 := below
  have address : pgRoundDown ((BitVec.toNat (0 : BitVec 64) + 0) % 2 ^ 64) = 0 := by decide
  rw [Nat.lt_one_iff.mp first, Uvm.Mapped, address]
  rfl

/-- User memory without a page. -/
def noPages : Uvm := ⟨⟨[], fun _ => 0, fun _ _ => 0⟩, ⟨1, ∅, ∅⟩⟩

/-- `read` returns 1 without a byte copied where the buffer has no page. -/
theorem read_noPages : (oneByte.fileread noPages 0 1).ret = 1 ∧
    (oneByte.fileread noPages 0 1).copied = 0 ∧
      ¬ oneByte.ReadTrue (oneByte.fileread noPages 0 1) := by
  have ret : (oneByte.fileread noPages 0 1).ret = 1 := rfl
  have copied : (oneByte.fileread noPages 0 1).copied = 0 := by
    have unmapped : noPages.reach 0 1 = 0 := Uvm.reach_unmapped nofun
    have fails : noPages.copyout 0 [7] = (false, noPages) := by
      rw [Uvm.copyout, dif_neg (List.cons_ne_nil _ _)]
      rfl
    show (oneByte.ip.readLoop 1 0 0 0 0 noPages).1 = 0
    rw [Content.readLoop, dif_pos Nat.one_pos]
    show (match noPages.copyout 0 [7] with
      | (true, u) => oneByte.ip.readLoop 1 1 1 1 1 u
      | (false, u') => (0 + noPages.reach 0 1, u')).1 = 0
    rw [fails]
    exact (Nat.zero_add _).trans unmapped
  refine ⟨ret, copied, fun told => ?_⟩
  have count := told.count
  rw [ret, copied] at count
  omega

end OpenFile

end Riscv2os.Xv7
