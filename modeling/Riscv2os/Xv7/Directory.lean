import Riscv2os.Std.TransitionSystem
import Riscv2os.Xv7.FileTransfer

/-!
# Directories

A directory is a file of `struct dirent`: `dirlookup`, `dirlink` and the part of `sys_unlink` that
clears an entry. They read and write entries with `readi` and `writei` at kernel addresses, where no
copy fails. A C string is a function from indices to bytes; what stands behind its zero does not
matter.
-/

namespace Riscv2os.Xv7

open Riscv2os.Std

abbrev DIRSIZ : Nat := 14

/-- `sizeof(struct dirent)`. -/
abbrev DIRENT : Nat := 16

/-- A C string, from a pointer on. -/
abbrev CString := Nat → UInt8

namespace CString

/-- The string of a list. -/
def ofList (bytes : List UInt8) : CString := fun i => bytes.getD i 0

/-- `strncmp` from index `i` on, with `n` bytes left. -/
def strncmp (p q : CString) : Nat → Nat → Int
  | _, 0 => 0
  | i, n + 1 => if p i ≠ 0 ∧ p i = q i then strncmp p q (i + 1) n else (p i).toNat - (q i).toNat

/-- `strncpy` from index `i` on, with `n` bytes left. -/
def strncpy (t : CString) : Nat → Nat → List UInt8
  | _, 0 => []
  | i, n + 1 => if t i ≠ 0 then t i :: strncpy t (i + 1) n else 0 :: List.replicate n 0

/-- The bytes before the zero, from index `i` on and at most `n`. -/
def upTo (p : CString) : Nat → Nat → List UInt8
  | _, 0 => []
  | i, n + 1 => if p i = 0 then [] else p i :: upTo p (i + 1) n

/-- The name that a string is in a directory. -/
def name (p : CString) : List UInt8 := p.upTo 0 DIRSIZ

theorem strncmp_eq_zero_iff (p q : CString) (i n : Nat) :
    strncmp p q i n = 0 ↔ p.upTo i n = q.upTo i n := by
  induction n generalizing i with
  | zero => exact ⟨fun _ => rfl, fun _ => rfl⟩
  | succ n ih =>
      unfold strncmp upTo
      have nat : ∀ a b : UInt8, (a.toNat : Int) - b.toNat = 0 ↔ a = b := by
        intro a b
        rw [← UInt8.toNat_inj]
        omega
      by_cases same : p i = q i
      · by_cases stop : q i = 0
        · simp [same, stop]
        · simp [same, stop, ih]
      · rw [if_neg (fun both => same both.2), nat]
        by_cases stop : p i = 0
        · by_cases stop' : q i = 0
          · exact absurd (stop.trans stop'.symm) same
          · simp [stop, stop', Ne.symm stop']
        · by_cases stop' : q i = 0
          · simp [stop, stop']
          · simp [stop, stop', same]

theorem length_strncpy (t : CString) (i n : Nat) : (t.strncpy i n).length = n := by
  induction n generalizing i with
  | zero => rfl
  | succ n ih =>
      unfold strncpy
      split
      · rw [List.length_cons, ih]
      · simp

/-- A copy has the name that was copied, whatever follows it. -/
theorem upTo_strncpy (t p : CString) {i n : Nat} (copy : ∀ k < n, p (i + k) = (t.strncpy i n).getD k 0) :
    p.upTo i n = t.upTo i n := by
  induction n generalizing i with
  | zero => rfl
  | succ n ih =>
      have first := copy 0 (Nat.succ_pos n)
      unfold strncpy at copy first
      unfold upTo
      by_cases stop : t i = 0
      · simp only [stop, ne_eq, not_true, if_false, List.getD_cons_zero, Nat.add_zero] at first
        rw [if_pos first, if_pos stop]
      · simp only [stop, ne_eq, not_false_iff, if_true, List.getD_cons_zero, Nat.add_zero] at copy first
        rw [first, if_neg stop, if_neg stop, ih fun k below => ?_]
        have next := copy (k + 1) (Nat.succ_lt_succ below)
        rwa [List.getD_cons_succ, Nat.add_comm k 1, ← Nat.add_assoc] at next

end CString

/-- `namecmp`. -/
def namecmp (s t : CString) : Int := CString.strncmp s t 0 DIRSIZ

theorem namecmp_eq_zero_iff (s t : CString) : namecmp s t = 0 ↔ s.name = t.name :=
  CString.strncmp_eq_zero_iff s t 0 DIRSIZ

/-- `struct dirent`. -/
structure Dirent where
  inum : Nat
  name : CString

namespace Dirent

/-- The entry in 16 bytes. -/
def ofBytes (bytes : List UInt8) : Dirent :=
  ⟨(bytes.getD 0 0).toNat + 256 * (bytes.getD 1 0).toNat, fun i => bytes.getD (2 + i) 0⟩

/-- The bytes of an entry with the name that `strncpy` makes. -/
def bytes (inum : Nat) (name : CString) : List UInt8 :=
  UInt8.ofNat inum :: UInt8.ofNat (inum / 256) :: name.strncpy 0 DIRSIZ

theorem length_bytes (inum : Nat) (name : CString) : (bytes inum name).length = DIRENT := by
  simp [bytes, CString.length_strncpy]

end Dirent

namespace Content

variable {ip ip' : Content} {off n : Nat}

/-- The loop of `readi` at a kernel address. -/
def readKernelLoop (ip : Content) (n tot off : Nat) : List UInt8 :=
  if _more : tot < n then
    let m := min (n - tot) (BSIZE - off % BSIZE)
    (ip.block (off / BSIZE)).slice (off % BSIZE) m ++ readKernelLoop ip n (tot + m) (off + m)
  else []
  termination_by n - tot
  decreasing_by
    have := Nat.mod_lt off (show 0 < BSIZE by decide)
    omega

/-- `readi` at a kernel address, with the bytes that it copies. -/
def readKernel (ip : Content) (off n : Nat) : Int × List UInt8 :=
  if off > ip.size ∨ (off + n) % 2 ^ 32 < off then (-1, [])
  else
    let n := if (off + n) % 2 ^ 32 > ip.size then ip.size - off else n
    ((BitVec.ofNat 32 n).toInt, ip.readKernelLoop n 0 off)

/-- The loop of `writei` at a kernel address. -/
def writeKernelLoop (src : List UInt8) (tot off : Nat) (ip : Content) : Nat × Content :=
  if _more : tot < src.length then
    let m := min (src.length - tot) (BSIZE - off % BSIZE)
    writeKernelLoop src (tot + m) (off + m)
      (ip.setBlock (off / BSIZE) ((ip.block (off / BSIZE)).splice (off % BSIZE) ((src.drop tot).take m)))
  else (off, ip)
  termination_by src.length - tot
  decreasing_by
    have := Nat.mod_lt off (show 0 < BSIZE by decide)
    omega

/-- `writei` at a kernel address. -/
def writeKernel (ip : Content) (src : List UInt8) (off : Nat) : Int × Content :=
  if off > ip.size ∨ (off + src.length) % 2 ^ 32 < off then (-1, ip)
  else if (off + src.length) % 2 ^ 32 > MAXFILE * BSIZE then (-1, ip)
  else
    let (off, ip) := writeKernelLoop src 0 off ip
    ((BitVec.ofNat 32 src.length).toInt,
      if src.length > 0 ∧ off > ip.size then { ip with size := off } else ip)

theorem readKernelLoop_eq (ip : Content) (n tot off : Nat) :
    ip.readKernelLoop n tot off = (List.range (n - tot)).map fun k => ip.byte (off + k) := by
  induction tot, off using readKernelLoop.induct n with
  | case1 tot off more m ih =>
      have room := Nat.mod_lt off (show 0 < BSIZE by decide)
      have split : n - tot = m + (n - (tot + m)) := by omega
      rw [readKernelLoop, dif_pos more]
      show (ip.block (off / BSIZE)).slice (off % BSIZE) m ++ _ = _
      rw [ih, split, List.range_add, List.map_append, List.map_map]
      congr 1
      · refine List.map_congr_left fun k below => ?_
        have small : k < m := List.mem_range.mp below
        have inside : off % BSIZE + k < BSIZE := by omega
        have place : (off + k) / BSIZE = off / BSIZE ∧ (off + k) % BSIZE = off % BSIZE + k := by
          simp only [BSIZE] at inside ⊢
          omega
        rw [byte, place.1, place.2]
      · refine List.map_congr_left fun k _ => ?_
        simp [Nat.add_assoc]
  | case2 tot off done =>
      rw [readKernelLoop, dif_neg done, Nat.sub_eq_zero_of_le (Nat.le_of_not_lt done)]
      rfl

/-- Inside the file `readi` reads the bytes of the file. -/
theorem readKernel_eq (fits : ip.size ≤ MAXFILE * BSIZE) (inside : off + n ≤ ip.size) :
    ip.readKernel off n = ((n : Int), (List.range n).map fun k => ip.byte (off + k)) := by
  have bound := MAXFILE_bytes
  unfold readKernel
  rw [if_neg (by omega), if_neg (by omega)]
  dsimp only
  rw [readKernelLoop_eq, toInt_small (by omega), Nat.sub_zero]

theorem writeKernelLoop_spec (src : List UInt8) (tot off : Nat) (ip : Content) :
    (writeKernelLoop src tot off ip).1 = off + (src.length - tot) ∧
      (writeKernelLoop src tot off ip).2.size = ip.size ∧
      ∀ k, (writeKernelLoop src tot off ip).2.byte k =
        if off ≤ k ∧ k < off + (src.length - tot) then src.getD (tot + (k - off)) 0 else ip.byte k := by
  induction tot, off, ip using writeKernelLoop.induct src with
  | case1 tot off ip more m ih =>
      have room := Nat.mod_lt off (show 0 < BSIZE by decide)
      have parts := Nat.div_add_mod' off BSIZE
      have length : ((src.drop tot).take m).length = m := by
        rw [List.length_take, List.length_drop]
        omega
      obtain ⟨stop, size, bytes⟩ := ih
      have step : writeKernelLoop src tot off ip = writeKernelLoop src (tot + m) (off + m)
          (ip.setBlock (off / BSIZE)
            ((ip.block (off / BSIZE)).splice (off % BSIZE) ((src.drop tot).take m))) := by
        rw [writeKernelLoop, dif_pos more]
      rw [step]
      refine ⟨by omega, size, fun k => ?_⟩
      rw [bytes, ip.byte_setBlock (off / BSIZE) k (by rw [length]; omega), parts, length]
      by_cases later : off + m ≤ k ∧ k < off + m + (src.length - (tot + m))
      · rw [if_pos later, if_pos (by omega)]
        congr 1
        omega
      · rw [if_neg later]
        by_cases now : off ≤ k ∧ k < off + m
        · rw [if_pos now, if_pos (by omega)]
          simp only [List.getD_eq_getElem?_getD, List.getElem?_take, List.getElem?_drop]
          rw [if_pos (by omega)]
        · rw [if_neg now, if_neg (by omega)]
  | case2 tot off ip done =>
      rw [writeKernelLoop, dif_neg done]
      refine ⟨by show off = _; omega, rfl, fun k => ?_⟩
      rw [if_neg (by omega)]

/-- `writei` puts the bytes into the file, which grows if they reach beyond its end. -/
theorem writeKernel_spec {src : List UInt8} (some : 0 < src.length) (low : off ≤ ip.size)
    (high : off + src.length ≤ MAXFILE * BSIZE) :
    (ip.writeKernel src off).1 = src.length ∧
      (ip.writeKernel src off).2.size = max ip.size (off + src.length) ∧
      ∀ k, (ip.writeKernel src off).2.byte k =
        if off ≤ k ∧ k < off + src.length then src.getD (k - off) 0 else ip.byte k := by
  have bound := MAXFILE_bytes
  obtain ⟨stop, size, bytes⟩ := writeKernelLoop_spec src 0 off ip
  rw [Nat.sub_zero] at stop bytes
  simp only [Nat.zero_add] at bytes
  unfold writeKernel
  rw [if_neg (by omega), if_neg (by omega)]
  refine ⟨toInt_small (by omega), ?_, fun k => ?_⟩
  · dsimp only
    split
    · show (writeKernelLoop src 0 off ip).1 = _
      omega
    · omega
  · rw [← bytes k]
    dsimp only
    split <;> rfl

/-- The loop of `dirlookup`. -/
def lookupLoop (dp : Content) (name : CString) (off : Nat) : Except Fault (Option (Nat × Nat)) :=
  if _more : off < dp.size then
    let r := dp.readKernel off DIRENT
    if r.1 ≠ DIRENT then .error (.panic "dirlookup read")
    else if (Dirent.ofBytes r.2).inum = 0 then lookupLoop dp name (off + DIRENT)
    else if namecmp name (Dirent.ofBytes r.2).name = 0 then .ok (some ((Dirent.ofBytes r.2).inum, off))
    else lookupLoop dp name (off + DIRENT)
  else .ok none
  termination_by dp.size - off
  decreasing_by all_goals simp only [DIRENT]; omega

/-- Look for an entry in a directory. The result is its inode number with its offset. -/
def dirlookup (dp : Content) (name : CString) : Except Fault (Option (Nat × Nat)) :=
  dp.lookupLoop name 0

/-- The loop of `dirlink` that looks for an empty entry. -/
def emptyLoop (dp : Content) (off : Nat) : Except Fault Nat :=
  if _more : off < dp.size then
    let r := dp.readKernel off DIRENT
    if r.1 ≠ DIRENT then .error (.panic "dirlink read")
    else if (Dirent.ofBytes r.2).inum = 0 then .ok off
    else emptyLoop dp (off + DIRENT)
  else .ok off
  termination_by dp.size - off
  decreasing_by simp only [DIRENT]; omega

/-- Write a new entry into a directory. The flag is false when the C function returns -1. -/
def dirlink (dp : Content) (name : CString) (inum : Nat) : Except Fault (Bool × Content) := do
  match ← dp.dirlookup name with
  | some _ => return (false, dp)
  | none =>
      let off ← dp.emptyLoop 0
      let r := dp.writeKernel (Dirent.bytes inum name) off
      if r.1 ≠ DIRENT then .error (.panic "dirlink") else return (true, r.2)

/-- What `sys_unlink` does with the directory. Whether it may remove the file, which it may not if that is
a directory with entries, is a parameter. -/
def unlink (dp : Content) (name : CString) (removable : Bool) : Except Fault (Bool × Content) :=
  if namecmp name (.ofList [46]) = 0 ∨ namecmp name (.ofList [46, 46]) = 0 then .ok (false, dp)
  else do
    match ← dp.dirlookup name with
    | none => return (false, dp)
    | some (_, off) =>
        if removable then
          let r := dp.writeKernel (List.replicate DIRENT 0) off
          if r.1 ≠ DIRENT then .error (.panic "unlink: writei") else return (true, r.2)
        else return (false, dp)

/-- The inode number of an entry. -/
def inumAt (dp : Content) (k : Nat) : Nat :=
  (dp.byte (DIRENT * k)).toNat + 256 * (dp.byte (DIRENT * k + 1)).toNat

/-- The name of an entry. -/
def nameAt (dp : Content) (k : Nat) : CString := fun i => dp.byte (DIRENT * k + (2 + i))

/-- Entry `k` is in use, for a name. -/
structure Entry (dp : Content) (k : Nat) (name : List UInt8) : Prop where
  inside : DIRENT * k + DIRENT ≤ dp.size
  live : dp.inumAt k ≠ 0
  named : (dp.nameAt k).name = name

/-- The size of a directory is that of whole entries, and no two entries have one name. -/
structure Directory (dp : Content) : Prop where
  fits : dp.size ≤ MAXFILE * BSIZE
  aligned : dp.size % DIRENT = 0
  unique : ∀ i j name, dp.Entry i name → dp.Entry j name → i = j

theorem upTo_congr {p q : CString} {i n : Nat} (same : ∀ k < n, p (i + k) = q (i + k)) :
    p.upTo i n = q.upTo i n := by
  induction n generalizing i with
  | zero => rfl
  | succ n ih =>
      have first := same 0 (Nat.succ_pos n)
      rw [Nat.add_zero] at first
      unfold CString.upTo
      rw [first, ih fun k below => ?_]
      have next := same (k + 1) (Nat.succ_lt_succ below)
      rwa [Nat.add_comm k 1, ← Nat.add_assoc] at next

variable {dp dp' : Content} {k : Nat} {name : CString}

/-- What the loops over a directory read at an entry. -/
theorem readKernel_entry (directory : dp.Directory) (inside : DIRENT * k < dp.size) :
    (dp.readKernel (DIRENT * k) DIRENT).1 = DIRENT ∧
      (Dirent.ofBytes (dp.readKernel (DIRENT * k) DIRENT).2).inum = dp.inumAt k ∧
      (Dirent.ofBytes (dp.readKernel (DIRENT * k) DIRENT).2).name.name = (dp.nameAt k).name := by
  have aligned := directory.aligned
  have whole : DIRENT * k + DIRENT ≤ dp.size := by
    simp only [DIRENT] at aligned inside ⊢
    omega
  rw [readKernel_eq directory.fits whole]
  refine ⟨rfl, rfl, upTo_congr fun i below => ?_⟩
  have index : 2 + (0 + i) < DIRENT := by
    simp only [DIRSIZ] at below
    simp only [DIRENT]
    omega
  show ((List.range DIRENT).map fun j => dp.byte (DIRENT * k + j)).getD (2 + (0 + i)) 0 = _
  rw [List.getD_eq_getElem?_getD, List.getElem?_map, List.getElem?_range index]
  rfl

theorem lookupLoop_spec (directory : dp.Directory) (name : CString) (k : Nat) :
    ∃ found, dp.lookupLoop name (DIRENT * k) = .ok found ∧
      (∀ inum off, found = some (inum, off) →
        ∃ j, dp.Entry j name.name ∧ inum = dp.inumAt j ∧ off = DIRENT * j) ∧
      (found = none → ∀ j, k ≤ j → ¬ dp.Entry j name.name) := by
  have aligned := directory.aligned
  by_cases inside : DIRENT * k < dp.size
  · obtain ⟨whole, inum, named⟩ := readKernel_entry directory inside
    have next : DIRENT * k + DIRENT = DIRENT * (k + 1) := rfl
    have later := lookupLoop_spec directory name (k + 1)
    rw [lookupLoop, dif_pos inside]
    dsimp only
    rw [if_neg (not_not.mpr whole), inum, next]
    by_cases vacant : dp.inumAt k = 0
    · rw [if_pos vacant]
      obtain ⟨found, run, hit, miss⟩ := later
      refine ⟨found, run, hit, fun none j above entry => ?_⟩
      rcases Nat.eq_or_lt_of_le above with rfl | above
      · exact entry.live vacant
      · exact miss none j above entry
    rw [if_neg vacant]
    have compare := namecmp_eq_zero_iff name (Dirent.ofBytes (dp.readKernel (DIRENT * k) DIRENT).2).name
    rw [named] at compare
    by_cases same : name.name = (dp.nameAt k).name
    · rw [if_pos (compare.mpr same)]
      refine ⟨_, rfl, ?_, nofun⟩
      rintro _ _ ⟨⟩
      have room : DIRENT * k + DIRENT ≤ dp.size := by
        simp only [DIRENT] at aligned inside ⊢
        omega
      exact ⟨k, ⟨room, vacant, same.symm⟩, rfl, rfl⟩
    · rw [if_neg (mt compare.mp same)]
      obtain ⟨found, run, hit, miss⟩ := later
      refine ⟨found, run, hit, fun none j above entry => ?_⟩
      rcases Nat.eq_or_lt_of_le above with rfl | above
      · exact same entry.named.symm
      · exact miss none j above entry
  · rw [lookupLoop, dif_neg inside]
    refine ⟨none, rfl, nofun, fun _ j above entry => ?_⟩
    have bound := entry.inside
    simp only [DIRENT] at bound inside
    omega
  termination_by dp.size - DIRENT * k
  decreasing_by
    simp only [DIRENT] at inside ⊢
    omega

theorem emptyLoop_spec (directory : dp.Directory) (k : Nat) (below : DIRENT * k ≤ dp.size) :
    ∃ j, dp.emptyLoop (DIRENT * k) = .ok (DIRENT * j) ∧
      (DIRENT * j + DIRENT ≤ dp.size ∧ dp.inumAt j = 0 ∨
        DIRENT * j = dp.size ∧ ∀ i, k ≤ i → DIRENT * i + DIRENT ≤ dp.size → dp.inumAt i ≠ 0) := by
  have aligned := directory.aligned
  by_cases inside : DIRENT * k < dp.size
  · obtain ⟨whole, inum, -⟩ := readKernel_entry directory inside
    have room : DIRENT * k + DIRENT ≤ dp.size := by
      simp only [DIRENT] at aligned inside ⊢
      omega
    have next : DIRENT * k + DIRENT = DIRENT * (k + 1) := rfl
    rw [emptyLoop, dif_pos inside]
    dsimp only
    rw [if_neg (not_not.mpr whole), inum, next]
    by_cases vacant : dp.inumAt k = 0
    · rw [if_pos vacant]
      exact ⟨k, rfl, .inl ⟨room, vacant⟩⟩
    · rw [if_neg vacant]
      obtain ⟨j, run, empty | ⟨last, full⟩⟩ := emptyLoop_spec directory (k + 1) room
      · exact ⟨j, run, .inl empty⟩
      · refine ⟨j, run, .inr ⟨last, fun i above within => ?_⟩⟩
        rcases Nat.eq_or_lt_of_le above with rfl | above
        · exact vacant
        · exact full i above within
  · rw [emptyLoop, dif_neg inside]
    have last : DIRENT * k = dp.size := Nat.le_antisymm below (Nat.le_of_not_lt inside)
    refine ⟨k, rfl, .inr ⟨last, fun i above within => ?_⟩⟩
    simp only [DIRENT] at last within
    omega
  termination_by dp.size - DIRENT * k
  decreasing_by
    simp only [DIRENT] at inside ⊢
    omega

/-- Every entry but `k` is as it was, and entry `k` has these bytes. -/
structure Puts (dp dp' : Content) (k inum : Nat) (name : List UInt8) : Prop where
  size : dp'.size = max dp.size (DIRENT * k + DIRENT)
  others : ∀ j, j ≠ k → dp'.inumAt j = dp.inumAt j ∧ (dp'.nameAt j).name = (dp.nameAt j).name
  inum : dp'.inumAt k = inum
  name : (dp'.nameAt k).name = name

/-- Writing an entry. -/
theorem writeKernel_puts {bytes : List UInt8} (length : bytes.length = DIRENT)
    (low : DIRENT * k ≤ dp.size) (high : DIRENT * k + DIRENT ≤ MAXFILE * BSIZE) :
    (dp.writeKernel bytes (DIRENT * k)).1 = DIRENT ∧
      Puts dp (dp.writeKernel bytes (DIRENT * k)).2 k (Dirent.ofBytes bytes).inum
        (Dirent.ofBytes bytes).name.name := by
  obtain ⟨whole, size, byte⟩ := writeKernel_spec (by rw [length]; decide) low (by rwa [length])
  rw [length] at whole size byte
  have here : ∀ i < DIRENT, (dp.writeKernel bytes (DIRENT * k)).2.byte (DIRENT * k + i) =
      bytes.getD i 0 := by
    intro i below
    rw [byte, if_pos (by omega), Nat.add_sub_cancel_left]
  refine ⟨whole, size, fun j other => ?_, ?_, ?_⟩
  · have there : ∀ i < DIRENT, (dp.writeKernel bytes (DIRENT * k)).2.byte (DIRENT * j + i) =
        dp.byte (DIRENT * j + i) := by
      intro i below
      rw [byte, if_neg]
      simp only [DIRENT] at below ⊢
      omega
    refine ⟨?_, upTo_congr fun i below => there (2 + (0 + i)) ?_⟩
    · show (Content.byte _ (DIRENT * j + 0)).toNat + 256 * (Content.byte _ (DIRENT * j + 1)).toNat = _
      rw [there 0 (by decide), there 1 (by decide)]
      rfl
    · simp only [DIRSIZ] at below
      simp only [DIRENT]
      omega
  · show (Content.byte _ (DIRENT * k + 0)).toNat + 256 * (Content.byte _ (DIRENT * k + 1)).toNat = _
    rw [here 0 (by decide), here 1 (by decide)]
    rfl
  · refine upTo_congr fun i below => here (2 + (0 + i)) ?_
    simp only [DIRSIZ] at below
    simp only [DIRENT]
    omega

/-- The entries after one was written. -/
theorem Puts.entry_iff {inum j : Nat} {name nm : List UInt8} (puts : Puts dp dp' k inum name)
    (low : DIRENT * k ≤ dp.size) :
    dp'.Entry j nm ↔ j = k ∧ inum ≠ 0 ∧ nm = name ∨ j ≠ k ∧ dp.Entry j nm := by
  have size := puts.size
  by_cases same : j = k
  · subst same
    constructor
    · intro entry
      exact .inl ⟨rfl, puts.inum ▸ entry.live, entry.named.symm.trans puts.name⟩
    · rintro (⟨-, live, rfl⟩ | ⟨other, -⟩)
      · exact ⟨by omega, puts.inum.symm ▸ live, puts.name⟩
      · exact absurd rfl other
  · obtain ⟨inumAt, nameAt⟩ := puts.others j same
    have inside : DIRENT * j + DIRENT ≤ dp'.size ↔ DIRENT * j + DIRENT ≤ dp.size := by
      rw [size]
      simp only [DIRENT] at low ⊢
      omega
    constructor
    · intro entry
      exact .inr ⟨same, inside.mp entry.inside, inumAt ▸ entry.live, nameAt.symm.trans entry.named⟩
    · rintro (⟨here, -⟩ | ⟨-, entry⟩)
      · exact absurd here same
      · exact ⟨inside.mpr entry.inside, inumAt.symm ▸ entry.live, nameAt.trans entry.named⟩

/-- A directory stays one where the name that is written is not in it. -/
theorem Puts.directory {inum : Nat} {name : List UInt8} (puts : Puts dp dp' k inum name)
    (directory : dp.Directory) (low : DIRENT * k ≤ dp.size)
    (high : DIRENT * k + DIRENT ≤ MAXFILE * BSIZE)
    (absent : inum ≠ 0 → ∀ j, ¬ dp.Entry j name) : dp'.Directory where
  fits := by
    have fits := directory.fits
    rw [puts.size]
    omega
  aligned := by
    have aligned := directory.aligned
    rw [puts.size]
    simp only [DIRENT] at aligned ⊢
    omega
  unique i j nm first second := by
    rcases (puts.entry_iff low).mp first with ⟨rfl, live, rfl⟩ | ⟨-, first⟩
    · rcases (puts.entry_iff low).mp second with ⟨rfl, -⟩ | ⟨-, second⟩
      · rfl
      · exact absurd second (absent live j)
    · rcases (puts.entry_iff low).mp second with ⟨rfl, live, rfl⟩ | ⟨-, second⟩
      · exact absurd first (absent live i)
      · exact directory.unique i j nm first second

theorem dirlookup_spec (directory : dp.Directory) (name : CString) :
    ∃ found, dp.dirlookup name = .ok found ∧
      (∀ inum off, found = some (inum, off) →
        ∃ j, dp.Entry j name.name ∧ inum = dp.inumAt j ∧ off = DIRENT * j) ∧
      (found = none → ∀ j, ¬ dp.Entry j name.name) := by
  obtain ⟨found, run, hit, miss⟩ := lookupLoop_spec directory name 0
  exact ⟨found, run, hit, fun none j => miss none j (Nat.zero_le j)⟩

/-- The directory has a place for one more entry. -/
def Room (dp : Content) : Prop :=
  (∃ k, DIRENT * k + DIRENT ≤ dp.size ∧ dp.inumAt k = 0) ∨ dp.size + DIRENT ≤ MAXFILE * BSIZE

theorem dirlink_present {j : Nat} (inum : Nat) (directory : dp.Directory)
    (entry : dp.Entry j name.name) : dp.dirlink name inum = .ok (false, dp) := by
  obtain ⟨found, run, -, miss⟩ := dirlookup_spec directory name
  unfold dirlink
  rw [run]
  cases found with
  | none => exact absurd entry (miss rfl j)
  | some found => rfl

theorem inum_bytes {inum : Nat} (small : inum < 2 ^ 16) (name : CString) :
    (Dirent.ofBytes (Dirent.bytes inum name)).inum = inum ∧
      (Dirent.ofBytes (Dirent.bytes inum name)).name.name = name.name := by
  constructor
  · show (UInt8.ofNat inum).toNat + 256 * (UInt8.ofNat (inum / 256)).toNat = inum
    simp only [UInt8.toNat_ofNat']
    omega
  · refine CString.upTo_strncpy name _ fun i below => ?_
    show (Dirent.bytes inum name).getD (2 + (0 + i)) 0 = _
    rw [Nat.zero_add, Nat.add_comm 2 i]
    rfl

theorem dirlink_absent {inum : Nat} (directory : dp.Directory) (small : inum < 2 ^ 16)
    (absent : ∀ j, ¬ dp.Entry j name.name) :
    (dp.dirlink name inum = .error (.panic "dirlink") ∧ ¬ dp.Room) ∨
      ∃ k dp', dp.dirlink name inum = .ok (true, dp') ∧ dp.Room ∧ DIRENT * k ≤ dp.size ∧
        DIRENT * k + DIRENT ≤ MAXFILE * BSIZE ∧ (∀ nm, ¬ dp.Entry k nm) ∧
        Puts dp dp' k inum name.name := by
  have fits := directory.fits
  obtain ⟨found, run, hit, -⟩ := dirlookup_spec directory name
  have none : found = none := by
    cases found with
    | none => rfl
    | some found =>
        obtain ⟨j, entry, -⟩ := hit found.1 found.2 rfl
        exact absurd entry (absent j)
  subst none
  obtain ⟨k, free, place⟩ := emptyLoop_spec directory 0 (Nat.zero_le _)
  rw [Nat.mul_zero] at free
  have unfolded : dp.dirlink name inum =
      if (dp.writeKernel (Dirent.bytes inum name) (DIRENT * k)).1 ≠ DIRENT then .error (.panic "dirlink")
      else .ok (true, (dp.writeKernel (Dirent.bytes inum name) (DIRENT * k)).2) := by
    unfold dirlink
    rw [run]
    simp only [bind, Except.bind, free]
    rfl
  have low : DIRENT * k ≤ dp.size := by
    rcases place with ⟨inside, -⟩ | ⟨last, -⟩ <;> omega
  have unused : ∀ nm, ¬ dp.Entry k nm := by
    intro nm entry
    have inside := entry.inside
    rcases place with ⟨-, vacant⟩ | ⟨last, -⟩
    · exact entry.live vacant
    · simp only [DIRENT] at last inside
      omega
  by_cases high : DIRENT * k + DIRENT ≤ MAXFILE * BSIZE
  · obtain ⟨whole, puts⟩ := writeKernel_puts (Dirent.length_bytes inum name) low high
    rw [(inum_bytes small name).1, (inum_bytes small name).2] at puts
    have room : dp.Room := by
      rcases place with ⟨inside, vacant⟩ | ⟨last, -⟩
      · exact .inl ⟨k, inside, vacant⟩
      · exact .inr (by omega)
    refine .inr ⟨k, _, ?_, room, low, high, unused, puts⟩
    rw [unfolded, if_neg (not_not.mpr whole)]
  · left
    obtain ⟨last, full⟩ : DIRENT * k = dp.size ∧ ∀ i, 0 ≤ i → DIRENT * i + DIRENT ≤ dp.size →
        dp.inumAt i ≠ 0 := by
      rcases place with ⟨inside, -⟩ | place
      · exact absurd (le_trans inside fits) high
      · exact place
    constructor
    · have bound := MAXFILE_bytes
      have short : (dp.writeKernel (Dirent.bytes inum name) (DIRENT * k)).1 = -1 := by
        unfold writeKernel
        rw [Dirent.length_bytes]
        split
        · rfl
        · rw [if_pos]
          simp only [DIRENT] at high last ⊢
          omega
      rw [unfolded, short]
      rfl
    · rintro (⟨i, inside, vacant⟩ | more)
      · exact full i (Nat.zero_le i) inside vacant
      · omega

/-- `sys_unlink` does not take these. -/
def Dots (name : CString) : Prop := namecmp name (.ofList [46]) = 0 ∨ namecmp name (.ofList [46, 46]) = 0

/-- `sys_unlink` clears the entry of a name, or finds no reason to and leaves the directory alone. -/
theorem unlink_spec (directory : dp.Directory) (name : CString) (removable : Bool) :
    (dp.unlink name removable = .ok (false, dp) ∧
        (Dots name ∨ removable = false ∨ ∀ k, ¬ dp.Entry k name.name)) ∨
      ∃ k dp', dp.unlink name removable = .ok (true, dp') ∧ (¬ Dots name ∧ removable = true) ∧
        DIRENT * k + DIRENT ≤ dp.size ∧ dp.Entry k name.name ∧ Puts dp dp' k 0 [] := by
  have fits := directory.fits
  obtain ⟨found, run, hit, miss⟩ := dirlookup_spec directory name
  unfold unlink
  split
  · next dots => exact .inl ⟨rfl, .inl dots⟩
  next dots =>
  rw [run]
  cases found with
  | none => exact .inl ⟨rfl, .inr (.inr (miss rfl))⟩
  | some found =>
      obtain ⟨k, entry, -, off⟩ := hit found.1 found.2 rfl
      cases removable with
      | false => exact .inl ⟨rfl, .inr (.inl rfl)⟩
      | true =>
          have inside := entry.inside
          obtain ⟨whole, puts⟩ := @writeKernel_puts dp k (List.replicate DIRENT 0) rfl
            (by omega) (le_trans inside fits)
          refine .inr ⟨k, _, ?_, ⟨dots, rfl⟩, inside, entry, puts⟩
          show (if (dp.writeKernel (List.replicate DIRENT 0) found.2).1 ≠ DIRENT then _ else _) = _
          rw [off, if_neg (not_not.mpr whole)]
          rfl

/-- A cleared entry is a place for another one. -/
theorem Puts.room (puts : Puts dp dp' k 0 []) : dp'.Room := by
  have size := puts.size
  exact .inl ⟨k, by omega, puts.inum⟩

end Content

/-- A directory, with the inode numbers of the last successful `dirlink` of each name that is not yet
unlinked. -/
structure Linked where
  dir : Content
  inum : List UInt8 → Option Nat

/-- A call on the directory. -/
inductive DirCall where
  | dirlink (name : CString) (inum : Nat)
  | unlink (name : CString) (removable : Bool)

namespace Linked

open Content

/-- The calls link files with numbers of 16 bits that are not 0. -/
def Valid : DirCall → Prop
  | .dirlink _ inum => 0 < inum ∧ inum < 2 ^ 16
  | .unlink .. => True

/-- A call that returns, and what it says about the name. -/
def step (s : Linked) : DirCall → Option Linked
  | .dirlink name inum =>
      match s.dir.dirlink name inum with
      | .ok (true, dir) => some ⟨dir, Function.update s.inum name.name (some inum)⟩
      | .ok (false, dir) => some { s with dir := dir }
      | .error _ => none
  | .unlink name removable =>
      match s.dir.unlink name removable with
      | .ok (true, dir) => some ⟨dir, Function.update s.inum name.name none⟩
      | .ok (false, dir) => some { s with dir := dir }
      | .error _ => none

/-- The calls on one directory, which is empty at first. -/
def system : TransitionSystem Linked DirCall where
  Initial s := s.dir.size = 0 ∧ s.inum = fun _ => none
  Step s call s' := Valid call ∧ s.step call = some s'

/-- The entries are the names that are linked. -/
structure Sound (s : Linked) : Prop where
  directory : s.dir.Directory
  linked : ∀ name inum, s.inum name = some inum ↔ ∃ k, s.dir.Entry k name ∧ s.dir.inumAt k = inum

variable {s s' : Linked}

theorem Sound.none_iff (sound : s.Sound) (name : List UInt8) :
    s.inum name = none ↔ ∀ k, ¬ s.dir.Entry k name := by
  constructor
  · intro none k entry
    have some := (sound.linked name _).mpr ⟨k, entry, rfl⟩
    rw [none] at some
    cases some
  · intro absent
    cases found : s.inum name with
    | none => rfl
    | some inum =>
        obtain ⟨k, entry, -⟩ := (sound.linked name inum).mp found
        exact absurd entry (absent k)

/-- An entry is written for a name that is then linked, or cleared for one that is then not. -/
theorem Sound.puts {dir : Content} {k inum : Nat} {name nm : List UInt8} (sound : s.Sound)
    (puts : Content.Puts s.dir dir k inum nm) (low : DIRENT * k ≤ s.dir.size)
    (directory : dir.Directory)
    (others : ∀ j, j ≠ k → ¬ s.dir.Entry j name) (own : ∀ nm, s.dir.Entry k nm → nm = name)
    (named : inum ≠ 0 → nm = name) :
    Sound ⟨dir, Function.update s.inum name (if inum = 0 then none else some inum)⟩ where
  directory := directory
  linked other number := by
    show Function.update s.inum name _ other = _ ↔ _
    by_cases same : other = name
    · subst same
      rw [Function.update_self]
      by_cases clear : inum = 0
      · rw [if_pos clear]
        refine iff_of_false nofun ?_
        rintro ⟨j, entry, -⟩
        rcases (puts.entry_iff low).mp entry with ⟨-, live, -⟩ | ⟨apart, entry⟩
        · exact live clear
        · exact others j apart entry
      · rw [if_neg clear, Option.some.injEq]
        constructor
        · rintro rfl
          exact ⟨k, (puts.entry_iff low).mpr (.inl ⟨rfl, clear, (named clear).symm⟩), puts.inum⟩
        · rintro ⟨j, entry, rfl⟩
          rcases (puts.entry_iff low).mp entry with ⟨rfl, -⟩ | ⟨apart, entry⟩
          · exact puts.inum.symm
          · exact absurd entry (others j apart)
    · rw [Function.update_of_ne same, sound.linked]
      constructor
      · rintro ⟨j, entry, rfl⟩
        have apart : j ≠ k := by
          rintro rfl
          exact same (own other entry)
        exact ⟨j, (puts.entry_iff low).mpr (.inr ⟨apart, entry⟩), (puts.others j apart).1⟩
      · rintro ⟨j, entry, rfl⟩
        rcases (puts.entry_iff low).mp entry with ⟨-, live, rfl⟩ | ⟨apart, entry⟩
        · exact absurd (named live) same
        · exact ⟨j, entry, (puts.others j apart).1.symm⟩

theorem Sound.step {call : DirCall} (sound : s.Sound) (valid : Valid call)
    (next : s.step call = some s') : s'.Sound := by
  cases call with
  | dirlink name inum =>
      unfold Linked.step at next
      dsimp only at next
      cases old : s.inum name.name with
      | some number =>
          obtain ⟨k, entry, -⟩ := (sound.linked _ _).mp old
          rw [dirlink_present inum sound.directory entry] at next
          cases next
          exact sound
      | none =>
          have absent := (sound.none_iff _).mp old
          rcases dirlink_absent sound.directory valid.2 absent with
            ⟨fails, -⟩ | ⟨k, dir, run, -, low, high, free, puts⟩
          · rw [fails] at next
            cases next
          · rw [run] at next
            cases next
            have live : inum ≠ 0 := Nat.ne_of_gt valid.1
            have linked := sound.puts puts low
              (puts.directory sound.directory low high fun _ => absent) (fun j _ => absent j)
              (fun nm entry => absurd entry (free nm)) (fun _ => rfl)
            rwa [if_neg live] at linked
  | unlink name removable =>
      unfold Linked.step at next
      dsimp only at next
      rcases unlink_spec sound.directory name removable with ⟨run, -⟩ | ⟨k, dir, run, -, inside, entry, puts⟩
      · rw [run] at next
        cases next
        exact sound
      · rw [run] at next
        cases next
        have fits := sound.directory.fits
        have low : DIRENT * k ≤ s.dir.size := by omega
        refine sound.puts puts low ?_ (fun j apart other => ?_) (fun nm own => ?_) (absurd rfl)
        · exact puts.directory sound.directory low (le_trans inside fits) (absurd rfl)
        · exact apart (sound.directory.unique j k _ other entry)
        · exact own.named.symm.trans entry.named

theorem system_sound : system.Inductive (fun _ _ => True) Sound where
  initial := by
    rintro s ⟨empty, none⟩
    have noEntry : ∀ k name, ¬ s.dir.Entry k name := by
      intro k name entry
      have inside := entry.inside
      rw [empty] at inside
      simp only [DIRENT] at inside
      omega
    refine ⟨⟨by rw [empty]; exact Nat.zero_le _, by rw [empty]; rfl, fun i _ _ first => ?_⟩,
      fun name inum => ?_⟩
    · exact absurd first (noEntry i _)
    · rw [none]
      refine iff_of_false nofun ?_
      rintro ⟨k, entry, -⟩
      exact noEntry k name entry
  preserved sound _ transition := sound.step transition.1 transition.2

/-- What a directory promises as a finite map. -/
structure Promises (s : Linked) : Prop where
  /-- `dirlookup` finds what was linked last and not yet unlinked. -/
  lookup : ∀ name, ∃ found, s.dir.dirlookup name = .ok found ∧ found.map Prod.fst = s.inum name.name
  /-- The offset is that of the entry. -/
  offset : ∀ name inum off, s.dir.dirlookup name = .ok (some (inum, off)) →
    ∃ k, off = DIRENT * k ∧ s.dir.Entry k name.name ∧ s.dir.inumAt k = inum
  /-- No two entries in use have one name. -/
  unique : ∀ i j name, s.dir.Entry i name → s.dir.Entry j name → i = j
  /-- `dirlink` returns where there is room, and -1 exactly if the name is there. -/
  link : ∀ name inum, Valid (.dirlink name inum) → s.dir.Room →
    ∃ linked dir, s.dir.dirlink name inum = .ok (linked, dir) ∧
      (linked = false ↔ (s.inum name.name).isSome = true)
  /-- A `dirlink` without room panics, if it does not find the name. -/
  full : ∀ name inum, Valid (.dirlink name inum) →
    (s.dir.dirlink name inum = .error (.panic "dirlink") ↔ ¬ s.dir.Room ∧ s.inum name.name = none)
  /-- `sys_unlink` of a name that is there, and may be removed, succeeds; then `dirlookup` finds nothing, and the
  cleared entry can be used again. -/
  unlink : ∀ name, (s.inum name.name).isSome = true → ¬ Dots name →
    ∃ dir, s.dir.unlink name true = .ok (true, dir) ∧ dir.dirlookup name = .ok none ∧ dir.Room
  /-- Otherwise it fails and leaves the directory alone. -/
  refused : ∀ name removable, s.inum name.name = none ∨ Dots name ∨ removable = false →
    s.dir.unlink name removable = .ok (false, s.dir)

/-- In a sound state `dirlookup` returns what the name is linked to. -/
theorem Sound.lookup (sound : s.Sound) (name : CString) :
    ∃ found, s.dir.dirlookup name = .ok found ∧ found.map Prod.fst = s.inum name.name := by
  obtain ⟨found, looked, hit, miss⟩ := dirlookup_spec sound.directory name
  refine ⟨found, looked, ?_⟩
  cases found with
  | none => exact ((sound.none_iff _).mpr (miss rfl)).symm
  | some found =>
      obtain ⟨k, entry, number, -⟩ := hit found.1 found.2 rfl
      exact ((sound.linked _ _).mpr ⟨k, entry, number.symm⟩).symm

/-- `sys_unlink` of a name that is there clears its entry. -/
theorem Sound.unlink (sound : s.Sound) {name : CString} (linked : (s.inum name.name).isSome = true)
    (plain : ¬ Dots name) : ∃ dir, s.dir.unlink name true = .ok (true, dir) ∧ dir.dirlookup name = .ok none ∧
      dir.Room := by
  rcases unlink_spec sound.directory name true with ⟨-, dots | no | absent⟩ | ⟨k, dir, run, -, -, -, puts⟩
  · exact absurd dots plain
  · cases no
  · rw [(sound.none_iff _).mpr absent] at linked
    cases linked
  · have next : s.step (.unlink name true) = some ⟨dir, Function.update s.inum name.name none⟩ := by
      simp only [Linked.step, run]
    have valid : Valid (.unlink name true) := trivial
    have after : Sound ⟨dir, Function.update s.inum name.name none⟩ := sound.step valid next
    obtain ⟨found, looked, same⟩ := after.lookup name
    have absent : found.map Prod.fst = none := same.trans (Function.update_self ..)
    rw [Option.map_eq_none_iff.mp absent] at looked
    exact ⟨dir, run, looked, puts.room⟩

/-- `sys_unlink` fails where there is nothing to clear. -/
theorem Sound.refused (sound : s.Sound) {name : CString} {removable : Bool}
    (reason : s.inum name.name = none ∨ Dots name ∨ removable = false) :
    s.dir.unlink name removable = .ok (false, s.dir) := by
  rcases unlink_spec sound.directory name removable with ⟨run, -⟩ | ⟨k, dir, -, ⟨plain, may⟩, -, entry, -⟩
  · exact run
  · rcases reason with none | dots | no
    · exact absurd entry ((sound.none_iff _).mp none k)
    · exact absurd dots plain
    · rw [may] at no
      cases no

/-- A directory is a finite map in every run. -/
theorem finite_map (run : system.Reachable s) : s.Promises := by
  have sound : s.Sound := run.invariant system_sound
  refine ⟨sound.lookup, fun name inum off looked => ?_, sound.directory.unique, ?_, ?_,
    fun _ linked plain => sound.unlink linked plain, fun _ _ => sound.refused⟩
  · obtain ⟨found, looked', hit, -⟩ := dirlookup_spec sound.directory name
    rw [looked] at looked'
    cases looked'
    obtain ⟨k, entry, number, place⟩ := hit inum off rfl
    exact ⟨k, place, entry, number.symm⟩
  · intro name inum valid room
    cases old : s.inum name.name with
    | some number =>
        obtain ⟨k, entry, -⟩ := (sound.linked _ _).mp old
        exact ⟨false, s.dir, dirlink_present inum sound.directory entry, by simp⟩
    | none =>
        have absent := (sound.none_iff _).mp old
        rcases dirlink_absent sound.directory valid.2 absent with ⟨-, none⟩ | ⟨k, dir, linked, -⟩
        · exact absurd room none
        · exact ⟨true, dir, linked, by simp⟩
  · intro name inum valid
    cases old : s.inum name.name with
    | some number =>
        obtain ⟨k, entry, -⟩ := (sound.linked _ _).mp old
        rw [dirlink_present inum sound.directory entry]
        exact iff_of_false nofun nofun
    | none =>
        have absent := (sound.none_iff _).mp old
        rcases dirlink_absent sound.directory valid.2 absent with
          ⟨fails, none⟩ | ⟨k, dir, linked, room, -⟩
        · exact iff_of_true fails ⟨none, rfl⟩
        · rw [linked]
          exact iff_of_false nofun fun full => full.1 room

/-- The empty directory. -/
def start : Linked := ⟨⟨0, fun _ _ => 0⟩, fun _ => none⟩

/-- Where there is room and a name is not linked, a run goes on with its link. -/
theorem link_step (run : system.Reachable s) {name : CString} {inum : Nat} (valid : Valid (.dirlink name inum))
    (room : s.dir.Room) (absent : s.inum name.name = none) : ∃ s', system.Step s (.dirlink name inum) s' ∧
      s'.inum = Function.update s.inum name.name (some inum) := by
  have directory := (run.invariant system_sound).directory
  have missing := ((run.invariant system_sound).none_iff _).mp absent
  rcases dirlink_absent directory valid.2 missing with ⟨-, full⟩ | ⟨k, dir, linked, -⟩
  · exact absurd room full
  · exact ⟨⟨dir, Function.update s.inum name.name (some inum)⟩, ⟨valid, by simp only [step, linked]⟩, rfl⟩

/-- `a` is linked to inode 7, unlinked, and linked to inode 8. -/
theorem link_a : ∃ s1 s2 s3 : Linked, s1.inum [97] = some 7 ∧ s1.Promises ∧
    system.Step s1 (.unlink (.ofList [97]) true) s2 ∧ s2.inum [97] = none ∧ s2.Promises ∧
    system.Step s2 (.dirlink (.ofList [97]) 8) s3 ∧ s3.inum [97] = some 8 ∧ s3.Promises := by
  have empty : system.Reachable start := .initial ⟨rfl, rfl⟩
  have seventh : Valid (.dirlink (.ofList [97]) 7) := ⟨by decide, by decide⟩
  have eighth : Valid (.dirlink (.ofList [97]) 8) := ⟨by decide, by decide⟩
  obtain ⟨s1, first, linked⟩ := link_step empty seventh (.inr (by decide)) rfl
  have run1 := empty.step trivial first
  have seven : s1.inum [97] = some 7 := by
    rw [linked]
    exact Function.update_self ..
  obtain ⟨dir, unlinked, -, room⟩ := (finite_map run1).unlink (.ofList [97])
    (by rw [show (CString.ofList [97]).name = [97] from rfl, seven]; rfl) (by rintro (dot | dots) <;> contradiction)
  have second : system.Step s1 (.unlink (.ofList [97]) true) ⟨dir, Function.update s1.inum [97] none⟩ :=
    ⟨trivial, by simp only [step, unlinked]; rfl⟩
  have run2 := run1.step trivial second
  have none : Function.update s1.inum [97] none [97] = none := Function.update_self ..
  obtain ⟨s3, third, relinked⟩ := link_step run2 eighth room none
  refine ⟨s1, _, s3, seven, finite_map run1, second, none, finite_map run2, third, ?_,
    finite_map (run2.step trivial third)⟩
  rw [relinked]
  exact Function.update_self ..

end Linked

end Riscv2os.Xv7
