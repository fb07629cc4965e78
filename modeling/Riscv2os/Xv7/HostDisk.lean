import Riscv2os.Xv7.Mkfs

/-!
# The two block paths of the host file system

`disk_rw` of `src/fs/disk.c`, through which the buffer cache reads and writes the image, and `rsect` and
`wsect` of `ffs.c`, which the builder of the image uses too. `disk_rw` counts sectors of 512 bytes, and hands
their number to functions that count blocks.
-/

namespace Riscv2os.Xv7

open Riscv2os.Std

/-- The image file. What is behind its end counts as zero. -/
structure HostFile where
  size : Nat
  byte : Nat → UInt8

/-- The fields of a `struct buf` that `disk_rw` uses. -/
structure HostBuf where
  blockno : Nat
  data : Block

namespace HostFile

/-- Where `fseek` goes for a block: `sec * BSIZE` of type `uint`. -/
def offset (sec : Nat) : Nat := sec * BSIZE % 2 ^ 32

/-- `rsect`, which is `ffs_rsect`. -/
def rsect (f : HostFile) (sec : Nat) : Except Abort Block :=
  if offset sec + BSIZE ≤ f.size then .ok fun i => f.byte (offset sec + i) else .error .exit

/-- `wsect`, which is `ffs_wsect`. The file grows where it is too short. -/
def wsect (f : HostFile) (sec : Nat) (buf : Block) : HostFile where
  size := max f.size (offset sec + BSIZE)
  byte k :=
    if inside : offset sec ≤ k ∧ k - offset sec < BSIZE then buf ⟨k - offset sec, inside.2⟩
    else if k < f.size then f.byte k else 0

/-- `sector` of `disk_rw`. -/
def sector (blockno : Nat) : Nat := blockno * (BSIZE / 512) % 2 ^ 32

/-- `disk_rw`. -/
def diskRw (f : HostFile) (b : HostBuf) (write : Bool) : Except Abort (HostFile × HostBuf) :=
  if write then .ok (f.wsect (sector b.blockno) b.data, b)
  else (f.rsect (sector b.blockno)).map fun data => (f, { b with data := data })

variable {f : HostFile} {sec sec' b : Nat} {buf : Block}

theorem offset_eq (small : sec < 2 * Format.FSSIZE .ffs) : offset sec = sec * 1024 := by
  simp only [Format.FSSIZE] at small
  simp only [offset, BSIZE]
  omega

theorem sector_eq (inside : b < Format.FSSIZE .ffs) : sector b = 2 * b := by
  simp only [Format.FSSIZE] at inside
  simp only [sector, BSIZE]
  omega

/-- A block reads back as it was written. -/
theorem rsect_wsect : (f.wsect sec buf).rsect sec = .ok buf := by
  have fits : offset sec + BSIZE ≤ (f.wsect sec buf).size := le_max_right ..
  rw [rsect, if_pos fits]
  congr 1
  funext i
  have inside : offset sec ≤ offset sec + i ∧ offset sec + i - offset sec < BSIZE := by omega
  change (if inside : _ then _ else _) = _
  rw [dif_pos inside]
  congr 1
  exact Fin.ext (Nat.add_sub_cancel_left ..)

/-- Another block of the file stays. -/
theorem rsect_wsect_ne (apart : offset sec + BSIZE ≤ offset sec' ∨ offset sec' + BSIZE ≤ offset sec)
    (inside : offset sec' + BSIZE ≤ f.size) : (f.wsect sec buf).rsect sec' = f.rsect sec' := by
  have fits : offset sec' + BSIZE ≤ (f.wsect sec buf).size := inside.trans (le_max_left ..)
  rw [rsect, if_pos fits, rsect, if_pos inside]
  congr 1
  funext i
  have outside : ¬ (offset sec ≤ offset sec' + i ∧ offset sec' + i - offset sec < BSIZE) := by omega
  change (if inside : _ then _ else _) = _
  rw [dif_neg outside, if_pos (by omega)]

/-- Different blocks have different bytes. -/
theorem offset_apart (small : sec < 2 * Format.FSSIZE .ffs) (small' : sec' < 2 * Format.FSSIZE .ffs)
    (other : sec ≠ sec') : offset sec + BSIZE ≤ offset sec' ∨ offset sec' + BSIZE ≤ offset sec := by
  rw [offset_eq small, offset_eq small']
  simp only [BSIZE]
  omega

/-- The two paths address the same bytes for a block, and other bytes for another block. -/
structure SameBytes (b : Nat) : Prop where
  written : ∀ (f : HostFile) (data : Block),
    ∃ f' b', f.diskRw ⟨b, data⟩ true = .ok (f', b') ∧ f'.rsect b = .ok data
  read : ∀ (f : HostFile) (data old : Block),
    (f.wsect b data).diskRw ⟨b, old⟩ false = .ok (f.wsect b data, ⟨b, data⟩)
  apart : ∀ b' < Format.FSSIZE .ffs, b' ≠ b →
    offset (sector b) + BSIZE ≤ offset (sector b') ∨ offset (sector b') + BSIZE ≤ offset (sector b)

/-- Distinct block numbers never overlap. -/
theorem sector_apart {b' : Nat} (inside : b < Format.FSSIZE .ffs) (inside' : b' < Format.FSSIZE .ffs)
    (other : b' ≠ b) :
    offset (sector b) + BSIZE ≤ offset (sector b') ∨ offset (sector b') + BSIZE ≤ offset (sector b) := by
  rw [sector_eq inside, sector_eq inside']
  exact offset_apart (by omega) (by omega) (by omega)

/-- An image of zeros. -/
def zeros : HostFile where
  size := Format.FSSIZE .ffs * BSIZE
  byte _ := 0

theorem zeros_rsect (inside : b < Format.FSSIZE .ffs) : zeros.rsect b = .ok fun _ => 0 := by
  have fits : offset b + BSIZE ≤ zeros.size := by
    rw [offset_eq (by omega)]
    simp only [zeros, Format.FSSIZE, BSIZE] at *
    omega
  rw [rsect, if_pos fits]
  rfl

/-- A block of the buffer cache that is not block 0 is stored at another place of the image than the builder
reads. -/
theorem not_sameBytes (inside : b < Format.FSSIZE .ffs) (other : b ≠ 0) : ¬ SameBytes b := by
  intro same
  obtain ⟨f', b', stored, found⟩ := same.written zeros fun _ => 1
  obtain ⟨rfl, -⟩ : zeros.wsect (sector b) (fun _ => 1) = f' ∧ _ := by
    simpa [HostFile.diskRw] using stored
  have fits : offset b + BSIZE ≤ zeros.size := by
    rw [offset_eq (by omega)]
    simp only [zeros, Format.FSSIZE, BSIZE] at *
    omega
  rw [sector_eq inside, rsect_wsect_ne (offset_apart (by omega) (by omega) (by omega)) fits, zeros_rsect inside,
    Except.ok.injEq] at found
  exact absurd (congrFun found ⟨0, by decide⟩) (by decide)

/-- The two paths agree about block 0, and about no other one. -/
theorem sameBytes_iff (b : Nat) (inside : b < Format.FSSIZE .ffs) : SameBytes b ↔ b = 0 := by
  constructor
  · intro same
    by_contra other
    exact not_sameBytes inside other same
  · rintro rfl
    refine ⟨fun f data => ⟨_, _, rfl, rsect_wsect⟩, fun f data old => ?_, fun b' inside' other =>
      sector_apart inside inside' other⟩
    have found : (f.wsect 0 data).rsect (sector 0) = .ok data := rsect_wsect
    simp only [HostFile.diskRw, found]
    rfl

/-- Block 0. -/
theorem sameBytes_boot : SameBytes 0 := (sameBytes_iff 0 (by decide)).mpr rfl

/-- The super block. -/
theorem sameBytes_super : ¬ ∀ b < Format.FSSIZE .ffs, SameBytes b :=
  fun all => not_sameBytes (b := 1) (by decide) (by decide) (all 1 (by decide))

end HostFile

end Riscv2os.Xv7
