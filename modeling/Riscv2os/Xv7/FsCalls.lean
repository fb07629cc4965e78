import Riscv2os.Xv7.FsFiles

/-!
# The calls on files

Each call on the blocks does what it does on the table of files: `readi`, `writei`, the store of an inode's fields,
`iput` and `ialloc`.
-/

namespace Riscv2os.Xv7

open Riscv2os.Std
open RefTree (descend nodes Unshared)

namespace Fs

variable {s s' s₁ s₂ : Fs} {inum o b addr off n : Nat}

/-! ## Calls on the content -/

/-- A part of the bytes of a file. -/
theorem take_drop_bytes {size m : Nat} (inside : off + m ≤ size) :
    ((s.bytes inum 0 size).drop off).take m = s.bytes inum off m := by
  obtain ⟨rest, rfl⟩ := Nat.exists_eq_add_of_le inside
  rw [Nat.add_assoc, bytes_add, bytes_add, Nat.zero_add, List.drop_left' (length_bytes ..),
    List.take_left' (length_bytes ..)]

theorem bmod_small (fits : n ≤ MAXFILE * BSIZE) : Int.bmod n (2 ^ 32) = n := by
  have file : MAXFILE * BSIZE = 67382272 := rfl
  rw [file] at fits
  exact Int.bmod_eq_of_le (by omega) (by omega)

/-- `readi` returns the bytes of the file and changes nothing. -/
theorem readi_agrees (writable : Nat) (inv : s.Inv) (inside : inum < s.sb.ninodes)
    (valid : (s.icache inum).valid = true) :
    Agrees s (.readi inum writable off n) (s.call (.readi inum writable off n)) := by
  have fits := inv.sizes inum inside
  have filled := inv.filled inum inside
  have abstract : s.view.call (.readi inum writable off n) =
      .ok (Files.read (s.bytes inum 0 (s.inode inum).size) writable off n, s.view) := by
    show Except.ok (Files.read (((s.view.file inum).map FileData.content).getD []) writable off n, s.view) = _
    rw [inv.loaded inside valid]
    rfl
  rw [inode_of_valid valid] at fits filled abstract
  rw [Fs.call]
  unfold Files.read at abstract
  rw [length_bytes] at abstract
  unfold readi
  split
  · next refused =>
      rw [if_pos refused] at abstract
      exact ⟨inv, abstract, (SameFiles.refl s).effects inv.sound fun _ same => by cases same⟩
  · next taken =>
      rw [if_neg taken] at abstract
      have count : (if (s.ip inum).size < off + n then (s.ip inum).size - off else n) =
          min n ((s.ip inum).size - off) := by
        split <;> omega
      simp only [count]
      generalize amount : min n ((s.ip inum).size - off) = m at abstract ⊢
      have reads := readLoop_reads [] writable inv.sound valid inside (by omega : m - 0 ≤ m)
        (by omega : off + (m - 0) ≤ MAXFILE * BSIZE)
      rw [Nat.sub_zero, Nat.sub_zero] at reads
      have present : s.Filled inum off m := fun k above below => filled k (Nat.zero_le k) (by omega)
      cases ran : readLoop inum m writable m 0 off [] s with
      | error fault =>
          rw [ran] at reads
          exact absurd present reads.2
      | ok copied =>
          obtain ⟨data, s'⟩ := copied
          rw [ran] at reads
          obtain ⟨data_eq, -, -, stays⟩ := reads
          obtain rfl := stays present
          have copy : ((s'.bytes inum 0 (s'.ip inum).size).drop off).take (min m writable) = data := by
            rw [data_eq, take_drop_bytes (by omega), List.nil_append]
          have ret : Int.bmod m (2 ^ 32) = m := bmod_small (by omega)
          rw [ok_bind, ret, ← copy]
          exact ⟨inv, abstract, (SameFiles.refl s').effects inv.sound fun _ same => by cases same⟩

/-- A modified inode is stored in memory and on disk. -/
structure Updated (inum : Nat) (new : Dinode) (s s' : Fs) : Prop where
  same : SameFiles s s'
  ref : ∀ o, (s'.icache o).ref = (s.icache o).ref
  valid : ∀ o, (s'.icache o).valid = (s.icache o).valid
  ip : s'.ip inum = new
  other : ∀ o, o ≠ inum → s'.ip o = s.ip o
  dinode : ∀ o, s'.dinode o = if o = inum then new else s.dinode o

/-- `iupdate` after a change of fields that leaves `addrs`. -/
theorem iupdate_updated (ip : Dinode) (layout : s.sb.Layout) (inside : inum < s.sb.ninodes)
    (valid : (s.icache inum).valid = true) (addrs : ip.addrs = (s.ip inum).addrs) (fits : ip.Fits) :
    Updated inum ip s ((s.setIp inum ip).iupdate inum) := by
  have here : (s.setIp inum ip).ip inum = ip := by rw [ip_setIp, if_pos rfl]
  have valid' : ((s.setIp inum ip).icache inum).valid = true := by rw [valid_setIp, valid]
  constructor
  · exact (setIp_sameFiles addrs valid).trans (iupdate_sameFiles layout inside valid')
  · exact fun o => ref_setIp ip inum o
  · exact fun o => valid_setIp ip inum o
  · exact here
  · intro o apart
    show (s.setIp inum ip).ip o = s.ip o
    rw [ip_setIp, if_neg apart]
  · intro o
    rw [dinode_iupdate (here.symm ▸ fits), here]
    rfl

/-- A call changes one inode and its blocks. -/
structure Changes (inum : Nat) (s s' : Fs) : Prop where
  sound : s'.Sound
  sb : s'.sb = s.sb
  ref : ∀ o, (s'.icache o).ref = (s.icache o).ref
  valid : ∀ o, o ≠ inum → (s'.icache o).valid = (s.icache o).valid
  synced : (s'.icache inum).valid = true → s'.dinode inum = s'.ip inum ∧ (s'.ip inum).type ≠ 0
  other : ∀ o, o ≠ inum → s'.ip o = s.ip o
  dinode : ∀ o < s.sb.ninodes, o ≠ inum → s'.dinode o = s.dinode o
  block : ∀ {o bn b}, o ≠ inum → bn < MAXFILE → s.dataBlock o bn = some b → s'.dataBlock o bn = some b
  byte : ∀ {o k}, o ≠ inum → k < MAXFILE * BSIZE → s'.byteAt o k = s.byteAt o k
  size : (s'.inode inum).size ≤ MAXFILE * BSIZE
  filled : s'.Filled inum 0 (s'.inode inum).size
  freed : (s'.inode inum).type = 0 → (s'.inode inum).size = 0 ∧ ∀ i ≤ NDIRECT, (s'.inode inum).addrs i = 0

namespace Changes

variable (changes : Changes inum s s') (inv : s.Inv)
include changes

/-- The other inodes stay. -/
theorem inode (inside : o < s.sb.ninodes) (apart : o ≠ inum) : s'.inode o = s.inode o := by
  unfold Fs.inode
  rw [changes.valid o apart, changes.other o apart, changes.dinode o inside apart]

include inv

/-- What changes one inode keeps the invariant. -/
theorem inv_after : s'.Inv where
  sound := changes.sound
  synced o inside valid := by
    by_cases same : o = inum
    · subst same
      exact (changes.synced valid).1
    · rw [changes.valid o same] at valid
      rw [changes.dinode o (changes.sb ▸ inside) same, changes.other o same]
      exact inv.synced o (changes.sb ▸ inside) valid
  typed o inside valid := by
    by_cases same : o = inum
    · subst same
      exact (changes.synced valid).2
    · rw [changes.valid o same] at valid
      rw [changes.other o same]
      exact inv.typed o (changes.sb ▸ inside) valid
  sizes o inside := by
    by_cases same : o = inum
    · exact same ▸ changes.size
    · rw [changes.inode (changes.sb ▸ inside) same]
      exact inv.sizes o (changes.sb ▸ inside)
  filled o inside := by
    by_cases same : o = inum
    · exact same ▸ changes.filled
    · rw [changes.inode (changes.sb ▸ inside) same]
      have fits := inv.sizes o (changes.sb ▸ inside)
      intro k above below
      obtain ⟨b, found⟩ := Option.isSome_iff_exists.mp (inv.filled o (changes.sb ▸ inside) k above below)
      rw [changes.block same (bn_small (by omega)) found]
      rfl
  freed o inside := by
    by_cases same : o = inum
    · exact same ▸ changes.freed
    · rw [changes.inode (changes.sb ▸ inside) same]
      exact inv.freed o (changes.sb ▸ inside)

/-- The other files are the same. -/
theorem view_file (apart : o ≠ inum) : s'.view.file o = s.view.file o := by
  unfold view
  simp only [changes.sb]
  by_cases inside : o < s.sb.ninodes
  · have inode := changes.inode inside apart
    have fits := inv.sizes o inside
    have content : s'.bytes o 0 (s.inode o).size = s.bytes o 0 (s.inode o).size :=
      bytes_congr fun k _ below => changes.byte apart (by omega)
    have file : s'.fileData o = s.fileData o := by
      unfold fileData
      rw [inode, content]
    rw [inode, file]
  · rw [if_neg (fun h => inside h.1), if_neg (fun h => inside h.1)]

/-- The table of files has a new file at the inode. -/
theorem view_eq {file : Option FileData} (new : s'.view.file inum = file)
    (valid : (s'.icache inum).valid = (s.icache inum).valid) : s'.view = s.view.setFile inum file := by
  refine Files.eq (congrArg Superblock.ninodes changes.sb) ?_ changes.ref (fun o => ?_)
  · funext o
    show s'.view.file o = Function.update s.view.file inum file o
    rw [Function.update_apply]
    split
    · next same => rw [same, new]
    · next apart => exact changes.view_file inv apart
  · show ((s'.icache o).valid && decide (0 < (s'.icache o).ref)) = ((s.icache o).valid && decide (0 < (s.icache o).ref))
    rw [changes.ref o]
    by_cases same : o = inum
    · rw [same, valid]
    · rw [changes.valid o same]

end Changes

theorem writeEnd_le (off n len : Nat) : writeEnd off n len ≤ off + n := by
  unfold writeEnd
  have size : BSIZE = 1024 := rfl
  rw [size]
  split <;> omega

/-- What is in front of the end of a write has been written. -/
theorem writeEnd_covered {len k : Nat} (above : off ≤ k) (below : k < writeEnd off n len) : k < off + min n len := by
  unfold writeEnd at below
  have size : BSIZE = 1024 := rfl
  rw [size] at below
  split at below <;> omega

/-- Nothing is changed. -/
theorem setIp_self (s : Fs) (inum : Nat) : s.setIp inum (s.ip inum) = s := by
  unfold setIp setEntry
  rw [show ({ s.icache inum with inode := s.ip inum } : Icache) = s.icache inum from rfl, Function.update_eq_self]

/-- An inode in memory fits the disk after addresses have been added. -/
theorem Written.fits {bytes : List UInt8} (written : Written inum off bytes s s₁) (inside : inum < s.sb.ninodes)
    (valid : (s.icache inum).valid = true) (fits : (s.ip inum).Fits) : (s₁.ip inum).Fits := by
  obtain ⟨addrs, ip, beyond⟩ := written.ip
  have valid₁ : (s₁.icache inum).valid = true := (written.valid inum).trans valid
  have addrs_eq : (s₁.ip inum).addrs = addrs := by rw [ip]
  refine ⟨by rw [ip]; exact fits.size, fun i => ?_, fun i large => ?_⟩
  · by_cases small : i < NADDRS
    · by_cases none : (s₁.ip inum).addrs i = 0
      · rw [none]
        exact Nat.two_pow_pos 32
      · have found : descend s₁.refs .root [inum, i] = some (.block ((s₁.ip inum).addrs i)) := by
          rw [descend_slot (written.sb ▸ inside), inode_of_valid valid₁, Node.ofAddr_pos none]
        obtain ⟨-, inDisk, -⟩ := written.sound.inData _ ⟨_, (show [inum, i] ∈ Shape from small), found⟩
        exact inDisk.trans written.sound.layout.small
    · rw [addrs_eq, beyond i (not_lt.mp small), fits.beyond i (not_lt.mp small)]
      exact Nat.two_pow_pos 32
  · rw [addrs_eq, beyond i large, fits.beyond i large]

/-- The whole of `writei`, after its loop. -/
theorem Written.changes {src : List UInt8} (inv : s.Inv) (inside : inum < s.sb.ninodes)
    (valid : (s.icache inum).valid = true) (start : off ≤ (s.ip inum).size) (inFile : off + n ≤ MAXFILE * BSIZE)
    (written : Written inum off (src.take n) s s₁)
    (updated : Updated inum { s₁.ip inum with size := max (s.ip inum).size (writeEnd off n src.length) } s₁ s') :
    Changes inum s s' ∧ s'.fileData inum = { s.fileData inum with
      content := Files.overwrite (s.fileData inum).content off (src.take n) (writeEnd off n src.length) } := by
  have length : (src.take n).length = min n src.length := List.length_take
  have stop := writeEnd_le off n src.length
  obtain ⟨addrs, ip, -⟩ := written.ip
  have sizes := inv.sizes inum inside
  have filled := inv.filled inum inside
  rw [inode_of_valid valid] at sizes filled
  have valid' : (s'.icache inum).valid = true := by rw [updated.valid, written.valid, valid]
  have size' : (s'.inode inum).size = max (s.ip inum).size (writeEnd off n src.length) := by
    rw [inode_of_valid valid', updated.ip]
  have fits' : max (s.ip inum).size (writeEnd off n src.length) ≤ MAXFILE * BSIZE := by omega
  have byte {o k : Nat} (small : k < MAXFILE * BSIZE) := (updated.same.byteAt written.sound o small).trans
    (written.byte small)
  constructor
  · constructor
    · exact updated.same.after written.sound
    · exact updated.same.sb.trans written.sb
    · exact fun o => (updated.ref o).trans (written.ref o)
    · exact fun o _ => (updated.valid o).trans (written.valid o)
    · intro _
      rw [updated.dinode, if_pos rfl, updated.ip, ip]
      exact ⟨rfl, inv.typed inum inside valid⟩
    · exact fun o apart => (updated.other o apart).trans (written.other o apart)
    · intro o within apart
      rw [updated.dinode, if_neg apart, written.dinode o within]
    · intro o bn b _ small found
      rw [updated.same.dataBlock written.sound o small, written.kept small found]
    · intro o k apart small
      rw [byte small, if_neg fun here => apart here.1]
    · rw [size']
      exact fits'
    · rw [size']
      intro k _ below
      have small : k < MAXFILE * BSIZE := by omega
      rw [updated.same.dataBlock written.sound inum (bn_small small)]
      by_cases old : k < (s.ip inum).size
      · obtain ⟨b, found⟩ := Option.isSome_iff_exists.mp (filled k (Nat.zero_le k) (by omega))
        rw [written.kept (bn_small small) found]
        rfl
      · have covered := writeEnd_covered (by omega : off ≤ k) (by omega : k < writeEnd off n src.length)
        exact written.present k (by omega) (by omega)
    · intro none
      rw [inode_of_valid valid', updated.ip, ip] at none
      exact absurd none (inv.typed inum inside valid)
  · have content : s'.bytes inum 0 (s'.inode inum).size =
        Files.overwrite (s.bytes inum 0 (s.inode inum).size) off (src.take n) (writeEnd off n src.length) := by
      rw [size', inode_of_valid valid]
      unfold Files.overwrite
      rw [length_bytes]
      refine List.map_congr_left fun k member => ?_
      have below := List.mem_range.mp member
      rw [Nat.zero_add, byte (by omega)]
      by_cases new : off ≤ k ∧ k < off + (src.take n).length
      · rw [if_pos ⟨rfl, new⟩, if_pos new]
      · rw [if_neg fun here => new here.2, if_neg new, getD_bytes]
        by_contra beyond
        have covered := writeEnd_covered (by omega : off ≤ k) (by omega : k < writeEnd off n src.length)
        omega
    unfold fileData
    rw [content, inode_of_valid valid', inode_of_valid valid, updated.ip, ip]

/-- A `writei` agrees if it changes one file, and that as the table does. -/
theorem Agrees.writei {reply : FsReply} {content : List UInt8} {src : List UInt8} (inv : s.Inv)
    (inside : inum < s.sb.ninodes)
    (valid : (s.icache inum).valid = true) (changes : Changes inum s s')
    (valid' : (s'.icache inum).valid = (s.icache inum).valid)
    (file : s'.fileData inum = { s.fileData inum with content := content })
    (abstract : Files.write (s.fileData inum).content src off n = (reply, content))
    (effects : Effects s (.writei inum src off n) reply s') : Agrees s (.writei inum src off n) (.ok (reply, s')) := by
  refine ⟨changes.inv_after inv, ?_, effects⟩
  have loaded := inv.loaded inside valid
  have after := (changes.inv_after inv).loaded (changes.sb ▸ inside) (valid'.trans valid)
  rw [changes.view_eq inv after valid', file]
  show Except.ok ((Files.write (((s.view.file inum).map FileData.content).getD []) src off n).1,
    s.view.setFile inum ((s.view.file inum).map fun file =>
      { file with content := (Files.write file.content src off n).2 })) = _
  rw [loaded]
  show Except.ok ((Files.write (s.fileData inum).content src off n).1, s.view.setFile inum (some
    { s.fileData inum with content := (Files.write (s.fileData inum).content src off n).2 })) = _
  rw [abstract]

/-- No bytes are written. -/
theorem overwrite_nothing (content : List UInt8) (inside : off ≤ content.length) :
    Files.overwrite content off [] off = content := by
  unfold Files.overwrite
  rw [max_eq_left inside]
  refine List.ext_getElem (by simp) fun k small small' => ?_
  rw [List.getElem_map, List.getElem_range, if_neg (by rw [List.length_nil]; omega),
    List.getD_eq_getElem _ _ small']

/-- Nothing is changed. -/
theorem Changes.refl (inv : s.Inv) (inside : inum < s.sb.ninodes) : Changes inum s s where
  sound := inv.sound
  sb := rfl
  ref _ := rfl
  valid _ _ := rfl
  synced valid := ⟨inv.synced inum inside valid, inv.typed inum inside valid⟩
  other _ _ := rfl
  dinode _ _ _ := rfl
  block _ _ found := found
  byte _ _ := rfl
  size := inv.sizes inum inside
  filled := inv.filled inum inside
  freed := inv.freed inum inside

/-- `writei` stores the bytes that it can read, or blocks run out. -/
theorem writei_agrees (src : List UInt8) (inv : s.Inv) (inside : inum < s.sb.ninodes)
    (valid : (s.icache inum).valid = true) :
    Agrees s (.writei inum src off n) (s.call (.writei inum src off n)) := by
  have length : (s.fileData inum).content.length = (s.ip inum).size := by
    rw [← inode_of_valid valid]
    exact length_bytes ..
  have unchanged (refused : (s.ip inum).size < off ∨ 2 ^ 32 ≤ off + n ∨ MAXFILE * BSIZE < off + n) :
      Agrees s (.writei inum src off n) (.ok (⟨-1, []⟩, s)) := by
    have same : s.fileData inum = { s.fileData inum with content := (s.fileData inum).content } := rfl
    refine .writei inv inside valid (.refl inv inside) rfl same ?_
      ((SameFiles.refl s).effects inv.sound fun _ same => by cases same)
    unfold Files.write
    rw [length, if_pos refused]
  rw [Fs.call]
  unfold writei
  by_cases refused : (s.ip inum).size < off ∨ 2 ^ 32 ≤ off + n
  · rw [if_pos refused]
    exact unchanged (refused.imp_right .inl)
  by_cases large : MAXFILE * BSIZE < off + n
  · rw [if_neg refused, if_pos large]
    exact unchanged (.inr (.inr large))
  rw [if_neg refused, if_neg large]
  have abstract : Files.write (s.fileData inum).content src off n = (⟨n, []⟩,
      Files.overwrite (s.fileData inum).content off (src.take n) (writeEnd off n src.length)) := by
    unfold Files.write
    rw [length, if_neg (by tauto)]
  have ret : Int.bmod n (2 ^ 32) = n := bmod_small (by omega)
  have writes := writeLoop_writes src inv.sound valid inside (le_rfl : n - 0 ≤ n) (not_lt.mp large)
  rw [Nat.sub_zero, List.drop_zero] at writes
  cases ran : writeLoop inum n src n 0 off s with
  | error fault =>
      rw [ran] at writes
      exact .inr ⟨inum, src, off, n, rfl, writes⟩
  | ok stopped =>
      obtain ⟨stop, s₁⟩ := stopped
      rw [ran] at writes
      obtain ⟨stop_eq, written, double, free⟩ := writes
      rw [ok_bind]
      simp only
      split
      · next more =>
          have fits : (s.ip inum).Fits := inv.synced inum inside valid ▸ s.fits_dinode inum
          have fits₁ := written.fits inside valid fits
          obtain ⟨addrs, ip, -⟩ := written.ip
          have size₁ : (s₁.ip inum).size = (s.ip inum).size := by rw [ip]
          have grown : (if (s₁.ip inum).size < stop then s₁.setIp inum { s₁.ip inum with size := stop } else s₁) =
              s₁.setIp inum { s₁.ip inum with size := max (s.ip inum).size stop } := by
            rw [size₁]
            split
            · rw [max_eq_right (by omega)]
            · rw [max_eq_left (by omega), ← size₁]
              exact (setIp_self s₁ inum).symm
          rw [grown, stop_eq]
          have small := inv.sizes inum inside
          rw [inode_of_valid valid] at small
          have stop_le := writeEnd_le off n src.length
          have file : MAXFILE * BSIZE = 67382272 := rfl
          have updated := iupdate_updated (s := s₁)
            { s₁.ip inum with size := max (s.ip inum).size (writeEnd off n src.length) }
            written.sound.layout (written.sb ▸ inside) ((written.valid inum).trans valid) rfl
            { fits₁ with size := show max _ _ < 2 ^ 32 by omega }
          obtain ⟨changes, data⟩ := written.changes inv inside valid (by omega) (not_lt.mp large) updated
          rw [ret, ok_bind]
          refine .writei inv inside valid changes ((updated.valid inum).trans (written.valid inum)) data abstract ?_
          constructor
          · intro o bn b small _ _ found
            rw [updated.same.dataBlock written.sound o small, written.kept small found]
          · exact lost_iff ((updated.same.lost written.sound).trans written.lost) fun _ same => by cases same
          · intro o
            by_cases low : off + n ≤ singleBytes
            · exact .inl (by rw [updated.same.descend written.sound (doublePath_mem o), double low o])
            · exact .inr (.inl ⟨inum, src, off, n, rfl, not_le.mp low⟩)
          · rw [updated.same.freeBlocks]
            exact free
      · next none =>
          have zero : n = 0 := by omega
          subst zero
          have nothing : writeLoop inum 0 src 0 0 off s = .ok (off, s) := rfl
          rw [nothing] at ran
          cases ran
          rw [ret, ok_bind]
          have same : s.fileData inum = { s.fileData inum with content := (s.fileData inum).content } := rfl
          refine .writei inv inside valid (.refl inv inside) rfl same ?_
            ((SameFiles.refl s).effects inv.sound fun _ same => by cases same)
          rw [abstract, List.take_zero, ← stop_eq, overwrite_nothing _ (by omega)]

/-! ## Calls on inodes -/

/-- New fields change one inode. -/
theorem Updated.changes {new : Dinode} (updated : Updated inum new s s') (inv : s.Inv) (inside : inum < s.sb.ninodes)
    (valid : (s.icache inum).valid = true) (typed : new.type ≠ 0) (size : new.size = (s.ip inum).size) :
    Changes inum s s' := by
  have valid' : (s'.icache inum).valid = true := (updated.valid inum).trans valid
  have inode' : s'.inode inum = new := by rw [inode_of_valid valid', updated.ip]
  have sizes := inv.sizes inum inside
  have filled := inv.filled inum inside
  rw [inode_of_valid valid] at sizes filled
  constructor
  · exact updated.same.after inv.sound
  · exact updated.same.sb
  · exact updated.ref
  · exact fun o _ => updated.valid o
  · intro _
    rw [updated.dinode, if_pos rfl, updated.ip]
    exact ⟨rfl, typed⟩
  · exact updated.other
  · intro o _ apart
    rw [updated.dinode, if_neg apart]
  · intro o bn b _ small found
    rwa [updated.same.dataBlock inv.sound o small]
  · exact fun _ small => updated.same.byteAt inv.sound _ small
  · rw [inode', size]
    exact sizes
  · rw [inode', size]
    intro k above below
    rw [updated.same.dataBlock inv.sound inum (bn_small (by omega))]
    exact filled k above below
  · intro none
    rw [inode'] at none
    exact absurd none typed

/-- `iupdate` with new fields. -/
theorem update_agrees (major minor nlink : BitVec 16) (inv : s.Inv) (inside : inum < s.sb.ninodes)
    (valid : (s.icache inum).valid = true) :
    Agrees s (.update inum major minor nlink) (s.call (.update inum major minor nlink)) := by
  have fits : (s.ip inum).Fits := inv.synced inum inside valid ▸ s.fits_dinode inum
  have updated := iupdate_updated (s := s) { s.ip inum with major := major, minor := minor, nlink := nlink }
    inv.sound.layout inside valid rfl ⟨fits.size, fits.addrs, fits.beyond⟩
  have changes := updated.changes inv inside valid (inv.typed inum inside valid) rfl
  show Agrees s _ (.ok (.void, (s.setIp inum
    { s.ip inum with major := major, minor := minor, nlink := nlink }).iupdate inum))
  generalize (s.setIp inum { s.ip inum with major := major, minor := minor, nlink := nlink }).iupdate inum = s'
    at updated changes ⊢
  have valid' := updated.valid inum
  have inv' := changes.inv_after inv
  have data : s'.fileData inum = { s.fileData inum with major := major, minor := minor, nlink := nlink } := by
    have sizes := inv.sizes inum inside
    rw [inode_of_valid valid] at sizes
    have content : s'.bytes inum 0 (s.ip inum).size = s.bytes inum 0 (s.ip inum).size :=
      updated.same.bytes inv.sound inum (by omega)
    unfold fileData
    rw [inode_of_valid (valid'.trans valid), inode_of_valid valid, updated.ip]
    simp only [content]
  refine ⟨inv', ?_, updated.same.effects inv.sound fun _ => nofun⟩
  rw [changes.view_eq inv (inv'.loaded (changes.sb ▸ inside) (valid'.trans valid)) valid', data]
  show Except.ok (FsReply.void, s.view.setFile inum ((s.view.file inum).map fun file =>
    { file with major := major, minor := minor, nlink := nlink })) = _
  rw [inv.loaded inside valid]
  rfl

/-- A file is removed. -/
theorem iputFree_changes (inv : s.Inv) (inside : inum < s.sb.ninodes) (valid : (s.icache inum).valid = true) :
    ∃ s', s.iputFree inum = .ok s' ∧ Changes inum s s' ∧ (s'.icache inum).valid = false ∧
      (s'.inode inum).type = 0 ∧ s'.lost = s.lost ∧
      (∀ o, descend s'.refs .root [o, NDIRECT + 1] = descend s.refs .root [o, NDIRECT + 1]) ∧
      s.freeBlocks.card ≤ s'.freeBlocks.card := by
  have fits : (s.ip inum).Fits := inv.synced inum inside valid ▸ s.fits_dinode inum
  obtain ⟨s₁, ran, truncates⟩ := itrunc_truncates inv.sound valid inside fits
  have valid₁ : (s₁.icache inum).valid = true := (truncates.valid inum).trans valid
  have ip₁ := truncates.ip
  have cleared := Fits_clear fits truncated
  have updated := iupdate_updated (s := s₁) { s₁.ip inum with type := 0 } truncates.sound.layout
    (truncates.sb ▸ inside) valid₁ rfl (by
      rw [ip₁]
      exact ⟨Nat.two_pow_pos 32, cleared.addrs, cleared.beyond⟩)
  unfold iputFree
  rw [ran, ok_bind]
  generalize stored : (s₁.setIp inum { s₁.ip inum with type := 0 }).iupdate inum = s₂ at updated
  have icache (o : Nat) : (s₂.setEntry inum { s₂.icache inum with valid := false }).icache o =
      if o = inum then { s₂.icache inum with valid := false } else s₂.icache o := icache_setEntry ..
  simp only
  generalize last : s₂.setEntry inum { s₂.icache inum with valid := false } = s₃ at icache
  have valid₃ : (s₃.icache inum).valid = false := by rw [icache, if_pos rfl]
  have dinode₃ (o : Nat) : s₃.dinode o = s₂.dinode o := by
    rw [← last]
    rfl
  have inode₃ : s₃.inode inum = { s₁.ip inum with type := 0 } := by
    unfold Fs.inode
    rw [valid₃, if_neg Bool.false_ne_true, dinode₃, updated.dinode, if_pos rfl]
  have same : SameFiles s₁ s₃ := by
    refine updated.same.trans ⟨by rw [← last]; rfl, fun _ _ => by rw [← last]; rfl, fun _ _ => by rw [← last]; rfl,
      fun o within => ?_⟩
    by_cases here : o = inum
    · rw [here, inode₃, inode_of_valid ((updated.valid inum).trans valid₁), updated.ip]
    · unfold Fs.inode Fs.ip
      rw [icache, if_neg here, dinode₃]
  have stays {path : List Nat} (inShape : path ∈ Shape)
      (apart : ¬ ∃ i ∈ truncated, [inum, i] <+: path) :
      descend s₃.refs .root path = descend s.refs .root path :=
    (same.descend truncates.sound inShape).trans (truncates.stays inShape apart)
  have other {o bn : Nat} (apart : o ≠ inum) : ¬ ∃ i ∈ truncated, [inum, i] <+: dataPath o bn := by
    rintro ⟨i, -, rest, same⟩
    unfold dataPath at same
    split at same
    · simp only [List.cons_append, List.cons.injEq] at same
      exact apart same.1.symm
    split at same <;>
    · simp only [List.cons_append, List.cons.injEq] at same
      exact apart same.1.symm
  have dataBlock {o bn : Nat} (apart : o ≠ inum) (small : bn < MAXFILE) : s₃.dataBlock o bn = s.dataBlock o bn := by
    unfold Fs.dataBlock
    rw [stays (dataPath_mem o small) (other apart)]
  refine ⟨s₃, rfl, ?_, valid₃, by rw [inode₃], ?_, fun o => ?_, ?_⟩
  · constructor
    · exact same.after truncates.sound
    · exact same.sb.trans truncates.sb
    · intro o
      rw [icache]
      split
      · next here => rw [here]; exact (updated.ref inum).trans (truncates.ref inum)
      · exact (updated.ref o).trans (truncates.ref o)
    · intro o apart
      rw [icache, if_neg apart, updated.valid, truncates.valid]
    · intro loaded
      rw [valid₃] at loaded
      cases loaded
    · intro o apart
      unfold Fs.ip
      rw [icache, if_neg apart]
      exact (updated.other o apart).trans (truncates.other o apart)
    · intro o within apart
      rw [dinode₃, updated.dinode, if_neg apart, truncates.dinode o within apart]
    · intro o bn b apart small found
      rwa [dataBlock apart small]
    · intro o k apart small
      unfold byteAt
      rw [dataBlock apart (bn_small small)]
      cases found : s.dataBlock o (k / BSIZE) with
      | none => rfl
      | some b =>
          have inData := dataBlock_inData inv.sound (bn_small small) found
          show (s₃.block b).byte _ = (s.block b).byte _
          rw [same.block b (by rw [truncates.sb]; exact inData), truncates.block b inData]
    · rw [inode₃, ip₁]
      exact Nat.zero_le _
    · rw [inode₃, ip₁]
      intro k _ below
      exact absurd below (Nat.not_lt_zero k)
    · rw [inode₃, ip₁]
      refine fun _ => ⟨rfl, fun i low => if_pos ?_⟩
      exact Finset.mem_range.mpr (by omega)
  · rw [same.lost truncates.sound, truncates.lost]
  · refine stays (doublePath_mem o) ?_
    rintro ⟨i, member, before⟩
    have equal := before.eq_of_length rfl
    simp only [List.cons.injEq, and_true] at equal
    have low := Finset.mem_range.mp member
    omega
  · rw [same.freeBlocks]
    exact Finset.card_le_card truncates.free

/-- A reference is dropped. -/
theorem drop_after (inv : s.Inv) (inum : Nat) (held : 0 < (s.icache inum).ref) :
    (s.setEntry inum { s.icache inum with ref := (s.icache inum).ref - 1 }).Inv ∧
      (s.setEntry inum { s.icache inum with ref := (s.icache inum).ref - 1 }).view = s.view.drop inum ∧
      SameFiles s (s.setEntry inum { s.icache inum with ref := (s.icache inum).ref - 1 }) := by
  have icache (o : Nat) := icache_setEntry (s := s) { s.icache inum with ref := (s.icache inum).ref - 1 } inum o
  generalize dropped : s.setEntry inum { s.icache inum with ref := (s.icache inum).ref - 1 } = s' at icache ⊢
  have after := inv.cache s' (by rw [← dropped]; rfl) (by rw [← dropped]; rfl) fun o inside valid => by
    have same : (s'.icache o).valid = (s.icache o).valid ∧ s'.ip o = s.ip o := by
      unfold Fs.ip
      rw [icache]
      split
      · next here => rw [here]; exact ⟨rfl, rfl⟩
      · exact ⟨rfl, rfl⟩
    rw [same.1] at valid
    rw [same.2, inv.synced o inside valid]
    exact ⟨rfl, inv.typed o inside valid⟩
  refine ⟨after.1, Files.eq (by rw [← dropped]; rfl) after.2.1 (fun o => ?_) (fun o => ?_), after.2.2⟩
  · show (s'.icache o).ref = Function.update (fun o => (s.icache o).ref) inum ((s.icache inum).ref - 1) o
    rw [icache, Function.update_apply]
    split <;> rfl
  · show ((s'.icache o).valid && decide (0 < (s'.icache o).ref)) =
      (if (s.icache inum).ref = 1 then Function.update s.view.loaded inum false else s.view.loaded) o
    rw [icache]
    by_cases here : o = inum
    · subst here
      rw [if_pos rfl]
      show ((s.icache o).valid && decide (0 < (s.icache o).ref - 1)) = _
      split
      · next only =>
          rw [only, Function.update_self]
          simp
      · next several =>
          show _ = ((s.icache o).valid && decide (0 < (s.icache o).ref))
          rw [decide_eq_true (by omega), decide_eq_true held]
    · rw [if_neg here]
      split
      · rw [Function.update_of_ne here]
        rfl
      · rfl

/-- The table frees an inode exactly when `iput` does. -/
theorem frees_iff (inv : s.Inv) (inside : inum < s.sb.ninodes) : s.view.frees inum = true ↔
    (s.icache inum).ref = 1 ∧ (s.icache inum).valid = true ∧ (s.ip inum).nlink = 0 := by
  unfold Files.frees
  rw [decide_eq_true_iff]
  show (s.icache inum).ref = 1 ∧ ((s.icache inum).valid && decide (0 < (s.icache inum).ref)) = true ∧ _ ↔ _
  refine and_congr_right fun only => ?_
  rw [only, decide_eq_true Nat.one_pos, Bool.and_true]
  refine and_congr_right fun valid => ?_
  rw [inv.loaded inside valid, Option.any_some, decide_eq_true_iff]
  unfold fileData
  rw [inode_of_valid valid]

/-- `iput` gives a reference back, and removes a file without links at the last one. -/
theorem iput_agrees (inv : s.Inv) (inside : inum < s.sb.ninodes) (held : 0 < (s.icache inum).ref) :
    Agrees s (.iput inum) (s.call (.iput inum)) := by
  have frees := frees_iff inv inside
  show Agrees s _ (s.iput inum >>= fun s => .ok (.void, s))
  unfold iput
  by_cases last : (s.icache inum).ref = 1 ∧ (s.icache inum).valid = true ∧ (s.ip inum).nlink = 0
  · obtain ⟨s₁, ran, changes, invalid, none, lost, double, free⟩ := iputFree_changes inv inside last.2.1
    have inv₁ := changes.inv_after inv
    rw [if_pos last, ran, ok_bind, ok_bind]
    have held₁ : 0 < (s₁.icache inum).ref := by rw [changes.ref]; exact held
    obtain ⟨after, view, same⟩ := drop_after inv₁ inum held₁
    refine ⟨after, ?_, ?effects⟩
    case effects =>
      constructor
      · intro o bn b small _ spared found
        have apart : o ≠ inum := by
          rintro rfl
          exact spared ⟨rfl, frees.mpr last⟩
        rw [same.dataBlock inv₁.sound o small, changes.block apart small found]
      · exact lost_iff ((same.lost inv₁.sound).trans lost) fun _ => nofun
      · exact fun o => .inl ((same.descend inv₁.sound (doublePath_mem o)).trans (double o))
      · rw [same.freeBlocks]
        exact free
    show Except.ok (FsReply.void,
      (if s.view.frees inum = true then s.view.setFile inum Option.none else s.view).drop inum) = _
    rw [if_pos (frees.mpr last), view]
    congr 2
    have gone : s₁.view.file inum = Option.none := if_neg fun h => h.2 none
    have removed : s₁.view.file = (s.view.setFile inum Option.none).file := by
      funext o
      show _ = Function.update s.view.file inum Option.none o
      rw [Function.update_apply]
      split
      · next same => rw [same, gone]
      · next apart => exact changes.view_file inv apart
    refine Files.eq (congrArg Superblock.ninodes changes.sb.symm) removed.symm (fun o => ?_) (fun o => ?_)
    · show Function.update (fun o => (s.icache o).ref) inum ((s.icache inum).ref - 1) o =
        Function.update (fun o => (s₁.icache o).ref) inum ((s₁.icache inum).ref - 1) o
      rw [Function.update_apply, Function.update_apply, changes.ref, changes.ref]
    · show (if (s.icache inum).ref = 1 then Function.update s.view.loaded inum false else s.view.loaded) o =
        (if (s₁.icache inum).ref = 1 then Function.update s₁.view.loaded inum false else s₁.view.loaded) o
      rw [changes.ref, if_pos last.1, if_pos last.1, Function.update_apply, Function.update_apply]
      split
      · rfl
      · next apart =>
          show ((s.icache o).valid && decide (0 < (s.icache o).ref)) =
            ((s₁.icache o).valid && decide (0 < (s₁.icache o).ref))
          rw [changes.ref, changes.valid o apart]
  · rw [if_neg last, ok_bind, ok_bind]
    obtain ⟨after, view, same⟩ := drop_after inv inum held
    refine ⟨after, ?_, same.effects inv.sound fun _ => nofun⟩
    show Except.ok (FsReply.void, (if s.view.frees inum = true then s.view.setFile inum none else s.view).drop inum) = _
    rw [if_neg (fun free => last (frees.mp free)), view]

/-- A free inode is used again: its file is empty, and what was left below its last reference is lost. -/
structure Reuses (inum : Nat) (type : BitVec 16) (s s' : Fs) : Prop where
  changes : Changes inum s s'
  valid : (s'.icache inum).valid = (s.icache inum).valid
  file : s'.fileData inum = ⟨type, 0, 0, 0, []⟩
  typed : (s'.inode inum).type = type
  lost : ∀ b, b ∈ s'.lost ↔ b ∈ s.lost ∨ s.Below inum {NDIRECT + 1} b
  double : ∀ o, descend s'.refs .root [o, NDIRECT + 1] =
    if o = inum then none else descend s.refs .root [o, NDIRECT + 1]
  free : s'.freeBlocks = s.freeBlocks

/-- The inode that `ialloc` writes. -/
def freshInode (type : BitVec 16) : Dinode := ⟨type, 0, 0, 0, 0, fun _ => 0⟩

/-- `ialloc` writes one inode on the disk. -/
theorem dinode_fresh (s : Fs) (inum : Nat) (type : BitVec 16) (o : Nat) :
    (s.setDinode inum fun i => if i = 0 then type.toNat else 0).dinode o =
      if o = inum then freshInode type else s.dinode o := by
  have fits : (freshInode type).Fits := ⟨Nat.two_pow_pos 32, fun _ => Nat.two_pow_pos 32, fun _ _ => rfl⟩
  have words : (fun i => (if i = 0 then type.toNat else 0) % 2 ^ 32) = fun i => (freshInode type).words i % 2 ^ 32 := by
    funext i
    match i with
    | 0 => simp [freshInode, Dinode.words]
    | 1 => simp [freshInode, Dinode.words]
    | 2 | i + 3 => rfl
  rw [dinode_setDinode, words, Dinode.ofWords_words fits]

/-- What writing that inode changes of a removed file: only its last reference was left. -/
structure Refreshes (inum : Nat) (type : BitVec 16) (s s' : Fs) : Prop where
  sb : s'.sb = s.sb
  icache : s'.icache = s.icache
  isUsed : ∀ {x}, x < s.sb.size → s'.isUsed x = s.isUsed x
  block : ∀ {x}, s.sb.dataStart ≤ x → s'.block x = s.block x
  dinode : ∀ {o}, o ≠ inum → s'.dinode o = s.dinode o
  fresh : s'.inode inum = freshInode type
  invalid : (s.icache inum).valid = false
  differs : RefTree.DiffersAt s.refs s'.refs .root Shape [inum] (NDIRECT + 1) (.inode inum)

/-- A free inode is not valid in the cache. -/
theorem Inv.invalid (inv : s.Inv) (inside : inum < s.sb.ninodes) (none : (s.inode inum).type = 0) :
    (s.icache inum).valid = false := by
  by_contra valid
  rw [Bool.not_eq_false] at valid
  rw [inode_of_valid valid] at none
  exact inv.typed inum inside valid none

/-- All references of a free inode but the last are null. -/
theorem Inv.cleared (inv : s.Inv) (inside : inum < s.sb.ninodes) (none : (s.inode inum).type = 0) {j : Nat}
    (different : j ≠ NDIRECT + 1) : (s.inode inum).addrs j = 0 := by
  by_cases low : j ≤ NDIRECT
  · exact (inv.freed inum inside none).2 j low
  · rw [inv.inode_eq inside]
    have last : NADDRS = NDIRECT + 2 := rfl
    exact (s.fits_dinode inum).beyond j (by omega)

/-- The write that `ialloc` makes. -/
theorem setDinode_refreshes (type : BitVec 16) (inv : s.Inv) (inside : inum < s.sb.ninodes)
    (none : (s.inode inum).type = 0) :
    Refreshes inum type s (s.setDinode inum fun i => if i = 0 then type.toNat else 0) := by
  have invalid := inv.invalid inside none
  have layout := inv.sound.layout
  have block {x : Nat} (inData : s.sb.dataStart ≤ x) :=
    block_setDinode layout inside (fun i => if i = 0 then type.toNat else 0) inData
  have dinode := dinode_fresh s inum type
  have fresh : (s.setDinode inum fun i => if i = 0 then type.toNat else 0).inode inum = freshInode type := by
    unfold Fs.inode
    rw [show (s.setDinode inum fun i => if i = 0 then type.toNat else 0).icache = s.icache from rfl, invalid,
      if_neg Bool.false_ne_true, dinode, if_pos rfl]
  refine ⟨rfl, rfl, fun {x} small => isUsed_setDinode layout inside _ small, block, fun {o} apart => ?_, fresh,
    invalid, shape_closed, inv.sound.unshared, ?_, doublePath_mem inum, ?_⟩
  · rw [dinode, if_neg apart]
  · rw [descend, refs_root, if_pos inside]
    rfl
  · intro before j last inShape found apart
    cases last with
    | root => rfl
    | block x =>
        have inData := (inv.sound.inData x ⟨before, shape_closed inShape, found⟩).1
        rw [refs_block, refs_block, block inData]
    | inode o =>
        rw [refs_inode, refs_inode]
        by_cases same : o = inum
        · -- The other references have been cleared when the file was removed.
          have different : j ≠ NDIRECT + 1 := fun index => apart ⟨by rw [same], index⟩
          rw [same, fresh, inv.cleared inside none different]
          rfl
        · unfold Fs.inode Fs.ip
          rw [dinode, if_neg same]
          rfl

namespace Refreshes

variable {type : BitVec 16} {o : Nat} (refreshes : Refreshes inum type s s')
include refreshes

/-- The inode has no double indirect block. -/
theorem cut : s'.refs (.inode inum) (NDIRECT + 1) = none := by
  rw [refs_inode, refreshes.fresh]
  rfl

/-- Only what was below the last reference leaves the tree. -/
theorem nodes_after {x : Nat} : .block x ∈ nodes s'.refs .root Shape ↔
    .block x ∈ nodes s.refs .root Shape ∧ ¬ s.Below inum {NDIRECT + 1} x := by
  have below : (∃ other ∈ Shape, [inum] ++ [NDIRECT + 1] <+: other ∧
      descend s.refs .root other = some (.block x)) ↔ s.Below inum {NDIRECT + 1} x := by
    simp [Below]
  rw [refreshes.differs.mem_nodes_cut refreshes.cut, below]

omit refreshes in
/-- The paths of another inode do not lead through the last reference of this one. -/
theorem other {rest : List Nat} (apart : o ≠ inum) : ¬ [inum] ++ [NDIRECT + 1] <+: o :: rest := by
  rintro ⟨more, same⟩
  simp only [List.cons_append, List.cons.injEq] at same
  exact apart same.1.symm

/-- The other files keep their blocks. -/
theorem dataBlock {bn : Nat} (apart : o ≠ inum) (small : bn < MAXFILE) : s'.dataBlock o bn = s.dataBlock o bn := by
  unfold Fs.dataBlock
  rw [refreshes.differs.descend_apart (dataPath_mem o small)]
  unfold dataPath
  split
  · exact other apart
  split <;> exact other apart

/-- The blocks stay sound. -/
theorem sound (inv : s.Inv) : s'.Sound := by
  constructor
  · exact refreshes.sb ▸ inv.sound.layout
  · intro x low
    rw [refreshes.sb] at low
    rw [refreshes.isUsed (low.trans_le (Nat.sub_le ..))]
    exact inv.sound.metaUsed x low
  · exact refreshes.differs.unshared_cut refreshes.cut
  · intro x inTree
    obtain ⟨inData, small, used⟩ := inv.sound.inData x (refreshes.nodes_after.mp inTree).1
    rw [refreshes.sb]
    exact ⟨inData, small, by rw [refreshes.isUsed small, used]⟩

/-- No other inode changes. -/
theorem changes (inv : s.Inv) : Changes inum s s' := by
  constructor
  · exact refreshes.sound inv
  · exact refreshes.sb
  · exact fun o => by rw [refreshes.icache]
  · exact fun o _ => by rw [refreshes.icache]
  · intro valid
    rw [refreshes.icache, refreshes.invalid] at valid
    cases valid
  · intro o _
    unfold Fs.ip
    rw [refreshes.icache]
  · exact fun o _ apart => refreshes.dinode apart
  · intro o bn b apart small found
    rwa [refreshes.dataBlock apart small]
  · intro o k apart small
    unfold byteAt
    rw [refreshes.dataBlock apart (bn_small small)]
    cases found : s.dataBlock o (k / BSIZE) with
    | none => rfl
    | some b =>
        show (s'.block b).byte _ = (s.block b).byte _
        rw [refreshes.block (dataBlock_inData inv.sound (bn_small small) found)]
  · rw [refreshes.fresh]
    exact Nat.zero_le _
  · rw [refreshes.fresh]
    exact fun k _ low => absurd low (Nat.not_lt_zero k)
  · rw [refreshes.fresh]
    exact fun _ => ⟨rfl, fun _ _ => rfl⟩

/-- What was below the last reference is lost. -/
theorem lost (inv : s.Inv) (b : Nat) : b ∈ s'.lost ↔ b ∈ s.lost ∨ s.Below inum {NDIRECT + 1} b := by
  simp only [Fs.lost, Set.mem_ofPred_eq, refreshes.nodes_after, refreshes.sb]
  constructor
  · rintro ⟨inData, small, used, notInTree⟩
    rw [refreshes.isUsed small] at used
    by_cases inTree : .block b ∈ nodes s.refs .root Shape
    · exact .inr (by_contra fun apart => notInTree ⟨inTree, apart⟩)
    · exact .inl ⟨inData, small, used, inTree⟩
  · rintro (⟨inData, small, used, notInTree⟩ | left)
    · exact ⟨inData, small, by rw [refreshes.isUsed small, used], fun inTree => notInTree inTree.1⟩
    · obtain ⟨path, inShape, below, found⟩ := left
      obtain ⟨inData, small, used⟩ := inv.sound.inData b ⟨path, inShape, found⟩
      exact ⟨inData, small, by rw [refreshes.isUsed small, used],
        fun inTree => inTree.2 ⟨path, inShape, below, found⟩⟩

/-- Only this inode loses its double indirect block. -/
theorem double (o : Nat) : descend s'.refs .root [o, NDIRECT + 1] =
    if o = inum then none else descend s.refs .root [o, NDIRECT + 1] := by
  split
  · next same =>
      rw [same]
      exact refreshes.differs.descend_cut refreshes.cut (List.prefix_refl _)
  · next apart => exact refreshes.differs.descend_apart (doublePath_mem o) (other apart)

/-- No block is taken or freed. -/
theorem freeBlocks : s'.freeBlocks = s.freeBlocks := by
  ext x
  simp only [Fs.freeBlocks, Finset.mem_filter, Finset.mem_range, refreshes.sb]
  refine and_congr_right fun small => ?_
  rw [refreshes.isUsed small]

end Refreshes

/-- `ialloc` uses a free inode again. -/
theorem setDinode_reuses (type : BitVec 16) (inv : s.Inv) (inside : inum < s.sb.ninodes)
    (none : (s.inode inum).type = 0) :
    Reuses inum type s (s.setDinode inum fun i => if i = 0 then type.toNat else 0) := by
  have refreshes := setDinode_refreshes type inv inside none
  refine ⟨refreshes.changes inv, rfl, ?_, ?_, refreshes.lost inv, refreshes.double, refreshes.freeBlocks⟩
  · unfold fileData
    rw [refreshes.fresh]
    rfl
  · rw [refreshes.fresh]
    rfl

/-- The table has an empty file for the inode. -/
theorem Reuses.view_file {type : BitVec 16} (reuses : Reuses inum type s s') (inside : inum < s.sb.ninodes)
    (typed : type ≠ 0) : s'.view.file inum = some ⟨type, 0, 0, 0, []⟩ := by
  rw [Fs.view_file (reuses.changes.sb ▸ inside) (by rw [reuses.typed]; exact typed), reuses.file]

/-- `ialloc` takes the first free inode. -/
theorem ialloc_agrees {type : BitVec 16} (inv : s.Inv) (typed : type ≠ 0) :
    Agrees s (.ialloc type) (s.call (.ialloc type)) := by
  have search : (List.range' 1 (s.view.ninodes - 1)).find? (fun inum => decide (s.view.file inum = none)) =
      (List.range' 1 (s.sb.ninodes - 1)).find? fun inum => (s.dinode inum).type == 0 := by
    refine List.find?_congr fun inum member => ?_
    have inside : inum < s.sb.ninodes := by
      have range : 1 ≤ inum ∧ inum < 1 + (s.sb.ninodes - 1) := List.mem_range'_1.mp member
      omega
    rw [beq_eq_decide]
    refine decide_eq_decide.mpr ?_
    rw [← inv.inode_eq inside]
    by_cases none : (s.inode inum).type = 0
    · exact iff_of_true (if_neg fun h => h.2 none) none
    · refine iff_of_false ?_ none
      rw [view_file inside none]
      exact Option.some_ne_none _
  rw [Fs.call]
  unfold ialloc
  cases found : (List.range' 1 (s.sb.ninodes - 1)).find? fun inum => (s.dinode inum).type == 0 with
  | none =>
      have abstract : s.view.call (.ialloc type) = .error (.panic "ialloc: no inodes") := by
        rw [Files.call, search, found]
      exact .inl abstract
  | some inum =>
      have free := List.find?_some found
      have inside : inum < s.sb.ninodes := by
        have range := List.mem_range'_1.mp (List.mem_of_find?_eq_some found)
        omega
      have none : (s.inode inum).type = 0 := by
        rw [inv.inode_eq inside]
        simpa using free
      have reuses := setDinode_reuses type inv inside none
      have sound₁ := reuses.changes.sound
      have inv₁ := reuses.changes.inv_after inv
      have abstract : s.view.call (.ialloc type) =
          (s.view.setFile inum (some ⟨type, 0, 0, 0, []⟩)).hold inum >>= fun a => .ok (⟨inum, []⟩, a) := by
        rw [Files.call, search, found]
      rw [← reuses.changes.view_eq inv (reuses.view_file inside typed) reuses.valid] at abstract
      show Agrees s _ (((s.setDinode inum fun i => if i = 0 then type.toNat else 0).iget inum >>=
        fun s => .ok (inum, s)) >>= fun reached => .ok (⟨(reached.1 : Nat), []⟩, reached.2))
      rcases iget_holds inv₁ inum with ⟨s', ran, after, hold, same⟩ | ⟨fault, failed, hold⟩
      · rw [hold] at abstract
        rw [ran]
        refine ⟨after, abstract, ?_⟩
        constructor
        · intro o bn b small allocated _ found
          have apart : o ≠ inum := by
            rintro rfl
            exact allocated (if_neg fun h => h.2 none)
          exact (same.dataBlock sound₁ o small).trans (reuses.changes.block apart small found)
        · intro b
          rw [same.lost sound₁, reuses.lost b]
          refine or_congr_right ⟨fun below => ⟨type, inum, rfl, rfl, below⟩, ?_⟩
          rintro ⟨-, o, -, reply, below⟩
          have here : inum = o := Int.ofNat.inj (congrArg FsReply.ret reply)
          exact here ▸ below
        · intro o
          rw [same.descend sound₁ (doublePath_mem o), reuses.double o]
          by_cases here : o = inum
          · rw [if_pos here, here]
            exact .inr (.inr ⟨type, rfl, rfl, rfl⟩)
          · rw [if_neg here]
            exact .inl rfl
        · rw [same.freeBlocks, reuses.free]
          exact Nat.le_add_right ..
      · rw [hold] at abstract
        rw [failed]
        exact .inl abstract

end Fs

end Riscv2os.Xv7
