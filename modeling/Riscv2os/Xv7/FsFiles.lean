import Riscv2os.Xv7.FsTruncate

/-!
# The table of files

What the inodes and their content are for: a table of files, each a list of bytes (`Files`). The table that the
blocks hold is their `view`. Between calls `Inv` holds: the inodes in memory agree with those on disk, and every
block below the size of a file has been allocated. `iget` and `ilock` change only the table of inodes.
-/

namespace Riscv2os.Xv7

open Riscv2os.Std
open RefTree (descend nodes Unshared)

/-! ## The table of files -/

/-- A file: the fields of its inode, and its bytes. -/
structure FileData where
  type : BitVec 16
  major : BitVec 16
  minor : BitVec 16
  nlink : BitVec 16
  content : List UInt8
deriving DecidableEq

/-- The calls of the file system on one inode. -/
inductive FsCall where
  | iget (inum : Nat)
  | ilock (inum : Nat)
  | readi (inum writable off n : Nat)
  | writei (inum : Nat) (src : List UInt8) (off n : Nat)
  /-- The fields are set by the holder of the lock, and `iupdate` is called. -/
  | update (inum : Nat) (major minor nlink : BitVec 16)
  | iput (inum : Nat)
  | ialloc (type : BitVec 16)
deriving DecidableEq

/-- How many blocks a call allocates at most: for each block that a write touches, the block and two index blocks. -/
def FsCall.cost : FsCall → Nat
  | .writei _ _ off n => 3 * Fs.touched off n
  | _ => 0

/-- What a call returns, and the bytes that it copies out. -/
structure FsReply where
  ret : Int
  data : List UInt8
deriving DecidableEq

/-- A call without a result. -/
def FsReply.void : FsReply := ⟨0, []⟩

/-- The files by their inode numbers, the references to them, and which inodes have been read. -/
structure Files where
  ninodes : Nat
  file : Nat → Option FileData
  ref : Nat → Nat
  loaded : Nat → Bool

namespace Files

def setFile (a : Files) (inum : Nat) (file : Option FileData) : Files :=
  { a with file := Function.update a.file inum file }

/-- The inodes to which there are references. -/
def held (a : Files) : Nat := (List.range a.ninodes).countP fun inum => decide (0 < a.ref inum)

/-- Take a reference. There are references to at most `NINODE` inodes. -/
def hold (a : Files) (inum : Nat) : Except Fault Files :=
  if 0 < a.ref inum ∨ a.held < NINODE then
    .ok { a with ref := Function.update a.ref inum (a.ref inum + 1) }
  else .error (.panic "iget: no inodes")

/-- Drop a reference. With the last one the copy in memory goes. -/
def drop (a : Files) (inum : Nat) : Files where
  ninodes := a.ninodes
  file := a.file
  ref := Function.update a.ref inum (a.ref inum - 1)
  loaded := if a.ref inum = 1 then Function.update a.loaded inum false else a.loaded

/-- The file is removed when its last reference is dropped. -/
def frees (a : Files) (inum : Nat) : Bool :=
  a.ref inum = 1 ∧ a.loaded inum = true ∧ (a.file inum).any fun file => file.nlink = 0

/-- The bytes after a write that copied `new` to `off`, cut off where it stopped or where the file ended. -/
def overwrite (content : List UInt8) (off : Nat) (new : List UInt8) (stop : Nat) : List UInt8 :=
  (List.range (max content.length stop)).map fun k =>
    if off ≤ k ∧ k < off + new.length then new.getD (k - off) 0 else content.getD k 0

def read (content : List UInt8) (writable off n : Nat) : FsReply :=
  if content.length < off ∨ 2 ^ 32 ≤ off + n then ⟨-1, []⟩
  else
    let n := min n (content.length - off)
    ⟨n, (content.drop off).take (min n writable)⟩

def write (content : List UInt8) (src : List UInt8) (off n : Nat) : FsReply × List UInt8 :=
  if content.length < off ∨ 2 ^ 32 ≤ off + n ∨ MAXFILE * BSIZE < off + n then (⟨-1, []⟩, content)
  else (⟨n, []⟩, overwrite content off (src.take n) (Fs.writeEnd off n src.length))

/-- The calls on the table. -/
def call (a : Files) : FsCall → Except Fault (FsReply × Files)
  | .iget inum => do
      let a ← a.hold inum
      .ok (.void, a)
  | .ilock inum =>
      if a.ref inum < 1 then .error (.panic "ilock")
      else if a.loaded inum then .ok (.void, a)
      else if a.file inum = none then .error (.panic "ilock: no type")
      else .ok (.void, { a with loaded := Function.update a.loaded inum true })
  | .readi inum writable off n => .ok (read (((a.file inum).map FileData.content).getD []) writable off n, a)
  | .writei inum src off n =>
      .ok ((write (((a.file inum).map FileData.content).getD []) src off n).1,
        a.setFile inum ((a.file inum).map fun file => { file with content := (write file.content src off n).2 }))
  | .update inum major minor nlink =>
      .ok (.void, a.setFile inum ((a.file inum).map fun file =>
        { file with major := major, minor := minor, nlink := nlink }))
  | .iput inum => .ok (.void, (if a.frees inum then a.setFile inum none else a).drop inum)
  | .ialloc type =>
      match (List.range' 1 (a.ninodes - 1)).find? fun inum => a.file inum = none with
      | some inum => do
          let a ← (a.setFile inum (some ⟨type, 0, 0, 0, []⟩)).hold inum
          .ok (⟨inum, []⟩, a)
      | none => .error (.panic "ialloc: no inodes")

/-- What the callers of the file system keep to: inode numbers are those of the super block, the content and the
fields are used with the lock held, a reference is dropped once, and an inode is allocated with a type. -/
def Allowed (a : Files) : FsCall → Prop
  | .iget inum | .ilock inum => inum < a.ninodes
  | .readi inum .. | .writei inum .. | .update inum .. => inum < a.ninodes ∧ a.loaded inum = true
  | .iput inum => inum < a.ninodes ∧ 0 < a.ref inum
  | .ialloc type => type ≠ 0

instance (a : Files) (c : FsCall) : Decidable (a.Allowed c) := by
  cases c <;> unfold Allowed <;> infer_instance

/-- A run of calls. -/
def run (a : Files) : List FsCall → Except Fault (List FsReply × Files)
  | [] => .ok ([], a)
  | c :: rest => do
      let (reply, a) ← a.call c
      let (replies, a) ← a.run rest
      .ok (reply :: replies, a)

/-- Every call of a run is one that its caller may make. -/
def Obeys (a : Files) : List FsCall → Prop
  | [] => True
  | c :: rest => a.Allowed c ∧ match a.call c with
      | .ok (_, a') => a'.Obeys rest
      | .error _ => True

end Files

namespace Fs

variable {s s' s₁ s₂ : Fs} {inum o b addr off n : Nat}

/-! ## The calls on blocks -/

def call (s : Fs) : FsCall → Except Fault (FsReply × Fs)
  | .iget inum => do
      let s ← s.iget inum
      .ok (.void, s)
  | .ilock inum => do
      let s ← s.ilock inum
      .ok (.void, s)
  | .readi inum writable off n => do
      let (ret, data, s) ← s.readi inum writable off n
      .ok (⟨ret, data⟩, s)
  | .writei inum src off n => do
      let (ret, s) ← s.writei inum src off n
      .ok (⟨ret, []⟩, s)
  | .update inum major minor nlink =>
      .ok (.void, (s.setIp inum { s.ip inum with major := major, minor := minor, nlink := nlink }).iupdate inum)
  | .iput inum => do
      let s ← s.iput inum
      .ok (.void, s)
  | .ialloc type => do
      let (inum, s) ← s.ialloc type
      .ok (⟨inum, []⟩, s)

def run (s : Fs) : List FsCall → Except Fault (List FsReply × Fs)
  | [] => .ok ([], s)
  | c :: rest => do
      let (reply, s) ← s.call c
      let (replies, s) ← s.run rest
      .ok (reply :: replies, s)

/-- The file of an inode. -/
def fileData (s : Fs) (inum : Nat) : FileData where
  type := (s.inode inum).type
  major := (s.inode inum).major
  minor := (s.inode inum).minor
  nlink := (s.inode inum).nlink
  content := s.bytes inum 0 (s.inode inum).size

/-- The table of files that the blocks hold. -/
def view (s : Fs) : Files where
  ninodes := s.sb.ninodes
  file inum := if inum < s.sb.ninodes ∧ (s.inode inum).type ≠ 0 then some (s.fileData inum) else none
  ref inum := (s.icache inum).ref
  loaded inum := (s.icache inum).valid && decide (0 < (s.icache inum).ref)

/-- What holds between calls. -/
structure Inv (s : Fs) : Prop where
  sound : s.Sound
  synced : ∀ o < s.sb.ninodes, (s.icache o).valid = true → s.dinode o = s.ip o
  typed : ∀ o < s.sb.ninodes, (s.icache o).valid = true → (s.ip o).type ≠ 0
  sizes : ∀ o < s.sb.ninodes, (s.inode o).size ≤ MAXFILE * BSIZE
  filled : ∀ o < s.sb.ninodes, s.Filled o 0 (s.inode o).size
  freed : ∀ o < s.sb.ninodes, (s.inode o).type = 0 → (s.inode o).size = 0 ∧ ∀ i ≤ NDIRECT, (s.inode o).addrs i = 0

/-- What a call does to the blocks: those of files stay in their places, except for a file that is removed, and none
is lost, except when an inode is used again whose last reference is not zero. That reference is set by large writes
alone, and cleared when the inode is used again. -/
structure Effects (s : Fs) (c : FsCall) (reply : FsReply) (s' : Fs) : Prop where
  kept : ∀ {o bn b}, bn < MAXFILE → s.view.file o ≠ none → ¬ (c = .iput o ∧ s.view.frees o = true) →
    s.dataBlock o bn = some b → s'.dataBlock o bn = some b
  lost : ∀ b, b ∈ s'.lost ↔ b ∈ s.lost ∨
    ∃ type inum, c = .ialloc type ∧ reply = ⟨(inum : Nat), []⟩ ∧ s.Below inum {NDIRECT + 1} b
  double : ∀ o, descend s'.refs .root [o, NDIRECT + 1] = descend s.refs .root [o, NDIRECT + 1] ∨
    (∃ inum src off n, c = .writei inum src off n ∧ singleBytes < off + n) ∨
    ∃ type, c = .ialloc type ∧ reply = ⟨(o : Nat), []⟩ ∧ descend s'.refs .root [o, NDIRECT + 1] = none
  free : s.freeBlocks.card ≤ s'.freeBlocks.card + c.cost

/-- The outcome of a call agrees with the table of files, or blocks have run out. -/
def Agrees (s : Fs) (c : FsCall) : Except Fault (FsReply × Fs) → Prop
  | .ok (reply, s') => s'.Inv ∧ s.view.call c = .ok (reply, s'.view) ∧ Effects s c reply s'
  | .error fault => s.view.call c = .error fault ∨
      ∃ inum src off n, c = .writei inum src off n ∧ fault = .panic "balloc: out of blocks" ∧
        s.freeBlocks.card < 3 * touched off n

/-- An inode is what the disk has. -/
theorem Inv.inode_eq (inv : s.Inv) (inside : o < s.sb.ninodes) : s.inode o = s.dinode o := by
  unfold inode
  split
  · next valid => exact (inv.synced o inside valid).symm
  · rfl

@[simp] theorem length_bytes (s : Fs) (inum off n : Nat) : (s.bytes inum off n).length = n := by simp [bytes]

theorem getD_bytes {k : Nat} (small : k < n) : (s.bytes inum 0 n).getD k 0 = s.byteAt inum k := by
  rw [List.getD_eq_getElem _ _ (by simpa using small)]
  simp [bytes]

/-- A file is the same when its inode and its blocks are. -/
theorem SameFiles.fileData (same : SameFiles s s') (sound : s.Sound) (inode : s'.inode o = s.inode o)
    (fits : (s.inode o).size ≤ MAXFILE * BSIZE) : s'.fileData o = s.fileData o := by
  have content : s'.bytes o 0 (s.inode o).size = s.bytes o 0 (s.inode o).size := same.bytes sound o (by omega)
  unfold Fs.fileData
  rw [inode, content]

/-- An inode in use has a file in the table. -/
theorem view_file (inside : o < s.sb.ninodes) (typed : (s.inode o).type ≠ 0) : s.view.file o = some (s.fileData o) :=
  if_pos ⟨inside, typed⟩

/-- So has one that has been read. -/
theorem Inv.loaded (inv : s.Inv) (inside : o < s.sb.ninodes) (valid : (s.icache o).valid = true) :
    s.view.file o = some (s.fileData o) :=
  view_file inside (by rw [inode_of_valid valid]; exact inv.typed o inside valid)

/-- No block is lost in a call that leaves `lost` alone. -/
theorem lost_iff {c : FsCall} {reply : FsReply} (same : s'.lost = s.lost) (other : ∀ type, c ≠ .ialloc type) (b : Nat) :
    b ∈ s'.lost ↔ b ∈ s.lost ∨
      ∃ type inum, c = .ialloc type ∧ reply = ⟨(inum : Nat), []⟩ ∧ s.Below inum {NDIRECT + 1} b := by
  rw [same]
  refine ⟨.inl, ?_⟩
  rintro (lost | ⟨type, -, alloc, -⟩)
  · exact lost
  · exact absurd alloc (other type)

/-- What a call does that changes no file. -/
theorem SameFiles.effects {c : FsCall} {reply : FsReply} (same : SameFiles s s') (sound : s.Sound)
    (other : ∀ type, c ≠ .ialloc type) : Effects s c reply s' where
  kept small _ _ found := (same.dataBlock sound _ small).trans found
  lost := lost_iff (same.lost sound) other
  double o := .inl (same.descend sound (doublePath_mem o))
  free := by
    rw [same.freeBlocks]
    exact Nat.le_add_right ..

/-! ## Calls that change only the table of inodes -/

/-- The blocks stay, and the copies in memory agree with them. -/
theorem Inv.cache (s' : Fs) (inv : s.Inv) (sb : s'.sb = s.sb) (block : s'.block = s.block)
    (valid : ∀ o < s.sb.ninodes, (s'.icache o).valid = true → s'.ip o = s.dinode o ∧ (s.dinode o).type ≠ 0) :
    s'.Inv ∧ s'.view.file = s.view.file ∧ SameFiles s s' := by
  have dinode (o : Nat) : s'.dinode o = s.dinode o := by
    unfold Fs.dinode
    rw [block, sb]
  have inode (o : Nat) (inside : o < s.sb.ninodes) : s'.inode o = s.inode o := by
    rw [inv.inode_eq inside]
    unfold Fs.inode
    split
    · next loaded => exact (valid o inside loaded).1
    · exact dinode o
  have same : SameFiles s s' := by
    refine ⟨sb, fun x _ => ?_, fun x _ => by rw [block], fun o inside => by rw [inode o inside]⟩
    unfold isUsed
    rw [block, sb]
  constructor
  · exact {
      sound := same.after inv.sound
      synced := fun o inside loaded => by rw [dinode, (valid o (sb ▸ inside) loaded).1]
      typed := fun o inside loaded => by
        rw [(valid o (sb ▸ inside) loaded).1]
        exact (valid o (sb ▸ inside) loaded).2
      sizes := fun o inside => by
        rw [inode o (sb ▸ inside)]
        exact inv.sizes o (sb ▸ inside)
      filled := fun o inside k above below => by
        rw [inode o (sb ▸ inside)] at below
        have fits := inv.sizes o (sb ▸ inside)
        rw [same.dataBlock inv.sound o (bn_small (by omega))]
        exact inv.filled o (sb ▸ inside) k above below
      freed := fun o inside => by
        rw [inode o (sb ▸ inside)]
        exact inv.freed o (sb ▸ inside) }
  · refine ⟨funext fun o => ?_, same⟩
    unfold view
    simp only [sb]
    by_cases inside : o < s.sb.ninodes
    · rw [inode o inside, same.fileData inv.sound (inode o inside) (inv.sizes o inside)]
    · rw [if_neg (fun h => inside h.1), if_neg (fun h => inside h.1)]

theorem icache_setEntry (entry : Icache) (inum o : Nat) :
    (s.setEntry inum entry).icache o = if o = inum then entry else s.icache o := Function.update_apply ..

/-- Tables are the same when all their parts are. -/
theorem Files.eq {a b : Files} (ninodes : a.ninodes = b.ninodes) (file : a.file = b.file)
    (ref : ∀ o, a.ref o = b.ref o) (loaded : ∀ o, a.loaded o = b.loaded o) : a = b := by
  cases a
  cases b
  simp only [Files.mk.injEq]
  exact ⟨ninodes, file, funext ref, funext loaded⟩

/-- A reference is taken to an inode. A free entry has not been read from disk. -/
theorem iget_eq (s : Fs) (inum : Nat) : s.iget inum =
    if 0 < s.view.ref inum ∨ s.view.held < NINODE then
      .ok (s.setEntry inum ⟨(s.icache inum).ref + 1, s.view.loaded inum, s.ip inum⟩)
    else .error (.panic "iget: no inodes") := by
  have loaded : s.view.loaded inum = ((s.icache inum).valid && decide (0 < (s.icache inum).ref)) := rfl
  rw [loaded]
  unfold iget
  by_cases held : 0 < (s.icache inum).ref
  · rw [if_pos held, if_pos (.inl held), decide_eq_true held, Bool.and_true]
    rfl
  · have none : (s.icache inum).ref = 0 := by omega
    rw [if_neg held, decide_eq_false held, Bool.and_false, none]
    by_cases room : s.held < NINODE
    · rw [if_pos room, if_pos (.inr room)]
      rfl
    · have full : ¬ (0 < s.view.ref inum ∨ s.view.held < NINODE) := not_or.mpr ⟨held, room⟩
      rw [if_neg room, if_neg full]

/-- What a reference to an inode changes. -/
theorem hold_after (inv : s.Inv) (inum : Nat) :
    (s.setEntry inum ⟨(s.icache inum).ref + 1, s.view.loaded inum, s.ip inum⟩).Inv ∧
      (s.setEntry inum ⟨(s.icache inum).ref + 1, s.view.loaded inum, s.ip inum⟩).view =
        { s.view with ref := Function.update s.view.ref inum (s.view.ref inum + 1) } ∧
      SameFiles s (s.setEntry inum ⟨(s.icache inum).ref + 1, s.view.loaded inum, s.ip inum⟩) := by
  have icache (o : Nat) :=
    icache_setEntry (s := s) ⟨(s.icache inum).ref + 1, s.view.loaded inum, s.ip inum⟩ inum o
  generalize taken : s.setEntry inum ⟨(s.icache inum).ref + 1, s.view.loaded inum, s.ip inum⟩ = s' at icache ⊢
  have after := inv.cache s' (by rw [← taken]; rfl) (by rw [← taken]; rfl) fun o inside valid => by
    have before : (s.icache o).valid = true ∧ s'.ip o = s.ip o := by
      unfold Fs.ip
      rw [icache] at valid ⊢
      split at valid
      · next same =>
          rw [if_pos same, same]
          exact ⟨(Bool.and_eq_true_iff.mp valid).1, rfl⟩
      · next apart => exact ⟨valid, by rw [if_neg apart]⟩
    rw [before.2, inv.synced o inside before.1]
    exact ⟨rfl, inv.typed o inside before.1⟩
  refine ⟨after.1, Files.eq (by rw [← taken]; rfl) after.2.1 (fun o => ?_) (fun o => ?_), after.2.2⟩
  · show (s'.icache o).ref = Function.update (fun o => (s.icache o).ref) inum ((s.icache inum).ref + 1) o
    rw [icache, Function.update_apply]
    split <;> rfl
  · show ((s'.icache o).valid && decide (0 < (s'.icache o).ref)) = s.view.loaded o
    rw [icache]
    split
    · next same =>
        rw [same, decide_eq_true (Nat.succ_pos _), Bool.and_true]
    · rfl

/-- `iget` takes a reference as the table of files does, and fails where it does. -/
theorem iget_holds (inv : s.Inv) (inum : Nat) :
    (∃ s', s.iget inum = .ok s' ∧ s'.Inv ∧ s.view.hold inum = .ok s'.view ∧ SameFiles s s') ∨
      ∃ fault, s.iget inum = .error fault ∧ s.view.hold inum = .error fault := by
  rw [iget_eq]
  unfold Files.hold
  by_cases room : 0 < s.view.ref inum ∨ s.view.held < NINODE
  · obtain ⟨after, view, same⟩ := hold_after inv inum
    rw [if_pos room, if_pos room]
    exact .inl ⟨_, rfl, after, by rw [view], same⟩
  · rw [if_neg room, if_neg room]
    exact .inr ⟨_, rfl, rfl⟩

/-- `iget` panics where the table does. -/
theorem iget_agrees (inv : s.Inv) (inum : Nat) : Agrees s (.iget inum) (s.call (.iget inum)) := by
  show Agrees s _ (s.iget inum >>= fun s => .ok (.void, s))
  have abstract : s.view.call (.iget inum) = s.view.hold inum >>= fun a => .ok (.void, a) := rfl
  rcases iget_holds inv inum with ⟨s', ran, after, hold, same⟩ | ⟨fault, failed, hold⟩
  · rw [hold] at abstract
    rw [ran]
    exact ⟨after, abstract, same.effects inv.sound fun _ => nofun⟩
  · rw [hold] at abstract
    rw [failed]
    exact .inl abstract

/-- `ilock` reads the inode. -/
theorem ilock_agrees (inv : s.Inv) (inside : inum < s.sb.ninodes) :
    Agrees s (.ilock inum) (s.call (.ilock inum)) := by
  have abstract : s.view.call (.ilock inum) = if (s.icache inum).ref < 1 then .error (.panic "ilock")
      else if s.view.loaded inum then .ok (.void, s.view)
      else if s.view.file inum = none then .error (.panic "ilock: no type")
      else .ok (.void, { s.view with loaded := Function.update s.view.loaded inum true }) := rfl
  show Agrees s (.ilock inum) (s.ilock inum >>= fun s => .ok (.void, s))
  unfold ilock
  by_cases held : (s.icache inum).ref < 1
  · rw [if_pos held]
    refine .inl ?_
    rw [abstract, if_pos held]
  rw [if_neg held] at abstract ⊢
  have loaded : s.view.loaded inum = (s.icache inum).valid := by
    show ((s.icache inum).valid && decide (0 < (s.icache inum).ref)) = _
    rw [decide_eq_true (by omega), Bool.and_true]
  rw [loaded] at abstract
  cases valid : (s.icache inum).valid with
  | true =>
      rw [valid, if_pos rfl] at abstract
      rw [if_pos rfl, ok_bind]
      exact ⟨inv, abstract, (SameFiles.refl s).effects inv.sound fun _ => nofun⟩
  | false =>
      rw [valid, if_neg Bool.false_ne_true] at abstract
      rw [if_neg Bool.false_ne_true]
      have inode := inv.inode_eq inside
      by_cases typed : (s.dinode inum).type = 0
      · have none : s.view.file inum = none := if_neg fun h => h.2 (inode ▸ typed)
        rw [if_pos none] at abstract
        rw [if_pos typed]
        exact .inl abstract
      · have some : s.view.file inum ≠ none := by
          rw [view_file inside (inode ▸ typed)]
          exact Option.some_ne_none _
        rw [if_neg some] at abstract
        rw [if_neg typed, ok_bind]
        have after := inv.cache (s.setEntry inum
            { s.icache inum with valid := true, inode := s.dinode inum }) rfl rfl fun o within loaded => by
          unfold Fs.ip
          rw [icache_setEntry] at loaded ⊢
          by_cases same : o = inum
          · rw [if_pos same, same]
            exact ⟨rfl, typed⟩
          · rw [if_neg same] at loaded ⊢
            exact ⟨(inv.synced o within loaded).symm, by
              rw [inv.synced o within loaded]
              exact inv.typed o within loaded⟩
        refine ⟨after.1, abstract.trans ?_, after.2.2.effects inv.sound fun _ => nofun⟩
        congr 2
        refine Files.eq rfl after.2.1.symm (fun o => ?_) (fun o => ?_)
        · show (s.icache o).ref = ((s.setEntry inum _).icache o).ref
          rw [icache_setEntry]
          split
          · next same => rw [same]
          · rfl
        · show Function.update s.view.loaded inum true o = (((s.setEntry inum _).icache o).valid &&
            decide (0 < ((s.setEntry inum _).icache o).ref))
          rw [icache_setEntry, Function.update_apply]
          split
          · show true = (true && decide (0 < (s.icache inum).ref))
            rw [decide_eq_true (by omega), Bool.and_true]
          · rfl

end Fs

end Riscv2os.Xv7
