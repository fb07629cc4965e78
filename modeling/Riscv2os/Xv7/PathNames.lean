import Mathlib.Data.List.TakeWhile
import Riscv2os.Xv7.Directory
import Riscv2os.Xv7.InodeCache

/-!
# Path names

`skipelem`, `namex`, `namei` and `nameiparent`, with the functions of the inode cache as one process
calls them while no other runs. A path is the list of its bytes from a pointer on; it ends at the first
zero or with the list. The file that the addresses of an inode name is a parameter.
-/

namespace Riscv2os.Xv7

open Riscv2os.Std

/-- `T_DIR`. -/
abbrev T_DIR : BitVec 16 := 1

namespace Path

/-- Whether a byte is part of an element. -/
def inside (c : UInt8) : Bool := c ≠ 47 ∧ c ≠ 0

/-- Put an element of a path into the buffer of a name. -/
def setName (name elem : List UInt8) : List UInt8 :=
  if elem.length ≥ DIRSIZ then elem.take DIRSIZ else elem ++ 0 :: name.drop (elem.length + 1)

/-- Copy the next path element from `path` into `name`. The result is the path behind it. -/
def skipelem (path name : List UInt8) : Option (List UInt8 × List UInt8) :=
  let s := path.dropWhile (· = 47)
  if s.headD 0 = 0 then none
  else
    some ((s.dropWhile inside).dropWhile (· = 47), setName name (s.takeWhile inside))

/-- The components of a path that are not empty. -/
def components (path : List UInt8) : List (List UInt8) :=
  ((path.takeWhile (· ≠ 0)).splitOn 47).filter (· ≠ [])

variable {path name elem : List UInt8}

theorem components_slash (path : List UInt8) : components (47 :: path) = components path := by
  simp [components, List.splitOn_cons_eq_if_modifyHead]

theorem components_skip (path : List UInt8) : components (path.dropWhile (· = 47)) = components path := by
  induction path with
  | nil => rfl
  | cons c path ih =>
      rw [List.dropWhile_cons]
      split
      · next slash =>
        obtain rfl : c = 47 := by simpa using slash
        rw [ih, components_slash]
      · rfl

theorem components_end (stop : path.headD 0 = 0) : components path = [] := by
  cases path with
  | nil => rfl
  | cons c path =>
      obtain rfl : c = 0 := stop
      rfl

theorem splitOn_elem (path : List UInt8) : (path.takeWhile (· ≠ 0)).splitOn 47 = path.takeWhile inside ::
    match path.dropWhile inside with
    | [] => []
    | c :: rest => if c = 47 then (rest.takeWhile (· ≠ 0)).splitOn 47 else [] := by
  induction path with
  | nil => rfl
  | cons c path ih =>
      by_cases zero : c = 0
      · subst zero
        simp [inside]
      · by_cases slash : c = 47
        · subst slash
          simp [inside, List.splitOn_cons_eq_if_modifyHead]
        · have part : inside c = true := by simp [inside, zero, slash]
          rw [List.takeWhile_cons_of_pos (by simpa using zero), List.takeWhile_cons_of_pos part,
            List.dropWhile_cons_of_pos part, List.splitOn_cons_eq_if_modifyHead,
            if_neg (by simpa using slash), ih]
          rfl

/-- The first component is what stands before a slash or the end. -/
theorem components_elem (first : path.headD 0 ≠ 47) (more : path.headD 0 ≠ 0) :
    components path = path.takeWhile inside :: components (path.dropWhile inside) := by
  cases path with
  | nil => exact absurd rfl more
  | cons c path =>
      have part : inside c = true := by simpa [inside] using And.intro first more
      unfold components
      rw [splitOn_elem, List.filter_cons_of_pos (by simp [part])]
      congr 1
      rw [splitOn_elem ((c :: path).dropWhile inside)]
      cases rest : (c :: path).dropWhile inside with
      | nil => rfl
      | cons c' rest =>
          have stop : inside c' = false := by
            have head := List.head?_dropWhile_not inside (c :: path)
            simpa [rest] using head
          simp [stop]

theorem upTo_ofList (bytes : List UInt8) (i n : Nat) :
    (CString.ofList bytes).upTo i n = ((bytes.drop i).take n).takeWhile (· ≠ 0) := by
  induction n generalizing i with
  | zero => simp [CString.upTo]
  | succ n ih =>
      unfold CString.upTo
      by_cases more : i < bytes.length
      · rw [List.drop_eq_getElem_cons more, List.take_succ_cons, List.takeWhile_cons, ih]
        simp [CString.ofList, more]
      · simp [CString.ofList, List.drop_eq_nil_of_le (Nat.le_of_not_lt more), more]

/-- The buffer then has the name of the element, of which no more than `DIRSIZ` bytes count. -/
theorem name_setName (name : List UInt8) (nonzero : ∀ c ∈ elem, c ≠ 0) :
    (CString.ofList (setName name elem)).name = elem.take DIRSIZ := by
  have whole : ∀ n, (elem.take n).takeWhile (· ≠ 0) = elem.take n := fun n =>
    List.takeWhile_eq_self_iff.mpr fun c within => by simpa using nonzero c (List.mem_of_mem_take within)
  unfold CString.name setName
  rw [upTo_ofList, List.drop_zero]
  split
  · rw [List.take_take, min_self, whole]
  · next short =>
    obtain ⟨rest, room⟩ : ∃ rest, DIRSIZ - elem.length = rest + 1 := ⟨DIRSIZ - elem.length - 1, by omega⟩
    have all : elem.take DIRSIZ = elem := List.take_of_length_le (by omega)
    rw [List.take_append, all, room, List.take_succ_cons,
      List.takeWhile_append_of_pos fun c within => by simpa using nonzero c within]
    simp

/-- Behind slashes there is none. -/
theorem headD_skip (path : List UInt8) : (path.dropWhile (· = 47)).headD 0 ≠ 47 := by
  cases rest : path.dropWhile (· = 47) with
  | nil => exact nofun
  | cons c rest =>
      have head := List.head?_dropWhile_not (· = 47) path
      simpa [rest] using head

/-- `skipelem` takes the first component off a path, and returns null if there is none. -/
theorem skipelem_cases (path name : List UInt8) :
    (skipelem path name = none ∧ components path = []) ∨
      ∃ rest elem, skipelem path name = some (rest, setName name elem) ∧
        components path = elem :: components rest ∧ rest.length < path.length ∧
        (∀ c ∈ elem, c ≠ 0) ∧ (rest.headD 0 = 0 ↔ components rest = []) := by
  have skip := components_skip path
  have short := (List.dropWhile_suffix (l := path) (· = 47)).length_le
  have first := headD_skip path
  unfold skipelem
  dsimp only
  split
  · next stop => exact .inl ⟨rfl, skip ▸ components_end stop⟩
  · next more =>
    right
    refine ⟨_, _, rfl, ?_, ?_, ?_, ?_⟩
    · rw [components_skip, ← skip, components_elem first more]
    · have rest := List.length_dropWhile_le (· = 47) ((path.dropWhile (· = 47)).dropWhile inside)
      have shorter : ((path.dropWhile (· = 47)).dropWhile inside).length <
          (path.dropWhile (· = 47)).length := by
        cases elem : path.dropWhile (· = 47) with
        | nil => exact absurd (by rw [elem]; rfl) more
        | cons c tail =>
            rw [elem] at first more
            have part : inside c = true := by simpa [inside] using And.intro first more
            rw [List.dropWhile_cons_of_pos part]
            exact Nat.lt_succ_of_le (List.length_dropWhile_le inside tail)
      omega
    · intro c within
      have part := List.mem_takeWhile_imp within
      simp only [inside, decide_eq_true_eq] at part
      exact part.2
    · constructor
      · exact components_end
      · intro none
        by_contra goes
        have some := components_elem (headD_skip _) goes
        rw [none] at some
        cases some

theorem length_skipelem {rest name' : List UInt8} (next : skipelem path name = some (rest, name')) :
    rest.length < path.length := by
  rcases skipelem_cases path name with ⟨none, -⟩ | ⟨rest', elem, some, -, short, -⟩
  · rw [none] at next
    cases next
  · rw [some] at next
    cases next
    exact short

end Path

namespace Content

variable {n m : CString}

theorem lookupLoop_more (dp : Content) (name : CString) {off : Nat} (more : off < dp.size) :
    dp.lookupLoop name off =
      if (dp.readKernel off DIRENT).1 ≠ DIRENT then .error (.panic "dirlookup read")
      else if (Dirent.ofBytes (dp.readKernel off DIRENT).2).inum = 0 then dp.lookupLoop name (off + DIRENT)
      else if namecmp name (Dirent.ofBytes (dp.readKernel off DIRENT).2).name = 0 then
        .ok (some ((Dirent.ofBytes (dp.readKernel off DIRENT).2).inum, off))
      else dp.lookupLoop name (off + DIRENT) := by
  rw [lookupLoop, dif_pos more]

/-- Only the first `DIRSIZ` bytes of a name count. -/
theorem lookupLoop_congr (dp : Content) (same : n.name = m.name) (off : Nat) :
    dp.lookupLoop n off = dp.lookupLoop m off := by
  have test : ∀ t, namecmp n t = 0 ↔ namecmp m t = 0 := by simp [namecmp_eq_zero_iff, same]
  induction left : dp.size - off using Nat.strong_induction_on generalizing off with
  | _ left ih =>
  by_cases more : off < dp.size
  · have rest := ih (dp.size - (off + DIRENT)) (by simp only [DIRENT]; omega) (off + DIRENT) rfl
    rw [lookupLoop_more dp n more, lookupLoop_more dp m more, rest]
    simp only [test]
  · rw [lookupLoop, dif_neg more, lookupLoop, dif_neg more]

theorem dirlookup_congr (dp : Content) (same : n.name = m.name) : dp.dirlookup n = dp.dirlookup m :=
  dp.lookupLoop_congr same 0

end Content

namespace InodeCache

/-- The root directory: `ROOTDEV` and `ROOTINO`. -/
def root : Nat × Nat := (0, 1)

namespace Cache

/-- Lock the given inode. -/
def ilock (s : Cache) (p : Fin NPROC) (k : Fin NINODE) : Except Fault Cache :=
  if (s.entry k).ref < 1 then .error (.panic "ilock")
  else if (s.entry k).lock ≠ none then .error .blocked
  else (s.setLock k (some p)).load k

/-- Unlock the given inode. -/
def iunlock (s : Cache) (p : Fin NPROC) (k : Fin NINODE) : Except Fault Cache :=
  if (s.entry k).lock ≠ some p ∨ (s.entry k).ref < 1 then .error (.panic "iunlock")
  else .ok (s.setLock k none)

/-- `itrunc`, without the blocks that it frees. -/
def itrunc (s : Cache) (k : Fin NINODE) : Cache :=
  (((List.range (NDIRECT + 1)).foldl (fun s i => s.setInode k fun ip => ip.setAddr i 0) s).setInode k
    fun ip => { ip with size := 0 }).iupdate k

/-- Free an inode. -/
def free (s : Cache) (p : Fin NPROC) (k : Fin NINODE) : Cache :=
  let s := (s.setLock k (some p)).itrunc k
  let s := (s.setInode k fun ip => { ip with type := 0 }).iupdate k
  (s.invalidate k).setLock k none

/-- Drop a reference to an in-memory inode. -/
def iput (s : Cache) (p : Fin NPROC) (k : Fin NINODE) : Except Fault Cache :=
  if s.lastPut k then
    if (s.entry k).lock ≠ none then .error .blocked else .ok ((s.free p k).drop k)
  else .ok (s.drop k)

/-- Unlock, then put. -/
def iunlockput (s : Cache) (p : Fin NPROC) (k : Fin NINODE) : Except Fault Cache := do
  let s ← s.iunlock p k
  s.iput p k

variable (content : Dinode → Content)

/-- Look for a directory entry in a directory. -/
def dirlookup (s : Cache) (dp : Fin NINODE) (name : List UInt8) :
    Except Fault (Option (Fin NINODE) × Cache) :=
  if (s.entry dp).inode.type ≠ T_DIR then .error (.panic "dirlookup not DIR")
  else do
    match ← (content (s.entry dp).inode).dirlookup (.ofList name) with
    | none => return (none, s)
    | some (inum, _) =>
        let (ip, s) ← s.iget ((s.entry dp).id.1, inum)
        return (some ip, s)

/-- The body of the loop of `namex`, with what it does next: return an entry or null, or go on with the next
entry. -/
def enter (s : Cache) (p : Fin NPROC) (ip : Fin NINODE) (stop : Bool) (name : List UInt8) :
    Except Fault ((Option (Fin NINODE) ⊕ Fin NINODE) × Cache) := do
  let s ← s.ilock p ip
  if (s.entry ip).inode.type ≠ T_DIR then
    let s ← s.iunlockput p ip
    return (.inl none, s)
  else if stop then
    -- stop one level early
    let s ← s.iunlock p ip
    return (.inl (some ip), s)
  else
    let (next, s) ← s.dirlookup content ip name
    let s ← s.iunlockput p ip
    match next with
    | none => return (.inl none, s)
    | some next => return (.inr next, s)

/-- The loop of `namex`. The result is the entry or null, and the name. -/
def namexLoop (p : Fin NPROC) (nameiparent : Bool) (s : Cache) (ip : Fin NINODE) (path name : List UInt8) :
    Except Fault (Option (Fin NINODE) × List UInt8 × Cache) :=
  match _next : Path.skipelem path name with
  | none =>
      if nameiparent then do
        let s ← s.iput p ip
        return (none, name, s)
      else return (some ip, name, s)
  | some (rest, name) => do
      match ← s.enter content p ip (nameiparent ∧ rest.headD 0 = 0) name with
      | (.inl result, s) => return (result, name, s)
      | (.inr ip, s) => namexLoop p nameiparent s ip rest name
  termination_by path.length
  decreasing_by exact Path.length_skipelem _next

/-- Look up and return the inode for a path name. -/
def namex (s : Cache) (p : Fin NPROC) (cwd : Fin NINODE) (path : List UInt8) (nameiparent : Bool)
    (name : List UInt8) : Except Fault (Option (Fin NINODE) × List UInt8 × Cache) := do
  let (ip, s) ← if path.headD 0 = 47 then s.iget root else .ok (cwd, s.idup cwd)
  s.namexLoop content p nameiparent ip path name

/-- `namei`, with the buffer on its stack. -/
def namei (s : Cache) (p : Fin NPROC) (cwd : Fin NINODE) (path name : List UInt8) :
    Except Fault (Option (Fin NINODE) × Cache) :=
  (s.namex content p cwd path false name).map fun r => (r.1, r.2.2)

/-- `nameiparent`. -/
def nameiparent (s : Cache) (p : Fin NPROC) (cwd : Fin NINODE) (path name : List UInt8) :
    Except Fault (Option (Fin NINODE) × List UInt8 × Cache) := s.namex content p cwd path true name

/-- The cache between calls, while no process has a lock. -/
structure Quiet (s : Cache) : Prop where
  unique : ∀ i j, 0 < (s.entry i).ref → 0 < (s.entry j).ref → (s.entry i).id = (s.entry j).id → i = j
  agrees : ∀ k, 0 < (s.entry k).ref → (s.entry k).valid = true →
    (s.entry k).inode = s.disk (s.entry k).id ∧ (s.entry k).inode.type ≠ 0
  unlocked : ∀ k, (s.entry k).lock = none
  counted : ∀ k, 0 ≤ (s.entry k).ref

/-- `t` is `s` with these references in addition, and a lock. -/
structure Taken (s t : Cache) (p : Fin NPROC) (extra : Fin NINODE → Int) (locked : Option (Fin NINODE)) :
    Prop where
  unique : ∀ i j, 0 < (t.entry i).ref → 0 < (t.entry j).ref → (t.entry i).id = (t.entry j).id → i = j
  agrees : ∀ k, 0 < (t.entry k).ref → (t.entry k).valid = true →
    (t.entry k).inode = s.disk (t.entry k).id ∧ (t.entry k).inode.type ≠ 0
  lock : ∀ k, (t.entry k).lock = if locked = some k then some p else none
  disk : t.disk = s.disk
  ref : ∀ k, (t.entry k).ref = (s.entry k).ref + extra k
  more : ∀ k, 0 ≤ extra k
  same : ∀ k, 0 < (s.entry k).ref → (t.entry k).id = (s.entry k).id

variable {s t : Cache} {p : Fin NPROC} {extra : Fin NINODE → Int} {k : Fin NINODE} {id : Nat × Nat}

theorem Quiet.taken (quiet : s.Quiet) (p : Fin NPROC) : Taken s s p 0 none where
  unique := quiet.unique
  agrees := quiet.agrees
  lock k := by simp [quiet.unlocked k]
  disk := rfl
  ref k := by simp
  more _ := le_refl 0
  same _ _ := rfl

/-- One more reference to an entry. -/
def plus (extra : Fin NINODE → Int) (k : Fin NINODE) (n : Int) : Fin NINODE → Int :=
  Function.update extra k (extra k + n)

@[simp] theorem plus_zero (extra : Fin NINODE → Int) (k : Fin NINODE) : plus extra k 0 = extra := by
  simp [plus]

/-- A change of one entry. -/
theorem Taken.update {locked locked' : Option (Fin NINODE)} {change : Entry → Entry} {n : Int}
    (taken : Taken s t p extra locked) (ref : (change (t.entry k)).ref = (t.entry k).ref + n)
    (more : 0 ≤ extra k + n)
    (apart : 0 < (change (t.entry k)).ref →
      ∀ j, j ≠ k → 0 < (t.entry j).ref → (t.entry j).id ≠ (change (t.entry k)).id)
    (agrees : 0 < (change (t.entry k)).ref → (change (t.entry k)).valid = true →
      (change (t.entry k)).inode = s.disk (change (t.entry k)).id ∧ (change (t.entry k)).inode.type ≠ 0)
    (lock : (change (t.entry k)).lock = if locked' = some k then some p else none)
    (others : ∀ j, j ≠ k → (locked' = some j ↔ locked = some j))
    (same : 0 < (s.entry k).ref → (change (t.entry k)).id = (t.entry k).id) :
    Taken s (t.update k change) p (plus extra k n) locked' where
  unique i j usedI usedJ both := by
    by_cases first : i = k
    · by_cases second : j = k
      · exact first.trans second.symm
      · subst first
        rw [update_self] at usedI both
        rw [update_ne _ _ _ second] at usedJ both
        exact absurd both.symm (apart usedI j second usedJ)
    · rw [update_ne _ _ _ first] at usedI both
      by_cases second : j = k
      · subst second
        rw [update_self] at usedJ both
        exact absurd both (apart usedJ i first usedI)
      · rw [update_ne _ _ _ second] at usedJ both
        exact taken.unique i j usedI usedJ both
  agrees j := by
    by_cases this : j = k
    · subst this
      rw [update_self]
      exact agrees
    · rw [update_ne _ _ _ this]
      exact taken.agrees j
  lock j := by
    by_cases this : j = k
    · subst this
      rw [update_self, lock]
    · rw [update_ne _ _ _ this, taken.lock j]
      simp only [others j this]
  disk := taken.disk
  ref j := by
    have before := taken.ref j
    by_cases this : j = k
    · subst this
      rw [update_self, ref, plus, Function.update_self]
      omega
    · rw [update_ne _ _ _ this, plus, Function.update_of_ne this]
      exact before
  more j := by
    by_cases this : j = k
    · subst this
      rw [plus, Function.update_self]
      exact more
    · rw [plus, Function.update_of_ne this]
      exact taken.more j
  same j used := by
    by_cases this : j = k
    · subst this
      rw [update_self, same used]
      exact taken.same j used
    · rw [update_ne _ _ _ this]
      exact taken.same j used

/-- A change of one entry that keeps its inode, its lock and what it says about the inode. -/
theorem Taken.count {locked : Option (Fin NINODE)} {n : Int} (taken : Taken s t p extra locked)
    (more : 0 ≤ extra k + n) (used : 0 < (t.entry k).ref + n → 0 < (t.entry k).ref) :
    Taken s (t.update k fun ip => { ip with ref := ip.ref + n }) p (plus extra k n) locked :=
  taken.update rfl more (fun now j other there both => other (taken.unique j k there (used now) both))
    (fun now => taken.agrees k (used now)) (taken.lock k) (fun _ _ => Iff.rfl) (fun _ => rfl)

theorem Taken.setLock {locked locked' : Option (Fin NINODE)} {holder : Option (Fin NPROC)}
    (taken : Taken s t p extra locked) (lock : holder = if locked' = some k then some p else none)
    (others : ∀ j, j ≠ k → (locked' = some j ↔ locked = some j)) :
    Taken s (t.setLock k holder) p extra locked' := by
  have after : Taken s (t.setLock k holder) p (plus extra k 0) locked' :=
    taken.update (by simp) (by simpa using taken.more k)
      (fun now j other there both => other (taken.unique j k there now both)) (taken.agrees k) lock others
      (fun _ => rfl)
  rwa [plus_zero] at after

/-- Somebody uses the inode. -/
def Held (s : Cache) (id : Nat × Nat) : Prop := ∃ k, 0 < (s.entry k).ref ∧ (s.entry k).id = id

/-- The inode is in the cache, or an entry is free. -/
def Room (s : Cache) (id : Nat × Nat) : Prop := s.Held id ∨ ∃ k, (s.entry k).ref = 0

/-- `iget` takes a reference, or every entry is in use. -/
theorem Taken.iget {locked : Option (Fin NINODE)} (quiet : s.Quiet) (taken : Taken s t p extra locked)
    (id : Nat × Nat) :
    (t.iget id = .error (.panic "iget: no inodes") ∧ ¬ t.Room id ∧ ∀ k, extra k = 0 → 0 < (s.entry k).ref) ∨
      ∃ k t', t.iget id = .ok (k, t') ∧ t.Room id ∧ Taken s t' p (plus extra k 1) locked ∧
        (t'.entry k).id = id ∧ ∀ j, 0 < (t.entry j).ref → (t'.entry j).id = (t.entry j).id := by
  unfold Cache.iget
  cases hit : t.cached id with
  | some k =>
      have found : 0 < (t.entry k).ref ∧ (t.entry k).id = id := by simpa using List.find?_some hit
      have more := taken.more k
      refine .inr ⟨k, _, rfl, .inl ⟨k, found⟩, taken.count (by omega) fun _ => found.1,
        by simpa using found.2, fun j _ => ?_⟩
      exact t.update_id k _ (by intro _; rfl) j
  | none =>
      have absent : ∀ j, 0 < (t.entry j).ref → (t.entry j).id ≠ id := by simpa [cached] using hit
      cases spare : t.empty with
      | none =>
          have full : ∀ j, (t.entry j).ref ≠ 0 := by simpa [empty] using spare
          refine .inl ⟨rfl, ?_, fun k none => ?_⟩
          · rintro (⟨k, used, same⟩ | ⟨k, unused⟩)
            · exact absent k used same
            · exact full k unused
          have counted := quiet.counted k
          have ref := taken.ref k
          have used := full k
          omega
      | some k =>
          have unused : (t.entry k).ref = 0 := by simpa using List.find?_some spare
          have ref := taken.ref k
          have counted := quiet.counted k
          have more := taken.more k
          refine .inr ⟨k, _, rfl, .inr ⟨k, unused⟩, taken.update ?_ ?_ ?_ ?_ ?_ (fun _ _ => Iff.rfl) ?_,
            by simp, ?_⟩
          · simp [unused]
          · omega
          · exact fun _ j _ => absent j
          · intro _ valid
            cases valid
          · exact taken.lock k
          · omega
          · intro j used
            have other : j ≠ k := by
              rintro rfl
              omega
            rw [update_ne _ _ _ other]

/-- An inode that a put does not free: it is free already, or has a link, or somebody uses it. -/
def Linked (s : Cache) (id : Nat × Nat) : Prop :=
  (s.disk id).type = 0 ∨ (s.disk id).nlink ≠ 0 ∨ ∃ k, 0 < (s.entry k).ref ∧ (s.entry k).id = id

/-- Two entries of the cache are free. -/
def Spare (s : Cache) : Prop := ∃ i j, i ≠ j ∧ (s.entry i).ref = 0 ∧ (s.entry j).ref = 0

/-- There is room for the inode `next` beside a reference to `id`. -/
def Beside (s : Cache) (id next : Nat × Nat) : Prop :=
  s.Held next ∨ next = id ∨ s.Spare ∨ s.Held id ∧ ∃ k, (s.entry k).ref = 0

theorem Taken.used {locked : Option (Fin NINODE)} (quiet : s.Quiet) (taken : Taken s t p extra locked)
    (one : 1 ≤ extra k) : 0 < (t.entry k).ref := by
  have counted := quiet.counted k
  have ref := taken.ref k
  omega

/-- `ilock` reads the inode, or finds that it is free. -/
theorem Taken.ilock (quiet : s.Quiet) (taken : Taken s t p extra none) (one : 1 ≤ extra k) :
    (t.ilock p k = .error (.panic "ilock: no type") ∧ (s.disk (t.entry k).id).type = 0) ∨
      ∃ t', t.ilock p k = .ok t' ∧ Taken s t' p extra (some k) ∧
        (t'.entry k).inode = s.disk (t'.entry k).id ∧ (s.disk (t.entry k).id).type ≠ 0 ∧
        ∀ j, (t'.entry j).id = (t.entry j).id := by
  have used := taken.used quiet one
  have free : (t.entry k).lock = none := by simp [taken.lock k]
  have locked : Taken s (t.setLock k (some p)) p extra (some k) :=
    taken.setLock (by simp) fun j other => by simp [Ne.symm other]
  have now : ((t.setLock k (some p)).entry k).ref = (t.entry k).ref := by simp [Cache.setLock]
  have disk : (t.setLock k (some p)).disk = s.disk := taken.disk
  unfold Cache.ilock Cache.load
  rw [if_neg (by omega), if_neg (not_not.mpr free)]
  split
  · next valid =>
    obtain ⟨inode, typed⟩ := locked.agrees k (now ▸ used) valid
    rw [inode, setLock_id] at typed
    exact .inr ⟨_, rfl, locked, inode, typed, fun j => by simp⟩
  · split
    · next none =>
      rw [disk, setLock_id] at none
      exact .inl ⟨rfl, none⟩
    · next typed =>
      have after : Taken s ((t.setLock k (some p)).update k fun ip =>
          { ip with inode := (t.setLock k (some p)).disk ip.id, valid := true }) p (plus extra k 0)
          (some k) :=
        locked.update (by simp) (by simpa using taken.more k)
          (fun now j other there both => other (locked.unique j k there now both))
          (fun _ _ => ⟨by rw [disk], typed⟩) (locked.lock k) (fun _ _ => Iff.rfl) (fun _ => rfl)
      rw [plus_zero] at after
      refine .inr ⟨_, rfl, after, by simp [disk], by rwa [disk, setLock_id] at typed, fun j => ?_⟩
      rw [update_id _ k _ (by intro _; rfl), setLock_id]

theorem Taken.iunlock (quiet : s.Quiet) (taken : Taken s t p extra (some k)) (one : 1 ≤ extra k) :
    t.iunlock p k = .ok (t.setLock k none) ∧ Taken s (t.setLock k none) p extra none := by
  have used := taken.used quiet one
  have lock : (t.entry k).lock = some p := by simp [taken.lock k]
  refine ⟨?_, taken.setLock (by simp) fun j other => by simp [Ne.symm other]⟩
  unfold Cache.iunlock
  rw [if_neg]
  rintro (other | unused)
  · exact other lock
  · omega

/-- `iput` gives back a reference and frees nothing. -/
theorem Taken.iput (quiet : s.Quiet) (taken : Taken s t p extra none) (one : 1 ≤ extra k)
    (linked : s.Linked (t.entry k).id) :
    t.iput p k = .ok (t.drop k) ∧ Taken s (t.drop k) p (plus extra k (-1)) none := by
  have used := taken.used quiet one
  constructor
  · unfold Cache.iput
    rw [if_neg]
    intro last
    obtain ⟨ref, valid, nlink⟩ : (t.entry k).ref = 1 ∧ (t.entry k).valid = true ∧
        (t.entry k).inode.nlink = 0 := by simpa [lastPut] using last
    obtain ⟨agrees, typed⟩ := taken.agrees k used valid
    rw [agrees] at nlink typed
    rcases linked with free | link | ⟨j, usedJ, id⟩
    · exact typed free
    · exact link nlink
    · have counts := taken.ref k
      have countsJ := taken.ref j
      have moreJ := taken.more j
      have this : j = k := taken.unique j k (by omega) used ((taken.same j usedJ).trans id)
      subst this
      omega
  · refine taken.update (by simp [sub_eq_add_neg]) (by omega) (fun now j other there both => ?_)
      (fun now => taken.agrees k used) (taken.lock k) (fun _ _ => Iff.rfl) (fun _ => rfl)
    exact other (taken.unique j k there used both)

theorem Taken.iunlockput (quiet : s.Quiet) (taken : Taken s t p extra (some k)) (one : 1 ≤ extra k)
    (linked : s.Linked (t.entry k).id) :
    t.iunlockput p k = .ok ((t.setLock k none).drop k) ∧
      Taken s ((t.setLock k none).drop k) p (plus extra k (-1)) none := by
  obtain ⟨unlock, taken⟩ := taken.iunlock quiet one
  obtain ⟨put, taken⟩ := taken.iput quiet one (by rwa [setLock_id])
  refine ⟨?_, taken⟩
  unfold Cache.iunlockput
  rw [unlock]
  exact put

/-- The reference to a result. -/
def one (result : Option (Fin NINODE)) : Fin NINODE → Int := fun k => if result = some k then 1 else 0

theorem plus_one_self (k : Fin NINODE) : plus (one (some k)) k (-1) = one none := by
  funext j
  by_cases this : j = k
  · subst this
    simp [plus, one]
  · simp [plus, one, this, Ne.symm this]

theorem plus_plus_one (k j : Fin NINODE) : plus (plus (one (some k)) j 1) k (-1) = one (some j) := by
  funext i
  by_cases first : i = k
  · subst first
    by_cases second : i = j
    · subst second
      simp [plus, one]
    · simp [plus, one, second, Ne.symm second]
  · by_cases second : i = j
    · subst second
      simp [plus, one, first, Ne.symm first]
    · simp [plus, one, first, second, Ne.symm first, Ne.symm second]

/-- Room for another inode while one reference is taken. -/
theorem Taken.room {locked : Option (Fin NINODE)} (quiet : s.Quiet)
    (taken : Taken s t p (one (some k)) locked) (next : Nat × Nat) :
    t.Room next ↔ s.Beside (t.entry k).id next := by
  have ref : ∀ j, j ≠ k → (t.entry j).ref = (s.entry j).ref := fun j other => by
    rw [taken.ref, one, if_neg (by simpa using Ne.symm other), add_zero]
  have mine : (t.entry k).ref = (s.entry k).ref + 1 := by rw [taken.ref, one, if_pos rfl]
  have counted := quiet.counted k
  have used : 0 < (t.entry k).ref := by omega
  have kept : ∀ j, 0 < (s.entry j).ref → 0 < (t.entry j).ref := fun j usedJ => by
    by_cases this : j = k
    · rwa [this]
    · rwa [ref j this]
  -- who uses the inode of entry `k` uses that entry
  have held : s.Held (t.entry k).id ↔ 0 < (s.entry k).ref := by
    constructor
    · rintro ⟨j, usedJ, same⟩
      rwa [← taken.unique j k (kept j usedJ) used ((taken.same j usedJ).trans same)]
    · exact fun usedK => ⟨k, usedK, (taken.same k usedK).symm⟩
  constructor
  · rintro (⟨j, usedJ, rfl⟩ | ⟨j, free⟩)
    · by_cases this : j = k
      · exact .inr (.inl (by rw [this]))
      · rw [ref j this] at usedJ
        exact .inl ⟨j, usedJ, (taken.same j usedJ).symm⟩
    · have this : j ≠ k := by
        rintro rfl
        omega
      rw [ref j this] at free
      by_cases usedK : 0 < (s.entry k).ref
      · exact .inr (.inr (.inr ⟨held.mpr usedK, j, free⟩))
      · exact .inr (.inr (.inl ⟨j, k, this, free, by omega⟩))
  · rintro (⟨j, usedJ, rfl⟩ | rfl | ⟨i, j, apart, freeI, freeJ⟩ | ⟨usedK, j, free⟩)
    · exact .inl ⟨j, kept j usedJ, taken.same j usedJ⟩
    · exact .inl ⟨k, used, rfl⟩
    · by_cases this : i = k
      · exact .inr ⟨j, by rw [ref j (this ▸ apart.symm), freeJ]⟩
      · exact .inr ⟨i, by rw [ref i this, freeI]⟩
    · have this : j ≠ k := by
        rintro rfl
        have := held.mp usedK
        omega
      exact .inr ⟨j, by rw [ref j this, free]⟩

/-- What a name stands for in a directory. -/
def lookup (content : Dinode → Content) (s : Cache) (id : Nat × Nat) (name : List UInt8) :
    Option (Nat × Nat) :=
  if (s.disk id).type = T_DIR then
    match (content (s.disk id)).dirlookup (.ofList name) with
    | .ok (some (inum, _)) => some (id.1, inum)
    | _ => none
  else none

/-- A tree of directories. -/
structure Tree (content : Dinode → Content) (s : Cache) : Prop where
  directory : ∀ id, (s.disk id).type = T_DIR → (content (s.disk id)).Directory
  root : s.Linked root
  linked : ∀ id name entry, s.lookup content id name = some entry → s.Linked entry

variable {content : Dinode → Content}

/-- `dirlookup` of a locked directory takes a reference to what the name stands for. -/
theorem Taken.dirlookup (quiet : s.Quiet) (tree : s.Tree content) (name : List UInt8)
    (taken : Taken s t p extra (some k)) (inode : (t.entry k).inode = s.disk (t.entry k).id)
    (isDir : (s.disk (t.entry k).id).type = T_DIR) :
    (t.dirlookup content k name = .error (.panic "iget: no inodes") ∧
        (∃ next, s.lookup content (t.entry k).id name = some next ∧ ¬ t.Room next) ∧
        ∀ k, extra k = 0 → 0 < (s.entry k).ref) ∨
      (t.dirlookup content k name = .ok (none, t) ∧ s.lookup content (t.entry k).id name = none) ∨
      ∃ next t', t.dirlookup content k name = .ok (some next, t') ∧ t.Room (t'.entry next).id ∧
        Taken s t' p (plus extra next 1) (some k) ∧
        s.lookup content (t.entry k).id name = some (t'.entry next).id ∧
        ∀ j, 0 < (t.entry j).ref → (t'.entry j).id = (t.entry j).id := by
  obtain ⟨found, run, -⟩ := Content.dirlookup_spec (tree.directory _ isDir) (.ofList name)
  unfold Cache.dirlookup Cache.lookup
  rw [inode, if_neg (not_not.mpr isDir), if_pos isDir, run]
  cases found with
  | none => exact .inr (.inl ⟨rfl, rfl⟩)
  | some found =>
      rcases taken.iget quiet ((t.entry k).id.1, found.1) with
        ⟨fails, noRoom, full⟩ | ⟨next, t', got, room, now, id, same⟩
      · refine .inl ⟨?_, ⟨_, rfl, noRoom⟩, full⟩
        simp only [bind, Except.bind, fails]
      · right
        right
        refine ⟨next, t', ?_, by rwa [id], now, by rw [id], same⟩
        simp only [bind, Except.bind, got]
        rfl

/-- The body of the loop of `namex`, with a reference to the entry of the directory. -/
theorem Taken.enter (quiet : s.Quiet) (tree : s.Tree content) (stop : Bool) (name : List UInt8)
    (taken : Taken s t p (one (some k)) none) (linked : s.Linked (t.entry k).id) :
    (t.enter content p k stop name = .error (.panic "iget: no inodes") ∧ stop = false ∧
        (∃ next, s.lookup content (t.entry k).id name = some next ∧ ¬ s.Beside (t.entry k).id next) ∧
        ∀ j, j ≠ k → 0 < (s.entry j).ref) ∨
      (t.enter content p k stop name = .error (.panic "ilock: no type") ∧
        (s.disk (t.entry k).id).type = 0) ∨
      (∃ t', t.enter content p k stop name = .ok (.inl none, t') ∧ Taken s t' p (one none) none ∧
        (s.disk (t.entry k).id).type ≠ 0 ∧
        if stop then (s.disk (t.entry k).id).type ≠ T_DIR
        else s.lookup content (t.entry k).id name = none) ∨
      (∃ t', t.enter content p k stop name = .ok (.inl (some k), t') ∧ stop = true ∧
        Taken s t' p (one (some k)) none ∧ (t'.entry k).id = (t.entry k).id ∧
        (s.disk (t.entry k).id).type = T_DIR) ∨
      ∃ next t', t.enter content p k stop name = .ok (.inr next, t') ∧ stop = false ∧
        Taken s t' p (one (some next)) none ∧ s.Beside (t.entry k).id (t'.entry next).id ∧
        s.lookup content (t.entry k).id name = some (t'.entry next).id := by
  have mine : 1 ≤ one (some k) k := by simp [one]
  rcases taken.ilock quiet mine with ⟨fails, free⟩ | ⟨t₁, lock, locked, inode, typed, ids⟩
  · refine .inr (.inl ⟨?_, free⟩)
    simp only [Cache.enter, bind, Except.bind, fails]
  have linked₁ : s.Linked (t₁.entry k).id := by rwa [ids]
  have used := locked.used quiet mine
  simp only [← ids k] at typed ⊢
  by_cases isDir : (s.disk (t₁.entry k).id).type = T_DIR
  · by_cases stops : stop = true
    · obtain ⟨unlock, after⟩ := locked.iunlock quiet mine
      refine .inr (.inr (.inr (.inl ⟨_, ?_, stops, after, by simp, isDir⟩)))
      simp only [Cache.enter, bind, Except.bind, lock, inode, isDir, stops, unlock]
      rfl
    · rw [Bool.not_eq_true] at stops
      rcases locked.dirlookup quiet tree name inode isDir with
        ⟨fails, ⟨next, entry, noRoom⟩, full⟩ | ⟨miss, none⟩ | ⟨next, t₂, found, room, both, entry, same⟩
      · refine .inl ⟨?_, stops, ⟨next, entry, fun beside => noRoom ((locked.room quiet next).mpr beside)⟩,
          fun j other => full j (by simp [one, Ne.symm other])⟩
        simp [Cache.enter, bind, Except.bind, lock, inode, isDir, stops, fails]
      · obtain ⟨put, after⟩ := locked.iunlockput quiet mine linked₁
        rw [plus_one_self] at after
        refine .inr (.inr (.inl ⟨_, ?_, after, typed, by rw [stops]; exact none⟩))
        simp [Cache.enter, bind, Except.bind, lock, inode, isDir, stops, miss, put]
        rfl
      · have count : 1 ≤ plus (one (some k)) next 1 k := by
          by_cases this : k = next
          · subst this
            simp [plus, one]
          · simp [plus, one, this]
        have linked₂ : s.Linked (t₂.entry k).id := by rwa [same k used]
        obtain ⟨put, after⟩ := both.iunlockput quiet count linked₂
        rw [plus_plus_one] at after
        refine .inr (.inr (.inr (.inr ⟨next, _, ?_, stops, after, ?_, ?_⟩)))
        · simp [Cache.enter, bind, Except.bind, lock, inode, isDir, stops, found, put]
          rfl
        · rw [drop_id, setLock_id]
          exact (locked.room quiet _).mp room
        · rw [entry, drop_id, setLock_id]
  · obtain ⟨put, after⟩ := locked.iunlockput quiet mine linked₁
    rw [plus_one_self] at after
    refine .inr (.inr (.inl ⟨_, ?_, after, typed, ?_⟩))
    · simp only [Cache.enter, bind, Except.bind, lock, inode]
      rw [if_pos isDir, put]
      rfl
    · split
      · exact isDir
      · unfold Cache.lookup
        rw [if_neg isDir]

/-- What names stand for, one after another. -/
def resolve (content : Dinode → Content) (s : Cache) (start : Nat × Nat) (names : List (List UInt8)) :
    Option (Nat × Nat) := names.foldlM (s.lookup content) start

/-- The directory that all names but the last stand for. -/
def parent (content : Dinode → Content) (s : Cache) (start : Nat × Nat) (names : List (List UInt8)) :
    Option (Nat × Nat) :=
  if names = [] then none
  else (s.resolve content start names.dropLast).filter fun id => (s.disk id).type = T_DIR

/-- No name but the last stands for a free inode. -/
def Allocated (content : Dinode → Content) (s : Cache) (start : Nat × Nat) (names : List (List UInt8)) :
    Prop :=
  ∀ before name after id, names = before ++ name :: after → s.resolve content start before = some id →
    (s.disk id).type ≠ 0

theorem Allocated.next {start next : Nat × Nat} {name : List UInt8} {names : List (List UInt8)}
    (allocated : s.Allocated content start (name :: names))
    (entry : s.lookup content start name = some next) : s.Allocated content next names := by
  intro before last after id parts resolved
  refine allocated (name :: before) last after id (by rw [parts]; rfl) ?_
  unfold resolve
  rw [List.foldlM_cons, entry]
  exact resolved

theorem Allocated.nil {start : Nat × Nat} : s.Allocated content start [] :=
  fun before name after id parts => by simp at parts

theorem resolve_cons {start : Nat × Nat} (name : List UInt8) (names : List (List UInt8)) :
    s.resolve content start (name :: names) =
      (s.lookup content start name).bind fun next => s.resolve content next names := List.foldlM_cons

theorem Allocated.cons {start : Nat × Nat} {name : List UInt8} {names : List (List UInt8)}
    (live : (s.disk start).type ≠ 0)
    (rest : ∀ next, s.lookup content start name = some next → s.Allocated content next names) :
    s.Allocated content start (name :: names) := by
  intro before last after id parts resolved
  cases before with
  | nil =>
      obtain rfl : start = id := Option.some.inj resolved
      exact live
  | cons first before =>
      rw [List.cons_append, List.cons.injEq] at parts
      obtain ⟨rfl, parts⟩ := parts
      rw [resolve_cons] at resolved
      obtain ⟨next, entry, resolved⟩ := Option.bind_eq_some_iff.mp resolved
      exact rest next entry before last after id parts resolved

theorem parent_cons {start : Nat × Nat} (name : List UInt8) {names : List (List UInt8)}
    (more : names ≠ []) : s.parent content start (name :: names) =
      (s.lookup content start name).bind fun next => s.parent content next names := by
  unfold parent
  rw [if_neg (List.cons_ne_nil _ _), List.dropLast_cons_of_ne_nil more]
  unfold resolve
  rw [List.foldlM_cons]
  cases s.lookup content start name with
  | none => rfl
  | some next => simp [if_neg more]

theorem parent_single {start : Nat × Nat} (name : List UInt8) : s.parent content start [name] =
    if (s.disk start).type = T_DIR then some start else none := by
  unfold parent
  rw [if_neg (List.cons_ne_nil _ _)]
  show (some start).filter _ = _
  rw [Option.filter_some]
  simp only [decide_eq_true_eq]

/-- The names of a path. -/
def names (path : List UInt8) : List (List UInt8) := (Path.components path).map (·.take DIRSIZ)

/-- There are entries for what the names lead through, and no inode on the way is free. -/
def Walks (content : Dinode → Content) (s : Cache) (nameiparent : Bool) : Nat × Nat → List (List UInt8) → Prop
  | _, [] => True
  | id, name :: names => (s.disk id).type ≠ 0 ∧ (nameiparent = true ∧ names = [] ∨
      ∀ next, s.lookup content id name = some next → s.Beside id next ∧ s.Walks content nameiparent next names)

/-- What `namex` promises about its result and the name that it leaves. -/
structure Result (content : Dinode → Content) (s t : Cache) (p : Fin NPROC) (nameiparent : Bool)
    (start : Nat × Nat) (names : List (List UInt8)) (result : Option (Fin NINODE)) (name : List UInt8) :
    Prop where
  /-- The only reference that remains taken is that of the result. -/
  taken : Taken s t p (one result) none
  id : result.map (fun k => (t.entry k).id) =
    if nameiparent then s.parent content start names else s.resolve content start names
  /-- The last name is in the buffer. -/
  last : nameiparent = true → result ≠ none → names.getLast? = some (CString.ofList name).name

theorem namexLoop_stop {nameiparent : Bool} {path name : List UInt8}
    (stop : Path.skipelem path name = none) : t.namexLoop content p nameiparent k path name =
      if nameiparent then (t.iput p k).map fun t => (none, name, t) else .ok (some k, name, t) := by
  rw [namexLoop]
  split
  · cases nameiparent
    · rfl
    · cases put : t.iput p k <;> rfl
  · next more =>
    rw [stop] at more
    cases more

theorem namexLoop_next {nameiparent : Bool} {path name rest name' : List UInt8}
    (next : Path.skipelem path name = some (rest, name')) :
    t.namexLoop content p nameiparent k path name =
      (t.enter content p k (nameiparent ∧ rest.headD 0 = 0) name').bind fun r =>
        r.1.elim (fun result => .ok (result, name', r.2))
          fun ip => r.2.namexLoop content p nameiparent ip rest name' := by
  rw [namexLoop]
  split
  · next none =>
    rw [next] at none
    cases none
  · next more =>
    rw [next] at more
    cases more
    cases t.enter content p k (nameiparent ∧ rest.headD 0 = 0) name' with
    | error fault => rfl
    | ok r => obtain ⟨result | ip, t'⟩ := r <;> rfl

/-- A buffer and its name stand for the same. -/
theorem lookup_setName {name elem : List UInt8} (nonzero : ∀ c ∈ elem, c ≠ 0) :
    s.lookup content id (Path.setName name elem) = s.lookup content id (elem.take DIRSIZ) := by
  have same : (CString.ofList (Path.setName name elem)).name = (CString.ofList (elem.take DIRSIZ)).name := by
    rw [Path.name_setName name nonzero]
    unfold CString.name
    rw [Path.upTo_ofList, List.drop_zero, List.take_take, min_self, List.takeWhile_eq_self_iff.mpr]
    exact fun c within => by simpa using nonzero c (List.mem_of_mem_take within)
  unfold lookup
  rw [Content.dirlookup_congr _ same]

/-- The loop of `namex`. -/
theorem Taken.namexLoop (quiet : s.Quiet) (tree : s.Tree content) (nameiparent : Bool)
    (path name : List UInt8) (taken : Taken s t p (one (some k)) none) (linked : s.Linked (t.entry k).id) :
    (t.namexLoop content p nameiparent k path name = .error (.panic "iget: no inodes") ∧
        ¬ s.Walks content nameiparent (t.entry k).id (names path) ∧ ∃ i, ∀ j, j ≠ i → 0 < (s.entry j).ref) ∨
      (t.namexLoop content p nameiparent k path name = .error (.panic "ilock: no type") ∧
        ¬ s.Walks content nameiparent (t.entry k).id (names path) ∧
        ¬ s.Allocated content (t.entry k).id (names path)) ∨
      ∃ result name' t', t.namexLoop content p nameiparent k path name = .ok (result, name', t') ∧
        s.Walks content nameiparent (t.entry k).id (names path) ∧
        Result content s t' p nameiparent (t.entry k).id (names path) result name' := by
  induction length : path.length using Nat.strong_induction_on generalizing path name t k with
  | _ n ih =>
  subst length
  rcases Path.skipelem_cases path name with
    ⟨stop, none⟩ | ⟨rest, elem, next, first, shorter, nonzero, last⟩
  · refine .inr (.inr ?_)
    have noNames : names path = [] := by simp [names, none]
    rw [namexLoop_stop stop, noNames]
    cases nameiparent with
    | true =>
        obtain ⟨put, after⟩ := taken.iput quiet (by simp [one]) linked
        rw [plus_one_self] at after
        exact ⟨Option.none, name, _, by rw [put]; rfl, trivial, after, by simp [parent], fun _ => absurd rfl⟩
    | false => exact ⟨some k, name, t, rfl, trivial, taken, by simp [resolve], nofun⟩
  · have more : names path = elem.take DIRSIZ :: names rest := by simp [names, first]
    have lastName : (CString.ofList (Path.setName name elem)).name = elem.take DIRSIZ :=
      Path.name_setName name nonzero
    have noRest : rest.headD 0 = 0 ↔ names rest = [] := by
      rw [last]
      simp [names]
    rw [namexLoop_next next, more]
    have going : decide (nameiparent = true ∧ rest.headD 0 = 0) = false → nameiparent = true →
        names rest ≠ [] := by
      intro on parents none
      rw [parents, noRest.mpr none] at on
      cases on
    rcases taken.enter quiet tree (nameiparent ∧ rest.headD 0 = 0) (Path.setName name elem) linked with
      ⟨fails, on, ⟨next, entry, noRoom⟩, full⟩ | ⟨fails, free⟩ | ⟨t', goes, after, typed, missing⟩ |
      ⟨t', goes, stops, after, same, isDir⟩ | ⟨ip, t', goes, on, after, beside, entry⟩
    · rw [lookup_setName nonzero] at entry
      refine .inl ⟨by rw [fails]; rfl, ?_, k, full⟩
      rintro ⟨-, ⟨parents, none⟩ | goes⟩
      · exact going on parents none
      · exact noRoom (goes next entry).1
    · exact .inr (.inl ⟨by rw [fails]; rfl, fun walks => walks.1 free,
        fun allocated => allocated [] _ _ _ rfl rfl free⟩)
    · refine .inr (.inr ⟨none, _, t', by rw [goes]; rfl, ⟨typed, ?_⟩, after, ?_, fun _ => absurd rfl⟩)
      · by_cases stop : nameiparent = true ∧ rest.headD 0 = 0
        · exact .inl ⟨stop.1, noRest.mp stop.2⟩
        · rw [if_neg (by simpa using stop), lookup_setName nonzero] at missing
          exact .inr fun next entry => by simp [missing] at entry
      by_cases stop : nameiparent = true ∧ rest.headD 0 = 0
      · rw [if_pos (by simpa using stop)] at missing
        rw [if_pos stop.1, noRest.mp stop.2, parent_single, if_neg missing]
        rfl
      · rw [if_neg (by simpa using stop), lookup_setName nonzero] at missing
        rw [resolve_cons, missing]
        split
        · next parents => rw [parent_cons _ fun none => stop ⟨parents, noRest.mpr none⟩, missing]; rfl
        · rfl
    · obtain ⟨parents, stop⟩ : nameiparent = true ∧ rest.headD 0 = 0 := by simpa using stops
      refine .inr (.inr ⟨some k, _, t', by rw [goes]; rfl,
        ⟨by rw [isDir]; decide, .inl ⟨parents, noRest.mp stop⟩⟩, after, ?_, fun _ _ => ?_⟩)
      · rw [if_pos parents, noRest.mp stop, parent_single, if_pos isDir, ← same]
        rfl
      · rw [noRest.mp stop, lastName]
        rfl
    · rw [lookup_setName nonzero] at entry
      have going := going on
      rcases ih rest.length shorter rest (Path.setName name elem) after (tree.linked _ _ _ entry) rfl with
        ⟨fails, stuck, full⟩ | ⟨fails, stuck, free⟩ | ⟨result, name', t'', goes', walks, found⟩
      · refine .inl ⟨by rw [goes]; exact fails, ?_, full⟩
        rintro ⟨-, ⟨parents, none⟩ | walks⟩
        · exact going parents none
        · exact stuck (walks _ entry).2
      · refine .inr (.inl ⟨by rw [goes]; exact fails, ?_, fun allocated => free (allocated.next entry)⟩)
        rintro ⟨-, ⟨parents, none⟩ | walks⟩
        · exact going parents none
        · exact stuck (walks _ entry).2
      · refine .inr (.inr ⟨result, name', t'', by rw [goes]; exact goes', ⟨?_, .inr ?_⟩, found.taken, ?_, ?_⟩)
        · rintro free
          unfold lookup at entry
          rw [if_neg (by rw [free]; decide)] at entry
          cases entry
        · rintro next' entry'
          obtain rfl := Option.some.inj (entry.symm.trans entry')
          exact ⟨beside, walks⟩
        · rw [found.id, resolve_cons, entry]
          split
          · next parents =>
            rw [parent_cons _ (going parents), entry]
            rfl
          · rfl
        · intro parents some
          rw [List.getLast?_cons_of_ne_nil (going parents)]
          exact found.last parents some

theorem Linked.of_used {j : Fin NINODE} (used : 0 < (s.entry j).ref) : s.Linked (s.entry j).id :=
  .inr (.inr ⟨j, used, rfl⟩)

/-- Where a path begins. -/
def start (s : Cache) (cwd : Fin NINODE) (path : List UInt8) : Nat × Nat :=
  if path.headD 0 = 47 then InodeCache.root else (s.entry cwd).id

/-- There are entries for what the path leads through, and no inode on the way is free. -/
def Passes (content : Dinode → Content) (s : Cache) (nameiparent : Bool) (cwd : Fin NINODE)
    (path : List UInt8) : Prop :=
  (path.headD 0 = 47 → s.Room InodeCache.root) ∧ s.Walks content nameiparent (s.start cwd path) (names path)

/-- `namex` panics if no more than one entry of the cache is free and it needs another, or if the path leads
through an inode that is free. -/
theorem namex_cases (content : Dinode → Content) (quiet : s.Quiet) (tree : s.Tree content) (p : Fin NPROC)
    {cwd : Fin NINODE} (used : 0 < (s.entry cwd).ref) (path name : List UInt8) (nameiparent : Bool) :
    (s.namex content p cwd path nameiparent name = .error (.panic "iget: no inodes") ∧
        ¬ s.Passes content nameiparent cwd path ∧ ∃ i, ∀ j, j ≠ i → 0 < (s.entry j).ref) ∨
      (s.namex content p cwd path nameiparent name = .error (.panic "ilock: no type") ∧
        ¬ s.Passes content nameiparent cwd path ∧ ¬ s.Allocated content (s.start cwd path) (names path)) ∨
      ∃ result name' t, s.namex content p cwd path nameiparent name = .ok (result, name', t) ∧
        s.Passes content nameiparent cwd path ∧
        Result content s t p nameiparent (s.start cwd path) (names path) result name' := by
  have taken := quiet.taken p
  have first : ∀ k, plus 0 k 1 = one (some k) := by
    intro k
    funext j
    by_cases this : j = k
    · subst this
      simp [plus, one]
    · simp [plus, one, this, Ne.symm this]
  unfold namex Passes start
  split
  · next slash =>
    rcases taken.iget quiet root with ⟨fails, noRoom, full⟩ | ⟨k, t, got, room, now, id, -⟩
    · exact .inl ⟨by rw [fails]; rfl, fun passes => noRoom (passes.1 slash), cwd, fun j _ => full j rfl⟩
    · rw [first] at now
      have rest := now.namexLoop quiet tree nameiparent path name (by rw [id]; exact tree.root)
      rw [id] at rest
      rw [got]
      simpa only [slash, room, true_imp_iff, true_and, bind, Except.bind] using rest
  · next relative =>
    have now : Taken s (s.idup cwd) p (plus 0 cwd 1) none := taken.count (by simp) fun _ => used
    rw [first] at now
    have id : ((s.idup cwd).entry cwd).id = (s.entry cwd).id := idup_id
    have rest := now.namexLoop quiet tree nameiparent path name (by rw [id]; exact .of_used used)
    rw [id] at rest
    simpa only [relative, false_imp_iff, true_and, bind, Except.bind] using rest

/-- What `namei` and `nameiparent` promise: the inode that the names of the path stand for, or the
directory of all names but the last, and that name. They return if two entries of the cache are free and the
path leads through no free inode; otherwise they can panic. -/
structure Resolves (content : Dinode → Content) (s : Cache) (p : Fin NPROC) (cwd : Fin NINODE)
    (path name : List UInt8) : Prop where
  namei : ∀ result t, s.namei content p cwd path name = .ok (result, t) →
    result.map (fun k => (t.entry k).id) = s.resolve content (s.start cwd path) (names path) ∧
      Taken s t p (one result) none
  nameiparent : ∀ result name' t, s.nameiparent content p cwd path name = .ok (result, name', t) →
    result.map (fun k => (t.entry k).id) = s.parent content (s.start cwd path) (names path) ∧
      Taken s t p (one result) none ∧
      (result ≠ none → (names path).getLast? = some (CString.ofList name').name)
  returns : s.Spare → s.Allocated content (s.start cwd path) (names path) →
    (∃ r, s.namei content p cwd path name = .ok r) ∧ ∃ r, s.nameiparent content p cwd path name = .ok r
  panics : ∀ fault, s.namei content p cwd path name = .error fault ∨
    s.nameiparent content p cwd path name = .error fault →
      fault = .panic "iget: no inodes" ∨ fault = .panic "ilock: no type"

theorem Spare.not_full (spare : s.Spare) : ¬ ∃ i, ∀ j, j ≠ i → 0 < (s.entry j).ref := by
  rintro ⟨i, full⟩
  obtain ⟨j, k, apart, freeJ, freeK⟩ := spare
  by_cases this : j = i
  · have used := full k (this ▸ apart.symm)
    omega
  · have used := full j this
    omega

/-- When `namei` returns. -/
theorem namei_returns (content : Dinode → Content) (quiet : s.Quiet) (tree : s.Tree content) (p : Fin NPROC)
    {cwd : Fin NINODE} (used : 0 < (s.entry cwd).ref) (path name : List UInt8) :
    (∃ r, s.namei content p cwd path name = .ok r) ↔ s.Passes content false cwd path := by
  unfold Cache.namei
  rcases namex_cases content quiet tree p used path name false with
    ⟨fails, stuck, -⟩ | ⟨fails, stuck, -⟩ | ⟨result, name', t, goes, passes, -⟩
  · rw [fails]
    exact iff_of_false (by rintro ⟨r, run⟩; cases run) stuck
  · rw [fails]
    exact iff_of_false (by rintro ⟨r, run⟩; cases run) stuck
  · rw [goes]
    exact iff_of_true ⟨_, rfl⟩ passes

/-- Paths are resolved in every tree of directories. -/
theorem paths_resolve (content : Dinode → Content) (s : Cache) (quiet : s.Quiet) (tree : s.Tree content)
    (p : Fin NPROC) (cwd : Fin NINODE) (used : 0 < (s.entry cwd).ref) (path name : List UInt8) :
    s.Resolves content p cwd path name := by
  have cases := namex_cases content quiet tree p used path name
  refine ⟨fun result t run => ?_, fun result name' t run => ?_, fun spare allocated => ?_, ?_⟩
  · unfold Cache.namei at run
    rcases cases false with ⟨fails, -⟩ | ⟨fails, -⟩ | ⟨result', name', t', goes, -, found⟩
    · simp [fails, Except.map] at run
    · simp [fails, Except.map] at run
    · rw [goes] at run
      cases run
      exact ⟨found.id, found.taken⟩
  · unfold Cache.nameiparent at run
    rcases cases true with ⟨fails, -⟩ | ⟨fails, -⟩ | ⟨result', name'', t', goes, -, found⟩
    · simp [fails] at run
    · simp [fails] at run
    · rw [goes] at run
      cases run
      exact ⟨found.id, found.taken, found.last rfl⟩
  · have returns : ∀ nameiparent, ∃ r, s.namex content p cwd path nameiparent name = .ok r := by
      intro nameiparent
      rcases cases nameiparent with ⟨-, -, full⟩ | ⟨-, -, free⟩ | ⟨result, name', t, goes, -⟩
      · exact absurd full spare.not_full
      · exact absurd allocated free
      · exact ⟨_, goes⟩
    obtain ⟨r, run⟩ := returns false
    refine ⟨⟨(r.1, r.2.2), ?_⟩, returns true⟩
    unfold Cache.namei
    rw [run]
    rfl
  · rintro fault (fails | fails)
    · unfold Cache.namei at fails
      rcases cases false with ⟨run, -⟩ | ⟨run, -⟩ | ⟨result, name', t, run, -⟩
      · rw [run] at fails
        cases fails
        exact .inl rfl
      · rw [run] at fails
        cases fails
        exact .inr rfl
      · rw [run] at fails
        cases fails
    · unfold Cache.nameiparent at fails
      rcases cases true with ⟨run, -⟩ | ⟨run, -⟩ | ⟨result, name', t, run, -⟩
      · rw [run] at fails
        cases fails
        exact .inl rfl
      · rw [run] at fails
        cases fails
        exact .inr rfl
      · rw [run] at fails
        cases fails

/-- A directory with one entry, for a name of one letter. -/
def oneEntry (inum letter : UInt8) : Content :=
  ⟨DIRENT, fun _ k => match k.val with | 0 => inum | 2 => letter | _ => 0⟩

/-- The directory that is in a block: the root has an entry `a`, and `a` an entry `b`. -/
def contentAB (d : Dinode) : Content := if d.addrs 0 = 1 then oneEntry 2 97 else oneEntry 3 98

/-- A cache in which a process has the root as its directory. In it is the directory `a`, and in `a` the file
`b`. -/
def cacheAB : Cache where
  entry k := if k = 0 then { id := root, ref := 1 } else {}
  disk id :=
    if id = root then ⟨T_DIR, 0, 0, 1, DIRENT, fun _ => 1⟩
    else if id = (0, 2) then ⟨T_DIR, 0, 0, 1, DIRENT, fun _ => 2⟩
    else if id = (0, 3) then ⟨2, 0, 0, 1, 0, fun _ => 0⟩
    else ⟨0, 0, 0, 0, 0, fun _ => 0⟩

theorem oneEntry_directory (inum letter : UInt8) : (oneEntry inum letter).Directory := by
  have small : DIRENT ≤ MAXFILE * BSIZE := by decide
  refine ⟨small, Nat.mod_self DIRENT, fun i j name entry entry' => ?_⟩
  have first : DIRENT * i + DIRENT ≤ DIRENT := entry.inside
  have second : DIRENT * j + DIRENT ≤ DIRENT := entry'.inside
  simp only [DIRENT] at first second
  omega

/-- The letter is found there. -/
theorem oneEntry_lookup {inum letter : UInt8}
    (entry : (oneEntry inum letter).Entry 0 (CString.name (.ofList [letter]))) :
    (oneEntry inum letter).dirlookup (.ofList [letter]) = .ok (some ((oneEntry inum letter).inumAt 0, 0)) := by
  have directory := oneEntry_directory inum letter
  obtain ⟨found, run, hit, miss⟩ := Content.dirlookup_spec directory (.ofList [letter])
  cases found with
  | none => exact absurd entry (miss rfl 0)
  | some found =>
      obtain ⟨inum, off⟩ := found
      obtain ⟨j, entry', rfl, rfl⟩ := hit inum off rfl
      obtain rfl := directory.unique j 0 _ entry' entry
      exact run

theorem cacheAB_quiet : cacheAB.Quiet := by
  have used : ∀ k, 0 < (cacheAB.entry k).ref → k = 0 := by
    intro k positive
    by_contra other
    simp [cacheAB, other] at positive
  refine ⟨fun i j usedI usedJ _ => (used i usedI).trans (used j usedJ).symm, fun k usedK valid => ?_,
    fun k => ?_, fun k => ?_⟩
  · rw [used k usedK] at valid
    cases valid
  · unfold cacheAB
    dsimp only
    split <;> rfl
  · unfold cacheAB
    dsimp only
    split <;> decide

theorem cacheAB_tree : cacheAB.Tree contentAB := by
  have linked : ∀ id, cacheAB.Linked id := by
    intro id
    unfold Linked cacheAB
    dsimp only
    split
    · exact .inr (.inl (by decide))
    split
    · exact .inr (.inl (by decide))
    split
    · exact .inr (.inl (by decide))
    · exact .inl rfl
  refine ⟨fun id _ => ?_, linked root, fun _ _ _ _ => linked _⟩
  unfold contentAB
  split
  · exact oneEntry_directory 2 97
  · exact oneEntry_directory 3 98

/-- The entries that the path leads through. -/
theorem cacheAB_lookup : cacheAB.lookup contentAB root [97] = some (0, 2) ∧
    cacheAB.lookup contentAB (0, 2) [98] = some (0, 3) := by
  have first : (oneEntry 2 97).dirlookup (.ofList [97]) = .ok (some (2, 0)) :=
    oneEntry_lookup ⟨by decide, by decide, by decide⟩
  have second : (oneEntry 3 98).dirlookup (.ofList [98]) = .ok (some (3, 0)) :=
    oneEntry_lookup ⟨by decide, by decide, by decide⟩
  constructor
  · show (match (oneEntry 2 97).dirlookup (.ofList [97]) with
      | .ok (some (inum, _)) => some (0, inum)
      | _ => none) = _
    rw [first]
  · show (match (oneEntry 3 98).dirlookup (.ofList [98]) with
      | .ok (some (inum, _)) => some (0, inum)
      | _ => none) = _
    rw [second]

/-- There `namei("//a/b")` is the file and `nameiparent("//a/b")` the directory `a`, with the name `b`. Nothing
but the reference to the result remains. -/
theorem namei_ab : (∃ k t, cacheAB.namei contentAB 0 0 [47, 47, 97, 47, 98] [] = .ok (some k, t) ∧
      (t.entry k).id = (0, 3) ∧ Taken cacheAB t 0 (one (some k)) none) ∧
    ∃ k name t, cacheAB.nameiparent contentAB 0 0 [47, 47, 97, 47, 98] [] = .ok (some k, name, t) ∧
      (t.entry k).id = (0, 2) ∧ (CString.ofList name).name = [98] ∧ Taken cacheAB t 0 (one (some k)) none := by
  obtain ⟨toA, toB⟩ := cacheAB_lookup
  have resolves := paths_resolve contentAB cacheAB cacheAB_quiet cacheAB_tree 0 0 (by decide)
    [47, 47, 97, 47, 98] []
  have isRoot : cacheAB.start 0 [47, 47, 97, 47, 98] = root := rfl
  have two : names [47, 47, 97, 47, 98] = [[97], [98]] := by decide
  have file : cacheAB.resolve contentAB root [[97], [98]] = some (0, 3) := by
    rw [resolve_cons, toA, Option.bind_some, resolve_cons, toB]
    rfl
  have directory : cacheAB.parent contentAB root [[97], [98]] = some (0, 2) := by
    rw [parent_cons _ (by decide), toA, Option.bind_some, parent_single]
    rfl
  have allocated : cacheAB.Allocated contentAB root [[97], [98]] := by
    refine .cons (by decide) fun next entry => .cons ?_ fun _ _ => .nil
    rw [toA] at entry
    obtain rfl := Option.some.inj entry
    decide
  rw [← isRoot, ← two] at file directory allocated
  obtain ⟨⟨⟨result, t⟩, run⟩, ⟨result', name', t'⟩, run'⟩ :=
    resolves.returns ⟨1, 2, by decide, rfl, rfl⟩ allocated
  obtain ⟨found, taken⟩ := resolves.namei result t run
  obtain ⟨found', taken', last⟩ := resolves.nameiparent result' name' t' run'
  rw [file] at found
  rw [directory] at found'
  obtain ⟨k, rfl, id⟩ := Option.map_eq_some_iff.mp found
  obtain ⟨k', rfl, id'⟩ := Option.map_eq_some_iff.mp found'
  have name := last (by simp)
  rw [two] at name
  exact ⟨⟨k, t, run, id, taken⟩, k', name', t', run', id', (Option.some.inj name).symm, taken'⟩

end Cache

end InodeCache

end Riscv2os.Xv7
