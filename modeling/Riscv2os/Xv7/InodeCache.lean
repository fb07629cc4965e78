import Riscv2os.Std.Loops
import Riscv2os.Std.TransitionSystem
import Riscv2os.Xv7.Fs
import Riscv2os.Xv7.Mmap

/-!
# The inode cache

The entries of `icache` under `iget`, `idup`, `ilock`, `iunlock` and `iput`, at the grain of the locks: a
step is a section under `icache.lock`, or what `iput` does between two points where another process can
run. The blocks that `itrunc` frees are not part of the state. What the callers do with a locked inode is
that they change its fields and call `iupdate`.
-/

namespace Riscv2os.Xv7.InodeCache

open Riscv2os.Std

/-- An entry of the cache. -/
structure Entry where
  /-- `dev` and `inum`. -/
  id : Nat × Nat := (0, 0)
  ref : Int := 0
  valid : Bool := false
  inode : Dinode := ⟨0, 0, 0, 0, 0, fun _ => 0⟩
  /-- The process that has the sleep lock. -/
  lock : Option (Fin NPROC) := none

/-- The cache, and the inodes on disk. -/
structure Cache where
  entry : Fin NINODE → Entry
  disk : Nat × Nat → Dinode

namespace Cache

/-- Change an entry. -/
def update (s : Cache) (k : Fin NINODE) (change : Entry → Entry) : Cache :=
  { s with entry := Function.update s.entry k (change (s.entry k)) }

/-- The entry of an inode that is in use. -/
def cached (s : Cache) (id : Nat × Nat) : Option (Fin NINODE) :=
  (List.finRange NINODE).find? fun k => (s.entry k).ref > 0 ∧ (s.entry k).id = id

/-- The first entry without references. -/
def empty (s : Cache) : Option (Fin NINODE) :=
  (List.finRange NINODE).find? fun k => (s.entry k).ref = 0

/-- Find the inode with this number on this device. The loop of the C function looks for the inode and
for an empty entry at once. -/
def iget (s : Cache) (id : Nat × Nat) : Except Fault (Fin NINODE × Cache) :=
  match s.cached id with
  | some k => .ok (k, s.update k fun ip => { ip with ref := ip.ref + 1 })
  | none =>
      match s.empty with
      | some k => .ok (k, s.update k fun ip => { ip with id := id, ref := 1, valid := false })
      | none => .error (.panic "iget: no inodes")

/-- Increment the reference count. -/
def idup (s : Cache) (k : Fin NINODE) : Cache := s.update k fun ip => { ip with ref := ip.ref + 1 }

/-- Give or take back the sleep lock. -/
def setLock (s : Cache) (k : Fin NINODE) (holder : Option (Fin NPROC)) : Cache :=
  s.update k fun ip => { ip with lock := holder }

/-- Change the fields of an inode in memory. -/
def setInode (s : Cache) (k : Fin NINODE) (change : Dinode → Dinode) : Cache :=
  s.update k fun ip => { ip with inode := change ip.inode }

/-- `ilock` behind `acquiresleep`: read the inode from disk if necessary. -/
def load (s : Cache) (k : Fin NINODE) : Except Fault Cache :=
  if (s.entry k).valid then .ok s
  else if (s.disk (s.entry k).id).type = 0 then .error (.panic "ilock: no type")
  else .ok (s.update k fun ip => { ip with inode := s.disk ip.id, valid := true })

/-- Copy a modified in-memory inode to disk. -/
def iupdate (s : Cache) (k : Fin NINODE) : Cache :=
  { s with disk := Function.update s.disk (s.entry k).id (s.entry k).inode }

/-- Whether `iput` frees the inode. -/
def lastPut (s : Cache) (k : Fin NINODE) : Bool :=
  (s.entry k).ref = 1 ∧ (s.entry k).valid = true ∧ (s.entry k).inode.nlink = 0

/-- `ip->ref--`. -/
def drop (s : Cache) (k : Fin NINODE) : Cache := s.update k fun ip => { ip with ref := ip.ref - 1 }

/-- `ip->valid = 0`. -/
def invalidate (s : Cache) (k : Fin NINODE) : Cache := s.update k fun ip => { ip with valid := false }

variable (s : Cache) (k : Fin NINODE) (change : Entry → Entry)

@[simp] theorem update_self : (s.update k change).entry k = change (s.entry k) := Function.update_self ..

theorem update_ne {j : Fin NINODE} (other : j ≠ k) : (s.update k change).entry j = s.entry j :=
  Function.update_of_ne other ..

@[simp] theorem update_disk : (s.update k change).disk = s.disk := rfl

theorem setLock_ne (holder : Option (Fin NPROC)) {j : Fin NINODE} (other : j ≠ k) :
    (s.setLock k holder).entry j = s.entry j := s.update_ne k _ other

theorem setInode_ne (change : Dinode → Dinode) {j : Fin NINODE} (other : j ≠ k) :
    (s.setInode k change).entry j = s.entry j := s.update_ne k _ other

end Cache

/-- Where a process is in the calls on the cache. -/
inductive Call where
  /-- Outside the functions of the cache. It can have locks of entries. -/
  | idle
  /-- `acquiresleep` in `ilock`. -/
  | ilock (k : Fin NINODE)
  /-- `ilock` with the lock. -/
  | load (k : Fin NINODE)
  /-- `itrunc` in `iput`, at entry `i` of `addrs`. -/
  | trunc (k : Fin NINODE) (i : Nat)
  /-- `ip->type = 0`. -/
  | clear (k : Fin NINODE)
  /-- `iupdate` in `iput`. -/
  | update (k : Fin NINODE)
  /-- `ip->valid = 0`. -/
  | invalidate (k : Fin NINODE)
  /-- `releasesleep` in `iput`. -/
  | release (k : Fin NINODE)
  /-- `ip->ref--`, after the inode has been freed. -/
  | drop (k : Fin NINODE)
deriving DecidableEq

namespace Call

/-- The entry whose reference a call is about to drop. -/
def putting : Call → Option (Fin NINODE)
  | .trunc k _ | .clear k | .update k | .invalidate k | .release k | .drop k => some k
  | _ => none

/-- The entry whose inode a call has yet to free. -/
def freeing : Call → Option (Fin NINODE)
  | .trunc k _ | .clear k | .update k => some k
  | _ => none

/-- The entry whose lock a call has. -/
def locking : Call → Option (Fin NINODE)
  | .load k | .trunc k _ | .clear k | .update k | .invalidate k | .release k => some k
  | _ => none

/-- The entry that a call is about. -/
def entry : Call → Option (Fin NINODE)
  | .idle => none
  | .ilock k | .load k | .trunc k _ | .clear k | .update k | .invalidate k | .release k | .drop k => some k

variable {call : Call} {k : Fin NINODE}

theorem entry_of_putting (putting : call.putting = some k) : call.entry = some k := by
  cases call <;> simp_all [Call.putting, Call.entry]

theorem entry_of_freeing (freeing : call.freeing = some k) : call.entry = some k := by
  cases call <;> simp_all [Call.freeing, Call.entry]

theorem entry_of_locking (locking : call.locking = some k) : call.entry = some k := by
  cases call <;> simp_all [Call.locking, Call.entry]

theorem putting_of_freeing (freeing : call.freeing = some k) :
    call.putting = some k := by
  cases call <;> simp_all [Call.freeing, Call.putting]

theorem locking_of_freeing (freeing : call.freeing = some k) :
    call.locking = some k := by
  cases call <;> simp_all [Call.freeing, Call.locking]

end Call

/-- The cache, the calls in progress, and histories: the references that callers have, whether the fields
in memory have changed since `iupdate`, how often the last reference to a valid inode without links was
put, and how often an inode was truncated with its type cleared. -/
structure System where
  cache : Cache
  call : Fin NPROC → Call
  held : Fin NINODE → Nat
  dirty : Fin NINODE → Bool
  due : Fin NINODE → Nat
  freed : Fin NINODE → Nat

/-- What can happen. -/
inductive Label where
  | iget (p : Fin NPROC) (id : Nat × Nat)
  | idup (p : Fin NPROC) (k : Fin NINODE)
  | ilock (p : Fin NPROC) (k : Fin NINODE)
  | iunlock (p : Fin NPROC) (k : Fin NINODE)
  | iput (p : Fin NPROC) (k : Fin NINODE)
  /-- A caller changes the fields of an inode that it has locked. -/
  | write (p : Fin NPROC) (k : Fin NINODE) (change : Dinode → Dinode)
  | iupdate (p : Fin NPROC) (k : Fin NINODE)
  /-- The call of a process goes on. -/
  | step (p : Fin NPROC)

namespace System

/-- The process goes on elsewhere. -/
def setCall (s : System) (p : Fin NPROC) (call : Call) : System :=
  { s with call := Function.update s.call p call }

/-- Change an entry, and say whether its fields are those of the last `iupdate`. -/
def setDirty (s : System) (k : Fin NINODE) (dirty : Bool) (cache : Cache) : System :=
  { s with cache := cache, dirty := Function.update s.dirty k dirty }

/-- Callers have this many references. -/
def setHeld (s : System) (k : Fin NINODE) (held : Nat) (cache : Cache) : System :=
  { s with cache := cache, held := Function.update s.held k held }

/-- `iput` in the first section under `icache.lock`. It keeps that lock until it has the sleep lock. -/
def iput (s : System) (p : Fin NPROC) (k : Fin NINODE) : Option System :=
  let t := s.setHeld k (s.held k - 1)
  if s.cache.lastPut k then
    if (s.cache.entry k).lock ≠ none then none
    else some { (t (s.cache.setLock k (some p))).setCall p (.trunc k 0) with
      due := Function.update s.due k (s.due k + 1) }
  else some (t (s.cache.drop k))

/-- The next step of the call of a process. -/
def next (s : System) (p : Fin NPROC) : Option System :=
  match s.call p with
  | .idle => none
  | .ilock k =>
      if (s.cache.entry k).lock ≠ none then none
      else some { s.setCall p (.load k) with cache := s.cache.setLock k (some p) }
  | .load k =>
      match s.cache.load k with
      | .ok cache =>
          some ((s.setDirty k (if (s.cache.entry k).valid then s.dirty k else false) cache).setCall p .idle)
      | .error _ => none
  | .trunc k i =>
      if i ≤ NDIRECT then
        some ((s.setDirty k true (s.cache.setInode k fun ip => ip.setAddr i 0)).setCall p (.trunc k (i + 1)))
      else
        some ((s.setDirty k false ((s.cache.setInode k fun ip => { ip with size := 0 }).iupdate k)).setCall p
          (.clear k))
  | .clear k =>
      some ((s.setDirty k true (s.cache.setInode k fun ip => { ip with type := 0 })).setCall p (.update k))
  | .update k =>
      some { (s.setDirty k false (s.cache.iupdate k)).setCall p (.invalidate k) with
        freed := Function.update s.freed k (s.freed k + 1) }
  | .invalidate k => some { s.setCall p (.release k) with cache := s.cache.invalidate k }
  | .release k => some { s.setCall p (.drop k) with cache := s.cache.setLock k none }
  | .drop k => some { s.setCall p .idle with cache := s.cache.drop k }

/-- One step. A process uses an entry only while a caller has a reference to it. -/
def step (s : System) : Label → Option System
  | .iget p id =>
      if s.call p = .idle then
        match s.cache.iget id with
        | .ok (k, cache) => some (s.setHeld k (s.held k + 1) cache)
        | .error _ => none
      else none
  | .idup p k =>
      if s.call p = .idle ∧ 0 < s.held k then some (s.setHeld k (s.held k + 1) (s.cache.idup k)) else none
  | .ilock p k =>
      if s.call p = .idle ∧ 0 < s.held k ∧ ¬ (s.cache.entry k).ref < 1 then some (s.setCall p (.ilock k))
      else none
  | .iunlock p k =>
      if s.call p = .idle ∧ 0 < s.held k ∧ (s.cache.entry k).lock = some p ∧
          ¬ (s.cache.entry k).ref < 1 then
        some { s with cache := s.cache.setLock k none }
      else none
  | .iput p k => if s.call p = .idle ∧ 0 < s.held k then s.iput p k else none
  | .write p k change =>
      if s.call p = .idle ∧ 0 < s.held k ∧ (s.cache.entry k).lock = some p then
        some (s.setDirty k true (s.cache.setInode k change)) else none
  | .iupdate p k =>
      if s.call p = .idle ∧ 0 < s.held k ∧ (s.cache.entry k).lock = some p then
        some (s.setDirty k false (s.cache.iupdate k)) else none
  | .step p => s.next p

/-- The cache after `iinit`, with any disk. -/
structure Initial (s : System) : Prop where
  entry : ∀ k, s.cache.entry k = {}
  call : ∀ p, s.call p = .idle
  held : ∀ k, s.held k = 0
  due : ∀ k, s.due k = 0
  freed : ∀ k, s.freed k = 0

/-- The cache as it runs. -/
def system : TransitionSystem System Label where
  Initial := Initial
  Step s label s' := s.step label = some s'

/-- What is true of one entry. -/
structure Fits (s : System) (k : Fin NINODE) : Prop where
  counted : (s.cache.entry k).ref = s.held k + ∑ p, if (s.call p).putting = some k then 1 else 0
  agrees : 0 < (s.cache.entry k).ref → (s.cache.entry k).valid = true → s.dirty k = false →
    (s.cache.entry k).inode = s.cache.disk (s.cache.entry k).id
  locked : ∀ p, (s.call p).locking = some k → (s.cache.entry k).lock = some p
  unlinked : ∀ p, (s.call p).freeing = some k →
    (s.cache.entry k).valid = true ∧ (s.cache.entry k).inode.nlink = 0
  owed : (s.due k : Int) = s.freed k + ∑ p, if (s.call p).freeing = some k then 1 else 0

/-- What holds between two steps. -/
structure Sound (s : System) : Prop where
  unique : ∀ i j, 0 < (s.cache.entry i).ref → 0 < (s.cache.entry j).ref →
    (s.cache.entry i).id = (s.cache.entry j).id → i = j
  fits : ∀ k, s.Fits k

/-- A step of process `p` on entry `k`. -/
structure Change (s s' : System) (p : Fin NPROC) (k : Fin NINODE) : Prop where
  call : ∀ q, q ≠ p → s'.call q = s.call q
  entry : ∀ j, j ≠ k → s'.cache.entry j = s.cache.entry j
  history : ∀ j, j ≠ k → s'.held j = s.held j ∧ s'.dirty j = s.dirty j ∧ s'.due j = s.due j ∧
    s'.freed j = s.freed j
  disk : ∀ j, j ≠ k → 0 < (s.cache.entry j).ref →
    s'.cache.disk (s.cache.entry j).id = s.cache.disk (s.cache.entry j).id
  before : ∀ j, j ≠ k → (s.call p).entry ≠ some j
  after : ∀ j, j ≠ k → (s'.call p).entry ≠ some j

variable {s s' : System} {p q : Fin NPROC} {k : Fin NINODE}

/-- How many calls are about to drop a reference, or to free an inode, changes by what `p` does. -/
theorem Change.sum (change : Change s s' p k) (weight : Call → Int) :
    ∑ q, weight (s'.call q) = ∑ q, weight (s.call q) + (weight (s'.call p) - weight (s.call p)) := by
  have calls : s'.call = Function.update s.call p (s'.call p) := by
    funext q
    by_cases same : q = p
    · subst same
      rw [Function.update_self]
    · rw [Function.update_of_ne same, change.call q same]
  rw [calls, sum_update, Function.update_self]

/-- A reference that a call is about to drop is counted. -/
theorem Fits.ref_pos (fits : s.Fits k) (putting : (s.call p).putting = some k) :
    0 < (s.cache.entry k).ref := by
  have counted := fits.counted
  have one : (1 : Int) ≤ ∑ q, if (s.call q).putting = some k then 1 else 0 := by
    have single := Finset.single_le_sum (f := fun q => if (s.call q).putting = some k then (1 : Int) else 0)
      (fun _ _ => by split <;> decide) (Finset.mem_univ p)
    simpa [putting] using single
  omega

theorem Fits.held_le (fits : s.Fits k) : (s.held k : Int) ≤ (s.cache.entry k).ref := by
  have counted := fits.counted
  have positive : (0 : Int) ≤ ∑ q, if (s.call q).putting = some k then 1 else 0 :=
    Finset.sum_nonneg fun _ _ => by split <;> decide
  omega

/-- The other entries are as before. -/
theorem Change.others {j : Fin NINODE} (change : Change s s' p k) (other : j ≠ k) (fits : s.Fits j) :
    s'.Fits j := by
  obtain ⟨held, dirty, due, freed⟩ := change.history j other
  have entry := change.entry j other
  have idle : ∀ select : Call → Option (Fin NINODE),
      (∀ call, select call = some j → call.entry = some j) →
      (s.call p).entry ≠ some j → (s'.call p).entry ≠ some j →
      ∑ q, (if select (s'.call q) = some j then (1 : Int) else 0) =
        ∑ q, if select (s.call q) = some j then 1 else 0 := by
    intro select about before after
    rw [change.sum fun call => if select call = some j then 1 else 0,
      if_neg (fun chosen => before (about _ chosen)), if_neg (fun chosen => after (about _ chosen))]
    ring
  have same : ∀ q, (s'.call q).entry = some j → s'.call q = s.call q := by
    intro q about
    refine change.call q ?_
    rintro rfl
    exact change.after j other about
  constructor
  · rw [entry, held, idle _ (fun _ => Call.entry_of_putting) (change.before j other) (change.after j other)]
    exact fits.counted
  · rw [entry, dirty]
    intro used valid clean
    rw [change.disk j other used]
    exact fits.agrees used valid clean
  · intro q locking
    rw [entry]
    exact fits.locked q (same q (Call.entry_of_locking locking) ▸ locking)
  · intro q freeing
    rw [entry]
    exact fits.unlinked q (same q (Call.entry_of_freeing freeing) ▸ freeing)
  · rw [due, freed, idle _ (fun _ => Call.entry_of_freeing) (change.before j other) (change.after j other)]
    exact fits.owed

/-- What a step has to show about its entry. -/
theorem Change.fits (change : Change s s' p k) (fits : s.Fits k)
    (counted : (s'.cache.entry k).ref - (s.cache.entry k).ref = (s'.held k : Int) - s.held k +
      ((if (s'.call p).putting = some k then 1 else 0) - if (s.call p).putting = some k then 1 else 0))
    (agrees : 0 < (s'.cache.entry k).ref → (s'.cache.entry k).valid = true → s'.dirty k = false →
      (s'.cache.entry k).inode = s'.cache.disk (s'.cache.entry k).id)
    (own : (s'.call p).locking = some k → (s'.cache.entry k).lock = some p)
    (lock : ∀ q, q ≠ p → (s.cache.entry k).lock = some q → (s'.cache.entry k).lock = some q)
    (unlinked : (s'.call p).freeing = some k →
      (s'.cache.entry k).valid = true ∧ (s'.cache.entry k).inode.nlink = 0)
    (kept : ∀ q, q ≠ p → (s.cache.entry k).lock = some q → 0 < (s.cache.entry k).ref →
      (s'.cache.entry k).valid = (s.cache.entry k).valid ∧
        (s'.cache.entry k).inode.nlink = (s.cache.entry k).inode.nlink)
    (owed : (s'.due k : Int) - s.due k = (s'.freed k : Int) - s.freed k +
      ((if (s'.call p).freeing = some k then 1 else 0) - if (s.call p).freeing = some k then 1 else 0)) :
    s'.Fits k := by
  constructor
  · have sum := change.sum fun call => if call.putting = some k then 1 else 0
    have before := fits.counted
    rw [sum]
    omega
  · exact agrees
  · intro q locking
    by_cases same : q = p
    · subst same
      exact own locking
    · rw [change.call q same] at locking
      exact lock q same (fits.locked q locking)
  · intro q freeing
    by_cases same : q = p
    · subst same
      exact unlinked freeing
    · rw [change.call q same] at freeing
      obtain ⟨valid, nlink⟩ := kept q same (fits.locked q (Call.locking_of_freeing freeing))
        (fits.ref_pos (Call.putting_of_freeing freeing))
      rw [valid, nlink]
      exact fits.unlinked q freeing
  · have sum := change.sum fun call => if call.freeing = some k then 1 else 0
    have before := fits.owed
    rw [sum]
    omega

/-- A step keeps the invariant if its entry fits, and stays or becomes the only one of its inode. -/
theorem Sound.change (sound : s.Sound) (change : Change s s' p k) (fits : s'.Fits k)
    (apart : 0 < (s'.cache.entry k).ref →
      (0 < (s.cache.entry k).ref ∧ (s'.cache.entry k).id = (s.cache.entry k).id) ∨
        ∀ j, 0 < (s.cache.entry j).ref → (s.cache.entry j).id ≠ (s'.cache.entry k).id) : s'.Sound := by
  have alone : ∀ j, j ≠ k → 0 < (s'.cache.entry j).ref → 0 < (s'.cache.entry k).ref →
      (s'.cache.entry j).id ≠ (s'.cache.entry k).id := by
    intro j other used usedK same
    rw [change.entry j other] at used same
    rcases apart usedK with ⟨before, id⟩ | none
    · exact other (sound.unique j k used before (same.trans id))
    · exact none j used same
  constructor
  · intro i j usedI usedJ same
    by_cases first : i = k
    · by_cases second : j = k
      · exact first.trans second.symm
      · subst first
        exact absurd same.symm (alone j second usedJ usedI)
    · by_cases second : j = k
      · subst second
        exact absurd same (alone i first usedI usedJ)
      · rw [change.entry i first] at usedI same
        rw [change.entry j second] at usedJ same
        exact sound.unique i j usedI usedJ same
  · intro j
    by_cases same : j = k
    · subst same
      exact fits
    · exact change.others same (sound.fits j)

/-- A step is on one entry. -/
theorem Change.of {call : Call} (calls : s'.call = Function.update s.call p call)
    (before : (s.call p).entry = none ∨ (s.call p).entry = some k)
    (after : call.entry = none ∨ call.entry = some k)
    (entry : ∀ j, j ≠ k → s'.cache.entry j = s.cache.entry j)
    (history : ∀ j, j ≠ k → s'.held j = s.held j ∧ s'.dirty j = s.dirty j ∧ s'.due j = s.due j ∧
      s'.freed j = s.freed j)
    (disk : ∀ j, j ≠ k → 0 < (s.cache.entry j).ref →
      s'.cache.disk (s.cache.entry j).id = s.cache.disk (s.cache.entry j).id) : Change s s' p k where
  call q other := by rw [calls, Function.update_of_ne other]
  entry := entry
  history := history
  disk := disk
  before j other about := by
    rcases before with none | this
    · rw [none] at about
      cases about
    · rw [this] at about
      cases about
      exact other rfl
  after j other about := by
    rw [calls, Function.update_self] at about
    rcases after with none | this
    · rw [none] at about
      cases about
    · rw [this] at about
      cases about
      exact other rfl

/-- A step of a process that is in no call of the cache. -/
theorem Change.idle (idle : s.call p = .idle) (calls : s'.call = s.call)
    (entry : ∀ j, j ≠ k → s'.cache.entry j = s.cache.entry j)
    (history : ∀ j, j ≠ k → s'.held j = s.held j ∧ s'.dirty j = s.dirty j ∧ s'.due j = s.due j ∧
      s'.freed j = s.freed j)
    (disk : ∀ j, j ≠ k → 0 < (s.cache.entry j).ref →
      s'.cache.disk (s.cache.entry j).id = s.cache.disk (s.cache.entry j).id) : Change s s' p k :=
  .of (calls.trans (Function.update_eq_self p s.call).symm) (.inl (by rw [idle]; rfl))
    (.inl (by rw [idle]; rfl)) entry history disk

theorem Change.fits_idle (change : Change s s' p k) (fits : s.Fits k) (idle : s.call p = .idle)
    (calls : s'.call = s.call)
    (counted : (s'.cache.entry k).ref - (s.cache.entry k).ref = (s'.held k : Int) - s.held k)
    (agrees : 0 < (s'.cache.entry k).ref → (s'.cache.entry k).valid = true → s'.dirty k = false →
      (s'.cache.entry k).inode = s'.cache.disk (s'.cache.entry k).id)
    (lock : ∀ q, q ≠ p → (s.cache.entry k).lock = some q → (s'.cache.entry k).lock = some q)
    (kept : ∀ q, q ≠ p → (s.cache.entry k).lock = some q → 0 < (s.cache.entry k).ref →
      (s'.cache.entry k).valid = (s.cache.entry k).valid ∧
        (s'.cache.entry k).inode.nlink = (s.cache.entry k).inode.nlink)
    (history : s'.due k = s.due k ∧ s'.freed k = s.freed k) : s'.Fits k := by
  have now : s'.call p = .idle := by rw [calls, idle]
  refine change.fits fits ?_ agrees ?_ lock ?_ kept ?_
  · rw [now, idle]
    simpa [Call.putting] using counted
  · rw [now]
    exact nofun
  · rw [now]
    exact nofun
  · rw [now, idle, history.1, history.2]
    simp [Call.freeing]

@[simp] theorem setHeld_self (s : System) (k : Fin NINODE) (held : Nat) (cache : Cache) :
    (s.setHeld k held cache).held k = held := Function.update_self ..

@[simp] theorem setHeld_cache (s : System) (k : Fin NINODE) (held : Nat) (cache : Cache) :
    (s.setHeld k held cache).cache = cache := rfl

@[simp] theorem setHeld_dirty (s : System) (k : Fin NINODE) (held : Nat) (cache : Cache) :
    (s.setHeld k held cache).dirty = s.dirty := rfl

/-- A step of a caller that changes its references to an entry. -/
theorem Change.setHeld (held : Nat) (change : Entry → Entry) (idle : s.call p = .idle) :
    Change s (s.setHeld k held (s.cache.update k change)) p k :=
  .idle idle rfl (fun _ other => s.cache.update_ne k change other)
    (fun _ other => ⟨Function.update_of_ne other .., rfl, rfl, rfl⟩) (fun _ _ _ => rfl)

theorem Sound.iget {id : Nat × Nat} {cache : Cache} (sound : s.Sound) (idle : s.call p = .idle)
    (found : s.cache.iget id = .ok (k, cache)) : (s.setHeld k (s.held k + 1) cache).Sound := by
  have fits := sound.fits k
  unfold Cache.iget at found
  cases hit : s.cache.cached id with
  | some i =>
      rw [hit] at found
      cases found
      have used : 0 < (s.cache.entry k).ref ∧ (s.cache.entry k).id = id := by
        simpa using List.find?_some hit
      have change : Change s _ p k :=
        .setHeld (s.held k + 1) (fun ip => { ip with ref := ip.ref + 1 }) idle
      refine sound.change change (change.fits_idle fits idle rfl ?_ ?_ ?_ ?_ ⟨rfl, rfl⟩) ?_
      · simp
      · simpa using fun _ => fits.agrees used.1
      · simp
      · simp
      · simp [used.1]
  | none =>
      rw [hit] at found
      cases spare : s.cache.empty with
      | none =>
          rw [spare] at found
          cases found
      | some i =>
          rw [spare] at found
          cases found
          have unused : (s.cache.entry k).ref = 0 := by
            simpa using List.find?_some spare
          have absent : ∀ j, 0 < (s.cache.entry j).ref → (s.cache.entry j).id ≠ id := by
            simpa [Cache.cached] using hit
          have none : s.held k = 0 := by
            have bound := fits.held_le
            omega
          have change : Change s _ p k :=
            .setHeld (s.held k + 1) (fun ip => { ip with id := id, ref := 1, valid := false }) idle
          refine sound.change change (change.fits_idle fits idle rfl ?_ ?_ ?_ ?_ ⟨rfl, rfl⟩) ?_
          · simp [unused]
          · simp
          · simp
          · simp [unused]
          · exact fun _ => .inr (by simpa using absent)

theorem Sound.idup (sound : s.Sound) (idle : s.call p = .idle) (held : 0 < s.held k) :
    (s.setHeld k (s.held k + 1) (s.cache.idup k)).Sound := by
  have fits := sound.fits k
  have used : 0 < (s.cache.entry k).ref := by
    have bound := fits.held_le
    omega
  have change : Change s (s.setHeld k (s.held k + 1) (s.cache.idup k)) p k :=
    .setHeld (s.held k + 1) (fun ip => { ip with ref := ip.ref + 1 }) idle
  refine sound.change change (change.fits_idle fits idle rfl ?_ ?_ ?_ ?_ ⟨rfl, rfl⟩) ?_
  · simp [Cache.idup]
  · simpa [Cache.idup] using fun _ => fits.agrees used
  · simp [Cache.idup]
  · simp [Cache.idup]
  · simp [Cache.idup, used]

/-- `iput` where it does not free the inode. -/
theorem Sound.putShared (sound : s.Sound) (idle : s.call p = .idle) (held : 0 < s.held k) :
    (s.setHeld k (s.held k - 1) (s.cache.drop k)).Sound := by
  have fits := sound.fits k
  have change : Change s (s.setHeld k (s.held k - 1) (s.cache.drop k)) p k :=
    .setHeld (s.held k - 1) (fun ip => { ip with ref := ip.ref - 1 }) idle
  refine sound.change change (change.fits_idle fits idle rfl ?_ ?_ ?_ ?_ ⟨rfl, rfl⟩) ?_
  · simp [Cache.drop]
    omega
  · simpa [Cache.drop] using fun used => fits.agrees (by omega)
  · simp [Cache.drop]
  · simp [Cache.drop]
  · intro used
    simp only [setHeld_cache, Cache.drop, Cache.update_self] at used ⊢
    exact .inl ⟨by omega, trivial⟩

/-- `iput` where it begins to free the inode. -/
theorem Sound.putLast (sound : s.Sound) (idle : s.call p = .idle) (held : 0 < s.held k)
    (last : s.cache.lastPut k = true) (free : (s.cache.entry k).lock = none) :
    Sound { (s.setHeld k (s.held k - 1) (s.cache.setLock k (some p))).setCall p (.trunc k 0) with
      due := Function.update s.due k (s.due k + 1) } := by
  have fits := sound.fits k
  obtain ⟨ref, valid, nlink⟩ : (s.cache.entry k).ref = 1 ∧ (s.cache.entry k).valid = true ∧
      (s.cache.entry k).inode.nlink = 0 := by simpa [Cache.lastPut] using last
  have change : Change s { (s.setHeld k (s.held k - 1) (s.cache.setLock k (some p))).setCall p
      (.trunc k 0) with due := Function.update s.due k (s.due k + 1) } p k :=
    .of rfl (.inl (by rw [idle]; rfl)) (.inr rfl) (fun _ other => s.cache.setLock_ne k (some p) other)
      (fun _ other => ⟨Function.update_of_ne other .., rfl, Function.update_of_ne other .., rfl⟩)
      (fun _ _ _ => rfl)
  refine sound.change change (change.fits fits ?_ ?_ ?_ ?_ ?_ ?_ ?_) ?_
  · simp [setCall, Cache.setLock, idle, Call.putting]
    omega
  · simpa [setCall, Cache.setLock] using fits.agrees
  · simp [setCall, Cache.setLock]
  · simp [setCall, Cache.setLock, free]
  · simp [setCall, Cache.setLock, valid, nlink]
  · simp [setCall, Cache.setLock]
  · simp [setCall, setHeld, idle, Call.freeing]
  · simp [setCall, Cache.setLock, ref]

/-- `iunlock`. -/
theorem Sound.iunlock (sound : s.Sound) (idle : s.call p = .idle)
    (held : (s.cache.entry k).lock = some p) : Sound { s with cache := s.cache.setLock k none } := by
  have fits := sound.fits k
  have change : Change s { s with cache := s.cache.setLock k none } p k :=
    .idle idle rfl (fun _ other => s.cache.setLock_ne k none other) (fun _ _ => ⟨rfl, rfl, rfl, rfl⟩)
      (fun _ _ _ => rfl)
  refine sound.change change (change.fits_idle fits idle rfl ?_ ?_ ?_ ?_ ⟨rfl, rfl⟩) ?_
  · simp [Cache.setLock]
  · simpa [Cache.setLock] using fits.agrees
  · rintro q other lock
    rw [held] at lock
    cases lock
    exact absurd rfl other
  · simp [Cache.setLock]
  · intro used
    exact .inl ⟨by simpa [Cache.setLock] using used, by simp [Cache.setLock]⟩

@[simp] theorem setDirty_self (s : System) (k : Fin NINODE) (dirty : Bool) (cache : Cache) :
    (s.setDirty k dirty cache).dirty k = dirty := Function.update_self ..

@[simp] theorem setDirty_cache (s : System) (k : Fin NINODE) (dirty : Bool) (cache : Cache) :
    (s.setDirty k dirty cache).cache = cache := rfl

@[simp] theorem setDirty_held (s : System) (k : Fin NINODE) (dirty : Bool) (cache : Cache) :
    (s.setDirty k dirty cache).held = s.held := rfl

/-- A caller changes the fields of an inode. -/
theorem Sound.write {change : Dinode → Dinode} (sound : s.Sound) (idle : s.call p = .idle)
    (lock : (s.cache.entry k).lock = some p) :
    (s.setDirty k true (s.cache.setInode k change)).Sound := by
  have fits := sound.fits k
  have step : Change s (s.setDirty k true (s.cache.setInode k change)) p k :=
    .idle idle rfl (fun _ other => s.cache.setInode_ne k change other)
      (fun _ other => ⟨rfl, Function.update_of_ne other .., rfl, rfl⟩) (fun _ _ _ => rfl)
  refine sound.change step (step.fits_idle fits idle rfl ?_ ?_ ?_ ?_ ⟨rfl, rfl⟩) ?_
  · simp [Cache.setInode]
  · simp
  · simp [Cache.setInode]
  · rintro q other holder
    rw [lock] at holder
    cases holder
    exact absurd rfl other
  · intro used
    exact .inl ⟨by simpa [Cache.setInode] using used, by simp [Cache.setInode]⟩

/-- `iupdate` changes the inode of no other entry that is in use. -/
theorem Sound.iupdate_disk {j : Fin NINODE} {cache : Cache} (sound : s.Sound)
    (usedK : 0 < (s.cache.entry k).ref) (same : (cache.entry k).id = (s.cache.entry k).id)
    (disk : cache.disk = s.cache.disk)
    (other : j ≠ k) (used : 0 < (s.cache.entry j).ref) :
    (cache.iupdate k).disk (s.cache.entry j).id = s.cache.disk (s.cache.entry j).id := by
  have apart : (s.cache.entry j).id ≠ (cache.entry k).id := by
    rw [same]
    exact fun both => other (sound.unique j k used usedK both)
  rw [← disk]
  exact Function.update_of_ne apart ..

theorem Sound.iupdate (sound : s.Sound) (idle : s.call p = .idle) (held : 0 < s.held k) :
    (s.setDirty k false (s.cache.iupdate k)).Sound := by
  have fits := sound.fits k
  have used : 0 < (s.cache.entry k).ref := by
    have bound := fits.held_le
    omega
  have step : Change s (s.setDirty k false (s.cache.iupdate k)) p k :=
    .idle idle rfl (fun _ _ => rfl) (fun _ other => ⟨rfl, Function.update_of_ne other .., rfl, rfl⟩)
      (fun _ => sound.iupdate_disk used rfl rfl)
  refine sound.change step (step.fits_idle fits idle rfl ?_ ?_ ?_ ?_ ⟨rfl, rfl⟩) ?_
  · simp [Cache.iupdate]
  · simp [Cache.iupdate]
  · simp [Cache.iupdate]
  · simp [Cache.iupdate]
  · exact fun used => .inl ⟨used, rfl⟩

/-- A process that has the lock of an entry is alone with it. -/
theorem alone {P : Prop} (lock : (s.cache.entry k).lock = some p) (other : q ≠ p)
    (holder : (s.cache.entry k).lock = some q) : P := by
  rw [lock] at holder
  cases holder
  exact absurd rfl other

/-- The start of `ilock`. -/
theorem Sound.ilock (sound : s.Sound) (idle : s.call p = .idle) : (s.setCall p (.ilock k)).Sound := by
  have fits := sound.fits k
  have step : Change s (s.setCall p (.ilock k)) p k :=
    .of rfl (.inl (by rw [idle]; rfl)) (.inr rfl) (fun _ _ => rfl) (fun _ _ => ⟨rfl, rfl, rfl, rfl⟩)
      (fun _ _ _ => rfl)
  refine sound.change step (step.fits fits ?_ fits.agrees ?_ ?_ ?_ ?_ ?_) ?_
  · simp [setCall, idle, Call.putting]
  · simp [setCall, Call.locking]
  · exact fun _ _ lock => lock
  · simp [setCall, Call.freeing]
  · exact fun _ _ _ _ => ⟨rfl, rfl⟩
  · simp [setCall, idle, Call.freeing]
  · exact fun used => .inl ⟨used, rfl⟩

/-- `acquiresleep` in `ilock`. -/
theorem Sound.acquire (sound : s.Sound) (call : s.call p = .ilock k) (free : (s.cache.entry k).lock = none) :
    Sound { s.setCall p (.load k) with cache := s.cache.setLock k (some p) } := by
  have fits := sound.fits k
  have step : Change s { s.setCall p (.load k) with cache := s.cache.setLock k (some p) } p k :=
    .of rfl (.inr (by rw [call]; rfl)) (.inr rfl) (fun _ other => s.cache.setLock_ne k (some p) other)
      (fun _ _ => ⟨rfl, rfl, rfl, rfl⟩) (fun _ _ _ => rfl)
  refine sound.change step (step.fits fits ?_ ?_ ?_ ?_ ?_ ?_ ?_) ?_
  · simp [setCall, Cache.setLock, call, Call.putting]
  · simpa [setCall, Cache.setLock] using fits.agrees
  · simp [Cache.setLock]
  · simp [Cache.setLock, free]
  · simp [setCall, Call.freeing]
  · simp [Cache.setLock]
  · simp [setCall, call, Call.freeing]
  · intro used
    exact .inl ⟨by simpa [Cache.setLock] using used, by simp [Cache.setLock]⟩

/-- `ilock` reads the inode, if it has to. -/
theorem Sound.load {cache : Cache} (sound : s.Sound) (call : s.call p = .load k)
    (loaded : s.cache.load k = .ok cache) :
    ((s.setDirty k (if (s.cache.entry k).valid then s.dirty k else false) cache).setCall p .idle).Sound := by
  have fits := sound.fits k
  have lock : (s.cache.entry k).lock = some p := fits.locked p (by rw [call]; rfl)
  unfold Cache.load at loaded
  split at loaded
  · next valid =>
    cases loaded
    rw [if_pos valid]
    have step : Change s ((s.setDirty k (s.dirty k) s.cache).setCall p .idle) p k :=
      .of rfl (.inr (by rw [call]; rfl)) (.inl rfl) (fun _ _ => rfl)
        (fun _ other => ⟨rfl, Function.update_of_ne other .., rfl, rfl⟩) (fun _ _ _ => rfl)
    refine sound.change step (step.fits fits ?_ ?_ ?_ ?_ ?_ ?_ ?_) ?_
    · simp [setCall, call, Call.putting]
    · simpa [setCall] using fits.agrees
    · simp [setCall, Call.locking]
    · exact fun _ _ lock => lock
    · simp [setCall, Call.freeing]
    · exact fun _ _ _ _ => ⟨rfl, rfl⟩
    · simp [setCall, setDirty, call, Call.freeing]
    · exact fun used => .inl ⟨used, rfl⟩
  · next stale =>
    split at loaded
    · cases loaded
    · cases loaded
      rw [if_neg stale]
      have step : Change s ((s.setDirty k false (s.cache.update k fun ip =>
          { ip with inode := s.cache.disk ip.id, valid := true })).setCall p .idle) p k :=
        .of rfl (.inr (by rw [call]; rfl)) (.inl rfl)
          (fun _ other => s.cache.update_ne k (fun ip =>
            { ip with inode := s.cache.disk ip.id, valid := true }) other)
          (fun _ other => ⟨rfl, Function.update_of_ne other .., rfl, rfl⟩) (fun _ _ _ => rfl)
      refine sound.change step (step.fits fits ?_ ?_ ?_ ?_ ?_ ?_ ?_) ?_
      · simp [setCall, call, Call.putting]
      · simp [setCall]
      · simp [setCall, Call.locking]
      · simp [setCall]
      · simp [setCall, Call.freeing]
      · exact fun q other holder => alone lock other holder
      · simp [setCall, setDirty, call, Call.freeing]
      · intro used
        exact .inl ⟨by simpa [setCall] using used, by simp [setCall]⟩

/-- `iput` changes the fields of the inode that it frees. -/
theorem Sound.truncField {call : Call} {change : Dinode → Dinode} (sound : s.Sound)
    (freeing : (s.call p).freeing = some k) (goes : call.freeing = some k)
    (nlink : ∀ ip, (change ip).nlink = ip.nlink) :
    ((s.setDirty k true (s.cache.setInode k change)).setCall p call).Sound := by
  have fits := sound.fits k
  have lock := fits.locked p (Call.locking_of_freeing freeing)
  have unlinked := fits.unlinked p freeing
  have step : Change s ((s.setDirty k true (s.cache.setInode k change)).setCall p call) p k :=
    .of rfl (.inr (Call.entry_of_freeing freeing)) (.inr (Call.entry_of_freeing goes))
      (fun _ other => s.cache.setInode_ne k change other)
      (fun _ other => ⟨rfl, Function.update_of_ne other .., rfl, rfl⟩) (fun _ _ _ => rfl)
  refine sound.change step (step.fits fits ?_ ?_ ?_ ?_ ?_ ?_ ?_) ?_
  · simp [setCall, Cache.setInode, Call.putting_of_freeing freeing, Call.putting_of_freeing goes]
  · simp [setCall]
  · simp [setCall, Cache.setInode, lock]
  · simp [setCall, Cache.setInode]
  · simp [setCall, Cache.setInode, nlink, unlinked]
  · simp [setCall, Cache.setInode, nlink]
  · simp [setCall, setDirty, freeing, goes]
  · intro used
    exact .inl ⟨by simpa [setCall, Cache.setInode] using used, by simp [setCall, Cache.setInode]⟩

/-- The end of `itrunc` in `iput`. -/
theorem Sound.truncSize {i : Nat} (sound : s.Sound) (call : s.call p = .trunc k i) :
    ((s.setDirty k false ((s.cache.setInode k fun ip => { ip with size := 0 }).iupdate k)).setCall p
      (.clear k)).Sound := by
  have fits := sound.fits k
  have lock : (s.cache.entry k).lock = some p := fits.locked p (by rw [call]; rfl)
  have unlinked := fits.unlinked p (by rw [call]; rfl)
  have used := fits.ref_pos (p := p) (by rw [call]; rfl)
  have step : Change s ((s.setDirty k false ((s.cache.setInode k fun ip =>
      { ip with size := 0 }).iupdate k)).setCall p (.clear k)) p k :=
    .of rfl (.inr (by rw [call]; rfl)) (.inr rfl)
      (fun _ other => s.cache.setInode_ne k (fun ip => { ip with size := 0 }) other)
      (fun _ other => ⟨rfl, Function.update_of_ne other .., rfl, rfl⟩)
      (fun _ => sound.iupdate_disk used (by simp [Cache.setInode]) rfl)
  refine sound.change step (step.fits fits ?_ ?_ ?_ ?_ ?_ ?_ ?_) ?_
  · simp [setCall, Cache.iupdate, Cache.setInode, call, Call.putting]
  · simp [setCall, Cache.iupdate]
  · simp [setCall, Cache.iupdate, Cache.setInode, lock]
  · simp [setCall, Cache.iupdate, Cache.setInode]
  · simp [setCall, Cache.iupdate, Cache.setInode, unlinked]
  · simp [setCall, Cache.iupdate, Cache.setInode]
  · simp [setCall, setDirty, call, Call.freeing]
  · exact fun _ => .inl ⟨used, by simp [setCall, Cache.iupdate, Cache.setInode]⟩

/-- `iput` writes the inode without a type, which is then free. -/
theorem Sound.truncDone (sound : s.Sound) (call : s.call p = .update k) :
    Sound { (s.setDirty k false (s.cache.iupdate k)).setCall p (.invalidate k) with
      freed := Function.update s.freed k (s.freed k + 1) } := by
  have fits := sound.fits k
  have lock : (s.cache.entry k).lock = some p := fits.locked p (by rw [call]; rfl)
  have used := fits.ref_pos (p := p) (by rw [call]; rfl)
  have step : Change s { (s.setDirty k false (s.cache.iupdate k)).setCall p (.invalidate k) with
      freed := Function.update s.freed k (s.freed k + 1) } p k :=
    .of rfl (.inr (by rw [call]; rfl)) (.inr rfl) (fun _ _ => rfl)
      (fun _ other => ⟨rfl, Function.update_of_ne other .., rfl, Function.update_of_ne other ..⟩)
      (fun _ => sound.iupdate_disk used rfl rfl)
  refine sound.change step (step.fits fits ?_ ?_ ?_ ?_ ?_ ?_ ?_) ?_
  · simp [setCall, Cache.iupdate, setDirty, call, Call.putting]
  · simp [setCall, Cache.iupdate]
  · exact fun _ => lock
  · exact fun _ _ lock => lock
  · simp [setCall, Call.freeing]
  · exact fun _ _ _ _ => ⟨rfl, rfl⟩
  · simp [setCall, setDirty, call, Call.freeing]
  · exact fun used => .inl ⟨used, rfl⟩

/-- `ip->valid = 0` in `iput`. -/
theorem Sound.invalidate (sound : s.Sound) (call : s.call p = .invalidate k) :
    Sound { s.setCall p (.release k) with cache := s.cache.invalidate k } := by
  have fits := sound.fits k
  have lock : (s.cache.entry k).lock = some p := fits.locked p (by rw [call]; rfl)
  have step : Change s { s.setCall p (.release k) with cache := s.cache.invalidate k } p k :=
    .of rfl (.inr (by rw [call]; rfl)) (.inr rfl)
      (fun _ other => s.cache.update_ne k (fun ip => { ip with valid := false }) other)
      (fun _ _ => ⟨rfl, rfl, rfl, rfl⟩) (fun _ _ _ => rfl)
  refine sound.change step (step.fits fits ?_ ?_ ?_ ?_ ?_ ?_ ?_) ?_
  · simp [setCall, Cache.invalidate, call, Call.putting]
  · simp [Cache.invalidate]
  · simp [Cache.invalidate, lock]
  · simp [Cache.invalidate]
  · simp [setCall, Call.freeing]
  · exact fun q other holder => alone lock other holder
  · simp [setCall, call, Call.freeing]
  · intro used
    exact .inl ⟨by simpa [Cache.invalidate] using used, by simp [Cache.invalidate]⟩

/-- `releasesleep` in `iput`. -/
theorem Sound.release (sound : s.Sound) (call : s.call p = .release k) :
    Sound { s.setCall p (.drop k) with cache := s.cache.setLock k none } := by
  have fits := sound.fits k
  have lock : (s.cache.entry k).lock = some p := fits.locked p (by rw [call]; rfl)
  have step : Change s { s.setCall p (.drop k) with cache := s.cache.setLock k none } p k :=
    .of rfl (.inr (by rw [call]; rfl)) (.inr rfl) (fun _ other => s.cache.setLock_ne k none other)
      (fun _ _ => ⟨rfl, rfl, rfl, rfl⟩) (fun _ _ _ => rfl)
  refine sound.change step (step.fits fits ?_ ?_ ?_ ?_ ?_ ?_ ?_) ?_
  · simp [setCall, Cache.setLock, call, Call.putting]
  · simpa [setCall, Cache.setLock] using fits.agrees
  · simp [setCall, Call.locking]
  · exact fun q other holder => alone lock other holder
  · simp [setCall, Call.freeing]
  · simp [Cache.setLock]
  · simp [setCall, call, Call.freeing]
  · intro used
    exact .inl ⟨by simpa [Cache.setLock] using used, by simp [Cache.setLock]⟩

/-- The last section of `iput` under `icache.lock`, after it has freed the inode. -/
theorem Sound.drop (sound : s.Sound) (call : s.call p = .drop k) :
    Sound { s.setCall p .idle with cache := s.cache.drop k } := by
  have fits := sound.fits k
  have step : Change s { s.setCall p .idle with cache := s.cache.drop k } p k :=
    .of rfl (.inr (by rw [call]; rfl)) (.inl rfl)
      (fun _ other => s.cache.update_ne k (fun ip => { ip with ref := ip.ref - 1 }) other)
      (fun _ _ => ⟨rfl, rfl, rfl, rfl⟩) (fun _ _ _ => rfl)
  refine sound.change step (step.fits fits ?_ ?_ ?_ ?_ ?_ ?_ ?_) ?_
  · simp [setCall, Cache.drop, call, Call.putting]
  · simpa [setCall, Cache.drop] using fun used => fits.agrees (by omega)
  · simp [setCall, Call.locking]
  · simp [Cache.drop]
  · simp [setCall, Call.freeing]
  · simp [Cache.drop]
  · simp [setCall, call, Call.freeing]
  · intro used
    simp only [Cache.drop, Cache.update_self] at used ⊢
    exact .inl ⟨by omega, trivial⟩

theorem Sound.next (sound : s.Sound) (goes : s.next p = some s') : s'.Sound := by
  unfold System.next at goes
  cases call : s.call p with
  | idle => simp [call] at goes
  | ilock k =>
      simp only [call] at goes
      split at goes
      · cases goes
      · next free =>
        cases goes
        exact sound.acquire call (not_not.mp free)
  | load k =>
      simp only [call] at goes
      cases loaded : s.cache.load k with
      | error fault => simp [loaded] at goes
      | ok cache =>
          rw [loaded] at goes
          cases goes
          exact sound.load call loaded
  | trunc k i =>
      simp only [call] at goes
      split at goes
      · cases goes
        exact sound.truncField (by rw [call]; rfl) rfl fun _ => rfl
      · cases goes
        exact sound.truncSize call
  | clear k =>
      simp only [call] at goes
      cases goes
      exact sound.truncField (by rw [call]; rfl) rfl fun _ => rfl
  | update k =>
      simp only [call] at goes
      cases goes
      exact sound.truncDone call
  | invalidate k =>
      simp only [call] at goes
      cases goes
      exact sound.invalidate call
  | release k =>
      simp only [call] at goes
      cases goes
      exact sound.release call
  | drop k =>
      simp only [call] at goes
      cases goes
      exact sound.drop call

theorem Sound.iput (sound : s.Sound) (idle : s.call p = .idle) (held : 0 < s.held k)
    (goes : s.iput p k = some s') : s'.Sound := by
  unfold System.iput at goes
  dsimp only at goes
  split at goes
  · next last =>
    split at goes
    · cases goes
    · next free =>
      cases goes
      exact sound.putLast idle held last (not_not.mp free)
  · cases goes
    exact sound.putShared idle held

theorem Sound.step {label : Label} (sound : s.Sound) (goes : s.step label = some s') : s'.Sound := by
  cases label with
  | iget p id =>
      unfold System.step at goes
      dsimp only at goes
      split at goes
      · next idle =>
        cases found : s.cache.iget id with
        | error fault => simp [found] at goes
        | ok result =>
            rw [found] at goes
            cases goes
            exact sound.iget idle found
      · cases goes
  | idup p k =>
      obtain ⟨⟨idle, held⟩, goes⟩ := Option.ite_none_right_eq_some.mp goes
      cases goes
      exact sound.idup idle held
  | ilock p k =>
      obtain ⟨⟨idle, -⟩, goes⟩ := Option.ite_none_right_eq_some.mp goes
      cases goes
      exact sound.ilock idle
  | iunlock p k =>
      obtain ⟨⟨idle, -, lock, -⟩, goes⟩ := Option.ite_none_right_eq_some.mp goes
      cases goes
      exact sound.iunlock idle lock
  | iput p k =>
      obtain ⟨⟨idle, held⟩, goes⟩ := Option.ite_none_right_eq_some.mp goes
      exact sound.iput idle held goes
  | write p k change =>
      obtain ⟨⟨idle, -, lock⟩, goes⟩ := Option.ite_none_right_eq_some.mp goes
      cases goes
      exact sound.write idle lock
  | iupdate p k =>
      obtain ⟨⟨idle, held, -⟩, goes⟩ := Option.ite_none_right_eq_some.mp goes
      cases goes
      exact sound.iupdate idle held
  | step p => exact sound.next goes

theorem system_sound : system.Inductive (fun _ _ => True) Sound where
  initial := by
    intro s initial
    have unused : ∀ k, (s.cache.entry k).ref = 0 := by simp [initial.entry]
    constructor
    · intro i j used
      rw [unused] at used
      exact absurd used (lt_irrefl 0)
    · intro k
      constructor
      · simp [unused, initial.held, initial.call, Call.putting]
      · rw [unused]
        exact fun used => absurd used (lt_irrefl 0)
      · simp [initial.call, Call.locking]
      · simp [initial.call, Call.freeing]
      · simp [initial.due, initial.freed, initial.call, Call.freeing]
  preserved sound _ goes := sound.step goes

end System

namespace Cache

variable {s t : Cache} {j k : Fin NINODE}

theorem update_id (s : Cache) (k : Fin NINODE) (change : Entry → Entry) (same : ∀ e, (change e).id = e.id)
    (j : Fin NINODE) : ((s.update k change).entry j).id = (s.entry j).id := by
  by_cases this : j = k
  · subst this
    rw [update_self, same]
  · rw [update_ne _ _ _ this]

@[simp] theorem setLock_id (holder : Option (Fin NPROC)) :
    ((s.setLock k holder).entry j).id = (s.entry j).id := s.update_id k _ (by intro _; rfl) j

@[simp] theorem setInode_id (change : Dinode → Dinode) :
    ((s.setInode k change).entry j).id = (s.entry j).id := s.update_id k _ (by intro _; rfl) j

@[simp] theorem idup_id : ((s.idup k).entry j).id = (s.entry j).id := s.update_id k _ (by intro _; rfl) j

@[simp] theorem drop_id : ((s.drop k).entry j).id = (s.entry j).id := s.update_id k _ (by intro _; rfl) j

@[simp] theorem invalidate_id : ((s.invalidate k).entry j).id = (s.entry j).id :=
  s.update_id k _ (by intro _; rfl) j

@[simp] theorem iupdate_entry : (s.iupdate k).entry = s.entry := rfl

theorem load_id (loaded : s.load k = .ok t) : (t.entry j).id = (s.entry j).id := by
  unfold load at loaded
  split at loaded
  · cases loaded
    rfl
  · split at loaded
    · cases loaded
    · cases loaded
      exact s.update_id k _ (by intro _; rfl) j

/-- `iget` gives an entry to another inode only if nobody has a reference to it. -/
theorem iget_id {id : Nat × Nat} (found : s.iget id = .ok (k, t)) (j : Fin NINODE) :
    (t.entry j).id = (s.entry j).id ∨ (s.entry j).ref = 0 := by
  unfold iget at found
  split at found
  · cases found
    exact .inl (s.update_id k _ (by intro _; rfl) j)
  · split at found
    · next spare =>
      cases found
      by_cases this : j = k
      · subst this
        exact .inr (by simpa using List.find?_some spare)
      · exact .inl (by rw [update_ne _ _ _ this])
    · cases found

end Cache

namespace System

variable {s s' : System} {p : Fin NPROC} {k : Fin NINODE}

theorem next_id (goes : s.next p = some s') :
    (s'.cache.entry k).id = (s.cache.entry k).id := by
  unfold next at goes
  split at goes
  · cases goes
  · split at goes
    · cases goes
    · cases goes
      simp
  · split at goes
    · next loaded =>
      cases goes
      exact Cache.load_id loaded
    · cases goes
  · split at goes
    all_goals
      cases goes
      simp [setDirty, setCall]
  all_goals
    cases goes
    simp [setDirty, setCall]

/-- An entry is recycled only without references. -/
theorem step_id {label : Label} (goes : s.step label = some s') (k : Fin NINODE) :
    (s'.cache.entry k).id = (s.cache.entry k).id ∨ (s.cache.entry k).ref = 0 := by
  cases label with
  | iget p id =>
      unfold step at goes
      dsimp only at goes
      split at goes
      · split at goes
        · next found =>
          cases goes
          exact Cache.iget_id found k
        · cases goes
      · cases goes
  | iput p j =>
      obtain ⟨-, goes⟩ := Option.ite_none_right_eq_some.mp goes
      unfold iput at goes
      dsimp only at goes
      left
      split at goes
      · split at goes
        · cases goes
        · cases goes
          simp [setHeld, setCall]
      · cases goes
        simp [setHeld]
  | step p => exact .inl (next_id goes)
  | _ =>
      obtain ⟨-, goes⟩ := Option.ite_none_right_eq_some.mp goes
      cases goes
      simp [setHeld, setDirty, setCall]

/-- An `iput` either drops its reference at once, or it has put the last one to a valid inode without
links and begins to free it. -/
theorem iput_cases (goes : s.step (.iput p k) = some s') :
    if (s.cache.entry k).ref = 1 ∧ (s.cache.entry k).valid = true ∧ (s.cache.entry k).inode.nlink = 0 then
      s'.call p = .trunc k 0 ∧ s'.due k = s.due k + 1
    else s'.call p = .idle ∧ s'.due = s.due ∧ (s'.cache.entry k).ref = (s.cache.entry k).ref - 1 := by
  obtain ⟨⟨idle, -⟩, goes⟩ := Option.ite_none_right_eq_some.mp goes
  unfold iput at goes
  dsimp only at goes
  split at goes
  · next last =>
    rw [if_pos (by simpa [Cache.lastPut] using last)]
    split at goes
    · cases goes
    · cases goes
      simp [setCall]
  · next more =>
    rw [if_neg (by simpa [Cache.lastPut] using more)]
    cases goes
    exact ⟨idle, rfl, by simp [Cache.drop]⟩

/-- What the cache promises. -/
structure Promises (s : System) : Prop where
  /-- An inode has one entry. -/
  unique : ∀ i j, 0 < (s.cache.entry i).ref → 0 < (s.cache.entry j).ref →
    (s.cache.entry i).id = (s.cache.entry j).id → i = j
  /-- The count is that of the references that callers have, and that calls are about to drop. -/
  counted : ∀ k, (s.cache.entry k).ref =
    s.held k + ∑ p, if (s.call p).putting = some k then 1 else 0
  /-- A valid entry is the inode on disk, if it has not been changed since `iupdate`. -/
  agrees : ∀ k, 0 < (s.cache.entry k).ref → (s.cache.entry k).valid = true → s.dirty k = false →
    (s.cache.entry k).inode = s.cache.disk (s.cache.entry k).id
  /-- An entry is recycled only without references. -/
  recycled : ∀ label s' k, s.step label = some s' → (s'.cache.entry k).id ≠ (s.cache.entry k).id →
    (s.cache.entry k).ref = 0
  /-- `iput` begins to free an inode exactly if it puts the last reference to a valid inode without
  links. -/
  frees : ∀ p k s', s.step (.iput p k) = some s' → ((s'.call p).freeing = some k ↔
    (s.cache.entry k).ref = 1 ∧ (s.cache.entry k).valid = true ∧ (s.cache.entry k).inode.nlink = 0)
  /-- While it is freed the entry keeps its lock, and no link is made. -/
  freeing : ∀ p k, (s.call p).freeing = some k → (s.cache.entry k).lock = some p ∧
    0 < (s.cache.entry k).ref ∧ (s.cache.entry k).valid = true ∧ (s.cache.entry k).inode.nlink = 0
  /-- Every such put frees once, and nothing else frees. -/
  owed : ∀ k, (s.due k : Int) = s.freed k + ∑ p, if (s.call p).freeing = some k then 1 else 0

/-- The promises hold in every state of every interleaving. -/
theorem cache_promises (run : system.Reachable s) : s.Promises := by
  have sound : s.Sound := run.invariant system_sound
  refine ⟨sound.unique, fun k => (sound.fits k).counted, fun k => (sound.fits k).agrees, ?_, ?_, ?_,
    fun k => (sound.fits k).owed⟩
  · intro label s' k goes changed
    exact (step_id goes k).resolve_left changed
  · intro p k s' goes
    have cases := iput_cases goes
    split at cases
    · next last => exact iff_of_true (by rw [cases.1]; rfl) last
    · next more => exact iff_of_false (by rw [cases.1]; exact nofun) more
  · intro p k freeing
    have fits := sound.fits k
    exact ⟨fits.locked p (Call.locking_of_freeing freeing), fits.ref_pos (Call.putting_of_freeing freeing),
      fits.unlinked p freeing⟩

/-- The cache after `iinit`, where every inode on disk is a file without links. -/
def start : System where
  cache := ⟨fun _ => {}, fun _ => ⟨2, 0, 0, 0, 0, fun _ => 0⟩⟩
  call _ := .idle
  held _ := 0
  dirty _ := false
  due _ := 0
  freed _ := 0

/-- After the first `iget`. -/
def once : System :=
  start.setHeld 0 1 (start.cache.update 0 fun ip => { ip with id := (0, 5), ref := 1, valid := false })

theorem reachable_once : system.Reachable once :=
  .step (.initial ⟨fun _ => rfl, fun _ => rfl, fun _ => rfl, fun _ => rfl, fun _ => rfl⟩) trivial
    (show start.step (.iget 0 (0, 5)) = some once from rfl)

/-- Steps one after the other. -/
def run (s : System) (labels : List Label) : Option System := labels.foldlM step s

theorem reachable_run {labels : List Label} (reachable : system.Reachable s) (ran : s.run labels = some s') :
    system.Reachable s' := by
  induction labels generalizing s with
  | nil =>
      cases ran
      exact reachable
  | cons label rest ih =>
      obtain ⟨s₁, goes, ran⟩ := Option.bind_eq_some_iff.mp ran
      exact ih (.step reachable trivial goes) ran

/-- Two processes have references to a file without links. The first locks it, so that it is read. The second
puts its reference, and when the first does so, the inode is freed. -/
def removal : List Label :=
  [.iget 0 (0, 5), .iget 1 (0, 5), .ilock 0 0, .step 0, .step 0, .iunlock 0 0, .iput 1 0, .iput 0 0] ++
    List.replicate 18 (.step 0)

/-- The inode has been freed once, on disk as well, and the cache promises what it promises. -/
theorem promises_removal : ∃ s, start.run removal = some s ∧ (s.cache.entry 0).ref = 0 ∧ s.due 0 = 1 ∧
    s.freed 0 = 1 ∧ (s.cache.disk (0, 5)).type = 0 ∧ s.Promises := by
  have ran : (start.run removal).any (fun s => decide ((s.cache.entry 0).ref = 0 ∧ s.due 0 = 1 ∧ s.freed 0 = 1 ∧
      (s.cache.disk (0, 5)).type = 0)) = true := by decide +kernel
  obtain ⟨s, ran, freed⟩ := (Option.any_eq_true ..).mp ran
  obtain ⟨ref, due, freed, type⟩ := of_decide_eq_true freed
  have started : system.Reachable start :=
    .initial ⟨fun _ => rfl, fun _ => rfl, fun _ => rfl, fun _ => rfl, fun _ => rfl⟩
  exact ⟨s, ran, ref, due, freed, type, cache_promises (reachable_run started ran)⟩

/-- The last reference to a file without links is put, and the file is not freed: nobody has locked it, so
that its entry is not valid. -/
theorem iput_invalid : ∃ s s' : System, system.Reachable s ∧ s.step (.iput 0 0) = some s' ∧
    (s.cache.entry 0).ref = 1 ∧ (s.cache.disk (s.cache.entry 0).id).nlink = 0 ∧
    (s.cache.disk (s.cache.entry 0).id).type = 2 ∧ s'.call 0 = .idle ∧ (s'.cache.entry 0).ref = 0 ∧
    s'.cache.disk = s.cache.disk :=
  ⟨once, once.setHeld 0 0 (once.cache.drop 0), reachable_once, rfl, rfl, rfl, rfl, rfl, rfl, rfl⟩

end System

end Riscv2os.Xv7.InodeCache
