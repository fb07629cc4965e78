import Riscv2os.Xv7.FsCalls

/-!
# Runs of the file system

Every run of calls has the replies that it has on the table of files, unless blocks run out (`run_refines`). In every
run no block has two places, and the blocks of a file stay until it is removed (`run_separate`). A block is lost
exactly when an inode is used again that still refers to it by `addrs[NDIRECT + 1]` (`lost_iff_reused`), and if no
file has ever been that large, the blocks in use are those of the files (`used_iff_owned`).
-/

namespace Riscv2os.Xv7

open Riscv2os.Std
open RefTree (descend nodes Unshared)

namespace Fs

variable {s s' s₁ s₂ : Fs} {inum o b addr off n : Nat}

/-- Every call agrees with the table of files, as long as blocks last. -/
theorem call_agrees {c : FsCall} (inv : s.Inv) (allowed : s.view.Allowed c) : Agrees s c (s.call c) := by
  have valid {inum : Nat} (loaded : s.view.loaded inum = true) : (s.icache inum).valid = true :=
    (Bool.and_eq_true_iff.mp loaded).1
  cases c with
  | iget inum => exact iget_agrees inv inum
  | ilock inum => exact ilock_agrees inv allowed
  | readi inum writable off n => exact readi_agrees writable inv allowed.1 (valid allowed.2)
  | writei inum src off n => exact writei_agrees src inv allowed.1 (valid allowed.2)
  | update inum major minor nlink => exact update_agrees major minor nlink inv allowed.1 (valid allowed.2)
  | iput inum => exact iput_agrees inv allowed.1 allowed.2
  | ialloc type => exact ialloc_agrees inv allowed

/-- A run returns what it returns on the table of files, and fails where it fails there, or blocks run out in a
write. -/
structure RunAgrees (s : Fs) (calls : List FsCall) : Prop where
  returns : ∀ {replies s'}, s.run calls = .ok (replies, s') → s'.Inv ∧ s.view.run calls = .ok (replies, s'.view)
  fails : ∀ {fault}, s.run calls = .error fault → s.view.run calls = .error fault ∨
    ∃ before inum src off n after replies s₁, calls = before ++ .writei inum src off n :: after ∧
      s.run before = .ok (replies, s₁) ∧ fault = .panic "balloc: out of blocks" ∧
      s₁.freeBlocks.card < 3 * touched off n

/-- The first call, and the rest. -/
theorem run_cons {c : FsCall} {rest : List FsCall} {replies : List FsReply} :
    s.run (c :: rest) = .ok (replies, s') ↔ ∃ reply s₁ more,
      s.call c = .ok (reply, s₁) ∧ s₁.run rest = .ok (more, s') ∧ replies = reply :: more := by
  rw [Fs.run, bind_ok]
  constructor
  · rintro ⟨⟨reply, s₁⟩, first, ran⟩
    obtain ⟨⟨more, s₂⟩, second, same⟩ := bind_ok.mp ran
    cases same
    exact ⟨reply, s₁, more, first, second, rfl⟩
  · rintro ⟨reply, s₁, more, first, second, rfl⟩
    exact ⟨(reply, s₁), first, bind_ok.mpr ⟨(more, s'), second, rfl⟩⟩

/-- Every run agrees with the table of files, as long as blocks last. -/
theorem run_refines (calls : List FsCall) (inv : s.Inv) (obeys : s.view.Obeys calls) : RunAgrees s calls := by
  induction calls generalizing s with
  | nil =>
      constructor
      · intro replies s' ran
        cases ran
        exact ⟨inv, rfl⟩
      · intro fault failed
        cases failed
  | cons c rest ih =>
      obtain ⟨allowed, obeys⟩ := obeys
      have agrees := call_agrees inv allowed
      have first := Fs.run.eq_2 s c rest
      have abstract := Files.run.eq_2 s.view c rest
      cases called : s.call c with
      | error fault =>
          rw [called] at agrees first
          constructor
          · intro replies s' ran
            rw [first] at ran
            cases ran
          · intro fault' failed
            rw [first] at failed
            cases failed
            rcases agrees with failed | ⟨inum, src, off, n, rfl, full, few⟩
            · rw [failed] at abstract
              exact .inl abstract
            · exact .inr ⟨[], inum, src, off, n, rest, [], s, rfl, rfl, full, few⟩
      | ok reached =>
          obtain ⟨reply, s₁⟩ := reached
          rw [called] at agrees first
          obtain ⟨inv₁, view, -⟩ := agrees
          rw [view] at obeys abstract
          have more := ih inv₁ obeys
          rw [ok_bind] at first abstract
          simp only at first abstract
          constructor
          · intro replies s' ran
            rw [first] at ran
            obtain ⟨⟨replies', s₂⟩, second, same⟩ := bind_ok.mp ran
            cases same
            obtain ⟨inv', view'⟩ := more.returns second
            rw [view'] at abstract
            exact ⟨inv', abstract⟩
          · intro fault failed
            rw [first] at failed
            cases second : s₁.run rest with
            | ok reached =>
                rw [second] at failed
                cases failed
            | error fault' =>
                rw [second] at failed
                cases failed
                rcases more.fails second with
                  failed | ⟨before, inum, src, off, n, after, replies, s₂, rfl, earlier, few⟩
                · rw [failed] at abstract
                  exact .inl abstract
                · have longer : s.run (c :: before) = .ok (reply :: replies, s₂) :=
                    run_cons.mpr ⟨reply, s₁, replies, called, earlier, rfl⟩
                  exact .inr ⟨c :: before, inum, src, off, n, after, reply :: replies, s₂, rfl, longer, few⟩

/-- With enough free blocks a run returns what it returns on the table of files. -/
theorem run_enough {calls : List FsCall} {replies : List FsReply} {a : Files} (inv : s.Inv)
    (obeys : s.view.Obeys calls) (enough : (calls.map FsCall.cost).sum ≤ s.freeBlocks.card)
    (ran : s.view.run calls = .ok (replies, a)) : ∃ s', s.run calls = .ok (replies, s') := by
  induction calls generalizing s replies with
  | nil =>
      cases ran
      exact ⟨s, rfl⟩
  | cons c rest ih =>
      obtain ⟨allowed, obeys⟩ := obeys
      have agrees := call_agrees inv allowed
      obtain ⟨⟨reply, a₁⟩, first, ran⟩ := bind_ok.mp ran
      obtain ⟨⟨more, a₂⟩, second, same⟩ := bind_ok.mp ran
      cases same
      rw [List.map_cons, List.sum_cons] at enough
      cases called : s.call c with
      | error fault =>
          rw [called] at agrees
          rcases agrees with failed | ⟨inum, src, off, n, rfl, -, few⟩
          · rw [first] at failed
            cases failed
          · have cost : FsCall.cost (.writei inum src off n) = 3 * touched off n := rfl
            omega
      | ok reached =>
          obtain ⟨reply', s₁⟩ := reached
          rw [called] at agrees
          obtain ⟨inv₁, view, effects⟩ := agrees
          rw [view] at first obeys
          cases first
          have free := effects.free
          obtain ⟨s', ran'⟩ := ih inv₁ obeys (by omega) second
          exact ⟨s', run_cons.mpr ⟨reply, s₁, more, called, ran', rfl⟩⟩

/-- A run in two parts. -/
theorem run_append {before after : List FsCall} {replies : List FsReply} :
    s.run (before ++ after) = .ok (replies, s') ↔ ∃ earlier s₁ later,
      s.run before = .ok (earlier, s₁) ∧ s₁.run after = .ok (later, s') ∧ replies = earlier ++ later := by
  induction before generalizing s replies with
  | nil =>
      constructor
      · exact fun ran => ⟨[], s, replies, rfl, ran, rfl⟩
      · rintro ⟨earlier, s₁, later, first, ran, rfl⟩
        cases first
        exact ran
  | cons c before ih =>
      rw [List.cons_append, run_cons]
      constructor
      · rintro ⟨reply, s₁, more, called, ran, rfl⟩
        obtain ⟨earlier, s₂, later, first, second, rfl⟩ := ih.mp ran
        exact ⟨reply :: earlier, s₂, later, run_cons.mpr ⟨reply, s₁, earlier, called, first, rfl⟩, second, rfl⟩
      · rintro ⟨earlier, s₂, later, first, second, rfl⟩
        obtain ⟨reply, s₁, more, called, ran, rfl⟩ := run_cons.mp first
        exact ⟨reply, s₁, more ++ later, called, ih.mpr ⟨more, s₂, later, ran, second, rfl⟩, rfl⟩

/-- The induction over the calls of a run that ends in `s'`. -/
theorem run_induction {motive : Fs → List FsCall → Prop} (stop : s'.Inv → motive s' [])
    (step : ∀ {s s₁ c reply rest}, s.Inv → s.call c = .ok (reply, s₁) → s.view.call c = .ok (reply, s₁.view) →
      Effects s c reply s₁ → motive s₁ rest → motive s (c :: rest))
    {calls : List FsCall} {replies : List FsReply} (inv : s.Inv) (obeys : s.view.Obeys calls)
    (ran : s.run calls = .ok (replies, s')) : motive s calls := by
  induction calls generalizing s replies with
  | nil =>
      cases ran
      exact stop inv
  | cons c rest ih =>
      obtain ⟨reply, s₁, more, first, second, -⟩ := run_cons.mp ran
      obtain ⟨allowed, obeys⟩ := obeys
      have agrees := call_agrees inv allowed
      rw [first] at agrees
      obtain ⟨inv₁, view, effects⟩ := agrees
      rw [view] at obeys
      exact step inv first view effects (ih inv₁ obeys second)

/-- The invariant holds after every run. -/
theorem run_inv {calls : List FsCall} {replies : List FsReply} (inv : s.Inv) (obeys : s.view.Obeys calls)
    (ran : s.run calls = .ok (replies, s')) : s'.Inv :=
  run_induction (motive := fun _ _ => s'.Inv) id (fun _ _ _ _ last => last) inv obeys ran

/-! ## The places of blocks -/

/-- `bmap` finds a block that has been allocated and changes nothing. -/
theorem bmap_found {bn : Nat} (sound : s.Sound) (valid : (s.icache inum).valid = true)
    (inside : inum < s.sb.ninodes) (small : bn < MAXFILE) (found : s.dataBlock inum bn = some b) :
    s.bmap inum bn = .ok (b, s) := by
  have there := dataBlock_eq_some.mp found
  have tries := bmap_tries sound valid inside small
  cases ran : s.bmap inum bn with
  | error fault =>
      rw [ran] at tries
      obtain ⟨-, -, missing⟩ := tries
      rw [there] at missing
      cases missing
  | ok reached =>
      obtain ⟨addr, s'⟩ := reached
      rw [ran] at tries
      obtain rfl := tries.stays (by rw [there]; exact Option.some_ne_none _)
      have same := tries.found
      rw [there] at same
      cases same
      rfl

end Fs

/-- A run does not remove the file. -/
def Files.Spares (a : Files) (o : Nat) : List FsCall → Prop
  | [] => True
  | c :: rest => ¬ (c = .iput o ∧ a.frees o = true) ∧ match a.call c with
      | .ok (_, a') => a'.Spares o rest
      | .error _ => True

/-- A new reference changes no file. -/
theorem Files.file_hold {a a' : Files} {inum : Nat} (held : a.hold inum = .ok a') : a'.file = a.file := by
  unfold Files.hold at held
  split at held
  · cases held
    rfl
  · cases held

/-- A file stays until its last reference is dropped. -/
theorem Files.file_stays {a a' : Files} {c : FsCall} {reply : FsReply} {o : Nat} (there : a.file o ≠ none)
    (spared : ¬ (c = .iput o ∧ a.frees o = true)) (ran : a.call c = .ok (reply, a')) : a'.file o ≠ none := by
  have update {inum : Nat} {file : Option FileData} (new : o = inum → file ≠ none) :
      Function.update a.file inum file o ≠ none := by
    rw [Function.update_apply]
    split
    · next same => exact new same
    · exact there
  cases c with
  | iget inum =>
      obtain ⟨a₁, held, same⟩ := bind_ok.mp ran
      cases same
      rw [Files.file_hold held]
      exact there
  | ilock inum =>
      unfold Files.call at ran
      simp only at ran
      split at ran
      · cases ran
      split at ran
      · cases ran
        exact there
      split at ran
      · cases ran
      · cases ran
        exact there
  | readi inum writable off n =>
      cases ran
      exact there
  | writei inum src off n =>
      cases ran
      refine update ?_
      rintro rfl
      simpa using there
  | update inum major minor nlink =>
      cases ran
      refine update ?_
      rintro rfl
      simpa using there
  | iput inum =>
      cases ran
      show (if a.frees inum = true then a.setFile inum none else a).file o ≠ none
      split
      · next free =>
          refine update ?_
          rintro rfl
          exact absurd ⟨rfl, free⟩ spared
      · exact there
  | ialloc type =>
      unfold Files.call at ran
      simp only at ran
      split at ran
      · obtain ⟨a₁, held, same⟩ := bind_ok.mp ran
        cases same
        rw [Files.file_hold held]
        exact update fun _ => Option.some_ne_none _
      · cases ran

namespace Fs

variable {s s' s₁ s₂ : Fs} {inum o b addr off n : Nat} {calls : List FsCall} {replies : List FsReply}

/-- The blocks of a file stay in their places. -/
theorem run_kept (inv : s.Inv) (obeys : s.view.Obeys calls) (ran : s.run calls = .ok (replies, s'))
    (there : s.view.file o ≠ none) (spared : s.view.Spares o calls) {bn : Nat} (small : bn < MAXFILE)
    (found : s.dataBlock o bn = some b) : s'.dataBlock o bn = some b ∧ s'.view.file o ≠ none := by
  refine run_induction (motive := fun s calls => s.view.file o ≠ none → s.view.Spares o calls →
    s.dataBlock o bn = some b → s'.dataBlock o bn = some b ∧ s'.view.file o ≠ none) ?_ ?_ inv obeys ran
    there spared found
  · exact fun _ there _ found => ⟨found, there⟩
  · intro s s₁ c reply rest _ _ view effects ih there spared found
    obtain ⟨now, later⟩ := spared
    rw [view] at later
    exact ih (Files.file_stays there now view) later (effects.kept small there now found)

/-- What holds of the places of blocks after a run. -/
structure Separate (s s' : Fs) (calls : List FsCall) : Prop where
  /-- No block of a file, and no index block, has two places. -/
  once : ∀ {path path' b}, path ∈ Shape → path' ∈ Shape → descend s'.refs .root path = some (.block b) →
    descend s'.refs .root path' = some (.block b) → path = path'
  /-- `bmap` is injective over all files. -/
  injective : ∀ {o o' bn bn' b}, bn < MAXFILE → bn' < MAXFILE → s'.dataBlock o bn = some b →
    s'.dataBlock o' bn' = some b → o = o' ∧ bn = bn'
  /-- All of them are data blocks that count as used. -/
  inData : ∀ {path b}, path ∈ Shape → descend s'.refs .root path = some (.block b) →
    s'.sb.dataStart ≤ b ∧ b < s'.sb.size ∧ s'.isUsed b = true
  /-- A later call returns the same block until the file is removed. -/
  stable : ∀ {o bn b}, bn < MAXFILE → s.view.file o ≠ none → s.view.Spares o calls → s.dataBlock o bn = some b →
    s'.dataBlock o bn = some b ∧ ((s'.icache o).valid = true → s'.bmap o bn = .ok (b, s'))

/-- In every run no two places of files have the same block, and the blocks stay in their places. -/
theorem run_separate (inv : s.Inv) (obeys : s.view.Obeys calls) (ran : s.run calls = .ok (replies, s')) :
    Separate s s' calls := by
  have inv' := run_inv inv obeys ran
  constructor
  · exact fun inShape inShape' found found' => inv'.sound.unshared inShape inShape' found found'
  · intro o o' bn bn' b small small' found found'
    exact dataPath_inj (inv'.sound.unshared (dataPath_mem o small) (dataPath_mem o' small')
      (dataBlock_eq_some.mp found) (dataBlock_eq_some.mp found'))
  · exact fun inShape found => inv'.sound.inData _ ⟨_, inShape, found⟩
  · intro o bn b small there spared found
    obtain ⟨found', there'⟩ := run_kept inv obeys ran there spared small found
    refine ⟨found', fun valid => bmap_found inv'.sound valid ?_ small found'⟩
    by_contra outside
    exact there' (if_neg fun h => outside h.1)

/-! ## Lost blocks -/

/-- A block is lost exactly when an inode is used again whose old file had it below `addrs[NDIRECT + 1]`. -/
theorem lost_iff_reused (inv : s.Inv) (obeys : s.view.Obeys calls) (ran : s.run calls = .ok (replies, s')) (b : Nat) :
    b ∈ s'.lost ↔ b ∈ s.lost ∨ ∃ before type after earlier s₁ inum s₂,
      calls = before ++ .ialloc type :: after ∧ s.run before = .ok (earlier, s₁) ∧
        s₁.call (.ialloc type) = .ok (⟨(inum : Nat), []⟩, s₂) ∧ s₁.Below inum {NDIRECT + 1} b := by
  refine run_induction (motive := fun s calls => b ∈ s'.lost ↔ b ∈ s.lost ∨
    ∃ before type after earlier s₁ inum s₂, calls = before ++ .ialloc type :: after ∧
      s.run before = .ok (earlier, s₁) ∧ s₁.call (.ialloc type) = .ok (⟨(inum : Nat), []⟩, s₂) ∧
        s₁.Below inum {NDIRECT + 1} b) ?_ ?_ inv obeys ran
  · intro _
    refine ⟨.inl, ?_⟩
    rintro (lost | ⟨before, type, after, _, _, _, _, none, -⟩)
    · exact lost
    · simp at none
  · intro s s₁ c reply rest _ first _ effects ih
    rw [ih, effects.lost b, or_assoc]
    refine or_congr_right ⟨?_, ?_⟩
    · rintro (⟨type, inum, rfl, rfl, below⟩ | ⟨before, type, after, earlier, s₂, inum, s₃, rfl, ran, alloc, below⟩)
      · exact ⟨[], type, rest, [], s, inum, s₁, rfl, rfl, first, below⟩
      · exact ⟨c :: before, type, after, reply :: earlier, s₂, inum, s₃, rfl,
          run_cons.mpr ⟨reply, s₁, earlier, first, ran, rfl⟩, alloc, below⟩
    · rintro ⟨before, type, after, earlier, s₂, inum, s₃, same, ran, alloc, below⟩
      cases before with
      | nil =>
          cases same
          cases ran
          rw [first] at alloc
          cases alloc
          exact .inl ⟨type, inum, rfl, rfl, below⟩
      | cons c' before =>
          cases same
          obtain ⟨reply', s₁', more, first', second, -⟩ := run_cons.mp ran
          rw [first] at first'
          cases first'
          exact .inr ⟨before, type, after, more, s₂, inum, s₃, rfl, second, alloc, below⟩

/-- The inode of a file has its size. -/
theorem view_size {file : FileData} (found : s.view.file o = some file) :
    o < s.sb.ninodes ∧ (s.inode o).size = file.content.length := by
  have found : (if o < s.sb.ninodes ∧ (s.inode o).type ≠ 0 then some (s.fileData o) else none) = some file := found
  split at found
  · next there =>
      cases found
      exact ⟨there.1, (length_bytes ..).symm⟩
  · cases found

/-- A file that is larger than its direct and single indirect blocks has a double indirect block. -/
theorem Inv.double (inv : s.Inv) (inside : o < s.sb.ninodes) (large : singleBytes < (s.inode o).size) :
    ∃ b, descend s.refs .root [o, NDIRECT + 1] = some (.block b) := by
  obtain ⟨x, found⟩ := Option.isSome_iff_exists.mp (inv.filled o inside singleBytes (Nat.zero_le _) (by omega))
  have path : dataPath o (singleBytes / BSIZE) = [o, NDIRECT + 1] ++ [0, 0] := rfl
  rw [dataBlock_eq_some, path, RefTree.descend_append] at found
  obtain ⟨node, above, -⟩ := Option.bind_eq_some_iff.mp found
  rw [descend_slot inside] at above ⊢
  by_cases missing : (s.inode o).addrs (NDIRECT + 1) = 0
  · rw [missing, Node.ofAddr_zero] at above
    cases above
  · exact ⟨_, Node.ofAddr_pos missing⟩

/-- A block of a file: one of its bytes, or an index block. -/
def Owns (s : Fs) (o b : Nat) : Prop := ∃ path ∈ Shape, [o] <+: path ∧ descend s.refs .root path = some (.block b)

/-- A removed file has only the blocks that `itrunc` forgot. -/
theorem owner_allocated (inv : s.Inv) (owns : s.Owns o b)
    (double : descend s.refs .root [o, NDIRECT + 1] = none) : s.view.file o ≠ none := by
  obtain ⟨path, inShape, ⟨rest, rfl⟩, found⟩ := owns
  have inside : o < s.sb.ninodes := by
    rw [RefTree.descend_append] at found
    obtain ⟨node, above, -⟩ := Option.bind_eq_some_iff.mp found
    rw [descend, refs_root] at above
    split at above
    · next inside => exact inside
    · cases above
  intro gone
  have none : (s.inode o).type = 0 := by
    by_contra typed
    rw [view_file inside typed] at gone
    cases gone
  obtain ⟨-, cleared⟩ := inv.freed o inside none
  cases rest with
  | nil =>
      rw [List.append_nil, descend, refs_root, if_pos inside] at found
      cases found
  | cons i rest =>
      have small : i < NADDRS := by
        rcases rest with - | ⟨j, - | ⟨k, - | ⟨l, rest⟩⟩⟩
        · exact inShape
        · have above : [o, i] ++ [j] ∈ Shape := inShape
          exact shape_closed above
        · have above : ([o, i] ++ [j]) ++ [k] ∈ Shape := inShape
          exact shape_closed (shape_closed above)
        · exact False.elim inShape
      have slot : descend s.refs .root [o, i] = Option.none := by
        by_cases low : i ≤ NDIRECT
        · rw [descend_slot inside, cleared i low, Node.ofAddr_zero]
        · have last : i = NDIRECT + 1 := by
            have count : NADDRS = NDIRECT + 2 := rfl
            omega
          rw [last, double]
      have split : [o] ++ i :: rest = [o, i] ++ rest := rfl
      rw [split, RefTree.descend_append, slot, Option.bind_none] at found
      cases found

/-- If no write reaches the blocks of `addrs[NDIRECT + 1]`, the data blocks in use are exactly those of files. -/
theorem used_iff_owned (inv : s.Inv) (obeys : s.view.Obeys calls) (ran : s.run calls = .ok (replies, s'))
    (nothing : s.lost = ∅) (noDouble : ∀ o, descend s.refs .root [o, NDIRECT + 1] = none)
    (low : ∀ {inum src off n}, .writei inum src off n ∈ calls → off + n ≤ singleBytes) :
    ∀ b, s'.sb.dataStart ≤ b → b < s'.sb.size →
      (s'.isUsed b = true ↔ ∃ o, s'.view.file o ≠ Option.none ∧ s'.Owns o b) := by
  obtain ⟨none', noDouble'⟩ : s'.lost = ∅ ∧ ∀ o, descend s'.refs .root [o, NDIRECT + 1] = Option.none := by
    refine run_induction (motive := fun s calls => s.lost = ∅ →
      (∀ o, descend s.refs .root [o, NDIRECT + 1] = Option.none) →
      (∀ {inum src off n}, .writei inum src off n ∈ calls → off + n ≤ singleBytes) →
      s'.lost = ∅ ∧ ∀ o, descend s'.refs .root [o, NDIRECT + 1] = Option.none) ?_ ?_ inv obeys ran nothing noDouble low
    · exact fun _ none noDouble _ => ⟨none, noDouble⟩
    · intro s s₁ c reply rest _ _ _ effects ih none noDouble low
      refine ih ?_ (fun o => ?_) fun member => low (List.mem_cons_of_mem _ member)
      · refine Set.eq_empty_of_forall_notMem fun b lost => ?_
        rcases (effects.lost b).mp lost with before | ⟨-, inum, -, -, path, -, ⟨i, member, rest', rfl⟩, found⟩
        · rw [none] at before
          exact before
        · rw [Finset.mem_singleton.mp member, RefTree.descend_append, noDouble inum, Option.bind_none] at found
          cases found
      · rcases effects.double o with same | ⟨inum, src, off, n, rfl, large⟩ | ⟨-, -, -, cleared⟩
        · rw [same, noDouble o]
        · have fits := low List.mem_cons_self
          omega
        · exact cleared
  have inv' := run_inv inv obeys ran
  intro b inData small
  constructor
  · intro used
    have inTree : .block b ∈ nodes s'.refs .root Shape := by
      by_contra notInTree
      have lost : b ∈ s'.lost := ⟨inData, small, used, notInTree⟩
      rw [none'] at lost
      exact lost
    obtain ⟨path, inShape, found⟩ := inTree
    cases path with
    | nil => cases found
    | cons o rest =>
        have owns : s'.Owns o b := ⟨o :: rest, inShape, List.prefix_append [o] rest, found⟩
        exact ⟨o, owner_allocated inv' owns (noDouble' o), owns⟩
  · rintro ⟨o, -, path, inShape, -, found⟩
    exact (inv'.sound.inData b ⟨path, inShape, found⟩).2.2

/-! ## A new file system -/

/-- Blocks of zeros. -/
def blank (sb : Superblock) : Fs := ⟨sb, fun _ _ => 0, fun _ => ⟨0, false, .ofWords fun _ => 0⟩⟩

/-- An image without files: the blocks in front of the data blocks are marked as used. -/
def formatted (sb : Superblock) : Fs := (List.range sb.dataStart).foldl (fun s b => s.setUsed b true) (blank sb)

section Formatted

variable {sb : Superblock} (layout : sb.Layout)

/-- Marking blocks changes nothing but their bits. -/
theorem mark_range (layout : s.sb.Layout) {count : Nat} (few : count ≤ s.sb.size) :
    ((List.range count).foldl (fun s b => s.setUsed b true) s).sb = s.sb ∧
      ((List.range count).foldl (fun s b => s.setUsed b true) s).icache = s.icache ∧
      (∀ x, ((List.range count).foldl (fun s b => s.setUsed b true) s).isUsed x =
        if x < count then true else s.isUsed x) ∧
      ∀ o < s.sb.ninodes, ((List.range count).foldl (fun s b => s.setUsed b true) s).dinode o = s.dinode o := by
  induction count with
  | zero => simp
  | succ count ih =>
      obtain ⟨sb, icache, isUsed, dinode⟩ := ih (by omega)
      rw [List.range_succ, List.foldl_append, List.foldl_cons, List.foldl_nil]
      generalize (List.range count).foldl (fun s b => s.setUsed b true) s = s₁ at sb icache isUsed dinode
      refine ⟨sb, icache, fun x => ?_, fun o inside => ?_⟩
      · rw [isUsed_setUsed, isUsed]
        by_cases same : x = count
        · rw [if_pos same, if_pos (by omega)]
        · rw [if_neg same]
          exact if_congr (by omega) rfl rfl
      · rw [dinode_setUsed (sb ▸ layout) (sb ▸ few) (sb ▸ inside), dinode o inside]

include layout

/-- What a new file system consists of. -/
theorem formatted_state : (formatted sb).sb = sb ∧
    (∀ o, (formatted sb).icache o = ⟨0, false, .ofWords fun _ => 0⟩) ∧
    (∀ x, (formatted sb).isUsed x = decide (x < sb.dataStart)) ∧
    ∀ o < sb.ninodes, (formatted sb).inode o = .ofWords fun _ => 0 := by
  obtain ⟨sb_eq, icache, isUsed, dinode⟩ := mark_range (s := blank sb) layout
    (show sb.dataStart ≤ sb.size from Nat.sub_le ..)
  refine ⟨sb_eq, fun o => congrFun icache o, fun x => ?_, fun o inside => ?_⟩
  · refine (isUsed x).trans ?_
    by_cases below : x < sb.dataStart
    · rw [if_pos below, decide_eq_true below]
    · rw [if_neg below, decide_eq_false below]
      simp [Fs.isUsed, blank, Bytes.bit, Bytes.byte]
  · have invalid : ((formatted sb).icache o).valid = false := congrArg Icache.valid (congrFun icache o)
    unfold Fs.inode
    rw [invalid, if_neg Bool.false_ne_true]
    refine (dinode o inside).trans ?_
    unfold Fs.dinode blank
    simp only [word_zero]

/-- There are no blocks in the trees of the files. -/
theorem formatted_descend {path : List Nat} {node : Node} (found : descend (formatted sb).refs .root path = some node) :
    (path = [] ∧ node = .root) ∨ ∃ o, path = [o] ∧ node = .inode o := by
  obtain ⟨sb_eq, -, -, inode⟩ := formatted_state layout
  induction path using List.reverseRecOn generalizing node with
  | nil =>
      cases found
      exact .inl ⟨rfl, rfl⟩
  | append_singleton before i ih =>
      rw [RefTree.descend_concat] at found
      obtain ⟨last, above, reference⟩ := Option.bind_eq_some_iff.mp found
      rcases ih above with ⟨rfl, rfl⟩ | ⟨o, rfl, rfl⟩
      · rw [refs_root] at reference
        split at reference
        · cases reference
          exact .inr ⟨i, rfl, rfl⟩
        · cases reference
      · have inside := inode_inside above
        rw [refs_inode, inode o (sb_eq ▸ inside)] at reference
        have nothing : (Dinode.ofWords fun _ => 0).addrs i = 0 := ite_self _
        rw [nothing, Node.ofAddr_zero] at reference
        cases reference

/-- It has no blocks below its inodes. -/
theorem formatted_noBlock {path : List Nat} : descend (formatted sb).refs .root path ≠ some (.block b) := by
  intro found
  rcases formatted_descend layout found with ⟨-, same⟩ | ⟨o, -, same⟩ <;> cases same

/-- A new file system is sound, -/
theorem formatted_inv : (formatted sb).Inv := by
  obtain ⟨sb_eq, icache, isUsed, inode⟩ := formatted_state layout
  have inode {o : Nat} (inside : o < (formatted sb).sb.ninodes) := inode o (sb_eq ▸ inside)
  have invalid {o : Nat} (valid : ((formatted sb).icache o).valid = true) : False := by
    rw [icache] at valid
    cases valid
  constructor
  · constructor
    · rw [sb_eq]
      exact layout
    · intro x below
      rw [sb_eq] at below
      rw [isUsed, decide_eq_true below]
    · intro path _ path' _ node found found'
      rcases formatted_descend layout found with ⟨rfl, rfl⟩ | ⟨o, rfl, rfl⟩ <;>
        rcases formatted_descend layout found' with ⟨rfl, same⟩ | ⟨o', rfl, same⟩ <;> cases same <;> rfl
    · rintro x ⟨path, -, found⟩
      exact absurd found (formatted_noBlock layout)
  · exact fun o _ valid => (invalid valid).elim
  · exact fun o _ valid => (invalid valid).elim
  · intro o inside
    rw [inode inside]
    exact Nat.zero_le _
  · intro o inside k _ below
    rw [inode inside] at below
    exact absurd below (Nat.not_lt_zero k)
  · intro o inside _
    rw [inode inside]
    exact ⟨rfl, fun i _ => ite_self _⟩

/-- has lost nothing, -/
theorem formatted_lost : (formatted sb).lost = ∅ := by
  obtain ⟨sb_eq, -, isUsed, -⟩ := formatted_state layout
  refine Set.eq_empty_of_forall_notMem fun b lost => ?_
  obtain ⟨inData, -, used, -⟩ := lost
  rw [isUsed, decide_eq_true_iff] at used
  rw [sb_eq] at inData
  omega

/-- All data blocks are free. -/
theorem formatted_free : (formatted sb).freeBlocks.card = sb.size - sb.dataStart := by
  obtain ⟨sb_eq, -, isUsed, -⟩ := formatted_state layout
  have free : (formatted sb).freeBlocks = Finset.Ico sb.dataStart sb.size := by
    ext x
    rw [freeBlocks, Finset.mem_filter, Finset.mem_range, Finset.mem_Ico, sb_eq, isUsed,
      decide_eq_false_iff_not, not_lt, and_comm]
  rw [free, Nat.card_Ico]

/-- and no inode refers to double-indirect blocks. -/
theorem formatted_noDouble (o : Nat) : descend (formatted sb).refs .root [o, NDIRECT + 1] = none := by
  cases found : descend (formatted sb).refs .root [o, NDIRECT + 1] with
  | none => rfl
  | some node => rcases formatted_descend layout found with ⟨same, -⟩ | ⟨o, same, -⟩ <;> simp at same

end Formatted

end Fs

/-- No files. -/
def Files.empty (ninodes : Nat) : Files := ⟨ninodes, fun _ => none, fun _ => 0, fun _ => false⟩

/-- Its table is empty. -/
theorem Fs.formatted_view {sb : Superblock} (layout : sb.Layout) : (formatted sb).view = .empty sb.ninodes := by
  obtain ⟨sb_eq, icache, -, inode⟩ := formatted_state layout
  refine Files.eq (congrArg Superblock.ninodes sb_eq) (funext fun o => if_neg ?_) (fun o => ?_) (fun o => ?_)
  · rintro ⟨inside, typed⟩
    rw [inode o (sb_eq ▸ inside)] at typed
    exact typed rfl
  · show ((formatted sb).icache o).ref = 0
    rw [icache]
  · show (((formatted sb).icache o).valid && _) = false
    rw [icache]
    rfl

/-- The first part of a run. -/
theorem Files.Obeys.left {a : Files} {before after : List FsCall} (obeys : a.Obeys (before ++ after)) :
    a.Obeys before := by
  induction before generalizing a with
  | nil => trivial
  | cons c before ih =>
      obtain ⟨allowed, obeys⟩ := obeys
      refine ⟨allowed, ?_⟩
      cases called : a.call c with
      | error fault => trivial
      | ok reached =>
          rw [called] at obeys
          exact ih obeys

/-- The second part of a run, from where the first one ends. -/
theorem Files.Obeys.right {a a₁ : Files} {before after : List FsCall} {replies : List FsReply}
    (obeys : a.Obeys (before ++ after)) (ran : a.run before = .ok (replies, a₁)) : a₁.Obeys after := by
  induction before generalizing a replies with
  | nil =>
      cases ran
      exact obeys
  | cons c before ih =>
      obtain ⟨-, obeys⟩ := obeys
      obtain ⟨⟨reply, a₂⟩, called, ran⟩ := bind_ok.mp ran
      obtain ⟨⟨more, a₃⟩, second, same⟩ := bind_ok.mp ran
      cases same
      rw [called] at obeys
      exact ih obeys second

instance Files.decObeys (a : Files) : (calls : List FsCall) → Decidable (a.Obeys calls)
  | [] => .isTrue trivial
  | c :: rest =>
      have : Decidable (match a.call c with
          | .ok (_, a') => a'.Obeys rest
          | .error _ => True) :=
        match a.call c with
        | .ok (_, a') => a'.decObeys rest
        | .error _ => .isTrue trivial
      inferInstanceAs (Decidable (_ ∧ _))

namespace Fs

/-- A disk whose first ten blocks are the super block, the log, the inodes and the free map. -/
def smallDisk (size : Nat) : Superblock := ⟨size, size - 10, 32, 3, 5⟩

/-- The areas lie one behind the other. -/
theorem smallDisk_layout {size : Nat} (above : 10 < size) (below : size ≤ BPB) : (smallDisk size).Layout := by
  have bits : BPB = 8192 := rfl
  have perBlock : IPB = 16 := rfl
  have start : (smallDisk size).dataStart = 10 := by
    show size - (size - 10) = 10
    omega
  have bitmap {b : Nat} (small : b < size) : (smallDisk size).BBLOCK b = 5 := by
    show b / BPB + 5 = 5
    rw [bits] at below ⊢
    omega
  have inodes {inum : Nat} (small : inum < 32) : (smallDisk size).IBLOCK inum < 5 := by
    show inum / IPB + 3 < 5
    rw [perBlock]
    omega
  refine ⟨?_, by omega, fun b small => ?_, fun inum small => ?_, fun b small inum small' => ?_⟩
  · show size < 2 ^ 32
    omega
  · rw [bitmap small]
    omega
  · have low := inodes small
    omega
  · have low := inodes small'
    rw [bitmap small]
    omega

/-- What an empty disk with room for a run returns is what the table of files returns. -/
theorem formatted_ran {size : Nat} (above : 10 < size) (below : size ≤ BPB)
    (obeys : (Files.empty 32).Obeys calls) (enough : (calls.map FsCall.cost).sum ≤ size - 10)
    (returns : ((Files.empty 32).run calls).toOption.map Prod.fst = some replies) :
    ∃ s', (formatted (smallDisk size)).run calls = .ok (replies, s') ∧
      (formatted (smallDisk size)).view.Obeys calls ∧ (Files.empty 32).run calls = .ok (replies, s'.view) := by
  have layout := smallDisk_layout above below
  have inv := formatted_inv layout
  have view : (formatted (smallDisk size)).view = .empty 32 := formatted_view layout
  have free : (formatted (smallDisk size)).freeBlocks.card = size - 10 := by
    rw [formatted_free layout]
    show size - (size - (size - 10)) = size - 10
    omega
  cases ran : (Files.empty 32).run calls with
  | error fault =>
      rw [ran] at returns
      cases returns
  | ok reached =>
      obtain ⟨replies', a⟩ := reached
      rw [ran] at returns
      cases returns
      rw [← view] at obeys ran
      obtain ⟨s', ran'⟩ := run_enough inv obeys (free ▸ enough) ran
      refine ⟨s', ran', obeys, ?_⟩
      rw [← ran]
      exact ((run_refines calls inv obeys).returns ran').2

/-- The size of a file that has been written once. -/
theorem written_size {s : Fs} {o n : Nat} {file : FileData} (found : s.view.file o = some file)
    (content : file.content = (Files.write [] (List.replicate n 7) 0 n).2) (fits : n ≤ MAXFILE * BSIZE) :
    o < s.sb.ninodes ∧ (s.inode o).size = n := by
  have largest : MAXFILE * BSIZE = 67382272 := rfl
  have whole : n ≤ (List.replicate n (7 : UInt8)).length := List.length_replicate.ge
  obtain ⟨inside, size⟩ := view_size found
  refine ⟨inside, ?_⟩
  rw [size, content]
  unfold Files.write
  rw [if_neg (by rw [List.length_nil]; omega)]
  show (Files.overwrite [] 0 _ (writeEnd 0 n _)).length = n
  unfold Files.overwrite writeEnd
  rw [if_pos whole, List.length_map, List.length_range, List.length_nil, Nat.zero_max, Nat.zero_add]

/-! Two files, of which the first is larger than its direct blocks. -/

/-- A file is created and written. -/
def created (src : List UInt8) (n : Nat) : List FsCall := [.ialloc 2, .ilock 1, .writei 1 src 0 n]

/-- The file gets a name. A second one is created, written and read, and the inode of the first is put. -/
def twoFiles (src : List UInt8) (n : Nat) : List FsCall :=
  created src n ++ [.update 1 0 0 1, .ialloc 2, .ilock 2, .writei 2 [104, 105] 0 2, .readi 2 9 1 4, .iput 1]

def session : List FsCall := twoFiles (List.replicate 12288 7) 12288

def sessionReplies : List FsReply :=
  [⟨1, []⟩, .void, ⟨12288, []⟩, .void, ⟨2, []⟩, .void, ⟨2, []⟩, ⟨1, [105]⟩, .void]

theorem created_size {s : Fs} {n : Nat} {replies : List FsReply}
    (view : (Files.empty 32).run (created (List.replicate n 7) n) = .ok (replies, s.view))
    (fits : n ≤ MAXFILE * BSIZE) : 1 < s.sb.ninodes ∧ (s.inode 1).size = n := by
  have file : ((Files.empty 32).run (created (List.replicate n 7) n)).toOption.bind
      (fun reached => reached.2.file 1) = some ⟨2, 0, 0, 0, (Files.write [] (List.replicate n 7) 0 n).2⟩ := rfl
  rw [view] at file
  exact written_size file rfl fits

theorem twoFiles_size {s : Fs} {n : Nat} {replies : List FsReply}
    (view : (Files.empty 32).run (twoFiles (List.replicate n 7) n) = .ok (replies, s.view))
    (fits : n ≤ MAXFILE * BSIZE) : 1 < s.sb.ninodes ∧ (s.inode 1).size = n := by
  have file : ((Files.empty 32).run (twoFiles (List.replicate n 7) n)).toOption.bind
      (fun reached => reached.2.file 1) = some ⟨2, 0, 0, 1, (Files.write [] (List.replicate n 7) 0 n).2⟩ := rfl
  rw [view] at file
  exact written_size file rfl fits

/-- The session is run by the table, and by the file system, which agrees with it. -/
theorem session_ran : ∃ s', (formatted (smallDisk 60)).run session = .ok (sessionReplies, s') ∧
    (formatted (smallDisk 60)).view.Obeys session ∧
    (Files.empty 32).run session = .ok (sessionReplies, s'.view) :=
  formatted_ran (by decide) (by decide) (by decide +kernel) (by decide) (by decide +kernel)

/-- Two files are written, one of them with an indirect block, and read. -/
theorem session_refines : RunAgrees (formatted (smallDisk 60)) session ∧
    ∃ s', (formatted (smallDisk 60)).run session = .ok (sessionReplies, s') := by
  obtain ⟨s', ran, obeys, -⟩ := session_ran
  have layout := smallDisk_layout (by decide : 10 < 60) (by decide)
  exact ⟨run_refines session (formatted_inv layout) obeys, s', ran⟩

/-- Block 11 of the first file is one of the indirect block. -/
theorem session_separate : ∃ s' b b', (formatted (smallDisk 60)).run session = .ok (sessionReplies, s') ∧
    Separate (formatted (smallDisk 60)) s' session ∧ s'.dataBlock 1 11 = some b ∧ s'.dataBlock 2 0 = some b' := by
  obtain ⟨s', ran, obeys, view⟩ := session_ran
  have layout := smallDisk_layout (by decide : 10 < 60) (by decide)
  have separate := run_separate (formatted_inv layout) obeys ran
  have inv := run_inv (formatted_inv layout) obeys ran
  obtain ⟨inside, size⟩ := twoFiles_size view (by decide)
  have second : ((Files.empty 32).run session).toOption.any
      (fun reached => (reached.2.file 2).any fun file => file.content.length = 2) = true := by decide +kernel
  rw [view] at second
  have second : (s'.view.file 2).any (fun file => file.content.length = 2) = true := second
  obtain ⟨file, there, length⟩ := (Option.any_eq_true ..).mp second
  obtain ⟨inside', size'⟩ := view_size there
  rw [of_decide_eq_true length] at size'
  obtain ⟨b, found⟩ := Option.isSome_iff_exists.mp (inv.filled 1 inside 11264 (Nat.zero_le _) (by omega))
  obtain ⟨b', found'⟩ := Option.isSome_iff_exists.mp
    (inv.filled 2 inside' 0 le_rfl (by omega))
  exact ⟨s', b, b', ran, separate, found, found'⟩

/-- A file with a double indirect block is removed, and its inode is used again. -/
def reusing : List FsCall := created (List.replicate 274432 7) 274432 ++ [.iput 1, .ialloc 2]

/-- The table runs the calls as well. -/
theorem reusing_ran : ∃ s', (formatted (smallDisk 1000)).run reusing =
      .ok ([⟨1, []⟩, .void, ⟨274432, []⟩, .void, ⟨1, []⟩], s') ∧
    (formatted (smallDisk 1000)).view.Obeys reusing ∧
    (Files.empty 32).run reusing = .ok ([⟨1, []⟩, .void, ⟨274432, []⟩, .void, ⟨1, []⟩], s'.view) :=
  formatted_ran (by decide) (by decide) (by decide +kernel) (by decide) (by decide +kernel)

/-- The double indirect block is lost. -/
theorem reusing_lost : ∃ replies s' b, (formatted (smallDisk 1000)).run reusing = .ok (replies, s') ∧
    b ∉ (formatted (smallDisk 1000)).lost ∧ b ∈ s'.lost := by
  obtain ⟨s', ran, obeys, -⟩ := reusing_ran
  have layout := smallDisk_layout (by decide : 10 < 1000) (by decide)
  have inv := formatted_inv layout
  obtain ⟨earlier, s₁, later, first, second, same⟩ := run_append.mp ran
  obtain ⟨reply, s₂, more, put, third, rfl⟩ := run_cons.mp second
  obtain ⟨reply', s₃, more', alloc, rest, rfl⟩ := run_cons.mp third
  cases rest
  obtain ⟨inv₁, view₁⟩ := (run_refines _ inv obeys.left).returns first
  obtain ⟨allowed, -⟩ := obeys.right view₁
  have agrees := call_agrees inv₁ allowed
  rw [put] at agrees
  obtain ⟨-, -, effects⟩ := agrees
  -- The file that has been written has a double indirect block.
  rw [formatted_view layout] at view₁
  obtain ⟨inside, size⟩ := created_size view₁ (by decide)
  obtain ⟨b, found⟩ := inv₁.double inside (by rw [size]; decide)
  -- The removed file still has it.
  have kept : descend s₂.refs .root [1, NDIRECT + 1] = some (.block b) := by
    rcases effects.double 1 with same | ⟨_, _, _, _, write, -⟩ | ⟨_, alloc, -⟩
    · rw [same, found]
    · cases write
    · cases alloc
  have last : reply' = ⟨1, []⟩ := by simpa using (congrArg List.getLast? same).symm
  refine ⟨_, s', b, ran, by simp [formatted_lost layout], (lost_iff_reused inv obeys ran b).mpr (.inr
    ⟨created (List.replicate 274432 7) 274432 ++ [.iput 1], 2, [], earlier ++ [reply], s₂, 1, s', rfl, ?_, ?_, ?_⟩)⟩
  · exact run_append.mpr ⟨earlier, s₁, [reply], first, run_cons.mpr ⟨reply, s₂, [], put, rfl, rfl⟩, rfl⟩
  · rw [alloc, last]
    rfl
  · exact ⟨_, doublePath_mem 1, ⟨_, Finset.mem_singleton_self _, List.prefix_refl _⟩, kept⟩

/-- The second file is removed. What is in use then belongs to the first. -/
theorem session_owned : ∃ replies s', (formatted (smallDisk 60)).run (session ++ [.iput 2]) = .ok (replies, s') ∧
    s'.view.file 1 ≠ none ∧ s'.view.file 2 = none ∧ ∀ b, s'.sb.dataStart ≤ b → b < s'.sb.size →
      (s'.isUsed b = true ↔ ∃ o, s'.view.file o ≠ none ∧ s'.Owns o b) := by
  have layout := smallDisk_layout (by decide : 10 < 60) (by decide)
  have replies : ((Files.empty 32).run (session ++ [.iput 2])).toOption.map Prod.fst =
      some (sessionReplies ++ [.void]) := by decide +kernel
  have files : ((Files.empty 32).run (session ++ [.iput 2])).toOption.any (fun reached =>
      (reached.2.file 1).isSome && (reached.2.file 2).isNone) = true := by decide +kernel
  obtain ⟨s', ran, obeys, view⟩ :=
    formatted_ran (by decide : 10 < 60) (by decide) (by decide +kernel) (by decide) replies
  rw [view] at files
  obtain ⟨first, second⟩ := Bool.and_eq_true_iff.mp files
  refine ⟨_, s', ran, Option.isSome_iff_ne_none.mp first, Option.isNone_iff_eq_none.mp second,
    used_iff_owned (formatted_inv layout) obeys ran (formatted_lost layout) (formatted_noDouble layout) ?_⟩
  intro inum src off n member
  simp only [session, twoFiles, created, List.cons_append, List.nil_append, List.mem_cons, reduceCtorEq,
    FsCall.writei.injEq, List.not_mem_nil, or_false, false_or] at member
  rcases member with ⟨-, -, rfl, rfl⟩ | ⟨-, -, rfl, rfl⟩ <;> decide

end Fs

end Riscv2os.Xv7
