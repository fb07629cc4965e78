import Riscv2os.Xv7.FsInodes

/-!
# What `itrunc` frees

`itrunc` frees the direct blocks, the indirect block and the blocks that it refers to, and never fails. The tree
below `addrs[NDIRECT + 1]` stays in use.
-/

namespace Riscv2os.Xv7

open Riscv2os.Std
open RefTree (descend nodes Unshared)

namespace Fs

variable {s s' s₁ s₂ : Fs} {inum o b addr i : Nat} {cut cut' : Finset Nat}

/-- The inode without these references. -/
def clear (ip : Dinode) (cut : Finset Nat) : Dinode :=
  { ip with addrs := fun i => if i ∈ cut then 0 else ip.addrs i }

/-- A block is below one of these references of an inode. -/
def Below (s : Fs) (inum : Nat) (cut : Finset Nat) (x : Nat) : Prop :=
  ∃ path ∈ Shape, (∃ i ∈ cut, [inum, i] <+: path) ∧ descend s.refs .root path = some (.block x)

/-- The blocks below these references of an inode are freed, and the references cleared. -/
structure Cuts (inum : Nat) (cut : Finset Nat) (s s' : Fs) : Prop where
  sb : s'.sb = s.sb
  ref : ∀ o, (s'.icache o).ref = (s.icache o).ref
  valid : ∀ o, (s'.icache o).valid = (s.icache o).valid
  ip : s'.ip inum = clear (s.ip inum) cut
  other : ∀ o, o ≠ inum → s'.ip o = s.ip o
  dinode : ∀ o < s.sb.ninodes, s'.dinode o = s.dinode o
  block : ∀ x, s.sb.dataStart ≤ x → s'.block x = s.block x
  isUsed : ∀ x < s.sb.size, s'.isUsed x = true ↔ s.isUsed x = true ∧ ¬ s.Below inum cut x
  gone : ∀ {path}, path ∈ Shape → (∃ i ∈ cut, [inum, i] <+: path) → descend s'.refs .root path = none
  stays : ∀ {path}, path ∈ Shape → (¬ ∃ i ∈ cut, [inum, i] <+: path) →
    descend s'.refs .root path = descend s.refs .root path

namespace Cuts

theorem refl (inum : Nat) (s : Fs) : Cuts inum ∅ s s where
  sb := rfl
  ref _ := rfl
  valid _ := rfl
  ip := by simp [clear]
  other _ _ := rfl
  dinode _ _ := rfl
  block _ _ := rfl
  isUsed x _ := by simp [Below]
  gone _ through := by simp at through
  stays _ _ := rfl

theorem trans (first : Cuts inum cut s s₁) (second : Cuts inum cut' s₁ s') : Cuts inum (cut ∪ cut') s s' where
  sb := second.sb.trans first.sb
  ref o := (second.ref o).trans (first.ref o)
  valid o := (second.valid o).trans (first.valid o)
  ip := by
    rw [second.ip, first.ip, clear, clear, clear]
    have both : (fun i => if i ∈ cut' then 0 else if i ∈ cut then 0 else (s.ip inum).addrs i) =
        fun i => if i ∈ cut ∪ cut' then 0 else (s.ip inum).addrs i := by
      funext i
      by_cases early : i ∈ cut <;> by_cases late : i ∈ cut' <;> simp [early, late]
    simp only [both]
  other o apart := (second.other o apart).trans (first.other o apart)
  dinode o inside := (second.dinode o (first.sb ▸ inside)).trans (first.dinode o inside)
  block x inData := (second.block x (by rw [first.sb]; exact inData)).trans (first.block x inData)
  isUsed := by
    intro x inside
    rw [second.isUsed x (first.sb ▸ inside), first.isUsed x inside, and_assoc, ← not_or]
    refine and_congr_right fun _ => not_congr ⟨?_, ?_⟩
    · rintro (⟨path, inShape, ⟨i, member, through⟩, found⟩ | ⟨path, inShape, ⟨i, member, through⟩, found⟩)
      · exact ⟨path, inShape, ⟨i, Finset.mem_union_left _ member, through⟩, found⟩
      · have apart : ¬ ∃ i ∈ cut, [inum, i] <+: path := by
          intro early
          rw [first.gone inShape early] at found
          cases found
        rw [first.stays inShape apart] at found
        exact ⟨path, inShape, ⟨i, Finset.mem_union_right _ member, through⟩, found⟩
    · rintro ⟨path, inShape, ⟨i, member, through⟩, found⟩
      by_cases early : ∃ i ∈ cut, [inum, i] <+: path
      · exact .inl ⟨path, inShape, early, found⟩
      · rcases Finset.mem_union.mp member with inCut | inCut
        · exact absurd ⟨i, inCut, through⟩ early
        · rw [← first.stays inShape early] at found
          exact .inr ⟨path, inShape, ⟨i, inCut, through⟩, found⟩
  gone := by
    rintro path inShape ⟨i, member, through⟩
    by_cases late : ∃ i ∈ cut', [inum, i] <+: path
    · exact second.gone inShape late
    · rw [second.stays inShape late]
      refine first.gone inShape ⟨i, ?_, through⟩
      rcases Finset.mem_union.mp member with early | inCut
      · exact early
      · exact absurd ⟨i, inCut, through⟩ late
  stays := by
    intro path inShape apart
    have early : ¬ ∃ i ∈ cut, [inum, i] <+: path := fun ⟨i, member, through⟩ =>
      apart ⟨i, Finset.mem_union_left _ member, through⟩
    have late : ¬ ∃ i ∈ cut', [inum, i] <+: path := fun ⟨i, member, through⟩ =>
      apart ⟨i, Finset.mem_union_right _ member, through⟩
    rw [second.stays inShape late, first.stays inShape early]

section After

variable (cuts : Cuts inum cut s s') (sound : s.Sound)
include cuts sound

/-- The blocks that are not below the references that were cleared. -/
theorem mem_nodes {x : Nat} : .block x ∈ nodes s'.refs .root Shape ↔
    .block x ∈ nodes s.refs .root Shape ∧ ¬ s.Below inum cut x := by
  constructor
  · rintro ⟨path, inShape, found⟩
    have apart : ¬ ∃ i ∈ cut, [inum, i] <+: path := by
      intro through
      rw [cuts.gone inShape through] at found
      cases found
    rw [cuts.stays inShape apart] at found
    refine ⟨⟨path, inShape, found⟩, ?_⟩
    rintro ⟨path', inShape', through, found'⟩
    rw [sound.unshared inShape inShape' found found'] at apart
    exact apart through
  · rintro ⟨⟨path, inShape, found⟩, notBelow⟩
    refine ⟨path, inShape, ?_⟩
    rw [cuts.stays inShape fun through => notBelow ⟨path, inShape, through, found⟩, found]

/-- What is cut off is free, so the tree stays sound. -/
theorem sound_after : s'.Sound := by
  have fewer : ∀ {path node}, path ∈ Shape → descend s'.refs .root path = some node →
      descend s.refs .root path = some node := by
    intro path node inShape found
    by_cases through : ∃ i ∈ cut, [inum, i] <+: path
    · rw [cuts.gone inShape through] at found
      cases found
    · rwa [cuts.stays inShape through] at found
  constructor
  · exact cuts.sb ▸ sound.layout
  · intro x below
    rw [cuts.sb] at below
    rw [cuts.isUsed x (below.trans_le (Nat.sub_le ..))]
    refine ⟨sound.metaUsed x below, ?_⟩
    rintro ⟨path, inShape, -, found⟩
    have inData := (sound.inData x ⟨path, inShape, found⟩).1
    omega
  · exact sound.unshared.mono fewer
  · intro x inTree
    obtain ⟨before, notBelow⟩ := (cuts.mem_nodes sound).mp inTree
    obtain ⟨inData, inside, used⟩ := sound.inData x before
    rw [cuts.sb]
    exact ⟨inData, inside, (cuts.isUsed x inside).mpr ⟨used, notBelow⟩⟩

/-- Nothing that was freed is lost. -/
theorem lost : s'.lost = s.lost := by
  ext x
  simp only [Fs.lost, Set.mem_ofPred_eq, cuts.sb, cuts.mem_nodes sound]
  refine and_congr_right fun _ => and_congr_right fun inside => ?_
  rw [cuts.isUsed x inside]
  constructor
  · rintro ⟨⟨used, notBelow⟩, notInTree⟩
    exact ⟨used, fun inTree => notInTree ⟨inTree, notBelow⟩⟩
  · rintro ⟨used, notInTree⟩
    refine ⟨⟨used, ?_⟩, fun inTree => notInTree inTree.1⟩
    rintro ⟨path, inShape, -, found⟩
    exact notInTree ⟨path, inShape, found⟩

end After

end Cuts

/-! ## One reference -/

/-- Blocks are freed in the free map. -/
structure Frees (gone : Set Nat) (s s' : Fs) : Prop where
  sb : s'.sb = s.sb
  icache : s'.icache = s.icache
  dinode : ∀ o < s.sb.ninodes, s'.dinode o = s.dinode o
  block : ∀ x, s.sb.dataStart ≤ x → s'.block x = s.block x
  isUsed : ∀ x < s.sb.size, s'.isUsed x = true ↔ s.isUsed x = true ∧ x ∉ gone

theorem Frees.refl (s : Fs) : Frees ∅ s s where
  sb := rfl
  icache := rfl
  dinode _ _ := rfl
  block _ _ := rfl
  isUsed x _ := by simp

theorem Frees.trans {gone gone' : Set Nat} (first : Frees gone s s₁) (second : Frees gone' s₁ s') :
    Frees (gone ∪ gone') s s' where
  sb := second.sb.trans first.sb
  icache := second.icache.trans first.icache
  dinode o inside := (second.dinode o (first.sb ▸ inside)).trans (first.dinode o inside)
  block x inData := (second.block x (by rw [first.sb]; exact inData)).trans (first.block x inData)
  isUsed x inside := by
    rw [second.isUsed x (first.sb ▸ inside), first.isUsed x inside, Set.mem_union, not_or, and_assoc]

/-- `bfree` does not panic on a block that is used. -/
theorem bfree_ok (layout : s.sb.Layout) (small : b < s.sb.size) (used : s.isUsed b = true) :
    ∃ s', s.bfree b = .ok s' ∧ Frees {b} s s' := by
  refine ⟨s.setUsed b false, if_pos used, rfl, rfl, fun o inside => dinode_setUsed layout small inside,
    fun x inData => ?_, fun x _ => ?_⟩
  · have below := layout.bitmap b small
    unfold setUsed
    rw [block_setBlock, if_neg (by omega)]
  · rw [isUsed_setUsed, Set.mem_singleton_iff]
    by_cases same : x = b <;> simp [same]

/-- A reference is cleared, after the blocks below it have been freed. -/
theorem Frees.cuts {gone : Set Nat} (frees : Frees gone s s₁) (sound : s.Sound)
    (valid : (s.icache inum).valid = true) (inside : inum < s.sb.ninodes) (small : i < NADDRS)
    (below : ∀ x, x ∈ gone ↔ s.Below inum {i} x) :
    Cuts inum {i} s (s₁.setIp inum ((s₁.ip inum).setAddr i 0)) := by
  have valid₁ : (s₁.icache inum).valid = true := by rw [frees.icache, valid]
  have ip : s₁.ip = s.ip := by
    unfold Fs.ip
    rw [frees.icache]
  have inode (o : Nat) (inside : o < s.sb.ninodes) : s₁.inode o = s.inode o := by
    unfold Fs.inode
    rw [frees.icache, ip, frees.dinode o inside]
  have differs : RefTree.DiffersAt s.refs (s₁.setIp inum ((s₁.ip inum).setAddr i 0)).refs .root Shape [inum] i
      (.inode inum) := by
    refine ⟨shape_closed, sound.unshared, ?_, small, ?_⟩
    · rw [descend, refs_root, if_pos inside]
      rfl
    · intro before j last inShape found apart
      cases last with
      | root =>
          rw [refs_root, refs_root, ← frees.sb]
          rfl
      | block x =>
          have inData := (sound.inData x ⟨before, shape_closed inShape, found⟩).1
          rw [refs_block, refs_block, ← frees.block x inData]
          rfl
      | inode o =>
          rw [refs_inode, refs_inode, inode_setIp valid₁, inode o (inode_inside found)]
          by_cases same : o = inum
          · have different : j ≠ i := fun index => apart ⟨by rw [same], index⟩
            rw [if_pos same, addrs_setAddr, if_neg different, ip, same, inode_of_valid valid]
          · rw [if_neg same]
  have through {path : List Nat} : (∃ j ∈ ({i} : Finset Nat), [inum, j] <+: path) ↔ [inum] ++ [i] <+: path := by
    simp
  constructor
  · exact frees.sb
  · exact fun o => by rw [ref_setIp, frees.icache]
  · exact fun o => by rw [valid_setIp, frees.icache]
  · rw [ip_setIp, if_pos rfl, ip, Dinode.setAddr, clear]
    congr 1
    funext j
    rw [Function.update_apply]
    simp only [Finset.mem_singleton]
  · exact fun o apart => by rw [ip_setIp, if_neg apart, ip]
  · exact frees.dinode
  · exact frees.block
  · intro x within
    rw [← below x]
    exact frees.isUsed x within
  · intro path _ inCut
    refine differs.descend_cut ?_ (through.mp inCut)
    rw [refs_inode, inode_setIp valid₁, if_pos rfl, addrs_setAddr, if_pos rfl, Node.ofAddr_zero]
  · intro path inShape apart
    exact differs.descend_apart inShape fun inCut => apart (through.mpr inCut)

theorem descend_slot (inside : inum < s.sb.ninodes) (i : Nat) :
    descend s.refs .root [inum, i] = Node.ofAddr ((s.inode inum).addrs i) := by
  rw [descend, refs_root, if_pos inside, Option.bind_some, descend, refs_inode]
  cases Node.ofAddr ((s.inode inum).addrs i) <;> rfl

/-- There is nothing to clear. -/
theorem Cuts.vacant (none : (s.ip inum).addrs i = 0) (valid : (s.icache inum).valid = true)
    (inside : inum < s.sb.ninodes) : Cuts inum {i} s s := by
  have nothing {path : List Nat} (through : ∃ j ∈ ({i} : Finset Nat), [inum, j] <+: path) :
      descend s.refs .root path = Option.none := by
    obtain ⟨j, member, rest, rfl⟩ := through
    rw [Finset.mem_singleton] at member
    rw [RefTree.descend_append, descend_slot inside, inode_of_valid valid, member, none, Node.ofAddr_zero,
      Option.bind_none]
  have clear : s.ip inum = Fs.clear (s.ip inum) {i} := by
    unfold Fs.clear
    have same : (fun j => if j ∈ ({i} : Finset Nat) then 0 else (s.ip inum).addrs j) = (s.ip inum).addrs := by
      funext j
      split
      · next member => rw [Finset.mem_singleton.mp member, none]
      · rfl
    rw [same]
  refine ⟨rfl, fun _ => rfl, fun _ => rfl, clear, fun _ _ => rfl, fun _ _ => rfl, fun _ _ => rfl,
    fun x _ => ?_, fun _ => nothing, fun _ _ => rfl⟩
  rw [iff_self_and]
  rintro - ⟨path, -, through, found⟩
  rw [nothing through] at found
  cases found

/-- Nothing is below a direct block. -/
theorem below_direct {path : List Nat} (inShape : path ∈ Shape) (direct : i < NDIRECT)
    (through : [inum, i] <+: path) : path = [inum, i] := by
  obtain ⟨rest, rfl⟩ := through
  match rest, inShape with
  | [], _ => rfl
  | [j], inShape =>
      rcases inShape.1 with rfl | rfl
      · exact absurd direct (lt_irrefl _)
      · exact absurd direct (by decide)
  | [j, k], inShape =>
      rw [inShape.1] at direct
      exact absurd direct (by decide)
  | _ :: _ :: _ :: _, inShape => exact False.elim inShape

/-- Data blocks are below the indirect block. -/
theorem below_indirect {path : List Nat} (inShape : path ∈ Shape) (through : [inum, NDIRECT] <+: path) :
    path = [inum, NDIRECT] ∨ ∃ j < NINDIRECT, path = [inum, NDIRECT, j] := by
  obtain ⟨rest, rfl⟩ := through
  match rest, inShape with
  | [], _ => exact .inl rfl
  | [j], inShape => exact .inr ⟨j, inShape.2, rfl⟩
  | [j, k], inShape => exact absurd inShape.1 (by decide)
  | _ :: _ :: _ :: _, inShape => exact False.elim inShape

/-- A direct block is freed. -/
theorem truncDirect_cuts (sound : s.Sound) (valid : (s.icache inum).valid = true) (inside : inum < s.sb.ninodes)
    (direct : i < NDIRECT) : ∃ s', truncDirect inum s i = .ok s' ∧ Cuts inum {i} s s' := by
  have small : i < NADDRS := direct.trans (by decide)
  unfold truncDirect
  split
  · next some =>
      have found : descend s.refs .root [inum, i] = Option.some (.block ((s.ip inum).addrs i)) := by
        rw [descend_slot inside, inode_of_valid valid, Node.ofAddr_pos some]
      obtain ⟨-, fits, used⟩ := sound.inData _ ⟨_, small, found⟩
      obtain ⟨s₁, freed, frees⟩ := bfree_ok sound.layout fits used
      rw [freed, ok_bind]
      refine ⟨_, rfl, ?_⟩
      have ip : s₁.ip inum = s.ip inum := by
        unfold Fs.ip
        rw [frees.icache]
      rw [← ip] at frees
      refine frees.cuts sound valid inside small fun x => ?_
      rw [Set.mem_singleton_iff, ip]
      constructor
      · rintro rfl
        exact ⟨_, small, ⟨i, Finset.mem_singleton_self i, List.prefix_refl _⟩, found⟩
      · rintro ⟨path, inShape, ⟨j, member, through⟩, there⟩
        rw [Finset.mem_singleton.mp member] at through
        rw [below_direct inShape direct through, found] at there
        exact (Node.block.inj (Option.some.inj there)).symm
  · next none => exact ⟨s, rfl, .vacant (not_not.mp none) valid inside⟩

/-- The loop over the direct blocks. -/
theorem truncDirect_loop (rounds : List Nat) (sound : s.Sound) (valid : (s.icache inum).valid = true)
    (inside : inum < s.sb.ninodes) (direct : ∀ i ∈ rounds, i < NDIRECT) :
    ∃ s', rounds.foldlM (truncDirect inum) s = .ok s' ∧ Cuts inum rounds.toFinset s s' := by
  induction rounds generalizing s with
  | nil => exact ⟨s, rfl, .refl inum s⟩
  | cons i rounds ih =>
      rw [List.forall_mem_cons] at direct
      obtain ⟨s₁, ran, first⟩ := truncDirect_cuts sound valid inside direct.1
      obtain ⟨s', rest, second⟩ := ih (first.sound_after sound) ((first.valid inum).trans valid)
        (first.sb ▸ inside) direct.2
      refine ⟨s', ?_, ?_⟩
      · rw [List.foldlM_cons, ran, ok_bind, rest]
      · rw [List.toFinset_cons, Finset.insert_eq]
        exact first.trans second

/-- The entries of the indirect block are freed one after the other. -/
theorem indirect_loop (sound : s.Sound) (above : descend s.refs .root [inum, NDIRECT] = some (.block addr))
    {count : Nat} (few : count ≤ NINDIRECT) :
    ∃ s', (List.range count).foldlM (fun s (j : Nat) =>
        if (s.block addr).word j ≠ 0 then s.bfree ((s.block addr).word j) else .ok s) s = (.ok s' : Except Fault Fs) ∧
      Frees {x | ∃ j < count, x ≠ 0 ∧ x = (s.block addr).word j} s s' := by
  have small : NDIRECT < NADDRS := by decide
  have inData : s.sb.dataStart ≤ addr := (sound.inData addr ⟨_, (show [inum, NDIRECT] ∈ Shape from small), above⟩).1
  have entry (j : Nat) : descend s.refs .root [inum, NDIRECT, j] = Node.ofAddr ((s.block addr).word j) := by
    show descend s.refs .root ([inum, NDIRECT] ++ [j]) = _
    rw [RefTree.descend_concat, above, Option.bind_some, refs_block]
  have inShape {j : Nat} (small : j < NINDIRECT) : [inum, NDIRECT, j] ∈ Shape := ⟨.inl rfl, small⟩
  induction count with
  | zero =>
      refine ⟨s, rfl, ?_⟩
      have none : {x | ∃ j < 0, x ≠ 0 ∧ x = Bytes.word (s.block addr) j} = ∅ := by simp
      rw [none]
      exact .refl s
  | succ count ih =>
      obtain ⟨s₁, ran, frees⟩ := ih (by omega)
      have more : {x | ∃ j < count + 1, x ≠ 0 ∧ x = Bytes.word (s.block addr) j} =
          {x | ∃ j < count, x ≠ 0 ∧ x = Bytes.word (s.block addr) j} ∪
            {x | x ≠ 0 ∧ x = Bytes.word (s.block addr) count} := by
        ext x
        simp only [Set.mem_union, Set.mem_ofPred_eq, Nat.lt_succ_iff_lt_or_eq, or_and_right, exists_or,
          exists_eq_left]
      rw [List.range_succ, List.foldlM_append, ran, ok_bind, List.foldlM_cons, frees.block addr inData, more]
      by_cases none : (s.block addr).word count = 0
      · refine ⟨s₁, by rw [if_neg (not_not.mpr none)]; rfl, ?_⟩
        have nothing : {x | x ≠ 0 ∧ x = Bytes.word (s.block addr) count} = ∅ := by
          rw [none]
          simp
        rw [nothing, Set.union_empty]
        exact frees
      · have found : descend s.refs .root [inum, NDIRECT, count] = some (.block ((s.block addr).word count)) := by
          rw [entry, Node.ofAddr_pos none]
        obtain ⟨-, fits, used⟩ := sound.inData _ ⟨_, inShape few, found⟩
        have used₁ : s₁.isUsed ((s.block addr).word count) = true := by
          refine (frees.isUsed _ fits).mpr ⟨used, ?_⟩
          rintro ⟨j, earlier, -, same⟩
          -- The entries are different blocks.
          have found' : descend s.refs .root [inum, NDIRECT, j] = some (.block ((s.block addr).word count)) := by
            rw [entry, ← same, Node.ofAddr_pos none]
          have equal := sound.unshared (inShape (by omega : j < NINDIRECT)) (inShape few) found' found
          simp only [List.cons.injEq, true_and, and_true] at equal
          omega
        obtain ⟨s', freed, frees'⟩ := bfree_ok (frees.sb ▸ sound.layout) (frees.sb ▸ fits) used₁
        refine ⟨s', by rw [if_pos none, freed]; rfl, ?_⟩
        have one : {x | x ≠ 0 ∧ x = Bytes.word (s.block addr) count} = {Bytes.word (s.block addr) count} := by
          ext x
          simp only [Set.mem_ofPred_eq, Set.mem_singleton_iff, and_iff_right_iff_imp]
          rintro rfl
          exact none
        rw [one]
        exact frees.trans frees'

/-- The indirect block is freed, and the blocks that it refers to. -/
theorem truncIndirect_cuts (sound : s.Sound) (valid : (s.icache inum).valid = true)
    (inside : inum < s.sb.ninodes) : ∃ s', truncIndirect inum s = .ok s' ∧ Cuts inum {NDIRECT} s s' := by
  have small : NDIRECT < NADDRS := by decide
  unfold truncIndirect
  simp only
  split
  · next some =>
      generalize address : (s.ip inum).addrs NDIRECT = addr at some
      have above : descend s.refs .root [inum, NDIRECT] = Option.some (.block addr) := by
        rw [descend_slot inside, inode_of_valid valid, address, Node.ofAddr_pos some]
      have entry (j : Nat) : descend s.refs .root [inum, NDIRECT, j] = Node.ofAddr ((s.block addr).word j) := by
        show descend s.refs .root ([inum, NDIRECT] ++ [j]) = _
        rw [RefTree.descend_concat, above, Option.bind_some, refs_block]
      have inShape : [inum, NDIRECT] ∈ Shape := small
      obtain ⟨s₁, ran, frees⟩ := indirect_loop sound above le_rfl
      obtain ⟨-, fits, used⟩ := sound.inData _ ⟨_, inShape, above⟩
      have used₁ : s₁.isUsed addr = true := by
        refine (frees.isUsed _ fits).mpr ⟨used, ?_⟩
        rintro ⟨j, within, positive, same⟩
        have found : descend s.refs .root [inum, NDIRECT, j] = Option.some (.block addr) := by
          rw [entry, ← same, Node.ofAddr_pos positive]
        have inShape' : [inum, NDIRECT, j] ∈ Shape := ⟨.inl rfl, within⟩
        have equal := sound.unshared inShape' inShape found above
        simp at equal
      obtain ⟨s₂, freed, frees'⟩ := bfree_ok (frees.sb ▸ sound.layout) (frees.sb ▸ fits) used₁
      rw [ran, ok_bind, freed, ok_bind]
      refine ⟨_, rfl, ?_⟩
      refine (frees.trans frees').cuts sound valid inside small fun x => ?_
      constructor
      · rintro (⟨j, within, positive, same⟩ | only)
        · refine ⟨[inum, NDIRECT, j], ⟨.inl rfl, within⟩, ⟨NDIRECT, Finset.mem_singleton_self _, ?_⟩, ?_⟩
          · exact List.prefix_append [inum, NDIRECT] [j]
          · rw [entry, ← same, Node.ofAddr_pos positive]
        · rw [Set.mem_singleton_iff.mp only]
          exact ⟨_, inShape, ⟨NDIRECT, Finset.mem_singleton_self _, List.prefix_refl _⟩, above⟩
      · rintro ⟨path, inShape', ⟨i, member, through⟩, found⟩
        rw [Finset.mem_singleton.mp member] at through
        rcases below_indirect inShape' through with rfl | ⟨j, within, rfl⟩
        · rw [above] at found
          exact .inr (Node.block.inj (Option.some.inj found)).symm
        · rw [entry, Node.ofAddr] at found
          split at found
          · cases found
          · next positive =>
              cases found
              exact .inl ⟨j, within, positive, rfl⟩
  · next none => exact ⟨s, rfl, .vacant (not_not.mp none) valid inside⟩

/-! ## The call -/

/-- The references that `itrunc` clears: all but the last. -/
def truncated : Finset Nat := Finset.range (NDIRECT + 1)

/-- What `itrunc` does. -/
structure Truncates (inum : Nat) (s s' : Fs) : Prop where
  sound : s'.Sound
  sb : s'.sb = s.sb
  ref : ∀ o, (s'.icache o).ref = (s.icache o).ref
  valid : ∀ o, (s'.icache o).valid = (s.icache o).valid
  ip : s'.ip inum = { clear (s.ip inum) truncated with size := 0 }
  synced : s'.dinode inum = s'.ip inum
  other : ∀ o, o ≠ inum → s'.ip o = s.ip o
  dinode : ∀ o < s.sb.ninodes, o ≠ inum → s'.dinode o = s.dinode o
  block : ∀ x, s.sb.dataStart ≤ x → s'.block x = s.block x
  isUsed : ∀ x < s.sb.size, s'.isUsed x = true ↔ s.isUsed x = true ∧ ¬ s.Below inum truncated x
  gone : ∀ {path}, path ∈ Shape → (∃ i ∈ truncated, [inum, i] <+: path) → descend s'.refs .root path = none
  stays : ∀ {path}, path ∈ Shape → (¬ ∃ i ∈ truncated, [inum, i] <+: path) →
    descend s'.refs .root path = descend s.refs .root path
  lost : s'.lost = s.lost

/-- Blocks that are free stay free. -/
theorem Truncates.free (truncates : Truncates inum s s') : s.freeBlocks ⊆ s'.freeBlocks := by
  intro x member
  obtain ⟨inside, free⟩ := Finset.mem_filter.mp member
  refine Finset.mem_filter.mpr ⟨truncates.sb ▸ inside, ?_⟩
  by_contra used
  rw [((truncates.isUsed x (Finset.mem_range.mp inside)).mp (Bool.not_eq_false _ ▸ used)).1] at free
  cases free

theorem Fits_clear {ip : Dinode} (fits : ip.Fits) (cut : Finset Nat) : (clear ip cut).Fits where
  size := fits.size
  addrs i := by
    show (if i ∈ cut then 0 else ip.addrs i) < 2 ^ 32
    split
    · decide
    · exact fits.addrs i
  beyond i large := by
    show (if i ∈ cut then 0 else ip.addrs i) = 0
    rw [fits.beyond i large, ite_self]

/-- `itrunc` never fails. -/
theorem itrunc_truncates (sound : s.Sound) (valid : (s.icache inum).valid = true) (inside : inum < s.sb.ninodes)
    (fits : (s.ip inum).Fits) : ∃ s', s.itrunc inum = .ok s' ∧ Truncates inum s s' := by
  obtain ⟨s₁, direct, cuts⟩ := truncDirect_loop (List.range NDIRECT) sound valid inside
    fun i member => List.mem_range.mp member
  obtain ⟨s₂, indirect, cuts'⟩ := truncIndirect_cuts (cuts.sound_after sound) ((cuts.valid inum).trans valid)
    (cuts.sb ▸ inside)
  have all := cuts.trans cuts'
  have union : (List.range NDIRECT).toFinset ∪ {NDIRECT} = truncated := by
    ext i
    simp only [truncated, Finset.mem_union, List.mem_toFinset, List.mem_range, Finset.mem_singleton,
      Finset.mem_range]
    omega
  rw [union] at all
  have sound₂ := all.sound_after sound
  have valid₂ : (s₂.icache inum).valid = true := (all.valid inum).trans valid
  have inside₂ : inum < s₂.sb.ninodes := all.sb ▸ inside
  generalize shrunk : s₂.setIp inum { s₂.ip inum with size := 0 } = s₃
  have ip₃ (o : Nat) : s₃.ip o = if o = inum then { s₂.ip inum with size := 0 } else s₂.ip o := by
    rw [← shrunk, ip_setIp]
  have valid₃ : (s₃.icache inum).valid = true := by rw [← shrunk, valid_setIp, valid₂]
  have sb₃ : s₃.sb = s.sb := by rw [← shrunk]; exact all.sb
  have same : SameFiles s₂ s₃ := shrunk ▸ setIp_sameFiles rfl valid₂
  have fits₃ : (s₃.ip inum).Fits := by
    rw [ip₃, if_pos rfl, all.ip]
    exact { Fits_clear fits truncated with size := Nat.two_pow_pos 32 }
  have same' : SameFiles s₂ (s₃.iupdate inum) :=
    same.trans (iupdate_sameFiles (sb₃ ▸ sound.layout) (sb₃ ▸ inside) valid₃)
  refine ⟨s₃.iupdate inum, ?_, ?_⟩
  · unfold itrunc
    rw [direct, ok_bind, indirect, ok_bind, ← shrunk]
  · exact {
      sound := same'.after sound₂
      sb := sb₃
      ref := fun o => by
        show (s₃.icache o).ref = _
        rw [← shrunk, ref_setIp, all.ref]
      valid := fun o => by
        show (s₃.icache o).valid = _
        rw [← shrunk, valid_setIp, all.valid]
      ip := by
        show s₃.ip inum = _
        rw [ip₃, if_pos rfl, all.ip]
      synced := by
        rw [dinode_iupdate fits₃, if_pos rfl]
        rfl
      other := fun o apart => by
        show s₃.ip o = _
        rw [ip₃, if_neg apart, all.other o apart]
      dinode := fun o within apart => by
        rw [dinode_iupdate fits₃, if_neg apart, ← shrunk]
        exact all.dinode o within
      block := fun x inData => (same'.block x (by rw [all.sb]; exact inData)).trans (all.block x inData)
      isUsed := fun x within => by rw [same'.isUsed x (all.sb ▸ within), all.isUsed x within]
      gone := fun inShape through => by rw [same'.descend sound₂ inShape, all.gone inShape through]
      stays := fun inShape apart => by rw [same'.descend sound₂ inShape, all.stays inShape apart]
      lost := by rw [same'.lost sound₂, all.lost sound] }

end Fs

end Riscv2os.Xv7
