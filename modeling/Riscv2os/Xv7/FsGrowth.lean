import Riscv2os.Xv7.FsTree

/-!
# How files grow

`bmap` finds the block of a file, and allocates the blocks on its path that are missing. Nothing that is in a file
changes: the blocks that it links are zero, and the bytes of a block that is missing count as zero.
-/

namespace Riscv2os.Xv7

open Riscv2os.Std
open RefTree (descend nodes Unshared)

namespace Fs

variable {s s' s₁ s₂ : Fs} {inum b addr : Nat} {path : List Nat} {i : Nat} {node : Node}

/-- The blocks that are not in use. -/
def freeBlocks (s : Fs) : Finset Nat := (Finset.range s.sb.size).filter fun b => s.isUsed b = false

/-- Of the inodes on disk and in memory only the addresses of `inum` in memory change. -/
structure KeepsInodes (inum : Nat) (s s' : Fs) : Prop where
  sb : s'.sb = s.sb
  ref : ∀ o, (s'.icache o).ref = (s.icache o).ref
  valid : ∀ o, (s'.icache o).valid = (s.icache o).valid
  ip : ∃ addrs, s'.ip inum = { s.ip inum with addrs := addrs } ∧ ∀ i, NADDRS ≤ i → addrs i = (s.ip inum).addrs i
  other : ∀ o, o ≠ inum → s'.ip o = s.ip o
  dinode : ∀ o < s.sb.ninodes, s'.dinode o = s.dinode o

theorem KeepsInodes.refl (inum : Nat) (s : Fs) : KeepsInodes inum s s where
  sb := rfl
  ref _ := rfl
  valid _ := rfl
  ip := ⟨_, rfl, fun _ _ => rfl⟩
  other _ _ := rfl
  dinode _ _ := rfl

theorem KeepsInodes.trans (first : KeepsInodes inum s s₁) (second : KeepsInodes inum s₁ s') :
    KeepsInodes inum s s' where
  sb := second.sb.trans first.sb
  ref o := (second.ref o).trans (first.ref o)
  valid o := (second.valid o).trans (first.valid o)
  ip := by
    obtain ⟨addrs, ip, beyond⟩ := first.ip
    obtain ⟨addrs', ip', beyond'⟩ := second.ip
    refine ⟨addrs', by rw [ip', ip], fun i large => ?_⟩
    rw [beyond' i large, ip]
    exact beyond i large
  other o apart := (second.other o apart).trans (first.other o apart)
  dinode o inside := (second.dinode o (first.sb ▸ inside)).trans (first.dinode o inside)

/-- Files grow: every block keeps its place, and new blocks of files are zero. -/
structure Grows (inum : Nat) (s s' : Fs) : Prop extends KeepsInodes inum s s' where
  kept : ∀ {path node}, path ∈ Shape → descend s.refs .root path = some node →
    descend s'.refs .root path = some node
  data : ∀ {path b}, path ∈ Shape → (∀ i, path ++ [i] ∉ Shape) → descend s'.refs .root path = some (.block b) →
    (descend s.refs .root path = some (.block b) ∧ s'.block b = s.block b) ∨
      (descend s.refs .root path = none ∧ s'.block b = fun _ => 0)
  lost : s'.lost = s.lost

theorem Grows.refl (inum : Nat) (s : Fs) : Grows inum s s where
  toKeepsInodes := .refl inum s
  kept _ found := found
  data _ _ found := .inl ⟨found, rfl⟩
  lost := rfl

theorem Grows.trans (first : Grows inum s s₁) (second : Grows inum s₁ s') : Grows inum s s' where
  toKeepsInodes := first.toKeepsInodes.trans second.toKeepsInodes
  kept inShape found := second.kept inShape (first.kept inShape found)
  data := by
    intro path b inShape last found
    rcases second.data inShape last found with ⟨before, same⟩ | ⟨before, zero⟩
    · rcases first.data inShape last before with ⟨start, same'⟩ | ⟨start, zero⟩
      · exact .inl ⟨start, same.trans same'⟩
      · exact .inr ⟨start, same.trans zero⟩
    · refine .inr ⟨?_, zero⟩
      cases start : descend s.refs .root path with
      | none => rfl
      | some node =>
          rw [first.kept inShape start] at before
          cases before
  lost := second.lost.trans first.lost

/-- The block at a path is found, after the blocks that were missing have been allocated. -/
structure Reaches (s : Fs) (inum : Nat) (path : List Nat) (addr : Nat) (count : Nat) (s' : Fs) : Prop where
  sound : s'.Sound
  grows : Grows inum s s'
  found : descend s'.refs .root path = some (.block addr)
  stays : descend s.refs .root path ≠ none → s' = s
  apart : ∀ {other}, other ∈ Shape → ¬ other <+: path → descend s'.refs .root other = descend s.refs .root other
  free : s.freeBlocks.card ≤ s'.freeBlocks.card + count

/-- A path below one that has been reached. -/
theorem Reaches.trans {count count' : Nat} (first : Reaches s inum path b count s₁)
    (second : Reaches s₁ inum (path ++ [i]) addr count' s') :
    Reaches s inum (path ++ [i]) addr (count + count') s' where
  sound := second.sound
  grows := first.grows.trans second.grows
  found := second.found
  stays := by
    intro there
    have above : descend s.refs .root path ≠ none := by
      intro none
      rw [RefTree.descend_concat, none] at there
      exact there rfl
    obtain rfl := first.stays above
    exact second.stays there
  apart := by
    intro other inShape apart
    rw [second.apart inShape apart, first.apart inShape fun before => apart (before.trans (List.prefix_append ..))]
  free := by
    have used := first.free
    have used' := second.free
    omega

/-! ## One reference -/

/-- Only the references of the root are inodes. -/
theorem inode_inside (found : descend s.refs .root path = some (.inode inum)) : inum < s.sb.ninodes := by
  induction path using List.reverseRecOn with
  | nil => cases found
  | append_singleton path i _ =>
      rw [RefTree.descend_concat] at found
      obtain ⟨last, -, reference⟩ := Option.bind_eq_some_iff.mp found
      cases last with
      | root =>
          rw [refs_root] at reference
          split at reference
          · next inside =>
              cases reference
              exact inside
          · cases reference
      | inode o =>
          rw [refs_inode, Node.ofAddr] at reference
          split at reference <;> cases reference
      | block x =>
          rw [refs_block, Node.ofAddr] at reference
          split at reference <;> cases reference

/-- The nodes of the trees have the same references after a block has been allocated. -/
theorem Allocates.refs (alloc : Allocates s b s₁) (sound : s.Sound) (inTree : node ∈ nodes s.refs .root Shape) :
    s₁.refs node = s.refs node := by
  funext j
  cases node with
  | root => rw [refs_root, refs_root, alloc.sb]
  | inode o =>
      obtain ⟨path, -, found⟩ := inTree
      have same : s₁.inode o = s.inode o := by
        unfold inode ip
        rw [alloc.icache, alloc.dinode o (inode_inside found)]
      rw [refs_inode, refs_inode, same]
  | block x =>
      obtain ⟨inData, -, used⟩ := sound.inData x inTree
      have apart : x ≠ b := by
        rintro rfl
        rw [alloc.free] at used
        cases used
      rw [refs_block, refs_block, alloc.block x inData apart]

theorem word_zero (j : Nat) : Bytes.word (fun _ => 0 : Block) j = 0 := by
  simp [Bytes.word, Bytes.byte]

/-- A block number is stored where `node` refers with the index `i`. -/
structure Stores (s₁ s₂ : Fs) (node : Node) (i b : Nat) : Prop where
  sb : s₂.sb = s₁.sb
  isUsed : ∀ x < s₁.sb.size, s₂.isUsed x = s₁.isUsed x
  block : ∀ x, .block x ≠ node → s₂.block x = s₁.block x
  linked : s₂.refs node i = some (.block b)
  kept : ∀ last j, (∀ o, last = .inode o → o < s₁.sb.ninodes) → ¬ (last = node ∧ j = i) →
    s₂.refs last j = s₁.refs last j

/-- One free block less. -/
theorem Allocates.free_after (alloc : Allocates s b s₁) (stores : Stores s₁ s₂ node i b) :
    s.freeBlocks.card ≤ s₂.freeBlocks.card + 1 := by
  have erased : s₂.freeBlocks = s.freeBlocks.erase b := by
    ext x
    simp only [freeBlocks, Finset.mem_filter, Finset.mem_range, Finset.mem_erase, stores.sb, alloc.sb]
    constructor
    · rintro ⟨inside, free⟩
      rw [stores.isUsed x (alloc.sb ▸ inside), alloc.isUsed x inside] at free
      split at free
      · cases free
      · next apart => exact ⟨apart, inside, free⟩
    · rintro ⟨apart, inside, free⟩
      refine ⟨inside, ?_⟩
      rw [stores.isUsed x (alloc.sb ▸ inside), alloc.isUsed x inside, if_neg apart, free]
  rw [erased]
  exact Nat.le_add_of_sub_le Finset.pred_card_le_card_erase

section Link

variable (sound : s.Sound) (alloc : Allocates s b s₁) (stores : Stores s₁ s₂ node i b)
  (above : descend s.refs .root path = some node) (inShape : path ++ [i] ∈ Shape)
  (vacant : s.refs node i = none)
include sound alloc stores above inShape vacant

/-- The block that was allocated is a new node of the tree. -/
theorem Allocates.links : RefTree.Links s.refs s₂.refs .root Shape path i node (.block b) := by
  have fresh : Node.block b ∉ nodes s.refs .root Shape := by
    intro inTree
    obtain ⟨-, -, used⟩ := sound.inData b inTree
    rw [alloc.free] at used
    cases used
  have inTree : node ∈ nodes s.refs .root Shape := ⟨path, shape_closed inShape, above⟩
  exact {
    closed := shape_closed
    unshared := sound.unshared
    above := above
    inShape := inShape
    kept := by
      intro before j last below found apart
      have reached : last ∈ nodes s.refs .root Shape := ⟨before, shape_closed below, found⟩
      have inside : ∀ o, last = .inode o → o < s₁.sb.ninodes := by
        rintro o rfl
        rw [alloc.sb]
        exact inode_inside found
      rw [stores.kept last j inside apart, alloc.refs sound reached]
    vacant := vacant
    fresh := fresh
    linked := stores.linked
    empty := by
      intro j
      have apart : ¬ (Node.block b = node ∧ j = i) := by
        rintro ⟨rfl, -⟩
        exact fresh inTree
      rw [stores.kept _ j (fun o other => by cases other) apart, refs_block, alloc.zero, word_zero, Node.ofAddr_zero] }

/-- A new block that is referred to once keeps the tree sound. -/
theorem Allocates.sound_after : s₂.Sound := by
  have links := alloc.links sound stores above inShape vacant
  have sb : s₂.sb = s.sb := stores.sb.trans alloc.sb
  have used : ∀ x < s.sb.size, s₂.isUsed x = if x = b then true else s.isUsed x := fun x inside =>
    (stores.isUsed x (alloc.sb ▸ inside)).trans (alloc.isUsed x inside)
  constructor
  · rw [sb]
    exact sound.layout
  · intro x below
    rw [sb] at below
    have inside : x < s.sb.size := below.trans_le (Nat.sub_le ..)
    rw [used x inside, sound.metaUsed x below, ite_self]
  · exact links.unshared_after
  · intro x inTree
    rw [links.nodes_eq] at inTree
    rw [sb]
    rcases inTree with new | old
    · cases new
      exact ⟨alloc.inData, alloc.small, by rw [used b alloc.small, if_pos rfl]⟩
    · obtain ⟨inData, inside, isUsed⟩ := sound.inData x old
      exact ⟨inData, inside, by rw [used x inside, isUsed, ite_self]⟩

/-- The blocks of files that are new are zero, and the others stay as they are. -/
theorem Allocates.data_after {other : List Nat} {x : Nat} (otherInShape : other ∈ Shape)
    (last : ∀ j, other ++ [j] ∉ Shape) (found : descend s₂.refs .root other = some (.block x)) :
    (descend s.refs .root other = some (.block x) ∧ s₂.block x = s.block x) ∨
      (descend s.refs .root other = none ∧ s₂.block x = fun _ => 0) := by
  have links := alloc.links sound stores above inShape vacant
  have notAbove {y : Nat} (there : descend s.refs .root other = some (.block y)) : Node.block y ≠ node := by
    rintro rfl
    have same := sound.unshared otherInShape (shape_closed inShape) there above
    exact last i (same ▸ inShape)
  rw [links.descend otherInShape] at found
  split at found
  · next new =>
      cases found
      refine .inr ⟨?_, ?_⟩
      · rw [new, RefTree.descend_concat, above, Option.bind_some, vacant]
      · have apart : Node.block b ≠ node := by
          rintro rfl
          exact links.fresh ⟨path, shape_closed inShape, above⟩
        rw [stores.block b apart, alloc.zero]
  · refine .inl ⟨found, ?_⟩
    have inTree : Node.block x ∈ nodes s.refs .root Shape := ⟨other, otherInShape, found⟩
    obtain ⟨inData, -, used⟩ := sound.inData x inTree
    have apart : x ≠ b := by
      rintro rfl
      rw [alloc.free] at used
      cases used
    rw [stores.block x (notAbove found), alloc.block x inData apart]

/-- The block that was allocated is not lost. -/
theorem Allocates.lost_after : s₂.lost = s.lost := by
  have links := alloc.links sound stores above inShape vacant
  have sb : s₂.sb = s.sb := stores.sb.trans alloc.sb
  ext x
  simp only [lost, Set.mem_ofPred_eq, sb, links.nodes_eq, Set.mem_insert_iff, not_or]
  refine and_congr_right fun _ => and_congr_right fun inside => ?_
  rw [stores.isUsed x (alloc.sb ▸ inside), alloc.isUsed x inside]
  by_cases new : x = b
  · simp [new, alloc.free]
  · simp [new]

/-- A block is allocated and linked. -/
theorem Allocates.reaches (keeps : KeepsInodes inum s s₂) : Reaches s inum (path ++ [i]) b 1 s₂ := by
  have links := alloc.links sound stores above inShape vacant
  exact {
    sound := alloc.sound_after sound stores above inShape vacant
    grows := {
      toKeepsInodes := keeps
      kept := fun inShape found => links.grows inShape found
      data := alloc.data_after sound stores above inShape vacant
      lost := alloc.lost_after sound stores above inShape vacant }
    found := by rw [links.descend inShape, if_pos rfl]
    stays := by
      intro there
      rw [RefTree.descend_concat, above, Option.bind_some, vacant] at there
      exact absurd rfl there
    apart := by
      intro other otherInShape apart
      rw [links.descend otherInShape, if_neg]
      rintro rfl
      exact apart (List.prefix_refl _)
    free := alloc.free_after stores }

end Link

/-! ## `bmap` -/

/-- The result of a search for a block: it is reached, or it was missing and there were too few blocks. -/
def Tries (s : Fs) (inum : Nat) (path : List Nat) (count : Nat) : Except Fault (Nat × Fs) → Prop
  | .ok (addr, s') => Reaches s inum path addr count s'
  | .error fault => fault = .panic "balloc: out of blocks" ∧ s.freeBlocks.card < count ∧
      descend s.refs .root path = none

/-- More free blocks can be asked for. -/
theorem Tries.mono {count more : Nat} {result : Except Fault (Nat × Fs)} (tries : Tries s inum path count result)
    (le : count ≤ more) : Tries s inum path more result := by
  cases result with
  | error fault => exact ⟨tries.1, tries.2.1.trans_le le, tries.2.2⟩
  | ok reached => exact { tries with free := tries.free.trans (Nat.add_le_add_left le _) }

/-- One level of `bmap`, and the next. -/
theorem Tries.bind {count count' : Nat} (inShape : path ++ [i] ∈ Shape) {first : Except Fault (Nat × Fs)}
    {second : Nat × Fs → Except Fault (Nat × Fs)} (one : Tries s inum path count first)
    (two : ∀ addr s₁, Reaches s inum path addr count s₁ →
      Tries s₁ inum (path ++ [i]) count' (second (addr, s₁))) :
    Tries s inum (path ++ [i]) (count + count') (first >>= second) := by
  cases first with
  | error fault =>
      obtain ⟨full, few, missing⟩ := one
      refine ⟨full, few.trans_le (Nat.le_add_right ..), ?_⟩
      rw [RefTree.descend_concat, missing, Option.bind_none]
  | ok reached =>
      obtain ⟨addr, s₁⟩ := reached
      have rest := two addr s₁ one
      show Tries s inum (path ++ [i]) (count + count') (second (addr, s₁))
      cases result : second (addr, s₁) with
      | error fault =>
          rw [result] at rest
          obtain ⟨full, few, missing⟩ := rest
          have used := one.free
          refine ⟨full, by omega, ?_⟩
          cases before : descend s.refs .root (path ++ [i]) with
          | none => rfl
          | some node =>
              rw [one.grows.kept inShape before] at missing
              cases missing
      | ok last =>
          rw [result] at rest
          exact one.trans rest

/-- `balloc` panics only if no block is free. -/
theorem Tries.balloc {next : Nat × Fs → Except Fault (Nat × Fs)}
    (linked : ∀ b s₁, Allocates s b s₁ → Tries s inum path 1 (next (b, s₁))) (sound : s.Sound)
    (missing : descend s.refs .root path = none) : Tries s inum path 1 (s.balloc >>= next) := by
  cases ran : s.balloc with
  | error fault =>
      obtain ⟨full, used⟩ := balloc_fails ran
      refine ⟨full, ?_⟩
      have none : s.freeBlocks = ∅ := by
        rw [freeBlocks, Finset.filter_eq_empty_iff]
        intro b member
        rw [used b (Finset.mem_range.mp member)]
        decide
      rw [none]
      exact ⟨Nat.one_pos, missing⟩
  | ok reached => exact linked _ _ (balloc_ok sound ran)

theorem icache_setIp (ip : Dinode) (inum o : Nat) : (s.setIp inum ip).icache o =
    if o = inum then { s.icache inum with inode := ip } else s.icache o :=
  Function.update_apply ..

theorem ip_setIp (ip : Dinode) (inum o : Nat) : (s.setIp inum ip).ip o = if o = inum then ip else s.ip o := by
  unfold Fs.ip
  rw [icache_setIp]
  split <;> rfl

theorem valid_setIp (ip : Dinode) (inum o : Nat) : ((s.setIp inum ip).icache o).valid = (s.icache o).valid := by
  rw [icache_setIp]
  split
  · next same => rw [same]
  · rfl

theorem ref_setIp (ip : Dinode) (inum o : Nat) : ((s.setIp inum ip).icache o).ref = (s.icache o).ref := by
  rw [icache_setIp]
  split
  · next same => rw [same]
  · rfl

theorem addrs_setAddr (ip : Dinode) (i addr j : Nat) :
    (ip.setAddr i addr).addrs j = if j = i then addr else ip.addrs j :=
  Function.update_apply ..

/-- An inode that has been read is in the cache. -/
theorem inode_of_valid (valid : (s.icache inum).valid = true) : s.inode inum = s.ip inum := if_pos valid

/-- The inode in memory is the one that counts. -/
theorem inode_setIp {ip : Dinode} (valid : (s.icache inum).valid = true) (o : Nat) :
    (s.setIp inum ip).inode o = if o = inum then ip else s.inode o := by
  unfold inode
  rw [valid_setIp, ip_setIp]
  by_cases same : o = inum
  · rw [if_pos same, if_pos same, same, if_pos valid]
  · rw [if_neg same, if_neg same]
    rfl

/-- A reference in an inode, which is made where there is none. -/
theorem bmapAddr_tries (sound : s.Sound) (valid : (s.icache inum).valid = true) (inside : inum < s.sb.ninodes)
    (small : i < NADDRS) : Tries s inum [inum, i] 1 (s.bmapAddr inum i) := by
  have above : descend s.refs .root [inum] = some (.inode inum) := by
    rw [descend, refs_root, if_pos inside]
    rfl
  have inShape : [inum] ++ [i] ∈ Shape := small
  have here : s.refs (.inode inum) i = Node.ofAddr ((s.ip inum).addrs i) := by
    rw [refs_inode, inode_of_valid valid]
  unfold bmapAddr
  split
  · next none =>
      have vacant : s.refs (.inode inum) i = Option.none := by rw [here, none, Node.ofAddr_zero]
      have unplaced : descend s.refs .root ([inum] ++ [i]) = Option.none := by
        rw [RefTree.descend_concat, above, Option.bind_some, vacant]
      refine Tries.balloc (fun b s₁ alloc => ?_) sound unplaced
      have positive : b ≠ 0 := by
        have start := sound.layout.positive
        have inData := alloc.inData
        omega
      have ip : s₁.ip = s.ip := by
        unfold Fs.ip
        rw [alloc.icache]
      have valid₁ : (s₁.icache inum).valid = true := by rw [alloc.icache, valid]
      have stores : Stores s₁ (s₁.setIp inum ((s₁.ip inum).setAddr i b)) (.inode inum) i b := by
        refine ⟨rfl, fun x _ => rfl, fun x _ => rfl, ?_, ?_⟩
        · rw [refs_inode, inode_setIp valid₁, if_pos rfl, addrs_setAddr, if_pos rfl, Node.ofAddr_pos positive]
        · intro last j _ apart
          cases last with
          | root => rfl
          | block x => rfl
          | inode o =>
              rw [refs_inode, refs_inode, inode_setIp valid₁]
              by_cases same : o = inum
              · have different : j ≠ i := fun index => apart ⟨by rw [same], index⟩
                rw [if_pos same, same, inode_of_valid valid₁, addrs_setAddr, if_neg different]
              · rw [if_neg same]
      have keeps : KeepsInodes inum s (s₁.setIp inum ((s₁.ip inum).setAddr i b)) := by
        refine ⟨alloc.sb, fun o => ?_, fun o => ?_, ⟨((s.ip inum).setAddr i b).addrs, ?_, fun j large => ?_⟩,
          fun o apart => ?_, alloc.dinode⟩
        · rw [ref_setIp, alloc.icache]
        · rw [valid_setIp, alloc.icache]
        · rw [ip_setIp, if_pos rfl, ip]
          rfl
        · rw [addrs_setAddr, if_neg (by omega)]
        · rw [ip_setIp, if_neg apart, ip]
      exact alloc.reaches sound stores above inShape vacant keeps
  · next some =>
      exact {
        sound := sound
        grows := .refl inum s
        found := by
          show descend s.refs .root ([inum] ++ [i]) = _
          rw [RefTree.descend_concat, above, Option.bind_some, here, Node.ofAddr_pos some]
        stays := fun _ => rfl
        apart := fun _ _ => rfl
        free := Nat.le_succ _ }

theorem inode_setBlock (layout : s.sb.Layout) {data : Block} (inData : s.sb.dataStart ≤ b)
    (inside : inum < s.sb.ninodes) : (s.setBlock b data).inode inum = s.inode inum := by
  unfold inode
  rw [dinode_setBlock layout inData inside]
  rfl

/-- The words of an index block. -/
theorem bmapEntry_tries (sound : s.Sound) (above : descend s.refs .root path = some (.block b))
    (inShape : path ++ [i] ∈ Shape) (small : i < NINDIRECT) : Tries s inum (path ++ [i]) 1 (s.bmapEntry b i) := by
  have room : 4 * i + 3 < BSIZE := by
    have size : BSIZE = 1024 := rfl
    rw [NINDIRECT_eq] at small
    omega
  unfold bmapEntry
  split
  · next none =>
      have vacant : s.refs (.block b) i = Option.none := by rw [refs_block, none, Node.ofAddr_zero]
      refine Tries.balloc (fun new s₁ alloc => ?_) sound (by
        rw [RefTree.descend_concat, above, Option.bind_some, vacant])
      have inData := alloc.inData
      have start := sound.layout.positive
      have fits : new % 2 ^ 32 = new := Nat.mod_eq_of_lt (alloc.small.trans sound.layout.small)
      obtain ⟨inData', -, -⟩ := sound.inData b ⟨path, shape_closed inShape, above⟩
      have layout₁ : s₁.sb.Layout := alloc.sb ▸ sound.layout
      have inData₁ : s₁.sb.dataStart ≤ b := by rw [alloc.sb]; exact inData'
      have stores : Stores s₁ (s₁.setBlock b ((s₁.block b).setWord i new)) (.block b) i new := by
        refine ⟨rfl, fun x inside => isUsed_setBlock layout₁ inData₁ inside, fun x apart => ?_, ?_, ?_⟩
        · rw [block_setBlock, if_neg fun same => apart (congrArg Node.block same)]
        · rw [refs_block, block_setBlock, if_pos rfl, Bytes.word_setWord_self _ _ _ room, fits,
            Node.ofAddr_pos (by omega)]
        · intro last j within apart
          cases last with
          | root => rfl
          | inode o =>
              rw [refs_inode, refs_inode, inode_setBlock layout₁ inData₁ (within o rfl)]
          | block x =>
              rw [refs_block, refs_block, block_setBlock]
              by_cases same : x = b
              · have different : j ≠ i := fun index => apart ⟨by rw [same], index⟩
                rw [if_pos same, same, Bytes.word_setWord_ne _ _ different]
              · rw [if_neg same]
      have inodes : ∀ o < s.sb.ninodes, (s₁.setBlock b ((s₁.block b).setWord i new)).dinode o = s.dinode o :=
        fun o within =>
          (dinode_setBlock layout₁ inData₁ (alloc.sb ▸ within)).trans (alloc.dinode o within)
      have icache : (s₁.setBlock b ((s₁.block b).setWord i new)).icache = s.icache := alloc.icache
      have ips : (s₁.setBlock b ((s₁.block b).setWord i new)).ip = s.ip := by
        unfold Fs.ip
        rw [icache]
      have keeps : KeepsInodes inum s (s₁.setBlock b ((s₁.block b).setWord i new)) := by
        refine ⟨alloc.sb, fun o => by rw [icache], fun o => by rw [icache], ?_, fun o _ => by rw [ips], inodes⟩
        exact ⟨(s.ip inum).addrs, by rw [ips], fun _ _ => rfl⟩
      exact alloc.reaches sound stores above inShape vacant keeps
  · next some =>
      exact {
        sound := sound
        grows := .refl inum s
        found := by rw [RefTree.descend_concat, above, Option.bind_some, refs_block, Node.ofAddr_pos some]
        stays := fun _ => rfl
        apart := fun _ _ => rfl
        free := Nat.le_succ _ }

/-- `bmap` on a block that a file can have. -/
theorem bmap_tries {bn : Nat} (sound : s.Sound) (valid : (s.icache inum).valid = true)
    (inside : inum < s.sb.ninodes) (small : bn < MAXFILE) :
    Tries s inum (dataPath inum bn) 3 (s.bmap inum bn) := by
  have inShape := dataPath_mem inum small
  unfold bmap
  unfold dataPath at inShape ⊢
  by_cases direct : bn < NDIRECT
  · rw [if_pos direct] at inShape ⊢
    rw [if_pos direct]
    exact (bmapAddr_tries sound valid inside inShape).mono (by decide)
  rw [if_neg direct] at inShape ⊢
  rw [if_neg direct]
  by_cases single : bn - NDIRECT < NINDIRECT
  · rw [if_pos single] at inShape ⊢
    rw [if_pos single]
    have first := bmapAddr_tries sound valid inside (by decide : NDIRECT < NADDRS)
    have entry : Tries s inum ([inum, NDIRECT] ++ [bn - NDIRECT]) (1 + 1)
        (s.bmapAddr inum NDIRECT >>= fun index => index.2.bmapEntry index.1 (bn - NDIRECT)) :=
      first.bind inShape fun addr s₁ reached =>
        bmapEntry_tries reached.sound reached.found inShape single
    exact entry.mono (by decide)
  · rw [if_neg single] at inShape ⊢
    rw [if_neg single, if_pos]
    · have first := bmapAddr_tries sound valid inside (by decide : NDIRECT + 1 < NADDRS)
      generalize (bn - NDIRECT - NINDIRECT) / NINDIRECT = j at inShape ⊢
      generalize (bn - NDIRECT - NINDIRECT) % NINDIRECT = k at inShape ⊢
      have table : Tries s inum ([inum, NDIRECT + 1] ++ [j]) (1 + 1)
          (s.bmapAddr inum (NDIRECT + 1) >>= fun index => index.2.bmapEntry index.1 j) :=
        first.bind (shape_closed inShape) fun addr s₁ reached =>
          bmapEntry_tries reached.sound reached.found (shape_closed inShape) inShape.2.1
      have entry : Tries s inum ([inum, NDIRECT + 1] ++ [j] ++ [k]) (1 + 1 + 1)
          (s.bmapAddr inum (NDIRECT + 1) >>= (fun index => index.2.bmapEntry index.1 j) >>=
            fun index => index.2.bmapEntry index.1 k) :=
        table.bind inShape fun addr s₁ reached =>
          bmapEntry_tries reached.sound reached.found inShape inShape.2.2
      rw [bind_assoc] at entry
      exact entry
    · have file : MAXFILE = NDIRECT + NINDIRECT + NDOUBLE_INDIRECT := rfl
      omega

end Fs

end Riscv2os.Xv7
