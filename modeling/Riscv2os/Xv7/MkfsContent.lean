import Mathlib.Algebra.Order.BigOperators.Group.Finset
import Mathlib.Data.List.GetD
import Riscv2os.Xv7.Mkfs

/-!
# The files of an image that is built

Chunks are appended to inodes in any order, from an image that has no file. All files take their blocks from
one counter, and an indirect block is allocated when a file grows over its direct blocks and is written again
with each of its entries.
-/

namespace Riscv2os.Xv7

open Riscv2os.Std

/-- How many inodes there is room for in the inode area. -/
def Format.inodeSlots : Nat := Format.ninodeblocks * IPB

namespace Image

/-- Calls of `iappend`, each with an inode and a chunk. -/
def appends (fmt : Format) (s : Image) (calls : List (Nat × List UInt8)) : Except Abort Image :=
  calls.foldlM (fun s call => s.iappend fmt call.1 call.2) s

/-- The chunks that are appended to an inode, one after another. -/
def chunks (calls : List (Nat × List UInt8)) (inum : Nat) : List UInt8 :=
  ((calls.filter fun call => call.1 = inum).map fun call => call.2).flatten

/-- The content of an inode: its blocks in order, cut at its size. -/
def content (fmt : Format) (s : Image) (inum : Nat) : List UInt8 :=
  (List.range (s.rinode inum).size).map fun k =>
    (s.sect (s.blockOf fmt (s.rinode inum) (.data (k / BSIZE)))).byte (k % BSIZE)

/-- There is no file in the image: the blocks are zero from the inode area on, and none is given away. -/
structure Zeroed (fmt : Format) (s : Image) : Prop where
  freeblock : s.freeblock = fmt.nmeta
  zero : ∀ b, Format.inodestart ≤ b → s.sect b = fun _ => 0

/-- The inodes are in the inode area, no file exceeds the largest size, and there are blocks for all files. -/
structure Room (fmt : Format) (calls : List (Nat × List UInt8)) : Prop where
  inodes : ∀ call ∈ calls, call.1 < Format.inodeSlots
  sizes : ∀ inum < Format.inodeSlots, (chunks calls inum).length ≤ fmt.MAXFILE * BSIZE
  blocks : fmt.nmeta + ∑ inum ∈ Finset.range Format.inodeSlots, need fmt (chunks calls inum).length ≤ fmt.FSSIZE

/-- What was built is what was appended: each inode has the content that was appended to it, its data blocks
and its indirect block are those that its size asks for, they are given to nothing else, and of the meta
blocks only the inodes have changed. -/
structure Faithful (fmt : Format) (s : Image) (calls : List (Nat × List UInt8)) (s' : Image) : Prop where
  content : ∀ inum < Format.inodeSlots, s'.content fmt inum = chunks calls inum
  needed : ∀ inum < Format.inodeSlots, ∀ place,
    s'.blockOf fmt (s'.rinode inum) place ≠ 0 ↔ place.Needed fmt (s'.rinode inum).size
  given : ∀ inum < Format.inodeSlots, ∀ place, s'.blockOf fmt (s'.rinode inum) place ≠ 0 →
    fmt.nmeta ≤ s'.blockOf fmt (s'.rinode inum) place ∧
      s'.blockOf fmt (s'.rinode inum) place < s'.freeblock
  distinct : ∀ inum < Format.inodeSlots, ∀ inum' < Format.inodeSlots, ∀ place place',
    s'.blockOf fmt (s'.rinode inum) place ≠ 0 →
    s'.blockOf fmt (s'.rinode inum) place = s'.blockOf fmt (s'.rinode inum') place' →
    inum = inum' ∧ place = place'
  freeblock : s'.freeblock =
    fmt.nmeta + ∑ inum ∈ Finset.range Format.inodeSlots, need fmt (chunks calls inum).length
  metaBlocks : ∀ b < fmt.nmeta, b < Format.inodestart ∨ Format.bmapstart ≤ b → s'.sect b = s.sect b

variable {fmt : Format} {s s' : Image} {inode : Nat → Dinode} {own : Nat × Place → Option Nat}
  {inum : Nat} {texts : Nat → List UInt8}

/-! ## The counter of inodes

`iappend` does not look at it, so an image can be seen with all inodes allocated. -/

/-- The image with another counter of inodes. -/
def withInodes (s : Image) (count : Nat) : Image := { s with freeinode := count }

@[simp] theorem withInodes_freeblock (s : Image) (count : Nat) :
    (s.withInodes count).freeblock = s.freeblock := rfl

@[simp] theorem withInodes_bump (s : Image) (count : Nat) :
    (s.withInodes count).bump = s.bump.withInodes count := rfl

@[simp] theorem withInodes_rsect (s : Image) (count b : Nat) :
    (s.withInodes count).rsect fmt b = s.rsect fmt b := rfl

@[simp] theorem withInodes_wsect (s : Image) (count b : Nat) (buf : Block) :
    (s.withInodes count).wsect b buf = (s.wsect b buf).withInodes count := rfl

@[simp] theorem withInodes_rinode (s : Image) (count : Nat) : (s.withInodes count).rinode = s.rinode := rfl

/-- What follows in `slot` when there is an indirect block. -/
theorem entry_withInodes (s : Image) (count : Nat) (din : Dinode) (b i : Nat) :
    (do
      let indirect ← s.rsect fmt b
      if i < NINDIRECT then
        if indirect.word i = 0 then
          let indirect := indirect.setWord i s.freeblock
          .ok ((s.bump.wsect b indirect).withInodes count, din, indirect.word i)
        else .ok (s.withInodes count, din, indirect.word i)
      else .error .outOfBounds : Except Abort (Image × Dinode × Nat)) =
    (do
      let indirect ← s.rsect fmt b
      if i < NINDIRECT then
        if indirect.word i = 0 then
          let indirect := indirect.setWord i s.freeblock
          .ok (s.bump.wsect b indirect, din, indirect.word i)
        else .ok (s, din, indirect.word i)
      else .error .outOfBounds : Except Abort (Image × Dinode × Nat)).map
        fun r => (r.1.withInodes count, r.2) := by
  cases s.rsect fmt b with
  | error abort => rfl
  | ok indirect =>
      simp only [bind, Except.bind]
      split
      · split <;> rfl
      · rfl

theorem slot_withInodes (s : Image) (count : Nat) (din : Dinode) (fbn : Nat) :
    (s.withInodes count).slot fmt din fbn =
      (s.slot fmt din fbn).map fun r => (r.1.withInodes count, r.2) := by
  unfold slot
  by_cases direct : fbn < fmt.NDIRECT
  · rw [if_pos direct, if_pos direct]
    split <;> rfl
  · rw [if_neg direct, if_neg direct]
    split
    · exact entry_withInodes s.bump ..
    · exact entry_withInodes s ..

theorem appendLoop_withInodes (s : Image) (count : Nat) (din : Dinode) (off : Nat) (p : List UInt8) :
    (s.withInodes count).appendLoop fmt din off p =
      (s.appendLoop fmt din off p).map fun r => (r.1.withInodes count, r.2) := by
  induction left : p.length using Nat.strong_induction_on generalizing p s din off with
  | _ n ih =>
  subst left
  rw [appendLoop, appendLoop]
  by_cases more : 0 < p.length
  · rw [dif_pos more, dif_pos more]
    dsimp only
    split
    · rw [slot_withInodes]
      cases s.slot fmt din (off / BSIZE) with
      | error abort => rfl
      | ok r =>
          obtain ⟨s₁, din₁, x⟩ := r
          simp only [Except.map, bind, Except.bind, withInodes_rsect, withInodes_wsect]
          cases s₁.rsect fmt x with
          | error abort => rfl
          | ok buf =>
              refine ih _ ?_ (s₁.wsect x _) _ _ _ rfl
              simp only [List.length_drop, BSIZE]
              omega
    · rfl
  · rw [dif_neg more, dif_neg more]
    rfl

theorem iappend_withInodes (s : Image) (count : Nat) (p : List UInt8) :
    (s.withInodes count).iappend fmt inum p = (s.iappend fmt inum p).map fun s => s.withInodes count := by
  unfold iappend
  dsimp only
  rw [withInodes_rinode, appendLoop_withInodes]
  cases s.appendLoop fmt (s.rinode inum) (s.rinode inum).size p with
  | error abort => rfl
  | ok r => rfl

theorem appends_withInodes (s : Image) (count : Nat) (calls : List (Nat × List UInt8)) :
    (s.withInodes count).appends fmt calls = (s.appends fmt calls).map fun s => s.withInodes count := by
  induction calls generalizing s with
  | nil => rfl
  | cons call rest ih =>
      unfold appends at ih ⊢
      rw [List.foldlM_cons, List.foldlM_cons, iappend_withInodes]
      cases s.iappend fmt call.1 call.2 with
      | error abort => rfl
      | ok s => exact ih s

/-! ## What is in the files -/

/-- The files have these texts: a file has the blocks that its text asks for, with the bytes of the text in
its data blocks. -/
structure Filling (fmt : Format) (inode : Nat → Dinode) (s : Image) (own : Nat × Place → Option Nat)
    (texts : Nat → List UInt8) : Prop where
  maps : Maps fmt inode s own
  owned : ∀ j place, own (j, place) ≠ none ↔ s.Live j ∧ place.Needed fmt (texts j).length
  small : ∀ j, s.Live j → (texts j).length ≤ limit fmt
  bytes : ∀ j, s.Live j → ∀ k < (texts j).length, ∀ b, own (j, .data (k / BSIZE)) = some b →
    (s.sect b).byte (k % BSIZE) = (texts j).getD k 0

/-- The addresses of inodes, the texts of live files and the blocks behind the inodes are as before. -/
theorem Filling.frame {inode' : Nat → Dinode} {texts' : Nat → List UInt8}
    (filling : Filling fmt inode s own texts)
    (addrs : ∀ j, s.Live j → (inode' j).addrs = (inode j).addrs) (same : ∀ j, s.Live j → texts' j = texts j)
    (freeblock : s'.freeblock = s.freeblock) (freeinode : s'.freeinode = s.freeinode)
    (sect : ∀ b, Format.bmapstart ≤ b → s'.sect b = s.sect b) : Filling fmt inode' s' own texts' := by
  have lives : ∀ j, s'.Live j ↔ s.Live j := by
    intro j
    show 1 ≤ j ∧ j < s'.freeinode ↔ _
    rw [freeinode]
    exact Iff.rfl
  constructor
  · exact filling.maps.frame addrs freeblock freeinode sect
  · intro j place
    rw [filling.owned, lives]
    refine and_congr_right fun live => ?_
    rw [same j live]
  · intro j live
    rw [same j ((lives j).mp live)]
    exact filling.small j ((lives j).mp live)
  · intro j live k inside b owned
    have low := (filling.maps.bump.bounds _ _ owned).1
    rw [same j ((lives j).mp live)] at inside ⊢
    rw [sect b (by unfold Format.nmeta at low; unfold Format.bmapstart; omega)]
    exact filling.bytes j ((lives j).mp live) k inside b owned

/-- A chunk is put into a block of a file, and nothing else is written. -/
theorem Slotted.bytes {din din' : Dinode} {off x : Nat} {chunk : List UInt8} {own' : Nat × Place → Option Nat}
    (done : Slotted fmt inode s own inum (off / BSIZE) din s' din' x own')
    (filling : Filling fmt (Function.update inode inum din) s own texts) (length : (texts inum).length = off)
    (block : off + chunk.length ≤ (off / BSIZE + 1) * BSIZE) {j : Nat} (live : s.Live j) {k : Nat}
    (inside : k < (Function.update texts inum (texts inum ++ chunk) j).length) {b : Nat}
    (owned : own' (j, .data (k / BSIZE)) = some b) :
    ((s'.wsect x ((s'.sect x).splice (off - off / BSIZE * BSIZE) chunk)).sect b).byte (k % BSIZE) =
      (Function.update texts inum (texts inum ++ chunk) j).getD k 0 := by
  have size : BSIZE = 1024 := rfl
  have bound : k % BSIZE < BSIZE := Nat.mod_lt _ (by decide)
  show ((Function.update s'.sect x _ b) : Block).byte _ = _
  by_cases new : j = inum ∧ off ≤ k
  · -- the byte is one of the chunk
    obtain ⟨rfl, above⟩ := new
    rw [Function.update_self] at inside ⊢
    rw [List.length_append] at inside
    have same : k / BSIZE = off / BSIZE := by
      rw [size] at block ⊢
      omega
    rw [same, done.here] at owned
    cases owned
    rw [Function.update_self, Bytes.byte_splice _ _ _ _ bound, if_pos (by rw [size] at *; omega),
      List.getD_append_right _ _ _ _ (by omega)]
    congr 1
    rw [size] at *
    omega
  · -- the byte was there before
    have old : k < (texts j).length := by
      by_cases same : j = inum
      · subst same
        omega
      · rwa [Function.update_of_ne same] at inside
    have text : (Function.update texts inum (texts inum ++ chunk) j).getD k 0 = (texts j).getD k 0 := by
      by_cases same : j = inum
      · subst same
        rw [Function.update_self, List.getD_append _ _ _ _ old]
      · rw [Function.update_of_ne same]
    have given : own (j, .data (k / BSIZE)) ≠ none := (filling.owned _ _).mpr ⟨live, by
      show k / BSIZE * BSIZE < _
      have low := Nat.div_mul_le_self k BSIZE
      omega⟩
    obtain ⟨b', isB⟩ := Option.ne_none_iff_exists'.mp given
    have kept := done.keeps _ _ isB
    rw [owned] at kept
    cases kept
    have sector : s'.sect b = s.sect b := done.others b fun table => by
      simpa using done.maps.bump.injective _ _ _ owned table
    rw [text, ← filling.bytes j live k old b isB]
    by_cases here : b = x
    · subst here
      have same := done.maps.bump.injective _ _ _ owned done.here
      simp only [Prod.mk.injEq, Place.data.injEq] at same
      rw [Function.update_self, Bytes.byte_splice _ _ _ _ bound, if_neg (by rw [size] at *; omega), sector]
    · rw [Function.update_of_ne here, sector]

/-- One round of the loop. -/
theorem Filling.round (chunk : List UInt8) {din : Dinode} {off : Nat}
    (filling : Filling fmt (Function.update inode inum din) s own texts) (length : (texts inum).length = off)
    (live : s.Live inum) (more : 0 < chunk.length) (block : off + chunk.length ≤ (off / BSIZE + 1) * BSIZE)
    (small : off + chunk.length ≤ limit fmt)
    (room : s.freeblock + need fmt (off + chunk.length) ≤ fmt.FSSIZE + need fmt off) :
    ∃ s' din' x own', s.slot fmt din (off / BSIZE) = .ok (s', din', x) ∧ x < fmt.FSSIZE ∧
      Filling fmt (Function.update inode inum din')
        (s'.wsect x ((s'.sect x).splice (off - off / BSIZE * BSIZE) chunk)) own'
        (Function.update texts inum (texts inum ++ chunk)) ∧
      (∀ b < fmt.nmeta, (s'.wsect x ((s'.sect x).splice (off - off / BSIZE * BSIZE) chunk)).sect b = s.sect b) ∧
      s'.freeblock + need fmt off = s.freeblock + need fmt (off + chunk.length) ∧
      s'.freeinode = s.freeinode ∧ SameFile din din' := by
  have owned : ∀ place, own (inum, place) ≠ none ↔ place.Needed fmt off := by
    intro place
    rw [filling.owned, length]
    exact and_iff_right live
  have grown : off < off + chunk.length := by omega
  have count := fresh_eq owned grown block
  have unused : own (inum, .indirect) = none →
      ∀ i < NINDIRECT, own (inum, .data (fmt.NDIRECT + i)) = none := by
    intro none i _
    by_contra some
    have this : (fmt.NDIRECT + i) * BSIZE < off := (owned _).mp some
    refine absurd none ((owned _).mpr ?_)
    exact lt_of_le_of_lt (Nat.mul_le_mul_right _ (Nat.le_add_right _ i)) this
  have inside : off / BSIZE < fmt.NDIRECT + NINDIRECT := by
    simp only [limit, BSIZE] at more small ⊢
    omega
  obtain ⟨s', din', x, own', run, done⟩ := slot_spec filling.maps live inside unused (by omega)
  have below := done.maps.bump.bounds _ _ done.here
  have fits := done.freeblock
  refine ⟨s', din', x, own', run, by omega, ?_, fun b low => ?_, by omega, done.freeinode, done.same⟩
  · have lives : ∀ j, s'.Live j ↔ s.Live j := by
      intro j
      show 1 ≤ j ∧ j < s'.freeinode ↔ _
      rw [done.freeinode]
      exact Iff.rfl
    constructor
    · exact done.maps.write done.here _
    · intro j place
      show _ ↔ s'.Live j ∧ _
      rw [lives, ne_eq, done.owned, not_and_not_right]
      by_cases same : j = inum
      · subst same
        rw [Function.update_self, List.length_append, length, needed_grow grown block small, ← owned place]
        constructor
        · intro given
          refine ⟨live, ?_⟩
          by_cases free : own (j, place) = none
          · exact .inr (given free).2
          · exact .inl free
        · rintro ⟨-, some | new⟩ free
          · exact absurd free some
          · exact ⟨rfl, new⟩
      · rw [Function.update_of_ne same, ← filling.owned]
        simp [same]
    · intro j liveJ
      by_cases same : j = inum
      · subst same
        rw [Function.update_self, List.length_append, length]
        exact small
      · rw [Function.update_of_ne same]
        exact filling.small j ((lives j).mp liveJ)
    · intro j liveJ k inside b owned
      exact done.bytes filling length block ((lives j).mp liveJ) inside owned
  · show Function.update s'.sect x _ b = _
    rw [Function.update_of_ne (by omega)]
    exact done.metaBlocks b low

/-- The loop of `iappend` puts all bytes at the end of the file. -/
theorem Filling.loop (p : List UInt8) {din : Dinode} {off : Nat}
    (filling : Filling fmt (Function.update inode inum din) s own texts) (length : (texts inum).length = off)
    (live : s.Live inum) (small : off + p.length ≤ limit fmt)
    (room : s.freeblock + need fmt (off + p.length) ≤ fmt.FSSIZE + need fmt off) :
    ∃ s' din' own', s.appendLoop fmt din off p = .ok (s', din', off + p.length) ∧
      Filling fmt (Function.update inode inum din') s' own' (Function.update texts inum (texts inum ++ p)) ∧
      (∀ b < fmt.nmeta, s'.sect b = s.sect b) ∧
      s'.freeblock + need fmt off = s.freeblock + need fmt (off + p.length) ∧
      s'.freeinode = s.freeinode ∧ SameFile din din' := by
  induction left : p.length using Nat.strong_induction_on generalizing p s din off own texts with
  | _ n ih =>
  subst left
  by_cases more : 0 < p.length
  · obtain ⟨n1, is⟩ : ∃ n1, min p.length ((off / BSIZE + 1) * BSIZE - off) = n1 := ⟨_, rfl⟩
    have grows : 0 < n1 ∧ n1 ≤ p.length ∧ off + n1 ≤ (off / BSIZE + 1) * BSIZE := by
      simp only [BSIZE] at is ⊢
      omega
    have taken : (p.take n1).length = n1 := List.length_take_of_le grows.2.1
    have dropped : (p.drop n1).length = p.length - n1 := List.length_drop
    have rest := need_mono fmt (show off + n1 ≤ off + p.length by omega)
    obtain ⟨s', din', x, own', run, inside, after, sectors, count, inodes, same⟩ :=
      Filling.round (p.take n1) filling length live (by omega) (by omega) (by omega)
        (by rw [taken]; omega)
    rw [taken] at count
    have file : off / BSIZE < fmt.MAXFILE := by
      have fits : fmt.NDIRECT + NINDIRECT ≤ fmt.MAXFILE := by cases fmt <;> decide
      have block : off / BSIZE < fmt.NDIRECT + NINDIRECT := by
        simp only [limit, BSIZE] at small ⊢
        omega
      omega
    obtain ⟨buf, isBuf⟩ : ∃ buf, (s'.sect x).splice (off - off / BSIZE * BSIZE) (p.take n1) = buf := ⟨_, rfl⟩
    rw [isBuf] at after sectors
    have whole : off + n1 + (p.drop n1).length = off + p.length := by omega
    have live' : (s'.wsect x buf).Live inum := ⟨live.1, lt_of_lt_of_eq live.2 inodes.symm⟩
    have blocks : (s'.wsect x buf).freeblock = s'.freeblock := rfl
    obtain ⟨s'', din'', own'', goes, done, sectors', count', inodes', same'⟩ :=
      ih (p.drop n1).length (by omega) (p.drop n1) after
        (show _ = off + n1 by rw [Function.update_self, List.length_append, taken, length]) live' (by omega)
        (by rw [whole, blocks]; omega) rfl
    rw [whole] at goes count'
    rw [blocks] at count'
    rw [Function.update_self, Function.update_idem, List.append_assoc, List.take_append_drop] at done
    refine ⟨s'', din'', own'', ?_, done, fun b low => (sectors' b low).trans (sectors b low), by omega,
      inodes'.trans inodes, same.trans same'⟩
    rw [appendLoop, dif_pos more]
    dsimp only
    rw [if_pos file]
    simp only [bind, Except.bind, run, is]
    rw [rsect_ok inside]
    dsimp only
    rw [isBuf]
    exact goes
  · have none : p = [] := List.eq_nil_of_length_eq_zero (by omega)
    subst none
    rw [List.append_nil, Function.update_eq_self]
    refine ⟨s, din, own, ?_, filling, fun _ _ => rfl, rfl, rfl, .refl din⟩
    rw [appendLoop, dif_neg more]
    rfl

/-! ## Calls of `iappend` -/

theorem IBLOCK_slot (inside : inum < Format.inodeSlots) : IBLOCK inum < Format.bmapstart := by
  have ipb : IPB = 16 := rfl
  unfold Format.inodeSlots at inside
  unfold IBLOCK Format.bmapstart Format.inodestart
  rw [ipb] at inside ⊢
  generalize Format.ninodeblocks = blocks at inside ⊢
  omega

theorem bmapstart_le_nmeta (fmt : Format) : Format.bmapstart ≤ fmt.nmeta := Nat.le_add_right _ _

/-- An image with all inodes allocated, where the inodes have these texts. Inode `inum` is file `inum + 1`. -/
structure Holds (fmt : Format) (s₀ s : Image) (texts : Nat → List UInt8) : Prop where
  freeinode : s.freeinode = Format.inodeSlots + 1
  filling : ∃ own, Filling fmt (fun j => s.rinode (j - 1)) s own (fun j => texts (j - 1))
  size : ∀ inum < Format.inodeSlots, (s.rinode inum).size = (texts inum).length
  freeblock : s.freeblock = fmt.nmeta + ∑ inum ∈ Finset.range Format.inodeSlots, need fmt (texts inum).length
  metaBlocks : ∀ b < fmt.nmeta, b < Format.inodestart ∨ Format.bmapstart ≤ b → s.sect b = s₀.sect b

theorem Zeroed.holds (zeroed : Zeroed fmt s) :
    Holds fmt s (s.withInodes (Format.inodeSlots + 1)) fun _ => [] := by
  have low : ∀ b, fmt.nmeta ≤ b → Format.inodestart ≤ b := fun b above => by
    have first : Format.inodestart ≤ Format.bmapstart := Nat.le_add_right _ _
    have second := bmapstart_le_nmeta fmt
    omega
  have inode : ∀ inum, s.rinode inum = ⟨0, 0, 0, 0, 0, fun _ => 0⟩ := fun inum =>
    rinode_zero (zeroed.zero _ (Nat.le_add_left _ _))
  have sect : ∀ b, Format.inodestart ≤ b → (s.withInodes (Format.inodeSlots + 1)).sect b = fun _ => 0 :=
    zeroed.zero
  have free : (s.withInodes (Format.inodeSlots + 1)).freeblock = fmt.nmeta := zeroed.freeblock
  refine ⟨rfl, ⟨fun _ => none, ⟨?_, ?_, ?_, ?_, ?_, ?_, ?_⟩, ?_, ?_, ?_⟩, ?_, ?_, ?_⟩
  · rw [free]
    exact Bump.start _ _
  · exact fun _ _ owned => absurd rfl owned
  · intro j _ bn _
    rw [withInodes_rinode, inode]
    rfl
  · intro j _
    rw [withInodes_rinode, inode]
    rfl
  · exact fun _ _ owned => absurd owned.symm (Option.some_ne_none _)
  · intro b above
    rw [free] at above
    exact sect b (low b above)
  · exact fun b above _ => sect b ((Nat.le_add_right _ _).trans above)
  · intro j place
    refine iff_of_false (absurd rfl) fun both => ?_
    cases place <;> exact absurd both.2 (Nat.not_lt_zero _)
  · exact fun _ _ => Nat.zero_le _
  · exact fun _ _ k inside => absurd inside (Nat.not_lt_zero k)
  · intro inum _
    rw [withInodes_rinode, inode]
    rfl
  · rw [free]
    simp [need_zero]
  · exact fun _ _ _ => rfl

/-- A file that grows asks for the blocks that it has more. -/
theorem sum_update (fmt : Format) (texts : Nat → List UInt8) (text : List UInt8) (inside : inum < n) :
    (∑ j ∈ Finset.range n, need fmt (Function.update texts inum text j).length) + need fmt (texts inum).length =
      (∑ j ∈ Finset.range n, need fmt (texts j).length) + need fmt text.length := by
  have member : inum ∈ Finset.range n := Finset.mem_range.mpr inside
  rw [← Finset.sum_erase_add _ _ member, ← Finset.sum_erase_add (Finset.range n) _ member,
    Function.update_self]
  have others : ∑ j ∈ (Finset.range n).erase inum, need fmt (Function.update texts inum text j).length =
      ∑ j ∈ (Finset.range n).erase inum, need fmt (texts j).length :=
    Finset.sum_congr rfl fun j other => by rw [Function.update_of_ne (Finset.ne_of_mem_erase other)]
  omega

/-- One call. -/
theorem Holds.iappend {s₀ : Image} (holds : Holds fmt s₀ s texts) (inside : inum < Format.inodeSlots)
    (p : List UInt8) (small : (texts inum ++ p).length ≤ limit fmt)
    (room : fmt.nmeta + ∑ j ∈ Finset.range Format.inodeSlots,
      need fmt (Function.update texts inum (texts inum ++ p) j).length ≤ fmt.FSSIZE) :
    ∃ s', s.iappend fmt inum p = .ok s' ∧ Holds fmt s₀ s' (Function.update texts inum (texts inum ++ p)) := by
  obtain ⟨own, filling⟩ := holds.filling
  have size := holds.size inum inside
  have sum := sum_update fmt texts (texts inum ++ p) inside
  have blocks := holds.freeblock
  rw [List.length_append] at small sum
  have live : s.Live (inum + 1) := ⟨Nat.le_add_left _ _, by
    rw [holds.freeinode]
    omega⟩
  have start : Filling fmt (Function.update (fun j => s.rinode (j - 1)) (inum + 1) (s.rinode inum)) s own
      fun j => texts (j - 1) := by
    have same : Function.update (fun j => s.rinode (j - 1)) (inum + 1) (s.rinode inum) =
        fun j => s.rinode (j - 1) := Function.update_eq_self (inum + 1) fun j => s.rinode (j - 1)
    rwa [same]
  obtain ⟨s', din', own', run, done, sectors, count, counter, same⟩ :=
    start.loop p rfl live small (by
      show s.freeblock + need fmt ((texts inum).length + _) ≤ _ + need fmt (texts inum).length
      omega)
  have run : s.appendLoop fmt (s.rinode inum) (texts inum).length p =
      .ok (s', din', (texts inum).length + p.length) := run
  have count : s'.freeblock + need fmt (texts inum).length =
      s.freeblock + need fmt ((texts inum).length + p.length) := count
  have bound := limit_lt fmt
  have stored : Stored { din' with size := (texts inum).length + p.length } := by
    have kept := same.stored (stored_rinode s inum)
    exact ⟨show (texts inum).length + p.length < 2 ^ 32 by omega, kept.addrs, kept.none⟩
  obtain ⟨t, isT⟩ : ∃ t, s'.winode inum { din' with size := (texts inum).length + p.length } = t := ⟨_, rfl⟩
  have inode := rinode_winode stored s' inum
  rw [isT] at inode
  have before : ∀ j < Format.inodeSlots, s'.rinode j = s.rinode j := by
    intro j low
    have block := IBLOCK_slot low
    have high := bmapstart_le_nmeta fmt
    unfold rinode
    rw [sectors _ (by omega)]
  have others : ∀ b, b < Format.inodestart ∨ Format.bmapstart ≤ b → t.sect b = s'.sect b := by
    intro b outside
    have low : Format.inodestart ≤ IBLOCK inum := Nat.le_add_left _ _
    have high := IBLOCK_slot inside
    rw [← isT]
    exact Function.update_of_ne (by omega) ..
  have counters : t.freeblock = s'.freeblock ∧ t.freeinode = s'.freeinode := by
    rw [← isT]
    exact ⟨rfl, rfl⟩
  have slots : s'.freeinode = Format.inodeSlots + 1 := counter.trans holds.freeinode
  refine ⟨t, ?_, counters.2.trans slots, ⟨own', ?_⟩, fun j low => ?_, ?_, fun b low outside => ?_⟩
  · unfold Image.iappend
    dsimp only
    rw [size, run]
    exact congrArg _ isT
  · refine done.frame (fun j liveJ => ?_) (fun j liveJ => ?_) counters.1 counters.2
      fun b above => others b (.inr above)
    · rw [inode]
      by_cases this : j = inum + 1
      · subst this
        rw [Nat.add_sub_cancel, Function.update_self, Function.update_self]
      · have apart : j - 1 ≠ inum := by
          have positive := liveJ.1
          omega
        have low : j - 1 < Format.inodeSlots := by
          have high := liveJ.2
          have positive := liveJ.1
          omega
        rw [Function.update_of_ne apart, Function.update_of_ne this, before _ low]
    · by_cases this : j = inum + 1
      · subst this
        rw [Nat.add_sub_cancel, Function.update_self, Function.update_self]
      · have apart : j - 1 ≠ inum := by
          have positive := liveJ.1
          omega
        rw [Function.update_of_ne apart, Function.update_of_ne this]
  · rw [inode]
    by_cases this : j = inum
    · subst this
      rw [Function.update_self, Function.update_self, List.length_append]
    · rw [Function.update_of_ne this, Function.update_of_ne this, before j low]
      exact holds.size j low
  · rw [counters.1]
    omega
  · rw [others b outside, sectors b low]
    exact holds.metaBlocks b low outside

@[simp] theorem chunks_nil (inum : Nat) : chunks [] inum = [] := rfl

theorem chunks_cons (call : Nat × List UInt8) (rest : List (Nat × List UInt8)) (inum : Nat) :
    chunks (call :: rest) inum = if call.1 = inum then call.2 ++ chunks rest inum else chunks rest inum := by
  unfold chunks
  by_cases this : call.1 = inum
  · rw [if_pos this, List.filter_cons_of_pos (by simpa using this)]
    rfl
  · rw [if_neg this, List.filter_cons_of_neg (by simpa using this)]

/-- All calls, one after another. -/
theorem Holds.appends {s₀ : Image} (calls : List (Nat × List UInt8)) (holds : Holds fmt s₀ s texts)
    (inodes : ∀ call ∈ calls, call.1 < Format.inodeSlots)
    (sizes : ∀ inum < Format.inodeSlots, (texts inum ++ chunks calls inum).length ≤ limit fmt)
    (blocks : fmt.nmeta + ∑ inum ∈ Finset.range Format.inodeSlots,
      need fmt (texts inum ++ chunks calls inum).length ≤ fmt.FSSIZE) :
    ∃ s', s.appends fmt calls = .ok s' ∧ Holds fmt s₀ s' fun inum => texts inum ++ chunks calls inum := by
  induction calls generalizing s texts with
  | nil =>
      simp only [chunks_nil, List.append_nil]
      exact ⟨s, rfl, holds⟩
  | cons call rest ih =>
      obtain ⟨texts', isTexts⟩ : ∃ texts', Function.update texts call.1 (texts call.1 ++ call.2) = texts' :=
        ⟨_, rfl⟩
      have whole : ∀ inum, texts inum ++ chunks (call :: rest) inum = texts' inum ++ chunks rest inum := by
        intro inum
        rw [chunks_cons, ← isTexts]
        by_cases this : call.1 = inum
        · subst this
          rw [if_pos rfl, Function.update_self, List.append_assoc]
        · rw [if_neg this, Function.update_of_ne (Ne.symm this)]
      simp only [whole] at sizes blocks ⊢
      have inside : call.1 < Format.inodeSlots := inodes call (.head rest)
      have most : ∑ inum ∈ Finset.range Format.inodeSlots, need fmt (texts' inum).length ≤
          ∑ inum ∈ Finset.range Format.inodeSlots, need fmt (texts' inum ++ chunks rest inum).length :=
        Finset.sum_le_sum fun inum _ => need_mono fmt (by simp)
      have small : (texts call.1 ++ call.2).length ≤ limit fmt := by
        have bound := sizes call.1 inside
        rw [← isTexts, Function.update_self, List.length_append] at bound
        omega
      obtain ⟨s₁, run, holds'⟩ := holds.iappend inside call.2 small (by rw [isTexts]; omega)
      rw [isTexts] at holds'
      obtain ⟨s₂, goes, done⟩ := ih holds' (fun other later => inodes other (.tail _ later)) sizes blocks
      refine ⟨s₂, ?_, done⟩
      unfold Image.appends at goes ⊢
      rw [List.foldlM_cons, run]
      exact goes

/-! ## Reading the files back -/

/-- The kernel finds the block that is given to a place in a file, and no block where none is given. -/
theorem Filling.blockOf_eq (filling : Filling .ffs inode s own texts) {j : Nat} (live : s.Live j)
    (stored : Stored (inode j)) (place : Place) :
    s.blockOf .ffs (inode j) place = (own (j, place)).getD 0 := by
  have ndirect : Format.NDIRECT .ffs = 12 := rfl
  have small := filling.small j live
  have bound : limit .ffs = (12 + NINDIRECT) * BSIZE := rfl
  rw [bound] at small
  have last : (inode j).addrs (Format.NDIRECT .ffs + 1) = 0 := stored.none _ (by decide)
  have absent : ∀ place, ¬ place.Needed .ffs (texts j).length → own (j, place) = none := by
    intro place unneeded
    by_contra some
    exact unneeded ((filling.owned j place).mp some).2
  have table := filling.maps.indirect j live
  cases place with
  | data bn =>
      unfold blockOf
      dsimp only
      by_cases direct : bn < Format.NDIRECT .ffs
      · rw [if_pos direct]
        exact filling.maps.direct j live bn direct
      · rw [if_neg direct]
        by_cases inside : bn - Format.NDIRECT .ffs < NINDIRECT
        · rw [if_pos inside, table]
          cases given : own (j, .indirect) with
          | none =>
              have unneeded : ¬ Place.Needed .ffs (texts j).length .indirect := fun needed =>
                (filling.owned j .indirect).mpr ⟨live, needed⟩ given
              rw [absent (.data bn) fun needed => unneeded ?_]
              · rfl
              · exact lt_of_le_of_lt (Nat.mul_le_mul_right _ (Nat.le_of_not_lt direct)) needed
          | some b =>
              have low := (filling.maps.bump.bounds _ _ given).1
              have positive := Format.nmeta_pos .ffs
              have entry := filling.maps.entries j b given _ inside
              rw [Nat.add_sub_cancel' (Nat.le_of_not_lt direct)] at entry
              rw [← entry]
              exact if_neg (show ¬ b = 0 by omega)
        · have unneeded : ¬ Place.Needed .ffs (texts j).length (.data bn) := by
            intro needed
            have needed : bn * BSIZE < (texts j).length := needed
            have most := Nat.mul_le_mul_right BSIZE (show 12 + NINDIRECT ≤ bn by omega)
            omega
          rw [if_neg inside, absent _ unneeded, last]
          rfl
  | indirect => exact table
  | double =>
      have unneeded : ¬ Place.Needed .ffs (texts j).length .double := by
        intro needed
        have needed : (12 + NINDIRECT) * BSIZE < (texts j).length := needed
        omega
      rw [absent _ unneeded]
      exact last
  | doubleEntry i =>
      have unneeded : ¬ Place.Needed .ffs (texts j).length (.doubleEntry i) := by
        intro needed
        have needed : (12 + NINDIRECT + i * NINDIRECT) * BSIZE < (texts j).length := needed
        have most := Nat.mul_le_mul_right BSIZE (Nat.le_add_right (12 + NINDIRECT) (i * NINDIRECT))
        omega
      unfold blockOf
      dsimp only
      rw [absent _ unneeded, last]
      rfl

/-- What the inodes of `ffs` hold is read back from them. -/
theorem Holds.faithful {s₀ : Image} {calls : List (Nat × List UInt8)} {count : Nat}
    (holds : Holds .ffs s₀ (s.withInodes count) (chunks calls)) : Faithful .ffs s₀ calls s := by
  obtain ⟨own, filling⟩ := holds.filling
  have size : ∀ inum < Format.inodeSlots, (s.rinode inum).size = (chunks calls inum).length := holds.size
  have live : ∀ inum < Format.inodeSlots, (s.withInodes count).Live (inum + 1) := fun inum inside =>
    ⟨Nat.le_add_left _ _, by
      rw [holds.freeinode]
      omega⟩
  have block : ∀ inum < Format.inodeSlots, ∀ place,
      s.blockOf .ffs (s.rinode inum) place = (own (inum + 1, place)).getD 0 := fun inum inside place =>
    filling.blockOf_eq (live inum inside) (stored_rinode s inum) place
  have positive := Format.nmeta_pos .ffs
  -- a block that is found is given to what it is found for
  have owned : ∀ inum < Format.inodeSlots, ∀ place, s.blockOf .ffs (s.rinode inum) place ≠ 0 →
      own (inum + 1, place) = some (s.blockOf .ffs (s.rinode inum) place) := by
    intro inum inside place found
    rw [block inum inside place] at found ⊢
    cases given : own (inum + 1, place) with
    | none => exact absurd (by rw [given]; rfl) found
    | some b => rfl
  have needed : ∀ inum < Format.inodeSlots, ∀ place,
      s.blockOf .ffs (s.rinode inum) place ≠ 0 ↔ place.Needed .ffs (s.rinode inum).size := by
    intro inum inside place
    have asks := filling.owned (inum + 1) place
    rw [and_iff_right (live inum inside), Nat.add_sub_cancel] at asks
    rw [size inum inside, ← asks]
    constructor
    · intro found
      rw [owned inum inside place found]
      exact Option.some_ne_none _
    · intro given
      obtain ⟨b, isB⟩ := Option.ne_none_iff_exists'.mp given
      have low := (filling.maps.bump.bounds _ _ isB).1
      rw [block inum inside place, isB, Option.getD_some]
      omega
  refine ⟨fun inum inside => ?_, needed, fun inum inside place found => ?_,
    fun inum inside inum' inside' place place' found same => ?_, holds.freeblock, holds.metaBlocks⟩
  · have length : (s.content .ffs inum).length = (chunks calls inum).length := by
      rw [content, List.length_map, List.length_range, size inum inside]
    refine List.ext_getElem length fun k low low' => ?_
    have found := (needed inum inside (.data (k / BSIZE))).mpr (by
      show k / BSIZE * BSIZE < _
      rw [size inum inside]
      have start := Nat.div_mul_le_self k BSIZE
      omega)
    have byte := filling.bytes (inum + 1) (live inum inside) k low' _ (owned inum inside _ found)
    have read : k < (chunks calls inum).length := low'
    simp only [content, List.getElem_map, List.getElem_range]
    rw [← List.getD_eq_getElem _ 0 read]
    exact byte
  · exact filling.maps.bump.bounds _ _ (owned inum inside place found)
  · have given := owned inum inside place found
    rw [same] at found given
    have both := filling.maps.bump.injective _ _ _ given (owned inum' inside' place' found)
    simpa using both

/-- Whatever is appended to the inodes of an image without files, in any order, the files are what was
appended to them, as long as there are blocks and no file exceeds the largest size. -/
theorem appends_faithful (zeroed : Zeroed .ffs s) {calls : List (Nat × List UInt8)} (room : Room .ffs calls) :
    ∃ s', s.appends .ffs calls = .ok s' ∧ Faithful .ffs s calls s' := by
  have empty : ∀ inum, [] ++ chunks calls inum = chunks calls inum := fun _ => rfl
  have start : Holds .ffs s (s.withInodes (Format.inodeSlots + 1)) fun _ => [] := zeroed.holds
  obtain ⟨s', run, holds⟩ := start.appends calls room.inodes room.sizes room.blocks
  rw [appends_withInodes] at run
  cases built : s.appends .ffs calls with
  | error abort => simp [built, Except.map] at run
  | ok t =>
      rw [built] at run
      cases run
      exact ⟨t, rfl, holds.faithful⟩

/-- Two files that grow in turns. -/
theorem appends_two : ∃ s', (start .ffs).appends .ffs [(1, [1, 2]), (2, [3]), (1, [4])] = .ok s' ∧
    Faithful .ffs (start .ffs) [(1, [1, 2]), (2, [3]), (1, [4])] s' := by
  refine appends_faithful ⟨rfl, fun b above => start_sect .ffs ?_⟩
    ⟨by decide, by decide +kernel, by decide +kernel⟩
  have first : 1 < Format.inodestart := by decide
  omega

end Image

end Riscv2os.Xv7
