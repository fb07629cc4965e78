import Riscv2os.Emulator.LoadStore

/-!
# The image of an ELF file

`mem_load_elf` on its table of chunks, which `malloc` gives room for one chunk a program header and one for the
UART, and what `mem_read_b` finds in it.
-/

namespace Riscv2os.Emulator

open Riscv2os.Std

def IO_CHUNKS : Nat := 1

/-- `chunks` with its room and `nchunk`. What lies in the table at first has no meaning. -/
structure ChunkTable where
  slots : Nat → Chunk
  capacity : Nat
  nchunk : Nat

namespace Phdr

/-- The size is that of the larger of the two parts. -/
theorem toNat_size (phdr : Phdr) : phdr.size.toNat = max phdr.p_filesz.toNat phdr.p_memsz.toNat := by
  unfold size
  split
  · next less => rw [max_eq_left (BitVec.le_def.mp less)]
  · next less => rw [max_eq_right (not_le.mp (mt BitVec.le_def.mpr less)).le]

theorem loads_iff (phdr : Phdr) : phdr.loads = true ↔ phdr.p_type = PT_LOAD ∧ 0 < phdr.size.toNat := by
  have positive : 0 < phdr.size.toNat ↔ phdr.size ≠ 0 := by
    rw [Nat.pos_iff_ne_zero]
    exact not_congr ⟨fun none => BitVec.eq_of_toNat_eq none, fun none => by rw [none]; rfl⟩
  rw [positive, loads, Bool.and_eq_true, beq_iff_eq, bne_iff_ne]

end Phdr

namespace ChunkTable

/-- `mem_add_chunk`: the place is written before the size is tested. -/
def memAddChunk (t : ChunkTable) (c : Chunk) : Except Stop ChunkTable :=
  if t.nchunk < t.capacity then
    let t := { t with slots := Function.update t.slots t.nchunk c }
    .ok (if c.size = 0 then t else { t with nchunk := t.nchunk + 1 })
  else .error .outOfBounds

/-- One round of the loop of `mem_load_elf`. The segment is to be inside the file. -/
def load (rawdata : List UInt8) (t : ChunkTable) (phdr : Phdr) : Except Stop ChunkTable :=
  if phdr.p_type ≠ PT_LOAD then .ok t
  else if 0 < phdr.p_filesz.toNat ∧ rawdata.length < phdr.p_offset.toNat + phdr.p_filesz.toNat then
    .error .outOfBounds
  else t.memAddChunk (phdr.chunk rawdata)

/-- `mem_load_elf` with `io_init`. -/
def memLoadElf (junk : Nat → Chunk) (phdrs : List Phdr) (rawdata : List UInt8) : Except Stop ChunkTable := do
  let t ← phdrs.foldlM (load rawdata) ⟨junk, phdrs.length + IO_CHUNKS, 0⟩
  t.memAddChunk uartChunk

/-- The chunks that the search goes through. -/
def chunks (t : ChunkTable) : List Chunk := (List.range t.nchunk).map t.slots

variable {t t' : ChunkTable} {phdrs : List Phdr} {rawdata : List UInt8}

/-- An added chunk is the last one, if it is not empty. -/
theorem memAddChunk_ok (t : ChunkTable) (c : Chunk) (room : t.nchunk < t.capacity) :
    ∃ t', t.memAddChunk c = .ok t' ∧ t'.chunks = t.chunks ++ (if c.size = 0 then [] else [c]) ∧
      t'.capacity = t.capacity ∧ t'.nchunk ≤ t.nchunk + 1 := by
  have kept : (List.range t.nchunk).map (Function.update t.slots t.nchunk c) = t.chunks :=
    List.map_congr_left fun i member => Function.update_of_ne (List.mem_range.mp member).ne ..
  unfold memAddChunk
  rw [if_pos room]
  refine ⟨_, rfl, ?_⟩
  by_cases empty : c.size = 0
  · rw [if_pos empty, if_pos empty, List.append_nil]
    exact ⟨kept, rfl, Nat.le_succ _⟩
  · rw [if_neg empty, if_neg empty]
    refine ⟨?_, rfl, le_rfl⟩
    show (List.range (t.nchunk + 1)).map (Function.update t.slots t.nchunk c) = _
    rw [List.range_succ, List.map_append, kept, List.map_singleton, Function.update_self]

/-- One round fails only if the file ends too early, and uses no more than one place. -/
theorem load_cases (rawdata : List UInt8) (phdr : Phdr) (room : t.nchunk < t.capacity) :
    (∃ stop, load rawdata t phdr = .error stop ∧ phdr.load rawdata t.chunks = .error stop) ∨
      ∃ t', load rawdata t phdr = .ok t' ∧ phdr.load rawdata t.chunks = .ok t'.chunks ∧
        t'.capacity = t.capacity ∧ t'.nchunk ≤ t.nchunk + 1 := by
  unfold load Phdr.load
  by_cases kind : phdr.p_type = PT_LOAD
  · rw [if_neg (not_not.mpr kind)]
    by_cases short : 0 < phdr.p_filesz.toNat ∧ rawdata.length < phdr.p_offset.toNat + phdr.p_filesz.toNat
    · have loads : phdr.loads = true := by
        rw [phdr.loads_iff, phdr.toNat_size]
        exact ⟨kind, lt_max_of_lt_left short.1⟩
      rw [if_pos short, if_pos loads, if_pos short]
      exact .inl ⟨_, rfl, rfl⟩
    · rw [if_neg short, if_neg short]
      obtain ⟨t', added, chunks, capacity, used⟩ := t.memAddChunk_ok (phdr.chunk rawdata) room
      refine .inr ⟨t', added, ?_, capacity, used⟩
      change t'.chunks = t.chunks ++ (if phdr.size = 0 then [] else [phdr.chunk rawdata]) at chunks
      rw [chunks]
      have loads : phdr.loads = true ↔ phdr.size ≠ 0 := by
        rw [Phdr.loads, kind, Bool.and_eq_true, bne_iff_ne]
        exact and_iff_right BEq.rfl
      by_cases empty : phdr.size = 0
      · rw [if_neg (mt loads.mp (not_not.mpr empty)), if_pos empty, List.append_nil]
      · rw [if_pos (loads.mpr empty), if_neg empty]
  · rw [if_pos kind, if_neg fun loads => kind (phdr.loads_iff.mp loads).1]
    exact .inr ⟨t, rfl, rfl, rfl, Nat.le_succ _⟩

/-- The loop uses no more than one place a header, and makes the chunks of the segments. -/
theorem foldlM_load (phdrs : List Phdr) (rawdata : List UInt8) (room : t.nchunk + phdrs.length < t.capacity) :
    (∃ stop, phdrs.foldlM (load rawdata) t = .error stop ∧
        phdrs.foldlM (Phdr.load rawdata) t.chunks = .error stop) ∨
      ∃ t', phdrs.foldlM (load rawdata) t = .ok t' ∧
        phdrs.foldlM (Phdr.load rawdata) t.chunks = .ok t'.chunks ∧ t'.nchunk < t'.capacity := by
  induction phdrs generalizing t with
  | nil => exact .inr ⟨t, rfl, rfl, room⟩
  | cons phdr rest ih =>
      rw [List.length_cons] at room
      rw [List.foldlM_cons, List.foldlM_cons]
      obtain ⟨stop, fails, fails'⟩ | ⟨t', loads, loads', capacity, used⟩ :=
        load_cases rawdata phdr (show t.nchunk < t.capacity by omega)
      · rw [fails, fails']
        exact .inl ⟨stop, rfl, rfl⟩
      · rw [loads, loads']
        exact ih (by omega)

/-- The table is never overrun: all that can fail is the copy from a file that ends too early. -/
theorem memLoadElf_chunks (junk : Nat → Chunk) (phdrs : List Phdr) (rawdata : List UInt8) :
    (memLoadElf junk phdrs rawdata).map chunks = (Emulator.memLoadElf phdrs rawdata).map Memory.chunks := by
  unfold memLoadElf Emulator.memLoadElf
  obtain ⟨stop, fails, fails'⟩ | ⟨t, loads, loads', room⟩ :=
    foldlM_load (t := ⟨junk, phdrs.length + IO_CHUNKS, 0⟩) phdrs rawdata (by simp [IO_CHUNKS])
  · rw [fails]
    refine Eq.trans ?_ (congrArg (fun r => Except.map _ (r >>= _)) fails'.symm)
    rfl
  · obtain ⟨t', added, chunks, -⟩ := t.memAddChunk_ok uartChunk room
    have last : uartChunk.size ≠ 0 := by decide
    rw [if_neg last] at chunks
    rw [loads]
    refine Eq.trans ?_ (congrArg (fun r => Except.map _ (r >>= _)) loads'.symm)
    show (t.memAddChunk uartChunk).map _ = Except.ok (t.chunks ++ [uartChunk])
    rw [added, ← chunks]
    rfl

/-- The memory that the table stands for. -/
def memory (t : ChunkTable) : Memory := { chunks := t.chunks }

end ChunkTable

/-- Chunks without a common byte. -/
def Chunk.Apart (c c' : Chunk) : Prop := c.limit ≤ c'.begin_.toNat ∨ c'.limit ≤ c.begin_.toNat

instance : Std.Symm Chunk.Apart := ⟨fun _ _ apart => Or.symm apart⟩

namespace Memory

variable {m : Memory} {a : BitVec 32} {c : Chunk}

/-- Where the chunks are apart, the one that covers an address is found. -/
theorem findChunk_of_covers (apart : m.chunks.Pairwise Chunk.Apart) (member : c ∈ m.chunks)
    (covers : c.Covers a) : ∃ i, m.findChunk a = .ok (i, c) := by
  obtain ⟨i, inside, rfl⟩ := List.getElem_of_mem member
  refine ⟨i, findChunk_eq_iff.mpr ⟨List.getElem?_eq_getElem inside, covers, ?_⟩⟩
  intro j earlier c' place covers'
  obtain ⟨inside', rfl⟩ := List.getElem?_eq_some_iff.mp place
  have separate := List.pairwise_iff_getElem.mp apart j i inside' inside earlier
  obtain ⟨-, low, high⟩ := covers
  obtain ⟨-, low', high'⟩ := covers'
  rcases separate with below | above
  · omega
  · omega

/-- A byte of a chunk. -/
theorem readB_of_covers (apart : m.chunks.Pairwise Chunk.Apart) (member : c ∈ m.chunks) (covers : c.Covers a) :
    m.readB a = .ok (c.mem.byte (a.toNat - c.begin_.toNat)).toBitVec := by
  obtain ⟨i, found⟩ := findChunk_of_covers apart member covers
  have limit : c.limit = c.begin_.toNat + c.size.toNat := rfl
  have low := covers.2.1
  have high := covers.2.2
  have accepted := (Chunk.inRange_iff covers one_pos (by decide)).mpr (.inl high)
  have read : m.readBytes "mem_read_b" 1 a = .ok ((c.mem.byte (a.toNat - c.begin_.toNat)).toNat + 256 * 0) := by
    unfold readBytes
    rw [found, ok_bind]
    show (if _ then _ else _) = _
    rw [if_neg accepted, Chunk.read, offset_eq covers, if_pos (by omega)]
    rfl
  rw [readB, read, ok_bind]
  refine congrArg Except.ok (BitVec.eq_of_toNat_eq ?_)
  rw [BitVec.toNat_ofNat, Nat.mul_zero, Nat.add_zero, Nat.mod_eq_of_lt (UInt8.toNat_lt _)]
  rfl

/-- An address that no chunk covers is rejected. -/
theorem readB_rejects (none : ∀ c ∈ m.chunks, ¬ c.Covers a) :
    ∃ format args, m.readB a = .error (.error format args) := by
  unfold readB readBytes
  cases found : m.findChunk a with
  | error stop =>
      obtain ⟨⟨format, args, rfl⟩, -⟩ := findChunk_error found
      exact ⟨format, args, rfl⟩
  | ok pair =>
      obtain ⟨place, covers, -⟩ := findChunk_eq_iff.mp found
      exact absurd covers (none _ (List.mem_of_getElem? place))

end Memory

section Image

variable (phdrs : List Phdr) (rawdata : List UInt8)

/-- The address belongs to the segment. -/
def Phdr.Holds (phdr : Phdr) (a : BitVec 32) : Prop :=
  ∃ i < phdr.size.toNat, a = phdr.p_vaddr + BitVec.ofNat 32 i

/-- What the file has of a segment lies in the file. -/
def InFile : Prop := ∀ phdr ∈ phdrs, phdr.p_type = PT_LOAD → 0 < phdr.p_filesz.toNat →
  phdr.p_offset.toNat + phdr.p_filesz.toNat ≤ rawdata.length

/-- The segments overlap neither each other nor the window of the UART. -/
structure Disjoint : Prop where
  segments : (phdrs.filter Phdr.loads).Pairwise fun phdr phdr' =>
    phdr.p_vaddr.toNat + phdr.size.toNat ≤ phdr'.p_vaddr.toNat ∨
      phdr'.p_vaddr.toNat + phdr'.size.toNat ≤ phdr.p_vaddr.toNat
  uart : ∀ phdr ∈ phdrs, phdr.loads = true → phdr.p_vaddr.toNat + phdr.size.toNat ≤ UART.toNat ∨
    UART.toNat + UART_CHUNK_SIZE.toNat ≤ phdr.p_vaddr.toNat

/-- What `mem_read_b` gives for the addresses outside the window of the UART. -/
structure Image (m : Memory) : Prop where
  file : ∀ phdr ∈ phdrs, phdr.p_type = PT_LOAD → ∀ i < phdr.p_filesz.toNat,
    m.readB (phdr.p_vaddr + BitVec.ofNat 32 i) = .ok (rawdata.getD (phdr.p_offset.toNat + i) 0).toBitVec
  zero : ∀ phdr ∈ phdrs, phdr.p_type = PT_LOAD → ∀ i, phdr.p_filesz.toNat ≤ i → i < phdr.p_memsz.toNat →
    m.readB (phdr.p_vaddr + BitVec.ofNat 32 i) = .ok 0
  others : ∀ a, (∀ phdr ∈ phdrs, phdr.p_type = PT_LOAD → ¬ phdr.Holds a) → ¬ uartChunk.Contains a 1 →
    ∃ format args, m.readB a = .error (.error format args)

end Image

section Loaded

variable {phdrs : List Phdr} {rawdata : List UInt8}

/-- A file whose segments lie in it is loaded. -/
theorem memLoadElf_ok (inFile : InFile phdrs rawdata) : ∃ m, memLoadElf phdrs rawdata = .ok m := by
  have loop : ∀ start, ∃ chunks, phdrs.foldlM (Phdr.load rawdata) start = .ok chunks := by
    induction phdrs with
    | nil => exact fun start => ⟨start, rfl⟩
    | cons phdr rest ih =>
        intro start
        have first : ∃ chunks, phdr.load rawdata start = .ok chunks := by
          unfold Phdr.load
          by_cases loads : phdr.loads = true
          · have whole := inFile phdr List.mem_cons_self (phdr.loads_iff.mp loads).1
            rw [if_pos loads, if_neg fun short => absurd (whole short.1) (not_le.mpr short.2)]
            exact ⟨_, rfl⟩
          · rw [if_neg loads]
            exact ⟨_, rfl⟩
        obtain ⟨chunks, ran⟩ := first
        rw [List.foldlM_cons, ran, ok_bind]
        exact ih (fun other member => inFile other (List.mem_cons_of_mem _ member)) chunks
  obtain ⟨chunks, ran⟩ := loop []
  exact ⟨_, bind_ok.mpr ⟨chunks, ran, rfl⟩⟩

variable {m : Memory}

/-- The chunk of a segment. -/
theorem segment_mem (loaded : memLoadElf phdrs rawdata = .ok m) {phdr : Phdr} (member : phdr ∈ phdrs)
    (loads : phdr.loads = true) : phdr.chunk rawdata ∈ m.chunks := by
  rw [memLoadElf_chunks loaded, List.mem_append]
  exact .inl (List.mem_map_of_mem (List.mem_filter.mpr ⟨member, loads⟩))

/-- The chunks have no byte in common. -/
theorem chunks_apart (loaded : memLoadElf phdrs rawdata = .ok m) (disjoint : Disjoint phdrs) :
    m.chunks.Pairwise Chunk.Apart := by
  rw [memLoadElf_chunks loaded, List.pairwise_append, List.pairwise_map]
  refine ⟨disjoint.segments, List.pairwise_singleton .., ?_⟩
  intro c member c' isUart
  obtain ⟨phdr, segment, rfl⟩ := List.mem_map.mp member
  obtain ⟨here, loads⟩ := List.mem_filter.mp segment
  rw [List.mem_singleton.mp isUart]
  exact disjoint.uart phdr here loads

/-- The bytes of a segment below the end of the address space. -/
theorem readB_segment (loaded : memLoadElf phdrs rawdata = .ok m) (disjoint : Disjoint phdrs)
    {phdr : Phdr} (member : phdr ∈ phdrs) (loads : phdr.loads = true)
    (fits : phdr.p_vaddr.toNat + phdr.size.toNat < 2 ^ 32) {i : Nat} (inside : i < phdr.size.toNat) :
    m.readB (phdr.p_vaddr + BitVec.ofNat 32 i) = .ok
      (if i < phdr.p_filesz.toNat then rawdata.getD (phdr.p_offset.toNat + i) 0 else 0).toBitVec := by
  have place : (phdr.p_vaddr + BitVec.ofNat 32 i).toNat = phdr.p_vaddr.toNat + i :=
    Memory.toNat_add_small (by omega)
  have covers : (phdr.chunk rawdata).Covers (phdr.p_vaddr + BitVec.ofNat 32 i) := by
    unfold Chunk.Covers
    rw [place]
    exact ⟨fits, Nat.le_add_right .., Nat.add_lt_add_left inside _⟩
  rw [Memory.readB_of_covers (chunks_apart loaded disjoint) (segment_mem loaded member loads) covers, place]
  show Except.ok (((phdr.chunk rawdata).mem.byte (phdr.p_vaddr.toNat + i - phdr.p_vaddr.toNat)).toBitVec) = _
  rw [Nat.add_sub_cancel_left, Bytes.byte_eq (phdr.chunk rawdata).mem inside]
  rfl

/-- Segments below the end of the address space are loaded as the file has them. -/
theorem image_of_fits (loaded : memLoadElf phdrs rawdata = .ok m) (disjoint : Disjoint phdrs)
    (fits : ∀ phdr ∈ phdrs, phdr.loads = true → phdr.p_vaddr.toNat + phdr.size.toNat < 2 ^ 32) :
    Image phdrs rawdata m where
  file phdr member kind i inside := by
    have whole : i < phdr.size.toNat := by
      rw [phdr.toNat_size]
      exact inside.trans_le (le_max_left ..)
    have loads := phdr.loads_iff.mpr ⟨kind, Nat.zero_lt_of_lt whole⟩
    rw [readB_segment loaded disjoint member loads (fits phdr member loads) whole, if_pos inside]
  zero phdr member kind i behind inside := by
    have whole : i < phdr.size.toNat := by
      rw [phdr.toNat_size]
      exact inside.trans_le (le_max_right ..)
    have loads := phdr.loads_iff.mpr ⟨kind, Nat.zero_lt_of_lt whole⟩
    rw [readB_segment loaded disjoint member loads (fits phdr member loads) whole, if_neg (not_lt.mpr behind)]
    rfl
  others a outside notUart := by
    refine Memory.readB_rejects fun c member covers => ?_
    rw [memLoadElf_chunks loaded, List.mem_append] at member
    obtain ⟨-, low, high⟩ := covers
    rcases member with segment | isUart
    · obtain ⟨phdr, found, rfl⟩ := List.mem_map.mp segment
      obtain ⟨here, loads⟩ := List.mem_filter.mp found
      refine outside phdr here (phdr.loads_iff.mp loads).1 ⟨a.toNat - phdr.p_vaddr.toNat, ?_, ?_⟩
      · exact Nat.sub_lt_left_of_lt_add low high
      · have low : phdr.p_vaddr.toNat ≤ a.toNat := low
        apply BitVec.eq_of_toNat_eq
        rw [Memory.toNat_add_small (by omega)]
        omega
    · rw [List.mem_singleton.mp isUart] at low high
      exact notUart ⟨low, high⟩

/-- A segment that goes to the end of the address space or beyond it is not found. -/
theorem fits_of_image (loaded : memLoadElf phdrs rawdata = .ok m) (disjoint : Disjoint phdrs)
    (image : Image phdrs rawdata m) {phdr : Phdr} (member : phdr ∈ phdrs) (loads : phdr.loads = true) :
    phdr.p_vaddr.toNat + phdr.size.toNat < 2 ^ 32 := by
  by_contra beyond
  have mine := segment_mem loaded member loads
  obtain ⟨kind, positive⟩ := phdr.loads_iff.mp loads
  have first : ∃ byte, m.readB (phdr.p_vaddr + BitVec.ofNat 32 0) = .ok byte := by
    by_cases inFile : 0 < phdr.p_filesz.toNat
    · exact ⟨_, image.file phdr member kind 0 inFile⟩
    · rw [phdr.toNat_size, lt_max_iff] at positive
      exact ⟨_, image.zero phdr member kind 0 (not_lt.mp inFile) (positive.resolve_left inFile)⟩
  obtain ⟨byte, read⟩ := first
  have start : phdr.p_vaddr + BitVec.ofNat 32 0 = phdr.p_vaddr := BitVec.add_zero _
  rw [start] at read
  obtain ⟨format, args, rejected⟩ := @Memory.readB_rejects m phdr.p_vaddr fun c found covers => by
    obtain ⟨fits, low, high⟩ := covers
    have other : phdr.chunk rawdata ≠ c := by
      rintro rfl
      exact beyond fits
    rcases (chunks_apart loaded disjoint).forall mine found other with below | above
    · exact beyond (below.trans_lt c.begin_.isLt)
    · exact absurd high (not_lt.mpr above)
  rw [rejected] at read
  cases read

end Loaded

/-- An ELF file whose segments lie in the file and do not overlap is loaded without leaving the table of
chunks, and `mem_read_b` sees its image exactly if every segment ends below 2^32. -/
theorem memLoadElf_image_iff (junk : Nat → Chunk) {phdrs : List Phdr} {rawdata : List UInt8}
    (inFile : InFile phdrs rawdata) (disjoint : Disjoint phdrs) :
    ∃ t, ChunkTable.memLoadElf junk phdrs rawdata = .ok t ∧
      (Image phdrs rawdata t.memory ↔
        ∀ phdr ∈ phdrs, phdr.loads = true → phdr.p_vaddr.toNat + phdr.size.toNat < 2 ^ 32) := by
  obtain ⟨m, loaded⟩ := memLoadElf_ok inFile
  have table := ChunkTable.memLoadElf_chunks junk phdrs rawdata
  rw [loaded] at table
  obtain ⟨t, ran, same⟩ := map_ok.mp table
  obtain ⟨chunks, -, made⟩ := bind_ok.mp loaded
  have memory : t.memory = m := by
    cases made
    exact congrArg (Memory.mk · []) same
  refine ⟨t, ran, ?_⟩
  rw [memory]
  exact ⟨fun image _ => fits_of_image loaded disjoint image, image_of_fits loaded disjoint⟩

/-- Four bytes in the file and four zero bytes behind them. -/
theorem memLoadElf_image_small : ∃ t,
    ChunkTable.memLoadElf (fun _ => uartChunk) [⟨PT_LOAD, 0, 0x1000, 4, 8⟩, ⟨0, 0, 0, 0, 0⟩] [1, 2, 3, 4] =
        .ok t ∧
      (Image [⟨PT_LOAD, 0, 0x1000, 4, 8⟩, ⟨0, 0, 0, 0, 0⟩] [1, 2, 3, 4] t.memory ↔
        ∀ phdr ∈ [(⟨PT_LOAD, 0, 0x1000, 4, 8⟩ : Phdr), ⟨0, 0, 0, 0, 0⟩], phdr.loads = true →
          phdr.p_vaddr.toNat + phdr.size.toNat < 2 ^ 32) :=
  memLoadElf_image_iff (fun _ => uartChunk) (by unfold InFile; decide) ⟨by decide, by decide⟩

/-- The last four bytes of the address space. -/
def topPhdr : Phdr := ⟨PT_LOAD, 0, 0xFFFFFFFC, 4, 4⟩

/-- A segment that ends with the address space is loaded, but its first byte is not found. -/
theorem memLoadElf_image_top : InFile [topPhdr] [1, 2, 3, 4] ∧ Disjoint [topPhdr] ∧
    ∃ m, memLoadElf [topPhdr] [1, 2, 3, 4] = .ok m ∧
      m.readB topPhdr.p_vaddr = .error (.error "chunk not found, addr=0x%x!" [0xFFFFFFFC]) ∧
      ¬ Image [topPhdr] [1, 2, 3, 4] m := by
  have inFile : InFile [topPhdr] [1, 2, 3, 4] := by
    unfold InFile
    decide
  have disjoint : Disjoint [topPhdr] := ⟨by decide, by decide⟩
  refine ⟨inFile, disjoint, _, rfl, rfl, fun image => ?_⟩
  have read := image.file topPhdr (List.mem_singleton_self _) rfl 0 (by decide)
  cases read

end Riscv2os.Emulator
