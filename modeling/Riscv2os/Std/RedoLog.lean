import Mathlib.Tactic

/-!
# Redo logs over atomically written blocks

A disk is a function from addresses to contents, and a crash leaves the disk
after some prefix of the writes. A `RedoLog` names the header block, the slots
and the code of the header. `view` is what recovery makes of a disk: a logged
block has the content of its slot, every other block its own. `view_commit` and
`view_recovery` say what the view is after any prefix of a commit and of a
recovery, so a crash inside recovery is no different from a crash before it.
-/

namespace Riscv2os.Std

variable {Addr Content : Type*} [DecidableEq Addr]

/-- The disk after some writes, oldest first. -/
def replay (writes : List (Addr × Content)) (disk : Addr → Content) : Addr → Content :=
  writes.foldl (fun disk write => Function.update disk write.1 write.2) disk

@[simp] theorem replay_nil (disk : Addr → Content) : replay [] disk = disk := rfl

@[simp] theorem replay_cons (write : Addr × Content) (writes : List (Addr × Content))
    (disk : Addr → Content) :
    replay (write :: writes) disk = replay writes (Function.update disk write.1 write.2) := rfl

theorem replay_append (first second : List (Addr × Content)) (disk : Addr → Content) :
    replay (first ++ second) disk = replay second (replay first disk) :=
  List.foldl_append

/-- A block that no write is about keeps its content. -/
theorem replay_of_not_mem {writes : List (Addr × Content)} {a : Addr} (disk : Addr → Content)
    (untouched : ∀ write ∈ writes, write.1 ≠ a) : replay writes disk a = disk a := by
  induction writes generalizing disk with
  | nil => rfl
  | cons write writes ih =>
      rw [replay_cons, ih _ fun later member => untouched later (List.mem_cons_of_mem _ member)]
      exact Function.update_of_ne (untouched write List.mem_cons_self).symm _ _

/-- A block has the content of the only write about it. -/
theorem replay_of_mem {writes : List (Addr × Content)} {a : Addr} {content : Content}
    (disk : Addr → Content) (member : (a, content) ∈ writes)
    (only : ∀ write ∈ writes, write.1 = a → write.2 = content) :
    replay writes disk a = content := by
  induction writes generalizing disk with
  | nil => cases member
  | cons write writes ih =>
      have rest : ∀ later ∈ writes, later.1 = a → later.2 = content :=
        fun later place => only later (List.mem_cons_of_mem _ place)
      by_cases again : (a, content) ∈ writes
      · exact ih _ again rest
      · have first : write = (a, content) := ((List.mem_cons.mp member).resolve_right again).symm
        rw [replay_cons, replay_of_not_mem, first, Function.update_self]
        intro later place same
        exact again (by rw [← same, ← rest later place same]; exact place)

/-- A prefix of `first ++ second` ends in `first` or in `second`. -/
theorem prefix_append_cases {α : Type*} {done first second : List α}
    (before : done <+: first ++ second) :
    done <+: first ∨ ∃ rest, rest <+: second ∧ done = first ++ rest := by
  rcases List.prefix_or_prefix_of_prefix before (List.prefix_append first second) with
    inside | ⟨rest, rfl⟩
  · exact .inl inside
  · exact .inr ⟨rest, (List.prefix_append_right_inj first).mp before, rfl⟩

/-- Where the log is on the disk and how its header block is read. -/
structure RedoLog (Addr Content : Type*) where
  header : Addr
  slot : Nat → Addr
  /-- Number of slots that belong to the log. -/
  capacity : Nat
  count : Content → Nat
  entry : Content → Nat → Addr
  slot_ne_header : ∀ i, slot i ≠ header
  slot_injective : Function.Injective slot

namespace RedoLog

variable (log : RedoLog Addr Content)

/-- The blocks outside the log. -/
def IsHome (a : Addr) : Prop := a ≠ log.header ∧ ∀ i < log.capacity, a ≠ log.slot i

/-- The header lists different home blocks, no more than there are slots. -/
structure WellFormed (content : Content) : Prop where
  fits : log.count content ≤ log.capacity
  home : ∀ i < log.count content, log.IsHome (log.entry content i)
  distinct : ∀ i < log.count content, ∀ j < log.count content,
    log.entry content i = log.entry content j → i = j

/-- What recovery makes of a block of a disk. -/
def view (disk : Addr → Content) (a : Addr) : Content :=
  let head := disk log.header
  match (List.range (log.count head)).find? fun i => log.entry head i = a with
  | some i => disk (log.slot i)
  | none => disk a

variable {log}

omit [DecidableEq Addr] in
/-- A header without entries lists nothing that could be wrong. -/
theorem WellFormed.of_empty {content : Content} (empty : log.count content = 0) :
    log.WellFormed content where
  fits := by omega
  home i small := absurd small (by omega)
  distinct i small := absurd small (by omega)

/-- The view of a block that the header does not list. -/
theorem view_of_unlisted {disk : Addr → Content} {a : Addr}
    (unlisted : ∀ i < log.count (disk log.header), log.entry (disk log.header) i ≠ a) :
    log.view disk a = disk a := by
  unfold view
  simp only
  cases found : (List.range (log.count (disk log.header))).find?
      fun i => log.entry (disk log.header) i = a with
  | none => rfl
  | some i =>
      have small := List.mem_range.mp (List.mem_of_find?_eq_some found)
      exact absurd (by simpa using List.find?_some found) (unlisted i small)

/-- The view of a block that the header lists. -/
theorem view_of_listed (disk : Addr → Content) (wellFormed : log.WellFormed (disk log.header))
    {i : Nat} (small : i < log.count (disk log.header)) :
    log.view disk (log.entry (disk log.header) i) = disk (log.slot i) := by
  unfold view
  simp only
  cases found : (List.range (log.count (disk log.header))).find?
      fun j => log.entry (disk log.header) j = log.entry (disk log.header) i with
  | none =>
      have := List.find?_eq_none.mp found i (List.mem_range.mpr small)
      simp at this
  | some j =>
      have inside := List.mem_range.mp (List.mem_of_find?_eq_some found)
      have same := wellFormed.distinct j inside i small (by simpa using List.find?_some found)
      rw [same]

/-- With an empty header the view is the disk. -/
theorem view_of_empty {disk : Addr → Content} (empty : log.count (disk log.header) = 0) :
    log.view disk = disk := by
  funext a
  exact view_of_unlisted fun i small => absurd small (by omega)

/-- Writing a listed block changes no view of a home block. -/
theorem view_install {disk : Addr → Content} (wellFormed : log.WellFormed (disk log.header))
    {writes : List (Addr × Content)}
    (listed : ∀ write ∈ writes,
      ∃ i < log.count (disk log.header), write.1 = log.entry (disk log.header) i) :
    replay writes disk log.header = disk log.header ∧
      ∀ a, log.IsHome a → log.view (replay writes disk) a = log.view disk a := by
  have home : ∀ write ∈ writes, log.IsHome write.1 := by
    intro write member
    obtain ⟨i, small, same⟩ := listed write member
    exact same ▸ wellFormed.home i small
  have header : replay writes disk log.header = disk log.header :=
    replay_of_not_mem disk fun write member => (home write member).1
  refine ⟨header, fun a _ => ?_⟩
  by_cases inLog : ∃ i < log.count (disk log.header), log.entry (disk log.header) i = a
  · obtain ⟨i, small, rfl⟩ := inLog
    have after := view_of_listed (replay writes disk) (by rwa [header])
      (i := i) (by rwa [header])
    rw [header] at after
    rw [after, view_of_listed disk wellFormed small]
    exact replay_of_not_mem disk fun write member =>
      (home write member).2 i (lt_of_lt_of_le small wellFormed.fits)
  · have unlisted : ∀ i < log.count (disk log.header), log.entry (disk log.header) i ≠ a :=
      fun i small same => inLog ⟨i, small, same⟩
    rw [view_of_unlisted unlisted, view_of_unlisted (by rwa [header])]
    refine replay_of_not_mem disk fun write member same => ?_
    obtain ⟨i, small, equal⟩ := listed write member
    exact unlisted i small (equal.symm.trans same)

/-- Emptying the header once all listed blocks are installed changes no view. -/
theorem view_clear {disk : Addr → Content} (wellFormed : log.WellFormed (disk log.header))
    (installed : ∀ i < log.count (disk log.header),
      disk (log.entry (disk log.header) i) = disk (log.slot i))
    {content : Content} (empty : log.count content = 0) {a : Addr} (home : log.IsHome a) :
    log.view (Function.update disk log.header content) a = log.view disk a := by
  have now : log.view (Function.update disk log.header content) =
      Function.update disk log.header content := view_of_empty (by simpa using empty)
  rw [now, Function.update_of_ne home.1]
  by_cases inLog : ∃ i < log.count (disk log.header), log.entry (disk log.header) i = a
  · obtain ⟨i, small, rfl⟩ := inLog
    rw [view_of_listed disk wellFormed small, installed i small]
  · exact (view_of_unlisted fun i small same => inLog ⟨i, small, same⟩).symm

/-- The writes that copy the blocks of a header into the slots. -/
def slotWrites (log : RedoLog Addr Content) (full : Content) (value : Addr → Content) :
    List (Addr × Content) :=
  (List.range (log.count full)).map fun i => (log.slot i, value (log.entry full i))

/-- The writes of a commit: the blocks into their slots, the header, the blocks
into their homes, the empty header. -/
def commitWrites (log : RedoLog Addr Content) (full empty : Content) (value : Addr → Content) :
    List (Addr × Content) :=
  log.slotWrites full value ++ (log.header, full) ::
    ((List.range (log.count full)).map (fun i => (log.entry full i, value (log.entry full i))) ++
      [(log.header, empty)])

/-- The writes of a recovery: the slots into the homes, the empty header. -/
def recoveryWrites (log : RedoLog Addr Content) (disk : Addr → Content) (empty : Content) :
    List (Addr × Content) :=
  (List.range (log.count (disk log.header))).map
      (fun i => (log.entry (disk log.header) i, disk (log.slot i))) ++
    [(log.header, empty)]

/-- Any prefix of a recovery leaves the view as it was. -/
theorem view_recovery {disk : Addr → Content} {empty : Content}
    (wellFormed : log.WellFormed (disk log.header)) (zero : log.count empty = 0)
    {done : List (Addr × Content)} (before : done <+: log.recoveryWrites disk empty) :
    log.WellFormed (replay done disk log.header) ∧
      ∀ a, log.IsHome a → log.view (replay done disk) a = log.view disk a := by
  let installs := (List.range (log.count (disk log.header))).map
    fun i => (log.entry (disk log.header) i, disk (log.slot i))
  have listed : ∀ write ∈ installs, ∃ i < log.count (disk log.header),
      write.1 = log.entry (disk log.header) i := by
    intro write member
    obtain ⟨i, small, rfl⟩ := List.mem_map.mp member
    exact ⟨i, List.mem_range.mp small, rfl⟩
  rcases prefix_append_cases (show done <+: installs ++ _ from before) with inside | ⟨rest, tail, rfl⟩
  · have same := view_install wellFormed fun write member => listed write (inside.subset member)
    exact ⟨same.1 ▸ wellFormed, same.2⟩
  · have same := view_install wellFormed listed
    rw [replay_append]
    have wellFormed' : log.WellFormed (replay installs disk log.header) := same.1 ▸ wellFormed
    rcases List.prefix_cons_iff.mp tail with rfl | ⟨_, rfl, none⟩
    · exact ⟨wellFormed', same.2⟩
    · obtain rfl := List.prefix_nil.mp none
      refine ⟨by simpa using WellFormed.of_empty zero, fun a home => ?_⟩
      rw [← same.2 a home]
      refine view_clear wellFormed' (fun i small => ?_) zero home
      rw [same.1] at small ⊢
      have slot : replay installs disk (log.slot i) = disk (log.slot i) := by
        refine replay_of_not_mem disk fun write member => ?_
        obtain ⟨j, inside, equal⟩ := listed write member
        rw [equal]
        exact (wellFormed.home j inside).2 i (lt_of_lt_of_le small wellFormed.fits)
      rw [slot]
      refine replay_of_mem disk (List.mem_map.mpr ⟨i, List.mem_range.mpr small, rfl⟩) ?_
      intro write member equal
      obtain ⟨j, inside, rfl⟩ := List.mem_map.mp member
      rw [wellFormed.distinct j (List.mem_range.mp inside) i small equal]

/-- A whole recovery leaves the header empty. -/
theorem replay_recoveryWrites_header (disk other : Addr → Content) (empty : Content) :
    replay (log.recoveryWrites disk empty) other log.header = empty := by
  rw [recoveryWrites, replay_append, replay_cons, replay_nil, Function.update_self]

/-- A whole recovery leaves on every home block what the view was. -/
theorem replay_recovery {disk : Addr → Content} {empty : Content}
    (wellFormed : log.WellFormed (disk log.header)) (zero : log.count empty = 0) {a : Addr}
    (home : log.IsHome a) : replay (log.recoveryWrites disk empty) disk a = log.view disk a := by
  rw [← (view_recovery wellFormed zero (List.prefix_refl _)).2 a home]
  rw [view_of_empty (by rw [replay_recoveryWrites_header, zero])]

section Commit

variable {disk : Addr → Content} {full empty : Content} {value : Addr → Content}

omit [DecidableEq Addr] in
private theorem mem_slotWrites {write : Addr × Content}
    (member : write ∈ log.slotWrites full value) :
    ∃ i < log.count full, write.1 = log.slot i := by
  obtain ⟨i, small, rfl⟩ := List.mem_map.mp member
  exact ⟨i, List.mem_range.mp small, rfl⟩

/-- The slots hold the new content of the blocks of the header. -/
theorem replay_slotWrites_slot {i : Nat} (small : i < log.count full) :
    replay (log.slotWrites full value) disk (log.slot i) = value (log.entry full i) := by
  refine replay_of_mem disk (List.mem_map.mpr ⟨i, List.mem_range.mpr small, rfl⟩) ?_
  intro write member same
  obtain ⟨j, _, rfl⟩ := List.mem_map.mp member
  rw [log.slot_injective same]

/-- Writing slots touches neither the header nor a home block. -/
theorem replay_slotWrites_of_ne (fits : log.count full ≤ log.capacity)
    {done : List (Addr × Content)} (before : done <+: log.slotWrites full value) {a : Addr}
    (outside : a = log.header ∨ log.IsHome a) : replay done disk a = disk a := by
  refine replay_of_not_mem disk fun write member same => ?_
  obtain ⟨i, small, equal⟩ := mem_slotWrites (before.subset member)
  rcases outside with rfl | home
  · exact log.slot_ne_header i (equal.symm.trans same)
  · exact home.2 i (lt_of_lt_of_le small fits) (same.symm.trans equal)

/-- What follows the slots of a commit is the write of the header and then the
recovery of the disk that has it. -/
theorem commitWrites_eq (log : RedoLog Addr Content) (full empty : Content)
    (value disk : Addr → Content) : log.commitWrites full empty value =
    log.slotWrites full value ++ (log.header, full) :: log.recoveryWrites
      (Function.update (replay (log.slotWrites full value) disk) log.header full) empty := by
  have copies : ∀ i ∈ List.range (log.count full),
      (log.entry full i, value (log.entry full i)) = (log.entry full i,
        Function.update (replay (log.slotWrites full value) disk) log.header full (log.slot i)) := by
    intro i member
    rw [Function.update_of_ne (log.slot_ne_header i),
      replay_slotWrites_slot (List.mem_range.mp member)]
  rw [commitWrites, recoveryWrites, Function.update_self, List.map_congr_left copies]

/-- Before the write of the header a commit leaves the view as it was. -/
theorem view_slotWrites (before : log.count (disk log.header) = 0)
    (fits : log.count full ≤ log.capacity) {done : List (Addr × Content)}
    (doing : done <+: log.slotWrites full value) :
    log.WellFormed (replay done disk log.header) ∧ (∀ write ∈ done, write.1 ≠ log.header) ∧
      ∀ a, log.IsHome a → log.view (replay done disk) a = disk a := by
  have header : replay done disk log.header = disk log.header :=
    replay_slotWrites_of_ne fits doing (.inl rfl)
  refine ⟨.of_empty (header ▸ before), fun write member => ?_, fun a home => ?_⟩
  · obtain ⟨i, _, same⟩ := mem_slotWrites (doing.subset member)
    exact same ▸ log.slot_ne_header i
  · rw [view_of_empty (header ▸ before), replay_slotWrites_of_ne fits doing (.inr home)]

/-- The write of the header makes the listed blocks new, all at once. -/
theorem view_committed (wellFormed : log.WellFormed full) {a : Addr} (home : log.IsHome a) :
    log.view (Function.update (replay (log.slotWrites full value) disk) log.header full) a =
      if ∃ i < log.count full, log.entry full i = a then value a else disk a := by
  have head : Function.update (replay (log.slotWrites full value) disk) log.header full log.header =
      full := Function.update_self ..
  split
  · next inLog =>
    obtain ⟨i, small, rfl⟩ := inLog
    have listed := view_of_listed
      (Function.update (replay (log.slotWrites full value) disk) log.header full)
      (by rwa [head]) (i := i) (by rwa [head])
    rw [head] at listed
    rw [listed, Function.update_of_ne (log.slot_ne_header i), replay_slotWrites_slot small]
  · next unlisted =>
    have others : ∀ i < log.count full, log.entry full i ≠ a :=
      fun i small same => unlisted ⟨i, small, same⟩
    rw [view_of_unlisted (by rwa [head]), Function.update_of_ne home.1,
      replay_slotWrites_of_ne wellFormed.fits (List.prefix_refl _) (.inr home)]

/-- A prefix of a commit leaves the old view up to the write of the header, and
from it on the view in which the listed blocks are new. -/
theorem view_commit (before : log.count (disk log.header) = 0) (wellFormed : log.WellFormed full)
    (zero : log.count empty = 0) {done : List (Addr × Content)}
    (doing : done <+: log.commitWrites full empty value) :
    log.WellFormed (replay done disk log.header) ∧
      (((∀ write ∈ done, write.1 ≠ log.header) ∧
          ∀ a, log.IsHome a → log.view (replay done disk) a = disk a) ∨
        ((∃ rest, done = log.slotWrites full value ++ (log.header, full) :: rest ∧
            ∀ write ∈ rest, write.1 = log.header → write.2 = empty) ∧
          ∀ a, log.IsHome a → log.view (replay done disk) a =
            if ∃ i < log.count full, log.entry full i = a then value a else disk a)) := by
  rw [commitWrites_eq log full empty value disk] at doing
  rcases prefix_append_cases doing with inside | ⟨rest, tail, rfl⟩
  · obtain ⟨kept, notHeader, same⟩ := view_slotWrites before wellFormed.fits inside
    exact ⟨kept, .inl ⟨notHeader, same⟩⟩
  rcases List.prefix_cons_iff.mp tail with rfl | ⟨after, rfl, later⟩
  · rw [List.append_nil]
    obtain ⟨kept, notHeader, same⟩ :=
      view_slotWrites before wellFormed.fits (List.prefix_refl (log.slotWrites full value))
    exact ⟨kept, .inl ⟨notHeader, same⟩⟩
  · have head : Function.update (replay (log.slotWrites full value) disk) log.header full
        log.header = full := Function.update_self ..
    have recovering := view_recovery (by rwa [head]) zero later
    rw [replay_append, replay_cons]
    refine ⟨recovering.1, .inr ⟨⟨after, rfl, fun write member same => ?_⟩, fun a home => ?_⟩⟩
    · rcases List.mem_append.mp (later.subset member) with install | clear
      · obtain ⟨i, small, rfl⟩ := List.mem_map.mp install
        rw [head] at small same
        exact absurd same (wellFormed.home i (List.mem_range.mp small)).1
      · rw [List.mem_singleton.mp clear]
    · rw [recovering.2 a home, view_committed wellFormed home]

omit [DecidableEq Addr] in
theorem slotWrites_ne_header {write : Addr × Content}
    (member : write ∈ log.slotWrites full value) : write.1 ≠ log.header := by
  obtain ⟨i, _, same⟩ := mem_slotWrites member
  exact same ▸ log.slot_ne_header i

omit [DecidableEq Addr] in
/-- After its header a commit writes only the empty header there. -/
theorem commitWrites_tail (wellFormed : log.WellFormed full) (empty : Content)
    (value : Addr → Content) :
    ∃ rest, log.commitWrites full empty value =
        log.slotWrites full value ++ (log.header, full) :: rest ∧
      ∀ write ∈ rest, write.1 = log.header → write.2 = empty := by
  refine ⟨_, rfl, fun write member same => ?_⟩
  rcases List.mem_append.mp member with install | clear
  · obtain ⟨i, small, rfl⟩ := List.mem_map.mp install
    exact absurd same (wellFormed.home i (List.mem_range.mp small)).1
  · rw [List.mem_singleton.mp clear]

/-- A whole commit makes the listed blocks new on the disk. -/
theorem replay_commit (wellFormed : log.WellFormed full) (zero : log.count empty = 0) {a : Addr}
    (home : log.IsHome a) : replay (log.commitWrites full empty value) disk a =
      if ∃ i < log.count full, log.entry full i = a then value a else disk a := by
  have head : Function.update (replay (log.slotWrites full value) disk) log.header full log.header =
      full := Function.update_self ..
  rw [commitWrites_eq log full empty value disk, replay_append, replay_cons,
    replay_recovery (by rwa [head]) zero home, view_committed wellFormed home]

/-- A whole commit leaves the header empty. -/
theorem replay_commitWrites_header :
    replay (log.commitWrites full empty value) disk log.header = empty := by
  rw [commitWrites, replay_append, replay_cons, replay_append, replay_cons, replay_nil,
    Function.update_self]

end Commit

end RedoLog

end Riscv2os.Std
