import Riscv2os.Xv7.LogHeader
import Riscv2os.Xv7.LogSystem

/-!
# The straight-line code of a log thread

`Typed hold code unpins` says that `code`, started with the local variables in
the phases `hold`, uses each of them as `bread` and `brelse` prescribe, ends with
nothing in hand, and calls `bunpin` for the blocks `unpins`, in that order. All
code of `log.c` is typed.
-/

namespace Riscv2os.Xv7

open Riscv2os.Std

/-- For each local variable the block it has and how far its `bread` has come. -/
abbrev Hold := Reg → Option (Nat × Phase)

/-- Code that follows the protocol of the cache. -/
inductive Typed : Hold → List Instr → List Nat → Prop where
  | nil : Typed (fun _ => none) [] []
  | bget {hold r blockno code unpins} (free : hold r = none)
      (rest : Typed (Function.update hold r (some (blockno, .waiting))) code unpins) :
      Typed hold (.bget r blockno :: code) unpins
  | acquiresleep {hold r blockno code unpins} (held : hold r = some (blockno, .waiting))
      (rest : Typed (Function.update hold r (some (blockno, .filling))) code unpins) :
      Typed hold (.acquiresleep r :: code) unpins
  | fill {hold r blockno code unpins} (held : hold r = some (blockno, .filling))
      (rest : Typed (Function.update hold r (some (blockno, .holding))) code unpins) :
      Typed hold (.fill r :: code) unpins
  | memmove {hold dst src blockno code unpins} (held : hold dst = some (blockno, .holding))
      (rest : Typed hold code unpins) : Typed hold (.memmove dst src :: code) unpins
  | getHead {hold r blockno code} (held : hold r = some (blockno, .holding))
      (rest : Typed hold code []) : Typed hold (.getHead r :: code) []
  | putHead {hold r blockno code unpins} (held : hold r = some (blockno, .holding))
      (rest : Typed hold code unpins) : Typed hold (.putHead r :: code) unpins
  | bwrite {hold r blockno code unpins} (held : hold r = some (blockno, .holding))
      (rest : Typed hold code unpins) : Typed hold (.bwrite r :: code) unpins
  | bunpin {hold r blockno code unpins} (held : hold r = some (blockno, .holding))
      (rest : Typed hold code unpins) : Typed hold (.bunpin r :: code) (blockno :: unpins)
  | releasesleep {hold r blockno code unpins} (held : hold r = some (blockno, .holding))
      (rest : Typed (Function.update hold r (some (blockno, .leaving))) code unpins) :
      Typed hold (.releasesleep r :: code) unpins
  | drop {hold r blockno code unpins} (held : hold r = some (blockno, .leaving))
      (rest : Typed (Function.update hold r none) code unpins) :
      Typed hold (.drop r :: code) unpins
  | clear {hold code} (rest : Typed hold code []) : Typed hold (.clear :: code) []

namespace Typed

variable {hold : Hold} {code rest : List Instr} {unpins : List Nat} {r : Reg} {blockno : Nat}

/-- The blocks that the code unpins are as many as its calls of `bunpin`. -/
theorem length_unpins (typed : Typed hold code unpins) :
    unpins.length = code.countP Instr.isBunpin := by
  induction typed <;> simp_all [List.countP_cons, Instr.isBunpin]

/-- `bread` of a free local variable. -/
theorem bread (free : hold r = none)
    (then_ : Typed (Function.update hold r (some (blockno, .holding))) rest unpins) :
    Typed hold (Log.bread r blockno ++ rest) unpins := by
  apply Typed.bget free
  apply Typed.acquiresleep (Function.update_self ..)
  rw [Function.update_idem]
  apply Typed.fill (Function.update_self ..)
  rwa [Function.update_idem]

/-- `brelse` of a local variable that holds a buffer. -/
theorem brelse (held : hold r = some (blockno, .holding))
    (then_ : Typed (Function.update hold r none) rest unpins) :
    Typed hold (Log.brelse r ++ rest) unpins := by
  apply Typed.releasesleep held
  apply Typed.drop (Function.update_self ..)
  rwa [Function.update_idem]

/-- A loop of typed rounds. -/
theorem flatMap {body : Nat → List Instr} (unpin : Nat → List Nat) (tails : List Nat)
    (round : ∀ tail ∈ tails, ∀ {rest unpins}, Typed (fun _ => none) rest unpins →
      Typed (fun _ => none) (body tail ++ rest) (unpin tail ++ unpins))
    (then_ : Typed (fun _ => none) rest unpins) :
    Typed (fun _ => none) (tails.flatMap body ++ rest) (tails.flatMap unpin ++ unpins) := by
  induction tails with
  | nil => exact then_
  | cons tail tails ih =>
      rw [List.flatMap_cons, List.append_assoc, List.flatMap_cons, List.append_assoc]
      exact round tail List.mem_cons_self (ih fun later member =>
        round later (List.mem_cons_of_mem _ member))

/-- With nothing in hand. -/
private theorem of_free (free : ∀ r, hold r = none)
    (then_ : Typed (fun _ => none) rest unpins) : Typed hold rest unpins := by
  rwa [show hold = fun _ => none from funext free]

variable (log : Log)

theorem writeLogBody (tail : Nat) (then_ : Typed (fun _ => none) rest unpins) :
    Typed (fun _ => none) (log.writeLogBody tail ++ rest) unpins := by
  simp only [Log.writeLogBody, List.append_assoc, List.cons_append, List.nil_append]
  refine bread rfl (bread rfl (.memmove rfl (.bwrite rfl (brelse rfl (brelse rfl ?_)))))
  exact of_free (fun r => by cases r <;> rfl) then_

theorem installTransBody (tail : Nat) (then_ : Typed (fun _ => none) rest unpins) :
    Typed (fun _ => none) (log.installTransBody tail ++ rest) (log.lh.block tail :: unpins) := by
  simp only [Log.installTransBody, List.append_assoc, List.cons_append, List.nil_append]
  refine bread rfl (bread rfl (.memmove rfl (.bwrite rfl (.bunpin rfl
    (brelse rfl (brelse rfl ?_))))))
  exact of_free (fun r => by cases r <;> rfl) then_

theorem writeHead (then_ : Typed (fun _ => none) rest unpins) :
    Typed (fun _ => none) (log.writeHead ++ rest) unpins := by
  simp only [Log.writeHead, List.append_assoc, List.cons_append]
  refine bread rfl (.putHead rfl (.bwrite rfl (brelse rfl ?_)))
  exact of_free (fun r => by cases r <;> rfl) then_

/-- `read_head`. -/
theorem readHead : Typed (fun _ => none) log.readHead [] := by
  rw [Log.readHead, ← List.append_nil (Log.brelse .buf)]
  refine bread rfl (.getHead rfl (brelse rfl ?_))
  exact of_free (fun r => by cases r <;> rfl) .nil

/-- `install_trans` and the clearing of the log. -/
theorem installTrans :
    Typed (fun _ => none) (log.installTrans ++ .clear :: log.writeHead) log.lh.blocks := by
  have erase : Typed (fun _ => none) (.clear :: log.writeHead) [] := by
    have := writeHead log Typed.nil
    rw [List.append_nil] at this
    exact .clear this
  have loop := flatMap (fun tail => [log.lh.block tail]) (List.range log.lh.n.toNat)
    (fun tail _ _ _ => installTransBody log tail) erase
  rw [← List.map_eq_flatMap, List.append_nil] at loop
  exact loop

/-- `commit` unpins the blocks of the header. -/
theorem commit (nonneg : 0 ≤ log.lh.n) : Typed (fun _ => none) log.commit log.lh.blocks := by
  unfold Log.commit
  split
  · have loop := flatMap (fun _ => []) (List.range log.lh.n.toNat)
      (fun tail _ _ _ => writeLogBody log tail) (writeHead log (installTrans log))
    have none : (List.range log.lh.n.toNat).flatMap (fun _ => ([] : List Nat)) = [] :=
      List.flatMap_eq_nil_iff.mpr fun _ _ => rfl
    rw [none, List.nil_append] at loop
    simpa [Log.writeLog] using loop
  · have empty : log.lh.blocks = [] := by
      rw [← List.length_eq_zero_iff, Logheader.length_blocks]
      omega
    rw [empty]
    exact .nil

end Typed

namespace Log

variable (log : Log)

/-- Only `read_head` loads the header. -/
theorem getHead_not_mem_install (r : Reg) :
    .getHead r ∉ log.installTrans ++ .clear :: log.writeHead := by
  simp [installTrans, installTransBody, writeHead, bread, brelse]

theorem getHead_not_mem_commit (r : Reg) : .getHead r ∉ log.commit := by
  unfold commit
  split
  · simp [installTrans, installTransBody, writeLog, writeLogBody, writeHead, bread, brelse]
  · simp

/-- A commit clears the header unless it was empty. -/
theorem clear_mem_commit (nonneg : 0 ≤ log.lh.n) : .clear ∈ log.commit ∨ log.lh.n = 0 := by
  unfold commit
  split
  · exact .inl (by simp)
  · exact .inr (by omega)

/-- `read_head` reads the header block alone and stores nothing. -/
theorem mem_readHead {instr : Instr} (member : instr ∈ log.readHead) :
    instr = .bget .buf log.start ∨ instr = .acquiresleep .buf ∨ instr = .fill .buf ∨
      instr = .getHead .buf ∨ instr = .releasesleep .buf ∨ instr = .drop .buf := by
  simpa [readHead, bread, brelse] using member

end Log

theorem Reg.slot_injective : Function.Injective Reg.slot := by
  intro left right same
  cases left <;> cases right <;> first | rfl | cases same

theorem Reg.slot_lt (r : Reg) : r.slot < Reg.slots := by
  cases r <;> decide

theorem Reg.exists_of_lt {slot : Nat} (small : slot < Reg.slots) : ∃ r : Reg, slot = r.slot := by
  unfold Reg.slots at small
  interval_cases slot
  · exact ⟨.buf, rfl⟩
  · exact ⟨.lbuf, rfl⟩
  · exact ⟨.dbuf, rfl⟩
  · exact ⟨.to, rfl⟩
  · exact ⟨.from, rfl⟩

/-- The `bread` of a local variable of a thread. -/
def Thread.ref (t : Thread) (dev : Nat) (r : Reg) (blockno : Nat) (phase : Phase) : Ref :=
  ⟨t.pid, r.slot, dev, blockno, t.regs r, phase⟩

/-- What distinguishes the outstanding `bread`s: process and local variable. -/
def Ref.key (r : Ref) : Nat × Nat := (r.pid, r.slot)

/-- The outstanding `bread`s of a process in its local variables of `log.c` are
those of `hold`. -/
def Matches (refs : List Ref) (t : Thread) (dev : Nat) (hold : Hold) : Prop :=
  ∀ r x, (x ∈ refs ∧ x.pid = t.pid ∧ x.slot = r.slot) ↔
    ∃ blockno phase, hold r = some (blockno, phase) ∧ x = t.ref dev r blockno phase

namespace Matches

variable {refs : List Ref} {t : Thread} {dev : Nat} {hold : Hold} {r : Reg} {blockno : Nat}
  {phase : Phase}

theorem mem (same : Matches refs t dev hold) (held : hold r = some (blockno, phase)) :
    t.ref dev r blockno phase ∈ refs :=
  ((same r _).mpr ⟨blockno, phase, held, rfl⟩).1

/-- A thread that starts has nothing in hand. -/
theorem of_slots (t : Thread) (dev : Nat) (large : ∀ x ∈ refs, Reg.slots ≤ x.slot) :
    Matches refs t dev fun _ => none := by
  intro r x
  simp only [reduceCtorEq, false_and, exists_false, iff_false]
  rintro ⟨member, _, slot⟩
  have := large x member
  have := r.slot_lt
  omega

/-- Looking up a local variable finds its `bread`. -/
theorem find (same : Matches refs t dev hold) (held : hold r = some (blockno, phase)) :
    refs.find? (fun x => x.pid = t.pid ∧ x.slot = r.slot) = some (t.ref dev r blockno phase) := by
  cases found : refs.find? fun x => x.pid = t.pid ∧ x.slot = r.slot with
  | none =>
      have := List.find?_eq_none.mp found _ (same.mem held)
      simp [Thread.ref] at this
  | some x =>
      have isX : x.pid = t.pid ∧ x.slot = r.slot := by simpa using List.find?_some found
      obtain ⟨b, ph, held', rfl⟩ := (same r x).mp ⟨List.mem_of_find?_eq_some found, isX⟩
      rw [held] at held'
      simp only [Option.some.injEq, Prod.mk.injEq] at held'
      rw [held'.1, held'.2]

/-- A change among `bread`s in other variables. -/
theorem congr (same : Matches refs t dev hold) {refs' : List Ref}
    (small : ∀ x : Ref, x.slot < Reg.slots → (x ∈ refs' ↔ x ∈ refs)) :
    Matches refs' t dev hold := by
  intro r x
  rw [← same r x]
  constructor
  · rintro ⟨member, pid, slot⟩
    exact ⟨(small x (slot ▸ r.slot_lt)).mp member, pid, slot⟩
  · rintro ⟨member, pid, slot⟩
    exact ⟨(small x (slot ▸ r.slot_lt)).mpr member, pid, slot⟩

theorem nodup_of_keys (keys : (refs.map Ref.key).Nodup) : refs.Nodup := keys.of_map _

/-- A local variable moves on to another phase. -/
theorem move (same : Matches refs t dev hold) (keys : (refs.map Ref.key).Nodup)
    (held : hold r = some (blockno, phase)) (phase' : Phase) :
    Matches ((t.ref dev r blockno phase).at phase' :: refs.erase (t.ref dev r blockno phase)) t dev
      (Function.update hold r (some (blockno, phase'))) := by
  intro r' x
  rw [List.mem_cons, (nodup_of_keys keys).mem_erase_iff]
  by_cases equal : r' = r
  · subst equal
    simp only [Function.update_self, Option.some.injEq, Prod.mk.injEq]
    constructor
    · rintro ⟨rfl | ⟨apart, member⟩, pid, slot⟩
      · exact ⟨blockno, phase', ⟨rfl, rfl⟩, rfl⟩
      · obtain ⟨b, ph, held', rfl⟩ := (same r' x).mp ⟨member, pid, slot⟩
        rw [held] at held'
        simp only [Option.some.injEq, Prod.mk.injEq] at held'
        exact absurd (by rw [held'.1, held'.2]) apart
    · rintro ⟨b, ph, ⟨rfl, rfl⟩, rfl⟩
      exact ⟨.inl rfl, rfl, rfl⟩
  · rw [Function.update_of_ne equal, ← same r' x]
    have notMine : x.slot = r'.slot → x ≠ t.ref dev r blockno phase ∧
        x ≠ (t.ref dev r blockno phase).at phase' := fun slot =>
      ⟨fun mine => equal (Reg.slot_injective (by rw [← slot, mine]; rfl)),
        fun mine => equal (Reg.slot_injective (by rw [← slot, mine]; rfl))⟩
    constructor
    · rintro ⟨member, pid, slot⟩
      exact ⟨(member.resolve_left (notMine slot).2).2, pid, slot⟩
    · rintro ⟨member, pid, slot⟩
      exact ⟨.inr ⟨(notMine slot).1, member⟩, pid, slot⟩

/-- A local variable is done with its buffer. -/
theorem drop (same : Matches refs t dev hold) (keys : (refs.map Ref.key).Nodup)
    (held : hold r = some (blockno, phase)) :
    Matches (refs.erase (t.ref dev r blockno phase)) t dev (Function.update hold r none) := by
  intro r' x
  rw [(nodup_of_keys keys).mem_erase_iff]
  by_cases equal : r' = r
  · subst equal
    simp only [Function.update_self, reduceCtorEq, false_and, exists_false, iff_false]
    rintro ⟨⟨apart, member⟩, pid, slot⟩
    obtain ⟨b, ph, held', rfl⟩ := (same r' x).mp ⟨member, pid, slot⟩
    rw [held] at held'
    simp only [Option.some.injEq, Prod.mk.injEq] at held'
    exact apart (by rw [held'.1, held'.2])
  · rw [Function.update_of_ne equal, ← same r' x]
    constructor
    · rintro ⟨⟨_, member⟩, pid, slot⟩
      exact ⟨member, pid, slot⟩
    · rintro ⟨member, pid, slot⟩
      refine ⟨⟨fun mine => equal (Reg.slot_injective ?_), member⟩, pid, slot⟩
      rw [← slot, mine]
      rfl

/-- A free local variable gets a buffer. -/
theorem bget (same : Matches refs t dev hold) (free : hold r = none) (blockno : Nat)
    (i : Fin NBUF) (code : List Instr) :
    Matches (⟨t.pid, r.slot, dev, blockno, i, .waiting⟩ :: refs)
      { t with code := code, regs := Function.update t.regs r i } dev
      (Function.update hold r (some (blockno, .waiting))) := by
  intro r' x
  rw [List.mem_cons]
  by_cases equal : r' = r
  · subst equal
    simp only [Function.update_self, Option.some.injEq, Prod.mk.injEq, Thread.ref]
    constructor
    · rintro ⟨rfl | member, pid, slot⟩
      · exact ⟨blockno, .waiting, ⟨rfl, rfl⟩, rfl⟩
      · obtain ⟨b, ph, held, _⟩ := (same r' x).mp ⟨member, pid, slot⟩
        rw [free] at held
        cases held
    · rintro ⟨b, ph, ⟨rfl, rfl⟩, rfl⟩
      exact ⟨.inl rfl, rfl, rfl⟩
  · have old : ∀ b ph, Thread.ref { t with
        code := code, regs := Function.update t.regs r i } dev r' b ph = t.ref dev r' b ph := by
      intro b ph
      simp [Thread.ref, equal]
    simp only [Function.update_of_ne equal, old, ← same r' x]
    constructor
    · rintro ⟨member, pid, slot⟩
      refine ⟨member.resolve_left fun mine => equal (Reg.slot_injective ?_), pid, slot⟩
      rw [← slot, mine]
    · rintro ⟨member, pid, slot⟩
      exact ⟨.inr member, pid, slot⟩

end Matches

end Riscv2os.Xv7
