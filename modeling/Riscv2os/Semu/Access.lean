import Riscv2os.Semu.Loop
import Riscv2os.Semu.Dispatch

/-!
# Accesses to words

What a call leaves as it is, where an address leads, and the loads and stores of 32 bits: a load changes
nothing, a store to the same place succeeds, and it takes the lower half of the number everywhere but in the
registers of the interrupt controller.
-/

namespace Riscv2os.Semu

open Riscv2os.Std

namespace Exec

variable {σ α β γ : Type} {field : σ → γ} {crashes : Crash → Prop} {call : Exec σ α} {next : α → Exec σ β}

/-- Whatever the call does, it leaves a part of the state alone, and ends the emulator in no other ways than
these. -/
structure Keeps (field : σ → γ) (crashes : Crash → Prop) (call : Exec σ α) : Prop where
  state : ∀ {s result s'}, call.run s = .ok (result, s') → field s' = field s
  crash : ∀ {s c}, call.run s = .error c → crashes c

theorem Keeps.bind (first : Keeps field crashes call) (rest : ∀ a, Keeps field crashes (next a)) :
    Keeps field crashes (call >>= next) := by
  constructor
  · intro s result s' ran
    cases begun : call.run s with
    | error c =>
        rw [run_bind_crash begun] at ran
        cases ran
    | ok reached =>
        obtain ⟨returned, mid⟩ := reached
        cases returned with
        | error e =>
            rw [run_bind_error begun] at ran
            cases ran
            exact first.state begun
        | ok a =>
            rw [run_bind_ok begun] at ran
            exact ((rest a).state ran).trans (first.state begun)
  · intro s c ran
    cases begun : call.run s with
    | error c' =>
        rw [run_bind_crash begun] at ran
        cases ran
        exact first.crash begun
    | ok reached =>
        obtain ⟨returned, mid⟩ := reached
        cases returned with
        | error e =>
            rw [run_bind_error begun] at ran
            cases ran
        | ok a =>
            rw [run_bind_ok begun] at ran
            exact (rest a).crash ran

theorem Keeps.pure (a : α) : Keeps field crashes (pure a : Exec σ α) := by
  constructor
  · intro s result s' ran
    cases ran
    rfl
  · intro s c ran
    cases ran

theorem Keeps.throw (e : Exception) : Keeps field crashes (throw e : Exec σ α) := by
  constructor
  · intro s result s' ran
    cases ran
    rfl
  · intro s c ran
    cases ran

theorem Keeps.get : Keeps field crashes (get : Exec σ σ) := by
  constructor
  · intro s result s' ran
    cases ran
    rfl
  · intro s c ran
    cases ran

theorem Keeps.modify {f : σ → σ} (keeps : ∀ s, field (f s) = field s) :
    Keeps field crashes (modify f : Exec σ Unit) := by
  constructor
  · intro s result s' ran
    cases ran
    exact keeps s
  · intro s c ran
    cases ran

theorem Keeps.ite {p : Prop} [Decidable p] {other : Exec σ α} (yes : Keeps field crashes call)
    (no : Keeps field crashes other) : Keeps field crashes (if p then call else other) := by
  by_cases taken : p
  · rwa [if_pos taken]
  · rwa [if_neg taken]

/-- Less is asked of a call. -/
theorem Keeps.weaken {δ : Type} (keeps : Keeps field crashes call) (f : γ → δ) :
    Keeps (fun s => f (field s)) (fun _ => True) call where
  state ran := congrArg f (keeps.state ran)
  crash _ := trivial

end Exec

/-- The registers of the interrupt controller, which keep all 64 bits of what is stored. -/
def plicRegisters : List Word := [PLIC_PENDING, PLIC_SENABLE, PLIC_SPRIORITY, PLIC_SCLAIM]

theorem Plic.store_word (plic : Plic) (addr value : Word) : (plic.store addr 32 value).1 = .ok () := by
  simp only [Plic.store, ne_eq, not_true_eq_false, if_false]
  repeat' split
  all_goals rfl

theorem Plic.store_word_iff (plic : Plic) (addr value value' : Word) :
    (plic.store addr 32 value).2 = (plic.store addr 32 value').2 ↔ (addr ∈ plicRegisters → value = value') := by
  by_cases member : addr ∈ plicRegisters
  · rw [imp_iff_right member]
    simp only [plicRegisters, List.mem_cons, List.not_mem_nil, or_false] at member
    constructor
    · intro same
      rcases member with rfl | rfl | rfl | rfl
      · exact congrArg Plic.pending same
      · exact congrArg Plic.senable same
      · exact congrArg Plic.spriority same
      · exact congrArg Plic.sclaim same
    · rintro rfl
      rfl
  · have unchanged : ∀ value, (plic.store addr 32 value).2 = plic := by
      simp only [plicRegisters, List.mem_cons, List.not_mem_nil, or_false, not_or] at member
      simp [Plic.store, member]
    rw [unchanged, unchanged]
    exact iff_of_true rfl fun inside => absurd inside member

theorem Virtio.store_word (vio : Virtio) (addr value : Word) : (vio.store addr 32 value).1 = .ok () := by
  simp only [Virtio.store, ne_eq, not_true_eq_false, if_false]
  repeat' split
  all_goals rfl

theorem Virtio.store_word_congr {value value' : Word} (low : value.setWidth 32 = value'.setWidth 32)
    (vio : Virtio) (addr : Word) : vio.store addr 32 value = vio.store addr 32 value' := by
  rw [Virtio.store, low]
  rfl

namespace Bus

variable {bus bus' : Bus} {pa t : Word}

/-- A load leaves the interrupt controller alone. -/
theorem load_keeps (addr : Word) (size : Nat) : Exec.Keeps Bus.plic (· = .outOfBounds) (load addr size) := by
  constructor
  · intro bus result bus' ran
    rw [load_select] at ran
    unfold Target.load at ran
    split at ran
    · cases ran
      rfl
    · cases ran
      rfl
    · obtain ⟨loaded, _, ran⟩ := bind_ok.mp ran
      cases ran
      rfl
    · cases ran
      rfl
    · obtain ⟨loaded, _, ran⟩ := bind_ok.mp ran
      cases ran
      rfl
    · cases ran
      rfl
  · intro bus c ran
    rw [load_select] at ran
    unfold Target.load at ran
    split at ran
    · cases ran
    · cases ran
    · by_cases byte : size = 8
      · by_cases inside : (addr - UART_BASE).toNat < UART_SIZE.toNat
        · simp only [Uart.load, byte, inside, ne_eq, not_true_eq_false, if_true, if_false] at ran
          cases ran
        · simp only [Uart.load, byte, inside, ne_eq, not_true_eq_false, if_false] at ran
          cases ran
          rfl
      · simp only [Uart.load, byte, ne_eq, not_false_eq_true, if_true] at ran
        cases ran
    · cases ran
    · unfold ramLoad at ran
      simp only [] at ran
      split at ran
      · cases ran
      · split at ran <;> cases ran
        rfl
    · cases ran

theorem select_plicRegisters (member : pa ∈ plicRegisters) : select pa = .device .plic := by
  simp only [plicRegisters, List.mem_cons, List.not_mem_nil, or_false] at member
  rcases member with rfl | rfl | rfl | rfl <;> rfl

/-- The load of a word changes nothing. -/
theorem load_word_same {result : Except Exception Word} (ran : (load pa 32).run bus = .ok (result, bus')) :
    bus' = bus := by
  rw [load_select] at ran
  unfold Target.load at ran
  split at ran
  · exact (Prod.mk.inj (Except.ok.inj ran)).2.symm
  · exact (Prod.mk.inj (Except.ok.inj ran)).2.symm
  · simp only [Uart.load, ne_eq, Nat.reduceEqDiff, not_false_eq_true, if_true] at ran
    exact (Prod.mk.inj (Except.ok.inj ran)).2.symm
  · exact (Prod.mk.inj (Except.ok.inj ran)).2.symm
  · obtain ⟨loaded, _, ran⟩ := bind_ok.mp ran
    exact (Prod.mk.inj (Except.ok.inj ran)).2.symm
  · exact (Prod.mk.inj (Except.ok.inj ran)).2.symm

/-- Where a word can be loaded a word can be stored, and what is stored there is a matter of its lower half,
except in the registers of the interrupt controller. -/
theorem store_word (loaded : (load pa 32).run bus = .ok (.ok t, bus')) :
    ∃ after : Word → Bus, (∀ value, (store pa 32 value).run bus = .ok (.ok (), after value)) ∧
      ∀ value value', value.setWidth 32 = value'.setWidth 32 →
        (after value = after value' ↔ (pa ∈ plicRegisters → value = value')) := by
  have other (apart : select pa ≠ .device .plic) : pa ∉ plicRegisters :=
    fun member => apart (select_plicRegisters member)
  rw [load_select] at loaded
  simp only [store_select]
  cases selected : select pa with
  | device d =>
      rw [selected] at loaded other
      cases d with
      | clint => cases loaded
      | uart =>
          simp only [Target.load, Uart.load, ne_eq, Nat.reduceEqDiff, not_false_eq_true, if_true] at loaded
          cases loaded
      | virtio =>
          refine ⟨fun value => { bus with virtio := (bus.virtio.store pa 32 value).2 }, ?_, ?_⟩
          · intro value
            simp only [Target.store, Virtio.store_word]
          · intro value value' low
            have same : bus.virtio.store pa 32 value = bus.virtio.store pa 32 value' :=
              Virtio.store_word_congr low ..
            simp only [same]
            exact iff_of_true trivial fun member => absurd member (other (by decide))
      | plic =>
          refine ⟨fun value => { bus with plic := (bus.plic.store pa 32 value).2 }, ?_, ?_⟩
          · intro value
            simp only [Target.store, Plic.store_word]
          · intro value value' _
            rw [← Plic.store_word_iff bus.plic]
            simp
  | ram =>
      rw [selected] at loaded other
      by_cases inside : (pa - RAM_BASE).toNat + 4 ≤ RAM_SIZE
      · refine ⟨fun value => { bus with ram := bus.ram.store 4 (pa - RAM_BASE).toNat value.toNat }, ?_, ?_⟩
        · intro value
          simp only [Target.store, ramStore, sizeBytes, Nat.reduceEqDiff, if_true, if_false, inside]
          rfl
        · intro value value' low
          have fits : value.toNat % 256 ^ 4 = value'.toNat % 256 ^ 4 := by
            have numbers := congrArg BitVec.toNat low
            rwa [BitVec.toNat_setWidth, BitVec.toNat_setWidth] at numbers
          simp only [ByteMemory.store_congr fits]
          exact iff_of_true trivial fun member => absurd member (other (by decide))
      · simp only [Target.load, ramLoad, sizeBytes, Nat.reduceEqDiff, if_true, if_false, inside] at loaded
        cases loaded
  | nothing =>
      rw [selected] at loaded
      cases loaded

end Bus

namespace Cpu

variable {cpu cpu' : Cpu} {addr pa t : Word} {e e' : Exception}

theorem SameMmu.symm (same : SameMmu cpu cpu') : SameMmu cpu' cpu := ⟨same.1.symm, same.2.1.symm, same.2.2.symm⟩

/-- The exception is for the walks that find nothing. -/
theorem walk_found {level : Nat} {a : Word} {leaf : Word × Nat}
    (found : (walk addr e level a).run cpu = .ok (.ok leaf, cpu')) (e' : Exception) :
    (walk addr e' level a).run cpu = .ok (.ok leaf, cpu') := by
  induction level generalizing a cpu with
  | zero => cases found
  | succ level ih =>
      unfold walk at found ⊢
      cases loaded : (onBus (Bus.load (a + vpn addr level * 8) 64)).run cpu with
      | error c =>
          rw [Exec.run_bind_crash loaded] at found
          cases found
      | ok reached =>
          obtain ⟨result, mid⟩ := reached
          cases result with
          | error e'' =>
              rw [Exec.run_bind_error loaded] at found
              cases found
          | ok pte =>
              rw [Exec.run_bind_ok loaded] at found ⊢
              by_cases bad : (!pte.getLsbD 0 || (!pte.getLsbD 1 && pte.getLsbD 2)) = true
              · rw [if_pos bad] at found
                cases found
              rw [if_neg bad] at found ⊢
              by_cases leaf : (pte.getLsbD 1 || pte.getLsbD 3) = true
              · rw [if_pos leaf] at found ⊢
                exact found
              · rw [if_neg leaf] at found ⊢
                exact ih found

/-- A translation that succeeds is the same for every access. -/
theorem translate_found (found : (translate addr e).run cpu = .ok (.ok pa, cpu')) (e' : Exception) :
    (translate addr e').run cpu = .ok (.ok pa, cpu') := by
  have start : ∀ e, (translate addr e).run cpu = (translateWith cpu.enable_paging cpu.pagetable addr e).run cpu :=
    fun e => @Exec.run_bind_ok _ _ _ get _ cpu cpu cpu rfl
  rw [start] at found ⊢
  by_cases flat : cpu.enable_paging = false
  · rw [translateWith, if_pos flat] at found ⊢
    exact found
  rw [translateWith, if_neg flat] at found ⊢
  cases walked : (walk addr e 3 cpu.pagetable).run cpu with
  | error c =>
      rw [Exec.run_bind_crash walked] at found
      cases found
  | ok reached =>
      obtain ⟨result, mid⟩ := reached
      cases result with
      | error e'' =>
          rw [Exec.run_bind_error walked] at found
          cases found
      | ok leaf =>
          rw [Exec.run_bind_ok walked] at found
          rw [Exec.run_bind_ok (walk_found walked e')]
          exact found

/-- Where an address leads. -/
def place (cpu : Cpu) (addr : Word) : Option Word :=
  match (translate addr .loadPageFault).run cpu with
  | .ok (.ok pa, _) => some pa
  | _ => none

/-- Where an address leads, and the word that is loaded there. -/
def wordAt (cpu : Cpu) (addr : Word) : Option (Word × Word) :=
  match cpu.place addr with
  | none => none
  | some pa =>
      match (Bus.load pa 32).run cpu.bus with
      | .ok (.ok t, _) => some (pa, t)
      | _ => none

theorem translate_place (found : cpu.place addr = some pa) (e : Exception) :
    (translate addr e).run cpu = .ok (.ok pa, cpu) := by
  unfold place at found
  obtain ⟨c, crashes⟩ | ⟨result, translated⟩ := translate_run addr .loadPageFault cpu
  · rw [crashes] at found
    cases found
  · have here := translated cpu ⟨rfl, rfl, rfl⟩
    rw [here] at found
    cases result with
    | error e' => cases found
    | ok pa' =>
        cases found
        exact translate_found here e

/-- Registers, mode and control registers do not matter. -/
theorem place_congr (same : SameMmu cpu cpu') : cpu'.place addr = cpu.place addr := by
  obtain ⟨c, crashes⟩ | ⟨result, translated⟩ := translate_run addr .loadPageFault cpu
  · obtain ⟨c', crashes'⟩ | ⟨result, translated⟩ := translate_run addr .loadPageFault cpu'
    · rw [place, place, crashes, crashes']
    · rw [translated cpu same.symm] at crashes
      cases crashes
  · rw [place, place, translated cpu ⟨rfl, rfl, rfl⟩, translated cpu' same]
    cases result <;> rfl

theorem wordAt_congr (same : SameMmu cpu cpu') : cpu'.wordAt addr = cpu.wordAt addr := by
  rw [wordAt, wordAt, place_congr same, same.1]

/-- What is known of a word that can be loaded. -/
theorem wordAt_found (found : cpu.wordAt addr = some (pa, t)) :
    cpu.place addr = some pa ∧ (Bus.load pa 32).run cpu.bus = .ok (.ok t, cpu.bus) := by
  unfold wordAt at found
  cases placed : cpu.place addr with
  | none =>
      rw [placed] at found
      cases found
  | some pa' =>
      rw [placed] at found
      simp only [] at found
      split at found
      · next loaded =>
          cases found
          have same := Bus.load_word_same loaded
          rw [same] at loaded
          exact ⟨rfl, loaded⟩
      · cases found

theorem load_wordAt (found : cpu.wordAt addr = some (pa, t)) : (load addr 32).run cpu = .ok (.ok t, cpu) := by
  obtain ⟨placed, loaded⟩ := wordAt_found found
  have begun := translate_place placed .loadPageFault
  unfold load
  rw [Exec.run_bind_ok begun]
  exact onBus_ok.mpr ⟨cpu.bus, loaded, rfl⟩

/-- A load that returns has found its word. -/
theorem wordAt_of_load (ran : (load addr 32).run cpu = .ok (.ok t, cpu')) :
    ∃ pa, cpu.wordAt addr = some (pa, t) := by
  unfold load at ran
  obtain ⟨c, crashes⟩ | ⟨result, translated⟩ := translate_run addr .loadPageFault cpu
  · rw [Exec.run_bind_crash crashes] at ran
    cases ran
  have here := translated cpu ⟨rfl, rfl, rfl⟩
  cases result with
  | error e =>
      rw [Exec.run_bind_error here] at ran
      cases ran
  | ok pa =>
      refine ⟨pa, ?_⟩
      rw [Exec.run_bind_ok here] at ran
      obtain ⟨bus, reached, -⟩ := onBus_ok.mp ran
      rw [wordAt, place, here]
      simp only [reached]

/-- A load that returns changes nothing. -/
theorem load_word_same (ran : (load addr 32).run cpu = .ok (.ok t, cpu')) : cpu' = cpu := by
  obtain ⟨pa, found⟩ := wordAt_of_load ran
  rw [load_wordAt found] at ran
  cases ran
  rfl

section Keeps

variable {α γ : Type} {field : Bus → γ} {crashes : Crash → Prop} {call : Exec Bus α}

theorem onBus_keeps (keeps : call.Keeps field crashes) :
    (onBus call).Keeps (fun cpu => field cpu.bus) crashes := by
  constructor
  · intro cpu result cpu' ran
    obtain ⟨bus, called, rfl⟩ := onBus_ok.mp ran
    exact keeps.state called
  · intro cpu c ran
    exact keeps.crash (onBus_crash.mp ran)

variable (keeps : ∀ a size, (Bus.load a size).Keeps field crashes)
include keeps

theorem walk_keeps (addr : Word) (e : Exception) (level : Nat) (a : Word) :
    (walk addr e level a).Keeps (fun cpu => field cpu.bus) crashes := by
  induction level generalizing a with
  | zero => exact .throw e
  | succ level ih =>
      unfold walk
      apply Exec.Keeps.bind (onBus_keeps (keeps ..))
      intro pte
      apply Exec.Keeps.ite (.throw e)
      apply Exec.Keeps.ite (.pure _)
      exact ih _

theorem translate_keeps (addr : Word) (e : Exception) :
    (translate addr e).Keeps (fun cpu => field cpu.bus) crashes := by
  apply Exec.Keeps.bind .get
  intro cpu
  apply Exec.Keeps.ite (.pure _)
  apply Exec.Keeps.bind (walk_keeps keeps ..)
  intro leaf
  exact .pure _

theorem load_keeps (addr : Word) (size : Nat) : (load addr size).Keeps (fun cpu => field cpu.bus) crashes := by
  apply Exec.Keeps.bind (translate_keeps keeps ..)
  intro pa
  exact onBus_keeps (keeps ..)

end Keeps

/-- The sign extension of the lower half. -/
def word (x : Word) : Word := (x.setWidth 32).signExtend 64

theorem int32_word (x : Word) : int32 (word x) = int32 x := by
  apply BitVec.eq_of_getLsbD_eq
  intro i small
  have wide : i < 64 := by omega
  simp only [int32, word, BitVec.getLsbD_setWidth, BitVec.getLsbD_signExtend, small, wide, decide_true,
    Bool.true_and, if_true]

end Cpu

end Riscv2os.Semu
