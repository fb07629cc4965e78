import Riscv2os.Semu.Cpu
import Riscv2os.Semu.Dispatch
import Riscv2os.Std.Sv39

/-!
# The translation of addresses by the emulator

`cpu_translate` walks page tables in RAM as Sv39 says, and composes the address of a leaf from slices of the
entry and of the virtual address.
-/

namespace Riscv2os.Semu

open Riscv2os.Std

namespace Bus

/-- A page-table entry at an address of RAM. -/
def entryAt (bus : Bus) (place : Nat) : Sv39.Entry := BitVec.ofNat 64 (bus.ram.load 8 (place - RAM_BASE.toNat))

/-- The eight bytes from an address on lie in RAM. -/
def HoldsEntry (place : Nat) : Prop := RAM_BASE.toNat ≤ place ∧ place + 8 ≤ RAM_BASE.toNat + RAM_SIZE

/-- A load of an entry in RAM. -/
theorem load_entry {a : Word} (inside : HoldsEntry a.toNat) (bus : Bus) :
    (load a 64).run bus = .ok (.ok (bus.entryAt a.toNat), bus) := by
  exact (memory_inRam ⟨8, rfl, inside⟩ 8 rfl bus 0).1

end Bus

/-- A field of a word at the low end. -/
theorem toNat_mask (x : Word) {mask : Word} (n : Nat) (ones : mask.toNat = 2 ^ n - 1) :
    (x &&& mask).toNat = x.toNat % 2 ^ n := by
  rw [BitVec.toNat_and, ones, Nat.and_two_pow_sub_one_eq_mod]

namespace Cpu

variable {cpu : Cpu} {addr : Word} {e : Exception}

theorem vpn_toNat (addr : Word) (level : Nat) : (vpn addr level).toNat = Sv39.vpn addr.toNat level := by
  rw [vpn, toNat_mask _ 9 rfl, BitVec.toNat_ushiftRight, Nat.shiftRight_eq_div_pow]
  rfl

theorem ppn_toNat (pte : Word) : ((pte >>> 10) &&& 0x0fffffffffff).toNat = Sv39.Entry.ppn pte := by
  rw [toNat_mask _ 44 rfl, BitVec.toNat_ushiftRight, Nat.shiftRight_eq_div_pow]
  rfl

theorem ppn_lt (pte : Word) : Sv39.Entry.ppn pte < 2 ^ 44 := Nat.mod_lt _ (by decide)

/-- The loop of `cpu_translate` is the walk of Sv39, as long as it stays in RAM. -/
theorem walk_eq {levels : Nat} {a : Word}
    (inRam : ∀ place ∈ Sv39.visited cpu.bus.entryAt addr.toNat levels a.toNat, Bus.HoldsEntry place.2) :
    (walk addr e levels a).run cpu =
      .ok ((Sv39.walk cpu.bus.entryAt addr.toNat levels a.toNat).elim (.error e) .ok, cpu) := by
  induction levels generalizing a with
  | zero => rfl
  | succ level ih =>
      have first := inRam _ List.mem_cons_self
      have index : (vpn addr level).toNat < 2 ^ 9 := by
        rw [vpn_toNat]
        exact Nat.mod_lt _ (by decide)
      have place : (a + vpn addr level * 8).toNat = a.toNat + 8 * Sv39.vpn addr.toNat level := by
        have bound := first.2
        have ram : RAM_BASE.toNat + RAM_SIZE = 0x88000000 := rfl
        have eight : (8 : Word).toNat = 8 := rfl
        rw [ram] at bound
        dsimp only at bound
        rw [BitVec.toNat_add, BitVec.toNat_mul, eight]
        rw [← vpn_toNat] at bound ⊢
        omega
      have loaded : (onBus (Bus.load (a + vpn addr level * 8) 64)).run cpu =
          .ok (.ok (cpu.bus.entryAt (a.toNat + 8 * Sv39.vpn addr.toNat level)), cpu) := by
        refine onBus_ok.mpr ⟨cpu.bus, ?_, rfl⟩
        rw [Bus.load_entry (by rwa [place]), place]
      unfold walk Sv39.walk
      rw [Exec.run_bind_ok loaded]
      generalize found : cpu.bus.entryAt (a.toNat + 8 * Sv39.vpn addr.toNat level) = pte at *
      have refusal : (!pte.getLsbD 0 || !pte.getLsbD 1 && pte.getLsbD 2) = Sv39.Entry.refused pte := rfl
      have leaf : (pte.getLsbD 1 || pte.getLsbD 3) = Sv39.Entry.leaf pte := rfl
      dsimp only
      rw [refusal, leaf]
      by_cases refused : Sv39.Entry.refused pte = true
      · rw [if_pos refused, if_pos refused]
        rfl
      rw [if_neg refused, if_neg refused]
      by_cases isLeaf : Sv39.Entry.leaf pte = true
      · rw [if_pos isLeaf, if_pos isLeaf]
        rfl
      rw [if_neg isLeaf, if_neg isLeaf]
      have table : (((pte >>> 10) &&& 0x0fffffffffff) * PAGE_SIZE).toNat = Sv39.Entry.ppn pte * 2 ^ 12 := by
        have small := ppn_lt pte
        have page : PAGE_SIZE.toNat = 2 ^ 12 := rfl
        rw [BitVec.toNat_mul, ppn_toNat, page]
        omega
      rw [ih, table]
      intro below member
      refine inRam below (List.mem_cons_of_mem _ ?_)
      rw [table] at member
      rw [found, if_neg (by simp [refused, isLeaf])]
      exact member

/-- Two slices that do not overlap. -/
theorem toNat_slice (high low : Word) (n : Nat) (above : 2 ^ n ∣ high.toNat) (below : low.toNat < 2 ^ n) :
    (high ||| low).toNat = high.toNat + low.toNat := by
  obtain ⟨k, multiple⟩ := above
  rw [BitVec.toNat_or, multiple, ← Nat.two_pow_add_eq_or_of_lt below]

/-- Slices of 26, 9, 9 and 12 bits tile an address of 56 bits. -/
theorem toNat_tiles {p q r s : Word} (high : p.toNat < 2 ^ 26) (middle : q.toNat < 2 ^ 9)
    (low : r.toNat < 2 ^ 9) (offset : s.toNat < 2 ^ 12) :
    ((p <<< 30) ||| (q <<< 21) ||| (r <<< 12) ||| s).toNat =
      p.toNat * 2 ^ 30 + q.toNat * 2 ^ 21 + r.toNat * 2 ^ 12 + s.toNat := by
  have shifted : ∀ (x : Word) (n : Nat), x.toNat * 2 ^ n < 2 ^ 64 → (x <<< n).toNat = x.toNat * 2 ^ n := by
    intro x n fits
    rw [BitVec.toNat_shiftLeft, Nat.shiftLeft_eq, Nat.mod_eq_of_lt fits]
  have p' := shifted p 30 (by omega)
  have q' := shifted q 21 (by omega)
  have r' := shifted r 12 (by omega)
  have pq := toNat_slice (p <<< 30) (q <<< 21) 30 (by omega) (by omega)
  have pqr := toNat_slice ((p <<< 30) ||| (q <<< 21)) (r <<< 12) 21 (by omega) (by omega)
  have pqrs := toNat_slice ((p <<< 30) ||| (q <<< 21) ||| (r <<< 12)) s 12 (by omega) (by omega)
  omega

/-- The slices of an aligned leaf and of the virtual address make up the physical address. -/
theorem leafAddr_toNat {pte : Word} {level : Nat} (small : level < 3)
    (aligned : Sv39.Entry.Aligned pte level) :
    (leafAddr addr pte level).toNat = Sv39.Entry.address pte level addr.toNat := by
  have offset : (addr &&& 0xfff).toNat = addr.toNat % 2 ^ 12 := toNat_mask _ 12 rfl
  have page := ppn_toNat pte
  have ppn1 : ((pte >>> 19) &&& 0x1ff).toNat = pte.toNat / 2 ^ 19 % 2 ^ 9 := by
    rw [toNat_mask _ 9 rfl, BitVec.toNat_ushiftRight, Nat.shiftRight_eq_div_pow]
  have ppn2 : ((pte >>> 28) &&& 0x03ffffff).toNat = pte.toNat / 2 ^ 28 % 2 ^ 26 := by
    rw [toNat_mask _ 26 rfl, BitVec.toNat_ushiftRight, Nat.shiftRight_eq_div_pow]
  have vpn0 : (vpn addr 0).toNat = addr.toNat / 2 ^ 12 % 2 ^ 9 := vpn_toNat addr 0
  have vpn1 : (vpn addr 1).toNat = addr.toNat / 2 ^ 21 % 2 ^ 9 := vpn_toNat addr 1
  unfold Sv39.Entry.Aligned at aligned
  unfold Sv39.Entry.address
  unfold Sv39.Entry.ppn at *
  interval_cases level
  · have shifted : (((pte >>> 10) &&& 0x0fffffffffff) <<< 12).toNat =
        ((pte >>> 10) &&& 0x0fffffffffff).toNat * 2 ^ 12 := by
      rw [BitVec.toNat_shiftLeft, Nat.shiftLeft_eq, Nat.mod_eq_of_lt (by omega)]
    rw [leafAddr, if_pos rfl, toNat_slice _ _ 12 (by omega) (by omega)]
    omega
  · rw [leafAddr, if_neg (by decide), if_pos rfl]
    rw [toNat_tiles (by omega) (by omega) (by omega) (by omega)]
    omega
  · rw [leafAddr, if_neg (by decide), if_neg (by decide)]
    rw [toNat_tiles (by omega) (by omega) (by omega) (by omega)]
    omega

/-- With paging on, `cpu_translate` is its walk. -/
theorem translate_eq (paging : cpu.enable_paging = true) (inRam : ∀ place ∈
      Sv39.visited cpu.bus.entryAt addr.toNat 3 cpu.pagetable.toNat, Bus.HoldsEntry place.2) :
    (translate addr e).run cpu = .ok ((Sv39.walk cpu.bus.entryAt addr.toNat 3 cpu.pagetable.toNat).elim
      (.error e) fun leaf => .ok (leafAddr addr leaf.1 leaf.2), cpu) := by
  have start : (translate addr e).run cpu =
      (walk addr e 3 cpu.pagetable >>= fun leaf => return leafAddr addr leaf.1 leaf.2).run cpu := by
    refine (@Exec.run_bind_ok _ _ _ get _ cpu cpu cpu rfl).trans ?_
    rw [translateWith, if_neg (by simp [paging])]
  have walked : (walk addr e 3 cpu.pagetable).run cpu = _ := walk_eq inRam
  rw [start]
  cases found : Sv39.walk cpu.bus.entryAt addr.toNat 3 cpu.pagetable.toNat with
  | none =>
      rw [found] at walked
      exact Exec.run_bind_error walked
  | some leaf =>
      rw [found] at walked
      exact Exec.run_bind_ok walked

/-- With paging on, an address is translated as Sv39 says wherever the tables lie in RAM. No more than three
entries are looked at, and nothing else matters. The exception is raised exactly for an entry that is refused or
a pointer in the last table; otherwise the leaf that the address selects gives the physical address. -/
theorem translate_sv39 (cpu : Cpu) (addr : Word) (e : Exception) (paging : cpu.enable_paging = true)
    (inRam : ∀ place ∈ Sv39.visited cpu.bus.entryAt addr.toNat 3 cpu.pagetable.toNat,
      Bus.HoldsEntry place.2) :
    ((Sv39.visited cpu.bus.entryAt addr.toNat 3 cpu.pagetable.toNat).length ≤ 3 ∧
      ∀ cpu' : Cpu, cpu'.enable_paging = true → cpu'.pagetable = cpu.pagetable →
        (∀ place ∈ Sv39.visited cpu.bus.entryAt addr.toNat 3 cpu.pagetable.toNat,
          cpu.bus.entryAt place.2 = cpu'.bus.entryAt place.2) →
        ∃ result, (translate addr e).run cpu = .ok (result, cpu) ∧
          (translate addr e).run cpu' = .ok (result, cpu')) ∧
      ((translate addr e).run cpu = .ok (.error e, cpu) ↔
        ∃ place ∈ Sv39.visited cpu.bus.entryAt addr.toNat 3 cpu.pagetable.toNat,
          (cpu.bus.entryAt place.2).refused = true ∨
            place.1 = 0 ∧ (cpu.bus.entryAt place.2).leaf = false) ∧
      ∀ pte level, Sv39.walk cpu.bus.entryAt addr.toNat 3 cpu.pagetable.toNat = some (pte, level) →
        ∃ pa, (translate addr e).run cpu = .ok (.ok pa, cpu) ∧
          (pte.Aligned level → pa.toNat = pte.address level addr.toNat) := by
  have here := @translate_eq cpu addr e paging inRam
  refine ⟨⟨Sv39.visited_length .., ?_⟩, ?_, ?_⟩
  · intro cpu' paging' table same
    have path := Sv39.visited_congr same
    have there := @translate_eq cpu' addr e paging' (by
      rw [table, ← path]
      exact inRam)
    rw [table, ← Sv39.walk_congr same] at there
    exact ⟨_, here, there⟩
  · have ends := @Sv39.walk_eq_none_iff cpu.bus.entryAt addr.toNat 3 cpu.pagetable.toNat
    refine Iff.trans ?_ (ends.trans (or_iff_right (by decide)))
    rw [here]
    cases Sv39.walk cpu.bus.entryAt addr.toNat 3 cpu.pagetable.toNat with
    | none => exact iff_of_true rfl rfl
    | some leaf =>
        refine iff_of_false (fun fault => ?_) (Option.some_ne_none _)
        cases fault
  · intro pte level found
    rw [found] at here
    exact ⟨_, here, leafAddr_toNat (Sv39.walk_level found) ⟩

/-- A processor whose table maps one page. The tables of the three levels are the first pages of RAM. -/
def mapped : Cpu where
  regs _ := 0
  pc := RAM_BASE
  csrs _ := 0
  mode := .supervisor
  bus := Bus.new (List.replicate 16 0 ++ [0x01, 0x04, 0, 0x20] ++ List.replicate 4100 0 ++
    [0x01, 0x08, 0, 0x20] ++ List.replicate 4108 0 ++ [0x0f, 0xf0, 0x2a, 0x20]) #[]
  enable_paging := true
  pagetable := RAM_BASE

/-- The address of a byte of this page, through two pointers. -/
theorem translate_sv39_mapped :
    (translate 0x80605123 .loadPageFault).run mapped = .ok (.ok 0x80abc123, mapped) := by
  have tables : Sv39.visited mapped.bus.entryAt (0x80605123 : Word).toNat 3 mapped.pagetable.toNat =
      [(2, 0x80000010), (1, 0x80001018), (0, 0x80002028)] := by decide +kernel
  have leaf : Sv39.walk mapped.bus.entryAt (0x80605123 : Word).toNat 3 mapped.pagetable.toNat =
      some (0x202af00f, 0) := by decide +kernel
  have inRam : ∀ place ∈ Sv39.visited mapped.bus.entryAt (0x80605123 : Word).toNat 3 mapped.pagetable.toNat,
      Bus.HoldsEntry place.2 := by
    rw [tables]
    simp only [List.mem_cons, List.not_mem_nil, or_false, forall_eq_or_imp, forall_eq]
    exact ⟨⟨by decide, by decide⟩, ⟨by decide, by decide⟩, by decide, by decide⟩
  obtain ⟨pa, translated, address⟩ :=
    (translate_sv39 mapped 0x80605123 .loadPageFault rfl inRam).2.2 0x202af00f 0 leaf
  have same : pa = 0x80abc123 := BitVec.eq_of_toNat_eq ((address (by simp [Sv39.Entry.Aligned])).trans (by decide))
  rw [translated, same]

end Cpu

end Riscv2os.Semu
