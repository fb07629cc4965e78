import Riscv2os.Xv7.MmapCalls
import Riscv2os.Xv7.MmapFrames

/-!
# The bytes that `copyout` writes

`copyout` looks up every page of its range with `walkaddr`, which asks for `PTE_U` alone,
and so it also writes to pages that the process itself can only read.
-/

namespace Riscv2os.Xv7

open Riscv2os.Std

namespace Uvm

variable {u u' : Uvm} {va n vpn : Nat} {f : Frame} {src : List UInt8}

theorem walkaddr_eq_some : u.walkaddr va = some f ↔
    va < MAXVA ∧ ∃ pte, u.leafAt (va / PGSIZE) = some pte ∧ pte.u = true ∧ pte.pa = f := by
  unfold walkaddr
  split
  · next high => simp; omega
  · next low =>
    have low : va < MAXVA := by omega
    simp only [low, true_and]
    have leaf : u.leafAt (va / PGSIZE) = u.pagetable.lookup va := rfl
    rw [leaf]
    cases u.pagetable.lookup va with
    | none => simp
    | some pte => simp

/-- No two pages have one frame. -/
theorem walkaddr_injective (distinct : u.pagetable.Distinct) {vpn' : Nat}
    (found : u.walkaddr (vpn * PGSIZE) = some f) (found' : u.walkaddr (vpn' * PGSIZE) = some f) :
    vpn = vpn' := by
  have place : ∀ {vpn}, u.walkaddr (vpn * PGSIZE) = some f →
      u.pagetable.frameAt (.leaf vpn) = some f := by
    intro vpn found
    obtain ⟨_, pte, entry, _, rfl⟩ := walkaddr_eq_some.mp found
    rw [Nat.mul_div_cancel _ (by decide)] at entry
    exact Option.map_eq_some_iff.mpr ⟨pte, entry, rfl⟩
  exact PageTable.Place.leaf.inj (distinct (place found) (place found'))

/-- `copyout` of `n` bytes gets to a page: there are user pages from the first one on. -/
structure Gets (u : Uvm) (va n vpn : Nat) : Prop where
  more : 0 < n
  first : va / PGSIZE ≤ vpn
  inside : vpn * PGSIZE < va + n
  pages : ∀ k, va / PGSIZE ≤ k → k ≤ vpn → (u.walkaddr (k * PGSIZE)).isSome

theorem gets_congr {m : Kmem} : (⟨m, u.pagetable⟩ : Uvm).Gets va n vpn ↔ u.Gets va n vpn :=
  ⟨fun gets => ⟨gets.more, gets.first, gets.inside, gets.pages⟩,
    fun gets => ⟨gets.more, gets.first, gets.inside, gets.pages⟩⟩

/-- What `copyout` of `src` does. -/
structure Copied (u u' : Uvm) (va : Nat) (src : List UInt8) : Prop where
  table : u'.pagetable = u.pagetable
  others : ∀ f, (∀ vpn, u.Gets va src.length vpn → u.walkaddr (vpn * PGSIZE) ≠ some f) →
    u'.kmem.mem f = u.kmem.mem f
  bytes : ∀ {vpn f}, u.Gets va src.length vpn → u.walkaddr (vpn * PGSIZE) = some f →
    ∀ k : Fin PGSIZE, u'.kmem.mem f k =
      if va ≤ vpn * PGSIZE + k then (src[vpn * PGSIZE + k - va]?).getD (u.kmem.mem f k)
      else u.kmem.mem f k

/-- The first page, and then the others. -/
theorem gets_iff {rest : Nat} (more : 0 < n) (page : (u.walkaddr (pgRoundDown va)).isSome)
    (left : n = min (PGSIZE - va % PGSIZE) n + rest) :
    u.Gets va n vpn ↔ vpn = va / PGSIZE ∨ u.Gets (pgRoundDown va + PGSIZE) rest vpn := by
  have next : (pgRoundDown va + PGSIZE) / PGSIZE = va / PGSIZE + 1 := by
    rw [Nat.add_div_right _ (by decide), pgRoundDown, Nat.mul_div_cancel _ (by decide)]
  constructor
  · intro gets
    rcases Nat.eq_or_lt_of_le gets.first with same | later
    · exact .inl same.symm
    right
    have inside := gets.inside
    have beyond : 0 < rest ∧ pgRoundDown va + PGSIZE + rest = va + n := by
      unfold pgRoundDown
      simp only [PGSIZE] at left later inside ⊢
      omega
    refine ⟨beyond.1, by rw [next]; exact later, by rw [beyond.2]; exact inside, fun k low high => ?_⟩
    rw [next] at low
    exact gets.pages k (by omega) high
  · rintro (rfl | gets)
    · refine ⟨more, le_rfl, ?_, fun k low high => ?_⟩
      · simp only [PGSIZE]
        omega
      · rw [Nat.le_antisymm high low]
        exact page
    · have first := gets.first
      have inside := gets.inside
      have positive := gets.more
      rw [next] at first
      refine ⟨more, by omega, ?_, fun k low high => ?_⟩
      · unfold pgRoundDown at inside
        simp only [PGSIZE] at left inside ⊢
        omega
      · rcases Nat.eq_or_lt_of_le low with same | later
        · rw [← same]
          exact page
        · exact gets.pages k (by rw [next]; exact later) high

/-- The first page, before the others. -/
private theorem Copied.cons {pa0 : Frame} (positive : 0 < src.length) (distinct : u.pagetable.Distinct)
    (found : u.walkaddr (pgRoundDown va) = some pa0)
    (later : Copied ⟨u.kmem.setPage pa0 (storeBytes (u.kmem.mem pa0) (va % PGSIZE)
      (src.take (min (PGSIZE - va % PGSIZE) src.length))), u.pagetable⟩ u'
        (pgRoundDown va + PGSIZE) (src.drop (min (PGSIZE - va % PGSIZE) src.length))) :
    u.Copied u' va src := by
  have gets : ∀ vpn, u.Gets va src.length vpn ↔ vpn = va / PGSIZE ∨
      u.Gets (pgRoundDown va + PGSIZE) (src.drop (min (PGSIZE - va % PGSIZE) src.length)).length vpn := by
    intro vpn
    refine gets_iff positive (by simp [found]) ?_
    rw [List.length_drop]
    omega
  have notFirst : ∀ {vpn rest}, u.Gets (pgRoundDown va + PGSIZE) rest vpn → vpn ≠ va / PGSIZE := by
    rintro _ rest gets rfl
    have first := gets.first
    rw [Nat.add_div_right _ (by decide), pgRoundDown, Nat.mul_div_cancel _ (by decide)] at first
    omega
  have same : ∀ {vpn f rest}, u.Gets (pgRoundDown va + PGSIZE) rest vpn →
      u.walkaddr (vpn * PGSIZE) = some f → f ≠ pa0 := by
    rintro vpn f rest gets page rfl
    exact notFirst gets (walkaddr_injective distinct page found)
  refine ⟨later.table, fun f outside => ?_, fun {vpn f} reached page k => ?_⟩
  · have apart : f ≠ pa0 := by
      rintro rfl
      exact outside _ ((gets _).mpr (.inl rfl)) found
    rw [later.others f fun vpn reached => outside vpn ((gets vpn).mpr (.inr (gets_congr.mp reached)))]
    exact Function.update_of_ne apart ..
  · have bound := k.isLt
    rcases (gets vpn).mp reached with rfl | reached
    · obtain rfl : f = pa0 := Option.some.inj (page.symm.trans found)
      rw [later.others f fun vpn reached page' => same (gets_congr.mp reached) page' rfl]
      have stored : va ≤ va / PGSIZE * PGSIZE + k ↔ va % PGSIZE ≤ k := by
        simp only [PGSIZE]
        omega
      have offset : va / PGSIZE * PGSIZE + k - va = k - va % PGSIZE := by
        simp only [PGSIZE]
        omega
      simp only [Kmem.setPage, Function.update_self, storeBytes, stored, offset]
      split
      · next after =>
        rw [List.getElem?_take]
        split
        · rfl
        · next beyond =>
          rw [List.getElem?_eq_none (by simp only [PGSIZE] at bound beyond ⊢; omega)]
      · rfl
    · have apart := same reached page
      rw [later.bytes (gets_congr.mpr reached) page]
      have above : pgRoundDown va + PGSIZE ≤ vpn * PGSIZE := by
        have first := reached.first
        rw [Nat.add_div_right _ (by decide), pgRoundDown, Nat.mul_div_cancel _ (by decide)] at first
        unfold pgRoundDown
        simp only [PGSIZE] at first ⊢
        omega
      have start : va ≤ vpn * PGSIZE + k := by
        unfold pgRoundDown at above
        simp only [PGSIZE] at above ⊢
        omega
      have positive' := reached.more
      rw [List.length_drop] at positive'
      have index : min (PGSIZE - va % PGSIZE) src.length +
          (vpn * PGSIZE + k - (pgRoundDown va + PGSIZE)) = vpn * PGSIZE + k - va := by
        unfold pgRoundDown at above ⊢
        simp only [PGSIZE] at above positive' start ⊢
        omega
      rw [if_pos (le_trans above (Nat.le_add_right _ _)), if_pos start, List.getElem?_drop, index]
      simp only [Kmem.setPage, Function.update_of_ne apart]

/-- The specification of `copyout`. -/
theorem copyout_copied (distinct : u.pagetable.Distinct) :
    u.Copied (u.copyout va src).2 va src := by
  induction u, va, src using copyout.induct with
  | case1 u va =>
      rw [copyout, dif_pos rfl]
      exact ⟨rfl, fun _ _ => rfl, fun gets => absurd gets.more (by simp)⟩
  | case2 u va src more fails =>
      rw [copyout, dif_neg more, fails]
      refine ⟨rfl, fun _ _ => rfl, fun gets => ?_⟩
      have first := gets.pages _ le_rfl gets.first
      change (u.walkaddr (pgRoundDown va)).isSome at first
      rw [fails] at first
      cases first
  | case3 u va src more pa0 found n page ih =>
      rw [copyout, dif_neg more, found]
      have positive : 0 < src.length := List.length_pos_iff.mpr more
      have low : pgRoundDown va < MAXVA := (walkaddr_eq_some.mp found).1
      have next : (pgRoundDown va + PGSIZE) % 2 ^ 64 = pgRoundDown va + PGSIZE := by
        simp only [PGSIZE, MAXVA] at low ⊢
        omega
      have copied := ih distinct
      rw [next] at copied
      change Copied u (copyout ⟨u.kmem.setPage pa0 page, u.pagetable⟩
        ((pgRoundDown va + PGSIZE) % 2 ^ 64) (src.drop n)).2 va src
      rw [next]
      generalize (copyout ⟨u.kmem.setPage pa0 page, u.pagetable⟩ (pgRoundDown va + PGSIZE)
        (src.drop n)).2 = final at copied
      exact Copied.cons positive distinct found copied

end Uvm

/-- Whatever bytes are copied, only pages change that the process may write to. -/
def CopiesToWritable (s : Machine) (p : Fin NPROC) (dstva n : Nat) : Prop :=
  ∀ src : List UInt8, src.length = n → ∀ f,
    (s.copyOut p dstva src).2.kmem.mem f ≠ s.kmem.mem f →
      ∃ vpn pte, (s.uvm p).leafAt vpn = some pte ∧ pte.pa = f ∧ pte.u = true ∧ pte.w = true

/-- The kernel respects page permissions exactly if every page that `copyout` gets to is
writable. -/
theorem copyout_permitted_iff {s : MmapSys} (run : mmapSystem.Reachable s) {p : Fin NPROC}
    (used : (s.machine.proc p).state ≠ .unused) (dstva n : Nat) :
    CopiesToWritable s.machine p dstva n ↔ ∀ vpn pte, (s.machine.uvm p).Gets dstva n vpn →
      (s.machine.uvm p).leafAt vpn = some pte → pte.w = true := by
  have distinct : (s.machine.uvm p).pagetable.Distinct := ((frameInv_of_reachable run).owns used).distinct
  have copied : ∀ src, (s.machine.uvm p).Copied ((s.machine.uvm p).copyout dstva src).2 dstva src :=
    fun src => Uvm.copyout_copied distinct
  constructor
  · intro permitted vpn pte gets found
    have page : (s.machine.uvm p).walkaddr (vpn * PGSIZE) = some pte.pa := by
      obtain ⟨f, page⟩ := Option.isSome_iff_exists.mp (gets.pages vpn gets.first le_rfl)
      obtain ⟨_, pte', found', _, rfl⟩ := Uvm.walkaddr_eq_some.mp page
      rw [Nat.mul_div_cancel _ (by decide), found] at found'
      rw [page, Option.some.inj found']
    -- the first byte that goes to the page, and another value for it
    obtain ⟨k, after, below⟩ : ∃ k : Fin PGSIZE, dstva ≤ vpn * PGSIZE + k ∧
        vpn * PGSIZE + k - dstva < n := by
      have first := gets.first
      have inside := gets.inside
      have more := gets.more
      refine ⟨⟨dstva - vpn * PGSIZE, ?_⟩, ?_, ?_⟩ <;> simp only [PGSIZE] at first inside ⊢ <;> omega
    obtain ⟨byte, other⟩ : ∃ byte : UInt8, byte ≠ s.machine.kmem.mem pte.pa k :=
      ⟨s.machine.kmem.mem pte.pa k + 1, by simp⟩
    have changed : (s.machine.copyOut p dstva (List.replicate n byte)).2.kmem.mem pte.pa ≠
        s.machine.kmem.mem pte.pa := by
      intro same
      have stored := (copied (List.replicate n byte)).bytes (by rwa [List.length_replicate]) page k
      rw [if_pos after, List.getElem?_replicate, if_pos below] at stored
      exact other (stored.symm.trans (congrFun same k))
    obtain ⟨vpn', pte', found', frame, _, writable⟩ :=
      permitted _ List.length_replicate pte.pa changed
    have place : ∀ {vpn pte}, (s.machine.uvm p).leafAt vpn = some pte →
        (s.machine.uvm p).pagetable.frameAt (.leaf vpn) = some pte.pa := fun found =>
      Option.map_eq_some_iff.mpr ⟨_, found, rfl⟩
    cases distinct (place found) (frame ▸ place found')
    cases found.symm.trans found'
    exact writable
  · rintro writable src rfl f changed
    by_contra denied
    refine changed ((copied src).others f fun vpn gets page => denied ?_)
    obtain ⟨_, pte, found, user, frame⟩ := Uvm.walkaddr_eq_some.mp page
    rw [Nat.mul_div_cancel _ (by decide)] at found
    exact ⟨vpn, pte, found, frame, user, writable vpn pte gets found⟩

/-- `read` into a page of a mapping with `PROT_WRITE`. -/
theorem copyout_permitted_writable : ∃ s, mmapSystem.Reachable s ∧
    (s.machine.uvm 0).Gets MMAP_VSTART 10 (MMAP_VSTART / PGSIZE) ∧
    CopiesToWritable s.machine 0 MMAP_VSTART 10 := by
  obtain ⟨s, run, seen⟩ := reachable_after
    [(0, .mmap 8192 3 1 0), (0, .access MMAP_VSTART none)]
    (fun s => ((s.machine.proc 0).state,
      (s.machine.proc 0).pagetable.leaves.entries.map fun leaf => (leaf.1, leaf.2.u, leaf.2.w)))
    (.running, [(MMAP_VSTART / PGSIZE, true, true)]) rfl
  simp only [Prod.mk.injEq] at seen
  obtain ⟨running, pages⟩ := seen
  obtain ⟨⟨vpn, pte⟩, only, page⟩ := List.map_eq_singleton_iff.mp pages
  simp only [Prod.mk.injEq] at page
  obtain ⟨rfl, user, writable⟩ := page
  have entries : ∀ vpn pte', (s.machine.uvm 0).leafAt vpn = some pte' ↔
      vpn = MMAP_VSTART / PGSIZE ∧ pte' = pte := by
    intro vpn pte'
    refine AList.mem_lookup_iff.trans ?_
    change _ ∈ (s.machine.proc 0).pagetable.leaves.entries ↔ _
    simp [only]
  refine ⟨s, run, ⟨by decide, le_rfl, by decide, fun k low high => ?_⟩,
    (copyout_permitted_iff run (by simp [running]) _ _).mpr fun vpn pte' _ found => ?_⟩
  · obtain rfl := Nat.le_antisymm high low
    refine Option.isSome_iff_exists.mpr ⟨pte.pa, Uvm.walkaddr_eq_some.mpr ⟨by decide, pte, ?_, user, rfl⟩⟩
    exact (entries _ _).mpr ⟨by decide, rfl⟩
  · rw [((entries _ _).mp found).2]
    exact writable

/-- `read` into a page of a mapping with `PROT_READ` alone changes it. -/
theorem copyout_writesReadOnly : ∃ s pte, mmapSystem.Reachable s ∧
    (s.machine.uvm 0).leafAt (MMAP_VSTART / PGSIZE) = some pte ∧ pte.w = false ∧
    s.machine.kmem.mem pte.pa 0 = 7 ∧
    (s.machine.copyOut 0 MMAP_VSTART [9]).2.kmem.mem pte.pa 0 = 9 := by
  obtain ⟨s, run, seen⟩ := reachable_after
    [(0, .mmap 8192 1 1 0), (0, .access MMAP_VSTART none)]
    (fun s => ((s.machine.proc 0).state, (s.machine.proc 0).pagetable.leaves.entries.map fun leaf =>
      (leaf.1, leaf.2.u, leaf.2.w, s.machine.kmem.mem leaf.2.pa 0)))
    (.running, [(MMAP_VSTART / PGSIZE, true, false, 7)]) (by decide +kernel)
  simp only [Prod.mk.injEq] at seen
  obtain ⟨running, pages⟩ := seen
  obtain ⟨⟨vpn, pte⟩, only, page⟩ := List.map_eq_singleton_iff.mp pages
  simp only [Prod.mk.injEq] at page
  obtain ⟨rfl, user, notWritable, before⟩ := page
  have found : (s.machine.uvm 0).leafAt (MMAP_VSTART / PGSIZE) = some pte := by
    refine AList.mem_lookup_iff.mpr ?_
    change _ ∈ (s.machine.proc 0).pagetable.leaves.entries
    simp [only]
  have walks : (s.machine.uvm 0).walkaddr (MMAP_VSTART / PGSIZE * PGSIZE) = some pte.pa :=
    Uvm.walkaddr_eq_some.mpr ⟨by decide, pte, found, user, rfl⟩
  have distinct : (s.machine.uvm 0).pagetable.Distinct :=
    ((frameInv_of_reachable run).owns (by simp [running])).distinct
  have gets : (s.machine.uvm 0).Gets MMAP_VSTART 1 (MMAP_VSTART / PGSIZE) := by
    refine ⟨by decide, le_rfl, by decide, fun k low high => ?_⟩
    rw [Nat.le_antisymm high low, walks]
    rfl
  refine ⟨s, pte, run, found, notWritable, before, ?_⟩
  have copied : (s.machine.uvm 0).Copied ((s.machine.uvm 0).copyout MMAP_VSTART [9]).2 MMAP_VSTART [9] :=
    Uvm.copyout_copied distinct
  have first : MMAP_VSTART / PGSIZE * PGSIZE + (0 : Fin PGSIZE) - MMAP_VSTART = 0 := by decide
  have stored := copied.bytes gets walks 0
  rw [if_pos (by decide), first] at stored
  exact stored

end Riscv2os.Xv7
