import Mathlib.Data.BitVec
import Mathlib.Tactic

/-!
# Virtqueues with chains of three descriptors

A table of descriptors from which a driver takes three for each request and links them, and what has
become of the requests: heads are published, fetched by the device, completed in any order and
processed by the driver. `Queue` is the driver and the device without their rings; `Queue.Sound` is
kept by everything the two do, and bounds the number of requests by a third of the
descriptors. A driver shows that its steps are the operations below and that its rings hold the
sequences of the `Flight`.
-/

namespace Riscv2os.Std

namespace Virtqueue

/-- A descriptor. -/
structure Desc where
  addr : BitVec 64
  len : BitVec 32
  flags : BitVec 16
  next : BitVec 16
deriving DecidableEq, Repr

def F_NEXT : BitVec 16 := 1

def F_WRITE : BitVec 16 := 2

/-- The descriptors of one request. -/
structure Chain where
  first : Nat
  second : Nat
  third : Nat
deriving DecidableEq, Repr

def Chain.toList (c : Chain) : List Nat := [c.first, c.second, c.third]

/-- The descriptors are linked as a chain. -/
structure Linked (desc : Nat → Desc) (c : Chain) : Prop where
  first : (desc c.first).flags &&& F_NEXT ≠ 0
  toSecond : (desc c.first).next.toNat = c.second
  second : (desc c.second).flags &&& F_NEXT ≠ 0
  toThird : (desc c.second).next.toNat = c.third
  third : (desc c.third).flags &&& F_NEXT = 0

theorem Linked.congr {desc desc' : Nat → Desc} {c : Chain} (linked : Linked desc c)
    (same : ∀ d ∈ c.toList, desc' d = desc d) : Linked desc' c := by
  have first := same c.first (by simp [Chain.toList])
  have second := same c.second (by simp [Chain.toList])
  have third := same c.third (by simp [Chain.toList])
  refine ⟨?_, ?_, ?_, ?_, ?_⟩
  · rw [first]
    exact linked.first
  · rw [first]
    exact linked.toSecond
  · rw [second]
    exact linked.second
  · rw [second]
    exact linked.toThird
  · rw [third]
    exact linked.third

/-- Describe a request: its header, its data, which the device reads or writes, and its status. -/
def linkDesc (desc : Nat → Desc) (c : Chain) (header data status : BitVec 64) (headerLen dataLen : BitVec 32)
    (write : Bool) : Nat → Desc :=
  let desc := Function.update desc c.first ⟨header, headerLen, F_NEXT, BitVec.ofNat 16 c.second⟩
  let desc := Function.update desc c.second
    ⟨data, dataLen, (if write then 0 else F_WRITE) ||| F_NEXT, BitVec.ofNat 16 c.third⟩
  Function.update desc c.third ⟨status, 1, F_WRITE, 0⟩

section Link

variable {desc : Nat → Desc} {c : Chain} {header data status : BitVec 64} {headerLen dataLen : BitVec 32}
  {write : Bool} {d : Nat}

theorem linkDesc_outside (outside : d ∉ c.toList) :
    linkDesc desc c header data status headerLen dataLen write d = desc d := by
  simp only [Chain.toList, List.mem_cons, List.not_mem_nil, or_false, not_or] at outside
  obtain ⟨first, second, third⟩ := outside
  unfold linkDesc
  rw [Function.update_of_ne third, Function.update_of_ne second, Function.update_of_ne first]

theorem linked_linkDesc (nodup : c.toList.Nodup) (small : ∀ d ∈ c.toList, d < 2 ^ 16) :
    Linked (linkDesc desc c header data status headerLen dataLen write) c := by
  simp only [Chain.toList, List.nodup_cons, List.mem_cons, List.not_mem_nil, or_false, not_or] at nodup
  obtain ⟨⟨first_second, first_third⟩, second_third, _⟩ := nodup
  have second := small c.second (by simp [Chain.toList])
  have third := small c.third (by simp [Chain.toList])
  have atFirst : linkDesc desc c header data status headerLen dataLen write c.first =
      ⟨header, headerLen, F_NEXT, BitVec.ofNat 16 c.second⟩ := by
    unfold linkDesc
    rw [Function.update_of_ne first_third, Function.update_of_ne first_second, Function.update_self]
  have atSecond : linkDesc desc c header data status headerLen dataLen write c.second =
      ⟨data, dataLen, (if write then 0 else F_WRITE) ||| F_NEXT, BitVec.ofNat 16 c.third⟩ := by
    unfold linkDesc
    rw [Function.update_of_ne second_third, Function.update_self]
  have atThird : linkDesc desc c header data status headerLen dataLen write c.third =
      ⟨status, 1, F_WRITE, 0⟩ := by
    unfold linkDesc
    rw [Function.update_self]
  have next : F_NEXT &&& F_NEXT ≠ 0 := by decide
  have nextWrite : ∀ write : Bool, ((if write then 0 else F_WRITE) ||| F_NEXT) &&& F_NEXT ≠ 0 := by decide
  have last : F_WRITE &&& F_NEXT = 0 := by decide
  refine ⟨?_, ?_, ?_, ?_, ?_⟩
  · rw [atFirst]
    exact next
  · rw [atFirst, BitVec.toNat_ofNat, Nat.mod_eq_of_lt second]
  · rw [atSecond]
    exact nextWrite write
  · rw [atSecond, BitVec.toNat_ofNat, Nat.mod_eq_of_lt third]
  · rw [atThird]
    exact last

end Link

section Table

/-- The descriptors, and which of them are free. -/
structure DescTable where
  desc : Nat → Desc
  free : Nat → Bool

namespace DescTable

variable {n : Nat} {clear : Desc → Desc} {t t' : DescTable} {i j : Nat} {c : Chain}

/-- Take the first free descriptor. -/
def alloc (n : Nat) (t : DescTable) : Option (Nat × DescTable) :=
  ((List.range n).find? t.free).map fun i => (i, { t with free := Function.update t.free i false })

/-- Give a descriptor back. `clear` is what happens to its fields. There is no result where the
descriptor does not exist or is free. -/
def release (n : Nat) (clear : Desc → Desc) (t : DescTable) (i : Nat) : Option DescTable :=
  if n ≤ i then none
  else if t.free i then none
  else some
    { desc := Function.update t.desc i (clear (t.desc i))
      free := Function.update t.free i true }

/-- Take `left` more descriptors, or give back those that were taken. -/
def allocLoop (n : Nat) (clear : Desc → Desc) : Nat → List Nat → DescTable → Option (Option (List Nat) × DescTable)
  | 0, taken, t => some (some taken, t)
  | left + 1, taken, t =>
      match t.alloc n with
      | some next => allocLoop n clear left (taken ++ [next.1]) next.2
      | none => (taken.foldlM (release n clear) t).map fun t => (none, t)

theorem alloc_some {next : Nat × DescTable} (found : t.alloc n = some next) :
    next.1 < n ∧ t.free next.1 = true ∧
      next.2 = { t with free := Function.update t.free next.1 false } := by
  obtain ⟨i, search, rfl⟩ := Option.map_eq_some_iff.mp found
  exact ⟨List.mem_range.mp (List.mem_of_find?_eq_some search), List.find?_some search, rfl⟩

theorem release_eq (small : i < n) (used : t.free i = false) : t.release n clear i = some
    { desc := Function.update t.desc i (clear (t.desc i)), free := Function.update t.free i true } := by
  rw [release, if_neg (by omega), if_neg (by simp [used])]

/-- Descriptors that are in use and differ are given back. -/
theorem release_all {taken : List Nat} (nodup : taken.Nodup)
    (used : ∀ i ∈ taken, i < n ∧ t.free i = false) :
    ∃ t', taken.foldlM (release n clear) t = some t' ∧
      (∀ i, t'.free i = true ↔ t.free i = true ∨ i ∈ taken) ∧ ∀ i, i ∉ taken → t'.desc i = t.desc i := by
  induction taken generalizing t with
  | nil => exact ⟨t, rfl, fun i => by simp, fun _ _ => rfl⟩
  | cons i taken ih =>
      obtain ⟨fresh, nodup⟩ := List.nodup_cons.mp nodup
      obtain ⟨small, inUse⟩ := used i List.mem_cons_self
      have used' : ∀ j ∈ taken, j < n ∧ Function.update t.free i true j = false := fun j member => by
        have other : j ≠ i := fun is => fresh (is ▸ member)
        rw [Function.update_of_ne other]
        exact used j (.tail _ member)
      obtain ⟨t', ran, free, desc⟩ := @ih
        { desc := Function.update t.desc i (clear (t.desc i)), free := Function.update t.free i true } nodup used'
      refine ⟨t', ?_, fun j => ?_, fun j outside => ?_⟩
      · rw [List.foldlM_cons, release_eq small inUse]
        exact ran
      · rw [free, List.mem_cons]
        show Function.update t.free i true j = true ∨ _ ↔ _
        rw [Function.update_apply]
        by_cases is : j = i <;> simp [is]
      · rw [List.mem_cons, not_or] at outside
        rw [desc j outside.2]
        exact Function.update_of_ne outside.1 ..

/-- The three descriptors of a chain are given back one after the other. Each is as it was until it is
given back, and as `clear` makes it then. -/
theorem release_three (nodup : c.toList.Nodup) (used : ∀ i ∈ c.toList, i < n ∧ t.free i = false) :
    ∃ t1 t2 t3, t.release n clear c.first = some t1 ∧ t1.release n clear c.second = some t2 ∧
      t2.release n clear c.third = some t3 ∧ t1.desc c.second = t.desc c.second ∧
      t2.desc c.third = t.desc c.third ∧ t1.desc c.first = clear (t.desc c.first) ∧
      t2.desc c.second = clear (t.desc c.second) ∧ t3.desc c.third = clear (t.desc c.third) ∧
      (∀ i, t3.free i = true ↔ t.free i = true ∨ i ∈ c.toList) ∧ ∀ i, i ∉ c.toList → t3.desc i = t.desc i := by
  have first := used c.first (by simp [Chain.toList])
  have second := used c.second (by simp [Chain.toList])
  have third := used c.third (by simp [Chain.toList])
  simp only [Chain.toList, List.nodup_cons, List.mem_cons, List.not_mem_nil, or_false, not_or] at nodup
  obtain ⟨⟨first_second, first_third⟩, second_third, _⟩ := nodup
  let t1 : DescTable :=
    { desc := Function.update t.desc c.first (clear (t.desc c.first)), free := Function.update t.free c.first true }
  let t2 : DescTable :=
    { desc := Function.update t1.desc c.second (clear (t1.desc c.second))
      free := Function.update t1.free c.second true }
  let t3 : DescTable :=
    { desc := Function.update t2.desc c.third (clear (t2.desc c.third))
      free := Function.update t2.free c.third true }
  have desc1 : t1.desc c.second = t.desc c.second := Function.update_of_ne (Ne.symm first_second) ..
  have desc2 : t2.desc c.third = t.desc c.third :=
    (Function.update_of_ne (Ne.symm second_third) ..).trans (Function.update_of_ne (Ne.symm first_third) ..)
  have free1 : t1.free c.second = false :=
    (Function.update_of_ne (Ne.symm first_second) ..).trans second.2
  have free2 : t2.free c.third = false :=
    (Function.update_of_ne (Ne.symm second_third) ..).trans
      ((Function.update_of_ne (Ne.symm first_third) ..).trans third.2)
  refine ⟨t1, t2, t3, release_eq first.1 first.2, release_eq second.1 free1, release_eq third.1 free2, desc1,
    desc2, Function.update_self .., (Function.update_self ..).trans (congrArg clear desc1),
    (Function.update_self ..).trans (congrArg clear desc2), fun d => ?_, fun d outside => ?_⟩
  · simp only [t3, t2, t1, Chain.toList, List.mem_cons, List.not_mem_nil, or_false, Function.update_apply]
    by_cases third : d = c.third
    · simp [third]
    · by_cases second : d = c.second
      · simp [second]
      · by_cases first : d = c.first <;> simp [third, second, first]
  · simp only [Chain.toList, List.mem_cons, List.not_mem_nil, or_false, not_or] at outside
    obtain ⟨first, second, third⟩ := outside
    exact (Function.update_of_ne third ..).trans
      ((Function.update_of_ne second ..).trans (Function.update_of_ne first ..))

/-- Taking more descriptors never gives back a free one. What has changed afterwards are
descriptors that were free, and of these the ones that are taken now are in use. -/
theorem allocLoop_spec {left : Nat} {taken : List Nat} (nodup : taken.Nodup)
    (used : ∀ i ∈ taken, i < n ∧ t.free i = false) :
    ∃ result t', allocLoop n clear left taken t = some (result, t') ∧
      (∀ i, t.free i = false → i ∉ taken → t'.desc i = t.desc i) ∧
      (result = none → ∀ i, t'.free i = true ↔ t.free i = true ∨ i ∈ taken) ∧
      ∀ all, result = some all → ∃ more, all = taken ++ more ∧ more.length = left ∧ all.Nodup ∧
        (∀ i ∈ more, i < n ∧ t.free i = true) ∧
        (∀ i, t'.free i = true ↔ t.free i = true ∧ i ∉ more) ∧ t'.desc = t.desc := by
  induction left generalizing taken t with
  | zero =>
      refine ⟨some taken, t, rfl, fun _ _ _ => rfl, fun none_ => (by cases none_), ?_⟩
      rintro _ ⟨⟩
      exact ⟨[], by simp, rfl, nodup, by simp, by simp, rfl⟩
  | succ left ih =>
      cases found : t.alloc n with
      | none =>
          obtain ⟨t', ran, free, desc⟩ := @release_all n clear t taken nodup used
          refine ⟨none, t', ?_, fun i _ outside => desc i outside, fun _ => free, fun _ some_ => by cases some_⟩
          simp only [allocLoop, found, ran, Option.map_some]
      | some next =>
          obtain ⟨small, wasFree, after⟩ := alloc_some found
          have fresh : next.1 ∉ taken := fun member => by
            rw [(used _ member).2] at wasFree
            cases wasFree
          have free' : ∀ i, next.2.free i = true ↔ t.free i = true ∧ i ≠ next.1 := fun i => by
            rw [after]
            show Function.update t.free next.1 false i = true ↔ _
            by_cases is : i = next.1 <;> simp [is]
          have nodup' : (taken ++ [next.1]).Nodup := by
            rw [List.nodup_append_comm]
            exact List.nodup_cons.mpr ⟨fresh, nodup⟩
          have used' : ∀ i ∈ taken ++ [next.1], i < n ∧ next.2.free i = false := fun i member => by
            rw [← Bool.not_eq_true, free']
            obtain member | last := List.mem_append.mp member
            · exact ⟨(used i member).1, fun both => by rw [(used i member).2] at both; cases both.1⟩
            · rw [List.mem_singleton.mp last]
              exact ⟨small, fun both => both.2 rfl⟩
          obtain ⟨result, t', ran, desc, failed, done⟩ := ih nodup' used'
          refine ⟨result, t', ?_, fun i inUse outside => ?_, fun none_ i => ?_, fun all some_ => ?_⟩
          · simp only [allocLoop, found]
            exact ran
          · have other : i ≠ next.1 := by
              rintro rfl
              rw [wasFree] at inUse
              cases inUse
            have inUse' : next.2.free i = false := by
              rw [← Bool.not_eq_true, free', inUse]
              exact fun both => by cases both.1
            rw [desc i inUse' (by simp [outside, other]), after]
          · rw [failed none_, free', List.mem_append, List.mem_singleton]
            by_cases is : i = next.1
            · rw [is]
              simp [wasFree]
            · simp [is]
          · obtain ⟨more, rfl, length, nodup'', free, free'', same⟩ := done all some_
            refine ⟨next.1 :: more, by simp, by simp [length], nodup'', fun i member => ?_, fun i => ?_, ?_⟩
            · obtain rfl | later := List.mem_cons.mp member
              · exact ⟨small, wasFree⟩
              · exact ⟨(free i later).1, ((free' i).mp (free i later).2).1⟩
            · rw [free'', free', List.mem_cons, not_or, and_assoc]
            · rw [same, after]

/-- Take three descriptors, or none. -/
def alloc3 (n : Nat) (clear : Desc → Desc) (t : DescTable) : Option (Option Chain × DescTable) :=
  (allocLoop n clear 3 [] t).map fun taken =>
    (taken.1.map fun idx => ⟨idx.getD 0 0, idx.getD 1 0, idx.getD 2 0⟩, taken.2)

/-- Taking three descriptors never gives back a free one, and either takes three or leaves all free
ones free. -/
theorem alloc3_spec (n : Nat) (clear : Desc → Desc) (t : DescTable) :
    ∃ result t', t.alloc3 n clear = some (result, t') ∧
      (∀ i, t.free i = false → t'.desc i = t.desc i) ∧ (result = none → t'.free = t.free) ∧
      ∀ c, result = some c → c.toList.Nodup ∧ (∀ i ∈ c.toList, i < n ∧ t.free i = true) ∧
        ∀ i, t'.free i = true ↔ t.free i = true ∧ i ∉ c.toList := by
  obtain ⟨result, t', ran, desc, failed, done⟩ :=
    @allocLoop_spec n clear t 3 [] List.nodup_nil fun i member => absurd member List.not_mem_nil
  refine ⟨_, t', by rw [alloc3, ran]; rfl, fun i inUse => desc i inUse List.not_mem_nil,
    fun none_ => ?_, fun c some_ => ?_⟩
  · funext i
    have same := failed (Option.map_eq_none_iff.mp none_) i
    rw [Bool.eq_iff_iff, same, or_iff_left List.not_mem_nil]
  · obtain ⟨all, is, rfl⟩ := Option.map_eq_some_iff.mp some_
    obtain ⟨more, rfl, length, nodup, free, free', _⟩ := done all is
    obtain ⟨i, j, k, rfl⟩ := List.length_eq_three.mp length
    exact ⟨nodup, free, free'⟩

end DescTable

end Table

/-- The heads of the chains that were put into the available ring, fetched from it, not yet completed,
put into the used ring and processed. -/
structure Flight where
  published : List Nat
  fetched : List Nat
  pending : List Nat
  completed : List Nat
  processed : List Nat

namespace Flight

variable {f : Flight} {h : Nat}

/-- The requests of which the driver has not heard. -/
def outstanding (f : Flight) : List Nat :=
  f.published.drop f.fetched.length ++ f.pending ++ f.completed.drop f.processed.length

def publish (f : Flight) (h : Nat) : Flight := { f with published := f.published ++ [h] }

def fetch (f : Flight) (h : Nat) : Flight :=
  { f with fetched := f.fetched ++ [h], pending := h :: f.pending }

def complete (f : Flight) (h : Nat) : Flight :=
  { f with pending := f.pending.erase h, completed := f.completed ++ [h] }

def process (f : Flight) (h : Nat) : Flight := { f with processed := f.processed ++ [h] }

theorem outstanding_publish (le : f.fetched.length ≤ f.published.length) :
    List.Perm (f.publish h).outstanding (h :: f.outstanding) := by
  simp only [outstanding, publish]
  rw [List.drop_append_of_le_length le, List.append_assoc, List.append_assoc, List.append_assoc]
  exact List.perm_middle

theorem outstanding_fetch (more : f.fetched.length < f.published.length)
    (next : f.published[f.fetched.length] = h) : List.Perm (f.fetch h).outstanding f.outstanding := by
  simp only [outstanding, fetch, List.length_append, List.length_singleton]
  rw [List.drop_eq_getElem_cons more, next, List.append_assoc, List.append_assoc, List.cons_append]
  exact List.perm_middle

theorem outstanding_complete (le : f.processed.length ≤ f.completed.length) (member : h ∈ f.pending) :
    List.Perm (f.complete h).outstanding f.outstanding := by
  simp only [outstanding, complete]
  rw [List.drop_append_of_le_length le, List.append_assoc, List.append_assoc]
  refine List.Perm.append_left _ ?_
  calc List.Perm (f.pending.erase h ++ (f.completed.drop f.processed.length ++ [h]))
        (f.pending.erase h ++ (h :: f.completed.drop f.processed.length)) :=
        List.Perm.append_left _ (List.perm_append_singleton ..)
    List.Perm _ (h :: (f.pending.erase h ++ f.completed.drop f.processed.length)) := List.perm_middle
    List.Perm _ (f.pending ++ f.completed.drop f.processed.length) :=
        ((List.perm_cons_erase member).symm).append_right _

theorem outstanding_process (more : f.processed.length < f.completed.length)
    (next : f.completed[f.processed.length] = h) :
    List.Perm f.outstanding (h :: (f.process h).outstanding) := by
  simp only [outstanding, process, List.length_append, List.length_singleton]
  rw [List.drop_eq_getElem_cons more, next]
  exact List.perm_middle

/-- A head that is next to be processed is outstanding. -/
theorem mem_outstanding (more : f.processed.length < f.completed.length)
    (next : f.completed[f.processed.length] = h) : h ∈ f.outstanding :=
  (outstanding_process more next).mem_iff.mpr List.mem_cons_self

end Flight

/-- How far a request has come: it has its descriptors; they are linked and the request is recorded;
its head is published. -/
inductive Stage where
  | taken
  | prepared
  | submitted
deriving DecidableEq, Repr

/-- A request for a buffer. -/
structure Request (B : Type) where
  chain : Chain
  buf : B
  stage : Stage

/-- A driver and its device: the descriptors, the buffer that is recorded for a head, the buffers that the
device has, the requests of the parties and what has become of them. -/
structure Queue (P B : Type) where
  desc : Nat → Desc
  free : Nat → Bool
  info : Nat → Option B
  disk : B → Bool
  flight : Flight
  req : P → Option (Request B)

namespace Queue

variable {P B : Type}

/-- What the driver and the device keep. -/
structure Sound (n : Nat) (q : Queue P B) : Prop where
  inside : ∀ p r, q.req p = some r → ∀ d ∈ r.chain.toList, d < n ∧ q.free d = false
  distinct : ∀ p r, q.req p = some r → r.chain.toList.Nodup
  apart : ∀ p r p' r', q.req p = some r → q.req p' = some r' →
    ∀ d ∈ r.chain.toList, d ∈ r'.chain.toList → p = p'
  owned : ∀ d < n, q.free d = false → ∃ p r, q.req p = some r ∧ d ∈ r.chain.toList
  buffers : ∀ p r p' r', q.req p = some r → q.req p' = some r' → r.buf = r'.buf → p = p'
  linked : ∀ p r, q.req p = some r → r.stage ≠ .taken →
    Linked q.desc r.chain ∧ q.info r.chain.first = some r.buf
  prepared : ∀ p r, q.req p = some r → r.stage = .prepared → q.disk r.buf = true
  submitted : ∀ p r, q.req p = some r → r.stage = .submitted →
    (q.disk r.buf = true ↔ r.chain.first ∈ q.flight.outstanding)
  known : ∀ h ∈ q.flight.outstanding, ∃ p r, q.req p = some r ∧ r.stage = .submitted ∧ r.chain.first = h
  nodup : q.flight.outstanding.Nodup

namespace Sound

variable {n : Nat} {q : Queue P B} {p p' : P} {r r' : Request B} {h d : Nat}

theorem first_mem (c : Chain) : c.first ∈ c.toList := List.mem_cons_self

/-- Every descriptor is free or belongs to one request. -/
theorem owner (sound : q.Sound n) (small : d < n) :
    (q.free d = true ∧ ∀ p r, q.req p = some r → d ∉ r.chain.toList) ∨
      (q.free d = false ∧ ∃ p r, (q.req p = some r ∧ d ∈ r.chain.toList) ∧
        ∀ p' r', q.req p' = some r' → d ∈ r'.chain.toList → p' = p) := by
  cases free : q.free d with
  | true =>
      refine .inl ⟨rfl, fun p r holds member => ?_⟩
      rw [(sound.inside p r holds d member).2] at free
      cases free
  | false =>
      obtain ⟨p, r, holds, member⟩ := sound.owned d small free
      exact .inr ⟨rfl, p, r, ⟨holds, member⟩, fun p' r' holds' member' =>
        sound.apart p' r' p r holds' holds d member' member⟩

/-- A request whose head is outstanding has been submitted. -/
theorem submitted_of_mem (sound : q.Sound n) (holds : q.req p = some r)
    (member : r.chain.first ∈ q.flight.outstanding) : r.stage = .submitted := by
  obtain ⟨p', r', holds', stage, same⟩ := sound.known _ member
  have is := sound.apart p' r' p r holds' holds r.chain.first (same ▸ first_mem _) (first_mem _)
  subst is
  rw [holds] at holds'
  cases holds'
  exact stage

/-- No more requests are outstanding than there are triples of descriptors. -/
theorem three_mul_length_le (sound : q.Sound n) : 3 * q.flight.outstanding.length ≤ n := by
  classical
  have choice : ∀ h : Nat, ∃ c : Chain, h ∈ q.flight.outstanding →
      ∃ p r, q.req p = some r ∧ r.chain = c ∧ c.first = h := fun h => by
    by_cases member : h ∈ q.flight.outstanding
    · obtain ⟨p, r, holds, _, first⟩ := sound.known h member
      exact ⟨r.chain, fun _ => ⟨p, r, holds, rfl, first⟩⟩
    · exact ⟨⟨0, 0, 0⟩, fun member' => absurd member' member⟩
  choose chain known using choice
  have card : ∀ h ∈ q.flight.outstanding.toFinset, (chain h).toList.toFinset.card = 3 := by
    intro h member
    obtain ⟨p, r, holds, is, _⟩ := known h (List.mem_toFinset.mp member)
    rw [List.toFinset_card_of_nodup (is ▸ sound.distinct p r holds)]
    rfl
  have disjoint : ∀ h ∈ q.flight.outstanding.toFinset, ∀ h' ∈ q.flight.outstanding.toFinset, h ≠ h' →
      Disjoint (chain h).toList.toFinset (chain h').toList.toFinset := by
    intro h member h' member' differ
    obtain ⟨p, r, holds, is, first⟩ := known h (List.mem_toFinset.mp member)
    obtain ⟨p', r', holds', is', first'⟩ := known h' (List.mem_toFinset.mp member')
    refine Finset.disjoint_left.mpr fun d here there => differ ?_
    rw [List.mem_toFinset] at here there
    have same := sound.apart p r p' r' holds holds' d (is ▸ here) (is' ▸ there)
    subst same
    rw [holds] at holds'
    cases holds'
    rw [← first, ← first', ← is, ← is']
  have inside : (q.flight.outstanding.toFinset.biUnion fun h => (chain h).toList.toFinset) ⊆
      Finset.range n := by
    intro d member
    obtain ⟨h, outstanding, here⟩ := Finset.mem_biUnion.mp member
    obtain ⟨p, r, holds, is, _⟩ := known h (List.mem_toFinset.mp outstanding)
    exact Finset.mem_range.mpr (sound.inside p r holds d (is ▸ List.mem_toFinset.mp here)).1
  calc 3 * q.flight.outstanding.length
      = ∑ h ∈ q.flight.outstanding.toFinset, (chain h).toList.toFinset.card := by
        rw [Finset.sum_congr rfl card, Finset.sum_const, List.toFinset_card_of_nodup sound.nodup,
          smul_eq_mul, Nat.mul_comm]
    _ = (q.flight.outstanding.toFinset.biUnion fun h => (chain h).toList.toFinset).card :=
        (Finset.card_biUnion disjoint).symm
    _ ≤ (Finset.range n).card := Finset.card_le_card inside
    _ = n := Finset.card_range n

/-- Only which requests are outstanding matters. -/
theorem reorder (sound : q.Sound n) {f : Flight} (perm : List.Perm f.outstanding q.flight.outstanding) :
    Sound n { q with flight := f } where
  inside := sound.inside
  distinct := sound.distinct
  apart := sound.apart
  owned := sound.owned
  buffers := sound.buffers
  linked := sound.linked
  prepared := sound.prepared
  submitted p r holds stage := (sound.submitted p r holds stage).trans perm.mem_iff.symm
  known h member := sound.known h (perm.mem_iff.mp member)
  nodup := perm.nodup_iff.mpr sound.nodup

/-- The descriptors that are free may change. -/
theorem rewrite (sound : q.Sound n) {desc : Nat → Desc} (same : ∀ d, q.free d = false → desc d = q.desc d) :
    Sound n { q with desc := desc } where
  inside := sound.inside
  distinct := sound.distinct
  apart := sound.apart
  owned := sound.owned
  buffers := sound.buffers
  linked p r holds stage := by
    obtain ⟨linked, info⟩ := sound.linked p r holds stage
    exact ⟨linked.congr fun d member => same d (sound.inside p r holds d member).2, info⟩
  prepared := sound.prepared
  submitted := sound.submitted
  known := sound.known
  nodup := sound.nodup

/-- Nothing is outstanding where nothing was published. -/
theorem empty (free : ∀ d < n, q.free d = true) (none_ : ∀ p, q.req p = none)
    (flight : q.flight.outstanding = []) : q.Sound n := by
  have absent : ∀ {p r} {Q : Prop}, q.req p = some r → Q := fun {p r Q} holds => by
    rw [none_ p] at holds
    cases holds
  refine ⟨fun p r holds => absent holds, fun p r holds => absent holds, fun p r p' r' holds => absent holds,
    fun d small used => ?_, fun p r p' r' holds => absent holds, fun p r holds => absent holds,
    fun p r holds => absent holds, fun p r holds => absent holds, fun h member => ?_, ?_⟩
  · rw [free d small] at used
    cases used
  · rw [flight] at member
    exact absurd member List.not_mem_nil
  · rw [flight]
    exact List.nodup_nil

section Parties

variable [DecidableEq P] {c : Chain} {b : B} {desc : Nat → Desc} {free : Nat → Bool} {f : Flight}

theorem update_cases {req : P → Option (Request B)} {new : Option (Request B)}
    (holds : Function.update req p new p' = some r) :
    (p' = p ∧ new = some r) ∨ (p' ≠ p ∧ req p' = some r) := by
  rw [Function.update_apply] at holds
  split at holds
  · next is => exact .inl ⟨is, holds⟩
  · next other => exact .inr ⟨other, holds⟩

/-- A party takes free descriptors for a buffer that no other request has. -/
theorem take (sound : q.Sound n) (idle : q.req p = none) (nodup : c.toList.Nodup)
    (wasFree : ∀ d ∈ c.toList, d < n ∧ q.free d = true)
    (free' : ∀ d, free d = true ↔ q.free d = true ∧ d ∉ c.toList)
    (other : ∀ p r, q.req p = some r → r.buf ≠ b) :
    Sound n { q with free := free, req := Function.update q.req p (some ⟨c, b, .taken⟩) } := by
  have taken : ∀ {d p r}, q.req p = some r → d ∈ r.chain.toList → d ∉ c.toList := fun holds member both => by
    have inUse := (sound.inside _ _ holds _ member).2
    rw [(wasFree _ both).2] at inUse
    cases inUse
  have used : ∀ d, free d = false ↔ q.free d = false ∨ d ∈ c.toList := fun d => by
    rw [← Bool.not_eq_true, free', not_and_or, not_not, Bool.not_eq_true]
  refine ⟨fun p' r holds d member => ?_, fun p' r holds => ?_, fun p1 r1 p2 r2 holds1 holds2 d member1 member2 => ?_,
    fun d small inUse => ?_, fun p1 r1 p2 r2 holds1 holds2 same => ?_, fun p' r holds stage => ?_,
    fun p' r holds stage => ?_, fun p' r holds stage => ?_, fun h member => ?_, sound.nodup⟩
  · rw [used]
    obtain ⟨rfl, ⟨⟩⟩ | ⟨_, holds⟩ := update_cases holds
    · exact ⟨(wasFree d member).1, .inr member⟩
    · obtain ⟨small, inUse⟩ := sound.inside p' r holds d member
      exact ⟨small, .inl inUse⟩
  · obtain ⟨rfl, ⟨⟩⟩ | ⟨_, holds⟩ := update_cases holds
    · exact nodup
    · exact sound.distinct p' r holds
  · obtain ⟨rfl, ⟨⟩⟩ | ⟨_, held1⟩ := update_cases holds1 <;>
      obtain ⟨rfl, ⟨⟩⟩ | ⟨_, held2⟩ := update_cases holds2
    · rfl
    · exact (taken held2 member2 member1).elim
    · exact (taken held1 member1 member2).elim
    · exact sound.apart p1 r1 p2 r2 held1 held2 d member1 member2
  · obtain before | member := (used d).mp inUse
    · obtain ⟨p', r, holds, member⟩ := sound.owned d small before
      have differ : p' ≠ p := by
        rintro rfl
        rw [idle] at holds
        cases holds
      exact ⟨p', r, (Function.update_of_ne differ ..).trans holds, member⟩
    · exact ⟨p, _, Function.update_self .., member⟩
  · obtain ⟨rfl, ⟨⟩⟩ | ⟨_, held1⟩ := update_cases holds1 <;>
      obtain ⟨rfl, ⟨⟩⟩ | ⟨_, held2⟩ := update_cases holds2
    · rfl
    · exact (other p2 r2 held2 same.symm).elim
    · exact (other p1 r1 held1 same).elim
    · exact sound.buffers p1 r1 p2 r2 held1 held2 same
  · obtain ⟨rfl, ⟨⟩⟩ | ⟨_, holds⟩ := update_cases holds
    · exact (stage rfl).elim
    · exact sound.linked p' r holds stage
  · obtain ⟨rfl, ⟨⟩⟩ | ⟨_, holds⟩ := update_cases holds
    · cases stage
    · exact sound.prepared p' r holds stage
  · obtain ⟨rfl, ⟨⟩⟩ | ⟨_, holds⟩ := update_cases holds
    · cases stage
    · exact sound.submitted p' r holds stage
  · obtain ⟨p', r, holds, rest⟩ := sound.known h member
    have differ : p' ≠ p := by
      rintro rfl
      rw [idle] at holds
      cases holds
    exact ⟨p', r, (Function.update_of_ne differ ..).trans holds, rest⟩

/-- The chains and the buffers of the parties stay. -/
theorem advance (sound : q.Sound n) (holds : q.req p = some r) {stage : Stage} {info : Nat → Option B}
    {disk : B → Bool}
    (linked : ∀ p' r', Function.update q.req p (some ⟨r.chain, r.buf, stage⟩) p' = some r' →
      r'.stage ≠ .taken → Linked desc r'.chain ∧ info r'.chain.first = some r'.buf)
    (prepared : ∀ p' r', Function.update q.req p (some ⟨r.chain, r.buf, stage⟩) p' = some r' →
      r'.stage = .prepared → disk r'.buf = true)
    (submitted : ∀ p' r', Function.update q.req p (some ⟨r.chain, r.buf, stage⟩) p' = some r' →
      r'.stage = .submitted → (disk r'.buf = true ↔ r'.chain.first ∈ f.outstanding))
    (known : ∀ h ∈ f.outstanding, ∃ p' r',
      Function.update q.req p (some ⟨r.chain, r.buf, stage⟩) p' = some r' ∧ r'.stage = .submitted ∧
        r'.chain.first = h)
    (nodup : f.outstanding.Nodup) :
    Sound n { q with
      desc := desc, info := info, disk := disk, flight := f
      req := Function.update q.req p (some ⟨r.chain, r.buf, stage⟩) } := by
  have before : ∀ {p' r'}, Function.update q.req p (some ⟨r.chain, r.buf, stage⟩) p' = some r' →
      ∃ r'', q.req p' = some r'' ∧ r''.chain = r'.chain ∧ r''.buf = r'.buf := fun holds' => by
    obtain ⟨rfl, ⟨⟩⟩ | ⟨_, holds'⟩ := update_cases holds'
    · exact ⟨r, holds, rfl, rfl⟩
    · exact ⟨_, holds', rfl, rfl⟩
  refine ⟨fun p' r' holds' => ?_, fun p' r' holds' => ?_, fun p1 r1 p2 r2 holds1 holds2 => ?_,
    fun d small inUse => ?_, fun p1 r1 p2 r2 holds1 holds2 same => ?_, linked, prepared, submitted, known, nodup⟩
  · obtain ⟨r'', holds'', chain, _⟩ := before holds'
    exact chain ▸ sound.inside p' r'' holds''
  · obtain ⟨r'', holds'', chain, _⟩ := before holds'
    exact chain ▸ sound.distinct p' r'' holds''
  · obtain ⟨r1', holds1', chain1, _⟩ := before holds1
    obtain ⟨r2', holds2', chain2, _⟩ := before holds2
    exact chain1 ▸ chain2 ▸ sound.apart p1 r1' p2 r2' holds1' holds2'
  · obtain ⟨p', r', holds', member⟩ := sound.owned d small inUse
    by_cases is : p' = p
    · subst is
      rw [holds] at holds'
      cases holds'
      exact ⟨p', _, Function.update_self .., member⟩
    · exact ⟨p', r', (Function.update_of_ne is ..).trans holds', member⟩
  · obtain ⟨r1', holds1', _, buf1⟩ := before holds1
    obtain ⟨r2', holds2', _, buf2⟩ := before holds2
    exact sound.buffers p1 r1' p2 r2' holds1' holds2' (by rw [buf1, buf2, same])

/-- The chain is linked and the request recorded. -/
theorem prepare [DecidableEq B] (sound : q.Sound n) (holds : q.req p = some ⟨c, b, .taken⟩) (linked : Linked desc c)
    (same : ∀ d, d ∉ c.toList → desc d = q.desc d) :
    Sound n { q with
      desc := desc
      info := Function.update q.info c.first (some b)
      disk := Function.update q.disk b true
      req := Function.update q.req p (some ⟨c, b, .prepared⟩) } := by
  have otherBuf : ∀ {p' r'}, p' ≠ p → q.req p' = some r' → r'.buf ≠ b := fun differ holds' is =>
    differ (sound.buffers _ _ p _ holds' holds is)
  have otherChain : ∀ {p' r'}, p' ≠ p → q.req p' = some r' → ∀ d ∈ r'.chain.toList, d ∉ c.toList :=
    fun differ holds' d member both => differ (sound.apart _ _ p _ holds' holds d member both)
  refine sound.advance holds (fun p' r' holds' stage => ?_) (fun p' r' holds' stage => ?_)
    (fun p' r' holds' stage => ?_) (fun h member => ?_) sound.nodup
  · obtain ⟨rfl, ⟨⟩⟩ | ⟨differ, holds'⟩ := update_cases holds'
    · exact ⟨linked, Function.update_self ..⟩
    · obtain ⟨linked', info⟩ := sound.linked p' r' holds' stage
      have apart := otherChain differ holds'
      refine ⟨linked'.congr fun d member => same d (apart d member), ?_⟩
      have first : r'.chain.first ≠ c.first := fun is => apart _ (first_mem _) (is ▸ first_mem c)
      rw [Function.update_of_ne first, info]
  · obtain ⟨rfl, ⟨⟩⟩ | ⟨differ, holds'⟩ := update_cases holds'
    · exact Function.update_self ..
    · rw [Function.update_of_ne (otherBuf differ holds')]
      exact sound.prepared p' r' holds' stage
  · obtain ⟨rfl, ⟨⟩⟩ | ⟨differ, holds'⟩ := update_cases holds'
    · cases stage
    · rw [Function.update_of_ne (otherBuf differ holds')]
      exact sound.submitted p' r' holds' stage
  · obtain ⟨p', r', holds', stage, first⟩ := sound.known h member
    have differ : p' ≠ p := by
      rintro rfl
      rw [holds] at holds'
      cases holds'
      cases stage
    exact ⟨p', r', (Function.update_of_ne differ ..).trans holds', stage, first⟩

/-- The head of a chain is published. -/
theorem publish (sound : q.Sound n) (holds : q.req p = some ⟨c, b, .prepared⟩)
    (perm : List.Perm f.outstanding (c.first :: q.flight.outstanding)) :
    Sound n { q with flight := f, req := Function.update q.req p (some ⟨c, b, .submitted⟩) } := by
  have fresh : c.first ∉ q.flight.outstanding := fun member => by
    have stage := sound.submitted_of_mem holds member
    cases stage
  refine sound.advance holds (fun p' r' holds' stage => ?_) (fun p' r' holds' stage => ?_)
    (fun p' r' holds' stage => ?_) (fun h member => ?_) ?_
  · obtain ⟨rfl, ⟨⟩⟩ | ⟨_, holds'⟩ := update_cases holds'
    · exact sound.linked p' ⟨c, b, .prepared⟩ holds (by simp)
    · exact sound.linked p' r' holds' stage
  · obtain ⟨rfl, ⟨⟩⟩ | ⟨_, holds'⟩ := update_cases holds'
    · cases stage
    · exact sound.prepared p' r' holds' stage
  · rw [perm.mem_iff, List.mem_cons]
    obtain ⟨rfl, ⟨⟩⟩ | ⟨differ, holds'⟩ := update_cases holds'
    · exact iff_of_true (sound.prepared p' ⟨c, b, .prepared⟩ holds rfl) (.inl rfl)
    · have first : r'.chain.first ≠ c.first := fun is =>
        differ (sound.apart p' r' p _ holds' holds _ (first_mem _) (is ▸ first_mem c))
      rw [or_iff_right first]
      exact sound.submitted p' r' holds' stage
  · rw [perm.mem_iff, List.mem_cons] at member
    obtain rfl | member := member
    · exact ⟨p, _, Function.update_self .., rfl, rfl⟩
    · obtain ⟨p', r', holds', stage, first⟩ := sound.known h member
      have differ : p' ≠ p := by
        rintro rfl
        rw [holds] at holds'
        cases holds'
        cases stage
      exact ⟨p', r', (Function.update_of_ne differ ..).trans holds', stage, first⟩
  · exact perm.nodup_iff.mpr (List.nodup_cons.mpr ⟨fresh, sound.nodup⟩)

/-- The request of a head that is outstanding is heard of. -/
theorem process [DecidableEq B] (sound : q.Sound n) (holds : q.req p = some r)
    (perm : List.Perm q.flight.outstanding (r.chain.first :: f.outstanding)) :
    Sound n { q with disk := Function.update q.disk r.buf false, flight := f } := by
  have nodup := List.nodup_cons.mp (perm.nodup_iff.mp sound.nodup)
  have stage := sound.submitted_of_mem holds (perm.mem_iff.mpr List.mem_cons_self)
  refine ⟨sound.inside, sound.distinct, sound.apart, sound.owned, sound.buffers, sound.linked,
    fun p' r' holds' stage' => ?_, fun p' r' holds' stage' => ?_,
    fun h member => sound.known h (perm.mem_iff.mpr (.tail _ member)), nodup.2⟩
  · have differ : r'.buf ≠ r.buf := fun is => by
      have same := sound.buffers p' r' p r holds' holds is
      subst same
      rw [holds] at holds'
      cases holds'
      rw [stage] at stage'
      cases stage'
    exact (Function.update_of_ne differ ..).trans (sound.prepared p' r' holds' stage')
  · by_cases is : p' = p
    · subst is
      rw [holds] at holds'
      cases holds'
      show Function.update q.disk r.buf false r.buf = true ↔ _
      rw [Function.update_self]
      exact iff_of_false Bool.false_ne_true nodup.1
    · have buf : r'.buf ≠ r.buf := fun same => is (sound.buffers p' r' p r holds' holds same)
      have first : r'.chain.first ≠ r.chain.first := fun same =>
        is (sound.apart p' r' p r holds' holds _ (first_mem _) (same ▸ first_mem r.chain))
      have before := sound.submitted p' r' holds' stage'
      rw [perm.mem_iff, List.mem_cons, or_iff_right first] at before
      show Function.update q.disk r.buf false r'.buf = true ↔ _
      rw [Function.update_of_ne buf]
      exact before

/-- A party gives back the descriptors of a request that was heard of. -/
theorem release (sound : q.Sound n) (holds : q.req p = some r) (stage : r.stage = .submitted)
    (heard : q.disk r.buf = false) (free' : ∀ d, free d = true ↔ q.free d = true ∨ d ∈ r.chain.toList)
    (same : ∀ d, d ∉ r.chain.toList → desc d = q.desc d) :
    Sound n { q with
      desc := desc
      free := free
      info := Function.update q.info r.chain.first none
      req := Function.update q.req p none } := by
  have before : ∀ {p' r'}, Function.update q.req p none p' = some r' → p' ≠ p ∧ q.req p' = some r' :=
    fun holds' => by
      obtain ⟨_, ⟨⟩⟩ | kept := update_cases holds'
      exact kept
  have apart : ∀ {p' r'}, p' ≠ p → q.req p' = some r' → ∀ d ∈ r'.chain.toList, d ∉ r.chain.toList :=
    fun differ holds' d member both => differ (sound.apart _ _ p _ holds' holds d member both)
  refine ⟨fun p' r' holds' d member => ?_, fun p' r' holds' => sound.distinct p' r' (before holds').2,
    fun p1 r1 p2 r2 holds1 holds2 => sound.apart p1 r1 p2 r2 (before holds1).2 (before holds2).2,
    fun d small inUse => ?_,
    fun p1 r1 p2 r2 holds1 holds2 => sound.buffers p1 r1 p2 r2 (before holds1).2 (before holds2).2,
    fun p' r' holds' stage' => ?_, fun p' r' holds' => sound.prepared p' r' (before holds').2,
    fun p' r' holds' => sound.submitted p' r' (before holds').2, fun h member => ?_, sound.nodup⟩
  · obtain ⟨differ, holds'⟩ := before holds'
    obtain ⟨small, inUse⟩ := sound.inside p' r' holds' d member
    refine ⟨small, ?_⟩
    rw [← Bool.not_eq_true, free', inUse]
    exact fun either => either.elim (fun absurd_ => by cases absurd_) (apart differ holds' d member)
  · have outside : ¬ (q.free d = true ∨ d ∈ r.chain.toList) := by
      rw [← free', show free d = false from inUse]
      exact Bool.false_ne_true
    rw [not_or, Bool.not_eq_true] at outside
    obtain ⟨p', r', holds', member⟩ := sound.owned d small outside.1
    have differ : p' ≠ p := by
      rintro rfl
      rw [holds] at holds'
      cases holds'
      exact outside.2 member
    exact ⟨p', r', (Function.update_of_ne differ ..).trans holds', member⟩
  · obtain ⟨differ, holds'⟩ := before holds'
    obtain ⟨linked, info⟩ := sound.linked p' r' holds' stage'
    have apart := apart differ holds'
    refine ⟨linked.congr fun d member => same d (apart d member), ?_⟩
    have first : r'.chain.first ≠ r.chain.first := fun is => apart _ (first_mem _) (is ▸ first_mem r.chain)
    exact (Function.update_of_ne first ..).trans info
  · obtain ⟨p', r', holds', stage', first⟩ := sound.known h member
    have differ : p' ≠ p := by
      rintro rfl
      rw [holds] at holds'
      cases holds'
      have device := (sound.submitted p' r holds stage).mpr (first ▸ member)
      rw [heard] at device
      cases device
    exact ⟨p', r', (Function.update_of_ne differ ..).trans holds', stage', first⟩

end Parties

end Sound

end Queue

end Virtqueue

end Riscv2os.Std
