import Mathlib.Tactic

/-!
# Singly linked lists in memory

`next` is the field of every node that points to the next one, and `null` the pointer that
ends a list. `IsList` says which nodes a pointer leads through; the rest says what the
usual operations of C code do to them: pushing in front, appending behind the last node,
unlinking the node behind another one, and searching.
-/

namespace Riscv2os.Std

namespace LinkedList

variable {P : Type} {next next' : P → P} {null p q a b : P} {l l' x y : List P}

/-- Following `next` from `p` through `l` ends at `q`. -/
def Leads (next : P → P) : P → List P → P → Prop
  | p, [], q => p = q
  | p, a :: l, q => p = a ∧ Leads next (next a) l q

/-- The pointer `p` is the list of the nodes `l`. -/
def IsList (next : P → P) (null p : P) (l : List P) : Prop :=
  Leads next p l null ∧ null ∉ l

theorem leads_append : Leads next p (x ++ y) q ↔ ∃ r, Leads next p x r ∧ Leads next r y q := by
  induction x generalizing p with
  | nil => simp [Leads]
  | cons a x ih =>
      simp only [List.cons_append, Leads, ih]
      constructor
      · rintro ⟨first, r, before, after⟩
        exact ⟨r, ⟨first, before⟩, after⟩
      · rintro ⟨r, ⟨first, before⟩, after⟩
        exact ⟨first, r, before, after⟩

theorem Leads.congr (leads : Leads next p l q) (same : ∀ a ∈ l, next' a = next a) :
    Leads next' p l q := by
  induction l generalizing p with
  | nil => exact leads
  | cons a l ih =>
      obtain ⟨first, rest⟩ := leads
      refine ⟨first, ih ?_ fun b member => same b (List.mem_cons_of_mem a member)⟩
      rwa [same a (List.mem_cons_self ..)]

namespace IsList

theorem nil : IsList next null null [] := ⟨rfl, by simp⟩

theorem congr (list : IsList next null p l) (same : ∀ a ∈ l, next' a = next a) :
    IsList next' null p l := ⟨list.1.congr same, list.2⟩

theorem eq_nil (list : IsList next null null l) : l = [] := by
  cases l with
  | nil => rfl
  | cons a l => exact absurd (by simp [list.1.1]) list.2

theorem of_cons (list : IsList next null p (a :: l)) :
    p = a ∧ a ≠ null ∧ IsList next null (next a) l :=
  ⟨list.1.1, fun zero => list.2 (by simp [zero]), list.1.2,
    fun member => list.2 (List.mem_cons_of_mem a member)⟩

theorem cons (real : a ≠ null) (list : IsList next null (next a) l) :
    IsList next null a (a :: l) := by
  refine ⟨⟨rfl, list.1⟩, ?_⟩
  simp only [List.mem_cons, not_or]
  exact ⟨real.symm, list.2⟩

/-- A pointer is one list only. -/
theorem unique (list : IsList next null p l) (list' : IsList next null p l') : l = l' := by
  induction l generalizing p l' with
  | nil =>
      obtain rfl : p = null := list.1
      exact list'.eq_nil.symm
  | cons a l ih =>
      obtain ⟨rfl, real, rest⟩ := list.of_cons
      cases l' with
      | nil => exact absurd list'.1 real
      | cons b l' =>
          obtain ⟨rfl, _, rest'⟩ := list'.of_cons
          rw [ih rest rest']

/-- The part of a list from one of its nodes on. -/
theorem suffix (list : IsList next null p (x ++ a :: y)) : IsList next null a (a :: y) := by
  obtain ⟨r, _, after⟩ := leads_append.mp list.1
  obtain rfl : r = a := after.1
  exact ⟨after, fun member => list.2 (List.mem_append_right x member)⟩

/-- No node occurs twice. -/
theorem nodup (list : IsList next null p l) : l.Nodup := by
  induction l generalizing p with
  | nil => exact List.nodup_nil
  | cons a l ih =>
      obtain ⟨rfl, real, rest⟩ := list.of_cons
      refine List.nodup_cons.mpr ⟨fun member => ?_, ih rest⟩
      obtain ⟨x, y, rfl⟩ := List.append_of_mem member
      have same := (cons real rest).unique rest.suffix
      have lengths := congrArg List.length same
      simp only [List.length_cons, List.length_append] at lengths
      omega

section Updates

variable [DecidableEq P]

/-- Push a node in front. -/
theorem push (list : IsList next null p l) (real : a ≠ null) (fresh : a ∉ l) :
    IsList (Function.update next a p) null a (a :: l) := by
  refine cons real ?_
  rw [Function.update_self]
  refine list.congr fun b member => Function.update_of_ne ?_ ..
  rintro rfl
  exact fresh member

/-- Unlink the node behind another one. -/
theorem unlink (list : IsList next null p (x ++ a :: b :: y)) :
    IsList (Function.update next a (next b)) null p (x ++ a :: y) := by
  have distinct := list.nodup
  obtain ⟨r, before, after⟩ := leads_append.mp list.1
  refine ⟨leads_append.mpr ⟨r, before.congr fun c member => Function.update_of_ne ?_ ..,
    after.1, ?_⟩, ?_⟩
  · rintro rfl
    exact (List.nodup_append.mp distinct).2.2 c member c (List.mem_cons_self ..) rfl
  · rw [Function.update_self]
    refine Leads.congr after.2.2 fun c member => Function.update_of_ne ?_ ..
    rintro rfl
    have := (List.nodup_append.mp distinct).2.1
    simp_all
  · intro member
    refine list.2 ?_
    simp only [List.mem_append, List.mem_cons] at member ⊢
    tauto

/-- Append a node behind the last one. -/
theorem append (list : IsList next null p (x ++ [a])) (real : b ≠ null) (fresh : b ∉ x ++ [a]) :
    IsList (Function.update (Function.update next b null) a b) null p (x ++ [a, b]) := by
  have distinct := list.nodup
  obtain ⟨r, before, after⟩ := leads_append.mp list.1
  have apart : b ≠ a := by
    rintro rfl
    exact fresh (by simp)
  refine ⟨leads_append.mpr ⟨r, before.congr fun c member => ?_, after.1, ?_, ?_⟩, ?_⟩
  · have notLast : c ≠ a := by
      rintro rfl
      exact (List.nodup_append.mp distinct).2.2 c member c (List.mem_cons_self ..) rfl
    have notNew : c ≠ b := by
      rintro rfl
      exact fresh (List.mem_append_left _ member)
    rw [Function.update_of_ne notLast, Function.update_of_ne notNew]
  · rw [Function.update_self]
  · rw [Function.update_of_ne apart, Function.update_self]
    rfl
  · intro member
    simp only [List.mem_append, List.mem_cons, List.not_mem_nil, or_false] at member
    obtain inside | rfl | rfl := member
    · exact list.2 (List.mem_append_left _ inside)
    · exact list.2 (by simp)
    · exact real rfl

end Updates

end IsList

/-- A list with a pointer to its last node, which has no meaning in an empty list. -/
structure IsQueue (next : P → P) (null head tail : P) (l : List P) : Prop where
  list : IsList next null head l
  last : ∀ a, l.getLast? = some a → tail = a

namespace IsQueue

variable {head tail : P}

theorem empty : IsQueue next null null tail [] := ⟨.nil, by simp⟩

theorem congr (queue : IsQueue next null head tail l) (same : ∀ a ∈ l, next' a = next a) :
    IsQueue next' null head tail l := ⟨queue.list.congr same, queue.last⟩

theorem head_eq_null (queue : IsQueue next null head tail l) : head = null ↔ l = [] := by
  constructor
  · rintro rfl
    exact queue.list.eq_nil
  · rintro rfl
    exact queue.list.1

/-- Take the first node. -/
theorem pop (queue : IsQueue next null head tail (a :: l)) :
    head = a ∧ IsQueue next null (next a) tail l := by
  obtain ⟨rfl, _, rest⟩ := queue.list.of_cons
  refine ⟨rfl, rest, fun b last => queue.last b ?_⟩
  cases l with
  | nil => simp at last
  | cons c l => simpa using last

variable [DecidableEq P]

/-- Append a node to an empty queue. -/
theorem start (real : a ≠ null) : IsQueue (Function.update next a null) null a a [a] := by
  refine ⟨.cons real ?_, by simp⟩
  rw [Function.update_self]
  exact .nil

/-- Append a node to a queue that is not empty. -/
theorem push (queue : IsQueue next null head tail l) (more : l ≠ []) (real : a ≠ null)
    (fresh : a ∉ l) :
    IsQueue (Function.update (Function.update next a null) tail a) null head a (l ++ [a]) := by
  obtain ⟨x, b, rfl⟩ := List.eq_nil_or_concat l |>.resolve_left more
  rw [List.concat_eq_append] at queue fresh ⊢
  obtain rfl : tail = b := queue.last b (by simp)
  refine ⟨?_, by simp⟩
  simpa using queue.list.append real fresh

end IsQueue

section Search

variable [DecidableEq P] (next null)

/-- `while (p) { if (found(p)) break; p = p->next; }` for a number of rounds. The result is
`none` when the rounds are used up. -/
def findFrom (found : P → Bool) : Nat → P → Option (Option P)
  | 0, _ => none
  | rounds + 1, p =>
      if p = null then some none
      else if found p then some (some p)
      else findFrom found rounds (next p)

/-- `while (p && p->next) { if (found(p->next)) break; p = p->next; }`: the node before the
one that is looked for. -/
def findBefore (found : P → Bool) : Nat → P → Option (Option P)
  | 0, _ => none
  | rounds + 1, p =>
      if p = null ∨ next p = null then some none
      else if found (next p) then some (some p)
      else findBefore found rounds (next p)

end Search

variable [DecidableEq P] {found : P → Bool} {rounds : Nat}

theorem findFrom_eq (list : IsList next null p l) (enough : l.length < rounds) :
    findFrom next null found rounds p = some (l.find? found) := by
  induction l generalizing p rounds with
  | nil =>
      obtain ⟨rounds, rfl⟩ : ∃ n, rounds = n + 1 := ⟨rounds - 1, by simp at enough; omega⟩
      exact if_pos list.1
  | cons a l ih =>
      obtain ⟨rfl, real, rest⟩ := list.of_cons
      obtain ⟨rounds, rfl⟩ : ∃ n, rounds = n + 1 := ⟨rounds - 1, by simp at enough; omega⟩
      rw [findFrom, if_neg real, List.find?_cons]
      cases hit : found p with
      | true => simp
      | false => simpa using ih rest (by simpa using enough)

/-- No node behind the first one is found. -/
theorem findBefore_none (list : IsList next null p (p :: l)) (enough : l.length < rounds)
    (misses : ∀ b ∈ l, found b = false) : findBefore next null found rounds p = some none := by
  induction l generalizing p rounds with
  | nil =>
      obtain ⟨rounds, rfl⟩ : ∃ n, rounds = n + 1 := ⟨rounds - 1, by simp at enough; omega⟩
      exact if_pos (.inr list.1.2)
  | cons b l ih =>
      obtain ⟨_, real, rest⟩ := list.of_cons
      obtain ⟨second, real', _⟩ := rest.of_cons
      obtain ⟨rounds, rfl⟩ : ∃ n, rounds = n + 1 := ⟨rounds - 1, by simp at enough; omega⟩
      rw [second] at rest
      rw [findBefore, second, if_neg (by tauto), misses b (by simp)]
      exact ih rest (by simpa using enough) fun c member => misses c (by simp [member])

/-- The node before the only one that is found. -/
theorem findBefore_some (list : IsList next null p (x ++ a :: b :: y))
    (enough : (x ++ a :: b :: y).length ≤ rounds) (hit : found b = true)
    (misses : ∀ c ∈ x ++ [a], found c = false) :
    findBefore next null found rounds p = some (some a) := by
  induction x generalizing p rounds with
  | nil =>
      obtain ⟨rfl, real, rest⟩ := list.of_cons
      obtain ⟨second, real', _⟩ := rest.of_cons
      obtain ⟨rounds, rfl⟩ : ∃ n, rounds = n + 1 := ⟨rounds - 1, by simp at enough; omega⟩
      rw [findBefore, second, if_neg (by tauto), hit]
      rfl
  | cons c x ih =>
      rw [List.cons_append] at list enough
      obtain ⟨rfl, real, rest⟩ := list.of_cons
      obtain ⟨rounds, rfl⟩ : ∃ n, rounds = n + 1 := ⟨rounds - 1, by simp at enough; omega⟩
      have second : next p ∈ x ++ [a] ∧ next p ≠ null := by
        cases x with
        | nil => exact ⟨by simp [rest.of_cons.1], by rw [rest.of_cons.1]; exact rest.of_cons.2.1⟩
        | cons d x => exact ⟨by simp [rest.of_cons.1], by rw [rest.of_cons.1]; exact rest.of_cons.2.1⟩
      rw [findBefore, if_neg (by tauto), misses (next p) (List.mem_cons_of_mem p second.1)]
      exact ih rest (by simpa using enough) fun e member => misses e (List.mem_cons_of_mem p member)

end LinkedList

end Riscv2os.Std
