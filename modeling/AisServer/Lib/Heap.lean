import Mathlib.Data.List.Sort
import Mathlib.Data.List.TakeWhile
import Mathlib.Order.Basic

/-!
# A priority queue ordered by a key

`Heap key` holds its items smallest key first, so that `pop` takes the item that `heapq.heappop`
takes from a heap with the same items: the binary heap and the sorted list have the same smallest
item, and the operations below say nothing about the others.

* `push_perm`, `pop_items` — what an operation does to the items;
* `popWhile` — the loop `while heap and p(heap[0]): heappop(heap)`, by `popWhile_pop` and
  `popWhile_stop`;
* `popWhile_fst_eq_filter`, `popWhile_snd_eq_filter` — for a `p` that is closed downwards along the
  key, the loop takes exactly the items with `p`.
-/

namespace AisServer.Lib

variable {α κ : Type} [LinearOrder κ] {key : α → κ}

/-- A priority queue: its items, in an order in which the smallest key comes first. -/
structure Heap {α κ : Type} [LinearOrder κ] (key : α → κ) where
  items : List α
  sorted : items.Pairwise fun a b => key a ≤ key b

namespace Heap

/-- The empty queue. -/
def empty : Heap key := ⟨[], List.Pairwise.nil⟩

def size (h : Heap key) : ℕ := h.items.length

/-- The relation the items are sorted by. -/
def le (key : α → κ) (a b : α) : Prop := key a ≤ key b

instance : DecidableRel (le key) := fun a b => inferInstanceAs (Decidable (key a ≤ key b))
instance : IsTrans α (le key) := ⟨fun _ _ _ h1 h2 => le_trans (α := κ) h1 h2⟩
instance : Std.Total (le key) := ⟨fun a b => le_total (key a) (key b)⟩

/-- `heapq.heappush` -/
def push (h : Heap key) (a : α) : Heap key :=
  ⟨h.items.orderedInsert (le key) a, List.Pairwise.orderedInsert (r := le key) a _ h.sorted⟩

/-- `heap[0]` -/
def peek (h : Heap key) : Option α := h.items.head?

/-- The queue without its smallest item. -/
def tail (h : Heap key) : Heap key := ⟨h.items.tail, h.sorted.sublist (List.tail_sublist _)⟩

/-- `heapq.heappop`; `none` is the `IndexError` of an empty heap. -/
def pop (h : Heap key) : Option (α × Heap key) := h.peek.map fun a => (a, h.tail)

/-- `while heap and p(heap[0]): out.append(heappop(heap))` -/
def popWhile (h : Heap key) (p : α → Bool) : List α × Heap key :=
  (h.items.takeWhile p, ⟨h.items.dropWhile p, h.sorted.sublist (List.dropWhile_sublist p)⟩)

@[simp] theorem empty_items : (empty : Heap key).items = [] := rfl

@[ext] theorem ext {h g : Heap key} (he : h.items = g.items) : h = g := by
  cases h; cases g; cases he; rfl

theorem push_perm (h : Heap key) (a : α) : (h.push a).items.Perm (a :: h.items) :=
  List.perm_orderedInsert (le key) a h.items

theorem mem_push {h : Heap key} {a b : α} : b ∈ (h.push a).items ↔ b = a ∨ b ∈ h.items := by
  rw [(h.push_perm a).mem_iff, List.mem_cons]

@[simp] theorem size_push (h : Heap key) (a : α) : (h.push a).size = h.size + 1 :=
  (h.push_perm a).length_eq

theorem pop_eq_none {h : Heap key} : h.pop = none ↔ h.items = [] := by
  simp [pop, peek]

theorem pop_items {h g : Heap key} {a : α} (hp : h.pop = some (a, g)) : h.items = a :: g.items := by
  unfold pop peek at hp
  rcases h with ⟨_ | ⟨b, l⟩, hs⟩
  · simp at hp
  · simp only [List.head?_cons, Option.map_some, Option.some.injEq, Prod.mk.injEq] at hp
    obtain ⟨rfl, rfl⟩ := hp
    rfl

theorem peek_le {h : Heap key} {a b : α} (ha : h.peek = some a) (hb : b ∈ h.items) : key a ≤ key b := by
  have hs := h.sorted
  obtain ⟨rest, hrest⟩ := List.head?_eq_some_iff.1 ha
  rw [hrest] at hs hb
  rcases List.mem_cons.1 hb with rfl | hb
  · exact le_rfl
  · exact (List.pairwise_cons.1 hs).1 b hb

/-! ### The loop that pops -/

variable {p : α → Bool}

/-- One turn of the loop: the smallest item is taken when `p` holds of it. -/
theorem popWhile_pop {h g : Heap key} {a : α} (hp : h.pop = some (a, g)) (ha : p a = true) :
    h.popWhile p = (a :: (g.popWhile p).1, (g.popWhile p).2) := by
  simp [popWhile, pop_items hp, ha]

/-- The loop ends when `p` fails of the smallest item. -/
theorem popWhile_stop {h g : Heap key} {a : α} (hp : h.pop = some (a, g)) (ha : p a = false) :
    h.popWhile p = ([], h) := by
  have hnil : h.items.takeWhile p = [] := by simp [pop_items hp, ha]
  have hall : h.items.dropWhile p = h.items := by simp [pop_items hp, ha]
  exact Prod.ext hnil (ext hall)

theorem popWhile_append (h : Heap key) (p : α → Bool) :
    (h.popWhile p).1 ++ (h.popWhile p).2.items = h.items := List.takeWhile_append_dropWhile

theorem popWhile_fst_sorted (h : Heap key) (p : α → Bool) :
    (h.popWhile p).1.Pairwise fun a b => key a ≤ key b :=
  h.sorted.sublist (List.takeWhile_sublist p)

theorem popWhile_le {h : Heap key} {a b : α} (ha : a ∈ (h.popWhile p).1)
    (hb : b ∈ (h.popWhile p).2.items) : key a ≤ key b := by
  have hs := h.sorted
  rw [← h.popWhile_append p] at hs
  exact (List.pairwise_append.1 hs).2.2 a ha b hb

theorem mem_popWhile_fst {h : Heap key} {a : α} (ha : a ∈ (h.popWhile p).1) :
    a ∈ h.items ∧ p a = true :=
  ⟨(List.takeWhile_sublist p).subset ha, List.mem_takeWhile_imp ha⟩

section Down

variable (hdown : ∀ a b, key a ≤ key b → p b = true → p a = true)
include hdown

theorem popWhile_snd_not {h : Heap key} {a : α} (ha : a ∈ (h.popWhile p).2.items) : p a = false := by
  rcases hl : h.items.dropWhile p with _ | ⟨b, l⟩
  · simp [popWhile, hl] at ha
  · have hb : p b = false := by
      have := List.head?_dropWhile_not p h.items
      rw [hl] at this
      simpa using this
    have hle : key b ≤ key a := by
      have hs := (h.popWhile p).2.sorted
      simp only [popWhile, hl] at hs ha
      rcases List.mem_cons.1 ha with rfl | ha
      · exact le_rfl
      · exact (List.pairwise_cons.1 hs).1 a ha
    by_contra hpa
    rw [hdown b a hle (by simpa using hpa)] at hb
    cases hb

theorem popWhile_fst_eq_filter (h : Heap key) : (h.popWhile p).1 = h.items.filter p := by
  conv_rhs => rw [← h.popWhile_append p]
  rw [List.filter_append, List.filter_eq_self.2 fun a ha => (mem_popWhile_fst ha).2,
    List.filter_eq_nil_iff.2 fun a ha => by simp [popWhile_snd_not hdown ha], List.append_nil]

theorem popWhile_snd_eq_filter (h : Heap key) :
    (h.popWhile p).2.items = h.items.filter fun a => !p a := by
  conv_rhs => rw [← h.popWhile_append p]
  rw [List.filter_append, List.filter_eq_nil_iff.2 fun a ha => by simp [(mem_popWhile_fst ha).2],
    List.filter_eq_self.2 fun a ha => by simp [popWhile_snd_not hdown ha], List.nil_append]

end Down

end Heap

end AisServer.Lib
