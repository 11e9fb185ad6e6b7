import Mathlib.Data.List.Sort
import Mathlib.Data.List.TakeWhile
import Mathlib.Tactic

/-!
# A max-heap

A priority queue as its users see it: push, look at the largest entry, take it. The entries
are kept in descending order, and the order is a field, so that what `peek` shows is the
largest entry of any heap that can be built.

How a binary heap keeps its order is nobody's concern who only pushes and pops. What users
of a lazy heap need is skimming: entries that are stale are popped for as long as the
largest one is stale, and the lemmas say what is left then, that nothing else was dropped
and that the largest entry is a live one.
-/

structure MaxHeap (α : Type) [LinearOrder α] where
  toList : List α
  sorted : toList.Pairwise (· ≥ ·)

namespace MaxHeap

variable {α : Type} [LinearOrder α]

def empty : MaxHeap α := ⟨[], .nil⟩

def push (h : MaxHeap α) (x : α) : MaxHeap α :=
  ⟨h.toList.orderedInsert (· ≥ ·) x, h.sorted.orderedInsert x _⟩

def peek (h : MaxHeap α) : Option α := h.toList.head?

def pop (h : MaxHeap α) : MaxHeap α := ⟨h.toList.tail, h.sorted.tail⟩

def ofList (l : List α) : MaxHeap α :=
  ⟨l.insertionSort (· ≥ ·), List.pairwise_insertionSort _ l⟩

/-- Pops for as long as the largest entry is one to be dropped. -/
def skim (h : MaxHeap α) (drop : α → Bool) : MaxHeap α :=
  ⟨h.toList.dropWhile drop, h.sorted.sublist (List.dropWhile_sublist _)⟩

def size (h : MaxHeap α) : Nat := h.toList.length

instance : Membership α (MaxHeap α) := ⟨fun h x => x ∈ h.toList⟩

theorem mem_def {h : MaxHeap α} {x : α} : x ∈ h ↔ x ∈ h.toList := Iff.rfl

@[simp] theorem not_mem_empty (x : α) : x ∉ (empty : MaxHeap α) := fun h => nomatch h

@[simp] theorem mem_push {h : MaxHeap α} {x y : α} : y ∈ h.push x ↔ y = x ∨ y ∈ h :=
  List.mem_orderedInsert _

@[simp] theorem mem_ofList {l : List α} {x : α} : x ∈ ofList l ↔ x ∈ l :=
  List.mem_insertionSort _

theorem peek_mem {h : MaxHeap α} {x : α} (hx : h.peek = some x) : x ∈ h :=
  List.mem_of_mem_head? hx

theorem le_peek {h : MaxHeap α} {x y : α} (hx : h.peek = some x) (hy : y ∈ h) : y ≤ x := by
  obtain ⟨l, hs⟩ := h
  cases l with
  | nil => cases hx
  | cons z l =>
      cases hx
      rcases List.mem_cons.mp hy with rfl | hy
      · exact le_refl _
      · exact List.rel_of_pairwise_cons hs hy

theorem peek_eq_none {h : MaxHeap α} : h.peek = none ↔ ∀ x, x ∉ h := by
  obtain ⟨l, hs⟩ := h
  cases l with
  | nil => exact ⟨fun _ x hx => (nomatch hx), fun _ => rfl⟩
  | cons z l => exact ⟨fun h => (nomatch h), fun h => absurd List.mem_cons_self (h z)⟩

theorem mem_of_mem_pop {h : MaxHeap α} {x : α} (hx : x ∈ h.pop) : x ∈ h :=
  List.mem_of_mem_tail hx

/-- What is not the largest entry survives `pop`. -/
theorem mem_pop_of_ne {h : MaxHeap α} {x y : α} (hx : h.peek = some x) (hy : y ∈ h)
    (hne : y ≠ x) : y ∈ h.pop := by
  obtain ⟨l, hs⟩ := h
  cases l with
  | nil => cases hx
  | cons z l =>
      cases hx
      exact (List.mem_cons.mp hy).resolve_left hne

theorem mem_of_mem_skim {h : MaxHeap α} {drop : α → Bool} {x : α} (hx : x ∈ h.skim drop) :
    x ∈ h :=
  (List.dropWhile_sublist drop).subset hx

/-- What skimming leaves is not to be dropped, if with an entry all larger ones are. -/
theorem drop_of_mem_skim {h : MaxHeap α} {drop : α → Bool}
    (hmono : ∀ x y, x ≤ y → drop x = true → drop y = true) {x : α} (hx : x ∈ h.skim drop) :
    drop x = false := by
  obtain ⟨l, hs⟩ := h
  replace hx : x ∈ l.dropWhile drop := hx
  induction l with
  | nil => cases hx
  | cons y l ih =>
      rw [List.dropWhile_cons] at hx
      split at hx
      next => exact ih (List.pairwise_cons.mp hs).2 hx
      next hy =>
        rcases List.mem_cons.mp hx with rfl | hx
        · simpa using hy
        · by_contra hdrop
          exact hy (hmono x y ((List.pairwise_cons.mp hs).1 x hx) (by simpa using hdrop))

/-- Skimming drops only what is to be dropped. -/
theorem mem_skim_of_not_drop {h : MaxHeap α} {drop : α → Bool} {x : α} (hx : x ∈ h)
    (hdrop : drop x = false) : x ∈ h.skim drop := by
  have hsplit : h.toList.takeWhile drop ++ h.toList.dropWhile drop = h.toList :=
    List.takeWhile_append_dropWhile
  rw [mem_def, ← hsplit] at hx
  rcases List.mem_append.mp hx with hx | hx
  · exact absurd (List.mem_takeWhile_imp hx) (by simp [hdrop])
  · exact hx

theorem not_drop_of_peek_skim {h : MaxHeap α} {drop : α → Bool} {x : α}
    (hx : (h.skim drop).peek = some x) : drop x = false := by
  have := List.head?_dropWhile_not drop h.toList
  rw [show (h.toList.dropWhile drop).head? = some x from hx] at this
  simpa using this

theorem size_pop {h : MaxHeap α} {x : α} (hx : h.peek = some x) :
    h.pop.size + 1 = h.size := by
  obtain ⟨l, hs⟩ := h
  cases l with
  | nil => cases hx
  | cons z l => rfl

end MaxHeap
