/-!
# Queues

A queue gives its members in the order in which they came. What comes is kept apart, newest
first, until all that came before it is gone; so adding takes as long as what is added, and
taking a member takes no time but now and then. `Queue.toList` is the queue as a list, and
each operation does to it what its name says (`Queue.toList_append`, `Queue.toList_of_next?`).
-/

namespace Downbeat

/-- A queue. -/
structure Queue (α : Type) where
  /-- The members that came first, in order. -/
  front : List α := []
  /-- The members that came later, newest first. -/
  back : List α := []

namespace Queue

variable {α : Type}

/-- The members in order. -/
def toList (q : Queue α) : List α := q.front ++ q.back.reverse

/-- The queue of the members of a list. -/
def ofList (xs : List α) : Queue α := { front := xs }

/-- The queue with more members at its end. -/
def append (q : Queue α) (xs : List α) : Queue α := { q with back := xs.reverseAux q.back }

/-- The number of members. -/
def size (q : Queue α) : Nat := q.front.length + q.back.length

/-- The first member and the queue without it. -/
def next? : Queue α → Option (α × Queue α)
  | ⟨x :: front, back⟩ => some (x, ⟨front, back⟩)
  | ⟨[], back⟩ =>
    match back.reverse with
    | [] => none
    | x :: front => some (x, ofList front)

@[simp] theorem toList_ofList (xs : List α) : (ofList xs).toList = xs := by
  simp [ofList, toList]

@[simp] theorem toList_append (q : Queue α) (xs : List α) :
    (q.append xs).toList = q.toList ++ xs := by
  simp [append, toList, List.reverseAux_eq]

@[simp] theorem length_toList (q : Queue α) : q.toList.length = q.size := by
  simp [toList, size]

theorem next?_eq_none_iff {q : Queue α} : q.next? = none ↔ q.toList = [] := by
  obtain ⟨_ | ⟨x, front⟩, back⟩ := q
  · rw [next?]
    split
    · rename_i h
      simp [toList, h]
    · rename_i h
      simp [toList, h]
  · simp [next?, toList]

theorem toList_of_next? {q r : Queue α} {x : α} (h : q.next? = some (x, r)) :
    q.toList = x :: r.toList := by
  obtain ⟨_ | ⟨y, front⟩, back⟩ := q
  · rw [next?] at h
    split at h
    · cases h
    · rename_i hb
      cases h
      simp [toList, ofList, hb]
  · cases h
    simp [toList]

end Queue

end Downbeat
