import Downbeat.Clock

/-!
# Entries of a script

A script is a queue of entries. An event is handed to the host, a rest moves the time of
the script on, a subroutine is replaced by entries of its own at the end of the queue, a
marker is only reported, and a stop ends the script.

Entries are over a type `ε` of events and a type `φ` of subroutines.
-/

namespace Downbeat

/-- Something to be reported when a script gets to it. -/
inductive Marker where
  | note (text : String)
  | todo (text : String)
  | log (text : String)
deriving DecidableEq, Repr

/-- An entry in the queue of a script. -/
inductive Entry (ε φ : Type) where
  | event (e : ε)
  | rest (duration : Beat)
  | expand (f : φ)
  | marker (m : Marker)
  | stop

variable {ε φ : Type}

/-- How far an entry moves the time of the script on. -/
def Entry.duration : Entry ε φ → Beat
  | rest d => d
  | _ => 0

/-- Entries in order, with the sum of their durations. -/
structure Sequence (ε φ : Type) where
  entries : List (Entry ε φ) := []
  relativeBeat : Beat := 0

namespace Sequence

/-- The sequence with one more entry at its end. -/
def push (s : Sequence ε φ) (e : Entry ε φ) : Sequence ε φ :=
  ⟨s.entries ++ [e], s.relativeBeat + e.duration⟩

/-- The sequence with more entries at its end. -/
def extend (s : Sequence ε φ) (es : List (Entry ε φ)) : Sequence ε φ :=
  ⟨s.entries ++ es, es.foldl (fun b e => b + e.duration) s.relativeBeat⟩

/-- The number of entries. -/
def size (s : Sequence ε φ) : Nat := s.entries.length

@[simp] theorem entries_push (s : Sequence ε φ) (e : Entry ε φ) :
    (s.push e).entries = s.entries ++ [e] := rfl

@[simp] theorem relativeBeat_push (s : Sequence ε φ) (e : Entry ε φ) :
    (s.push e).relativeBeat = s.relativeBeat + e.duration := rfl

@[simp] theorem entries_extend (s : Sequence ε φ) (es : List (Entry ε φ)) :
    (s.extend es).entries = s.entries ++ es := rfl

theorem extend_cons (s : Sequence ε φ) (e : Entry ε φ) (es : List (Entry ε φ)) :
    s.extend (e :: es) = (s.push e).extend es := by
  simp [extend, push]

end Sequence

end Downbeat
