/-!
# Columns

A listing lines its columns up by filling a text with blanks up to a width, counted in
characters. A text that is wider is left as it is.
-/

namespace Downbeat.Text

/-- The blanks that fill `s` up to `width` characters. -/
def blanks (width : Nat) (s : String) : String :=
  String.ofList (List.replicate (width - s.length) ' ')

/-- The text at the right end of a column. -/
def alignRight (width : Nat) (s : String) : String := blanks width s ++ s

/-- The text at the left end of a column. -/
def alignLeft (width : Nat) (s : String) : String := s ++ blanks width s

theorem length_alignRight (width : Nat) (s : String) :
    (alignRight width s).length = max width s.length := by
  simp [alignRight, blanks]
  omega

theorem length_alignLeft (width : Nat) (s : String) :
    (alignLeft width s).length = max width s.length := by
  simp [alignLeft, blanks]
  omega

end Downbeat.Text
