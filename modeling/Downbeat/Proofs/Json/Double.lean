import Downbeat.Proofs.Decimal.Shortest
import Downbeat.Proofs.Decimal.Size
import Downbeat.Proofs.Json.Numeral

/-!
# Doubles in documents

The text of a finite double is a numeral (`finiteText_eq`), and that of any other is `null`. So what
the text of a double is read as does not hang on the document that it stands in
(`gives_float`).
-/

namespace Downbeat.Json

open Decimal

/-! ## Numerals of decimals -/

/-- The parts of the text of a decimal, of which `point` digits are before the point. -/
def numeral (s : Scaled) : Numeral :=
  let ds := digitsOf s.digits
  let point := s.exponent + ds.length
  if json.isPositional (point - 1) then
    if point ≤ 0 then ⟨['0'], List.replicate (-point).toNat '0' ++ ds, none⟩
    else if 0 ≤ s.exponent then ⟨ds ++ List.replicate s.exponent.toNat '0', ['0'], none⟩
    else ⟨ds.take point.toNat, ds.drop point.toNat, none⟩
  else ⟨ds.take 1, ds.drop 1, some (decide (point - 1 < 0), digitsOf (point - 1).natAbs)⟩

theorem exponentChars_eq (e : ℤ) :
    Numeral.exponentChars (some (decide (e < 0), digitsOf e.natAbs)) =
      'e' :: json.exponentText e := by
  rw [Numeral.exponentChars, Layout.exponentText]
  by_cases he : e < 0
  · rw [if_pos he, if_pos (by simpa using he), show e.natAbs = (-e).toNat by omega]
  · rw [if_neg he, if_neg (by simpa using he), show e.natAbs = e.toNat by omega]
    rfl

theorem length_digitsOf_pos (n : ℕ) : 0 < (digitsOf n).length := Nat.length_toDigits_pos

/-- A decimal is written as its numeral. -/
theorem scaledText_eq (s : Scaled) : json.scaledText s = (numeral s).chars := by
  have hlength := length_digitsOf_pos s.digits
  simp only [Layout.scaledText, numeral, sub_add_cancel]
  generalize digitsOf s.digits = ds at hlength
  have hkeeps : (json.keepsPoint && decide (0 ≤ s.exponent)) = decide (0 ≤ s.exponent) := rfl
  have hne : ds ≠ [] := List.ne_nil_of_length_pos hlength
  rw [hkeeps]
  cases json.isPositional (s.exponent + ds.length - 1) with
  | true =>
    rw [if_pos rfl, if_pos rfl, pointed]
    by_cases hpoint : s.exponent + ds.length ≤ 0
    · have hexponent : ¬0 ≤ s.exponent := by omega
      rw [if_pos hpoint, if_pos hpoint, if_neg (by simpa using hexponent)]
      simp [Numeral.chars, Numeral.exponentChars, hne]
    · rw [if_neg hpoint, if_neg hpoint]
      by_cases hexponent : 0 ≤ s.exponent
      · rw [if_pos (by omega), if_pos hexponent, if_pos (by simpa using hexponent),
          show (s.exponent + ds.length).toNat - ds.length = s.exponent.toNat by omega]
        rfl
      · have hrest : ds.drop (s.exponent + ds.length).toNat ≠ [] := by
          rw [Ne, List.drop_eq_nil_iff]
          omega
        rw [if_neg (by omega), if_neg hexponent, if_neg (by simpa using hexponent)]
        simp [Numeral.chars, Numeral.exponentChars, hrest]
  | false =>
    rw [if_neg Bool.false_ne_true, if_neg Bool.false_ne_true, Numeral.chars, exponentChars_eq,
      pointed, if_neg (by decide)]
    by_cases hsingle : ds.length ≤ 1
    · have hone : ds.length = 1 := by omega
      rw [if_pos (by exact_mod_cast hsingle), List.take_of_length_le hsingle,
        List.drop_eq_nil_of_le hsingle, if_pos rfl, hone]
      simp
    · have hrest : ds.drop 1 ≠ [] := by
        rw [Ne, List.drop_eq_nil_iff]
        exact hsingle
      rw [if_neg (by exact_mod_cast hsingle), if_neg hrest]
      simp

theorem IsDigits.append {ds es : List Char} (hds : IsDigits ds) (hes : IsDigits es) :
    IsDigits (ds ++ es) := List.forall_mem_append.2 ⟨hds, hes⟩

theorem isDigits_zeros (n : ℕ) : IsDigits (List.replicate n '0') := by
  intro c hc
  rw [List.eq_of_mem_replicate hc]
  rfl

/-- Digits that begin with no zero are whole, whatever follows. -/
theorem isWhole_of_head? {ds : List Char} (hne : ds ≠ []) (hds : IsDigits ds)
    (hhead : ds.head? ≠ some '0') : IsWhole ds := ⟨hne, hds, fun h => absurd h hhead⟩

/-- The numeral of a decimal that is not zero is that of a double. -/
theorem isDouble_numeral {s : Scaled} (hs : 0 < s.digits) : (numeral s).IsDouble := by
  have hlength := length_digitsOf_pos s.digits
  have hdigits : IsDigits (digitsOf s.digits) := isDigits_toDigits s.digits
  have hhead : (digitsOf s.digits).head? ≠ some '0' := head?_toDigits_ne hs
  simp only [numeral]
  generalize digitsOf s.digits = ds at hlength hdigits hhead
  have hne : ds ≠ [] := List.ne_nil_of_length_pos hlength
  have htake : ∀ n, 0 < n → IsWhole (ds.take n) := by
    intro n hn
    obtain ⟨c, cs, rfl⟩ := List.exists_cons_of_ne_nil hne
    obtain ⟨n, rfl⟩ := Nat.exists_eq_add_one_of_ne_zero (Nat.ne_zero_of_lt hn)
    exact isWhole_of_head? (List.cons_ne_nil _ _) (fun d hd => hdigits d (List.mem_of_mem_take hd))
      hhead
  have hdrop : ∀ n, IsDigits (ds.drop n) := fun n d hd => hdigits d (List.mem_of_mem_drop hd)
  cases json.isPositional (s.exponent + ds.length - 1) with
  | true =>
    rw [if_pos rfl]
    by_cases hpoint : s.exponent + ds.length ≤ 0
    · rw [if_pos hpoint]
      refine ⟨isWhole_toDigits 0, (isDigits_zeros _).append hdigits, nofun, .inl ?_⟩
      exact List.append_ne_nil_of_right_ne_nil _ hne
    · rw [if_neg hpoint]
      by_cases hexponent : 0 ≤ s.exponent
      · rw [if_pos hexponent]
        refine ⟨isWhole_of_head? ?_ (hdigits.append (isDigits_zeros _)) ?_, isDigits_zeros 1, nofun,
          .inl (List.cons_ne_nil _ _)⟩
        · exact List.append_ne_nil_of_left_ne_nil hne _
        · obtain ⟨c, cs, rfl⟩ := List.exists_cons_of_ne_nil hne
          exact hhead
      · rw [if_neg hexponent]
        refine ⟨htake _ (by omega), hdrop _, nofun, .inl ?_⟩
        rw [Ne, List.drop_eq_nil_iff]
        omega
  | false =>
    rw [if_neg Bool.false_ne_true]
    refine ⟨htake 1 one_pos, hdrop 1, ?_, .inr nofun⟩
    intro x hx
    obtain rfl := Option.some.inj hx
    exact ⟨Nat.toDigits_ne_nil, isDigits_toDigits _⟩

/-! ## Texts of doubles -/

/-- The size of a double that is not zero. -/
theorem isDouble_ofFloat {x : Float} {s : Float.Model.UnpackedFloat.Sign} {m : ℕ} {e : ℤ}
    {hm : 0 < m} (h : x.toModel.unpack = .finite s m e hm) : (Magnitude.ofFloat x).IsDouble := by
  have hcanonical := Beat.isCanonical_unpack x
  rw [h] at hcanonical
  obtain ⟨hlt, hge, hnormal⟩ := hcanonical
  rw [Magnitude.ofFloat_of_unpack h]
  exact ⟨hm, hlt, hge, Beat.exponent_le_of_unpack h, hnormal, decide_eq_true_iff⟩

/-- The numeral of a finite double, without its sign. -/
def doubleNumeral (x : Float) : Numeral :=
  if (Magnitude.ofFloat x).mantissa = 0 then ⟨['0'], ['0'], none⟩
  else numeral (shortest .toEven (Magnitude.ofFloat x))

theorem isDouble_doubleNumeral {x : Float} (hx : x.isFinite = true) :
    (doubleNumeral x).IsDouble := by
  rw [doubleNumeral]
  split
  · exact ⟨isWhole_toDigits 0, isDigits_zeros 1, nofun, .inl (List.cons_ne_nil _ _)⟩
  · rename_i hne
    cases h : x.toModel.unpack with
    | finite s m e hm => exact isDouble_numeral (digits_shortest_pos .toEven (isDouble_ofFloat h))
    | zero s => exact absurd (Magnitude.mantissa_of_unpack_zero h) hne
    | _ =>
      have hfin : x.toModel.unpack.isFinite = true := hx
      rw [h] at hfin
      cases hfin

theorem isNaN_or_isInf (x : Float) : (x.isNaN || x.isInf) = !x.isFinite := by
  show (x.toModel.unpack.isNaN || x.toModel.unpack.isInf) = !x.toModel.unpack.isFinite
  cases x.toModel.unpack <;> rfl

/-- A finite double is written as its numeral. -/
theorem writtenFloat_of_isFinite {x : Float} (hx : x.isFinite = true) :
    writtenFloat x = (doubleNumeral x).signed (isNegative x) := by
  have hsize : (if (Magnitude.ofFloat x).mantissa = 0 then ['0', '.', '0']
      else json.scaledText (shortest json.tie (Magnitude.ofFloat x))) =
        (doubleNumeral x).chars := by
    rw [doubleNumeral]
    split
    · rfl
    · exact scaledText_eq _
  rw [writtenFloat, isNaN_or_isInf, hx, Bool.not_true, if_neg Bool.false_ne_true, Layout.finiteText,
    Numeral.signed]
  cases isNegative x
  · exact hsize
  · exact congrArg ('-' :: ·) hsize

/-- A number that is infinite or NaN is not read as a double. -/
theorem gives_float_null :
    Gives Reader.float "null".toList (.error (.wrongType .null "f64")) := by
  intro n blanks rest hblanks _ _
  have hnumber : Reader.numberAs "f64" n (blanks ++ ("null".toList ++ rest)) =
      .error (.wrongType .null "f64") := by
    refine (Reader.onSolid_blanks _ hblanks (show isBlank 'n' = false by decide)
      ("ull".toList ++ rest)).trans ?_
    rfl
  exact Reader.bind_of_error hnumber _

/-- What the text of a double is read as, when it is a document of its own. -/
def readBack (x : Float) : Except Fault Float :=
  document (fun _ => Reader.float) (String.ofList (writtenFloat x))

theorem readBack_of_gives {x : Float} {result : Except Fault Float}
    (h : Gives Reader.float (writtenFloat x) result) : readBack x = result :=
  Gives.document (by rwa [String.toList_ofList])

/-- A finite double is read by the digits of its numeral. -/
theorem gives_float_of_isFinite {x : Float} (hx : x.isFinite = true) :
    Gives Reader.float (writtenFloat x) ((doubleNumeral x).result (isNegative x)) := by
  rw [writtenFloat_of_isFinite hx]
  exact Numeral.gives (isDouble_doubleNumeral hx) _

/-- Where just a number is wanted, a finite double is read as what its own text is read as. -/
theorem read_writtenFloat {x : Float} (hx : x.isFinite = true) {n : ℕ} {rest : List Char}
    (hrest : Stops rest) : Number.read n (writtenFloat x ++ rest) =
      (readBack x).map fun y => (.floating y, rest) := by
  rw [readBack_of_gives (gives_float_of_isFinite hx), writtenFloat_of_isFinite hx,
    Numeral.read_append (isDouble_doubleNumeral hx) hrest]

/-- Any other double is not read. -/
theorem gives_float_of_not_isFinite {x : Float} (hx : x.isFinite = false) :
    Gives Reader.float (writtenFloat x) (.error (.wrongType .null "f64")) := by
  rw [writtenFloat, isNaN_or_isInf, hx, Bool.not_false, if_pos rfl]
  exact gives_float_null

/-- The text of a double is read in the same way wherever it stands. -/
theorem gives_float (x : Float) : Gives Reader.float (writtenFloat x) (readBack x) := by
  cases hx : x.isFinite with
  | true =>
    have h := gives_float_of_isFinite hx
    rwa [readBack_of_gives h]
  | false =>
    have h := gives_float_of_not_isFinite hx
    rwa [readBack_of_gives h]

end Downbeat.Json
