import Downbeat.Proofs.Json.Reading

/-!
# Reading numbers

The digits of a number are gathered as the number that they stand for, while it fits
(`Number.gather_eq`), and a natural number is read as it was written (`gives_natural`). The text of
a double has a point or an exponent (`Numeral`), and what it is read as hangs on its digits only
(`Numeral.gives`).
-/

namespace Downbeat.Json

/-! ## Digits -/

/-- All characters are decimal digits. -/
def IsDigits (ds : List Char) : Prop := ∀ c ∈ ds, c.isDigit = true

theorem isDigits_toDigits (k : Nat) : IsDigits (Nat.toDigits 10 k) := fun _ =>
  Nat.isDigit_of_mem_toDigits (by decide) (by decide)

/-- A digit is none of the other characters. -/
theorem ne_of_isDigit {c d : Char} (hc : c.isDigit = true) (hd : d.isDigit = false) : c ≠ d := by
  rintro rfl
  rw [hc] at hd
  cases hd

/-- No digit follows. -/
def StopsDigits (rest : List Char) : Prop := ∀ c ∈ rest.head?, c.isDigit = false

theorem Stops.stopsDigits {rest : List Char} (h : Stops rest) : StopsDigits rest := by
  intro c hc
  have hnot := h c hc
  simp only [isNumeric, Bool.or_eq_false_iff] at hnot
  exact hnot.1.1.1

theorem stopsDigits_cons {c : Char} (h : c.isDigit = false) (rest : List Char) :
    StopsDigits (c :: rest) := by
  intro d hd
  obtain rfl := Option.some.inj hd
  exact h

theorem digitChar_ne_zero : ∀ k < 10, 0 < k → Nat.digitChar k ≠ '0' := by decide

/-- The digits of a positive number do not begin with a zero. -/
theorem head?_toDigits_ne {k : Nat} (hk : 0 < k) : (Nat.toDigits 10 k).head? ≠ some '0' := by
  induction k using Nat.strongRecOn with
  | ind k ih =>
    rw [Nat.toDigits_eq_if (by decide)]
    split
    · rename_i hlt
      simpa using digitChar_ne_zero k hlt hk
    · have hhead := ih (k / 10) (by omega) (by omega)
      cases hds : Nat.toDigits 10 (k / 10) with
      | nil => exact absurd hds Nat.toDigits_ne_nil
      | cons c ds =>
        rw [hds] at hhead
        exact hhead

/-- Digits before the point : a single zero, or no zero in front. -/
structure IsWhole (ds : List Char) : Prop where
  ne_nil : ds ≠ []
  digits : IsDigits ds
  zero : ds.head? = some '0' → ds = ['0']

theorem isWhole_toDigits (k : Nat) : IsWhole (Nat.toDigits 10 k) where
  ne_nil := Nat.toDigits_ne_nil
  digits := isDigits_toDigits k
  zero h := by
    rcases Nat.eq_zero_or_pos k with rfl | hk
    · rfl
    · exact absurd h (head?_toDigits_ne hk)

namespace Reader

theorem takeDigits_append {n : Nat} {ds rest : List Char} (hds : IsDigits ds)
    (hrest : StopsDigits rest) : takeDigits n (ds ++ rest) = .ok (ds, rest) := by
  have hnone : rest.takeWhile Char.isDigit = [] ∧ rest.dropWhile Char.isDigit = rest := by
    cases rest with
    | nil => exact ⟨rfl, rfl⟩
    | cons c rest => simp [hrest c rfl]
  rw [takeDigits_apply, List.takeWhile_append_of_pos hds, List.dropWhile_append_of_pos hds,
    hnone.1, hnone.2, List.append_nil]

/-- A reader that goes on by the next character only where a number does takes none where none
goes on. -/
theorem peek?_bind_of_stops {α : Type} {n : Nat} {k : Option Char → Reader α} {rest : List Char}
    (hk : ∀ c, c ≠ '.' → c ≠ 'e' → c ≠ 'E' → k (some c) = k none) (hrest : Stops rest) :
    (peek? >>= k) n rest = k none n rest := by
  cases rest with
  | nil => rfl
  | cons c rest =>
    have hc := hrest c rfl
    simp only [isNumeric, Bool.or_eq_false_iff, decide_eq_false_iff_not] at hc
    obtain ⟨⟨⟨-, hpoint⟩, he⟩, hE⟩ := hc
    have hpeek : peek? n (c :: rest) = .ok (some c, c :: rest) := rfl
    rw [bind_of_ok hpeek, hk c hpoint he hE]

end Reader

namespace Number

open Reader

theorem le_ofDigitChars (ds : List Char) (m : Nat) : m ≤ Nat.ofDigitChars 10 ds m := by
  induction ds generalizing m with
  | nil => exact Nat.le_refl m
  | cons c ds ih =>
    rw [Nat.ofDigitChars_cons]
    exact Nat.le_trans (by omega) (ih _)

theorem ofDigitChars_cons (c : Char) (ds : List Char) (m : Nat) :
    Nat.ofDigitChars 10 (c :: ds) m = Nat.ofDigitChars 10 ds (m * 10 + digit c) := by
  rw [Nat.ofDigitChars_cons, Nat.mul_comm]
  rfl

/-- Digits that fit are gathered as the number that they stand for. -/
theorem gather_eq {m : Nat} {ds : List Char} (h : Nat.ofDigitChars 10 ds m < bound) :
    gather m ds = (Nat.ofDigitChars 10 ds m, ds.length, []) := by
  induction ds generalizing m with
  | nil => rfl
  | cons c ds ih =>
    rw [ofDigitChars_cons] at h
    have hfits : m * 10 + digit c < bound := Nat.lt_of_le_of_lt (le_ofDigitChars ds _) h
    simp only [gather, if_pos hfits, ih h, ofDigitChars_cons, List.length_cons]

/-- The digits before the point are gathered, and then what follows. -/
theorem readUnsigned_append {negative : Bool} {n : Nat} {ds rest : List Char} (hds : IsWhole ds)
    (hrest : StopsDigits rest) : readUnsigned negative n (ds ++ rest) =
      readRest negative (gather 0 ds).1 (gather 0 ds).2.2.length n rest := by
  obtain ⟨hne, hdigits, hzero⟩ := hds
  obtain ⟨c, ds, rfl⟩ := List.exists_cons_of_ne_nil hne
  by_cases hc : c = '0'
  · subst hc
    obtain ⟨-, rfl⟩ := List.cons.inj (hzero rfl)
    cases rest with
    | nil => rfl
    | cons d rest =>
      show (if d.isDigit then fail .badNumber else readRest negative 0 0 : Reader Number) n _ = _
      rw [hrest d rfl]
      rfl
  · have hdigit : c.isDigit = true := hdigits c List.mem_cons_self
    have hpeek : peek? n (c :: ds ++ rest) = .ok (some c, c :: ds ++ rest) := rfl
    rw [readUnsigned, bind_of_ok hpeek]
    simp only [hdigit, Bool.not_true, Bool.false_eq_true, if_false]
    rw [bind_of_ok (takeDigits_append hdigits hrest)]

theorem read_of_ne {c : Char} (hc : c ≠ '-') (n : Nat) (cs : List Char) :
    Number.read n (c :: cs) = readUnsigned false n (c :: cs) := by
  have hpeek : peek? n (c :: cs) = .ok (some c, c :: cs) := rfl
  rw [Number.read, bind_of_ok hpeek]
  simp [hc]

/-- A number without point or exponent is an integer if it fits. -/
theorem readRest_integer {m n : Nat} {rest : List Char} (h : Stops rest) :
    readRest false m 0 n rest = .ok (.integer m, rest) :=
  peek?_bind_of_stops (fun c hpoint he hE => by simp [hpoint, he, hE]) h

end Number

theorem isBlank_of_isDigit {c : Char} (h : c.isDigit = true) : isBlank c = false := by
  simp only [isBlank, Bool.or_eq_false_iff, decide_eq_false_iff_not]
  refine ⟨⟨⟨?_, ?_⟩, ?_⟩, ?_⟩
  all_goals
    rintro rfl
    exact absurd h (by decide)

namespace Reader

theorem numberAs_blanks (wanted : String) {n : Nat} {blanks : List Char}
    (hblanks : ∀ b ∈ blanks, isBlank b = true) {c : Char} (hc : c = '-' ∨ c.isDigit = true)
    (cs : List Char) : numberAs wanted n (blanks ++ c :: cs) = Number.read n (c :: cs) := by
  have hsolid : isBlank c = false := by
    rcases hc with rfl | hc
    · rfl
    · exact isBlank_of_isDigit hc
  rw [numberAs, onSolid_blanks _ hblanks hsolid, if_pos (by simpa using hc)]

end Reader

/-- A natural number is read as it was written. -/
theorem gives_natural (wanted : String) {k bound : Nat} (hk : k < bound)
    (hbound : bound ≤ Number.bound) :
    Gives (Reader.naturalAs wanted bound) (Nat.toDigits 10 k) (.ok k) := by
  intro n blanks rest hblanks hn hrest
  obtain ⟨c, ds, hds⟩ := List.exists_cons_of_ne_nil (Nat.toDigits_ne_nil (n := k) (b := 10))
  have hdigit : c.isDigit = true := isDigits_toDigits k c (hds ▸ List.mem_cons_self)
  have hminus : c ≠ '-' := ne_of_isDigit hdigit rfl
  have hvalue : Nat.ofDigitChars 10 (Nat.toDigits 10 k) 0 = k :=
    Nat.ofDigitChars_toDigits (by decide) (by decide)
  have hgather : Number.gather 0 (Nat.toDigits 10 k) = (k, (Nat.toDigits 10 k).length, []) := by
    rw [Number.gather_eq (by rw [hvalue]; omega), hvalue]
  have hread : Number.read n (Nat.toDigits 10 k ++ rest) = .ok (.integer k, rest) := by
    rw [hds, List.cons_append, Number.read_of_ne hminus, ← List.cons_append, ← hds,
      Number.readUnsigned_append (isWhole_toDigits k) hrest.stopsDigits, hgather]
    exact Number.readRest_integer hrest
  have hnumber := Reader.numberAs_blanks wanted (n := n) hblanks (.inr hdigit) (ds ++ rest)
  rw [← List.cons_append, ← hds, hread] at hnumber
  rw [Reader.naturalAs, Reader.bind_of_ok hnumber]
  simp [hk, Except.map]

/-! ## Doubles -/

/-- The parts of the text of a double, but for its sign. -/
structure Numeral where
  whole : List Char
  fraction : List Char
  /-- Whether the exponent is below zero, and its digits. -/
  exponent : Option (Bool × List Char)

namespace Numeral

/-- The exponent, with its sign. -/
def exponentChars : Option (Bool × List Char) → List Char
  | none => []
  | some (minus, ds) => 'e' :: (if minus then '-' else '+') :: ds

/-- The text. -/
def chars (u : Numeral) : List Char :=
  u.whole ++ ((if u.fraction = [] then [] else '.' :: u.fraction) ++ exponentChars u.exponent)

/-- The parts are those of a double. -/
structure IsDouble (u : Numeral) : Prop where
  whole : IsWhole u.whole
  fraction : IsDigits u.fraction
  exponent : ∀ x ∈ u.exponent, x.2 ≠ [] ∧ IsDigits x.2
  point : u.fraction ≠ [] ∨ u.exponent ≠ none

end Numeral

namespace Number

open Reader

/-- The double with sign, gathered digits and exponent, or that there is none. -/
def assembled (negative : Bool) (m : Nat) (e : Int) : Except Fault Float :=
  match scale (Float.ofNat m) 4 e with
  | none => .error .numberOutOfRange
  | some x => .ok (if negative then -x else x)

theorem assemble_apply (negative : Bool) (m : Nat) (e : Int) (n : Nat) (cs : List Char) :
    assemble negative m e n cs = (assembled negative m e).map (·, cs) := by
  unfold assemble assembled
  cases scale (Float.ofNat m) 4 e <;> rfl

/-- The double with sign, gathered digits and exponent, and an exponent behind that. -/
def raised (negative : Bool) (m : Nat) (e : Int) : Option (Bool × List Char) → Except Fault Float
  | none => assembled negative m e
  | some (minus, ds) =>
    match gatherExponent 0 ds with
    | some n => assembled negative m (if minus then e - n else e + n)
    | none =>
      if m ≠ 0 && !minus then .error .numberOutOfRange
      else .ok (if negative then -0.0 else 0.0)

variable {negative : Bool} {m n : Nat} {e : Int} {rest : List Char}

theorem readExponent_apply {minus : Bool} {ds : List Char} (hne : ds ≠ []) (hds : IsDigits ds)
    (hrest : StopsDigits rest) :
    readExponent negative m e n ('e' :: (if minus then '-' else '+') :: (ds ++ rest)) =
      (raised negative m e (some (minus, ds))).map (·, rest) := by
  obtain ⟨c, cs, rfl⟩ := List.exists_cons_of_ne_nil hne
  have hdigit : c.isDigit = true := hds c List.mem_cons_self
  have hpeek : peek? n (c :: cs ++ rest) = .ok (some c, c :: cs ++ rest) := rfl
  rw [readExponent, bind_of_ok (drop_apply ..), List.tail_cons]
  -- the sign is taken, whichever it is
  cases minus
  all_goals
    refine (bind_of_ok (p := peek? >>= _) (by rfl) _).trans ?_
    rw [List.tail_cons, bind_of_ok hpeek]
    simp only [hdigit, Bool.not_true, Bool.false_eq_true, if_false]
    rw [bind_of_ok (takeDigits_append hds hrest), raised]
    cases gatherExponent 0 (c :: cs) with
    | some k => exact assemble_apply ..
    | none => cases decide (m ≠ 0) <;> rfl

theorem readTail_apply {exponent : Option (Bool × List Char)}
    (hexponent : ∀ x ∈ exponent, x.2 ≠ [] ∧ IsDigits x.2) (hrest : Stops rest) :
    readTail negative m e n (Numeral.exponentChars exponent ++ rest) =
      (raised negative m e exponent).map (·, rest) := by
  cases exponent with
  | some x =>
    obtain ⟨hne, hds⟩ := hexponent x rfl
    exact readExponent_apply hne hds hrest.stopsDigits
  | none =>
    have htail : readTail negative m e n rest = assemble negative m e n rest :=
      peek?_bind_of_stops (fun c _ he hE => by simp [he, hE]) hrest
    exact htail.trans (assemble_apply ..)

theorem stopsDigits_exponentChars (exponent : Option (Bool × List Char)) (hrest : Stops rest) :
    StopsDigits (Numeral.exponentChars exponent ++ rest) := by
  cases exponent with
  | none => exact hrest.stopsDigits
  | some x => exact stopsDigits_cons (by decide) _

theorem readFraction_apply {ds : List Char} {exponent : Option (Bool × List Char)} (hne : ds ≠ [])
    (hds : IsDigits ds) (hexponent : ∀ x ∈ exponent, x.2 ≠ [] ∧ IsDigits x.2)
    (hrest : Stops rest) :
    readFraction negative m e n ('.' :: (ds ++ (Numeral.exponentChars exponent ++ rest))) =
      (raised negative (gather m ds).1 (e - (gather m ds).2.1) exponent).map (·, rest) := by
  have hstops := stopsDigits_exponentChars exponent hrest
  obtain ⟨c, cs, rfl⟩ := List.exists_cons_of_ne_nil hne
  rw [readFraction, bind_of_ok (drop_apply ..), List.tail_cons,
    bind_of_ok (takeDigits_append hds hstops)]
  exact readTail_apply hexponent hrest

/-- A double is read from behind its digits before the point. -/
theorem readRest_apply {extra : Nat} {fraction : List Char} {exponent : Option (Bool × List Char)}
    (hds : IsDigits fraction) (hexponent : ∀ x ∈ exponent, x.2 ≠ [] ∧ IsDigits x.2)
    (hpoint : fraction ≠ [] ∨ exponent ≠ none) (hrest : Stops rest) :
    readRest negative m extra n ((if fraction = [] then [] else '.' :: fraction) ++
        (Numeral.exponentChars exponent ++ rest)) =
      (raised negative (gather m fraction).1 (extra - (gather m fraction).2.1) exponent).map
        fun x => (.floating x, rest) := by
  by_cases hne : fraction = []
  · subst hne
    obtain ⟨⟨minus, ds⟩, rfl⟩ := Option.ne_none_iff_exists'.1 (hpoint.resolve_left (by simp))
    obtain ⟨hne, hds⟩ := hexponent _ rfl
    have hread : readExponent negative m extra n ('e' :: (if minus then '-' else '+') ::
        (ds ++ rest)) = (raised negative m extra (some (minus, ds))).map (·, rest) :=
      readExponent_apply hne hds hrest.stopsDigits
    have hzero : (extra : Int) - ((gather m []).2.1 : Nat) = extra := Int.sub_zero _
    rw [hzero]
    show (floating <$> readExponent negative m extra : Reader Number) n
      ('e' :: (if minus then '-' else '+') :: (ds ++ rest)) = _
    rw [map_apply, hread]
    show _ = (raised negative m extra (some (minus, ds))).map _
    cases raised negative m extra (some (minus, ds)) <;> rfl
  · have hread : readFraction negative m extra n ('.' :: (fraction ++
        (Numeral.exponentChars exponent ++ rest))) =
          (raised negative (gather m fraction).1 (extra - (gather m fraction).2.1) exponent).map
            (·, rest) :=
      readFraction_apply hne hds hexponent hrest
    rw [if_neg hne]
    show (floating <$> readFraction negative m extra : Reader Number) n
      ('.' :: (fraction ++ (Numeral.exponentChars exponent ++ rest))) = _
    rw [map_apply, hread]
    cases raised negative (gather m fraction).1 (extra - (gather m fraction).2.1) exponent <;> rfl

end Number

namespace Numeral

/-- What the text is read as. -/
def result (negative : Bool) (u : Numeral) : Except Fault Float :=
  let (m, _, left) := Number.gather 0 u.whole
  let (m', taken, _) := Number.gather m u.fraction
  Number.raised negative m' (left.length - taken) u.exponent

/-- The text with its sign. -/
def signed (negative : Bool) (u : Numeral) : List Char :=
  (if negative then ['-'] else []) ++ u.chars

variable {u : Numeral} {negative : Bool}

/-- A double begins with its sign, or else with a digit. -/
theorem exists_cons (h : u.IsDouble) (negative : Bool) :
    ∃ c cs, u.signed negative = c :: cs ∧ (c = '-' ∨ c.isDigit = true) := by
  cases negative with
  | true => exact ⟨'-', u.chars, rfl, .inl rfl⟩
  | false =>
    obtain ⟨c, ds, hds⟩ := List.exists_cons_of_ne_nil h.whole.ne_nil
    have hchars : u.signed false = c :: (ds ++ ((if u.fraction = [] then [] else
        '.' :: u.fraction) ++ exponentChars u.exponent)) := by
      rw [signed, chars, hds]
      rfl
    exact ⟨c, _, hchars, .inr (h.whole.digits c (hds ▸ List.mem_cons_self))⟩

/-- A double is read by its digits, as the number that it is. -/
theorem read_append (h : u.IsDouble) {n : Nat} {rest : List Char} (hrest : Stops rest) :
    Number.read n (u.signed negative ++ rest) =
      (u.result negative).map fun x => (.floating x, rest) := by
  obtain ⟨hwhole, hfraction, hexponent, hpoint⟩ := h
  have hstops : StopsDigits ((if u.fraction = [] then [] else '.' :: u.fraction) ++
      (exponentChars u.exponent ++ rest)) := by
    split
    · exact Number.stopsDigits_exponentChars u.exponent hrest
    · exact stopsDigits_cons (by decide) _
  have hunsigned : Number.readUnsigned negative n (u.chars ++ rest) =
      (u.result negative).map fun x => (.floating x, rest) := by
    rw [chars, List.append_assoc, List.append_assoc, Number.readUnsigned_append hwhole hstops,
      Number.readRest_apply hfraction hexponent hpoint hrest]
    rfl
  rw [← hunsigned]
  cases negative with
  | true => rfl
  | false =>
    obtain ⟨c, ds, hds⟩ := List.exists_cons_of_ne_nil hwhole.ne_nil
    have hminus : c ≠ '-' := ne_of_isDigit (hwhole.digits c (hds ▸ List.mem_cons_self)) rfl
    rw [signed, chars, hds]
    exact Number.read_of_ne hminus ..

/-- A double is read by its digits. -/
theorem gives (h : u.IsDouble) (negative : Bool) :
    Gives Reader.float (u.signed negative) (u.result negative) := by
  intro n blanks rest hblanks _ hrest
  have hnumber : Reader.numberAs "f64" n (blanks ++ (u.signed negative ++ rest)) =
      (u.result negative).map fun x => (.floating x, rest) := by
    rw [← read_append h hrest]
    obtain ⟨c, cs, hchars, hc⟩ := exists_cons h negative
    rw [hchars]
    exact Reader.numberAs_blanks "f64" hblanks hc _
  rw [Reader.float]
  cases hresult : u.result negative with
  | error f =>
    rw [hresult] at hnumber
    exact Reader.bind_of_error hnumber _
  | ok x =>
    rw [hresult] at hnumber
    exact Reader.bind_of_ok hnumber _

end Numeral

end Downbeat.Json
