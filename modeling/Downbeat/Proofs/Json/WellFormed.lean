import Downbeat.Proofs.Json.Alone

/-!
# Values that are passed over

The values of documents, as the grammar of JSON has them (`IsValue`) : words, numbers and strings,
and lists and objects of values. A string may escape halves of pairs, and a number may have any
exponent. Every text of a value, with blanks before and behind it, is passed over where nobody wants
it, however deep its brackets are (`IsJson.stands`).
-/

namespace Downbeat.Json

/-! ## The grammar -/

/-- A hexadecimal digit. -/
def IsHex (c : Char) : Prop := '0' ≤ c ∧ c ≤ '9' ∨ 'a' ≤ c ∧ c ≤ 'f' ∨ 'A' ≤ c ∧ c ≤ 'F'

instance : DecidablePred IsHex := fun c =>
  inferInstanceAs (Decidable ('0' ≤ c ∧ c ≤ '9' ∨ 'a' ≤ c ∧ c ≤ 'f' ∨ 'A' ≤ c ∧ c ≤ 'F'))

/-- The characters of a string, from behind its opening quote to its closing quote. -/
inductive IsLiteral : List Char → Prop
  | close : IsLiteral ['"']
  | plain {c : Char} {cs : List Char} (hc : 0x20 ≤ c.toNat) (hquote : c ≠ '"') (hslash : c ≠ '\\')
      (hcs : IsLiteral cs) : IsLiteral (c :: cs)
  | escape {c : Char} {cs : List Char} (hc : c ∈ ['"', '\\', '/', 'b', 'f', 'n', 'r', 't'])
      (hcs : IsLiteral cs) : IsLiteral ('\\' :: c :: cs)
  | unit {a b c d : Char} {cs : List Char} (ha : IsHex a) (hb : IsHex b) (hc : IsHex c)
      (hd : IsHex d) (hcs : IsLiteral cs) : IsLiteral ('\\' :: 'u' :: a :: b :: c :: d :: cs)

/-- The point of a number and the digits behind it, if there is one. -/
inductive IsFraction : List Char → Prop
  | none : IsFraction []
  | some {ds : List Char} (hne : ds ≠ []) (hds : IsDigits ds) : IsFraction ('.' :: ds)

/-- The exponent of a number, if there is one. -/
inductive IsExponent : List Char → Prop
  | none : IsExponent []
  | some {e : Char} {sign ds : List Char} (he : e ∈ ['e', 'E']) (hsign : sign ∈ [[], ['+'], ['-']])
      (hne : ds ≠ []) (hds : IsDigits ds) : IsExponent (e :: (sign ++ ds))

/-- A number. -/
inductive IsNumber : List Char → Prop
  | mk {sign whole fraction exponent : List Char} (hsign : sign ∈ [[], ['-']])
      (hwhole : IsWhole whole) (hfraction : IsFraction fraction) (hexponent : IsExponent exponent) :
      IsNumber (sign ++ (whole ++ (fraction ++ exponent)))

/-- A value without brackets. -/
inductive IsScalar : List Char → Prop
  | word {w : List Char} (hw : w ∈ ["null".toList, "true".toList, "false".toList]) : IsScalar w
  | number {cs : List Char} (hcs : IsNumber cs) : IsScalar cs
  | text {cs : List Char} (hcs : IsLiteral cs) : IsScalar ('"' :: cs)

namespace Skip.Bracket

/-- The character that opens a bracket. -/
def opening : Bracket → Char
  | list => '['
  | object => '\x7b'

/-- How a value stands inside of a bracket : as it is in a list, and behind a key in an object. -/
inductive Part : Bracket → List Char → List Char → Prop
  | element (v : List Char) : Part list v v
  | member {key before after v : List Char} (hkey : IsLiteral key) (hbefore : IsBlanks before)
      (hafter : IsBlanks after) :
      Part object v ('"' :: (key ++ (before ++ ':' :: (after ++ v))))

end Skip.Bracket

/-- A value. -/
inductive IsValue : List Char → Prop
  | scalar {cs : List Char} (hcs : IsScalar cs) : IsValue cs
  | bracket (b : Skip.Bracket) {vs : List (List Char)} {cs : List Char}
      (hparts : Separated b.Part b.closing true vs cs) (hvs : ∀ v ∈ vs, IsValue v) :
      IsValue (b.opening :: cs)

/-- A value with blanks before and behind it, as a document has it. -/
def IsJson (text : List Char) : Prop :=
  ∃ before v after, IsBlanks before ∧ IsValue v ∧ IsBlanks after ∧ text = before ++ (v ++ after)

/-! ## Strings -/

namespace StringLiteral

theorem exists_hexValue {c : Char} (h : IsHex c) : ∃ k, hexValue? c = some k := by
  unfold hexValue?
  split
  · exact ⟨_, rfl⟩
  · rename_i hdigit
    split
    · exact ⟨_, rfl⟩
    · rename_i hlower
      rw [if_pos ((h.resolve_left hdigit).resolve_left hlower)]
      exact ⟨_, rfl⟩

/-- Four hexadecimal digits are passed over, whatever unit they are of. -/
theorem takeEscape_unit {a b c d : Char} (ha : IsHex a) (hb : IsHex b) (hc : IsHex c)
    (hd : IsHex d) (rest : List Char) :
    takeEscape passUnit ('u' :: a :: b :: c :: d :: rest) = .ok (' ', rest) := by
  obtain ⟨a', ha⟩ := exists_hexValue ha
  obtain ⟨b', hb⟩ := exists_hexValue hb
  obtain ⟨c', hc⟩ := exists_hexValue hc
  obtain ⟨d', hd⟩ := exists_hexValue hd
  have hhex : hex4? a b c d = some (((a' * 16 + b') * 16 + c') * 16 + d') := by
    rw [hex4?, ha, hb, hc, hd]
    rfl
  show passUnit (a :: b :: c :: d :: rest) = _
  rw [passUnit, takeHex4, hhex]
  rfl

theorem exists_escaped {c : Char} (hc : c ∈ ['"', '\\', '/', 'b', 'f', 'n', 'r', 't'])
    (rest : List Char) : ∃ d, takeEscape passUnit (c :: rest) = .ok (d, rest) := by
  fin_cases hc
  all_goals exact ⟨_, rfl⟩

/-- A string is passed over, from behind its opening quote. -/
theorem exists_body {cs : List Char} (h : IsLiteral cs) (rest : List Char) {fuel : Nat}
    (hfuel : cs.length ≤ fuel) : ∃ s, body passUnit fuel (cs ++ rest) = .ok (s, rest) := by
  induction h generalizing fuel with
  | close =>
    obtain ⟨fuel, rfl⟩ := Nat.exists_eq_add_one_of_ne_zero (Nat.ne_zero_of_lt hfuel)
    exact ⟨[], rfl⟩
  | plain hc hquote hslash _ ih =>
    rw [List.length_cons] at hfuel
    obtain ⟨fuel, rfl⟩ := Nat.exists_eq_add_one_of_ne_zero (Nat.ne_zero_of_lt hfuel)
    obtain ⟨s, hs⟩ := ih (Nat.le_of_succ_le_succ hfuel)
    rw [List.cons_append, body_plain hquote hslash (by omega), hs]
    exact ⟨_, rfl⟩
  | escape hc _ ih =>
    simp only [List.length_cons] at hfuel
    obtain ⟨fuel, rfl⟩ := Nat.exists_eq_add_one_of_ne_zero (Nat.ne_zero_of_lt hfuel)
    obtain ⟨s, hs⟩ := ih (show _ ≤ fuel by omega)
    obtain ⟨d, hd⟩ := exists_escaped hc _
    rw [List.cons_append, List.cons_append, body_escape hd, hs]
    exact ⟨_, rfl⟩
  | unit ha hb hc hd _ ih =>
    simp only [List.length_cons] at hfuel
    obtain ⟨fuel, rfl⟩ := Nat.exists_eq_add_one_of_ne_zero (Nat.ne_zero_of_lt hfuel)
    obtain ⟨s, hs⟩ := ih (show _ ≤ fuel by omega)
    refine ⟨' ' :: s, ?_⟩
    simp only [List.cons_append]
    rw [body_escape (takeEscape_unit ha hb hc hd _), hs]
    rfl

theorem skip_apply {n : Nat} {cs : List Char} (h : IsLiteral cs) (rest : List Char)
    (hn : cs.length ≤ n) : skip n (cs ++ rest) = .ok ((), rest) := by
  obtain ⟨s, hs⟩ := exists_body h rest hn
  rw [skip, hs]
  rfl

end StringLiteral

/-! ## Numbers -/

namespace Skip

open Reader

variable {n : Nat} {rest : List Char}

theorem digits_apply {ds : List Char} (hne : ds ≠ []) (hds : IsDigits ds)
    (hrest : StopsDigits rest) : digits n (ds ++ rest) = .ok ((), rest) := by
  obtain ⟨c, ds, rfl⟩ := List.exists_cons_of_ne_nil hne
  rw [digits, bind_of_ok (takeDigits_append hds hrest)]
  rfl

/-- An exponent from behind its first character. -/
def signedDigits : Reader Unit := do
  match ← peek? with
  | some '+' | some '-' => drop
  | _ => pure ()
  digits

theorem signedDigits_apply {sign ds : List Char} (hsign : sign ∈ [[], ['+'], ['-']]) (hne : ds ≠ [])
    (hds : IsDigits ds) (hrest : StopsDigits rest) :
    signedDigits n (sign ++ (ds ++ rest)) = .ok ((), rest) := by
  have hdigits : digits n (ds ++ rest) = .ok ((), rest) := digits_apply hne hds hrest
  rw [← hdigits]
  fin_cases hsign
  · obtain ⟨c, ds, rfl⟩ := List.exists_cons_of_ne_nil hne
    have hdigit : c.isDigit = true := hds c List.mem_cons_self
    have hplus : c ≠ '+' := ne_of_isDigit hdigit rfl
    have hminus : c ≠ '-' := ne_of_isDigit hdigit rfl
    have hpeek : peek? n (c :: ds ++ rest) = .ok (some c, c :: ds ++ rest) := rfl
    rw [List.nil_append, signedDigits, bind_of_ok hpeek]
    simp [hplus, hminus]
  iterate 2 rfl

theorem exponent_cons {e : Char} (he : e ∈ ['e', 'E']) (cs : List Char) :
    exponent n (e :: cs) = signedDigits n cs := by
  fin_cases he
  all_goals rfl

theorem exponent_of_stops (hrest : Stops rest) : exponent n rest = .ok ((), rest) :=
  peek?_bind_of_stops (fun c _ he hE => by simp [he, hE]) hrest

theorem exponent_apply {cs : List Char} (h : IsExponent cs) (hrest : Stops rest) :
    exponent n (cs ++ rest) = .ok ((), rest) := by
  cases h with
  | none => exact exponent_of_stops hrest
  | some he hsign hne hds =>
    rw [List.cons_append, List.append_assoc, exponent_cons he,
      signedDigits_apply hsign hne hds hrest.stopsDigits]

/-- A number from behind the digits before its point. -/
def behindWhole : Reader Unit := do
  match ← peek? with
  | some '.' => drop; digits; exponent
  | _ => exponent

theorem unsigned_append {whole : List Char} (hwhole : IsWhole whole) (hrest : StopsDigits rest) :
    unsigned n (whole ++ rest) = behindWhole n rest := by
  obtain ⟨hne, hdigits, hzero⟩ := hwhole
  obtain ⟨c, ds, rfl⟩ := List.exists_cons_of_ne_nil hne
  by_cases hc : c = '0'
  · subst hc
    obtain ⟨-, rfl⟩ := List.cons.inj (hzero rfl)
    cases rest with
    | nil => rfl
    | cons d rest =>
      show (if d.isDigit then _ else behindWhole : Reader Unit) n (d :: rest) = _
      rw [hrest d rfl]
      rfl
  · have hpeek : peek? n (c :: ds ++ rest) = .ok (some c, c :: ds ++ rest) := rfl
    have hds : digits n (c :: ds ++ rest) = .ok ((), rest) := digits_apply hne hdigits hrest
    rw [unsigned, bind_of_ok hpeek]
    simp only [Option.some.injEq, hc, imp_self]
    exact (bind_of_ok hds _).trans rfl

/-- No digit begins an exponent, or what is behind a number. -/
theorem stopsDigits_exponent {cs : List Char} (h : IsExponent cs) (hrest : Stops rest) :
    StopsDigits (cs ++ rest) := by
  cases h with
  | none => exact hrest.stopsDigits
  | some he =>
    fin_cases he
    all_goals exact stopsDigits_cons (by decide) _

/-- No point begins an exponent, or what is behind a number. -/
theorem behindWhole_exponent {cs : List Char} (h : IsExponent cs) (hrest : Stops rest) :
    behindWhole n (cs ++ rest) = exponent n (cs ++ rest) := by
  cases h with
  | some he =>
    fin_cases he
    all_goals rfl
  | none => exact peek?_bind_of_stops (fun c hpoint _ _ => by simp [hpoint]) hrest

theorem unsigned_apply {whole fraction cs : List Char} (hwhole : IsWhole whole)
    (hfraction : IsFraction fraction) (hcs : IsExponent cs) (hrest : Stops rest) :
    unsigned n (whole ++ (fraction ++ (cs ++ rest))) = .ok ((), rest) := by
  have hexponent : exponent n (cs ++ rest) = .ok ((), rest) := exponent_apply hcs hrest
  have hstops : StopsDigits (cs ++ rest) := stopsDigits_exponent hcs hrest
  cases hfraction with
  | none =>
    rw [List.nil_append, unsigned_append hwhole hstops, behindWhole_exponent hcs hrest, hexponent]
  | some hne hds =>
    rw [List.cons_append, unsigned_append hwhole (stopsDigits_cons (by decide) _)]
    show (digits >>= fun _ => exponent) n (_ ++ (cs ++ rest)) = _
    rw [bind_of_ok (digits_apply hne hds hstops), hexponent]

/-- A digit begins a number. -/
theorem start_digit {c : Char} (hc : c.isDigit = true) (cs : List Char) :
    start n (c :: cs) = (unsigned >>= fun _ => pure none) n (c :: cs) := by
  have hne (d : Char) (hd : d.isDigit = false) : c ≠ d := ne_of_isDigit hc hd
  have hpeek : peekSolid? n (c :: cs) = .ok (some c, c :: cs) :=
    peekSolid?_blanks isBlanks_nil (isBlank_of_isDigit hc) cs
  rw [start, bind_of_ok hpeek]
  simp [hc, hne 'n' rfl, hne 't' rfl, hne 'f' rfl, hne '-' rfl, hne '"' rfl, hne '[' rfl,
    hne '\x7b' rfl]

/-- A number begins with its sign or a digit, and is passed over in either case. -/
theorem start_number {cs : List Char} (h : IsNumber cs) (hrest : Stops rest) :
    start n (cs ++ rest) = .ok (none, rest) := by
  obtain @⟨sign, whole, fraction, cs, hsign, hwhole, hfraction, hcs⟩ := h
  have hunsigned : unsigned n (whole ++ (fraction ++ (cs ++ rest))) = .ok ((), rest) :=
    unsigned_apply hwhole hfraction hcs hrest
  simp only [List.append_assoc]
  fin_cases hsign
  · obtain ⟨c, ds, hds⟩ := List.exists_cons_of_ne_nil hwhole.ne_nil
    have hdigit : c.isDigit = true := hwhole.digits c (hds ▸ List.mem_cons_self)
    rw [hds] at hunsigned ⊢
    show start n (c :: (ds ++ _)) = _
    rw [start_digit hdigit]
    exact bind_of_ok hunsigned _
  · show (unsigned >>= fun _ => pure none) n (whole ++ _) = _
    rw [bind_of_ok hunsigned]
    rfl

end Skip

/-! ## Values -/

namespace Reader

variable {α : Type} {n : Nat} {blanks : List Char}

/-- Blanks make no difference to a reader that passes over them first. -/
theorem peekSolid?_bind_append (hblanks : IsBlanks blanks) (k : Option Char → Reader α)
    (cs : List Char) : (peekSolid? >>= k) n (blanks ++ cs) = (peekSolid? >>= k) n cs := by
  rw [bind_apply, bind_apply, peekSolid?_apply, peekSolid?_apply,
    List.dropWhile_append_of_pos hblanks]

end Reader

namespace Skip

open Reader

variable {n : Nat} {rest : List Char}

theorem start_scalar {cs : List Char} (h : IsScalar cs) (hn : cs.length ≤ n) (hrest : Stops rest) :
    start n (cs ++ rest) = .ok (none, rest) := by
  cases h with
  | word hw =>
    fin_cases hw
    all_goals rfl
  | number hcs => exact start_number hcs hrest
  | text hcs =>
    have hskip : StringLiteral.skip n (_ ++ rest) = .ok ((), rest) :=
      StringLiteral.skip_apply hcs rest (Nat.le_of_succ_le hn)
    show (StringLiteral.skip >>= fun _ => pure none) n (_ ++ rest) = _
    rw [bind_of_ok hskip]
    rfl

theorem start_opening (b : Bracket) (cs : List Char) :
    start n (b.opening :: cs) = .ok (some b, cs) := by
  cases b <;> rfl

/-- What is left to do inside of the brackets `left`, from behind a comma or an opening bracket. -/
def proceed (fuel : Nat) (left : List Bracket) : Reader Unit :=
  match left with
  | [] => pure ()
  | .list :: _ => values fuel left
  | .object :: _ => do
    key
    values fuel left

section Steps

variable {fuel : Nat} {outer : List Bracket} {b : Bracket} {cs blanks : List Char}

theorem values_of_scalar (h : start n cs = .ok (none, rest)) :
    values (fuel + 1) outer n cs = (settle outer >>= proceed fuel) n rest := by
  rw [values, bind_of_ok h]
  rfl

theorem values_of_opening (h : start n cs = .ok (some b, rest)) :
    values (fuel + 1) outer n cs = (enter b outer >>= proceed fuel) n rest := by
  rw [values, bind_of_ok h]
  rfl

theorem start_append (hblanks : IsBlanks blanks) (cs : List Char) :
    start n (blanks ++ cs) = start n cs :=
  peekSolid?_bind_append hblanks _ cs

theorem settle_closing (hblanks : IsBlanks blanks) :
    settle (b :: outer) n (blanks ++ b.closing :: rest) = settle outer n rest := by
  cases b
  all_goals
    rw [settle, bind_of_ok (peekSolid?_blanks hblanks (by decide) rest)]
    rfl

theorem settle_comma (hblanks : IsBlanks blanks) :
    settle (b :: outer) n (blanks ++ ',' :: rest) = .ok (b :: outer, rest) := by
  rw [settle, bind_of_ok (peekSolid?_blanks hblanks (by decide) rest)]
  rfl

theorem enter_closing (hblanks : IsBlanks blanks) :
    enter b outer n (blanks ++ b.closing :: rest) = settle outer n rest := by
  cases b
  all_goals
    rw [enter, bind_of_ok (peekSolid?_blanks hblanks (by decide) rest)]
    rfl

theorem enter_solid (hblanks : IsBlanks blanks) {c : Char} (hc : isBlank c = false)
    (hne : c ≠ b.closing) :
    enter b outer n (blanks ++ c :: cs) = .ok (b :: outer, c :: cs) := by
  rw [enter, bind_of_ok (peekSolid?_blanks hblanks hc cs)]
  simp [hne]

theorem key_apply {literal before : List Char} (hliteral : IsLiteral literal)
    (hblanks : IsBlanks blanks) (hbefore : IsBlanks before) (hn : literal.length ≤ n) :
    key n (blanks ++ '"' :: (literal ++ (before ++ ':' :: rest))) = .ok ((), rest) := by
  have hskip : StringLiteral.skip n (literal ++ (before ++ ':' :: rest)) =
      .ok ((), before ++ ':' :: rest) := StringLiteral.skip_apply hliteral _ hn
  rw [key, bind_of_ok (peekSolid?_blanks hblanks (by decide) _)]
  show (StringLiteral.skip >>= fun _ => colon) n (literal ++ (before ++ ':' :: rest)) = _
  rw [bind_of_ok hskip, colon_blanks hbefore]

end Steps

/-- The text is passed over by itself, and then what follows : a comma or closing brackets. -/
def Passes (v : List Char) : Prop :=
  ∀ n fuel outer blanks rest, IsBlanks blanks → v.length ≤ fuel → v.length + rest.length < n →
    Stops rest → ∃ fuel', fuel ≤ fuel' + v.length ∧
      values fuel outer n (blanks ++ (v ++ rest)) = (settle outer >>= proceed fuel') n rest

/-- A part is passed over as its value is, from behind its key if it has one. -/
theorem Passes.part {b : Bracket} {v cs blanks : List Char} (hv : Passes v) (h : b.Part v cs)
    (hblanks : IsBlanks blanks) (outer : List Bracket) {fuel : Nat} (hfuel : cs.length ≤ fuel)
    (hn : cs.length + rest.length < n) (hrest : Stops rest) :
    ∃ fuel', fuel ≤ fuel' + cs.length ∧
      proceed fuel (b :: outer) n (blanks ++ (cs ++ rest)) =
        (settle (b :: outer) >>= proceed fuel') n rest := by
  cases h with
  | element => exact hv n fuel (.list :: outer) blanks rest hblanks hfuel hn hrest
  | @member literal before after _ hkey hbefore hafter =>
    simp only [List.length_cons, List.length_append] at hfuel hn ⊢
    have hread : key n (blanks ++ '"' :: (literal ++ (before ++ ':' :: (after ++ (v ++ rest))))) =
        .ok ((), after ++ (v ++ rest)) := key_apply hkey hblanks hbefore (by omega)
    obtain ⟨fuel', hfuel', hvalue⟩ :=
      hv n fuel (.object :: outer) after rest hafter (by omega) (by omega) hrest
    refine ⟨fuel', by omega, ?_⟩
    simp only [List.cons_append, List.append_assoc]
    exact (bind_of_ok hread _).trans hvalue

/-- The parts behind the first one are passed over one by one, and then the brackets around. -/
theorem exists_settle_of_separated {b : Bracket} {vs : List (List Char)} {cs : List Char}
    (h : Separated b.Part b.closing false vs cs) (hvs : ∀ v ∈ vs, Passes v) (outer : List Bracket)
    {fuel : Nat} (hfuel : cs.length ≤ fuel) (hn : cs.length + rest.length < n) :
    ∃ fuel', fuel ≤ fuel' + cs.length ∧
      (settle (b :: outer) >>= proceed fuel) n (cs ++ rest) =
        (settle outer >>= proceed fuel') n rest := by
  generalize hfirst : false = first at h
  induction h generalizing fuel with
  | nil hblanks =>
    refine ⟨fuel, Nat.le_add_right .., ?_⟩
    rw [List.append_assoc, List.singleton_append, bind_apply, settle_closing hblanks, bind_apply]
  | @cons _ v vs lead text tail hlead htext htail ih =>
    subst hfirst
    cases hlead with
    | @next before after hbefore hafter =>
      simp only [List.length_append, List.length_cons] at hfuel hn ⊢
      have hstops : Stops (tail ++ rest) := htail.stops (by cases b <;> decide) rest
      obtain ⟨fuel₁, hfuel₁, hpart⟩ := (hvs v List.mem_cons_self).part htext hafter outer
        (show _ ≤ fuel by omega) (show _ < n by rw [List.length_append]; omega) hstops
      obtain ⟨fuel₂, hfuel₂, hrest⟩ := ih (fun v hv => hvs v (List.mem_cons_of_mem _ hv))
        (show _ ≤ fuel₁ by omega) (by omega) rfl
      refine ⟨fuel₂, by omega, ?_⟩
      simp only [List.append_assoc, List.cons_append]
      rw [bind_of_ok (settle_comma hbefore), hpart, hrest]

theorem Bracket.Part.exists_cons {b : Bracket} {v cs : List Char} (h : b.Part v cs)
    (hv : ∃ c v', v = c :: v' ∧ isBlank c = false ∧ c ≠ ']') :
    ∃ c cs', cs = c :: cs' ∧ isBlank c = false ∧ c ≠ b.closing := by
  cases h with
  | element => exact hv
  | member => exact ⟨'"', _, rfl, by decide, by decide⟩

/-- The parts of brackets are passed over, and then the brackets around. -/
theorem exists_enter_of_separated {b : Bracket} {vs : List (List Char)} {cs : List Char}
    (h : Separated b.Part b.closing true vs cs) (hvs : ∀ v ∈ vs, Passes v)
    (hsolid : ∀ v ∈ vs, ∃ c v', v = c :: v' ∧ isBlank c = false ∧ c ≠ ']') (outer : List Bracket)
    {fuel : Nat} (hfuel : cs.length ≤ fuel) (hn : cs.length + rest.length < n) :
    ∃ fuel', fuel ≤ fuel' + cs.length ∧
      (enter b outer >>= proceed fuel) n (cs ++ rest) =
        (settle outer >>= proceed fuel') n rest := by
  cases h with
  | nil hblanks =>
    refine ⟨fuel, Nat.le_add_right .., ?_⟩
    rw [List.append_assoc, List.singleton_append, bind_apply, enter_closing hblanks, bind_apply]
  | @cons _ v vs lead text tail hlead htext htail =>
    cases hlead with
    | first hblanks =>
      obtain ⟨c, cs, rfl, hc, hne⟩ := htext.exists_cons (hsolid v List.mem_cons_self)
      simp only [List.length_append] at hfuel hn ⊢
      have hstops : Stops (tail ++ rest) := htail.stops (by cases b <;> decide) rest
      obtain ⟨fuel₁, hfuel₁, hpart⟩ := (hvs v List.mem_cons_self).part htext isBlanks_nil outer
        (show _ ≤ fuel by omega) (show _ < n by rw [List.length_append]; omega) hstops
      obtain ⟨fuel₂, hfuel₂, hrest⟩ := exists_settle_of_separated htail
        (fun v hv => hvs v (List.mem_cons_of_mem _ hv)) outer (show _ ≤ fuel₁ by omega)
        (show _ + rest.length < n by omega)
      refine ⟨fuel₂, by omega, ?_⟩
      rw [List.append_assoc, List.append_assoc, List.cons_append,
        bind_of_ok (enter_solid hblanks hc hne), ← List.cons_append]
      exact hpart.trans hrest

end Skip

theorem IsNumber.exists_cons {cs : List Char} (h : IsNumber cs) :
    ∃ c cs', cs = c :: cs' ∧ (c = '-' ∨ c.isDigit = true) := by
  obtain @⟨sign, whole, fraction, exponent, hsign, hwhole, -, -⟩ := h
  fin_cases hsign
  · obtain ⟨c, ds, rfl⟩ := List.exists_cons_of_ne_nil hwhole.ne_nil
    exact ⟨c, _, rfl, .inr (hwhole.digits c List.mem_cons_self)⟩
  · exact ⟨'-', _, rfl, .inl rfl⟩

namespace IsValue

theorem exists_cons {v : List Char} (h : IsValue v) :
    ∃ c v', v = c :: v' ∧ isBlank c = false ∧ c ≠ ']' := by
  cases h with
  | bracket b => exact ⟨b.opening, _, rfl, by cases b <;> decide, by cases b <;> decide⟩
  | scalar hscalar =>
    cases hscalar with
    | word hw =>
      fin_cases hw
      all_goals exact ⟨_, _, rfl, by decide, by decide⟩
    | text => exact ⟨_, _, rfl, by decide, by decide⟩
    | number hnumber =>
      obtain ⟨c, v', rfl, hc⟩ := hnumber.exists_cons
      exact ⟨c, v', rfl, Document.solid_of_number hc⟩

/-- A value is passed over, however deep its brackets are. -/
theorem passes {v : List Char} (h : IsValue v) : Skip.Passes v := by
  induction h with
  | @scalar cs hcs =>
    intro n fuel outer blanks rest hblanks hfuel hn hrest
    obtain ⟨c, cs', hcons, -⟩ := exists_cons (.scalar hcs)
    have hpos : 0 < cs.length := by
      rw [hcons]
      exact Nat.succ_pos _
    obtain ⟨fuel, rfl⟩ := Nat.exists_eq_add_one_of_ne_zero (Nat.ne_zero_of_lt (hpos.trans_le hfuel))
    have hstart : Skip.start n (blanks ++ (cs ++ rest)) = .ok (none, rest) := by
      rw [Skip.start_append hblanks, Skip.start_scalar hcs (by omega) hrest]
    exact ⟨fuel, by omega, Skip.values_of_scalar hstart⟩
  | @bracket b vs cs hparts hvs ih =>
    intro n fuel outer blanks rest hblanks hfuel hn hrest
    rw [List.length_cons] at hfuel hn
    obtain ⟨fuel, rfl⟩ := Nat.exists_eq_add_one_of_ne_zero (Nat.ne_zero_of_lt hfuel)
    obtain ⟨fuel', hfuel', hread⟩ := Skip.exists_enter_of_separated hparts ih
      (fun v hv => (hvs v hv).exists_cons) outer (Nat.le_of_succ_le_succ hfuel)
      (show _ + rest.length < n by omega)
    have hstart : Skip.start n (blanks ++ b.opening :: (cs ++ rest)) =
        .ok (some b, cs ++ rest) := by
      rw [Skip.start_append hblanks, Skip.start_opening]
    refine ⟨fuel', by rw [List.length_cons]; omega, ?_⟩
    rw [List.cons_append, Skip.values_of_opening hstart, hread]

end IsValue

/-- No number goes on where a value ends. -/
theorem Closes.stops {rest : List Char} (h : Closes rest) : Stops rest := by
  have hclosers : ∀ c ∈ closers, isNumeric c = false := by simp [closers, isNumeric]
  exact fun c hc => hclosers c (h c hc)

/-- A value is passed over wherever it stands, but for the blanks behind it. -/
theorem IsJson.stands {text : List Char} (h : IsJson text) : Stands Skip.value text () := by
  obtain ⟨before, v, after, hbefore, hv, hafter, rfl⟩ := h
  refine ⟨before ++ v, after, (List.append_assoc ..).symm, hafter, fun n rest hn hrest => ?_⟩
  simp only [List.length_append] at hn
  obtain ⟨fuel', -, hread⟩ := hv.passes n n [] before (after ++ rest) hbefore (by omega)
    (by rw [List.length_append]; omega) (hrest.append hafter).stops
  rw [List.append_assoc, List.append_assoc]
  exact hread

end Downbeat.Json
