import Downbeat.Proofs.Json.Layout

/-!
# Values that stand alone

A value whose text is a document of its own is read in the same way where the text stands inside
of another document (`IsLocal.stands`). What is read of the front of a text hangs on the characters
that are taken and on the next one only (`IsLocal`), and where the text ends, a blank, a comma or a
closing bracket may follow. The readers of strings, doubles and whole numbers are such
(`IsLocal.text`, `IsLocal.float`, `IsLocal.naturalAs`).
-/

namespace Downbeat.Json

/-! ## What stands behind a value -/

/-- The characters that may come behind a value inside of brackets. -/
def closers : List Char := [' ', '\n', '\t', '\r', ',', ']', '\x7d']

/-- A value may end before the text. -/
def Closes (rest : List Char) : Prop := ∀ c ∈ rest.head?, c ∈ closers

/-- The text `more` goes on as `rest` does, or ends a value where `rest` is nothing. -/
def GoesOn (rest more : List Char) : Prop := more.head? = rest.head? ∨ rest = [] ∧ Closes more

/-- The reader takes `used` from any text that goes on behind it as `rest` does. -/
def Consumes {α : Type} (p : Reader α) (used rest : List Char) (x : α) : Prop :=
  ∀ n more, used.length + more.length < n → GoesOn rest more → p n (used ++ more) = .ok (x, more)

/-- What the reader takes of the text hangs on nothing but that and the next character. -/
def LocalAt {α : Type} (p : Reader α) (cs : List Char) : Prop :=
  ∀ n x rest, p n cs = .ok (x, rest) → ∃ used, cs = used ++ rest ∧ Consumes p used rest x

/-- What the reader takes of a text hangs on nothing but that and the next character. -/
def IsLocal {α : Type} (p : Reader α) : Prop := ∀ cs, LocalAt p cs

/-- The reader takes nothing. -/
def Fails {α : Type} (p : Reader α) : Prop := ∀ n cs x, p n cs ≠ .ok x

theorem GoesOn.append {rest more : List Char} (h : GoesOn rest more) (used : List Char) :
    GoesOn (used ++ rest) (used ++ more) := by
  cases used with
  | nil => exact h
  | cons c used => exact .inl rfl

/-- Behind what may still be taken, the next character is the same. -/
theorem GoesOn.head?_append {c : Char} {cs rest more used : List Char} (h : GoesOn rest more)
    (hcs : c :: cs = used ++ rest) : (used ++ more).head? = some c := by
  have happend := h.append used
  rw [← hcs] at happend
  rcases happend with hhead | ⟨hnil, -⟩
  · exact hhead
  · cases hnil

namespace Reader

variable {α β : Type} {p : Reader α} {f : α → Reader β} {cs : List Char}

theorem bind_eq_ok {n : Nat} {y : β × List Char} (h : (p >>= f) n cs = .ok y) :
    ∃ x mid, p n cs = .ok (x, mid) ∧ f x n mid = .ok y := by
  obtain ⟨x, hx, hy⟩ := bind_eq_ok_iff.1 (show (p n cs >>= fun x => f x.1 n x.2) = .ok y from h)
  exact ⟨x.1, x.2, hx, hy⟩

end Reader

/-! ## Readers that take nothing -/

namespace Fails

open Reader

variable {α β : Type}

theorem fail (fault : Fault) : Fails (Reader.fail fault : Reader α) := fun _ _ _ => nofun

theorem bind (p : Reader α) {f : α → Reader β} (hf : ∀ x, Fails (f x)) : Fails (p >>= f) := by
  intro n cs y h
  obtain ⟨x, mid, -, h⟩ := bind_eq_ok h
  exact hf x n mid y h

theorem mismatch (wanted : String) : Fails (Reader.mismatch wanted : Reader α) := by
  refine .bind _ fun c => ?_
  split
  iterate 3 exact .bind _ fun _ => .bind _ fun _ => .fail _
  · exact .bind _ fun _ => .bind _ fun _ => .fail _
  iterate 2 exact .fail _
  · split
    · exact .bind _ fun _ => .fail _
    · exact .fail _
  · exact .fail _

theorem localAt {p : Reader α} (h : Fails p) (cs : List Char) : LocalAt p cs :=
  fun n _ _ hp => absurd hp (h n cs _)

end Fails

/-- A reader that cannot do without another character comes to one that is not blank. -/
theorem Reader.exists_of_peekSolid? {α : Type} {k : Option Char → Reader α} {n : Nat}
    {cs : List Char} {y : α × List Char} (hnone : Fails (k none))
    (h : (peekSolid? >>= k) n cs = .ok y) :
    ∃ blanks c rest, IsBlanks blanks ∧ isBlank c = false ∧ cs = blanks ++ c :: rest ∧
      k (some c) n (c :: rest) = .ok y := by
  obtain ⟨c?, solid, hpeek, hy⟩ := bind_eq_ok h
  obtain ⟨rfl, rfl⟩ := Prod.mk.inj (Except.ok.inj hpeek)
  have hsplit := List.takeWhile_append_dropWhile (p := isBlank) (l := cs)
  have hhead := List.head?_dropWhile_not isBlank cs
  cases hsolid : cs.dropWhile isBlank with
  | nil =>
    rw [hsolid] at hy
    exact absurd hy (hnone n [] _)
  | cons c rest =>
    rw [hsolid] at hy hsplit hhead
    exact ⟨cs.takeWhile isBlank, c, rest, fun b hb => List.mem_takeWhile_imp hb,
      by simpa using hhead, hsplit.symm, hy⟩

/-! ## Building blocks -/

namespace LocalAt

open Reader

variable {α β : Type} {p : Reader α} {f : α → Reader β} {cs : List Char}

theorem pure (x : α) (cs : List Char) : LocalAt (Pure.pure x : Reader α) cs := by
  intro n y rest h
  obtain ⟨rfl, rfl⟩ := Prod.mk.inj (Except.ok.inj h)
  exact ⟨[], rfl, fun m more _ _ => rfl⟩

theorem bind (hp : LocalAt p cs) (hf : ∀ n x mid, p n cs = .ok (x, mid) → LocalAt (f x) mid) :
    LocalAt (p >>= f) cs := by
  intro n y rest h
  obtain ⟨x, mid, hx, hy⟩ := bind_eq_ok h
  obtain ⟨used, rfl, hused⟩ := hp n x mid hx
  obtain ⟨used', rfl, hused'⟩ := hf n x _ hx n y rest hy
  refine ⟨used ++ used', (List.append_assoc ..).symm, fun m more hm hmore => ?_⟩
  rw [List.length_append] at hm
  rw [List.append_assoc,
    bind_of_ok (hused m (used' ++ more) (by rw [List.length_append]; omega) (hmore.append used'))]
  exact hused' m more (by omega) hmore

theorem map (hp : LocalAt p cs) (g : α → β) : LocalAt (g <$> p) cs :=
  hp.bind fun _ x mid _ => .pure (g x) mid

theorem drop (c : Char) (cs : List Char) : LocalAt Reader.drop (c :: cs) := by
  intro n x rest h
  obtain ⟨-, rfl⟩ := Prod.mk.inj (Except.ok.inj h)
  exact ⟨[c], rfl, fun m more _ _ => rfl⟩

/-- A reader goes on behind the next character. -/
theorem drop_bind {q : Reader β} (hq : LocalAt q cs) (c : Char) :
    LocalAt (Reader.drop >>= fun _ => q) (c :: cs) := by
  refine (drop c cs).bind fun n _ mid h => ?_
  obtain ⟨-, rfl⟩ := Prod.mk.inj (Except.ok.inj h)
  exact hq

variable {k : Option Char → Reader β}

theorem peek?_cons {c : Char} (h : LocalAt (k (some c)) (c :: cs)) :
    LocalAt (peek? >>= k) (c :: cs) := by
  intro n y rest hread
  obtain ⟨used, hcs, hused⟩ := h n y rest hread
  refine ⟨used, hcs, fun m more hm hmore => ?_⟩
  have hpeek : peek? m (used ++ more) = .ok (some c, used ++ more) := by
    rw [← hmore.head?_append hcs]
    rfl
  rw [bind_of_ok hpeek]
  exact hused m more hm hmore

/-- A reader goes on by the next character, and cannot do without. -/
theorem peek?_of_fails (hsome : ∀ c cs, LocalAt (k (some c)) (c :: cs)) (hnone : Fails (k none)) :
    LocalAt (peek? >>= k) cs := by
  cases cs with
  | nil => exact fun n y rest h => absurd h (hnone n [] _)
  | cons c cs => exact peek?_cons (hsome c cs)

/-- A reader goes on by the next character, and in the same way at the end and where a value
ends. -/
theorem peek?_of_closes (hsome : ∀ c cs, LocalAt (k (some c)) (c :: cs))
    (hnone : LocalAt (k none) []) (hclose : ∀ c ∈ closers, k (some c) = k none) :
    LocalAt (peek? >>= k) cs := by
  cases cs with
  | cons c cs => exact peek?_cons (hsome c cs)
  | nil =>
    intro n y rest h
    obtain ⟨used, hnil, hused⟩ := hnone n y rest h
    obtain ⟨rfl, rfl⟩ := List.append_eq_nil_iff.1 hnil.symm
    refine ⟨[], rfl, fun m more hm hmore => ?_⟩
    have hk : k more.head? = k none := by
      cases more with
      | nil => rfl
      | cons c more =>
        rcases hmore with hhead | ⟨-, hcloses⟩
        · cases hhead
        · exact hclose c (hcloses c rfl)
    show k more.head? m more = _
    rw [hk]
    exact hused m more hm hmore

/-- A reader goes on by the next character that is not blank, and cannot do without. -/
theorem peekSolid? (hsome : ∀ c cs, isBlank c = false → LocalAt (k (some c)) (c :: cs))
    (hnone : Fails (k none)) : LocalAt (peekSolid? >>= k) cs := by
  intro n y rest h
  obtain ⟨blanks, c, solid, hblanks, hc, rfl, hy⟩ := exists_of_peekSolid? hnone h
  obtain ⟨used, hcs, hused⟩ := hsome c solid hc n y rest hy
  refine ⟨blanks ++ used, by rw [hcs, List.append_assoc], fun m more hm hmore => ?_⟩
  rw [List.length_append] at hm
  have hread := hused m more (by omega) hmore
  obtain ⟨more', hmore'⟩ := List.head?_eq_some_iff.1 (hmore.head?_append hcs)
  rw [hmore'] at hread
  rw [List.append_assoc, hmore', bind_of_ok (peekSolid?_blanks hblanks hc more'), hread]

end LocalAt

namespace IsLocal

open Reader

variable {α β : Type} {p : Reader α} {f : α → Reader β}

theorem pure (x : α) : IsLocal (Pure.pure x : Reader α) := LocalAt.pure x

theorem bind (hp : IsLocal p) (hf : ∀ x, IsLocal (f x)) : IsLocal (p >>= f) :=
  fun cs => (hp cs).bind fun _ x mid _ => hf x mid

theorem map (hp : IsLocal p) (g : α → β) : IsLocal (g <$> p) := fun cs => (hp cs).map g

theorem onSolid {go : Char → Reader α}
    (hgo : ∀ c cs, isBlank c = false → LocalAt (go c) (c :: cs)) : IsLocal (onSolid go) :=
  fun _ => LocalAt.peekSolid? hgo (.fail _)

theorem takeDigits : IsLocal takeDigits := by
  intro cs n ds rest h
  obtain ⟨rfl, rfl⟩ := Prod.mk.inj (Except.ok.inj h)
  refine ⟨cs.takeWhile Char.isDigit, List.takeWhile_append_dropWhile.symm, fun m more _ hmore => ?_⟩
  have hstops : StopsDigits more := by
    intro c hc
    rcases hmore with hhead | ⟨-, hcloses⟩
    · have hdigit := List.head?_dropWhile_not Char.isDigit cs
      rw [← hhead, Option.mem_def.1 hc] at hdigit
      exact hdigit
    · have hclosers : ∀ d ∈ closers, d.isDigit = false := by simp [closers]
      exact hclosers c (hcloses c hc)
  exact takeDigits_append (fun c hc => List.mem_takeWhile_imp hc) hstops

end IsLocal

/-! ## Strings -/

namespace StringLiteral

/-- What is taken of a text hangs on nothing but that. -/
def TakesAlone {α : Type} (take : List Char → Except Fault (α × List Char)) : Prop :=
  ∀ cs x rest, take cs = .ok (x, rest) →
    ∃ used, cs = used ++ rest ∧ ∀ more, take (used ++ more) = .ok (x, more)

theorem takesAlone_takeHex4 : TakesAlone takeHex4 := by
  intro cs n rest h
  unfold takeHex4 at h
  split at h
  · rename_i a b c d rest'
    split at h
    · rename_i hdigits
      obtain ⟨rfl, rfl⟩ := Prod.mk.inj (Except.ok.inj h)
      refine ⟨[a, b, c, d], rfl, fun more => ?_⟩
      show takeHex4 (a :: b :: c :: d :: more) = _
      rw [takeHex4, hdigits]
    · cases h
  · cases h

/-- A code unit that is half of a pair is taken with the other half. -/
theorem takeUnit_of_hex {cs mid : List Char} {k : Nat} : takeHex4 cs = .ok (k, mid) →
    takeUnit cs =
      if isTrailing k then .error .loneSurrogate
      else if !isLeading k then .ok (Char.ofNat k, mid)
      else
        match mid with
        | [] | ['\\'] => .error (.unfinished .string)
        | '\\' :: 'u' :: rest => takeHex4 rest >>= fun x =>
          if isTrailing x.1 then .ok (joined k x.1, x.2) else .error .loneSurrogate
        | _ => .error .halfSurrogatePair := by
  intro h
  unfold takeUnit
  rw [h]
  rfl

theorem takesAlone_takeUnit : TakesAlone takeUnit := by
  intro cs c rest h
  obtain ⟨⟨k, mid⟩, hhex, -⟩ := bind_eq_ok_iff.1 h
  obtain ⟨used, rfl, hused⟩ := takesAlone_takeHex4 cs k mid hhex
  rw [takeUnit_of_hex hhex] at h
  split at h
  · cases h
  · rename_i htrailing
    split at h
    · rename_i hleading
      obtain ⟨rfl, rfl⟩ := Prod.mk.inj (Except.ok.inj h)
      refine ⟨used, rfl, fun more => ?_⟩
      rw [takeUnit_of_hex (hused more), if_neg htrailing, if_pos hleading]
    · rename_i hleading
      split at h
      iterate 2 cases h
      · obtain ⟨⟨m, rest'⟩, hhex', hjoined⟩ := bind_eq_ok_iff.1 h
        obtain ⟨used', rfl, hused'⟩ := takesAlone_takeHex4 _ m rest' hhex'
        split at hjoined
        · rename_i hpair
          obtain ⟨rfl, rfl⟩ := Prod.mk.inj (Except.ok.inj hjoined)
          refine ⟨used ++ '\\' :: 'u' :: used', by simp, fun more => ?_⟩
          have hfirst := hused ('\\' :: 'u' :: (used' ++ more))
          rw [List.append_assoc, List.cons_append, List.cons_append, takeUnit_of_hex hfirst,
            if_neg htrailing, if_neg hleading]
          show (takeHex4 (used' ++ more) >>= _) = _
          rw [hused' more]
          exact if_pos hpair
        · cases hjoined
      · cases h

theorem takesAlone_takeEscape {unit : List Char → Except Fault (Char × List Char)}
    (hunit : TakesAlone unit) : TakesAlone (takeEscape unit) := by
  intro cs c rest h
  unfold takeEscape at h
  split at h
  · cases h
  · rename_i cs
    obtain ⟨used, rfl, hused⟩ := hunit cs c rest h
    exact ⟨'u' :: used, rfl, hused⟩
  · rename_i d cs hu
    split at h
    · rename_i hescaped
      obtain ⟨rfl, rfl⟩ := Prod.mk.inj (Except.ok.inj h)
      refine ⟨[d], rfl, fun more => ?_⟩
      show takeEscape unit (d :: more) = _
      rw [takeEscape.eq_3 _ _ _ hu, hescaped]
    · cases h

/-- The characters of a string are taken up to its closing quote, whatever comes behind. -/
theorem exists_of_body {unit : List Char → Except Fault (Char × List Char)}
    (hunit : TakesAlone unit) {fuel : Nat} {cs rest s : List Char}
    (h : body unit fuel cs = .ok (s, rest)) :
    ∃ used, cs = used ++ rest ∧
      ∀ fuel' more, used.length ≤ fuel' → body unit fuel' (used ++ more) = .ok (s, more) := by
  induction fuel generalizing cs s with
  | zero => cases h
  | succ fuel ih =>
    unfold body at h
    split at h
    · cases h
    · cases h
    · obtain ⟨rfl, rfl⟩ := Prod.mk.inj (Except.ok.inj h)
      refine ⟨['"'], rfl, fun fuel' more hfuel => ?_⟩
      obtain ⟨fuel', rfl⟩ := Nat.exists_eq_add_one_of_ne_zero (Nat.ne_zero_of_lt hfuel)
      rfl
    · rename_i fuel' cs heq
      obtain rfl := Nat.succ.inj heq
      obtain ⟨⟨c, mid⟩, hescape, h⟩ := bind_eq_ok_iff.1 h
      obtain ⟨⟨s', rest'⟩, hbody, h⟩ := bind_eq_ok_iff.1 h
      obtain ⟨rfl, rfl⟩ := Prod.mk.inj (Except.ok.inj h)
      obtain ⟨used, rfl, hused⟩ := takesAlone_takeEscape hunit _ c mid hescape
      obtain ⟨used', rfl, hused'⟩ := ih hbody
      refine ⟨'\\' :: (used ++ used'), by simp, fun fuel' more hfuel => ?_⟩
      simp only [List.length_cons, List.length_append] at hfuel
      obtain ⟨fuel', rfl⟩ := Nat.exists_eq_add_one_of_ne_zero (Nat.ne_zero_of_lt hfuel)
      rw [List.cons_append, List.append_assoc, body_escape (hused (used' ++ more)),
        hused' fuel' more (by omega)]
      rfl
    · rename_i fuel' c cs hquote hslash heq
      obtain rfl := Nat.succ.inj heq
      split at h
      · cases h
      · rename_i hplain
        obtain ⟨⟨s', rest'⟩, hbody, h⟩ := bind_eq_ok_iff.1 h
        obtain ⟨rfl, rfl⟩ := Prod.mk.inj (Except.ok.inj h)
        obtain ⟨used, rfl, hused⟩ := ih hbody
        refine ⟨c :: used, rfl, fun fuel' more hfuel => ?_⟩
        rw [List.length_cons] at hfuel
        obtain ⟨fuel', rfl⟩ := Nat.exists_eq_add_one_of_ne_zero (Nat.ne_zero_of_lt hfuel)
        rw [List.cons_append, body_plain hquote hslash hplain, hused fuel' more (by omega)]
        rfl

/-- A string is taken up to its closing quote, whatever comes behind. -/
theorem exists_of_read {n : Nat} {cs rest : List Char} {s : String}
    (h : read n cs = .ok (s, rest)) :
    ∃ used, cs = used ++ rest ∧
      ∀ m more, used.length ≤ m → read m (used ++ more) = .ok (s, more) := by
  obtain ⟨⟨s', rest'⟩, hbody, h⟩ := bind_eq_ok_iff.1 h
  obtain ⟨rfl, rfl⟩ := Prod.mk.inj (Except.ok.inj h)
  obtain ⟨used, hcs, hused⟩ := exists_of_body takesAlone_takeUnit hbody
  refine ⟨used, hcs, fun m more hm => ?_⟩
  rw [read, hused m more hm]
  rfl

end StringLiteral

namespace IsLocal

open Reader

theorem stringLiteral : IsLocal StringLiteral.read := by
  intro cs n x rest h
  obtain ⟨used, hcs, hused⟩ := StringLiteral.exists_of_read h
  exact ⟨used, hcs, fun m more hm _ => hused m more (by omega)⟩

/-- A string is read as it is on its own. -/
theorem text : IsLocal text := by
  refine .onSolid fun c cs _ => ?_
  split
  · exact .drop_bind (stringLiteral cs) c
  · exact (Fails.mismatch _).localAt _

/-! ## Numbers -/

theorem assemble (negative : Bool) (m : Nat) (e : Int) :
    IsLocal (Number.assemble negative m e) := by
  unfold Number.assemble
  split
  · exact (Fails.fail _).localAt
  · exact .pure _

theorem readExponent (negative : Bool) (m : Nat) (e : Int) (c : Char) (cs : List Char) :
    LocalAt (Number.readExponent negative m e) (c :: cs) := by
  refine .drop_bind (IsLocal.bind (fun cs => ?_) (fun minus cs => ?_) cs) c
  · refine .peek?_of_closes (fun d cs => ?_) (.pure _ _) ?_
    · split
      iterate 2 exact .drop_bind (.pure _ _) _
      · exact .pure _ _
    · simp [closers]
  · refine .peek?_of_fails (fun d cs => ?_) (.fail _)
    show LocalAt (if _ then _ else _) _
    split
    · exact (Fails.fail _).localAt _
    · refine takeDigits.bind (fun ds => ?_) _
      split
      · exact assemble _ _ _
      · split
        · exact (Fails.fail _).localAt
        · exact .pure _

theorem readTail (negative : Bool) (m : Nat) (e : Int) :
    IsLocal (Number.readTail negative m e) := by
  refine fun cs => .peek?_of_closes (fun d cs => ?_) (assemble negative m e []) ?_
  · split
    iterate 2 exact readExponent _ _ _ _ _
    · exact assemble negative m e _
  · simp [closers]

theorem readFraction (negative : Bool) (m : Nat) (e : Int) (c : Char) (cs : List Char) :
    LocalAt (Number.readFraction negative m e) (c :: cs) := by
  refine .drop_bind (takeDigits.bind (fun ds => ?_) cs) c
  cases ds with
  | nil =>
    refine fun cs => .peek?_of_fails (fun d cs => ?_) (.fail _)
    exact (Fails.fail _).localAt _
  | cons d ds => exact readTail _ _ _

theorem readRest (negative : Bool) (m extra : Nat) :
    IsLocal (Number.readRest negative m extra) := by
  have hplain : IsLocal (if extra ≠ 0 then Number.floating <$> Number.assemble negative m extra
      else if !negative then Pure.pure (Number.integer m)
      else if 0 < m && m ≤ Nat.pow 2 63 then Pure.pure (Number.integer (-(m : Int)))
      else Pure.pure (Number.floating (-(Float.ofNat m)))) := by
    repeat' split
    · exact (assemble _ _ _).map _
    iterate 3 exact .pure _
  refine fun cs => .peek?_of_closes (fun d cs => ?_) (hplain []) ?_
  · split
    · exact (readFraction _ _ _ _ _).map _
    iterate 2 exact (readExponent _ _ _ _ _).map _
    · exact hplain _
  · simp [closers]

theorem readUnsigned (negative : Bool) : IsLocal (Number.readUnsigned negative) := by
  refine fun cs => .peek?_of_fails (fun c cs => ?_) (.fail _)
  by_cases hzero : c = '0'
  · subst hzero
    refine .drop_bind (.peek?_of_closes (fun d cs => ?_) (readRest negative 0 0 []) ?_) _
    · show LocalAt (if _ then _ else _) _
      split
      · exact (Fails.fail _).localAt _
      · exact readRest _ _ _ _
    · simp [closers]
  · have hk : LocalAt (if !c.isDigit then Reader.fail .badNumber
        else Reader.takeDigits >>= fun ds =>
          Number.readRest negative (Number.gather 0 ds).1 (Number.gather 0 ds).2.2.length)
        (c :: cs) := by
      split
      · exact (Fails.fail _).localAt _
      · exact takeDigits.bind (fun ds => readRest _ _ _) _
    simpa [hzero] using hk

theorem number : IsLocal Number.read := by
  refine fun cs => .peek?_of_closes (fun c cs => ?_) (readUnsigned false []) ?_
  · split
    · exact .drop_bind (readUnsigned true _) _
    · exact readUnsigned false _
  · simp [closers]

theorem numberAs (wanted : String) : IsLocal (numberAs wanted) := by
  refine .onSolid fun c cs _ => ?_
  split
  · exact number _
  · exact (Fails.mismatch _).localAt _

/-- A double is read as it is on its own. -/
theorem float : IsLocal float := (numberAs "f64").bind fun _ => .pure _

/-- A whole number is read as it is on its own. -/
theorem naturalAs (wanted : String) (bound : Nat) : IsLocal (naturalAs wanted bound) := by
  refine (numberAs wanted).bind fun x => ?_
  cases x with
  | integer n =>
    show IsLocal (if _ then _ else _)
    split
    · exact .pure _
    · exact (Fails.fail _).localAt
  | floating x => exact (Fails.fail _).localAt

end IsLocal

/-! ## Values in their place -/

/-- The text is a document of its own, which is read as the value. -/
def ParsesTo {α : Type} (p : Reader α) (text : List Char) (x : α) : Prop :=
  document (fun _ => p) (String.ofList text) = .ok x

/-- Wherever the text stands in a document, it is read as the value, and taken but for the blanks at
its end. -/
def Stands {α : Type} (p : Reader α) (text : List Char) (x : α) : Prop :=
  ∃ used blanks, text = used ++ blanks ∧ IsBlanks blanks ∧
    ∀ n rest, text.length + rest.length < n → Closes rest →
      p n (text ++ rest) = .ok (x, blanks ++ rest)

theorem closes_nil : Closes [] := nofun

theorem closes_cons {c : Char} (h : c ∈ closers) (rest : List Char) : Closes (c :: rest) := by
  intro d hd
  obtain rfl := Option.some.inj hd
  exact h

theorem mem_closers_of_isBlank {c : Char} (h : isBlank c = true) : c ∈ closers := by
  simp only [isBlank, Bool.or_eq_true, decide_eq_true_eq] at h
  rcases h with ((rfl | rfl) | rfl) | rfl
  all_goals simp [closers]

theorem Closes.append {blanks rest : List Char} (hrest : Closes rest) (hblanks : IsBlanks blanks) :
    Closes (blanks ++ rest) := by
  cases blanks with
  | nil => exact hrest
  | cons b blanks => exact closes_cons (mem_closers_of_isBlank (hblanks b List.mem_cons_self)) _

theorem parsesTo_iff {α : Type} {p : Reader α} {text : List Char} {x : α} :
    ParsesTo p text x ↔ ∃ rest, IsBlanks rest ∧ p (text.length + 1) text = .ok (x, rest) := by
  rw [ParsesTo, document, bind_eq_ok_iff]
  simp only [String.toList_ofList]
  constructor
  · rintro ⟨⟨y, rest⟩, hread, h⟩
    split at h
    · rename_i hblanks
      obtain rfl := Except.ok.inj h
      exact ⟨rest, List.all_eq_true.1 hblanks, hread⟩
    · cases h
  · rintro ⟨rest, hblanks, hread⟩
    exact ⟨(x, rest), hread, if_pos (List.all_eq_true.2 hblanks)⟩

namespace Stands

variable {α β : Type} {p : Reader α} {text : List Char} {x : α}

theorem map (h : Stands p text x) (g : α → β) : Stands (g <$> p) text (g x) := by
  obtain ⟨used, blanks, htext, hblanks, hread⟩ := h
  refine ⟨used, blanks, htext, hblanks, fun n rest hn hrest => ?_⟩
  rw [Reader.map_apply, hread n rest hn hrest]
  rfl

theorem parsesTo (h : Stands p text x) : ParsesTo p text x := by
  obtain ⟨used, blanks, -, hblanks, hread⟩ := h
  have h := hread (text.length + 1) [] (Nat.lt_succ_self _) closes_nil
  rw [List.append_nil, List.append_nil] at h
  exact parsesTo_iff.2 ⟨blanks, hblanks, h⟩

end Stands

/-- A value that is read on its own is read as the same wherever it stands. -/
theorem IsLocal.stands {α : Type} {p : Reader α} (hp : IsLocal p) {text : List Char} {x : α}
    (h : ParsesTo p text x) : Stands p text x := by
  obtain ⟨blanks, hblanks, hread⟩ := parsesTo_iff.1 h
  obtain ⟨used, rfl, hused⟩ := hp _ _ _ _ hread
  refine ⟨used, blanks, rfl, hblanks, fun n rest hn hrest => ?_⟩
  rw [List.append_assoc]
  refine hused n (blanks ++ rest) (by simp only [List.length_append] at hn ⊢; omega) ?_
  cases blanks with
  | nil => exact .inr ⟨rfl, hrest⟩
  | cons b blanks => exact .inl rfl

end Downbeat.Json
