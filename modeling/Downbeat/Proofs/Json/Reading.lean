import Downbeat.Json.Typed
import Downbeat.Json.Written

/-!
# Reading what was written

A text gives a result to a reader if the reader comes to that result wherever the text stands in
a document, and takes just the text (`Json.Gives`). Nothing has to be known of what follows the
text, but that it does not go on as a number would (`Json.Stops`).

The readers of words and strings are given what was written (`Json.gives_text`), whatever characters
a string has.
-/

namespace Downbeat.Json

/-! ## Readers at work -/

theorem bind_eq_ok_iff {ε α β : Type} {x : Except ε α} {f : α → Except ε β} {b : β} :
    (x >>= f) = .ok b ↔ ∃ a, x = .ok a ∧ f a = .ok b := by
  cases x with
  | error e => exact ⟨nofun, nofun⟩
  | ok a => exact ⟨fun h => ⟨a, rfl, h⟩, fun ⟨_, ha, h⟩ => Except.ok.inj ha ▸ h⟩

namespace Reader

variable {α β : Type} {n : Nat} {cs : List Char}

theorem bind_apply (p : Reader α) (f : α → Reader β) :
    (p >>= f) n cs = (p n cs).bind fun x => f x.1 n x.2 := rfl

@[simp] theorem bind_of_ok {p : Reader α} {x : α} {rest : List Char}
    (h : p n cs = .ok (x, rest)) (f : α → Reader β) : (p >>= f) n cs = f x n rest := by
  rw [bind_apply, h]
  rfl

@[simp] theorem bind_of_error {p : Reader α} {fault : Fault} (h : p n cs = .error fault)
    (f : α → Reader β) : (p >>= f) n cs = .error fault := by
  rw [bind_apply, h]
  rfl

theorem map_apply (g : α → β) (p : Reader α) :
    (g <$> p) n cs = (p n cs).map fun x => (g x.1, x.2) := by
  show (p n cs).bind _ = _
  cases p n cs <;> rfl

@[simp] theorem pure_apply (x : α) : (pure x : Reader α) n cs = .ok (x, cs) := rfl

@[simp] theorem drop_apply : drop n cs = .ok ((), cs.tail) := rfl

@[simp] theorem takeDigits_apply :
    takeDigits n cs = .ok (cs.takeWhile Char.isDigit, cs.dropWhile Char.isDigit) := rfl

@[simp] theorem bound_apply : bound n cs = .ok (n, cs) := rfl

@[simp] theorem peekSolid?_apply :
    peekSolid? n cs = .ok ((cs.dropWhile isBlank).head?, cs.dropWhile isBlank) := rfl

theorem dropWhile_blanks {blanks : List Char} (hblanks : ∀ b ∈ blanks, isBlank b = true) {c : Char}
    (hc : isBlank c = false) (rest : List Char) :
    (blanks ++ c :: rest).dropWhile isBlank = c :: rest := by
  rw [List.dropWhile_append_of_pos hblanks, List.dropWhile_cons_of_neg (by simp [hc])]

/-- The next character behind blanks. -/
theorem peekSolid?_blanks {blanks : List Char} (hblanks : ∀ b ∈ blanks, isBlank b = true) {c : Char}
    (hc : isBlank c = false) (rest : List Char) :
    peekSolid? n (blanks ++ c :: rest) = .ok (some c, c :: rest) := by
  rw [peekSolid?_apply, dropWhile_blanks hblanks hc, List.head?_cons]

theorem onSolid_blanks (go : Char → Reader α) {blanks : List Char}
    (hblanks : ∀ b ∈ blanks, isBlank b = true) {c : Char} (hc : isBlank c = false)
    (rest : List Char) : onSolid go n (blanks ++ c :: rest) = go c n (c :: rest) := by
  rw [onSolid, bind_of_ok (peekSolid?_blanks hblanks hc rest)]

end Reader

/-! ## Texts that give a result -/

/-- Whether a character may go on a number. -/
def isNumeric (c : Char) : Bool := c.isDigit || c = '.' || c = 'e' || c = 'E'

/-- A number ends before the text. -/
def Stops (rest : List Char) : Prop := ∀ c ∈ rest.head?, isNumeric c = false

/-- Wherever the text stands in a document, the reader takes it and comes to the result, blanks or
no blanks before the text. -/
def Gives {α : Type} (p : Reader α) (text : List Char) (result : Except Fault α) : Prop :=
  ∀ n blanks rest, (∀ b ∈ blanks, isBlank b = true) → text.length + rest.length < n → Stops rest →
    p n (blanks ++ (text ++ rest)) = result.map (·, rest)

theorem stops_nil : Stops [] := nofun

theorem stops_cons {c : Char} (h : isNumeric c = false) (rest : List Char) : Stops (c :: rest) := by
  intro d hd
  obtain rfl := Option.some.inj hd
  exact h

namespace Gives

open Reader

variable {α β : Type} {p : Reader α} {text : List Char} {result : Except Fault α}

protected theorem map (h : Gives p text result) (g : α → β) :
    Gives (g <$> p) text (result.map g) := by
  intro n blanks rest hblanks hn hrest
  rw [map_apply, h n blanks rest hblanks hn hrest]
  cases result <;> rfl

/-- A document is read as its text is. -/
theorem document {item : Nested α} {source : String}
    (h : Gives (item maxDepth) source.toList result) : Json.document item source = result := by
  have hread := h (source.toList.length + 1) [] [] (List.forall_mem_nil _) (by simp) stops_nil
  rw [List.append_nil, List.nil_append] at hread
  rw [Json.document, hread]
  cases result <;> rfl

/-- A value that is not `null` is read as itself. -/
theorem optional {c : Char} (h : Gives p (c :: text) result) (hblank : isBlank c = false)
    (hc : c ≠ 'n') : Gives (optional p) (c :: text) (result.map some) := by
  intro n blanks rest hblanks hn hrest
  have hmap := h.map some n [] rest (List.forall_mem_nil _) hn hrest
  rw [Reader.optional, List.cons_append, bind_of_ok (peekSolid?_blanks hblanks hblank _)]
  simpa [hc] using hmap

end Gives

theorem gives_null {α : Type} (p : Reader α) :
    Gives (Reader.optional p) "null".toList (.ok none) := by
  intro n blanks rest hblanks _ _
  have hpeek := Reader.peekSolid?_blanks (n := n) hblanks (show isBlank 'n' = false by decide)
    ("ull".toList ++ rest)
  rw [Reader.optional]
  exact Reader.bind_of_ok hpeek _

/-! ## Strings -/

namespace StringLiteral

theorem hexValue?_digitChar : ∀ k < 16, hexValue? (Nat.digitChar k) = some k := by decide

variable {unit : List Char → Except Fault (Char × List Char)} {fuel : Nat} {rest : List Char}

theorem body_escape {cs : List Char} {c : Char} (h : takeEscape unit cs = .ok (c, rest)) :
    body unit (fuel + 1) ('\\' :: cs) =
      (body unit fuel rest).map fun x => (c :: x.1, x.2) := by
  have hstep : body unit (fuel + 1) ('\\' :: cs) =
      (body unit fuel rest).bind fun x => .ok (c :: x.1, x.2) := by
    rw [body, h]
    rfl
  rw [hstep]
  cases body unit fuel rest <;> rfl

theorem body_plain {c : Char} (hquote : c ≠ '"') (hslash : c ≠ '\\') (h : ¬c.toNat < 0x20) :
    body unit (fuel + 1) (c :: rest) = (body unit fuel rest).map fun x => (c :: x.1, x.2) := by
  rw [body.eq_5 _ _ _ _ hquote hslash, if_neg h]
  cases body unit fuel rest <;> rfl

/-- A control character is read by its number. -/
theorem takeUnit_control {c : Char} (h : c.toNat < 0x20) :
    takeUnit ('0' :: '0' :: Nat.digitChar (c.toNat / 16) :: Nat.digitChar (c.toNat % 16) :: rest) =
      .ok (c, rest) := by
  have hhex : takeHex4 ('0' :: '0' :: Nat.digitChar (c.toNat / 16) ::
      Nat.digitChar (c.toNat % 16) :: rest) = .ok (c.toNat, rest) := by
    have hdigits : hex4? '0' '0' (Nat.digitChar (c.toNat / 16)) (Nat.digitChar (c.toNat % 16)) =
        some c.toNat := by
      rw [hex4?, hexValue?_digitChar _ (by omega), hexValue?_digitChar _ (by omega)]
      show some (((0 * 16 + 0) * 16 + c.toNat / 16) * 16 + c.toNat % 16) = some c.toNat
      congr 1
      omega
    rw [takeHex4, hdigits]
  have htrailing : isTrailing c.toNat = false := by simp [isTrailing]; omega
  have hleading : isLeading c.toNat = false := by simp [isLeading]; omega
  rw [takeUnit, hhex]
  show (if isTrailing c.toNat then _ else if !isLeading c.toNat then _ else _) = _
  rw [htrailing, hleading, Char.ofNat_toNat]
  rfl

/-- A character as it is written is read in one step. -/
theorem body_writtenChar (c : Char) : body takeUnit (fuel + 1) (writtenChar c ++ rest) =
    (body takeUnit fuel rest).map fun x => (c :: x.1, x.2) := by
  by_cases hquote : c = '"'
  · subst hquote
    exact body_escape rfl
  by_cases hslash : c = '\\'
  · subst hslash
    exact body_escape rfl
  unfold writtenChar
  rw [if_neg hquote, if_neg hslash]
  split
  · subst c
    exact body_escape rfl
  split
  · subst c
    exact body_escape rfl
  split
  · subst c
    exact body_escape rfl
  split
  · subst c
    exact body_escape rfl
  split
  · subst c
    exact body_escape rfl
  split
  · rename_i h
    exact body_escape (takeUnit_control h)
  · rename_i h
    exact body_plain hquote hslash h

theorem length_writtenChar_pos (c : Char) : 0 < (writtenChar c).length := by
  unfold writtenChar
  repeat' split
  all_goals exact Nat.succ_pos _

theorem length_le_flatMap_writtenChar (cs : List Char) :
    cs.length ≤ (cs.flatMap writtenChar).length := by
  induction cs with
  | nil => exact Nat.zero_le _
  | cons c cs ih =>
    have hc := length_writtenChar_pos c
    rw [List.flatMap_cons, List.length_cons, List.length_append]
    omega

/-- The characters of a string are read up to its closing quote. -/
theorem body_flatMap_writtenChar (cs : List Char) (h : cs.length < fuel) :
    body takeUnit fuel (cs.flatMap writtenChar ++ '"' :: rest) = .ok (cs, rest) := by
  induction cs generalizing fuel with
  | nil =>
    obtain ⟨fuel, rfl⟩ := Nat.exists_eq_add_one_of_ne_zero (Nat.ne_zero_of_lt h)
    rfl
  | cons c cs ih =>
    obtain ⟨fuel, rfl⟩ := Nat.exists_eq_add_one_of_ne_zero (Nat.ne_zero_of_lt h)
    rw [List.flatMap_cons, List.append_assoc, body_writtenChar, ih (by simpa using h)]
    rfl

/-- A string is read as it was written, from behind its opening quote. -/
theorem read_apply {n : Nat} (s : String) (hn : (writtenText s).length < n + 2) :
    read n (s.toList.flatMap writtenChar ++ '"' :: rest) = .ok (s, rest) := by
  have hlength := length_le_flatMap_writtenChar s.toList
  simp only [writtenText, List.length_cons, List.length_append] at hn
  rw [read, body_flatMap_writtenChar s.toList (by omega)]
  show Except.ok (String.ofList s.toList, rest) = _
  rw [String.ofList_toList]

end StringLiteral

/-- A string of any characters is read as it was written. -/
theorem gives_textAs (wanted s : String) :
    Gives (Reader.textAs wanted) (writtenText s) (.ok s) := by
  intro n blanks rest hblanks hn _
  rw [writtenText, List.cons_append, List.append_assoc, List.singleton_append, Reader.textAs,
    Reader.onSolid_blanks _ hblanks (by decide), if_pos rfl,
    Reader.bind_of_ok (Reader.drop_apply ..), List.tail_cons,
    StringLiteral.read_apply s (by omega)]
  rfl

theorem gives_text (s : String) : Gives Reader.text (writtenText s) (.ok s) := gives_textAs _ s

end Downbeat.Json
