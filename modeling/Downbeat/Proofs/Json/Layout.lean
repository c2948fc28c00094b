import Downbeat.Proofs.Json.Double

/-!
# The texts of a document

A document may be laid out with blanks anywhere between its parts (`Document.Lays`). Both ways of
writing a document lay it out (`Document.lays_compactChars`, `Document.lays_prettyChars`), and a
reader is said to read a document if it reads each such text of it, wherever that stands (`Reads`).

The elements of a list and the members of an object are parts that commas separate (`Separated`). A
list is read as its elements are, one by one (`Reads.list`).
-/

namespace Downbeat.Json

/-! ## Layout -/

/-- Blanks only, or nothing. -/
def IsBlanks (cs : List Char) : Prop := ∀ b ∈ cs, isBlank b = true

/-- What stands before a part : blanks, and a comma among them unless the part is the first. -/
inductive IsLead : (first : Bool) → List Char → Prop
  | first {blanks : List Char} (hblanks : IsBlanks blanks) : IsLead true blanks
  | next {before after : List Char} (hbefore : IsBlanks before) (hafter : IsBlanks after) :
      IsLead false (before ++ ',' :: after)

/-- Parts with commas between them, up to the closing bracket. How a part is laid out is told by
`part`. -/
inductive Separated {α : Type} (part : α → List Char → Prop) (closing : Char) :
    (first : Bool) → List α → List Char → Prop
  | nil {first : Bool} {blanks : List Char} (hblanks : IsBlanks blanks) :
      Separated part closing first [] (blanks ++ [closing])
  | cons {first : Bool} {x : α} {xs : List α} {lead text tail : List Char}
      (hlead : IsLead first lead) (htext : part x text)
      (htail : Separated part closing false xs tail) :
      Separated part closing first (x :: xs) (lead ++ (text ++ tail))

namespace Document

mutual

/-- The text is a text of the document, with blanks between the parts as may be. -/
inductive Lays : Document → List Char → Prop
  | null : Lays null "null".toList
  | natural (n : Nat) : Lays (natural n) (Nat.toDigits 10 n)
  | float (x : Float) : Lays (float x) (writtenFloat x)
  | text (s : String) : Lays (text s) (writtenText s)
  | list {items : List Document} {cs : List Char} (hitems : Separated Lays ']' true items cs) :
      Lays (list items) ('[' :: cs)
  | object {members : List (String × Document)} {cs : List Char}
      (hmembers : Separated LaysMember '\x7d' true members cs) : Lays (object members) ('\x7b' :: cs)

/-- The text is one of a key and its value. -/
inductive LaysMember : String × Document → List Char → Prop
  | mk {key : String} {d : Document} {before after cs : List Char} (hbefore : IsBlanks before)
      (hafter : IsBlanks after) (hvalue : Lays d cs) :
      LaysMember (key, d) (writtenText key ++ (before ++ ':' :: (after ++ cs)))

end

end Document

theorem isBlanks_nil : IsBlanks [] := List.forall_mem_nil _

theorem isBlanks_space : IsBlanks [' '] := List.forall_mem_singleton.2 rfl

theorem IsBlanks.append {bs cs : List Char} (hbs : IsBlanks bs) (hcs : IsBlanks cs) :
    IsBlanks (bs ++ cs) := List.forall_mem_append.2 ⟨hbs, hcs⟩

theorem isNumeric_of_isBlank {c : Char} (h : isBlank c = true) : isNumeric c = false := by
  simp only [isBlank, Bool.or_eq_true, decide_eq_true_eq] at h
  rcases h with ((rfl | rfl) | rfl) | rfl
  all_goals decide

theorem IsBlanks.stops {bs : List Char} (hbs : IsBlanks bs) {c : Char} (hc : isNumeric c = false)
    (rest : List Char) : Stops (bs ++ c :: rest) := by
  cases bs with
  | nil => exact stops_cons hc _
  | cons b bs => exact stops_cons (isNumeric_of_isBlank (hbs b List.mem_cons_self)) _

namespace Document

theorem isBlanks_newline (level : Nat) : IsBlanks (newline level) := by
  intro c h
  rcases List.mem_cons.1 h with rfl | h
  · rfl
  · obtain rfl := List.eq_of_mem_replicate h
    rfl

theorem joined_cons (after x : List Char) (xs : List (List Char)) :
    joined after (x :: xs) = x ++ xs.flatMap fun y => ',' :: (after ++ y) := by
  induction xs generalizing x with
  | nil => simp [joined]
  | cons y xs ih => rw [joined, ih, List.flatMap_cons, List.cons_append, List.append_assoc]

end Document

namespace Separated

variable {α : Type} {part : α → List Char → Prop} {closing : Char} {first : Bool} {xs : List α}
  {cs : List Char}

theorem length_le_add (h : Separated part closing first xs cs) :
    xs.length + (if first then 0 else 1) ≤ cs.length := by
  induction h with
  | @nil first blanks _ =>
    cases first
    all_goals simp
  | cons hlead _ _ ih =>
    simp only [List.length_cons, List.length_append, Bool.false_eq_true, if_false] at ih ⊢
    cases hlead with
    | first =>
      rw [if_pos rfl]
      omega
    | next =>
      simp only [List.length_cons, List.length_append, Bool.false_eq_true, if_false]
      omega

/-- A part is a character at least. -/
theorem length_le (h : Separated part closing first xs cs) : xs.length ≤ cs.length :=
  Nat.le_trans (Nat.le_add_right ..) h.length_le_add

/-- No number goes on behind a part. -/
theorem stops (h : Separated part closing false xs cs) (hclosing : isNumeric closing = false)
    (rest : List Char) : Stops (cs ++ rest) := by
  cases h with
  | nil hblanks =>
    rw [List.append_assoc]
    exact hblanks.stops hclosing _
  | cons hlead _ _ =>
    cases hlead with
    | next hbefore _ =>
      rw [List.append_assoc, List.append_assoc]
      exact hbefore.stops (by decide) _

/-- Behind the first part, each part comes with a comma. -/
theorem of_following {after blanks : List Char} (hafter : IsBlanks after)
    (hblanks : IsBlanks blanks) {texts : List (List Char)} (h : List.Forall₂ part xs texts) :
    Separated part closing false xs
      ((texts.flatMap fun text => ',' :: (after ++ text)) ++ (blanks ++ [closing])) := by
  induction h with
  | nil => exact .nil hblanks
  | cons hpart _ ih =>
    rw [List.flatMap_cons, List.cons_append, List.cons_append, List.append_assoc, List.append_assoc]
    exact .cons (.next isBlanks_nil hafter) hpart ih

/-- Texts that are joined by commas are parts from the first on. -/
theorem of_joined {before after blanks : List Char} (hbefore : IsBlanks before)
    (hafter : IsBlanks after) (hblanks : IsBlanks blanks) {texts : List (List Char)}
    (h : List.Forall₂ part xs texts) : Separated part closing true xs
      (before ++ (Document.joined after texts ++ (blanks ++ [closing]))) := by
  cases h with
  | nil =>
    rw [Document.joined, List.nil_append, ← List.append_assoc]
    exact .nil (hbefore.append hblanks)
  | cons hpart hparts =>
    rw [Document.joined_cons, List.append_assoc]
    exact .cons (.first hbefore) hpart (.of_following hafter hblanks hparts)

/-- Texts on lines of their own are parts, and so is nothing between brackets. -/
theorem of_spread (level : Nat) (opening closing : Char) {texts : List (List Char)}
    (h : List.Forall₂ part xs texts) :
    ∃ cs, Document.spread level opening closing texts = opening :: cs ∧
      Separated part closing true xs cs := by
  have hinner := Document.isBlanks_newline (level + 1)
  have houter := Document.isBlanks_newline level
  cases texts with
  | nil =>
    cases h
    exact ⟨[closing], rfl, .nil isBlanks_nil⟩
  | cons text texts =>
    refine ⟨_, rfl, ?_⟩
    rw [List.append_assoc, List.append_assoc]
    exact .of_joined hinner hinner houter h

end Separated

/-! ## Written documents -/

namespace Document

mutual

/-- A document on one line is laid out without blanks. -/
theorem lays_compactChars : ∀ d : Document, d.Lays d.compactChars
  | .null => .null
  | .natural n => .natural n
  | .float x => .float x
  | .text s => .text s
  | .list items =>
    .list (.of_joined isBlanks_nil isBlanks_nil isBlanks_nil (forall₂_compactItems items))
  | .object members =>
    .object (.of_joined isBlanks_nil isBlanks_nil isBlanks_nil (forall₂_compactMembers members))

theorem forall₂_compactItems : ∀ items, List.Forall₂ Lays items (compactItems items)
  | [] => .nil
  | d :: rest => .cons (lays_compactChars d) (forall₂_compactItems rest)

theorem forall₂_compactMembers : ∀ members, List.Forall₂ LaysMember members (compactMembers members)
  | [] => .nil
  | (_, d) :: rest =>
    .cons (.mk isBlanks_nil isBlanks_nil (lays_compactChars d)) (forall₂_compactMembers rest)

end

mutual

/-- A document on several lines is laid out with line breaks and indentation. -/
theorem lays_prettyChars : ∀ (level : Nat) (d : Document), d.Lays (d.prettyChars level)
  | _, .null => .null
  | _, .natural n => .natural n
  | _, .float x => .float x
  | _, .text s => .text s
  | level, .list items => by
    obtain ⟨cs, hcs, hseparated⟩ :=
      Separated.of_spread level '[' ']' (forall₂_prettyItems (level + 1) items)
    rw [prettyChars, hcs]
    exact .list hseparated
  | level, .object members => by
    obtain ⟨cs, hcs, hseparated⟩ :=
      Separated.of_spread level '\x7b' '\x7d' (forall₂_prettyMembers (level + 1) members)
    rw [prettyChars, hcs]
    exact .object hseparated

theorem forall₂_prettyItems : ∀ (level : Nat) (items : List Document),
    List.Forall₂ Lays items (prettyItems level items)
  | _, [] => .nil
  | level, d :: rest => .cons (lays_prettyChars level d) (forall₂_prettyItems level rest)

theorem forall₂_prettyMembers : ∀ (level : Nat) (members : List (String × Document)),
    List.Forall₂ LaysMember members (prettyMembers level members)
  | _, [] => .nil
  | level, (_, d) :: rest =>
    .cons (.mk isBlanks_nil isBlanks_space (lays_prettyChars level d))
      (forall₂_prettyMembers level rest)

end

theorem solid_of_number {c : Char} (h : c = '-' ∨ c.isDigit = true) :
    isBlank c = false ∧ c ≠ ']' := by
  rcases h with rfl | h
  · exact ⟨rfl, by decide⟩
  · refine ⟨isBlank_of_isDigit h, ?_⟩
    rintro rfl
    cases h

/-- A document begins with a character that is not blank and no closing bracket. -/
theorem Lays.exists_cons {d : Document} {cs : List Char} (h : d.Lays cs) :
    ∃ c rest, cs = c :: rest ∧ isBlank c = false ∧ c ≠ ']' := by
  cases h with
  | null => exact ⟨'n', _, rfl, by decide, by decide⟩
  | natural n =>
    obtain ⟨c, rest, hchars⟩ := List.exists_cons_of_ne_nil (Nat.toDigits_ne_nil (n := n) (b := 10))
    have hdigit : c.isDigit = true := isDigits_toDigits n c (hchars ▸ List.mem_cons_self)
    exact ⟨c, rest, hchars, solid_of_number (.inr hdigit)⟩
  | float x =>
    cases hx : x.isFinite with
    | true =>
      obtain ⟨c, rest, hchars, hc⟩ :=
        Numeral.exists_cons (isDouble_doubleNumeral hx) (Decimal.isNegative x)
      exact ⟨c, rest, (writtenFloat_of_isFinite hx).trans hchars, solid_of_number hc⟩
    | false =>
      rw [writtenFloat, isNaN_or_isInf, hx, Bool.not_false, if_pos rfl]
      exact ⟨'n', _, rfl, by decide, by decide⟩
  | text s => exact ⟨'"', _, rfl, by decide, by decide⟩
  | list _ => exact ⟨'[', _, rfl, by decide, by decide⟩
  | object _ => exact ⟨'\x7b', _, rfl, by decide, by decide⟩

end Document

/-! ## The order of members -/

namespace Document

mutual

/-- The documents are the same, but for the order of the members in each of their objects. -/
inductive Rearranged : Document → Document → Prop
  | null : Rearranged null null
  | natural (n : Nat) : Rearranged (natural n) (natural n)
  | float (x : Float) : Rearranged (float x) (float x)
  | text (s : String) : Rearranged (text s) (text s)
  | list {ds es : List Document} (h : List.Forall₂ Rearranged ds es) :
      Rearranged (list ds) (list es)
  | object {ms ns ns' : List (String × Document)} (h : List.Forall₂ RearrangedMember ms ns)
      (hperm : ns.Perm ns') : Rearranged (object ms) (object ns')

/-- The members have the same key, and their values are the same but for such an order. -/
inductive RearrangedMember : String × Document → String × Document → Prop
  | mk {d e : Document} (key : String) (h : Rearranged d e) : RearrangedMember (key, d) (key, e)

end

theorem Rearranged.eq_text {s : String} {d : Document} : (Document.text s).Rearranged d →
    d = .text s
  | .text _ => rfl

theorem Rearranged.eq_float {x : Float} {d : Document} : (Document.float x).Rearranged d →
    d = .float x
  | .float _ => rfl

mutual

theorem Rearranged.refl : ∀ d : Document, d.Rearranged d
  | .null => .null
  | .natural n => .natural n
  | .float x => .float x
  | .text s => .text s
  | .list items => .list (Rearranged.refl_items items)
  | .object members => .object (Rearranged.refl_members members) (List.Perm.refl _)

theorem Rearranged.refl_items : ∀ items, List.Forall₂ Rearranged items items
  | [] => .nil
  | d :: rest => .cons (Rearranged.refl d) (Rearranged.refl_items rest)

theorem Rearranged.refl_members : ∀ members, List.Forall₂ RearrangedMember members members
  | [] => .nil
  | (key, d) :: rest => .cons (.mk key (Rearranged.refl d)) (Rearranged.refl_members rest)

end

end Document

/-! ## Readers of documents -/

/-- The reader comes to the result from every text of the document, wherever the text stands. -/
def Reads {α : Type} (p : Reader α) (d : Document) (result : Except Fault α) : Prop :=
  ∀ cs, d.Lays cs → Gives p cs result

namespace Reads

variable {α β : Type} {p : Reader α} {d : Document} {result : Except Fault α}

protected theorem map (h : Reads p d result) (g : α → β) : Reads (g <$> p) d (result.map g) :=
  fun cs hcs => (h cs hcs).map g

theorem text {p : Reader α} {s : String} (h : Gives p (writtenText s) result) :
    Reads p (.text s) result
  | _, .text _ => h

theorem natural {n : Nat} (h : Gives p (Nat.toDigits 10 n) result) : Reads p (.natural n) result
  | _, .natural _ => h

theorem float {x : Float} (h : Gives p (writtenFloat x) result) : Reads p (.float x) result
  | _, .float _ => h

theorem null (h : Gives p "null".toList result) : Reads p .null result
  | _, .null => h

end Reads

/-- A double whose text is read as it was written is read so in every document. -/
theorem reads_float {x : Float} (h : readBack x = .ok x) :
    Reads Reader.float (.float x) (.ok x) := by
  have hgives := gives_float x
  rw [h] at hgives
  exact .float hgives

namespace Reader

variable {n : Nat} {rest : List Char} {first : Bool} {lead blanks : List Char}

/-- A list has another element behind the lead of it. -/
theorem hasElement_lead (hlead : IsLead first lead) {c : Char} (hc : isBlank c = false)
    (hne : c ≠ ']') : hasElement first n (lead ++ c :: rest) = .ok (true, c :: rest) := by
  cases hlead with
  | first hblanks =>
    rw [hasElement, bind_of_ok (peekSolid?_blanks hblanks hc _)]
    simp only [hne, if_false, if_true]
    rfl
  | next hbefore hafter =>
    rw [List.append_assoc, List.cons_append, hasElement,
      bind_of_ok (peekSolid?_blanks hbefore (by decide) _)]
    show (drop >>= fun _ => _ : Reader Bool) n _ = _
    rw [bind_of_ok (drop_apply ..), List.tail_cons, bind_of_ok (peekSolid?_blanks hafter hc _)]
    simp

theorem hasElement_close (hblanks : IsBlanks blanks) :
    hasElement first n (blanks ++ ']' :: rest) = .ok (false, ']' :: rest) := by
  rw [hasElement, bind_of_ok (peekSolid?_blanks hblanks (by decide) _)]
  rfl

/-- An object has another member behind the lead of it, and its opening quote is taken. -/
theorem hasMember_lead (hlead : IsLead first lead) :
    hasMember first n (lead ++ '"' :: rest) = .ok (true, rest) := by
  cases hlead with
  | first hblanks =>
    rw [hasMember, bind_of_ok (peekSolid?_blanks hblanks (by decide) _)]
    rfl
  | next hbefore hafter =>
    rw [List.append_assoc, List.cons_append, hasMember,
      bind_of_ok (peekSolid?_blanks hbefore (by decide) _)]
    show (drop >>= fun _ => _ : Reader Bool) n _ = _
    rw [bind_of_ok (drop_apply ..), List.tail_cons,
      bind_of_ok (peekSolid?_blanks hafter (by decide) _)]
    rfl

theorem hasMember_close (hblanks : IsBlanks blanks) :
    hasMember first n (blanks ++ '\x7d' :: rest) = .ok (false, '\x7d' :: rest) := by
  rw [hasMember, bind_of_ok (peekSolid?_blanks hblanks (by decide) _)]
  rfl

theorem colon_blanks (hblanks : IsBlanks blanks) :
    colon n (blanks ++ ':' :: rest) = .ok ((), rest) := by
  rw [colon, bind_of_ok (peekSolid?_blanks hblanks (by decide) _)]
  rfl

/-- The elements of a list are read one by one. -/
theorem elements_separated {α : Type} {item : Reader α} {ds : List Document} {xs : List α}
    (h : List.Forall₂ (fun d x => Reads item d (.ok x)) ds xs) {cs : List Char}
    (hcs : Separated Document.Lays ']' first ds cs) {fuel : Nat} (hfuel : ds.length < fuel)
    (hn : cs.length + rest.length < n) :
    elements item fuel first n (cs ++ rest) = .ok (xs, ']' :: rest) := by
  induction h generalizing first cs fuel with
  | nil =>
    obtain ⟨fuel, rfl⟩ := Nat.exists_eq_add_one_of_ne_zero (Nat.ne_zero_of_lt hfuel)
    cases hcs with
    | nil hblanks =>
      rw [elements, List.append_assoc, List.singleton_append, bind_of_ok (hasElement_close hblanks)]
      rfl
  | cons hread _ ih =>
    obtain ⟨fuel, rfl⟩ := Nat.exists_eq_add_one_of_ne_zero (Nat.ne_zero_of_lt hfuel)
    cases hcs with
    | @cons _ _ _ lead text tail hlead htext htail =>
      simp only [List.length_cons, List.length_append] at hfuel hn
      obtain ⟨c, body, rfl, hsolid, hne⟩ := htext.exists_cons
      have helement := hread _ htext n [] (tail ++ rest) isBlanks_nil
        (by simp only [List.length_append]; omega) (htail.stops (by decide) rest)
      have hrest := ih htail (Nat.lt_of_succ_lt_succ hfuel) (by omega)
      rw [elements, List.append_assoc, List.append_assoc, List.cons_append,
        bind_of_ok (hasElement_lead hlead hsolid hne), if_pos rfl]
      rw [List.nil_append, List.cons_append] at helement
      rw [bind_of_ok helement, bind_of_ok hrest]
      rfl

end Reader

/-- What stands between brackets is read from behind the opening one. -/
theorem gives_bracket {α : Type} {go : Char → Reader α} {inner : Nat → Reader α} {opening : Char}
    {cs : List Char} {result : Except Fault α} (hopening : isBlank opening = false)
    (hgo : go opening = Reader.drop >>= fun _ => Reader.bound >>= inner)
    (hinner : ∀ n rest, cs.length + rest.length < n →
      inner n n (cs ++ rest) = result.map (·, rest)) :
    Gives (Reader.onSolid go) (opening :: cs) result := by
  intro n blanks rest hblanks hn _
  rw [List.length_cons] at hn
  rw [List.cons_append, Reader.onSolid_blanks _ hblanks hopening, hgo,
    Reader.bind_of_ok (Reader.drop_apply ..), List.tail_cons,
    Reader.bind_of_ok (Reader.bound_apply ..), hinner n rest (by omega)]

/-- A list is read as its elements are. -/
theorem Reads.list {α : Type} {item : Nested α} {depth : Nat} {ds : List Document} {xs : List α}
    (h : List.Forall₂ (fun d x => Reads (item depth) d (.ok x)) ds xs) :
    Reads (Reader.list item (depth + 1)) (.list ds) (.ok xs)
  | _, .list hitems => gives_bracket (by decide) rfl fun n rest hn => by
    have hlength := hitems.length_le
    have helements := Reader.elements_separated h hitems (show _ < n by omega) hn
    exact Reader.bind_of_ok helements _

end Downbeat.Json
