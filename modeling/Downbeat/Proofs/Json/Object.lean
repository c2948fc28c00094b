import Downbeat.Proofs.Json.Members
import Downbeat.Proofs.Json.WellFormed

/-!
# Objects with any members

An object is told by its members, the keys and the texts of their values, in order (`IsObject`). A
record is read from every object that has each known key at most once, whatever else it has, as long
as the texts of the known keys are read where they stand and the other texts are JSON
(`Record.stands_of_parts`).
-/

namespace Downbeat.Json

/-! ## Members -/

/-- A key that comes once does not come again. -/
theorem not_mem_of_count_le_one {key : String} {keys : List String}
    (h : (key :: keys).count key ≤ 1) : key ∉ keys := by
  rw [List.count_cons_self] at h
  exact List.count_eq_zero.1 (by omega)

/-- The text is one of a key, a colon and the text of a value. -/
def IsMember (m : String × List Char) (cs : List Char) : Prop :=
  ∃ quoted, ParsesTo Reader.text quoted m.1 ∧ cs = quoted ++ ':' :: m.2

/-- The text is an object with the members, in order. -/
def IsObject (ms : List (String × List Char)) (text : List Char) : Prop :=
  ∃ before cs after, IsBlanks before ∧ Separated IsMember '\x7d' true ms cs ∧ IsBlanks after ∧
    text = before ++ '\x7b' :: (cs ++ after)

/-- A string stands between its quotes, but for blanks. -/
theorem exists_literal {quoted : List Char} {key : String} (h : ParsesTo Reader.text quoted key) :
    ∃ before literal after, IsBlanks before ∧ IsBlanks after ∧
      quoted = before ++ '"' :: (literal ++ after) ∧
      ∀ n more, literal.length ≤ n → StringLiteral.read n (literal ++ more) = .ok (key, more) := by
  obtain ⟨after, hafter, hread⟩ := parsesTo_iff.1 h
  obtain ⟨before, c, cs, hbefore, -, rfl, hread⟩ := Reader.exists_of_peekSolid? (.fail _) hread
  by_cases hc : c = '"'
  · subst hc
    obtain ⟨literal, rfl, hliteral⟩ := StringLiteral.exists_of_read hread
    exact ⟨before, literal, after, hbefore, hafter, rfl, hliteral⟩
  · change (if c = '"' then _ else Reader.mismatch _ : Reader String) _ _ = _ at hread
    rw [if_neg hc] at hread
    exact absurd hread (Fails.mismatch _ _ _ _)

namespace IsLead

variable {first : Bool} {lead blanks : List Char}

theorem blanks_append (hblanks : IsBlanks blanks) (h : IsLead first lead) :
    IsLead first (blanks ++ lead) := by
  cases h with
  | first hlead => exact .first (hblanks.append hlead)
  | next hbefore hafter =>
    rw [← List.append_assoc]
    exact .next (hblanks.append hbefore) hafter

theorem append_blanks (h : IsLead first lead) (hblanks : IsBlanks blanks) :
    IsLead first (lead ++ blanks) := by
  cases h with
  | first hlead => exact .first (hlead.append hblanks)
  | next hbefore hafter =>
    rw [List.append_assoc, List.cons_append]
    exact .next hbefore (hafter.append hblanks)

end IsLead

namespace Separated

variable {α : Type} {part : α → List Char → Prop} {closing : Char} {xs : List α} {first : Bool}
  {cs blanks : List Char}

/-- Blanks before a part are part of the layout. -/
theorem blanks_append (hblanks : IsBlanks blanks) (h : Separated part closing first xs cs) :
    Separated part closing first xs (blanks ++ cs) := by
  cases h with
  | nil hlast =>
    rw [← List.append_assoc]
    exact .nil (hblanks.append hlast)
  | cons hlead htext htail =>
    rw [← List.append_assoc]
    exact .cons (hlead.blanks_append hblanks) htext htail

/-- Where a part ends, a value may end. -/
theorem closes (h : Separated part closing false xs cs) (hclosing : closing ∈ closers)
    (rest : List Char) : Closes (cs ++ rest) := by
  cases h with
  | nil hblanks =>
    rw [List.append_assoc]
    exact (closes_cons hclosing _).append hblanks
  | cons hlead _ _ =>
    cases hlead with
    | next hbefore _ =>
      rw [List.append_assoc, List.append_assoc]
      exact (closes_cons (by simp [closers]) _).append hbefore

/-- A member is read as its key and a colon, and then comes the text of its value. -/
theorem read_member {m : String × List Char} {ms : List (String × List Char)} {rest : List Char}
    {n : Nat} (h : Separated IsMember '\x7d' first (m :: ms) cs)
    (hn : cs.length + rest.length < n) :
    ∃ quoted behind tail, Separated IsMember '\x7d' false ms tail ∧
      m.2.length + tail.length < cs.length ∧
      Reader.hasMember first n (cs ++ rest) = .ok (true, quoted) ∧
      StringLiteral.read n quoted = .ok (m.1, behind) ∧
      Reader.colon n behind = .ok ((), m.2 ++ (tail ++ rest)) := by
  cases h with
  | @cons _ _ _ lead text tail hlead htext htail =>
    obtain ⟨quoted, hkey, rfl⟩ := htext
    obtain ⟨before, literal, after, hbefore, hafter, rfl, hliteral⟩ := exists_literal hkey
    simp only [List.length_append, List.length_cons] at hn ⊢
    have hmember : Reader.hasMember first n (lead ++ before ++ '"' :: (literal ++
        (after ++ ':' :: (m.2 ++ (tail ++ rest))))) =
          .ok (true, literal ++ (after ++ ':' :: (m.2 ++ (tail ++ rest)))) :=
      Reader.hasMember_lead (hlead.append_blanks hbefore)
    refine ⟨_, _, tail, htail, ?_, ?_, hliteral n _ (by omega), Reader.colon_blanks hafter⟩
    · omega
    · simpa only [List.append_assoc, List.cons_append] using hmember

end Separated

/-! ## Records -/

namespace Record

open Reader

variable {σ α : Type} {r : Record σ α} {depth : Nat} {parts : List String → σ}
  {ms : List (String × List Char)}

/-- Every member does to the draft what `parts` tells, where `parts keys` is the draft that has the
fields of these keys. A known key comes once, and its text is read where it stands. Under any other
key there is JSON. -/
structure Accepts (r : Record σ α) (depth : Nat) (parts : List String → σ)
    (ms : List (String × List Char)) : Prop where
  once : ∀ field ∈ r.fields, (ms.map Prod.fst).count field.key ≤ 1
  known : ∀ field ∈ r.fields, ∀ text, (field.key, text) ∈ ms → ∀ keys, field.key ∉ keys →
    field.given (parts keys) = false ∧
      Stands (field.read (parts keys) depth) text (parts (field.key :: keys))
  other : ∀ m ∈ ms, (∀ field ∈ r.fields, field.key ≠ m.1) →
    IsJson m.2 ∧ ∀ keys, parts (m.1 :: keys) = parts keys

namespace Accepts

variable {m : String × List Char}

theorem tail (h : r.Accepts depth parts (m :: ms)) : r.Accepts depth parts ms where
  once field hfield := Nat.le_trans (List.count_le_count_cons ..) (h.once field hfield)
  known field hfield text htext := h.known field hfield text (List.mem_cons_of_mem _ htext)
  other m' hm' := h.other m' (List.mem_cons_of_mem _ hm')

/-- A known key does not come again. -/
theorem not_mem_tail (h : r.Accepts depth parts (m :: ms)) {field : Field σ}
    (hfield : field ∈ r.fields) (hkey : field.key = m.1) : field.key ∉ ms.map Prod.fst := by
  have honce := h.once field hfield
  rw [hkey] at honce ⊢
  exact not_mem_of_count_le_one honce

/-- The members of an object are read one by one. -/
theorem members_separated (h : r.Accepts depth parts ms) {first : Bool} {cs rest : List Char}
    {keys : List String} {fuel n : Nat}
    (hkeys : ∀ field ∈ r.fields, field.key ∈ ms.map Prod.fst → field.key ∉ keys)
    (hcs : Separated IsMember '\x7d' first ms cs) (hfuel : ms.length < fuel)
    (hn : cs.length + rest.length < n) :
    r.members depth fuel first (parts keys) n (cs ++ rest) =
      .ok (parts ((ms.map Prod.fst).reverse ++ keys), '\x7d' :: rest) := by
  induction ms generalizing first cs keys fuel with
  | nil =>
    obtain ⟨fuel, rfl⟩ := Nat.exists_eq_add_one_of_ne_zero (Nat.ne_zero_of_lt hfuel)
    cases hcs with
    | nil hblanks =>
      rw [members, List.append_assoc, List.singleton_append, bind_of_ok (hasMember_close hblanks)]
      rfl
  | cons m ms ih =>
    obtain ⟨fuel, rfl⟩ := Nat.exists_eq_add_one_of_ne_zero (Nat.ne_zero_of_lt hfuel)
    obtain ⟨quoted, behind, tail, htail, hlt, hmember, hkey, hcolon⟩ := hcs.read_member hn
    have hcloses : Closes (tail ++ rest) := htail.closes (by simp [closers]) rest
    have hrest : ∀ blanks, IsBlanks blanks → blanks.length ≤ m.2.length →
        r.members depth fuel false (parts (m.1 :: keys)) n (blanks ++ (tail ++ rest)) =
          .ok (parts (((m :: ms).map Prod.fst).reverse ++ keys), '\x7d' :: rest) := by
      intro blanks hblanks hlength
      have hfresh : ∀ field ∈ r.fields, field.key ∈ ms.map Prod.fst → field.key ∉ m.1 :: keys := by
        intro field hfield hmem hcons
        rcases List.mem_cons.1 hcons with heq | hold
        · exact h.not_mem_tail hfield heq hmem
        · exact hkeys field hfield (List.mem_cons_of_mem _ hmem) hold
      have hread := ih h.tail hfresh (htail.blanks_append hblanks)
        (Nat.lt_of_succ_lt_succ hfuel) (by rw [List.length_append]; omega)
      rw [List.append_assoc] at hread
      rw [hread, List.map_cons, List.reverse_cons, List.append_assoc, List.singleton_append]
    rw [members, bind_of_ok hmember, if_pos rfl, bind_of_ok hkey]
    cases hfind : r.fields.find? (·.key == m.1) with
    | some field =>
      have hfield : field ∈ r.fields := List.mem_of_find?_eq_some hfind
      have heq : field.key = m.1 := by simpa using List.find?_some hfind
      have hfresh : field.key ∉ keys :=
        hkeys field hfield (by rw [heq, List.map_cons]; exact List.mem_cons_self)
      obtain ⟨hgiven, used, blanks, htext, hblanks, hread⟩ :=
        h.known field hfield m.2 (by rw [heq]; exact List.mem_cons_self) keys hfresh
      have hvalue := hread n (tail ++ rest) (by rw [List.length_append]; omega) hcloses
      simp only [hgiven, Bool.false_eq_true, if_false]
      rw [bind_of_ok hcolon, bind_of_ok hvalue, heq]
      exact hrest blanks hblanks (by rw [htext, List.length_append]; omega)
    | none =>
      have hother : ∀ field ∈ r.fields, field.key ≠ m.1 := by
        simpa using List.find?_eq_none.1 hfind
      obtain ⟨hjson, hsame⟩ := h.other m List.mem_cons_self hother
      obtain ⟨used, blanks, htext, hblanks, hread⟩ := hjson.stands
      have hvalue := hread n (tail ++ rest) (by rw [List.length_append]; omega) hcloses
      show (colon >>= fun _ => Skip.value >>= fun _ => r.members depth fuel false (parts keys)) n
        behind = _
      rw [bind_of_ok hcolon, bind_of_ok hvalue, ← hsame keys]
      exact hrest blanks hblanks (by rw [htext, List.length_append]; omega)

end Accepts

/-- A record is read from an object, of which it takes what it knows. -/
theorem stands_of_accepts (parts : List String → σ) {text : List Char} {x : α}
    (hobject : IsObject ms text) (h : r.Accepts depth parts ms) (hblank : parts [] = r.blank)
    (hfinish : r.finish (parts (ms.map Prod.fst).reverse) = .ok x) :
    Stands (r.read (depth + 1)) text x := by
  obtain ⟨before, cs, after, hbefore, hcs, hafter, rfl⟩ := hobject
  refine ⟨before ++ '\x7b' :: cs, after, by simp, hafter, fun n rest hn hrest => ?_⟩
  simp only [List.length_append, List.length_cons] at hn
  have hlength := hcs.length_le
  have hmembers : r.members depth n true (parts []) n (cs ++ (after ++ rest)) =
      .ok (parts ((ms.map Prod.fst).reverse ++ []), '\x7d' :: (after ++ rest)) :=
    h.members_separated (fun _ _ _ => List.not_mem_nil) hcs (by omega)
      (by rw [List.length_append]; omega)
  rw [hblank, List.append_nil] at hmembers
  have hlift : lift (r.finish (parts (ms.map Prod.fst).reverse)) n ('\x7d' :: (after ++ rest)) =
      .ok (x, '\x7d' :: (after ++ rest)) := by
    rw [hfinish]
    rfl
  rw [List.append_assoc, List.cons_append, List.append_assoc, read,
    onSolid_blanks _ hbefore (by decide)]
  show (r.members depth n true r.blank >>= fun draft => lift (r.finish draft) >>= fun x =>
    closeObject >>= fun _ => pure x : Reader α) n (cs ++ (after ++ rest)) = _
  rw [bind_of_ok hmembers, bind_of_ok hlift]
  rfl

end Record

end Downbeat.Json
