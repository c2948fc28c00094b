import Downbeat.Proofs.Json.Layout

/-!
# Reading the members of a record

A record is read from an object member by member, each value into the draft of the record. What
the members of an object do to a draft is told by `Record.Takes`, and a record is read from the
object as its members say (`Record.Takes.reads`), whatever blanks are between the parts. The members
may come in any order, if each of them does to the draft what it does in every other order
(`Record.Takes.of_parts`).
-/

namespace Downbeat.Json

open Document

/-! ## One member -/

/-- A member is read as its key, a colon and its value, and another part of the object follows. -/
theorem Separated.member {key : String} {d : Document} {ms : List (String × Document)} {first : Bool}
    {cs rest : List Char} {n : Nat} (h : Separated LaysMember '\x7d' first ((key, d) :: ms) cs)
    (hn : cs.length + rest.length < n) :
    ∃ quoted behind value tail, Separated LaysMember '\x7d' false ms tail ∧ tail.length < cs.length ∧
      Reader.hasMember first n (cs ++ rest) = .ok (true, quoted) ∧
      StringLiteral.read n quoted = .ok (key, behind) ∧
      Reader.colon n behind = .ok ((), value) ∧
      ∀ (α : Type) (p : Reader α) (result : Except Fault α), Reads p d result →
        p n value = result.map (·, tail ++ rest) := by
  cases h with
  | @cons _ _ _ lead text tail hlead htext htail =>
    cases htext with
    | @mk _ _ before after body hbefore hafter hvalue =>
      have hmember : Reader.hasMember first n
          (lead ++ (writtenText key ++ (before ++ ':' :: (after ++ body)) ++ tail) ++ rest) =
            .ok (true, key.toList.flatMap writtenChar ++
              '"' :: (before ++ ':' :: (after ++ (body ++ (tail ++ rest))))) := by
        simpa [writtenText] using Reader.hasMember_lead hlead
      simp only [List.length_cons, List.length_append] at hn ⊢
      refine ⟨_, _, _, tail, htail, ?_, hmember, StringLiteral.read_apply key (by omega),
        Reader.colon_blanks hbefore, ?_⟩
      · omega
      · intro α p result hread
        exact hread body hvalue n after _ hafter (by simp only [List.length_append]; omega)
          (htail.stops (by decide) rest)

/-! ## Records -/

namespace Record

open Reader

variable {σ α : Type}

/-- What reading the members of an object does to a draft. -/
inductive Takes (r : Record σ α) (depth : Nat) :
    σ → List (String × Document) → Except Fault σ → Prop
  | nil (draft : σ) : Takes r depth draft [] (.ok draft)
  | fault {draft : σ} {field : Field σ} {key : String} {d : Document}
      {ms : List (String × Document)} {f : Fault}
      (found : r.fields.find? (·.key == key) = some field) (fresh : field.given draft = false)
      (reads : Reads (field.read draft depth) d (.error f)) :
      Takes r depth draft ((key, d) :: ms) (.error f)
  | member {draft draft' : σ} {field : Field σ} {key : String} {d : Document}
      {ms : List (String × Document)} {result : Except Fault σ}
      (found : r.fields.find? (·.key == key) = some field) (fresh : field.given draft = false)
      (reads : Reads (field.read draft depth) d (.ok draft'))
      (rest : Takes r depth draft' ms result) :
      Takes r depth draft ((key, d) :: ms) result

variable {r : Record σ α} {depth n : Nat} {draft : σ} {rest : List Char}
  {ms : List (String × Document)} {result : Except Fault σ}

/-- The members of an object are read as they say. -/
theorem Takes.members_separated (h : Takes r depth draft ms result) {first : Bool} {cs : List Char}
    (hcs : Separated LaysMember '\x7d' first ms cs) {fuel : Nat} (hfuel : ms.length < fuel)
    (hn : cs.length + rest.length < n) :
    r.members depth fuel first draft n (cs ++ rest) = result.map (·, '\x7d' :: rest) := by
  induction h generalizing first cs fuel with
  | nil draft =>
    obtain ⟨fuel, rfl⟩ := Nat.exists_eq_add_one_of_ne_zero (Nat.ne_zero_of_lt hfuel)
    cases hcs with
    | nil hblanks =>
      rw [members, List.append_assoc, List.singleton_append, bind_of_ok (hasMember_close hblanks)]
      rfl
  | fault found fresh reads =>
    obtain ⟨fuel, rfl⟩ := Nat.exists_eq_add_one_of_ne_zero (Nat.ne_zero_of_lt hfuel)
    obtain ⟨_, _, _, _, -, -, hmember, hkey, hcolon, hvalue⟩ := hcs.member hn
    rw [members, bind_of_ok hmember, if_pos rfl, bind_of_ok hkey]
    simp only [found, fresh, Bool.false_eq_true, if_false]
    rw [bind_of_ok hcolon]
    exact bind_of_error (hvalue _ _ _ reads) _
  | member found fresh reads _ ih =>
    obtain ⟨fuel, rfl⟩ := Nat.exists_eq_add_one_of_ne_zero (Nat.ne_zero_of_lt hfuel)
    obtain ⟨_, _, _, tail, htail, hlt, hmember, hkey, hcolon, hvalue⟩ := hcs.member hn
    rw [members, bind_of_ok hmember, if_pos rfl, bind_of_ok hkey]
    simp only [found, fresh, Bool.false_eq_true, if_false]
    rw [bind_of_ok hcolon]
    refine (bind_of_ok (hvalue _ _ _ reads) _).trans ?_
    exact ih htail (Nat.lt_of_succ_lt_succ hfuel) (by omega)

/-- A record is read from an object as the members say. -/
theorem Takes.reads (h : Takes r depth r.blank ms result) :
    Reads (r.read (depth + 1)) (.object ms) (result.bind r.finish)
  | _, .object hmembers => gives_bracket (by decide) rfl fun n rest hn => by
    have hlength := hmembers.length_le
    have hread := h.members_separated hmembers (show _ < n by omega) hn
    cases result with
    | error f => exact bind_of_error hread _
    | ok draft =>
      refine (bind_of_ok hread _).trans ?_
      have hlift : lift (r.finish draft) n ('\x7d' :: rest) =
          (r.finish draft).map (·, '\x7d' :: rest) := rfl
      show _ = (r.finish draft).map (·, rest)
      cases hfinish : r.finish draft with
      | error f =>
        rw [hfinish] at hlift
        exact bind_of_error hlift _
      | ok x =>
        rw [hfinish] at hlift
        exact bind_of_ok hlift _

/-- A field is read into the draft, and then the fields that follow. -/
theorem Takes.make {β : Type} {key : String} {get : σ → Option β} {set : β → σ → σ}
    {value : Nested β} {opt : Bool} {d : Document} {x : Except Fault β}
    {next : β → Except Fault σ}
    (found : r.fields.find? (·.key == key) = some (Field.make key get set value opt))
    (fresh : get draft = none) (hvalue : Reads (value depth) d x)
    (rest : ∀ b, x = .ok b → Takes r depth (set b draft) ms (next b)) :
    Takes r depth draft ((key, d) :: ms) (x.bind next) := by
  have hgiven : (Field.make key get set value opt).given draft = false := by
    simp [Field.make, fresh]
  have hread : Reads ((Field.make key get set value opt).read draft depth) d
      (x.map fun b => set b draft) := hvalue.map fun b => set b draft
  cases x with
  | error f => exact .fault found hgiven hread
  | ok b => exact .member found hgiven hread (rest b rfl)

/-- A field that is not in the draft is read into it. -/
theorem exists_make {β : Type} {key : String} {get : σ → Option β} {set : β → σ → σ}
    {value : Nested β} {opt : Bool} {d : Document} {b : β} {draft' : σ}
    (found : r.fields.find? (·.key == key) = some (Field.make key get set value opt))
    (fresh : get draft = none) (hvalue : Reads (value depth) d (.ok b))
    (hset : set b draft = draft') :
    ∃ field, r.fields.find? (·.key == key) = some field ∧ field.given draft = false ∧
      Reads (field.read draft depth) d (.ok draft') := by
  refine ⟨_, found, by simp [Field.make, fresh], ?_⟩
  rw [← hset]
  exact hvalue.map fun b => set b draft

/-- The members may come in any order, as long as no key comes twice. `parts keys` is the draft that
has the fields of these keys. -/
theorem Takes.of_parts {parts : List String → σ} {keys : List String}
    (step : ∀ m ∈ ms, ∀ keys, m.1 ∉ keys → ∃ field, r.fields.find? (·.key == m.1) = some field ∧
      field.given (parts keys) = false ∧
        Reads (field.read (parts keys) depth) m.2 (.ok (parts (m.1 :: keys))))
    (hdistinct : (ms.map Prod.fst).Nodup) (hkeys : ∀ m ∈ ms, m.1 ∉ keys) :
    Takes r depth (parts keys) ms (.ok (parts ((ms.map Prod.fst).reverse ++ keys))) := by
  induction ms generalizing keys with
  | nil => exact .nil _
  | cons m ms ih =>
    obtain ⟨hm, hms⟩ := List.nodup_cons.1 hdistinct
    obtain ⟨field, found, fresh, reads⟩ :=
      step m List.mem_cons_self keys (hkeys m List.mem_cons_self)
    have hother : ∀ m' ∈ ms, m'.1 ∉ m.1 :: keys := fun m' hm' =>
      List.not_mem_cons_of_ne_of_not_mem (fun heq => hm (heq ▸ List.mem_map_of_mem hm'))
        (hkeys m' (List.mem_cons_of_mem _ hm'))
    have hmore := ih (fun m' hm' => step m' (List.mem_cons_of_mem _ hm')) hms hother
    rw [List.map_cons, List.reverse_cons, List.append_assoc, List.singleton_append]
    exact .member found fresh reads hmore

end Record

end Downbeat.Json
