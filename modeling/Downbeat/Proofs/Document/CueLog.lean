import Downbeat.Document.Cue
import Downbeat.Proofs.Json.Faithful
import Downbeat.Proofs.Json.Members

/-!
# Logs that are written and read again

What fired is read again from a log just as it was, whatever characters its strings have and
wherever the tag of a cue stands in its object, as long as its doubles are read as they were
written (`Firing.document_readLog`).

The parts of a kind are held back until the tag is known, so they are read twice : from the text
into held values (`Held.reads_text`, `Held.reads_float`), and then by the form that the tag tells
(`Cue.Kind.exists_form`).
-/

namespace Downbeat

open Json

/-! ## Values held back -/

namespace Json.Held

variable {ifList ifObject : Reader Held}

theorem gives_text (s : String) :
    Gives (readWith ifList ifObject) (writtenText s) (.ok (.text s)) := by
  intro n blanks rest hblanks hn _
  rw [writtenText, List.cons_append, List.append_assoc, List.singleton_append, readWith,
    Reader.onSolid_blanks _ hblanks (by decide)]
  show (Reader.drop >>= fun _ => text <$> StringLiteral.read : Reader Held) n _ = _
  rw [Reader.bind_of_ok (Reader.drop_apply ..), List.tail_cons, Reader.map_apply,
    StringLiteral.read_apply s (by omega)]
  rfl

theorem gives_number {c : Char} (hc : c = '-' ∨ c.isDigit = true) {n : ℕ} {blanks : List Char}
    (hblanks : IsBlanks blanks) (cs : List Char) :
    readWith ifList ifObject n (blanks ++ c :: cs) = (number <$> Number.read) n (c :: cs) := by
  have hne : ∀ d, d ≠ '-' → d.isDigit = false → c ≠ d := by
    rintro d hminus hdigit rfl
    rcases hc with hc | hc
    · exact hminus hc
    · exact absurd hc (by rw [hdigit]; decide)
  rw [readWith, Reader.onSolid_blanks _ hblanks (Document.solid_of_number hc).1,
    if_neg (hne 'n' (by decide) (by decide)), if_neg (hne 't' (by decide) (by decide)),
    if_neg (hne 'f' (by decide) (by decide)), if_neg (hne '"' (by decide) (by decide)),
    if_pos (by simpa using hc)]

theorem gives_float {x : Float} (hx : x.isFinite = true) : Gives (readWith ifList ifObject)
    (writtenFloat x) ((readBack x).map fun y => .number (.floating y)) := by
  intro n blanks rest hblanks _ hrest
  have hread := read_writtenFloat hx (n := n) hrest
  obtain ⟨c, cs, hchars, hc⟩ :=
    Numeral.exists_cons (isDouble_doubleNumeral hx) (Decimal.isNegative x)
  rw [writtenFloat_of_isFinite hx, hchars] at hread ⊢
  rw [List.cons_append, gives_number hc hblanks, Reader.map_apply, ← List.cons_append, hread]
  cases readBack x <;> rfl

theorem reads_text (depth : ℕ) (s : String) :
    Reads (Held.read depth) (.text s) (.ok (.text s)) := by
  cases depth with
  | zero => exact .text (gives_text s)
  | succ depth => exact .text (gives_text s)

/-- A double is held as the number that its own text is read as. -/
theorem reads_float (depth : ℕ) {x : Float} (hx : readBack x = .ok x) :
    Reads (Held.read depth) (.float x) (.ok (.number (.floating x))) := by
  have hfin : x.isFinite = true := by
    by_contra hnot
    rw [readBack_of_gives (gives_float_of_not_isFinite (by simpa using hnot))] at hx
    cases hx
  have hgives : ∀ ifList ifObject : Reader Held, Gives (readWith ifList ifObject) (writtenFloat x)
      (.ok (.number (.floating x))) := by
    intro ifList ifObject
    have h : Gives (readWith ifList ifObject) (writtenFloat x)
        ((readBack x).map fun y => .number (.floating y)) := gives_float hfin
    rwa [hx] at h
  cases depth with
  | zero => exact .float (hgives _ _)
  | succ depth => exact .float (hgives _ _)

end Json.Held

/-! ## Kinds -/

/-- A name is read as what it names. -/
theorem reads_name {α : Type} {known : List (String × α)} {s t : String} {x : α}
    (h : known.find? (·.1 == s) = some (t, x)) : Reads (Reader.name known) (.text s) (.ok x) := by
  refine .text fun n blanks rest hblanks hn hrest => ?_
  rw [Reader.name, Reader.bind_of_ok (gives_textAs _ s n blanks rest hblanks hn hrest), h]
  rfl

namespace Cue.Kind

open Document (Rearranged RearrangedMember LaysMember)

/-- What is gathered from the members of an object : the form of the tag, and the members beside
it. -/
inductive Gathers (depth : ℕ) :
    Option Form → List (String × Document) → Form → List (String × Held) → Prop
  | nil (form : Form) : Gathers depth (some form) [] form []
  | tag {tag name : String} {form form' : Form} {ms : List (String × Document)}
      {held : List (String × Held)} (known : forms.find? (·.1 == tag) = some (name, form))
      (rest : Gathers depth (some form) ms form' held) :
      Gathers depth none ((tagKey, .text tag) :: ms) form' held
  | member {form? : Option Form} {form : Form} {key : String} {d : Document} {x : Held}
      {ms : List (String × Document)} {held : List (String × Held)} (hkey : key ≠ tagKey)
      (reads : Reads (Held.read depth) d (.ok x)) (rest : Gathers depth form? ms form held) :
      Gathers depth form? ((key, d) :: ms) form ((key, x) :: held)

variable {depth n : ℕ} {form : Form} {ms : List (String × Document)} {held : List (String × Held)}

theorem Gathers.members_separated {form? : Option Form} (h : Gathers depth form? ms form held)
    {first : Bool} {cs rest : List Char} (hcs : Separated LaysMember '\x7d' first ms cs) {fuel : ℕ}
    (hfuel : ms.length < fuel) (hn : cs.length + rest.length < n) :
    members (Held.read depth) fuel first form? n (cs ++ rest) =
      .ok ((form, held), '\x7d' :: rest) := by
  induction h generalizing first cs fuel with
  | nil form =>
    obtain ⟨fuel, rfl⟩ := Nat.exists_eq_add_one_of_ne_zero (Nat.ne_zero_of_lt hfuel)
    cases hcs with
    | nil hblanks =>
      rw [members, List.append_assoc, List.singleton_append,
        Reader.bind_of_ok (Reader.hasMember_close hblanks)]
      rfl
  | tag known _ ih =>
    obtain ⟨fuel, rfl⟩ := Nat.exists_eq_add_one_of_ne_zero (Nat.ne_zero_of_lt hfuel)
    obtain ⟨_, _, _, tail, htail, hlt, hmember, hkey, hcolon, hvalue⟩ := hcs.member hn
    rw [members, Reader.bind_of_ok hmember, if_pos rfl, Reader.bind_of_ok hkey, if_pos rfl,
      if_neg (by simp), Reader.bind_of_ok hcolon]
    refine (Reader.bind_of_ok (hvalue _ _ _ (reads_name known)) _).trans ?_
    exact ih htail (Nat.lt_of_succ_lt_succ hfuel) (by omega)
  | @member form? _ _ _ _ _ _ hne reads _ ih =>
    obtain ⟨fuel, rfl⟩ := Nat.exists_eq_add_one_of_ne_zero (Nat.ne_zero_of_lt hfuel)
    obtain ⟨_, _, _, tail, htail, hlt, hmember, hkey, hcolon, hvalue⟩ := hcs.member hn
    have hrest := ih htail (Nat.lt_of_succ_lt_succ hfuel) (by omega)
    -- whether the tag has come or not, the value is held back
    cases form?
    all_goals
      rw [members, Reader.bind_of_ok hmember, if_pos rfl, Reader.bind_of_ok hkey, if_neg hne,
        Reader.bind_of_ok hcolon]
      refine (Reader.bind_of_ok (hvalue _ _ _ reads) _).trans ?_
      exact Reader.bind_of_ok hrest _

/-- A kind is read from an object as its form takes it from what is held. -/
theorem Gathers.reads (h : Gathers depth none ms form held) :
    Reads (read (depth + 1)) (.object ms) (form.ofMembers none held)
  | _, .object hmembers => gives_bracket (by decide) rfl fun n rest hn => by
    have hlength := hmembers.length_le
    have hread := h.members_separated hmembers (show _ < n by omega) hn
    exact Reader.bind_of_ok hread _

/-- The doubles of a kind, as they are written. -/
def doubles : Kind → List Float
  | camera zoom => [zoom]
  | _ => []

/-- A kind is written with its tag and one member beside it, of which its form takes it again. -/
theorem exists_form (k : Kind) (hk : ∀ x ∈ k.doubles, readBack x = .ok x) :
    ∃ tag form d held, forms.find? (·.1 == tag) = some (tag, form) ∧ form.field ≠ tagKey ∧
      k.document = .object [(tagKey, .text tag), (form.field, d)] ∧ (∀ e, Rearranged d e → e = d) ∧
      (∀ depth, Reads (Held.read depth) d (.ok held)) ∧ form.read held = .ok k := by
  cases k with
  | stem name =>
    exact ⟨"music_stem", _, _, _, rfl, by decide, rfl, fun _ => Rearranged.eq_text,
      fun _ => Held.reads_text _ name, rfl⟩
  | spawn pattern =>
    exact ⟨"spawn", _, _, _, rfl, by decide, rfl, fun _ => Rearranged.eq_text,
      fun _ => Held.reads_text _ pattern, rfl⟩
  | camera zoom =>
    have hzoom := hk zoom (List.mem_singleton_self _)
    exact ⟨"camera", _, _, _, rfl, by decide, rfl, fun _ => Rearranged.eq_float,
      fun _ => Held.reads_float _ hzoom, rfl⟩
  | lights color =>
    exact ⟨"lighting", _, _, _, rfl, by decide, rfl, fun _ => Rearranged.eq_text,
      fun _ => Held.reads_text _ color, rfl⟩

/-- A kind is read from its object, whichever of the two members comes first. -/
theorem reads_rearranged {k : Kind} (hk : ∀ x ∈ k.doubles, readBack x = .ok x) {d : Document}
    (hd : k.document.Rearranged d) (depth : ℕ) : Reads (read (depth + 1)) d (.ok k) := by
  obtain ⟨tag, form, value, held, known, hfield, hdocument, hsame, hread, hform⟩ := exists_form k hk
  rw [hdocument] at hd
  have hmembers : form.ofMembers none [(form.field, held)] = .ok k := by
    simp only [Form.ofMembers, if_true, hform]
    rfl
  cases hd with
  | object hforall hperm =>
    -- the value of either member is as it was
    obtain _ | ⟨⟨_, htag⟩, _ | ⟨⟨_, hvalue⟩, _ | _⟩⟩ := hforall
    obtain rfl := htag.eq_text
    obtain rfl := hsame _ hvalue
    rw [← hmembers]
    obtain rfl | rfl := List.pair_perm.1 hperm
    · exact Gathers.reads (.tag known (.member hfield (hread depth) (.nil form)))
    · exact Gathers.reads (.member hfield (hread depth) (.tag known (.nil form)))

end Cue.Kind

/-! ## Firings -/

namespace Firing

open Document (Rearranged)

/-- The doubles of a firing, as they are written. -/
def doubles (f : Firing) : List Float := f.scheduled :: f.fired :: f.kind.doubles

/-- The draft that has the fields of these keys. -/
def Draft.parts (f : Firing) (keys : List String) : Draft where
  label := if "label" ∈ keys then some f.label else none
  kind := if "kind" ∈ keys then some f.kind else none
  scheduled := if "scheduled_beat" ∈ keys then some f.scheduled else none
  fired := if "fired_beat" ∈ keys then some f.fired else none

/-- The members of a firing, with a document for its kind. -/
def members (f : Firing) (kind : Document) : List (String × Document) :=
  [("label", .text f.label), ("kind", kind), ("scheduled_beat", .float f.scheduled),
    ("fired_beat", .float f.fired)]

variable {f : Firing} {depth : ℕ}

/-- Each member is read into the draft that has any of the other fields. -/
theorem exists_field (hf : ∀ x ∈ f.doubles, readBack x = .ok x) {kind : Document}
    (hkind : Reads (Cue.Kind.read depth) kind (.ok f.kind)) {m : String × Document}
    (hm : m ∈ f.members kind) {keys : List String} (hkeys : m.1 ∉ keys) :
    ∃ field, record.fields.find? (·.key == m.1) = some field ∧
      field.given (Draft.parts f keys) = false ∧
        Reads (field.read (Draft.parts f keys) depth) m.2 (.ok (Draft.parts f (m.1 :: keys))) := by
  have hscheduled : readBack f.scheduled = .ok f.scheduled := hf _ List.mem_cons_self
  have hfired : readBack f.fired = .ok f.fired := hf _ (.tail _ List.mem_cons_self)
  simp only [members, List.mem_cons, List.not_mem_nil, or_false] at hm
  obtain rfl | rfl | rfl | rfl := hm
  · exact Record.exists_make rfl (if_neg hkeys) (.text (gives_text _)) (by simp [Draft.parts])
  · exact Record.exists_make rfl (if_neg hkeys) hkind (by simp [Draft.parts])
  · exact Record.exists_make rfl (if_neg hkeys) (reads_float hscheduled) (by simp [Draft.parts])
  · exact Record.exists_make rfl (if_neg hkeys) (reads_float hfired) (by simp [Draft.parts])

/-- The members are read into the draft of the firing in whatever order they come. -/
theorem takes_of_perm (hf : ∀ x ∈ f.doubles, readBack x = .ok x) {kind : Document}
    (hkind : Reads (Cue.Kind.read depth) kind (.ok f.kind)) {ms : List (String × Document)}
    (hperm : (f.members kind).Perm ms) : Record.Takes record depth record.blank ms
      (.ok ⟨some f.label, some f.kind, some f.scheduled, some f.fired⟩) := by
  have hkeys : ["label", "kind", "scheduled_beat", "fired_beat"].Perm (ms.map Prod.fst) :=
    hperm.map Prod.fst
  have htakes : Record.Takes record depth record.blank ms
      (.ok (Draft.parts f ((ms.map Prod.fst).reverse ++ []))) :=
    Record.Takes.of_parts (fun m hm _ => exists_field hf hkind (hperm.mem_iff.2 hm))
      (hkeys.nodup_iff.1 (by decide)) fun _ _ => List.not_mem_nil
  have hall : Draft.parts f ((ms.map Prod.fst).reverse ++ []) =
      ⟨some f.label, some f.kind, some f.scheduled, some f.fired⟩ := by
    simp [Draft.parts, ← hkeys.mem_iff]
  rwa [hall] at htakes

/-- A firing is read from its object, in whatever order its members and those of its kind come. -/
theorem reads_rearranged (hf : ∀ x ∈ f.doubles, readBack x = .ok x) {d : Document}
    (hd : f.document.Rearranged d) (depth : ℕ) : Reads (record.read (depth + 2)) d (.ok f) := by
  have hkind : ∀ x ∈ f.kind.doubles, readBack x = .ok x := fun x hx =>
    hf x (.tail _ (.tail _ hx))
  cases hd with
  | object hforall hperm =>
    obtain _ | ⟨⟨_, hlabel⟩, _ | ⟨⟨_, hd⟩, _ | ⟨⟨_, hfloat⟩, _ | ⟨⟨_, hfloat'⟩, _ | _⟩⟩⟩⟩ :=
      hforall
    obtain rfl := hlabel.eq_text
    obtain rfl := hfloat.eq_float
    obtain rfl := hfloat'.eq_float
    exact (takes_of_perm hf (Cue.Kind.reads_rearranged hkind hd depth) hperm).reads

theorem reads_logDocument {fs : List Firing} (hfs : ∀ f ∈ fs, ∀ x ∈ f.doubles, readBack x = .ok x)
    {d : Document} (hd : (logDocument fs).Rearranged d) : Reads (readLog maxDepth) d (.ok fs) := by
  cases hd with
  | list hforall =>
    have hfirings := (List.forall₂_and_left _ _).2 ⟨hfs, List.forall₂_map_left_iff.1 hforall⟩
    exact .list (hfirings.imp fun f e h => reads_rearranged h.1 h.2 _).flip

/-- What fired is read again as it was from the text of its log, on one line or on several, if each
of its doubles is read as it was written. It is read so as well when the members of the log, or
those of its kinds, stand in another order, and blanks are between them as may be. -/
theorem document_readLog {fs : List Firing} (hfs : ∀ f ∈ fs, ∀ x ∈ f.doubles, readBack x = .ok x) :
    Json.document readLog (logDocument fs).compact = .ok fs ∧
    Json.document readLog (logDocument fs).pretty = .ok fs ∧
    ∀ d, (logDocument fs).Rearranged d →
      Json.document readLog d.compact = .ok fs ∧ Json.document readLog d.pretty = .ok fs ∧
        ∀ source : String, d.Lays source.toList → Json.document readLog source = .ok fs := by
  have hlaid : ∀ d, (logDocument fs).Rearranged d → ∀ source : String, d.Lays source.toList →
      Json.document readLog source = .ok fs := fun _ hd _ hsource =>
    (reads_logDocument hfs hd _ hsource).document
  have hboth : ∀ d, (logDocument fs).Rearranged d →
      Json.document readLog d.compact = .ok fs ∧ Json.document readLog d.pretty = .ok fs := by
    intro d hd
    constructor
    · refine hlaid d hd _ ?_
      rw [Document.compact, String.toList_ofList]
      exact d.lays_compactChars
    · refine hlaid d hd _ ?_
      rw [Document.pretty, String.toList_ofList]
      exact d.lays_prettyChars 0
  obtain ⟨hcompact, hpretty⟩ := hboth _ (Rearranged.refl _)
  exact ⟨hcompact, hpretty, fun d hd => ⟨(hboth d hd).1, (hboth d hd).2, hlaid d hd⟩⟩

/-- A log with a cue of every kind, and with every kind of character. -/
def ornateLog : List Firing :=
  [⟨"\"Tür\" \\ 𝄞", .stem "\t\n\x00\x1f", 0.1, 1e-7⟩, ⟨"", .spawn "\"type\"", 2.5, 3⟩,
    ⟨"\x7f\u2028", .camera 1.25, -0.0, 1e21⟩, ⟨"/", .lights "\r\x08\x0c", 12, 12.015625⟩]

/-- The log with every member in the other order, the tags behind what they are for. -/
def ornateLogBackwards : Document :=
  .list
    [.object [("fired_beat", .float 1e-7), ("scheduled_beat", .float 0.1),
      ("kind", .object [("stem", .text "\t\n\x00\x1f"), ("type", .text "music_stem")]),
      ("label", .text "\"Tür\" \\ 𝄞")],
    .object [("fired_beat", .float 3), ("scheduled_beat", .float 2.5),
      ("kind", .object [("pattern", .text "\"type\""), ("type", .text "spawn")]),
      ("label", .text "")],
    .object [("fired_beat", .float 1e21), ("scheduled_beat", .float (-0.0)),
      ("kind", .object [("zoom", .float 1.25), ("type", .text "camera")]),
      ("label", .text "\x7f\u2028")],
    .object [("fired_beat", .float 12.015625), ("scheduled_beat", .float 12),
      ("kind", .object [("color", .text "\r\x08\x0c"), ("type", .text "lighting")]),
      ("label", .text "/")]]

theorem document_readLog_ornate :
    (∀ f ∈ ornateLog, ∀ x ∈ f.doubles, readBack x = .ok x) ∧
      Json.document readLog (logDocument ornateLog).pretty = .ok ornateLog ∧
      (logDocument ornateLog).Rearranged ornateLogBackwards ∧
      Json.document readLog ornateLogBackwards.compact = .ok ornateLog := by
  have hshort : ∀ f ∈ ornateLog, ∀ x ∈ f.doubles, IsShort x := by decide +kernel
  have hfs : ∀ f ∈ ornateLog, ∀ x ∈ f.doubles, readBack x = .ok x := fun f hf x hx =>
    readBack_of_isShort (hshort f hf x hx)
  have hkind : ∀ tag key d, (Document.object [("type", tag), (key, d)]).Rearranged
      (.object [(key, d), ("type", tag)]) := fun _ _ _ =>
    .object (Rearranged.refl_members _) (.swap ..)
  have hfiring : ∀ label kind kind' scheduled fired, Rearranged kind kind' →
      (Document.object [("label", label), ("kind", kind), ("scheduled_beat", scheduled),
        ("fired_beat", fired)]).Rearranged (.object [("fired_beat", fired),
          ("scheduled_beat", scheduled), ("kind", kind'), ("label", label)]) := fun _ _ _ _ _ h =>
    .object (.cons (.mk _ (.refl _)) (.cons (.mk _ h) (Rearranged.refl_members _)))
      (List.reverse_perm _).symm
  have hbackwards : (logDocument ornateLog).Rearranged ornateLogBackwards :=
    .list (.cons (hfiring _ _ _ _ _ (hkind ..)) (.cons (hfiring _ _ _ _ _ (hkind ..))
      (.cons (hfiring _ _ _ _ _ (hkind ..)) (.cons (hfiring _ _ _ _ _ (hkind ..)) .nil))))
  obtain ⟨-, hpretty, hrearranged⟩ := document_readLog hfs
  exact ⟨hfs, hpretty, hbackwards, (hrearranged _ hbackwards).1⟩

end Firing

end Downbeat
