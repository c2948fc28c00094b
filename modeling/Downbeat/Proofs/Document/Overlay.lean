import Downbeat.Proofs.Document.Reload
import Downbeat.Proofs.Json.Object

/-!
# Settings of which some are given

A document need not give all settings. Whatever sections and fields it has, in any order and among
any other members, it is read as the usual settings with the given ones in their place
(`Settings.ofText_of_isPartial`), and these are refused only for a flaw of theirs.
-/

namespace Downbeat

namespace Json

/-! ## Texts of fields -/

/-- A text of a value, or `null` with blanks before and behind it. -/
inductive OrNull {α : Type} (is : List Char → α → Prop) : List Char → Option α → Prop
  | null {before after : List Char} (hbefore : IsBlanks before) (hafter : IsBlanks after) :
      OrNull is (before ++ ("null".toList ++ after)) none
  | value {text : List Char} {x : α} (h : is text x) : OrNull is text (some x)

/-- A reader that passes over blanks first, and then does not take `null`. -/
structure IsSolid {α : Type} (p : Reader α) : Prop where
  blanks : ∀ n blanks cs, IsBlanks blanks → p n (blanks ++ cs) = p n cs
  null : ∀ n cs y, p n ('n' :: cs) ≠ .ok y

theorem isSolid_naturalAs (wanted : String) (bound : Nat) :
    IsSolid (Reader.naturalAs wanted bound) where
  blanks n blanks cs hblanks := by
    have hnumber : Reader.numberAs wanted n (blanks ++ cs) = Reader.numberAs wanted n cs :=
      Reader.peekSolid?_bind_append hblanks _ cs
    rw [Reader.naturalAs, Reader.bind_apply, Reader.bind_apply, hnumber]
  null n cs y h := by
    obtain ⟨x, mid, hnumber, -⟩ := Reader.bind_eq_ok h
    exact Fails.mismatch wanted n ('n' :: cs) (x, mid) hnumber

theorem IsSolid.map {α β : Type} {p : Reader α} (hp : IsSolid p) (g : α → β) :
    IsSolid (g <$> p) where
  blanks n blanks cs hblanks := by
    rw [Reader.map_apply, Reader.map_apply, hp.blanks n blanks cs hblanks]
  null n cs y h := by
    rw [Reader.map_apply] at h
    cases hx : p n ('n' :: cs) with
    | error f =>
      rw [hx] at h
      cases h
    | ok x => exact hp.null n cs x hx

/-- Where there is a value, a reader of a value or `null` takes it. -/
theorem IsSolid.optional_apply {α : Type} {p : Reader α} (hp : IsSolid p) {n : Nat}
    {cs rest : List Char} {x : α} (h : p n cs = .ok (x, rest)) :
    Reader.optional p n cs = .ok (some x, rest) := by
  have hsplit := List.takeWhile_append_dropWhile (p := isBlank) (l := cs)
  have hsolid : p n (cs.dropWhile isBlank) = .ok (x, rest) := by
    rw [← hp.blanks n (cs.takeWhile isBlank) _ fun b hb => List.mem_takeWhile_imp hb, hsplit, h]
  have hsome : (some <$> p) n (cs.dropWhile isBlank) = .ok (some x, rest) := by
    rw [Reader.map_apply, hsolid]
    rfl
  rw [Reader.optional, Reader.bind_of_ok (Reader.peekSolid?_apply ..)]
  cases hcs : cs.dropWhile isBlank with
  | nil =>
    rw [hcs] at hsome
    exact hsome
  | cons c solid =>
    rw [hcs] at hsome hsolid
    have hc : c ≠ 'n' := by
      rintro rfl
      exact hp.null n solid _ hsolid
    rw [← hsome, List.head?_cons]
    simp [hc]

theorem OrNull.stands {α : Type} {p : Reader α} (hlocal : IsLocal p) (hp : IsSolid p)
    {text : List Char} {x : Option α} (h : OrNull (ParsesTo p) text x) :
    Stands (Reader.optional p) text x := by
  cases h with
  | @null before after hbefore hafter =>
    refine ⟨before ++ "null".toList, after, (List.append_assoc ..).symm, hafter, ?_⟩
    intro n rest hn hrest
    rw [List.append_assoc, List.append_assoc]
    simp only [List.length_append] at hn
    exact gives_null p n before (after ++ rest) hbefore
      (by rw [List.length_append]; omega) (hrest.append hafter).stops
  | value h =>
    obtain ⟨used, blanks, htext, hblanks, hread⟩ := hlocal.stands h
    exact ⟨used, blanks, htext, hblanks, fun n rest hn hrest =>
      hp.optional_apply (hread n rest hn hrest)⟩

/-! ## Members that may be left out -/

/-- The members of an object with some known keys, each of which comes once at most, with a text of
the kind it is to have. Under any other key there is JSON. -/
structure AreMembers (known : List (String × (List Char → Prop)))
    (ms : List (String × List Char)) : Prop where
  once : ∀ k ∈ known, (ms.map Prod.fst).count k.1 ≤ 1
  texts : ∀ k ∈ known, ∀ text, (k.1, text) ∈ ms → k.2 text
  other : ∀ m ∈ ms, m.1 ∉ known.map Prod.fst → IsJson m.2

/-- The text is an object that has any of the known keys. -/
def IsPartial (known : List (String × (List Char → Prop))) (text : List Char) : Prop :=
  ∃ ms, IsObject ms text ∧ AreMembers known ms

/-- A field is what the member with its key says, and as usual if there is none. -/
def Overrides {α : Type} (is : List Char → α → Prop) (ms : List (String × List Char)) (key : String)
    (usual x : α) : Prop :=
  (∀ text, (key, text) ∈ ms → is text x) ∧ (key ∉ ms.map Prod.fst → x = usual)

/-- A field of a draft that has the fields of these keys. -/
def part {α : Type} (keys : List String) (key : String) (x : α) : Option α :=
  if key ∈ keys then some x else none

theorem part_of_notMem {α : Type} {keys : List String} {key : String} (h : key ∉ keys) (x : α) :
    part keys key x = none := if_neg h

theorem part_cons_of_ne {α : Type} {key key' : String} (h : key ≠ key') (keys : List String)
    (x : α) : part (key' :: keys) key x = part keys key x := by
  simp [part, h]

/-- A field that is not in the draft is as usual. -/
theorem Overrides.part_getD {α : Type} {is : List Char → α → Prop}
    {ms : List (String × List Char)} {key : String} {usual x : α}
    (h : Overrides is ms key usual x) : (part (ms.map Prod.fst).reverse key x).getD usual = x := by
  by_cases hkey : key ∈ ms.map Prod.fst
  · rw [part, if_pos (List.mem_reverse.2 hkey), Option.getD_some]
  · rw [part, if_neg (fun hmem => hkey (List.mem_reverse.1 hmem)), Option.getD_none, h.2 hkey]

/-- Two members with one key are the same, if the key comes once. -/
theorem eq_of_count_le_one {ms : List (String × List Char)} {key : String} {text text' : List Char}
    (honce : (ms.map Prod.fst).count key ≤ 1) (h : (key, text) ∈ ms) (h' : (key, text') ∈ ms) :
    text = text' := by
  induction ms with
  | nil => cases h
  | cons m ms ih =>
    have hlater : ∀ {text : List Char}, (key, text) ∈ ms → key ∈ ms.map Prod.fst := fun hmem =>
      List.mem_map_of_mem (f := Prod.fst) hmem
    have hfirst : m.1 = key → key ∉ ms.map Prod.fst := by
      rintro rfl
      exact not_mem_of_count_le_one honce
    rcases List.mem_cons.1 h with rfl | h <;> rcases List.mem_cons.1 h' with heq | h'
    · exact (congrArg Prod.snd heq).symm
    · exact absurd (hlater h') (hfirst rfl)
    · exact absurd (hlater h) (hfirst (congrArg Prod.fst heq).symm)
    · exact ih (Nat.le_trans (List.count_le_count_cons ..) honce) h h'

/-- A known field is given or as usual. -/
theorem AreMembers.exists_overrides {known : List (String × (List Char → Prop))}
    {ms : List (String × List Char)} (h : AreMembers known ms) {α : Type}
    {is : List Char → α → Prop} {key : String} {kind : List Char → Prop}
    (hkey : (key, kind) ∈ known) (hkind : ∀ text, kind text → ∃ x, is text x) (usual : α) :
    ∃ x, Overrides is ms key usual x := by
  by_cases hmem : key ∈ ms.map Prod.fst
  · obtain ⟨⟨key, text⟩, htext, rfl⟩ := List.mem_map.1 hmem
    obtain ⟨x, hx⟩ := hkind text (h.texts _ hkey text htext)
    refine ⟨x, fun text' htext' => ?_, fun hnot => absurd hmem hnot⟩
    rw [eq_of_count_le_one (h.once _ hkey) htext' htext]
    exact hx
  · refine ⟨usual, fun text htext => ?_, fun _ => rfl⟩
    exact absurd (List.mem_map_of_mem (f := Prod.fst) htext) hmem

/-- A draft that has what its record knows is read from the members. -/
theorem AreMembers.accepts {known : List (String × (List Char → Prop))}
    {ms : List (String × List Char)} (h : AreMembers known ms) {σ α : Type} {r : Record σ α}
    {depth : Nat} {parts : List String → σ} (hkeys : r.fields.map Field.key = known.map Prod.fst)
    (hknown : ∀ field ∈ r.fields, ∀ text, (field.key, text) ∈ ms → ∀ keys, field.key ∉ keys →
      field.given (parts keys) = false ∧
        Stands (field.read (parts keys) depth) text (parts (field.key :: keys)))
    (hother : ∀ key, (∀ k ∈ known.map Prod.fst, k ≠ key) →
      ∀ keys, parts (key :: keys) = parts keys) :
    r.Accepts depth parts ms where
  once field hfield := by
    have hmem : field.key ∈ known.map Prod.fst := hkeys ▸ List.mem_map_of_mem hfield
    obtain ⟨k, hk, hkey⟩ := List.mem_map.1 hmem
    exact hkey ▸ h.once k hk
  known := hknown
  other m hm hnot := by
    have hkey : m.1 ∉ known.map Prod.fst := by
      rw [← hkeys]
      rintro hmem
      obtain ⟨field, hfield, heq⟩ := List.mem_map.1 hmem
      exact hnot field hfield heq
    exact ⟨h.other m hm hkey, hother m.1 fun k hk heq => hkey (heq ▸ hk)⟩

@[simp] theorem Field.key_make {σ β : Type} (key : String) (get : σ → Option β) (set : β → σ → σ)
    (value : Nested β) (opt : Bool) : (Field.make key get set value opt).key = key := rfl

/-- A value that stands in its place is read into the draft. -/
theorem Field.stands_make {σ β : Type} {key : String} {get : σ → Option β} {set : β → σ → σ}
    {value : Nested β} {opt : Bool} {depth : Nat} {draft draft' : σ} {text : List Char} {x : β}
    (hget : get draft = none) (hvalue : Stands (value depth) text x) (hset : set x draft = draft') :
    (Field.make key get set value opt).given draft = false ∧
      Stands ((Field.make key get set value opt).read draft depth) text draft' := by
  refine ⟨by simp [Field.make, hget], ?_⟩
  rw [← hset]
  exact hvalue.map fun b => set b draft

end Json

open Json

/-! ## The script -/

namespace ScriptSettings

/-- The text is one of a seed. -/
def IsSeed (text : List Char) (x : UInt64) : Prop :=
  ParsesTo (UInt64.ofNat <$> Reader.naturalAs "u64" wordBound) text x

/-- The text is one of a limit, or `null`. -/
def IsLimit (text : List Char) (x : Option Nat) : Prop :=
  OrNull (ParsesTo (Reader.naturalAs "usize" wordBound)) text x

/-- The known keys, and what the texts of their values are to be. -/
def known : List (String × (List Char → Prop)) :=
  [("start_beat", fun text => ∃ x, ParsesTo Reader.float text x),
    ("beat_runahead", fun text => ∃ x, ParsesTo Reader.float text x),
    ("seed", fun text => ∃ x, IsSeed text x),
    ("max_drain_steps", fun text => ∃ x, IsLimit text x)]

/-- The settings are as usual, but for what the text says. -/
def Overlays (text : List Char) (c : ScriptSettings) : Prop :=
  let usual : ScriptSettings := {}
  ∃ ms, IsObject ms text ∧ AreMembers known ms ∧
    Overrides (ParsesTo Reader.float) ms "start_beat" usual.start c.start ∧
    Overrides (ParsesTo Reader.float) ms "beat_runahead" usual.runahead c.runahead ∧
    Overrides IsSeed ms "seed" usual.seed c.seed ∧
    Overrides IsLimit ms "max_drain_steps" (some 10000) c.limit

/-- An object with any of the known keys says what the settings are. -/
theorem exists_overlays_iff {text : List Char} : (∃ c, Overlays text c) ↔ IsPartial known text := by
  refine ⟨fun ⟨c, ms, hobject, hms, _⟩ => ⟨ms, hobject, hms⟩, fun ⟨ms, hobject, hms⟩ => ?_⟩
  let usual : ScriptSettings := {}
  obtain ⟨start, hstart⟩ := hms.exists_overrides (.head _) (fun _ h => h) usual.start
  obtain ⟨runahead, hrunahead⟩ :=
    hms.exists_overrides (.tail _ (.head _)) (fun _ h => h) usual.runahead
  obtain ⟨seed, hseed⟩ :=
    hms.exists_overrides (.tail _ (.tail _ (.head _))) (fun _ h => h) usual.seed
  obtain ⟨limit, hlimit⟩ :=
    hms.exists_overrides (.tail _ (.tail _ (.tail _ (.head _)))) (fun _ h => h) (some 10000)
  exact ⟨{ start, runahead, seed, limit }, ms, hobject, hms, hstart, hrunahead, hseed, hlimit⟩

/-- The draft that has the fields of these keys. -/
def parts (c : ScriptSettings) (keys : List String) : Draft where
  start := part keys "start_beat" c.start
  runahead := part keys "beat_runahead" c.runahead
  seed := part keys "seed" c.seed
  limit := part keys "max_drain_steps" c.limit

theorem Overlays.stands {text : List Char} {c : ScriptSettings} (h : Overlays text c)
    (depth : Nat) : Stands (record.read (depth + 1)) text c := by
  obtain ⟨ms, hobject, hms, hstart, hrunahead, hseed, hlimit⟩ := h
  refine Record.stands_of_accepts c.parts hobject (hms.accepts rfl ?_ ?_) rfl ?_
  · intro field hfield text htext keys hkey
    fin_cases hfield
    · exact Field.stands_make (part_of_notMem hkey _) (IsLocal.float.stands (hstart.1 text htext))
        (by simp [parts, part])
    · exact Field.stands_make (part_of_notMem hkey _)
        (IsLocal.float.stands (hrunahead.1 text htext)) (by simp [parts, part])
    · exact Field.stands_make (part_of_notMem hkey _)
        (((IsLocal.naturalAs _ _).map _).stands (hseed.1 text htext)) (by simp [parts, part])
    · exact Field.stands_make (part_of_notMem hkey _)
        ((hlimit.1 text htext).stands (.naturalAs _ _) (isSolid_naturalAs _ _))
        (by simp [parts, part])
  · intro key hkey keys
    simp [parts, part_cons_of_ne, hkey, known]
  · have hlimit : (part (ms.map Prod.fst).reverse "max_drain_steps" c.limit).getD
        ({} : ScriptSettings).limit = c.limit := hlimit.part_getD
    simp only [record, parts, hstart.part_getD, hrunahead.part_getD, hseed.part_getD, hlimit]

end ScriptSettings

/-! ## The clock -/

namespace PlaybackSettings

/-- The known keys, and what the texts of their values are to be. -/
def known : List (String × (List Char → Prop)) :=
  [("bpm", fun text => ∃ x, ParsesTo Reader.float text x),
    ("tick_beats", fun text => ∃ x, ParsesTo Reader.float text x),
    ("length_beats", fun text => ∃ x, ParsesTo Reader.float text x)]

/-- The settings are as usual, but for what the text says. -/
def Overlays (text : List Char) (c : PlaybackSettings) : Prop :=
  let usual : PlaybackSettings := {}
  ∃ ms, IsObject ms text ∧ AreMembers known ms ∧
    Overrides (ParsesTo Reader.float) ms "bpm" usual.bpm c.bpm ∧
    Overrides (ParsesTo Reader.float) ms "tick_beats" usual.tickBeats c.tickBeats ∧
    Overrides (ParsesTo Reader.float) ms "length_beats" usual.lengthBeats c.lengthBeats

/-- An object with any of the known keys says what the settings are. -/
theorem exists_overlays_iff {text : List Char} : (∃ c, Overlays text c) ↔ IsPartial known text := by
  refine ⟨fun ⟨c, ms, hobject, hms, _⟩ => ⟨ms, hobject, hms⟩, fun ⟨ms, hobject, hms⟩ => ?_⟩
  let usual : PlaybackSettings := {}
  obtain ⟨bpm, hbpm⟩ := hms.exists_overrides (.head _) (fun _ h => h) usual.bpm
  obtain ⟨tickBeats, htick⟩ :=
    hms.exists_overrides (.tail _ (.head _)) (fun _ h => h) usual.tickBeats
  obtain ⟨lengthBeats, hlength⟩ :=
    hms.exists_overrides (.tail _ (.tail _ (.head _))) (fun _ h => h) usual.lengthBeats
  exact ⟨{ bpm, tickBeats, lengthBeats }, ms, hobject, hms, hbpm, htick, hlength⟩

/-- The draft that has the fields of these keys. -/
def parts (c : PlaybackSettings) (keys : List String) : Draft where
  bpm := part keys "bpm" c.bpm
  tickBeats := part keys "tick_beats" c.tickBeats
  lengthBeats := part keys "length_beats" c.lengthBeats

theorem Overlays.stands {text : List Char} {c : PlaybackSettings} (h : Overlays text c)
    (depth : Nat) : Stands (record.read (depth + 1)) text c := by
  obtain ⟨ms, hobject, hms, hbpm, htick, hlength⟩ := h
  refine Record.stands_of_accepts c.parts hobject (hms.accepts rfl ?_ ?_) rfl ?_
  · intro field hfield text htext keys hkey
    fin_cases hfield
    · exact Field.stands_make (part_of_notMem hkey _) (IsLocal.float.stands (hbpm.1 text htext))
        (by simp [parts, part])
    · exact Field.stands_make (part_of_notMem hkey _) (IsLocal.float.stands (htick.1 text htext))
        (by simp [parts, part])
    · exact Field.stands_make (part_of_notMem hkey _) (IsLocal.float.stands (hlength.1 text htext))
        (by simp [parts, part])
  · intro key hkey keys
    simp [parts, part_cons_of_ne, hkey, known]
  · simp only [record, parts, hbpm.part_getD, htick.part_getD, hlength.part_getD]

end PlaybackSettings

/-! ## The encounter -/

namespace EncounterSettings

/-- The text is one of a number of loops, or `null`. -/
def IsLoops (text : List Char) (x : Option UInt32) : Prop :=
  OrNull (ParsesTo (UInt32.ofNat <$> Reader.naturalAs "u32" (Nat.pow 2 32))) text x

/-- The known keys, and what the texts of their values are to be. -/
def known : List (String × (List Char → Prop)) :=
  [("name", fun text => ∃ x, ParsesTo Reader.text text x),
    ("stem", fun text => ∃ x, ParsesTo Reader.text text x),
    ("loops", fun text => ∃ x, IsLoops text x)]

/-- The settings are as usual, but for what the text says. -/
def Overlays (text : List Char) (c : EncounterSettings) : Prop :=
  let usual : EncounterSettings := {}
  ∃ ms, IsObject ms text ∧ AreMembers known ms ∧
    Overrides (ParsesTo Reader.text) ms "name" usual.name c.name ∧
    Overrides (ParsesTo Reader.text) ms "stem" usual.stem c.stem ∧
    Overrides IsLoops ms "loops" (some 4) c.loops

/-- An object with any of the known keys says what the settings are. -/
theorem exists_overlays_iff {text : List Char} : (∃ c, Overlays text c) ↔ IsPartial known text := by
  refine ⟨fun ⟨c, ms, hobject, hms, _⟩ => ⟨ms, hobject, hms⟩, fun ⟨ms, hobject, hms⟩ => ?_⟩
  let usual : EncounterSettings := {}
  obtain ⟨name, hname⟩ := hms.exists_overrides (.head _) (fun _ h => h) usual.name
  obtain ⟨stem, hstem⟩ := hms.exists_overrides (.tail _ (.head _)) (fun _ h => h) usual.stem
  obtain ⟨loops, hloops⟩ :=
    hms.exists_overrides (.tail _ (.tail _ (.head _))) (fun _ h => h) (some 4)
  exact ⟨{ name, stem, loops }, ms, hobject, hms, hname, hstem, hloops⟩

/-- The draft that has the fields of these keys. -/
def parts (c : EncounterSettings) (keys : List String) : Draft where
  name := part keys "name" c.name
  stem := part keys "stem" c.stem
  loops := part keys "loops" c.loops

theorem Overlays.stands {text : List Char} {c : EncounterSettings} (h : Overlays text c)
    (depth : Nat) : Stands (record.read (depth + 1)) text c := by
  obtain ⟨ms, hobject, hms, hname, hstem, hloops⟩ := h
  refine Record.stands_of_accepts c.parts hobject (hms.accepts rfl ?_ ?_) rfl ?_
  · intro field hfield text htext keys hkey
    fin_cases hfield
    · exact Field.stands_make (part_of_notMem hkey _) (IsLocal.text.stands (hname.1 text htext))
        (by simp [parts, part])
    · exact Field.stands_make (part_of_notMem hkey _) (IsLocal.text.stands (hstem.1 text htext))
        (by simp [parts, part])
    · exact Field.stands_make (part_of_notMem hkey _)
        ((hloops.1 text htext).stands ((IsLocal.naturalAs _ _).map _)
          ((isSolid_naturalAs _ _).map _)) (by simp [parts, part])
  · intro key hkey keys
    simp [parts, part_cons_of_ne, hkey, known]
  · have hloops : (part (ms.map Prod.fst).reverse "loops" c.loops).getD
        ({} : EncounterSettings).loops = c.loops := hloops.part_getD
    simp only [record, parts, hname.part_getD, hstem.part_getD, hloops]

end EncounterSettings

/-! ## All settings -/

namespace Settings

/-- The known keys, and what the texts of their sections are to be. -/
def known : List (String × (List Char → Prop)) :=
  [("script", IsPartial ScriptSettings.known), ("playback", IsPartial PlaybackSettings.known),
    ("encounter", IsPartial EncounterSettings.known)]

/-- The settings are as usual, but for what the text says. -/
def Overlays (text : List Char) (c : Settings) : Prop :=
  let usual : Settings := {}
  ∃ ms, IsObject ms text ∧ AreMembers known ms ∧
    Overrides ScriptSettings.Overlays ms "script" usual.script c.script ∧
    Overrides PlaybackSettings.Overlays ms "playback" usual.playback c.playback ∧
    Overrides EncounterSettings.Overlays ms "encounter" usual.encounter c.encounter

/-- The draft that has the sections of these keys. -/
def parts (c : Settings) (keys : List String) : Draft where
  script := part keys "script" c.script
  playback := part keys "playback" c.playback
  encounter := part keys "encounter" c.encounter

theorem Overlays.stands {text : List Char} {c : Settings} (h : Overlays text c) (depth : Nat) :
    Stands (record.read (depth + 2)) text c := by
  obtain ⟨ms, hobject, hms, hscript, hplayback, hencounter⟩ := h
  refine Record.stands_of_accepts c.parts hobject (hms.accepts rfl ?_ ?_) rfl ?_
  · intro field hfield text htext keys hkey
    fin_cases hfield
    · exact Field.stands_make (part_of_notMem hkey _) ((hscript.1 text htext).stands depth)
        (by simp [parts, part])
    · exact Field.stands_make (part_of_notMem hkey _) ((hplayback.1 text htext).stands depth)
        (by simp [parts, part])
    · exact Field.stands_make (part_of_notMem hkey _) ((hencounter.1 text htext).stands depth)
        (by simp [parts, part])
  · intro key hkey keys
    simp [parts, part_cons_of_ne, hkey, known]
  · have hscript : (part (ms.map Prod.fst).reverse "script" c.script).getD {} = c.script :=
      hscript.part_getD
    have hplayback : (part (ms.map Prod.fst).reverse "playback" c.playback).getD {} = c.playback :=
      hplayback.part_getD
    have hencounter : (part (ms.map Prod.fst).reverse "encounter" c.encounter).getD {} =
      c.encounter := hencounter.part_getD
    simp only [record, parts, hscript, hplayback, hencounter]

/-- An object with any of the known keys says what the settings are. -/
theorem exists_overlays_iff {text : List Char} : (∃ c, Overlays text c) ↔ IsPartial known text := by
  refine ⟨fun ⟨c, ms, hobject, hms, _⟩ => ⟨ms, hobject, hms⟩, fun ⟨ms, hobject, hms⟩ => ?_⟩
  let usual : Settings := {}
  obtain ⟨script, hscript⟩ :=
    hms.exists_overrides (.head _) (fun _ => ScriptSettings.exists_overlays_iff.2) usual.script
  obtain ⟨playback, hplayback⟩ := hms.exists_overrides (.tail _ (.head _))
    (fun _ => PlaybackSettings.exists_overlays_iff.2) usual.playback
  obtain ⟨encounter, hencounter⟩ := hms.exists_overrides (.tail _ (.tail _ (.head _)))
    (fun _ => EncounterSettings.exists_overlays_iff.2) usual.encounter
  exact ⟨{ script, playback, encounter }, ms, hobject, hms, hscript, hplayback, hencounter⟩

/-- Settings that a document says are read from it. -/
theorem Overlays.document {source : String} {c : Settings} (h : Overlays source.toList c) :
    Json.document record.read source = .ok c := by
  have hparses : ParsesTo (record.read maxDepth) source.toList c := (h.stands 125).parsesTo
  rwa [ParsesTo, String.ofList_toList] at hparses

/-- A document that has any sections with any fields, in any order and among any other members, says
one thing : the usual settings with what it has in the place of that. It is read as these, and they
are had from it just when they have no flaw. Otherwise it is refused for the flaw. -/
theorem ofText_of_isPartial {source : String} (h : IsPartial known source.toList) :
    ∃ c, Overlays source.toList c ∧ (∀ c', Overlays source.toList c' → c' = c) ∧
      Json.document record.read source = .ok c ∧ (ofText source = .ok c ↔ c.check = .ok ()) ∧
      ∀ f, c.check = .error f → ofText source = .error (.flaw f) := by
  obtain ⟨c, hc⟩ := exists_overlays_iff.2 h
  have hread : Json.document record.read source = .ok c := hc.document
  refine ⟨c, hc, fun c' hc' => ?_, hread, ?_, fun f hf => ?_⟩
  · have hread' := hc'.document
    rw [hread] at hread'
    exact (Except.ok.inj hread').symm
  · rw [ofText_eq_ok_iff, hread]
    exact and_iff_right rfl
  · rw [ofText, hread]
    show c.checked = _
    rw [checked, hf]

/-- A document with a seed and without a number of loops, where one key has an escape, and with
members that nobody knows. -/
def sparse : String :=
  "\n\x7b\"note\" : [\x7b\x7d],\"encounter\":\x7b\"loops\" : null \x7d, " ++
    "\"\\u0073cript\": \x7b\"mood\":\"\\ud800\",\"seed\": 7\x7d \x7d"

/-- What the document says. -/
def sparseSettings : Settings :=
  { script := { seed := 7 }, encounter := { loops := none } }

theorem overlays_script_sparse :
    ScriptSettings.Overlays " \x7b\"mood\":\"\\ud800\",\"seed\": 7\x7d ".toList { seed := 7 } := by
  have hmood : ParsesTo Reader.text "\"mood\"".toList "mood" :=
    parsesTo_iff.2 ⟨[], isBlanks_nil, rfl⟩
  have hkey : ParsesTo Reader.text "\"seed\"".toList "seed" :=
    parsesTo_iff.2 ⟨[], isBlanks_nil, rfl⟩
  have hseed : ScriptSettings.IsSeed " 7".toList 7 := parsesTo_iff.2 ⟨[], isBlanks_nil, rfl⟩
  have hsurrogate : IsLiteral ['\\', 'u', 'd', '8', '0', '0', '"'] :=
    .unit (by decide) (by decide) (by decide) (by decide) .close
  have hjson : IsJson "\"\\ud800\"".toList :=
    ⟨[], _, [], isBlanks_nil, .scalar (.text hsurrogate), isBlanks_nil, rfl⟩
  refine ⟨[("mood", "\"\\ud800\"".toList), ("seed", " 7".toList)], ?_, ?_, ?_, ?_, ?_, ?_⟩
  · exact ⟨" ".toList, _, " ".toList, isBlanks_space,
      .cons (.first isBlanks_nil) ⟨_, hmood, rfl⟩ (.cons (.next isBlanks_nil isBlanks_nil)
        ⟨_, hkey, rfl⟩ (.nil isBlanks_nil)), isBlanks_space, rfl⟩
  · exact ⟨by simp [ScriptSettings.known], by simpa [ScriptSettings.known] using ⟨_, hseed⟩,
      by simpa [ScriptSettings.known] using hjson⟩
  · simp [Overrides]
  · simp [Overrides]
  · simpa [Overrides] using hseed
  · simp [Overrides]

theorem overlays_encounter_sparse :
    EncounterSettings.Overlays "\x7b\"loops\" : null \x7d".toList { loops := none } := by
  have hkey : ParsesTo Reader.text "\"loops\" ".toList "loops" :=
    parsesTo_iff.2 ⟨[' '], isBlanks_space, rfl⟩
  have hloops : EncounterSettings.IsLoops " null ".toList none :=
    .null isBlanks_space isBlanks_space
  refine ⟨[("loops", " null ".toList)], ?_, ?_, ?_, ?_, ?_⟩
  · exact ⟨[], _, [], isBlanks_nil, .cons (.first isBlanks_nil) ⟨_, hkey, rfl⟩ (.nil isBlanks_nil),
      isBlanks_nil, rfl⟩
  · exact ⟨by simp [EncounterSettings.known],
      by simpa [EncounterSettings.known] using ⟨_, hloops⟩, by simp [EncounterSettings.known]⟩
  · simp [Overrides]
  · simp [Overrides]
  · simpa [Overrides] using hloops

theorem overlays_sparse : Overlays sparse.toList sparseSettings := by
  have hnote : ParsesTo Reader.text "\"note\" ".toList "note" :=
    parsesTo_iff.2 ⟨[' '], isBlanks_space, rfl⟩
  have hencounter : ParsesTo Reader.text "\"encounter\"".toList "encounter" :=
    parsesTo_iff.2 ⟨[], isBlanks_nil, rfl⟩
  have hscript : ParsesTo Reader.text "\"\\u0073cript\"".toList "script" :=
    parsesTo_iff.2 ⟨[], isBlanks_nil, rfl⟩
  have hobject : IsValue "\x7b\x7d".toList := .bracket .object (.nil isBlanks_nil) nofun
  have hlist : IsValue "[\x7b\x7d]".toList :=
    .bracket .list (.cons (.first isBlanks_nil) (Skip.Bracket.Part.element _) (.nil isBlanks_nil))
      (List.forall_mem_singleton.2 hobject)
  have hjson : IsJson " [\x7b\x7d]".toList :=
    ⟨[' '], _, [], isBlanks_space, hlist, isBlanks_nil, rfl⟩
  refine ⟨[("note", " [\x7b\x7d]".toList), ("encounter", "\x7b\"loops\" : null \x7d".toList),
    ("script", " \x7b\"mood\":\"\\ud800\",\"seed\": 7\x7d ".toList)], ?_, ?_, ?_, ?_, ?_⟩
  · exact ⟨"\n".toList, _, [], List.forall_mem_singleton.2 rfl,
      .cons (.first isBlanks_nil) ⟨_, hnote, rfl⟩ (.cons (.next isBlanks_nil isBlanks_nil)
        ⟨_, hencounter, rfl⟩ (.cons (.next isBlanks_nil isBlanks_space) ⟨_, hscript, rfl⟩
          (.nil isBlanks_nil))), isBlanks_nil, rfl⟩
  · have hscript := ScriptSettings.exists_overlays_iff.1 ⟨_, overlays_script_sparse⟩
    have hencounter := EncounterSettings.exists_overlays_iff.1 ⟨_, overlays_encounter_sparse⟩
    exact ⟨by simp [known], by simpa [known] using ⟨hscript, hencounter⟩,
      by simpa [known] using hjson⟩
  · simpa [Overrides, sparseSettings] using overlays_script_sparse
  · exact ⟨by simp, fun _ => rfl⟩
  · simpa [Overrides, sparseSettings] using overlays_encounter_sparse

theorem ofText_of_isPartial_sparse :
    IsPartial known sparse.toList ∧ ofText sparse = .ok sparseSettings := by
  have hpartial : IsPartial known sparse.toList := exists_overlays_iff.1 ⟨_, overlays_sparse⟩
  obtain ⟨c, -, hunique, -, hiff, -⟩ := ofText_of_isPartial hpartial
  obtain rfl := hunique _ overlays_sparse
  exact ⟨hpartial, hiff.2 rfl⟩

end Settings

end Downbeat
