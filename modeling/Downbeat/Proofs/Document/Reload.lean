import Downbeat.Document.Settings
import Downbeat.Proofs.Json.Faithful
import Downbeat.Proofs.Json.Members

/-!
# Settings that are written and read again

Whatever settings are written, they are read again as they were, but for their doubles, which are
what their own texts are read as (`Settings.document_text`).
-/

namespace Downbeat

open Json

/-- A number that may be left out is read as it was written. -/
theorem reads_optional {α : Type} {p : Reader α} (number : α → ℕ) {x : Option α}
    (h : ∀ a ∈ x, Gives p (Nat.toDigits 10 (number a)) (.ok a)) :
    Reads (Reader.optional p) (Document.ofOption (fun a => .natural (number a)) x) (.ok x) := by
  cases x with
  | none => exact .null (gives_null p)
  | some a =>
    have hread := h a rfl
    have hdigits : IsDigits (Nat.toDigits 10 (number a)) := isDigits_toDigits _
    refine .natural ?_
    obtain ⟨c, cs, hchars⟩ := List.exists_cons_of_ne_nil (Nat.toDigits_ne_nil (n := number a))
    rw [hchars] at hread hdigits ⊢
    have hdigit : c.isDigit = true := hdigits c List.mem_cons_self
    exact hread.optional (isBlank_of_isDigit hdigit) (ne_of_isDigit hdigit rfl)

/-! ## The script -/

namespace ScriptSettings

/-- The settings with the numbers that the texts of their numbers are read as. -/
def reread (c : ScriptSettings) : Except Json.Fault ScriptSettings := do
  let start ← readBack c.start
  let runahead ← readBack c.runahead
  return { c with start, runahead }

theorem reread_eq_ok_iff {c c' : ScriptSettings} : c.reread = .ok c' ↔
    readBack c.start = .ok c'.start ∧ readBack c.runahead = .ok c'.runahead ∧
      c'.seed = c.seed ∧ c'.limit = c.limit := by
  rw [reread, bind_eq_ok_iff]
  constructor
  · rintro ⟨start, hstart, h⟩
    obtain ⟨runahead, hrunahead, h⟩ := bind_eq_ok_iff.1 h
    obtain rfl := Except.ok.inj h
    exact ⟨hstart, hrunahead, rfl, rfl⟩
  · rintro ⟨hstart, hrunahead, hseed, hlimit⟩
    refine ⟨_, hstart, bind_eq_ok_iff.2 ⟨_, hrunahead, ?_⟩⟩
    rw [← hseed, ← hlimit]
    rfl

theorem reads_document {c : ScriptSettings} (hlimit : ∀ n ∈ c.limit, n < wordBound) (depth : ℕ) :
    Reads (record.read (depth + 1)) c.document c.reread := by
  have hseed : Gives (UInt64.ofNat <$> Reader.naturalAs "u64" wordBound)
      (Nat.toDigits 10 c.seed.toNat) (.ok c.seed) := by
    have h := (gives_natural "u64" c.seed.toNat_lt (le_refl _)).map UInt64.ofNat
    rwa [Except.map, UInt64.ofNat_toNat] at h
  have hlimit : Reads (Reader.optional (Reader.naturalAs "usize" wordBound))
      (.ofOption .natural c.limit) (.ok c.limit) :=
    reads_optional id fun n hn => gives_natural "usize" (hlimit n hn) (le_refl _)
  have htakes : Record.Takes record depth record.blank
      [("start_beat", .float c.start), ("beat_runahead", .float c.runahead),
        ("seed", .natural c.seed.toNat), ("max_drain_steps", .ofOption .natural c.limit)]
      ((readBack c.start).bind fun start => (readBack c.runahead).bind fun runahead =>
        (Except.ok c.seed).bind fun seed => (Except.ok c.limit).bind fun limit =>
          .ok ⟨some start, some runahead, some seed, some limit⟩) := by
    refine .make rfl rfl (.float (gives_float c.start)) fun start _ => ?_
    refine .make rfl rfl (.float (gives_float c.runahead)) fun runahead _ => ?_
    refine .make rfl rfl (.natural hseed) fun seed _ => ?_
    exact .make rfl rfl hlimit fun limit _ => .nil _
  convert htakes.reads using 1
  · rfl
  · rw [reread]
    cases readBack c.start with
    | error f => rfl
    | ok start => cases readBack c.runahead <;> rfl

end ScriptSettings

/-! ## The clock -/

namespace PlaybackSettings

/-- The settings with the numbers that the texts of their numbers are read as. -/
def reread (c : PlaybackSettings) : Except Json.Fault PlaybackSettings := do
  let bpm ← readBack c.bpm
  let tickBeats ← readBack c.tickBeats
  let lengthBeats ← readBack c.lengthBeats
  return { bpm, tickBeats, lengthBeats }

theorem reread_eq_ok_iff {c c' : PlaybackSettings} : c.reread = .ok c' ↔
    readBack c.bpm = .ok c'.bpm ∧ readBack c.tickBeats = .ok c'.tickBeats ∧
      readBack c.lengthBeats = .ok c'.lengthBeats := by
  rw [reread, bind_eq_ok_iff]
  constructor
  · rintro ⟨bpm, hbpm, h⟩
    obtain ⟨tickBeats, htick, h⟩ := bind_eq_ok_iff.1 h
    obtain ⟨lengthBeats, hlength, h⟩ := bind_eq_ok_iff.1 h
    obtain rfl := Except.ok.inj h
    exact ⟨hbpm, htick, hlength⟩
  · rintro ⟨hbpm, htick, hlength⟩
    exact ⟨_, hbpm, bind_eq_ok_iff.2 ⟨_, htick, bind_eq_ok_iff.2 ⟨_, hlength, rfl⟩⟩⟩

theorem reads_document (c : PlaybackSettings) (depth : ℕ) :
    Reads (record.read (depth + 1)) c.document c.reread := by
  have htakes : Record.Takes record depth record.blank
      [("bpm", .float c.bpm), ("tick_beats", .float c.tickBeats),
        ("length_beats", .float c.lengthBeats)]
      ((readBack c.bpm).bind fun bpm => (readBack c.tickBeats).bind fun tickBeats =>
        (readBack c.lengthBeats).bind fun lengthBeats =>
          .ok ⟨some bpm, some tickBeats, some lengthBeats⟩) := by
    refine .make rfl rfl (.float (gives_float c.bpm)) fun bpm _ => ?_
    refine .make rfl rfl (.float (gives_float c.tickBeats)) fun tickBeats _ => ?_
    exact .make rfl rfl (.float (gives_float c.lengthBeats)) fun lengthBeats _ => .nil _
  convert htakes.reads using 1
  · rfl
  · rw [reread]
    cases readBack c.bpm with
    | error f => rfl
    | ok bpm =>
      cases readBack c.tickBeats with
      | error f => rfl
      | ok tickBeats => cases readBack c.lengthBeats <;> rfl

end PlaybackSettings

/-! ## The encounter -/

namespace EncounterSettings

/-- An encounter is read as it was written, whatever characters its names have. -/
theorem reads_document (c : EncounterSettings) (depth : ℕ) :
    Reads (record.read (depth + 1)) c.document (.ok c) := by
  have hloops : Reads
      (Reader.optional (UInt32.ofNat <$> Reader.naturalAs "u32" (Nat.pow 2 32)))
      (.ofOption (fun n => .natural n.toNat) c.loops) (.ok c.loops) := by
    refine reads_optional UInt32.toNat fun n _ => ?_
    have h := (gives_natural "u32" n.toNat_lt (by decide)).map UInt32.ofNat
    rwa [Except.map, UInt32.ofNat_toNat] at h
  have htakes : Record.Takes record depth record.blank
      [("name", .text c.name), ("stem", .text c.stem),
        ("loops", .ofOption (fun n => .natural n.toNat) c.loops)]
      ((Except.ok c.name).bind fun name => (Except.ok c.stem).bind fun stem =>
        (Except.ok c.loops).bind fun loops => .ok ⟨some name, some stem, some loops⟩) := by
    refine .make rfl rfl (.text (gives_text c.name)) fun name _ => ?_
    refine .make rfl rfl (.text (gives_text c.stem)) fun stem _ => ?_
    exact .make rfl rfl hloops fun loops _ => .nil _
  exact htakes.reads

end EncounterSettings

/-! ## All settings -/

namespace Settings

/-- The settings with the numbers that the texts of their numbers are read as. -/
def reread (c : Settings) : Except Json.Fault Settings := do
  let script ← c.script.reread
  let playback ← c.playback.reread
  return { c with script, playback }

theorem reads_document {c : Settings} (hlimit : ∀ n ∈ c.script.limit, n < wordBound) (depth : ℕ) :
    Reads (record.read (depth + 2)) c.document c.reread := by
  have htakes : Record.Takes record (depth + 1) record.blank
      [("script", c.script.document), ("playback", c.playback.document),
        ("encounter", c.encounter.document)]
      (c.script.reread.bind fun script => c.playback.reread.bind fun playback =>
        (Except.ok c.encounter).bind fun encounter =>
          .ok ⟨some script, some playback, some encounter⟩) := by
    refine .make rfl rfl (ScriptSettings.reads_document hlimit _) fun script _ => ?_
    refine .make rfl rfl (c.playback.reads_document _) fun playback _ => ?_
    exact .make rfl rfl (c.encounter.reads_document _) fun encounter _ => .nil _
  convert htakes.reads using 1
  · rfl
  · rw [reread]
    cases c.script.reread with
    | error f => rfl
    | ok script => cases c.playback.reread <;> rfl

/-- Written settings are read as they were, but for what becomes of their doubles. -/
theorem document_text {c : Settings} (hlimit : ∀ n ∈ c.script.limit, n < wordBound) :
    Json.document record.read c.text = c.reread := by
  refine Gives.document ?_
  rw [text, Document.pretty, String.toList_ofList]
  exact reads_document hlimit _ _ (c.document.lays_prettyChars 0)

/-- The doubles of the settings, as they are written. -/
def numbers (c : Settings) : List Float :=
  [c.script.start, c.script.runahead, c.playback.bpm, c.playback.tickBeats, c.playback.lengthBeats]

theorem reread_eq_ok_iff {c c' : Settings} : c.reread = .ok c' ↔
    List.Forall₂ (fun x y => readBack x = .ok y) c.numbers c'.numbers ∧
      c'.script.seed = c.script.seed ∧ c'.script.limit = c.script.limit ∧
        c'.encounter = c.encounter := by
  have hparts : c.reread = .ok c' ↔ c.script.reread = .ok c'.script ∧
      c.playback.reread = .ok c'.playback ∧ c'.encounter = c.encounter := by
    rw [reread, bind_eq_ok_iff]
    constructor
    · rintro ⟨script, hscript, h⟩
      obtain ⟨playback, hplayback, h⟩ := bind_eq_ok_iff.1 h
      obtain rfl := Except.ok.inj h
      exact ⟨hscript, hplayback, rfl⟩
    · rintro ⟨hscript, hplayback, hencounter⟩
      refine ⟨_, hscript, bind_eq_ok_iff.2 ⟨_, hplayback, ?_⟩⟩
      rw [← hencounter]
      rfl
  rw [hparts, ScriptSettings.reread_eq_ok_iff, PlaybackSettings.reread_eq_ok_iff]
  simp only [numbers, List.forall₂_cons, List.Forall₂.nil, and_true]
  constructor
  · rintro ⟨⟨hstart, hrunahead, hseed, hlimit⟩, ⟨hbpm, htick, hlength⟩, hencounter⟩
    exact ⟨⟨hstart, hrunahead, hbpm, htick, hlength⟩, hseed, hlimit, hencounter⟩
  · rintro ⟨⟨hstart, hrunahead, hbpm, htick, hlength⟩, hseed, hlimit, hencounter⟩
    exact ⟨⟨hstart, hrunahead, hseed, hlimit⟩, ⟨hbpm, htick, hlength⟩, hencounter⟩

theorem checked_eq_ok_iff {c c' : Settings} :
    c'.checked = .ok c ↔ c' = c ∧ c.check = .ok () := by
  rw [checked]
  constructor
  · intro h
    split at h
    · cases h
    · rename_i hcheck
      obtain rfl := Except.ok.inj h
      exact ⟨rfl, hcheck⟩
  · rintro ⟨rfl, hcheck⟩
    rw [hcheck]

/-- Settings are had from a text that is read as settings without a flaw. -/
theorem ofText_eq_ok_iff {source : String} {c : Settings} :
    ofText source = .ok c ↔ Json.document record.read source = .ok c ∧ c.check = .ok () := by
  rw [ofText]
  cases Json.document record.read source with
  | error f => simp only [reduceCtorEq, false_and]
  | ok c' => simp only [checked_eq_ok_iff, Except.ok.injEq]

/-- Written settings are read as their doubles are, with all else as it was. -/
theorem ofText_text_eq_ok_iff {c c' : Settings} (hlimit : ∀ n ∈ c.script.limit, n < wordBound) :
    ofText c.text = .ok c' ↔ (List.Forall₂ (fun x y => readBack x = .ok y) c.numbers c'.numbers ∧
      c'.script.seed = c.script.seed ∧ c'.script.limit = c.script.limit ∧
        c'.encounter = c.encounter) ∧ c'.check = .ok () := by
  rw [ofText_eq_ok_iff, document_text hlimit, reread_eq_ok_iff]

/-- Settings without a flaw, with a limit that a word can hold, are had from their own text just when
each of their doubles is read as it was written, as those with a short text are. An infinite length
is not read at all, and whatever is had from the text has everything but the doubles as it was. -/
theorem ofText_text {c : Settings} (hcheck : c.check = .ok ())
    (hlimit : ∀ n ∈ c.script.limit, n < wordBound) :
    (ofText c.text = .ok c ↔ ∀ x ∈ c.numbers, readBack x = .ok x) ∧
    ((∀ x ∈ c.numbers, IsShort x) → ofText c.text = .ok c) ∧
    (c.playback.lengthBeats.isFinite = false → ∀ c', ofText c.text ≠ .ok c') ∧
    ∀ c', ofText c.text = .ok c' →
      List.Forall₂ (fun x y => readBack x = .ok y) c.numbers c'.numbers ∧
        c'.script.seed = c.script.seed ∧ c'.script.limit = c.script.limit ∧
          c'.encounter = c.encounter := by
  have hiff : ofText c.text = .ok c ↔ ∀ x ∈ c.numbers, readBack x = .ok x := by
    rw [ofText_text_eq_ok_iff hlimit, List.forall₂_same]
    exact ⟨fun h => h.1.1, fun h => ⟨⟨h, rfl, rfl, rfl⟩, hcheck⟩⟩
  refine ⟨hiff, fun hshort => hiff.2 fun x hx => readBack_of_isShort (hshort x hx), ?_, ?_⟩
  · intro hinf c' h
    have hlength : readBack c.playback.lengthBeats = .ok c'.playback.lengthBeats := by
      have hnumbers := ((ofText_text_eq_ok_iff hlimit).1 h).1.1
      simp only [numbers, List.forall₂_cons] at hnumbers
      exact hnumbers.2.2.2.2.1
    rw [readBack_of_gives (gives_float_of_not_isFinite hinf)] at hlength
    cases hlength
  · intro c' h
    exact ((ofText_text_eq_ok_iff hlimit).1 h).1

/-- Settings with every kind of character, the largest seed and limit, and fractions of a beat. -/
def ornate : Settings where
  script :=
    { start := 0.1, runahead := 1e-7, seed := 0xffffffffffffffff, limit := some (wordBound - 1) }
  playback := { bpm := 128.5, tickBeats := 0.015625, lengthBeats := 1e21 }
  encounter := { name := "\"Wächter\" \\ 𝄞", stem := "\t\n\x00", loops := none }

theorem ofText_text_ornate :
    ornate.check = .ok () ∧ ofText ornate.text = .ok ornate := by
  have hcheck : ornate.check = .ok () := by rfl
  have hlimit : ∀ n ∈ ornate.script.limit, n < wordBound := by decide +kernel
  have hshort : ∀ x ∈ ornate.numbers, IsShort x := by decide +kernel
  exact ⟨hcheck, (ofText_text hcheck hlimit).2.1 hshort⟩

/-- A length whose text has one digit too many, with the zero behind the point. -/
def overlong : Settings where
  playback := { lengthBeats := 9007199254740991 }

theorem ofText_text_overlong :
    overlong.check = .ok () ∧ (∀ n ∈ overlong.script.limit, n < wordBound) ∧
      ofText overlong.text ≠ .ok overlong := by
  have hlimit : ∀ n ∈ overlong.script.limit, n < wordBound := by decide +kernel
  refine ⟨by rfl, hlimit, fun h => ?_⟩
  have hnumbers := ((ofText_text_eq_ok_iff hlimit).1 h).1.1
  rw [List.forall₂_same] at hnumbers
  have hlength := hnumbers 9007199254740991 (.tail _ (.tail _ (.tail _ (.tail _ (.head _)))))
  have hread : (readBack 9007199254740991).toOption = some 9007199254740990 := by decide +kernel
  rw [hlength] at hread
  exact absurd (Option.some.inj hread) (by decide +kernel)

end Settings

end Downbeat
