import Downbeat.Proofs.Timeline.Lifecycle

/-!
# What a history accounts for

A property that events keep when they act, and pass on to what they bring on, holds of all events
of a history (`Chronicle.Accounts.lives`), and what has fired was fired by one of these events
(`Chronicle.Accounts.log`).
-/

set_option linter.unusedSectionVars false

namespace Downbeat

variable {α ε : Type} [Placed ε] [Hosted ε ε]

/-- Events in `W` stay in `W` when they act, and bring on only such events; what fires when an
event acts has to do with the event, as told by `F`, and goes on to have. -/
def Keeps (W : ε → Prop) (F : ε → Firing → Prop) : Prop :=
  ∀ {fuel m now e e' fx}, (Hosted.act fuel m now e : Option (ε × Effects ε)) = some (e', fx) →
    (W e → W e' ∧ ∀ x ∈ fx.events, W x) ∧ (∀ f ∈ fx.firings, F e' f) ∧ ∀ f, F e f → F e' f

namespace Slot

variable {W : ε → Prop} {F : ε → Firing → Prop} {s s' s'' : Slot ε} {fx fx' : Effects ε}

/-- The slot has come to be another one, with effects that `W` and `F` have an account of. -/
structure Turns (W : ε → Prop) (F : ε → Firing → Prop) (s : Slot ε) (fx : Effects ε)
    (s' : Slot ε) : Prop where
  events : W s.event → W s'.event ∧ ∀ x ∈ fx.events, W x
  firings : ∀ f ∈ fx.firings, F s'.event f
  kept : ∀ f, F s.event f → F s'.event f

theorem Turns.refl (s : Slot ε) : Turns W F s {} s := ⟨fun h => ⟨h, nofun⟩, nofun, fun _ h => h⟩

theorem Turns.trans (h : Turns W F s fx s') (h' : Turns W F s' fx' s'') :
    Turns W F s (fx ++ fx') s'' where
  events hs := by
    obtain ⟨hs', hfx⟩ := h.events hs
    obtain ⟨hs'', hfx'⟩ := h'.events hs'
    exact ⟨hs'', List.forall_mem_append.2 ⟨hfx, hfx'⟩⟩
  firings := List.forall_mem_append.2 ⟨fun f hf => h'.kept f (h.firings f hf), h'.firings⟩
  kept f hf := h'.kept f (h.kept f hf)

variable {fuel : Nat} {now : Beat}

theorem turns_of_begin (hK : Keeps W F) (h : s.begin fuel now = some (s', fx)) :
    Turns W F s fx s' := by
  unfold Slot.begin at h
  split at h
  · cases h
    exact .refl s
  · obtain ⟨⟨e, fx⟩, he, hs⟩ := Option.map_eq_some_iff.1 h
    cases hs
    obtain ⟨hevents, hfirings, hkept⟩ := hK he
    exact ⟨hevents, hfirings, hkept⟩

theorem turns_of_update (hK : Keeps W F) (h : s.update fuel now = some (s', fx)) :
    Turns W F s fx s' := by
  obtain ⟨⟨e, fx⟩, he, hs⟩ := Option.map_eq_some_iff.1 h
  cases hs
  obtain ⟨hevents, hfirings, hkept⟩ := hK he
  exact ⟨hevents, hfirings, hkept⟩

theorem turns_of_finish (hK : Keeps W F) (h : s.finish fuel now = some (s', fx)) :
    Turns W F s fx s' := by
  obtain ⟨⟨e, fx⟩, he, hs⟩ := Option.map_eq_some_iff.1 h
  cases hs
  obtain ⟨hevents, hfirings, hkept⟩ := hK he
  exact ⟨hevents, hfirings, hkept⟩

theorem turns_of_visit (hK : Keeps W F) (h : s.visit fuel now = some (s', fx)) :
    Turns W F s fx s' := by
  unfold Slot.visit at h
  split at h
  · cases h
    exact .refl s
  · simp only [Slot.run, Option.bind_eq_bind, Option.bind_eq_some_iff] at h
    obtain ⟨⟨s₁, fx₁⟩, hbegin, h⟩ := h
    have hfirst := turns_of_begin hK hbegin
    split at h
    · cases h
      exact hfirst
    · obtain ⟨⟨s₂, fx₂⟩, hupdate, h⟩ := Option.bind_eq_some_iff.1 h
      have hsecond := hfirst.trans (turns_of_update hK hupdate)
      split at h
      · cases h
        exact hsecond
      · obtain ⟨⟨s₃, fx₃⟩, hfinish, h⟩ := Option.bind_eq_some_iff.1 h
        cases h
        exact hsecond.trans (turns_of_finish hK hfinish)

theorem turns_of_retire (hK : Keeps W F) (h : s.retire fuel now = some (s', fx)) :
    Turns W F s fx s' := by
  unfold Slot.retire at h
  split at h
  · exact turns_of_finish hK h
  · cases h
    exact .refl s

end Slot

variable {W : ε → Prop} {F : ε → Firing → Prop}

/-- The diary of an event has no part in this. -/
theorem Keeps.diarist (hK : Keeps W F) :
    Keeps (fun d : Diarist ε => W d.event) fun d => F d.event := by
  intro fuel m now d d' fx h
  obtain ⟨⟨e, fx⟩, he, hd⟩ := Option.map_eq_some_iff.1 h
  obtain ⟨rfl, rfl⟩ := Prod.mk.inj hd
  obtain ⟨hevents, hfirings, hkept⟩ := hK he
  refine ⟨fun hd => ⟨(hevents hd).1, fun x hx => ?_⟩, hfirings, hkept⟩
  obtain ⟨y, hy, rfl⟩ := List.mem_map.1 hx
  exact (hevents hd).2 y hy

namespace Chronicle

open Life

/-! ## One tick -/

theorem exists_mem_of_mapM {β γ : Type} {f : β → Option γ} {xs : List β} {ys : List γ}
    (h : xs.mapM f = some ys) : ∀ x ∈ xs, ∃ y ∈ ys, f x = some y := by
  induction xs generalizing ys with
  | nil => exact nofun
  | cons x xs ih =>
    simp only [List.mapM_cons, Option.bind_eq_bind, Option.bind_eq_some_iff] at h
    obtain ⟨y, hy, ys', hys, h⟩ := h
    cases h
    refine List.forall_mem_cons.2 ⟨⟨y, List.mem_cons_self, hy⟩, fun z hz => ?_⟩
    obtain ⟨w, hw, hz⟩ := ih hys z hz
    exact ⟨w, List.mem_cons_of_mem _ hw, hz⟩

/-- What acting does to a life in the course of a tick. -/
theorem turns_of_act {go : Slot (Diarist ε) → Option (Slot (Diarist ε) × Effects (Diarist ε))}
    (hgo : ∀ s s' fx, go s = some (s', fx) →
      Slot.Turns (fun d : Diarist ε => W d.event) (fun d => F d.event) s fx s')
    {x : Today α ε} {y : Today α ε × Effects ε} (h : Today.act go x = some y) :
    y.1.life = x.life ∧ Slot.Turns W F x.bare y.2 y.1.bare := by
  obtain ⟨⟨s, fx⟩, hs, rfl⟩ := Option.map_eq_some_iff.1 h
  obtain ⟨hevents, hfirings, hkept⟩ := hgo _ _ _ hs
  refine ⟨rfl, fun hx => ⟨(hevents hx).1, fun e he => ?_⟩, hfirings, hkept⟩
  obtain ⟨d, hd, rfl⟩ := List.mem_map.1 he
  exact (hevents hx).2 d hd

/-- The members of a line that a tick has visited are in `W`, and are the lives before the tick and
others. -/
theorem turns_of_visitAll (hK : Keeps W F) {fuel tick waves : Nat} {now : Beat}
    {line : List (Life α ε)} {seen : List (Today α ε × Effects ε)}
    (hline : ∀ l ∈ line, W l.slot.event)
    (h : visitAll fuel tick now waves (line.map wake) = some seen) :
    (∀ y ∈ seen, W y.1.bare.event ∧ ∀ f ∈ y.2.firings, F y.1.bare.event f) ∧
      ∀ l ∈ line, ∃ y ∈ seen, y.1.life.owner = l.owner ∧
        ∀ f, F l.slot.event f → F y.1.bare.event f := by
  induction waves generalizing line seen with
  | zero => cases h
  | succ waves ih =>
    simp only [visitAll, Option.bind_eq_bind, Option.bind_eq_some_iff] at h
    obtain ⟨first, hfirst, h⟩ := h
    have hact : ∀ {l : Life α ε} {y : Today α ε × Effects ε},
        Today.act (Slot.visit fuel now) (wake l) = some y →
          y.1.life = l ∧ Slot.Turns W F l.slot y.2 y.1.bare :=
      turns_of_act fun _ _ _ hs => Slot.turns_of_visit hK.diarist hs
    have hseen : ∀ y ∈ first, W y.1.bare.event ∧ (∀ e ∈ y.2.events, W e) ∧
        ∀ f ∈ y.2.firings, F y.1.bare.event f := by
      intro y hy
      obtain ⟨x, hx, hxy⟩ := mem_of_mapM hfirst y hy
      obtain ⟨l, hl, rfl⟩ := List.mem_map.1 hx
      obtain ⟨-, hturns⟩ := hact hxy
      obtain ⟨hevent, hevents⟩ := hturns.events (hline l hl)
      exact ⟨hevent, hevents, hturns.firings⟩
    have hkept : ∀ l ∈ line, ∃ y ∈ first, y.1.life.owner = l.owner ∧
        ∀ f, F l.slot.event f → F y.1.bare.event f := by
      intro l hl
      obtain ⟨y, hy, hxy⟩ := exists_mem_of_mapM hfirst _ (List.mem_map_of_mem hl)
      obtain ⟨hlife, hturns⟩ := hact hxy
      exact ⟨y, hy, by rw [hlife], hturns.kept⟩
    split at h
    · cases h
      exact ⟨fun y hy => ⟨(hseen y hy).1, (hseen y hy).2.2⟩, hkept⟩
    · obtain ⟨later, hlater, h⟩ := Option.bind_eq_some_iff.1 h
      cases h
      have hheirs : ∀ l ∈ heirs tick first, W l.slot.event := by
        intro l hl
        obtain ⟨y, hy, hl⟩ := List.mem_flatMap.1 hl
        obtain ⟨e, he, rfl⟩ := List.mem_map.1 hl
        exact (hseen y hy).2.1 e he
      obtain ⟨hlaterSeen, -⟩ := ih hheirs hlater
      refine ⟨List.forall_mem_append.2 ⟨?_, hlaterSeen⟩, fun l hl => ?_⟩
      · exact fun y hy => ⟨(hseen y hy).1, (hseen y hy).2.2⟩
      · obtain ⟨y, hy, hsame⟩ := hkept l hl
        exact ⟨y, List.mem_append_left _ hy, hsame⟩

/-! ## Whole runs -/

/-- Parting a list loses nothing of it. -/
theorem mem_parted {β : Type} {p : β → Bool} {ls hs gs : List β} {x : β} :
    x ∈ (ls.filter (!p ·) ++ hs) ++ (gs ++ ls.filter p) ↔ x ∈ ls ∨ x ∈ hs ∨ x ∈ gs := by
  cases h : p x <;> simp [h, or_comm, or_left_comm]

/-- All events of the history are in `W`, and what has fired since the log was `log` was fired by
one of them. -/
structure Accounts (W : ε → Prop) (F : ε → Firing → Prop) (log : List (α × Firing))
    (c : Chronicle α ε) : Prop where
  lives : ∀ l ∈ c.live ++ c.gone, W l.slot.event
  log : ∀ x ∈ c.log, x ∈ log ∨ ∃ l ∈ c.live ++ c.gone, l.owner = x.1 ∧ F l.slot.event x.2

theorem Accounts.process (hK : Keeps W F) {fuel : Nat} {log : List (α × Firing)}
    {c c' : Chronicle α ε} (hc : c.Accounts W F log) (h : c.process fuel = some c') :
    c'.Accounts W F log := by
  simp only [Chronicle.process, Option.bind_eq_bind, Option.bind_eq_some_iff] at h
  obtain ⟨seen, hseen, retired, hretired, h⟩ := h
  cases h
  obtain ⟨hlive, hgone⟩ := List.forall_mem_append.1 hc.lives
  obtain ⟨hvisited, hkept⟩ := turns_of_visitAll hK hlive hseen
  have hact : ∀ {x : Today α ε} {y : Today α ε × Effects ε},
      Today.act (Slot.retire fuel c.clock.beat) x = some y →
        y.1.life = x.life ∧ Slot.Turns W F x.bare y.2 y.1.bare :=
    turns_of_act fun _ _ _ hs => Slot.turns_of_retire hK.diarist hs
  have hretire : ∀ y ∈ retired, (W y.1.bare.event ∧ ∀ e ∈ y.2.events, W e) ∧
      ∀ f ∈ y.2.firings, F y.1.bare.event f := by
    intro y hy
    obtain ⟨x, hx, hxy⟩ := mem_of_mapM hretired y hy
    obtain ⟨z, hz, rfl⟩ := List.mem_map.1 hx
    obtain ⟨-, hturns⟩ := hact hxy
    exact ⟨hturns.events (hvisited z hz).1, hturns.firings⟩
  -- each member of the line is in the history after the tick, wherever it went
  have hfound : ∀ y ∈ retired, ∀ f, F y.1.bare.event f →
      ∃ l ∈ retired.map fun y => y.1.close c.ticks c.clock.beat,
        l.owner = y.1.life.owner ∧ F l.slot.event f := fun y hy f hf =>
    ⟨y.1.close c.ticks c.clock.beat, List.mem_map_of_mem hy, rfl, hf⟩
  have hfoundSeen : ∀ z ∈ seen, ∀ f, F z.1.bare.event f →
      ∃ l ∈ retired.map fun y => y.1.close c.ticks c.clock.beat,
        l.owner = z.1.life.owner ∧ F l.slot.event f := by
    intro z hz f hf
    obtain ⟨y, hy, hzy⟩ := exists_mem_of_mapM hretired z.1 (List.mem_map_of_mem hz)
    obtain ⟨hlife, hturns⟩ := hact hzy
    rw [← hlife]
    exact hfound y hy f (hturns.kept f hf)
  refine ⟨fun l hl => ?_, fun x hx => ?_⟩
  · rcases mem_parted.1 hl with hl | hl | hl
    · obtain ⟨y, hy, rfl⟩ := List.mem_map.1 hl
      exact (hretire y hy).1.1
    · obtain ⟨y, hy, hl⟩ := List.mem_flatMap.1 hl
      obtain ⟨e, he, rfl⟩ := List.mem_map.1 hl
      exact (hretire y hy).1.2 e he
    · exact hgone l hl
  · rcases List.mem_append.1 hx with hx | hx
    · obtain ⟨y, hy, hx⟩ := List.mem_flatMap.1 (List.mem_reverse.1 hx)
      obtain ⟨f, hf, rfl⟩ := List.mem_map.1 hx
      have hlife := (List.mem_append.1 hy).elim
        (fun hy => hfoundSeen y hy f ((hvisited y hy).2 f hf))
        (fun hy => hfound y hy f ((hretire y hy).2 f hf))
      exact .inr (hlife.imp fun l hl => ⟨mem_parted.2 (.inl hl.1), hl.2⟩)
    · rcases hc.log x hx with hx | ⟨l, hl, howner, hl'⟩
      · exact .inl hx
      · rcases List.mem_append.1 hl with hl | hl
        · obtain ⟨z, hz, hsame, hkeep⟩ := hkept l hl
          rw [← howner, ← hsame]
          exact .inr ((hfoundSeen z hz x.2 (hkeep _ hl')).imp fun l hl =>
            ⟨mem_parted.2 (.inl hl.1), hl.2⟩)
        · exact .inr ⟨l, mem_parted.2 (.inr (.inr hl)), howner, hl'⟩

theorem Accounts.perform (hK : Keeps W F) {log : List (α × Firing)} {d : Deed α ε}
    {c c' : Chronicle α ε} (hc : c.Accounts W F log) (hd : ∀ owner e, d = .add owner e → W e)
    (h : c.perform d = some c') : c'.Accounts W F log := by
  cases d with
  | tick fuel k =>
    exact Accounts.process (c := { c with clock := k.clock c.clock }) hK ⟨hc.lives, hc.log⟩ h
  | add owner e =>
    cases h
    have hmore : ∀ l ∈ c.live ++ c.gone, l ∈ c.live ++
        [{ owner, arrival := c.ticks, slot := { event := e } }] ++ c.gone := by
      intro l hl
      rw [List.append_assoc, List.mem_append]
      exact (List.mem_append.1 hl).imp_right (List.mem_append_right _)
    refine ⟨fun l hl => ?_, fun x hx => ?_⟩
    · rcases List.mem_append.1 hl with hl | hl
      · rcases List.mem_append.1 hl with hl | hl
        · exact hc.lives l (List.mem_append_left _ hl)
        · obtain rfl := List.mem_singleton.1 hl
          exact hd owner e rfl
      · exact hc.lives l (List.mem_append_right _ hl)
    · refine (hc.log x hx).imp_right ?_
      rintro ⟨l, hl, hfired⟩
      exact ⟨l, hmore l hl, hfired⟩

theorem Accounts.run (hK : Keeps W F) {log : List (α × Firing)} {deeds : List (Deed α ε)}
    {c c' : Chronicle α ε} (hc : c.Accounts W F log)
    (hdeeds : ∀ owner e, .add owner e ∈ deeds → W e) (h : c.run deeds = some c') :
    c'.Accounts W F log := by
  induction deeds generalizing c with
  | nil =>
    cases h
    exact hc
  | cons d deeds ih =>
    rw [Chronicle.run, List.foldlM_cons] at h
    obtain ⟨c₁, hd, hrest⟩ := Option.bind_eq_some_iff.1 h
    refine ih (hc.perform hK (fun owner e hde => ?_) hd) (fun owner e he => ?_) hrest
    · exact hdeeds owner e (hde ▸ List.mem_cons_self)
    · exact hdeeds owner e (List.mem_cons_of_mem _ he)

end Chronicle

end Downbeat
