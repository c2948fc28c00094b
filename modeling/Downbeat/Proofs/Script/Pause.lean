import Downbeat.Proofs.Script.Walk

/-!
# A limit only pauses

A script with a limit ends each of its drains, whatever its subroutines do, after at most as many
entries as the limit allows (`Script.exists_drainFrom_of_limit`). Where the drain of the same script
without a limit ends well, the limit does not change what is done : a drain within the limit is the
same, and one beyond it is cut off at the limit, and taken up there by the next one
(`Script.limit_only_pauses`).
-/

set_option linter.unusedSectionVars false

namespace Downbeat.Script

variable {ε φ : Type}

/-! ## Scripts that differ in their limits -/

/-- The script with another limit. -/
def withLimit (limit : Option Nat) (s : Script ε φ) : Script ε φ := { s with limit }

/-- The pass, of the script with another limit. -/
def Pass.withLimit (limit : Option Nat) (p : Pass ε φ) : Pass ε φ :=
  { p with script := p.script.withLimit limit }

/-- What the drain did, for the script with another limit. -/
def Drained.withLimit (limit : Option Nat) (d : Drained ε φ) : Drained ε φ :=
  { d with script := d.script.withLimit limit }

theorem reach_withLimit {limit : Option Nat} {s left : Script ε φ} {e : Entry ε φ}
    (h : s.reach = some (e, left)) :
    (s.withLimit limit).reach = some (e, left.withLimit limit) := by
  obtain ⟨rest, hq, rfl⟩ := reach_eq_some_iff.1 h
  exact reach_eq_some_iff.2 ⟨rest, hq, rfl⟩

theorem idle_withLimit {limit : Option Nat} {now : Beat} {s : Script ε φ}
    (h : s.isReady now = false ∨ s.reach = none) :
    (s.withLimit limit).isReady now = false ∨ (s.withLimit limit).reach = none := by
  refine h.imp_right fun h => ?_
  rw [reach, Option.map_eq_none_iff] at h ⊢
  exact h

theorem isAtLimit_of_lt {L n : Nat} {s : Script ε φ} (hlimit : s.limit = some L) (hn : n < L) :
    s.isAtLimit n = false := by
  rw [isAtLimit, hlimit, Option.any_some, decide_eq_false_iff_not, Nat.not_le]
  exact hn

variable [Placed ε] [Subroutine φ ε] [Described φ]

/-- The limit has no part in how an entry is worked off. -/
theorem done_withLimit (limit : Option Nat) (p : Pass ε φ) :
    (p.withLimit limit).done = (p.done.1.withLimit limit, p.done.2) := by
  obtain ⟨s, now, e⟩ := p
  cases e with
  | rest d =>
    by_cases hd : IsValidRest d <;> simp [Pass.done, Pass.withLimit, consume, hd, withLimit]
  | _ => rfl

@[simp] theorem effects_withLimit (limit : Option Nat) (p : Pass ε φ) :
    (p.withLimit limit).effects = p.effects := by
  rw [Pass.effects, done_withLimit, Pass.effects]

theorem Walks.withLimit {now : Beat} {s t : Script ε φ} {ps : List (Pass ε φ)}
    (h : Walks now s ps t) (limit : Option Nat) :
    Walks now (s.withLimit limit) (ps.map (·.withLimit limit)) (t.withLimit limit) := by
  induction h with
  | refl s => exact .refl _
  | @pass s left t e ps ready reach _ ih =>
    refine .pass ready (reach_withLimit reach) ?_
    have hafter : (Pass.mk (left.withLimit limit) now e).after =
        (Pass.mk left now e).after.withLimit limit :=
      congrArg Prod.fst (done_withLimit limit (Pass.mk left now e))
    rw [hafter]
    exact ih

theorem Drained.afterAll_withLimit (limit : Option Nat) (ps : List (Pass ε φ))
    (d : Drained ε φ) : (d.withLimit limit).afterAll (ps.map (·.withLimit limit)) =
      (d.afterAll ps).withLimit limit := by
  induction ps with
  | nil => rfl
  | cons p ps ih =>
    show ((d.withLimit limit).afterAll (ps.map (·.withLimit limit))).after _ _ = _
    rw [ih, effects_withLimit]
    rfl

/-! ## The end of a drain -/

/-- A drain of a script with a limit ends, and has got to no more entries than the limit allows. -/
theorem exists_drainFrom_of_limit {L : Nat} {now : Beat} {fuel spent : Nat} {s : Script ε φ}
    (hlimit : s.limit = some L) (hspent : spent ≤ L) (hfuel : L < spent + fuel) :
    ∃ d, drainFrom now fuel spent s = some d ∧
      spent + (passes now fuel spent s).length ≤ L := by
  induction fuel generalizing s spent with
  | zero => omega
  | succ fuel ih =>
    have hspec := turn_spec now spent s
    rw [drainFrom, passes]
    generalize s.turn now spent = turn at hspec ⊢
    have hroom : s.isAtLimit spent = decide (L ≤ spent) := by
      rw [isAtLimit, hlimit, Option.any_some]
    cases hspec with
    | idle _ =>
      refine ⟨_, rfl, ?_⟩
      cases s.reach <;> exact hspent
    | putBack _ _ reach =>
      rw [reach]
      exact ⟨_, rfl, hspent⟩
    | dropped _ room reach _ =>
      rw [room, eq_comm, decide_eq_false_iff_not, Nat.not_le] at hroom
      rw [reach]
      exact ⟨_, rfl, hroom⟩
    | @worked e left t fx _ room reach done =>
      rw [room, eq_comm, decide_eq_false_iff_not, Nat.not_le] at hroom
      obtain ⟨d, hd, hlength⟩ :=
        ih ((limit_of_worked reach done).trans hlimit) hroom (by omega)
      rw [reach]
      refine ⟨d.after e fx, ?_, ?_⟩
      · dsimp only
        rw [hd, Option.map_some]
      · rwa [List.length_cons, Nat.add_comm _ 1, ← Nat.add_assoc]

/-! ## Drains one after another -/

/-- Drains that are made one after another go along a walk, each as far as the limit allows, and all
but the last of them end at the limit. -/
theorem exists_drainAll_of_limit {L : Nat} (hL : 1 ≤ L) {now : Beat} {fuel : Nat}
    {s t : Script ε φ} {ps : List (Pass ε φ)} (hlimit : s.limit = some L)
    (h : Walks now s ps t) (hok : ∀ p ∈ ps, p.entry.fault? = none)
    (hidle : t.isReady now = false ∨ t.reach = none) (hfuel : ps.length < fuel) :
    ∃ r last, s.drainAll fuel (List.replicate ((ps.length - 1) / L + 1) now) = some r ∧
      r.script = t ∧ r.passes = ps ∧
      r.outcomes =
        List.replicate ((ps.length - 1) / L) (.error (.limitReached L now)) ++ [.ok last] := by
  induction hlength : ps.length using Nat.strong_induction_on generalizing s ps with
  | _ n ih =>
    by_cases hn : n ≤ L
    · -- one drain is enough
      have hone : (n - 1) / L = 0 := Nat.div_eq_of_lt (by omega)
      obtain ⟨hdrain, hpasses⟩ :=
        h.drainFrom_of_idle hok (fun m hm => isAtLimit_of_lt hlimit (by omega)) hfuel hidle
      obtain ⟨last, hlast⟩ : ∃ last,
          (Drained.afterAll ps ⟨t, {}, .ok {}⟩).outcome = .ok last := by
        rw [Drained.outcome_afterAll]
        exact ⟨_, rfl⟩
      rw [hone]
      refine ⟨_, last, drainAll_of_drainFrom hdrain (Drained.script_afterAll _ _) rfl, rfl, ?_, ?_⟩
      · rw [hpasses, List.append_nil]
      · rw [hlast]
        rfl
    · -- the first drain gets to `L` entries, and leaves the others
      have hfirst : (ps.take L).length = L := List.length_take_of_le (by omega)
      rw [← List.take_append_drop L ps] at h
      obtain ⟨u, htake, hdrop⟩ := h.split
      obtain ⟨p, rest, hp⟩ : ∃ p rest, ps.drop L = p :: rest := by
        refine List.exists_cons_of_ne_nil fun hnil => ?_
        have := List.drop_eq_nil_iff.1 hnil
        omega
      obtain ⟨ready, reach, -, -⟩ := (hp ▸ hdrop).uncons
      have hu : u.limit = some L := htake.limit.trans hlimit
      have hbegun : { u with begun := true } = u := by
        have : u.begun = true := htake.begun fun hnil => by simp [hnil] at hfirst; omega
        cases u
        simp_all
      have hmany : (ps.take L).length < fuel := by omega
      obtain ⟨hdrain, hpasses⟩ := htake.drainFrom_of_limit
        (fun q hq => hok q (List.mem_of_mem_take hq))
        (fun m hm => isAtLimit_of_lt hlimit (by omega)) hmany ready reach (by simp [isAtLimit, hu, hfirst])
      rw [hbegun, hu, Option.getD_some] at hdrain
      have hlater : (ps.drop L).length = n - L := by rw [List.length_drop, hlength]
      obtain ⟨r, last, hr, hscript, hrpasses, houtcomes⟩ := ih (n - L) (by omega) hu hdrop
        (fun q hq => hok q (List.mem_of_mem_drop hq)) (by omega) hlater
      have hcount : (n - 1) / L = (n - L - 1) / L + 1 := by
        rw [Nat.div_eq_sub_div hL (by omega), Nat.sub_right_comm]
      rw [hcount, List.replicate_succ]
      refine ⟨_, last, drainAll_of_drainFrom hdrain (Drained.script_afterAll _ _) hr, hscript,
        ?_, ?_⟩
      · rw [hpasses, hrpasses, List.take_append_drop]
      · rw [houtcomes, Drained.outcome_afterAll]
        rfl

/-! ## With a limit and without -/

/-- What the limit `L` makes of the drain `d` of the script without a limit : nothing if that drain
takes no more than `L` entries off the queue, and pauses otherwise. -/
structure Pauses (L : Nat) (now : Beat) (fuel : Nat) (s : Script ε φ) (d : Drained ε φ) :
    Prop where
  /-- Within the limit the drain is the same. -/
  within : ((s.withLimit none).passes now fuel 0).length ≤ L →
    (s.withLimit (some L)).drain fuel now = some (d.withLimit (some L))
  /-- Beyond the limit the drain fails when it has worked off the first `L` entries, and the next
  one is at the head of the queue again, with all else as it was when the script got there. -/
  beyond : ∀ {p : Pass ε φ}, ((s.withLimit none).passes now fuel 0)[L]? = some p →
    ∃ d', (s.withLimit (some L)).drain fuel now = some d' ∧
      d'.outcome = .error (.limitReached L now) ∧
      (s.withLimit (some L)).passes now fuel 0 =
        (((s.withLimit none).passes now fuel 0).take L).map (·.withLimit (some L)) ∧
      d'.effects.events =
        (((s.withLimit none).passes now fuel 0).take L).flatMap (·.effects.events) ∧
      d'.effects.marks =
        (((s.withLimit none).passes now fuel 0).take L).flatMap (·.effects.marks) ∧
      d'.script.reach = some (p.entry, p.script.withLimit (some L)) ∧
      d'.script.queue.toList = p.entry :: p.script.queue.toList
  /-- Drains that are made until one ends well do together what the drain without a limit does. -/
  resumed : ∃ r last, (s.withLimit (some L)).drainAll fuel
        (List.replicate ((((s.withLimit none).passes now fuel 0).length - 1) / L + 1) now) =
      some r ∧
    r.outcomes = List.replicate ((((s.withLimit none).passes now fuel 0).length - 1) / L)
      (.error (.limitReached L now)) ++ [.ok last] ∧
    r.script = d.script.withLimit (some L) ∧ r.effects.events = d.effects.events ∧
    r.effects.marks = d.effects.marks

theorem marks_of_drain {fuel : Nat} {now : Beat} {s : Script ε φ} {d : Drained ε φ}
    (h : s.drain fuel now = some d) :
    d.effects.events = (s.passes now fuel 0).flatMap (·.effects.events) ∧
      d.effects.marks = (s.passes now fuel 0).flatMap (·.effects.marks) := by
  have hone : s.drainAll fuel [now] = some
      ⟨d.script, s.passes now fuel 0 ++ [], d.effects ++ {}, [d.outcome]⟩ := by
    rw [drainAll, h]
    rfl
  have hevents := (leads_of_drainAll hone).2.1
  have hmarks := marks_of_drainAll hone
  rw [List.append_nil, Effects.append_empty] at hevents hmarks
  exact ⟨hevents, hmarks⟩

section

variable {L : Nat} {now : Beat} {fuel : Nat} {s t : Script ε φ} {ps : List (Pass ε φ)}
  (h : Walks now (s.withLimit none) ps t) (hok : ∀ p ∈ ps, p.entry.fault? = none)
  (hidle : t.isReady now = false ∨ t.reach = none) (hfuel : ps.length < fuel)
include h hok hfuel

include hidle in
/-- Within the limit a drain gets to the end of the walk. -/
theorem drainFrom_within_limit (hlength : ps.length ≤ L) :
    drainFrom now fuel 0 (s.withLimit (some L)) =
      some ((Drained.afterAll ps ⟨t, {}, .ok {}⟩).withLimit (some L)) := by
  obtain ⟨hdrain, -⟩ := (h.withLimit (some L)).drainFrom_of_idle
    (List.forall_mem_map.2 hok) (fun n hn => isAtLimit_of_lt rfl (by simp at hn; omega))
    (by rwa [List.length_map]) (idle_withLimit hidle)
  rw [← Drained.afterAll_withLimit]
  exact hdrain

/-- Beyond the limit a drain gets as far as the limit. -/
theorem drainFrom_beyond_limit {p : Pass ε φ} (hp : ps[L]? = some p) :
    ∃ d, drainFrom now fuel 0 (s.withLimit (some L)) = some d ∧
      d.outcome = .error (.limitReached L now) ∧
      (s.withLimit (some L)).passes now fuel 0 = (ps.take L).map (·.withLimit (some L)) ∧
      d.script.reach = some (p.entry, p.script.withLimit (some L)) := by
  obtain ⟨hlt, rfl⟩ := List.getElem?_eq_some_iff.1 hp
  have hfirst : (ps.take L).length = L := List.length_take_of_le hlt.le
  rw [← List.take_append_drop L ps, List.drop_eq_getElem_cons hlt] at h
  obtain ⟨u, htake, hrest⟩ := h.split
  obtain ⟨ready, reach, -, -⟩ := hrest.uncons
  have hmany : ((ps.take L).map (·.withLimit (some L))).length < fuel := by
    rw [List.length_map]
    omega
  obtain ⟨hdrain, hpasses⟩ := (htake.withLimit (some L)).drainFrom_of_limit
    (List.forall_mem_map.2 fun q hq => hok q (List.mem_of_mem_take hq))
    (fun n hn => isAtLimit_of_lt rfl (by rwa [List.length_map, hfirst] at hn))
    hmany ready (reach_withLimit reach) (by simp [isAtLimit, Script.withLimit, hlt.le])
  refine ⟨_, hdrain, ?_, hpasses, ?_⟩
  · rw [Drained.outcome_afterAll]
    rfl
  · have hreach : (u.withLimit (some L)).reach = _ := reach_withLimit reach
    rw [Drained.script_afterAll]
    exact hreach

end

/-- A drain with the limit `L` ends after at most `L` entries. If the drain without a limit ends
well, the limit changes nothing of what is done, but only pauses it. -/
theorem limit_only_pauses (s : Script ε φ) (L : Nat) (now : Beat) :
    (∃ d, (s.withLimit (some L)).drain (L + 1) now = some d ∧
      ((s.withLimit (some L)).passes now (L + 1) 0).length ≤ L) ∧
    ∀ {fuel : Nat} {d : Drained ε φ} {report : Report}, 1 ≤ L →
      (s.withLimit none).drain fuel now = some d → d.outcome = .ok report →
      s.Pauses L now fuel d := by
  constructor
  · have hlimit : (s.withLimit (some L)).limit = some L := rfl
    have hfuel : L < 0 + (L + 1) := by omega
    obtain ⟨d, hd, hlength⟩ := exists_drainFrom_of_limit hlimit (Nat.zero_le L) hfuel
    obtain ⟨d', hd', -⟩ := exists_drain_of_drainFrom hd
    exact ⟨d', hd', by omega⟩
  intro fuel d report hL hdrain hreport
  obtain ⟨d₀, hd₀, hd⟩ := Option.map_eq_some_iff.1 hdrain
  have hreport₀ : d₀.outcome = .ok report := by
    rw [← hd] at hreport
    exact hreport
  obtain ⟨hwalks, hok, hfuel⟩ := walks_of_drainFrom hd₀ hreport₀
  have hidle := (drains_of_drainFrom hd₀).idle_of_ok hreport₀
  obtain ⟨hfree, -⟩ := hwalks.drainFrom_of_idle hok (fun _ _ => rfl) hfuel hidle
  have hd₀eq := Option.some.inj (hd₀.symm.trans hfree)
  refine ⟨fun hlength => ?_, fun {p} hp => ?_, ?_⟩
  · rw [drain, drainFrom_within_limit hwalks hok hidle hfuel hlength, ← hd₀eq, ← hd]
    rfl
  · obtain ⟨d₁, hd₁, houtcome, hpasses, hreach⟩ := drainFrom_beyond_limit hwalks hok hfuel hp
    have hdrain₁ : (s.withLimit (some L)).drain fuel now = some _ :=
      Option.map_eq_some_iff.2 ⟨d₁, hd₁, rfl⟩
    obtain ⟨hevents, hmarks⟩ := marks_of_drain hdrain₁
    rw [hpasses, List.flatMap_map] at hevents hmarks
    simp only [effects_withLimit] at hevents hmarks
    have hqueue := toList_of_reach hreach
    exact ⟨_, hdrain₁, houtcome, hpasses, hevents, hmarks, hreach, hqueue⟩
  · obtain ⟨r, last, hr, hscript, hpasses, houtcomes⟩ := exists_drainAll_of_limit hL rfl
      (hwalks.withLimit (some L)) (List.forall_mem_map.2 hok) (idle_withLimit hidle)
      (by rwa [List.length_map])
    rw [List.length_map] at hr houtcomes
    obtain ⟨hevents, hmarks⟩ := marks_of_drain hdrain
    have hrevents := (leads_of_drainAll hr).2.1
    have hrmarks := marks_of_drainAll hr
    rw [hpasses, List.flatMap_map] at hrevents hrmarks
    simp only [effects_withLimit] at hrevents hrmarks
    exact ⟨r, last, hr, houtcomes, hscript.trans (hd ▸ rfl), hrevents.trans hevents.symm,
      hrmarks.trans hmarks.symm⟩

/-- A script that has an opening, a marker and an end to get to. -/
def crowded : Script Playback.ShowEvent Phase :=
  { start := 4
    runahead := 2
    queue := .ofList [.cue (.light "dusk" "blue"), .rest 1, .expand (.opening { loops := some 0 }),
      .marker (.log "up"), .stop, .rest (-1)] }

theorem limit_only_pauses_crowded :
    (∃ d, (crowded.withLimit (some 3)).drain 4 9 = some d ∧
      ((crowded.withLimit (some 3)).passes 9 4 0).length ≤ 3) ∧
    ∃ d, (crowded.withLimit none).drain 20 9 = some d ∧ d.outcome.isOk = true ∧
      3 < ((crowded.withLimit none).passes 9 20 0).length ∧ crowded.Pauses 3 9 20 d := by
  obtain ⟨hends, hpauses⟩ := limit_only_pauses crowded 3 9
  have hrun : ((crowded.withLimit none).drain 20 9).map (·.outcome.isOk) = some true := by
    decide +kernel
  obtain ⟨d, hd, hok⟩ := Option.map_eq_some_iff.1 hrun
  obtain ⟨report, hreport⟩ : ∃ report, d.outcome = .ok report := by
    cases hd' : d.outcome with
    | error f => simp [hd', Except.isOk, Except.toBool] at hok
    | ok report => exact ⟨report, rfl⟩
  exact ⟨hends, d, hd, hok, by decide +kernel, hpauses (by decide) hd hreport⟩

end Downbeat.Script
