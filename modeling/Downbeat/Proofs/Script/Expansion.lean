import Mathlib.Algebra.Order.BigOperators.Group.List
import Downbeat.Proofs.Beat.Exact
import Downbeat.Proofs.Script.Passes
import Downbeat.Rehearsal.Cast

/-!
# Where the entries of a subroutine begin

A subroutine is shown the beat at which its entries are to begin (`Context.origin`), but its
entries go to the end of the queue, behind all that waits there (`Script.place_of_brings`). So
the rests that wait move them on. Where no sum is rounded, an event that no rest of its own
subroutine precedes is placed at its own beat plus the origin exactly if no rest of positive
length waits (`Script.placed_at_origin_iff`); a probe in front of a rest shows the difference
(`Script.probed_not_at_origin`).
-/

namespace Downbeat

namespace Beat

/-! ## Sums that are not rounded -/

/-- None of the sums is rounded when the beats are added to `time` one after another. -/
def AreExact (time : Beat) : List Beat → Prop
  | [] => True
  | d :: ds => IsExact time d ∧ AreExact (time + d) ds

instance decidableAreExact : (time : Beat) → (ds : List Beat) → Decidable (AreExact time ds)
  | _, [] => inferInstanceAs (Decidable True)
  | time, d :: ds =>
    have := decidableAreExact (time + d) ds
    inferInstanceAs (Decidable (IsExact time d ∧ AreExact (time + d) ds))

theorem AreExact.value_foldl {time : Beat} {ds : List Beat} (h : AreExact time ds) :
    value (ds.foldl (· + ·) time) = value time + (ds.map value).sum := by
  induction ds generalizing time with
  | nil => simp
  | cons d ds ih =>
    obtain ⟨⟨-, -, hd⟩, hds⟩ := h
    rw [List.foldl_cons, ih hds, hd, List.map_cons, List.sum_cons, add_assoc]

theorem sum_eq_zero_iff {xs : List ℚ} (h : ∀ x ∈ xs, 0 ≤ x) : xs.sum = 0 ↔ ∀ x ∈ xs, x = 0 := by
  constructor
  · intro hsum x hx
    exact List.all_zero_of_le_zero_le_of_sum_eq_zero h hsum hx
  · exact List.sum_eq_zero

end Beat

variable {ε φ : Type}

/-- The rests that move time on are not negative. -/
theorem value_nonneg_of_mem_rests {es : List (Entry ε φ)} {d : Beat}
    (h : d ∈ es.filterMap Entry.rest?) : 0 ≤ Beat.value d := by
  obtain ⟨e, -, he⟩ := List.mem_filterMap.1 h
  cases e with
  | rest x =>
    by_cases hx : Script.IsValidRest x
    · obtain rfl : x = d := by simpa [Entry.rest?, hx] using he
      obtain ⟨hnan, hneg⟩ := not_or.1 hx
      exact Beat.value_nonneg (eq_false_of_ne_true hnan) hneg
    · simp [Entry.rest?, hx] at he
  | _ => cases he

namespace Script

variable [Placed ε] [Subroutine φ ε] [Described φ]

/-! ## First come, first served -/

/-- At the pass `p` a subroutine puts the event `e` into the queue, with no rest among its
entries before it, and at the pass `q` the script gets to it. -/
def Series.Brings (r : Series ε φ) (p q : Pass ε φ) (e : ε) : Prop :=
  ∃ before later pre post, r.passes = before ++ p :: later ∧
    p.added = pre ++ .event e :: post ∧ (∀ x ∈ pre, x.rest? = none) ∧
    later[p.script.pending + pre.length]? = some q

/-- All that waits at an expansion comes before its entries. -/
theorem place_of_brings {fuel : Nat} {nows : List Beat} {s : Script ε φ} {r : Series ε φ}
    {p q : Pass ε φ} {e : ε} (hr : s.drainAll fuel nows = some r) (h : r.Brings p q e) :
    q.entry = .event e ∧ q.script.start = p.script.start ∧
      q.script.internal = elapsed p.script.internal p.script.queue.toList := by
  obtain ⟨before, later, pre, post, hpasses, hadded, hpre, hq⟩ := h
  obtain ⟨hleads, -, -⟩ := leads_of_drainAll hr
  rw [hpasses] at hleads
  obtain ⟨-, -, -, -, hleads⟩ := hleads.cut
  obtain ⟨hstart, -, hinternal, hqueue⟩ := p.after_eq
  -- the passes until the event are over what waits and over `pre`
  obtain ⟨mid, rest, rfl, hmid⟩ : ∃ mid rest, later = mid ++ q :: rest ∧
      mid.length = p.script.pending + pre.length := by
    obtain ⟨hlt, hget⟩ := List.getElem?_eq_some_iff.1 hq
    refine ⟨later.take (p.script.pending + pre.length),
      later.drop (p.script.pending + pre.length + 1), ?_, List.length_take_of_le hlt.le⟩
    rw [← hget, List.getElem_cons_drop, List.take_append_drop]
  have horder : (p.script.queue.toList ++ pre) ++
      (.event e :: (post ++ (mid ++ q :: rest).flatMap Pass.added)) =
      mid.map Pass.entry ++ (q.entry :: (rest.map Pass.entry ++ r.script.queue.toList)) := by
    simpa [hqueue, hadded] using hleads.queue
  obtain ⟨hentries, htail⟩ := List.append_inj horder (by simp [hmid, pending])
  obtain ⟨hstart', -, hinternal'⟩ := hleads.time_at
  refine ⟨(List.cons.inj htail).1.symm, hstart'.trans hstart, ?_⟩
  have hexpand : elapsed p.script.internal [p.entry] = p.script.internal := by
    refine elapsed_of_no_rest fun x hx => ?_
    rw [List.mem_singleton.1 hx]
    cases hp : p.entry with
    | rest d => simp [Pass.added, hp] at hadded
    | _ => rfl
  rw [hinternal', hinternal, hexpand, ← hentries, elapsed_append, elapsed_of_no_rest hpre]

/-! ## The origin -/

/-- Where no sum is rounded, an event of a subroutine that comes before its first rest is
placed as its context says exactly if all rests that wait behind the subroutine have no
length. -/
theorem placed_at_origin_iff {fuel : Nat} {nows : List Beat} {s : Script ε φ} {r : Series ε φ}
    {p q : Pass ε φ} {e : ε} (hr : s.drainAll fuel nows = some r) (h : r.Brings p q e)
    (horigin : Beat.IsExact p.script.start p.script.internal)
    (hrests : Beat.AreExact p.script.internal (p.script.queue.toList.filterMap Entry.rest?))
    (hbeat : Beat.IsExact (Placed.beat e) q.script.start)
    (hdue : Beat.IsExact (Placed.beat e + q.script.start) q.script.internal) :
    q.effects.events = [Placed.moveTo (q.due e) e] ∧
      (Beat.value (q.due e) =
          Beat.value (Placed.beat e) + Beat.value (p.script.context p.now).origin ↔
        ∀ d ∈ p.script.queue.toList.filterMap Entry.rest?, Beat.value d = 0) := by
  obtain ⟨hentry, hstart, hinternal⟩ := place_of_brings hr h
  refine ⟨Pass.events_of_event hentry, ?_⟩
  have hsum : Beat.value (q.due e) =
      Beat.value (Placed.beat e) + Beat.value (p.script.context p.now).origin +
        ((p.script.queue.toList.filterMap Entry.rest?).map Beat.value).sum := by
    have horigin' : Beat.value (p.script.context p.now).origin =
        Beat.value p.script.start + Beat.value p.script.internal := horigin.2.2
    have helapsed : Beat.value q.script.internal = Beat.value p.script.internal +
        ((p.script.queue.toList.filterMap Entry.rest?).map Beat.value).sum := by
      rw [hinternal, elapsed, hrests.value_foldl]
    rw [Pass.due, hdue.2.2, hbeat.2.2, horigin', helapsed, hstart]
    ring
  have hnonneg : ∀ x ∈ (p.script.queue.toList.filterMap Entry.rest?).map Beat.value, 0 ≤ x := by
    intro x hx
    obtain ⟨d, hd, rfl⟩ := List.mem_map.1 hx
    exact value_nonneg_of_mem_rests hd
  rw [hsum, add_eq_left, Beat.sum_eq_zero_iff hnonneg, List.forall_mem_map]

/-- A probe of the context in front of a rest of four beats. -/
def probed : Script Act Routine :=
  { start := 0, runahead := 0, queue := .ofList [.expand .probe, .rest 4] }

/-- The script gets to the probe. -/
def probing : Pass Act Routine :=
  ⟨{ probed with queue := .ofList [.rest 4], begun := true }, 0, .expand .probe⟩

/-- The cue of the probe that shows the origin. -/
def originCue : Act := .cue { label := "absolute", kind := .camera 0 }

theorem brings_originCue : ∃ r q, probed.drainAll 20 [0, 4] = some r ∧
    r.Brings probing q originCue ∧ q.script.start = 0 ∧ q.script.internal = 4 := by
  refine ⟨_, _, rfl, ⟨[], _, probing.added.take 4, [], rfl, rfl, ?_, rfl⟩, rfl, rfl⟩
  decide +kernel

theorem placed_at_origin_iff_probed : ∃ r q, probed.drainAll 20 [0, 4] = some r ∧
    r.Brings probing q originCue ∧
    q.effects.events = [Placed.moveTo (q.due originCue) originCue] ∧
      (Beat.value (q.due originCue) = Beat.value (Placed.beat originCue) +
          Beat.value (probing.script.context probing.now).origin ↔
        ∀ d ∈ probing.script.queue.toList.filterMap Entry.rest?, Beat.value d = 0) := by
  obtain ⟨r, q, hr, h, hstart, hinternal⟩ := brings_originCue
  refine ⟨r, q, hr, h, placed_at_origin_iff hr h ?_ ?_ ?_ ?_⟩
  · decide +kernel
  · decide +kernel
  · rw [hstart]
    decide +kernel
  · rw [hstart, hinternal]
    decide +kernel

/-- The probe is shown beat zero as its origin, and its cue lands at beat four. -/
theorem probed_not_at_origin : ∃ r q, probed.drainAll 20 [0, 4] = some r ∧
    r.Brings probing q originCue ∧
    Placed.beat originCue + (probing.script.context probing.now).origin = 0 ∧
    q.effects.events.map Placed.beat = [4] := by
  obtain ⟨r, q, hr, h, hstart, hinternal⟩ := brings_originCue
  refine ⟨r, q, hr, h, by decide +kernel, ?_⟩
  rw [Pass.events_of_event (place_of_brings hr h).1, Pass.due, hstart, hinternal]
  decide +kernel

end Script

end Downbeat
