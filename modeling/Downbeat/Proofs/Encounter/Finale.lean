import Downbeat.Proofs.Encounter.Score

/-!
# An encounter with a count of loops ends

A part of an encounter brings on less work than it is (`Phase.expand_spec`), so the work that is
left in the queue of its script goes down with every entry that a drain gets to
(`Phase.Goes.consume`). The queue of such a script always ends with a further part or with the
stop, and at the end of time no rest keeps the script from it : a drain there stops the script
(`Phase.exists_drainFrom_stopped`). A script that is stopped, by drains at whatever beats, has
played the score of its encounter (`Phase.played_of_stopped`).
-/

set_option linter.unusedSectionVars false

namespace Downbeat

namespace Phase

open Script

variable {κ : Type}

/-! ## Work -/

/-- The number of loops is limited. -/
def IsBounded : Phase → Prop
  | opening c => c.loops.isSome = true
  | loop remaining _ => remaining.isSome = true
  | outro => True

/-- A bound on the entries that come of a part, itself included. -/
def work : Phase → Nat
  | opening c => 10 * c.loops.elim 0 UInt32.toNat + 13
  | loop remaining _ => 10 * remaining.elim 0 UInt32.toNat + 7
  | outro => 6

/-- A bound on the entries that come of an entry, itself included. -/
def entryWork : Entry (Event κ Phase) Phase → Nat
  | .expand f => f.work
  | _ => 1

/-- The entry is no rest that is not valid, and comes to an end. -/
def Tame : Entry (Event κ Phase) Phase → Prop
  | .rest d => IsValidRest d ∧ d.isFinite = true
  | .expand f => f.IsBounded
  | _ => True

theorem forall_tame_entries (p : Pattern) :
    ∀ e ∈ (p.entries : List (Entry (Event κ Phase) Phase)), Tame e := by
  cases p <;> simp [Pattern.entries, Tame, Entry.cue] <;> decide +kernel

theorem exists_loop_eq {remaining : Option UInt32} (h : remaining.isSome = true) :
    ∃ n : Nat, n < 2 ^ 32 ∧ remaining = some (UInt32.ofNat n) ∧
      remaining.elim 0 UInt32.toNat = n := by
  obtain ⟨k, rfl⟩ := Option.isSome_iff_exists.1 h
  exact ⟨k.toNat, k.toNat_lt, by rw [UInt32.ofNat_toNat], rfl⟩

theorem sum_work_attack_le (iteration : UInt32) (p : Pattern) :
    ((attack iteration p : List (Entry (Event κ Phase) Phase)).map entryWork).sum ≤ 9 := by
  cases p <;> simp [attack, Pattern.entries, Entry.cue, entryWork]

/-- A part brings on less work than it is, all of which is tame, and last another part or a
stop. -/
theorem expand_spec {f : Phase} (hf : f.IsBounded) (rolls : Rolls) :
    ((f.expand rolls : List (Entry (Event κ Phase) Phase) × Rolls).1.map entryWork).sum < f.work ∧
      (∀ e ∈ (f.expand rolls : List (Entry (Event κ Phase) Phase) × Rolls).1, Tame e) ∧
      ∃ before last, (f.expand rolls : List (Entry (Event κ Phase) Phase) × Rolls).1 =
        before ++ [last] ∧ ¬last.IsPlain := by
  have hfour : IsValidRest 4 ∧ (4 : Beat).isFinite = true := by decide +kernel
  cases f with
  | opening c =>
    have hloop : entryWork ((loops c.loops).entry : Entry (Event κ Phase) Phase) =
      10 * c.loops.elim 0 UInt32.toNat + 7 := rfl
    refine ⟨?_, ?_, (openingEntries c).take 5, (loops c.loops).entry, rfl, id⟩
    · simp [expand, openingEntries, hloop, work, Entry.cue]
      simp [entryWork]
      omega
    · simp [expand, openingEntries, Tame, Entry.cue, hfour]
      exact hf
  | outro =>
    refine ⟨?_, ?_, outroEntries.take 4, .stop, rfl, id⟩
    · simp [expand, outroEntries, entryWork, work, Entry.cue]
    · simp [expand, outroEntries, Tame, Entry.cue, hfour]
  | loop remaining iteration =>
    obtain ⟨n, hn, rfl, hwork⟩ := exists_loop_eq hf
    have hloop : (loop (some (UInt32.ofNat n)) iteration).work = 10 * n + 7 := by
      rw [work, hwork]
    rw [hloop]
    cases n with
    | zero =>
      refine ⟨?_, ?_, [], outro.entry, rfl, id⟩
      · show 6 < _
        omega
      · exact List.forall_mem_singleton.2 trivial
    | succ n =>
      have hnext : entryWork ((loop (some (UInt32.ofNat n)) (iteration + 1)).entry :
          Entry (Event κ Phase) Phase) = 10 * n + 7 := by
        show 10 * (UInt32.ofNat n).toNat + 7 = _
        rw [UInt32.toNat_ofNat_of_lt' (Nat.lt_of_succ_lt hn)]
      have hattack := sum_work_attack_le (κ := κ) iteration (Pattern.pick rolls.draw.1)
      rw [expand_loop_succ hn]
      refine ⟨?_, ?_, _, _, rfl, id⟩
      · simp only [List.map_append, List.map_cons, List.map_nil, List.sum_append, List.sum_cons,
          List.sum_nil, hnext]
        omega
      · rw [List.forall_mem_append, attack, List.forall_mem_cons]
        exact ⟨⟨trivial, forall_tame_entries _⟩, List.forall_mem_singleton.2 rfl⟩

/-! ## A drain at the end of time -/

/-- The bound on what comes of the queue. -/
def queueWork (s : Script (Event κ Phase) Phase) : Nat := (s.queue.toList.map entryWork).sum

/-- The script rests at no beat that is not a number, what it gets to is tame, and it has an
entry left that is not plain, unless it is stopped. -/
structure Goes (s : Script (Event κ Phase) Phase) : Prop where
  limit : s.limit = none
  start : s.start.isFinite = true
  runahead : s.runahead.isFinite = true
  internal : s.internal.isNaN = false
  restUntil : s.restUntil.isNaN = false
  tame : ∀ e ∈ s.queue.toList, Tame e
  last : s.stopped = false → ∃ before last, s.queue.toList = before ++ [last] ∧ ¬last.IsPlain

theorem exists_last_of_cons {ε φ : Type} {e : Entry ε φ} {es : List (Entry ε φ)}
    (h : ∃ before last, e :: es = before ++ [last] ∧ ¬last.IsPlain) (he : e.IsPlain) :
    ∃ before last, es = before ++ [last] ∧ ¬last.IsPlain := by
  obtain ⟨before, last, heq, hlast⟩ := h
  cases before with
  | nil =>
    obtain ⟨rfl, -⟩ := List.cons.inj heq
    exact absurd he hlast
  | cons x before =>
    obtain ⟨-, rfl⟩ := List.cons.inj heq
    exact ⟨before, last, rfl, hlast⟩

variable [Placed κ]

theorem Goes.consume {now : Beat} {s left t : Script (Event κ Phase) Phase}
    {e : Entry (Event κ Phase) Phase} {fx : Effects (Event κ Phase)} (hs : Goes s)
    (hreach : s.reach = some (e, left)) (hgoing : s.stopped = false)
    (h : Script.consume now left e = .ok (t, fx)) : Goes t ∧ queueWork t < queueWork s := by
  have hqueue := toList_of_reach hreach
  obtain ⟨rest, -, rfl⟩ := reach_eq_some_iff.1 hreach
  obtain ⟨hlimit, hstart, hrunahead, hinternal, hrest, hall, hfinal⟩ := hs
  have hlast := hfinal hgoing
  rw [hqueue] at hall hlast
  -- Reaching the entry takes it off the queue; what is left is as tame as before.
  obtain ⟨he, htame⟩ := List.forall_mem_cons.1 hall
  have hwork : queueWork s = entryWork e + (rest.toList.map entryWork).sum := by
    rw [queueWork, hqueue, List.map_cons, List.sum_cons]
  cases e with
  | rest d =>
    obtain ⟨hvalid, hd⟩ := he
    rw [Script.consume, if_pos hvalid] at h
    cases h
    have hinternal' : (s.internal + d).isNaN = false := by
      rw [Beat.add_comm]
      exact Beat.isNaN_add hd hinternal
    have hrest' : (s.start + s.internal + d - s.runahead).isNaN = false := by
      rw [Beat.sub_eq_add_neg, Beat.add_comm]
      refine Beat.isNaN_add (by rw [Beat.isFinite_neg]; exact hrunahead) ?_
      rw [Beat.add_comm]
      exact Beat.isNaN_add hd (Beat.isNaN_add hstart hinternal)
    refine ⟨⟨hlimit, hstart, hrunahead, hinternal', hrest', htame, ?_⟩, ?_⟩
    · exact fun _ => exists_last_of_cons hlast trivial
    · rw [hwork]
      exact Nat.lt_add_of_pos_left Nat.one_pos
  | expand f =>
    cases h
    obtain ⟨hless, htame', before, last, hadded, hlast'⟩ := expand_spec (κ := κ) he s.rolls
    have hqueue' : (rest.append (f.expand s.rolls).1).toList =
        rest.toList ++ (f.expand s.rolls : List (Entry (Event κ Phase) Phase) × Rolls).1 :=
      Queue.toList_append _ _
    refine ⟨⟨hlimit, hstart, hrunahead, hinternal, hrest, ?_, ?_⟩, ?_⟩
    · show ∀ e ∈ (rest.append (f.expand s.rolls).1).toList, Tame e
      rw [hqueue']
      exact List.forall_mem_append.2 ⟨htame, htame'⟩
    · intro _
      refine ⟨rest.toList ++ before, last, ?_, hlast'⟩
      show (rest.append (f.expand s.rolls).1).toList = _
      rw [hqueue', hadded, List.append_assoc]
    · show ((rest.append (f.expand s.rolls).1).toList.map entryWork).sum < _
      rw [hqueue', hwork, List.map_append, List.sum_append, Nat.add_comm]
      exact Nat.add_lt_add_right hless _
  | stop =>
    cases h
    refine ⟨⟨hlimit, hstart, hrunahead, hinternal, hrest, htame, ?_⟩, ?_⟩
    · intro hgoing
      cases hgoing
    · rw [hwork]
      exact Nat.lt_add_of_pos_left Nat.one_pos
  | _ =>
    cases h
    refine ⟨⟨hlimit, hstart, hrunahead, hinternal, hrest, htame, ?_⟩, ?_⟩
    · exact fun _ => exists_last_of_cons hlast trivial
    · rw [hwork]
      exact Nat.lt_add_of_pos_left Nat.one_pos

theorem exists_drainFrom_stopped {s : Script (Event κ Phase) Phase} (hs : Goes s)
    {fuel spent : Nat} (hwork : queueWork s < fuel) :
    ∃ d, drainFrom (1 / 0) fuel spent s = some d ∧ d.script.stopped = true := by
  induction fuel generalizing s spent with
  | zero => omega
  | succ fuel ih =>
    have hspec := turn_spec (1 / 0) spent s
    rw [drainFrom]
    generalize s.turn (1 / 0) spent = turn at hspec ⊢
    cases hspec with
    | idle hidle =>
      refine ⟨_, rfl, ?_⟩
      by_contra hgoing
      have hgoing' : s.stopped = false := eq_false_of_ne_true hgoing
      rcases hidle with hidle | hidle
      · simp [isReady, hgoing', Beat.le_inf hs.restUntil] at hidle
      · obtain ⟨before, last, hqueue, -⟩ := hs.last hgoing'
        have hnone : s.queue.next? = none := by simpa [reach] using hidle
        rw [Queue.next?_eq_none_iff.1 hnone] at hqueue
        simp at hqueue
    | putBack ready full reach =>
      rw [isAtLimit_of_limit hs.limit] at full
      cases full
    | dropped ready room reach invalid =>
      have hmem := toList_of_reach reach
      have htame := hs.tame _ (hmem ▸ List.mem_cons_self)
      exact absurd htame.1 invalid
    | @worked e left t fx ready room reach done =>
      obtain ⟨ht, hless⟩ := hs.consume reach (stopped_of_isReady ready) done
      have hrest : ∃ d, drainFrom (1 / 0) fuel (spent + 1) t = some d ∧ d.script.stopped = true :=
        ih ht (by omega)
      obtain ⟨d, hd, hstopped⟩ := hrest
      exact ⟨_, Option.map_eq_some_iff.2 ⟨d, hd, rfl⟩, hstopped⟩

theorem goes_staged {label : String} {start runahead : Beat} {seed : UInt64}
    {c : EncounterSettings} (hstart : start.isFinite = true) (hrunahead : runahead.isFinite = true)
    (hloops : c.loops.isSome = true) :
    Goes (staged label start runahead seed none c : Script (Event κ Phase) Phase) where
  limit := rfl
  start := hstart
  runahead := hrunahead
  internal := Beat.isNaN_of_isFinite Beat.isFinite_zero
  restUntil := by
    show (start - runahead).isNaN = false
    rw [Beat.sub_eq_add_neg]
    refine Beat.isNaN_add hstart (Beat.isNaN_of_isFinite ?_)
    rw [Beat.isFinite_neg]
    exact hrunahead
  tame := List.forall_mem_singleton.2 hloops
  last _ := ⟨[], (opening c).entry, rfl, id⟩

/-- A script of an encounter with a count of loops, drained at whatever beats until it stops, has
played its score; and it does stop, at the latest at the end of time. -/
theorem played_of_stopped {label : String} {start runahead : Beat} {seed : UInt64}
    {c : EncounterSettings} {n : UInt32} (hloops : c.loops = some n) :
    (∀ limit fuel nows r,
      (staged label start runahead seed limit c : Script (Event κ Phase) Phase).drainAll fuel nows =
        some r → r.script.stopped = true → Played c n.toNat seed start r) ∧
    (start.isFinite = true → runahead.isFinite = true → ∃ fuel r,
      (staged label start runahead seed none c : Script (Event κ Phase) Phase).drainAll fuel
        [1 / 0] = some r ∧ r.script.stopped = true) := by
  refine ⟨fun limit fuel nows r hr hstop => played_of_drainAll hloops hr hstop, ?_⟩
  intro hstart hrunahead
  have hgoes : Goes (staged label start runahead seed none c : Script (Event κ Phase) Phase) := by
    refine goes_staged hstart hrunahead ?_
    rw [hloops]
    rfl
  obtain ⟨d, hd, hstopped⟩ := exists_drainFrom_stopped hgoes (Nat.lt_succ_self _)
  obtain ⟨r, hr, hscript⟩ := exists_drainAll_of_drainFrom hd
  exact ⟨_, r, hr, by rw [hscript, hstopped]⟩

/-- An encounter of two loops that is drained now and then. -/
theorem played_of_stopped_twice : ∃ r,
    (staged "warden" 7.5 1 42 none { loops := some 2 } : Script (Event Empty Phase) Phase).drainAll
      60 [6.5, 10, 14, 14, 40] = some r ∧ r.script.stopped = true ∧
      Played { loops := some 2 } 2 42 7.5 r ∧ ∃ fuel r',
        (staged "warden" 7.5 1 42 none { loops := some 2 } :
          Script (Event Empty Phase) Phase).drainAll fuel [1 / 0] = some r' ∧
        r'.script.stopped = true := by
  have hrun : ((staged "warden" 7.5 1 42 none { loops := some 2 } :
      Script (Event Empty Phase) Phase).drainAll 60 [6.5, 10, 14, 14, 40]).map
        (·.script.stopped) = some true := by
    decide +kernel
  obtain ⟨r, hr, hstop⟩ := Option.map_eq_some_iff.1 hrun
  obtain ⟨hplayed, hstops⟩ :=
    @played_of_stopped Empty _ "warden" 7.5 1 42 { loops := some 2 } 2 rfl
  exact ⟨r, hr, hstop, hplayed none 60 _ r hr hstop, hstops (by decide) (by decide)⟩

end Phase

end Downbeat
