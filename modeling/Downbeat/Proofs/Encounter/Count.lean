import Mathlib.Algebra.Group.Nat.Defs
import Downbeat.Playback

/-!
# Counting the loops of an encounter

Each loop of an encounter puts the next one behind its attack, with one loop less to go and a number
greater by one. Both counters are of 32 bits. What is to go is never taken below zero, since a loop
with none to go leads to the outro. The number of a loop is the number of the expansions before it
as long as there is a count of loops, which is of 32 bits itself.

Without a count it is so only for the first `2 ^ 32` loops (`Phase.reaches_none_iff`). The counter
overflows where the number of expansions gets to a multiple of `2 ^ 32`, and there the numbers begin
anew (`Phase.countsOn_iff_of_reaches`).
-/

set_option linter.unusedSectionVars false

namespace Downbeat.Phase

variable {ε : Type} [Embeds Cue ε] {count : Option UInt32} {n : Nat} {p q : Phase}

/-- A part that comes of the loops after `n` expansions, whatever is rolled in them. -/
inductive Reaches (ε : Type) [Embeds Cue ε] (count : Option UInt32) : Nat → Phase → Prop
  | loops : Reaches ε count 0 (loops count)
  | expand {n : Nat} {p q : Phase} (rolls : Rolls) (before : Reaches ε count n p)
      (next : (q.entry : Entry ε Phase) ∈ (p.expand rolls).1) : Reaches ε count (n + 1) q

/-- The part that a part leads to. -/
def next? : Phase → Option Phase
  | opening c => some (loops c.loops)
  | loop (some 0) _ => some outro
  | loop remaining iteration => some (loop (remaining.map (· - 1)) (iteration + 1))
  | outro => none

/-- The number of the loop that a part plays, if it plays one. -/
def number? : Phase → Option UInt32
  | loop (some 0) _ => none
  | loop _ iteration => some iteration
  | _ => none

/-- The counters of a part that plays a loop are in range for the next one. -/
def CountsOn : Phase → Prop
  | loop (some 0) _ => True
  | loop remaining iteration => (∀ left ∈ remaining, (left - 1).toNat + 1 = left.toNat) ∧
      (iteration + 1).toNat = iteration.toNat + 1
  | _ => True

section

variable {remaining : Option UInt32} {iteration : UInt32} (h : remaining ≠ some 0)
include h

theorem next?_loop : (loop remaining iteration).next? =
    some (loop (remaining.map (· - 1)) (iteration + 1)) := by
  unfold next?
  split <;> simp_all

theorem number?_loop : (loop remaining iteration).number? = some iteration := by
  unfold number?
  split <;> simp_all

theorem countsOn_loop : (loop remaining iteration).CountsOn ↔
    (∀ left ∈ remaining, (left - 1).toNat + 1 = left.toNat) ∧
      (iteration + 1).toNat = iteration.toNat + 1 := by
  unfold CountsOn
  split <;> simp_all

theorem head?_expand_loop (rolls : Rolls) : ∃ pattern : Pattern,
    ((loop remaining iteration).expand rolls : List (Entry ε Phase) × Rolls).1.head? =
      some (.marker (.note
        ("loop " ++ Nat.repr iteration.toNat ++ " plays " ++ pattern.name))) := by
  refine ⟨Pattern.pick rolls.draw.1, ?_⟩
  unfold expand
  split <;> simp_all [loopEntries]

end

/-- A part plays a loop of the number if it has one. -/
theorem number?_eq_some_iff {i : UInt32} :
    p.number? = some i ↔ ∃ remaining, remaining ≠ some 0 ∧ p = loop remaining i := by
  constructor
  · unfold number?
    split
    · exact nofun
    · rintro ⟨⟩
      exact ⟨_, by simpa using ‹∀ _, _›, rfl⟩
    · exact nofun
  · rintro ⟨remaining, hne, rfl⟩
    exact number?_loop hne

/-! ## One expansion -/

theorem entry_notMem_entries (p : Pattern) : (q.entry : Entry ε Phase) ∉ p.entries := by
  cases p <;> simp [Pattern.entries, Entry.cue, entry]

theorem entry_inj_iff {r : Phase} : (q.entry : Entry ε Phase) = r.entry ↔ q = r :=
  ⟨Entry.expand.inj, fun h => h ▸ rfl⟩

theorem entry_mem_loopEntries (remaining : Option UInt32) (iteration : UInt32) (p : Pattern) :
    (q.entry : Entry ε Phase) ∈ loopEntries remaining iteration p ↔
      q = loop (remaining.map (· - 1)) (iteration + 1) := by
  have hnote : ∀ text, (q.entry : Entry ε Phase) ≠ .marker (.note text) := nofun
  simp only [loopEntries, List.cons_append, List.mem_cons, List.mem_append, List.mem_nil_iff,
    hnote, entry_notMem_entries, entry_inj_iff, false_or, or_false]

/-- A part leads to one part at most, whatever is rolled. -/
theorem entry_mem_expand_iff (rolls : Rolls) :
    (q.entry : Entry ε Phase) ∈ (p.expand rolls).1 ↔ p.next? = some q := by
  unfold expand next?
  split
  · simp [openingEntries, Entry.cue, entry, Embeds.embed, eq_comm]
  · simp [entry_inj_iff, eq_comm]
  · simp [entry_mem_loopEntries, eq_comm]
  · simp [outroEntries, Entry.cue, entry]

theorem reaches_succ_iff :
    Reaches ε count (n + 1) q ↔ ∃ p, Reaches ε count n p ∧ p.next? = some q := by
  constructor
  · intro h
    cases h with
    | expand rolls before next => exact ⟨_, before, (entry_mem_expand_iff rolls).1 next⟩
  · rintro ⟨p, before, next⟩
    exact .expand (.ofSeed 0) before ((entry_mem_expand_iff _).2 next)

theorem reaches_zero_iff : Reaches ε count 0 q ↔ q = loops count :=
  ⟨fun h => by cases h; rfl, fun h => h ▸ .loops⟩

/-! ## Whole chains -/

/-- Without a count there is no end, and the number of expansions is counted modulo `2 ^ 32`. -/
theorem reaches_none_iff : Reaches ε none n p ↔ p = loop none (UInt32.ofNat n) := by
  induction n generalizing p with
  | zero => exact reaches_zero_iff
  | succ n ih =>
    simp only [reaches_succ_iff, ih, exists_eq_left, next?, Option.map_none, Option.some.injEq]
    rw [UInt32.ofNat_add, eq_comm]
    rfl

theorem some_left_ne {k : UInt32} (hn : n < k.toNat) :
    some (UInt32.ofNat (k.toNat - n)) ≠ some 0 := by
  rw [ne_eq, Option.some.injEq, ← UInt32.toNat_inj,
    UInt32.toNat_ofNat_of_lt' (Nat.lt_of_le_of_lt (Nat.sub_le _ _) k.toNat_lt)]
  exact Nat.sub_ne_zero_of_lt hn

/-- With a count of `k` loops there are `k` of them, and then the outro. -/
theorem reaches_some_iff {k : UInt32} : Reaches ε (some k) n p ↔
    n ≤ k.toNat ∧ p = loop (some (UInt32.ofNat (k.toNat - n))) (UInt32.ofNat n) ∨
      n = k.toNat + 1 ∧ p = outro := by
  induction n generalizing p with
  | zero =>
    rw [reaches_zero_iff, Nat.sub_zero, UInt32.ofNat_toNat]
    simp [loops]
  | succ n ih =>
    have hlast : (loop (some 0) (UInt32.ofNat n)).next? = some outro := rfl
    have hnext : n < k.toNat →
        (loop (some (UInt32.ofNat (k.toNat - n))) (UInt32.ofNat n)).next? =
          some (loop (some (UInt32.ofNat (k.toNat - (n + 1)))) (UInt32.ofNat (n + 1))) := by
      intro hn
      have hleft : k.toNat - n = k.toNat - (n + 1) + 1 := by omega
      rw [next?_loop (some_left_ne hn), Option.map_some, hleft, UInt32.ofNat_add, UInt32.ofNat_add]
      simp
    simp only [reaches_succ_iff, ih]
    constructor
    · rintro ⟨q, ⟨hn, rfl⟩ | ⟨-, rfl⟩, hq⟩
      · rcases Nat.lt_or_eq_of_le hn with hlt | rfl
        · rw [hnext hlt] at hq
          exact .inl ⟨hlt, (Option.some.inj hq).symm⟩
        · rw [Nat.sub_self] at hq
          exact .inr ⟨rfl, (Option.some.inj hq).symm⟩
      · cases hq
    · rintro (⟨hn, rfl⟩ | ⟨hn, rfl⟩)
      · exact ⟨_, .inl ⟨Nat.le_of_succ_le hn, rfl⟩, hnext hn⟩
      · obtain rfl : n = k.toNat := Nat.succ.inj hn
        exact ⟨_, .inl ⟨Nat.le_refl _, rfl⟩, by rw [Nat.sub_self]; exact hlast⟩

/-- The loop with the number of the expansions before it is played as long as one is to go. -/
theorem number?_of_reaches {i : UInt32} (h : Reaches ε count n p) :
    p.number? = some i ↔ i = UInt32.ofNat n ∧ ∀ k, count = some k → n < k.toNat := by
  cases count with
  | none =>
    rw [reaches_none_iff.1 h]
    simp [number?, eq_comm]
  | some k =>
    obtain ⟨hn, rfl⟩ | ⟨rfl, rfl⟩ := reaches_some_iff.1 h
    · by_cases hlt : n < k.toNat
      · rw [number?_loop (some_left_ne hlt)]
        simp [hlt, eq_comm]
      · obtain rfl : n = k.toNat := Nat.le_antisymm hn (Nat.le_of_not_lt hlt)
        simp [number?]
    · simp [number?]

/-- A loop of the number is played after `n` expansions. -/
theorem exists_reaches_iff {i : UInt32} : (∃ p, Reaches ε count n p ∧ p.number? = some i) ↔
    i = UInt32.ofNat n ∧ ∀ k, count = some k → n < k.toNat := by
  constructor
  · rintro ⟨p, h, hi⟩
    exact (number?_of_reaches h).1 hi
  · intro hi
    cases count with
    | none =>
      have h : Reaches ε none n (loop none (UInt32.ofNat n)) := reaches_none_iff.2 rfl
      exact ⟨_, h, (number?_of_reaches h).2 hi⟩
    | some k =>
      have h : Reaches ε (some k) n (loop (some (UInt32.ofNat (k.toNat - n))) (UInt32.ofNat n)) :=
        reaches_some_iff.2 (.inl ⟨Nat.le_of_lt (hi.2 k rfl), rfl⟩)
      exact ⟨_, h, (number?_of_reaches h).2 hi⟩

/-- The sum of a number and one does not overflow unless it gets to a multiple of `2 ^ 32`. -/
theorem toNat_add_one_iff (n : Nat) :
    (UInt32.ofNat n + 1).toNat = (UInt32.ofNat n).toNat + 1 ↔ ¬2 ^ 32 ∣ n + 1 := by
  rw [UInt32.toNat_add, UInt32.toNat_ofNat']
  simp only [UInt32.reduceToNat]
  omega

/-- A loop with some to go is never taken below zero. -/
theorem toNat_sub_one_add_one {left : UInt32} (h : left ≠ 0) :
    (left - 1).toNat + 1 = left.toNat := by
  have hpos : 0 < left.toNat := Nat.pos_of_ne_zero fun hz => h (UInt32.toNat_inj.1 hz)
  have hone : 1 ≤ left := UInt32.le_iff_toNat_le.2 hpos
  rw [UInt32.toNat_sub_of_le _ _ hone]
  exact Nat.sub_add_cancel hpos

/-- The counters overflow only without a count. -/
theorem countsOn_iff (h : Reaches ε count n p) :
    p.CountsOn ↔ ¬(count = none ∧ 2 ^ 32 ∣ n + 1) := by
  cases hnumber : p.number? with
  | none =>
    have hp : p.CountsOn := by
      unfold number? at hnumber
      unfold CountsOn
      split at hnumber <;> simp_all
    have hsome : count ≠ none := by
      rintro rfl
      rw [reaches_none_iff.1 h] at hnumber
      cases hnumber
    exact iff_of_true hp fun hcount => hsome hcount.1
  | some i =>
    obtain ⟨rfl, hn⟩ := (number?_of_reaches h).1 hnumber
    obtain ⟨remaining, hne, rfl⟩ := number?_eq_some_iff.1 hnumber
    have hleft : ∀ left ∈ remaining, (left - 1).toNat + 1 = left.toNat := by
      rintro left rfl
      exact toNat_sub_one_add_one fun hz => hne (hz ▸ rfl)
    rw [countsOn_loop hne, toNat_add_one_iff]
    cases count with
    | none =>
      exact ⟨fun hcounts hover => hcounts.2 hover.2,
        fun hover => ⟨hleft, fun hdvd => hover ⟨rfl, hdvd⟩⟩⟩
    | some k =>
      have hlt : n + 1 < 2 ^ 32 := Nat.lt_of_le_of_lt (hn k rfl) k.toNat_lt
      exact iff_of_true ⟨hleft, Nat.not_dvd_of_pos_of_lt (Nat.succ_pos n) hlt⟩ nofun

/-- The number of a loop comes again only without a count. -/
theorem exists_reaches_again_iff {i : UInt32} (h : Reaches ε count n p) (hi : p.number? = some i)
    (m : Nat) : (∃ q, Reaches ε count m q ∧ q.number? = some i) ↔
      m = n ∨ count = none ∧ m % 2 ^ 32 = n % 2 ^ 32 := by
  obtain ⟨rfl, hn⟩ := (number?_of_reaches h).1 hi
  rw [exists_reaches_iff, ← UInt32.toNat_inj, UInt32.toNat_ofNat', UInt32.toNat_ofNat']
  cases count with
  | none =>
    refine ⟨fun hm => .inr ⟨rfl, hm.1.symm⟩, fun hm => ⟨?_, nofun⟩⟩
    rcases hm with rfl | ⟨-, hm⟩
    · rfl
    · exact hm.symm
  | some k =>
    have hk : k.toNat < 2 ^ 32 := k.toNat_lt
    have hnk := hn k rfl
    constructor
    · rintro ⟨hmod, hm⟩
      have hmk := hm k rfl
      rw [Nat.mod_eq_of_lt (Nat.lt_trans hnk hk), Nat.mod_eq_of_lt (Nat.lt_trans hmk hk)] at hmod
      exact .inl hmod.symm
    · rintro (rfl | ⟨hnone, -⟩)
      · exact ⟨rfl, hn⟩
      · cases hnone

/-- How many expansions there have been decides all that the counters do. A loop with some to go is
never taken below zero. The number of a loop, as its note says, is the number of the expansions
before it modulo `2 ^ 32`. It overflows only without a count of loops, just where the next number of
expansions is a multiple of `2 ^ 32`, and only so there is a second loop of the same number. -/
theorem countsOn_iff_of_reaches (h : Reaches ε count n p) :
    (p.CountsOn ↔ ¬(count = none ∧ 2 ^ 32 ∣ n + 1)) ∧
      (∀ left i, p = loop (some left) i → left ≠ 0 → (left - 1).toNat + 1 = left.toNat) ∧
      ∀ i, p.number? = some i →
        i.toNat = n % 2 ^ 32 ∧
        (∀ rolls, ∃ pattern : Pattern,
          (p.expand rolls : List (Entry ε Phase) × Rolls).1.head? = some (.marker (.note
            ("loop " ++ Nat.repr i.toNat ++ " plays " ++ pattern.name)))) ∧
        ∀ m, (∃ q, Reaches ε count m q ∧ q.number? = some i) ↔
          m = n ∨ count = none ∧ m % 2 ^ 32 = n % 2 ^ 32 := by
  refine ⟨countsOn_iff h, fun left _ _ => toNat_sub_one_add_one, fun i hi => ⟨?_, ?_, ?_⟩⟩
  · rw [((number?_of_reaches h).1 hi).1, UInt32.toNat_ofNat']
  · obtain ⟨remaining, hne, rfl⟩ := number?_eq_some_iff.1 hi
    exact head?_expand_loop hne
  · exact exists_reaches_again_iff h hi

/-- The second of two loops, and the sixth of loops without a count. -/
theorem countsOn_iff_of_reaches_early :
    Reaches Playback.ShowEvent (some 2) 1 (loop (some 1) 1) ∧
      (loop (some 1) 1).CountsOn ∧
      Reaches Playback.ShowEvent none 5 (loop none 5) ∧ (loop none 5).CountsOn ∧
      ¬∃ q, Reaches Playback.ShowEvent none 3 q ∧ q.number? = some 5 := by
  have hsecond : Reaches Playback.ShowEvent (some 2) 1 (loop (some 1) 1) :=
    reaches_some_iff.2 (.inl ⟨by decide, by decide⟩)
  have hsixth : Reaches Playback.ShowEvent none 5 (loop none 5) := reaches_none_iff.2 rfl
  obtain ⟨hcounts, -, -⟩ := countsOn_iff_of_reaches hsecond
  obtain ⟨hcounts', -, hnumber⟩ := countsOn_iff_of_reaches hsixth
  obtain ⟨-, -, hagain⟩ := hnumber 5 rfl
  refine ⟨hsecond, hcounts.2 nofun, hsixth, hcounts'.2 (by decide), ?_⟩
  rw [hagain]
  decide

/-- Without a count, the loop after `2 ^ 32 - 1` expansions has the last number of its type, and the
numbers begin anew with the next one. -/
theorem endless_begins_anew :
    Reaches Playback.ShowEvent none (2 ^ 32 - 1) (loop none 0xffffffff) ∧
      ¬(loop none 0xffffffff).CountsOn ∧
      Reaches Playback.ShowEvent none 0 (loops none) ∧
      Reaches Playback.ShowEvent none (2 ^ 32) (loops none) ∧ (loops none).number? = some 0 := by
  refine ⟨reaches_none_iff.2 rfl, ?_, .loops, reaches_none_iff.2 rfl, rfl⟩
  have hnone : (none : Option UInt32) ≠ some 0 := nofun
  rw [countsOn_loop hnone]
  exact fun hcounts => absurd hcounts.2 (by decide)

end Downbeat.Phase
