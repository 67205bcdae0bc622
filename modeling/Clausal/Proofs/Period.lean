import Clausal.Proofs.Decision
import Mathlib.Data.Nat.ModEq
import Mathlib.Data.UInt
import Mathlib.NumberTheory.Multiplicity
import Mathlib.Tactic.LinearCombination
import Mathlib.Tactic.Ring

/-!
The period of the random source. After n outputs the state has moved by its first step times a sum of n
powers of the multiplier, and two divides this sum as often as it divides n. So the states return after
2 ^ 64 outputs if the first step is odd, as an odd increment makes it from every state, and the earlier
the more often two divides it. The increment of a generator that is made from a seed is even: no seed
leads through more than 2 ^ 62 states, and some lead through one only. Main statement: `period_exact`.
-/

namespace Clausal

namespace Pcg

open scoped UInt64.CommRing

variable {g : Pcg} {i j n : Nat}

def next (g : Pcg) : Pcg := g.next32.2

/-- The generator after some outputs. -/
def after (g : Pcg) (n : Nat) : Pcg := next^[n] g

/-- How far the state moves with the first output. -/
def stride (g : Pcg) : UInt64 := g.next.state - g.state

/-- How many outputs there are until the state returns. -/
def period (g : Pcg) : Nat := 2 ^ 64 / Nat.gcd (2 ^ 64) g.stride.toNat

/-- By how many first steps the state has moved after some outputs. -/
def strides (n : Nat) : Nat := ∑ i ∈ Finset.range n, multiplier.toNat ^ i

theorem after_succ (g : Pcg) (n : Nat) : g.after (n + 1) = g.next.after n :=
  Function.iterate_succ_apply next n g

theorem after_succ' (g : Pcg) (n : Nat) : g.after (n + 1) = (g.after n).next :=
  Function.iterate_succ_apply' next n g

theorem next_eq (g : Pcg) : g.next = ⟨g.state * multiplier + g.increment, g.increment⟩ := rfl

theorem increment_after (g : Pcg) (n : Nat) : (g.after n).increment = g.increment := by
  induction n with
  | zero => rfl
  | succ n ih => rw [after_succ', next_eq, ih]

theorem strides_succ (n : Nat) : (strides (n + 1) : UInt64) = multiplier * strides n + 1 := by
  have word : ∀ x : UInt64, ((x.toNat : Nat) : UInt64) = x := fun _ => UInt64.ofNat_toNat
  rw [strides, geom_sum_succ, Nat.cast_add, Nat.cast_mul, word, Nat.cast_one, strides]

theorem state_after (g : Pcg) (n : Nat) : (g.after n).state = g.state + strides n * g.stride := by
  induction n with
  | zero => simp [after, strides]
  | succ n ih =>
    rw [after_succ', next_eq, ih, increment_after, strides_succ, stride, next_eq]
    ring

/-- The multiplier is one more than a multiple of four, so two divides the sum of its first powers just as often
as it divides their number. -/
theorem emultiplicity_strides (n : Nat) : emultiplicity 2 (strides n) = emultiplicity 2 n := by
  have finite : emultiplicity (2 : ℤ) (6364136223846793005 - 1) ≠ ⊤ :=
    finiteMultiplicity_iff_emultiplicity_ne_top.mp (Int.finiteMultiplicity_iff.mpr (by decide))
  have sum : (strides n : ℤ) = ∑ i ∈ Finset.range n, (6364136223846793005 : ℤ) ^ i := by
    rw [strides, show multiplier.toNat = 6364136223846793005 from rfl]
    push_cast
    rfl
  have lifted := Int.two_pow_sub_pow' (x := 6364136223846793005) (y := 1) n (by decide) (by decide)
  rw [one_pow, ← geom_sum_mul, emultiplicity_mul Int.prime_two, ← sum, add_comm] at lifted
  rw [← Int.natCast_emultiplicity, ← Int.natCast_emultiplicity]
  exact ENat.add_right_injective_of_ne_top finite lifted

theorem dvd_strides_mul_iff (k d : Nat) : 2 ^ k ∣ strides n * d ↔ 2 ^ k ∣ n * d := by
  rw [pow_dvd_iff_le_emultiplicity, pow_dvd_iff_le_emultiplicity, emultiplicity_mul Nat.prime_two.prime,
    emultiplicity_mul Nat.prime_two.prime, emultiplicity_strides]

theorem eq_of_state {h : Pcg} (state : g.state = h.state) (increment : g.increment = h.increment) : g = h := by
  cases g
  cases h
  exact congrArg₂ Pcg.mk state increment

theorem after_eq_self_iff_dvd : g.after n = g ↔ 2 ^ 64 ∣ n * g.stride.toNat := by
  have moved : g.after n = g ↔ (strides n : UInt64) * g.stride = 0 := by
    constructor
    · intro same
      have state := state_after g n
      rwa [same, left_eq_add] at state
    · intro still
      refine eq_of_state ?_ (increment_after g n)
      rw [state_after, still, add_zero]
  rw [moved, ← dvd_strides_mul_iff, ← UInt64.toNat_inj, UInt64.toNat_mul, Nat.dvd_iff_mod_eq_zero]
  show (strides n % 2 ^ 64 * g.stride.toNat) % 2 ^ 64 = 0 ↔ _
  rw [Nat.mod_mul_mod]

/-- The generator is back after a number of outputs just if its period divides the number. -/
theorem after_eq_self_iff : g.after n = g ↔ g.period ∣ n := by
  have positive : 0 < Nat.gcd (2 ^ 64) g.stride.toNat := Nat.gcd_pos_of_pos_left _ (by decide)
  rw [after_eq_self_iff_dvd, period, Nat.div_dvd_iff_dvd_mul (Nat.gcd_dvd_left _ _) positive, ← Nat.gcd_mul_right,
    Nat.dvd_gcd_iff, mul_comm n, and_iff_right (Nat.dvd_mul_right _ _)]

theorem next_injective : Function.Injective next := by
  intro g h same
  rw [next_eq, next_eq, mk.injEq] at same
  obtain ⟨state, increment⟩ := same
  have inverse : multiplier * 13877824140714322085 = 1 := by decide
  rw [increment, add_left_inj] at state
  refine eq_of_state ?_ increment
  calc g.state = g.state * multiplier * 13877824140714322085 := by rw [mul_assoc, inverse, mul_one]
    _ = h.state := by rw [state, mul_assoc, inverse, mul_one]

theorem after_eq_after_iff : g.after i = g.after j ↔ i ≡ j [MOD g.period] := by
  wlog le : i ≤ j generalizing i j
  · rw [eq_comm, this (Nat.le_of_not_le le), Nat.ModEq.comm]
  obtain ⟨n, rfl⟩ := Nat.exists_eq_add_of_le le
  rw [Nat.modEq_iff_dvd' le, Nat.add_sub_cancel_left, ← after_eq_self_iff, eq_comm, after, after, after,
    Function.iterate_add_apply]
  exact (next_injective.iterate i).eq_iff

theorem toNat_stride (g : Pcg) :
    g.stride.toNat = (g.state.toNat * 6364136223846793004 + g.increment.toNat) % 2 ^ 64 := by
  have first : g.stride = g.state * (multiplier - 1) + g.increment := by
    rw [stride, next_eq]
    ring
  have factor : (multiplier - 1).toNat = 6364136223846793004 := rfl
  rw [first, UInt64.toNat_add, UInt64.toNat_mul, factor, Nat.mod_add_mod]

/-- The states do not return before all of them have been just if the increment is odd. -/
theorem period_eq_iff : g.period = 2 ^ 64 ↔ g.increment.toNat % 2 = 1 := by
  have stride : Odd g.stride.toNat ↔ g.increment.toNat % 2 = 1 := by
    rw [toNat_stride, Nat.odd_iff]
    omega
  have nonzero : (2 ^ 64 : Nat) ≠ 0 := by decide
  rw [period, Nat.div_eq_self, or_iff_right nonzero, ← Nat.Coprime, Nat.coprime_pow_left_iff (by decide),
    Nat.coprime_two_left, stride]

/-- The seed 254872864731142684 leads to a state that the first step stays at. From any other seed the first step
is a multiple of the distance to that one, by four times an odd number. -/
theorem stride_ofSeed (seed : UInt64) :
    (ofSeed seed).stride = (seed - 254872864731142684) * (multiplier - 1) := by
  have shift : ∀ still factor increment : UInt64, (still + increment) * (factor - 1) + increment = 0 →
      (seed + increment) * factor + increment - (seed + increment) = (seed - still) * (factor - 1) := by
    intro still factor increment fixed
    linear_combination fixed
  rw [stride, next_eq, ofSeed]
  exact shift _ _ _ (by decide)

/-- How many states there are from a seed: at most 2 ^ 62, and one if the seed is the one above up to a multiple of
2 ^ 62. -/
theorem period_ofSeed (seed : UInt64) :
    (ofSeed seed).period = 2 ^ 62 / Nat.gcd (2 ^ 62) (seed - 254872864731142684).toNat := by
  have factor : (multiplier - 1).toNat = 4 * 1591034055961698251 := rfl
  have coprime : Nat.Coprime 1591034055961698251 (2 ^ 62) := Nat.Coprime.pow_right 62 (by decide)
  have total : (2 ^ 64 : Nat) = 4 * 2 ^ 62 := by decide
  rw [period, stride_ofSeed, UInt64.toNat_mul, factor, Nat.gcd_comm, ← Nat.gcd_rec, total, mul_left_comm,
    Nat.gcd_mul_left, Nat.mul_div_mul_left _ _ (by decide), coprime.gcd_mul_right_cancel_right]

/-- If the states do not return before all of them have been, all of them are reached. -/
theorem exists_after (full : g.period = 2 ^ 64) (state : UInt64) : ∃ i < 2 ^ 64, (g.after i).state = state := by
  let place (i : Fin (2 ^ 64)) : Fin (2 ^ 64) := ⟨(g.after i).state.toNat, UInt64.toNat_lt _⟩
  have injective : Function.Injective place := by
    intro i j same
    have states : (g.after i).state = (g.after j).state := UInt64.toNat_inj.mp (Fin.mk.inj same)
    have equal := eq_of_state states ((increment_after g i).trans (increment_after g j).symm)
    rw [after_eq_after_iff, full] at equal
    exact Fin.ext (equal.eq_of_lt_of_lt i.isLt j.isLt)
  obtain ⟨i, found⟩ := Finite.injective_iff_surjective.mp injective ⟨state.toNat, UInt64.toNat_lt _⟩
  exact ⟨i, i.isLt, UInt64.toNat_inj.mp (Fin.mk.inj found)⟩

end Pcg

namespace Draw

open Pcg

variable {g g' : Pcg} {bound attempts n : Nat}

/-- Whether an output is accepted in a draw below a bound. -/
def Accepts (bound : Nat) (x : UInt32) : Prop := x.toNat * bound % Word.halfTotal ≤ zone bound

/-- A draw fails just if none of the outputs that it may take is accepted. -/
theorem run_belowWithin_eq_none_iff : (belowWithin bound attempts).run g = none ↔
    ∀ i < attempts, ¬ Accepts bound (output (g.after i).state) := by
  induction attempts generalizing g with
  | zero => exact iff_of_true rfl nofun
  | succ attempts ih =>
    have drawn : g.next32 = (output g.state, g.next) := rfl
    have first : g.after 0 = g := rfl
    rw [belowWithin_succ bound attempts drawn, Nat.forall_lt_succ_left', first]
    split
    · next accepted => exact iff_of_false nofun fun all => all.1 accepted
    · next rejected =>
      have rejected : ¬ Accepts bound (output g.state) := rejected
      rw [ih, and_iff_right rejected]
      exact forall₂_congr fun i _ => by rw [after_succ]

theorem increment_belowWithin (drawn : (belowWithin bound attempts).run g = some (n, g')) :
    g'.increment = g.increment := by
  induction attempts generalizing g with
  | zero => cases drawn
  | succ attempts ih =>
    have output : g.next32 = (output g.state, g.next) := rfl
    rw [belowWithin_succ bound attempts output] at drawn
    split at drawn
    · cases drawn
      rw [next_eq]
    · rw [ih drawn, next_eq]

/-- With an odd increment a state with the output zero comes, which is always accepted. -/
theorem below_returns (odd : g.increment.toNat % 2 = 1) (bound : Nat) :
    ∃ n g', (below bound).run g = some (n, g') ∧ g'.increment = g.increment := by
  obtain ⟨i, early, state⟩ := exists_after (period_eq_iff.mpr odd) 0
  have accepted : Accepts bound (output (g.after i).state) := by
    have zero : (output 0).toNat = 0 := by decide
    rw [Accepts, state, zero, Nat.zero_mul]
    exact Nat.zero_le _
  cases drawn : (below bound).run g with
  | none => exact absurd accepted (run_belowWithin_eq_none_iff.mp drawn i early)
  | some result => exact ⟨result.1, result.2, rfl, increment_belowWithin drawn⟩

theorem chooseFrom_returns {α : Type} (odd : g.increment.toNat % 2 = 1) (seen : Nat) (chosen : Option α)
    (candidates : List α) : ∃ r g', (chooseFrom seen chosen candidates).run g = some (r, g') := by
  induction candidates generalizing seen chosen g with
  | nil => exact ⟨chosen, g, rfl⟩
  | cons a rest ih =>
    obtain ⟨n, between, drawn, increment⟩ := below_returns odd (seen + 1)
    obtain ⟨r, last, later⟩ := ih (by rw [increment, odd]) (seen + 1) (if n = 0 then some a else chosen)
    refine ⟨r, last, ?_⟩
    rw [chooseFrom, StateT.run_bind, drawn]
    exact later

theorem increment_event {p : Probability} {b : Bool} (drawn : (event p).run g = some (b, g')) :
    g'.increment = g.increment := by
  unfold event at drawn
  split at drawn
  · cases drawn
    rfl
  · cases drawn
    exact increment_after g 2

end Draw

/-- With an odd increment every draw for a decision returns. -/
theorem Search.drawReturns_of_odd {s : Search} (standard : s.sampler = .standard)
    (odd : s.source.increment.toNat % 2 = 1) : s.DrawReturns := by
  obtain ⟨random, between, drawn⟩ := s.sampler.event_returns s.bias s.source
  have event : (Draw.event s.bias).run s.source = some (random, between) := by rwa [standard] at drawn
  have same : between.increment.toNat % 2 = 1 := by rw [Draw.increment_event event, odd]
  simp only [DrawReturns, drawDecision, StateT.run_bind, drawn, Option.bind_eq_bind, Option.bind_some]
  cases random with
  | true =>
    obtain ⟨atom, last, chosen⟩ := Draw.chooseFrom_returns same 0 none s.valuation.unvalued
    have choice : (s.sampler.choose s.valuation.unvalued).run between = some (atom, last) := by
      rw [standard]
      exact chosen
    simp only [↓reduceIte, StateT.run_bind, choice, Option.bind_eq_bind, Option.bind_some]
    exact s.polarity_returns atom last
  | false =>
    simp only [Bool.false_eq_true, ↓reduceIte, pure_bind]
    exact s.polarity_returns _ between

/-- A search that always decides on a random atom stalls if the draw for the first one never ends. -/
theorem Search.decide_of_endless {s : Search} (standard : s.sampler = .standard) (certain : s.bias.Certain)
    (free : s.valuation.unvalued ≠ []) (endless : (Draw.below 1).run s.source = none) :
    s.decide = (none, { s with phase := .stalled }) := by
  have drawn : (s.sampler.event s.bias).run s.source = some (true, s.source) := by
    rw [standard]
    exact Draw.event_of_certain certain s.source
  have chosen : (s.sampler.choose s.valuation.unvalued).run s.source = none := by
    obtain ⟨a, rest, atoms⟩ := List.exists_cons_of_ne_nil free
    rw [standard, atoms]
    show (Draw.chooseFrom 0 none (a :: rest)).run s.source = none
    rw [Draw.chooseFrom, StateT.run_bind, endless]
    rfl
  have never : s.drawDecision.run s.source = none := by simp [drawDecision, drawn, chosen]
  rw [decide, never]

namespace Pcg

/-- The states of a generator return with its period and not before. All of them have been then just if the
increment is odd, and every draw for a decision returns. The increment of a generator that is made from a seed is
not odd, and its period is at most 2 ^ 62: it is 2 ^ 62 by the greatest power of two that divides the distance of
the seed to a seed that leads to one state only. -/
theorem period_exact (g : Pcg) (seed : UInt64) : (∀ i j, g.after i = g.after j ↔ i ≡ j [MOD g.period]) ∧
    (g.period = 2 ^ 64 ↔ g.increment.toNat % 2 = 1) ∧
    (g.period = 2 ^ 64 → ∀ s : Search, s.sampler = .standard → s.source = g → s.DrawReturns) ∧
    (ofSeed seed).period = 2 ^ 62 / Nat.gcd (2 ^ 62) (seed - 254872864731142684).toNat := by
  refine ⟨fun i j => after_eq_after_iff, period_eq_iff, fun full s standard source => ?_, period_ofSeed seed⟩
  exact Search.drawReturns_of_odd standard (source ▸ period_eq_iff.mp full)

/-- The generator of a seed with its increment made odd, and that of the seed that leads to one state. -/
theorem period_exact_odd : let g : Pcg := ⟨7 + seededIncrement, seededIncrement ||| 1⟩
    g.period = 2 ^ 64 ∧ ({ Search.start #[] 1 {} with source := g } : Search).DrawReturns ∧
      (ofSeed 254872864731142684).period = 1 := by
  intro g
  obtain ⟨-, odd, draws, seeds⟩ := period_exact g 254872864731142684
  have full : g.period = 2 ^ 64 := odd.mpr (by decide)
  refine ⟨full, draws full _ rfl rfl, ?_⟩
  rw [seeds]
  decide +kernel

/-- One seed leads to one state only. -/
theorem after_constant (n : Nat) : (ofSeed 9478244901585918492).after n = ofSeed 9478244901585918492 := by
  have period : (ofSeed 9478244901585918492).period = 1 := by
    rw [period_ofSeed]
    decide +kernel
  rw [after_eq_self_iff, period]
  exact one_dvd n

/-- The output of this state is not accepted in a draw below one. -/
theorem below_constant : (Draw.below 1).run (ofSeed 9478244901585918492) = none := by
  refine Draw.run_belowWithin_eq_none_iff.mpr fun i _ => ?_
  rw [after_constant]
  show ¬ _ ≤ _
  decide +kernel

/-- A number that leads to it. -/
theorem ofNumber_constant : ofNumber 11351873388075537484 = ofSeed 9478244901585918492 :=
  eq_of_state (by decide +kernel) (by decide +kernel)

end Pcg

/-- With this number the first decision on a random atom never ends. -/
theorem Search.decide_constant {s : Search} (standard : s.sampler = .standard) (certain : s.bias.Certain)
    (free : s.valuation.unvalued ≠ []) (source : s.source = .ofNumber 11351873388075537484) :
    s.decide = (none, { s with phase := .stalled }) := by
  refine decide_of_endless standard certain free ?_
  rw [source, Pcg.ofNumber_constant, Pcg.below_constant]

namespace Pcg

/-- A seed that leads to one state only, the output of which is not accepted in a draw below one. A number that a
search can be configured with leads to this seed, so that its first decision on a random atom never ends. -/
theorem constant_seed : (∀ n, (ofSeed 9478244901585918492).after n = ofSeed 9478244901585918492) ∧
    (Draw.below 1).run (ofSeed 9478244901585918492) = none ∧
    (Search.start #[] 1 { seed := 11351873388075537484, randomDecisionBias := .one }).decide.2.phase = .stalled := by
  have certain : (Search.start #[] 1
      { seed := 11351873388075537484, randomDecisionBias := .one }).bias.Certain := by decide +kernel
  have free : PartialValuation.unvalued (Array.replicate 1 none) ≠ [] := by decide
  have stalls := @Search.decide_constant (Search.start #[] 1
    { seed := 11351873388075537484, randomDecisionBias := .one }) rfl certain free rfl
  refine ⟨after_constant, below_constant, ?_⟩
  rw [stalls]

end Pcg

end Clausal
