import Clausal.Random

/-!
# The standard sampler

How draws are made from the outputs of the random source: a number of 64 bits from two outputs, an
event by comparing such a number with its probability, a number below a bound by rejection, and one
of some candidates in one pass over them.
-/

namespace Clausal

namespace Pcg

/-- The generator of a number: its seed is two outputs of another one, started at the number. -/
def ofNumber (n : UInt64) : Pcg :=
  let low := n * multiplier + 11634580027462260723
  let high := low * multiplier + 11634580027462260723
  ofSeed ((output low).toUInt64 ||| ((output high).toUInt64 <<< 32))

/-- Draws 64 bits, the low half first. -/
def next64 (g : Pcg) : UInt64 × Pcg :=
  let (low, g) := g.next32
  let (high, g) := g.next32
  (low.toUInt64 ||| (high.toUInt64 <<< 32), g)

/-- The bytes of a number, the least significant first. -/
def littleEndian (count : Nat) (n : Nat) : List UInt8 :=
  (List.range count).map fun i => UInt8.ofNat (n >>> (8 * i))

/-- Draws bytes, by eight from 64 bits each; the last four or fewer take 32 bits. -/
def bytes (g : Pcg) (count : Nat) : List UInt8 × Pcg :=
  if count = 0 then ([], g)
  else if count ≤ 4 then
    let (x, g) := g.next32
    (littleEndian count x.toNat, g)
  else
    let (x, g) := g.next64
    let (rest, g) := g.bytes (count - 8)
    (littleEndian (min count 8) x.toNat ++ rest, g)
  termination_by count

end Pcg

namespace Probability

variable {p : Probability}

/-- A probability in parts of 2 ^ 64. -/
def parts (p : Probability) : Nat := p.value.times64

theorem Impossible.parts_eq (impossible : p.Impossible) : p.parts = 0 := by
  have units : p.value.units = (0 : Nat) :=
    (Binary64.units_of_beq impossible).2.trans (by decide +kernel)
  simp [parts, Binary64.times64, Binary64.count_of_units units]

theorem Certain.parts_eq (certain : p.Certain) : p.parts = Word.total := by
  have one : Binary64.one.units = Binary64.unitsPerOne := by decide +kernel
  have positive : 0 < Binary64.unitsPerOne := by decide +kernel
  have count := Binary64.count_of_units ((Binary64.units_of_beq certain).2.trans one)
  rw [parts, Binary64.times64, count, Nat.shiftLeft_eq, Nat.mul_div_cancel_left _ positive]
  rfl

end Probability

namespace Draw

/-- Draws whether an event happens. A certain event takes nothing from the source; an impossible
one does. -/
def event (p : Probability) : Draw Bool := do
  if p.parts = Word.total then return true
  let (x, g) := (← get).next64
  set g
  return x.toNat < p.parts

/-- Of the product of 32 random bits and a bound, the low half must not exceed this for the high
half to be accepted: then every value below the bound is accepted equally often. -/
def zone (bound : Nat) : Nat := (bound <<< (31 - bound.log2)) - 1

/-- Draws until a value is accepted, at most `attempts` times. -/
def belowWithin (bound : Nat) (attempts : Nat) : Draw Nat :=
  match attempts with
  | 0 => failure
  | attempts + 1 => do
    let (x, g) := (← get).next32
    set g
    let product := x.toNat * bound
    if product % Word.halfTotal ≤ zone bound then return product / Word.halfTotal
    else belowWithin bound attempts

/-- Draws a number below a bound. The source has 2 ^ 64 states, so a draw that is not accepted in as
many attempts never is. -/
def below (bound : Nat) : Draw Nat := belowWithin bound Word.total

/-- The choice behind `choose?`, with `seen` candidates passed and the last choice so far. -/
def chooseFrom {α : Type} (seen : Nat) (chosen : Option α) : List α → Draw (Option α)
  | [] => return chosen
  | a :: rest => do
    let i ← below (seen + 1)
    chooseFrom (seen + 1) (if i = 0 then some a else chosen) rest

/-- Draws one of some candidates, each as often as any other: the k-th replaces the choice so far
with probability 1 / k. -/
def choose? {α : Type} (candidates : List α) : Draw (Option α) := chooseFrom 0 none candidates

theorem event_returns (p : Probability) (g : Pcg) : ∃ b g', (event p).run g = some (b, g') := by
  unfold event
  by_cases certain : p.parts = Word.total
  · exact ⟨true, g, by simp [certain]⟩
  · exact ⟨decide (g.next64.1.toNat < p.parts), g.next64.2, by simp [certain]⟩

theorem event_of_impossible {p : Probability} (impossible : p.Impossible) (g : Pcg) :
    (event p).run g = some (false, g.next64.2) := by
  simp [event, impossible.parts_eq, Word.total]

theorem event_of_certain {p : Probability} (certain : p.Certain) (g : Pcg) :
    (event p).run g = some (true, g) := by
  simp [event, certain.parts_eq]

/-- One attempt at a draw. The draw is named: reducing it would unfold the arithmetic of words. -/
theorem belowWithin_succ (bound attempts : Nat) {g g' : Pcg} {x : UInt32}
    (drawn : g.next32 = (x, g')) :
    (belowWithin bound (attempts + 1)).run g =
      StateT.run (if x.toNat * bound % Word.halfTotal ≤ zone bound
        then pure (x.toNat * bound / Word.halfTotal)
        else belowWithin bound attempts : Draw Nat) g' := by
  rw [belowWithin, StateT.run_bind, StateT.run_get, pure_bind]
  dsimp only
  rw [drawn]
  rfl

/-- The only number below one is drawn, if the draw returns. -/
private theorem belowWithin_one {attempts : Nat} {g g' : Pcg} {i : Nat}
    (h : (belowWithin 1 attempts).run g = some (i, g')) : i = 0 := by
  induction attempts generalizing g with
  | zero => cases h
  | succ attempts ih =>
    obtain ⟨⟨x, g₁⟩, drawn⟩ : ∃ d, g.next32 = d := ⟨_, rfl⟩
    rw [belowWithin_succ 1 attempts drawn] at h
    split at h
    · have bound : x.toNat * 1 < Word.halfTotal := by
        rw [Nat.mul_one, show Word.halfTotal = 2 ^ 32 by simp [Word.halfTotal]]
        exact x.toNat_lt
      simp only [StateT.run_pure, Option.pure_def, Option.some.injEq, Prod.mk.injEq] at h
      rw [← h.1, Nat.div_eq_of_lt bound]
    · exact ih h

private theorem chooseFrom_mem {α : Type} {candidates : List α} {seen : Nat} {chosen r : Option α}
    {g g' : Pcg} (h : (chooseFrom seen chosen candidates).run g = some (r, g')) :
    r = chosen ∨ ∃ a ∈ candidates, r = some a := by
  induction candidates generalizing seen chosen g with
  | nil =>
    simp only [chooseFrom, StateT.run_pure, Option.pure_def, Option.some.injEq, Prod.mk.injEq] at h
    exact .inl h.1.symm
  | cons a rest ih =>
    simp only [chooseFrom, StateT.run_bind, Option.bind_eq_bind, Option.bind_eq_some_iff] at h
    obtain ⟨⟨i, between⟩, -, later⟩ := h
    rcases ih later with same | ⟨b, member, same⟩
    · by_cases first : i = 0
      · exact .inr ⟨a, List.mem_cons_self, by simpa [first] using same⟩
      · exact .inl (by simpa [first] using same)
    · exact .inr ⟨b, List.mem_cons_of_mem a member, same⟩

private theorem chooseFrom_some {α : Type} {candidates : List α} {seen : Nat} {a : α} {r : Option α}
    {g g' : Pcg} (h : (chooseFrom seen (some a) candidates).run g = some (r, g')) : r ≠ none := by
  rintro rfl
  rcases chooseFrom_mem h with same | ⟨b, -, same⟩
  · cases same
  · cases same

/-- Of some candidates one is chosen. -/
theorem choose?_mem {α : Type} {candidates : List α} {r : Option α} {g g' : Pcg}
    (h : (choose? candidates).run g = some (r, g')) :
    (∃ a ∈ candidates, r = some a) ∨ candidates = [] ∧ r = none := by
  rcases chooseFrom_mem h with rfl | chosen
  · cases candidates with
    | nil => exact .inr ⟨rfl, rfl⟩
    | cons a rest =>
      simp only [choose?, chooseFrom, StateT.run_bind, Option.bind_eq_bind,
        Option.bind_eq_some_iff] at h
      obtain ⟨⟨i, between⟩, first, later⟩ := h
      rw [belowWithin_one first] at later
      exact absurd rfl (chooseFrom_some later)
  · exact .inl chosen

end Draw

/-- The sampler that draws as described above. -/
def Sampler.standard : Sampler where
  ofNumber := .ofNumber
  event := Draw.event
  choose := Draw.choose?
  event_returns := Draw.event_returns
  event_impossible p impossible g b g' drawn := by
    cases (Draw.event_of_impossible impossible g).symm.trans drawn
    rfl
  event_certain p certain g b g' drawn := by
    cases (Draw.event_of_certain certain g).symm.trans drawn
    rfl
  choose_mem _ _ _ _ := Draw.choose?_mem

end Clausal
