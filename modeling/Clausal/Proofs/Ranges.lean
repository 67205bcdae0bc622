import Clausal.Proofs.Assignment
import Mathlib.Algebra.Group.Int.Defs
import Mathlib.Algebra.Group.Nat.Defs
import Mathlib.Order.Basic

/-!
The arithmetic of domains. The values of a domain are the integers between its ends, in increasing
order, and the position of each is how many come before it. The domain of a sum has the sums of the
values of both and nothing else. If the ends of domains fit a word, so does all of this, except for the
count of the widest domain. Main statement: `domain_arithmetic_exact`.
-/

namespace Clausal

variable {d e s : Domain} {v n : Int} {i : Nat}

namespace Domain

/-- Both ends of a domain fit a word. -/
def InWord (d : Domain) : Prop := Word.Fits d.min ∧ Word.Fits d.max

theorem getElem?_values : d.values[i]? = some v ↔ d.value i = v ∧ i < d.count := by
  rw [values, List.getElem?_map]
  by_cases inside : i < d.count
  · simp [inside]
  · simp [inside]

theorem index?_eq_some_iff_getElem? : d.index? v = some i ↔ d.values[i]? = some v := by
  rw [index?_eq_some, getElem?_values]

theorem index?_eq_none_iff : d.index? v = none ↔ d.contains v = false := by
  rw [index?]
  cases d.contains v <;> simp

theorem index?_value (inside : i < d.count) : d.index? (d.value i) = some i :=
  index?_eq_some.mpr ⟨rfl, inside⟩

/-- The positions of the values count them in order. -/
theorem map_index?_values : d.values.map d.index? = (List.range d.count).map some := by
  rw [values, List.map_map]
  exact List.map_congr_left fun i member => index?_value (List.mem_range.mp member)

theorem mem_values : v ∈ d.values ↔ d.contains v = true := by
  constructor
  · intro member
    obtain ⟨i, inside, rfl⟩ := List.mem_map.mp member
    exact contains_value_iff.mpr (List.mem_range.mp inside)
  · intro inside
    obtain ⟨i, rfl, small⟩ := exists_index inside
    exact List.mem_map.mpr ⟨i, List.mem_range.mpr small, rfl⟩

theorem values_increasing (d : Domain) : d.values.Pairwise (· < ·) := by
  rw [values, List.pairwise_map]
  exact List.pairwise_lt_range.imp fun less => Int.add_lt_add_left (Int.ofNat_lt.mpr less) d.min

theorem sum?_eq_none_iff : d.sum? e = none ↔ d.isEmpty = false ∧ e.isEmpty = false ∧
    ¬ (Word.Fits (d.min + e.min) ∧ Word.Fits (d.max + e.max)) := by
  rw [Option.eq_none_iff_forall_ne_some]
  constructor
  · intro never
    have some : ¬ (d.isEmpty = true ∨ e.isEmpty = true) := fun empty =>
      never _ (sum?_eq_some_iff.mpr (.inl ⟨empty, rfl⟩))
    refine ⟨by simpa using mt .inl some, by simpa using mt .inr some, fun fits => ?_⟩
    exact never _ (sum?_eq_some_iff.mpr (.inr ⟨some, fits, rfl⟩))
  · rintro ⟨left, right, leaves⟩ s sum
    rcases sum?_eq_some_iff.mp sum with ⟨empty, -⟩ | ⟨-, fits, -⟩
    · simp [left, right] at empty
    · exact leaves fits

/-- Between the sums of the ends there is no integer that is not the sum of a value of each domain. -/
theorem contains_sum?_iff (sum : d.sum? e = some s) : s.contains v = true ↔
    ∃ a b, d.contains a = true ∧ e.contains b = true ∧ v = a + b := by
  constructor
  · intro inside
    rw [contains_iff] at inside
    rcases sum?_eq_some_iff.mp sum with ⟨-, rfl⟩ | ⟨some, -, rfl⟩
    · obtain ⟨above, below⟩ : 1 ≤ v ∧ v ≤ 0 := inside
      omega
    · obtain ⟨above, below⟩ : d.min + e.min ≤ v ∧ v ≤ d.max + e.max := inside
      rw [isEmpty_iff, isEmpty_iff, not_or] at some
      -- the greatest value of `d` that leaves a value of `e`
      by_cases high : v - e.min ≤ d.max
      · exact ⟨v - e.min, e.min, contains_iff.mpr (by omega), contains_iff.mpr (by omega), by omega⟩
      · exact ⟨d.max, v - d.max, contains_iff.mpr (by omega), contains_iff.mpr (by omega), by omega⟩
  · rintro ⟨a, b, left, right, rfl⟩
    exact contains_sum? sum left right

/-- What a sum gives fits a word, whatever the two domains are. -/
theorem inWord_sum? (sum : d.sum? e = some s) : s.InWord := by
  rcases sum?_eq_some_iff.mp sum with ⟨-, rfl⟩ | ⟨-, fits, rfl⟩
  · exact ⟨by decide, by decide⟩
  · exact fits

theorem InWord.index?_lt (fits : d.InWord) (found : d.index? v = some i) : Word.Fits v ∧ i < 2 ^ 64 := by
  obtain ⟨rfl, inside⟩ := index?_eq_some.mp found
  simp only [InWord, Word.Fits, Word.least, Word.greatest, count, value] at fits inside ⊢
  omega

end Domain

theorem count_domain (d : Domain) : (d.count : Int) = max 0 (d.max - d.min + 1) := by
  rw [Domain.count]
  omega

/-- The count is cut off at the greatest of a word. -/
theorem size_domain (d : Domain) : (d.size : Int) = min (max 0 (d.max - d.min + 1)) (2 ^ 64 - 1) := by
  have cut : d.size = min d.count 18446744073709551615 := rfl
  rw [← count_domain, cut]
  omega

theorem Domain.size_eq_zero_iff : d.size = 0 ↔ d.isEmpty = true := by
  have size := size_domain d
  rw [isEmpty_iff]
  omega

/-- Counts, positions and sums of domains are exact: the count of the values is that of the integers between the ends,
or else the greatest of a word; the position of a value is its place among the values, which are in increasing order;
the domain of a sum is missing just if an end of it does not fit a word, and otherwise has just the sums. What is made
of ends that fit a word fits one too. -/
theorem domain_arithmetic_exact (d e : Domain) :
    (d.size : Int) = min (max 0 (d.max - d.min + 1)) (2 ^ 64 - 1) ∧ (d.size = 0 ↔ d.isEmpty = true) ∧
      (d.values.Pairwise (· < ·) ∧ ∀ v, v ∈ d.values ↔ d.min ≤ v ∧ v ≤ d.max) ∧
      (∀ v, d.contains v = true ↔ d.min ≤ v ∧ v ≤ d.max) ∧
      (∀ v i, d.index? v = some i ↔ d.values[i]? = some v) ∧ (∀ v, d.index? v = none ↔ d.contains v = false) ∧
      d.values.map d.index? = (List.range (max 0 (d.max - d.min + 1)).toNat).map some ∧
      (d.sum? e = none ↔ d.isEmpty = false ∧ e.isEmpty = false ∧
        ¬ (Word.Fits (d.min + e.min) ∧ Word.Fits (d.max + e.max))) ∧
      (∀ s v, d.sum? e = some s →
        (s.contains v = true ↔ ∃ a b, d.contains a = true ∧ e.contains b = true ∧ v = a + b)) ∧
      (∀ s, d.sum? e = some s → s.InWord) ∧
      (d.InWord → ∀ v i, d.index? v = some i → Word.Fits v ∧ i < 2 ^ 64) := by
  have places : d.values.map d.index? = (List.range (max 0 (d.max - d.min + 1)).toNat).map some := by
    rw [← count_domain, Int.toNat_natCast, Domain.map_index?_values]
  refine ⟨size_domain d, Domain.size_eq_zero_iff, ⟨d.values_increasing, fun v => ?_⟩, fun v => Domain.contains_iff,
    fun v i => Domain.index?_eq_some_iff_getElem?, fun v => Domain.index?_eq_none_iff, places,
    Domain.sum?_eq_none_iff, fun s v => Domain.contains_sum?_iff, fun s => Domain.inWord_sum?,
    fun fits v i => fits.index?_lt⟩
  rw [Domain.mem_values, Domain.contains_iff]

/-- The widest domain, which has one value more than can be counted. -/
theorem domain_arithmetic_exact_widest :
    let d : Domain := ⟨-0x8000000000000000, 0x7FFFFFFFFFFFFFFF⟩
    d.InWord ∧ d.size = 2 ^ 64 - 1 ∧ d.index? 0x7FFFFFFFFFFFFFFF = some (2 ^ 64 - 1) ∧ (2 ^ 64 - 1 < 2 ^ 64) ∧
      d.sum? (.singleton 1) = none := by
  intro d
  have fits : d.InWord := ⟨by decide, by decide⟩
  have found : d.index? 0x7FFFFFFFFFFFFFFF = some (2 ^ 64 - 1) := by decide
  obtain ⟨size, -, -, -, -, -, -, missing, -, -, inside⟩ := domain_arithmetic_exact d (.singleton 1)
  refine ⟨fits, ?_, found, (inside fits _ _ found).2, missing.mpr (by decide)⟩
  have cut : (d.size : Int) = 2 ^ 64 - 1 := size.trans (by decide)
  omega

end Clausal
