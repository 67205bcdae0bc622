import Clausal.KnowledgeBase.Compile
import Clausal.Proofs.Assignment
import Clausal.Proofs.Normalisation
import Clausal.Proofs.Valuation

/-!
What definitional clauses say. An encoding shows a value under a valuation if of
its indicators exactly that of the value is true. The clauses of an encoding say
that it shows some value, those of a sum that this is the sum of the values of
both sides, and those of a comparison that the result is whether it holds.
-/

namespace Clausal

variable {v : Valuation}

/-- Every atom of some literals has a value. -/
def Valuation.Covers (v : Valuation) (ls : List Literal) : Prop := ∀ l ∈ ls, l.atom < v.size

/-- A valuation satisfies all of some clauses. -/
def Valuation.All (v : Valuation) (cs : List Clause) : Prop := ∀ c ∈ cs, v.satisfies c = true

theorem Valuation.all_cons {c : Clause} {cs : List Clause} :
    v.All (c :: cs) ↔ v.satisfies c = true ∧ v.All cs := List.forall_mem_cons

theorem Valuation.all_append {cs ds : List Clause} : v.All (cs ++ ds) ↔ v.All cs ∧ v.All ds :=
  List.forall_mem_append

/-- The negation of a literal is true exactly if the literal is not. -/
theorem Valuation.holds_neg_iff {l : Literal} (inside : l.atom < v.size) :
    v.holds (-l) = true ↔ ¬ v.holds l = true := by
  rw [holds_neg inside, Bool.not_eq_true', Bool.eq_false_iff]

section ExactlyOne

theorem satisfies_pair {l m : Literal} (first : l.atom < v.size) (second : m.atom < v.size) :
    v.satisfies [-l, -m] = true ↔ ¬ (v.holds l = true ∧ v.holds m = true) := by
  rw [Valuation.satisfies_iff]
  simp only [List.mem_cons, List.not_mem_nil, or_false, exists_eq_or_imp, exists_eq_left,
    Valuation.holds_neg_iff first, Valuation.holds_neg_iff second]
  exact not_and_or.symm

theorem all_pairs {ls : List Literal} (covers : v.Covers ls) : v.All (exactlyOne.pairs ls) ↔
    ls.Pairwise fun l m => ¬ (v.holds l = true ∧ v.holds m = true) := by
  induction ls with
  | nil => simp [exactlyOne.pairs, Valuation.All]
  | cons l ls ih =>
    obtain ⟨first, rest⟩ := List.forall_mem_cons.mp covers
    rw [exactlyOne.pairs, Valuation.all_append, ih rest, List.pairwise_cons]
    refine and_congr_left fun _ => ?_
    simp only [Valuation.All, List.forall_mem_map]
    exact forall₂_congr fun m member => satisfies_pair first (rest m member)

/-- Exactly one of some literals is true: there is a position such that the literal there is true and
no other. -/
theorem all_exactlyOne {ls : List Literal} (covers : v.Covers ls) : v.All (exactlyOne ls) ↔
    ∃ i < ls.length, ∀ j l, ls[j]? = some l → (v.holds l = true ↔ j = i) := by
  rw [exactlyOne, Valuation.all_cons, all_pairs covers, Valuation.satisfies_iff, List.pairwise_iff_getElem]
  constructor
  · rintro ⟨⟨l, member, holds⟩, apart⟩
    obtain ⟨i, inside, rfl⟩ := List.mem_iff_getElem.mp member
    refine ⟨i, inside, fun j m found => ?_⟩
    obtain ⟨within, rfl⟩ := List.getElem?_eq_some_iff.mp found
    constructor
    · intro also
      rcases Nat.lt_trichotomy i j with less | same | greater
      · exact absurd ⟨holds, also⟩ (apart i j inside within less)
      · exact same.symm
      · exact absurd ⟨also, holds⟩ (apart j i within inside greater)
    · rintro rfl
      exact holds
  · rintro ⟨i, inside, only⟩
    refine ⟨⟨ls[i], List.getElem_mem inside, (only i _ (List.getElem?_eq_getElem inside)).mpr rfl⟩, ?_⟩
    rintro j k first second less ⟨here, there⟩
    have same := (only j _ (List.getElem?_eq_getElem first)).mp here
    have also := (only k _ (List.getElem?_eq_getElem second)).mp there
    exact Nat.ne_of_lt less (same.trans also.symm)

/-- The atoms of the clauses are those of the literals. -/
theorem atoms_exactlyOne {ls : List Literal} {n : Nat} (below : ∀ l ∈ ls, l.atom < n) :
    ∀ c ∈ exactlyOne ls, ∀ l ∈ c, l.atom < n := by
  have pairs : ∀ ls : List Literal, (∀ l ∈ ls, l.atom < n) →
      ∀ c ∈ exactlyOne.pairs ls, ∀ l ∈ c, l.atom < n := by
    intro ls
    induction ls with
    | nil => simp [exactlyOne.pairs]
    | cons m ls ih =>
      intro below c member l listed
      obtain ⟨first, rest⟩ := List.forall_mem_cons.mp below
      rcases List.mem_append.mp member with here | later
      · obtain ⟨k, inside, rfl⟩ := List.mem_map.mp here
        rcases List.mem_pair.mp listed with rfl | rfl
        · exact first
        · exact rest k inside
      · exact ih rest c later l listed
  intro c member
  rcases List.mem_cons.mp member with rfl | later
  · exact below
  · exact pairs ls below c later

end ExactlyOne

namespace Encoding

variable {left right sum enc : Encoding} {a b n m : Int} {l : Literal}

/-- An encoding has an indicator for each value of its domain, and no more. -/
def Full (enc : Encoding) : Prop := enc.indicators.length = enc.domain.count

/-- Under a valuation the indicator of a value is true, and no other. -/
structure Shows (enc : Encoding) (v : Valuation) (n : Int) : Prop where
  inside : enc.domain.contains n = true
  indicates : ∀ i l, enc.indicators[i]? = some l → (v.holds l = true ↔ enc.domain.value i = n)

theorem all_exactlyOne (full : enc.Full) (covers : v.Covers enc.indicators) :
    v.All (exactlyOne enc.indicators) ↔ ∃ n, enc.Shows v n := by
  rw [Clausal.all_exactlyOne covers]
  constructor
  · rintro ⟨i, inside, only⟩
    refine ⟨enc.domain.value i, Domain.contains_value_iff.mpr (full ▸ inside), fun j l found => ?_⟩
    rw [only j l found, Domain.value_inj]
  · rintro ⟨n, inside, indicates⟩
    obtain ⟨i, rfl, within⟩ := Domain.exists_index inside
    refine ⟨i, full ▸ within, fun j l found => ?_⟩
    rw [indicates j l found, Domain.value_inj]

theorem mem_entries : (n, l) ∈ enc.entries ↔
    ∃ i, enc.domain.value i = n ∧ i < enc.domain.count ∧ enc.indicators[i]? = some l := by
  simp only [entries, Domain.values, List.mem_iff_getElem?, List.getElem?_zip_eq_some,
    List.getElem?_map, Option.map_eq_some_iff]
  constructor
  · rintro ⟨i, ⟨j, position, rfl⟩, found⟩
    obtain ⟨inside, rfl⟩ := List.getElem?_eq_some_iff.mp position
    rw [List.getElem_range]
    exact ⟨i, rfl, by simpa using inside, found⟩
  · rintro ⟨i, rfl, inside, found⟩
    exact ⟨i, ⟨i, by simp [inside], rfl⟩, found⟩

theorem indicator?_eq_some : enc.indicator? n = some l ↔ (n, l) ∈ enc.entries := by
  simp only [indicator?, Option.bind_eq_bind, Option.bind_eq_some_iff, Domain.index?_eq_some, mem_entries]
  constructor
  · rintro ⟨i, ⟨same, inside⟩, found⟩
    exact ⟨i, same, inside, found⟩
  · rintro ⟨i, same, inside, found⟩
    exact ⟨i, ⟨same, inside⟩, found⟩

/-- Every value of a domain has an indicator. -/
theorem exists_entry (full : enc.Full) (inside : enc.domain.contains n = true) :
    ∃ l, (n, l) ∈ enc.entries := by
  obtain ⟨i, same, within⟩ := Domain.exists_index inside
  have bound : i < enc.indicators.length := full ▸ within
  exact ⟨enc.indicators[i], mem_entries.mpr ⟨i, same, within, List.getElem?_eq_getElem bound⟩⟩

theorem mem_indicators (entry : (n, l) ∈ enc.entries) : l ∈ enc.indicators := by
  obtain ⟨i, -, -, found⟩ := mem_entries.mp entry
  exact List.mem_of_getElem? found

theorem Shows.holds_iff (shown : enc.Shows v m) (entry : (n, l) ∈ enc.entries) :
    v.holds l = true ↔ n = m := by
  obtain ⟨i, rfl, -, found⟩ := mem_entries.mp entry
  exact shown.indicates i l found

theorem Shows.holds_neg_iff (shown : enc.Shows v m) (covers : v.Covers enc.indicators)
    (entry : (n, l) ∈ enc.entries) : v.holds (-l) = true ↔ n ≠ m := by
  rw [Valuation.holds_neg_iff (covers l (mem_indicators entry)), shown.holds_iff entry]

/-- An encoding shows one value at most. -/
theorem Shows.unique (full : enc.Full) (first : enc.Shows v n) (second : enc.Shows v m) : n = m := by
  obtain ⟨l, entry⟩ := exists_entry full first.inside
  exact (second.holds_iff entry).mp ((first.holds_iff entry).mpr rfl)

section Sums

/-- The clauses of a sum: values of both sides give that of the sum, and values of the sum and of the
left side give that of the right side, or exclude each other if the right side cannot have it. -/
inductive SumClause (left right sum : Encoding) : Clause → Prop where
  | forward {a b : Int} {la lb ls : Literal} (first : (a, la) ∈ left.entries)
      (second : (b, lb) ∈ right.entries) (total : (a + b, ls) ∈ sum.entries) :
      SumClause left right sum [-la, -lb, ls]
  | backward {n a : Int} {ls la lb : Literal} (total : (n, ls) ∈ sum.entries)
      (first : (a, la) ∈ left.entries) (second : (n - a, lb) ∈ right.entries) :
      SumClause left right sum [-ls, -la, lb]
  | excluded {n a : Int} {ls la : Literal} (total : (n, ls) ∈ sum.entries)
      (first : (a, la) ∈ left.entries) (missing : ∀ lb, (n - a, lb) ∉ right.entries) :
      SumClause left right sum [-ls, -la]

theorem sumClause_of_mem {c : Clause} (member : c ∈ sumClauses left right sum) :
    SumClause left right sum c := by
  rcases List.mem_append.mp member with forward | backward
  · obtain ⟨⟨a, la⟩, first, rest⟩ := List.mem_flatMap.mp forward
    obtain ⟨⟨b, lb⟩, second, made⟩ := List.mem_filterMap.mp rest
    obtain ⟨ls, found, rfl⟩ := Option.map_eq_some_iff.mp made
    exact .forward first second (indicator?_eq_some.mp found)
  · obtain ⟨⟨n, ls⟩, total, rest⟩ := List.mem_flatMap.mp backward
    obtain ⟨⟨a, la⟩, first, rfl⟩ := List.mem_map.mp rest
    dsimp only
    split
    · next lb found => exact .backward total first (indicator?_eq_some.mp found)
    · next nothing =>
      refine .excluded total first fun lb entry => ?_
      rw [indicator?_eq_some.mpr entry] at nothing
      cases nothing

theorem forward_mem {la lb ls : Literal} (first : (a, la) ∈ left.entries)
    (second : (b, lb) ∈ right.entries) (total : (a + b, ls) ∈ sum.entries) :
    [-la, -lb, ls] ∈ sumClauses left right sum := by
  refine List.mem_append_left _ (List.mem_flatMap.mpr ⟨_, first, ?_⟩)
  refine List.mem_filterMap.mpr ⟨_, second, ?_⟩
  dsimp only
  rw [indicator?_eq_some.mpr total, Option.map_some]

/-- The clauses of a sum are satisfied if it shows the sum of the values of both sides. -/
theorem SumClause.satisfied {c : Clause} (clause : SumClause left right sum c) (fullRight : right.Full)
    (coversLeft : v.Covers left.indicators) (coversRight : v.Covers right.indicators)
    (coversSum : v.Covers sum.indicators) (showsLeft : left.Shows v a) (showsRight : right.Shows v b)
    (showsSum : sum.Shows v (a + b)) : v.satisfies c = true := by
  rw [Valuation.satisfies_iff]
  cases clause with
  | @forward m k _ _ _ first second total =>
    simp only [List.mem_cons, List.not_mem_nil, or_false, exists_eq_or_imp, exists_eq_left,
      showsLeft.holds_neg_iff coversLeft first, showsRight.holds_neg_iff coversRight second,
      showsSum.holds_iff total]
    omega
  | @backward n m _ _ _ total first second =>
    simp only [List.mem_cons, List.not_mem_nil, or_false, exists_eq_or_imp, exists_eq_left,
      showsSum.holds_neg_iff coversSum total, showsLeft.holds_neg_iff coversLeft first,
      showsRight.holds_iff second]
    omega
  | @excluded n m _ _ total first missing =>
    simp only [List.mem_cons, List.not_mem_nil, or_false, exists_eq_or_imp, exists_eq_left,
      showsSum.holds_neg_iff coversSum total, showsLeft.holds_neg_iff coversLeft first]
    -- The value that is missed on the right is the one that the right side shows.
    obtain ⟨lb, entry⟩ := exists_entry fullRight showsRight.inside
    have apart : n - m ≠ b := by
      rintro rfl
      exact missing lb entry
    omega

/-- The clauses of a sum hold exactly if it shows the sum of the values of both sides. -/
theorem all_sumClauses (fullLeft : left.Full) (fullRight : right.Full) (fullSum : sum.Full)
    (coversLeft : v.Covers left.indicators) (coversRight : v.Covers right.indicators)
    (coversSum : v.Covers sum.indicators) (domain : left.domain.sum? right.domain = some sum.domain)
    (showsLeft : left.Shows v a) (showsRight : right.Shows v b) (showsSum : sum.Shows v n) :
    v.All (sumClauses left right sum) ↔ n = a + b := by
  constructor
  · intro all
    have inside := Domain.contains_sum? domain showsLeft.inside showsRight.inside
    obtain ⟨ls, total⟩ := exists_entry fullSum inside
    obtain ⟨la, first⟩ := exists_entry fullLeft showsLeft.inside
    obtain ⟨lb, second⟩ := exists_entry fullRight showsRight.inside
    have holds := Valuation.satisfies_iff.mp (all _ (forward_mem first second total))
    simp only [List.mem_cons, List.not_mem_nil, or_false, exists_eq_or_imp, exists_eq_left,
      showsLeft.holds_neg_iff coversLeft first, showsRight.holds_neg_iff coversRight second, ne_eq,
      not_true_eq_false, false_or] at holds
    exact ((showsSum.holds_iff total).mp holds).symm
  · rintro rfl c member
    exact (sumClause_of_mem member).satisfied fullRight coversLeft coversRight coversSum showsLeft
      showsRight showsSum

theorem atoms_sumClauses {k : Nat} (belowLeft : ∀ l ∈ left.indicators, l.atom < k)
    (belowRight : ∀ l ∈ right.indicators, l.atom < k) (belowSum : ∀ l ∈ sum.indicators, l.atom < k) :
    ∀ c ∈ sumClauses left right sum, ∀ l ∈ c, l.atom < k := by
  intro c member
  have ofLeft : ∀ {a la}, (a, la) ∈ left.entries → la.atom < k := fun entry =>
    belowLeft _ (mem_indicators entry)
  have ofRight : ∀ {b lb}, (b, lb) ∈ right.entries → lb.atom < k := fun entry =>
    belowRight _ (mem_indicators entry)
  have ofSum : ∀ {n ls}, (n, ls) ∈ sum.entries → ls.atom < k := fun entry =>
    belowSum _ (mem_indicators entry)
  cases sumClause_of_mem member with
  | forward first second total => simp [ofLeft first, ofRight second, ofSum total]
  | backward total first second => simp [ofSum total, ofLeft first, ofRight second]
  | excluded total first _ => simp [ofSum total, ofLeft first]

end Sums

section Comparisons

variable {op : Comparison} {result : Literal}

theorem mem_comparisonClauses {c : Clause} : c ∈ comparisonClauses op left right result ↔
    ∃ m l k l', (m, l) ∈ left.entries ∧ (k, l') ∈ right.entries ∧
      c = [-l, -l', if op.holds m k then result else -result] := by
  constructor
  · intro member
    obtain ⟨⟨m, l⟩, first, rest⟩ := List.mem_flatMap.mp member
    obtain ⟨⟨k, l'⟩, second, rfl⟩ := List.mem_map.mp rest
    exact ⟨m, l, k, l', first, second, rfl⟩
  · rintro ⟨m, l, k, l', first, second, rfl⟩
    exact List.mem_flatMap.mpr ⟨_, first, List.mem_map.mpr ⟨_, second, rfl⟩⟩

theorem atoms_comparisonClauses {k : Nat} (belowLeft : ∀ l ∈ left.indicators, l.atom < k)
    (belowRight : ∀ l ∈ right.indicators, l.atom < k) (inside : result.atom < k) :
    ∀ c ∈ comparisonClauses op left right result, ∀ l ∈ c, l.atom < k := by
  intro c member l listed
  obtain ⟨a, la, b, lb, first, second, rfl⟩ := mem_comparisonClauses.mp member
  simp only [List.mem_cons, List.not_mem_nil, or_false] at listed
  rcases listed with rfl | rfl | rfl
  · exact belowLeft la (mem_indicators first)
  · exact belowRight lb (mem_indicators second)
  · split
    · exact inside
    · exact inside

/-- The clauses of a comparison hold exactly if the result is true just when the comparison holds. -/
theorem all_comparisonClauses (fullLeft : left.Full) (fullRight : right.Full)
    (coversLeft : v.Covers left.indicators) (coversRight : v.Covers right.indicators)
    (inside : result.atom < v.size) (showsLeft : left.Shows v a) (showsRight : right.Shows v b) :
    v.All (comparisonClauses op left right result) ↔ v.holds result = op.holds a b := by
  obtain ⟨la, entryLeft⟩ := exists_entry fullLeft showsLeft.inside
  obtain ⟨lb, entryRight⟩ := exists_entry fullRight showsRight.inside
  have conclusion : v.holds (if op.holds a b then result else -result) = true ↔
      v.holds result = op.holds a b := by
    cases op.holds a b with
    | true => simp
    | false => simp [Valuation.holds_neg inside]
  have clause : ∀ m l k l', (m, l) ∈ left.entries → (k, l') ∈ right.entries →
      (v.satisfies [-l, -l', if op.holds m k then result else -result] = true ↔
        (m = a → k = b → v.holds result = op.holds a b)) := by
    intro m l k l' first second
    rw [Valuation.satisfies_iff]
    simp only [List.mem_cons, List.not_mem_nil, or_false, exists_eq_or_imp, exists_eq_left,
      showsLeft.holds_neg_iff coversLeft first, showsRight.holds_neg_iff coversRight second]
    rw [← or_assoc, ← not_and_or, ← imp_iff_not_or, and_imp]
    refine imp_congr_right fun one => imp_congr_right fun two => ?_
    rw [one, two]
    exact conclusion
  constructor
  · intro all
    have listed : [-la, -lb, if op.holds a b then result else -result] ∈
        comparisonClauses op left right result :=
      mem_comparisonClauses.mpr ⟨a, la, b, lb, entryLeft, entryRight, rfl⟩
    exact (clause a la b lb entryLeft entryRight).mp (all _ listed) rfl rfl
  · intro agrees c member
    obtain ⟨m, l, k, l', first, second, rfl⟩ := mem_comparisonClauses.mp member
    exact (clause m l k l' first second).mpr fun _ _ => agrees

end Comparisons

end Encoding

end Clausal
