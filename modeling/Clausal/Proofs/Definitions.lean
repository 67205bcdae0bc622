import Clausal.Proofs.Storing

/-!
What the definitional clauses of a sum or a comparison leave open, once they are stored. Under a valuation
that gives both sides a value just one setting of the new atoms satisfies them: the indicator of the sum of
the values alone is true, or the atom of the comparison says whether it holds. If a side has no value at
all, no setting satisfies those of the sum. Main statement: `definitions_determine`.
-/

namespace Clausal

variable {v w : Valuation}

/-- A literal on an atom of a valuation keeps its truth value when atoms are appended. -/
theorem Valuation.holds_append {l : Literal} (inside : l.atom < v.size) : (v ++ w).holds l = v.holds l := by
  rw [holds, holds, Array.getElem?_append_left inside]

/-- The setting of the indicators over a domain of which that of a value alone is true. -/
def Domain.only (d : Domain) (n : Int) : Valuation := (d.values.map (· == n)).toArray

theorem Domain.size_only {d : Domain} {n : Int} : (d.only n).size = d.count := by
  simp [only, values]

namespace Encoding

variable {left right sum enc : Encoding} {a b n : Int} {atoms : Nat}

/-- Atoms that are appended do not change what an encoding shows. -/
theorem Shows.append (shown : enc.Shows v n) (covers : v.Covers enc.indicators) : enc.Shows (v ++ w) n := by
  refine ⟨shown.inside, fun i l found => ?_⟩
  rw [Valuation.holds_append (covers l (List.mem_of_getElem? found)), shown.indicates i l found]

/-- An encoding shows a value if of its entries just that of the value has a true literal. -/
theorem shows_iff_entries (full : enc.Full) : enc.Shows v n ↔
    enc.domain.contains n = true ∧ ∀ entry ∈ enc.entries, v.holds entry.2 = true ↔ entry.1 = n := by
  constructor
  · intro shown
    exact ⟨shown.inside, fun entry member => shown.holds_iff member⟩
  · rintro ⟨inside, only⟩
    refine ⟨inside, fun i l found => only (enc.domain.value i, l) (mem_entries.mpr ⟨i, rfl, ?_, found⟩)⟩
    exact full ▸ (List.getElem?_eq_some_iff.mp found).1

/-- The clauses of a sum, with those of its encoding, hold exactly if it shows the sum of the values of
both sides. -/
theorem all_sumDefinition (fullLeft : left.Full) (fullRight : right.Full) (fullSum : sum.Full)
    (coversLeft : v.Covers left.indicators) (coversRight : v.Covers right.indicators)
    (coversSum : v.Covers sum.indicators) (domain : left.domain.sum? right.domain = some sum.domain)
    (showsLeft : left.Shows v a) (showsRight : right.Shows v b) :
    v.All (exactlyOne sum.indicators ++ sumClauses left right sum) ↔ sum.Shows v (a + b) := by
  have rule : ∀ {n}, sum.Shows v n → (v.All (sumClauses left right sum) ↔ n = a + b) :=
    all_sumClauses fullLeft fullRight fullSum coversLeft coversRight coversSum domain showsLeft showsRight
  rw [Valuation.all_append, all_exactlyOne fullSum coversSum]
  constructor
  · rintro ⟨⟨n, shown⟩, all⟩
    exact (rule shown).mp all ▸ shown
  · intro shown
    exact ⟨⟨a + b, shown⟩, (rule shown).mpr rfl⟩

end Encoding

/-- A change whose result is a value yields it. -/
theorem Build.yields_of_ok {α : Type} {change : Build α} {kb : KnowledgeBase} {a : α}
    (ok : (change.run.run kb).1 = .ok a) : change.Yields kb a (change.run.run kb).2 := Prod.ext ok rfl

namespace KnowledgeBase

variable {kb more : KnowledgeBase} {allowed : Config → Prop} {left right : Expr} {l r sum : Encoding}
  {a b n : Int} {d : Domain} {op : Comparison} {x : Atom} {setting : Valuation}

/-- An encoding with new atoms shows a value under just one setting of them. -/
theorem shows_freshEncoding_iff (size : v.size = kb.atomCount) (length : setting.size = d.count)
    (inside : d.contains n = true) : (kb.freshEncoding d).Shows (v ++ setting) n ↔ setting = d.only n := by
  have only : ∀ i < d.count, (d.only n)[i]? = some (d.value i == n) := by
    intro i within
    simp [Domain.only, Domain.values, within]
  have holds : ∀ i, (v ++ setting).holds (.positive (kb.atomCount + i)) = (setting[i]? == some true) := by
    intro i
    rw [Valuation.holds, Literal.positive, ← size, Array.getElem?_append_right (Nat.le_add_right _ _),
      Nat.add_sub_cancel_left]
  constructor
  · intro shown
    refine Array.ext (length.trans Domain.size_only.symm) fun i here there => ?_
    have within : i < d.count := length ▸ here
    have truth := shown.indicates i _ (getElem?_freshLiterals.mpr ⟨within, rfl⟩)
    rw [holds, Array.getElem?_eq_getElem here, beq_iff_eq, Option.some.injEq] at truth
    have found := only i within
    rw [Array.getElem?_eq_getElem there, Option.some.injEq] at found
    rw [found, Bool.eq_iff_iff, truth, beq_iff_eq]
    rfl
  · rintro rfl
    refine ⟨inside, fun i m found => ?_⟩
    obtain ⟨within, rfl⟩ := getElem?_freshLiterals.mp found
    rw [holds, only i within, beq_iff_eq, Option.some.injEq, beq_iff_eq]
    rfl

section Appending

variable (ground : kb.Grounds v) (formed : kb.WellFormed)

include ground formed

/-- Whatever the new atoms are set to, what is stored says the same as what was given. -/
theorem Grounds.all_stored {cs : List Clause} (below : ∀ c ∈ cs, ∀ l ∈ c, l.atom < kb.atomCount + w.size) :
    (v ++ w).All (cs.filterMap Clause.stored?) ↔ (v ++ w).All cs := by
  have top : (v ++ w).holds Literal.top = true := by
    rw [Valuation.holds_append (ground.size ▸ formed.nonempty)]
    exact ground.top
  refine KnowledgeBase.all_stored top fun c member m listed => ?_
  rw [Array.size_append, ground.size]
  exact below c member m listed

theorem Grounds.covers {e : Expr} {enc : Encoding} (found : kb.encodings.get? e = some enc) :
    (v ++ w).Covers enc.indicators := by
  refine formed.covers ?_ found
  rw [Array.size_append, ground.size]
  exact Nat.le_add_right _ _

/-- An expression that was encoded before shows what it showed. -/
theorem Grounds.shows {e : Expr} {enc : Encoding} (found : kb.encodings.get? e = some enc)
    (shown : enc.Shows v n) : enc.Shows (v ++ w) n :=
  shown.append (formed.covers (Nat.le_of_eq ground.size.symm) found)

/-- The clauses that a sum stores are satisfied by one setting of its indicators. -/
theorem Grounds.sum_iff (first : kb.encodings.get? left = some l) (second : kb.encodings.get? right = some r)
    (domain : l.domain.sum? r.domain = some d) (showsLeft : l.Shows v a) (showsRight : r.Shows v b)
    (length : setting.size = d.count) :
    (v ++ setting).All ((exactlyOne (kb.freshEncoding d).indicators ++
      sumClauses l r (kb.freshEncoding d)).filterMap Clause.stored?) ↔ setting = d.only (a + b) := by
  have covers : (v ++ setting).Covers (kb.freshEncoding d).indicators := by
    intro m member
    rw [Array.size_append, ground.size, length]
    exact below_freshEncoding m member
  have inside : d.contains (a + b) = true := Domain.contains_sum? domain showsLeft.inside showsRight.inside
  rw [ground.all_stored formed (length ▸ formed.below_sum first second),
    Encoding.all_sumDefinition (formed.encoded left l first).1 (formed.encoded right r second).1
      full_freshEncoding (ground.covers formed first) (ground.covers formed second) covers domain
      (ground.shows formed first showsLeft) (ground.shows formed second showsRight)]
  exact shows_freshEncoding_iff ground.size length inside

/-- The clauses that a comparison stores are satisfied by one value of its atom. -/
theorem Grounds.comparison_iff (first : kb.encodings.get? left = some l)
    (second : kb.encodings.get? right = some r) (showsLeft : l.Shows v a) (showsRight : r.Shows v b)
    (value : Bool) : (v ++ #[value]).All
      ((comparisonClauses op l r (.positive kb.atomCount)).filterMap Clause.stored?) ↔
        value = op.holds a b := by
  have inside : kb.atomCount < (v ++ #[value]).size := by
    rw [Array.size_append, ground.size]
    exact Nat.lt_succ_self _
  have result : (v ++ #[value]).holds (.positive kb.atomCount) = value := by
    rw [Valuation.holds, Literal.positive, ← ground.size, Array.getElem?_append_right (Nat.le_refl _)]
    cases value <;> simp
  rw [ground.all_stored formed (formed.below_comparison op first second),
    Encoding.all_comparisonClauses (formed.encoded left l first).1 (formed.encoded right r second).1
      (ground.covers formed first) (ground.covers formed second) inside
      (ground.shows formed first showsLeft) (ground.shows formed second showsRight), result]

end Appending

/-- A sum of which one side has no value stores the empty clause. -/
theorem nil_mem_of_isEmpty {cs : List Clause} (domain : l.domain.sum? r.domain = some d)
    (empty : l.domain.isEmpty = true ∨ r.domain.isEmpty = true) :
    [] ∈ (exactlyOne (kb.freshEncoding d).indicators ++ cs).filterMap Clause.stored? := by
  rw [Domain.sum?, if_pos (Bool.or_eq_true_iff.mpr empty), Option.some.injEq] at domain
  subst domain
  exact List.mem_filterMap.mpr ⟨[], List.mem_cons_self, rfl⟩

/-- An expression that was encoded is not encoded again. -/
theorem encode_yields_cached (formed : kb.WellFormed) {e : Expr} {enc made : Encoding}
    (found : kb.encodings.get? e = some enc) (h : (Build.encode e).Yields kb made more) :
    made = enc ∧ more = kb := by
  have cached : ∀ {make}, (Build.cachedEncoding e make).Yields kb made more → made = enc ∧ more = kb := by
    intro make yields
    rcases Build.cachedEncoding_yields yields with ⟨known, same⟩ | ⟨unknown, -⟩
    · rw [found, Option.some.injEq] at known
      exact ⟨known.symm, same⟩
    · rw [found] at unknown
      cases unknown
  cases e with
  | symbol s => exact cached h
  | constant value => exact cached h
  | sum left right => exact cached h
  | not e => exact (formed.encoded _ enc found).2.elim
  | compare op left right => exact (formed.encoded _ enc found).2.elim

/-- A comparison of encoded expressions that is new takes one atom, with its clauses. -/
theorem comparisonAtom_yields_cached (formed : kb.WellFormed) (first : kb.encodings.get? left = some l)
    (second : kb.encodings.get? right = some r) (new : kb.comparisons.get? (.compare op left right) = none)
    (h : (Build.comparisonAtom op left right).Yields kb x more) : x = kb.atomCount ∧
      more = kb.withComparison (.compare op left right) .auxiliary
        (comparisonClauses op l r (.positive kb.atomCount)) := by
  simp only [Build.comparisonAtom, Build.yields_bind, Build.yields_get] at h
  obtain ⟨old, now, ⟨rfl, rfl⟩, rest⟩ := h
  rw [new] at rest
  simp only [Build.yields_bind, Build.yields_modify, Build.yields_pure] at rest
  obtain ⟨_, kb₁, makesLeft, _, kb₂, makesRight, b, kb₃, made, _, kb₄, defined, _, last, rfl, rfl, rfl⟩ := rest
  obtain ⟨rfl, rfl⟩ := encode_yields_cached formed first makesLeft
  obtain ⟨rfl, rfl⟩ := encode_yields_cached formed second makesRight
  obtain ⟨rfl, same, -⟩ := Build.comparison_yields made defined
  exact ⟨rfl, same⟩

/-- Of a knowledge base that can be reached, take two encoded expressions, possibly the same one. Under a
valuation that makes exactly one indicator of each true, the clauses that their sum stores are satisfied
by exactly one setting of the new indicators, in which that of the sum of both values alone is true; if a
side has no values, they are not satisfied at all. The clauses that a comparison of the two stores are
satisfied by exactly one value of the new atom, which is whether it holds of both values. -/
theorem definitions_determine (reached : Reachable allowed kb) (first : kb.encodings.get? left = some l)
    (second : kb.encodings.get? right = some r) :
    (∀ sum more, (Build.encodeSum l r).Yields kb sum more →
      sum.indicators = freshLiterals kb.atomCount sum.domain.count ∧
      more.atomCount = kb.atomCount + sum.domain.count ∧
      ∃ stored, more.clauses.toList = kb.clauses.toList ++ stored ∧
        (∀ v a b, kb.Grounds v → l.Shows v a → r.Shows v b → sum.domain.contains (a + b) = true ∧
          ∀ setting : Valuation, setting.size = sum.domain.count ∧ (v ++ setting).All stored ↔
            setting = sum.domain.only (a + b)) ∧
        (l.domain.isEmpty = true ∨ r.domain.isEmpty = true → ∀ w : Valuation, ¬ w.All stored)) ∧
    ∀ op x more, kb.comparisons.get? (.compare op left right) = none →
      (Build.comparisonAtom op left right).Yields kb x more →
      x = kb.atomCount ∧ more.atomCount = kb.atomCount + 1 ∧
      ∃ stored, more.clauses.toList = kb.clauses.toList ++ stored ∧
        ∀ v a b, kb.Grounds v → l.Shows v a → r.Shows v b →
          ∀ value : Bool, (v ++ #[value]).All stored ↔ value = op.holds a b := by
  obtain ⟨added, faithful⟩ := reached.faithful
  have formed := faithful.toWellFormed
  constructor
  · intro sum more yields
    obtain ⟨d, domain, -, -, rfl, rfl⟩ := Build.encodeSum_yields yields
    refine ⟨rfl, by simp [atomCount, freshEncoding, ← Array.length_toList], _, kb.storeAll_clauses _, ?_, ?_⟩
    · intro v a b ground showsLeft showsRight
      have determined {setting : Valuation} (length : setting.size = d.count) :=
        ground.sum_iff formed first second domain showsLeft showsRight length
      refine ⟨Domain.contains_sum? domain showsLeft.inside showsRight.inside, fun setting => ⟨?_, ?_⟩⟩
      · rintro ⟨length, all⟩
        exact (determined length).mp all
      · rintro rfl
        exact ⟨Domain.size_only, (determined Domain.size_only).mpr rfl⟩
    · intro empty w all
      have never : w.satisfies [] = true := all [] (nil_mem_of_isEmpty domain empty)
      cases never
  · intro op x more new yields
    obtain ⟨rfl, rfl⟩ := comparisonAtom_yields_cached formed first second new yields
    refine ⟨rfl, by simp [atomCount, withComparison], _, kb.storeAll_clauses _, ?_⟩
    intro v a b ground showsLeft showsRight value
    exact ground.comparison_iff formed first second showsLeft showsRight value

/-- For a symbol of two values: the sum of it and its double, the sum of it and a symbol without values, and
whether its double is less than it. -/
theorem definitions_determine_doubled :
    let x : Expr := .symbol ⟨0, 0, "x", .integer (some ⟨-1, 0⟩)⟩
    let e : Symbol := ⟨0, 1, "e", .integer (some ⟨1, 0⟩)⟩
    let kb := (((KnowledgeBase.empty {}).add [.compare .equal (.sum x x) (.constant 3)]).2.declare e).2
    let l : Encoding := ⟨⟨-1, 0⟩, [⟨1, true⟩, ⟨2, true⟩]⟩
    let twice : Encoding := ⟨⟨-2, 0⟩, [⟨3, true⟩, ⟨4, true⟩, ⟨5, true⟩]⟩
    let vacant : Encoding := ⟨⟨1, 0⟩, []⟩
    let v : Valuation := #[true, true, false, true, false, false, false]
    let sum : Encoding := ⟨⟨-3, 0⟩, [⟨7, true⟩, ⟨8, true⟩, ⟨9, true⟩, ⟨10, true⟩]⟩
    let more := ((Build.encodeSum l twice).run.run kb).2
    Reachable (fun _ => True) kb ∧ (Build.encodeSum l twice).Yields kb sum more ∧
      (∃ stored, more.clauses.toList = kb.clauses.toList ++ stored ∧
        ∀ setting : Valuation, setting.size = 4 ∧ (v ++ setting).All stored ↔
          setting = #[true, false, false, false]) ∧
      (∃ stored, ((Build.encodeSum l vacant).run.run kb).2.clauses.toList = kb.clauses.toList ++ stored ∧
        ∀ w : Valuation, ¬ w.All stored) ∧
      ∃ stored, ((Build.comparisonAtom .less (.sum x x) x).run.run kb).2.clauses.toList =
          kb.clauses.toList ++ stored ∧
        ∀ value : Bool, (v ++ #[value]).All stored ↔ value = true := by
  intro x e kb l twice vacant v sum more
  have reached : Reachable (fun _ => True) kb := .declare (.add (.empty trivial) _) _
  have single : kb.encodings.get? x = some l := by decide +kernel
  have double : kb.encodings.get? (.sum x x) = some twice := by decide +kernel
  have empty : kb.encodings.get? (.symbol e) = some vacant := by decide +kernel
  have ground : kb.Grounds v := ⟨by decide +kernel, by decide⟩
  have full : l.Full := rfl
  have full' : twice.Full := rfl
  have showsLeft : l.Shows v (-1) := (Encoding.shows_iff_entries full).mpr (by decide)
  have showsRight : twice.Shows v (-2) := (Encoding.shows_iff_entries full').mpr (by decide)
  have made : (Build.encodeSum l twice).Yields kb sum more := Build.yields_of_ok (by decide +kernel)
  have noSum : (Build.encodeSum l vacant).Yields kb vacant ((Build.encodeSum l vacant).run.run kb).2 :=
    Build.yields_of_ok (by decide +kernel)
  have compared : (Build.comparisonAtom .less (.sum x x) x).Yields kb 7
      ((Build.comparisonAtom .less (.sum x x) x).run.run kb).2 := Build.yields_of_ok (by decide +kernel)
  have new : kb.comparisons.get? (.compare .less (.sum x x) x) = none := by decide +kernel
  obtain ⟨-, -, stored, appended, only, -⟩ := (definitions_determine reached single double).1 sum more made
  obtain ⟨-, -, stored', appended', -, never⟩ := (definitions_determine reached single empty).1 _ _ noSum
  obtain ⟨-, -, stored'', appended'', value⟩ :=
    (definitions_determine reached double single).2 .less _ _ new compared
  exact ⟨reached, made, ⟨stored, appended, (only v (-1) (-2) ground showsLeft showsRight).2⟩,
    ⟨stored', appended', never (.inr rfl)⟩, stored'', appended'', value v (-2) (-1) ground showsRight showsLeft⟩

end KnowledgeBase

end Clausal
