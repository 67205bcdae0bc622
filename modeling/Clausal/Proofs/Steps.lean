import Clausal.Proofs.Extension
import Mathlib.Logic.Relation

/-!
What compilation does, step by step. A step makes literals for one item that has none:
a boolean symbol, an integer symbol, a constant, a sum or a comparison. What every step
keeps is kept by every compilation.
-/

namespace Clausal.KnowledgeBase

/-- The limit allows as many new atoms as given. -/
def Room (kb : KnowledgeBase) (count : Nat) : Prop :=
  count = 0 ∨ kb.atomCount + count ≤ kb.config.atomLimit

/-- The encoding over a domain with new atoms as indicators. -/
def freshEncoding (kb : KnowledgeBase) (d : Domain) : Encoding := ⟨d, freshLiterals kb.atomCount d.count⟩

variable {kb more : KnowledgeBase} {d : Domain} {e left right : Expr} {enc l r : Encoding} {n : Nat}

theorem full_freshEncoding : (kb.freshEncoding d).Full := by
  simp [Encoding.Full, freshEncoding, freshLiterals]

theorem indicates_freshEncoding {os : List Origin} (length : os.length = d.count) :
    kb.Indicates e (kb.freshEncoding d) os := .inl (by rw [length]; rfl)

theorem below_freshEncoding : ∀ l ∈ (kb.freshEncoding d).indicators, l.atom < kb.atomCount + d.count := by
  intro l member
  obtain ⟨i, inside, rfl⟩ := mem_freshLiterals.mp member
  exact Nat.add_lt_add_left inside _

theorem WellFormed.below_indicators (formed : kb.WellFormed) (found : kb.encodings.get? e = some enc) :
    ∀ l ∈ enc.indicators, l.atom < kb.atomCount + n := by
  intro l member
  obtain ⟨a, inside, rfl⟩ := formed.positive (.integer e) enc.indicators (by simp [literals?, found]) l member
  exact Nat.lt_add_right n inside

/-- The definitional clauses of a sum are on atoms that it has or that were there before. -/
theorem WellFormed.below_sum (formed : kb.WellFormed) (first : kb.encodings.get? left = some l)
    (second : kb.encodings.get? right = some r) : ∀ c ∈ exactlyOne (kb.freshEncoding d).indicators ++
      sumClauses l r (kb.freshEncoding d), ∀ l ∈ c, l.atom < kb.atomCount + d.count := by
  intro c member
  rcases List.mem_append.mp member with one | rule
  · exact atoms_exactlyOne below_freshEncoding c one
  · exact Encoding.atoms_sumClauses (formed.below_indicators first) (formed.below_indicators second)
      below_freshEncoding c rule

/-- So are those of a comparison. -/
theorem WellFormed.below_comparison (formed : kb.WellFormed) (op : Comparison)
    (first : kb.encodings.get? left = some l) (second : kb.encodings.get? right = some r) :
    ∀ c ∈ comparisonClauses op l r (.positive kb.atomCount), ∀ l ∈ c, l.atom < kb.atomCount + 1 :=
  Encoding.atoms_comparisonClauses (formed.below_indicators first) (formed.below_indicators second)
    (Nat.lt_succ_self kb.atomCount)

/-- One item more, with all that it takes: the item is new, its parts were compiled before, and the
limits allow it. -/
inductive Step (kb : KnowledgeBase) : KnowledgeBase → Prop where
  | boolean {s : Symbol} (new : kb.booleans.get? s = none) (boolean : s.isBoolean = true)
      (room : kb.Room 1) : Step kb (kb.withBoolean s (.boolean s))
  | symbol {s : Symbol} {d : Domain} (new : kb.encodings.get? (.symbol s) = none)
      (integer : s.isBoolean = false) (small : d.size ≤ kb.config.domainLimit)
      (room : kb.Room d.count) :
      Step kb (kb.withEncoding (.symbol s) (kb.freshEncoding d)
        ((List.range d.count).map fun i => .indicator s (d.value i))
        (exactlyOne (kb.freshEncoding d).indicators))
  | constant {value : Int} (new : kb.encodings.get? (.constant value) = none) :
      Step kb (kb.withEncoding (.constant value) (Build.encodeConstant value) [] [])
  | sum {left right : Expr} {l r : Encoding} {d : Domain}
      (new : kb.encodings.get? (.sum left right) = none)
      (first : kb.encodings.get? left = some l) (second : kb.encodings.get? right = some r)
      (domain : l.domain.sum? r.domain = some d) (small : d.size ≤ kb.config.domainLimit)
      (room : kb.Room d.count) :
      Step kb (kb.withEncoding (.sum left right) (kb.freshEncoding d)
        ((List.range d.count).map fun _ => .auxiliary)
        (exactlyOne (kb.freshEncoding d).indicators ++ sumClauses l r (kb.freshEncoding d)))
  | comparison {op : Comparison} {left right : Expr} {l r : Encoding}
      (new : kb.comparisons.get? (.compare op left right) = none)
      (first : kb.encodings.get? left = some l) (second : kb.encodings.get? right = some r)
      (room : kb.Room 1) :
      Step kb (kb.withComparison (.compare op left right) .auxiliary
        (comparisonClauses op l r (.positive kb.atomCount)))

/-- What an atom at a position of an item stands for. -/
def standsFor (kb : KnowledgeBase) : Item → Nat → Option Origin
  | .boolean s, _ => some (.boolean s)
  | .integer (.symbol s), i =>
    (kb.encodings.get? (.symbol s)).map fun enc => .indicator s (enc.domain.value i)
  | .integer (.sum _ _), _ => some .auxiliary
  | .comparison (.compare _ _ _), _ => some .auxiliary
  | _, _ => none

/-- A step makes literals for one new item, and new atoms with origins that say what they stand for. -/
theorem Step.adds (step : kb.Step more) (formed : kb.WellFormed) :
    ∃ (item : Item) (cs : List Clause) (os : List Origin), kb.Adds more item os.length cs ∧
      more.origins = kb.origins ++ os ∧ ∀ i o, os[i]? = some o → more.standsFor item i = some o := by
  cases step with
  | @boolean s new boolean room =>
    refine ⟨.boolean s, [], [.boolean s], adds_boolean _ new boolean, by simp [withBoolean], ?_⟩
    intro i o found
    rw [List.mem_singleton.mp (List.mem_of_getElem? found), standsFor]
  | @symbol s d new integer small room =>
    have length : ((List.range d.count).map fun i => Origin.indicator s (d.value i)).length = d.count := by
      simp
    have adds := adds_encoding new (indicates_freshEncoding length) ⟨full_freshEncoding, integer⟩
      (atoms_exactlyOne (by rw [length]; exact below_freshEncoding))
    refine ⟨_, _, _, adds, rfl, fun i o found => ?_⟩
    obtain ⟨inside, rfl⟩ := List.getElem?_eq_some_iff.mp found
    rw [standsFor, get?_withEncoding, if_pos rfl, List.getElem_map, List.getElem_range]
    rfl
  | @constant value new =>
    refine ⟨_, _, _, adds_encoding new (.inr ⟨rfl, value, rfl, rfl⟩) ⟨?_, rfl⟩ (by simp), rfl, by simp⟩
    simp [Encoding.Full, Build.encodeConstant, Domain.singleton, Domain.count]
  | @sum left right l r d new first second domain small room =>
    have length : ((List.range d.count).map fun _ => Origin.auxiliary).length = d.count := by simp
    have adds := adds_encoding new (indicates_freshEncoding length)
      ⟨full_freshEncoding, l, r, first, second, domain⟩ (by rw [length]; exact formed.below_sum first second)
    refine ⟨_, _, _, adds, rfl, fun i o found => ?_⟩
    obtain ⟨j, -, rfl⟩ := List.mem_map.mp (List.mem_of_getElem? found)
    rfl
  | @comparison op left right l r new first second room =>
    refine ⟨_, _, [.auxiliary], adds_comparison .auxiliary new ⟨op, left, right, l, r, rfl, first, second⟩
      (formed.below_comparison op first second), by simp [withComparison], fun i o found => ?_⟩
    rw [List.mem_singleton.mp (List.mem_of_getElem? found), standsFor]

theorem Step.wellFormed (step : kb.Step more) (formed : kb.WellFormed) : more.WellFormed := by
  obtain ⟨item, cs, os, adds, -⟩ := step.adds formed
  exact adds.wellFormed formed

/-- Any number of steps. -/
abbrev Steps : KnowledgeBase → KnowledgeBase → Prop := Relation.ReflTransGen Step

/-- What every step keeps is kept by any number of them. -/
theorem Steps.keep {P : KnowledgeBase → Prop} (keeps : ∀ {kb more : KnowledgeBase}, kb.WellFormed →
    kb.Step more → P kb → P more) (steps : kb.Steps more) (formed : kb.WellFormed) (before : P kb) :
    P more := by
  have both : more.WellFormed ∧ P more := by
    induction steps with
    | refl => exact ⟨formed, before⟩
    | tail _ step ih => exact ⟨step.wellFormed ih.1, keeps ih.1 step ih.2⟩
  exact both.2

end Clausal.KnowledgeBase
