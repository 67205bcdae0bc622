import Clausal.Proofs.Exhaustion
import Clausal.Proofs.Rereading
import Mathlib.SetTheory.Cardinal.Finite

/-!
How many models are left when a formula that was written is reread. The reader makes
atoms only for what the clauses mention, so an atom that no clause mentions is lost, and
with it the choice of its value: each such atom halves the number of models. Main
statements: `reread_model_count` and `reread_loses_declared`.
-/

namespace Clausal

namespace Valuation

/-- The truth of each atom; an atom outside the valuation is not true. -/
def truth (v : Valuation) : Interpretation := fun a => v.holds (.positive a)

theorem holds_eq_truth {v : Valuation} {l : Literal} (inside : l.atom < v.size) :
    v.holds l = true ↔ l.TrueIn v.truth := by
  obtain ⟨a, p⟩ := l
  have value : v[a]? = some v[a] := Array.getElem?_eq_getElem inside
  simp only [Literal.TrueIn, truth, holds, Literal.positive, value]
  cases v[a] <;> cases p <;> simp

/-- The models of a formula, by the truth of its clauses. -/
theorem mem_models {v : Valuation} {f : Formula} {atoms : Nat} (below : f.Below atoms) :
    v ∈ f.models atoms ↔ v.size = atoms ∧ ∀ c ∈ f, c.TrueIn v.truth := by
  have each : v.size = atoms → ∀ c ∈ f, (v.satisfies c = true ↔ c.TrueIn v.truth) := by
    intro size c member
    rw [satisfies_iff]
    exact exists_congr fun l => and_congr_right fun listed =>
      holds_eq_truth (size ▸ below c member l listed)
  constructor
  · rintro ⟨size, satisfied⟩
    exact ⟨size, fun c member => (each size c member).mp (satisfied c member)⟩
  · rintro ⟨size, isTrue⟩
    exact ⟨size, fun c member => (each size c member).mpr (isTrue c member)⟩

end Valuation

/-- Whether some clause has a literal on an atom. -/
def Formula.Mentions (f : Formula) (a : Atom) : Prop := ∃ c ∈ f, ∃ l ∈ c, l.atom = a

/-- A clause is true under interpretations that agree on its atoms alike. -/
theorem Clause.trueIn_congr {c : Clause} {β γ : Interpretation} (agree : ∀ l ∈ c, β l.atom = γ l.atom) :
    c.TrueIn β ↔ c.TrueIn γ := by
  refine exists_congr fun l => and_congr_right fun member => ?_
  rw [Literal.TrueIn, Literal.TrueIn, agree l member]

namespace Dimacs

section Split

/-- The valuation of the atoms that stand for those of an order, the atom that always holds true. -/
def condense (order : List Atom) (v : Valuation) : Valuation := (true :: order.map v.truth).toArray

/-- The valuation of the atoms below a number in which those of an order have the values of the atoms that
stand for them, and all others the values given. -/
def expand (order : List Atom) (atoms : Nat) (w : Valuation) (others : Atom → Bool) : Valuation :=
  Array.ofFn fun a : Fin atoms => if a.val ∈ order then w.truth (placeOf order a) else others a

variable {order : List Atom} {atoms : Nat} {a : Atom} {v w : Valuation} {others : Atom → Bool}

theorem truth_condense (member : a ∈ order) : (condense order v).truth (placeOf order a) = v.truth a := by
  have inside : order.idxOf a < order.length := List.idxOf_lt_length_iff.mpr member
  have value : (condense order v)[placeOf order a]? = some (v.truth a) := by
    rw [condense, placeOf, List.getElem?_toArray, List.getElem?_cons_succ, List.getElem?_map,
      List.getElem?_eq_getElem inside, List.getElem_idxOf inside]
    rfl
  change ((condense order v)[placeOf order a]? == some true) = v.truth a
  rw [value]
  cases v.truth a <;> rfl

theorem truth_expand (inside : a < atoms) : (expand order atoms w others).truth a =
    if a ∈ order then w.truth (placeOf order a) else others a := by
  have within : a < (expand order atoms w others).size := by simpa [expand] using inside
  change ((expand order atoms w others)[a]? == some true) = _
  rw [Array.getElem?_eq_getElem within]
  simp only [expand, Array.getElem_ofFn]
  split
  · cases w.truth (placeOf order a) <;> rfl
  · cases others a <;> rfl

/-- Nothing is lost of the atoms of the order, and of the others what is given. -/
theorem expand_condense (size : v.size = atoms) (same : ∀ a < atoms, a ∉ order → others a = v.truth a) :
    expand order atoms (condense order v) others = v := by
  have sizes : (expand order atoms (condense order v) others).size = atoms := by simp [expand]
  refine Valuation.eq_of_holds (sizes.trans size.symm) fun a inside => ?_
  rw [sizes] at inside
  change (expand order atoms (condense order v) others).truth a = v.truth a
  rw [truth_expand inside]
  by_cases member : a ∈ order
  · rw [if_pos member, truth_condense member]
  · rw [if_neg member, same a inside member]

theorem condense_expand (distinct : order.Nodup) (below : ∀ a ∈ order, a < atoms)
    (size : w.size = order.length + 1) (top : w.truth Atom.top = true) :
    condense order (expand order atoms w others) = w := by
  have sizes : (condense order (expand order atoms w others)).size = order.length + 1 := by simp [condense]
  refine Valuation.eq_of_holds (sizes.trans size.symm) fun b inside => ?_
  change (condense order (expand order atoms w others)).truth b = w.truth b
  cases b with
  | zero => exact (show _ = true from rfl).trans top.symm
  | succ i =>
    rw [sizes] at inside
    have within : i < order.length := Nat.lt_of_succ_lt_succ inside
    have member : order[i] ∈ order := List.getElem_mem within
    have place : placeOf order order[i] = i + 1 := by
      rw [placeOf, distinct.idxOf_getElem i within]
    rw [← place, truth_condense member, truth_expand (below _ member), if_pos member]

end Split

end Dimacs

namespace KnowledgeBase

open Dimacs

variable {kb fresh : KnowledgeBase} {allowed : Config → Prop} {config : Config}

/-- The atoms that no clause mentions, in increasing order. -/
def idle (kb : KnowledgeBase) : List Atom :=
  (List.range kb.atomCount).filter fun a => !kb.clauses.toList.any fun c => c.any fun l => l.atom == a

theorem mem_idle {a : Atom} : a ∈ kb.idle ↔ a < kb.atomCount ∧ ¬ kb.clauses.Mentions a := by
  rw [idle, List.mem_filter, List.mem_range]
  refine and_congr_right fun _ => ?_
  simp only [Formula.Mentions, Bool.not_eq_true', ← Bool.not_eq_true, List.any_eq_true, beq_iff_eq,
    Array.mem_toList_iff]

/-- Values for the atoms that no clause mentions, as values for all atoms. -/
def fill (kb : KnowledgeBase) (others : {a // a ∈ kb.idle} → Bool) (a : Atom) : Bool :=
  if free : a ∈ kb.idle then others ⟨a, free⟩ else false

theorem fill_of_mem {others : {a // a ∈ kb.idle} → Bool} {a : Atom} (free : a ∈ kb.idle) :
    kb.fill others a = others ⟨a, free⟩ := dif_pos free

/-- The first knowledge base has its clauses from the second, their atoms renamed to the places that they
have in an order, which is that of the atoms mentioned. -/
structure Condensed (order : List Atom) (fresh kb : KnowledgeBase) : Prop where
  distinct : order.Nodup
  mentioned : ∀ a, a ∈ order ↔ kb.clauses.Mentions a
  below : kb.clauses.Below kb.atomCount
  atoms : fresh.atomCount = order.length + 1
  belowFresh : fresh.clauses.Below fresh.atomCount
  clauses : fresh.clauses.toList = [Literal.top] :: kb.clauses.toList.map (Clause.rename (placeOf order))

variable {order : List Atom} {v w : Valuation}

namespace Condensed

variable (condensed : Condensed order fresh kb)

include condensed

theorem lt_atomCount {a : Atom} (member : a ∈ order) : a < kb.atomCount := by
  obtain ⟨c, listed, l, inside, rfl⟩ := (condensed.mentioned a).mp member
  exact condensed.below c listed l inside

/-- Two valuations that give each atom mentioned and the atom that stands for it one value are models of
both or of neither, if the atom that always holds is true. -/
theorem models_iff (agree : ∀ a ∈ order, w.truth (placeOf order a) = v.truth a) (size : v.size = kb.atomCount)
    (size' : w.size = fresh.atomCount) (top : w.truth Atom.top = true) : v ∈ kb.models ↔ w ∈ fresh.models := by
  have same : ∀ c ∈ kb.clauses, ((c.rename (placeOf order)).TrueIn w.truth ↔ c.TrueIn v.truth) := by
    intro c member
    rw [Clause.trueIn_rename]
    refine Clause.trueIn_congr fun l listed => ?_
    exact agree l.atom ((condensed.mentioned _).mpr ⟨c, member, l, listed, rfl⟩)
  have ofFresh : (∀ d ∈ fresh.clauses, d.TrueIn w.truth) ↔
      ∀ c ∈ kb.clauses, (c.rename (placeOf order)).TrueIn w.truth := by
    simp only [← Array.mem_toList_iff, condensed.clauses, List.forall_mem_cons, List.forall_mem_map]
    refine and_iff_right ⟨Literal.top, List.mem_singleton_self _, top⟩
  rw [models, models, Valuation.mem_models condensed.below, Valuation.mem_models condensed.belowFresh,
    and_iff_right size, and_iff_right size', ofFresh]
  exact forall₂_congr fun c member => (same c member).symm

theorem condense_mem (model : v ∈ kb.models) : condense order v ∈ fresh.models := by
  have size' : (condense order v).size = fresh.atomCount := by
    rw [condensed.atoms]
    simp [condense]
  exact (condensed.models_iff (fun a member => truth_condense member) model.1 size' rfl).mp model

theorem top_of_mem (model : w ∈ fresh.models) : w.truth Atom.top = true := by
  have isTrue := ((Valuation.mem_models condensed.belowFresh).mp model).2
  have first : [Literal.top] ∈ fresh.clauses := by
    rw [← Array.mem_toList_iff, condensed.clauses]
    exact List.mem_cons_self
  obtain ⟨l, listed, holds⟩ := isTrue _ first
  rw [List.mem_singleton.mp listed] at holds
  exact holds

theorem expand_mem (model : w ∈ fresh.models) (others : Atom → Bool) :
    expand order kb.atomCount w others ∈ kb.models := by
  have size : (expand order kb.atomCount w others).size = kb.atomCount := by simp [expand]
  refine (condensed.models_iff (fun a member => ?_) size model.1 (condensed.top_of_mem model)).mpr model
  rw [truth_expand (condensed.lt_atomCount member), if_pos member]

/-- A model is one of the reread formula and a value for each atom that is not mentioned. -/
def splitModels : kb.models ≃ fresh.models × ({a // a ∈ kb.idle} → Bool) where
  toFun v := (⟨condense order v, condensed.condense_mem v.2⟩, fun a => v.1.truth a)
  invFun pair :=
    ⟨expand order kb.atomCount pair.1 (kb.fill pair.2), condensed.expand_mem pair.1.2 _⟩
  left_inv := by
    rintro ⟨v, model⟩
    refine Subtype.ext ?_
    show expand order kb.atomCount (condense order v) (kb.fill fun a => v.truth a) = v
    refine expand_condense model.1 fun a inside out => ?_
    have free : a ∈ kb.idle := mem_idle.mpr ⟨inside, fun mentioned => out ((condensed.mentioned a).mpr mentioned)⟩
    rw [fill_of_mem free]
  right_inv := by
    rintro ⟨⟨w, model⟩, others⟩
    refine Prod.ext (Subtype.ext ?_) (funext fun a => ?_)
    · exact condense_expand condensed.distinct (fun a => condensed.lt_atomCount) (model.1.trans condensed.atoms)
        (condensed.top_of_mem model)
    · obtain ⟨inside, free⟩ := mem_idle.mp a.2
      have out : a.1 ∉ order := fun member => free ((condensed.mentioned _).mp member)
      show (expand order kb.atomCount w (kb.fill others)).truth a.1 = others a
      rw [truth_expand inside, if_neg out, fill_of_mem a.2]

/-- So each atom that is not mentioned doubles the number of models. -/
theorem ncard_eq : kb.models.ncard = 2 ^ kb.idle.length * fresh.models.ncard := by
  have distinct : kb.idle.Nodup := List.nodup_range.filter _
  have free : Nat.card {a // a ∈ kb.idle} = kb.idle.length := by
    have same : {a | a ∈ kb.idle} = (kb.idle.toFinset : Set Atom) := by
      ext a
      simp
    rw [← List.toFinset_card_of_nodup distinct, ← Set.ncard_coe_finset, ← same]
    rfl
  have finite : Finite {a // a ∈ kb.idle} := List.finite_toSet kb.idle
  have choices : Nat.card ({a // a ∈ kb.idle} → Bool) = 2 ^ kb.idle.length := by
    rw [Nat.card_fun, free, Nat.card_eq_fintype_card, Fintype.card_bool]
  rw [← Nat.card_coe_set_eq, ← Nat.card_coe_set_eq, Nat.card_congr condensed.splitModels, Nat.card_prod,
    choices, Nat.mul_comm]

end Condensed

/-- What a knowledge base writes is reread with the atoms that its clauses mention. -/
theorem Reachable.condensed (reached : Reachable allowed kb) (plain : kb.PlainNames)
    (fits : Word.Fits kb.atomCount) (countable : kb.clauseCount ≤ Word.greatestCount)
    (room : kb.atomCount + 1 ≤ config.atomLimit) (n : Nat) :
    ∃ order last fresh, (KnowledgeBase.empty config).read (.empty n) (.ofText kb.dimacs) =
        (.ok ⟨some ⟨kb.atomCount, kb.clauseCount⟩, kb.clauseCount⟩, last, fresh) ∧
      Condensed order fresh kb := by
  obtain ⟨added, faithful⟩ := reached.faithful
  obtain ⟨order, whole⟩ : ∃ order, meetAll [] kb.clauses.toList.flatten = order := ⟨_, rfl⟩
  have below : ∀ l ∈ kb.clauses.toList.flatten, l.atom < kb.atomCount := by
    intro l member
    obtain ⟨c, listed, inside⟩ := List.mem_flatten.mp member
    exact faithful.below c (Array.mem_toList_iff.mp listed) l inside
  have distinct : order.Nodup := whole ▸ nodup_meetAll List.nodup_nil
  have short : order.length < config.atomLimit := by
    have few := length_meetAll_le below
    rw [whole] at few
    omega
  obtain ⟨fresh, result, mirrors, clauses⟩ :=
    read_dimacs (n := n) plain (le_greatestCount fits) countable (reached.writable fits) whole short
  obtain ⟨added', faithful'⟩ := (Reachable.of_read result).faithful
  refine ⟨order, _, fresh, result, distinct, ?_, faithful.below, mirrors.atoms, faithful'.below, clauses⟩
  intro a
  rw [← whole, mem_meetAll, or_iff_right List.not_mem_nil]
  simp only [Formula.Mentions, List.mem_flatten, Array.mem_toList_iff]
  constructor
  · rintro ⟨l, ⟨c, member, listed⟩, same⟩
    exact ⟨c, member, l, listed, same⟩
  · rintro ⟨c, member, l, listed, same⟩
    exact ⟨l, ⟨c, member, listed⟩, same⟩

/-- A knowledge base that is reread has the models of the one that wrote it, but for the values of the
atoms that no clause mentions: each of these halves the number of models. So the number stays the same
just if every atom is mentioned, or if there is no model. -/
theorem reread_model_count (reached : Reachable allowed kb) (plain : kb.PlainNames)
    (fits : Word.Fits kb.atomCount) (countable : kb.clauseCount ≤ Word.greatestCount)
    (room : kb.atomCount + 1 ≤ config.atomLimit) (n : Nat) :
    ∃ last fresh, (KnowledgeBase.empty config).read (.empty n) (.ofText kb.dimacs) =
        (.ok ⟨some ⟨kb.atomCount, kb.clauseCount⟩, kb.clauseCount⟩, last, fresh) ∧
      kb.models.ncard = 2 ^ kb.idle.length * fresh.models.ncard ∧
      (fresh.models.ncard = kb.models.ncard ↔ (∀ a < kb.atomCount, kb.clauses.Mentions a) ∨ kb.models = ∅) := by
  obtain ⟨order, last, fresh, result, condensed⟩ := reached.condensed plain fits countable room n
  have count := condensed.ncard_eq
  refine ⟨last, fresh, result, count, ?_⟩
  have all : (∀ a < kb.atomCount, kb.clauses.Mentions a) ↔ kb.idle.length = 0 := by
    rw [List.length_eq_zero_iff, List.eq_nil_iff_forall_not_mem]
    refine forall_congr' fun a => ?_
    rw [mem_idle, not_and_not_right]
  have empty : kb.models = ∅ ↔ kb.models.ncard = 0 :=
    (Set.ncard_eq_zero (kb.clauses.finite_models kb.atomCount)).symm
  rw [all, empty, count]
  constructor
  · intro same
    rcases Nat.eq_zero_or_pos kb.idle.length with none | some
    · exact .inl none
    · have twice : 2 ≤ 2 ^ kb.idle.length := Nat.le_self_pow (Nat.ne_of_gt some) 2
      have half : 2 * fresh.models.ncard ≤ fresh.models.ncard := by
        calc 2 * fresh.models.ncard
          _ ≤ 2 ^ kb.idle.length * fresh.models.ncard := Nat.mul_le_mul_right _ twice
          _ = fresh.models.ncard := same.symm
      exact .inr (by rw [← same]; omega)
  · rintro (none | none)
    · rw [none, Nat.pow_zero, Nat.one_mul]
    · have positive : 0 < 2 ^ kb.idle.length := Nat.two_pow_pos _
      rw [none]
      exact (Nat.mul_eq_zero.mp none).resolve_left (Nat.ne_of_gt positive)

/-- A symbol that was declared only, a tautology and an integer symbol with one value too many. -/
theorem reread_model_count_idle :
    let p : Expr := .symbol ⟨0, 0, "p", .boolean⟩
    let q : Symbol := ⟨0, 1, "q", .boolean⟩
    let x : Expr := .symbol ⟨0, 2, "x", .integer (some ⟨0, 1⟩)⟩
    let kb := ((((KnowledgeBase.empty {}).declare q).2.add [p, .not p]).2.add
      [.compare .less x (.constant 1)]).2
    Reachable (fun _ => True) kb ∧ kb.idle = [1, 2] ∧
      ∃ last fresh, (KnowledgeBase.empty { atomLimit := 7 }).read (.empty 1) (.ofText kb.dimacs) =
          (.ok ⟨some ⟨kb.atomCount, kb.clauseCount⟩, kb.clauseCount⟩, last, fresh) ∧
        kb.models.ncard = 2 ^ kb.idle.length * fresh.models.ncard ∧
        (fresh.models.ncard = kb.models.ncard ↔
          (∀ a < kb.atomCount, kb.clauses.Mentions a) ∨ kb.models = ∅) := by
  intro p q x kb
  have reached : Reachable (fun _ => True) kb := .add (.add (.declare (.empty trivial) q) _) _
  exact ⟨reached, by decide +kernel, reread_model_count reached (by decide +kernel) (by decide +kernel)
    (by decide +kernel) (by decide +kernel) 1⟩

/-- A symbol that was declared and is in no clause has two values in the models of the knowledge base, and
is not there when it is reread. -/
theorem reread_loses_declared :
    let kb := ((KnowledgeBase.empty {}).declare ⟨0, 0, "p", .boolean⟩).2
    Reachable (fun _ => True) kb ∧ kb.PlainNames ∧ kb.atomCount + 1 ≤ ({} : Config).atomLimit ∧
      kb.dimacs = "c 1 true\nc 2 p\np cnf 2 1\n1 0\n" ∧
      ∃ last fresh, (KnowledgeBase.empty {}).read (.empty 1) (.ofText kb.dimacs) =
          (.ok ⟨some ⟨kb.atomCount, kb.clauseCount⟩, kb.clauseCount⟩, last, fresh) ∧
        kb.models.ncard = 2 ∧ fresh.models.ncard = 1 := by
  intro kb
  have reached : Reachable (fun _ => True) kb := .declare (.empty trivial) _
  have plain : kb.PlainNames := by decide +kernel
  have room : kb.atomCount + 1 ≤ ({} : Config).atomLimit := by decide +kernel
  obtain ⟨added, faithful⟩ := reached.faithful
  obtain ⟨order, last, fresh, result, condensed⟩ :=
    reached.condensed plain (by decide +kernel) (by decide +kernel) room 1
  have two : kb.models.ncard = 2 := (ncard_models faithful.below (by decide +kernel)).trans (by decide +kernel)
  have lost : kb.idle.length = 1 := by decide +kernel
  have count := condensed.ncard_eq
  rw [two, lost] at count
  exact ⟨reached, plain, room, by decide +kernel, last, fresh, result, two, by omega⟩

end KnowledgeBase

end Clausal
