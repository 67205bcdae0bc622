import Clausal.CommandLine.Run
import Clausal.Proofs.Exhaustion
import Clausal.Proofs.Layout
import Clausal.Proofs.Registration
import Mathlib.Data.Fintype.BigOperators
import Mathlib.Data.Set.Finite.List

/-!
The models of a formula that was read, in terms of its numbers. A model gives a value to
each absolute value of a number, in the order in which these first occur, and it is
shown by a line of numerals from which the values can be told. Main statements:
`represents_of_read` and `valuesLine_injOn`.
-/

namespace Clausal

open Dimacs

namespace Dimacs

variable {clauses : List (List Int)} {values : List Bool} {kb : KnowledgeBase} {v : Valuation}

/-- Whether each clause has a number that is true. A positive one is true if its absolute value is, any other
if not. -/
def Satisfies (β : Nat → Bool) (clauses : List (List Int)) : Prop :=
  ∀ c ∈ clauses, ∃ n ∈ c, β n.natAbs = decide (0 < n)

/-- The values of the absolute values of the numbers, in the order in which these first occur, under which
each clause has a number that is true. -/
def satisfying (clauses : List (List Int)) : Set (List Bool) :=
  {values | ∃ β, Satisfies β clauses ∧ (occurring clauses).map β = values}

theorem nodup_occurring (clauses : List (List Int)) : (occurring clauses).Nodup := nodup_eraseDups _

theorem mem_occurring {m : Nat} : m ∈ occurring clauses ↔ ∃ c ∈ clauses, ∃ n ∈ c, n.natAbs = m := by
  simp only [occurring, List.mem_eraseDups, List.mem_map, List.mem_flatten]
  constructor
  · rintro ⟨n, ⟨c, member, inside⟩, same⟩
    exact ⟨c, member, n, inside, same⟩
  · rintro ⟨c, member, n, inside, same⟩
    exact ⟨n, ⟨c, member, inside⟩, same⟩

/-- The values are told by their places. -/
theorem mem_satisfying : values ∈ satisfying clauses ↔ values.length = (occurring clauses).length ∧
    ∀ c ∈ clauses, ∃ n ∈ c, values[(occurring clauses).idxOf n.natAbs]? = some (decide (0 < n)) := by
  constructor
  · rintro ⟨β, satisfies, rfl⟩
    refine ⟨List.length_map .., fun c member => ?_⟩
    obtain ⟨n, inside, value⟩ := satisfies c member
    have place : (occurring clauses).idxOf n.natAbs < (occurring clauses).length :=
      List.idxOf_lt_length_iff.mpr (mem_occurring.mpr ⟨c, member, n, inside, rfl⟩)
    refine ⟨n, inside, ?_⟩
    rw [List.getElem?_map, List.getElem?_eq_getElem place, List.getElem_idxOf place, Option.map_some, value]
  · rintro ⟨length, satisfies⟩
    refine ⟨fun m => values[(occurring clauses).idxOf m]?.getD false, fun c member => ?_, ?_⟩
    · obtain ⟨n, inside, value⟩ := satisfies c member
      refine ⟨n, inside, ?_⟩
      show values[(occurring clauses).idxOf n.natAbs]?.getD false = decide (0 < n)
      rw [value, Option.getD_some]
    · refine List.ext_getElem ((List.length_map ..).trans length.symm) fun i inside within => ?_
      have place : (occurring clauses).idxOf (occurring clauses)[i] = i := (nodup_occurring clauses).idxOf_getElem i _
      rw [List.getElem_map, place, List.getElem?_eq_getElem within, Option.getD_some]

theorem finite_satisfying (clauses : List (List Int)) : (satisfying clauses).Finite := by
  refine (List.finite_length_eq Bool (occurring clauses).length).subset ?_
  exact fun values satisfies => (mem_satisfying.mp satisfies).1

theorem nonempty_satisfying : (satisfying clauses).Nonempty ↔ ∃ β, Satisfies β clauses := by
  constructor
  · rintro ⟨_, β, satisfies, -⟩
    exact ⟨β, satisfies⟩
  · rintro ⟨β, satisfies⟩
    exact ⟨_, β, satisfies, rfl⟩

/-- If each clause has a number and its opposite, all values satisfy the clauses. -/
theorem ncard_satisfying_of_opposite (opposed : ∀ c ∈ clauses, ∃ n ∈ c, n ≠ 0 ∧ -n ∈ c) :
    (satisfying clauses).ncard = 2 ^ (occurring clauses).length := by
  have all : satisfying clauses = {values | values.length = (occurring clauses).length} := by
    ext values
    refine mem_satisfying.trans (and_iff_left_of_imp fun length c member => ?_)
    obtain ⟨n, inside, nonzero, opposite⟩ := opposed c member
    have place : (occurring clauses).idxOf n.natAbs < values.length := by
      rw [length, List.idxOf_lt_length_iff]
      exact mem_occurring.mpr ⟨c, member, n, inside, rfl⟩
    have value := List.getElem?_eq_getElem place
    by_cases same : values[(occurring clauses).idxOf n.natAbs] = decide (0 < n)
    · exact ⟨n, inside, by rw [value, same]⟩
    · have signs : ¬ 0 < n ↔ 0 < -n := by omega
      refine ⟨-n, opposite, ?_⟩
      rw [Int.natAbs_neg, value, Bool.eq_not.mpr same, ← decide_not, decide_eq_decide.mpr signs]
  rw [all, ← Nat.card_coe_set_eq]
  show Nat.card (List.Vector Bool _) = _
  rw [Nat.card_eq_fintype_card, card_vector, Fintype.card_bool]

/-- The atoms of a knowledge base are those of the absolute values, and its models are the satisfying values,
after the atom that always holds. -/
structure Represents (clauses : List (List Int)) (kb : KnowledgeBase) : Prop where
  origins : ∃ symbols : List Symbol, symbols.map Symbol.name = (occurring clauses).map toString ∧
    kb.origins.toList = .top :: symbols.map .boolean
  models : ∀ v, v ∈ kb.models ↔ ∃ values ∈ satisfying clauses, v.toList = true :: values

section Fresh

variable {config : Config} {number : Nat} {last : Session}
  (result : addNumbers (.empty config) (.empty number) clauses = .ok (last, kb))

include result

/-- A number is true if the value at its place is that of its sign. -/
theorem shown_iff {n : Int} (member : n ∈ clauses.flatten) (b : Bool) (values : List Bool) :
    Shown kb last (b :: values).toArray n ↔
      values[(occurring clauses).idxOf n.natAbs]? = some (decide (0 < n)) := by
  obtain ⟨symbols, -, -, places⟩ := addNumbers_fresh result
  obtain ⟨s, found, known⟩ := places n member
  constructor
  · rintro ⟨t, a, found', known', holds⟩
    rw [found, Option.some.injEq] at found'
    rw [← found', known, Option.some.injEq] at known'
    subst known'
    simpa [Valuation.holds] using holds
  · intro value
    exact ⟨s, _, found, known, by simpa [Valuation.holds] using value⟩

/-- The models are the values that satisfy the clauses, after one for the atom that always holds. -/
theorem cons_mem_models (b : Bool) (values : List Bool) :
    (b :: values).toArray ∈ kb.models ↔ b = true ∧ values ∈ satisfying clauses := by
  obtain ⟨symbols, names, numbered, -⟩ := addNumbers_fresh result
  have lengths : symbols.length = (occurring clauses).length := by
    simpa using congrArg List.length names
  have size : (b :: values).toArray.size = kb.atomCount ↔ values.length = (occurring clauses).length := by
    rw [numbered.atomCount, lengths, List.size_toArray, List.length_cons, Nat.add_right_cancel_iff]
  have large : ∀ v : Valuation, v.size = kb.atomCount → ∀ s a, kb.booleans.get? s = some a → a < v.size := by
    intro v size s a known
    rw [numbered.booleans] at known
    split at known
    · next member =>
      cases known
      rw [size, numbered.atomCount]
      exact Nat.succ_lt_succ (List.idxOf_lt_length_iff.mpr member)
    · cases known
  have top : Valuation.holds (b :: values).toArray Literal.top = true ↔ b = true := by
    simp [Valuation.holds, Literal.top, Literal.positive, Atom.top]
  have begun : Valuation.All (b :: values).toArray (KnowledgeBase.empty config).clauses.toList ↔ b = true := by
    rw [← top]
    simp [Valuation.All, KnowledgeBase.empty, Valuation.satisfies]
  have isTrue : (∀ c ∈ clauses, ∃ n ∈ c, Shown kb last (b :: values).toArray n) ↔
      ∀ c ∈ clauses, ∃ n ∈ c, values[(occurring clauses).idxOf n.natAbs]? = some (decide (0 < n)) := by
    refine forall₂_congr fun c member => exists_congr fun n => and_congr_right fun inside => ?_
    exact shown_iff result (List.mem_flatten.mpr ⟨c, member, inside⟩) b values
  have meaning : (b :: values).toArray.size = kb.atomCount →
      (Valuation.All (b :: values).toArray kb.clauses.toList ↔ b = true ∧ ∀ c ∈ clauses, ∃ n ∈ c,
        values[(occurring clauses).idxOf n.natAbs]? = some (decide (0 < n))) := by
    intro total
    rw [addNumbers_meaning result (fun all => top.mpr (begun.mp all)) (large _ total), begun, isTrue]
  have satisfied : (b :: values).toArray ∈ kb.models ↔ (b :: values).toArray.size = kb.atomCount ∧
      Valuation.All (b :: values).toArray kb.clauses.toList := by
    simp only [Valuation.All, Array.mem_toList_iff]
    rfl
  rw [satisfied, and_congr_right meaning, size, mem_satisfying]
  exact and_left_comm

theorem represents_of_addNumbers : Represents clauses kb := by
  obtain ⟨symbols, names, numbered, -⟩ := addNumbers_fresh result
  refine ⟨⟨symbols, names, numbered.origins⟩, fun v => ?_⟩
  obtain ⟨bs, rfl⟩ : ∃ bs : List Bool, v = bs.toArray := ⟨v.toList, by simp⟩
  cases bs with
  | nil =>
    refine iff_of_false (fun model => ?_) (by simp)
    have empty : 0 = kb.atomCount := model.1
    rw [numbered.atomCount] at empty
    omega
  | cons b values =>
    rw [cons_mem_models result]
    constructor
    · rintro ⟨rfl, satisfies⟩
      exact ⟨values, satisfies, rfl⟩
    · rintro ⟨others, satisfies, same⟩
      cases same
      exact ⟨rfl, satisfies⟩

end Fresh

/-- What was read of a source that holds some clauses represents these. -/
theorem represents_of_read {config : Config} {number : Nat} {last : Session} {source : Text.Source}
    {p : Option Problem} {summary : Summary} (holds : Holds source p clauses)
    (result : (KnowledgeBase.empty config).read (.empty number) source = (.ok summary, last, kb)) :
    Represents clauses kb := by
  rw [KnowledgeBase.read_holds holds] at result
  split at result
  · next added =>
    cases result
    exact represents_of_addNumbers added
  · cases result

end Dimacs

namespace CommandLine

open Invocation Text

variable {clauses : List (List Int)} {values : List Bool} {kb : KnowledgeBase} {v : Valuation}

/-- A name as a literal: with a minus sign if its value is false. -/
def signedName (value : Bool) (name : String) : String := if value then name else "-" ++ name

/-- An absolute value as a literal. -/
def shown (value : Bool) (m : Nat) : String := signedName value (toString m)

/-- The line of some values: the absolute values as literals, in order, and a zero. -/
def valuesLine (clauses : List (List Int)) (values : List Bool) : String :=
  "v " ++ String.intercalate " " (List.zipWith shown values (occurring clauses) ++ ["0"])

/-- What shows the values of symbols shows their names as literals. -/
theorem filterMap_zip_symbols {f : Bool × Origin → Option String}
    (shows : ∀ value s, f (value, .boolean s) = some (signedName value s.name)) (symbols : List Symbol)
    (values : List Bool) : (values.zip (symbols.map Origin.boolean)).filterMap f =
      List.zipWith signedName values (symbols.map Symbol.name) := by
  induction symbols generalizing values with
  | nil => simp
  | cons s symbols ih =>
    cases values with
    | nil => rfl
    | cons value values =>
      rw [List.map_cons, List.map_cons, List.zip_cons_cons, List.zipWith_cons_cons,
        List.filterMap_cons_some (shows value s), ih]

/-- A model is shown by the line of its values. -/
theorem modelLine_eq (represents : Represents clauses kb) (model : v.toList = true :: values) :
    modelLine kb v = valuesLine clauses values := by
  obtain ⟨symbols, names, origins⟩ := represents.origins
  have shownAs : List.zipWith signedName values ((occurring clauses).map toString) =
      List.zipWith shown values (occurring clauses) := List.zipWith_map_right ..
  rw [modelLine, model, origins]
  refine congrArg (fun ws => "v " ++ String.intercalate " " (ws ++ ["0"])) ?_
  refine (filterMap_zip_symbols (fun value s => ?_) symbols values).trans (by rw [names, shownAs])
  rfl

theorem inked_shown (value : Bool) (m : Nat) : Inked (shown value m).toList := by
  cases value with
  | true => exact inked_natural m
  | false =>
    have minus : (shown false m).toList = '-' :: (toString m).toList := by
      rw [shown, signedName, if_neg (by simp), String.toList_append]
      rfl
    rw [minus]
    exact ⟨by simp, List.forall_mem_cons.mpr ⟨by decide, (inked_natural m).2⟩⟩

theorem shown_inj {value other : Bool} {m : Nat} (same : shown value m = shown other m) : value = other := by
  have longer : ("-" ++ toString m).toList.length = (toString m).toList.length + 1 := by
    rw [String.toList_append, List.length_append, Nat.add_comm]
    rfl
  have apart : toString m ≠ "-" ++ toString m := by
    intro same
    rw [← same] at longer
    omega
  cases value with
  | true =>
    cases other with
    | true => rfl
    | false => exact absurd same apart
  | false =>
    cases other with
    | true => exact absurd same.symm apart
    | false => rfl

theorem zipWith_shown_inj {ms : List Nat} {values others : List Bool} (length : values.length = ms.length)
    (length' : others.length = ms.length) (same : List.zipWith shown values ms = List.zipWith shown others ms) :
    values = others := by
  induction ms generalizing values others with
  | nil => rw [List.length_eq_zero_iff.mp length, List.length_eq_zero_iff.mp length']
  | cons m ms ih =>
    cases values with
    | nil => cases length
    | cons value values =>
      cases others with
      | nil => cases length'
      | cons other others =>
        rw [List.zipWith_cons_cons, List.zipWith_cons_cons, List.cons.injEq] at same
        rw [shown_inj same.1, ih (Nat.succ.inj length) (Nat.succ.inj length') same.2]

/-- The words of the line of some values. -/
theorem inked_valuesLine (clauses : List (List Int)) (values : List Bool) :
    ∀ w ∈ (List.zipWith shown values (occurring clauses) ++ ["0"]).map String.toList, Inked w := by
  rw [List.map_append, List.forall_mem_append]
  refine ⟨List.forall_mem_map.mpr fun word member => ?_, List.forall_mem_singleton.mpr (inked_natural 0)⟩
  rw [← List.map_uncurry_zip_eq_zipWith, List.mem_map] at member
  obtain ⟨⟨value, m⟩, -, rfl⟩ := member
  exact inked_shown value m

/-- The values can be told from their line, by its words. -/
theorem valuesLine_injOn (clauses : List (List Int)) : Set.InjOn (valuesLine clauses) (satisfying clauses) := by
  intro values satisfies others satisfies' same
  have texts := String.toList_inj.mpr same
  rw [valuesLine, valuesLine, String.toList_append, String.toList_append, String.toList_intercalate,
    String.toList_intercalate] at texts
  have split := congrArg words (List.append_cancel_left texts)
  have blank : " ".toList = [' '] := rfl
  rw [blank, words_intercalate (inked_valuesLine clauses values),
    words_intercalate (inked_valuesLine clauses others)] at split
  have injective : Function.Injective String.toList := fun _ _ => String.toList_inj.mp
  refine zipWith_shown_inj (mem_satisfying.mp satisfies).1 (mem_satisfying.mp satisfies').1 ?_
  exact List.append_cancel_right (List.map_injective_iff.mpr injective split)

end CommandLine

end Clausal
