import Clausal.Proofs.Runs
import Clausal.Proofs.Satisfiability
import Mathlib.Data.Set.Card

/-!
Asking a search for all models that are left. There are no more models than valuations,
so a search that is asked once more than there are valuations has said that no model is
left. What it gave is then every model, each once, and their number is that of the
models. Main statements: `rest_spec` and `ncard_models`.
-/

namespace Clausal

section Bound

/-- The valuations of the atoms below a number that satisfy every clause of a formula. -/
def Formula.models (f : Formula) (atoms : Nat) : Set Valuation := {v | v.Models f atoms}

/-- Different valuations of the same atoms differ on one of them. -/
theorem Valuation.eq_of_holds {v w : Valuation} (size : v.size = w.size)
    (same : ∀ a < v.size, v.holds (.positive a) = w.holds (.positive a)) : v = w := by
  refine Array.ext size fun a inside inside' => ?_
  have value := same a inside
  simp only [Valuation.holds, Literal.positive, Array.getElem?_eq_getElem inside,
    Array.getElem?_eq_getElem inside'] at value
  simpa using value

/-- The values of the atoms below a number. -/
def Valuation.values (atoms : Nat) (v : Valuation) : Fin atoms → Bool := fun a => v.holds (.positive a)

theorem Valuation.values_injOn (atoms : Nat) : Set.InjOn (values atoms) {v | v.size = atoms} := by
  intro v size w size' same
  refine eq_of_holds (Eq.trans size (Eq.symm size')) fun a inside => ?_
  exact congrFun same ⟨a, Eq.subst size inside⟩

theorem Formula.finite_models (f : Formula) (atoms : Nat) : (f.models atoms).Finite := by
  refine Set.Finite.of_finite_image (Set.toFinite (Valuation.values atoms '' f.models atoms)) ?_
  exact (Valuation.values_injOn atoms).mono fun v model => model.1

/-- Of the atoms below a number there are no more valuations than choices of the true atoms. -/
theorem Valuation.length_le {found : List Valuation} {atoms : Nat} (distinct : found.Nodup)
    (total : ∀ v ∈ found, v.size = atoms) : found.length ≤ 1 <<< atoms := by
  have apart : (found.map (values atoms)).Nodup := by
    refine distinct.map_on fun v member w member' same => ?_
    exact values_injOn atoms (total v member) (total w member') same
  have bound := apart.length_le_card
  rw [List.length_map, Fintype.card_fun, Fintype.card_bool, Fintype.card_fin] at bound
  rwa [Nat.one_shiftLeft]

end Bound

namespace Search

variable {first s : Search} {found : Array Valuation}

/-- Every draw in every call for the next model returns. -/
def CallsReturn (first : Search) : Prop := ∀ answers s, Run first answers s → s.NextReturns

/-- If no atom is decided at random, they do. -/
theorem callsReturn_of_unbiased (blank : first.Blank) (fresh : first.phase = .fresh)
    (unbiased : first.bias.Impossible) : first.CallsReturn :=
  fun _ _ run => (run.account blank fresh).nextReturns unbiased

theorem collect_succ (s : Search) (found : Array Valuation) (cap : Nat) : s.collect found (cap + 1) =
    match s.next with
    | (some v, t) => t.collect (found.push v) cap
    | (none, t) => (found, t) := rfl

/-- What calls for the next model found are models looked for, each once, and all of them if one of the
calls found none. -/
theorem Account.tallied {n : Nat} (account : Account first (found.toList.map some ++ List.replicate n none) s) :
    found.toList.Nodup ∧ (∀ v ∈ found, first.Target v) ∧ (n ≠ 0 → ∀ v, first.Target v → v ∈ found) := by
  obtain ⟨-, -, models, m, tally, ended, distinct, taken, target⟩ := account
  have same : found.toList = models := by
    have answers := congrArg (List.filterMap id) tally
    simpa [List.filterMap_append, List.filterMap_replicate] using answers
  simp only [← Array.mem_toList_iff, same]
  refine ⟨distinct, fun v member => (taken v member).1, fun asked v goal => ?_⟩
  refine ((target v goal.1).mp goal).resolve_right fun left => ?_
  have failed : m ≠ 0 := by
    rintro rfl
    rw [same] at tally
    exact asked (by simpa using tally)
  rw [Left, ended failed] at left
  exact left

/-- A call that finds a model adds it to those found. -/
theorem Account.push {v : Valuation} {t : Search} (account : Account first (found.toList.map some) s)
    (result : s.next = (some v, t)) : Account first ((found.push v).toList.map some) t := by
  have found' : s.next.1 = some v := congrArg Prod.fst result
  have more := account.next (account.paused.nextReturns_of_live (account.paused.live_of_some found'))
  rw [result] at more
  have listed : found.toList.map some ++ [some v] = (found.push v).toList.map some := by simp
  rwa [listed] at more

/-- Also a search that stalls on the way found only models looked for, each once. -/
theorem Account.collect_sound {cap : Nat} (account : Account first (found.toList.map some) s) :
    (s.collect found cap).1.toList.Nodup ∧ ∀ v ∈ (s.collect found cap).1, first.Target v := by
  have sound : ∀ {found : Array Valuation} {s : Search}, Account first (found.toList.map some) s →
      found.toList.Nodup ∧ ∀ v ∈ found, first.Target v := by
    intro found s account
    have tallied := Account.tallied (n := 0) (by simpa using account)
    exact ⟨tallied.1, tallied.2.1⟩
  induction cap generalizing s found with
  | zero => exact sound account
  | succ cap ih =>
    rw [collect_succ]
    rcases result : s.next with ⟨_ | v, t⟩
    · exact sound account
    · exact ih (account.push result)

/-- By induction on the calls that are left: the models found are those of the calls, and a search
that was not asked often enough for all of them gave one at each call. -/
theorem Account.collect {cap : Nat} (account : Account first (found.toList.map some) s)
    (live : (s.collect found cap).2.phase ≠ .stalled) :
    ∃ n, Account first ((s.collect found cap).1.toList.map some ++ List.replicate n none)
        (s.collect found cap).2 ∧ (n = 0 → (s.collect found cap).1.size = found.size + cap) := by
  induction cap generalizing s found with
  | zero => exact ⟨0, by simpa [Search.collect] using account, fun _ => rfl⟩
  | succ cap ih =>
    rw [collect_succ] at live ⊢
    rcases result : s.next with ⟨_ | v, t⟩
    · rw [result] at live
      have returns := account.paused.nextReturns_of_live (by rw [result]; exact live)
      have ended := account.next returns
      rw [result] at ended
      exact ⟨1, ended, fun unasked => absurd unasked Nat.one_ne_zero⟩
    · rw [result] at live
      obtain ⟨n, ended, all⟩ := ih (account.push result) live
      refine ⟨n, ended, fun unasked => ?_⟩
      have size := all unasked
      rw [Array.size_push] at size
      exact size.trans (Nat.succ_add_eq_add_succ found.size cap)

/-- A search that is asked for all models that are left gives just the models looked for, each once,
unless a draw does not return. -/
theorem rest_spec (blank : first.Blank) (fresh : first.phase = .fresh)
    (live : first.rest.2.phase ≠ .stalled) :
    first.rest.1.toList.Nodup ∧ ∀ v, v ∈ first.rest.1 ↔ first.Target v := by
  have begun : Account first ((#[] : Array Valuation).toList.map some) first :=
    (@Run.start first).account blank fresh
  obtain ⟨n, account, all⟩ : ∃ n, Account first (first.rest.1.toList.map some ++ List.replicate n none)
      first.rest.2 ∧ (n = 0 → first.rest.1.size = 0 + ((1 <<< first.valuation.size) + 1)) := begun.collect live
  obtain ⟨distinct, sound, complete⟩ := account.tallied
  have asked : n ≠ 0 := by
    intro unasked
    have many := all unasked
    have few : first.rest.1.toList.length ≤ 1 <<< first.valuation.size :=
      Valuation.length_le distinct fun v member => (sound v (Array.mem_toList_iff.mp member)).1.1
    rw [Array.length_toList] at few
    omega
  exact ⟨distinct, fun v => ⟨sound v, complete asked v⟩⟩

/-- A search that is asked for all models that are left gives only models looked for, also if it stalls. -/
theorem rest_sound (blank : first.Blank) (fresh : first.phase = .fresh) :
    first.rest.1.toList.Nodup ∧ ∀ v ∈ first.rest.1, first.Target v :=
  Account.collect_sound ((@Run.start first).account blank fresh)

/-- If every draw returns, so does asking for all models that are left. -/
theorem rest_live (blank : first.Blank) (fresh : first.phase = .fresh) (returns : first.CallsReturn) :
    first.rest.2.phase ≠ .stalled := by
  have each : ∀ cap (answers : List (Option Valuation)) (s : Search) (found : Array Valuation),
      Run first answers s → (s.collect found cap).2.phase ≠ .stalled := by
    intro cap
    induction cap with
    | zero =>
      intro answers s found run
      exact (run.exact blank fresh).1
    | succ cap ih =>
      intro answers s found run
      have more := run.next (returns answers s run)
      rw [collect_succ]
      rcases result : s.next with ⟨_ | v, t⟩
      · rw [result] at more
        exact (more.exact blank fresh).1
      · rw [result] at more
        exact ih _ t _ more
  exact each _ [] first #[] .start

end Search

namespace KnowledgeBase

variable {kb : KnowledgeBase}

/-- The models of a knowledge base. -/
def models (kb : KnowledgeBase) : Set Valuation := kb.clauses.models kb.atomCount

theorem target_search (kb : KnowledgeBase) (v : Valuation) : kb.search.Target v ↔ v ∈ kb.models := by
  simp [Search.Target, search, Search.start, models, Formula.models]

/-- The search through the models of a knowledge base gives each of them once. -/
theorem mem_rest_search (below : kb.clauses.Below kb.atomCount) (live : kb.search.rest.2.phase ≠ .stalled) :
    kb.search.rest.1.toList.Nodup ∧ ∀ v, v ∈ kb.search.rest.1 ↔ v ∈ kb.models := by
  have blank : kb.search.Blank := Search.blank_start kb.config below
  obtain ⟨distinct, target⟩ := Search.rest_spec blank rfl live
  exact ⟨distinct, fun v => (target v).trans (kb.target_search v)⟩

/-- What it gives are models, also if a draw does not return. -/
theorem models_of_mem_rest (below : kb.clauses.Below kb.atomCount) {v : Valuation} (member : v ∈ kb.search.rest.1) :
    v ∈ kb.models := by
  have blank : kb.search.Blank := Search.blank_start kb.config below
  exact (kb.target_search v).mp ((Search.rest_sound blank rfl).2 v member)

theorem models_of_next (below : kb.clauses.Below kb.atomCount) {v : Valuation} (found : kb.search.next.1 = some v) :
    v ∈ kb.models := by
  have blank : kb.search.Blank := Search.blank_start kb.config below
  have paused : kb.search.Paused := blank.paused rfl
  have run : kb.search.Run ([] ++ [kb.search.next.1]) kb.search.next.2 :=
    Search.Run.start.next (paused.nextReturns_of_live (paused.live_of_some found))
  obtain ⟨-, sound, -⟩ := run.exact blank rfl
  exact (kb.target_search v).mp (sound v (by simp [found]))

/-- So there are as many models as it gives. -/
theorem ncard_models (below : kb.clauses.Below kb.atomCount) (live : kb.search.rest.2.phase ≠ .stalled) :
    kb.models.ncard = kb.search.rest.1.size := by
  obtain ⟨distinct, listed⟩ := mem_rest_search below live
  have same : kb.models = (kb.search.rest.1.toList.toFinset : Set Valuation) := by
    ext v
    rw [Finset.mem_coe, List.mem_toFinset, Array.mem_toList_iff]
    exact (listed v).symm
  rw [same, Set.ncard_coe_finset, List.toFinset_card_of_nodup distinct, Array.length_toList]

end KnowledgeBase

end Clausal
