import Clausal.Proofs.Allocation

/-!
What was compiled stays compiled. No call takes anything from the tables of a knowledge base, whether
it fails or not, and no configuration is looked at for an expression that is in them. So a disjunction
that was added once has its literals for good, and adding it again only stores its clause again. Main
statement: `add_again`.
-/

namespace Clausal

namespace Build

variable {kb more : KnowledgeBase} {e : Expr} {disjuncts : List Expr} {c : Clause}

/-- An expression that was compiled keeps its literal, and nothing is made for it. -/
theorem literalOf_compiled {l : Literal} (formed : kb.WellFormed) (found : kb.literal? e = some l) :
    (literalOf e).Yields kb l kb := by
  induction e generalizing l with
  | symbol s =>
    obtain ⟨a, known, rfl⟩ := Option.map_eq_some_iff.mp found
    have atom : (booleanAtom s).Yields kb a kb := by simp [booleanAtom, known]
    rw [literalOf, if_pos (formed.boolean s a known)]
    exact yields_bind.mpr ⟨a, kb, atom, yields_pure.mpr ⟨rfl, rfl⟩⟩
  | not e ih =>
    obtain ⟨m, known, rfl⟩ := Option.map_eq_some_iff.mp found
    exact yields_bind.mpr ⟨m, kb, ih known, yields_pure.mpr ⟨rfl, rfl⟩⟩
  | compare op left right _ _ =>
    obtain ⟨a, known, rfl⟩ := Option.map_eq_some_iff.mp found
    have atom : (comparisonAtom op left right).Yields kb a kb := by simp [comparisonAtom, known]
    exact yields_bind.mpr ⟨a, kb, atom, yields_pure.mpr ⟨rfl, rfl⟩⟩
  | constant value => cases found
  | sum left right _ _ => cases found

theorem mapM_literalOf_compiled (formed : kb.WellFormed) (found : disjuncts.map kb.literal? = c.map some) :
    (disjuncts.mapM literalOf).Yields kb c kb := by
  induction disjuncts generalizing c with
  | nil =>
    obtain rfl : c = [] := List.map_eq_nil_iff.mp found.symm
    exact yields_pure.mpr ⟨rfl, rfl⟩
  | cons e disjuncts ih =>
    cases c with
    | nil => cases found
    | cons l c =>
      obtain ⟨first, rest⟩ := List.cons.inj found
      rw [List.mapM_cons]
      exact yields_bind.mpr ⟨l, kb, literalOf_compiled formed first,
        yields_bind.mpr ⟨c, kb, ih rest, yields_pure.mpr ⟨rfl, rfl⟩⟩⟩

/-- The check for type passes for a disjunction that was compiled, whatever the knowledge base. -/
theorem checkBoolean_of_yields (compiled : (clauseOf disjuncts).Yields kb c more) :
    checkBoolean disjuncts = .ok () := by
  obtain ⟨⟨⟩, mid, checked, -⟩ := yields_bind.mp compiled
  exact congrArg Prod.fst checked

theorem clauseOf_compiled (formed : kb.WellFormed) (checked : checkBoolean disjuncts = .ok ())
    (found : disjuncts.map kb.literal? = c.map some) : (clauseOf disjuncts).Yields kb c kb := by
  rw [clauseOf, checked]
  exact mapM_literalOf_compiled formed found

end Build

namespace KnowledgeBase

open Build

variable {kb more first last : KnowledgeBase} {allowed : Config → Prop} {added : List (List Expr)}
  {disjuncts : List Expr} {stored : Stored}

/-- What is stored for a clause depends on the clause alone. -/
theorem store_uniform (c : Clause) : (∀ kb : KnowledgeBase, kb.store c = (.tautology, kb)) ∨
    ∃ normal, ∀ kb : KnowledgeBase, kb.store c = (.added, { kb with clauses := kb.clauses.push normal }) := by
  by_cases always : c.contains Literal.top = true
  · exact .inl fun kb => if_pos always
  · cases simplified : Clause.normalise (c.filter (· != -Literal.top)) with
    | none => exact .inl fun kb => by rw [store, if_neg always, simplified]
    | some normal => exact .inr ⟨normal, fun kb => by rw [store, if_neg always, simplified]⟩

theorem Retains.map_literal? {c : Clause} (retains : kb.Retains more)
    (found : disjuncts.map kb.literal? = c.map some) : disjuncts.map more.literal? = c.map some := by
  rw [← found]
  refine List.map_congr_left fun e member => ?_
  obtain ⟨l, -, known⟩ := literal_of_disjunct found member
  rw [known, retains.literal? known]

theorem retains_store (kb : KnowledgeBase) (c : Clause) : kb.Retains (kb.store c).2 := by
  rw [store_frame]
  exact retains_recast kb kb.config _

/-- A call on a knowledge base or a new configuration for it. The call may fail. -/
inductive Advances (kb : KnowledgeBase) : KnowledgeBase → Prop where
  | add (disjuncts : List Expr) : Advances kb (kb.add disjuncts).2
  | declare (s : Symbol) : Advances kb (kb.declare s).2
  | read (session : Session) (source : Text.Source) : Advances kb (kb.read session source).2.2
  | configure (config : Config) : Advances kb { kb with config := config }

/-- Any number of calls and new configurations. -/
abbrev Becomes : KnowledgeBase → KnowledgeBase → Prop := Relation.ReflTransGen Advances

theorem add_retains (faithful : kb.Faithful added) {r : Except Error Stored} (h : kb.add disjuncts = (r, more)) :
    kb.Retains more ∧ ∃ added, more.Faithful added := by
  rcases add_spec faithful h with ⟨cause, rfl, rfl⟩ | ⟨stored, mid, c, rfl, compiles, literals, rfl⟩
  · exact ⟨.refl _, added, faithful⟩
  · exact ⟨compiles.retains.trans (retains_store mid c), _, Faithful.store literals compiles.faithful⟩

/-- Step lemma: what fails is undone up to where it began, so what was compiled before stays. -/
theorem Advances.retains (step : kb.Advances more) (faithful : kb.Faithful added) :
    kb.Retains more ∧ ∃ added, more.Faithful added := by
  cases step with
  | add disjuncts => exact add_retains faithful rfl
  | declare s =>
    rcases declare_spec faithful (Prod.mk.eta (p := kb.declare s)).symm with ⟨_, -, same⟩ | ⟨-, compiles⟩
    · rw [same]
      exact ⟨.refl kb, added, faithful⟩
    · exact ⟨compiles.retains, added, compiles.faithful⟩
  | read session source =>
    refine read_keeps (P := fun more => kb.Retains more ∧ ∃ added, more.Faithful added) ?_
      ⟨.refl kb, added, faithful⟩ rfl
    rintro mid more disjuncts stored ⟨retains, added, faithful⟩ succeeds
    exact (add_retains faithful succeeds).imp_left retains.trans
  | configure config => exact ⟨retains_recast kb config kb.clauses, added, faithful.configure config⟩

/-- By induction on the calls nothing that was compiled is ever lost. -/
theorem Becomes.retains (becomes : kb.Becomes last) (faithful : kb.Faithful added) :
    kb.Retains last ∧ ∃ added, last.Faithful added := by
  induction becomes with
  | refl => exact ⟨.refl kb, added, faithful⟩
  | tail _ step ih =>
    obtain ⟨retains, _, faithful⟩ := ih
    exact (step.retains faithful).imp_left retains.trans

/-- A disjunction that was added once can be added again whatever happened since, under whatever
configuration, with the same answer. Nothing is compiled for it: if it always holds, nothing changes, and
else the clause that was stored for it the first time, the last one then, is stored once more. -/
theorem add_again (reached : Reachable allowed kb) (succeeds : kb.add disjuncts = (.ok stored, first))
    (becomes : first.Becomes last) :
    stored = .tautology ∧ last.add disjuncts = (.ok .tautology, last) ∨
      ∃ c, stored = .added ∧ first.clauses.back? = some c ∧
        last.add disjuncts = (.ok .added, { last with clauses := last.clauses.push c }) := by
  obtain ⟨added, faithful⟩ := reached.faithful
  obtain ⟨c, mid, compiled⟩ := yields_of_add (congrArg Prod.fst succeeds)
  obtain ⟨compiles, literals⟩ := clauseOf_spec faithful compiled
  rw [add_of_yields compiled, Prod.mk.injEq, Except.ok.injEq] at succeeds
  obtain ⟨rfl, rfl⟩ := succeeds
  obtain ⟨later, _, faithful'⟩ := becomes.retains (Faithful.store literals compiles.faithful)
  have retains : mid.Retains last := (retains_store mid c).trans later
  have again : (clauseOf disjuncts).Yields last c last :=
    clauseOf_compiled faithful'.toWellFormed (checkBoolean_of_yields compiled) (retains.map_literal? literals)
  rw [add_of_yields again]
  rcases store_uniform c with always | ⟨normal, pushes⟩
  · rw [always, always]
    exact .inl ⟨rfl, rfl⟩
  · rw [pushes, pushes]
    exact .inr ⟨normal, rfl, Array.back?_push, rfl⟩

/-- A sum of an integer symbol without a domain and a comparison of it stay in the tables through an addition
that fails after a sum was compiled with them, a declaration, clauses that are read, another default domain and
limits that allow nothing new. -/
theorem add_again_restricted :
    let p : Expr := .symbol ⟨0, 0, "p", .boolean⟩
    let x : Expr := .symbol ⟨0, 1, "x", .integer none⟩
    let q : Symbol := ⟨0, 2, "q", .boolean⟩
    let wide : Symbol := ⟨0, 3, "y", .integer (some ⟨0, 999⟩)⟩
    let disjuncts : List Expr := [.not (.compare .less (.sum x x) (.constant 1)), p]
    let kb := KnowledgeBase.empty { defaultDomain := some ⟨0, 1⟩ }
    let first := (kb.add disjuncts).2
    let failing : List Expr := [.symbol q, .compare .less (.sum (.sum x x) x) (.symbol wide)]
    let failed := (first.add failing).2
    let declared := (failed.declare q).2
    let read := (declared.read (.empty 0) (.ofText "1 -2 0")).2.2
    let config : Config := { defaultDomain := some ⟨5, 9⟩, domainLimit := 1, atomLimit := 1 }
    let last : KnowledgeBase := { read with config := config }
    (first.add failing).1 = .error (.domainExceeded 256) ∧
      (last.add [.compare .less x x]).1 = .error (.atomsExceeded 1) ∧
      last.add disjuncts =
        (.ok .added, { last with clauses := last.clauses.push [-.positive 6, .positive 7] }) := by
  intro p x q wide disjuncts kb first failing failed declared read config last
  have reached : Reachable (fun _ => True) kb := .empty trivial
  have succeeds : kb.add disjuncts = (.ok .added, first) := Prod.ext (by decide +kernel) rfl
  have unchanged : first.Becomes failed := .single (.add failing)
  have declaring : first.Becomes declared := .tail unchanged (.declare q)
  have reading : first.Becomes read := .tail declaring (.read _ _)
  have becomes : first.Becomes last := .tail reading (.configure config)
  have stored : first.clauses.back? = some [-.positive 6, .positive 7] := by decide +kernel
  refine ⟨by decide +kernel, by decide +kernel, ?_⟩
  rcases add_again reached succeeds becomes with ⟨⟨⟩, -⟩ | ⟨c, -, latest, again⟩
  obtain rfl := Option.some.inj (stored.symm.trans latest)
  exact again

end KnowledgeBase

end Clausal
