import Clausal.Dimacs.Reader
import Clausal.Proofs.Compilation

/-!
The knowledge bases that additions and declarations lead to, and what they
represent: just the disjunctions that were added without an error, whatever failed
in between. Reading clauses from a source leads to no others.
-/

namespace Clausal

namespace Build

variable {α : Type} {kb more : KnowledgeBase} {change : Build α}

theorem discard_eq (change : Build α) : discard change = change >>= fun _ => pure () := by
  simp only [Functor.discard, map_const]
  rw [bind_pure_comp]
  rfl

theorem grows_discard (grows : change.Grows) : (discard change : Build Unit).Grows := by
  rw [discard_eq]
  exact grows_bind grows fun _ => grows_pure ()

theorem yields_discard {u : Unit} (h : (discard change : Build Unit).Yields kb u more) :
    ∃ a, change.Yields kb a more := by
  rw [discard_eq, yields_bind] at h
  obtain ⟨a, mid, made, rest⟩ := h
  obtain ⟨-, rfl⟩ := yields_pure.mp rest
  exact ⟨a, made⟩

end Build

namespace KnowledgeBase

variable {kb more : KnowledgeBase} {added : List (List Expr)} {disjuncts : List Expr}

/-- The knowledge bases that can be reached, with the disjunctions that were added to them, the
latest first. Additions and declarations may fail, and the configuration may change. -/
inductive Built : KnowledgeBase → List (List Expr) → Prop where
  | empty (config : Config) : Built (.empty config) []
  | added {kb more : KnowledgeBase} {added : List (List Expr)} {disjuncts : List Expr} {stored : Stored}
      (built : Built kb added) (succeeds : kb.add disjuncts = (.ok stored, more)) :
      Built more (disjuncts :: added)
  | refused {kb more : KnowledgeBase} {added : List (List Expr)} {disjuncts : List Expr} {cause : Error}
      (built : Built kb added) (fails : kb.add disjuncts = (.error cause, more)) : Built more added
  | declared {kb more : KnowledgeBase} {added : List (List Expr)} {s : Symbol} {r : Except Error Unit}
      (built : Built kb added) (result : kb.declare s = (r, more)) : Built more added
  | configured {kb : KnowledgeBase} {added : List (List Expr)} (built : Built kb added) (config : Config) :
      Built { kb with config := config } added

theorem Faithful.empty (config : Config) : (KnowledgeBase.empty config).Faithful [] := by
  have unknown : ∀ item, (KnowledgeBase.empty config).literals? item = none := by
    intro item
    cases item <;> rfl
  have encodings : ∀ e, (KnowledgeBase.empty config).encodings.get? e = none := fun _ => rfl
  have comparisons : ∀ e, (KnowledgeBase.empty config).comparisons.get? e = none := fun _ => rfl
  refine ⟨⟨Nat.one_pos, ?_, ?_, ?_, ?_, ?_, ?_, ?_, ?_, ?_, ?_⟩, by simp, ?_⟩
  · intro item ls found
    simp [unknown] at found
  · intro item ls found
    simp [unknown] at found
  · intro a positive inside
    exact absurd inside (Nat.not_lt.mpr positive)
  · rintro a - item i item' i' ⟨ls, found, -⟩
    simp [unknown] at found
  · intro s a found
    cases found
  · intro e member
    cases member
  · intro e enc found
    cases found
  · intro e a found
    cases found
  · intro c member l listed
    obtain rfl : c = [Literal.top] := by simpa [KnowledgeBase.empty] using member
    rw [List.mem_singleton.mp listed]
    exact Nat.one_pos
  · intro c member
    obtain rfl : c = [Literal.top] := by simpa [KnowledgeBase.empty] using member
    exact ⟨List.pairwise_singleton _ _, by simp [Literal.neg_ne_self]⟩
  · intro v _
    have only : v.All (KnowledgeBase.empty config).clauses.toList ↔ v.holds Literal.top = true := by
      simp [KnowledgeBase.empty, Valuation.All, Valuation.satisfies]
    rw [only]
    refine ⟨fun top => ⟨top, ?_, ?_, ?_, by simp⟩, fun consistent => consistent.top⟩
    · intro e enc found
      cases found
    · intro left right enc found
      cases found
    · intro op left right a found
      cases found

/-- The form of what was compiled does not depend on the configuration and the clauses. -/
theorem WellFormed.recast (formed : kb.WellFormed) (config : Config) {clauses : Formula}
    (below : ∀ c ∈ clauses, ∀ l ∈ c, l.atom < kb.atomCount) (normal : ∀ c ∈ clauses, c.Normal) :
    { kb with config := config, clauses := clauses : KnowledgeBase }.WellFormed :=
  ⟨formed.nonempty, formed.positive, formed.top, formed.covered, formed.unique, formed.boolean,
    formed.registered, formed.encoded, formed.compared, below, normal⟩

theorem retains_recast (kb : KnowledgeBase) (config : Config) (clauses : Formula) :
    kb.Retains { kb with config := config, clauses := clauses } :=
  ⟨Nat.le_refl _, fun _ _ => id, fun _ _ => id, fun _ _ => id⟩

/-- Neither does what is to hold of it. -/
theorem consistent_recast (formed : kb.WellFormed)
    (compiled : ∀ disjuncts ∈ added, ∀ e ∈ disjuncts, ∃ l, kb.literal? e = some l) (config : Config)
    (clauses : Formula) (v : Valuation) :
    { kb with config := config, clauses := clauses : KnowledgeBase }.Consistent added v ↔
      kb.Consistent added v := by
  rw [consistent_iff formed (retains_recast kb config clauses) compiled, and_iff_left]
  refine ⟨fun e enc unknown known => ?_, fun left right enc unknown known => ?_,
    fun op left right a unknown known => ?_⟩
  · exact absurd (unknown.symm.trans known) (by simp)
  · exact absurd (unknown.symm.trans known) (by simp)
  · exact absurd (unknown.symm.trans known) (by simp)

theorem Faithful.configure (faithful : kb.Faithful added) (config : Config) :
    { kb with config := config : KnowledgeBase }.Faithful added := by
  refine ⟨faithful.recast config faithful.below faithful.normal, ?_, fun v large => ?_⟩
  · intro disjuncts member e listed
    obtain ⟨l, found⟩ := faithful.compiled disjuncts member e listed
    exact ⟨l, (retains_recast kb config kb.clauses).literal? found⟩
  · exact (faithful.meaning v large).trans
      (consistent_recast faithful.toWellFormed faithful.compiled config kb.clauses v).symm

/-- The atom of a literal that was compiled is one of the knowledge base. -/
theorem WellFormed.literal_lt (formed : kb.WellFormed) {e : Expr} {l : Literal}
    (found : kb.literal? e = some l) : l.atom < kb.atomCount := by
  induction e generalizing l with
  | symbol s =>
    obtain ⟨a, known, rfl⟩ := Option.map_eq_some_iff.mp found
    have own : kb.literals? (.boolean s) = some [.positive a] := by simp [literals?, known]
    exact formed.owns_lt ⟨_, own, List.getElem?_cons_zero⟩
  | not e ih =>
    obtain ⟨m, known, rfl⟩ := Option.map_eq_some_iff.mp found
    rw [Literal.atom_neg]
    exact ih known
  | compare op left right _ _ =>
    obtain ⟨a, known, rfl⟩ := Option.map_eq_some_iff.mp found
    have own : kb.literals? (.comparison (.compare op left right)) = some [.positive a] := by
      simp [literals?, known]
    exact formed.owns_lt ⟨_, own, List.getElem?_cons_zero⟩
  | constant value => cases found
  | sum left right _ _ => cases found

/-- One disjunction more is to hold. -/
theorem consistent_cons {v : Valuation} : kb.Consistent (disjuncts :: added) v ↔
    kb.Consistent added v ∧ ∃ e ∈ disjuncts, ∃ l, kb.literal? e = some l ∧ v.holds l = true := by
  constructor
  · rintro ⟨top, shown, sums, comparisons, all⟩
    obtain ⟨first, rest⟩ := List.forall_mem_cons.mp all
    exact ⟨⟨top, shown, sums, comparisons, rest⟩, first⟩
  · rintro ⟨⟨top, shown, sums, comparisons, rest⟩, first⟩
    exact ⟨top, shown, sums, comparisons, List.forall_mem_cons.mpr ⟨first, rest⟩⟩

section Disjunctions

variable {c : Clause} (literals : disjuncts.map kb.literal? = c.map some)

include literals

theorem literal_of_disjunct {e : Expr} (member : e ∈ disjuncts) : ∃ l ∈ c, kb.literal? e = some l := by
  have listed : kb.literal? e ∈ c.map some := literals ▸ List.mem_map_of_mem member
  obtain ⟨l, inside, same⟩ := List.mem_map.mp listed
  exact ⟨l, inside, same.symm⟩

theorem disjunct_of_literal {l : Literal} (member : l ∈ c) : ∃ e ∈ disjuncts, kb.literal? e = some l := by
  have listed : some l ∈ disjuncts.map kb.literal? := literals ▸ List.mem_map_of_mem member
  exact List.mem_map.mp listed

/-- The clause of a disjunction is satisfied if the literal of some disjunct is true. -/
theorem satisfies_disjunction {v : Valuation} : v.satisfies c = true ↔
    ∃ e ∈ disjuncts, ∃ l, kb.literal? e = some l ∧ v.holds l = true := by
  rw [Valuation.satisfies_iff]
  constructor
  · rintro ⟨l, member, holds⟩
    obtain ⟨e, listed, found⟩ := disjunct_of_literal literals member
    exact ⟨e, listed, l, found, holds⟩
  · rintro ⟨e, listed, l, found, holds⟩
    obtain ⟨m, member, known⟩ := literal_of_disjunct literals listed
    rw [found, Option.some.injEq] at known
    exact ⟨l, known ▸ member, holds⟩

/-- Storing the clause of a disjunction adds the disjunction. -/
theorem Faithful.store (faithful : kb.Faithful added) : (kb.store c).2.Faithful (disjuncts :: added) := by
  have inside : ∀ l ∈ c, l.atom < kb.atomCount := by
    intro l member
    obtain ⟨e, -, found⟩ := disjunct_of_literal literals member
    exact faithful.literal_lt found
  have compiled : ∀ ds ∈ disjuncts :: added, ∀ e ∈ ds, ∃ l, kb.literal? e = some l := by
    refine List.forall_mem_cons.mpr ⟨fun e member => ?_, faithful.compiled⟩
    obtain ⟨l, -, found⟩ := literal_of_disjunct literals member
    exact ⟨l, found⟩
  rw [store_frame]
  refine ⟨faithful.recast kb.config (fun d member l listed => ?_) fun d member => ?_, ?_, fun v large => ?_⟩
  · rcases mem_store member with old | ⟨-, within⟩
    · exact faithful.below d old l listed
    · exact inside l (within l listed)
  · exact (mem_store member).elim (faithful.normal d) And.left
  · intro ds member e listed
    obtain ⟨l, found⟩ := compiled ds member e listed
    exact ⟨l, (retains_recast kb kb.config _).literal? found⟩
  · have old := faithful.meaning v large
    refine Iff.trans ?_ (consistent_recast faithful.toWellFormed compiled kb.config _ v).symm
    rw [consistent_cons, ← satisfies_disjunction literals, ← old]
    exact all_store (fun all => (old.mp all).top) fun l member => Nat.lt_of_lt_of_le (inside l member) large

end Disjunctions

/-- What adding a disjunction does. -/
theorem add_spec (faithful : kb.Faithful added) {r : Except Error Stored}
    (h : kb.add disjuncts = (r, more)) : (∃ cause, r = .error cause ∧ more = kb) ∨
      ∃ stored mid c, r = .ok stored ∧ kb.Compiles mid added (fun p => ∃ e ∈ disjuncts, p ∈ e.parts) ∧
        disjuncts.map mid.literal? = c.map some ∧ more = (mid.store c).2 := by
  unfold add at h
  split at h
  · next c mid attempted =>
    cases h
    obtain ⟨compiles, literals⟩ := Build.clauseOf_spec faithful (attempt_ok attempted)
    exact .inr ⟨_, mid, c, rfl, compiles, literals, rfl⟩
  · next cause mid attempted =>
    cases h
    exact .inl ⟨cause, rfl, attempt_error (Build.grows_clauseOf disjuncts) faithful.registered attempted⟩

/-- What declaring a symbol does. -/
theorem declare_spec (faithful : kb.Faithful added) {s : Symbol} {r : Except Error Unit}
    (h : kb.declare s = (r, more)) : (∃ cause, r = .error cause ∧ more = kb) ∨
      r = .ok () ∧ kb.Compiles more added (· = .symbol s) := by
  unfold declare at h
  cases r with
  | error cause =>
    refine .inl ⟨cause, rfl, attempt_error ?_ faithful.registered h⟩
    split
    · exact Build.grows_discard (Build.grows_booleanAtom s)
    · exact Build.grows_discard (Build.grows_encode (.symbol s))
  | ok =>
    have yields := attempt_ok h
    refine .inr ⟨rfl, ?_⟩
    split at yields
    · next kind =>
      obtain ⟨a, made⟩ := Build.yields_discard yields
      have boolean : s.isBoolean = true := by
        rw [Symbol.isBoolean, kind]
        rfl
      exact (Build.booleanAtom_spec faithful boolean made).1
    · obtain ⟨enc, made⟩ := Build.yields_discard yields
      exact (Build.encode_spec faithful made).1.mono fun p part => List.mem_singleton.mp part

/-- Every knowledge base that can be reached represents the disjunctions that were added. -/
theorem Built.faithful (built : Built kb added) : kb.Faithful added := by
  induction built with
  | empty config => exact .empty config
  | added _ succeeds ih =>
    rcases add_spec ih succeeds with ⟨cause, ⟨⟩, -⟩ | ⟨stored, mid, c, -, compiles, literals, rfl⟩
    exact Faithful.store literals compiles.faithful
  | refused _ fails ih =>
    rcases add_spec ih fails with ⟨-, -, rfl⟩ | ⟨stored, mid, c, ⟨⟩, -⟩
    exact ih
  | declared _ result ih =>
    rcases declare_spec ih result with ⟨-, -, rfl⟩ | ⟨-, compiles⟩
    · exact ih
    · exact compiles.faithful
  | configured _ config ih => exact ih.configure config

end KnowledgeBase

namespace Dimacs.Reader

open KnowledgeBase

variable {r t : Reader}

theorem bind_eq_ok {α β : Type} {first : Read α} {next : α → Read β} {b : β} :
    first >>= next = .ok b ↔ ∃ a, first = .ok a ∧ next a = .ok b := by
  cases first <;> simp [Bind.bind, Except.bind]

theorem bind_eq_error {α β : Type} {first : Read α} {next : α → Read β} {failure : Error × Session} :
    first >>= next = .error failure ↔ first = .error failure ∨ ∃ a, first = .ok a ∧ next a = .error failure := by
  cases first <;> simp [Bind.bind, Except.bind]

section Keeping

variable {P : KnowledgeBase → Prop} (keeps : ∀ {kb more : KnowledgeBase} {disjuncts : List Expr}
  {stored : Stored}, P kb → kb.add disjuncts = (.ok stored, more) → P more)

theorem literal_keeps {number : Int} (before : P r.kb) (h : r.literal number = .ok t) : P t.kb := by
  unfold Reader.literal at h
  split at h
  · cases h
  · cases h
    exact before

theorem problemLine_keeps {counts : Option Problem} (before : P r.kb) (h : r.problemLine counts = .ok t) :
    P t.kb := by
  unfold Reader.problemLine at h
  split at h
  · cases h
  · split at h
    · cases h
    · cases h
      exact before

include keeps

theorem close_keeps (before : P r.kb) (h : r.close = .ok t) : P t.kb := by
  unfold Reader.close at h
  split at h
  · cases h
  · next succeeds =>
    cases h
    exact keeps before succeeds

theorem tokens_keeps {line : Nat} {words : List (List Char)} (before : P r.kb)
    (h : r.tokens line words = .ok t) : P t.kb := by
  induction words generalizing r with
  | nil =>
    cases h
    exact before
  | cons word rest ih =>
    unfold Reader.tokens at h
    split at h
    · cases h
    · obtain ⟨u, closed, later⟩ := bind_eq_ok.mp h
      exact ih (close_keeps keeps before closed) later
    · obtain ⟨u, taken, later⟩ := bind_eq_ok.mp h
      exact ih (literal_keeps before taken) later

theorem lines_keeps {taken : Nat} {source : Text.Source} (before : P r.kb)
    (h : r.lines taken source = .ok t) : P t.kb := by
  induction source generalizing r taken with
  | nil =>
    cases h
    exact before
  | cons line rest ih =>
    cases line with
    | none => cases h
    | some text =>
      unfold Reader.lines at h
      split at h
      · exact ih before h
      · cases h
        exact before
      · obtain ⟨u, noted, later⟩ := bind_eq_ok.mp h
        exact ih (problemLine_keeps before noted) later
      · obtain ⟨u, taken, later⟩ := bind_eq_ok.mp h
        exact ih (tokens_keeps keeps before taken) later

theorem finish_keeps (before : P r.kb) (h : r.finish = .ok t) : P t.kb := by
  unfold Reader.finish at h
  split at h
  · cases h
    exact before
  · exact close_keeps keeps before h

end Keeping

end Dimacs.Reader

namespace KnowledgeBase

variable {kb more : KnowledgeBase} {session last : Session} {source : Text.Source}
  {r : Except Error Dimacs.Summary}

/-- Reading keeps what additions keep, as it changes a knowledge base by additions only. -/
theorem read_keeps {P : KnowledgeBase → Prop} (keeps : ∀ {kb more : KnowledgeBase} {disjuncts : List Expr}
    {stored : Stored}, P kb → kb.add disjuncts = (.ok stored, more) → P more) (before : P kb)
    (h : kb.read session source = (r, last, more)) : P more := by
  unfold KnowledgeBase.read at h
  split at h
  · next t result =>
    cases h
    obtain ⟨u, taken, ended⟩ := Dimacs.Reader.bind_eq_ok.mp result
    have begun : P (Dimacs.Reader.mk session kb none 0 []).kb := before
    exact Dimacs.Reader.finish_keeps keeps (Dimacs.Reader.lines_keeps keeps begun taken) ended
  · cases h
    exact before

/-- Reading clauses leads to a knowledge base that can be reached by adding disjunctions. -/
theorem Built.read {added : List (List Expr)} (built : Built kb added)
    (h : kb.read session source = (r, last, more)) : ∃ added, Built more added := by
  refine read_keeps (P := fun kb => ∃ added, Built kb added) ?_ ⟨added, built⟩ h
  rintro kb more disjuncts stored ⟨added, before⟩ succeeds
  exact ⟨_, before.added succeeds⟩

end KnowledgeBase

end Clausal
