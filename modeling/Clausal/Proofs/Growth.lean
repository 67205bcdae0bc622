import Clausal.KnowledgeBase.Compile

/-!
What changes of a knowledge base do in general: a change that succeeds can be
taken apart into its steps, and every change only adds to a knowledge base, on new
atoms and under new keys. So rolling back a change that failed restores the
knowledge base before it.
-/

namespace Clausal

namespace Table

variable {κ α : Type} [Hashable κ] [BEq κ] {t u w : Table κ α} {key : κ}

/-- The second table has the entries of the first and later ones, on keys that the first has not. -/
def Extends (t u : Table κ α) : Prop :=
  ∃ later, u.entries = later ++ t.entries ∧ ∀ e ∈ later, t.get? e.key = none

theorem Extends.refl (t : Table κ α) : t.Extends t := ⟨[], rfl, by simp⟩

theorem Extends.insert (h : t.Extends u) (new : t.get? key = none) (value : α) :
    t.Extends (u.insert key value) := by
  obtain ⟨later, entries, apart⟩ := h
  refine ⟨.of key value :: later, by rw [Table.insert, entries, List.cons_append], ?_⟩
  exact List.forall_mem_cons.mpr ⟨new, apart⟩

variable [LawfulBEq κ]

theorem Extends.get?_eq_none (h : t.Extends u) (unknown : u.get? key = none) : t.get? key = none := by
  obtain ⟨later, entries, -⟩ := h
  rw [get?_eq_none_iff] at unknown ⊢
  exact fun e member => unknown e (entries ▸ List.mem_append_right later member)

theorem Extends.trans (first : t.Extends u) (second : u.Extends w) : t.Extends w := by
  obtain ⟨later, entries, new⟩ := id first
  obtain ⟨last, entries', new'⟩ := second
  refine ⟨last ++ later, by rw [entries', entries, List.append_assoc], fun e member => ?_⟩
  rcases List.mem_append.mp member with latest | before
  · exact first.get?_eq_none (new' e latest)
  · exact new e before

/-- What came later is forgotten, and nothing else, as it came under new keys. -/
theorem Extends.forget (h : t.Extends u) : u.forget t.size = t := by
  obtain ⟨later, entries, new⟩ := h
  have count : u.size - t.size = later.length := by simp [Table.size, entries]
  have kept : t.entries.filter (fun e => !later.any (·.isOn e.key e.code)) = t.entries := by
    refine List.filter_eq_self.mpr fun e member => ?_
    rw [Bool.not_eq_true', List.any_eq_false]
    intro x listed on
    rw [e.code_eq, Entry.isOn_hash, beq_iff_eq] at on
    exact get?_eq_none_iff.mp (new x listed) e member on
  simp only [Table.forget, count, entries, List.take_left, List.drop_left, kept]

end Table

/-- The second knowledge base has all of the first, in the same places, and possibly more, on new atoms
and under new keys. -/
structure KnowledgeBase.Extends (kb more : KnowledgeBase) : Prop where
  config : more.config = kb.config
  origins : kb.origins.toList <+: more.origins.toList
  booleans : ∃ later, more.booleans.entries = later ++ kb.booleans.entries ∧
    ∀ e ∈ later, kb.atomCount ≤ e.value ∧ e.value < more.atomCount
  encodings : kb.encodings.Extends more.encodings
  comparisons : kb.comparisons.Extends more.comparisons
  clauses : kb.clauses.toList <+: more.clauses.toList

/-- The boolean symbols of a knowledge base have atoms of it. -/
def KnowledgeBase.Registered (kb : KnowledgeBase) : Prop :=
  ∀ e ∈ kb.booleans.entries, e.value < kb.atomCount

namespace KnowledgeBase.Extends

variable {kb more most : KnowledgeBase}

theorem refl (kb : KnowledgeBase) : kb.Extends kb :=
  ⟨rfl, List.prefix_refl _, ⟨[], rfl, by simp⟩, .refl _, .refl _, List.prefix_refl _⟩

theorem atomCount_le (h : kb.Extends more) : kb.atomCount ≤ more.atomCount := h.origins.length_le

theorem trans (first : kb.Extends more) (second : more.Extends most) : kb.Extends most := by
  refine ⟨second.config.trans first.config, first.origins.trans second.origins, ?_,
    first.encodings.trans second.encodings, first.comparisons.trans second.comparisons,
    first.clauses.trans second.clauses⟩
  obtain ⟨later, entries, new⟩ := first.booleans
  obtain ⟨last, entries', new'⟩ := second.booleans
  refine ⟨last ++ later, by rw [entries', entries, List.append_assoc], fun e member => ?_⟩
  have larger := first.atomCount_le
  have largest := second.atomCount_le
  rcases List.mem_append.mp member with latest | before
  · exact ⟨Nat.le_trans larger (new' e latest).1, (new' e latest).2⟩
  · exact ⟨(new e before).1, Nat.lt_of_lt_of_le (new e before).2 largest⟩

private theorem take_of_isPrefix {α : Type} {xs ys : Array α} (h : xs.toList <+: ys.toList) :
    ys.take xs.size = xs := by
  apply Array.toList_inj.mp
  rw [Array.take_eq_extract, Array.toList_extract, List.extract_eq_take_drop, List.drop_zero,
    Nat.sub_zero, ← Array.length_toList]
  exact (List.prefix_iff_eq_take.mp h).symm

/-- A boolean symbol came later exactly if its atom did. -/
private theorem keep_booleans (h : kb.Extends more) (registered : kb.Registered) :
    more.booleans.keep (· < kb.extent.atoms) = kb.booleans := by
  obtain ⟨later, entries, new⟩ := h.booleans
  have dropped : later.filter (fun e => decide (e.value < kb.extent.atoms)) = [] := by
    refine List.filter_eq_nil_iff.mpr fun e member => ?_
    rw [decide_eq_true_iff]
    exact Nat.not_lt.mpr (new e member).1
  have kept : kb.booleans.entries.filter (fun e => decide (e.value < kb.extent.atoms)) =
      kb.booleans.entries :=
    List.filter_eq_self.mpr fun e member => decide_eq_true (registered e member)
  rw [Table.keep, entries, List.filter_append, dropped, kept, List.nil_append]

/-- What was added is what comes after the extent. -/
theorem rollback (h : kb.Extends more) (registered : kb.Registered) :
    more.rollback kb.extent = kb := by
  rw [KnowledgeBase.rollback, h.keep_booleans registered]
  simp only [KnowledgeBase.extent, take_of_isPrefix h.origins, take_of_isPrefix h.clauses,
    h.encodings.forget, h.comparisons.forget, h.config]

end KnowledgeBase.Extends

namespace KnowledgeBase

theorem extends_store (kb : KnowledgeBase) (c : Clause) : kb.Extends (kb.store c).2 := by
  unfold store
  split
  · exact .refl kb
  · split
    · exact .refl kb
    · exact { Extends.refl kb with clauses := by simp }

theorem extends_storeAll (kb : KnowledgeBase) (cs : List Clause) : kb.Extends (kb.storeAll cs) := by
  induction cs generalizing kb with
  | nil => exact .refl kb
  | cons c cs ih => exact (kb.extends_store c).trans (ih _)

end KnowledgeBase

namespace Build

variable {α β : Type} {kb more most : KnowledgeBase} {a : α} {b : β}

/-- A change succeeds with a result, and makes one knowledge base into another. -/
def Yields (change : Build α) (kb : KnowledgeBase) (a : α) (more : KnowledgeBase) : Prop :=
  change.run.run kb = (.ok a, more)

/-- A change only adds to the knowledge base, even if it fails. -/
def Grows (change : Build α) : Prop := ∀ kb : KnowledgeBase, kb.Extends (change.run.run kb).2

section Steps

theorem run_bind (first : Build α) (next : α → Build β) (kb : KnowledgeBase) :
    (first >>= next).run.run kb = match first.run.run kb with
      | (.ok a, more) => (next a).run.run more
      | (.error e, more) => (.error e, more) := by
  simp only [ExceptT.run_bind, StateT.run_bind]
  rcases first.run.run kb with ⟨_ | _, _⟩ <;> rfl

@[simp] theorem yields_bind {first : Build α} {next : α → Build β} : Yields (first >>= next) kb b most ↔
    ∃ a more, first.Yields kb a more ∧ (next a).Yields more b most := by
  simp only [Yields, run_bind]
  rcases first.run.run kb with ⟨_ | a, more⟩
  · constructor
    · rintro ⟨⟩
    · rintro ⟨_, _, ⟨⟩, _⟩
  · constructor
    · exact fun last => ⟨a, more, rfl, last⟩
    · rintro ⟨_, _, ⟨⟩, last⟩
      exact last

@[simp] theorem yields_pure {x : α} : Yields (pure x) kb a more ↔ a = x ∧ more = kb := by
  have run : (pure x : Build α).run.run kb = (.ok x, kb) := rfl
  rw [Yields, run, Prod.mk.injEq, Except.ok.injEq, eq_comm, @eq_comm _ more]

@[simp] theorem yields_get {old : KnowledgeBase} : Yields get kb old more ↔ old = kb ∧ more = kb := by
  have run : (get : Build KnowledgeBase).run.run kb = (.ok kb, kb) := rfl
  rw [Yields, run, Prod.mk.injEq, Except.ok.injEq, eq_comm, @eq_comm _ more]

@[simp] theorem yields_modify {f : KnowledgeBase → KnowledgeBase} {u : PUnit} :
    Yields (modify f) kb u more ↔ more = f kb := by
  have run : (modify f : Build PUnit).run.run kb = (.ok ⟨⟩, f kb) := rfl
  rw [Yields, run, Prod.mk.injEq, Except.ok.injEq, and_iff_right (PUnit.ext _ _), eq_comm]

@[simp] theorem yields_set {new : KnowledgeBase} {u : PUnit} : Yields (set new) kb u more ↔ more = new :=
  yields_modify

@[simp] theorem yields_throw {e : Error} : ¬ Yields (throw e : Build α) kb a more := by
  rintro ⟨⟩

/-- From a knowledge base on, one change and then the next one add to it. -/
theorem extends_bind {base : KnowledgeBase} {first : Build α} {next : α → Build β}
    (before : base.Extends kb) (start : first.Grows)
    (rest : ∀ a more, base.Extends more → base.Extends ((next a).run.run more).2) :
    base.Extends ((first >>= next).run.run kb).2 := by
  have added := before.trans (start kb)
  rw [run_bind]
  rcases result : first.run.run kb with ⟨_ | a, more⟩
  · rw [result] at added
    exact added
  · rw [result] at added
    exact rest a more added

theorem grows_bind {first : Build α} {next : α → Build β} (start : first.Grows)
    (rest : ∀ a, (next a).Grows) : (first >>= next).Grows :=
  fun kb => extends_bind (.refl kb) start fun a more added => added.trans (rest a more)

theorem grows_pure (a : α) : (pure a : Build α).Grows := fun kb => .refl kb

theorem grows_throw (e : Error) : (throw e : Build α).Grows := fun kb => .refl kb

theorem grows_get : (get : Build KnowledgeBase).Grows := fun kb => .refl kb

theorem grows_modify {f : KnowledgeBase → KnowledgeBase}
    (adds : ∀ kb : KnowledgeBase, kb.Extends (f kb)) : (modify f : Build PUnit).Grows := adds

/-- What is done with a knowledge base may depend on it. -/
theorem grows_of_get {next : KnowledgeBase → Build α}
    (rest : ∀ kb : KnowledgeBase, kb.Extends ((next kb).run.run kb).2) :
    (get >>= next : Build α).Grows := by
  intro kb
  rw [run_bind]
  exact rest kb

end Steps

/-- New atoms alone. -/
private theorem extends_origins (kb : KnowledgeBase) (os : List Origin) :
    kb.Extends { kb with origins := kb.origins ++ os } :=
  { KnowledgeBase.Extends.refl kb with origins := by simp, booleans := ⟨[], rfl, by simp⟩ }

theorem grows_freshAtoms (count : Nat) (origin : Nat → Origin) : (freshAtoms count origin).Grows := by
  refine grows_of_get fun kb => ?_
  split
  · exact extends_origins kb _
  · exact .refl kb

theorem run_freshAtom (origin : Origin) (kb : KnowledgeBase) : (freshAtom origin).run.run kb =
    if kb.atomCount < kb.config.atomLimit then
      (.ok kb.atomCount, { kb with origins := kb.origins.push origin })
    else (.error (.atomsExceeded kb.config.atomLimit), kb) := by
  unfold freshAtom
  rw [run_bind]
  change ((if kb.atomCount < kb.config.atomLimit then _ else _ : Build Atom)).run.run kb = _
  split <;> rfl

theorem grows_freshAtom (origin : Origin) : (freshAtom origin).Grows := by
  intro kb
  rw [run_freshAtom]
  split
  · simpa using extends_origins kb [origin]
  · exact .refl kb

theorem grows_define (cs : List Clause) : (define cs).Grows :=
  grows_modify fun kb => kb.extends_storeAll cs

/-- A boolean symbol gets an atom that is new. -/
theorem grows_booleanAtom (s : Symbol) : (booleanAtom s).Grows := by
  refine grows_of_get fun kb => ?_
  split
  · exact .refl kb
  · rw [run_bind, run_freshAtom]
    by_cases room : kb.atomCount < kb.config.atomLimit
    · rw [if_pos room]
      have grown : kb.Extends { kb with
          origins := kb.origins.push (.boolean s)
          booleans := kb.booleans.insert s kb.atomCount } :=
        { KnowledgeBase.Extends.refl kb with
          origins := by simp
          booleans := ⟨[.of s kb.atomCount], rfl, by simp [Table.Entry.of, KnowledgeBase.atomCount]⟩ }
      exact grown
    · rw [if_neg room]
      exact .refl kb

theorem grows_checkDomain (d : Domain) : (checkDomain d).Grows := by
  refine grows_bind grows_get fun kb => ?_
  dsimp only
  split
  · exact grows_pure _
  · exact grows_throw _

theorem grows_domainOf (s : Symbol) : (domainOf s).Grows := by
  unfold domainOf
  split
  · exact grows_throw _
  · refine grows_bind grows_get fun kb => ?_
    split
    · exact grows_pure _
    · exact grows_throw _

theorem grows_encodeDomain (d : Domain) (origin : Nat → Origin) : (encodeDomain d origin).Grows :=
  grows_bind (grows_checkDomain d) fun _ => grows_bind (grows_freshAtoms _ _) fun _ =>
    grows_bind (grows_define _) fun _ => grows_pure _

theorem grows_encodeSum (left right : Encoding) : (encodeSum left right).Grows := by
  unfold encodeSum
  split
  · exact grows_throw _
  · exact grows_bind (grows_encodeDomain _ _) fun _ => grows_bind (grows_define _) fun _ => grows_pure _

/-- An expression is put into the table of encodings if it was not there. -/
theorem grows_cachedEncoding (e : Expr) {make : Build Encoding} (grows : make.Grows) :
    (cachedEncoding e make).Grows := by
  refine grows_of_get fun kb => ?_
  split
  · exact .refl kb
  · next new =>
    refine extends_bind (.refl kb) grows fun encoding more added => ?_
    exact { added with encodings := added.encodings.insert new encoding }

theorem grows_encode (e : Expr) : (encode e).Grows := by
  induction e with
  | symbol s =>
    exact grows_cachedEncoding _ (grows_bind (grows_domainOf s) fun d => grows_encodeDomain d _)
  | constant value => exact grows_cachedEncoding _ (grows_pure _)
  | sum left right ihl ihr =>
    exact grows_cachedEncoding _ (grows_bind ihl fun l => grows_bind ihr fun r => grows_encodeSum l r)
  | not e _ => exact grows_throw _
  | compare op left right _ _ => exact grows_throw _

theorem grows_comparisonAtom (op : Comparison) (left right : Expr) :
    (comparisonAtom op left right).Grows := by
  refine grows_of_get fun kb => ?_
  split
  · exact .refl kb
  · next new =>
    refine extends_bind (.refl kb) (grows_encode left) fun l _ first => ?_
    refine extends_bind first (grows_encode right) fun r _ second => ?_
    refine extends_bind second (grows_freshAtom _) fun a _ third => ?_
    refine extends_bind third (grows_define _) fun _ more added => ?_
    exact { added with comparisons := added.comparisons.insert new a }

theorem grows_literalOf (e : Expr) : (literalOf e).Grows := by
  induction e with
  | symbol s =>
    unfold literalOf
    split
    · exact grows_bind (grows_booleanAtom s) fun _ => grows_pure _
    · exact grows_throw _
  | not e ih => exact grows_bind ih fun _ => grows_pure _
  | compare op left right _ _ => exact grows_bind (grows_comparisonAtom op left right) fun _ => grows_pure _
  | constant value => exact grows_throw _
  | sum left right _ _ => exact grows_throw _

theorem grows_mapM {α β : Type} {change : α → Build β} (grows : ∀ a, (change a).Grows) (as : List α) :
    (as.mapM change).Grows := by
  induction as with
  | nil => exact grows_pure _
  | cons a as ih =>
    rw [List.mapM_cons]
    exact grows_bind (grows a) fun _ => grows_bind ih fun _ => grows_pure _

theorem grows_clauseOf (disjuncts : List Expr) : (clauseOf disjuncts).Grows :=
  grows_bind (fun kb => .refl kb) fun _ => grows_mapM grows_literalOf disjuncts

end Build

namespace KnowledgeBase

variable {α : Type} {kb more : KnowledgeBase} {change : Build α}

/-- A change that fails changes nothing. -/
theorem attempt_error (grows : change.Grows) (registered : kb.Registered) {e : Error}
    (h : kb.attempt change = (.error e, more)) : more = kb := by
  have adds := grows kb
  unfold attempt at h
  split at h
  · cases h
  · next changed result =>
    rw [result] at adds
    cases h
    exact adds.rollback registered

theorem attempt_ok {a : α} (h : kb.attempt change = (.ok a, more)) : change.Yields kb a more := by
  unfold attempt at h
  split at h
  · next result =>
    cases h
    exact result
  · cases h

end KnowledgeBase

end Clausal
