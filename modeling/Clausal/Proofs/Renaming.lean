import Clausal.Proofs.Invariant

/-!
Renaming the symbols of a knowledge base. Compilation looks at the kinds of symbols and at
which are equal, and at nothing else of them. So whatever is done with other symbols of
the same kinds gives the same knowledge base but for the symbols: the same atoms and
clauses, and the same failures.
-/

namespace Clausal

/-- Other symbols for all symbols, of the same kinds, and different ones for different ones. -/
structure Renaming where
  map : Symbol → Symbol
  kind : ∀ s, (map s).kind = s.kind
  injective : Function.Injective map

/-- An expression with other symbols. -/
def Expr.rename (f : Symbol → Symbol) : Expr → Expr
  | symbol s => symbol (f s)
  | constant value => constant value
  | not e => not (e.rename f)
  | sum left right => sum (left.rename f) (right.rename f)
  | compare op left right => compare op (left.rename f) (right.rename f)

/-- An origin with another symbol. -/
def Origin.rename (f : Symbol → Symbol) : Origin → Origin
  | top => top
  | boolean s => boolean (f s)
  | indicator s value => indicator (f s) value
  | auxiliary => auxiliary

theorem Expr.rename_injective {f : Symbol → Symbol} (injective : Function.Injective f) :
    Function.Injective (rename f) := by
  intro e
  induction e with
  | symbol s =>
    rintro (t | _ | _ | _ | _) same <;> simp only [rename, symbol.injEq, reduceCtorEq] at same
    rw [injective same]
  | constant value =>
    rintro (_ | other | _ | _ | _) same <;> simp only [rename, constant.injEq, reduceCtorEq] at same
    rw [same]
  | not e ih =>
    rintro (_ | _ | other | _ | _) same <;> simp only [rename, not.injEq, reduceCtorEq] at same
    rw [ih same]
  | sum left right ihl ihr =>
    rintro (_ | _ | _ | _ | _) same <;> simp only [rename, sum.injEq, reduceCtorEq] at same
    rw [ihl same.1, ihr same.2]
  | compare op left right ihl ihr =>
    rintro (_ | _ | _ | _ | _) same <;> simp only [rename, compare.injEq, reduceCtorEq] at same
    rw [same.1, ihl same.2.1, ihr same.2.2]

namespace Table

variable {κ ι α : Type} [Hashable κ] [Hashable ι]

/-- A table with other keys. -/
def mapKeys (f : κ → ι) (t : Table κ α) : Table ι α := ⟨t.entries.map fun e => .of (f e.key) e.value⟩

theorem size_mapKeys (f : κ → ι) (t : Table κ α) : (t.mapKeys f).size = t.size := List.length_map _

theorem mapKeys_keep (f : κ → ι) (t : Table κ α) (test : α → Bool) :
    (t.keep test).mapKeys f = (t.mapKeys f).keep test := by
  simp only [keep, mapKeys, List.filter_map]
  rfl

variable [BEq κ] [LawfulBEq κ] [BEq ι] [LawfulBEq ι] {f : κ → ι}

private theorem isOn_mapped (injective : Function.Injective f) (e : Entry κ α) (key : κ) :
    (Entry.of (f e.key) e.value).isOn (f key) (hash (f key)) = e.isOn key (hash key) := by
  rw [Entry.isOn_hash, Entry.isOn_hash, Bool.eq_iff_iff, beq_iff_eq, beq_iff_eq]
  exact injective.eq_iff

theorem get?_mapKeys (injective : Function.Injective f) (t : Table κ α) (key : κ) :
    (t.mapKeys f).get? (f key) = t.get? key := by
  simp only [get?, mapKeys, List.find?_map, Option.map_map]
  have same : (fun e : Entry ι α => e.isOn (f key) (hash (f key))) ∘ (fun e => .of (f e.key) e.value) =
      fun e : Entry κ α => e.isOn key (hash key) := funext fun e => isOn_mapped injective e key
  rw [same]
  rfl

theorem mapKeys_forget (injective : Function.Injective f) (t : Table κ α) (size : Nat) :
    (t.forget size).mapKeys f = (t.mapKeys f).forget size := by
  have kept : ∀ (later : List (Entry κ α)) (e : Entry κ α),
      (!(later.map fun e => Entry.of (f e.key) e.value).any (·.isOn (f e.key) (hash (f e.key)))) =
        !later.any (·.isOn e.key e.code) := by
    intro later e
    rw [List.any_map, e.code_eq]
    exact congrArg _ (congrArg _ (funext fun other => isOn_mapped injective other e.key))
  simp only [forget, size_mapKeys]
  simp only [mapKeys, ← List.map_take, ← List.map_drop, List.filter_map]
  refine congrArg _ (congrArg _ (List.filter_congr fun e _ => ?_))
  exact (kept _ e).symm

end Table

namespace KnowledgeBase

variable {ρ : Renaming} {kb : KnowledgeBase}

/-- A knowledge base with other symbols. -/
def rename (kb : KnowledgeBase) (ρ : Renaming) : KnowledgeBase :=
  { kb with
    origins := kb.origins.map (.rename ρ.map)
    booleans := kb.booleans.mapKeys ρ.map
    encodings := kb.encodings.mapKeys (.rename ρ.map)
    comparisons := kb.comparisons.mapKeys (.rename ρ.map) }

@[simp] theorem atomCount_rename : (kb.rename ρ).atomCount = kb.atomCount := Array.size_map

theorem clauses_rename (kb : KnowledgeBase) : (kb.rename ρ).clauses = kb.clauses := rfl

theorem booleans_rename (s : Symbol) : (kb.rename ρ).booleans.get? (ρ.map s) = kb.booleans.get? s :=
  Table.get?_mapKeys ρ.injective _ _

theorem encodings_rename (e : Expr) :
    (kb.rename ρ).encodings.get? (e.rename ρ.map) = kb.encodings.get? e :=
  Table.get?_mapKeys (Expr.rename_injective ρ.injective) _ _

theorem comparisons_rename (e : Expr) :
    (kb.rename ρ).comparisons.get? (e.rename ρ.map) = kb.comparisons.get? e :=
  Table.get?_mapKeys (Expr.rename_injective ρ.injective) _ _

theorem store_renamed (kb : KnowledgeBase) (c : Clause) :
    (kb.rename ρ).store c = ((kb.store c).1, (kb.store c).2.rename ρ) := by
  unfold store
  split
  · rfl
  · split <;> rfl

theorem storeAll_renamed (kb : KnowledgeBase) (cs : List Clause) :
    (kb.rename ρ).storeAll cs = (kb.storeAll cs).rename ρ := by
  induction cs generalizing kb with
  | nil => rfl
  | cons c cs ih =>
    change ((kb.rename ρ).store c).2.storeAll cs = ((kb.store c).2.storeAll cs).rename ρ
    rw [store_renamed]
    exact ih _

theorem extent_rename : (kb.rename ρ).extent = kb.extent := by
  simp only [extent, rename, Array.size_map, Table.size_mapKeys]

theorem rollback_renamed (kb : KnowledgeBase) (e : Extent) :
    (kb.rename ρ).rollback e = (kb.rollback e).rename ρ := by
  have keys := Expr.rename_injective ρ.injective
  simp only [rollback, rename, Table.mapKeys_keep, Table.mapKeys_forget keys]
  congr 1
  simp [Array.take_eq_extract]

end KnowledgeBase

/-- Two causes are the same, or say of a symbol and of the one it is renamed to that it has no domain. -/
inductive SameCause (ρ : Renaming) : Error → Error → Prop where
  | same (cause : Error) : SameCause ρ cause cause
  | unbound (s : Symbol) : SameCause ρ (.unboundDomain s.name) (.unboundDomain (ρ.map s).name)

/-- Two results are the same success or failures with the same cause. -/
inductive SameResult {α : Type} (ρ : Renaming) : Except Error α → Except Error α → Prop where
  | ok (a : α) : SameResult ρ (.ok a) (.ok a)
  | error {cause cause' : Error} (same : SameCause ρ cause cause') :
      SameResult ρ (.error cause) (.error cause')

namespace Build

variable {α β : Type} {ρ : Renaming} {kb : KnowledgeBase} {e : Expr}

/-- One change of a knowledge base and another change of it with other symbols have the same result, and
what they make of it is the same but for the symbols. -/
def CorrespondsAt (ρ : Renaming) (kb : KnowledgeBase) (change renamed : Build α) : Prop :=
  SameResult ρ (change.run.run kb).1 (renamed.run.run (kb.rename ρ)).1 ∧
    (renamed.run.run (kb.rename ρ)).2 = (change.run.run kb).2.rename ρ

/-- They do so of every knowledge base. -/
def Corresponds (ρ : Renaming) (change renamed : Build α) : Prop := ∀ kb, CorrespondsAt ρ kb change renamed

section Steps

theorem corresponds_bind {first first' : Build α} {next next' : α → Build β}
    (start : CorrespondsAt ρ kb first first') (rest : ∀ a, Corresponds ρ (next a) (next' a)) :
    CorrespondsAt ρ kb (first >>= next) (first' >>= next') := by
  obtain ⟨result, state⟩ := start
  unfold CorrespondsAt
  rw [run_bind, run_bind]
  rcases ended : first.run.run kb with ⟨r, more⟩
  rcases ended' : first'.run.run (kb.rename ρ) with ⟨r', more'⟩
  rw [ended, ended'] at result state
  obtain rfl : more' = more.rename ρ := state
  cases result with
  | ok a => exact rest a more
  | error same => exact ⟨.error same, rfl⟩

theorem corresponds_pure (a : α) : Corresponds ρ (pure a) (pure a) := fun _ => ⟨.ok a, rfl⟩

theorem corresponds_throw {cause cause' : Error} (same : SameCause ρ cause cause') :
    Corresponds ρ (throw cause : Build α) (throw cause') := fun _ => ⟨.error same, rfl⟩

theorem corresponds_get {next next' : KnowledgeBase → Build α}
    (rest : ∀ kb, CorrespondsAt ρ kb (next kb) (next' (kb.rename ρ))) :
    Corresponds ρ (get >>= next) (get >>= next') := by
  intro kb
  have known := rest kb
  unfold CorrespondsAt at known ⊢
  rw [run_bind, run_bind]
  exact known

theorem corresponds_modify {f f' : KnowledgeBase → KnowledgeBase}
    (same : ∀ kb : KnowledgeBase, f' (kb.rename ρ) = (f kb).rename ρ) :
    Corresponds ρ (modify f : Build PUnit) (modify f') :=
  fun kb => ⟨.ok PUnit.unit, same kb⟩

theorem corresponds_set {new new' : KnowledgeBase} (same : new' = new.rename ρ) :
    Corresponds ρ (set new : Build PUnit) (set new') :=
  fun _ => ⟨.ok PUnit.unit, same⟩

end Steps

theorem freshAtoms_renamed (count : Nat) (origin : Nat → Origin) : Corresponds ρ
    (freshAtoms count origin) (freshAtoms count fun i => (origin i).rename ρ.map) := by
  refine corresponds_get fun kb => ?_
  rw [KnowledgeBase.atomCount_rename]
  change CorrespondsAt ρ kb _ (if count = 0 ∨ kb.atomCount + count ≤ kb.config.atomLimit then _ else _)
  split
  · have origins : (kb.origins ++ (List.range count).map origin).map (Origin.rename ρ.map) =
        kb.origins.map (Origin.rename ρ.map) ++ (List.range count).map fun i => (origin i).rename ρ.map :=
      Array.toList_inj.mp (by simp [Array.toList_appendList, Function.comp_def])
    refine corresponds_bind (corresponds_set ?_ kb) fun _ => corresponds_pure _
    simp only [KnowledgeBase.rename, origins]
  · exact corresponds_throw (.same _) kb

theorem freshAtom_renamed (origin : Origin) :
    Corresponds ρ (freshAtom origin) (freshAtom (origin.rename ρ.map)) := by
  refine corresponds_get fun kb => ?_
  rw [KnowledgeBase.atomCount_rename]
  change CorrespondsAt ρ kb _ (if kb.atomCount < kb.config.atomLimit then _ else _)
  split
  · refine corresponds_bind (corresponds_set ?_ kb) fun _ => corresponds_pure _
    simp [KnowledgeBase.rename]
  · exact corresponds_throw (.same _) kb

theorem define_renamed (cs : List Clause) : Corresponds ρ (define cs) (define cs) :=
  corresponds_modify fun kb => kb.storeAll_renamed cs

theorem booleanAtom_renamed (s : Symbol) : Corresponds ρ (booleanAtom s) (booleanAtom (ρ.map s)) := by
  refine corresponds_get fun kb => ?_
  rw [KnowledgeBase.booleans_rename]
  split
  · exact corresponds_pure _ kb
  · refine corresponds_bind (freshAtom_renamed (.boolean s) kb) fun a => ?_
    exact fun kb => corresponds_bind (corresponds_modify (fun kb => rfl) kb) fun _ => corresponds_pure _

theorem checkDomain_renamed (d : Domain) : Corresponds ρ (checkDomain d) (checkDomain d) := by
  refine corresponds_get fun kb => ?_
  change CorrespondsAt ρ kb (if d.size ≤ kb.config.domainLimit then _ else _)
    (if d.size ≤ kb.config.domainLimit then _ else _)
  split
  · exact corresponds_pure _ kb
  · exact corresponds_throw (.same _) kb

theorem domainOf_renamed (s : Symbol) : Corresponds ρ (domainOf s) (domainOf (ρ.map s)) := by
  unfold domainOf
  rw [ρ.kind]
  split
  · exact corresponds_throw (.same _)
  · next declared _ =>
    refine corresponds_get fun kb => ?_
    have same : (kb.rename ρ).config.defaultDomain = kb.config.defaultDomain := rfl
    rw [same]
    cases declared <|> kb.config.defaultDomain with
    | some d => exact corresponds_pure d kb
    | none => exact corresponds_throw (.unbound s) kb

theorem encodeDomain_renamed (d : Domain) (origin : Nat → Origin) : Corresponds ρ
    (encodeDomain d origin) (encodeDomain d fun i => (origin i).rename ρ.map) := fun kb =>
  corresponds_bind (checkDomain_renamed d kb) fun _ kb =>
    corresponds_bind (freshAtoms_renamed d.count origin kb) fun indicators kb =>
      corresponds_bind (define_renamed (exactlyOne indicators) kb) fun _ => corresponds_pure _

theorem encodeSum_renamed (l r : Encoding) : Corresponds ρ (encodeSum l r) (encodeSum l r) := by
  unfold encodeSum
  split
  · exact corresponds_throw (.same _)
  · exact fun kb => corresponds_bind (encodeDomain_renamed _ (fun _ => .auxiliary) kb) fun sum kb =>
      corresponds_bind (define_renamed (sumClauses l r sum) kb) fun _ => corresponds_pure _

theorem cachedEncoding_renamed {make make' : Build Encoding} (made : Corresponds ρ make make') :
    Corresponds ρ (cachedEncoding e make) (cachedEncoding (e.rename ρ.map) make') := by
  refine corresponds_get fun kb => ?_
  rw [KnowledgeBase.encodings_rename]
  split
  · exact corresponds_pure _ kb
  · refine corresponds_bind (made kb) fun encoding kb => ?_
    exact corresponds_bind (corresponds_modify (fun kb => rfl) kb) fun _ => corresponds_pure _

/-- By induction on the expression. -/
theorem encode_renamed (e : Expr) : Corresponds ρ (encode e) (encode (e.rename ρ.map)) := by
  induction e with
  | symbol s =>
    exact cachedEncoding_renamed fun kb =>
      corresponds_bind (domainOf_renamed s kb) fun d => encodeDomain_renamed d _
  | constant value => exact cachedEncoding_renamed (corresponds_pure _)
  | sum left right ihl ihr =>
    exact cachedEncoding_renamed fun kb => corresponds_bind (ihl kb) fun l kb =>
      corresponds_bind (ihr kb) fun r => encodeSum_renamed l r
  | not e _ => exact corresponds_throw (.same _)
  | compare op left right _ _ => exact corresponds_throw (.same _)

theorem comparisonAtom_renamed (op : Comparison) (left right : Expr) : Corresponds ρ
    (comparisonAtom op left right) (comparisonAtom op (left.rename ρ.map) (right.rename ρ.map)) := by
  refine corresponds_get fun kb => ?_
  have known : (kb.rename ρ).comparisons.get? (.compare op (left.rename ρ.map) (right.rename ρ.map)) =
      kb.comparisons.get? (.compare op left right) := kb.comparisons_rename (.compare op left right)
  rw [known]
  split
  · exact corresponds_pure _ kb
  · refine corresponds_bind (encode_renamed left kb) fun l kb => ?_
    refine corresponds_bind (encode_renamed right kb) fun r kb => ?_
    refine corresponds_bind (freshAtom_renamed .auxiliary kb) fun a kb => ?_
    refine corresponds_bind (define_renamed _ kb) fun _ kb => ?_
    exact corresponds_bind (corresponds_modify (fun kb => rfl) kb) fun _ => corresponds_pure _

theorem literalOf_renamed (e : Expr) : Corresponds ρ (literalOf e) (literalOf (e.rename ρ.map)) := by
  induction e with
  | symbol s =>
    have kind : (ρ.map s).isBoolean = s.isBoolean := by rw [Symbol.isBoolean, ρ.kind, Symbol.isBoolean]
    rw [Expr.rename, literalOf, literalOf, kind]
    split
    · exact fun kb => corresponds_bind (booleanAtom_renamed s kb) fun _ => corresponds_pure _
    · exact corresponds_throw (.same _)
  | not e ih => exact fun kb => corresponds_bind (ih kb) fun _ => corresponds_pure _
  | compare op left right _ _ =>
    exact fun kb => corresponds_bind (comparisonAtom_renamed op left right kb) fun _ => corresponds_pure _
  | constant value => exact corresponds_throw (.same _)
  | sum left right _ _ => exact corresponds_throw (.same _)

theorem type_rename (e : Expr) : (e.rename ρ.map).type = e.type := by
  induction e with
  | symbol s => rw [Expr.rename, Expr.type, Expr.type, ρ.kind]
  | constant value => rfl
  | not e ih => rw [Expr.rename, Expr.type, Expr.type, ih]
  | sum left right ihl ihr => rw [Expr.rename, Expr.type, Expr.type, ihl, ihr]
  | compare op left right ihl ihr => rw [Expr.rename, Expr.type, Expr.type, ihl, ihr]

theorem checkBoolean_rename (disjuncts : List Expr) :
    checkBoolean (disjuncts.map (.rename ρ.map)) = checkBoolean disjuncts := by
  induction disjuncts with
  | nil => rfl
  | cons e disjuncts ih => rw [List.map_cons, checkBoolean, checkBoolean, type_rename, ih]

theorem mapM_renamed (disjuncts : List Expr) : Corresponds ρ (disjuncts.mapM literalOf)
    ((disjuncts.map (.rename ρ.map)).mapM literalOf) := by
  induction disjuncts with
  | nil => exact corresponds_pure _
  | cons e disjuncts ih =>
    rw [List.map_cons, List.mapM_cons, List.mapM_cons]
    exact fun kb => corresponds_bind (literalOf_renamed e kb) fun _ kb =>
      corresponds_bind (ih kb) fun _ => corresponds_pure _

theorem clauseOf_renamed (disjuncts : List Expr) : Corresponds ρ (clauseOf disjuncts)
    (clauseOf (disjuncts.map (.rename ρ.map))) := by
  intro kb
  rw [clauseOf, clauseOf, checkBoolean_rename]
  refine corresponds_bind ⟨?_, rfl⟩ fun _ => mapM_renamed disjuncts
  change SameResult ρ (checkBoolean disjuncts) (checkBoolean disjuncts)
  cases checkBoolean disjuncts with
  | ok => exact .ok _
  | error cause => exact .error (.same cause)

end Build

namespace KnowledgeBase

variable (ρ : Renaming) (kb : KnowledgeBase)

/-- A change is made of both, or of none and then of neither. -/
theorem attempt_renamed {ρ : Renaming} {α : Type} {change renamed : Build α}
    (corresponds : Build.Corresponds ρ change renamed) : SameResult ρ (kb.attempt change).1 ((kb.rename ρ).attempt renamed).1 ∧
      ((kb.rename ρ).attempt renamed).2 = (kb.attempt change).2.rename ρ := by
  obtain ⟨result, state⟩ := corresponds kb
  unfold attempt
  rcases ended : change.run.run kb with ⟨r, more⟩
  rcases ended' : renamed.run.run (kb.rename ρ) with ⟨r', more'⟩
  rw [ended, ended'] at result state
  obtain rfl : more' = more.rename ρ := state
  cases result with
  | ok a => exact ⟨.ok a, rfl⟩
  | error same =>
    rw [extent_rename]
    exact ⟨.error same, rollback_renamed more _⟩

theorem add_renamed (disjuncts : List Expr) :
    SameResult ρ (kb.add disjuncts).1 ((kb.rename ρ).add (disjuncts.map (.rename ρ.map))).1 ∧
      ((kb.rename ρ).add (disjuncts.map (.rename ρ.map))).2 = (kb.add disjuncts).2.rename ρ := by
  have corresponds : Build.Corresponds ρ (Build.clauseOf disjuncts) _ := Build.clauseOf_renamed disjuncts
  obtain ⟨result, state⟩ := kb.attempt_renamed corresponds
  unfold add
  rcases ended : kb.attempt (Build.clauseOf disjuncts) with ⟨r, more⟩
  rcases ended' : (kb.rename ρ).attempt (Build.clauseOf (disjuncts.map (.rename ρ.map))) with ⟨r', more'⟩
  rw [ended, ended'] at result state
  obtain rfl : more' = more.rename ρ := state
  cases result with
  | ok c =>
    change SameResult ρ (.ok (more.store c).1) (.ok ((more.rename ρ).store c).1) ∧
      ((more.rename ρ).store c).2 = (more.store c).2.rename ρ
    rw [store_renamed]
    exact ⟨.ok _, rfl⟩
  | error same => exact ⟨.error same, rfl⟩

theorem declare_renamed (s : Symbol) :
    SameResult ρ (kb.declare s).1 ((kb.rename ρ).declare (ρ.map s)).1 ∧
      ((kb.rename ρ).declare (ρ.map s)).2 = (kb.declare s).2.rename ρ := by
  have discarded : ∀ {α : Type} {change renamed : Build α}, Build.Corresponds ρ change renamed →
      Build.Corresponds ρ (discard change) (discard renamed) := by
    intro α change renamed corresponds kb
    rw [Build.discard_eq, Build.discard_eq]
    exact Build.corresponds_bind (corresponds kb) fun _ => Build.corresponds_pure ()
  refine kb.attempt_renamed ?_
  rw [ρ.kind]
  split
  · exact discarded (Build.booleanAtom_renamed s)
  · exact discarded (Build.encode_renamed (.symbol s))

end KnowledgeBase

/-- An addition or a declaration. -/
inductive Operation where
  | add (disjuncts : List Expr)
  | declare (s : Symbol)

namespace Operation

/-- The symbols that an operation is about. -/
def symbols : Operation → List Symbol
  | add disjuncts => disjuncts.flatMap Expr.symbols
  | declare s => [s]

def rename (f : Symbol → Symbol) : Operation → Operation
  | add disjuncts => add (disjuncts.map (.rename f))
  | declare s => declare (f s)

/-- What an operation makes of a knowledge base, whether it succeeds or fails. -/
def apply (kb : KnowledgeBase) : Operation → KnowledgeBase
  | add disjuncts => (kb.add disjuncts).2
  | declare s => (kb.declare s).2

theorem apply_renamed {ρ : Renaming} (kb : KnowledgeBase) (op : Operation) :
    (op.rename ρ.map).apply (kb.rename ρ) = (op.apply kb).rename ρ := by
  cases op with
  | add disjuncts => exact (kb.add_renamed ρ disjuncts).2
  | declare s => exact (kb.declare_renamed ρ s).2

end Operation

/-- Some operations, one after the other. -/
def KnowledgeBase.run (kb : KnowledgeBase) (ops : List Operation) : KnowledgeBase :=
  ops.foldl Operation.apply kb

/-- The same operations on other symbols give the same knowledge base but for the symbols. -/
theorem KnowledgeBase.run_renamed {ρ : Renaming} (kb : KnowledgeBase) (ops : List Operation) :
    (kb.rename ρ).run (ops.map (.rename ρ.map)) = (kb.run ops).rename ρ := by
  induction ops generalizing kb with
  | nil => rfl
  | cons op ops ih =>
    rw [List.map_cons, run, List.foldl_cons, Operation.apply_renamed]
    exact ih _

end Clausal
