import Clausal.Proofs.Compilation

/-!
Types and compilation. The types of all disjuncts are checked before anything is compiled,
and whatever has a type is compiled without a type mismatch, as is all that it is made of: the
check and the compiler accept the same expressions, and the compiler fails only where something
is short. So an addition fails with a type mismatch
just if some disjunct is not boolean, and then with the one of the first such disjunct,
whatever else is wrong. Main statement: `add_typeMismatch`.
-/

namespace Clausal

namespace Symbol

variable {s : Symbol}

theorem type_eq_boolean : (Expr.symbol s).type = .ok .boolean ↔ s.isBoolean = true := by
  rw [Expr.type, isBoolean]
  cases s.kind <;> simp [Kind.ty]

theorem type_eq_integer : (Expr.symbol s).type = .ok .integer ↔ s.isBoolean = false := by
  rw [Expr.type, isBoolean]
  cases s.kind <;> simp [Kind.ty]

end Symbol

namespace Expr

variable {e left right p : Expr} {op : Comparison} {ty required actual : Ty} {cause : Error}

private theorem bind_eq_ok {α β : Type} {first : Except Error α} {next : α → Except Error β} {b : β} :
    first >>= next = .ok b ↔ ∃ a, first = .ok a ∧ next a = .ok b := by
  cases first <;> simp [Bind.bind, Except.bind]

private theorem bind_eq_error {α β : Type} {first : Except Error α} {next : α → Except Error β} :
    first >>= next = .error cause ↔ first = .error cause ∨ ∃ a, first = .ok a ∧ next a = .error cause := by
  cases first <;> simp [Bind.bind, Except.bind]

theorem require_eq_ok {u : Unit} : require required actual = .ok u ↔ actual = required := by
  unfold require
  split <;> simp_all

theorem require_eq_error (h : require required actual = .error cause) : cause = .typeMismatch required := by
  unfold require at h
  split at h
  · cases h
  · exact (Except.error.inj h).symm

theorem type_not : (not e).type = .ok ty ↔ e.type = .ok .boolean ∧ ty = .boolean := by
  simp only [type, bind_eq_ok, require_eq_ok, pure, Except.pure, Except.ok.injEq]
  constructor
  · rintro ⟨_, typed, _, rfl, rfl⟩
    exact ⟨typed, rfl⟩
  · rintro ⟨typed, rfl⟩
    exact ⟨.boolean, typed, (), rfl, rfl⟩

/-- Both operands of a sum or a comparison are to be integers. -/
private theorem operands_eq_ok {result : Ty} :
    (do require .integer (← left.type); require .integer (← right.type); return result) = Except.ok ty ↔
      (left.type = .ok .integer ∧ right.type = .ok .integer) ∧ ty = result := by
  simp only [bind_eq_ok, require_eq_ok, pure, Except.pure, Except.ok.injEq]
  constructor
  · rintro ⟨_, first, _, rfl, _, second, _, rfl, rfl⟩
    exact ⟨⟨first, second⟩, rfl⟩
  · rintro ⟨⟨first, second⟩, rfl⟩
    exact ⟨.integer, first, (), rfl, .integer, second, (), rfl, rfl⟩

theorem type_sum : (sum left right).type = .ok ty ↔
    (left.type = .ok .integer ∧ right.type = .ok .integer) ∧ ty = .integer := operands_eq_ok

theorem type_compare : (compare op left right).type = .ok ty ↔
    (left.type = .ok .integer ∧ right.type = .ok .integer) ∧ ty = .boolean := operands_eq_ok

/-- A check of type fails with a type mismatch only. -/
theorem type_error (h : e.type = .error cause) : ∃ required, cause = .typeMismatch required := by
  induction e with
  | symbol s => cases h
  | constant value => cases h
  | not e ih =>
    rcases bind_eq_error.mp h with inner | ⟨_, -, rest⟩
    · exact ih inner
    · rcases bind_eq_error.mp rest with wrong | ⟨_, -, ⟨⟩⟩
      exact ⟨_, require_eq_error wrong⟩
  | sum left right ihl ihr => exact operands_error ihl ihr h
  | compare op left right ihl ihr => exact operands_error ihl ihr h
where
  operands_error {left right : Expr} {result : Ty}
      (ihl : left.type = .error cause → ∃ required, cause = .typeMismatch required)
      (ihr : right.type = .error cause → ∃ required, cause = .typeMismatch required)
      (h : (do require .integer (← left.type); require .integer (← right.type); return result) =
        Except.error cause) : ∃ required, cause = .typeMismatch required := by
    rcases bind_eq_error.mp h with inner | ⟨_, -, rest⟩
    · exact ihl inner
    rcases bind_eq_error.mp rest with wrong | ⟨_, -, rest⟩
    · exact ⟨_, require_eq_error wrong⟩
    rcases bind_eq_error.mp rest with inner | ⟨_, -, rest⟩
    · exact ihr inner
    rcases bind_eq_error.mp rest with wrong | ⟨_, -, ⟨⟩⟩
    exact ⟨_, require_eq_error wrong⟩

/-- All that an expression with a type is made of has a type. -/
theorem type_of_mem_parts (typed : ∃ ty, e.type = .ok ty) (h : p ∈ e.parts) : ∃ ty, p.type = .ok ty := by
  have operands : ∀ {left right : Expr}, (left.type = .ok .integer ∧ right.type = .ok .integer) →
      ((∃ ty, left.type = .ok ty) → p ∈ left.parts → ∃ ty, p.type = .ok ty) →
      ((∃ ty, right.type = .ok ty) → p ∈ right.parts → ∃ ty, p.type = .ok ty) →
      p ∈ left.parts ++ right.parts → ∃ ty, p.type = .ok ty := by
    rintro left right ⟨first, second⟩ ihl ihr inside
    exact (List.mem_append.mp inside).elim (ihl ⟨_, first⟩) (ihr ⟨_, second⟩)
  induction e with
  | symbol s => exact List.mem_singleton.mp h ▸ typed
  | constant value => exact List.mem_singleton.mp h ▸ typed
  | not e ih =>
    rcases List.mem_cons.mp h with rfl | inner
    · exact typed
    · exact ih ⟨_, (type_not.mp typed.choose_spec).1⟩ inner
  | sum left right ihl ihr =>
    rcases List.mem_cons.mp h with rfl | inner
    · exact typed
    · exact operands (type_sum.mp typed.choose_spec).1 ihl ihr inner
  | compare op left right ihl ihr =>
    rcases List.mem_cons.mp h with rfl | inner
    · exact typed
    · exact operands (type_compare.mp typed.choose_spec).1 ihl ihr inner

/-- Why an expression cannot be a disjunct: the mismatch in it, or that it is an integer. -/
def fault (e : Expr) : Error :=
  match e.type with
  | .ok _ => .typeMismatch .boolean
  | .error cause => cause

theorem fault_eq_typeMismatch (e : Expr) : ∃ required, e.fault = .typeMismatch required := by
  unfold fault
  split
  · exact ⟨.boolean, rfl⟩
  · next mismatch => exact type_error mismatch

end Expr

namespace Build

variable {α β : Type} {e left right : Expr} {op : Comparison} {s : Symbol}

/-- A change fails with a type mismatch on no knowledge base. -/
def Typed (change : Build α) : Prop :=
  ∀ (kb : KnowledgeBase) (required : Ty), (change.run.run kb).1 ≠ .error (.typeMismatch required)

/-- What compilation can be short of, whatever the types: a domain, or room for atoms or values. -/
inductive Shortage : Error → Prop where
  | unboundDomain (name : String) : Shortage (.unboundDomain name)
  | atomsExceeded (limit : Nat) : Shortage (.atomsExceeded limit)
  | domainExceeded (limit : Nat) : Shortage (.domainExceeded limit)
  | rangeExceeded : Shortage .rangeExceeded

/-- A change fails for a shortage only, on every knowledge base. -/
def FailsShort (change : Build α) : Prop :=
  ∀ (kb : KnowledgeBase) (cause : Error), (change.run.run kb).1 = .error cause → Shortage cause

theorem FailsShort.typed {change : Build α} (short : change.FailsShort) : change.Typed :=
  fun kb _ failed => nomatch short kb _ failed

section Steps

theorem failsShort_bind {first : Build α} {next : α → Build β} (start : first.FailsShort)
    (rest : ∀ a, (next a).FailsShort) : (first >>= next).FailsShort := by
  intro kb cause
  have started := start kb
  rw [run_bind]
  rcases result : first.run.run kb with ⟨early | a, more⟩
  · rw [result] at started
    exact fun failed => started cause (congrArg Except.error (Except.error.inj failed))
  · exact rest a more cause

theorem failsShort_pure (a : α) : (pure a : Build α).FailsShort := by
  rintro kb cause ⟨⟩

theorem failsShort_get : (get : Build KnowledgeBase).FailsShort := by
  rintro kb cause ⟨⟩

theorem failsShort_modify (f : KnowledgeBase → KnowledgeBase) : (modify f : Build PUnit).FailsShort := by
  rintro kb cause ⟨⟩

theorem failsShort_throw {cause : Error} (short : Shortage cause) : (throw cause : Build α).FailsShort :=
  fun _ _ failed => Except.error.inj failed ▸ short

theorem failsShort_freshAtoms (count : Nat) (origin : Nat → Origin) : (freshAtoms count origin).FailsShort := by
  refine failsShort_bind failsShort_get fun kb => ?_
  split
  · exact failsShort_bind (failsShort_modify _) fun _ => failsShort_pure _
  · exact failsShort_throw (.atomsExceeded _)

theorem failsShort_freshAtom (origin : Origin) : (freshAtom origin).FailsShort := by
  refine failsShort_bind failsShort_get fun kb => ?_
  split
  · exact failsShort_bind (failsShort_modify _) fun _ => failsShort_pure _
  · exact failsShort_throw (.atomsExceeded _)

theorem failsShort_booleanAtom (s : Symbol) : (booleanAtom s).FailsShort := by
  refine failsShort_bind failsShort_get fun kb => ?_
  split
  · exact failsShort_pure _
  · exact failsShort_bind (failsShort_freshAtom _) fun _ => failsShort_bind (failsShort_modify _) fun _ =>
      failsShort_pure _

theorem failsShort_encodeDomain (d : Domain) (origin : Nat → Origin) : (encodeDomain d origin).FailsShort := by
  have checked : (checkDomain d).FailsShort := by
    refine failsShort_bind failsShort_get fun kb => ?_
    dsimp only
    split
    · exact failsShort_pure _
    · exact failsShort_throw (.domainExceeded _)
  exact failsShort_bind checked fun _ => failsShort_bind (failsShort_freshAtoms _ _) fun _ =>
    failsShort_bind (failsShort_modify _) fun _ => failsShort_pure _

/-- The domain of an integer symbol may be missing, but a symbol that has a kind of integer is one. -/
theorem failsShort_domainOf (integer : (Expr.symbol s).type = .ok .integer) : (domainOf s).FailsShort := by
  unfold domainOf
  split
  · next boolean => simp [Expr.type, boolean, Kind.ty] at integer
  · refine failsShort_bind failsShort_get fun kb => ?_
    split
    · exact failsShort_pure _
    · exact failsShort_throw (.unboundDomain _)

theorem failsShort_encodeSum (l r : Encoding) : (encodeSum l r).FailsShort := by
  unfold encodeSum
  split
  · exact failsShort_throw .rangeExceeded
  · exact failsShort_bind (failsShort_encodeDomain _ _) fun _ => failsShort_bind (failsShort_modify _) fun _ =>
      failsShort_pure _

theorem failsShort_cachedEncoding (e : Expr) {make : Build Encoding} (short : make.FailsShort) :
    (cachedEncoding e make).FailsShort := by
  refine failsShort_bind failsShort_get fun kb => ?_
  split
  · exact failsShort_pure _
  · exact failsShort_bind short fun _ => failsShort_bind (failsShort_modify _) fun _ => failsShort_pure _

end Steps

/-- An integer expression is encoded unless something is short, as its operands are integers too. -/
theorem failsShort_encode (integer : e.type = .ok .integer) : (encode e).FailsShort := by
  induction e with
  | symbol s =>
    exact failsShort_cachedEncoding _ (failsShort_bind (failsShort_domainOf integer) fun d =>
      failsShort_encodeDomain d _)
  | constant value => exact failsShort_cachedEncoding _ (failsShort_pure _)
  | sum left right ihl ihr =>
    obtain ⟨⟨first, second⟩, -⟩ := Expr.type_sum.mp integer
    exact failsShort_cachedEncoding _ (failsShort_bind (ihl first) fun l =>
      failsShort_bind (ihr second) fun r => failsShort_encodeSum l r)
  | not e _ => exact Ty.noConfusion (Expr.type_not.mp integer).2
  | compare op left right _ _ => exact Ty.noConfusion (Expr.type_compare.mp integer).2

theorem failsShort_comparisonAtom (first : left.type = .ok .integer) (second : right.type = .ok .integer) :
    (comparisonAtom op left right).FailsShort := by
  refine failsShort_bind failsShort_get fun kb => ?_
  split
  · exact failsShort_pure _
  · exact failsShort_bind (failsShort_encode first) fun l => failsShort_bind (failsShort_encode second) fun r =>
      failsShort_bind (failsShort_freshAtom _) fun a => failsShort_bind (failsShort_modify _) fun _ =>
        failsShort_bind (failsShort_modify _) fun _ => failsShort_pure _

/-- A boolean expression gets a literal unless something is short. -/
theorem failsShort_literalOf (boolean : e.type = .ok .boolean) : (literalOf e).FailsShort := by
  induction e with
  | symbol s =>
    rw [literalOf, if_pos (Symbol.type_eq_boolean.mp boolean)]
    exact failsShort_bind (failsShort_booleanAtom s) fun _ => failsShort_pure _
  | not e ih => exact failsShort_bind (ih (Expr.type_not.mp boolean).1) fun _ => failsShort_pure _
  | compare op left right _ _ =>
    obtain ⟨⟨first, second⟩, -⟩ := Expr.type_compare.mp boolean
    exact failsShort_bind (failsShort_comparisonAtom first second) fun _ => failsShort_pure _
  | constant value => cases boolean
  | sum left right _ _ => exact Ty.noConfusion (Expr.type_sum.mp boolean).2

theorem failsShort_mapM_literalOf {disjuncts : List Expr} (boolean : ∀ e ∈ disjuncts, e.type = .ok .boolean) :
    (disjuncts.mapM literalOf).FailsShort := by
  induction disjuncts with
  | nil => exact failsShort_pure _
  | cons e disjuncts ih =>
    obtain ⟨first, rest⟩ := List.forall_mem_cons.mp boolean
    rw [List.mapM_cons]
    exact failsShort_bind (failsShort_literalOf first) fun _ => failsShort_bind (ih rest) fun _ => failsShort_pure _

theorem typed_domainOf (integer : (Expr.symbol s).type = .ok .integer) : (domainOf s).Typed :=
  (failsShort_domainOf integer).typed

theorem typed_encode (integer : e.type = .ok .integer) : (encode e).Typed := (failsShort_encode integer).typed

theorem typed_literalOf (boolean : e.type = .ok .boolean) : (literalOf e).Typed :=
  (failsShort_literalOf boolean).typed

/-- If some expression is not boolean, there is a first such one. -/
theorem exists_first_not_boolean {disjuncts : List Expr} (wrong : ∃ e ∈ disjuncts, e.type ≠ .ok .boolean) :
    ∃ before e after, disjuncts = before ++ e :: after ∧ (∀ d ∈ before, d.type = .ok .boolean) ∧
      e.type ≠ .ok .boolean := by
  induction disjuncts with
  | nil =>
    obtain ⟨e, ⟨⟩, -⟩ := wrong
  | cons d rest ih =>
    by_cases boolean : d.type = .ok .boolean
    · obtain ⟨e, member, wrong⟩ := wrong
      rcases List.mem_cons.mp member with rfl | later
      · exact absurd boolean wrong
      · obtain ⟨before, e, after, rfl, all, wrong⟩ := ih ⟨e, later, wrong⟩
        exact ⟨d :: before, e, after, rfl, List.forall_mem_cons.mpr ⟨boolean, all⟩, wrong⟩
    · exact ⟨[], d, rest, rfl, by simp, boolean⟩

theorem checkBoolean_of_boolean {disjuncts : List Expr} (boolean : ∀ e ∈ disjuncts, e.type = .ok .boolean) :
    checkBoolean disjuncts = .ok () := by
  induction disjuncts with
  | nil => rfl
  | cons e disjuncts ih =>
    obtain ⟨first, rest⟩ := List.forall_mem_cons.mp boolean
    rw [checkBoolean, first]
    exact ih rest

theorem failsShort_clauseOf {disjuncts : List Expr} (boolean : ∀ e ∈ disjuncts, e.type = .ok .boolean) :
    (clauseOf disjuncts).FailsShort := by
  rw [clauseOf, checkBoolean_of_boolean boolean]
  exact failsShort_bind (failsShort_pure ()) fun _ => failsShort_mapM_literalOf boolean

theorem typed_clauseOf {disjuncts : List Expr} (boolean : ∀ e ∈ disjuncts, e.type = .ok .boolean) :
    (clauseOf disjuncts).Typed := (failsShort_clauseOf boolean).typed

/-- The check stops at the first expression that is not boolean. -/
theorem checkBoolean_of_not_boolean {before after : List Expr}
    (boolean : ∀ d ∈ before, d.type = .ok .boolean) (wrong : e.type ≠ .ok .boolean) :
    checkBoolean (before ++ e :: after) = .error e.fault := by
  induction before with
  | nil =>
    rw [List.nil_append, checkBoolean, Expr.fault]
    cases type : e.type with
    | error cause => rfl
    | ok ty =>
      cases ty with
      | boolean => exact absurd type wrong
      | integer => rfl
  | cons d before ih =>
    obtain ⟨first, rest⟩ := List.forall_mem_cons.mp boolean
    rw [List.cons_append, checkBoolean, first]
    exact ih rest

theorem boolean_of_checkBoolean {disjuncts : List Expr} (checked : checkBoolean disjuncts = .ok ()) :
    ∀ e ∈ disjuncts, e.type = .ok .boolean := by
  by_contra wrong
  push Not at wrong
  obtain ⟨before, e, after, rfl, boolean, wrong⟩ := exists_first_not_boolean wrong
  rw [checkBoolean_of_not_boolean boolean wrong] at checked
  cases checked

end Build

namespace KnowledgeBase

open Build

variable {kb : KnowledgeBase} {disjuncts : List Expr} {cause : Error}

theorem add_error : (kb.add disjuncts).1 = .error cause ↔
    ((clauseOf disjuncts).run.run kb).1 = .error cause := by
  unfold add attempt
  rcases (clauseOf disjuncts).run.run kb with ⟨_ | c, changed⟩ <;> simp

theorem add_of_not_boolean (kb : KnowledgeBase) {before after : List Expr} {e : Expr}
    (boolean : ∀ d ∈ before, d.type = .ok .boolean) (wrong : e.type ≠ .ok .boolean) :
    (kb.add (before ++ e :: after)).1 = .error e.fault := by
  rw [add_error, clauseOf, checkBoolean_of_not_boolean boolean wrong]
  rfl

/-- An addition fails for the type of a disjunct or for a shortage. -/
theorem add_error_cases (failed : (kb.add disjuncts).1 = .error cause) :
    (∃ required, cause = .typeMismatch required) ∨ Shortage cause := by
  by_cases boolean : ∀ e ∈ disjuncts, e.type = .ok .boolean
  · exact .inr (failsShort_clauseOf boolean kb cause (add_error.mp failed))
  · push Not at boolean
    obtain ⟨before, e, after, rfl, typed, wrong⟩ := exists_first_not_boolean boolean
    rw [add_of_not_boolean kb typed wrong] at failed
    exact .inl (Except.error.inj failed ▸ e.fault_eq_typeMismatch)

/-- On every knowledge base an addition fails with a type mismatch just if some disjunct is not boolean,
and then with the fault of the first such disjunct. If the check passes, no expression in it meets a
type mismatch when it is compiled, and no symbol in it when its domain is asked for. -/
theorem add_typeMismatch (kb : KnowledgeBase) (disjuncts : List Expr) :
    ((∃ required, (kb.add disjuncts).1 = .error (.typeMismatch required)) ↔
      ∃ e ∈ disjuncts, e.type ≠ .ok .boolean) ∧
    (∀ before e after, disjuncts = before ++ e :: after → (∀ d ∈ before, d.type = .ok .boolean) →
      e.type ≠ .ok .boolean → (kb.add disjuncts).1 = .error e.fault) ∧
    (checkBoolean disjuncts = .ok () → (clauseOf disjuncts).Typed ∧ ∀ e ∈ disjuncts, ∀ p ∈ e.parts,
      p.type = .ok .boolean ∧ (literalOf p).Typed ∨
      p.type = .ok .integer ∧ (encode p).Typed ∧ ∀ s, p = .symbol s → (domainOf s).Typed) := by
  refine ⟨⟨?_, ?_⟩, ?_, fun checked => ?_⟩
  · rintro ⟨required, failed⟩
    by_contra all
    push Not at all
    exact typed_clauseOf all kb required (add_error.mp failed)
  · intro wrong
    obtain ⟨before, e, after, rfl, boolean, wrong⟩ := exists_first_not_boolean wrong
    obtain ⟨required, mismatch⟩ := e.fault_eq_typeMismatch
    exact ⟨required, mismatch ▸ kb.add_of_not_boolean boolean wrong⟩
  · rintro before e after rfl boolean wrong
    exact kb.add_of_not_boolean boolean wrong
  · have all := boolean_of_checkBoolean checked
    refine ⟨typed_clauseOf all, fun e member p part => ?_⟩
    obtain ⟨_ | _, typed⟩ := Expr.type_of_mem_parts ⟨_, all e member⟩ part
    · exact .inl ⟨typed, typed_literalOf typed⟩
    · exact .inr ⟨typed, typed_encode typed, fun s same => typed_domainOf (same ▸ typed)⟩

/-- An expression without a domain before one of the wrong type, where no atom more is allowed; then the
first one alone, which fails for its domain, though its parts are of the types that they are to have. -/
theorem add_typeMismatch_before_limits :
    let x : Expr := .symbol ⟨0, 0, "x", .integer none⟩
    let p : Expr := .symbol ⟨0, 1, "p", .boolean⟩
    let unbound : Expr := .not (.compare .less (.sum x x) (.constant 3))
    let wrong : Expr := .not (.compare .equal (.sum x p) x)
    let kb := KnowledgeBase.empty { atomLimit := 1, domainLimit := 0 }
    (∃ required, (kb.add [p, unbound, wrong, x]).1 = .error (.typeMismatch required)) ∧
      (kb.add [p, unbound, wrong, x]).1 = .error wrong.fault ∧ wrong.fault = .typeMismatch .integer ∧
      (kb.add [unbound]).1 = .error (.unboundDomain "x") ∧ (encode (.sum x x)).Typed := by
  intro x p unbound wrong kb
  have types : ∀ d ∈ [p, unbound], d.type = .ok .boolean := by
    simp only [List.forall_mem_cons, List.not_mem_nil, false_imp_iff, implies_true, and_true]
    exact ⟨rfl, rfl⟩
  have mismatch : wrong.type = .error (.typeMismatch .integer) := rfl
  have different : wrong.type ≠ .ok .boolean := by simp [mismatch]
  have whole := kb.add_typeMismatch [p, unbound, wrong, x]
  refine ⟨whole.1.mpr ⟨wrong, by simp, different⟩, whole.2.1 [p, unbound] wrong [x] rfl types different,
    by rw [Expr.fault, mismatch], by decide +kernel, ?_⟩
  rcases ((kb.add_typeMismatch [unbound]).2.2 rfl).2 unbound (by simp) (.sum x x) (by simp [unbound, Expr.parts]) with
    ⟨⟨⟩, -⟩ | ⟨-, typed, -⟩
  exact typed

end KnowledgeBase

end Clausal
