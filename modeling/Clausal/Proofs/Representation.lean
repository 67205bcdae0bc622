import Clausal.Proofs.Encoding
import Clausal.Proofs.Growth

/-!
What a knowledge base represents. Each of its atoms but the one that always holds is
made for one item: a boolean symbol, a value of an integer expression or a
comparison. Its clauses say that every encoding shows a value, that sums and
comparisons are what they should be, and that every disjunction that was added has
a true disjunct.
-/

namespace Clausal

/-- What literals are made for. -/
inductive Item where
  | boolean (s : Symbol)
  | integer (e : Expr)
  | comparison (e : Expr)

/-- The literals of new atoms, from a first one on. -/
def freshLiterals (first count : Nat) : List Literal :=
  (List.range count).map fun i => .positive (first + i)

theorem mem_freshLiterals {first count : Nat} {l : Literal} :
    l ∈ freshLiterals first count ↔ ∃ i < count, l = .positive (first + i) := by
  simp [freshLiterals, eq_comm]

theorem getElem?_freshLiterals {first count i : Nat} {l : Literal} :
    (freshLiterals first count)[i]? = some l ↔ i < count ∧ l = .positive (first + i) := by
  simp only [freshLiterals, List.getElem?_map, Option.map_eq_some_iff]
  constructor
  · rintro ⟨j, found, rfl⟩
    obtain ⟨inside, rfl⟩ := List.getElem?_eq_some_iff.mp found
    rw [List.getElem_range]
    exact ⟨by simpa using inside, rfl⟩
  · rintro ⟨inside, rfl⟩
    exact ⟨i, by simp [inside], rfl⟩

namespace KnowledgeBase

/-- The literals that were made for an item, if any were. -/
def literals? (kb : KnowledgeBase) : Item → Option (List Literal)
  | .boolean s => (kb.booleans.get? s).map fun a => [.positive a]
  | .integer e => (kb.encodings.get? e).map Encoding.indicators
  | .comparison e => (kb.comparisons.get? e).map fun a => [.positive a]

/-- An atom was made for a position of an item. -/
def Owns (kb : KnowledgeBase) (item : Item) (i a : Nat) : Prop :=
  ∃ ls, kb.literals? item = some ls ∧ ls[i]? = some (.positive a)

/-- The literal of a boolean expression that was compiled. -/
def literal? (kb : KnowledgeBase) : Expr → Option Literal
  | .symbol s => (kb.booleans.get? s).map .positive
  | .not e => (kb.literal? e).map (-·)
  | .compare op left right => (kb.comparisons.get? (.compare op left right)).map .positive
  | .constant _ => none
  | .sum _ _ => none

/-- An encoding is of the right form for an expression, and parts of the expression were encoded. -/
def Encodes (kb : KnowledgeBase) (e : Expr) (enc : Encoding) : Prop :=
  enc.Full ∧ match e with
    | .symbol s => s.isBoolean = false
    | .constant value => enc = Build.encodeConstant value
    | .sum left right => ∃ l r, kb.encodings.get? left = some l ∧ kb.encodings.get? right = some r ∧
      l.domain.sum? r.domain = some enc.domain
    | .not _ => False
    | .compare _ _ _ => False

/-- An expression is a comparison of two expressions that were encoded. -/
def Compares (kb : KnowledgeBase) (e : Expr) : Prop :=
  ∃ op left right l r, e = .compare op left right ∧ kb.encodings.get? left = some l ∧
    kb.encodings.get? right = some r

/-- Every atom but the one that always holds was made for one position of one item, and what was
compiled has the right form. -/
structure WellFormed (kb : KnowledgeBase) : Prop where
  nonempty : 0 < kb.atomCount
  positive : ∀ item ls, kb.literals? item = some ls → ∀ l ∈ ls, ∃ a < kb.atomCount, l = .positive a
  top : ∀ item ls, kb.literals? item = some ls → Literal.top ∈ ls → ∃ value, item = .integer (.constant value)
  covered : ∀ a, 0 < a → a < kb.atomCount → ∃ item i, kb.Owns item i a
  unique : ∀ a, 0 < a → ∀ item i item' i', kb.Owns item i a → kb.Owns item' i' a → item = item' ∧ i = i'
  boolean : ∀ s a, kb.booleans.get? s = some a → s.isBoolean = true
  registered : kb.Registered
  encoded : ∀ e enc, kb.encodings.get? e = some enc → kb.Encodes e enc
  compared : ∀ e a, kb.comparisons.get? e = some a → kb.Compares e
  below : ∀ c ∈ kb.clauses, ∀ l ∈ c, l.atom < kb.atomCount
  normal : ∀ c ∈ kb.clauses, c.Normal

/-- An expression was encoded, and shows a value under a valuation. -/
def ShowsIn (kb : KnowledgeBase) (v : Valuation) (e : Expr) (n : Int) : Prop :=
  ∃ enc, kb.encodings.get? e = some enc ∧ enc.Shows v n

/-- A sum shows the sum of what both sides show. -/
def SumsIn (kb : KnowledgeBase) (v : Valuation) (left right : Expr) (enc : Encoding) : Prop :=
  ∃ a b, kb.ShowsIn v left a ∧ kb.ShowsIn v right b ∧ enc.Shows v (a + b)

/-- An atom is true exactly if a comparison holds of what both sides show. -/
def ComparesIn (kb : KnowledgeBase) (v : Valuation) (op : Comparison) (left right : Expr) (a : Atom) :
    Prop :=
  ∃ m n, kb.ShowsIn v left m ∧ kb.ShowsIn v right n ∧ v.holds (.positive a) = op.holds m n

/-- What the clauses of a knowledge base say, to which some disjunctions were added. -/
structure Consistent (kb : KnowledgeBase) (added : List (List Expr)) (v : Valuation) : Prop where
  top : v.holds Literal.top = true
  shown : ∀ e enc, kb.encodings.get? e = some enc → ∃ n, enc.Shows v n
  sums : ∀ left right enc, kb.encodings.get? (.sum left right) = some enc → kb.SumsIn v left right enc
  comparisons : ∀ op left right a, kb.comparisons.get? (.compare op left right) = some a →
    kb.ComparesIn v op left right a
  added : ∀ disjuncts ∈ added, ∃ e ∈ disjuncts, ∃ l, kb.literal? e = some l ∧ v.holds l = true

/-- A knowledge base to which some disjunctions were added represents them. -/
structure Faithful (kb : KnowledgeBase) (added : List (List Expr)) : Prop extends WellFormed kb where
  compiled : ∀ disjuncts ∈ added, ∀ e ∈ disjuncts, ∃ l, kb.literal? e = some l
  meaning : ∀ v : Valuation, kb.atomCount ≤ v.size →
    (v.All kb.clauses.toList ↔ kb.Consistent added v)

/-- All that was compiled in the first knowledge base is so in the second one. -/
structure Retains (kb more : KnowledgeBase) : Prop where
  atoms : kb.atomCount ≤ more.atomCount
  booleans : ∀ s a, kb.booleans.get? s = some a → more.booleans.get? s = some a
  encodings : ∀ e enc, kb.encodings.get? e = some enc → more.encodings.get? e = some enc
  comparisons : ∀ e a, kb.comparisons.get? e = some a → more.comparisons.get? e = some a

namespace Retains

variable {kb more most : KnowledgeBase} {v : Valuation} {e : Expr}

theorem refl (kb : KnowledgeBase) : kb.Retains kb :=
  ⟨Nat.le_refl _, fun _ _ => id, fun _ _ => id, fun _ _ => id⟩

theorem trans (first : kb.Retains more) (second : more.Retains most) : kb.Retains most :=
  ⟨Nat.le_trans first.atoms second.atoms,
    fun s a h => second.booleans s a (first.booleans s a h),
    fun e enc h => second.encodings e enc (first.encodings e enc h),
    fun e a h => second.comparisons e a (first.comparisons e a h)⟩

theorem literal? (retains : kb.Retains more) {l : Literal} (h : kb.literal? e = some l) :
    more.literal? e = some l := by
  induction e generalizing l with
  | symbol s =>
    obtain ⟨a, found, rfl⟩ := Option.map_eq_some_iff.mp h
    exact Option.map_eq_some_iff.mpr ⟨a, retains.booleans s a found, rfl⟩
  | not e ih =>
    obtain ⟨m, found, rfl⟩ := Option.map_eq_some_iff.mp h
    exact Option.map_eq_some_iff.mpr ⟨m, ih found, rfl⟩
  | compare op left right _ _ =>
    obtain ⟨a, found, rfl⟩ := Option.map_eq_some_iff.mp h
    exact Option.map_eq_some_iff.mpr ⟨a, retains.comparisons _ a found, rfl⟩
  | constant value => cases h
  | sum left right _ _ => cases h

theorem encodes (retains : kb.Retains more) {enc : Encoding} (h : kb.Encodes e enc) :
    more.Encodes e enc := by
  refine ⟨h.1, ?_⟩
  cases e with
  | symbol s => exact h.2
  | constant value => exact h.2
  | sum left right =>
    obtain ⟨l, r, first, second, domain⟩ := h.2
    exact ⟨l, r, retains.encodings left l first, retains.encodings right r second, domain⟩
  | not e => exact h.2
  | compare op left right => exact h.2

theorem compares (retains : kb.Retains more) (h : kb.Compares e) : more.Compares e := by
  obtain ⟨op, left, right, l, r, same, first, second⟩ := h
  exact ⟨op, left, right, l, r, same, retains.encodings left l first, retains.encodings right r second⟩

theorem showsIn (retains : kb.Retains more) {n : Int} (h : kb.ShowsIn v e n) : more.ShowsIn v e n := by
  obtain ⟨enc, found, shown⟩ := h
  exact ⟨enc, retains.encodings e enc found, shown⟩

/-- What an expression encoded before shows. -/
theorem showsIn_iff (retains : kb.Retains more) {enc : Encoding} (found : kb.encodings.get? e = some enc)
    {n : Int} : more.ShowsIn v e n ↔ kb.ShowsIn v e n := by
  refine ⟨?_, retains.showsIn⟩
  rintro ⟨other, known, shown⟩
  rw [retains.encodings e enc found, Option.some.injEq] at known
  exact ⟨enc, found, known ▸ shown⟩

theorem sumsIn_iff (retains : kb.Retains more) {left right : Expr} {l r enc : Encoding}
    (first : kb.encodings.get? left = some l) (second : kb.encodings.get? right = some r) :
    more.SumsIn v left right enc ↔ kb.SumsIn v left right enc := by
  simp only [SumsIn, retains.showsIn_iff first, retains.showsIn_iff second]

theorem comparesIn_iff (retains : kb.Retains more) {op : Comparison} {left right : Expr} {a : Atom}
    {l r : Encoding} (first : kb.encodings.get? left = some l)
    (second : kb.encodings.get? right = some r) :
    more.ComparesIn v op left right a ↔ kb.ComparesIn v op left right a := by
  simp only [ComparesIn, retains.showsIn_iff first, retains.showsIn_iff second]

end Retains

section Storing

variable {kb : KnowledgeBase} {v : Valuation} {c d : Clause} {cs : List Clause}

theorem store_frame (kb : KnowledgeBase) (c : Clause) :
    (kb.store c).2 = { kb with clauses := (kb.store c).2.clauses } := by
  unfold store
  split
  · rfl
  · split <;> rfl

theorem storeAll_frame (kb : KnowledgeBase) (cs : List Clause) :
    kb.storeAll cs = { kb with clauses := (kb.storeAll cs).clauses } := by
  induction cs generalizing kb with
  | nil => rfl
  | cons c cs ih =>
    change (kb.store c).2.storeAll cs = { kb with clauses := ((kb.store c).2.storeAll cs).clauses }
    rw [ih, store_frame]

/-- A clause that is stored is normal, and has only literals of the one given. -/
theorem mem_store (h : d ∈ (kb.store c).2.clauses) : d ∈ kb.clauses ∨ d.Normal ∧ ∀ l ∈ d, l ∈ c := by
  unfold store at h
  split at h
  · exact .inl h
  · split at h
    · exact .inl h
    · next normal found =>
      rcases Array.mem_push.mp h with old | rfl
      · exact .inl old
      · obtain ⟨proper, members⟩ := Clause.normalise_some found
        exact .inr ⟨proper, fun l member => List.mem_of_mem_filter ((members l).mp member)⟩

theorem mem_storeAll (h : d ∈ (kb.storeAll cs).clauses) :
    d ∈ kb.clauses ∨ d.Normal ∧ ∃ c ∈ cs, ∀ l ∈ d, l ∈ c := by
  induction cs generalizing kb with
  | nil => exact .inl h
  | cons c cs ih =>
    rcases ih h with before | ⟨normal, e, member, within⟩
    · rcases mem_store before with old | ⟨normal, within⟩
      · exact .inl old
      · exact .inr ⟨normal, c, List.mem_cons_self, within⟩
    · exact .inr ⟨normal, e, List.mem_cons_of_mem _ member, within⟩

/-- A clause with two opposite literals is satisfied. -/
theorem satisfies_of_opposite {l : Literal} (inside : l.atom < v.size) (member : l ∈ c)
    (opposite : -l ∈ c) : v.satisfies c = true := by
  rw [Valuation.satisfies_iff]
  by_cases holds : v.holds l = true
  · exact ⟨l, member, holds⟩
  · exact ⟨-l, opposite, (Valuation.holds_neg_iff inside).mpr holds⟩

/-- What is left of a clause without the literal that never holds says the same. -/
theorem satisfies_filter (top : v.holds Literal.top = true) :
    v.satisfies (c.filter (· != -Literal.top)) = true ↔ v.satisfies c = true := by
  rw [Valuation.satisfies_iff, Valuation.satisfies_iff]
  constructor
  · rintro ⟨l, member, holds⟩
    exact ⟨l, List.mem_of_mem_filter member, holds⟩
  · rintro ⟨l, member, holds⟩
    refine ⟨l, List.mem_filter.mpr ⟨member, bne_iff_ne.mpr ?_⟩, holds⟩
    rintro rfl
    rw [Valuation.not_holds_of_neg holds] at top
    cases top

/-- Storing a clause adds just what it says. -/
theorem all_store (top : v.All kb.clauses.toList → v.holds Literal.top = true) (covers : v.Covers c) :
    v.All (kb.store c).2.clauses.toList ↔ v.All kb.clauses.toList ∧ v.satisfies c = true := by
  unfold store
  split
  · next always =>
    refine ⟨fun all => ⟨all, ?_⟩, fun both => both.1⟩
    exact Valuation.satisfies_iff.mpr ⟨Literal.top, by simpa using always, top all⟩
  · split
    · next tautology =>
      refine ⟨fun all => ⟨all, ?_⟩, fun both => both.1⟩
      obtain ⟨l, member, opposite⟩ := Clause.normalise_none tautology
      exact satisfies_of_opposite (covers l (List.mem_of_mem_filter member))
        (List.mem_of_mem_filter member) (List.mem_of_mem_filter opposite)
    · next normal found =>
      have same : v.satisfies normal = true ↔ v.satisfies (c.filter (· != -Literal.top)) = true := by
        simp only [Valuation.satisfies_iff, (Clause.normalise_some found).2]
      have pushed : v.All (kb.clauses.push normal).toList ↔
          v.All kb.clauses.toList ∧ v.satisfies normal = true := by
        rw [Array.toList_push, Valuation.all_append, Valuation.all_cons]
        simp [Valuation.All]
      refine pushed.trans (and_congr_right fun all => ?_)
      rw [same, satisfies_filter (top all)]

theorem all_storeAll (top : v.All kb.clauses.toList → v.holds Literal.top = true)
    (covers : ∀ c ∈ cs, v.Covers c) :
    v.All (kb.storeAll cs).clauses.toList ↔ v.All kb.clauses.toList ∧ v.All cs := by
  induction cs generalizing kb with
  | nil => simp [storeAll, Valuation.All]
  | cons c cs ih =>
    obtain ⟨first, rest⟩ := List.forall_mem_cons.mp covers
    have stored := all_store top first
    rw [Valuation.all_cons, ← and_assoc, ← stored]
    exact ih (fun all => top (stored.mp all).1) rest

end Storing

end KnowledgeBase

end Clausal
