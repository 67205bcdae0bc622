import Clausal.Proofs.Representation

/-!
One item more. A knowledge base stays faithful when literals are made for an item,
of new atoms, and clauses are stored that say what is to hold of the item.
-/

namespace Clausal.KnowledgeBase

variable {kb more : KnowledgeBase} {added : List (List Expr)} {v : Valuation} {item other : Item}
  {count i a : Nat} {cs : List Clause}

/-- What is to hold of what was compiled in the second knowledge base only. -/
structure Beyond (kb more : KnowledgeBase) (v : Valuation) : Prop where
  shown : ∀ e enc, kb.encodings.get? e = none → more.encodings.get? e = some enc → ∃ n, enc.Shows v n
  sums : ∀ left right enc, kb.encodings.get? (.sum left right) = none →
    more.encodings.get? (.sum left right) = some enc → more.SumsIn v left right enc
  comparisons : ∀ op left right a, kb.comparisons.get? (.compare op left right) = none →
    more.comparisons.get? (.compare op left right) = some a → more.ComparesIn v op left right a

section Consistency

variable (formed : kb.WellFormed) (retains : kb.Retains more)

include formed retains

/-- What holds of all that was compiled holds of what was compiled before. -/
theorem Consistent.before (compiled : ∀ disjuncts ∈ added, ∀ e ∈ disjuncts, ∃ l, kb.literal? e = some l)
    (whole : more.Consistent added v) : kb.Consistent added v := by
  refine ⟨whole.top, ?_, ?_, ?_, ?_⟩
  · exact fun e enc known => whole.shown e enc (retains.encodings e enc known)
  · intro left right enc known
    obtain ⟨l, r, first, second, -⟩ := (formed.encoded _ enc known).2
    exact (retains.sumsIn_iff first second).mp (whole.sums left right enc (retains.encodings _ enc known))
  · intro op left right a known
    obtain ⟨_, _, _, l, r, ⟨⟩, first, second⟩ := formed.compared _ a known
    exact (retains.comparesIn_iff first second).mp
      (whole.comparisons op left right a (retains.comparisons _ a known))
  · intro disjuncts member
    obtain ⟨e, listed, l, found, holds⟩ := whole.added disjuncts member
    obtain ⟨m, known⟩ := compiled disjuncts member e listed
    rw [retains.literal? known, Option.some.injEq] at found
    exact ⟨e, listed, m, known, found ▸ holds⟩

/-- What was compiled before keeps its meaning, so only what is new remains to be looked at. -/
theorem Consistent.extend (old : kb.Consistent added v) (new : kb.Beyond more v) :
    more.Consistent added v := by
  refine ⟨old.top, ?_, ?_, ?_, ?_⟩
  · intro e enc found
    cases known : kb.encodings.get? e with
    | none => exact new.shown e enc known found
    | some before =>
      rw [retains.encodings e before known, Option.some.injEq] at found
      exact old.shown e enc (found ▸ known)
  · intro left right enc found
    cases known : kb.encodings.get? (.sum left right) with
    | none => exact new.sums left right enc known found
    | some before =>
      rw [retains.encodings _ before known, Option.some.injEq] at found
      subst found
      obtain ⟨l, r, first, second, -⟩ := (formed.encoded _ before known).2
      exact (retains.sumsIn_iff first second).mpr (old.sums left right before known)
  · intro op left right a found
    cases known : kb.comparisons.get? (.compare op left right) with
    | none => exact new.comparisons op left right a known found
    | some before =>
      rw [retains.comparisons _ before known, Option.some.injEq] at found
      subst found
      obtain ⟨_, _, _, l, r, ⟨⟩, first, second⟩ := formed.compared _ before known
      exact (retains.comparesIn_iff first second).mpr (old.comparisons op left right before known)
  · intro disjuncts member
    obtain ⟨e, listed, l, found, holds⟩ := old.added disjuncts member
    exact ⟨e, listed, l, retains.literal? found, holds⟩

theorem consistent_iff (compiled : ∀ disjuncts ∈ added, ∀ e ∈ disjuncts, ∃ l, kb.literal? e = some l) :
    more.Consistent added v ↔ kb.Consistent added v ∧ kb.Beyond more v := by
  constructor
  · intro whole
    refine ⟨whole.before formed retains compiled, fun e enc _ found => ?_, fun left right enc _ found => ?_,
      fun op left right a _ found => ?_⟩
    · exact whole.shown e enc found
    · exact whole.sums left right enc found
    · exact whole.comparisons op left right a found
  · rintro ⟨old, new⟩
    exact old.extend formed retains new

end Consistency

/-- In the second knowledge base one item more has literals, those of as many new atoms as given, and
some clauses were stored. The literal of a constant is the one that always holds. -/
structure Adds (kb more : KnowledgeBase) (item : Item) (count : Nat) (cs : List Clause) : Prop where
  retains : kb.Retains more
  config : more.config = kb.config
  atoms : more.atomCount = kb.atomCount + count
  clauses : more.clauses = (kb.storeAll cs).clauses
  new : kb.literals? item = none
  own : more.literals? item = some (freshLiterals kb.atomCount count) ∨
    count = 0 ∧ more.literals? item = some [Literal.top] ∧ ∃ value, item = .integer (.constant value)
  others : ∀ other, other ≠ item → more.literals? other = kb.literals? other
  boolean : ∀ s a, kb.booleans.get? s = none → more.booleans.get? s = some a → s.isBoolean = true
  registered : ∀ e ∈ more.booleans.entries, e ∈ kb.booleans.entries ∨ e.value < more.atomCount
  encoded : ∀ e enc, kb.encodings.get? e = none → more.encodings.get? e = some enc → more.Encodes e enc
  compared : ∀ e a, kb.comparisons.get? e = none → more.comparisons.get? e = some a → more.Compares e
  below : ∀ c ∈ cs, ∀ l ∈ c, l.atom < more.atomCount

theorem WellFormed.owns_lt (formed : kb.WellFormed) (owns : kb.Owns item i a) : a < kb.atomCount := by
  obtain ⟨ls, found, position⟩ := owns
  obtain ⟨b, inside, same⟩ := formed.positive item ls found _ (List.mem_of_getElem? position)
  cases same
  exact inside

namespace Adds

/-- An atom belongs to the new item exactly if it is new. -/
theorem owns (adds : kb.Adds more item count cs) (positive : 0 < a) (h : more.Owns other i a) :
    (other = item ∧ i < count ∧ a = kb.atomCount + i) ∨ other ≠ item ∧ kb.Owns other i a := by
  by_cases same : other = item
  · subst same
    obtain ⟨ls, found, position⟩ := h
    rcases adds.own with fresh | ⟨-, constant, -⟩
    · rw [fresh, Option.some.injEq] at found
      rw [← found, getElem?_freshLiterals] at position
      obtain ⟨inside, equal⟩ := position
      cases equal
      exact .inl ⟨rfl, inside, rfl⟩
    · rw [constant, Option.some.injEq] at found
      rw [← found] at position
      have top := List.mem_singleton.mp (List.mem_of_getElem? position)
      cases top
      exact absurd positive (Nat.lt_irrefl 0)
  · obtain ⟨ls, found, position⟩ := h
    rw [adds.others other same] at found
    exact .inr ⟨same, ls, found, position⟩

theorem positive (adds : kb.Adds more item count cs) (formed : kb.WellFormed) {ls : List Literal}
    (found : more.literals? other = some ls) : ∀ l ∈ ls, ∃ a < more.atomCount, l = .positive a := by
  have larger : kb.atomCount ≤ more.atomCount := adds.retains.atoms
  intro l member
  by_cases same : other = item
  · subst same
    rcases adds.own with fresh | ⟨-, constant, -⟩
    · rw [fresh, Option.some.injEq] at found
      obtain ⟨i, inside, rfl⟩ := mem_freshLiterals.mp (found ▸ member)
      exact ⟨_, by rw [adds.atoms]; exact Nat.add_lt_add_left inside _, rfl⟩
    · rw [constant, Option.some.injEq] at found
      obtain rfl := List.mem_singleton.mp (found ▸ member)
      exact ⟨0, Nat.lt_of_lt_of_le formed.nonempty larger, rfl⟩
  · rw [adds.others other same] at found
    obtain ⟨b, inside, equal⟩ := formed.positive other ls found l member
    exact ⟨b, Nat.lt_of_lt_of_le inside larger, equal⟩

theorem top (adds : kb.Adds more item count cs) (formed : kb.WellFormed) {ls : List Literal}
    (found : more.literals? other = some ls) (member : Literal.top ∈ ls) :
    ∃ value, other = .integer (.constant value) := by
  by_cases same : other = item
  · subst same
    rcases adds.own with fresh | ⟨-, -, constant⟩
    · rw [fresh, Option.some.injEq] at found
      obtain ⟨i, -, equal⟩ := mem_freshLiterals.mp (found ▸ member)
      have zero : 0 = kb.atomCount + i := congrArg Literal.atom equal
      have nonempty := formed.nonempty
      omega
    · exact constant
  · rw [adds.others other same] at found
    exact formed.top other ls found member

theorem covered (adds : kb.Adds more item count cs) (formed : kb.WellFormed) (positive : 0 < a)
    (inside : a < more.atomCount) : ∃ other i, more.Owns other i a := by
  rcases Nat.lt_or_ge a kb.atomCount with old | new
  · obtain ⟨other, i, ls, found, position⟩ := formed.covered a positive old
    have apart : other ≠ item := by
      rintro rfl
      rw [adds.new] at found
      cases found
    exact ⟨other, i, ls, (adds.others other apart).trans found, position⟩
  · rw [adds.atoms] at inside
    rcases adds.own with fresh | ⟨nothing, -, -⟩
    · refine ⟨item, a - kb.atomCount, _, fresh, getElem?_freshLiterals.mpr ⟨by omega, ?_⟩⟩
      rw [Nat.add_sub_cancel' new]
    · omega

theorem unique (adds : kb.Adds more item count cs) (formed : kb.WellFormed) (positive : 0 < a)
    {x y : Item} {j : Nat} (first : more.Owns x i a) (second : more.Owns y j a) : x = y ∧ i = j := by
  rcases adds.owns positive first with ⟨rfl, -, here⟩ | ⟨apart, old⟩
  · rcases adds.owns positive second with ⟨rfl, -, there⟩ | ⟨-, before⟩
    · exact ⟨rfl, by omega⟩
    · have small := formed.owns_lt before
      omega
  · rcases adds.owns positive second with ⟨rfl, -, there⟩ | ⟨-, before⟩
    · have small := formed.owns_lt old
      omega
    · exact formed.unique a positive x i y j old before

/-- One item more keeps a knowledge base well formed. -/
theorem wellFormed (adds : kb.Adds more item count cs) (formed : kb.WellFormed) : more.WellFormed := by
  have larger : kb.atomCount ≤ more.atomCount := adds.retains.atoms
  refine ⟨Nat.lt_of_lt_of_le formed.nonempty larger, fun other ls found => adds.positive formed found,
    fun other ls found => adds.top formed found, fun a => adds.covered formed,
    fun a positive x i y j => adds.unique formed positive, fun s a found => ?_, fun e member => ?_,
    fun e enc found => ?_, fun e a found => ?_, fun c member l listed => ?_, fun c member => ?_⟩
  · cases known : kb.booleans.get? s with
    | none => exact adds.boolean s a known found
    | some b => exact formed.boolean s b known
  · rcases adds.registered e member with old | inside
    · exact Nat.lt_of_lt_of_le (formed.registered e old) larger
    · exact inside
  · cases known : kb.encodings.get? e with
    | none => exact adds.encoded e enc known found
    | some before =>
      rw [adds.retains.encodings e before known, Option.some.injEq] at found
      exact adds.retains.encodes (formed.encoded e enc (found ▸ known))
  · cases known : kb.comparisons.get? e with
    | none => exact adds.compared e a known found
    | some b => exact adds.retains.compares (formed.compared e b known)
  · rw [adds.clauses] at member
    rcases mem_storeAll member with old | ⟨-, d, inside, within⟩
    · exact Nat.lt_of_lt_of_le (formed.below c old l listed) larger
    · exact adds.below d inside l (within l listed)
  · rw [adds.clauses] at member
    rcases mem_storeAll member with old | ⟨normal, -⟩
    · exact formed.normal c old
    · exact normal

/-- A knowledge base stays faithful if the clauses say what is to hold of the new item. -/
theorem faithful (adds : kb.Adds more item count cs) (before : kb.Faithful added)
    (express : ∀ v : Valuation, more.atomCount ≤ v.size → kb.Consistent added v →
      (v.All cs ↔ kb.Beyond more v)) : more.Faithful added := by
  refine ⟨adds.wellFormed before.toWellFormed, ?_, ?_⟩
  · intro disjuncts member e listed
    obtain ⟨l, found⟩ := before.compiled disjuncts member e listed
    exact ⟨l, adds.retains.literal? found⟩
  · intro v large
    have old := before.meaning v (Nat.le_trans adds.retains.atoms large)
    have covers : ∀ c ∈ cs, v.Covers c := fun c member l listed =>
      Nat.lt_of_lt_of_le (adds.below c member l listed) large
    rw [adds.clauses, all_storeAll (fun all => (old.mp all).top) covers, old,
      consistent_iff before.toWellFormed adds.retains before.compiled]
    exact and_congr_right (express v large)

end Adds

/-- A key is not both unknown and known. -/
private theorem known_elim {κ α : Type} [Hashable κ] [BEq κ] {t : Table κ α} {key : κ} {x : α} {P : Prop}
    (unknown : t.get? key = none) (known : t.get? key = some x) : P := by
  rw [unknown] at known
  cases known

section Boolean

variable {s : Symbol} {o : Origin}

/-- A boolean symbol more, with an atom of its own. -/
def withBoolean (kb : KnowledgeBase) (s : Symbol) (o : Origin) : KnowledgeBase :=
  { kb with origins := kb.origins.push o, booleans := kb.booleans.insert s kb.atomCount }

theorem get?_withBoolean (t : Symbol) : (kb.withBoolean s o).booleans.get? t =
    if t = s then some kb.atomCount else kb.booleans.get? t := Table.get?_insert _ _ _ _

theorem adds_boolean (o : Origin) (new : kb.booleans.get? s = none) (boolean : s.isBoolean = true) :
    kb.Adds (kb.withBoolean s o) (.boolean s) 1 [] := by
  refine ⟨⟨by simp [withBoolean, atomCount], fun t a known => ?_, fun _ _ => id, fun _ _ => id⟩, rfl,
    by simp [withBoolean, atomCount], rfl, by simp [literals?, new], .inl ?_, fun other apart => ?_,
    fun t a unknown known => ?_, fun e member => ?_, fun e enc unknown known => known_elim unknown known,
    fun e a unknown known => known_elim unknown known, by simp⟩
  · have different : t ≠ s := by
      rintro rfl
      exact known_elim new known
    rw [get?_withBoolean, if_neg different, known]
  · rw [literals?, get?_withBoolean, if_pos rfl]
    rfl
  · cases other with
    | boolean t =>
      have different : t ≠ s := fun same => apart (congrArg Item.boolean same)
      rw [literals?, get?_withBoolean, if_neg different, literals?]
    | integer e => rfl
    | comparison e => rfl
  · by_cases same : t = s
    · exact same ▸ boolean
    · rw [get?_withBoolean, if_neg same] at known
      exact known_elim unknown known
  · rcases List.mem_cons.mp member with rfl | old
    · exact .inr (by simp [withBoolean, atomCount, Table.Entry.of])
    · exact .inl old

/-- Nothing is to hold of a boolean symbol. -/
theorem Faithful.withBoolean (faithful : kb.Faithful added) (o : Origin)
    (new : kb.booleans.get? s = none) (boolean : s.isBoolean = true) :
    (kb.withBoolean s o).Faithful added := by
  refine (adds_boolean o new boolean).faithful faithful fun v _ _ => iff_of_true (by simp [Valuation.All]) ?_
  exact ⟨fun e enc unknown known => known_elim unknown known,
    fun left right enc unknown known => known_elim unknown known,
    fun op left right a unknown known => known_elim unknown known⟩

end Boolean

section Integer

variable {e : Expr} {enc : Encoding} {os : List Origin}

/-- An integer expression more, with new atoms and definitional clauses. -/
def withEncoding (kb : KnowledgeBase) (e : Expr) (enc : Encoding) (os : List Origin) (cs : List Clause) :
    KnowledgeBase :=
  { kb with
    origins := kb.origins ++ os
    clauses := (kb.storeAll cs).clauses
    encodings := kb.encodings.insert e enc }

theorem get?_withEncoding (f : Expr) : (kb.withEncoding e enc os cs).encodings.get? f =
    if f = e then some enc else kb.encodings.get? f := Table.get?_insert _ _ _ _

theorem atomCount_withEncoding : (kb.withEncoding e enc os cs).atomCount = kb.atomCount + os.length := by
  simp [withEncoding, atomCount, ← Array.length_toList]

/-- The indicators of an encoding are on new atoms, or it is of a constant. -/
def Indicates (kb : KnowledgeBase) (e : Expr) (enc : Encoding) (os : List Origin) : Prop :=
  enc.indicators = freshLiterals kb.atomCount os.length ∨
    os = [] ∧ ∃ value, e = .constant value ∧ enc = Build.encodeConstant value

theorem adds_encoding (new : kb.encodings.get? e = none) (indicates : kb.Indicates e enc os)
    (encodes : kb.Encodes e enc) (below : ∀ c ∈ cs, ∀ l ∈ c, l.atom < kb.atomCount + os.length) :
    kb.Adds (kb.withEncoding e enc os cs) (.integer e) os.length cs := by
  have retains : kb.Retains (kb.withEncoding e enc os cs) := by
    refine ⟨by simp [atomCount_withEncoding], fun _ _ => id, fun f other known => ?_, fun _ _ => id⟩
    have different : f ≠ e := by
      rintro rfl
      exact known_elim new known
    rw [get?_withEncoding, if_neg different, known]
  refine ⟨retains, rfl, atomCount_withEncoding, rfl, by simp [literals?, new], ?_,
    fun other apart => ?_, fun t a unknown known => known_elim unknown known, fun f member => .inl member,
    fun f other unknown known => ?_, fun f a unknown known => known_elim unknown known,
    by rwa [atomCount_withEncoding]⟩
  · rw [literals?, get?_withEncoding, if_pos rfl]
    rcases indicates with fresh | ⟨rfl, value, rfl, rfl⟩
    · exact .inl (congrArg some fresh)
    · exact .inr ⟨rfl, rfl, value, rfl⟩
  · cases other with
    | boolean t => rfl
    | integer f =>
      have different : f ≠ e := fun same => apart (congrArg Item.integer same)
      rw [literals?, get?_withEncoding, if_neg different, literals?]
    | comparison f => rfl
  · by_cases same : f = e
    · subst same
      rw [get?_withEncoding, if_pos rfl, Option.some.injEq] at known
      exact known ▸ retains.encodes encodes
    · rw [get?_withEncoding, if_neg same] at known
      exact known_elim unknown known

/-- Of an integer expression it is to hold that it shows a value, and if it is a sum, the right one. -/
theorem Faithful.withEncoding (faithful : kb.Faithful added) (new : kb.encodings.get? e = none)
    (indicates : kb.Indicates e enc os) (encodes : kb.Encodes e enc)
    (below : ∀ c ∈ cs, ∀ l ∈ c, l.atom < kb.atomCount + os.length)
    (express : ∀ v : Valuation, kb.atomCount + os.length ≤ v.size → kb.Consistent added v →
      (v.All cs ↔ (∃ n, enc.Shows v n) ∧ ∀ left right, e = .sum left right → kb.SumsIn v left right enc)) :
    (kb.withEncoding e enc os cs).Faithful added := by
  have adds := adds_encoding new indicates encodes below
  refine adds.faithful faithful fun v large consistent => ?_
  rw [express v (adds.atoms ▸ large) consistent]
  have sums : ∀ left right, e = .sum left right →
      ((kb.withEncoding e enc os cs).SumsIn v left right enc ↔ kb.SumsIn v left right enc) := by
    rintro left right rfl
    obtain ⟨l, r, first, second, -⟩ := encodes.2
    exact adds.retains.sumsIn_iff first second
  constructor
  · rintro ⟨shown, rule⟩
    refine ⟨fun f other unknown known => ?_, fun left right other unknown known => ?_,
      fun op left right a unknown known => known_elim unknown known⟩
    · by_cases same : f = e
      · rw [get?_withEncoding, if_pos same, Option.some.injEq] at known
        exact known ▸ shown
      · rw [get?_withEncoding, if_neg same] at known
        exact known_elim unknown known
    · by_cases same : .sum left right = e
      · rw [get?_withEncoding, if_pos same, Option.some.injEq] at known
        exact known ▸ (sums left right same.symm).mpr (rule left right same.symm)
      · rw [get?_withEncoding, if_neg same] at known
        exact known_elim unknown known
  · intro beyond
    have own : (kb.withEncoding e enc os cs).encodings.get? e = some enc := by
      rw [get?_withEncoding, if_pos rfl]
    refine ⟨beyond.shown e enc new own, ?_⟩
    rintro left right rfl
    exact (sums left right rfl).mp (beyond.sums left right enc new own)

end Integer

section Comparison

variable {op : Comparison} {left right : Expr} {l r : Encoding} {o : Origin}

/-- A comparison more, with an atom of its own and definitional clauses. -/
def withComparison (kb : KnowledgeBase) (e : Expr) (o : Origin) (cs : List Clause) : KnowledgeBase :=
  { kb with
    origins := kb.origins.push o
    clauses := (kb.storeAll cs).clauses
    comparisons := kb.comparisons.insert e kb.atomCount }

theorem get?_withComparison {e : Expr} (f : Expr) : (kb.withComparison e o cs).comparisons.get? f =
    if f = e then some kb.atomCount else kb.comparisons.get? f := Table.get?_insert _ _ _ _

theorem adds_comparison {e : Expr} (o : Origin) (new : kb.comparisons.get? e = none)
    (compares : kb.Compares e) (below : ∀ c ∈ cs, ∀ l ∈ c, l.atom < kb.atomCount + 1) :
    kb.Adds (kb.withComparison e o cs) (.comparison e) 1 cs := by
  have retains : kb.Retains (kb.withComparison e o cs) := by
    refine ⟨by simp [withComparison, atomCount], fun _ _ => id, fun _ _ => id, fun f a known => ?_⟩
    have different : f ≠ e := by
      rintro rfl
      exact known_elim new known
    rw [get?_withComparison, if_neg different, known]
  refine ⟨retains, rfl, by simp [withComparison, atomCount], rfl, by simp [literals?, new], .inl ?_,
    fun other apart => ?_, fun t a unknown known => known_elim unknown known, fun f member => .inl member,
    fun f other unknown known => known_elim unknown known, fun f a unknown known => ?_,
    by simpa [withComparison, atomCount] using below⟩
  · rw [literals?, get?_withComparison, if_pos rfl]
    rfl
  · cases other with
    | boolean t => rfl
    | integer f => rfl
    | comparison f =>
      have different : f ≠ e := fun same => apart (congrArg Item.comparison same)
      rw [literals?, get?_withComparison, if_neg different, literals?]
  · by_cases same : f = e
    · subst same
      exact retains.compares compares
    · rw [get?_withComparison, if_neg same] at known
      exact known_elim unknown known

/-- Of a comparison it is to hold that its atom is true exactly if the comparison holds. -/
theorem Faithful.withComparison (faithful : kb.Faithful added) (o : Origin)
    (new : kb.comparisons.get? (.compare op left right) = none)
    (first : kb.encodings.get? left = some l) (second : kb.encodings.get? right = some r)
    (below : ∀ c ∈ cs, ∀ l ∈ c, l.atom < kb.atomCount + 1)
    (express : ∀ v : Valuation, kb.atomCount + 1 ≤ v.size → kb.Consistent added v →
      (v.All cs ↔ kb.ComparesIn v op left right kb.atomCount)) :
    (kb.withComparison (.compare op left right) o cs).Faithful added := by
  have adds := adds_comparison o new ⟨op, left, right, l, r, rfl, first, second⟩ below
  refine adds.faithful faithful fun v large consistent => ?_
  rw [express v (adds.atoms ▸ large) consistent, ← adds.retains.comparesIn_iff first second]
  constructor
  · intro rule
    refine ⟨fun f other unknown known => known_elim unknown known,
      fun x y other unknown known => known_elim unknown known, fun op' x y a unknown known => ?_⟩
    by_cases same : Expr.compare op' x y = .compare op left right
    · rw [get?_withComparison, if_pos same, Option.some.injEq] at known
      cases same
      exact known ▸ rule
    · rw [get?_withComparison, if_neg same] at known
      exact known_elim unknown known
  · intro beyond
    exact beyond.comparisons op left right kb.atomCount new (by rw [get?_withComparison, if_pos rfl])

end Comparison

end Clausal.KnowledgeBase
