import Clausal.Proofs.Sources

/-!
What adding numbers does to symbols and atoms. A session makes a symbol for each name
that is new to it, and a knowledge base an atom for each symbol that is new to it. So
nothing changes for a name that no number has, each number gets a symbol and an atom,
and from nothing on symbols and atoms stand in the order in which the numbers occur.
Main statements: `addNumbers_registers`, `addNumbers_meaning` and `addNumbers_fresh`.
-/

namespace Clausal

open Dimacs

section Occurrences

variable {α β : Type} [DecidableEq α] [DecidableEq β] {l : List α}

/-- Of elements without repetition, in the order in which they occur, one more is at the end if it is new. -/
theorem eraseDups_concat (l : List α) (a : α) :
    (l ++ [a]).eraseDups = if a ∈ l then l.eraseDups else l.eraseDups ++ [a] := by
  have single : [a].eraseDups = [a] := by
    rw [List.eraseDups_cons, List.filter_nil, List.eraseDups_nil]
  rw [List.eraseDups_append]
  by_cases old : a ∈ l
  · simp [List.removeAll, old]
  · simp [List.removeAll, old, single]

theorem nodup_eraseDups (l : List α) : l.eraseDups.Nodup := by
  induction l using List.reverseRecOn with
  | nil => simp
  | append_singleton l a ih =>
    rw [eraseDups_concat]
    by_cases old : a ∈ l
    · rwa [if_pos old]
    · rw [if_neg old]
      have new : ∀ b ∈ l, b ≠ a := fun b member same => old (same ▸ member)
      simpa [List.nodup_append, ih] using new

theorem eraseDups_map {f : α → β} (injective : Set.InjOn f {a | a ∈ l}) :
    (l.map f).eraseDups = l.eraseDups.map f := by
  induction l using List.reverseRecOn with
  | nil => rfl
  | append_singleton l a ih =>
    have inside : {b | b ∈ l} ⊆ {b | b ∈ l ++ [a]} := fun b member => List.mem_append_left _ member
    have known : f a ∈ l.map f ↔ a ∈ l := by
      constructor
      · intro member
        obtain ⟨b, old, same⟩ := List.mem_map.mp member
        rwa [← injective (inside old) (List.mem_append_right _ (List.mem_singleton_self a)) same]
      · exact List.mem_map_of_mem
    rw [List.map_append, List.map_singleton, eraseDups_concat, eraseDups_concat, ih (injective.mono inside)]
    by_cases old : a ∈ l
    · rw [if_pos (known.mpr old), if_pos old]
    · rw [if_neg (mt known.mp old), if_neg old, List.map_append, List.map_singleton]

/-- A map that takes no other element to the same place finds an element in the place that it has. -/
theorem idxOf_map {f : α → β} {a : α} (apart : ∀ b ∈ l, f b = f a → b = a) :
    (l.map f).idxOf (f a) = l.idxOf a := by
  induction l with
  | nil => rfl
  | cons b l ih =>
    obtain ⟨first, rest⟩ := List.forall_mem_cons.mp apart
    rw [List.map_cons, List.idxOf_cons, List.idxOf_cons, ih rest]
    by_cases same : b = a
    · simp [same]
    · have different : (f b == f a) = false := beq_eq_false_iff_ne.mpr fun equal => same (first equal)
      rw [different, beq_eq_false_iff_ne.mpr same]

end Occurrences

section Interning

variable {session last : Session} {name : String} {s : Symbol} {before : List Symbol}

/-- A symbol that is had for a name is boolean, and was made if there was none. -/
theorem Session.boolean_ok (result : session.boolean name = (.ok s, last)) :
    s.name = name ∧ s.isBoolean = true ∧ ((session.get? name = some s ∧ last = session) ∨
      (session.get? name = none ∧ last = { session with symbols := session.symbols ++ [s] })) := by
  unfold boolean intern at result
  split at result
  · next symbol found =>
    have named : symbol.name = name := by simpa using List.find?_some found
    obtain ⟨kind, rfl⟩ := Prod.mk.injEq .. ▸ result
    split at kind
    · next admits =>
      cases kind
      refine ⟨named, ?_, .inl ⟨found, rfl⟩⟩
      unfold Symbol.isBoolean
      revert admits
      cases s.kind <;> simp [Kind.admits]
    · cases kind
  · next unknown =>
    cases result
    exact ⟨rfl, rfl, .inr ⟨unknown, rfl⟩⟩

/-- A symbol is refused for a conflict of kinds only. -/
theorem Session.boolean_error {cause : Error} (result : session.boolean name = (.error cause, last)) :
    cause = .kindConflict name := by
  unfold boolean intern at result
  split at result
  · obtain ⟨kind, -⟩ := Prod.mk.injEq .. ▸ result
    split at kind
    · cases kind
    · exact (Except.error.inj kind).symm
  · cases result

theorem Session.get?_boolean (result : session.boolean name = (.ok s, last)) (other : String) :
    last.get? other = if other = name then some s else session.get? other := by
  obtain ⟨named, -, ⟨found, rfl⟩ | ⟨unknown, rfl⟩⟩ := boolean_ok result
  · by_cases same : other = name
    · rw [if_pos same, same, found]
    · rw [if_neg same]
  · unfold get? at unknown ⊢
    by_cases same : other = name
    · rw [if_pos same, same, List.find?_append, unknown]
      simp [named]
    · rw [if_neg same, List.find?_append]
      simp [named, Ne.symm same]

/-- A name that has a symbol keeps it. -/
theorem Session.boolean_kept (result : session.boolean name = (.ok s, last)) {other : String} {t : Symbol}
    (known : session.get? other = some t) : last.get? other = some t := by
  rw [get?_boolean result]
  by_cases same : other = name
  · obtain ⟨-, -, ⟨old, -⟩ | ⟨new, -⟩⟩ := boolean_ok result
    · rw [if_pos same, ← old, ← same, known]
    · rw [same, new] at known
      cases known
  · rw [if_neg same, known]

theorem Session.symbols_boolean (result : session.boolean name = (.ok s, last))
    (symbols : session.symbols = before.eraseDups) : last.symbols = (before ++ [s]).eraseDups := by
  obtain ⟨named, -, ⟨found, rfl⟩ | ⟨unknown, rfl⟩⟩ := boolean_ok result
  · have member : s ∈ before := by
      rw [← List.mem_eraseDups, ← symbols]
      exact List.mem_of_find?_eq_some found
    rw [eraseDups_concat, if_pos member, symbols]
  · have new : s ∉ before := by
      intro member
      rw [← List.mem_eraseDups, ← symbols] at member
      have differs := List.find?_eq_none.mp unknown s member
      simp [named] at differs
    rw [eraseDups_concat, if_neg new, ← symbols]

end Interning

namespace Dimacs

section Naming

variable {session last : Session} {s : Symbol}

/-- What the symbols of some numbers are, in the session after these were read. -/
structure Named (session last : Session) (ps : List (Symbol × Int)) : Prop where
  known : ∀ p ∈ ps, last.get? (toString p.2.natAbs) = some p.1
  boolean : ∀ p ∈ ps, p.1.isBoolean = true
  others : ∀ name, (∀ p ∈ ps, toString p.2.natAbs ≠ name) → last.get? name = session.get? name
  kept : ∀ name s, session.get? name = some s → last.get? name = some s
  symbols : ∀ before : List Symbol, session.symbols = before.eraseDups →
    last.symbols = (before ++ ps.map Prod.fst).eraseDups

theorem Named.nil (session : Session) : Named session session [] :=
  ⟨by simp, by simp, fun _ _ => rfl, fun _ _ => id, fun before symbols => by simpa using symbols⟩

theorem Named.append {first mid : Session} {ps qs : List (Symbol × Int)} (one : Named first mid ps)
    (two : Named mid last qs) : Named first last (ps ++ qs) := by
  refine ⟨?_, ?_, fun name apart => ?_, fun name s found => ?_, fun before symbols => ?_⟩
  · exact List.forall_mem_append.mpr ⟨fun p member => two.kept _ _ (one.known p member), two.known⟩
  · exact List.forall_mem_append.mpr ⟨one.boolean, two.boolean⟩
  · obtain ⟨apart, apart'⟩ := List.forall_mem_append.mp apart
    rw [two.others name apart', one.others name apart]
  · exact two.kept name s (one.kept name s found)
  · rw [two.symbols _ (one.symbols before symbols), List.append_assoc, List.map_append]

theorem Named.singleton {n : Int} (result : session.boolean (toString n.natAbs) = (.ok s, last)) :
    Named session last [(s, n)] := by
  have found := Session.get?_boolean result
  obtain ⟨-, boolean, -⟩ := Session.boolean_ok result
  refine ⟨?_, by simpa using boolean, fun name apart => ?_, fun name t => Session.boolean_kept result,
    fun before symbols => ?_⟩
  · simp [found]
  · have different : name ≠ toString n.natAbs := by
      simpa [eq_comm] using apart
    rw [found, if_neg different]
  · exact Session.symbols_boolean result symbols

/-- The name of the symbol of a number is the absolute value. -/
theorem Named.name {ps : List (Symbol × Int)} (named : Named session last ps) :
    ∀ p ∈ ps, p.1.name = toString p.2.natAbs := by
  intro p member
  simpa using List.find?_some (named.known p member)

/-- The disjuncts of some numbers with their symbols. -/
def disjuncts (ps : List (Symbol × Int)) : List Expr := ps.map fun p => signed p.1 p.2

/-- By induction on the numbers: each gets its symbol. -/
theorem literals_named {c : List Int} {es : List Expr} (result : literals session c = .ok (es, last)) :
    ∃ ps, ps.map Prod.snd = c ∧ es = disjuncts ps ∧ Named session last ps := by
  induction c generalizing session es with
  | nil =>
    cases result
    exact ⟨[], rfl, rfl, .nil _⟩
  | cons n c ih =>
    rw [literals] at result
    split at result
    · cases result
    · next s mid made =>
      obtain ⟨⟨rest, last'⟩, later, same⟩ := Reader.bind_eq_ok.mp result
      cases same
      obtain ⟨ps, numbers, rfl, named⟩ := ih later
      exact ⟨(s, n) :: ps, by rw [List.map_cons, numbers], rfl, (Named.singleton made).append named⟩

end Naming

end Dimacs

section Atoms

variable {kb more : KnowledgeBase} {s t : Symbol} {n : Int} {a : Atom} {ss : List Symbol}
  {ps : List (Symbol × Int)}

namespace KnowledgeBase

/-- A knowledge base with an atom for a symbol: a new one if there is none yet. -/
def withSymbol (kb : KnowledgeBase) (s : Symbol) : KnowledgeBase :=
  match kb.booleans.get? s with
  | some _ => kb
  | none => kb.withBoolean s (.boolean s)

def withSymbols (kb : KnowledgeBase) (ss : List Symbol) : KnowledgeBase := ss.foldl withSymbol kb

theorem withSymbol_of_some (known : kb.booleans.get? s = some a) : kb.withSymbol s = kb := by
  rw [withSymbol, known]

theorem withSymbol_of_none (unknown : kb.booleans.get? s = none) :
    kb.withSymbol s = kb.withBoolean s (.boolean s) := by
  rw [withSymbol, unknown]

theorem get?_withSymbol_of_ne (different : t ≠ s) : (kb.withSymbol s).booleans.get? t = kb.booleans.get? t := by
  cases known : kb.booleans.get? s with
  | some a => rw [withSymbol_of_some known]
  | none => rw [withSymbol_of_none known, get?_withBoolean, if_neg different]

theorem get?_withSymbol_self (kb : KnowledgeBase) (s : Symbol) : ((kb.withSymbol s).booleans.get? s).isSome := by
  cases known : kb.booleans.get? s with
  | some a => simp [withSymbol_of_some known, known]
  | none => simp [withSymbol_of_none known, get?_withBoolean]

theorem get?_withSymbol_kept (known : kb.booleans.get? t = some a) :
    (kb.withSymbol s).booleans.get? t = some a := by
  by_cases same : t = s
  · subst same
    rw [withSymbol_of_some known, known]
  · rw [get?_withSymbol_of_ne same, known]

theorem get?_withSymbols_of_notMem (out : t ∉ ss) : (kb.withSymbols ss).booleans.get? t = kb.booleans.get? t := by
  induction ss generalizing kb with
  | nil => rfl
  | cons s ss ih =>
    obtain ⟨different, later⟩ := not_or.mp (mt List.mem_cons.mpr out)
    show ((kb.withSymbol s).withSymbols ss).booleans.get? t = _
    rw [ih later, get?_withSymbol_of_ne different]

theorem get?_withSymbols_kept (known : kb.booleans.get? t = some a) :
    (kb.withSymbols ss).booleans.get? t = some a := by
  induction ss generalizing kb with
  | nil => exact known
  | cons s ss ih => exact ih (get?_withSymbol_kept known)

theorem get?_withSymbols_of_mem (member : s ∈ ss) : ((kb.withSymbols ss).booleans.get? s).isSome := by
  induction ss generalizing kb with
  | nil => cases member
  | cons t ss ih =>
    rcases List.mem_cons.mp member with rfl | later
    · obtain ⟨a, known⟩ := Option.isSome_iff_exists.mp (kb.get?_withSymbol_self s)
      show (((kb.withSymbol s).withSymbols ss).booleans.get? s).isSome
      rw [get?_withSymbols_kept known]
      rfl
    · exact ih later

/-- Symbols get their atoms whatever the clauses are. -/
theorem withSymbols_clauses (cs : Formula) : ({ kb with clauses := cs } : KnowledgeBase).withSymbols ss =
    { kb.withSymbols ss with clauses := cs } := by
  induction ss generalizing kb with
  | nil => rfl
  | cons s ss ih =>
    have one : ({ kb with clauses := cs } : KnowledgeBase).withSymbol s = { kb.withSymbol s with clauses := cs } := by
      show (match kb.booleans.get? s with | some _ => _ | none => _) = _
      cases known : kb.booleans.get? s with
      | some a => rw [withSymbol_of_some known]
      | none =>
        rw [withSymbol_of_none known]
        rfl
    show (({ kb with clauses := cs } : KnowledgeBase).withSymbol s).withSymbols ss = _
    rw [one, ih]
    rfl

theorem clauses_withSymbols : (kb.withSymbols ss).clauses = kb.clauses := by
  have same : kb.withSymbols ss = { kb.withSymbols ss with clauses := kb.clauses } := withSymbols_clauses kb.clauses
  rw [same]

theorem withSymbols_append (kb : KnowledgeBase) (ss ts : List Symbol) :
    kb.withSymbols (ss ++ ts) = (kb.withSymbols ss).withSymbols ts := List.foldl_append

/-- The literal of a number is on the atom of its symbol, with the sign as polarity. -/
theorem literal?_signed (kb : KnowledgeBase) (s : Symbol) (n : Int) :
    kb.literal? (signed s n) = (kb.booleans.get? s).map fun a => ⟨a, decide (0 < n)⟩ := by
  unfold signed
  by_cases positive : 0 < n
  · rw [if_pos positive, literal?, decide_eq_true positive]
    rfl
  · rw [if_neg positive, literal?, literal?, Option.map_map, decide_eq_false positive]
    rfl

end KnowledgeBase

namespace Build

theorem booleanAtom_withSymbol (made : (booleanAtom s).Yields kb a more) :
    more = kb.withSymbol s ∧ more.booleans.get? s = some a := by
  simp only [booleanAtom, yields_bind, yields_get] at made
  obtain ⟨old, same, ⟨rfl, rfl⟩, made⟩ := made
  split at made
  · next known =>
    obtain ⟨rfl, rfl⟩ := yields_pure.mp made
    exact ⟨(KnowledgeBase.withSymbol_of_some known).symm, known⟩
  · next unknown =>
    simp only [yields_bind, yields_modify, yields_pure] at made
    obtain ⟨b, mid, fresh, _, last, rfl, rfl, rfl⟩ := made
    obtain ⟨rfl, rfl, -⟩ := freshAtom_yields fresh
    exact ⟨(KnowledgeBase.withSymbol_of_none unknown).symm, (KnowledgeBase.get?_withBoolean s).trans (if_pos rfl)⟩

theorem literalOf_signed {l : Literal} (boolean : s.isBoolean = true)
    (made : (literalOf (signed s n)).Yields kb l more) :
    more = kb.withSymbol s ∧ more.literal? (signed s n) = some l := by
  have plain : ∀ {m : Literal}, (literalOf (.symbol s)).Yields kb m more →
      more = kb.withSymbol s ∧ more.literal? (.symbol s) = some m := by
    intro m made
    rw [literalOf, if_pos boolean] at made
    simp only [yields_bind, yields_pure] at made
    obtain ⟨a, mid, made, rfl, rfl⟩ := made
    obtain ⟨same, known⟩ := booleanAtom_withSymbol made
    exact ⟨same, by rw [KnowledgeBase.literal?, known, Option.map_some]⟩
  unfold signed at made ⊢
  by_cases positive : 0 < n
  · rw [if_pos positive] at made ⊢
    exact plain made
  · rw [if_neg positive] at made ⊢
    simp only [literalOf, yields_bind, yields_pure] at made
    obtain ⟨m, mid, made, rfl, rfl⟩ := made
    obtain ⟨same, known⟩ := plain (by simpa only [literalOf] using made)
    exact ⟨same, by rw [KnowledgeBase.literal?, known, Option.map_some]⟩

theorem mapM_signed {c : Clause} (boolean : ∀ p ∈ ps, p.1.isBoolean = true)
    (made : ((disjuncts ps).mapM literalOf).Yields kb c more) :
    more = kb.withSymbols (ps.map Prod.fst) ∧ (disjuncts ps).map more.literal? = c.map some := by
  induction ps generalizing kb c with
  | nil =>
    obtain ⟨rfl, rfl⟩ := yields_pure.mp made
    exact ⟨rfl, rfl⟩
  | cons p ps ih =>
    obtain ⟨first, later⟩ := List.forall_mem_cons.mp boolean
    rw [disjuncts, List.map_cons, List.mapM_cons] at made
    simp only [yields_bind, yields_pure] at made
    obtain ⟨l, mid, one, c', last, rest, rfl, rfl⟩ := made
    obtain ⟨rfl, known⟩ := literalOf_signed first one
    obtain ⟨same, all⟩ := ih later rest
    refine ⟨same, ?_⟩
    have kept : more.literal? (signed p.1 p.2) = some l := by
      rw [KnowledgeBase.literal?_signed] at known ⊢
      obtain ⟨a, found, rfl⟩ := Option.map_eq_some_iff.mp known
      rw [same, KnowledgeBase.get?_withSymbols_kept found, Option.map_some]
    rw [disjuncts, List.map_cons, List.map_cons, List.map_cons, kept, ← all, disjuncts]

end Build

/-- What adding the disjuncts of some numbers does: their symbols get atoms, and one clause is stored. -/
theorem KnowledgeBase.add_signed {stored : Stored} (boolean : ∀ p ∈ ps, p.1.isBoolean = true)
    (result : kb.add (disjuncts ps) = (.ok stored, more)) : ∃ c,
      (disjuncts ps).map (kb.withSymbols (ps.map Prod.fst)).literal? = c.map some ∧
      more = ((kb.withSymbols (ps.map Prod.fst)).store c).2 := by
  unfold add at result
  split at result
  · next c mid attempted =>
    cases result
    have made := attempt_ok attempted
    rw [Build.clauseOf] at made
    obtain ⟨_, start, checked, made⟩ := Build.yields_bind.mp made
    obtain rfl : kb = start := congrArg Prod.snd checked
    obtain ⟨rfl, literals⟩ := Build.mapM_signed boolean made
    exact ⟨c, literals, rfl⟩
  · cases result

end Atoms

namespace Dimacs

section Runs

variable {kb more : KnowledgeBase} {session last : Session} {c : List Int} {clauses : List (List Int)}
  {v : Valuation} {n : Int}

/-- What adding one clause more does. -/
theorem addNumbers_cons (result : addNumbers kb session (c :: clauses) = .ok (last, more)) :
    ∃ ps mid clause, ps.map Prod.snd = c ∧ Named session mid ps ∧
      (disjuncts ps).map (kb.withSymbols (ps.map Prod.fst)).literal? = clause.map some ∧
      addNumbers ((kb.withSymbols (ps.map Prod.fst)).store clause).2 mid clauses = .ok (last, more) := by
  rw [addNumbers] at result
  obtain ⟨⟨es, mid⟩, read, result⟩ := Reader.bind_eq_ok.mp result
  obtain ⟨ps, numbers, rfl, named⟩ := literals_named read
  dsimp only at result
  split at result
  · cases result
  · next stored next added =>
    obtain ⟨clause, literals, rfl⟩ := KnowledgeBase.add_signed named.boolean added
    exact ⟨ps, mid, clause, numbers, named, literals, result⟩

/-- By induction on the clauses: but for the clauses, a knowledge base changes by the atoms that it gets for
the symbols of the numbers. -/
theorem addNumbers_registers (result : addNumbers kb session clauses = .ok (last, more)) :
    ∃ ps, ps.map Prod.snd = clauses.flatten ∧ Named session last ps ∧
      more = { kb.withSymbols (ps.map Prod.fst) with clauses := more.clauses } := by
  induction clauses generalizing kb session with
  | nil =>
    cases result
    exact ⟨[], rfl, .nil _, rfl⟩
  | cons c clauses ih =>
    obtain ⟨ps, mid, clause, numbers, named, -, rest⟩ := addNumbers_cons result
    obtain ⟨qs, numbers', named', same⟩ := ih rest
    refine ⟨ps ++ qs, by rw [List.map_append, numbers, numbers', List.flatten_cons], named.append named', ?_⟩
    rw [same, KnowledgeBase.store_frame, KnowledgeBase.withSymbols_clauses, List.map_append,
      KnowledgeBase.withSymbols_append]

theorem addNumbers_kept {s : Symbol} {a : Atom} (result : addNumbers kb session clauses = .ok (last, more))
    (known : kb.booleans.get? s = some a) : more.booleans.get? s = some a := by
  obtain ⟨ps, -, -, same⟩ := addNumbers_registers result
  rw [same]
  exact KnowledgeBase.get?_withSymbols_kept known

/-- A number is true under a valuation: the atom of its symbol has the value of its sign. -/
def Shown (kb : KnowledgeBase) (session : Session) (v : Valuation) (n : Int) : Prop :=
  ∃ s a, session.get? (toString n.natAbs) = some s ∧ kb.booleans.get? s = some a ∧
    v.holds ⟨a, decide (0 < n)⟩ = true

/-- Each number has a symbol, and this its atom in one knowledge base and still in a later one. -/
def Kept (next more : KnowledgeBase) (session : Session) (ps : List (Symbol × Int)) : Prop :=
  ∀ p ∈ ps, ∃ a, next.booleans.get? p.1 = some a ∧ more.booleans.get? p.1 = some a ∧
    session.get? (toString p.2.natAbs) = some p.1

section Kept

variable {next : KnowledgeBase} {ps : List (Symbol × Int)} {clause : Clause} (kept : Kept next more last ps)
  (literals : (disjuncts ps).map next.literal? = clause.map some)

include kept literals

/-- A clause is satisfied if one of its numbers is true. -/
theorem Kept.satisfies_iff : v.satisfies clause = true ↔ ∃ n ∈ ps.map Prod.snd, Shown more last v n := by
  rw [KnowledgeBase.satisfies_disjunction literals]
  constructor
  · rintro ⟨e, member, l, literal, holds⟩
    obtain ⟨p, inside, rfl⟩ := List.mem_map.mp member
    obtain ⟨a, known, known', found⟩ := kept p inside
    rw [KnowledgeBase.literal?_signed, known, Option.map_some, Option.some.injEq] at literal
    exact ⟨p.2, List.mem_map_of_mem inside, p.1, a, found, known', literal ▸ holds⟩
  · rintro ⟨n, member, s, b, found, known, holds⟩
    obtain ⟨p, inside, rfl⟩ := List.mem_map.mp member
    obtain ⟨a, known', same, found'⟩ := kept p inside
    obtain rfl : p.1 = s := Option.some.inj (found'.symm.trans found)
    obtain rfl : a = b := Option.some.inj (same.symm.trans known)
    refine ⟨signed p.1 p.2, List.mem_map_of_mem inside, _, ?_, holds⟩
    rw [KnowledgeBase.literal?_signed, known', Option.map_some]

theorem Kept.covers (large : ∀ s a, more.booleans.get? s = some a → a < v.size) : v.Covers clause := by
  intro l listed
  obtain ⟨e, member, literal⟩ := KnowledgeBase.disjunct_of_literal literals listed
  obtain ⟨p, inside, rfl⟩ := List.mem_map.mp member
  obtain ⟨a, known, known', -⟩ := kept p inside
  rw [KnowledgeBase.literal?_signed, known, Option.map_some, Option.some.injEq] at literal
  exact literal ▸ large p.1 a known'

end Kept

/-- By induction on the clauses: what the clauses say of a valuation that is large enough is what they said
before, and that every clause that was added has a number that is true. -/
theorem addNumbers_meaning (result : addNumbers kb session clauses = .ok (last, more))
    (top : v.All kb.clauses.toList → v.holds Literal.top = true)
    (large : ∀ s a, more.booleans.get? s = some a → a < v.size) :
    v.All more.clauses.toList ↔ v.All kb.clauses.toList ∧ ∀ c ∈ clauses, ∃ n ∈ c, Shown more last v n := by
  induction clauses generalizing kb session with
  | nil =>
    cases result
    simp
  | cons c clauses ih =>
    obtain ⟨ps, mid, clause, rfl, named, literals, rest⟩ := addNumbers_cons result
    obtain ⟨next, made⟩ : ∃ next, kb.withSymbols (ps.map Prod.fst) = next := ⟨_, rfl⟩
    rw [made] at literals rest
    have kept : Kept next more last ps := by
      intro p member
      have listed : p.1 ∈ ps.map Prod.fst := List.mem_map_of_mem member
      have some : ((kb.withSymbols (ps.map Prod.fst)).booleans.get? p.1).isSome :=
        KnowledgeBase.get?_withSymbols_of_mem listed
      rw [made] at some
      obtain ⟨a, known⟩ := Option.isSome_iff_exists.mp some
      obtain ⟨qs, -, named', -⟩ := addNumbers_registers rest
      refine ⟨a, known, addNumbers_kept rest ?_, named'.kept _ _ (named.known p member)⟩
      rw [KnowledgeBase.store_frame]
      exact known
    have same : next.clauses = kb.clauses := made ▸ KnowledgeBase.clauses_withSymbols
    have stored : v.All (next.store clause).2.clauses.toList ↔
        v.All next.clauses.toList ∧ v.satisfies clause = true :=
      KnowledgeBase.all_store (same ▸ top) (kept.covers literals large)
    rw [ih rest (fun all => top (same ▸ (stored.mp all).1)), stored, same, kept.satisfies_iff literals,
      List.forall_mem_cons, and_assoc]

end Runs

section Fresh

variable {kb more : KnowledgeBase} {last : Session} {config : Config} {number : Nat} {before ss : List Symbol}
  {clauses : List (List Int)}

/-- The atoms of a knowledge base, but for the one that always holds, are those of some symbols in order. -/
structure Numbered (symbols : List Symbol) (kb : KnowledgeBase) : Prop where
  origins : kb.origins.toList = .top :: symbols.map .boolean
  booleans : ∀ s, kb.booleans.get? s = if s ∈ symbols then some (symbols.idxOf s + 1) else none

theorem Numbered.atomCount {symbols : List Symbol} (numbered : Numbered symbols kb) :
    kb.atomCount = symbols.length + 1 := by
  have size := congrArg List.length numbered.origins
  simpa [KnowledgeBase.atomCount] using size

theorem Numbered.withSymbol (numbered : Numbered before.eraseDups kb) (s : Symbol) :
    Numbered (before ++ [s]).eraseDups (kb.withSymbol s) := by
  have known := numbered.booleans s
  rw [eraseDups_concat]
  by_cases old : s ∈ before
  · rw [if_pos (List.mem_eraseDups.mpr old)] at known
    rwa [if_pos old, KnowledgeBase.withSymbol_of_some known]
  · have new : s ∉ before.eraseDups := mt List.mem_eraseDups.mp old
    rw [if_neg new] at known
    rw [if_neg old, KnowledgeBase.withSymbol_of_none known]
    refine ⟨?_, fun t => ?_⟩
    · simp [KnowledgeBase.withBoolean, numbered.origins]
    · rw [KnowledgeBase.get?_withBoolean, numbered.booleans, numbered.atomCount]
      by_cases same : t = s
      · subst same
        simp [List.idxOf_append_of_notMem new]
      · by_cases member : t ∈ before.eraseDups
        · simp [same, member, List.idxOf_append_of_mem member]
        · simp [same, member]

theorem Numbered.withSymbols (numbered : Numbered before.eraseDups kb) (ss : List Symbol) :
    Numbered (before ++ ss).eraseDups (kb.withSymbols ss) := by
  induction ss generalizing kb before with
  | nil =>
    rw [List.append_nil]
    exact numbered
  | cons s ss ih =>
    have next := ih (numbered.withSymbol s)
    rw [List.append_assoc] at next
    exact next

/-- The absolute values of the numbers, each where it first occurs. -/
def occurring (clauses : List (List Int)) : List Nat := (clauses.flatten.map Int.natAbs).eraseDups

/-- From nothing on, the symbols and atoms are those of the numbers in the order in which they first occur. -/
theorem addNumbers_fresh (result : addNumbers (.empty config) (.empty number) clauses = .ok (last, more)) :
    ∃ symbols : List Symbol, symbols.map Symbol.name = (occurring clauses).map toString ∧
      Numbered symbols more ∧ ∀ n ∈ clauses.flatten, ∃ s, last.get? (toString n.natAbs) = some s ∧
        more.booleans.get? s = some ((occurring clauses).idxOf n.natAbs + 1) := by
  obtain ⟨ps, numbers, named, same⟩ := addNumbers_registers result
  have injective : Set.InjOn Symbol.name {s | s ∈ ps.map Prod.fst} := by
    intro s member t member' equal
    obtain ⟨p, inside, rfl⟩ := List.mem_map.mp member
    obtain ⟨q, inside', rfl⟩ := List.mem_map.mp member'
    have first := named.known p inside
    have second := named.known q inside'
    rw [← named.name p inside, equal, named.name q inside'] at first
    exact Option.some.inj (first.symm.trans second)
  have names : (ps.map Prod.fst).map Symbol.name = (clauses.flatten.map Int.natAbs).map toString := by
    rw [← numbers, List.map_map, List.map_map, List.map_map]
    exact List.map_congr_left named.name
  have listed : (ps.map Prod.fst).eraseDups.map Symbol.name = (occurring clauses).map toString := by
    have plain : Set.InjOn (toString : Nat → String) {m | m ∈ clauses.flatten.map Int.natAbs} :=
      fun m _ n _ equal => Text.toString_inj.mp equal
    rw [← eraseDups_map injective, names, eraseDups_map plain, occurring]
  have begun : Numbered ([] : List Symbol).eraseDups (.empty config) := ⟨rfl, fun s => by simp; rfl⟩
  have numbered : Numbered (ps.map Prod.fst).eraseDups more := by
    have all := begun.withSymbols (ps.map Prod.fst)
    rw [same]
    exact ⟨all.origins, all.booleans⟩
  refine ⟨_, listed, numbered, fun n member => ?_⟩
  rw [← numbers] at member
  obtain ⟨p, inside, rfl⟩ := List.mem_map.mp member
  have there : p.1 ∈ (ps.map Prod.fst).eraseDups := List.mem_eraseDups.mpr (List.mem_map_of_mem inside)
  have place : (ps.map Prod.fst).eraseDups.idxOf p.1 = (occurring clauses).idxOf p.2.natAbs := by
    calc (ps.map Prod.fst).eraseDups.idxOf p.1
      _ = ((ps.map Prod.fst).eraseDups.map Symbol.name).idxOf p.1.name := by
        refine (idxOf_map fun s member equal => ?_).symm
        exact injective (List.mem_eraseDups.mp member) (List.mem_map_of_mem inside) equal
      _ = ((occurring clauses).map toString).idxOf (toString p.2.natAbs) := by rw [listed, named.name p inside]
      _ = (occurring clauses).idxOf p.2.natAbs := idxOf_map fun m _ equal => Text.toString_inj.mp equal
  refine ⟨p.1, named.known p inside, ?_⟩
  rw [numbered.booleans, if_pos there, place]

end Fresh

end Dimacs

end Clausal
