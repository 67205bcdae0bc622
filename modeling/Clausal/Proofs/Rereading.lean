import Clausal.Proofs.Invariant
import Clausal.Proofs.Layout
import Clausal.Proofs.Satisfiability

/-!
Reading a formula that was written. The reader makes a symbol for each atom when it first
meets a literal of it, and the symbols get atoms in the same order once their clauses are
ended. So a fresh knowledge base that reads the formula holds the clauses that were
written, with the atoms renamed to their places in the order in which they occur.
Main statement: `dimacs_reread`.
-/

namespace Clausal

/-- The literal of a renamed atom. -/
def Literal.rename (f : Atom → Atom) (l : Literal) : Literal := ⟨f l.atom, l.polarity⟩

/-- The clause of renamed atoms, its literals in increasing order again. -/
def Clause.rename (f : Atom → Atom) (c : Clause) : Clause := Clause.ordered (c.map (Literal.rename f))

namespace Dimacs

section Order

variable {seen order : List Atom} {a b : Atom} {ls : List Literal}

/-- The atoms met so far, in the order met, and one that is met now. -/
def meet (seen : List Atom) (a : Atom) : List Atom := if a ∈ seen then seen else seen ++ [a]

/-- The atoms met so far and those of some literals, each where it first occurs. -/
def meetAll (seen : List Atom) (ls : List Literal) : List Atom :=
  ls.foldl (fun seen l => meet seen l.atom) seen

theorem prefix_meet (seen : List Atom) (a : Atom) : seen <+: meet seen a := by
  unfold meet
  split
  · exact List.prefix_refl seen
  · exact List.prefix_append seen [a]

theorem mem_meet : b ∈ meet seen a ↔ b ∈ seen ∨ b = a := by
  unfold meet
  split
  · next met =>
    refine ⟨.inl, fun either => either.elim id fun same => same ▸ met⟩
  · simp

theorem prefix_meetAll (seen : List Atom) (ls : List Literal) : seen <+: meetAll seen ls := by
  induction ls generalizing seen with
  | nil => exact List.prefix_refl seen
  | cons l ls ih => exact (prefix_meet seen l.atom).trans (ih _)

theorem meetAll_append (seen : List Atom) (ls ms : List Literal) :
    meetAll seen (ls ++ ms) = meetAll (meetAll seen ls) ms := List.foldl_append

theorem mem_meetAll : b ∈ meetAll seen ls ↔ b ∈ seen ∨ ∃ l ∈ ls, l.atom = b := by
  induction ls generalizing seen with
  | nil => simp [meetAll]
  | cons l ls ih =>
    have step : meetAll seen (l :: ls) = meetAll (meet seen l.atom) ls := rfl
    rw [step, ih, mem_meet, List.exists_mem_cons_iff, or_assoc, @eq_comm _ b]

theorem nodup_meetAll (distinct : seen.Nodup) : (meetAll seen ls).Nodup := by
  induction ls generalizing seen with
  | nil => exact distinct
  | cons l ls ih =>
    change (meetAll (meet seen l.atom) ls).Nodup
    refine ih ?_
    unfold meet
    split
    · exact distinct
    · next new =>
      refine List.nodup_append.mpr ⟨distinct, List.nodup_singleton _, fun b member c last same => ?_⟩
      rw [List.mem_singleton] at last
      exact new (last ▸ same ▸ member)

/-- Atoms below a number, each met once, are no more than the number. -/
theorem length_meetAll_le {n : Nat} (below : ∀ l ∈ ls, l.atom < n) : (meetAll [] ls).length ≤ n := by
  have inside : meetAll [] ls ⊆ List.range n := by
    intro a member
    obtain ⟨l, listed, rfl⟩ := (mem_meetAll.mp member).resolve_left (List.not_mem_nil)
    exact List.mem_range.mpr (below l listed)
  have bound := (List.subperm_of_subset (nodup_meetAll List.nodup_nil) inside).length_le
  rwa [List.length_range] at bound

/-- The place of a new atom in the order is after all those met before. -/
theorem idxOf_of_new (early : meet seen a <+: order) (new : a ∉ seen) : order.idxOf a = seen.length := by
  rw [meet, if_neg new] at early
  obtain ⟨rest, rfl⟩ := early
  rw [List.append_assoc, List.idxOf_append_of_notMem new]
  simp

/-- The atom that stands for an atom of the written formula. -/
def placeOf (order : List Atom) (a : Atom) : Atom := order.idxOf a + 1

theorem placeOf_injOn (order : List Atom) : Set.InjOn (placeOf order) {a | a ∈ order} := by
  intro a here b there same
  exact (List.idxOf_inj here).mp (Nat.succ.inj same)

end Order

section Numbers

variable {l : Literal}

/-- The number of a literal, unless it is the one that never holds, shows the literal: it is not zero,
its absolute value shows the atom and its sign the polarity. -/
theorem number_spec (proper : l ≠ -Literal.top) :
    (number l).natAbs = l.atom + 1 ∧ (0 < number l ↔ l.polarity = true) := by
  obtain ⟨a, p⟩ := l
  cases p with
  | true =>
    have value : number ⟨a, true⟩ = a + 1 := by
      rw [number, Literal.toInt]
      exact if_neg (Int.not_lt.mpr (Int.natCast_nonneg a))
    rw [value]
    exact ⟨by simp; omega, iff_of_true (by omega) rfl⟩
  | false =>
    have positive : 0 < a := by
      refine Nat.pos_of_ne_zero ?_
      rintro rfl
      exact proper rfl
    have value : number ⟨a, false⟩ = -(a : Int) - 1 := by
      rw [number, Literal.toInt]
      exact if_pos (by simp; omega)
    rw [value]
    have size : (-(a : Int) - 1).natAbs = a + 1 := by omega
    exact ⟨size, iff_of_false (by omega) (by simp)⟩

theorem number_fits (proper : l ≠ -Literal.top) {n : Nat} (inside : l.atom < n) (fits : Word.Fits n) :
    Word.Fits (number l) := by
  have size : (number l).natAbs ≤ n := (number_spec proper).1 ▸ inside
  have bound : (n : Int) ≤ Word.greatest := fits.2
  unfold Word.Fits
  have ends : Word.least = -0x8000000000000000 ∧ Word.greatest = 0x7FFFFFFFFFFFFFFF := ⟨rfl, rfl⟩
  omega

theorem le_greatestCount {n : Nat} (fits : Word.Fits n) : n ≤ Word.greatestCount := by
  have bound : (n : Int) ≤ 0x7FFFFFFFFFFFFFFF := fits.2
  have wide : Word.greatestCount = 0xFFFFFFFFFFFFFFFF := rfl
  omega

end Numbers

section Tokens

variable {n line : Nat} {order seen : List Atom} {a b : Atom} {l : Literal} {c : Clause} {r : Reader}

/-- The symbol that is made for an atom. -/
def symbolOf (n : Nat) (order : List Atom) (a : Atom) : Symbol :=
  ⟨n, order.idxOf a, toString (a + 1), .boolean⟩

/-- The expression that a literal is read as. -/
def spelt (n : Nat) (order : List Atom) (l : Literal) : Expr :=
  if l.polarity then .symbol (symbolOf n order l.atom) else .not (.symbol (symbolOf n order l.atom))

/-- The session in which some atoms were met. -/
def sessionOf (n : Nat) (order seen : List Atom) : Session := ⟨n, seen.map (symbolOf n order)⟩

theorem symbolOf_inj : symbolOf n order a = symbolOf n order b ↔ a = b := by
  refine ⟨fun same => ?_, congrArg _⟩
  exact Nat.succ.inj (Text.toString_inj.mp (congrArg Symbol.name same))

theorem get?_sessionOf : (sessionOf n order seen).get? (toString (a + 1)) =
    if a ∈ seen then some (symbolOf n order a) else none := by
  simp only [Session.get?, sessionOf]
  induction seen with
  | nil => rfl
  | cons b seen ih =>
    rw [List.map_cons, List.find?_cons]
    by_cases same : a = b
    · subst same
      simp [symbolOf]
    · have apart : ((symbolOf n order b).name == toString (a + 1)) = false := by
        refine beq_eq_false_iff_ne.mpr fun equal => same ?_
        exact (Nat.succ.inj (Text.toString_inj.mp equal)).symm
      rw [apart, ih]
      simp [same]

/-- Asking for the symbol of an atom makes it if the atom is new. -/
theorem boolean_sessionOf (early : meet seen a <+: order) :
    (sessionOf n order seen).boolean (toString (a + 1)) =
      (.ok (symbolOf n order a), sessionOf n order (meet seen a)) := by
  rw [Session.boolean, Session.intern, get?_sessionOf]
  by_cases met : a ∈ seen
  · rw [if_pos met, meet, if_pos met]
    rfl
  · have made : (⟨n, seen.length, toString (a + 1), .boolean⟩ : Symbol) = symbolOf n order a := by
      rw [symbolOf, idxOf_of_new early met]
    rw [if_neg met, meet, if_neg met]
    simp only [Session.size, sessionOf, List.length_map, made, List.map_append, List.map_cons,
      List.map_nil]

theorem literal_number (proper : l ≠ -Literal.top) (session : r.session = sessionOf n order seen)
    (early : meet seen l.atom <+: order) : r.literal (number l) = .ok { r with
      session := sessionOf n order (meet seen l.atom)
      pending := r.pending ++ [spelt n order l] } := by
  obtain ⟨size, sign⟩ := number_spec proper
  rw [Reader.literal, size, session, boolean_sessionOf early]
  simp only [spelt, sign]

theorem ofText?_number (proper : l ≠ -Literal.top) (fits : Word.Fits (number l)) :
    Token.ofText? (toString (number l)).toList = some (.literal (number l)) := by
  have notZero : (toString (number l)).toList ≠ ['0'] := by
    intro same
    have zero : toString (number l) = toString (0 : Int) := String.toList_inj.mp same
    have size := (number_spec proper).1
    rw [Text.toString_integer_inj.mp zero] at size
    cases size
  rw [Token.ofText?, if_neg notZero, Text.signedWord?_toString fits]
  rfl

/-- The line of a clause is read as its literals, and then ends the clause. -/
theorem tokens_clauseWords (proper : ∀ l ∈ c, l ≠ -Literal.top) (fits : ∀ l ∈ c, Word.Fits (number l))
    (session : r.session = sessionOf n order seen) (early : meetAll seen c <+: order) :
    r.tokens line (clauseWords c) = Reader.close { r with
      session := sessionOf n order (meetAll seen c)
      pending := r.pending ++ c.map (spelt n order) } := by
  induction c generalizing r seen with
  | nil =>
    have same : r = { r with session := sessionOf n order seen, pending := r.pending ++ [] } := by
      rw [← session, List.append_nil]
    have zero : Token.ofText? ['0'] = some .close := rfl
    change r.tokens line [['0']] = Reader.close { r with session := _, pending := r.pending ++ [] }
    rw [Reader.tokens, zero]
    change (r.close >>= fun closed => .ok closed) = _
    rw [meetAll, List.foldl_nil, ← same]
    cases r.close <;> rfl
  | cons l c ih =>
    obtain ⟨properFirst, properRest⟩ := List.forall_mem_cons.mp proper
    obtain ⟨fitsFirst, fitsRest⟩ := List.forall_mem_cons.mp fits
    have first : meet seen l.atom <+: order := (prefix_meetAll (meet seen l.atom) c).trans early
    have split : clauseWords (l :: c) = (toString (number l)).toList :: clauseWords c := rfl
    rw [split, Reader.tokens, ofText?_number properFirst fitsFirst]
    simp only [literal_number properFirst session first]
    change Reader.tokens _ line (clauseWords c) = _
    have later : meetAll (meet seen l.atom) c <+: order := early
    rw [ih properRest fitsRest rfl later]
    simp [meetAll]

end Tokens

section Clauses

variable {n : Nat} {order seen : List Atom} {a : Atom} {l : Literal} {c : Clause}
  {kb : KnowledgeBase}

/-- A knowledge base has an atom for the symbol of each atom met so far, and no other. -/
structure Mirrors (n : Nat) (order seen : List Atom) (kb : KnowledgeBase) : Prop where
  known : ∀ a ∈ seen, kb.booleans.get? (symbolOf n order a) = some (placeOf order a)
  unknown : ∀ s, s ∉ seen.map (symbolOf n order) → kb.booleans.get? s = none
  atoms : kb.atomCount = seen.length + 1

/-- The second knowledge base has the clauses and the configuration of the first. -/
def Untouched (kb more : KnowledgeBase) : Prop := more.clauses = kb.clauses ∧ more.config = kb.config

theorem booleanAtom_mirrors (mirrors : Mirrors n order seen kb) (early : meet seen a <+: order)
    (room : order.length < kb.config.atomLimit) :
    ∃ more, (Build.booleanAtom (symbolOf n order a)).Yields kb (placeOf order a) more ∧
      Mirrors n order (meet seen a) more ∧ Untouched kb more := by
  simp only [Build.booleanAtom, Build.yields_bind, Build.yields_get]
  by_cases met : a ∈ seen
  · refine ⟨kb, ⟨kb, kb, ⟨rfl, rfl⟩, ?_⟩, by rwa [meet, if_pos met], rfl, rfl⟩
    rw [mirrors.known a met]
    exact Build.yields_pure.mpr ⟨rfl, rfl⟩
  · have new : kb.booleans.get? (symbolOf n order a) = none := by
      refine mirrors.unknown _ fun listed => met ?_
      obtain ⟨b, member, same⟩ := List.mem_map.mp listed
      exact symbolOf_inj.mp same ▸ member
    have place : placeOf order a = kb.atomCount := by
      rw [placeOf, idxOf_of_new early met, mirrors.atoms]
    have space : kb.atomCount < kb.config.atomLimit := by
      have longer := early.length_le
      rw [meet, if_neg met, List.length_append, List.length_singleton] at longer
      rw [mirrors.atoms]
      exact Nat.lt_of_le_of_lt longer room
    have made : (Build.freshAtom (.boolean (symbolOf n order a))).Yields kb kb.atomCount
        { kb with origins := kb.origins.push (.boolean (symbolOf n order a)) } := by
      rw [Build.Yields, Build.run_freshAtom, if_pos space]
    refine ⟨kb.withBoolean (symbolOf n order a) (.boolean (symbolOf n order a)),
      ⟨kb, kb, ⟨rfl, rfl⟩, ?_⟩, ⟨fun b member => ?_, fun s out => ?_, ?_⟩, rfl, rfl⟩
    · simp only [new, Build.yields_bind, Build.yields_modify, Build.yields_pure]
      exact ⟨_, _, made, ⟨⟩, _, rfl, place, rfl⟩
    · rw [KnowledgeBase.get?_withBoolean]
      by_cases same : b = a
      · rw [if_pos (congrArg _ same), same, place]
      · rw [if_neg fun equal => same (symbolOf_inj.mp equal)]
        exact mirrors.known b ((mem_meet.mp member).resolve_right same)
    · rw [meet, if_neg met, List.map_append, List.mem_append, not_or] at out
      rw [KnowledgeBase.get?_withBoolean, if_neg (by simpa using out.2)]
      exact mirrors.unknown s out.1
    · have count := mirrors.atoms
      rw [meet, if_neg met, List.length_append, List.length_singleton, ← count]
      exact Array.size_push ..

theorem literalOf_mirrors (mirrors : Mirrors n order seen kb) (early : meet seen l.atom <+: order)
    (room : order.length < kb.config.atomLimit) :
    ∃ more, (Build.literalOf (spelt n order l)).Yields kb (l.rename (placeOf order)) more ∧
      Mirrors n order (meet seen l.atom) more ∧ Untouched kb more := by
  obtain ⟨more, made, mirrors', grown⟩ := booleanAtom_mirrors mirrors early room
  have positive : (Build.literalOf (.symbol (symbolOf n order l.atom))).Yields kb
      (.positive (placeOf order l.atom)) more := by
    have boolean : (symbolOf n order l.atom).isBoolean = true := rfl
    rw [Build.literalOf, if_pos boolean]
    simp only [Build.yields_bind, Build.yields_pure]
    exact ⟨_, _, made, rfl, rfl⟩
  refine ⟨more, ?_, mirrors', grown⟩
  obtain ⟨a, p⟩ := l
  cases p with
  | true => exact positive
  | false =>
    change (Build.literalOf (.not (.symbol (symbolOf n order a)))).Yields kb _ more
    rw [Build.literalOf]
    simp only [Build.yields_bind, Build.yields_pure]
    exact ⟨_, _, positive, rfl, rfl⟩

/-- By induction on the clause: its literals are compiled to those of the renamed atoms. -/
theorem mapM_mirrors (mirrors : Mirrors n order seen kb) (early : meetAll seen c <+: order)
    (room : order.length < kb.config.atomLimit) :
    ∃ more, ((c.map (spelt n order)).mapM Build.literalOf).Yields kb (c.map (Literal.rename (placeOf order)))
        more ∧ Mirrors n order (meetAll seen c) more ∧ Untouched kb more := by
  induction c generalizing kb seen with
  | nil => exact ⟨kb, Build.yields_pure.mpr ⟨rfl, rfl⟩, mirrors, rfl, rfl⟩
  | cons l c ih =>
    have first : meet seen l.atom <+: order := (prefix_meetAll (meet seen l.atom) c).trans early
    obtain ⟨mid, made, between, clauses, config⟩ := literalOf_mirrors mirrors first room
    obtain ⟨more, rest, after, clauses', config'⟩ := ih between early (config ▸ room)
    refine ⟨more, ?_, after, clauses'.trans clauses, config'.trans config⟩
    rw [List.map_cons, List.mapM_cons]
    simp only [Build.yields_bind, Build.yields_pure]
    exact ⟨_, _, made, _, _, rest, rfl, rfl⟩

theorem checkBoolean_spelt (c : Clause) : Build.checkBoolean (c.map (spelt n order)) = .ok () := by
  induction c with
  | nil => rfl
  | cons l c ih =>
    rw [List.map_cons, Build.checkBoolean]
    have typed : (spelt n order l).type = .ok .boolean := by
      unfold spelt
      split <;> rfl
    rw [typed]
    exact ih

theorem clauseOf_mirrors (mirrors : Mirrors n order seen kb) (early : meetAll seen c <+: order)
    (room : order.length < kb.config.atomLimit) :
    ∃ more, (Build.clauseOf (c.map (spelt n order))).Yields kb (c.map (Literal.rename (placeOf order))) more ∧
      Mirrors n order (meetAll seen c) more ∧ Untouched kb more := by
  obtain ⟨more, made, after, grown⟩ := mapM_mirrors mirrors early room
  refine ⟨more, ?_, after, grown⟩
  rw [Build.clauseOf, Build.yields_bind]
  refine ⟨(), kb, ?_, made⟩
  rw [checkBoolean_spelt]
  rfl

/-- The clause of renamed atoms has no literal on the atom that always holds and no complementary pair,
so it is stored as it is but for the order. -/
theorem store_rename {f : Atom → Atom} (apart : ∀ l ∈ c, f l.atom ≠ Atom.top)
    (injective : Set.InjOn f {a | ∃ l ∈ c, l.atom = a}) (normal : c.Normal) :
    kb.store (c.map (Literal.rename f)) = (.added, { kb with clauses := kb.clauses.push (c.rename f) }) := by
  have other : ∀ p, (⟨Atom.top, p⟩ : Literal) ∉ c.map (Literal.rename f) := by
    intro p listed
    obtain ⟨l, member, same⟩ := List.mem_map.mp listed
    exact apart l member (congrArg Literal.atom same)
  have kept : (c.map (Literal.rename f)).filter (· != -Literal.top) = c.map (Literal.rename f) := by
    refine List.filter_eq_self.mpr fun l member => bne_iff_ne.mpr ?_
    rintro rfl
    exact other false member
  have calm : Clause.normalise (c.map (Literal.rename f)) = some (c.rename f) := by
    cases found : Clause.normalise (c.map (Literal.rename f)) with
    | some d =>
      unfold Clause.normalise at found
      split at found
      · cases found
      · exact found.symm
    | none =>
      obtain ⟨k, member, opposite⟩ := Clause.normalise_none found
      obtain ⟨l, first, rfl⟩ := List.mem_map.mp member
      obtain ⟨m, second, same⟩ := List.mem_map.mp opposite
      have atoms : m.atom = l.atom :=
        injective ⟨m, second, rfl⟩ ⟨l, first, rfl⟩ (congrArg Literal.atom same)
      have polarities : m.polarity = !l.polarity := congrArg Literal.polarity same
      have negated : m = -l := by
        cases m
        exact (Literal.mk.injEq ..).mpr ⟨atoms, polarities⟩
      exact absurd (negated ▸ second) (normal.2 l first)
  have absent : ¬ (c.map (Literal.rename f)).contains Literal.top = true := by
    rw [List.contains_iff_mem]
    exact other true
  rw [KnowledgeBase.store, if_neg absent, kept, calm]

/-- A clause that is read is added with its atoms renamed. -/
theorem add_mirrors (mirrors : Mirrors n order seen kb) (early : meetAll seen c <+: order)
    (room : order.length < kb.config.atomLimit) (normal : c.Normal) :
    ∃ more, kb.add (c.map (spelt n order)) = (.ok .added, more) ∧ Mirrors n order (meetAll seen c) more ∧
      more.clauses = kb.clauses.push (c.rename (placeOf order)) ∧ more.config = kb.config := by
  obtain ⟨mid, made, after, clauses, config⟩ := clauseOf_mirrors mirrors early room
  have met : ∀ l ∈ c, l.atom ∈ order := fun l member =>
    early.subset (mem_meetAll.mpr (.inr ⟨l, member, rfl⟩))
  have stored : mid.store (c.map (Literal.rename (placeOf order))) =
      (.added, { mid with clauses := mid.clauses.push (c.rename (placeOf order)) }) := by
    refine store_rename (fun l member => Nat.succ_ne_zero _) ((placeOf_injOn order).mono ?_) normal
    rintro _ ⟨l, member, rfl⟩
    exact met l member
  refine ⟨{ mid with clauses := mid.clauses.push (c.rename (placeOf order)) }, ?_,
    ⟨after.known, after.unknown, after.atoms⟩, by rw [clauses], config⟩
  rw [KnowledgeBase.add, KnowledgeBase.attempt, show (Build.clauseOf _).run.run kb = _ from made]
  simp only [stored]

end Clauses

section Formulas

variable {n : Nat} {order seen : List Atom} {c : Clause} {cs : List Clause} {r : Reader}
  {kb : KnowledgeBase} {config : Config}

/-- A clause that can be written: it is normal, and its numbers are those of its literals. -/
structure Writable (c : Clause) : Prop where
  normal : c.Normal
  proper : ∀ l ∈ c, l ≠ -Literal.top
  fits : ∀ l ∈ c, Word.Fits (number l)

/-- The line of a clause adds the clause with its atoms renamed. -/
theorem tokens_mirrors (line : Nat) (writable : Writable c) (session : r.session = sessionOf n order seen)
    (mirrors : Mirrors n order seen r.kb) (ended : r.pending = []) (early : meetAll seen c <+: order)
    (room : order.length < r.kb.config.atomLimit) :
    ∃ more, r.tokens line (clauseWords c) = .ok { r with
        session := sessionOf n order (meetAll seen c)
        kb := more
        clauses := r.clauses + 1 } ∧
      Mirrors n order (meetAll seen c) more ∧
      more.clauses = r.kb.clauses.push (c.rename (placeOf order)) ∧ more.config = r.kb.config := by
  obtain ⟨more, adds, after, clauses, config⟩ := add_mirrors mirrors early room writable.normal
  refine ⟨more, ?_, after, clauses, config⟩
  rw [tokens_clauseWords writable.proper writable.fits session early, Reader.close]
  simp only [ended, List.nil_append, adds]

/-- By induction on the clauses that are left: their lines add them with their atoms renamed. -/
theorem lines_mirrors (taken : Nat) (writable : ∀ c ∈ cs, Writable c) (session : r.session = sessionOf n order seen)
    (mirrors : Mirrors n order seen r.kb) (ended : r.pending = [])
    (whole : meetAll seen cs.flatten = order) (room : order.length < r.kb.config.atomLimit) :
    ∃ more, r.lines taken (cs.map fun c => some (clauseLine c).toList) = .ok { r with
        session := sessionOf n order order
        kb := more
        clauses := r.clauses + cs.length } ∧
      Mirrors n order order more ∧
      more.clauses.toList = r.kb.clauses.toList ++ cs.map (Clause.rename (placeOf order)) := by
  induction cs generalizing r seen taken with
  | nil =>
    obtain rfl : seen = order := whole
    exact ⟨r.kb, by rw [List.map_nil, Reader.lines, ← session]; rfl, mirrors, by simp⟩
  | cons c cs ih =>
    obtain ⟨first, rest⟩ := List.forall_mem_cons.mp writable
    rw [List.flatten_cons, meetAll_append] at whole
    have early : meetAll seen c <+: order := whole ▸ prefix_meetAll _ _
    obtain ⟨mid, taken', between, clauses, config⟩ :=
      tokens_mirrors (taken + 1) first session mirrors ended early room
    let next : Reader := { r with
      session := sessionOf n order (meetAll seen c)
      kb := mid
      clauses := r.clauses + 1 }
    obtain ⟨more, result, after, clauses'⟩ :=
      ih (r := next) (taken + 1) rest rfl between ended whole (config ▸ room)
    refine ⟨more, ?_, after, ?_⟩
    · rw [List.map_cons, Reader.lines, ofText_clauseLine]
      simp only [taken']
      change Reader.lines _ _ _ = _
      rw [result, List.length_cons, Nat.add_assoc, Nat.add_comm 1]
    · rw [clauses', clauses, Array.toList_push, List.append_assoc, List.map_cons, List.singleton_append]

theorem mirrors_empty : Mirrors n order [] (.empty config) :=
  ⟨by simp, fun s _ => rfl, rfl⟩

/-- A written formula is read into a knowledge base with its clauses, the atoms renamed to their places. -/
theorem read_dimacs (plain : kb.PlainNames) (atoms : kb.atomCount ≤ Word.greatestCount)
    (clauses : kb.clauseCount ≤ Word.greatestCount) (writable : ∀ c ∈ kb.clauses.toList, Writable c)
    (order_eq : meetAll [] kb.clauses.toList.flatten = order) (room : order.length < config.atomLimit) :
    ∃ fresh, (KnowledgeBase.empty config).read (.empty n) (.ofText kb.dimacs) =
        (.ok ⟨some ⟨kb.atomCount, kb.clauseCount⟩, kb.clauseCount⟩, sessionOf n order order, fresh) ∧
      Mirrors n order order fresh ∧
      fresh.clauses.toList = [Literal.top] :: kb.clauses.toList.map (Clause.rename (placeOf order)) := by
  let start : Reader := ⟨.empty n, .empty config, some ⟨kb.atomCount, kb.clauseCount⟩, 0, []⟩
  obtain ⟨fresh, result, mirrors, stored⟩ := lines_mirrors (r := start) (0 + (comments kb).length + 1)
    writable rfl mirrors_empty rfl order_eq room
  refine ⟨fresh, ?_, mirrors, stored⟩
  have body : (Reader.mk (.empty n) (.empty config) none 0 []).lines 0 (.ofText kb.dimacs) =
      start.lines (0 + (comments kb).length + 1) (kb.clauses.toList.map fun c => some (clauseLine c).toList) := by
    rw [lines_dimacs plain, Dimacs.body, List.map_cons, Reader.lines, ofText_problemLine atoms clauses,
      List.map_map]
    rfl
  have counted : 0 + kb.clauses.toList.length = kb.clauseCount := by
    rw [Nat.zero_add, Array.length_toList, KnowledgeBase.clauseCount]
  rw [KnowledgeBase.read, body, result]
  simp only [start, counted]
  rfl

end Formulas

end Dimacs

section Meaning

variable {f : Atom → Atom} {c : Clause} {cs : List Clause} {β : Interpretation}

theorem Clause.trueIn_rename : (c.rename f).TrueIn β ↔ c.TrueIn (β ∘ f) := by
  constructor
  · rintro ⟨k, member, holds⟩
    obtain ⟨l, listed, rfl⟩ := List.mem_map.mp (Clause.mem_ordered.mp member)
    exact ⟨l, listed, holds⟩
  · rintro ⟨l, listed, holds⟩
    exact ⟨l.rename f, Clause.mem_ordered.mpr (List.mem_map_of_mem listed), holds⟩

/-- Renaming the atoms of clauses, apart from the atom that always holds, changes nothing about whether
they can all be true. -/
theorem exists_trueIn_rename (injective : Set.InjOn f {a | ∃ c ∈ cs, ∃ l ∈ c, l.atom = a})
    (apart : ∀ a, f a ≠ Atom.top) : (∃ β : Interpretation, ∀ c ∈ cs, c.TrueIn β) ↔
      ∃ β : Interpretation, ∀ c ∈ [Literal.top] :: cs.map (Clause.rename f), Clause.TrueIn β c := by
  constructor
  · rintro ⟨β, holds⟩
    -- back along the renaming, with the atom that always holds true
    let back : Atom → Atom := Function.invFunOn f {a | ∃ c ∈ cs, ∃ l ∈ c, l.atom = a}
    let γ : Interpretation := fun b => if b = Atom.top then true else β (back b)
    refine ⟨γ, List.forall_mem_cons.mpr ⟨⟨Literal.top, List.mem_singleton_self _, rfl⟩, fun d member => ?_⟩⟩
    obtain ⟨c, listed, rfl⟩ := List.mem_map.mp member
    obtain ⟨l, inside, isTrue⟩ := holds c listed
    refine Clause.trueIn_rename.mpr ⟨l, inside, ?_⟩
    have undone : back (f l.atom) = l.atom := injective.leftInvOn_invFunOn ⟨c, listed, l, inside, rfl⟩
    change (if f l.atom = Atom.top then true else β (back (f l.atom))) = l.polarity
    rw [if_neg (apart l.atom), undone]
    exact isTrue
  · rintro ⟨β, holds⟩
    refine ⟨β ∘ f, fun c listed => Clause.trueIn_rename.mp ?_⟩
    exact holds _ (List.mem_cons_of_mem _ (List.mem_map_of_mem listed))

end Meaning

namespace KnowledgeBase

open Dimacs

variable {kb : KnowledgeBase} {allowed : Config → Prop} {config : Config}

/-- In a knowledge base that can be reached no clause has the literal that never holds, the number of
which would be that of its negation. -/
theorem Reachable.writable (reached : Reachable allowed kb) (fits : Word.Fits kb.atomCount) :
    ∀ c ∈ kb.clauses.toList, Writable c := by
  obtain ⟨added, faithful⟩ := reached.faithful
  obtain ⟨rest, clauses, settled⟩ := reached.traced.clauses
  intro c member
  have inside : c ∈ kb.clauses := Array.mem_toList_iff.mp member
  have proper : ∀ l ∈ c, l ≠ -Literal.top := by
    rintro l listed rfl
    rw [clauses] at member
    rcases List.mem_cons.mp member with rfl | later
    · exact absurd (List.mem_singleton.mp listed) (Literal.neg_ne_self _)
    · exact settled c later _ listed rfl
  exact ⟨faithful.normal c inside, proper,
    fun l listed => number_fits (proper l listed) (faithful.below c inside l listed) fits⟩

/-- What an empty knowledge base becomes by reading can be reached. -/
theorem Reachable.of_read {session last : Session} {source : Text.Source} {r : Except Error Summary}
    {fresh : KnowledgeBase} (result : (KnowledgeBase.empty config).read session source = (r, last, fresh)) :
    Reachable (fun _ => True) fresh := by
  have reached : Reachable (fun _ => True) ((KnowledgeBase.empty config).read session source).2.2 :=
    .read (.empty trivial) session source
  rwa [result] at reached

/-- Of two knowledge bases that both have a model or both have none, no procedures give different answers. -/
theorem Faithful.answers_agree {other : KnowledgeBase} {added added' : List (List Expr)} {ours theirs : Config}
    {b b' : Bool} (faithful : kb.Faithful added) (faithful' : other.Faithful added')
    (models : (∃ v : Valuation, v.Models kb.clauses kb.atomCount) ↔
      ∃ v : Valuation, v.Models other.clauses other.atomCount)
    (first : { kb with config := ours : KnowledgeBase }.satisfiable = .ok b)
    (second : { other with config := theirs : KnowledgeBase }.satisfiable = .ok b') : b = b' := by
  have one := @satisfiable_iff { kb with config := ours } faithful.normal faithful.below b first
  have two := @satisfiable_iff { other with config := theirs } faithful'.normal faithful'.below b' second
  exact Bool.eq_iff_iff.mpr (one.trans (models.trans two.symm))

/-- A fresh knowledge base, with a session of a number, reads what another one wrote: it succeeds with
the counts of that one. Each number written stands for a literal, and the clauses are the same and in
the same order, but for an injective renaming of their atoms to those of the symbols that the numbers
name. So there is a model of both or of neither. -/
structure Rereads (kb : KnowledgeBase) (config : Config) (n : Nat) (last : Session) (fresh : KnowledgeBase)
    (f : Atom → Atom) : Prop where
  result : (KnowledgeBase.empty config).read (.empty n) (.ofText kb.dimacs) =
    (.ok ⟨some ⟨kb.atomCount, kb.clauseCount⟩, kb.clauseCount⟩, last, fresh)
  numbers : ∀ c ∈ kb.clauses, ∀ l ∈ c, number l ≠ 0 ∧ (number l).natAbs ≤ kb.atomCount
  injective : Set.InjOn f {a | ∃ c ∈ kb.clauses, ∃ l ∈ c, l.atom = a}
  symbols : ∀ c ∈ kb.clauses, ∀ l ∈ c, ∃ s, last.get? (toString (l.atom + 1)) = some s ∧
    fresh.atomOf? s = some (f l.atom)
  clauses : fresh.clauses.toList = [Literal.top] :: kb.clauses.toList.map (Clause.rename f)
  models : (∃ v : Valuation, v.Models kb.clauses kb.atomCount) ↔
    ∃ v : Valuation, v.Models fresh.clauses fresh.atomCount
  answers : ∀ ours theirs b b', { kb with config := ours : KnowledgeBase }.satisfiable = .ok b →
    { fresh with config := theirs : KnowledgeBase }.satisfiable = .ok b' → b = b'

/-- Whatever a knowledge base writes is reread, if no name has a line feed, the counts fit the words that
they are read as, and the limit allows for one atom more than there are. -/
theorem dimacs_reread (reached : Reachable allowed kb) (plain : kb.PlainNames)
    (fits : Word.Fits kb.atomCount) (countable : kb.clauseCount ≤ Word.greatestCount)
    (room : kb.atomCount + 1 ≤ config.atomLimit) (n : Nat) :
    ∃ last fresh f, kb.Rereads config n last fresh f := by
  have writable := reached.writable fits
  obtain ⟨added, faithful⟩ := reached.faithful
  let order := meetAll [] kb.clauses.toList.flatten
  have below : ∀ l ∈ kb.clauses.toList.flatten, l.atom < kb.atomCount := by
    intro l member
    obtain ⟨c, listed, inside⟩ := List.mem_flatten.mp member
    exact faithful.below c (Array.mem_toList_iff.mp listed) l inside
  have short : order.length < config.atomLimit :=
    Nat.lt_of_lt_of_le (Nat.lt_succ_of_le (length_meetAll_le below)) room
  have met : ∀ c ∈ kb.clauses.toList, ∀ l ∈ c, l.atom ∈ order := fun c member l listed =>
    mem_meetAll.mpr (.inr ⟨l, List.mem_flatten.mpr ⟨c, member, listed⟩, rfl⟩)
  obtain ⟨fresh, result, mirrors, clauses⟩ :=
    read_dimacs (n := n) plain (le_greatestCount fits) countable writable rfl short
  have injective : Set.InjOn (placeOf order) {a | ∃ c ∈ kb.clauses.toList, ∃ l ∈ c, l.atom = a} := by
    refine (placeOf_injOn order).mono ?_
    rintro _ ⟨c, member, l, listed, rfl⟩
    exact met c member l listed
  obtain ⟨added', faithful'⟩ := (Reachable.of_read result).faithful
  have models : (∃ v : Valuation, v.Models kb.clauses kb.atomCount) ↔
      ∃ v : Valuation, v.Models fresh.clauses fresh.atomCount := by
    rw [exists_models_iff faithful.below, exists_models_iff faithful'.below, clauses]
    exact exists_trueIn_rename injective fun a => Nat.succ_ne_zero _
  refine ⟨_, fresh, placeOf order, result, fun c member l listed => ?_, ?_, fun c member l listed => ?_, clauses,
    models, fun ours theirs b b' first second => faithful.answers_agree faithful' models first second⟩
  · have size := (number_spec ((writable c (Array.mem_toList_iff.mpr member)).proper l listed)).1
    have inside := faithful.below c member l listed
    exact ⟨fun zero => by simp [zero] at size, size ▸ inside⟩
  · simpa only [Array.mem_toList_iff] using injective
  · have known := met c (Array.mem_toList_iff.mpr member) l listed
    exact ⟨_, by rw [get?_sessionOf, if_pos known], mirrors.known _ known⟩

/-- Names that look like lines of a formula, and a limit that only just suffices. -/
theorem dimacs_reread_odd_names :
    let p : Expr := .symbol ⟨0, 0, "c p cnf 0", .boolean⟩
    let x : Expr := .symbol ⟨0, 1, "%\r -1 0", .integer (some ⟨-1, 0⟩)⟩
    let kb := ((KnowledgeBase.empty {}).add [.not p, .compare .less x (.constant 0)]).2
    Reachable (fun _ => True) kb ∧
      kb.dimacs = "c 1 true\nc 2 c p cnf 0\nc 3 %\r -1 0=-1\nc 4 %\r -1 0=0\np cnf 5 6\n1 0\n3 4 0\n-3 -4 0\n" ++
        "-3 5 0\n-4 -5 0\n-2 5 0\n" ∧
      ∃ last fresh f, kb.Rereads { atomLimit := 6 } 1 last fresh f := by
  intro p x kb
  have reached : Reachable (fun _ => True) kb := .add (.empty trivial) _
  exact ⟨reached, by decide +kernel, dimacs_reread reached (by decide +kernel) (by decide +kernel)
    (by decide +kernel) (by decide +kernel) 1⟩

end KnowledgeBase

end Clausal
