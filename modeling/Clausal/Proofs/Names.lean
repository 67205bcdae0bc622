import Clausal.Proofs.Layout
import Clausal.Proofs.Renaming
import Mathlib.Logic.Equiv.Basic

/-!
Names and written formulas. A name shows in comments only, and a comment that is one line
is skipped. So the names of symbols change nothing about what is read of a formula that
was written, as long as none has a line feed; with one, the rest of a name is read as
part of the formula. Main statements: `reread_renamed` and `reread_cut_short`.
-/

namespace Clausal

open Dimacs

section Agreement

variable {f g : Symbol → Symbol} {symbols : List Symbol}

/-- Other symbols for finitely many can be completed to other symbols for all: the rest get numbers of
sessions that are not in use. -/
theorem Renaming.exists_agreeing (kind : ∀ s ∈ symbols, (f s).kind = s.kind)
    (injective : Set.InjOn f {s | s ∈ symbols}) : ∃ ρ : Renaming, ∀ s ∈ symbols, ρ.map s = f s := by
  obtain ⟨n, below⟩ : ∃ n, ∀ s ∈ symbols, (f s).session < n := by
    refine ⟨symbols.toFinset.sup (fun s => (f s).session) + 1, fun s member => Nat.lt_succ_of_le ?_⟩
    exact Finset.le_sup (f := fun s => (f s).session) (List.mem_toFinset.mpr member)
  let map (s : Symbol) : Symbol := if s ∈ symbols then f s else { s with session := s.session + n }
  have inside : ∀ {s}, s ∈ symbols → map s = f s := fun member => if_pos member
  have outside : ∀ {s}, s ∉ symbols → map s = { s with session := s.session + n } := fun out => if_neg out
  have apart : ∀ {s t}, s ∈ symbols → t ∉ symbols → map s ≠ map t := by
    intro s t member out same
    rw [inside member, outside out] at same
    have number : (f s).session = t.session + n := congrArg Symbol.session same
    have small := below s member
    omega
  refine ⟨⟨map, fun s => ?_, fun s t same => ?_⟩, fun s member => inside member⟩
  · by_cases member : s ∈ symbols
    · rw [inside member]
      exact kind s member
    · rw [outside member]
  · by_cases first : s ∈ symbols
    · by_cases second : t ∈ symbols
      · rw [inside first, inside second] at same
        exact injective first second same
      · exact absurd same (apart first second)
    · by_cases second : t ∈ symbols
      · exact absurd same.symm (apart second first)
      · rw [outside first, outside second] at same
        cases s
        cases t
        simpa using same

theorem Expr.rename_congr {e : Expr} (same : ∀ s ∈ e.symbols, f s = g s) : e.rename f = e.rename g := by
  induction e with
  | symbol s => rw [rename, rename, same s (List.mem_singleton_self s)]
  | constant value => rfl
  | not e ih => rw [rename, rename, ih same]
  | sum left right ihl ihr =>
    obtain ⟨first, second⟩ := List.forall_mem_append.mp same
    rw [rename, rename, ihl first, ihr second]
  | compare op left right ihl ihr =>
    obtain ⟨first, second⟩ := List.forall_mem_append.mp same
    rw [rename, rename, ihl first, ihr second]

theorem Operation.rename_congr {op : Operation} (same : ∀ s ∈ op.symbols, f s = g s) :
    op.rename f = op.rename g := by
  cases op with
  | add disjuncts =>
    refine congrArg add (List.map_congr_left fun e member => Expr.rename_congr fun s inside => ?_)
    exact same s (List.mem_flatMap.mpr ⟨e, member, inside⟩)
  | declare s => exact congrArg declare (same s (List.mem_singleton_self s))

end Agreement

namespace KnowledgeBase

variable {kb more : KnowledgeBase} {allowed : Config → Prop} {ρ : Renaming} {s : Symbol}
  {ops : List Operation}

section Known

/-- A symbol has an atom or is encoded. -/
def Knows (kb : KnowledgeBase) (s : Symbol) : Prop :=
  (∃ a, kb.booleans.get? s = some a) ∨ ∃ enc, kb.encodings.get? (.symbol s) = some enc

theorem Compiles.knows {added : List (List Expr)} {scope : Expr → Prop}
    (compiles : kb.Compiles more added scope) (known : more.Knows s) : kb.Knows s ∨ scope (.symbol s) := by
  rcases known with ⟨a, found⟩ | ⟨enc, found⟩
  · cases before : kb.booleans.get? s with
    | none => exact .inr (compiles.booleans s a before found)
    | some b => exact .inl (.inl ⟨b, before⟩)
  · cases before : kb.encodings.get? (.symbol s) with
    | none => exact .inr (compiles.encodings _ enc before found)
    | some b => exact .inl (.inr ⟨b, before⟩)

/-- An operation makes no symbols known but its own. -/
theorem Reachable.knows_apply (reached : Reachable allowed kb) (op : Operation)
    (known : (op.apply kb).Knows s) : kb.Knows s ∨ s ∈ op.symbols := by
  obtain ⟨added, faithful⟩ := reached.faithful
  cases op with
  | add disjuncts =>
    rcases add_spec faithful (Prod.mk.eta (p := kb.add disjuncts)).symm with
      ⟨_, -, same⟩ | ⟨stored, mid, c, -, compiles, -, last⟩
    · change (kb.add disjuncts).2.Knows s at known
      exact .inl (same ▸ known)
    · change (kb.add disjuncts).2.Knows s at known
      rw [last, store_frame] at known
      refine (compiles.knows known).imp_right ?_
      rintro ⟨e, member, part⟩
      exact List.mem_flatMap.mpr ⟨e, member, Expr.mem_symbols_of_parts part⟩
  | declare t =>
    rcases declare_spec faithful (Prod.mk.eta (p := kb.declare t)).symm with ⟨_, -, same⟩ | ⟨-, compiles⟩
    · change (kb.declare t).2.Knows s at known
      exact .inl (same ▸ known)
    · refine (compiles.knows known).imp_right fun same => ?_
      cases same
      exact List.mem_singleton_self _

theorem Reachable.apply (reached : Reachable allowed kb) (op : Operation) :
    Reachable allowed (op.apply kb) := by
  cases op with
  | add disjuncts => exact reached.add disjuncts
  | declare s => exact reached.declare s

theorem Reachable.run (reached : Reachable allowed kb) (ops : List Operation) :
    Reachable allowed (kb.run ops) := by
  induction ops generalizing kb with
  | nil => exact reached
  | cons op ops ih => exact ih (reached.apply op)

/-- By induction on the operations: they make no symbols known but their own. -/
theorem Reachable.knows_run (reached : Reachable allowed kb) (known : (kb.run ops).Knows s) :
    kb.Knows s ∨ s ∈ ops.flatMap Operation.symbols := by
  induction ops generalizing kb with
  | nil => exact .inl known
  | cons op ops ih =>
    rw [List.flatMap_cons, List.mem_append, ← or_assoc]
    exact (ih (reached.apply op) known).imp_left (reached.knows_apply op)

/-- The symbol that the origin of an atom names has the atom, or its encoding does. -/
theorem OwnedBy.knows {a : Atom} {item : Item} {i : Nat} {o : Origin} (owned : kb.OwnedBy a item i)
    (origin : kb.origin? a = some o) (named : s ∈ o.symbol?) : kb.Knows s := by
  cases owned with
  | boolean known _ stands =>
    obtain rfl := Option.some.inj (origin.symm.trans stands)
    cases named
    exact .inl ⟨_, known⟩
  | symbol known _ _ stands =>
    obtain rfl := Option.some.inj (origin.symm.trans stands)
    cases named
    exact .inr ⟨_, known⟩
  | sum _ _ stands =>
    obtain rfl := Option.some.inj (origin.symm.trans stands)
    cases named
  | comparison _ stands =>
    obtain rfl := Option.some.inj (origin.symm.trans stands)
    cases named

/-- The symbols that atoms stand for are known. -/
theorem Reachable.knows_origin (reached : Reachable allowed kb) {o : Origin} (member : o ∈ kb.origins)
    (named : s ∈ o.symbol?) : kb.Knows s := by
  obtain ⟨added, faithful⟩ := reached.faithful
  obtain ⟨a, inside, found⟩ := Array.mem_iff_getElem.mp member
  have origin : kb.origin? a = some o := Array.getElem?_eq_some_iff.mpr ⟨inside, found⟩
  rcases Nat.eq_zero_or_pos a with rfl | positive
  · obtain rfl : o = .top := Option.some.inj (origin.symm.trans reached.traced.top)
    cases named
  · obtain ⟨item, i, owns⟩ := faithful.covered a positive inside
    obtain ⟨p, standing, same⟩ := reached.traced.origins item i a (Nat.ne_of_gt positive) owns
    obtain rfl : o = p := Option.some.inj (origin.symm.trans same)
    exact (faithful.ownedBy owns standing origin).knows origin named

end Known

section Writing

theorem symbol?_rename (f : Symbol → Symbol) (o : Origin) : (o.rename f).symbol? = o.symbol?.map f := by
  cases o <;> rfl

theorem plainNames_rename (plain : ∀ o ∈ kb.origins, ∀ s ∈ o.symbol?, '\n' ∉ (ρ.map s).name.toList) :
    (kb.rename ρ).PlainNames := by
  intro o member s named
  obtain ⟨p, listed, rfl⟩ := Array.mem_map.mp member
  rw [symbol?_rename] at named
  obtain ⟨t, inside, rfl⟩ := Option.map_eq_some_iff.mp named
  exact plain p listed t inside

/-- The same atoms have comments, whatever the symbols. -/
theorem length_comments_rename (kb : KnowledgeBase) : (comments (kb.rename ρ)).length = (comments kb).length := by
  have noted : ∀ o : Origin, ((o.rename ρ.map).note?).isSome = o.note?.isSome := by
    intro o
    cases o <;> rfl
  have same : (kb.rename ρ).origins.toList = kb.origins.toList.map (.rename ρ.map) := Array.toList_map
  rw [comments, comments, same, List.zipIdx_map, List.filterMap_map, List.length_filterMap_eq_countP,
    List.length_filterMap_eq_countP]
  refine List.countP_congr fun entry _ => ?_
  simp [comment?, noted]

/-- So the same is read of what was written, if no comment is more than a line. -/
theorem read_renamed {other : KnowledgeBase} {session : Session} (plain : kb.PlainNames)
    (plain' : (kb.rename ρ).PlainNames) : other.read session (.ofText (kb.rename ρ).dimacs) =
      other.read session (.ofText kb.dimacs) := by
  have body : Dimacs.body (kb.rename ρ) = Dimacs.body kb := by
    simp only [Dimacs.body, problemLine, atomCount_rename]
    rfl
  rw [read, read, lines_dimacs plain, lines_dimacs plain', body, length_comments_rename]

theorem satisfiable_rename (kb : KnowledgeBase) : (kb.rename ρ).satisfiable = kb.satisfiable := by
  have search : (kb.rename ρ).search = kb.search := by
    rw [KnowledgeBase.search, atomCount_rename]
    rfl
  have bySearch : (kb.rename ρ).solveBySearch = kb.solveBySearch := by
    rw [solveBySearch, search]
    rfl
  have solved : (kb.rename ρ).solve = kb.solve := by
    rw [solve, bySearch]
    rfl
  rw [satisfiable, solved]
  rfl

end Writing

end KnowledgeBase

section Sessions

variable {π : Equiv.Perm Nat}

/-- The same symbols in sessions of other numbers. -/
def Renaming.ofSessions (π : Equiv.Perm Nat) : Renaming where
  map s := { s with session := π s.session }
  kind _ := rfl
  injective := by
    rintro ⟨n, id, name, kind⟩ ⟨m, id', name', kind'⟩ same
    simpa using same

theorem SameCause.eq_of_sessions {cause cause' : Error} (same : SameCause (.ofSessions π) cause cause') :
    cause' = cause := by
  cases same <;> rfl

def Session.renumber (s : Session) (π : Equiv.Perm Nat) : Session :=
  ⟨π s.number, s.symbols.map (Renaming.ofSessions π).map⟩

theorem Session.boolean_renumber (s : Session) (name : String) : (s.renumber π).boolean name =
    ((s.boolean name).1.map (Renaming.ofSessions π).map, (s.boolean name).2.renumber π) := by
  have known : (s.renumber π).get? name = (s.get? name).map (Renaming.ofSessions π).map := by
    rw [get?, get?, renumber, List.find?_map]
    rfl
  rw [boolean, boolean, intern, intern, known]
  cases s.get? name with
  | none => simp [size, renumber, Renaming.ofSessions, Except.map]
  | some t =>
    have kind : ((Renaming.ofSessions π).map t).kind = t.kind := rfl
    simp only [Option.map_some, kind]
    split <;> rfl

namespace Dimacs.Reader

/-- A reader with sessions of other numbers. -/
def renumber (r : Reader) (π : Equiv.Perm Nat) : Reader :=
  { r with
    session := r.session.renumber π
    kb := r.kb.rename (.ofSessions π)
    pending := r.pending.map (.rename (Renaming.ofSessions π).map) }

/-- What was read, with sessions of other numbers. -/
def renumberRead (π : Equiv.Perm Nat) : Read Reader → Read Reader
  | .ok r => .ok (r.renumber π)
  | .error (cause, session) => .error (cause, session.renumber π)

theorem renumberRead_bind {first first' : Read Reader} {next next' : Reader → Read Reader}
    (start : first' = renumberRead π first) (rest : ∀ r, next' (r.renumber π) = renumberRead π (next r)) :
    first' >>= next' = renumberRead π (first >>= next) := by
  subst start
  cases first with
  | ok r => exact rest r
  | error => rfl

theorem close_renumber (r : Reader) : (r.renumber π).close = renumberRead π r.close := by
  obtain ⟨result, state⟩ := r.kb.add_renamed (.ofSessions π) r.pending
  unfold close
  rcases ended : r.kb.add r.pending with ⟨a, more⟩
  rcases ended' : (r.renumber π).kb.add (r.renumber π).pending with ⟨a', more'⟩
  change (r.kb.rename (.ofSessions π)).add (r.pending.map (.rename (Renaming.ofSessions π).map)) =
    (a', more') at ended'
  rw [ended, ended'] at result state
  obtain rfl : more' = more.rename (.ofSessions π) := state
  cases result with
  | ok a => rfl
  | error same =>
    rw [same.eq_of_sessions]
    rfl

theorem literal_renumber (r : Reader) (number : Int) :
    (r.renumber π).literal number = renumberRead π (r.literal number) := by
  have session : (r.renumber π).session = r.session.renumber π := rfl
  rw [literal, literal, session, Session.boolean_renumber]
  rcases r.session.boolean (toString number.natAbs) with ⟨_ | s, session⟩
  · rfl
  · simp only [Except.map, renumberRead, renumber, List.map_append, List.map_cons, List.map_nil]
    split <;> rfl

theorem tokens_renumber (r : Reader) (line : Nat) (words : List (List Char)) :
    (r.renumber π).tokens line words = renumberRead π (r.tokens line words) := by
  induction words generalizing r with
  | nil => rfl
  | cons word words ih =>
    unfold tokens
    split
    · rfl
    · exact renumberRead_bind (close_renumber r) ih
    · exact renumberRead_bind (literal_renumber r _) ih

theorem problemLine_renumber (r : Reader) (counts : Option Problem) :
    (r.renumber π).problemLine counts = renumberRead π (r.problemLine counts) := by
  have pending : (r.renumber π).pending.isEmpty = r.pending.isEmpty := List.isEmpty_map
  unfold problemLine
  rw [pending]
  change (if r.problem.isSome || 0 < r.clauses || !r.pending.isEmpty then _ else _) = _
  split
  · rfl
  · cases counts <;> rfl

theorem lines_renumber (r : Reader) (taken : Nat) (source : Text.Source) :
    (r.renumber π).lines taken source = renumberRead π (r.lines taken source) := by
  induction source generalizing r taken with
  | nil => rfl
  | cons line source ih =>
    cases line with
    | none => rfl
    | some text =>
      unfold lines
      split
      · exact ih r _
      · rfl
      · exact renumberRead_bind (problemLine_renumber r _) fun r => ih r _
      · exact renumberRead_bind (tokens_renumber r _ _) fun r => ih r _

theorem finish_renumber (r : Reader) : (r.renumber π).finish = renumberRead π r.finish := by
  have pending : (r.renumber π).pending.isEmpty = r.pending.isEmpty := List.isEmpty_map
  unfold finish
  rw [pending]
  split
  · rfl
  · exact close_renumber r

end Dimacs.Reader

/-- Reading with a session of another number gives the same but for the numbers of sessions. -/
theorem KnowledgeBase.read_renumber (π : Equiv.Perm Nat) (kb : KnowledgeBase) (session : Session) (source : Text.Source) :
    (kb.rename (.ofSessions π)).read (session.renumber π) source = ((kb.read session source).1,
      (kb.read session source).2.1.renumber π, (kb.read session source).2.2.rename (.ofSessions π)) := by
  let start : Reader := ⟨session, kb, none, 0, []⟩
  have same : ((Reader.mk (session.renumber π) (kb.rename (.ofSessions π)) none 0 []).lines 0 source >>=
      Reader.finish) = Reader.renumberRead π (start.lines 0 source >>= Reader.finish) :=
    Reader.renumberRead_bind (Reader.lines_renumber start 0 source) Reader.finish_renumber
  rw [KnowledgeBase.read, KnowledgeBase.read, same]
  cases start.lines 0 source >>= Reader.finish with
  | ok r => rfl
  | error e => rfl

end Sessions

namespace KnowledgeBase

section Rereading

variable {f : Symbol → Symbol}

theorem empty_rename (config : Config) : (KnowledgeBase.empty config).rename ρ = .empty config := by
  simp [rename, empty, Origin.rename, Table.mapKeys]

/-- Some operations on other symbols make the same knowledge base but for the symbols, which are among
those of the operations. -/
theorem run_agreeing (kind : ∀ s ∈ ops.flatMap Operation.symbols, (f s).kind = s.kind)
    (injective : Set.InjOn f {s | s ∈ ops.flatMap Operation.symbols}) (config : Config) :
    ∃ ρ : Renaming, (∀ s ∈ ops.flatMap Operation.symbols, ρ.map s = f s) ∧
      (KnowledgeBase.empty config).run (ops.map (Operation.rename f)) =
        ((KnowledgeBase.empty config).run ops).rename ρ := by
  obtain ⟨ρ, agrees⟩ := Renaming.exists_agreeing kind injective
  refine ⟨ρ, agrees, ?_⟩
  have same : ops.map (Operation.rename f) = ops.map (Operation.rename ρ.map) := by
    refine List.map_congr_left fun op member => Operation.rename_congr fun s inside => ?_
    exact (agrees s (List.mem_flatMap.mpr ⟨op, member, inside⟩)).symm
  rw [same, ← run_renamed, empty_rename]

/-- Operations on an empty knowledge base make no atoms for other symbols than their own. -/
theorem symbols_of_run {config : Config} {o : Origin}
    (member : o ∈ ((KnowledgeBase.empty config).run ops).origins) (named : s ∈ o.symbol?) :
    s ∈ ops.flatMap Operation.symbols := by
  have start : Reachable (fun _ => True) (.empty config) := .empty trivial
  refine (start.knows_run ((start.run ops).knows_origin member named)).resolve_left ?_
  rintro (⟨a, found⟩ | ⟨enc, found⟩) <;> cases found

/-- What an empty knowledge base reads is the same, whatever the number of the session, but for the
numbers of sessions. -/
theorem read_swapped (fresh : Config) (n m : Nat) (source : Text.Source) :
    (KnowledgeBase.empty fresh).read (.empty m) source =
      (((KnowledgeBase.empty fresh).read (.empty n) source).1,
        ((KnowledgeBase.empty fresh).read (.empty n) source).2.1.renumber (Equiv.swap n m),
        ((KnowledgeBase.empty fresh).read (.empty n) source).2.2.rename (.ofSessions (Equiv.swap n m))) := by
  have session : (Session.empty n).renumber (Equiv.swap n m) = .empty m := by
    rw [Session.renumber, Session.empty, Equiv.swap_apply_left]
    rfl
  have swapped := (KnowledgeBase.empty fresh).read_renumber (Equiv.swap n m) (.empty n) source
  rwa [session, empty_rename] at swapped

/-- The same operations, once on some symbols and once on other ones of the same kinds. If no name of
either has a line feed, reading what the one knowledge base writes and what the other writes, into fresh
knowledge bases and with fresh sessions, has the same result, clauses and answer. -/
theorem reread_renamed (kind : ∀ s ∈ ops.flatMap Operation.symbols, (f s).kind = s.kind)
    (injective : Set.InjOn f {s | s ∈ ops.flatMap Operation.symbols})
    (plain : ∀ s ∈ ops.flatMap Operation.symbols, '\n' ∉ s.name.toList ∧ '\n' ∉ (f s).name.toList)
    (config fresh : Config) (n m : Nat) :
    let ours := (KnowledgeBase.empty config).run ops
    let theirs := (KnowledgeBase.empty config).run (ops.map (Operation.rename f))
    let first := (KnowledgeBase.empty fresh).read (.empty n) (.ofText ours.dimacs)
    let second := (KnowledgeBase.empty fresh).read (.empty m) (.ofText theirs.dimacs)
    second.1 = first.1 ∧ second.2.2.clauses = first.2.2.clauses ∧
      second.2.2.satisfiable = first.2.2.satisfiable := by
  obtain ⟨ρ, agrees, renamed⟩ := run_agreeing kind injective config
  have oneLine : ((KnowledgeBase.empty config).run ops).PlainNames := fun o member s named =>
    (plain s (symbols_of_run member named)).1
  have alsoOneLine : (((KnowledgeBase.empty config).run ops).rename ρ).PlainNames :=
    plainNames_rename fun o member s named => by
      have listed := symbols_of_run member named
      rw [agrees s listed]
      exact (plain s listed).2
  dsimp only
  rw [renamed, read_renamed oneLine alsoOneLine, read_swapped fresh n m]
  exact ⟨rfl, clauses_rename _, satisfiable_rename _⟩

/-- Names with blanks and marks of the format, in another session. -/
theorem reread_renamed_marks :
    let p : Symbol := ⟨0, 0, "p", .boolean⟩
    let x : Symbol := ⟨0, 1, "x", .integer (some ⟨0, 1⟩)⟩
    let odd : Symbol → Symbol := fun s => if s = p then { p with session := 3, name := "%" } else
      { s with session := 3, name := "p cnf 0 0\r c" }
    let ops : List Operation := [.declare x, .add [.symbol p, .compare .less (.symbol x) (.constant 0)]]
    let ours := (KnowledgeBase.empty {}).run ops
    let theirs := (KnowledgeBase.empty {}).run (ops.map (Operation.rename odd))
    let first := (KnowledgeBase.empty {}).read (.empty 1) (.ofText ours.dimacs)
    let second := (KnowledgeBase.empty {}).read (.empty 2) (.ofText theirs.dimacs)
    first.1 = .ok ⟨some ⟨5, 6⟩, 6⟩ ∧ second.1 = first.1 ∧ second.2.2.clauses = first.2.2.clauses ∧
      second.2.2.satisfiable = first.2.2.satisfiable := by
  intro p x odd ops
  have kind : ∀ s ∈ ops.flatMap Operation.symbols, (odd s).kind = s.kind := by decide
  have injective : Set.InjOn odd {s | s ∈ ops.flatMap Operation.symbols} := by
    have apart : ∀ s ∈ ops.flatMap Operation.symbols, ∀ t ∈ ops.flatMap Operation.symbols,
        odd s = odd t → s = t := by decide
    exact fun s here t there => apart s here t there
  have plain : ∀ s ∈ ops.flatMap Operation.symbols,
      '\n' ∉ s.name.toList ∧ '\n' ∉ (odd s).name.toList := by decide
  exact ⟨by decide +kernel, reread_renamed kind injective plain {} {} 1 2⟩

/-- With a line feed in the name the end of it is read as the end of the formula, and what cannot be
satisfied is satisfiable when reread; with another name it is not. -/
theorem reread_cut_short :
    let clash (name : String) : List Operation :=
      [.add [.symbol ⟨0, 0, name, .boolean⟩], .add [.not (.symbol ⟨0, 0, name, .boolean⟩)]]
    let reread (name : String) :=
      (KnowledgeBase.empty {}).read (.empty 1) (.ofText ((KnowledgeBase.empty {}).run (clash name)).dimacs)
    (reread "p").1 = .ok ⟨some ⟨2, 3⟩, 3⟩ ∧ (reread "p").2.2.satisfiable = .ok false ∧
      (reread "p\n%").1 = .ok ⟨none, 0⟩ ∧ (reread "p\n%").2.2.satisfiable = .ok true := by
  decide +kernel

end Rereading

end KnowledgeBase

end Clausal
