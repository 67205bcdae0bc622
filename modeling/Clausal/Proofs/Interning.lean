import Clausal.Proofs.Registration

/-!
Interning over any run of requests to any sessions. What a session has made stays as it was made: the first
request that makes a symbol for a name fixes its number and its kind, and every later one for the name gets that
symbol or is refused. Main statement: `interning_stable`.
-/

namespace Clausal

/-- A request to a session: for the boolean symbol of a name, for the integer symbol of a name, with a domain if
one is asked for, or for whatever symbol a name has. -/
inductive Request where
  | boolean (name : String)
  | integer (name : String) (declared : Option Domain)
  | get (name : String)
  deriving DecidableEq

namespace Request

def name : Request → String
  | .boolean name => name
  | .integer name _ => name
  | .get name => name

/-- The kind that a request asks for, and makes a symbol of if there is none. -/
def kind? : Request → Option Kind
  | .boolean _ => some .boolean
  | .integer _ declared => some (.integer declared)
  | .get _ => none

end Request

/-- A symbol of the first kind is not to be had by asking for the second one: it is of the other kind, or a domain
is asked for that is not the one it was made with, if it was made with any. -/
inductive Kind.Conflicts : Kind → Kind → Prop where
  | toInteger {asked : Option Domain} : Conflicts .boolean (.integer asked)
  | toBoolean {recorded : Option Domain} : Conflicts (.integer recorded) .boolean
  | domain {recorded : Option Domain} {asked : Domain} (differ : recorded ≠ some asked) :
      Conflicts (.integer recorded) (.integer (some asked))

theorem Kind.admits_eq_false_iff {recorded asked : Kind} :
    recorded.admits asked = false ↔ recorded.Conflicts asked := by
  constructor
  · intro refused
    cases recorded with
    | boolean =>
      cases asked with
      | boolean => cases refused
      | integer asked => exact .toInteger
    | integer recorded =>
      cases asked with
      | boolean => exact .toBoolean
      | integer asked =>
        cases asked with
        | none => cases refused
        | some asked => exact .domain (by simpa [admits] using refused)
  · intro conflicts
    cases conflicts with
    | toInteger => rfl
    | toBoolean => rfl
    | domain differ => simpa [admits] using differ

namespace Session

variable {s : Session} {r : Request} {t : Symbol} {n : Nat} {name : String}

/-- What a session answers, and the session after that. -/
def answer (s : Session) : Request → Except Error (Option Symbol) × Session
  | .boolean name => ((s.boolean name).1.map some, (s.boolean name).2)
  | .integer name declared => ((s.integer name declared).1.map some, (s.integer name declared).2)
  | .get name => (.ok (s.get? name), s)

/-- The symbol that a session makes. -/
def make (s : Session) (name : String) (kind : Kind) : Symbol := ⟨s.number, s.size, name, kind⟩

/-- All a session can do with a request: give a symbol it has, refuse to, have none, or make one. -/
inductive Outcome (s : Session) (r : Request) : Except Error (Option Symbol) × Session → Prop where
  | known {t : Symbol} (found : s.get? r.name = some t) (admits : ∀ asked, r.kind? = some asked → ¬ t.kind.Conflicts asked) :
      Outcome s r (.ok (some t), s)
  | refused {t : Symbol} {asked : Kind} (found : s.get? r.name = some t) (asks : r.kind? = some asked)
      (conflicts : t.kind.Conflicts asked) : Outcome s r (.error (.kindConflict r.name), s)
  | unknown (new : s.get? r.name = none) (asks : r.kind? = none) : Outcome s r (.ok none, s)
  | made {kind : Kind} (new : s.get? r.name = none) (asks : r.kind? = some kind) :
      Outcome s r (.ok (some (s.make r.name kind)), { s with symbols := s.symbols ++ [s.make r.name kind] })

theorem outcome_intern {kind : Kind} (asks : r.kind? = some kind) :
    s.Outcome r ((s.intern r.name kind).1.map some, (s.intern r.name kind).2) := by
  cases known : s.get? r.name with
  | none =>
    simp only [intern, known]
    exact .made known asks
  | some t =>
    simp only [intern, known]
    cases admits : t.kind.admits kind with
    | true =>
      refine .known known fun asked asks' => ?_
      obtain rfl : kind = asked := Option.some.inj (asks.symm.trans asks')
      rw [← Kind.admits_eq_false_iff, admits]
      simp
    | false => exact .refused known asks (Kind.admits_eq_false_iff.mp admits)

theorem outcome (s : Session) (r : Request) : s.Outcome r (s.answer r) := by
  cases r with
  | boolean name => exact outcome_intern (r := .boolean name) rfl
  | integer name declared => exact outcome_intern (r := .integer name declared) rfl
  | get name =>
    rw [answer]
    cases known : s.get? name with
    | none => exact .unknown known rfl
    | some t => exact .known known nofun

/-- What holds of every session: its symbols bear its number and their own in order, and no name twice. -/
structure Sound (n : Nat) (s : Session) : Prop where
  number : s.number = n
  sessions : ∀ t ∈ s.symbols, t.session = n
  ids : s.symbols.map Symbol.id = List.range s.size
  distinct : (s.symbols.map Symbol.name).Nodup

theorem sound_empty (n : Nat) : (empty n).Sound n := ⟨rfl, nofun, rfl, .nil⟩

theorem get?_some (found : s.get? name = some t) : t ∈ s.symbols ∧ t.name = name :=
  ⟨List.mem_of_find?_eq_some found, by simpa using List.find?_some found⟩

theorem get?_none (new : s.get? name = none) : ∀ t ∈ s.symbols, t.name ≠ name := by
  intro t member same
  simpa [same] using List.find?_eq_none.mp new t member

section Outcomes

variable {answer : Except Error (Option Symbol)} {last : Session} (h : s.Outcome r (answer, last))

include h

/-- Step lemma of a session. -/
theorem Sound.outcome (sound : s.Sound n) : last.Sound n := by
  cases h with
  | known => exact sound
  | refused => exact sound
  | unknown => exact sound
  | @made kind new asks =>
    obtain ⟨number, sessions, ids, distinct⟩ := sound
    refine ⟨number, ?_, ?_, ?_⟩
    · simpa [or_imp, forall_and, make, number] using sessions
    · simp [ids, make, size, List.range_succ]
    · have apart := get?_none new
      rw [List.map_append, List.map_singleton, List.nodup_append]
      refine ⟨distinct, List.nodup_singleton _, fun old member added same => ?_⟩
      obtain ⟨t, there, rfl⟩ := List.mem_map.mp member
      rw [List.mem_singleton.mp same]
      exact apart t there

/-- The symbols of a session are kept in the order in which they are first given. -/
theorem Outcome.symbols {before : List Symbol} (symbols : before.eraseDups = s.symbols) :
    (before ++ answer.toOption.join.toList).eraseDups = last.symbols := by
  have old : ∀ t, t ∈ before ↔ t ∈ s.symbols := fun t => by rw [← symbols, List.mem_eraseDups]
  cases h with
  | @known t found admits =>
    have member := (old t).mpr (get?_some found).1
    exact (eraseDups_concat before t).trans ((if_pos member).trans symbols)
  | refused => exact (congrArg List.eraseDups (List.append_nil before)).trans symbols
  | unknown => exact (congrArg List.eraseDups (List.append_nil before)).trans symbols
  | @made kind new asks =>
    have added : s.make r.name kind ∉ before := fun member => get?_none new _ ((old _).mp member) rfl
    rw [← symbols]
    exact (eraseDups_concat before _).trans (if_neg added)

/-- A name gets a kind by the first request that can make a symbol for it, and keeps it. -/
theorem Outcome.kinds (name : String) : ((s.get? name).map Symbol.kind).or (if r.name = name then r.kind? else none) =
    (last.get? name).map Symbol.kind := by
  cases h with
  | known found =>
    by_cases same : r.name = name
    · simp [← same, found]
    · simp [same]
  | refused found =>
    by_cases same : r.name = name
    · simp [← same, found]
    · simp [same]
  | unknown new asks => simp [asks]
  | @made kind new asks =>
    by_cases same : r.name = name
    · subst same
      rw [new, get?, List.find?_append, show s.symbols.find? (·.name == r.name) = none from new]
      simp [asks, make]
    · rw [if_neg same, Option.or_none, get?, get?, List.find?_append]
      simp [make, same]

/-- What a session gives is one of its symbols then, and bears the name. -/
theorem Outcome.given (given : answer = .ok (some t)) : t ∈ last.symbols ∧ t.name = r.name := by
  cases h with
  | known found =>
    cases given
    exact get?_some found
  | refused => cases given
  | unknown => cases given
  | made =>
    cases given
    exact ⟨List.mem_append_right _ (List.mem_singleton_self _), rfl⟩

theorem Outcome.keeps (member : t ∈ s.symbols) : t ∈ last.symbols := by
  cases h with
  | known => exact member
  | refused => exact member
  | unknown => exact member
  | made => exact List.mem_append_left _ member

end Outcomes

/-- A request fails just if it conflicts with the kind that its name has. -/
theorem answer_error_iff (s : Session) (r : Request) (e : Error) : (s.answer r).1 = .error e ↔
    e = .kindConflict r.name ∧ ∃ old asked, (s.get? r.name).map Symbol.kind = some old ∧ r.kind? = some asked ∧
      old.Conflicts asked := by
  have outcome := s.outcome r
  generalize s.answer r = answered at outcome
  cases outcome with
  | @known t found admits =>
    refine iff_of_false (by simp) ?_
    rintro ⟨-, old, asked, kind, asks, conflicts⟩
    obtain rfl : t.kind = old := by simpa [found] using kind
    exact admits asked asks conflicts
  | @refused t asked found asks conflicts =>
    have kind : (s.get? r.name).map Symbol.kind = some t.kind := by rw [found, Option.map_some]
    constructor
    · rintro ⟨⟩
      exact ⟨rfl, t.kind, asked, kind, asks, conflicts⟩
    · rintro ⟨rfl, -⟩
      rfl
  | unknown new asks => simp [asks]
  | made new asks => simp [new]

theorem answer_of_error {e : Error} (failed : (s.answer r).1 = .error e) : (s.answer r).2 = s := by
  have outcome := s.outcome r
  generalize s.answer r = answered at outcome failed
  cases outcome with
  | known => rfl
  | refused => rfl
  | unknown => rfl
  | made => cases failed

theorem Sound.id_lt (sound : s.Sound n) (member : t ∈ s.symbols) : t.id < s.size := by
  rw [← List.mem_range, ← sound.ids]
  exact List.mem_map_of_mem member

/-- A symbol is told apart from the others of its session by its number, and by its name. -/
theorem Sound.eq_iff {u : Symbol} (sound : s.Sound n) (member : t ∈ s.symbols) (member' : u ∈ s.symbols) :
    (t.id = u.id ↔ t = u) ∧ (t.name = u.name ↔ t = u) := by
  have ids : (s.symbols.map Symbol.id).Nodup := sound.ids ▸ List.nodup_range
  exact ⟨⟨fun same => List.inj_on_of_nodup_map ids member member' same, congrArg Symbol.id⟩,
    ⟨fun same => List.inj_on_of_nodup_map sound.distinct member member' same, congrArg Symbol.name⟩⟩

theorem Sound.get?_name (sound : s.Sound n) (member : t ∈ s.symbols) : s.get? t.name = some t := by
  cases found : s.get? t.name with
  | none => exact absurd rfl (get?_none found t member)
  | some u =>
    obtain ⟨member', named⟩ := get?_some found
    rw [(sound.eq_iff member' member).2.mp named]

end Session

/-- A call on a session, with what was answered. -/
structure Answered where
  session : Nat
  request : Request
  answer : Except Error (Option Symbol)

/-- Sessions, by their numbers. -/
abbrev Sessions := Nat → Session

namespace Sessions

variable {σ : Sessions} {calls : List (Nat × Request)} {n m : Nat} {r : Request} {name : String} {t u : Symbol}

/-- The sessions before any call. -/
def fresh : Sessions := Session.empty

/-- A request to the session with a number. -/
def ask (σ : Sessions) (call : Nat × Request) : Sessions := Function.update σ call.1 ((σ call.1).answer call.2).2

/-- The sessions after some calls. -/
def after (σ : Sessions) (calls : List (Nat × Request)) : Sessions := calls.foldl ask σ

def transcript (σ : Sessions) : List (Nat × Request) → List Answered
  | [] => []
  | (n, r) :: rest => ⟨n, r, ((σ n).answer r).1⟩ :: (σ.ask (n, r)).transcript rest

/-- The symbols that the calls on a session were answered with, in order. -/
def granted (n : Nat) (answers : List Answered) : List Symbol :=
  answers.filterMap fun a => if a.session = n then a.answer.toOption.join else none

/-- The kind of symbol that is asked for by the first call on a session that can make one for a name. -/
def recorded (n : Nat) (name : String) (calls : List (Nat × Request)) : Option Kind :=
  calls.findSome? fun call => if call.1 = n ∧ call.2.name = name then call.2.kind? else none

theorem after_concat (σ : Sessions) (calls : List (Nat × Request)) (call : Nat × Request) :
    σ.after (calls ++ [call]) = (σ.after calls).ask call := by
  simp [after]

theorem transcript_concat (σ : Sessions) (calls : List (Nat × Request)) (n : Nat) (r : Request) :
    σ.transcript (calls ++ [(n, r)]) = σ.transcript calls ++ [⟨n, r, ((σ.after calls n).answer r).1⟩] := by
  induction calls generalizing σ with
  | nil => rfl
  | cons call calls ih => exact congrArg (_ :: ·) (ih (σ.ask call))

theorem granted_concat (n : Nat) (answers : List Answered) (a : Answered) :
    granted n (answers ++ [a]) = granted n answers ++
      (if a.session = n then a.answer.toOption.join else none).toList := by
  rw [granted, List.filterMap_append, granted, List.filterMap_cons, List.filterMap_nil]
  split
  · next nothing => rw [nothing, Option.toList_none]
  · next t given => rw [given, Option.toList_some]

theorem recorded_concat (n : Nat) (name : String) (calls : List (Nat × Request)) (call : Nat × Request) :
    recorded n name (calls ++ [call]) =
      (recorded n name calls).or (if call.1 = n ∧ call.2.name = name then call.2.kind? else none) := by
  rw [recorded, List.findSome?_append, recorded, List.findSome?_cons, List.findSome?_nil]
  split
  · next given => rw [given]
  · next nothing => rw [nothing]

/-- What some calls have to do with a session after them: its symbols are what it gave, in the order in which it
first gave them, and the kind of each was fixed by the first call that could make it. -/
structure Ledger (calls : List (Nat × Request)) (n : Nat) (s : Session) : Prop extends s.Sound n where
  granted : (granted n (fresh.transcript calls)).eraseDups = s.symbols
  recorded : ∀ name, recorded n name calls = (s.get? name).map Symbol.kind
  given : ∀ r t, ⟨n, r, .ok (some t)⟩ ∈ fresh.transcript calls → t ∈ s.symbols ∧ t.name = r.name

/-- A call on another session leaves a session as it is. -/
theorem Ledger.other {s : Session} (ledger : Ledger calls n s) (apart : m ≠ n) :
    Ledger (calls ++ [(m, r)]) n s := by
  obtain ⟨sound, granted, recorded, given⟩ := ledger
  refine ⟨sound, ?_, fun name => ?_, fun q t member => given q t ?_⟩
  · rw [transcript_concat, granted_concat, if_neg apart, Option.toList_none, List.append_nil]
    exact granted
  · rw [recorded_concat, if_neg (fun both => apart both.1), Option.or_none]
    exact recorded name
  · rw [transcript_concat] at member
    simpa [Ne.symm apart] using member

/-- Step lemma of a call. -/
theorem Ledger.ask (ledger : Ledger calls n (fresh.after calls n)) :
    Ledger (calls ++ [(n, r)]) n ((fresh.after calls n).answer r).2 := by
  obtain ⟨sound, granted, recorded, given⟩ := ledger
  rcases answered : (fresh.after calls n).answer r with ⟨answer, last⟩
  have outcome : (fresh.after calls n).Outcome r (answer, last) := answered ▸ (fresh.after calls n).outcome r
  refine ⟨sound.outcome outcome, ?_, fun name => ?_, fun q t member => ?_⟩
  · rw [transcript_concat, answered, granted_concat, if_pos rfl]
    exact outcome.symbols granted
  · rw [recorded_concat, recorded, ← outcome.kinds name]
    simp
  · rw [transcript_concat, answered, List.mem_append, List.mem_singleton] at member
    rcases member with before | now
    · obtain ⟨there, named⟩ := given q t before
      exact ⟨outcome.keeps there, named⟩
    · obtain ⟨-, rfl, answer⟩ := Answered.mk.injEq .. ▸ now
      exact outcome.given answer.symm

theorem ledger (calls : List (Nat × Request)) (n : Nat) : Ledger calls n (fresh.after calls n) := by
  induction calls using List.reverseRecOn with
  | nil => exact ⟨Session.sound_empty n, rfl, fun _ => rfl, nofun⟩
  | append_singleton calls call ih =>
    obtain ⟨m, r⟩ := call
    rw [after_concat]
    by_cases same : m = n
    · subst same
      rw [Sessions.ask, Function.update_self]
      exact ih.ask
    · rw [Sessions.ask, Function.update_of_ne (Ne.symm same)]
      exact ih.other same

/-- Symbols of different sessions have different keys, and in one session a key tells symbols apart as their
names do, as long as no number leaves its word. -/
theorem key_eq_iff {s : Session} {s' : Session} (sound : s.Sound m) (sound' : s'.Sound n) (same : m = n → s = s')
    (few : s.size < 2 ^ 32) (few' : s'.size < 2 ^ 32) (member : t ∈ s.symbols) (member' : u ∈ s'.symbols) :
    (t.key = u.key ↔ m = n ∧ t.name = u.name) ∧ (t.key = u.key ↔ t = u) := by
  have byKey : t.key = u.key → t = u := by
    intro keys
    obtain ⟨numbers, words⟩ := Prod.mk.injEq .. ▸ keys
    rw [sound.sessions t member, sound'.sessions u member'] at numbers
    obtain rfl := same numbers
    have ids := congrArg UInt32.toNat words
    rw [UInt32.toNat_ofNat_of_lt' ((sound.id_lt member).trans few),
      UInt32.toNat_ofNat_of_lt' ((sound.id_lt member').trans few)] at ids
    exact (sound.eq_iff member member').1.mp ids
  have byName : m = n ∧ t.name = u.name → t = u := by
    rintro ⟨numbers, names⟩
    obtain rfl := same numbers
    exact (sound.eq_iff member member').2.mp names
  have back : t = u → m = n ∧ t.name = u.name := by
    rintro rfl
    exact ⟨(sound.sessions t member).symm.trans (sound'.sessions t member'), rfl⟩
  exact ⟨⟨fun keys => back (byKey keys), fun named => congrArg Symbol.key (byName named)⟩, byKey, congrArg Symbol.key⟩

/-- Over any calls on any sessions, each with fewer than 2 ^ 32 names: two symbols that were given have the same key
just if they are of the same session under the same name, and then they are the same; the numbers of the symbols of
a session count them in the order in which it first gave them; the kind of a symbol is the one asked for by the
first call that could make it. The next call fails, with its name, just if it conflicts with that kind, and then
it changes nothing. -/
theorem interning_stable (calls : List (Nat × Request)) (few : ∀ n, (fresh.after calls n).size < 2 ^ 32) :
    (∀ m p t n q u, ⟨m, p, .ok (some t)⟩ ∈ fresh.transcript calls → ⟨n, q, .ok (some u)⟩ ∈ fresh.transcript calls →
        (t.key = u.key ↔ m = n ∧ p.name = q.name) ∧ (t.key = u.key ↔ t = u)) ∧
      (∀ n, (granted n (fresh.transcript calls)).eraseDups.map Symbol.id = List.range (fresh.after calls n).size) ∧
      (∀ n r t, ⟨n, r, .ok (some t)⟩ ∈ fresh.transcript calls → recorded n r.name calls = some t.kind) ∧
      ∀ n r e,
        (((fresh.after calls n).answer r).1 = .error e ↔ e = .kindConflict r.name ∧
          ∃ old asked, recorded n r.name calls = some old ∧ r.kind? = some asked ∧ old.Conflicts asked) ∧
        (((fresh.after calls n).answer r).1 = .error e → fresh.after (calls ++ [(n, r)]) = fresh.after calls) := by
  refine ⟨fun m p t n q u first second => ?_, fun n => ?_, fun n r t given => ?_, fun n r e => ⟨?_, fun failed => ?_⟩⟩
  · obtain ⟨member, named⟩ := (ledger calls m).given p t first
    obtain ⟨member', named'⟩ := (ledger calls n).given q u second
    rw [← named, ← named']
    exact key_eq_iff (ledger calls m).toSound (ledger calls n).toSound (congrArg _) (few m) (few n) member member'
  · rw [(ledger calls n).granted]
    exact (ledger calls n).ids
  · obtain ⟨member, named⟩ := (ledger calls n).given r t given
    rw [(ledger calls n).recorded, ← named, (ledger calls n).get?_name member, Option.map_some]
  · rw [Session.answer_error_iff, (ledger calls n).recorded]
  · rw [after_concat, Sessions.ask, Session.answer_of_error failed, Function.update_eq_self]

theorem length_transcript (σ : Sessions) (calls : List (Nat × Request)) :
    (σ.transcript calls).length = calls.length := by
  induction calls generalizing σ with
  | nil => rfl
  | cons call calls ih => exact congrArg (· + 1) (ih (σ.ask call))

/-- No session has more names than there were calls. -/
theorem size_after_le (calls : List (Nat × Request)) (n : Nat) : (fresh.after calls n).size ≤ calls.length := by
  rw [Session.size, ← (ledger calls n).granted]
  calc (granted n (fresh.transcript calls)).eraseDups.length
      ≤ (granted n (fresh.transcript calls)).length :=
        ((nodup_eraseDups _).subperm fun t => List.mem_eraseDups.mp).length_le
    _ ≤ (fresh.transcript calls).length := List.length_filterMap_le ..
    _ = calls.length := length_transcript fresh calls

/-- Two sessions that are asked for the same name, and one that is asked for an integer in three ways: with no
domain it had none to begin with, so asking for one is refused. -/
theorem interning_stable_refusal :
    let calls : List (Nat × Request) :=
      [(0, .boolean "p"), (1, .boolean "p"), (0, .integer "x" none), (0, .get "x"), (0, .boolean "p")]
    let symbol (n : Nat) : Symbol := ⟨n, 0, "p", .boolean⟩
    (symbol 0).key ≠ (symbol 1).key ∧
      (granted 0 (fresh.transcript calls)).eraseDups.map Symbol.id = List.range (fresh.after calls 0).size ∧
      recorded 0 "x" calls = some (.integer none) ∧
      ((fresh.after calls 0).answer (.integer "x" (some ⟨0, 3⟩))).1 = .error (.kindConflict "x") ∧
      fresh.after (calls ++ [(0, .integer "x" (some ⟨0, 3⟩))]) = fresh.after calls := by
  intro calls symbol
  have few : ∀ n, (fresh.after calls n).size < 2 ^ 32 := fun n => (size_after_le calls n).trans_lt (by decide)
  obtain ⟨keys, ids, kinds, errors⟩ := interning_stable calls few
  have here : ⟨0, .boolean "p", .ok (some (symbol 0))⟩ ∈ fresh.transcript calls := List.mem_of_getElem? (i := 0) rfl
  have there : ⟨1, .boolean "p", .ok (some (symbol 1))⟩ ∈ fresh.transcript calls := List.mem_of_getElem? (i := 1) rfl
  have recorded : recorded 0 "x" calls = some (.integer none) := by decide +kernel
  obtain ⟨refused, unchanged⟩ := errors 0 (.integer "x" (some ⟨0, 3⟩)) (.kindConflict "x")
  have failed := refused.mpr ⟨rfl, .integer none, .integer (some ⟨0, 3⟩), recorded, rfl, .domain nofun⟩
  exact ⟨fun same => absurd ((keys _ _ _ _ _ _ here there).1.mp same).1 (by decide), ids 0, recorded, failed,
    unchanged failed⟩

end Sessions

end Clausal
