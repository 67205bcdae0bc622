import Clausal.Proofs.Entailment
import Clausal.Proofs.Interning
import Clausal.Proofs.Typing
import Clausal.Strategy

/-!
Plays that a strategy forces. A strategy says of the names in it which can be true together, and a
play is forced if its name is true whenever all rules hold. The verdict on a play and the answer of
a loaded knowledge base both say just that, whatever the configuration, and whatever symbols there
were before. Of the built-in strategies the one forces the queens and the other the jacks, and
neither any other card. Main statements: `isForced_iff`, `entails_play_iff` and `forced_cards`.
-/

namespace Clausal

section Meaning

variable {w : String → Bool} {card other : Nat}

/-- A term is true if its name has the truth value that it gives to it. -/
def Term.Holds (w : String → Bool) (t : Term) : Prop := w t.name = t.positive

@[simp] theorem Term.holds_held : (held card).Holds w ↔ w (cardName card) = true := Iff.rfl

@[simp] theorem Term.holds_notHeld : (notHeld card).Holds w ↔ w (cardName card) = false := Iff.rfl

@[simp] theorem Term.holds_played : (played card).Holds w ↔ w (playName card) = true := Iff.rfl

@[simp] theorem Term.holds_notPlayed : (notPlayed card).Holds w ↔ w (playName card) = false := Iff.rfl

/-- Some term of each rule is true. -/
def RulesHold (w : String → Bool) (rules : List Rule) : Prop := ∀ rule ∈ rules, ∃ t ∈ rule, t.Holds w

/-- The play of a card is true whenever all facts and rules hold. -/
def Strategy.Forces (s : Strategy) (card : Nat) : Prop :=
  ∀ w, RulesHold w (s.facts ++ s.rules) → w (playName card) = true

theorem playName_inj : playName card = playName other ↔ card = other := by
  refine ⟨fun same => ?_, congrArg playName⟩
  rw [playName, playName, String.append_right_inj] at same
  exact Text.toString_inj.mp same

/-- What is said of a card and of its play have different names, as they start differently. -/
theorem cardName_ne_playName : cardName card ≠ playName other := by
  intro same
  have starts := congrArg (fun name => name.toList.head?) same
  simp [cardName, playName, String.toList_append] at starts

/-- The truth values by which all is true but the play of one card. -/
def allBut (card : Nat) (name : String) : Bool := decide (name ≠ playName card)

theorem allBut_play : allBut card (playName card) = false := by simp [allBut]

theorem allBut_card : allBut card (cardName other) = true := by simp [allBut, cardName_ne_playName]

theorem allBut_play_of_ne (different : other ≠ card) : allBut card (playName other) = true := by
  simpa [allBut, playName_inj] using different

/-- A strategy that asks for cards to be held and for cards to be played forces just the latter ones. -/
theorem Strategy.forces_iff {s : Strategy} {held plays : List Nat}
    (meaning : ∀ w, RulesHold w (s.facts ++ s.rules) ↔
      (∀ c ∈ held, w (cardName c) = true) ∧ ∀ c ∈ plays, w (playName c) = true) :
    s.Forces card ↔ card ∈ plays := by
  constructor
  · intro forces
    by_contra free
    have holds : RulesHold (allBut card) (s.facts ++ s.rules) := by
      refine (meaning _).mpr ⟨fun c _ => allBut_card, fun c played => allBut_play_of_ne ?_⟩
      rintro rfl
      exact free played
    have played := forces _ holds
    rw [allBut_play] at played
    cases played
  · exact fun played w holds => ((meaning w).mp holds).2 card played

end Meaning

namespace Strategy

variable {w : String → Bool} {card : Nat}

/-- All kings and queens are held, and so the queens are played. -/
theorem rulesHold_marriage : RulesHold w (marriage.facts ++ marriage.rules) ↔
    (∀ c ∈ marriages.flatMap fun (king, queen) => [king, queen], w (cardName c) = true) ∧
      ∀ c ∈ marriages.map Prod.snd, w (playName c) = true := by
  simp only [RulesHold, marriage, List.forall_mem_append, List.forall_mem_flatMap, List.forall_mem_map]
  rw [← forall₂_and, ← forall₂_and]
  refine forall₂_congr fun (king, queen) _ => ?_
  cases first : w (cardName king) <;> cases second : w (cardName queen) <;> cases played : w (playName queen) <;>
    simp [first, second, played]

/-- All jacks are held, and so they are played. -/
theorem rulesHold_trumpExchange : RulesHold w (trumpExchange.facts ++ trumpExchange.rules) ↔
    (∀ c ∈ jacks, w (cardName c) = true) ∧ ∀ c ∈ jacks, w (playName c) = true := by
  simp only [RulesHold, trumpExchange, List.forall_mem_append, List.forall_mem_map, List.forall_mem_flatMap]
  rw [← forall₂_and, ← forall₂_and]
  refine forall₂_congr fun jack _ => ?_
  cases held : w (cardName jack) <;> cases played : w (playName jack) <;> simp [held, played]

theorem marriage_forces_iff : marriage.Forces card ↔ card ∈ [3, 8, 13, 18] :=
  forces_iff fun _ => rulesHold_marriage

theorem trumpExchange_forces_iff : trumpExchange.Forces card ↔ card ∈ [4, 9, 14, 19] :=
  forces_iff fun _ => rulesHold_trumpExchange

end Strategy

section Loading

variable {kb more : KnowledgeBase} {session mid last : Session} {rule : Rule} {seen rules : List Rule}
  {disjuncts : List Expr} {added : List (List Expr)} {t : Term} {e : Expr} {play : Symbol} {α : Assignment}
  {w : String → Bool}

/-- What a session has for a name it has ever after. -/
def Session.Keeps (session last : Session) : Prop :=
  ∀ {name : String} {s : Symbol}, session.get? name = some s → last.get? name = some s

/-- The expression of a term, on the symbol that a session has for the name. -/
def Term.Denotes (session : Session) (t : Term) (e : Expr) : Prop :=
  ∃ s, session.get? t.name = some s ∧ s.isBoolean = true ∧ e = if t.positive then .symbol s else .not (.symbol s)

theorem Term.Denotes.kept (denotes : t.Denotes session e) (keeps : session.Keeps last) : t.Denotes last e := by
  obtain ⟨s, known, rest⟩ := denotes
  exact ⟨s, keeps known, rest⟩

theorem Term.Denotes.isBoolean (denotes : t.Denotes session e) : ∀ s ∈ e.symbols, s.isBoolean = true := by
  obtain ⟨s, -, boolean, rfl⟩ := denotes
  cases t.positive <;> simpa [Expr.symbols] using boolean

theorem isBoolean_of_denotes (denotes : List.Forall₂ (Term.Denotes session) rule disjuncts) :
    ∀ e ∈ disjuncts, ∀ s ∈ e.symbols, s.isBoolean = true := by
  induction denotes with
  | nil => simp
  | cons first rest ih => exact List.forall_mem_cons.mpr ⟨first.isBoolean, ih⟩

/-- By induction on the terms: each gets its symbol. -/
theorem Session.exprs_ok (result : session.exprs rule = (.ok disjuncts, last)) :
    session.Keeps last ∧ List.Forall₂ (Term.Denotes last) rule disjuncts := by
  induction rule generalizing session disjuncts with
  | nil =>
    cases result
    exact ⟨id, .nil⟩
  | cons t rule ih =>
    rw [exprs] at result
    split at result
    · cases result
    · next s mid made =>
      dsimp only at result
      split at result
      · cases result
      · next es later rest =>
        cases result
        obtain ⟨keeps, denotes⟩ := ih rest
        obtain ⟨named, boolean, -⟩ := boolean_ok made
        have known : mid.get? t.name = some s := by rw [get?_boolean made, if_pos rfl]
        exact ⟨fun old => keeps (boolean_kept made old), .cons ⟨s, keeps known, boolean, rfl⟩ denotes⟩

/-- A knowledge base of rules, the latest first, on the symbols that a session has for their names. No
symbol of it is an integer. -/
structure Loaded (kb : KnowledgeBase) (session : Session) (rules : List Rule) (added : List (List Expr)) : Prop where
  faithful : kb.Faithful added
  boolean : ∀ s, kb.encodings.get? (.symbol s) = none
  denotes : List.Forall₂ (List.Forall₂ (Term.Denotes session)) rules added

theorem loaded_empty (config : Config) (session : Session) : Loaded (.empty config) session [] [] :=
  ⟨.empty config, fun _ => rfl, .nil⟩

theorem Loaded.kept (loaded : Loaded kb session rules added) (keeps : session.Keeps last) :
    Loaded kb last rules added :=
  ⟨loaded.faithful, loaded.boolean,
    loaded.denotes.imp fun _ _ denotes => denotes.imp fun _ _ denotes => denotes.kept keeps⟩

theorem Loaded.add {stored : Stored} (loaded : Loaded kb session seen added)
    (denotes : List.Forall₂ (Term.Denotes session) rule disjuncts)
    (succeeds : kb.add disjuncts = (.ok stored, more)) : Loaded more session (rule :: seen) (disjuncts :: added) := by
  rcases KnowledgeBase.add_spec loaded.faithful succeeds with ⟨cause, ⟨⟩, -⟩ | ⟨_, mid, c, -, compiles, literals, rfl⟩
  refine ⟨.store literals compiles.faithful, fun s => ?_, .cons denotes loaded.denotes⟩
  rw [KnowledgeBase.store_frame]
  refine Option.eq_none_iff_forall_ne_some.mpr fun enc known => ?_
  have integer : s.isBoolean = false := (compiles.faithful.encoded _ enc known).2
  obtain ⟨e, member, part⟩ := compiles.encodings _ enc (loaded.boolean s) known
  rw [isBoolean_of_denotes denotes e member s (Expr.mem_symbols_of_parts part)] at integer
  cases integer

/-- Step by step, by induction on the rules. -/
theorem Loaded.addRules (loaded : Loaded kb session seen added)
    (result : kb.addRules session rules = (.ok more, last)) :
    ∃ added', Loaded more last (rules.reverse ++ seen) added' := by
  induction rules generalizing kb session seen added with
  | nil =>
    cases result
    exact ⟨added, loaded⟩
  | cons rule rules ih =>
    rw [KnowledgeBase.addRules] at result
    split at result
    · cases result
    · next disjuncts mid made =>
      obtain ⟨keeps, denotes⟩ := Session.exprs_ok made
      split at result
      · cases result
      · next stored next succeeds =>
        rw [List.reverse_cons, List.append_assoc, List.singleton_append]
        exact ih ((loaded.kept keeps).add denotes succeeds) result

theorem Session.exprs_error {cause : Error} (result : session.exprs rule = (.error cause, last)) :
    ∃ name, cause = .kindConflict name := by
  induction rule generalizing session with
  | nil => cases result
  | cons t rule ih =>
    rw [exprs] at result
    split at result
    · next refused =>
      cases result
      exact ⟨t.name, boolean_error refused⟩
    · dsimp only at result
      split at result
      · next later =>
        cases result
        exact ih later
      · cases result

/-- Adding rules never fails for want of a strategy. -/
theorem addRules_error {cause : Error} (result : kb.addRules session rules = (.error cause, last)) (name : String) :
    cause ≠ .strategyMissing name := by
  rintro rfl
  induction rules generalizing kb session with
  | nil => cases result
  | cons rule rules ih =>
    rw [KnowledgeBase.addRules] at result
    split at result
    · next refused =>
      cases result
      obtain ⟨_, ⟨⟩⟩ := Session.exprs_error refused
    · split at result
      · next failed =>
        cases result
        rcases KnowledgeBase.add_error_cases (congrArg Prod.fst failed) with ⟨_, ⟨⟩⟩ | short
        cases short
      · exact ih result

/-- An assignment and the truth values of names say the same of the symbols of a knowledge base and of a play. -/
def Agree (kb : KnowledgeBase) (session : Session) (play : Symbol) (α : Assignment) (w : String → Bool) : Prop :=
  ∀ s, (∃ a, kb.booleans.get? s = some a) ∨ s = play → session.get? s.name = some s → α.boolean? s = some (w s.name)

section Agreement

variable (agree : Agree kb session play α w)

include agree

theorem Agree.truth_iff (denotes : t.Denotes session e) (compiled : ∃ l, kb.literal? e = some l) :
    e.truth? α = some true ↔ t.Holds w := by
  obtain ⟨s, known, -, rfl⟩ := denotes
  have named : s.name = t.name := (Session.get?_some known).2
  have registered : ∃ a, kb.booleans.get? s = some a := by
    obtain ⟨l, literal⟩ := compiled
    cases atom : kb.booleans.get? s with
    | some a => exact ⟨a, rfl⟩
    | none => cases positive : t.positive <;> simp [positive, KnowledgeBase.literal?, atom] at literal
  have value : α.boolean? s = some (w t.name) := named ▸ agree s (.inl registered) (named ▸ known)
  cases positive : t.positive <;> simp [Term.Holds, Expr.truth?, value, positive]

theorem Agree.satisfies_iff (denotes : List.Forall₂ (Term.Denotes session) rule disjuncts)
    (compiled : ∀ e ∈ disjuncts, ∃ l, kb.literal? e = some l) :
    α.Satisfies disjuncts ↔ ∃ t ∈ rule, t.Holds w := by
  unfold Assignment.Satisfies
  induction denotes with
  | nil => simp
  | cons first rest ih =>
    obtain ⟨now, later⟩ := List.forall_mem_cons.mp compiled
    rw [List.exists_mem_cons_iff, List.exists_mem_cons_iff, agree.truth_iff first now, ih later]

theorem Agree.all_satisfies_iff (denotes : List.Forall₂ (List.Forall₂ (Term.Denotes session)) rules added)
    (compiled : ∀ disjuncts ∈ added, ∀ e ∈ disjuncts, ∃ l, kb.literal? e = some l) :
    (∀ disjuncts ∈ added, α.Satisfies disjuncts) ↔ RulesHold w rules := by
  unfold RulesHold
  induction denotes with
  | nil => simp
  | cons first rest ih =>
    obtain ⟨now, later⟩ := List.forall_mem_cons.mp compiled
    rw [List.forall_mem_cons, List.forall_mem_cons, agree.satisfies_iff first now, ih later]

end Agreement

/-- The assignment to the symbols of a knowledge base and of a play that the truth values of names give. -/
def assignment (kb : KnowledgeBase) (play : Symbol) (w : String → Bool) : Assignment where
  boolean? s := if (kb.booleans.get? s).isSome ∨ s = play then some (w s.name) else none
  integer? _ := none

theorem agree_assignment (kb : KnowledgeBase) (session : Session) (play : Symbol) (w : String → Bool) :
    Agree kb session play (assignment kb play w) w := by
  intro s given _
  rw [← Option.isSome_iff_exists] at given
  exact if_pos given

/-- The truth values that an assignment gives to the names that a session has symbols for. -/
def truths (session : Session) (α : Assignment) (name : String) : Bool :=
  ((session.get? name).bind α.boolean?).getD false

theorem Loaded.fitsWith_assignment (loaded : Loaded kb session rules added) (boolean : play.isBoolean = true) :
    kb.FitsWith (.symbol play) (assignment kb play w) := by
  refine ⟨fun s => ?_, fun s => ?_, nofun⟩
  · have same : s ∈ (Expr.symbol play).symbols ∧ s.isBoolean = true ↔ s = play := by
      rw [Expr.symbols, List.mem_singleton, and_iff_left_iff_imp]
      rintro rfl
      exact boolean
    rw [same, ← Option.isSome_iff_exists, ← Option.isSome_iff_exists]
    simp [assignment]
  · refine iff_of_false (by simp [assignment]) ?_
    rintro (⟨enc, known⟩ | ⟨member, integer⟩)
    · rw [loaded.boolean s] at known
      cases known
    · rw [List.mem_singleton.mp member, boolean] at integer
      cases integer

theorem agree_truths (fits : kb.FitsWith (.symbol play) α) (boolean : play.isBoolean = true) :
    Agree kb session play α (truths session α) := by
  intro s given known
  have valued : ∃ b, α.boolean? s = some b := by
    refine (fits.boolean s).mpr (given.imp_right ?_)
    rintro rfl
    exact ⟨List.mem_singleton_self s, boolean⟩
  obtain ⟨b, value⟩ := valued
  rw [truths, known, Option.bind_some, value, Option.getD_some]

/-- The answer about a play, of a knowledge base of rules, is whether its name is true whenever the rules hold. -/
theorem Loaded.entails_iff {b : Bool} (loaded : Loaded kb session rules added) {name : String}
    (known : session.get? name = some play) (boolean : play.isBoolean = true)
    (answers : kb.entails (.symbol play) = .ok b) : b = true ↔ ∀ w, RulesHold w rules → w name = true := by
  have named : play.name = name := (Session.get?_some known).2
  have played : ∀ {α w}, Agree kb session play α w → ((Expr.symbol play).truth? α = some true ↔ w name = true) := by
    intro α w agree
    have value := agree play (.inr rfl) (named ▸ known)
    rw [Expr.truth?, value, named, Option.some.injEq]
  have hold : ∀ {α w}, Agree kb session play α w →
      ((∀ disjuncts ∈ added, α.Satisfies disjuncts) ↔ RulesHold w rules) :=
    fun agree => agree.all_satisfies_iff loaded.denotes loaded.faithful.compiled
  rw [loaded.faithful.entails_iff answers]
  constructor
  · intro all w holds
    have agree := agree_assignment kb session play w
    exact (played agree).mp (all _ (loaded.fitsWith_assignment boolean) ((hold agree).mpr holds))
  · intro forces α fits satisfied
    have agree : Agree kb session play α (truths session α) := agree_truths fits boolean
    exact (played agree).mpr (forces _ ((hold agree).mp satisfied))

end Loading

namespace Registry

variable {r : Registry} {s : Strategy} {session mid last : Session} {name : String} {card : Nat} {kb : KnowledgeBase}
  {play : Symbol} {b : Bool} {missing : Missing} {verdict : Verdict}

/-- The built-in strategies stand under their names. -/
structure HasBuiltins (r : Registry) : Prop where
  marriage : r.get? "marriage" = some .marriage
  trumpExchange : r.get? "trumpex" = some .trumpExchange

theorem get?_register_self (r : Registry) (s : Strategy) : (r.register s).get? s.name = some s := by
  have dropped : (r.strategies.filter (·.name != s.name)).find? (·.name == s.name) = none := by
    simp [List.find?_eq_none]
  rw [get?, register, List.find?_append, dropped]
  simp

theorem get?_register_of_ne (different : s.name ≠ name) : (r.register s).get? name = r.get? name := by
  have others : ∀ t : Strategy, t.name = name → (t.name != s.name) = true := by
    rintro t rfl
    simpa using different.symm
  rw [get?, register, List.find?_append, List.find?_filter, List.find?_cons_of_neg (by simpa using different),
    List.find?_nil, Option.or_none, get?]
  refine congrArg (List.find? · r.strategies) (funext fun t => Bool.eq_iff_iff.mpr ?_)
  rw [decide_eq_true_eq, and_iff_right_iff_imp]
  exact fun same => others t (by simpa using same)

theorem hasBuiltins_withBuiltins (config : Config) : (withBuiltins config).HasBuiltins :=
  ⟨(get?_register_of_ne (by decide)).trans (get?_register_self _ .marriage), get?_register_self _ .trumpExchange⟩

/-- Strategies of other names can be registered. -/
theorem HasBuiltins.register (builtins : r.HasBuiltins) (other : s.name ∉ ["marriage", "trumpex"]) :
    (r.register s).HasBuiltins := by
  obtain ⟨first, second⟩ : s.name ≠ "marriage" ∧ s.name ≠ "trumpex" := by simpa using other
  exact ⟨(get?_register_of_ne first).trans builtins.marriage,
    (get?_register_of_ne second).trans builtins.trumpExchange⟩

theorem load_loaded (known : r.get? name = some s) (result : r.load session name = (.ok kb, last)) :
    ∃ rules added, Loaded kb last rules added ∧ ∀ w, RulesHold w rules ↔ RulesHold w (s.facts ++ s.rules) := by
  rw [load, known] at result
  obtain ⟨added, loaded⟩ := (loaded_empty r.config session).addRules result
  exact ⟨_, added, loaded, fun w => by simp [RulesHold, or_comm]⟩

/-- What a loaded knowledge base answers about a play is whether the strategy forces it. -/
theorem entails_play_iff (known : r.get? name = some s) (result : r.load session name = (.ok kb, mid))
    (named : mid.boolean (playName card) = (.ok play, last)) (answers : kb.entails (.symbol play) = .ok b) :
    b = true ↔ s.Forces card := by
  obtain ⟨rules, added, loaded, same⟩ := load_loaded known result
  have found : last.get? (playName card) = some play := by rw [Session.get?_boolean named, if_pos rfl]
  have boolean := (Session.boolean_ok named).2.1
  rw [(loaded.kept (Session.boolean_kept named)).entails_iff found boolean answers, Strategy.Forces]
  exact forall_congr' fun w => imp_congr_left (same w)

/-- A verdict under a strategy that there is rests on what its loaded knowledge base answers. -/
theorem isForced_ok (known : r.get? name = some s)
    (answers : r.isForced session name card missing = (.ok verdict, last)) :
    ∃ kb mid play b, r.load session name = (.ok kb, mid) ∧ mid.boolean (playName card) = (.ok play, last) ∧
      kb.entails (.symbol play) = .ok b ∧ verdict = if b then .forced else .notForced := by
  unfold isForced at answers
  split at answers
  · next absent mid result =>
    rw [load, known] at result
    exact absurd rfl (addRules_error result absent)
  · cases answers
  · next kb mid result =>
    split at answers
    · cases answers
    · next play last' named =>
      obtain ⟨decided, rfl⟩ := Prod.mk.injEq .. ▸ answers
      cases entailed : kb.entails (.symbol play) with
      | error cause =>
        rw [entailed] at decided
        cases decided
      | ok b =>
        rw [entailed] at decided
        exact ⟨kb, mid, play, b, result, named, entailed, (Except.ok.inj decided).symm⟩

/-- The verdict on a play is whether the strategy forces it. -/
theorem isForced_iff (known : r.get? name = some s)
    (answers : r.isForced session name card missing = (.ok verdict, last)) :
    verdict = .forced ∧ s.Forces card ∨ verdict = .notForced ∧ ¬ s.Forces card := by
  obtain ⟨kb, mid, play, b, result, named, entailed, decided⟩ := isForced_ok known answers
  have correct := entails_play_iff known result named entailed
  cases b with
  | true => exact .inl ⟨decided, correct.mp rfl⟩
  | false => exact .inr ⟨decided, fun forces => nomatch correct.mpr forces⟩

/-- The verdict on a play, and what a loaded knowledge base answers about it, under any configuration and after
any symbols: the one built-in strategy forces the queens, the other the jacks, and neither any other card. -/
theorem forced_cards (builtins : r.HasBuiltins) (card : Nat) :
    (∀ session missing verdict last, r.isForced session "marriage" card missing = (.ok verdict, last) →
      verdict = if card ∈ [3, 8, 13, 18] then .forced else .notForced) ∧
    (∀ session missing verdict last, r.isForced session "trumpex" card missing = (.ok verdict, last) →
      verdict = if card ∈ [4, 9, 14, 19] then .forced else .notForced) ∧
    ∀ name ∈ ["marriage", "trumpex"], ∀ session missing verdict last,
      r.isForced session name card missing = (.ok verdict, last) →
        ∀ session' kb mid play last' b, r.load session' name = (.ok kb, mid) →
          mid.boolean (playName card) = (.ok play, last') → kb.entails (.symbol play) = .ok b →
            (b = true ↔ verdict = .forced) := by
  refine ⟨fun session missing verdict last answers => ?_, fun session missing verdict last answers => ?_, ?_⟩
  · rcases isForced_iff builtins.marriage answers with ⟨rfl, forces⟩ | ⟨rfl, free⟩
    · rw [if_pos (Strategy.marriage_forces_iff.mp forces)]
    · rw [if_neg fun queen => free (Strategy.marriage_forces_iff.mpr queen)]
  · rcases isForced_iff builtins.trumpExchange answers with ⟨rfl, forces⟩ | ⟨rfl, free⟩
    · rw [if_pos (Strategy.trumpExchange_forces_iff.mp forces)]
    · rw [if_neg fun jack => free (Strategy.trumpExchange_forces_iff.mpr jack)]
  · intro name builtin session missing verdict last answers session' kb mid play last' b result named entailed
    obtain ⟨s, known⟩ : ∃ s, r.get? name = some s := by
      rcases List.mem_pair.mp builtin with rfl | rfl
      · exact ⟨_, builtins.marriage⟩
      · exact ⟨_, builtins.trumpExchange⟩
    rw [entails_play_iff known result named entailed]
    rcases isForced_iff known answers with ⟨rfl, forces⟩ | ⟨rfl, free⟩
    · exact iff_of_true forces rfl
    · exact iff_of_false free nofun

/-- Beside another strategy and under resolution, in a session that has the play of a jack already. -/
theorem forced_cards_beside_another :
    let bluff : Strategy := ⟨"bluff", [[.played 5]], []⟩
    let r := (withBuiltins { procedure := .resolution }).register bluff
    let session := ((Session.empty 0).boolean (playName 14)).2
    r.HasBuiltins ∧ (r.isForced session "trumpex" 14 .abort).1 = .ok .forced ∧
      (r.isForced session "trumpex" 5 .fallThrough).1 = .ok .notForced ∧
      ∃ kb mid play last, r.load session "trumpex" = (.ok kb, mid) ∧
        mid.boolean (playName 14) = (.ok play, last) ∧ kb.entails (.symbol play) = .ok true := by
  intro bluff r session
  have builtins : r.HasBuiltins := (hasBuiltins_withBuiltins _).register (by decide)
  have forced : (r.isForced session "trumpex" 14 .abort).1 = .ok .forced := by decide +kernel
  have free : (r.isForced session "trumpex" 5 .fallThrough).1 = .ok .notForced := by decide +kernel
  clear_value r session
  obtain ⟨_, answers⟩ : ∃ last, r.isForced session "trumpex" 14 .abort = (.ok .forced, last) :=
    ⟨_, Prod.ext forced rfl⟩
  obtain ⟨kb, mid, play, b, result, named, entailed, -⟩ := isForced_ok builtins.trumpExchange answers
  have agree := (forced_cards builtins 14).2.2 "trumpex" (by simp) session .abort .forced _ answers session kb mid
    play _ b result named entailed
  exact ⟨builtins, forced, free, kb, mid, play, _, result, named, entailed.trans (congrArg Except.ok (agree.mpr rfl))⟩

end Registry

end Clausal
