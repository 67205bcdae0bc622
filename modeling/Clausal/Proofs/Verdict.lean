import Clausal.Proofs.Rereading
import Clausal.Proofs.Values

/-!
What the command line says of the clauses that it reads from a file. Whatever the
flags and options, its exit code and its answer say whether the clauses can be
satisfied, and its model lines and its count show the assignments that satisfy them,
if these are no more than can be counted. Then runs on one file do not contradict
each other. Beyond that a run ends without an answer, or its count wraps around and
the answer with it. Main statement: `run_agrees`.
-/

namespace Clausal.CommandLine

open Dimacs Text

/-- The lines that start with a letter. -/
def marked (mark : Char) (lines : List String) : List String :=
  lines.filter fun line => line.toList.head? = some mark

/-- The answer that goes with an exit code, as lines. -/
def answerLines (exitCode : Nat) : List String :=
  if exitCode = 10 then ["s SATISFIABLE"] else if exitCode = 20 then ["s UNSATISFIABLE"] else []

/-- The line that says how many models there are. -/
def countLine (m : Int) : String := "c " ++ toString m ++ " models"

/-- Whether a run ended with an answer. -/
def Result.Answers (r : Result) : Prop := r.exitCode = 10 ∨ r.exitCode = 20

/-- Whether an invocation goes through all models. -/
def Invocation.Enumerates (i : Invocation) : Prop := .models ∈ i.flags ∨ .count ∈ i.flags

instance (i : Invocation) : Decidable i.Enumerates := inferInstanceAs (Decidable (_ ∨ _))

/-- What holds of every result: its answer goes with its exit code, and its model lines show values that satisfy
the clauses read. -/
structure Sound (clauses : List (List Int)) (r : Result) : Prop where
  answer : marked 's' r.lines = answerLines r.exitCode
  values : ∀ line ∈ marked 'v' r.lines, ∃ values ∈ satisfying clauses, line = valuesLine clauses values

/-- What the result of an invocation is to say of the clauses read. -/
structure Agrees (i : Invocation) (clauses : List (List Int)) (r : Result) : Prop extends Sound clauses r where
  verdict : r.Answers → (r.exitCode = 10 ↔ ∃ β, Satisfies β clauses)
  models : .models ∈ i.flags → (marked 'v' r.lines).Nodup ∧
    Set.BijOn (valuesLine clauses) (satisfying clauses) {line | line ∈ marked 'v' r.lines}
  count : .count ∈ i.flags → ∀ m : Int, countLine m ∈ r.lines ↔ m = (satisfying clauses).ncard

/-- What the result of an invocation that goes through all models says, given their tally: the verdict is that of
the tally. Without one the run ends where the tally leaves its word. -/
structure Tallies (i : Invocation) (clauses : List (List Int)) (tally? : Option Int) (r : Result) : Prop where
  exitCode : r.exitCode = (tally?.map fun tally => if tally = 0 then 20 else 10).getD 101
  distinct : (marked 'v' r.lines).Nodup
  models : .models ∈ i.flags → tally? ≠ none →
    Set.BijOn (valuesLine clauses) (satisfying clauses) {line | line ∈ marked 'v' r.lines}
  fewer : .models ∈ i.flags → tally? = none → (marked 'v' r.lines).length = greatestTally
  count : .count ∈ i.flags → ∀ m, countLine m ∈ r.lines ↔ tally? = some m

section Marks

variable {mark : Char} {line : String} {lines : List String}

theorem marked_append (mark : Char) (lines more : List String) :
    marked mark (lines ++ more) = marked mark lines ++ marked mark more := List.filter_append ..

theorem marked_self (all : ∀ line ∈ lines, line.toList.head? = some mark) : marked mark lines = lines := by
  refine List.filter_eq_self.mpr fun line member => ?_
  simpa using all line member

theorem marked_nil {other : Char} (all : ∀ line ∈ lines, line.toList.head? = some other) (apart : other ≠ mark) :
    marked mark lines = [] := by
  refine List.filter_eq_nil_iff.mpr fun line member => ?_
  simpa [all line member] using apart

/-- A text goes on from its first letter. -/
theorem head?_append {more : String} (starts : line.toList.head? = some mark) :
    (line ++ more).toList.head? = some mark := by
  rw [String.toList_append, List.head?_append, starts]
  rfl

theorem head?_modelLine (kb : KnowledgeBase) (v : Valuation) :
    (Invocation.modelLine kb v).toList.head? = some 'v' := head?_append rfl

theorem head?_countLine (m : Int) : (countLine m).toList.head? = some 'c' := head?_append (head?_append rfl)

theorem countLine_inj {m n : Int} : countLine m = countLine n ↔ m = n := by
  refine ⟨fun same => ?_, congrArg _⟩
  have texts := String.toList_inj.mpr same
  simp only [countLine, String.toList_append] at texts
  have numerals := List.append_cancel_left (List.append_cancel_right texts)
  exact toString_integer_inj.mp (String.toList_inj.mp numerals)

end Marks

variable {clauses : List (List Int)} {kb : KnowledgeBase} {i : Invocation} {v : Valuation}

section Represented

variable (represents : Represents clauses kb)

include represents

theorem modelLine_of_mem (model : v ∈ kb.models) : ∃ values ∈ satisfying clauses,
    v.toList = true :: values ∧ Invocation.modelLine kb v = valuesLine clauses values := by
  obtain ⟨values, satisfies, whole⟩ := (represents.models v).mp model
  exact ⟨values, satisfies, whole, modelLine_eq represents whole⟩

/-- There is a model just if an assignment satisfies the clauses. -/
theorem exists_model_iff : (∃ v, v ∈ kb.models) ↔ ∃ β, Satisfies β clauses := by
  constructor
  · rintro ⟨v, model⟩
    obtain ⟨values, ⟨β, satisfies, -⟩, -⟩ := (represents.models v).mp model
    exact ⟨β, satisfies⟩
  · rintro ⟨β, satisfies⟩
    exact ⟨_, (represents.models (true :: (occurring clauses).map β).toArray).mpr ⟨_, ⟨β, satisfies, rfl⟩, rfl⟩⟩

/-- There are as many models as values that satisfy the clauses. -/
theorem ncard_satisfying : (satisfying clauses).ncard = kb.models.ncard := by
  have same : kb.models = (fun values : List Bool => (true :: values).toArray) '' satisfying clauses := by
    ext v
    rw [represents.models]
    refine exists_congr fun values => and_congr_right fun _ => ?_
    rw [← Array.toList_inj, eq_comm]
  have injective : Function.Injective fun values : List Bool => (true :: values).toArray := by
    intro values others same
    simpa using same
  rw [same, Set.ncard_image_of_injective _ injective]

/-- The lines of the models are those of the values that satisfy the clauses, each once. -/
theorem bijOn_modelLines {found : List Valuation} (distinct : found.Nodup) (all : ∀ v, v ∈ found ↔ v ∈ kb.models) :
    (found.map (Invocation.modelLine kb)).Nodup ∧
      Set.BijOn (valuesLine clauses) (satisfying clauses) {line | line ∈ found.map (Invocation.modelLine kb)} := by
  refine ⟨distinct.map_on fun v member w member' same => ?_, ?_, valuesLine_injOn clauses, ?_⟩
  · obtain ⟨values, satisfies, whole, line⟩ := modelLine_of_mem represents ((all v).mp member)
    obtain ⟨others, satisfies', whole', line'⟩ := modelLine_of_mem represents ((all w).mp member')
    have equal : values = others :=
      valuesLine_injOn clauses satisfies satisfies' (line.symm.trans (same.trans line'))
    exact Array.toList_inj.mp (by rw [whole, whole', equal])
  · intro values satisfies
    have whole : (true :: values).toArray.toList = true :: values := rfl
    have model : (true :: values).toArray ∈ kb.models := (represents.models _).mpr ⟨values, satisfies, whole⟩
    exact List.mem_map.mpr ⟨_, (all _).mpr model, modelLine_eq represents whole⟩
  · intro line member
    obtain ⟨v, listed, rfl⟩ := List.mem_map.mp member
    obtain ⟨values, satisfies, -, line⟩ := modelLine_of_mem represents ((all v).mp listed)
    exact ⟨values, satisfies, line.symm⟩

end Represented

section Shown

/-- Lines that each show a model. -/
def Shows (kb : KnowledgeBase) (lines : List String) : Prop :=
  ∀ line ∈ lines, ∃ v ∈ kb.models, line = Invocation.modelLine kb v

variable {lines : List String}

theorem Shows.head? (shows : Shows kb lines) : ∀ line ∈ lines, line.toList.head? = some 'v' := by
  intro line member
  obtain ⟨v, -, rfl⟩ := shows line member
  exact head?_modelLine kb v

theorem Shows.marked_eq (shows : Shows kb lines) : marked 'v' lines = lines := marked_self shows.head?

theorem Shows.unmarked (shows : Shows kb lines) : marked 's' lines = [] :=
  marked_nil shows.head? (by decide)

theorem Shows.values (shows : Shows kb lines) (represents : Represents clauses kb) :
    ∀ line ∈ lines, ∃ values ∈ satisfying clauses, line = valuesLine clauses values := by
  intro line member
  obtain ⟨v, model, rfl⟩ := shows line member
  obtain ⟨values, satisfies, -, line⟩ := modelLine_of_mem represents model
  exact ⟨values, satisfies, line⟩

theorem Shows.take (shows : Shows kb lines) (n : Nat) : Shows kb (lines.take n) :=
  fun line member => shows line (List.mem_of_mem_take member)

/-- The lines of the models found, if they are asked for. -/
def modelLines (i : Invocation) (kb : KnowledgeBase) : List String :=
  if .models ∈ i.flags then kb.search.rest.1.toList.map (Invocation.modelLine kb) else []

theorem shows_modelLines (below : kb.clauses.Below kb.atomCount) : Shows kb (modelLines i kb) := by
  intro line member
  unfold modelLines at member
  split at member
  · obtain ⟨v, listed, rfl⟩ := List.mem_map.mp member
    have found : v ∈ kb.search.rest.1 := Array.mem_toList_iff.mp listed
    exact ⟨v, KnowledgeBase.models_of_mem_rest below found, rfl⟩
  · cases member

/-- The line of the first model, if it is asked for. -/
def firstLines (i : Invocation) (kb : KnowledgeBase) (report : Report) : List String :=
  if report = .satisfiable ∧ .model ∈ i.flags then (kb.search.next.1.map (Invocation.modelLine kb)).toList else []

theorem shows_firstLines (below : kb.clauses.Below kb.atomCount) (report : Report) :
    Shows kb (firstLines i kb report) := by
  intro line member
  unfold firstLines at member
  split at member
  · obtain ⟨v, next, rfl⟩ := Option.map_eq_some_iff.mp (Option.mem_toList.mp member)
    exact ⟨v, KnowledgeBase.models_of_next below next, rfl⟩
  · cases member

/-- The line of a tally, if it is asked for. -/
def countLines (i : Invocation) (tally : Int) : List String := if .count ∈ i.flags then [countLine tally] else []

theorem head?_countLines (i : Invocation) (tally : Int) :
    ∀ line ∈ countLines i tally, line.toList.head? = some 'c' := by
  intro line member
  unfold countLines at member
  split at member
  · rw [List.mem_singleton.mp member]
    exact head?_countLine tally
  · cases member

theorem enumerate_eq (i : Invocation) (kb : KnowledgeBase) : i.enumerate kb =
    match i.config.platform.overflow.tally? kb.search.rest.1.size with
    | none => Invocation.overflowed ((modelLines i kb).take greatestTally)
    | some tally =>
      if kb.search.rest.2.phase = .stalled then Invocation.undecided (modelLines i kb) .endlessDraw
      else Invocation.answered (modelLines i kb ++ countLines i tally)
        (if tally = 0 then .unsatisfiable else .satisfiable) := rfl

theorem decide_eq (i : Invocation) (kb : KnowledgeBase) : i.decide kb =
    match kb.solve with
    | .error cause => Invocation.undecided [] cause
    | .ok outcome => Invocation.answered
        (Invocation.countersLine outcome.counters :: firstLines i kb outcome.report) outcome.report := rfl

end Shown

section Answers

/-- An answer is marked by its letter alone. -/
theorem marked_answered {mark : Char} {lines : List String} {report : Report} (apart : mark ≠ 's') :
    marked mark (Invocation.answered lines report).lines = marked mark lines := by
  have starts : ∀ line ∈ [(Invocation.answer report).2], line.toList.head? = some 's' := by
    refine List.forall_mem_singleton.mpr ?_
    cases report <;> rfl
  have other : marked mark [(Invocation.answer report).2] = [] := marked_nil starts apart.symm
  rw [Invocation.answered, marked_append, other, List.append_nil]

/-- It goes with the exit code. -/
theorem answerLines_answered {lines : List String} {report : Report} (silent : marked 's' lines = []) :
    marked 's' (Invocation.answered lines report).lines =
      answerLines (Invocation.answered lines report).exitCode := by
  have listed : marked 's' [(Invocation.answer report).2] = answerLines (Invocation.answer report).1 := by
    cases report <;> rfl
  rw [Invocation.answered, marked_append, silent, List.nil_append, listed]

theorem exitCode_answered {lines : List String} {report : Report} :
    (Invocation.answered lines report).exitCode = 10 ↔ report = .satisfiable := by
  cases report <;> simp [Invocation.answered, Invocation.answer]

theorem mem_answered {lines : List String} {report : Report} (m : Int) :
    countLine m ∈ (Invocation.answered lines report).lines ↔ countLine m ∈ lines := by
  have other : countLine m ∉ [(Invocation.answer report).2] := by
    intro member
    have head := head?_countLine m
    rw [List.mem_singleton.mp member] at head
    cases report <;> cases head
  rw [Invocation.answered, List.mem_append, or_iff_left other]

/-- A failure to decide after some models is no answer. -/
theorem sound_undecided {lines : List String} (represents : Represents clauses kb) (shows : Shows kb lines)
    (cause : Error) : Sound clauses (Invocation.undecided lines cause) := by
  have marks : ∀ mark : Char, 'c' ≠ mark →
      marked mark (Invocation.undecided lines cause).lines = marked mark lines := by
    intro mark apart
    rw [Invocation.undecided, marked_append,
      marked_nil (List.forall_mem_singleton.mpr (head?_append rfl)) apart, List.append_nil]
  refine ⟨?_, ?_⟩
  · rw [marks 's' (by decide), shows.unmarked]
    rfl
  · rw [marks 'v' (by decide), shows.marked_eq]
    exact shows.values represents

/-- Nor is a tally that left its word. -/
theorem sound_overflowed {lines : List String} (represents : Represents clauses kb) (shows : Shows kb lines) :
    Sound clauses (Invocation.overflowed lines) := by
  refine ⟨shows.unmarked, fun line member => shows.values represents line ?_⟩
  rwa [Invocation.overflowed, shows.marked_eq] at member

/-- The model lines of an answer after models and a tally are those of the models. -/
theorem marked_enumerated {lines : List String} (shows : Shows kb lines) (tally : Int) (report : Report) :
    marked 'v' (Invocation.answered (lines ++ countLines i tally) report).lines = lines := by
  rw [marked_answered (by decide), marked_append, shows.marked_eq,
    marked_nil (head?_countLines i tally) (by decide), List.append_nil]

theorem sound_enumerated {lines : List String} (represents : Represents clauses kb) (shows : Shows kb lines)
    (tally : Int) (report : Report) :
    Sound clauses (Invocation.answered (lines ++ countLines i tally) report) := by
  refine ⟨answerLines_answered ?_, ?_⟩
  · rw [marked_append, shows.unmarked, marked_nil (head?_countLines i tally) (by decide), List.append_nil]
  · rw [marked_enumerated shows]
    exact shows.values represents

theorem sound_enumerate (represents : Represents clauses kb) (below : kb.clauses.Below kb.atomCount) :
    Sound clauses (i.enumerate kb) := by
  have shows : Shows kb (modelLines i kb) := shows_modelLines below
  rw [enumerate_eq]
  split
  · exact sound_overflowed represents (shows.take _)
  · next tally _ =>
    split
    · exact sound_undecided represents shows .endlessDraw
    · exact sound_enumerated represents shows tally _

theorem Shows.countLine_notMem {lines : List String} (shows : Shows kb lines) (m : Int) : countLine m ∉ lines := by
  intro member
  cases (head?_countLine m).symm.trans (shows.head? _ member)

/-- If the search does not stall, the models are tallied. -/
theorem tallies_enumerate (represents : Represents clauses kb) (below : kb.clauses.Below kb.atomCount)
    (live : kb.search.rest.2.phase ≠ .stalled) :
    Tallies i clauses (i.config.platform.overflow.tally? (satisfying clauses).ncard) (i.enumerate kb) := by
  have shows : Shows kb (modelLines i kb) := shows_modelLines below
  obtain ⟨distinct, listed⟩ := KnowledgeBase.mem_rest_search below live
  have whole := bijOn_modelLines represents distinct fun v => Array.mem_toList_iff.trans (listed v)
  have distinct' : (modelLines i kb).Nodup := by
    unfold modelLines
    split
    · exact whole.1
    · exact List.nodup_nil
  rw [enumerate_eq, ncard_satisfying represents, KnowledgeBase.ncard_models below live]
  split
  · next none =>
    have many := (Overflow.tally?_eq_none.mp none).2
    rw [none]
    have shown : marked 'v' (Invocation.overflowed ((modelLines i kb).take greatestTally)).lines =
        (modelLines i kb).take greatestTally := (shows.take _).marked_eq
    refine ⟨rfl, ?_, fun _ some => absurd rfl some, fun asked _ => ?_, fun _ m => ?_⟩
    · rw [shown]
      exact distinct'.sublist (List.take_sublist _ _)
    · rw [shown, modelLines, if_pos asked, List.length_take, List.length_map, Array.length_toList,
        Nat.min_eq_left (Nat.le_of_lt many)]
    · exact iff_of_false ((shows.take _).countLine_notMem m) nofun
  · next tally found =>
    rw [if_neg live, found]
    have shown := marked_enumerated (i := i) shows tally (if tally = 0 then .unsatisfiable else .satisfiable)
    refine ⟨?_, ?_, fun asked _ => ?_, nofun, fun asked m => ?_⟩
    · rw [Option.map_some, Option.getD_some]
      split <;> rfl
    · rwa [shown]
    · rw [shown, modelLines, if_pos asked]
      exact whole.2
    · rw [mem_answered, List.mem_append, or_iff_right (shows.countLine_notMem m), countLines, if_pos asked,
        List.mem_singleton, countLine_inj, Option.some.injEq, eq_comm]

/-- Values that are no more than can be counted are told rightly. -/
theorem Tallies.agrees {overflow : Overflow} {r : Result} (sound : Sound clauses r)
    (few : (satisfying clauses).ncard ≤ greatestTally)
    (tallies : Tallies i clauses (overflow.tally? (satisfying clauses).ncard) r) : Agrees i clauses r := by
  rw [overflow.tally?_of_le few] at tallies
  refine ⟨sound, fun _ => ?_, fun asked => ⟨tallies.distinct, tallies.models asked nofun⟩, fun asked m => ?_⟩
  · rw [tallies.exitCode, ← nonempty_satisfying, ← Set.ncard_pos (finite_satisfying clauses)]
    rw [Option.map_some, Option.getD_some]
    split <;> omega
  · rw [tallies.count asked, Option.some.injEq, eq_comm]

/-- Deciding satisfiability agrees with the clauses, and shows a model at most. -/
theorem agrees_decide (represents : Represents clauses kb) (normal : ∀ c ∈ kb.clauses, c.Normal)
    (below : kb.clauses.Below kb.atomCount) (one : ¬ i.Enumerates) : Agrees i clauses (i.decide kb) := by
  obtain ⟨noModels, noCount⟩ := not_or.mp one
  rw [decide_eq]
  split
  · next cause failed =>
    refine ⟨sound_undecided represents (by simp [Shows]) cause, ?_, fun asked => absurd asked noModels,
      fun asked => absurd asked noCount⟩
    simp [Result.Answers, Invocation.undecided]
  · next outcome solved =>
    have shows : Shows kb (firstLines i kb outcome.report) := shows_firstLines below outcome.report
    have counters : ∀ mark : Char, 'c' ≠ mark → marked mark (Invocation.countersLine outcome.counters ::
        firstLines i kb outcome.report) = marked mark (firstLines i kb outcome.report) := by
      intro mark apart
      have comment : marked mark [Invocation.countersLine outcome.counters] = [] := by
        refine marked_nil (List.forall_mem_singleton.mpr ?_) apart
        simp only [Invocation.countersLine, String.toList_append, List.head?_append]
        rfl
      rw [← List.singleton_append, marked_append, comment, List.nil_append]
    refine ⟨⟨answerLines_answered ?_, ?_⟩, fun _ => ?_, fun asked => absurd asked noModels,
      fun asked => absurd asked noCount⟩
    · rw [counters 's' (by decide), shows.unmarked]
    · rw [marked_answered (by decide), counters 'v' (by decide), shows.marked_eq]
      exact shows.values represents
    · rw [exitCode_answered, ← exists_model_iff represents]
      exact KnowledgeBase.solve_report normal below solved

/-- The second result is the first one after some comments, none of which looks like a count. -/
structure Follows (r s : Result) : Prop where
  exitCode : s.exitCode = r.exitCode
  marks : ∀ mark : Char, 'c' ≠ mark → marked mark s.lines = marked mark r.lines
  counts : ∀ m, countLine m ∈ s.lines ↔ countLine m ∈ r.lines

section Follow

variable {r s : Result}

theorem Follows.answers (follows : Follows r s) : s.Answers ↔ r.Answers := by
  rw [Result.Answers, Result.Answers, follows.exitCode]

theorem Sound.follow (sound : Sound clauses r) (follows : Follows r s) : Sound clauses s :=
  ⟨by rw [follows.marks 's' (by decide), follows.exitCode, sound.answer],
    by rw [follows.marks 'v' (by decide)]; exact sound.values⟩

theorem Agrees.follow (agrees : Agrees i clauses r) (follows : Follows r s) : Agrees i clauses s := by
  refine ⟨agrees.toSound.follow follows, ?_, ?_, fun asked m => (follows.counts m).trans (agrees.count asked m)⟩
  · rw [follows.answers, follows.exitCode]
    exact agrees.verdict
  · rw [follows.marks 'v' (by decide)]
    exact agrees.models

theorem Tallies.follow {tally? : Option Int} (tallies : Tallies i clauses tally? r) (follows : Follows r s) :
    Tallies i clauses tally? s := by
  have shown := follows.marks 'v' (by decide)
  refine ⟨follows.exitCode.trans tallies.exitCode, ?_, ?_, ?_,
    fun asked m => (follows.counts m).trans (tallies.count asked m)⟩
  · rw [shown]
    exact tallies.distinct
  · rw [shown]
    exact tallies.models
  · rw [shown]
    exact tallies.fewer

end Follow

end Answers

section Run

/-- A comment that does not start like the line of a count, with a digit or a minus sign in third place. -/
def Remark (line : String) : Prop :=
  line.toList.head? = some 'c' ∧ ∃ c, line.toList[2]? = some c ∧ c.isDigit = false ∧ c ≠ '-'

theorem Remark.append {line : String} (remark : Remark line) (more : String) : Remark (line ++ more) := by
  obtain ⟨starts, c, third, other⟩ := remark
  refine ⟨head?_append starts, c, ?_, other⟩
  rw [String.toList_append, List.getElem?_append_left (List.getElem?_eq_some_iff.mp third).1]
  exact third

theorem Remark.ne_countLine {line : String} (remark : Remark line) (m : Int) : countLine m ≠ line := by
  obtain ⟨-, c, third, notDigit, notMinus⟩ := remark
  obtain ⟨d, ds, numeral, start⟩ := head_integer m
  have place : (countLine m).toList[2]? = some d := by
    rw [countLine, String.toList_append, String.toList_append, numeral]
    rfl
  rintro rfl
  obtain rfl : d = c := Option.some.inj (place.symm.trans third)
  rcases start with digit | minus
  · cases notDigit.symm.trans digit
  · exact notMinus minus

/-- The first lines of a run. -/
def openingLines (path : String) (summary : Summary) : List String :=
  ("c Reading DIMACS file from " ++ quote path) :: Invocation.summaryLines summary

theorem remark_openingLines (path : String) (summary : Summary) : ∀ line ∈ openingLines path summary, Remark line := by
  have opening : Remark "c Reading DIMACS file from " := ⟨rfl, 'R', rfl, rfl, by decide⟩
  have expected : Remark "c Expected " := ⟨rfl, 'E', rfl, rfl, by decide⟩
  have read : Remark "c Read " := ⟨rfl, 'R', rfl, rfl, by decide⟩
  rw [openingLines, List.forall_mem_cons]
  refine ⟨opening.append _, ?_⟩
  rw [Invocation.summaryLines, List.forall_mem_append, List.forall_mem_singleton]
  refine ⟨?_, (read.append _).append _⟩
  split
  · exact List.forall_mem_singleton.mpr ((((expected.append _).append _).append _).append _)
  · simp

variable {source : Source} {summary : Summary} {last : Session} {p : Option Problem}

/-- Whether each draw in the calls for models returns, and the models can be counted, if an invocation goes
through them. -/
def Unhindered (i : Invocation) (clauses : List (List Int)) (kb : KnowledgeBase) : Prop :=
  i.Enumerates → kb.search.CallsReturn ∧ (satisfying clauses).ncard ≤ greatestTally

/-- Whether the procedure decides: each draw of its search returns, or resolution keeps within its limit. -/
def Decides (kb : KnowledgeBase) : Prop :=
  match kb.config.procedure with
  | .backtracking => kb.firstSearch.NextReturns
  | .resolution => (saturate (kb.config.platform.arrange kb.clauses.toList) kb.config.resolutionLimit).1 ≠ .exceeded

theorem exists_outcome (below : kb.clauses.Below kb.atomCount) (decides : Decides kb) :
    ∃ outcome, kb.solve = .ok outcome := by
  unfold Decides at decides
  unfold KnowledgeBase.solve
  cases procedure : kb.config.procedure with
  | backtracking =>
    simp only [procedure] at decides
    obtain ⟨blank, fresh⟩ := KnowledgeBase.blank_firstSearch below
    simp only [KnowledgeBase.solveBySearch_eq]
    rcases (blank.paused fresh).next_spec decides with ⟨v, t, next, -⟩ | ⟨t, next, ending⟩
    · simp [next]
    · simp [next, ending.phase]
  | resolution =>
    simp only [procedure] at decides
    simp only [KnowledgeBase.solveBySaturation]
    split
    · exact ⟨_, rfl⟩
    · exact ⟨_, rfl⟩
    · next exceeded => exact absurd (by rw [exceeded]) decides

theorem answers_answered (lines : List String) (report : Report) : (Invocation.answered lines report).Answers := by
  cases report
  · exact .inl rfl
  · exact .inr rfl

theorem live_of_answers (answers : (i.enumerate kb).Answers) : kb.search.rest.2.phase ≠ .stalled := by
  rw [enumerate_eq] at answers
  intro stalled
  split at answers
  · simp [Result.Answers, Invocation.overflowed] at answers
  · rw [if_pos stalled] at answers
    simp [Result.Answers, Invocation.undecided] at answers

section Given

variable (result : (KnowledgeBase.empty i.config).read (.empty 0) source = (.ok summary, last, kb))

include result

theorem sorted_of_read : kb.clauses.Below kb.atomCount ∧ ∀ c ∈ kb.clauses, c.Normal := by
  obtain ⟨added, faithful⟩ := (KnowledgeBase.Reachable.of_read result).faithful
  exact ⟨faithful.below, faithful.normal⟩

theorem blank_of_read : kb.search.Blank := Search.blank_start kb.config (sorted_of_read result).1

/-- If each draw returns, all models are gone through. -/
theorem live_of_returns (returns : kb.search.CallsReturn) : kb.search.rest.2.phase ≠ .stalled :=
  Search.rest_live (blank_of_read result) rfl returns

/-- What is said of the clauses read follows the first lines. -/
theorem follows_result :
    Follows (if i.Enumerates then i.enumerate kb else i.decide kb) (i.result (some source)) := by
  have remarks := remark_openingLines i.path summary
  have whole : i.result (some source) =
      let rest := if i.Enumerates then i.enumerate kb else i.decide kb
      { rest with lines := openingLines i.path summary ++ rest.lines } := by
    simp only [Invocation.result, result]
    rfl
  rw [whole]
  refine ⟨rfl, fun mark other => ?_, fun m => ?_⟩
  · rw [marked_append, marked_nil (fun line member => (remarks line member).1) other, List.nil_append]
  · have apart : countLine m ∉ openingLines i.path summary := fun member => (remarks _ member).ne_countLine m rfl
    rw [List.mem_append, or_iff_right apart]

theorem follows_enumerate (many : i.Enumerates) : Follows (i.enumerate kb) (i.result (some source)) := by
  have follows := follows_result result
  rwa [if_pos many] at follows

theorem follows_decide (one : ¬ i.Enumerates) : Follows (i.decide kb) (i.result (some source)) := by
  have follows := follows_result result
  rwa [if_neg one] at follows

theorem Unhindered.live (unhindered : Unhindered i clauses kb) (many : i.Enumerates) :
    kb.search.rest.2.phase ≠ .stalled ∧ (satisfying clauses).ncard ≤ greatestTally :=
  ⟨live_of_returns result (unhindered many).1, (unhindered many).2⟩

variable (holds : Holds source p clauses)

include holds

theorem sound_result : Sound clauses (i.result (some source)) := by
  have represents : Represents clauses kb := represents_of_read holds result
  obtain ⟨below, normal⟩ := sorted_of_read result
  by_cases many : i.Enumerates
  · exact (sound_enumerate represents below).follow (follows_enumerate result many)
  · exact (agrees_decide represents normal below many).toSound.follow (follows_decide result many)

theorem tallies_result (many : i.Enumerates) (live : kb.search.rest.2.phase ≠ .stalled) :
    Tallies i clauses (i.config.platform.overflow.tally? (satisfying clauses).ncard) (i.result (some source)) :=
  (tallies_enumerate (represents_of_read holds result) (sorted_of_read result).1 live).follow
    (follows_enumerate result many)

/-- The result of an invocation agrees with the clauses read, if it can count the values that satisfy them. -/
theorem agrees_result (few : i.Enumerates → kb.search.rest.2.phase ≠ .stalled ∧
    (satisfying clauses).ncard ≤ greatestTally) : Agrees i clauses (i.result (some source)) := by
  have represents : Represents clauses kb := represents_of_read holds result
  obtain ⟨below, normal⟩ := sorted_of_read result
  by_cases many : i.Enumerates
  · exact (tallies_result result holds many (few many).1).agrees (sound_result result holds) (few many).2
  · exact (agrees_decide represents normal below many).follow (follows_decide result many)

/-- So does an answer, as there the search did not stall. -/
theorem verdict_result (few : i.Enumerates → (satisfying clauses).ncard ≤ greatestTally)
    (answers : (i.result (some source)).Answers) :
    (i.result (some source)).exitCode = 10 ↔ ∃ β, Satisfies β clauses := by
  refine (agrees_result result holds fun many => ⟨?_, few many⟩).verdict answers
  exact live_of_answers ((follows_enumerate result many).answers.mp answers)

/-- If nothing hinders it, it ends with an answer. -/
theorem answers_result (unhindered : Unhindered i clauses kb) (decides : i.Enumerates ∨ Decides kb) :
    (i.result (some source)).Answers := by
  by_cases many : i.Enumerates
  · obtain ⟨live, few⟩ := unhindered.live result many
    have exit := (tallies_result result holds many live).exitCode
    rw [Overflow.tally?_of_le _ few, Option.map_some, Option.getD_some] at exit
    rw [Result.Answers, exit]
    split <;> simp
  · obtain ⟨outcome, solved⟩ := exists_outcome (sorted_of_read result).1 (decides.resolve_left many)
    rw [(follows_decide result many).answers, decide_eq, solved]
    exact answers_answered _ _

end Given

/-- Comments alone, with another exit code, are neither an answer nor a model. -/
theorem not_answers_of_comments {r : Result} (exit : r.exitCode ≤ 2)
    (comments : ∀ line ∈ r.lines, line.toList.head? = some 'c') :
    ¬ (r.Answers ∨ marked 'v' r.lines ≠ []) := by
  rw [marked_nil comments (by decide)]
  rintro ((exit' | exit') | shown)
  · omega
  · omega
  · exact shown rfl

section Arguments

variable {platform : Platform} {args : List String}

/-- What the options of a configuration are set to does not change its platform. -/
theorem platform_of_setGiven {setting : Config.Setting Binary64} {value? : Option Binary64} {config set : Config}
    (keeps : ∀ value c, (setting.put value c).platform = c.platform)
    (result : Invocation.setGiven setting value? config = .ok set) : set.platform = config.platform := by
  unfold Invocation.setGiven at result
  split at result
  · cases result
    rfl
  · next value =>
    split at result
    · next changed =>
      unfold Config.Setting.set at changed
      split at changed
      · cases changed
        cases result
        exact keeps value config
      · cases changed
    · cases result

theorem platform_of_config {a : Arguments} {config : Config} (result : Invocation.config? platform a = .ok config) :
    config.platform = platform := by
  simp only [Invocation.config?, bind, Except.bind] at result
  split at result
  · cases result
  · next first polarity =>
    split at result
    · cases result
    · next second bias =>
      have kept : second.platform = platform :=
        (platform_of_setGiven (fun _ _ => rfl) bias).trans (platform_of_setGiven (fun _ _ => rfl) polarity)
      cases result
      split <;> exact kept

/-- Arguments are not understood, or they are, and make an invocation on the platform. -/
theorem ofArgs_spec : (∃ r, Invocation.ofArgs args platform = .error r ∧ r.exitCode ≤ 2 ∧
      ∀ line ∈ r.lines, line.toList.head? = some 'c') ∨
    ∃ i, Invocation.ofArgs args platform = .ok i ∧ i.config.platform = platform := by
  have usage : Result.usage.exitCode ≤ 2 ∧ ∀ line ∈ Result.usage.lines, line.toList.head? = some 'c' :=
    ⟨Nat.le_refl 2, by simp [Result.usage]⟩
  unfold Invocation.ofArgs
  cases Arguments.addAll {} args with
  | none => exact .inl ⟨_, rfl, usage⟩
  | some a =>
    cases path : a.path with
    | none =>
      simp only [path]
      exact .inl ⟨_, rfl, usage⟩
    | some path' =>
      cases config : Invocation.config? platform a with
      | error message =>
        simp only [path, config]
        exact .inl ⟨_, rfl, Nat.le_succ 1, List.forall_mem_singleton.mpr (head?_append rfl)⟩
      | ok config' =>
        simp only [path, config]
        exact .inr ⟨_, rfl, platform_of_config config⟩

theorem platform_of_ofArgs (given : Invocation.ofArgs args platform = .ok i) : i.config.platform = platform := by
  rcases ofArgs_spec with ⟨r, failed, -⟩ | ⟨j, given', kept⟩
  · cases given.symm.trans failed
  · cases given.symm.trans given'
    exact kept

end Arguments

/-- The arguments of a run are understood, its file can be opened, and clauses are read from it. -/
structure Reads (args : List String) (openFile : String → Option Source) (platform : Platform) (i : Invocation)
    (source : Source) (summary : Summary) (kb : KnowledgeBase) : Prop where
  given : Invocation.ofArgs args platform = .ok i
  opened : openFile i.path = some source
  result : ∃ last, (KnowledgeBase.empty i.config).read (.empty 0) source = (.ok summary, last, kb)

variable {args : List String} {openFile : String → Option Source} {platform : Platform}

theorem Reads.run_eq (reads : Reads args openFile platform i source summary kb) :
    run args openFile platform = i.result (some source) := by
  rw [← reads.opened, run, reads.given]

/-- A run that ends with an answer or shows a model has read a file. -/
theorem reads_of_answers
    (answers : (run args openFile platform).Answers ∨ marked 'v' (run args openFile platform).lines ≠ []) :
    ∃ i source summary kb, Reads args openFile platform i source summary kb := by
  rcases @ofArgs_spec platform args with ⟨r, failed, exit, comments⟩ | ⟨i, given, -⟩
  · rw [run, failed] at answers
    exact absurd answers (not_answers_of_comments exit comments)
  · simp only [run, given] at answers
    cases opened : openFile i.path with
    | none =>
      rw [opened] at answers
      refine absurd answers (not_answers_of_comments (Nat.le_succ 1) ?_)
      refine List.forall_mem_cons.mpr ⟨head?_append rfl, List.forall_mem_singleton.mpr rfl⟩
    | some source =>
      rcases result : (KnowledgeBase.empty i.config).read (.empty 0) source with ⟨_ | summary, last, kb⟩
      · next cause =>
        simp only [opened, Invocation.result, result] at answers
        refine absurd answers (not_answers_of_comments (Nat.le_succ 1) ?_)
        exact List.forall_mem_cons.mpr ⟨head?_append rfl, List.forall_mem_singleton.mpr (head?_append rfl)⟩
      · exact ⟨i, source, summary, kb, given, opened, last, result⟩

/-- An answer is right, if an invocation that goes through all models can count them. -/
theorem Reads.verdict (reads : Reads args openFile platform i source summary kb) (holds : Holds source p clauses)
    (few : i.Enumerates → (satisfying clauses).ncard ≤ greatestTally)
    (answers : (run args openFile platform).Answers) :
    (run args openFile platform).exitCode = 10 ↔ ∃ β, Satisfies β clauses := by
  obtain ⟨last, result⟩ := reads.result
  rw [reads.run_eq] at answers ⊢
  exact verdict_result result holds few answers

/-- If each clause read has a number and its opposite, all values are tallied. -/
theorem tallies_of_opposite {flags : List Flag} (opened : ∀ path, openFile path = some source)
    (given : (Invocation.ofArgs args platform).toOption.map (fun i =>
      let reading := (KnowledgeBase.empty i.config).read (.empty 0) source
      (i.flags, reading.1.toOption, decide reading.2.2.search.bias.Impossible)) = some (flags, some summary, true))
    (opposed : ∀ c ∈ clausesOf (spoken source), ∃ n ∈ c, n ≠ 0 ∧ -n ∈ c) :
    Holds source summary.problem (clausesOf (spoken source)) ∧ ∃ i : Invocation, i.flags = flags ∧ (i.Enumerates →
      Tallies i (clausesOf (spoken source))
        (platform.overflow.tally? (2 ^ (occurring (clausesOf (spoken source))).length))
        (run args openFile platform)) := by
  obtain ⟨i, understood, facts⟩ := Option.map_eq_some_iff.mp given
  obtain ⟨rfl, read, zero⟩ : i.flags = flags ∧ _ ∧ _ := by simpa only [Prod.mk.injEq] using facts
  rcases result : (KnowledgeBase.empty i.config).read (.empty 0) source with ⟨_ | found, last, kb⟩
  · rw [result] at read
    cases read
  · rw [result] at read zero
    cases read
    have reads : Reads args openFile platform i source summary kb := by
      refine ⟨?_, opened i.path, last, result⟩
      cases invocation : Invocation.ofArgs args platform with
      | error r => rw [invocation] at understood; cases understood
      | ok j => rw [invocation] at understood; cases understood; rfl
    obtain ⟨clauses, holds, -⟩ := KnowledgeBase.holds_of_read result
    obtain rfl := holds.clauses_eq
    have returns : kb.search.CallsReturn :=
      Search.callsReturn_of_unbiased (blank_of_read result) rfl (of_decide_eq_true zero)
    refine ⟨holds, i, rfl, fun many => ?_⟩
    have tallies := tallies_result result holds many (live_of_returns result returns)
    rwa [ncard_satisfying_of_opposite opposed, platform_of_ofArgs reads.given, ← reads.run_eq] at tallies

/-- What a run says of the clauses that it reads from its file. Its answer goes with its exit code, and its model
lines satisfy the clauses. If it goes through all models, they are tallied as the platform does it, and if they
can be counted, all that it says is right. Then nothing but a failed draw or the limit of resolution keeps it from
an answer. Only a run that reads its file answers or shows a model, and two runs on one file do not contradict
each other, if those that count the models can do so. -/
theorem run_agrees (args : List String) (openFile : String → Option Source) (platform : Platform) :
    (∀ i source summary kb, Reads args openFile platform i source summary kb →
      ∃ clauses, Holds source summary.problem clauses ∧ (occurring clauses).Nodup ∧ (satisfying clauses).Finite ∧
        Sound clauses (run args openFile platform) ∧
        (Unhindered i clauses kb → Agrees i clauses (run args openFile platform) ∧
          (i.Enumerates ∨ Decides kb → (run args openFile platform).Answers)) ∧
        (i.Enumerates → kb.search.CallsReturn →
          Tallies i clauses (platform.overflow.tally? (satisfying clauses).ncard) (run args openFile platform))) ∧
    ((run args openFile platform).Answers ∨ marked 'v' (run args openFile platform).lines ≠ [] →
      ∃ i source summary kb, Reads args openFile platform i source summary kb) ∧
    ∀ others platform' i j, Invocation.ofArgs args platform = .ok i → Invocation.ofArgs others platform' = .ok j →
      openFile i.path = openFile j.path →
      (i.Enumerates ∨ j.Enumerates → ∀ source p clauses, openFile i.path = some source → Holds source p clauses →
        (satisfying clauses).ncard ≤ greatestTally) →
      (run args openFile platform).exitCode = 10 → (run others openFile platform').exitCode ≠ 20 := by
  refine ⟨?_, reads_of_answers, ?_⟩
  · intro i source summary kb reads
    obtain ⟨last, result⟩ := reads.result
    obtain ⟨clauses, holds, -⟩ := KnowledgeBase.holds_of_read result
    rw [reads.run_eq]
    refine ⟨clauses, holds, nodup_occurring clauses, finite_satisfying clauses, sound_result result holds,
      fun unhindered => ⟨agrees_result result holds (unhindered.live result), answers_result result holds unhindered⟩,
      fun many returns => ?_⟩
    rw [← platform_of_ofArgs reads.given]
    exact tallies_result result holds many (live_of_returns result returns)
  · intro others platform' i j given given' shared few sat unsat
    obtain ⟨i', source, summary, kb, reads⟩ := reads_of_answers (.inl (.inl sat))
    obtain ⟨j', source', summary', kb', reads'⟩ := reads_of_answers (.inl (.inr unsat))
    -- the file is the same, and so are the clauses that it holds
    cases given.symm.trans reads.given
    cases given'.symm.trans reads'.given
    cases reads.opened.symm.trans (shared.trans reads'.opened)
    obtain ⟨last, result⟩ := reads.result
    obtain ⟨clauses, holds, -⟩ := KnowledgeBase.holds_of_read result
    have countable := fun many => few many source _ clauses reads.opened holds
    have satisfiable := (reads.verdict holds (fun many => countable (.inl many)) (.inl sat)).mp sat
    have contrary := (reads'.verdict holds (fun many => countable (.inr many)) (.inr unsat)).mpr satisfiable
    omega

/-- All models of a file with a symbol that the clauses leave open, then an answer by resolution. -/
theorem run_agrees_open :
    let source : Source := .ofText "p cnf 3 2\n2 -3 0\n1 -1 0\n"
    let openFile : String → Option Source := fun path => if path = "f" then some source else none
    let args := ["f", "--models", "--count"]
    let others := ["--procedure=resolution", "f", "--no-pure", "--model"]
    run args openFile = ⟨10, ["c Reading DIMACS file from \x22f\x22", "c Expected 3 atoms and 2 clauses",
      "c Read 2 clauses", "v -2 -3 -1 0", "v -2 -3 1 0", "v 2 -3 -1 0", "v 2 -3 1 0", "v 2 3 -1 0", "v 2 3 1 0",
      "c 6 models", "s SATISFIABLE"]⟩ ∧ (run others openFile).exitCode ≠ 20 ∧
      ∃ i summary kb clauses, Reads args openFile .standard i source summary kb ∧
        Holds source summary.problem clauses ∧ Unhindered i clauses kb ∧ Agrees i clauses (run args openFile) ∧
        (run args openFile).Answers := by
  intro source openFile args others
  have lines : run args openFile = ⟨10, ["c Reading DIMACS file from \x22f\x22", "c Expected 3 atoms and 2 clauses",
      "c Read 2 clauses", "v -2 -3 -1 0", "v -2 -3 1 0", "v 2 -3 -1 0", "v 2 -3 1 0", "v 2 3 -1 0", "v 2 3 1 0",
      "c 6 models", "s SATISFIABLE"]⟩ := by decide +kernel
  have exit : (run args openFile).exitCode = 10 := congrArg Result.exitCode lines
  have exit' : (run others openFile).exitCode = 10 := by decide +kernel
  have only : ∀ {path found}, openFile path = some found → found = source := by
    intro path found opened
    simp only [openFile] at opened
    split at opened
    · cases opened; rfl
    · cases opened
  obtain ⟨agrees, ended, apart⟩ := run_agrees args openFile .standard
  obtain ⟨i, found, summary, kb, reads⟩ := ended (.inl (.inl exit))
  obtain ⟨j, found', _, _, reads'⟩ := (run_agrees others openFile .standard).2.1 (.inl (.inl exit'))
  obtain ⟨clauses, holds, -, -, -, told, tallied⟩ := agrees i found summary kb reads
  obtain rfl : found = source := only reads.opened
  have shared : openFile i.path = openFile j.path := by rw [reads.opened, reads'.opened, only reads'.opened]
  obtain ⟨last, result⟩ := reads.result
  have flags : (Invocation.ofArgs args).toOption.map Invocation.flags = some [.count, .models] := by decide +kernel
  have zero : (Invocation.ofArgs args).toOption.map (fun i =>
      decide ((KnowledgeBase.empty i.config).read (.empty 0) source).2.2.search.bias.Impossible) = some true := by
    decide +kernel
  rw [reads.given] at flags zero
  simp only [Except.toOption, Option.map_some, Option.some.injEq, result, decide_eq_true_eq] at flags zero
  have many : i.Enumerates := .inl (by simp [flags])
  have returns : kb.search.CallsReturn :=
    Search.callsReturn_of_unbiased (blank_of_read result) rfl zero
  have six : 6 = (satisfying clauses).ncard := by
    have listed : countLine 6 ∈ (run args openFile).lines := by
      rw [lines]
      decide +kernel
    have counted := ((tallied many returns).count (by simp [flags]) 6).mp listed
    simp only [Platform.standard, Overflow.tally?] at counted
    split at counted
    · exact (Int.ofNat.inj (Option.some.inj counted)).symm
    · cases counted
  have unhindered : Unhindered i clauses kb := fun _ => ⟨returns, by rw [← six]; decide⟩
  obtain ⟨right, ends⟩ := told unhindered
  refine ⟨lines, apart others .standard i j reads.given reads'.given shared (fun _ source' p clauses' opened holds' => ?_)
    exit, i, summary, kb, clauses, reads, holds, unhindered, right, ends (.inl many)⟩
  cases reads.opened.symm.trans opened
  cases holds.clauses_eq.symm.trans holds'.clauses_eq
  rw [← six]
  decide

/-- A line with one clause, in which each symbol up to a number is beside its opposite. -/
def openLine (n : Nat) : List Char :=
  (List.range' 1 n).flatMap (fun k => (toString k ++ " -" ++ toString k ++ " ").toList) ++ ['0']

/-- There are more assignments of 31 symbols that a clause leaves open than can be counted. If sums are checked,
the run ends at the last of them, with a model line too few and without a count. If they wrap around, the count is
negative, and for 32 symbols it is zero: then the clause is said to have no model, though a run without the count
finds one. -/
theorem run_overflows :
    let result (flags : List String) (n : Nat) (overflow : Overflow) :=
      run ("f" :: flags) (fun _ => some [some (openLine n)]) { Platform.standard with overflow := overflow }
    (∀ n ∈ [31, 32], ∃ clauses, Holds [some (openLine n)] none clauses ∧ (satisfying clauses).ncard = 2 ^ n) ∧
      (result ["--models", "--count"] 31 .checked).exitCode = 101 ∧
      (marked 'v' (result ["--models", "--count"] 31 .checked).lines).length = 2 ^ 31 - 1 ∧
      (∀ m, countLine m ∉ (result ["--models", "--count"] 31 .checked).lines) ∧
      countLine (-2 ^ 31) ∈ (result ["--count"] 31 .wrapping).lines ∧
      countLine 0 ∈ (result ["--count"] 32 .wrapping).lines ∧
      (result ["--count"] 32 .wrapping).exitCode = 20 ∧ (result [] 32 .wrapping).exitCode = 10 := by
  intro result
  have opposed : ∀ n ∈ [31, 32], ∀ c ∈ clausesOf (spoken [some (openLine n)]), ∃ k ∈ c, k ≠ 0 ∧ -k ∈ c := by
    decide +kernel
  have symbols : ∀ n ∈ [31, 32], (occurring (clausesOf (spoken [some (openLine n)]))).length = n := by decide +kernel
  obtain ⟨holds, i, flags, checked⟩ := @tallies_of_opposite [some (openLine 31)] ⟨none, 1⟩ ["f", "--models", "--count"]
    (fun _ => some [some (openLine 31)]) { Platform.standard with overflow := .checked } [.count, .models]
    (fun _ => rfl) (by decide +kernel) (opposed 31 (by simp))
  obtain ⟨-, j, flags', wrapped⟩ := @tallies_of_opposite [some (openLine 31)] ⟨none, 1⟩ ["f", "--count"]
    (fun _ => some [some (openLine 31)]) { Platform.standard with overflow := .wrapping } [.count]
    (fun _ => rfl) (by decide +kernel) (opposed 31 (by simp))
  obtain ⟨holds', k, flags'', denied⟩ := @tallies_of_opposite [some (openLine 32)] ⟨none, 1⟩ ["f", "--count"]
    (fun _ => some [some (openLine 32)]) { Platform.standard with overflow := .wrapping } [.count]
    (fun _ => rfl) (by decide +kernel) (opposed 32 (by simp))
  rw [symbols 31 (by simp)] at checked wrapped
  rw [symbols 32 (by simp)] at denied
  have checked := checked (.inl (by simp [flags]))
  have wrapped := wrapped (.inr (by simp [flags']))
  have denied := denied (.inr (by simp [flags'']))
  refine ⟨fun n member => ⟨_, ?_, (ncard_satisfying_of_opposite (opposed n member)).trans (by rw [symbols n member])⟩,
    checked.exitCode, checked.fewer (by simp [flags]) rfl, fun m => ?_,
    (wrapped.count (by simp [flags']) _).mpr (by decide), (denied.count (by simp [flags'']) _).mpr (by decide),
    denied.exitCode, by decide +kernel⟩
  · rcases List.mem_pair.mp member with rfl | rfl
    · exact holds
    · exact holds'
  · rw [checked.count (by simp [flags])]
    nofun

end Run

end Clausal.CommandLine
