import Clausal.Proofs.Numeral

/-!
The layout of a written formula. If no name of a symbol has a line feed, the lines that
are read are the ones that were written: comments, which are skipped, a problem line
and one line of tokens for each clause. What follows the comments depends on the clauses
and the count of atoms only. Main statement: `lines_dimacs`.
-/

namespace Clausal

namespace Text

theorem newline_not_mem {cs : List Char} (inked : Inked cs) : '\n' ∉ cs := by
  intro member
  have blank : isBlank '\n' = false := inked.2 '\n' member
  revert blank
  decide

section Pieces

variable {α : Type} [BEq α] [LawfulBEq α] {mark : α} {piece rest : List α}

theorem beq_mark_of_not_mem (plain : mark ∉ piece) : ∀ x ∈ piece, (x == mark) = false :=
  fun _ member => beq_eq_false_iff_ne.mpr fun same => plain (same ▸ member)

theorem endedBy_last (some : piece ≠ []) (plain : mark ∉ piece) : endedBy mark piece = [piece] := by
  rw [endedBy, List.splitOn, List.splitOnP_eq_singleton (beq_mark_of_not_mem plain)]
  simp [some]

theorem endedBy_cons (plain : mark ∉ piece) :
    endedBy mark (piece ++ mark :: rest) = piece :: endedBy mark rest := by
  have split : (piece ++ mark :: rest).splitOn mark = piece :: rest.splitOn mark :=
    List.splitOnP_append_cons_of_forall_mem (beq_mark_of_not_mem plain) _ (beq_self_eq_true _) rest
  rw [endedBy, endedBy, split]
  rcases left : rest.splitOn mark with _ | ⟨next, more⟩
  · exact absurd left (List.splitOn_ne_nil _ _)
  · rw [List.getLast?_cons_cons, List.dropLast_cons_cons]
    split <;> rfl

/-- Lines that each end with a mark are taken apart again. -/
theorem endedBy_flatMap {lines : List (List α)} (plain : ∀ l ∈ lines, mark ∉ l) :
    endedBy mark (lines.flatMap (· ++ [mark])) = lines := by
  induction lines with
  | nil => rfl
  | cons l lines ih =>
    obtain ⟨first, rest⟩ := List.forall_mem_cons.mp plain
    rw [List.flatMap_cons, List.append_assoc, List.singleton_append, endedBy_cons first, ih rest]

end Pieces

theorem ofText_join {lines : List String} (plain : ∀ l ∈ lines, '\n' ∉ l.toList) :
    Source.ofText (String.join (lines.map (· ++ "\n"))) = lines.map fun l => some l.toList := by
  have characters : (String.join (lines.map (· ++ "\n"))).toList =
      (lines.map String.toList).flatMap (· ++ ['\n']) := by
    simp [String.toList_join, List.flatMap_map]
  rw [Source.ofText, characters, endedBy_flatMap (by simpa using plain), List.map_map]
  rfl

/-- Words with a blank between each two are taken apart again. -/
theorem words_intercalate {ws : List (List Char)} (inked : ∀ w ∈ ws, Inked w) :
    words ([' '].intercalate ws) = ws := by
  have blank : isBlank ' ' = true := by decide
  induction ws with
  | nil => rfl
  | cons w ws ih =>
    obtain ⟨first, rest⟩ := List.forall_mem_cons.mp inked
    cases ws with
    | nil =>
      rw [List.intercalate_singleton, words, List.splitOnP_eq_singleton first.2]
      simp [first.1]
    | cons v ws =>
      rw [List.intercalate_cons_cons, words, List.append_assoc, List.singleton_append,
        List.splitOnP_append_cons_of_forall_mem first.2 _ blank, List.filter_cons_of_pos (by simp [first.1])]
      exact congrArg _ (ih rest)

theorem firstInked?_of_head {c : Char} {cs : List Char} (inked : isBlank c = false) :
    firstInked? (c :: cs) = some c := by
  simp [firstInked?, inked]

end Text

open Text

/-- The symbol that an origin names. -/
def Origin.symbol? : Origin → Option Symbol
  | boolean s => some s
  | indicator s _ => some s
  | top => none
  | auxiliary => none

/-- No symbol that an atom stands for has a line feed in its name. -/
def KnowledgeBase.PlainNames (kb : KnowledgeBase) : Prop :=
  ∀ o ∈ kb.origins, ∀ s ∈ o.symbol?, '\n' ∉ s.name.toList

instance (kb : KnowledgeBase) : Decidable kb.PlainNames :=
  inferInstanceAs (Decidable (∀ o ∈ kb.origins, ∀ s ∈ o.symbol?, '\n' ∉ s.name.toList))

namespace Dimacs

variable {kb : KnowledgeBase} {r : Reader} {taken : Nat} {o : Origin}

/-- The comments of a written formula. -/
def comments (kb : KnowledgeBase) : List String :=
  kb.origins.toList.zipIdx.filterMap fun (origin, atom) => comment? atom origin

/-- What follows the comments in a written formula. -/
def body (kb : KnowledgeBase) : List String := problemLine kb :: kb.clauses.toList.map clauseLine

theorem lines_eq (kb : KnowledgeBase) : lines kb = comments kb ++ body kb := by
  rw [lines, comments, body, List.append_assoc, List.singleton_append]

section Characters

theorem newline_not_mem_note {note : String} (plain : ∀ s ∈ o.symbol?, '\n' ∉ s.name.toList)
    (noted : o.note? = some note) : '\n' ∉ note.toList := by
  cases o with
  | top =>
    cases noted
    decide
  | boolean s =>
    cases noted
    exact plain s rfl
  | indicator s value =>
    cases noted
    rw [String.toList_append, String.toList_append, List.mem_append, List.mem_append, not_or, not_or]
    exact ⟨⟨plain s rfl, by decide⟩, newline_not_mem (inked_integer value)⟩
  | auxiliary => cases noted

/-- A comment is one line, and starts with its mark. -/
theorem comment?_some {line : String} {atom : Atom}
    (plain : ∀ s ∈ o.symbol?, '\n' ∉ s.name.toList) (written : comment? atom o = some line) :
    '\n' ∉ line.toList ∧ ∃ rest, line.toList = 'c' :: rest := by
  obtain ⟨note, noted, rfl⟩ := Option.map_eq_some_iff.mp written
  have named := newline_not_mem_note plain noted
  have counted := newline_not_mem (inked_natural (atom + 1))
  constructor
  · simp only [String.toList_append, List.mem_append, not_or]
    exact ⟨⟨⟨by decide, counted⟩, by decide⟩, named⟩
  · simp only [String.toList_append]
    exact ⟨_, rfl⟩

/-- The words of the line of a clause. -/
def clauseWords (c : Clause) : List (List Char) := c.map (fun l => (toString (number l)).toList) ++ [['0']]

theorem inked_clauseWords (c : Clause) : ∀ w ∈ clauseWords c, Inked w := by
  refine List.forall_mem_append.mpr ⟨List.forall_mem_map.mpr fun l _ => inked_integer _, ?_⟩
  exact List.forall_mem_singleton.mpr (inked_natural 0)

theorem toList_clauseLine (c : Clause) : (clauseLine c).toList = [' '].intercalate (clauseWords c) := by
  rw [clauseLine, String.toList_intercalate, List.map_append, List.map_map]
  rfl

def problemWords (kb : KnowledgeBase) : List (List Char) :=
  [['p'], ['c', 'n', 'f'], (toString kb.atomCount).toList, (toString kb.clauseCount).toList]

theorem inked_problemWords (kb : KnowledgeBase) : ∀ w ∈ problemWords kb, Inked w := by
  have marks : Inked ['p'] ∧ Inked ['c', 'n', 'f'] := by simp [Inked, isBlank, blankRanges]
  simp only [problemWords, List.forall_mem_cons]
  exact ⟨marks.1, marks.2, inked_natural _, inked_natural _, by simp⟩

theorem toList_problemLine (kb : KnowledgeBase) :
    (problemLine kb).toList = [' '].intercalate (problemWords kb) := by
  simp [problemLine, problemWords, String.toList_append, List.intercalate_cons_cons]

end Characters

section Lines

theorem newline_not_mem_intercalate {ws : List (List Char)} (inked : ∀ w ∈ ws, Inked w) :
    '\n' ∉ [' '].intercalate ws := by
  induction ws with
  | nil => simp [List.intercalate]
  | cons w ws ih =>
    obtain ⟨first, rest⟩ := List.forall_mem_cons.mp inked
    cases ws with
    | nil => simpa using newline_not_mem first
    | cons v ws =>
      rw [List.intercalate_cons_cons, List.mem_append, List.mem_append, not_or, not_or]
      exact ⟨⟨newline_not_mem first, by decide⟩, ih rest⟩

/-- Every line of the formula is one line. -/
theorem newline_not_mem_lines (plain : kb.PlainNames) : ∀ line ∈ lines kb, '\n' ∉ line.toList := by
  intro line member
  rw [lines_eq] at member
  rcases List.mem_append.mp member with comment | rest
  · obtain ⟨⟨o, atom⟩, listed, written⟩ := List.mem_filterMap.mp comment
    exact (comment?_some (plain o (Array.mem_toList_iff.mp (List.fst_mem_of_mem_zipIdx listed))) written).1
  · rcases List.mem_cons.mp rest with rfl | clause
    · rw [toList_problemLine]
      exact newline_not_mem_intercalate (inked_problemWords kb)
    · obtain ⟨c, -, rfl⟩ := List.mem_map.mp clause
      rw [toList_clauseLine]
      exact newline_not_mem_intercalate (inked_clauseWords c)

theorem ofText_comment (cs : List Char) : Line.ofText ('c' :: cs) = .skip := by
  rw [Line.ofText, firstInked?_of_head (by decide)]
  rfl

theorem ofText_problemLine (atoms : kb.atomCount ≤ Word.greatestCount)
    (clauses : kb.clauseCount ≤ Word.greatestCount) :
    Line.ofText (problemLine kb).toList = .problem (some ⟨kb.atomCount, kb.clauseCount⟩) := by
  have first : firstInked? (problemLine kb).toList = some 'p' := by
    rw [toList_problemLine, problemWords, List.intercalate_cons_cons]
    exact firstInked?_of_head (by decide)
  rw [Line.ofText, first, toList_problemLine, words_intercalate (inked_problemWords kb)]
  simp only [problemWords, Problem.ofWords?, count?_toString atoms, count?_toString clauses]
  rfl

theorem ofText_clauseLine (c : Clause) : Line.ofText (clauseLine c).toList = .tokens (clauseWords c) := by
  have first : ∃ z : Int, ∃ rest, [' '].intercalate (clauseWords c) = (toString z).toList ++ rest := by
    cases c with
    | nil => exact ⟨0, [], rfl⟩
    | cons l c =>
      cases rest : clauseWords c with
      | nil => simp [clauseWords] at rest
      | cons v ws =>
        have split : clauseWords (l :: c) = (toString (number l)).toList :: v :: ws := by
          rw [← rest]
          rfl
        rw [split, List.intercalate_cons_cons, List.append_assoc]
        exact ⟨_, _, rfl⟩
  obtain ⟨z, rest, whole⟩ := first
  obtain ⟨ch, cs, digits, start⟩ := head_integer z
  have found : firstInked? (clauseLine c).toList = some ch := by
    rw [toList_clauseLine, whole, digits]
    exact firstInked?_of_head ((inked_integer z).2 ch (digits ▸ List.mem_cons_self))
  have marks : ch ≠ 'c' ∧ ch ≠ '%' ∧ ch ≠ 'p' := by
    refine ⟨?_, ?_, ?_⟩ <;> rintro rfl <;> revert start <;> decide
  rw [Line.ofText, found]
  split
  · next same => cases same
  · next same => exact absurd (Option.some.inj same) marks.1
  · next same => exact absurd (Option.some.inj same) marks.2.1
  · next same => exact absurd (Option.some.inj same) marks.2.2
  · rw [toList_clauseLine, words_intercalate (inked_clauseWords c)]

end Lines

/-- Comments are skipped. -/
theorem lines_skip {skipped : List String} {rest : Source}
    (marked : ∀ line ∈ skipped, ∃ cs, line.toList = 'c' :: cs) :
    r.lines taken (skipped.map (fun line => some line.toList) ++ rest) =
      r.lines (taken + skipped.length) rest := by
  induction skipped generalizing taken with
  | nil => rfl
  | cons line skipped ih =>
    obtain ⟨⟨cs, mark⟩, later⟩ := List.forall_mem_cons.mp marked
    rw [List.map_cons, List.cons_append, Reader.lines, mark, ofText_comment]
    rw [ih later, List.length_cons, Nat.add_assoc, Nat.add_comm 1]

/-- What is read of a written formula is what follows its comments. -/
theorem lines_dimacs (plain : kb.PlainNames) : r.lines taken (.ofText kb.dimacs) =
    r.lines (taken + (comments kb).length) ((body kb).map fun line => some line.toList) := by
  rw [KnowledgeBase.dimacs, ofText_join (newline_not_mem_lines plain), lines_eq, List.map_append]
  refine lines_skip fun line member => ?_
  obtain ⟨⟨o, atom⟩, listed, written⟩ := List.mem_filterMap.mp member
  exact (comment?_some (plain o (Array.mem_toList_iff.mp (List.fst_mem_of_mem_zipIdx listed))) written).2

end Dimacs

end Clausal
