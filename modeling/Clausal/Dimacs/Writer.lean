import Clausal.KnowledgeBase.Basic

/-!
# Writing DIMACS

A knowledge base is written as comments that say what the atoms stand for, a problem line, and a
line for each clause. Atoms are written one higher than they are, since a zero ends a clause.
-/

namespace Clausal

/-- What a comment says of an atom; nothing of one that compilation introduced. -/
def Origin.note? : Origin → Option String
  | top => some "true"
  | boolean s => some s.name
  | indicator s value => some (s.name ++ "=" ++ toString value)
  | auxiliary => none

namespace Dimacs

/-- The number of a literal: its atom one higher, negative if its value as a number is. -/
def number (l : Literal) : Int := if l.toInt < 0 then l.toInt - 1 else l.toInt + 1

def comment? (atom : Atom) (origin : Origin) : Option String :=
  origin.note?.map fun note => "c " ++ toString (atom + 1) ++ " " ++ note

def problemLine (kb : KnowledgeBase) : String :=
  "p cnf " ++ toString kb.atomCount ++ " " ++ toString kb.clauseCount

/-- The numbers of a clause and a zero. -/
def clauseLine (c : Clause) : String :=
  String.intercalate " " (c.map (fun l => toString (number l)) ++ ["0"])

def lines (kb : KnowledgeBase) : List String :=
  kb.origins.toList.zipIdx.filterMap (fun (origin, atom) => comment? atom origin) ++
    [problemLine kb] ++ kb.clauses.toList.map clauseLine

end Dimacs

/-- The DIMACS text of a knowledge base. -/
def KnowledgeBase.dimacs (kb : KnowledgeBase) : String :=
  String.join ((Dimacs.lines kb).map (· ++ "\n"))

end Clausal
